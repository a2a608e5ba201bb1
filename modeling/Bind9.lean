import Bind9.Name
import Bind9.Compress
import Bind9.CompressRun
import Bind9.Netmap
import Bind9.NetmapReply
import Bind9.MessageSig
import Bind9.Lib.Patricia
import Bind9.NameOrder
import Bind9.Rpz
import Bind9.SignerIdentity
import Bind9.RpzKey
import Bind9.RpzTree
import Bind9.RpzRun
import Bind9.Acl
import Bind9.RadixTree
import Bind9.RadixTable
import Bind9.AclMerge
import Bind9.Lib.VersionChain
import Bind9.Rbtdb
import Bind9.RbtdbNode
import Bind9.RbtdbInv
import Bind9.RbtdbSpec
import Bind9.RbtdbStep
import Bind9.RbtdbRun
import Bind9.Region
import Bind9.RdataLayout
import Bind9.RdataOrder
import Bind9.RdataSign
import Bind9.RdataStruct
import Bind9.RdataRoundtrip
import Bind9.Lib.MergeJoin
import Bind9.Diff
import Bind9.DbDiff
import Bind9.DbDiffExact
import Bind9.Lib.FileImage
import Bind9.Lib.Serial
import Bind9.Journal
import Bind9.JournalFormat
import Bind9.JournalLog
import Bind9.JournalCommit
import Bind9.JournalIter
import Bind9.TsigSign
import Bind9.TsigOracle
import Bind9.TsigExchange
import Bind9.Lib.Hoare
import Bind9.ZoneDb
import Bind9.ZoneView
import Bind9.Xfrin
import Bind9.XfrinDelta
import Bind9.XfrinCommit
import Bind9.XfrinRecv
import Bind9.XfrinAuth
import Bind9.Ssu
import Bind9.Update
import Bind9.UpdatePolicy
import Bind9.RawZone
import Bind9.RawDump
import Bind9.RawLoad
import Bind9.Lib.Threads
import Bind9.Rwlock
import Bind9.RwlockAtomic
import Bind9.RwlockAtomicRun
import Bind9.Isccc
import Bind9.NetmapRecv
import Bind9.IscccFromwire
import Bind9.Taskmgr
import Bind9.TaskmgrTokens
import Bind9.TaskmgrTask
import Bind9.TaskmgrMoves
import Bind9.TaskmgrRun
import Bind9.TaskmgrPrivilege
import Bind9.Dispatch
import Bind9.DispatchEvents
import Bind9.DispatchRun
import Bind9.DispatchSafe
import Bind9.NameWire
import Bind9.NameFromwire
import Bind9.NameText
import Bind9.NameFromtext
import Bind9.NameTotext
import Bind9.RadixSearch
import Bind9.RadixRemove
import Bind9.RpzName
import Bind9.CacheNode
import Bind9.CacheRun
import Bind9.DiffMinimal
import Bind9.Lex
import Bind9.NameRdata
import Bind9.Loc
import Bind9.LocText
import Bind9.LocRead
import Bind9.SlabBytes
import Bind9.SlabImage
import Bind9.SlabWrite
import Bind9.SlabMerge
import Bind9.SlabUnion
import Bind9.SlabSubtract
import Bind9.SlabDedup
import Bind9.SlabFromrdataset
import Bind9.SlabRoundtrip
import Bind9.JournalIndex
import Bind9.JournalSafe
import Bind9.Lib.Calendar
import Bind9.Time
import Bind9.Ttl
import Bind9.NsecBitmap
import Bind9.Lib.Enumeration
import Bind9.RdataIter
import Bind9.RdataCase
import Bind9.Lib.SortedLists
import Bind9.UpdatePrereq
import Bind9.Base32
import Bind9.Nsec3
import Bind9.NameTree
import Bind9.Lib.CyclicOrder
import Bind9.Nsec3Chain
import Bind9.TsigLength
import Bind9.Lib.Chunks
import Bind9.BaseText
import Bind9.Base32Text
import Bind9.Base64
import Bind9.Hex
import Bind9.Genname
import Bind9.GennameFields
import Bind9.Generate
import Bind9.RawSafe
import Bind9.IscccTowire
import Bind9.Lib.Runs
import Bind9.ZoneAdmit
import Bind9.ZoneBatch
import Bind9.NetmapSend
import Bind9.IscTime
import Bind9.NetmapTable
import Bind9.SsuNames
import Bind9.Netaddr
import Bind9.Portlist
import Bind9.Symtab
