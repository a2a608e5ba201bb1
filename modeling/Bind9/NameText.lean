import Bind9.NameFromwire

/-! # Names as text

`dns_name_fromtext` of `lib/dns/name.c`.  Its state machine is `ftStep`, its local variables are `FtLocals`, and its accesses to the
tables and to the target are checked: an index that is out of range is `Stop.overrun`.  A `char` is signed, so a byte from 0x80 on is
a negative index of `maptolower`. -/

namespace Bind9

inductive FtState where
  | init
  | start
  | ordinary
  | initialescape
  | escape
  | escdecimal
  | at
deriving DecidableEq, Repr

/-- The local variables of `dns_name_fromtext` that change in the loop; `label` is the place of a length byte in `ndata`, and
`offsets` the entries that have been made. -/
structure FtLocals where
  state : FtState
  value : ℕ
  count : ℕ
  digits : ℕ
  nrem : ℕ
  nused : ℕ
  labels : ℕ
  done : Bool
  ndata : Bytes
  label : ℕ
  offsets : List ℕ
deriving DecidableEq, Repr

/-- What the loop never changes: the space for the name, and `DNS_NAME_DOWNCASE`. -/
structure FtEnv where
  nmax : ℕ
  downcase : Bool
deriving DecidableEq, Repr

/-- `isdigit(c & 0xff)`. -/
def isDigit (c : UInt8) : Bool := 48 ≤ c.toNat && c.toNat ≤ 57

/-- The index `(int)c` into a table of 256 entries. -/
def tableIndex (c : UInt8) : Exec ℕ := if c.toNat < 128 then .ok c.toNat else .error .overrun

def digitvalue (c : UInt8) : Exec ℕ := do
  let i ← tableIndex c
  return i - 48

variable (env : FtEnv)

/-- `c`, or `maptolower[(int)c]`. -/
def ftLower (c : UInt8) : Exec UInt8 :=
  if env.downcase then do
    let i ← tableIndex c
    return maptolower (UInt8.ofNat i)
  else .ok c

/-- `value`, or `maptolower[value]`. -/
def ftLowerValue (value : ℕ) : Exec UInt8 :=
  if env.downcase then do
    inRange (value < 256)
    return maptolower (UInt8.ofNat value)
  else .ok (UInt8.ofNat value)

/-- `nrem--`, of an `unsigned int`. -/
def decr (n : ℕ) : ℕ := (n + (2 ^ 32 - 1)) % 2 ^ 32

variable (v : FtLocals) (c : UInt8)

/-- `*ndata++ = c; nrem--; nused++`. -/
def ftPut : Exec FtLocals := do
  inRange (v.ndata.length < env.nmax)
  return { v with ndata := v.ndata ++ [c], nrem := decr v.nrem, nused := v.nused + 1 }

/-- `*label = count; labels++; offsets[labels] = nused`. -/
def ftClose : Exec FtLocals := do
  inRange (v.label < env.nmax)
  require (v.labels + 1 ≤ 127)
  inRange (v.labels + 1 < 128)
  return { v with
    ndata := v.ndata.set v.label (UInt8.ofNat v.count)
    labels := v.labels + 1
    offsets := v.offsets.take (v.labels + 1) ++ [v.nused] }

/-- The root label, at the end of the text. -/
def ftRoot : Exec FtLocals := do
  let v ← ftPut env v 0
  return { v with labels := v.labels + 1, done := true }

/-- A byte of a label. -/
def ftChar : Exec FtLocals :=
  if 63 ≤ v.count then stop .labeltoolong
  else do
    let c ← ftLower env c
    ftPut env { v with count := v.count + 1, state := .ordinary } c

/-- A dot behind a label. -/
def ftDot (tlen : ℕ) : Exec FtLocals :=
  if v.count = 0 then stop .emptylabel
  else do
    let v ← ftClose env v
    if tlen = 0 then ftRoot env { v with state := .start } else return { v with state := .start }

def ftOrdinary (tlen : ℕ) : Exec FtLocals :=
  if c = 46 then ftDot env v tlen
  else if c = 92 then .ok { v with state := .escape }
  else ftChar env v c

def ftStart (tlen : ℕ) : Exec FtLocals :=
  let v := { v with
    label := v.ndata.length
    ndata := v.ndata ++ [0]
    nrem := decr v.nrem
    nused := v.nused + 1
    count := 0 }
  if c = 92 then .ok { v with state := .initialescape }
  else if v.nrem = 0 then stop .nospace
  else ftOrdinary env { v with state := .ordinary } c tlen

def ftInit (tlen : ℕ) : Exec FtLocals :=
  if c = 46 then
    if tlen ≠ 0 then stop .emptylabel else ftRoot env v
  else if c = 64 ∧ tlen = 0 then .ok { v with state := .at }
  else ftStart env v c tlen

def ftEscdecimal : Exec FtLocals :=
  if isDigit c = false then stop .badescape
  else do
    let digit ← digitvalue c
    let v := { v with value := v.value * 10 + digit, digits := v.digits + 1 }
    if v.digits ≠ 3 then return v
    else if 255 < v.value then stop .badescape
    else if 63 ≤ v.count then stop .labeltoolong
    else do
      let c ← ftLowerValue env v.value
      ftPut env { v with count := v.count + 1, state := .ordinary } c

def ftEscape : Exec FtLocals :=
  if isDigit c = false then ftChar env v c
  else ftEscdecimal env { v with digits := 0, value := 0, state := .escdecimal } c

/-- One turn of the loop; `tlen` bytes of the text are left behind `c`. -/
def ftStep (tlen : ℕ) : Exec FtLocals :=
  match v.state with
  | .init => ftInit env v c tlen
  | .start => ftStart env v c tlen
  | .ordinary => ftOrdinary env v c tlen
  | .initialescape => if c = 91 then stop .badlabeltype else ftEscape env v c
  | .escape => ftEscape env v c
  | .escdecimal => ftEscdecimal env v c
  | .at => .error .assertion

/-- The loop, and what it leaves of the text. -/
def ftLoop (env : FtEnv) (v : FtLocals) : Bytes → Exec (FtLocals × Bytes)
  | [] => .ok (v, [])
  | c :: rest =>
    if 0 < v.nrem ∧ v.done = false then do
      let v ← ftStep env v c rest.length
      ftLoop env v rest
    else .ok (v, c :: rest)

/-- The bytes of a label of the origin. -/
def ftCopy (env : FtEnv) (v : FtLocals) : Bytes → Exec FtLocals
  | [] => .ok v
  | c :: rest => do
    let c ← ftLower env c
    inRange (v.ndata.length < env.nmax)
    ftCopy env { v with ndata := v.ndata ++ [c] } rest

/-- The next label of the origin has an offset. -/
def ftOffset (n1 : ℕ) : Exec FtLocals :=
  if n1 = 0 then .ok v
  else do
    require (v.labels ≤ 127)
    inRange (v.labels < 128)
    return { v with offsets := v.offsets.take v.labels ++ [v.nused] }

/-- The loop over the labels of the origin, of which `fuel` bytes are left at most. -/
def ftOrigin (env : FtEnv) : ℕ → FtLocals → Bytes → Exec FtLocals
  | _, v, [] => .ok v
  | 0, _, _ :: _ => .error .assertion
  | fuel + 1, v, n2 :: rest => do
    require (n2.toNat ≤ 63)
    inRange (v.ndata.length < env.nmax)
    inRange (n2.toNat ≤ rest.length)
    let v ← ftCopy env { v with ndata := v.ndata ++ [n2], nused := v.nused + n2.toNat + 1 } (rest.take n2.toNat)
    let v ← ftOffset { v with labels := v.labels + 1 } (rest.length - n2.toNat)
    ftOrigin env fuel v (rest.drop n2.toNat)

/-- A label that the end of the text closes. -/
def ftLast : Exec FtLocals :=
  if v.state = .ordinary then do
    require (v.count != 0)
    ftClose env v
  else .ok v

/-- The origin is put behind a relative name, and makes it absolute if it is. -/
def ftAppend : Option DnsName → Exec (FtLocals × Bool)
  | none => .ok (v, false)
  | some o =>
    if v.nrem < o.ndata.length then stop .nospace
    else do
      let v ← ftOrigin env o.ndata.length v o.ndata
      return (v, o.absolute)

/-- `dns_name_fromtext` behind the loop: the local variables, and whether the name is absolute. -/
def ftEnd (rest : Bytes) (origin : Option DnsName) : Exec (FtLocals × Bool) :=
  if v.done then .ok (v, true)
  else if v.nrem = 0 then stop .nospace
  else do
    require (rest.length == 0)
    if v.state ≠ .ordinary ∧ v.state ≠ .at then stop .unexpectedend
    else do
      let v ← ftLast env v
      ftAppend env v origin

/-- The local variables on entry. -/
def ftInitial (nmax : ℕ) : FtLocals := ⟨.init, 0, 0, 0, nmax, 0, 0, false, [], 0, [0]⟩

/-- The loop and what comes behind it: the local variables, whether the name is absolute, and what is left of the text. -/
def ftRun (text : Bytes) (origin : Option DnsName) : Exec (FtLocals × Bool × Bytes) := do
  let (v, rest) ← ftLoop env (ftInitial env.nmax) text
  let (v, absolute) ← ftEnd env v rest origin
  return (v, absolute, rest)

/-- `dns_name_fromtext` on the text from `current` on in the used bytes of the source.  Bytes behind `target->used` do not
count. -/
def dnsNameFromtext (source : Bytes) (current : ℕ) (origin : Option DnsName) (downcase : Bool) (target : Buffer)
    (table : Bool) : Exec NameResult :=
  match ftRun ⟨min target.available 255, downcase⟩ (source.drop current) origin with
  | .error (.result r) => .ok ⟨.empty table, current, target, r⟩
  | .error e => .error e
  | .ok (v, absolute, rest) =>
    .ok ⟨⟨v.ndata.take v.nused, v.labels, absolute, if table then some v.offsets else none⟩,
      current + ((source.drop current).length - rest.length), target.put (v.ndata.take v.nused), .success⟩

end Bind9
