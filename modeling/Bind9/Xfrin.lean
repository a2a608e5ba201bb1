import Bind9.JournalCommit
import Bind9.ZoneDb
import Bind9.Lib.Hoare

/-! # Incoming zone transfers

The state machine of `lib/dns/xfrin.c`: `xfr_rr` takes the records of a response one by one, finds out whether they are
a whole zone (AXFR) or a sequence of changes (IXFR), and stores them.

The zone's database has a current version, which everybody sees, and at most one version that the transfer writes
(`ver`).  The journal is the list of its transactions; the bytes of the file are the subject of `Journal`, and
`writeTransaction_iff` says that a commit does the same to both.  A function outside this file may fail for reasons that
are not in its arguments (memory, the disk, a policy): `World.faults` says for one call after the other whether it does.
A failed `INSIST` or `REQUIRE` is `Stop.assertion`, every other result that is not `ISC_R_SUCCESS` is `Stop.result`; what
was done until then stays. -/

namespace Bind9.Xfrin

open Diff ZoneDb Journal Serial

inductive State where
  | soaquery
  | gotsoa
  | initialsoa
  | firstdata
  | ixfrDelsoa
  | ixfrDel
  | ixfrAddsoa
  | ixfrAdd
  | ixfrEnd
  | axfr
  | axfrEnd
deriving DecidableEq, Repr

inductive Reqtype where
  | soa
  | ixfr
  | axfr
deriving DecidableEq, Repr

/-- `xfr->db`: no database, that of the zone, or a new one that is being loaded. -/
inductive Database where
  | null
  | zone
  | load (z : Zone)
deriving DecidableEq

/-- Why a call fails; `late` is for `dns_journal_commit`, when the error comes after the new header was written. -/
structure Fault where
  result : Result
  late : Bool
deriving DecidableEq, Repr

/-- What the transfer takes from the zone and from the generated code. -/
structure Env extends ZoneDb.Env where
  origin : Name
  forced : Bool
  /-- `dns_rdatatype_ismeta`. -/
  ismeta : UInt16 → Bool

/-- `dns_xfrin_ctx_t`, with the current version of the zone and the transactions in the zone's journal file; `none` is a
zone without journal.  `journal` is the open journal and its transaction. -/
structure Ctx where
  reqtype : Reqtype
  checkid : Bool
  db : Database
  zone : Zone
  ver : Option Zone
  diff : Tuples
  difflen : ℕ
  state : State
  endSerial : UInt32
  isIxfr : Bool
  requestSerial : UInt32
  currentSerial : UInt32
  journalfile : Option (List Txn)
  journal : Option (Option Tuples)

/-- The transfer and the faults of the calls to come. -/
structure World where
  xfr : Ctx
  faults : List (Option Fault)

/-- What the functions of the transfer do. -/
abbrev XfrM := EStateM Stop World

def context : XfrM Ctx := do
  let w ← get
  pure w.xfr

/-- A change of the context. -/
def update (f : Ctx → Ctx) : XfrM Unit := modify (fun w => { w with xfr := f w.xfr })

/-- Returning a result other than `ISC_R_SUCCESS`. -/
def fail {α : Type} (r : Result) : XfrM α := throw (.result r)

def insist (b : Bool) : XfrM Unit := if b then pure () else throw .assertion

/-- A step that is taken on a condition. -/
def runIf (b : Bool) (x : XfrM Unit) : XfrM Unit := if b then x else pure ()

/-- The outcome of a computation that does not change the context. -/
def check {α : Type} : Exec α → XfrM α
  | .ok a => pure a
  | .error e => throw e

def nextFault : XfrM (Option Fault) := do
  let w ← get
  modify (fun w => { w with faults := w.faults.tail })
  pure (w.faults.headD none)

/-- A call that may fail. -/
def call : XfrM Unit := do
  let f ← nextFault
  check (f.elim (.ok ()) (fun f => stop f.result))

/-! ### The journal -/

def beginTransaction : XfrM Unit := do
  let s ← context
  insist (s.journal == some none)
  call
  update (fun s => { s with journal := some (some []) })

/-- `dns_journal_writediff`: the serials of the first two SOA records are read, and the length of every rdata fits into
16 bits. -/
def writediff (diff : Tuples) : XfrM Unit := do
  let s ← context
  insist s.journal.join.isSome
  let tuples := s.journal.join.getD [] ++ diff
  insist (((tuples.filter (fun t => t.type = soa)).take 2).all (fun t => decide (20 ≤ t.rdata.length)))
  insist (diff.all (fun t => decide (t.rdata.length < 65536)))
  call
  update (fun s => { s with journal := some (some tuples) })

def commitCheck (log : List Txn) (x : Txn) : Exec Unit :=
  if (soaSerials x.tuples).length ≠ 2 then stop .unexpected
  else if ¬(gt x.serial1 x.serial0 || x.serial1 == x.serial0) then stop .unexpected
  else if ∃ last ∈ log.getLast?, x.serial0 ≠ last.serial1 then stop .unexpected
  else .ok ()

def journalCommit : XfrM Unit := do
  let s ← context
  insist s.journal.join.isSome
  let x : Txn := ⟨s.journal.join.getD []⟩
  check (commitCheck (s.journalfile.getD []) x)
  let f ← nextFault
  let written := s.journalfile.map (· ++ [x])
  match f with
  | none => update (fun s => { s with journalfile := written, journal := some none })
  | some f => do
    update (fun s => { s with journalfile := if f.late then written else s.journalfile })
    fail f.result

/-! ### The commit of the journal file -/

section file

open List

variable {log : List Txn} {x : Txn} {j : DnsJournal} {q : Qsort} {diff : Tuples}

theorem commitCheck_ok_iff : commitCheck log x = .ok () ↔ (soaSerials x.tuples).length = 2 ∧ ge x.serial1 x.serial0 = true ∧
    ∀ last ∈ log.getLast?, x.serial0 = last.serial1 := by
  unfold commitCheck
  rw [ge_iff]
  by_cases htwo : (soaSerials x.tuples).length = 2
  · rw [if_neg (not_not.2 htwo)]
    by_cases hge : (gt x.serial1 x.serial0 || x.serial1 == x.serial0) = true
    · rw [if_neg (not_not.2 hge)]
      rw [Bool.or_eq_true, beq_iff_eq] at hge
      by_cases hlast : ∃ last ∈ log.getLast?, x.serial0 ≠ last.serial1
      · obtain ⟨last, hmem, hne⟩ := id hlast
        rw [if_pos hlast]
        exact ⟨fun h => (by cases h), fun h => absurd (h.2.2 last hmem) hne⟩
      rw [if_neg hlast]
      exact ⟨fun _ => ⟨htwo, hge, fun last hmem => not_not.1 (fun hne => hlast ⟨last, hmem, hne⟩)⟩, fun _ => rfl⟩
    rw [if_pos hge]
    exact ⟨fun h => (by cases h), fun h => absurd (by simpa using h.2.1) hge⟩
  rw [if_pos htwo]
  exact ⟨fun h => (by cases h), fun h => absurd h.1 htwo⟩

/-- The end of the log is where its last transaction leads. -/
theorem end_serial (h : Journal.Inv j log) (hne : log ≠ []) : ∃ last ∈ log.getLast?, last.serial1 = j.header.end_.serial := by
  refine ⟨log.getLast hne, getLast?_eq_some_getLast hne, ?_⟩
  have hlast : Linked j.header.end_.serial [log.getLast hne] := h.core.linked.suffix ⟨log.dropLast, dropLast_append_getLast hne⟩
  exact hlast.1.trans (back_zero _)

/-- The commit to the file: its checks are those of `commitCheck`, and the transaction becomes the last of the log. -/
theorem writeTransaction_iff (h : Journal.Inv j log) (hs : j.state = .write) (hx : x = ⟨q.sort ixfrOrder diff⟩)
    (hall : ∀ t ∈ diff, Encodable t) (hmoves : log ≠ [] → 0 < x.step + dist (recent 0 log))
    (hlen : j.file.length + x.bytes.length < 2 ^ 32) :
    (∃ j', writeTransaction q j diff = .ok j' ∧ Journal.Inv j' (log ++ [x])) ↔ commitCheck log x = .ok () := by
  rw [commitCheck_ok_iff]
  constructor
  · rintro ⟨j', hrun, hinv⟩
    obtain ⟨-, -, htwo⟩ := h.writeTransaction hs hx hall hrun hinv.length_lt
    have hlinked := hinv.core.linked
    have hend := hlinked.suffix (suffix_append log [x])
    refine ⟨htwo, hend.2.1, fun last hmem => ?_⟩
    obtain ⟨pre, rfl⟩ := getLast?_eq_some_iff.1 hmem
    have hlast : Linked j'.header.end_.serial [last, x] := hlinked.suffix ⟨pre, by simp⟩
    exact hend.start.trans hlast.1.symm
  · rintro ⟨htwo, hge, hlast⟩
    have hall' : ∀ t ∈ x.tuples, Encodable t := by
      intro t ht
      rw [hx] at ht
      exact hall t ((q.perm ixfrOrder diff).mem_iff.1 ht)
    have h0 : log ≠ [] → x.serial0 = j.header.end_.serial := by
      intro hne
      obtain ⟨last, hmem, hend⟩ := end_serial h hne
      exact (hlast last hmem).trans hend
    obtain ⟨j', hrun, hlength⟩ := h.writeTransaction_ok hs hx hall' htwo hge h0 hmoves hlen
    exact ⟨j', hrun, (h.writeTransaction hs hx hall hrun (by omega)).1⟩

end file

/-! ### IXFR handling -/

def ixfrInit : XfrM Unit := do
  let s ← context
  if s.reqtype ≠ .ixfr then fail .formerr
  else do
    update (fun s => { s with isIxfr := true })
    insist (decide (s.db ≠ .null))
    update (fun s => { s with difflen := 0 })
    runIf s.journalfile.isSome (do
      call
      update (fun s => { s with journal := some none }))

variable (env : Env)

/-- `ixfr_apply`, when there is no version yet. -/
def ixfrOpen : XfrM Unit := do
  let s ← context
  runIf s.ver.isNone (do
    call
    update (fun s => { s with ver := some s.zone })
    runIf s.journal.isSome beginTransaction)

def ixfrApply : XfrM Unit := do
  ixfrOpen
  let s ← context
  call
  let v ← check (diffApply env.toEnv (s.ver.getD s.zone) s.diff)
  update (fun s => { s with ver := some v })
  runIf s.journal.isSome (writediff s.diff)
  update (fun s => { s with diff := [], difflen := 0 })

/-- `dns_db_closeversion`, with the changes committed. -/
def closeversion (s : Ctx) : Ctx := { s with zone := s.ver.getD s.zone, ver := none }

/-- `ixfr_commit`; `ixfr_apply` has left a version. -/
def ixfrCommit : XfrM Unit := do
  ixfrApply env
  let s ← context
  runIf s.journal.isSome journalCommit
  update closeversion

def ixfrPutdata (op : DiffOp) (r : Rr) : XfrM Unit := do
  -- `dns_zone_checknames`
  runIf (op == .add) call
  call
  update (fun s => { s with diff := s.diff ++ [r.tuple op], difflen := s.difflen + 1 })
  let s ← context
  runIf (decide (100 < s.difflen)) (ixfrApply env)

/-! ### AXFR handling -/

def iswildcard (n : Name) : Bool := n.labels.head? == some [42]

/-- `loading_addrdataset` for the tuples collected in one rdatalist. -/
def loadGroup (z : Zone) : Tuples → Exec Zone
  | [] => .ok z
  | t :: ts => do
    require (t.op == .add)
    if t.type = soa ∧ t.name.equal env.origin = false then stop .notzonetop
    else if iswildcard t.name ∧ t.type = ns then stop .invalidns
    else if iswildcard t.name ∧ t.type = nsec3 then stop .invalidnsec3
    else do
      let slab ← fromrdataset env.toEnv t.type ((t :: ts).map DiffTuple.rdata)
      let p := addrdataset env.toEnv z (tupleKey t) t.ttl slab ⟨true, false, false⟩
      if Fine p.2 then pure p.1 else stop p.2

def diffLoad (z : Zone) (diff : Tuples) : Exec Zone := (diff.splitBy together).foldlM (loadGroup env) z

def axfrInit : XfrM Unit := do
  update (fun s => { s with isIxfr := false, db := .null })
  call
  update (fun s => { s with db := .load [] })
  call

/-- The contents of the database that is being loaded. -/
def Database.loading : Database → Option Zone
  | .load z => some z
  | _ => none

def axfrApply : XfrM Unit := do
  let s ← context
  insist s.db.loading.isSome
  call
  let z ← check (diffLoad env (s.db.loading.getD []) s.diff)
  update (fun s => { s with db := .load z, diff := [], difflen := 0 })

def axfrPutdata (r : Rr) : XfrM Unit := do
  call
  call
  update (fun s => { s with diff := s.diff ++ [r.tuple .add], difflen := s.difflen + 1 })
  let s ← context
  runIf (decide (100 < s.difflen)) (axfrApply env)

def axfrCommit : XfrM Unit := do
  axfrApply env
  call

/-! ### One record -/

/-- Go to another state. -/
def setState (st : State) : XfrM Unit := update (fun s => { s with state := st })

/-- `XFRST_IXFR_DELSOA`. -/
def rrDelsoa (r : Rr) : XfrM Unit := do
  insist (r.type == soa)
  ixfrPutdata env .del r
  setState .ixfrDel

/-- `XFRST_IXFR_ADDSOA`. -/
def rrAddsoa (r : Rr) : XfrM Unit := do
  insist (r.type == soa)
  ixfrPutdata env .add r
  setState .ixfrAdd

def rrAxfr (r : Rr) : XfrM Unit := do
  if r.type = 1 ∧ r.rdclass ≠ env.rdclass ∧ env.rdclass ≠ 1 then pure ()
  else do
    axfrPutdata env r
    runIf (r.type == soa) (do
      axfrCommit env
      setState .axfrEnd)

def rrSoaquery (s : Ctx) (r : Rr) : XfrM Unit := do
  if r.type ≠ soa then fail .formerr
  else do
    let serial ← check (soaGetserial r.rdata)
    update (fun s => { s with endSerial := serial })
    if ¬gt serial s.requestSerial ∧ env.forced = false then fail .uptodate
    else setState .gotsoa

def rrInitialsoa (s : Ctx) (r : Rr) : XfrM Unit := do
  if r.type ≠ soa then fail .formerr
  else do
    let serial ← check (soaGetserial r.rdata)
    update (fun s => { s with endSerial := serial })
    if s.reqtype = .ixfr ∧ ¬gt serial s.requestSerial ∧ env.forced = false then fail .uptodate
    else do
      update (fun s => { s with checkid := if s.reqtype = .axfr then false else s.checkid })
      setState .firstdata

/-- Is the record the SOA record that the changes start from? -/
def isRequestSoa (s : Ctx) (r : Rr) : Exec Bool :=
  if s.reqtype = .ixfr ∧ r.type = soa then do
    let serial ← soaGetserial r.rdata
    pure (s.requestSerial == serial)
  else .ok false

/-- `XFRST_FIRSTDATA`; `goto redo` finds the state that was just set. -/
def rrFirstdata (s : Ctx) (r : Rr) : XfrM Unit := do
  let incremental ← check (isRequestSoa s r)
  if incremental then do
    ixfrInit
    setState .ixfrDelsoa
    rrDelsoa env r
  else do
    axfrInit
    setState .axfr
    rrAxfr env r

/-- `XFRST_IXFR_DEL`. -/
def rrDel (r : Rr) : XfrM Unit := do
  if r.type = soa then do
    let serial ← check (soaGetserial r.rdata)
    update (fun s => { s with state := .ixfrAddsoa, currentSerial := serial })
    rrAddsoa env r
  else ixfrPutdata env .del r

/-- `XFRST_IXFR_ADD`. -/
def rrAdd (s : Ctx) (r : Rr) : XfrM Unit := do
  if r.type = soa then do
    let serial ← check (soaGetserial r.rdata)
    if serial = s.endSerial then do
      ixfrCommit env
      setState .ixfrEnd
    else if serial ≠ s.currentSerial then fail .formerr
    else do
      ixfrCommit env
      setState .ixfrDelsoa
      rrDelsoa env r
  else if r.type = ns ∧ iswildcard r.name then fail .invalidns
  else ixfrPutdata env .add r

def rrSwitch (s : Ctx) (r : Rr) : XfrM Unit :=
  match s.state with
  | .soaquery => rrSoaquery env s r
  | .gotsoa => pure ()
  | .initialsoa => rrInitialsoa env s r
  | .firstdata => rrFirstdata env s r
  | .ixfrDelsoa => rrDelsoa env r
  | .ixfrDel => rrDel env r
  | .ixfrAddsoa => rrAddsoa env r
  | .ixfrAdd => rrAdd env s r
  | .axfr => rrAxfr env r
  | .axfrEnd | .ixfrEnd => fail .extradata

def xfrRr (r : Rr) : XfrM Unit := do
  if r.type = 0 ∨ env.ismeta r.type then fail .formerr
  else do
    let s ← context
    rrSwitch env s r

/-- The records of a response, one after the other, up to the first failure. -/
def feed (rs : List Rr) : XfrM Unit := forM rs (xfrRr env)

/-! ### Rules

The rules of `Hoare.Triple` for the steps of the transfer.  The faults to come are of a kind `T`, and a failure is of a
kind `A`, which every result is. -/

/-- `P` holds of the context, and `T` of the faults to come. -/
def On (T : Fault → Prop) (P : Ctx → Prop) (w : World) : Prop := P w.xfr ∧ ∀ f, some f ∈ w.faults → T f

/-- A failure of a kind `A` that leaves a context with `E`. -/
def Err (A : Stop → Prop) (E : Ctx → Prop) (e : Stop) (w : World) : Prop := A e ∧ E w.xfr

section rules

open Hoare

variable {env} {T : Fault → Prop} {A : Stop → Prop} {P Q E : Ctx → Prop} {α : Type}

theorem On.mono {w : World} (h : On T P w) (hPQ : ∀ s, P s → Q s) : On T Q w := ⟨hPQ _ h.1, h.2⟩

variable {F : Stop → World → Prop}

theorem context_bind {f : Ctx → XfrM α} {R : α → World → Prop}
    (h : ∀ s, P s → Triple (On T (fun t => t = s)) (f s) R F) : Triple (On T P) (context >>= f) R F := by
  intro w hw
  exact h w.xfr hw.1 w ⟨rfl, hw.2⟩

theorem update_spec {f : Ctx → Ctx} (h : ∀ s, P s → Q (f s)) : Triple (On T P) (update f) (fun _ => On T Q) F :=
  Triple.modify (fun w hw => ⟨h w.xfr hw.1, hw.2⟩)

theorem insist_spec {b : Bool} (h : ∀ s, P s → b = true ∨ A .assertion ∧ E s) :
    Triple (On T P) (insist b) (fun _ => On T P) (Err A E) := by
  cases b with
  | true => exact Triple.pure (fun _ => id)
  | false =>
    refine Triple.throw (fun w hw => ?_)
    obtain h | h := h w.xfr hw.1
    · cases h
    · exact h

theorem fail_spec {r : Result} {R : α → World → Prop} (hA : A (.result r)) (h : ∀ s, P s → E s) :
    Triple (On T P) (fail r) R (Err A E) :=
  Triple.throw (fun w hw => ⟨hA, h w.xfr hw.1⟩)

theorem check_spec {x : Exec α} (h : ∀ s e, P s → x = .error e → A e ∧ E s) :
    Triple (On T P) (check x) (fun a => On T (fun s => P s ∧ x = .ok a)) (Err A E) := by
  cases x with
  | ok a => exact Triple.pure (fun w hw => ⟨⟨hw.1, rfl⟩, hw.2⟩)
  | error e => exact Triple.throw (fun w hw => h w.xfr e hw.1 rfl)

theorem runIf_spec {b : Bool} {x : XfrM Unit} {P : World → Prop} {R : Unit → World → Prop}
    (hx : b = true → Triple P x R F) (h : ∀ w, b = false → P w → R () w) : Triple P (runIf b x) R F := by
  cases b with
  | true => exact hx rfl
  | false => exact Triple.pure (fun w hw => h w rfl hw)

theorem nextFault_spec : Triple (On T P) nextFault (fun f => On T (fun s => P s ∧ ∀ x, f = some x → T x)) F := by
  refine Triple.get_bind (fun w hw => ?_)
  refine Triple.bind (R := fun _ v => v.xfr = w.xfr ∧ v.faults = w.faults.tail) (Triple.modify ?_) (fun _ => ?_)
  · rintro v rfl
    exact ⟨rfl, rfl⟩
  · refine Triple.pure ?_
    rintro v ⟨hx, hf⟩
    refine ⟨⟨hx ▸ hw.1, fun x hx => ?_⟩, fun f hm => ?_⟩
    · cases hw' : w.faults with
      | nil =>
        rw [hw'] at hx
        cases hx
      | cons g gs =>
        rw [hw', List.headD_cons] at hx
        exact hw.2 x (by rw [hw', hx]; exact List.mem_cons_self)
    · rw [hf] at hm
      exact hw.2 f (List.mem_of_mem_tail hm)

theorem call_spec (hA : ∀ r, A (.result r)) (h : ∀ s, P s → E s) : Triple (On T P) call (fun _ => On T P) (Err A E) := by
  refine Triple.bind nextFault_spec (fun f => ?_)
  refine (check_spec (fun s e hs he => ?_)).conseq (fun _ => id) (fun _ w hw => hw.mono (fun s hs => hs.1.1))
    (fun _ _ => id)
  cases f with
  | none => cases he
  | some f =>
    cases he
    exact ⟨hA _, h s hs.1⟩

variable (env)

/-- Every record of the stream meets the condition `C` in the state in which it is taken. -/
def Guarded (C : Ctx → Rr → Prop) : List Rr → World → Prop
  | [], _ => True
  | r :: rs, w => C w.xfr r ∧ ∀ w', xfrRr env r w = .ok () w' → Guarded C rs w'

variable {env}

/-- The records one after the other: `I` is what holds when the first ones were taken. -/
theorem feed_guarded {C : Ctx → Rr → Prop} {I : List Rr → Ctx → Prop} {stream : List Rr}
    (h : ∀ fed r rest, stream = fed ++ r :: rest →
      Triple (fun w => On T (I fed) w ∧ C w.xfr r) (xfrRr env r) (fun _ => On T (I (fed ++ [r]))) F) :
    ∀ (rs fed : List Rr), stream = fed ++ rs →
      Triple (fun w => On T (I fed) w ∧ Guarded env C rs w) (feed env rs) (fun _ => On T (I stream)) F
  | [], fed, hs => Triple.pure (fun w hw => by rw [hs, List.append_nil]; exact hw.1)
  | r :: rs, fed, hs => by
    intro w hw
    have hstep := h fed r rs hs w ⟨hw.1, hw.2.1⟩
    have hrest := feed_guarded h rs (fed ++ [r]) (hs.trans (List.append_cons fed r rs))
    have hone : Triple (fun v => v = w) (xfrRr env r)
        (fun _ v => On T (I (fed ++ [r])) v ∧ Guarded env C rs v) F := by
      rintro v rfl
      exact ⟨fun _ v' hv => ⟨hstep.1 () v' hv, hw.2.2 v' hv⟩, hstep.2⟩
    have hall : Triple (fun v => v = w) (feed env (r :: rs)) (fun _ => On T (I stream)) F := by
      rw [feed, List.forM_cons]
      exact hone.bind (fun _ => hrest)
    exact hall w rfl

end rules

end Bind9.Xfrin
