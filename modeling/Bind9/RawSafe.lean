import Mathlib.Logic.Function.Iterate
import Bind9.RawLoad

/-! # Raw zone files of any content

One call of `load_raw` as a machine that reads an rdata, or commits, in one step, with the array `rdata` of the function and the
places of the file that the rdata come from, which `loadRaw` of the loader does not have; it reads a record with the same functions.

`load_raw_safe` says for which files no assertion fails, no rdata is stored behind the array, and every rdata that the callback is
given comes from its own record. -/

namespace Bind9.RawZone

open List

/-! ### The machine -/

def rdsz : ℕ := 512

/-- What the head of a record says: the rdatalist, whether the record is read piece by piece, its place and length in the file, the
number of its rdata, and whether the array is made for them. -/
structure RecordHead where
  list : Rdatalist
  sequential : Bool
  start : ℕ
  total : ℕ
  rdcount : ℕ
  grown : Bool

/-- The local variables of the loop over the rdata.  `missing` is `rdcount - i`, and `i` the number of rdata in the batch.  `spans`
is only for the proofs: where the rdata of the batch come from. -/
structure Scan extends RecordHead where
  missing : ℕ
  batch : Batch
  spans : List (ℕ × ℕ)

/-- What the callback was given: the record, its rdata, and the offset and length of each in the file. -/
structure Given where
  list : Rdatalist
  start : ℕ
  total : ℕ
  rdata : List Rdata
  spans : List (ℕ × ℕ)

/-- Where the function is: at the start of a record, at an rdata, behind the loop, at an error. -/
inductive Phase where
  | record
  | rdata (s : Scan)
  | done (eof : Bool)
  | stopped (e : Stop)

/-- A state of `load_raw`; `size` is `rdata_size`. -/
structure Machine where
  phase : Phase
  l : LoadCtx
  loopCnt : ℕ
  size : ℕ
  given : List Given

/-- `grow_rdata` for more rdata than there is space for; `alloc` is whether `isc_mem_get` has memory for so many. -/
def growRdata (alloc : ℕ → Bool) (size rdcount : ℕ) : Exec ℕ :=
  if size < rdcount then
    if alloc ((rdcount + rdsz) % 2 ^ 32) then .ok ((rdcount + rdsz) % 2 ^ 32) else stop .nomemory
  else .ok size

/-- The fixed fields and the owner of a record: the rdatalist, the number of rdata, the buffer and the rest of the file. -/
def readHead (totallen : ℕ) (file : Bytes) : Exec (Rdatalist × ℕ × Target × Bytes) := do
  let sequential : Bool := decide (tsiz < totallen)
  let readlen := if sequential then 14 else totallen
  let (bytes, file) ← stdioRead file readlen
  let (rdclass, t) ← Target.getuint16 ⟨bytes, 0⟩
  let (type, t) ← t.getuint16
  let (covers, t) ← t.getuint16
  let (ttl, t) ← t.getuint32
  let (rdcount, t) ← t.getuint32
  if rdcount = 0 then stop .range
  else do
    require (decide (t.current ≤ readlen))
    let (owner, t, file) ← readOwner sequential t file
    pure (⟨owner, UInt16.ofNat rdclass, UInt16.ofNat type, UInt16.ofNat covers, UInt32.ofNat ttl⟩, rdcount, t, file)

/-- A turn of the loop of `load_raw` up to the loop over the rdata, where `offset` is the place in the file. -/
def openRecord (alloc : ℕ → Bool) (offset size : ℕ) (file : Bytes) : Exec (Scan × ℕ × Bytes) := do
  let (bytes, file) ← stdioRead file 4
  let totallen ← uint32Fromregion bytes
  if totallen < 18 then stop .range
  else do
    let (list, rdcount, t, file) ← readHead (totallen - 4) file
    let size' ← growRdata alloc size rdcount
    pure (⟨⟨list, decide (tsiz < totallen - 4), offset, totallen, rdcount, decide (size < rdcount)⟩, rdcount, ⟨[], t⟩, []⟩, size', file)

section machine

variable (env : LoadEnv) (alloc : ℕ → Bool) (fileSize : ℕ)

/-- The batch is given to the callback; `phase` is where a success goes. -/
def giveBatch (m : Machine) (s : Scan) (phase : Phase) (loopCnt : ℕ) : Machine :=
  let given := m.given ++ [⟨s.list, s.start, s.total, s.batch.rdata, s.spans⟩]
  match commit env m.l (s.list.added s.batch.rdata) with
  | .error e => { m with phase := .stopped e, given := given }
  | .ok l => { m with phase := phase, l := l, loopCnt := loopCnt, given := given }

/-- The place in the file of the byte that is read next. -/
def Scan.offset (s : Scan) (l : LoadCtx) : ℕ :=
  if s.sequential then fileSize - l.file.length - s.batch.target.remaining else s.start + 4 + s.batch.target.current

/-- A step in the loop over the rdata. -/
def scanStep (m : Machine) (s : Scan) : Machine :=
  -- dns_rdata_init(&rdata[i])
  if ¬s.batch.rdata.length < m.size then { m with phase := .stopped .overrun }
  else if s.sequential ∧ s.batch.target.available < mintsiz then
    if s.batch.rdata.isEmpty then { m with phase := .stopped .assertion }
    else giveBatch env m s (.rdata { s with batch := ⟨[], ⟨[], 0⟩⟩, spans := [] }) m.loopCnt
  else
    match readRdata env s.list s.sequential s.batch m.l with
    | .error e => { m with phase := .stopped e }
    | .ok (b, l) =>
      let span := (s.offset fileSize m.l + 2, b.target.current - s.batch.target.current - 2)
      { m with phase := .rdata { s with missing := s.missing - 1, batch := b, spans := s.spans ++ [span] }, l := l }

/-- A step of `load_raw` on a file of `fileSize` bytes. -/
def loadStep (m : Machine) : Machine :=
  match m.phase with
  | .record =>
    if env.loopCnt = 0 ∨ m.loopCnt < env.loopCnt then
      if m.l.file.length < 4 then { m with phase := .done true }
      else
        match openRecord alloc (fileSize - m.l.file.length) m.size m.l.file with
        | .error e => { m with phase := .stopped e }
        | .ok (s, size, file) => { m with phase := .rdata s, l := { m.l with file := file }, size := size }
    else { m with phase := .done false }
  | .rdata s =>
    if s.missing = 0 then
      if s.batch.target.remaining ≠ 0 then { m with phase := .stopped (.result .range) }
      else giveBatch env m s .record (m.loopCnt + 1)
    else scanStep env fileSize m s
  | _ => m

/-- The start of `load_raw`, behind the header where it is read. -/
def loadStart (l : LoadCtx) : Machine :=
  if l.first then
    match loadHeader l with
    | .error e => ⟨.stopped e, l, 0, 0, []⟩
    | .ok (_, l) => ⟨.record, l, 0, 0, []⟩
  else ⟨.record, l, 0, 0, []⟩

/-- The state after `n` steps of `load_raw`. -/
def loadRun (l : LoadCtx) (n : ℕ) : Machine := (loadStep env alloc l.file.length)^[n] (loadStart l)

end machine

/-! ### Reading -/

/-- The bytes that the loop over the rdata reads from. -/
def stream (sequential : Bool) (t : Target) (file : Bytes) : Bytes :=
  t.used.drop t.current ++ if sequential then file else []

section reading

variable {sequential : Bool} {t : Target} {file : Bytes}

/-- The buffer holds no more than it can, and the next byte is in it or behind it. -/
structure Target.Within (t : Target) : Prop where
  current_le : t.current ≤ t.used.length
  used_le : t.used.length ≤ tsiz

theorem Target.Within.skip (h : t.Within) {n : ℕ} (hle : t.current + n ≤ t.used.length) : (t.skip n).Within := ⟨hle, h.used_le⟩

theorem readAndCheck_cases {n : ℕ} (h : t.Within) (hroom : sequential = true → n ≤ t.available) :
    ((if sequential then file else stream sequential t file).length < n ∧
      ∃ r, readAndCheck sequential t n file = .error (.result r)) ∨
    ∃ t' file', readAndCheck sequential t n file = .ok (t', file') ∧ t'.current = t.current ∧ t.current + n ≤ t'.used.length ∧
      t'.used.length = t.used.length + (if sequential then n else 0) ∧ t'.Within ∧ file' <:+ file ∧
      file.length = file'.length + (if sequential then n else 0) ∧ stream sequential t' file' = stream sequential t file ∧
      (sequential = false → t'.used = t.used) := by
  have hcurrent := h.current_le
  have hused := h.used_le
  cases sequential with
  | true =>
    have hle := hroom rfl
    rw [Target.available] at hle
    rw [readAndCheck, if_pos rfl, require_true (decide_eq_true (hroom rfl)), ok_then, stdioRead]
    by_cases hlen : n ≤ file.length
    · have hused' : (t.used ++ file.take n).length = t.used.length + n := by
        rw [length_append, length_take, Nat.min_eq_left hlen]
      rw [if_pos hlen, ok_then]
      refine .inr ⟨{ t with used := t.used ++ file.take n }, file.drop n, rfl, rfl, ?_, ?_, ⟨?_, ?_⟩, drop_suffix n file, ?_, ?_,
        fun hs => absurd hs (by decide)⟩
      · show t.current + n ≤ (t.used ++ file.take n).length
        omega
      · rw [if_pos rfl]
        exact hused'
      · show t.current ≤ (t.used ++ file.take n).length
        omega
      · show (t.used ++ file.take n).length ≤ tsiz
        omega
      · rw [length_drop, if_pos rfl]
        omega
      · simp only [stream, if_true]
        rw [drop_append_of_le_length hcurrent, append_assoc, take_append_drop]
    · rw [if_neg hlen]
      exact .inl ⟨not_le.1 hlen, .eof, rfl⟩
  | false =>
    rw [readAndCheck, if_neg Bool.false_ne_true, Target.remaining]
    by_cases hlen : t.used.length - t.current < n
    · rw [if_pos hlen]
      refine .inl ⟨?_, .range, rfl⟩
      simp only [stream, Bool.false_eq_true, if_false, append_nil, length_drop]
      exact hlen
    · rw [if_neg hlen]
      exact .inr ⟨t, file, rfl, rfl, by omega, by simp, h, suffix_rfl, by simp, rfl, fun _ => rfl⟩

theorem getuint16_cases (h : t.current + 2 ≤ t.used.length) (file : Bytes) :
    ∃ n, n < 65536 ∧ t.getuint16 = .ok (n, t.skip 2) ∧ uint16Fromregion (stream sequential t file) = .ok n := by
  obtain ⟨n, hn, hread⟩ := uint16Fromregion_of_length (r := t.used.drop t.current) (by rw [length_drop]; omega)
  refine ⟨n, hn, ?_, hread _⟩
  have hnil := hread []
  rw [append_nil] at hnil
  rw [Target.getuint16, hnil, ok_then]
  rfl

theorem getuint32_cases (h : t.current + 4 ≤ t.used.length) : ∃ n, n < 2 ^ 32 ∧ t.getuint32 = .ok (n, t.skip 4) := by
  obtain ⟨n, hn, hread⟩ := uint32Fromregion_of_length (r := t.used.drop t.current) (by rw [length_drop]; omega)
  refine ⟨n, hn, ?_⟩
  rw [Target.getuint32, hread, ok_then]
  rfl

theorem stream_length (sequential : Bool) (t : Target) (file : Bytes) :
    (stream sequential t file).length = t.remaining + if sequential then file.length else 0 := by
  rw [stream, length_append, length_drop, Target.remaining]
  split
  · rfl
  · rfl

theorem stream_skip {n : ℕ} (h : t.current + n ≤ t.used.length) :
    stream sequential (t.skip n) file = (stream sequential t file).drop n ∧
      (stream sequential t file).take n = (t.used.drop t.current).take n := by
  have hlen : n ≤ (t.used.drop t.current).length := by
    rw [length_drop]
    omega
  constructor
  · simp only [stream, Target.skip]
    rw [drop_append_of_le_length hlen, drop_drop]
  · simp only [stream]
    rw [take_append_of_le_length hlen]

end reading

section rdata

variable {env : LoadEnv} {list : Rdatalist} {sequential : Bool} {b : Batch} {l : LoadCtx}

/-- The functions of the types return results. -/
def Returns (env : LoadEnv) : Prop := ∀ c t bytes e, env.fromwire c t bytes = .error e → ∃ r, e = .result r

/-- The length of the rdata at the start of `bytes`, where its two bytes can be read; `rest` is what is left of the file. -/
def nextLength (sequential : Bool) (bytes rest : Bytes) : Option ℕ :=
  if sequential = true ∧ rest.length < 2 then none else (uint16Fromregion bytes).toOption

/-- The rdata at the start of `bytes` and its length, where all of it is there and the functions of the types take it. -/
def rdataAt (env : LoadEnv) (list : Rdatalist) (sequential : Bool) (bytes rest : Bytes) : Option (ℕ × Rdata) :=
  (nextLength sequential bytes rest).bind fun n =>
    if 2 + n ≤ (if sequential then rest else bytes).length then
      (rdataFromwire env list.rdclass list.type ((bytes.drop 2).take n)).toOption.map (fun r => (n, r))
    else none

theorem nextLength_short {bytes rest : Bytes} (h : (if sequential then rest else bytes).length < 2) :
    nextLength sequential bytes rest = none := by
  rw [nextLength]
  split
  · rfl
  rename_i hlong
  split at h
  · exact absurd ⟨‹_›, h⟩ hlong
  match bytes, h with
  | [], _ => rfl
  | [_], _ => rfl

theorem rdataFromwire_result (hret : Returns env) {rdclass type : UInt16} {bytes : Bytes} {e : Stop} (hlen : bytes.length < 65536)
    (h : rdataFromwire env rdclass type bytes = .error e) : ∃ r, e = .result r := by
  unfold rdataFromwire at h
  split at h
  · cases h
    exact ⟨_, rfl⟩
  rw [require_true (by simpa using hlen), ok_then] at h
  cases hfrom : env.fromwire rdclass type bytes with
  | error e' =>
    rw [hfrom] at h
    cases h
    exact hret _ _ _ _ hfrom
  | ok rdata =>
    rw [hfrom, ok_then] at h
    split at h
    · cases h
      exact ⟨_, rfl⟩
    · cases h

theorem readRdata_cases (hret : Returns env) (h : b.target.Within) (hroom : sequential = true → mintsiz ≤ b.target.available) :
    (sequential = true ∧ (∃ n, nextLength sequential (stream sequential b.target l.file) l.file = some n ∧ tsiz < b.target.used.length + 2 + n) ∧
      readRdata env list sequential b l = .error .assertion) ∨
    ((sequential = true → ∀ n, nextLength sequential (stream sequential b.target l.file) l.file = some n → b.target.used.length + 2 + n ≤ tsiz) ∧
      ((∃ r, readRdata env list sequential b l = .error (.result r) ∧
          rdataAt env list sequential (stream sequential b.target l.file) l.file = none) ∨
      ∃ n r t' file', readRdata env list sequential b l = .ok (⟨b.rdata ++ [r], t'⟩, { l with file := file' }) ∧
        t'.current = b.target.current + 2 + n ∧ t'.Within ∧ t'.used.length = b.target.used.length + (if sequential then 2 + n else 0) ∧
        file' <:+ l.file ∧ l.file.length = file'.length + (if sequential then 2 + n else 0) ∧
        stream sequential t' file' = (stream sequential b.target l.file).drop (2 + n) ∧
        rdataFromwire env list.rdclass list.type (((stream sequential b.target l.file).drop 2).take n) = .ok r ∧
        2 + n ≤ (stream sequential b.target l.file).length ∧ (sequential = false → t'.used = b.target.used) ∧
        rdataAt env list sequential (stream sequential b.target l.file) l.file = some (n, r))) := by
  have htwo : sequential = true → 2 ≤ b.target.available := fun hs => le_trans (by decide) (hroom hs)
  obtain ⟨hshort, r, herr⟩ | ⟨t1, file1, hread1, hcur1, hlen1, hused1, hw1, hsuf1, hfile1, hstream1, hsame1⟩ :=
    @readAndCheck_cases sequential b.target l.file 2 h htwo
  · have hnone := nextLength_short hshort
    refine .inr ⟨fun _ n hn => ?_, Or.inl ⟨r, by rw [readRdata, herr]; rfl, by rw [rdataAt, hnone]; rfl⟩⟩
    rw [hnone] at hn
    cases hn
  obtain ⟨n, hn, hget, hnum⟩ := @getuint16_cases sequential t1 (by rw [hcur1]; exact hlen1) file1
  have hnext : nextLength sequential (stream sequential b.target l.file) l.file = some n := by
    rw [hstream1] at hnum
    rw [nextLength, if_neg (by rintro ⟨rfl, hlt⟩; rw [hfile1, if_pos rfl] at hlt; omega), hnum]
    rfl
  have hat : rdataAt env list sequential (stream sequential b.target l.file) l.file =
      if 2 + n ≤ (if sequential then l.file else stream sequential b.target l.file).length then
        (rdataFromwire env list.rdclass list.type (((stream sequential b.target l.file).drop 2).take n)).toOption.map (fun r => (n, r))
      else none := by
    rw [rdataAt, hnext]
    rfl
  have hskip : stream sequential (t1.skip 2) file1 = (stream sequential b.target l.file).drop 2 := by
    rw [(stream_skip (by rw [hcur1]; exact hlen1)).1, hstream1]
  have hw2 : (t1.skip 2).Within := hw1.skip (by rw [hcur1]; exact hlen1)
  have hused2 : (t1.skip 2).used.length = b.target.used.length + if sequential then 2 else 0 := hused1
  by_cases hfit : sequential = true → n ≤ (t1.skip 2).available
  · refine .inr ⟨?_, ?_⟩
    · intro hs m hm
      obtain rfl := Option.some.inj (hnext.symm.trans hm)
      have hle := hfit hs
      have h2 := htwo hs
      rw [Target.available] at hle h2
      rw [hused2, if_pos hs] at hle
      omega
    · obtain ⟨hshort, r, herr⟩ | ⟨t3, file3, hread3, hcur3, hlen3, hused3, hw3, hsuf3, hfile3, hstream3, hsame3⟩ :=
        @readAndCheck_cases sequential (t1.skip 2) file1 n hw2 hfit
      · refine .inl ⟨r, ?_, ?_⟩
        · rw [readRdata, hread1, ok_then]
          simp only
          rw [hget, ok_then]
          rw [herr]
          rfl
        · rw [hat, if_neg]
          rw [hskip] at hshort
          cases sequential with
          | true =>
            simp only [if_true] at hshort hfile1 ⊢
            omega
          | false =>
            simp only [Bool.false_eq_true, if_false, length_drop] at hshort ⊢
            omega
      · have hcur3' : t3.current = b.target.current + 2 := by
          rw [hcur3, Target.skip, hcur1]
        have hlen3' : t3.current + n ≤ t3.used.length := by
          rw [hcur3]
          exact hlen3
        have hdata : (t3.used.drop t3.current).take n = ((stream sequential b.target l.file).drop 2).take n := by
          rw [← (@stream_skip sequential t3 file3 n hlen3').2, hstream3,
            (@stream_skip sequential t1 file1 2 (by rw [hcur1]; exact hlen1)).1, hstream1]
        have hrun : readRdata env list sequential b l =
            (rdataFromwire env list.rdclass list.type (((stream sequential b.target l.file).drop 2).take n) >>= fun rdata =>
              pure (⟨b.rdata ++ [rdata], { t3 with current := t3.current + n }⟩, { l with file := file3 })) := by
          rw [readRdata, hread1, ok_then]
          simp only
          rw [hget, ok_then]
          rw [hread3, ok_then]
          rw [require_true (decide_eq_true hlen3'), ok_then, hdata]
        have hstream : stream sequential (t3.skip n) file3 = (stream sequential b.target l.file).drop (2 + n) := by
          rw [(stream_skip hlen3').1, hstream3, hskip, drop_drop]
        have htotal : 2 + n ≤ (stream sequential b.target l.file).length := by
          have hlong : n ≤ (stream sequential t3 file3).length := by
            rw [stream, length_append, length_drop]
            omega
          rw [hstream3, hskip, length_drop] at hlong
          have htwo' : 2 ≤ (stream sequential t1 file1).length := by
            rw [stream, length_append, length_drop]
            omega
          rw [hstream1] at htwo'
          omega
        have hwhole : 2 + n ≤ (if sequential then l.file else stream sequential b.target l.file).length := by
          split
          · rw [if_pos ‹_›] at hfile1 hfile3
            omega
          · exact htotal
        rw [if_pos hwhole] at hat
        cases hfrom : rdataFromwire env list.rdclass list.type (((stream sequential b.target l.file).drop 2).take n) with
        | error e =>
          have hshort : (((stream sequential b.target l.file).drop 2).take n).length < 65536 :=
            lt_of_le_of_lt (length_take_le _ _) hn
          obtain ⟨r, rfl⟩ := rdataFromwire_result hret hshort hfrom
          refine .inl ⟨r, ?_, ?_⟩
          · rw [hrun, hfrom]
            rfl
          · rw [hat, hfrom]
            rfl
        | ok r =>
          refine .inr ⟨n, r, t3.skip n, file3, ?_, ?_, hw3.skip hlen3', ?_, hsuf3.trans hsuf1, ?_, hstream, hfrom, htotal,
            fun hs => (hsame3 hs).trans (hsame1 hs), ?_⟩
          · rw [hrun, hfrom]
            rfl
          · rw [Target.skip, hcur3']
          · show t3.used.length = _
            rw [hused3, hused2]
            split <;> omega
          · rw [hfile1, hfile3]
            split <;> omega
          · rw [hat, hfrom]
            rfl
  obtain ⟨rfl, hfull⟩ := Classical.not_imp.1 hfit
  refine .inl ⟨rfl, ⟨n, hnext, ?_⟩, ?_⟩
  · have h2 := htwo rfl
    rw [Target.available] at hfull h2
    rw [hused2, if_pos rfl] at hfull
    omega
  · rw [readRdata, hread1, ok_then]
    simp only
    rw [hget, ok_then]
    rw [readAndCheck_full (not_le.1 hfull)]
    rfl

end rdata

/-! ### The start of a record -/

section head

variable {sequential : Bool} {t : Target} {file : Bytes}

/-- What is read before the rdata: the buffer is ahead of what it was, and the stream behind. -/
structure Ahead (sequential : Bool) (t : Target) (file : Bytes) (t' : Target) (file' : Bytes) : Prop where
  within : t'.Within
  suffix : file' <:+ file
  current : t.current ≤ t'.current
  stream : stream sequential t' file' <:+ stream sequential t file
  buffered : sequential = false → t'.used = t.used ∧ file' = file
  used : sequential = true → t'.used.length ≤ t.used.length + 257

theorem readOwner_cases (h : t.Within) (hroom : sequential = true → t.used.length + 257 ≤ tsiz) :
    (∃ r, readOwner sequential t file = .error (.result r)) ∨
    ∃ name t' file', readOwner sequential t file = .ok (name, t', file') ∧ Ahead sequential t file t' file' := by
  obtain ⟨-, r, herr⟩ | ⟨t1, file1, hread1, hcur1, hlen1, hused1, hw1, hsuf1, -, hstream1, -⟩ :=
    @readAndCheck_cases sequential t file 2 h (fun hs => by have := hroom hs; rw [Target.available]; omega)
  · exact .inl ⟨r, by rw [readOwner, herr]; rfl⟩
  have hlen1' : t1.current + 2 ≤ t1.used.length := by rw [hcur1]; exact hlen1
  obtain ⟨n, hn, hget, -⟩ := @getuint16_cases sequential t1 hlen1' file1
  have hw2 : (t1.skip 2).Within := hw1.skip hlen1'
  by_cases hlong : 255 < n
  · refine .inl ⟨.range, ?_⟩
    rw [readOwner, hread1, ok_then]
    simp only
    rw [hget, ok_then]
    rw [if_pos hlong]
    rfl
  have hfit : sequential = true → n ≤ (t1.skip 2).available := by
    intro hs
    have := hroom hs
    rw [if_pos hs] at hused1
    rw [Target.available, Target.skip, hused1]
    omega
  obtain ⟨-, r, herr⟩ | ⟨t3, file3, hread3, hcur3, hlen3, hused3, hw3, hsuf3, -, hstream3, -⟩ :=
    @readAndCheck_cases sequential (t1.skip 2) file1 n hw2 hfit
  · refine .inl ⟨r, ?_⟩
    rw [readOwner, hread1, ok_then]
    simp only
    rw [hget, ok_then]
    rw [if_neg hlong, herr]
    rfl
  have hlen3' : t3.current + n ≤ t3.used.length := by rw [hcur3]; exact hlen3
  rw [readOwner, hread1, ok_then]
  simp only
  rw [hget, ok_then]
  rw [if_neg hlong, hread3, ok_then]
  rw [require_true (decide_eq_true hlen3'), ok_then]
  cases hname : fromwire (t3.used.take (t3.current + n)) t3.current 255 false 0 with
  | error r => exact .inl ⟨r, rfl⟩
  | ok d =>
    have htake : (t3.used.take (t3.current + n)).length = t3.current + n := by
      rw [length_take, Nat.min_eq_left hlen3']
    obtain ⟨name, hndata, -⟩ := fromwire_ok hname
    obtain ⟨-, hcused⟩ := fromwire_cused (by rw [htake]; omega) hname
    rw [htake] at hcused
    have hregion : nameFromregion d.ndata = .ok name.name := by
      have happend := nameFromregion_append name []
      rw [append_nil] at happend
      rw [hndata, happend]
    have hle : t3.current + d.cused ≤ t3.used.length := by omega
    simp only [hregion, ok_then]
    refine .inr ⟨name.name, t3.skip d.cused, file3, rfl, hw3.skip hle, hsuf3.trans hsuf1, ?_, ?_, ?_, ?_⟩
    · simp only [Target.skip] at hcur3 ⊢
      omega
    · rw [(stream_skip hle).1, hstream3, (stream_skip hlen1').1, hstream1]
      exact (drop_suffix _ _).trans (drop_suffix _ _)
    · intro hs
      subst hs
      rw [readAndCheck, if_neg Bool.false_ne_true] at hread1 hread3
      split at hread1
      · cases hread1
      cases hread1
      split at hread3
      · cases hread3
      · cases hread3
        exact ⟨rfl, rfl⟩
    · intro hs
      rw [if_pos hs] at hused1 hused3
      simp only [Target.skip] at hused3 ⊢
      omega

/-- The fixed fields and the owner, whatever they are. -/
theorem readHead_cases {totallen : ℕ} (h14 : 14 ≤ totallen) : (∃ r, readHead totallen file = .error (.result r)) ∨
    ∃ list rdcount t file', readHead totallen file = .ok (list, rdcount, t, file') ∧ rdcount ≠ 0 ∧ rdcount < 2 ^ 32 ∧
      (if tsiz < totallen then 14 else totallen) ≤ file.length ∧ 14 ≤ t.current ∧
      Ahead (decide (tsiz < totallen)) ⟨file.take (if tsiz < totallen then 14 else totallen), 14⟩
        (file.drop (if tsiz < totallen then 14 else totallen)) t file' := by
  have h14' : 14 ≤ if tsiz < totallen then 14 else totallen := by
    split <;> omega
  have hmax : (if tsiz < totallen then 14 else totallen) ≤ tsiz := by
    split
    · decide
    · omega
  have hreadlen : (if decide (tsiz < totallen) = true then 14 else totallen) = if tsiz < totallen then 14 else totallen := by
    simp only [decide_eq_true_eq]
  generalize hlen : (if tsiz < totallen then 14 else totallen) = readlen at *
  by_cases hfile : readlen ≤ file.length
  · have hused : (file.take readlen).length = readlen := by rw [length_take, Nat.min_eq_left hfile]
    have hnum : ∀ k, k + 2 ≤ 14 → ∃ n, n < 65536 ∧ Target.getuint16 ⟨file.take readlen, k⟩ = .ok (n, ⟨file.take readlen, k + 2⟩) := by
      intro k hk
      obtain ⟨n, hn, hget, -⟩ := @getuint16_cases true ⟨file.take readlen, k⟩ (show k + 2 ≤ (file.take readlen).length by omega) []
      exact ⟨n, hn, hget⟩
    have hnum4 : ∀ k, k + 4 ≤ 14 → ∃ n, n < 2 ^ 32 ∧ Target.getuint32 ⟨file.take readlen, k⟩ = .ok (n, ⟨file.take readlen, k + 4⟩) :=
      fun k hk => getuint32_cases (t := ⟨file.take readlen, k⟩) (show k + 4 ≤ (file.take readlen).length by omega)
    obtain ⟨rdclass, -, hclass⟩ := hnum 0 (by omega)
    obtain ⟨type, -, htype⟩ := hnum 2 (by omega)
    obtain ⟨covers, -, hcovers⟩ := hnum 4 (by omega)
    obtain ⟨ttl, -, httl⟩ := hnum4 6 (by omega)
    obtain ⟨rdcount, hcount, hrdcount⟩ := hnum4 10 (by omega)
    have hrun : readHead totallen file =
        if rdcount = 0 then stop .range
        else readOwner (decide (tsiz < totallen)) ⟨file.take readlen, 14⟩ (file.drop readlen) >>= fun x =>
          pure (⟨x.1, UInt16.ofNat rdclass, UInt16.ofNat type, UInt16.ofNat covers, UInt32.ofNat ttl⟩, rdcount, x.2.1, x.2.2) := by
      rw [readHead]
      rw [hreadlen, stdioRead, if_pos hfile, ok_then]
      simp only
      rw [hclass, ok_then]
      rw [htype, ok_then]
      rw [hcovers, ok_then]
      rw [httl, ok_then]
      rw [hrdcount, ok_then]
      rw [require_true (decide_eq_true h14'), ok_then]
    by_cases hzero : rdcount = 0
    · rw [if_pos hzero] at hrun
      exact .inl ⟨_, hrun⟩
    rw [if_neg hzero] at hrun
    have hw : Target.Within ⟨file.take readlen, 14⟩ :=
      ⟨show 14 ≤ (file.take readlen).length by omega, show (file.take readlen).length ≤ tsiz by omega⟩
    obtain ⟨r, herr⟩ | ⟨name, t', file', howner, hahead⟩ := @readOwner_cases (decide (tsiz < totallen)) _ (file.drop readlen) hw (by
      intro hs
      rw [if_pos (of_decide_eq_true hs)] at hlen
      rw [hused, ← hlen]
      decide)
    · rw [herr] at hrun
      exact .inl ⟨r, hrun⟩
    · rw [howner, ok_then] at hrun
      exact .inr ⟨_, rdcount, t', file', hrun, hzero, hcount, hfile, hahead.current, hahead⟩
  refine .inl ⟨.eof, ?_⟩
  rw [readHead]
  rw [hreadlen, stdioRead, if_neg hfile]
  rfl

end head

/-! ### What holds in every state -/

/-- The rdata comes from the bytes of the file at the span, which starts behind the start of the record. -/
def Comes (env : LoadEnv) (file : Bytes) (list : Rdatalist) (start : ℕ) (r : Rdata) (span : ℕ × ℕ) : Prop :=
  start ≤ span.1 ∧ rdataFromwire env list.rdclass list.type ((file.drop span.1).take span.2) = .ok r

/-- The callback was given rdata of the record only. -/
def Given.Own (env : LoadEnv) (file : Bytes) (g : Given) : Prop :=
  Forall₂ (fun r span => Comes env file g.list g.start r span ∧ span.1 + span.2 ≤ g.start + g.total) g.rdata g.spans

/-- What holds in the loop over the rdata. -/
structure ScanInv (env : LoadEnv) (file : Bytes) (m : Machine) (s : Scan) : Prop where
  count : s.batch.rdata.length + s.missing ≤ s.rdcount
  rdcount_lt : s.rdcount < 2 ^ 32
  missing : s.batch.rdata = [] → s.missing ≠ 0
  grown : s.grown = true → m.size = (s.rdcount + rdsz) % 2 ^ 32
  kept : s.grown = false → s.rdcount ≤ m.size
  within : s.batch.target.Within
  room : s.sequential = true → s.batch.rdata = [] → mintsiz ≤ s.batch.target.available
  reads : s.sequential = true → stream true s.batch.target m.l.file <:+ file
  buffered : s.sequential = false → s.batch.target.used = (file.drop (s.start + 4)).take (s.total - 4) ∧
    s.batch.target.used.length + 4 = s.total
  start_le : s.start ≤ s.offset file.length m.l
  comes : Forall₂ (Comes env file s.list s.start) s.batch.rdata s.spans
  ends : ∀ span ∈ s.spans, span.1 + span.2 ≤ s.offset file.length m.l
  last : ∀ span, s.spans.getLast? = some span → span.1 + span.2 = s.offset file.length m.l

/-- What holds in every state: what is left of the file is at its end. -/
structure MachineInv (env : LoadEnv) (file : Bytes) (m : Machine) : Prop where
  suffix : m.l.file <:+ file
  scan : ∀ s, m.phase = .rdata s → ScanInv env file m s

/-- A state is safe: no assertion has failed, nothing is stored outside the array or the buffer, and the callback was given
rdata of their own records. -/
structure Safe (env : LoadEnv) (file : Bytes) (m : Machine) : Prop where
  stopped : ∀ e, m.phase = .stopped e → ∃ r, e = .result r
  used_le : ∀ s, m.phase = .rdata s → s.batch.target.used.length ≤ tsiz
  own : ∀ g ∈ m.given, g.Own env file

/-- An index into the array, which is made for the number of the rdata and the spare ones modulo 2^32. -/
def RecordHead.Indexed (s : RecordHead) (i : ℕ) : Prop := s.grown = true → 2 ^ 32 ≤ s.rdcount + rdsz → i < s.rdcount + rdsz - 2 ^ 32

/-- The record reaches up to where `bytes`, the end of the file, start. -/
def RecordHead.Reaches (s : RecordHead) (fileSize : ℕ) (bytes : Bytes) : Prop := fileSize - bytes.length ≤ s.start + s.total

/-- In a record that is read piece by piece, what has been read is of the record when it is committed, and else the next rdata has
space. -/
def Scan.Room (s : Scan) (fileSize : ℕ) (l : LoadCtx) : Prop :=
  s.sequential = true →
    if s.batch.target.available < mintsiz then s.offset fileSize l ≤ s.start + s.total
    else ∀ n, nextLength true (stream true s.batch.target l.file) l.file = some n → s.batch.target.used.length + 2 + n ≤ tsiz

/-- The function has returned. -/
def Machine.Final (m : Machine) : Prop :=
  match m.phase with
  | .done _ => True
  | .stopped _ => True
  | _ => False

/-- What has to hold in front of a step. -/
def Sound (file : Bytes) (m : Machine) : Prop :=
  match m.phase with
  | .rdata s =>
    if s.missing = 0 then s.sequential = true → s.batch.target.remaining = 0 → s.offset file.length m.l ≤ s.start + s.total
    else s.Indexed s.batch.rdata.length ∧ s.Room file.length m.l
  | _ => True

section inv

variable {env : LoadEnv} {alloc : ℕ → Bool} {file : Bytes} {m : Machine} {s : Scan}

theorem Machine.Final.step (h : m.Final) (fileSize : ℕ) : loadStep env alloc fileSize m = m := by
  unfold loadStep
  unfold Machine.Final at h
  split at h
  · rename_i hphase
    rw [hphase]
  · rename_i hphase
    rw [hphase]
  · exact h.elim

theorem Machine.Final.sound (h : m.Final) : Sound file m := by
  unfold Sound
  unfold Machine.Final at h
  split at h
  · rename_i hphase
    rw [hphase]
    trivial
  · rename_i hphase
    rw [hphase]
    trivial
  · exact h.elim

theorem ScanInv.index_iff (h : ScanInv env file m s) (hne : s.missing ≠ 0) : s.batch.rdata.length < m.size ↔
    s.Indexed s.batch.rdata.length := by
  rw [RecordHead.Indexed]
  have hcount := h.count
  have hlt := h.rdcount_lt
  cases hgrown : s.grown with
  | false =>
    have hle := h.kept hgrown
    simp only [Bool.false_eq_true, false_implies, iff_true]
    omega
  | true =>
    rw [h.grown hgrown]
    simp only [rdsz, true_implies] at *
    omega

/-- The place of the file where the stream starts is the offset. -/
theorem Scan.reaches_iff (s : Scan) {l : LoadCtx} (hs : s.sequential = true) :
    s.Reaches file.length (stream s.sequential s.batch.target l.file) ↔ s.offset file.length l ≤ s.start + s.total := by
  rw [RecordHead.Reaches, stream_length, hs, if_pos rfl, Scan.offset, if_pos hs, Nat.sub_sub, Nat.add_comm]

theorem ScanInv.stream_length (h : ScanInv env file m s) (hs : s.sequential = true) :
    m.l.file.length + s.batch.target.remaining ≤ file.length := by
  have hlen := (h.reads hs).length_le
  rw [stream, length_append, length_drop, if_pos rfl] at hlen
  rw [Target.remaining]
  omega

/-- The next bytes of the stream are those at the offset. -/
theorem ScanInv.data (h : ScanInv env file m s) {n : ℕ} (hn : 2 + n ≤ (stream s.sequential s.batch.target m.l.file).length) :
    ((stream s.sequential s.batch.target m.l.file).drop 2).take n = (file.drop (s.offset file.length m.l + 2)).take n := by
  cases hs : s.sequential with
  | true =>
    have heq := suffix_iff_eq_drop.1 (h.reads hs)
    have hoffset : file.length - (stream true s.batch.target m.l.file).length = s.offset file.length m.l := by
      rw [stream, length_append, length_drop, if_pos rfl, Scan.offset, if_pos hs, Target.remaining]
      omega
    rw [hoffset] at heq
    rw [heq, drop_drop]
  | false =>
    obtain ⟨hused, hlen⟩ := h.buffered hs
    rw [hs] at hn
    simp only [stream, Bool.false_eq_true, if_false, append_nil, length_drop] at hn ⊢
    have htotal : s.batch.target.used.length = s.total - 4 := by omega
    rw [hused, drop_take, drop_drop, drop_take, drop_drop, take_take, Scan.offset, hs,
      if_neg Bool.false_ne_true]
    congr 1
    omega

theorem ScanInv.offset_next (h : ScanInv env file m s) {n : ℕ} {b : Batch} {l : LoadCtx}
    (hcur : b.target.current = s.batch.target.current + 2 + n)
    (hused : b.target.used.length = s.batch.target.used.length + if s.sequential then 2 + n else 0)
    (hfile : m.l.file.length = l.file.length + if s.sequential then 2 + n else 0) (s' : Scan) (hseq : s'.sequential = s.sequential)
    (hstart : s'.start = s.start) (hbatch : s'.batch = b) : s'.offset file.length l = s.offset file.length m.l + 2 + n := by
  have hlen := h.stream_length
  have hle := h.within.current_le
  rw [Scan.offset, Scan.offset, hseq, hstart, hbatch]
  cases hs : s.sequential with
  | true =>
    rw [hs, if_pos rfl] at hused hfile
    have hlen := h.stream_length hs
    simp only [if_true, Target.remaining] at hlen ⊢
    omega
  | false =>
    simp only [Bool.false_eq_true, if_false]
    omega

/-- The load goes on when the callback was given the rdata: it has succeeded, or its errors are counted only. -/
def Accepted (env : LoadEnv) (a : Added) : Prop := env.add a = .success ∨ env.add a ≠ .ioerror ∧ env.manyerrors = true

theorem commit_cases (env : LoadEnv) (l : LoadCtx) (a : Added) :
    (¬Accepted env a ∧ ∃ r, commit env l a = .error (.result r)) ∨ (Accepted env a ∧ ∃ l', commit env l a = .ok l' ∧ l'.file = l.file) := by
  unfold commit
  simp only
  split
  · rename_i hadd
    exact .inr ⟨Or.inl hadd, _, rfl, rfl⟩
  rename_i hadd
  split
  · rename_i hmany
    exact .inr ⟨Or.inr hmany, _, rfl, rfl⟩
  · rename_i hmany
    exact .inl ⟨fun h => h.elim hadd hmany, _, rfl⟩

/-- What has been given is of the record just if the offset is. -/
theorem ScanInv.own_iff (h : ScanInv env file m s) (hne : s.batch.rdata ≠ []) :
    Given.Own env file ⟨s.list, s.start, s.total, s.batch.rdata, s.spans⟩ ↔ s.offset file.length m.l ≤ s.start + s.total := by
  constructor
  · intro hown
    obtain ⟨span, hspan⟩ : ∃ span, s.spans.getLast? = some span := by
      cases hlast : s.spans.getLast? with
      | some span => exact ⟨span, rfl⟩
      | none =>
        have hlen := h.comes.length_eq
        rw [getLast?_eq_none_iff.1 hlast] at hlen
        exact absurd (length_eq_zero_iff.1 hlen) hne
    have hend : ∀ span ∈ s.spans, span.1 + span.2 ≤ s.start + s.total := by
      have hown' : Forall₂ (fun r span => Comes env file s.list s.start r span ∧ span.1 + span.2 ≤ s.start + s.total)
          s.batch.rdata s.spans := hown
      intro span hmem
      obtain ⟨i, hi, rfl⟩ := getElem_of_mem hmem
      have hi' : i < s.batch.rdata.length := by rw [hown'.length_eq]; exact hi
      exact (hown'.get hi' hi).2
    rw [← h.last span hspan]
    exact hend span (mem_of_getLast? hspan)
  · intro hle
    exact forall₂_iff_get.2 ⟨h.comes.length_eq, fun i h1 h₂ =>
      ⟨h.comes.get h1 h₂, (h.ends _ (get_mem s.spans ⟨i, h₂⟩)).trans hle⟩⟩

theorem giveBatch_cases (env : LoadEnv) (m : Machine) (s : Scan) (phase : Phase) (loopCnt : ℕ) :
    (giveBatch env m s phase loopCnt).given = m.given ++ [⟨s.list, s.start, s.total, s.batch.rdata, s.spans⟩] ∧
      (giveBatch env m s phase loopCnt).size = m.size ∧ (giveBatch env m s phase loopCnt).l.file = m.l.file ∧
      ((¬Accepted env (s.list.added s.batch.rdata) ∧ ∃ r, (giveBatch env m s phase loopCnt).phase = .stopped (.result r)) ∨
        (Accepted env (s.list.added s.batch.rdata) ∧ (giveBatch env m s phase loopCnt).phase = phase ∧
          (giveBatch env m s phase loopCnt).loopCnt = loopCnt)) := by
  unfold giveBatch
  obtain ⟨hacc, r, h⟩ | ⟨hacc, l', h, hfile⟩ := commit_cases env m.l (s.list.added s.batch.rdata)
  · rw [h]
    exact ⟨rfl, rfl, rfl, Or.inl ⟨hacc, r, rfl⟩⟩
  · rw [h]
    exact ⟨rfl, rfl, hfile, Or.inr ⟨hacc, rfl, rfl⟩⟩

theorem ScanInv.offset_le (h : ScanInv env file m s) (hs : s.sequential = false) : s.offset file.length m.l ≤ s.start + s.total := by
  obtain ⟨-, hlen⟩ := h.buffered hs
  have hle := h.within.current_le
  rw [Scan.offset, hs, if_neg Bool.false_ne_true]
  omega

/-- What the callback was given before the step is no matter. -/
theorem own_append (env : LoadEnv) (file : Bytes) (given : List Given) (g : Given) (h : ∀ g ∈ given, g.Own env file) :
    (∀ g' ∈ given ++ [g], g'.Own env file) ↔ g.Own env file := by
  rw [forall_mem_append, forall_mem_singleton]
  exact and_iff_right h

/-- A commit. -/
theorem give_step (h : MachineInv env file m) (hscan : ScanInv env file m s) (hne : s.batch.rdata ≠ []) {phase : Phase} {loopCnt : ℕ}
    (hphase : ∀ s', phase = .rdata s' → ∀ m' : Machine, m'.size = m.size → m'.l.file = m.l.file → ScanInv env file m' s')
    (hstopped : ∀ e, phase ≠ .stopped e) : MachineInv env file (giveBatch env m s phase loopCnt) ∧
      (Safe env file m → (Safe env file (giveBatch env m s phase loopCnt) ↔ s.offset file.length m.l ≤ s.start + s.total)) := by
  obtain ⟨hgiven, hsize, hfile, hend⟩ := giveBatch_cases env m s phase loopCnt
  have hscan' : ∀ s', (giveBatch env m s phase loopCnt).phase = .rdata s' → ScanInv env file (giveBatch env m s phase loopCnt) s' := by
    intro s' hs'
    obtain ⟨-, r, hr⟩ | ⟨-, hr, -⟩ := hend
    · rw [hr] at hs'
      cases hs'
    · exact hphase s' (hr.symm.trans hs') _ hsize hfile
  refine ⟨⟨by rw [hfile]; exact h.suffix, hscan'⟩, fun hsafe => ?_⟩
  rw [← hscan.own_iff hne, ← own_append env file m.given _ hsafe.own, ← hgiven]
  refine ⟨fun h' => h'.own, fun hown => ⟨fun e he => ?_, fun s' hs' => (hscan' s' hs').within.used_le, hown⟩⟩
  obtain ⟨-, r, hr⟩ | ⟨-, hr, -⟩ := hend
  · rw [hr] at he
    cases he
    exact ⟨r, rfl⟩
  · exact absurd (hr.symm.trans he) (hstopped e)

theorem stop_step (h : MachineInv env file m) (e : Stop) : MachineInv env file { m with phase := .stopped e } ∧
    (Safe env file m → (Safe env file { m with phase := .stopped e } ↔ ∃ r, e = .result r)) := by
  have hnone : ∀ s', ({ m with phase := .stopped e } : Machine).phase ≠ .rdata s' := fun s' hs' => by cases hs'
  refine ⟨⟨h.suffix, fun s' hs' => absurd hs' (hnone s')⟩, fun hsafe =>
    ⟨fun h' => h'.stopped e rfl, fun hr => ⟨fun e' he => ?_, fun s' hs' => absurd hs' (hnone s'), hsafe.own⟩⟩⟩
  cases he
  exact hr

/-- The next rdata. -/
theorem scan_step (hret : Returns env) (h : MachineInv env file m) (hscan : ScanInv env file m s) (hne : s.missing ≠ 0) :
    MachineInv env file (scanStep env file.length m s) ∧ (Safe env file m → (Safe env file (scanStep env file.length m s) ↔
      s.Indexed s.batch.rdata.length ∧ s.Room file.length m.l)) := by
  rw [← hscan.index_iff hne]
  unfold scanStep
  by_cases hidx : s.batch.rdata.length < m.size
  · rw [if_neg (not_not.2 hidx), and_iff_right hidx]
    by_cases hfull : s.sequential = true ∧ s.batch.target.available < mintsiz
    · obtain ⟨hs, hfull'⟩ := hfull
      have hrdata : s.batch.rdata ≠ [] := fun hnil => absurd (hscan.room hs hnil) (not_le.2 hfull')
      have hempty : s.batch.rdata.isEmpty = false := by simpa using hrdata
      have hsound : s.Room file.length m.l ↔ s.offset file.length m.l ≤ s.start + s.total := by
        rw [Scan.Room, if_pos hfull']
        exact ⟨fun h => h hs, fun h _ => h⟩
      rw [if_pos ⟨hs, hfull'⟩, hempty, if_neg Bool.false_ne_true, hsound]
      refine give_step h hscan hrdata ?_ (fun e he => by cases he)
      intro s' hs' m' hsize hfile
      cases hs'
      have hoffset : s.offset file.length m.l ≤
          Scan.offset file.length { s with batch := ⟨[], ⟨[], 0⟩⟩, spans := [] } m'.l := by
        rw [Scan.offset, Scan.offset, if_pos hs, if_pos hs, hfile]
        exact Nat.sub_le_sub_left (Nat.zero_le _) _
      exact {
        count := (Nat.zero_add s.missing).le.trans ((Nat.le_add_left _ _).trans hscan.count)
        rdcount_lt := hscan.rdcount_lt
        missing := fun _ => hne
        grown := fun hg => hsize.trans (hscan.grown hg)
        kept := fun hg => (hscan.kept hg).trans hsize.ge
        within := ⟨Nat.zero_le _, Nat.zero_le _⟩
        room := fun _ _ => show mintsiz ≤ tsiz - 0 by decide
        reads := fun _ => by
          rw [hfile]
          exact h.suffix
        buffered := fun hf => absurd (hs.symm.trans hf) (by decide)
        start_le := hscan.start_le.trans hoffset
        comes := .nil
        ends := fun span hspan => by cases hspan
        last := fun span hspan => by cases hspan }
    rw [if_neg hfull]
    have hroom : s.sequential = true → mintsiz ≤ s.batch.target.available := fun hs => not_lt.1 (fun hlt => hfull ⟨hs, hlt⟩)
    have hsound : s.Room file.length m.l ↔ (s.sequential = true → ∀ n,
      nextLength s.sequential (stream s.sequential s.batch.target m.l.file) m.l.file = some n →
          s.batch.target.used.length + 2 + n ≤ tsiz) := by
      refine forall_congr' (fun hs => ?_)
      rw [if_neg (not_lt.2 (hroom hs)), hs]
    rw [hsound]
    obtain ⟨hs, ⟨n, hn, hover⟩, hread⟩ | ⟨hfit, ⟨r, hread⟩ | ⟨n, r, t', file', hread, hcur, hwithin, hused, hsuf, hlen, hstream, hfrom,
        htotal, hsame, -⟩⟩ :=
      @readRdata_cases env s.list s.sequential s.batch m.l hret hscan.within hroom
    · rw [hread]
      obtain ⟨hinv, hsafe⟩ := stop_step h .assertion
      refine ⟨hinv, fun hm => ?_⟩
      rw [hsafe hm]
      exact iff_of_false (by simp) (fun hall => absurd (hall hs n hn) (by omega))
    · rw [hread.1]
      obtain ⟨hinv, hsafe⟩ := stop_step h (.result r)
      refine ⟨hinv, fun hm => ?_⟩
      rw [hsafe hm]
      exact iff_of_true ⟨r, rfl⟩ hfit
    · -- the rdata is read
      let spans := s.spans ++ [(s.offset file.length m.l + 2, t'.current - s.batch.target.current - 2)]
      let s' : Scan := { s with missing := s.missing - 1, batch := ⟨s.batch.rdata ++ [r], t'⟩, spans := spans }
      have hspan : t'.current - s.batch.target.current - 2 = n := by omega
      have hoffset : s'.offset file.length { m.l with file := file' } = s.offset file.length m.l + 2 + n :=
        hscan.offset_next hcur hused hlen s' rfl rfl rfl
      have hcomes : Comes env file s.list s.start r (s.offset file.length m.l + 2, t'.current - s.batch.target.current - 2) := by
        refine ⟨hscan.start_le.trans (Nat.le_add_right _ 2), ?_⟩
        rw [hscan.data htotal] at hfrom
        rw [hspan]
        exact hfrom
      have hne' : s.batch.rdata ++ [r] ≠ [] := by simp
      have hscan' : ScanInv env file { m with phase := .rdata s', l := { m.l with file := file' } } s' := {
        count := by
          have := hscan.count
          show (s.batch.rdata ++ [r]).length + (s.missing - 1) ≤ s.rdcount
          rw [length_append, length_singleton]
          omega
        rdcount_lt := hscan.rdcount_lt
        missing := fun hnil => absurd hnil hne'
        grown := hscan.grown
        kept := hscan.kept
        within := hwithin
        room := fun _ hnil => absurd hnil hne'
        reads := fun hs => by
          have hs' : s.sequential = true := hs
          rw [hs'] at hstream
          rw [hstream]
          exact (drop_suffix _ _).trans (hscan.reads hs)
        buffered := fun hs => by
          rw [hsame hs]
          exact hscan.buffered hs
        start_le := by
          rw [hoffset]
          have := hscan.start_le
          show s.start ≤ _
          omega
        comes := rel_append hscan.comes (.cons hcomes .nil)
        ends := by
          intro span hmem
          rw [hoffset]
          obtain hmem | hmem := mem_append.1 hmem
          · exact (hscan.ends span hmem).trans (by omega)
          · rw [mem_singleton.1 hmem, hspan]
        last := by
          intro span hlast
          have hlast' : (s.spans ++ [(s.offset file.length m.l + 2, t'.current - s.batch.target.current - 2)]).getLast? = some span := hlast
          rw [getLast?_concat] at hlast'
          cases hlast'
          rw [hoffset, hspan] }
      have hphase : ∀ s1, Phase.rdata s' = .rdata s1 → s1 = s' := fun s1 h1 => (Phase.rdata.inj h1).symm
      rw [hread]
      refine ⟨⟨hsuf.trans h.suffix, fun s1 h1 => ?_⟩, fun hm => iff_of_true ⟨fun e he => ?_, fun s1 h1 => ?_, hm.own⟩ hfit⟩
      · rw [hphase s1 h1]
        exact hscan'
      · cases he
      · rw [hphase s1 h1]
        exact hwithin.used_le
  · rw [if_pos hidx]
    obtain ⟨hinv, hsafe⟩ := stop_step h .overrun
    refine ⟨hinv, fun hm => ?_⟩
    rw [hsafe hm]
    exact iff_of_false (by simp) (fun hand => hidx hand.1)

theorem growRdata_cases (alloc : ℕ → Bool) (size rdcount : ℕ) : (∃ r, growRdata alloc size rdcount = .error (.result r)) ∨
    ∃ size', growRdata alloc size rdcount = .ok size' ∧ (decide (size < rdcount) = true → size' = (rdcount + rdsz) % 2 ^ 32) ∧
      (decide (size < rdcount) = false → rdcount ≤ size') := by
  unfold growRdata
  split
  · split
    · rename_i hlt _
      exact .inr ⟨_, rfl, fun _ => rfl, fun h => absurd hlt (of_decide_eq_false h)⟩
    · exact .inl ⟨_, rfl⟩
  · rename_i hlt
    exact .inr ⟨_, rfl, fun h => absurd (of_decide_eq_true h) hlt, fun _ => not_lt.1 hlt⟩

/-- What is left when the fixed fields and the owner are read. -/
theorem opened_length {rest : Bytes} {total : ℕ} {t : Target} {file' : Bytes} (hfour : 4 ≤ rest.length)
    (hlen : (if tsiz < total - 4 then 14 else total - 4) ≤ (rest.drop 4).length)
    (h : Ahead (decide (tsiz < total - 4)) ⟨(rest.drop 4).take (if tsiz < total - 4 then 14 else total - 4), 14⟩
      ((rest.drop 4).drop (if tsiz < total - 4 then 14 else total - 4)) t file') :
    t.remaining + file'.length < rest.length := by
  have hstream := h.stream.length_le
  rw [Target.remaining]
  by_cases hs : tsiz < total - 4
  · rw [if_pos hs] at hlen hstream
    rw [decide_eq_true hs] at hstream
    simp only [stream, if_true, length_append, length_drop, length_take] at hstream hlen
    omega
  rw [if_neg hs] at h hlen hstream
  rw [decide_eq_false hs] at h hstream
  have hfile := (h.buffered rfl).2
  simp only [stream, Bool.false_eq_true, if_false, append_nil, length_drop, length_take] at hstream hlen
  rw [hfile, length_drop, length_drop]
  omega

theorem openRecord_eq (alloc : ℕ → Bool) (offset size : ℕ) {rest : Bytes} {total : ℕ} (hfour : 4 ≤ rest.length)
    (htotal : uint32Fromregion (rest.take 4) = .ok total) (hmin : 18 ≤ total) :
    openRecord alloc offset size rest = (readHead (total - 4) (rest.drop 4) >>= fun x => growRdata alloc size x.2.1 >>= fun size' =>
      pure (⟨⟨x.1, decide (tsiz < total - 4), offset, total, x.2.1, decide (size < x.2.1)⟩, x.2.1, ⟨[], x.2.2.1⟩, []⟩, size',
        x.2.2.2)) := by
  rw [openRecord, stdioRead, if_pos hfour, ok_then]
  simp only
  rw [htotal, ok_then, if_neg (not_lt.2 hmin)]

theorem openRecord_cases (env : LoadEnv) (alloc : ℕ → Bool) (size : ℕ) {rest : Bytes} (h : rest <:+ file) (hlong : ¬rest.length < 4) :
    (∃ r, openRecord alloc (file.length - rest.length) size rest = .error (.result r)) ∨
    ∃ s size' rest', openRecord alloc (file.length - rest.length) size rest = .ok (s, size', rest') ∧ rest' <:+ file ∧
      s.batch.target.remaining + rest'.length < rest.length ∧ s.batch.rdata = [] ∧
      ∀ m' : Machine, m'.size = size' → m'.l.file = rest' → ScanInv env file m' s := by
  have hfour : 4 ≤ rest.length := not_lt.1 hlong
  obtain ⟨total, -, htotal⟩ := uint32Fromregion_of_length (r := rest.take 4) (by rw [length_take, Nat.min_eq_left hfour])
  by_cases hmin : total < 18
  · exact .inl ⟨.range, by rw [openRecord, stdioRead, if_pos hfour, ok_then]; simp only; rw [htotal, ok_then, if_pos hmin]; rfl⟩
  have hrun := openRecord_eq alloc (file.length - rest.length) size hfour htotal (not_lt.1 hmin)
  obtain ⟨r, hhead⟩ | ⟨list, rdcount, t, file', hhead, hne, hlt, hlen, hcur, hahead⟩ :=
    @readHead_cases (rest.drop 4) (total - 4) (by omega)
  · exact .inl ⟨r, by rw [hrun, hhead]; rfl⟩
  obtain ⟨r, hgrow⟩ | ⟨size', hgrow, hgrown, hkept⟩ := growRdata_cases alloc size rdcount
  · exact .inl ⟨r, by rw [hrun, hhead, ok_then]; simp only; rw [hgrow]; rfl⟩
  rw [hhead, ok_then] at hrun
  rw [hgrow, ok_then] at hrun
  have hsuffix : file' <:+ rest := hahead.suffix.trans ((drop_suffix _ _).trans (drop_suffix _ _))
  have hmeasure := opened_length hfour hlen hahead
  have hdrop := suffix_iff_eq_drop.1 h
  refine .inr ⟨_, size', _, hrun, hsuffix.trans h, hmeasure, rfl, fun m' hsize hfile => ?_⟩
  exact {
    count := (Nat.zero_add rdcount).le
    rdcount_lt := hlt
    missing := fun _ => hne
    grown := fun hg => hsize.trans (hgrown hg)
    kept := fun hg => (hkept hg).trans hsize.ge
    within := hahead.within
    room := fun hs _ => by
      have hused := hahead.used hs
      rw [if_pos (of_decide_eq_true hs), length_take] at hused
      have hle : t.used.length ≤ 271 := hused.trans (by omega)
      exact (show mintsiz ≤ tsiz - 271 by decide).trans (Nat.sub_le_sub_left hle _)
    reads := fun hs => by
      have hstream := hahead.stream
      have hs' : decide (tsiz < total - 4) = true := hs
      rw [hs', if_pos (of_decide_eq_true hs'), stream, stream, if_pos rfl, if_pos rfl, drop_take_self, nil_append] at hstream
      rw [stream, if_pos rfl, hfile]
      exact hstream.trans ((drop_suffix _ _).trans ((drop_suffix _ _).trans h))
    buffered := fun hs => by
      have hs' : decide (tsiz < total - 4) = false := hs
      have hused := (hahead.buffered hs).1
      rw [if_neg (of_decide_eq_false hs')] at hused hlen
      have hused' : t.used = (rest.drop 4).take (total - 4) := hused
      show t.used = _ ∧ t.used.length + 4 = total
      refine ⟨?_, ?_⟩
      · rw [hused', ← drop_drop, ← hdrop]
      · rw [hused', length_take, Nat.min_eq_left hlen]
        omega
    start_le := by
      rw [Scan.offset, hfile]
      split
      · show file.length - rest.length ≤ file.length - file'.length - t.remaining
        have hle : t.remaining + file'.length < rest.length := hmeasure
        omega
      · exact (Nat.le_add_right _ 4).trans (Nat.le_add_right _ _)
    comes := .nil
    ends := fun span hspan => by cases hspan
    last := fun span hspan => by cases hspan }

theorem load_step (hret : Returns env) (h : MachineInv env file m) : MachineInv env file (loadStep env alloc file.length m) ∧
    (Safe env file m → (Safe env file (loadStep env alloc file.length m) ↔ Sound file m)) := by
  cases hphase : m.phase with
  | record =>
    have hsound : Sound file m := by
      unfold Sound
      rw [hphase]
      trivial
    have hdone : ∀ eof, MachineInv env file { m with phase := .done eof } ∧
        (Safe env file m → (Safe env file { m with phase := .done eof } ↔ Sound file m)) := by
      intro eof
      exact ⟨⟨h.suffix, fun s hs => by cases hs⟩, fun hm => iff_of_true ⟨fun e he => (by cases he), fun s hs => (by cases hs), hm.own⟩ hsound⟩
    unfold loadStep
    rw [hphase]
    simp only
    split
    · split
      · exact hdone true
      · rename_i hlong
        obtain ⟨r, hopen⟩ | ⟨s, size', rest, hopen, hsuf, -, -, hscan⟩ := openRecord_cases env alloc m.size h.suffix hlong
        · rw [hopen]
          obtain ⟨hinv, hsafe⟩ := stop_step h (.result r)
          exact ⟨hinv, fun hm => (hsafe hm).trans (iff_of_true ⟨r, rfl⟩ hsound)⟩
        rw [hopen]
        have hone : ∀ s1, Phase.rdata s = .rdata s1 → s1 = s := fun s1 h1 => (Phase.rdata.inj h1).symm
        refine ⟨⟨hsuf, fun s1 h1 => ?_⟩, fun hm => iff_of_true ⟨fun e he => (by cases he), fun s1 h1 => ?_, hm.own⟩ hsound⟩
        · rw [hone s1 h1]
          exact hscan _ rfl rfl
        · rw [hone s1 h1]
          exact (hscan { m with phase := .rdata s, l := { m.l with file := rest }, size := size' } rfl rfl).within.used_le
    · exact hdone false
  | rdata s =>
    have hscan := h.scan s hphase
    unfold loadStep Sound
    rw [hphase]
    simp only
    by_cases hzero : s.missing = 0
    · have hne : s.batch.rdata ≠ [] := fun hnil => hscan.missing hnil hzero
      rw [if_pos hzero, if_pos hzero]
      by_cases hrem : s.batch.target.remaining = 0
      · rw [if_neg (not_not.2 hrem)]
        obtain ⟨hinv, hsafe⟩ := @give_step env file m s h hscan hne .record (m.loopCnt + 1) (fun s' hs' => by cases hs')
          (fun e he => by cases he)
        refine ⟨hinv, fun hm => (hsafe hm).trans ⟨fun hle _ _ => hle, fun hle => ?_⟩⟩
        cases hs : s.sequential with
        | true => exact hle hs hrem
        | false => exact hscan.offset_le hs
      rw [if_pos hrem]
      obtain ⟨hinv, hsafe⟩ := stop_step h (.result .range)
      exact ⟨hinv, fun hm => (hsafe hm).trans (iff_of_true ⟨_, rfl⟩ (fun _ h0 => absurd h0 hrem))⟩
    · rw [if_neg hzero, if_neg hzero]
      exact scan_step hret h hscan hzero
  | done eof | stopped e =>
    have hfinal : m.Final := by
      rw [Machine.Final, hphase]
      trivial
    rw [hfinal.step]
    exact ⟨h, fun hm => iff_of_true hm hfinal.sound⟩

end inv

/-! ### Termination -/

/-- The bytes that are left, where each counts for more steps than are done between two of them. -/
def Machine.left (m : Machine) : ℕ :=
  match m.phase with
  | .record => 4 * m.l.file.length + 1
  | .rdata s => 4 * (s.batch.target.remaining + m.l.file.length) + (if s.sequential = true ∧ s.batch.target.available < mintsiz then 3 else 2)
  | _ => 0

section run

variable {env : LoadEnv} {alloc : ℕ → Bool} {file : Bytes} {m : Machine} {s : Scan}

theorem left_stopped (m : Machine) (e : Stop) : Machine.left { m with phase := .stopped e } = 0 := rfl

theorem left_rdata (hphase : m.phase = .rdata s) : 4 * (s.batch.target.remaining + m.l.file.length) + 2 ≤ m.left ∧
    m.left ≤ 4 * (s.batch.target.remaining + m.l.file.length) + 3 := by
  rw [Machine.left, hphase]
  simp only
  split
  · omega
  · omega

theorem left_giveBatch (env : LoadEnv) (m : Machine) (s : Scan) (phase : Phase) (loopCnt : ℕ) :
    (giveBatch env m s phase loopCnt).left ≤ Machine.left { m with phase := phase } := by
  obtain ⟨-, -, hfile, ⟨-, r, hphase⟩ | ⟨-, hphase, -⟩⟩ := giveBatch_cases env m s phase loopCnt
  · rw [Machine.left, hphase]
    exact Nat.zero_le _
  · rw [Machine.left, Machine.left, hphase, hfile]

/-- A step in the loop reads, or commits what has been read. -/
theorem scan_left (hret : Returns env) (hscan : ScanInv env file m s) (hphase : m.phase = .rdata s) (fileSize : ℕ) :
    (scanStep env fileSize m s).left < m.left := by
  have hleft := left_rdata hphase
  unfold scanStep
  split
  · rw [left_stopped]
    omega
  split
  · rename_i hfull
    split
    · rw [left_stopped]
      omega
    refine lt_of_le_of_lt (left_giveBatch env m s _ _) ?_
    have hroom : ¬(s.sequential = true ∧ Target.available ⟨[], 0⟩ < mintsiz) := fun h => absurd h.2 (by decide)
    simp only [Machine.left, hphase, if_pos hfull, if_neg hroom]
    simp only [Target.remaining, length_nil]
    omega
  rename_i hfull
  have hroom : s.sequential = true → mintsiz ≤ s.batch.target.available := fun hs => not_lt.1 (fun hlt => hfull ⟨hs, hlt⟩)
  obtain ⟨-, -, hread⟩ | ⟨-, ⟨r, hread⟩ | ⟨n, r, t', file', hread, hcur, hwithin, hused, -, hlen, -⟩⟩ :=
    @readRdata_cases env s.list s.sequential s.batch m.l hret hscan.within hroom
  · rw [hread, left_stopped]
    omega
  · rw [hread.1, left_stopped]
    omega
  · have hle := hscan.within.current_le
    have hle' := hwithin.current_le
    rw [hread]
    refine lt_of_le_of_lt (left_rdata rfl).2 (lt_of_lt_of_le ?_ hleft.1)
    simp only [Target.remaining]
    split at hused <;> split at hlen <;> omega

theorem left_step (hret : Returns env) (h : MachineInv env file m) (hfinal : ¬m.Final) :
    (loadStep env alloc file.length m).left < m.left := by
  cases hphase : m.phase with
  | record =>
    have hleft : m.left = 4 * m.l.file.length + 1 := by rw [Machine.left, hphase]
    unfold loadStep
    rw [hphase, hleft]
    simp only
    split
    · split
      · exact Nat.succ_pos _
      · rename_i hlong
        obtain ⟨r, hopen⟩ | ⟨s, size', l', hopen, -, hless, -⟩ := openRecord_cases env alloc m.size h.suffix hlong
        · rw [hopen]
          exact Nat.succ_pos _
        rw [hopen]
        refine lt_of_le_of_lt (left_rdata rfl).2 ?_
        simp only
        omega
    · exact Nat.succ_pos _
  | rdata s =>
    have hscan := h.scan s hphase
    have hleft := left_rdata hphase
    unfold loadStep
    rw [hphase]
    simp only
    by_cases hzero : s.missing = 0
    · rw [if_pos hzero]
      split
      · rw [left_stopped]
        omega
      refine lt_of_le_of_lt (left_giveBatch env m s _ _) ?_
      rw [Machine.left]
      simp only
      omega
    · rw [if_neg hzero]
      exact scan_left hret hscan hphase file.length
  | done eof | stopped e =>
    refine absurd ?_ hfinal
    rw [Machine.Final, hphase]
    trivial

/-! ### Runs -/

theorem stdioRead_cases (file : Bytes) (n : ℕ) : stdioRead file n = .error (.result .eof) ∨
    (n ≤ file.length ∧ stdioRead file n = .ok (file.take n, file.drop n)) := by
  rw [stdioRead]
  split
  · rename_i h
    exact .inr ⟨h, rfl⟩
  · exact .inl rfl

theorem loadHeader_cases (l : LoadCtx) : (∃ r, loadHeader l = .error (.result r)) ∨
    ∃ header l', loadHeader l = .ok (header, l') ∧ l'.file <:+ l.file := by
  obtain hread | ⟨hlen, hread⟩ := stdioRead_cases l.file 8
  · exact .inl ⟨.eof, by rw [loadHeader, hread]; rfl⟩
  have hcommon : (l.file.take 8).length = 8 := by rw [length_take, Nat.min_eq_left hlen]
  obtain ⟨format, -, hformat⟩ := uint32Fromregion_of_length (r := l.file.take 8) (by omega)
  obtain ⟨version, -, hversion⟩ := uint32Fromregion_of_length (r := (l.file.take 8).drop 4) (by rw [length_drop]; omega)
  rw [loadHeader, hread, ok_then]
  simp only
  rw [hformat, ok_then, hversion, ok_then]
  split
  · exact .inl ⟨_, rfl⟩
  split
  · exact .inl ⟨_, rfl⟩
  obtain hread' | ⟨hlen', hread'⟩ := stdioRead_cases (l.file.drop 8) (if version = 0 then 4 else 16)
  · exact .inl ⟨.eof, by rw [hread']; rfl⟩
  rw [hread', ok_then]
  have hsuffix : (l.file.drop 8).drop (if version = 0 then 4 else 16) <:+ l.file := (drop_suffix _ _).trans (drop_suffix _ _)
  have hrest : ((l.file.drop 8).take (if version = 0 then 4 else 16)).length = if version = 0 then 4 else 16 := by
    rw [length_take, Nat.min_eq_left hlen']
  generalize (l.file.drop 8).take (if version = 0 then 4 else 16) = rest at hrest ⊢
  by_cases hzero : version = 0
  · rw [if_pos hzero] at hrest
    obtain ⟨dumptime, -, hdumptime⟩ := uint32Fromregion_of_length (r := rest) (by omega)
    rw [hdumptime, ok_then, if_pos hzero]
    exact .inr ⟨_, _, rfl, hsuffix⟩
  rw [if_neg hzero] at hrest
  obtain ⟨dumptime, -, hdumptime⟩ := uint32Fromregion_of_length (r := rest) (by omega)
  obtain ⟨flags, -, hflags⟩ := uint32Fromregion_of_length (r := rest.drop 4) (by rw [length_drop]; omega)
  obtain ⟨serial, -, hserial⟩ := uint32Fromregion_of_length (r := rest.drop 8) (by rw [length_drop]; omega)
  obtain ⟨lastxfrin, -, hlastxfrin⟩ := uint32Fromregion_of_length (r := rest.drop 12) (by rw [length_drop]; omega)
  rw [hdumptime, ok_then, if_neg hzero, hflags, ok_then, hserial, ok_then, hlastxfrin, ok_then]
  exact .inr ⟨_, _, rfl, hsuffix⟩

theorem loadStart_safe (env : LoadEnv) (l : LoadCtx) : MachineInv env l.file (loadStart l) ∧ Safe env l.file (loadStart l) := by
  have hrecord : ∀ l' : LoadCtx, l'.file <:+ l.file → MachineInv env l.file ⟨.record, l', 0, 0, []⟩ ∧
      Safe env l.file ⟨.record, l', 0, 0, []⟩ := fun l' hsuffix =>
    ⟨⟨hsuffix, fun s hs => (by cases hs)⟩, fun e he => (by cases he), fun s hs => (by cases hs), fun g hg => (by cases hg)⟩
  rw [loadStart]
  split
  · obtain ⟨r, hheader⟩ | ⟨header, l', hheader, hsuffix⟩ := loadHeader_cases l
    · rw [hheader]
      refine ⟨⟨suffix_rfl, fun s hs => (by cases hs)⟩, fun e he => ?_, fun s hs => (by cases hs), fun g hg => (by cases hg)⟩
      cases he
      exact ⟨r, rfl⟩
    · rw [hheader]
      exact hrecord l' hsuffix
  · exact hrecord l suffix_rfl

variable {l : LoadCtx}

theorem loadRun_succ (env : LoadEnv) (alloc : ℕ → Bool) (l : LoadCtx) (n : ℕ) :
    loadRun env alloc l (n + 1) = loadStep env alloc l.file.length (loadRun env alloc l n) :=
  Function.iterate_succ_apply' _ _ _

theorem loadRun_inv (hret : Returns env) (n : ℕ) : MachineInv env l.file (loadRun env alloc l n) := by
  induction n with
  | zero => exact (loadStart_safe env l).1
  | succ n ih =>
    rw [loadRun_succ]
    exact (load_step hret ih).1

/-- Every file is read to an end. -/
theorem loadRun_final (hret : Returns env) (alloc : ℕ → Bool) (l : LoadCtx) : ∃ n, (loadRun env alloc l n).Final := by
  by_contra hnone
  push Not at hnone
  have hless : ∀ n, (loadRun env alloc l n).left + n ≤ (loadStart l).left := by
    intro n
    induction n with
    | zero => exact le_rfl
    | succ n ih =>
      have hstep := @left_step env alloc l.file (loadRun env alloc l n) hret (loadRun_inv hret n) (hnone n)
      rw [loadRun_succ]
      omega
  have := hless ((loadStart l).left + 1)
  omega

/-- What the loader does with the file: it returns, and no state in front of that is unsafe. -/
def LoadsSafely (env : LoadEnv) (alloc : ℕ → Bool) (l : LoadCtx) : Prop :=
  (∃ n, (loadRun env alloc l n).Final) ∧ ∀ n, Safe env l.file (loadRun env alloc l n)

theorem loadRun_sound (hret : Returns env) (alloc : ℕ → Bool) (l : LoadCtx) :
    LoadsSafely env alloc l ↔ ∀ n, Sound l.file (loadRun env alloc l n) := by
  rw [LoadsSafely, and_iff_right (loadRun_final hret alloc l)]
  constructor
  · intro hsafe n
    have hnext := hsafe (n + 1)
    rw [loadRun_succ] at hnext
    exact ((load_step hret (loadRun_inv hret n)).2 (hsafe n)).1 hnext
  · intro hsound n
    induction n with
    | zero => exact (loadStart_safe env l).2
    | succ n ih =>
      rw [loadRun_succ]
      exact ((load_step hret (loadRun_inv hret n)).2 ih).2 (hsound n)

end run

/-! ### The files that are read safely

Conditions on the bytes of the file alone.  `bytes` start at the next rdata and `rest` is what is left of the file; the two differ
in a record that is in the buffer, and where the owner is shorter than its record says. -/

section fits

/-- The next rdata has space behind the `used` bytes, and `fits` holds of what follows it. -/
def NextFits (env : LoadEnv) (s : RecordHead) (fits : List Rdata → ℕ → Bytes → Bytes → Prop) (batch : List Rdata) (used : ℕ)
    (bytes rest : Bytes) : Prop :=
  (s.sequential = true → ∀ n, nextLength true bytes rest = some n → used + 2 + n ≤ tsiz) ∧
  ∀ n r, rdataAt env s.list s.sequential bytes rest = some (n, r) →
    fits (batch ++ [r]) (used + 2 + n) (bytes.drop (2 + n)) (if s.sequential then rest.drop (2 + n) else rest)

/-- The rdata of a record, from the first of the `missing` ones up to one that is refused.  `batch` are those since the last commit,
which comes when they take so much of the buffer that less than `MINTSIZ` is left; `next` is about the records behind. -/
def RdataFit (env : LoadEnv) (fileSize : ℕ) (s : RecordHead) (next : Bytes → Prop) :
    ℕ → List Rdata → ℕ → Bytes → Bytes → Prop
  | 0, batch, _, bytes, rest =>
    bytes.length = (if s.sequential then rest.length else 0) →
      (s.sequential = true → s.Reaches fileSize bytes) ∧ (Accepted env (s.list.added batch) → next rest)
  | missing + 1, batch, used, bytes, rest =>
    s.Indexed batch.length ∧
      if s.sequential = true ∧ tsiz - used < mintsiz then
        s.Reaches fileSize bytes ∧
          (Accepted env (s.list.added batch) → NextFits env s (RdataFit env fileSize s next missing) [] 0 rest rest)
      else NextFits env s (RdataFit env fileSize s next missing) batch used bytes rest

/-- The records, `fuel` of them at most. -/
def RecordsFit (env : LoadEnv) (alloc : ℕ → Bool) (fileSize : ℕ) : ℕ → ℕ → ℕ → Bytes → Prop
  | 0, _, _, _ => True
  | fuel + 1, size, loopCnt, rest =>
    (env.loopCnt = 0 ∨ loopCnt < env.loopCnt) → 4 ≤ rest.length →
      ∀ s size' rest', openRecord alloc (fileSize - rest.length) size rest = .ok (s, size', rest') →
        RdataFit env fileSize s.toRecordHead (RecordsFit env alloc fileSize fuel size' (loopCnt + 1)) s.missing []
          s.batch.target.used.length (stream s.sequential s.batch.target rest') rest'

/-- The records of the file, behind the header where there is one to read. -/
def recordsOf (l : LoadCtx) : Option Bytes := if l.first then (loadHeader l).toOption.map (fun x => x.2.file) else some l.file

def FileFits (env : LoadEnv) (alloc : ℕ → Bool) (l : LoadCtx) : Prop :=
  ∀ rest, recordsOf l = some rest → RecordsFit env alloc l.file.length (rest.length + 1) 0 0 rest

/-- Every state from `m` on is sound. -/
def SoundRun (env : LoadEnv) (alloc : ℕ → Bool) (file : Bytes) (m : Machine) : Prop :=
  ∀ n, Sound file ((loadStep env alloc file.length)^[n] m)

variable {env : LoadEnv} {alloc : ℕ → Bool} {file : Bytes} {m : Machine} {s : Scan}

theorem soundRun_iff : SoundRun env alloc file m ↔ Sound file m ∧ SoundRun env alloc file (loadStep env alloc file.length m) := by
  constructor
  · exact fun h => ⟨h 0, fun n => by have := h (n + 1); rwa [Function.iterate_succ_apply] at this⟩
  · rintro ⟨h0, h⟩ n
    cases n with
    | zero => exact h0
    | succ n =>
      rw [Function.iterate_succ_apply]
      exact h n

theorem soundRun_final (h : m.Final) : SoundRun env alloc file m := by
  intro n
  rw [Function.iterate_fixed (h.step _)]
  exact h.sound

theorem nextFits_iff (hret : Returns env) (h : MachineInv env file m) (hphase : m.phase = .rdata s) (hne : s.missing ≠ 0)
    (hidx : s.Indexed s.batch.rdata.length) (hroom : s.sequential = true → mintsiz ≤ s.batch.target.available) {used : ℕ}
    (hused : s.sequential = true → used = s.batch.target.used.length) {fits : List Rdata → ℕ → Bytes → Bytes → Prop}
    (hfits : ∀ (m' : Machine) (s' : Scan) (used' : ℕ), MachineInv env file m' → m'.phase = .rdata s' → s'.missing = s.missing - 1 →
      s'.toRecordHead = s.toRecordHead → (s.sequential = true → used' = s'.batch.target.used.length) → m'.size = m.size →
      m'.loopCnt = m.loopCnt → m'.l.file.length ≤ m.l.file.length →
      (fits s'.batch.rdata used' (stream s.sequential s'.batch.target m'.l.file) m'.l.file ↔ SoundRun env alloc file m')) :
    NextFits env s.toRecordHead fits s.batch.rdata used (stream s.sequential s.batch.target m.l.file) m.l.file ↔
      SoundRun env alloc file m := by
  have hscan := h.scan s hphase
  have hinv := (@load_step env alloc file m hret h).1
  rw [soundRun_iff]
  have hsound : Sound file m ↔ (s.sequential = true → ∀ n, nextLength true (stream s.sequential s.batch.target m.l.file) m.l.file = some n →
      used + 2 + n ≤ tsiz) := by
    unfold Sound
    rw [hphase]
    simp only
    rw [if_neg hne, and_iff_right hidx]
    refine forall_congr' (fun hs => ?_)
    rw [if_neg (not_lt.2 (hroom hs)), hused hs, hs]
  rw [hsound, NextFits]
  refine and_congr_right (fun hfit => ?_)
  have hstep : loadStep env alloc file.length m = scanStep env file.length m s := by
    unfold loadStep
    rw [hphase]
    simp only
    rw [if_neg hne]
  have hfull : ¬(s.sequential = true ∧ s.batch.target.available < mintsiz) := fun hf => absurd (hroom hf.1) (not_le.2 hf.2)
  rw [hstep] at hinv ⊢
  unfold scanStep at hinv ⊢
  rw [if_neg (not_not.2 ((hscan.index_iff hne).2 hidx)), if_neg hfull] at hinv ⊢
  obtain ⟨hs, ⟨n, hn, hover⟩, -⟩ | ⟨-, ⟨r, hread, hat⟩ | ⟨n, r, t', file', hread, -, -, hused', hsuf, hlen, hstream, -, -, -, hat⟩⟩ :=
    @readRdata_cases env s.list s.sequential s.batch m.l hret hscan.within hroom
  · rw [hs] at hn hfit
    have hle := hfit rfl n hn
    rw [hused hs] at hle
    omega
  · rw [hread, hat]
    exact iff_of_true (fun _ _ hnone => (by cases hnone)) (soundRun_final trivial)
  · rw [hread] at hinv ⊢
    rw [hat]
    have hfile : file' = if s.sequential then m.l.file.drop (2 + n) else m.l.file := by
      rw [suffix_iff_eq_drop.1 hsuf, hlen]
      split
      · rw [Nat.add_sub_cancel_left]
      · rw [Nat.add_zero, Nat.sub_self, drop_zero]
    rw [← hfits _ _ (used + 2 + n) hinv rfl rfl rfl (fun hs => ?_) rfl rfl hsuf.length_le]
    · simp only
      rw [hstream, hfile]
      constructor
      · exact fun hall => hall n r rfl
      · rintro hall _ _ ⟨⟩
        exact hall
    · rw [hused hs]
      simp only
      rw [hused', if_pos hs, Nat.add_assoc]

theorem rdataFit_iff (hret : Returns env) {next : Bytes → Prop} : ∀ (k : ℕ) (m : Machine) (s : Scan) (used : ℕ),
    MachineInv env file m → m.phase = .rdata s → s.missing = k → (s.sequential = true → used = s.batch.target.used.length) →
    (∀ m' : Machine, MachineInv env file m' → m'.phase = .record → m'.size = m.size → m'.loopCnt = m.loopCnt + 1 →
      m'.l.file.length ≤ m.l.file.length → (next m'.l.file ↔ SoundRun env alloc file m')) →
    (RdataFit env file.length s.toRecordHead next k s.batch.rdata used (stream s.sequential s.batch.target m.l.file) m.l.file ↔
      SoundRun env alloc file m) := by
  intro k
  induction k with
  | zero =>
    intro m s used h hphase hzero hused hnext
    have hinv := (@load_step env alloc file m hret h).1
    have hremaining : (stream s.sequential s.batch.target m.l.file).length = (if s.sequential then m.l.file.length else 0) ↔
        s.batch.target.remaining = 0 := by
      rw [stream_length]
      omega
    rw [soundRun_iff, RdataFit, hremaining]
    unfold Sound
    unfold loadStep at hinv ⊢
    rw [hphase] at hinv ⊢
    simp only at hinv ⊢
    rw [if_pos hzero] at hinv ⊢
    rw [if_pos hzero]
    by_cases hrem : s.batch.target.remaining = 0
    · rw [if_neg (not_not.2 hrem)] at hinv ⊢
      obtain ⟨-, hsize, hfile, ⟨hacc, r, hend⟩ | ⟨hacc, hend, hcnt⟩⟩ := giveBatch_cases env m s .record (m.loopCnt + 1)
      · have hrun : SoundRun env alloc file (giveBatch env m s .record (m.loopCnt + 1)) :=
          soundRun_final (by rw [Machine.Final, hend]; trivial)
        simp only [hrem, true_implies, hrun, and_true, hacc, false_implies]
        exact forall_congr' (fun hs => s.reaches_iff hs)
      have hrun := hnext _ hinv hend hsize hcnt (congrArg length hfile).le
      rw [hfile] at hrun
      rw [← hrun]
      simp only [hrem, true_implies, hacc]
      exact and_congr_left' (forall_congr' (fun hs => s.reaches_iff hs))
    · rw [if_pos hrem]
      exact iff_of_true (fun h0 => absurd h0 hrem) ⟨fun _ h0 => absurd h0 hrem, soundRun_final trivial⟩
  | succ k ih =>
    intro m s used h hphase hsucc hused hnext
    have hne : s.missing ≠ 0 := by omega
    have hscan := h.scan s hphase
    rw [RdataFit]
    by_cases hidx : s.Indexed s.batch.rdata.length
    · rw [and_iff_right hidx]
      have hfits : ∀ (m' : Machine) (s' : Scan) (used' : ℕ), MachineInv env file m' → m'.phase = .rdata s' → s'.missing = s.missing - 1 →
          s'.toRecordHead = s.toRecordHead → (s.sequential = true → used' = s'.batch.target.used.length) → m'.size = m.size →
          m'.loopCnt = m.loopCnt → m'.l.file.length ≤ m.l.file.length →
          (RdataFit env file.length s.toRecordHead next k s'.batch.rdata used' (stream s.sequential s'.batch.target m'.l.file) m'.l.file ↔
            SoundRun env alloc file m') := by
        intro m' s' used' h' hphase' hmissing hhead hused' hsize hcnt hle
        rw [← hhead] at hused' ⊢
        exact ih m' s' used' h' hphase' (by omega) hused' (fun m1 h1 hphase1 hsize1 hcnt1 hle1 =>
          hnext m1 h1 hphase1 (hsize1.trans hsize) (by rw [hcnt1, hcnt]) (hle1.trans hle))
      by_cases hfull : s.sequential = true ∧ s.batch.target.available < mintsiz
      · have hfull' : s.sequential = true ∧ tsiz - used < mintsiz := by
          rw [hused hfull.1]
          exact hfull
        have hinv := (@load_step env alloc file m hret h).1
        have hnil : s.batch.rdata ≠ [] := fun hnil => absurd (hscan.room hfull.1 hnil) (not_le.2 hfull.2)
        have hempty : s.batch.rdata.isEmpty = false := by simpa using hnil
        rw [if_pos hfull', soundRun_iff]
        unfold Sound
        unfold loadStep at hinv ⊢
        rw [hphase] at hinv ⊢
        simp only at hinv ⊢
        rw [if_neg hne] at hinv ⊢
        unfold scanStep at hinv ⊢
        rw [if_neg (not_not.2 ((hscan.index_iff hne).2 hidx)), if_pos hfull, hempty, if_neg Bool.false_ne_true] at hinv ⊢
        rw [if_neg hne, Scan.Room, if_pos hfull.2, and_iff_right hidx, s.reaches_iff hfull.1]
        obtain ⟨-, hsize, hfile, ⟨hacc, r, hend⟩ | ⟨hacc, hend, hcnt⟩⟩ :=
          giveBatch_cases env m s (.rdata { s with batch := ⟨[], ⟨[], 0⟩⟩, spans := [] }) m.loopCnt
        · have hrun : SoundRun env alloc file
              (giveBatch env m s (.rdata { s with batch := ⟨[], ⟨[], 0⟩⟩, spans := [] }) m.loopCnt) :=
            soundRun_final (by rw [Machine.Final, hend]; trivial)
          simp only [hrun, and_true, hacc, false_implies, hfull.1, true_implies]
        have hrun := @nextFits_iff env alloc file _ _ hret hinv hend hne (fun hg hw => lt_of_le_of_lt (Nat.zero_le _) (hidx hg hw))
          (fun _ => show mintsiz ≤ tsiz - 0 by decide) 0 (fun _ => rfl) _
          (fun m' s' used' h' hphase' hmissing hhead hused' hsize' hcnt' hle => hfits m' s' used' h' hphase' hmissing hhead hused'
            (hsize'.trans hsize) (hcnt'.trans hcnt) (hle.trans (congrArg length hfile).le))
        have hstream : stream s.sequential ⟨[], 0⟩ m.l.file = m.l.file := by
          rw [stream, hfull.1]
          rfl
        simp only [hfile, hstream] at hrun
        rw [← hrun]
        simp only [hacc, hfull.1, true_implies]
      have hfull' : ¬(s.sequential = true ∧ tsiz - used < mintsiz) := by
        rintro ⟨hs, hlt⟩
        rw [hused hs] at hlt
        exact hfull ⟨hs, hlt⟩
      rw [if_neg hfull']
      exact nextFits_iff hret h hphase hne hidx (fun hs => not_lt.1 (fun hlt => hfull ⟨hs, hlt⟩)) hused hfits
    refine iff_of_false (fun hand => hidx hand.1) (fun hrun => hidx ?_)
    have hsound := (soundRun_iff.1 hrun).1
    unfold Sound at hsound
    rw [hphase] at hsound
    simp only at hsound
    rw [if_neg hne] at hsound
    exact hsound.1

theorem recordsFit_iff (hret : Returns env) : ∀ (fuel : ℕ) (m : Machine), MachineInv env file m → m.phase = .record →
    m.l.file.length < fuel → (RecordsFit env alloc file.length fuel m.size m.loopCnt m.l.file ↔ SoundRun env alloc file m) := by
  intro fuel
  induction fuel with
  | zero => exact fun m _ _ hlt => absurd hlt (Nat.not_lt_zero _)
  | succ fuel ih =>
    intro m h hphase hlt
    have hinv := (@load_step env alloc file m hret h).1
    rw [soundRun_iff, RecordsFit]
    unfold Sound
    unfold loadStep at hinv ⊢
    rw [hphase] at hinv ⊢
    simp only at hinv ⊢
    rw [true_and]
    by_cases hcnt : env.loopCnt = 0 ∨ m.loopCnt < env.loopCnt
    · rw [if_pos hcnt] at hinv ⊢
      rw [forall_prop_of_true hcnt]
      by_cases hlong : m.l.file.length < 4
      · rw [if_pos hlong]
        exact iff_of_true (fun hle => absurd hle (not_le.2 hlong)) (soundRun_final trivial)
      rw [if_neg hlong] at hinv ⊢
      rw [forall_prop_of_true (not_lt.1 hlong)]
      obtain ⟨r, hopen⟩ | ⟨s, size', rest, hopen, -, hless, hnil, -⟩ := openRecord_cases env alloc m.size h.suffix hlong
      · rw [hopen]
        exact iff_of_true (fun _ _ _ herr => (by cases herr)) (soundRun_final trivial)
      rw [hopen] at hinv ⊢
      rw [← @rdataFit_iff env alloc file hret (RecordsFit env alloc file.length fuel size' (m.loopCnt + 1)) s.missing _ s
        s.batch.target.used.length hinv rfl rfl (fun _ => rfl) (fun m' h' hphase' hsize hcnt' hle => ?_), hnil]
      · constructor
        · exact fun hall => hall s size' rest rfl
        · rintro hall _ _ _ ⟨⟩
          exact hall
      · have hrun := ih m' h' hphase' (by simp only at hle; omega)
        rw [hsize, hcnt'] at hrun
        exact hrun
    · rw [if_neg hcnt]
      exact iff_of_true (fun h0 => absurd h0 hcnt) (soundRun_final trivial)

/-- A raw file, whatever it is. -/
theorem load_raw_safe (env : LoadEnv) (alloc : ℕ → Bool) (l : LoadCtx) (hret : Returns env) :
    LoadsSafely env alloc l ↔ FileFits env alloc l := by
  have hinv := (loadStart_safe env l).1
  refine (loadRun_sound hret alloc l).trans ?_
  show SoundRun env alloc l.file (loadStart l) ↔ _
  rw [FileFits, recordsOf]
  rw [loadStart] at hinv ⊢
  split
  · rw [if_pos ‹_›] at hinv
    cases hheader : loadHeader l with
    | error e => exact iff_of_true (soundRun_final trivial) (fun _ hnone => (by cases hnone))
    | ok x =>
      rw [hheader] at hinv
      refine (recordsFit_iff hret (x.2.file.length + 1) _ hinv rfl (Nat.lt_succ_self _)).symm.trans ?_
      constructor
      · rintro h _ ⟨⟩
        exact h
      · exact fun h => h _ rfl
  rw [if_neg ‹_›] at hinv
  refine (recordsFit_iff hret (l.file.length + 1) _ hinv rfl (Nat.lt_succ_self _)).symm.trans ?_
  constructor
  · rintro h _ ⟨⟩
    exact h
  · exact fun h => h _ rfl

end fits

/-! ### Files with the root as the owner of their records -/

section root

variable {sequential : Bool} {t t1 t2 t3 : Target} {file file1 file3 : Bytes}

theorem readOwner_root (hread : readAndCheck sequential t 2 file = .ok (t1, file1)) (hget : t1.getuint16 = .ok (1, t2))
    (hread' : readAndCheck sequential t2 1 file1 = .ok (t3, file3)) {x y : Bytes} (hused : t3.used = x ++ 0 :: y)
    (hcurrent : t3.current = x.length) :
    readOwner sequential t file = .ok (rootName.name, { t3 with current := t3.current + 1 }, file3) := by
  obtain ⟨labels, offsets, hwire⟩ : ∃ labels offsets, fromwire (t3.used.take (t3.current + 1)) t3.current 255 false 0 =
      .ok ⟨rootName.name.ndata, labels, offsets, 1⟩ := by
    refine fromwire_of_ndata 0 rootName ?_ (by decide)
    rw [hused, hcurrent, show x ++ 0 :: y = (x ++ [0]) ++ y by simp, show x.length + 1 = (x ++ [0]).length by simp, take_left, drop_left]
    rfl
  have hlen : t3.current + 1 ≤ t3.used.length := by
    rw [hused, hcurrent, length_append, length_cons]
    omega
  rw [readOwner, hread, ok_then]
  simp only
  rw [hget, ok_then]
  simp only
  rw [if_neg (by decide), hread', ok_then]
  rw [require_true (decide_eq_true hlen), ok_then]
  simp only
  rw [hwire]
  rfl

variable {bytes rest : Bytes} {rdclass type covers ttl : ℕ} {alloc : ℕ → Bool} {offset size size' : ℕ}

theorem openRecord_root (file x y : Bytes) (total rdcount : ℕ) (hfour : 4 ≤ file.length) (htotal : uint32Fromregion (file.take 4) = .ok total)
    (hmin : 18 ≤ total) (hread : stdioRead (file.drop 4) (if decide (tsiz < total - 4) then 14 else total - 4) = .ok (bytes, rest))
    (hclass : Target.getuint16 ⟨bytes, 0⟩ = .ok (rdclass, ⟨bytes, 2⟩)) (htype : Target.getuint16 ⟨bytes, 2⟩ = .ok (type, ⟨bytes, 4⟩))
    (hcovers : Target.getuint16 ⟨bytes, 4⟩ = .ok (covers, ⟨bytes, 6⟩)) (httl : Target.getuint32 ⟨bytes, 6⟩ = .ok (ttl, ⟨bytes, 10⟩))
    (hcount : Target.getuint32 ⟨bytes, 10⟩ = .ok (rdcount, ⟨bytes, 14⟩)) (hne : rdcount ≠ 0)
    (hlength : readAndCheck (decide (tsiz < total - 4)) ⟨bytes, 14⟩ 2 rest = .ok (t1, file1)) (hget : t1.getuint16 = .ok (1, t2))
    (howner : readAndCheck (decide (tsiz < total - 4)) t2 1 file1 = .ok (t3, file3)) (hused : t3.used = x ++ 0 :: y)
    (hcurrent : t3.current = x.length) (hgrow : growRdata alloc size rdcount = .ok size') :
    openRecord alloc offset size file =
      .ok (⟨⟨⟨rootName.name, UInt16.ofNat rdclass, UInt16.ofNat type, UInt16.ofNat covers, UInt32.ofNat ttl⟩, decide (tsiz < total - 4),
        offset, total, rdcount, decide (size < rdcount)⟩, rdcount, ⟨[], { t3 with current := t3.current + 1 }⟩, []⟩, size', file3) := by
  have hle : 14 ≤ if decide (tsiz < total - 4) = true then 14 else total - 4 := by
    split <;> omega
  rw [openRecord_eq alloc offset size hfour htotal hmin, readHead]
  rw [hread, ok_then]
  simp only
  rw [hclass, ok_then]
  rw [htype, ok_then]
  rw [hcovers, ok_then]
  rw [httl, ok_then]
  rw [hcount, ok_then]
  rw [if_neg hne, require_true (decide_eq_true hle), ok_then, readOwner_root hlength hget howner hused hcurrent, ok_then]
  simp only [pure_bind, hgrow, ok_then]
  rfl

end root

/-- A record that says there are 2^32 - 512 rdata. -/
def countBytes : Bytes := [0, 0, 0, 23, 0, 1, 0, 1, 0, 0, 0, 0, 0, 0, 255, 255, 254, 0, 0, 1, 0, 0, 0]

def countFile : LoadCtx := ⟨true, .init, .success, [0, 0, 0, 2, 0, 0, 0, 0, 0, 0, 0, 0] ++ countBytes, [], []⟩

theorem countFile_open : openRecord (fun _ => true) 12 0 countBytes =
    .ok (⟨⟨⟨rootName.name, 1, 1, 0, 0⟩, false, 12, 23, 4294966784, true⟩, 4294966784, ⟨[], ⟨countBytes.drop 4, 17⟩⟩, []⟩, 0, []) :=
  openRecord_root countBytes ((countBytes.drop 4).take 16) [0, 0] 23 4294966784 (by decide) rfl (by decide) rfl rfl rfl rfl rfl rfl (by decide)
    rfl rfl rfl rfl rfl rfl

/-- The sum of the count and the spare ones is 0 modulo 2^32, and the array is empty. -/
theorem rdcount_wraps : ¬LoadsSafely (plainLoader 0) (fun _ => true) countFile := by
  rintro ⟨-, hsafe⟩
  have hone : (loadRun (plainLoader 0) (fun _ => true) countFile 1).phase =
      .rdata ⟨⟨⟨rootName.name, 1, 1, 0, 0⟩, false, 12, 23, 4294966784, true⟩, 4294966784, ⟨[], ⟨countBytes.drop 4, 17⟩⟩, []⟩ ∧
      (loadRun (plainLoader 0) (fun _ => true) countFile 1).size = 0 := by
    have hzero : loadRun (plainLoader 0) (fun _ => true) countFile 0 =
      ⟨.record, ⟨false, ⟨0, 0, 0, 0, 0⟩, .success, countBytes, [], []⟩, 0, 0, []⟩ := rfl
    rw [loadRun_succ, hzero, loadStep]
    rw [if_pos (Or.inl (show (plainLoader 0).loopCnt = 0 from rfl)), if_neg (show ¬countBytes.length < 4 by decide),
      show countFile.file.length - countBytes.length = 12 from rfl, countFile_open]
    exact ⟨rfl, rfl⟩
  have htwo := (hsafe 2).stopped .overrun (by
    rw [loadRun_succ, loadStep, hone.1]
    simp only
    rw [if_neg (by decide), scanStep, hone.2, if_pos (Nat.not_lt_zero _)])
  obtain ⟨r, hr⟩ := htwo
  cases hr

/-- A record with two rdata that says it is longer than the buffer. -/
def longBytes : Bytes := [0, 2, 0, 5, 0, 1, 255, 0, 0, 0, 0, 0, 0, 0, 0, 0, 0, 2, 0, 1, 0, 0, 1, 187, 0, 0]

/-- A record that says there are 2^32 - 1 rdata, with one. -/
def hugeBytes : Bytes := [0, 0, 0, 24, 0, 1, 255, 0, 0, 0, 0, 0, 0, 0, 255, 255, 255, 255, 0, 1, 0, 0, 1, 204]

def safeFile : LoadCtx := ⟨true, .init, .success, [0, 0, 0, 2, 0, 0, 0, 0, 0, 0, 0, 0] ++ (longBytes ++ hugeBytes), [], []⟩

def privateList : Rdatalist := ⟨rootName.name, 1, 65280, 0, 0⟩

theorem long_open : openRecord (fun _ => true) 12 0 (longBytes ++ hugeBytes) =
    .ok (⟨⟨privateList, true, 12, 131077, 2, true⟩, 2, ⟨[], ⟨(longBytes.drop 4).take 17, 17⟩⟩, []⟩, 514,
      [0, 1, 187, 0, 0] ++ hugeBytes) :=
  openRecord_root (longBytes ++ hugeBytes) ((longBytes.drop 4).take 16) [] 131077 2 (by decide) rfl (by decide) rfl rfl rfl rfl rfl rfl (by decide)
    rfl rfl rfl rfl rfl rfl

theorem huge_open : openRecord (fun _ => true) 38 514 hugeBytes =
    .ok (⟨⟨privateList, false, 38, 24, 4294967295, true⟩, 4294967295, ⟨[], ⟨hugeBytes.drop 4, 17⟩⟩, []⟩, 511, []) :=
  openRecord_root hugeBytes ((hugeBytes.drop 4).take 16) [0, 1, 204] 24 4294967295 (by decide) rfl (by decide) rfl rfl rfl rfl rfl rfl (by decide)
    rfl rfl rfl rfl rfl rfl

section witness

variable {env : LoadEnv} {alloc : ℕ → Bool} {fileSize : ℕ} {batch : List Rdata} {used : ℕ} {bytes rest : Bytes}

theorem recordsFit_of_open (fuel : ℕ) {size size' loopCnt : ℕ} {rest' : Bytes} {s : Scan}
    (hopen : openRecord alloc (fileSize - rest.length) size rest = .ok (s, size', rest'))
    (hfit : RdataFit env fileSize s.toRecordHead (RecordsFit env alloc fileSize fuel size' (loopCnt + 1)) s.missing []
      s.batch.target.used.length (stream s.sequential s.batch.target rest') rest') :
    RecordsFit env alloc fileSize (fuel + 1) size loopCnt rest := by
  rintro - - _ _ _ hopen'
  cases hopen.symm.trans hopen'
  exact hfit

variable {s : RecordHead} {next : Bytes → Prop}

theorem rdataFit_some {k missing n : ℕ} {r : Rdata} (hk : missing = k + 1) (hidx : s.Indexed batch.length) (hused : used + 2 + n ≤ 60000)
    (hnext : s.sequential = true → nextLength true bytes rest = some n) (hat : rdataAt env s.list s.sequential bytes rest = some (n, r))
    (hfits : RdataFit env fileSize s next k (batch ++ [r]) (used + 2 + n) (bytes.drop (2 + n))
      (if s.sequential then rest.drop (2 + n) else rest)) : RdataFit env fileSize s next missing batch used bytes rest := by
  subst hk
  have hsmall : (60000 : ℕ) ≤ tsiz ∧ mintsiz + 60000 ≤ tsiz := by decide
  rw [RdataFit, if_neg (by omega)]
  refine ⟨hidx, fun hs n' hn' => ?_, fun n' r' hat' => ?_⟩
  · cases (hnext hs).symm.trans hn'
    omega
  · cases hat.symm.trans hat'
    exact hfits

theorem rdataFit_none {k missing : ℕ} (hk : missing = k + 1) (hidx : s.Indexed batch.length) (hs : s.sequential = false)
    (hat : rdataAt env s.list s.sequential bytes rest = none) : RdataFit env fileSize s next missing batch used bytes rest := by
  subst hk
  rw [RdataFit, hs, if_neg (fun hand => Bool.false_ne_true hand.1)]
  refine ⟨hidx, fun htrue => absurd (hs.symm.trans htrue) Bool.false_ne_true, fun n r hat' => ?_⟩
  rw [hat] at hat'
  cases hat'

/-- All of the record is read. -/
theorem rdataFit_end (hreach : s.sequential = true → s.Reaches fileSize bytes) (hnext : next rest) :
    RdataFit env fileSize s next 0 batch used bytes rest :=
  fun _ => ⟨hreach, fun _ => hnext⟩

end witness

theorem huge_fits : RecordsFit (plainLoader 0) (fun _ => true) 62 50 514 1 hugeBytes := by
  refine recordsFit_of_open 49 huge_open ?_
  refine @rdataFit_some _ _ _ _ _ _ _ _ 4294967294 _ 1 [204] rfl (fun _ _ => by decide) (by decide) (by decide) (by decide) ?_
  exact rdataFit_none (k := 4294967293) rfl (fun _ _ => by decide) rfl (by decide)

theorem load_raw_safe_records : LoadsSafely (plainLoader 0) (fun _ => true) safeFile := by
  refine (load_raw_safe (plainLoader 0) (fun _ => true) safeFile (fun _ _ _ e he => (by cases he))).2 (fun rest hrest => ?_)
  cases (show some (longBytes ++ hugeBytes) = some rest from hrest)
  refine recordsFit_of_open 50 long_open ?_
  refine @rdataFit_some _ _ _ _ _ _ _ _ 1 _ 1 [187] rfl (fun _ hw => absurd hw (by decide)) (by decide) (by decide) (by decide) ?_
  refine @rdataFit_some _ _ _ _ _ _ _ _ 0 _ 0 [] rfl (fun _ hw => absurd hw (by decide)) (by decide) (by decide) (by decide) ?_
  exact rdataFit_end (fun _ => show (62 - 24 : ℕ) ≤ 12 + 131077 by decide) huge_fits

end Bind9.RawZone
