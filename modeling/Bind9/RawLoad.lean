import Bind9.RawDump

/-! # Raw zone files are read back

What `load_raw` makes of the files that `dumptostreaminc` writes.  The buffer of the loader and the file are together a
stream of bytes (`Holds`): for an rdataset that fits into the buffer the stream is in the buffer, otherwise it is still in
the file.  `loadRecord_spec` follows the loop over the rdata: `Room` says that there is space whenever a piece is read.

The loader leaves its local variable `header` empty when it is called again, so that the callback for the header gets the
values of the file only if the first call reads the whole file. -/

namespace Bind9.RawZone

open List

/-! ### The stream -/

/-- The bytes that are still to be read are `bytes`, in the buffer or at the start of the file; `rest` is behind them. -/
structure Holds (sequential : Bool) (t : Target) (file bytes rest : Bytes) : Prop where
  current_le : t.current ≤ t.used.length
  buffer : t.used.drop t.current = if sequential then [] else bytes
  file : file = if sequential then bytes ++ rest else rest

section stream

variable {sequential : Bool} {t : Target} {file bytes rest x : Bytes}

/-- The buffer with some bytes consumed. -/
def Target.skip (t : Target) (n : ℕ) : Target := { t with current := t.current + n }

variable {n : ℕ}

theorem getuint16_eq (hn : n < 65536) (h : t.used.drop t.current = uint16Bytes n ++ bytes) :
    t.getuint16 = .ok (n, t.skip 2) := by
  rw [Target.getuint16, h, uint16Fromregion_append hn]
  rfl

theorem getuint32_eq (hn : n < 2 ^ 32) (h : t.used.drop t.current = uint32Bytes n ++ bytes) :
    t.getuint32 = .ok (n, t.skip 4) := by
  rw [Target.getuint32, h, uint32Fromregion_append hn]
  rfl

theorem drop_skip (hn : x.length = n) (h : t.used.drop t.current = x ++ bytes) :
    (t.skip n).used.drop (t.skip n).current = bytes := by
  rw [Target.skip, ← drop_drop, h, ← hn]
  exact drop_left

theorem Holds.read (h : Holds sequential t file (x ++ bytes) rest) (hroom : sequential = true → x.length ≤ t.available) :
    ∃ t' file', readAndCheck sequential t x.length file = .ok (t', file') ∧ t'.current = t.current ∧
      t'.used.drop t'.current = x ++ (if sequential then [] else bytes) ∧ t'.current + x.length ≤ t'.used.length ∧
      t'.used.length = t.used.length + (if sequential then x.length else 0) ∧
      file' = (if sequential then bytes ++ rest else rest) := by
  obtain ⟨hle, hbuffer, rfl⟩ := h
  cases sequential with
  | true =>
    refine ⟨{ t with used := t.used ++ x }, bytes ++ rest, ?_, rfl, ?_, ?_, ?_, rfl⟩
    · have hlen : x.length ≤ (x ++ bytes ++ rest).length := by simp
      rw [readAndCheck, if_pos rfl, require_true (by simpa using hroom rfl), ok_then, if_pos rfl, stdioRead, if_pos hlen,
        ok_then, append_assoc, take_left, drop_left]
      rfl
    · rw [drop_append_of_le_length hle, hbuffer]
      simp
    · simp only [length_append]
      omega
    · rw [length_append, if_pos rfl]
  | false =>
    have hlen : t.used.length - t.current = x.length + bytes.length := by
      rw [← length_drop, hbuffer, if_neg Bool.false_ne_true, length_append]
    refine ⟨t, rest, ?_, rfl, hbuffer, by omega, rfl, rfl⟩
    rw [readAndCheck, if_neg Bool.false_ne_true, if_neg (by rw [Target.remaining]; omega)]
    rfl

theorem readAndCheck_full (h : t.available < n) : readAndCheck true t n file = .error .assertion := by
  have hfalse : decide (n ≤ t.available) = false := by simpa using h
  rw [readAndCheck, if_pos rfl, hfalse]
  rfl

theorem Holds.skip {t' : Target} (hx : t'.used.drop t'.current = x ++ (if sequential then [] else bytes))
    (hle : t'.current + x.length ≤ t'.used.length) (hfile : file = if sequential then bytes ++ rest else rest) :
    Holds sequential (t'.skip x.length) file bytes rest :=
  ⟨hle, drop_skip rfl hx, hfile⟩

/-- A number of two bytes is read from the stream. -/
theorem Holds.getuint16 (hn : n < 65536) (h : Holds sequential t file (uint16Bytes n ++ bytes) rest)
    (hroom : sequential = true → 2 ≤ t.available) :
    ∃ t1 t' file', readAndCheck sequential t 2 file = .ok (t1, file') ∧ t1.getuint16 = .ok (n, t') ∧
      Holds sequential t' file' bytes rest ∧ t'.used.length = t.used.length + (if sequential then 2 else 0) := by
  obtain ⟨t1, file', hread, -, hbuffer, hle, hused, hfile⟩ := h.read hroom
  exact ⟨t1, t1.skip 2, file', hread, getuint16_eq hn hbuffer, Holds.skip hbuffer hle hfile, hused⟩

end stream

/-! ### The rdata -/

/-- Whenever a piece of the rdataset is read there is space for it.  When less than `MINTSIZ` bytes are left in the
buffer, which are enough for an rdata but not always for its length too, the buffer is emptied first. -/
def Room : ℕ → List ℕ → Prop
  | _, [] => True
  | used, n :: ns =>
    let start := if tsiz - used < mintsiz then 0 else used
    start + (2 + n) ≤ tsiz ∧ Room (start + (2 + n)) ns

/-- The loader reads an rdataset: no rdata is too long for `dns_rdata_fromwire`, and if the rdataset is read piece by piece
there is space for each piece. -/
def Readable (name : AbsName) (set : Rdataset) : Prop :=
  (∀ r ∈ set.rdata, r.length ≤ rdataMaxlength) ∧
    (tsiz + 4 < rawLength name set → Room (16 + name.name.length) (set.rdata.map List.length))

/-- The functions of the types take the rdata as they are. -/
def Accepts (env : LoadEnv) (set : Rdataset) : Prop := ∀ r ∈ set.rdata, env.fromwire set.rdclass set.type r = .ok r

section rdata

variable {env : LoadEnv} {list : Rdatalist} {sequential : Bool} {l : LoadCtx} {b : Batch} {r : Rdata} {bytes rest : Bytes}

theorem rdataFromwire_eq (htype : list.type ≠ 0) (hr : r.length < 65536) (hacc : env.fromwire list.rdclass list.type r = .ok r) :
    rdataFromwire env list.rdclass list.type r = if rdataMaxlength < r.length then stop .formerr else .ok r := by
  rw [rdataFromwire, if_neg htype, require_true (by simpa using hr), ok_then, hacc, ok_then]
  rfl

theorem readRdata_spec (htype : list.type ≠ 0) (hr : r.length < 65536)
    (hacc : env.fromwire list.rdclass list.type r = .ok r)
    (h : Holds sequential b.target l.file (rdataBytes r ++ bytes) rest)
    (hroom : sequential = true → b.target.used.length + (2 + r.length) ≤ tsiz) :
    (r.length ≤ rdataMaxlength → ∃ t' file', readRdata env list sequential b l =
        .ok (⟨b.rdata ++ [r], t'⟩, { l with file := file' }) ∧ Holds sequential t' file' bytes rest ∧
        (sequential = true → t'.used.length = b.target.used.length + (2 + r.length))) ∧
      (rdataMaxlength < r.length → readRdata env list sequential b l = stop .formerr) := by
  have hlen : sequential = true → 2 ≤ b.target.available := by
    intro hs
    have := hroom hs
    rw [Target.available]
    omega
  rw [rdataBytes, append_assoc] at h
  obtain ⟨t1, t2, file1, hread, hget, hholds, hused⟩ := h.getuint16 hr hlen
  obtain ⟨t3, file2, hread', -, hbuffer, hle, hused', hfile⟩ := hholds.read (x := r) (by
    intro hs
    have := hroom hs
    rw [Target.available, hused, hs]
    simp only [if_true]
    omega)
  have htake : (t3.used.drop t3.current).take r.length = r := by rw [hbuffer, take_left]
  rw [readRdata, hread, ok_then]
  simp only
  rw [hget, ok_then]
  rw [hread', ok_then]
  rw [require_true (by simpa using hle), ok_then, htake, rdataFromwire_eq htype hr hacc]
  constructor
  · intro hmax
    rw [if_neg (by omega), ok_then]
    refine ⟨t3.skip r.length, file2, rfl, Holds.skip hbuffer hle hfile, fun hs => ?_⟩
    rw [Target.skip, hused', hused, hs]
    simp only [if_true]
    omega
  · intro hmax
    rw [if_pos hmax]
    rfl

theorem readRdata_full (env : LoadEnv) (list : Rdatalist) (hr : r.length < 65536) (h : Holds true b.target l.file (rdataBytes r ++ bytes) rest)
    (hlen : 2 ≤ b.target.available) (hroom : tsiz < b.target.used.length + (2 + r.length)) :
    readRdata env list true b l = .error .assertion := by
  rw [rdataBytes, append_assoc] at h
  obtain ⟨t1, t2, file1, hread, hget, hholds, hused⟩ := h.getuint16 hr (fun _ => hlen)
  have hfull : t2.available < r.length := by
    rw [Target.available] at hlen ⊢
    rw [hused, if_pos rfl]
    omega
  rw [readRdata, hread, ok_then]
  simp only
  rw [hget, ok_then]
  rw [readAndCheck_full hfull]
  rfl

theorem commit_ok (hadd : ∀ a, env.add a = .success) (a : Added) : commit env l a = .ok { l with added := l.added ++ [a] } := by
  rw [commit, hadd a]
  rfl

theorem partialCommit_spec (list : Rdatalist) (hadd : ∀ a, env.add a = .success) (h : Holds sequential b.target l.file bytes rest)
    (hb : sequential = true → b.rdata = [] → mintsiz ≤ b.target.available) :
    ∃ (b1 : Batch) (parts : List (List Rdata)), partialCommit env list sequential b l = .ok (b1, { l with added := l.added ++ parts.map list.added }) ∧
      Holds sequential b1.target l.file bytes rest ∧ parts.flatten ++ b1.rdata = b.rdata ∧
      (sequential = true → mintsiz ≤ b1.target.available ∧ b1.target.used.length =
        if tsiz - b.target.used.length < mintsiz then 0 else b.target.used.length) := by
  by_cases hfull : sequential = true ∧ b.target.available < mintsiz
  · obtain ⟨rfl, hfull⟩ := hfull
    have hne : b.rdata ≠ [] := fun he => absurd (hb rfl he) (by omega)
    refine ⟨⟨[], ⟨[], 0⟩⟩, [b.rdata], ?_, ⟨le_refl 0, rfl, h.file⟩, ?_, fun _ => ⟨by decide, ?_⟩⟩
    · rw [partialCommit, if_pos ⟨rfl, hfull⟩, require_true (by simpa using hne), ok_then, commit_ok hadd, ok_then]
      rfl
    · simp
    · rw [Target.available] at hfull
      rw [if_pos hfull]
      rfl
  refine ⟨b, [], ?_, h, rfl, fun hs => ?_⟩
  · rw [partialCommit, if_neg hfull]
    simp
  · have hroom : mintsiz ≤ b.target.available := not_lt.1 (fun hlt => hfull ⟨hs, hlt⟩)
    refine ⟨hroom, ?_⟩
    rw [Target.available] at hroom
    rw [if_neg (by omega)]

theorem rdataLoop_spec (list : Rdatalist) (hadd : ∀ a, env.add a = .success) (htype : list.type ≠ 0) : ∀ (rs : List Rdata) (b : Batch)
    (l : LoadCtx), (∀ r ∈ rs, r.length < 65536) → (∀ r ∈ rs, env.fromwire list.rdclass list.type r = .ok r) →
    Holds sequential b.target l.file (rs.flatMap rdataBytes) rest →
    (sequential = true → b.rdata = [] → mintsiz ≤ b.target.available) →
    (((∀ r ∈ rs, r.length ≤ rdataMaxlength) ∧ (sequential = true → Room b.target.used.length (rs.map List.length))) →
      ∃ (parts : List (List Rdata)) (last : List Rdata) (t' : Target), rdataLoop env list sequential rs.length b l =
        .ok (⟨last, t'⟩, { l with file := rest, added := l.added ++ parts.map list.added }) ∧
        parts.flatten ++ last = b.rdata ++ rs ∧ t'.remaining = 0) ∧
    (¬((∀ r ∈ rs, r.length ≤ rdataMaxlength) ∧ (sequential = true → Room b.target.used.length (rs.map List.length))) →
      ∃ e, rdataLoop env list sequential rs.length b l = .error e) := by
  intro rs
  induction rs with
  | nil =>
    intro b l _ _ h _
    constructor
    · intro _
      have hfile : l.file = rest := by
        rw [h.file]
        split <;> rfl
      have hbuffer : b.target.used.drop b.target.current = [] := by
        rw [h.buffer]
        split <;> rfl
      refine ⟨[], b.rdata, b.target, ?_, by simp, ?_⟩
      · simp [rdataLoop, ← hfile]
      · rw [Target.remaining, ← length_drop, hbuffer, length_nil]
    · intro hbad
      exact absurd ⟨forall_mem_nil _, fun _ => trivial⟩ hbad
  | cons r rs ih =>
    intro b l hlt hacc h hb
    obtain ⟨hr, hlt⟩ := forall_mem_cons.1 hlt
    obtain ⟨hr', hacc⟩ := forall_mem_cons.1 hacc
    rw [flatMap_cons] at h
    obtain ⟨b1, parts1, hpart, h1, hparts, hspace⟩ := partialCommit_spec list hadd h hb
    have hloop : rdataLoop env list sequential (r :: rs).length b l =
        readRdata env list sequential b1 { l with added := l.added ++ parts1.map list.added } >>=
          fun x => rdataLoop env list sequential rs.length x.1 x.2 := by
      rw [length_cons, rdataLoop, hpart, ok_then]
    rw [hloop]
    by_cases hroom : sequential = true → b1.target.used.length + (2 + r.length) ≤ tsiz
    · obtain ⟨hgood, hlong⟩ := readRdata_spec (l := { l with added := l.added ++ parts1.map list.added }) htype hr hr' h1 hroom
      by_cases hmax : r.length ≤ rdataMaxlength
      · obtain ⟨t', file', hread, h', hused⟩ := hgood hmax
        have hrest : (sequential = true → Room b.target.used.length ((r :: rs).map List.length)) ↔
            (sequential = true → Room t'.used.length (rs.map List.length)) := by
          refine forall_congr' (fun hs => ?_)
          rw [hused hs, (hspace hs).2, map_cons, Room, ← (hspace hs).2]
          exact and_iff_right (hroom hs)
        obtain ⟨hok, hfail⟩ := ih ⟨b1.rdata ++ [r], t'⟩
          { l with file := file', added := l.added ++ parts1.map list.added } hlt hacc h' (fun _ he => by simp at he)
        rw [hread, ok_then, forall_mem_cons, hrest, and_iff_right hmax]
        refine ⟨fun hall => ?_, hfail⟩
        obtain ⟨parts, last, t'', hrun, hflat, hrem⟩ := hok hall
        refine ⟨parts1 ++ parts, last, t'', ?_, ?_, hrem⟩
        · rw [hrun]
          simp
        · rw [flatten_append, append_assoc, hflat, append_assoc, ← append_assoc, hparts]
          rfl
      · rw [hlong (by omega), forall_mem_cons]
        exact ⟨fun hall => absurd hall.1.1 hmax, fun _ => ⟨_, rfl⟩⟩
    obtain ⟨rfl, hover⟩ := Classical.not_imp.1 hroom
    have hfull := readRdata_full (l := { l with added := l.added ++ parts1.map list.added }) env list
      hr h1 (le_trans (by decide) (hspace rfl).1) (not_le.1 hover)
    rw [hfull]
    refine ⟨fun hall => absurd (hall.2 rfl).1 ?_, fun _ => ⟨_, rfl⟩⟩
    rw [← (hspace rfl).2]
    exact hover

end rdata

/-! ### The record of an rdataset -/

/-- A record as the callback sees it. -/
structure Record where
  owner : Name
  rdclass : UInt16
  type : UInt16
  covers : UInt16
  ttl : UInt32
  rdata : Rdata

/-- The records in a call of the callback. -/
def Added.records (a : Added) : List Record := a.rdata.map (fun r => ⟨a.owner, a.rdclass, a.type, a.covers, a.ttl, r⟩)

def entryRecords (e : AbsName × Rdataset) : List Record :=
  e.2.rdata.map (fun r => ⟨e.1.name, e.2.rdclass, e.2.type, e.2.covers, e.2.ttl, r⟩)

/-- What the loader does with the rdatasets `es`: it has read their records up to `rest` and has given them to the
callback. -/
def Reads (l : LoadCtx) (es : List (AbsName × Rdataset)) (rest : Bytes) (l' : LoadCtx) : Prop :=
  ∃ calls : List Added, l' = { l with file := rest, added := l.added ++ calls } ∧
    calls.flatMap Added.records = es.flatMap entryRecords

def Rdatalist.record (list : Rdatalist) (r : Rdata) : Record :=
  ⟨list.owner, list.rdclass, list.type, list.covers, list.ttl, r⟩

theorem records_parts (list : Rdatalist) (parts : List (List Rdata)) :
    (parts.map list.added).flatMap Added.records = parts.flatten.map list.record := by
  induction parts with
  | nil => rfl
  | cons part parts ih =>
    rw [map_cons, flatMap_cons, ih, flatten_cons, map_append]
    rfl

section record

variable {env : LoadEnv} {l : LoadCtx} {name : AbsName} {set : Rdataset} {rest : Bytes}

theorem readOwner_spec {sequential : Bool} {t : Target} {file bytes : Bytes}
    (h : Holds sequential t file (uint16Bytes name.name.length ++ (name.name.ndata ++ bytes)) rest)
    (hused : sequential = true → t.used.length = 14) :
    ∃ t' file', readOwner sequential t file = .ok (name.name, t', file') ∧ Holds sequential t' file' bytes rest ∧
      (sequential = true → t'.used.length = 16 + name.name.length) := by
  have hname := AbsName.name_length_le name
  obtain ⟨t1, t2, file1, hread, hget, hholds, hused1⟩ := h.getuint16 (by omega) (by
    intro hs
    rw [Target.available, hused hs]
    decide)
  have hroom : sequential = true → name.name.ndata.length ≤ t2.available := by
    intro hs
    rw [Target.available, hused1, hused hs, if_pos hs]
    rw [Name.length] at hname
    exact hname.trans (by decide)
  obtain ⟨t3, file2, hread', hcur, hbuffer, hle, hused2, hfile⟩ := hholds.read hroom
  have hsource : (t3.used.take (t3.current + name.name.length)).drop t3.current = name.name.ndata := by
    rw [drop_take, Nat.add_sub_cancel_left, hbuffer, Name.length, take_left]
  obtain ⟨labels, offsets, hwire⟩ : ∃ labels offsets, fromwire (t3.used.take (t3.current + name.name.length)) t3.current 255
      false 0 = .ok ⟨name.name.ndata, labels, offsets, name.name.length⟩ :=
    fromwire_of_ndata 0 name (by rw [hsource]) hname
  have hregion : nameFromregion name.name.ndata = .ok name.name := by
    have hr := nameFromregion_append name []
    rwa [append_nil] at hr
  refine ⟨t3.skip name.name.length, file2, ?_, Holds.skip hbuffer hle hfile, fun hs => ?_⟩
  · rw [readOwner, hread, ok_then]
    simp only
    rw [hget, ok_then]
    rw [if_neg (by omega)]
    rw [← Name.length] at hread' hle
    rw [hread', ok_then]
    rw [require_true (by simpa using hle), ok_then, hwire]
    simp only
    rw [hregion, ok_then]
    rfl
  · rw [Target.skip, hused2, hused1, hused hs, if_pos hs, if_pos hs, Name.length]

theorem getNumbers (set : Rdataset) (data : Bytes) {t : Target} (ht : t = ⟨recordNumbers set ++ data, 0⟩) :
    t.getuint16 = .ok (set.rdclass.toNat, t.skip 2) ∧ (t.skip 2).getuint16 = .ok (set.type.toNat, t.skip 4) ∧
      (t.skip 4).getuint16 = .ok (set.covers.toNat, t.skip 6) ∧ (t.skip 6).getuint32 = .ok (set.ttl.toNat, t.skip 10) ∧
      (t.skip 10).getuint32 = .ok (set.rdata.length, t.skip 14) := by
  subst ht
  refine ⟨?_, ?_, ?_, ?_, ?_⟩
  · exact getuint16_eq set.rdclass.toNat_lt rfl
  · exact getuint16_eq set.type.toNat_lt rfl
  · exact getuint16_eq set.covers.toNat_lt rfl
  · exact getuint32_eq set.ttl.toNat_lt rfl
  · exact getuint32_eq (lt_trans set.count_lt (by decide)) rfl

theorem readStart (sequential : Bool) (hfile : l.file = recordTail name set ++ rest) :
    ∃ data file, stdioRead l.file (if sequential then 14 else (recordTail name set).length) = .ok (recordNumbers set ++ data, file) ∧
      Holds sequential (Target.skip ⟨recordNumbers set ++ data, 0⟩ 14) file (recordData name set) rest ∧
      (sequential = true → data = []) := by
  have hnumbers : (recordNumbers set).length = 14 := rfl
  cases sequential with
  | true =>
    refine ⟨[], recordData name set ++ rest, ?_, ⟨?_, rfl, rfl⟩, fun _ => rfl⟩
    · rw [hfile, recordTail, append_assoc, if_pos rfl, stdioRead, if_pos (by rw [length_append, hnumbers]; omega),
        ← hnumbers, take_left, drop_left, append_nil]
    · rw [append_nil]
      exact le_refl 14
  | false =>
    refine ⟨recordData name set, rest, ?_, ⟨?_, rfl, rfl⟩, fun h => absurd h Bool.false_ne_true⟩
    · rw [hfile, if_neg Bool.false_ne_true, stdioRead, if_pos (by rw [length_append]; omega), take_left,
        drop_left]
      rfl
    · simp only [Target.skip, length_append, hnumbers]
      omega

theorem loadRecord_spec (hadd : ∀ a, env.add a = .success) (hacc : Accepts env set)
    (hfile : l.file = recordTail name set ++ rest) :
    (Readable name set → ∃ l', loadRecord env (rawLength name set - 4) l = .ok l' ∧ Reads l [(name, set)] rest l') ∧
      (¬Readable name set → ∃ e, loadRecord env (rawLength name set - 4) l = .error e) := by
  have hlen : rawLength name set - 4 = (recordTail name set).length := by
    rw [← recordTail_length name set, Nat.add_sub_cancel]
  have hlarge : 14 ≤ rawLength name set - 4 := by
    rw [rawLength]
    omega
  obtain ⟨sequential, hseq⟩ : ∃ sequential : Bool, sequential = decide (tsiz < rawLength name set - 4) := ⟨_, rfl⟩
  obtain ⟨data, file, hread, hholds, hdata⟩ := readStart sequential hfile
  obtain ⟨hclass, htype, hcovers, httl, hcount⟩ := getNumbers set data rfl
  obtain ⟨t, file', howner, hholds', hused⟩ := readOwner_spec hholds (by
    intro hs
    rw [hdata hs]
    rfl)
  let list : Rdatalist := ⟨name.name, set.rdclass, set.type, set.covers, set.ttl⟩
  obtain ⟨hok, hfail⟩ := rdataLoop_spec list hadd set.type_ne set.rdata ⟨[], t⟩ { l with file := file' }
    set.rdata_lt hacc hholds' (by
      intro hs _
      have := AbsName.name_length_le name
      rw [Target.available, hused hs]
      simp only [tsiz, mintsiz, rdataMaxlength]
      omega)
  -- the condition of the loop is the condition on the rdataset
  have hcond : Readable name set ↔ (∀ r ∈ set.rdata, r.length ≤ rdataMaxlength) ∧
      (sequential = true → Room t.used.length (set.rdata.map List.length)) := by
    refine and_congr_right (fun _ => ?_)
    rw [hseq, decide_eq_true_eq, Nat.lt_sub_iff_add_lt]
    constructor
    · intro h hlarge
      rw [hused (by rw [hseq]; simpa using Nat.lt_sub_of_add_lt hlarge)]
      exact h hlarge
    · intro h hlarge
      rw [← hused (by rw [hseq]; simpa using Nat.lt_sub_of_add_lt hlarge)]
      exact h hlarge
  have hne : set.rdata.length ≠ 0 := by simpa using set.nonempty
  have hrun : loadRecord env (rawLength name set - 4) l =
      rdataLoop env list sequential set.rdata.length ⟨[], t⟩ { l with file := file' } >>= fun x =>
        if x.1.target.remaining ≠ 0 then stop .range else commit env x.2 (list.added x.1.rdata) := by
    rw [loadRecord, ← hseq]
    rw [← hlen] at hread
    rw [hread, ok_then]
    simp only
    rw [hclass, ok_then]
    rw [htype, ok_then]
    rw [hcovers, ok_then]
    rw [httl, ok_then]
    rw [hcount, ok_then]
    rw [if_neg hne, require_true ?_, ok_then, howner, ok_then]
    · simp only [UInt16.ofNat_toNat, UInt32.ofNat_toNat]
      rfl
    · refine decide_eq_true ?_
      split
      · exact le_refl 14
      · exact hlarge
  rw [hrun, hcond]
  constructor
  · intro hall
    obtain ⟨parts, last, t', hloop, hflat, hrem⟩ := hok hall
    rw [hloop, ok_then]
    rw [if_neg (not_not.2 hrem), commit_ok hadd]
    refine ⟨_, rfl, parts.map list.added ++ [list.added last], ?_, ?_⟩
    · rw [append_assoc]
    · rw [← map_singleton, ← map_append, records_parts, flatten_append, flatten_singleton, hflat]
      rw [flatMap_singleton]
      rfl
  · intro hbad
    obtain ⟨e, he⟩ := hfail hbad
    rw [he]
    exact ⟨e, rfl⟩

theorem loadRdataset_spec (hadd : ∀ a, env.add a = .success) (hacc : Accepts env set) (hw : Writable name set)
    (hfile : l.file = recordBytes name set ++ rest) :
    (Readable name set → ∃ l', loadRdataset env l = .ok (some l') ∧ Reads l [(name, set)] rest l') ∧
      (¬Readable name set → ∃ e, loadRdataset env l = .error e) := by
  have hlarge : 18 ≤ rawLength name set := by
    rw [rawLength]
    omega
  have hsmall : rawLength name set < 2 ^ 32 := lt_of_le_of_lt hw (by decide)
  have hnumber : uint32Fromregion (uint32Bytes (rawLength name set)) = .ok (rawLength name set) := by
    have h := uint32Fromregion_append hsmall []
    rwa [append_nil] at h
  have hread : stdioRead l.file 4 = .ok (uint32Bytes (rawLength name set), recordTail name set ++ rest) := by
    rw [hfile, recordBytes, append_assoc]
    rfl
  have hlen : ¬l.file.length < 4 := by
    rw [hfile, recordBytes, append_assoc, length_append, Journal.uint32Bytes_length]
    omega
  obtain ⟨hok, hfail⟩ := loadRecord_spec (l := { l with file := recordTail name set ++ rest }) hadd hacc rfl
  rw [loadRdataset, if_neg hlen, hread, ok_then]
  simp only
  rw [hnumber, ok_then, if_neg (not_lt.2 hlarge)]
  constructor
  · intro hr
    obtain ⟨l', hrun, hreads⟩ := hok hr
    rw [hrun]
    exact ⟨l', rfl, hreads⟩
  · intro hr
    obtain ⟨e, he⟩ := hfail hr
    rw [he]
    exact ⟨e, rfl⟩

end record

/-! ### The file -/

def AllReadable (es : List (AbsName × Rdataset)) : Prop := ∀ e ∈ es, Readable e.1 e.2

/-- What the dump has written and the functions of the types accept. -/
def Stored (env : LoadEnv) (es : List (AbsName × Rdataset)) : Prop := ∀ e ∈ es, Accepts env e.2 ∧ Writable e.1 e.2

section file

variable {env : LoadEnv} {l : LoadCtx}

theorem Reads.frame {l' : LoadCtx} {es : List (AbsName × Rdataset)} {rest : Bytes} (h : Reads l es rest l') :
    l'.file = rest ∧ l'.first = l.first ∧ l'.result = l.result ∧ l'.rawdata = l.rawdata := by
  obtain ⟨calls, rfl, -⟩ := h
  exact ⟨rfl, rfl, rfl, rfl⟩

theorem Reads.refl (h : l.file = []) : Reads l [] [] l := by
  refine ⟨[], ?_, rfl⟩
  rw [append_nil, ← h]

theorem Reads.trans {l1 l2 : LoadCtx} {es es' : List (AbsName × Rdataset)} {rest rest' : Bytes}
    (h : Reads l es rest l1) (h' : Reads l1 es' rest' l2) : Reads l (es ++ es') rest' l2 := by
  obtain ⟨calls, rfl, hcalls⟩ := h
  obtain ⟨calls', rfl, hcalls'⟩ := h'
  refine ⟨calls ++ calls', ?_, ?_⟩
  · rw [append_assoc]
  · rw [flatMap_append, flatMap_append, hcalls, hcalls']

theorem length_le_bodyBytes (es : List (AbsName × Rdataset)) : es.length ≤ (bodyBytes es).length := by
  induction es with
  | nil => exact le_refl 0
  | cons e es ih =>
    have hbytes : bodyBytes (e :: es) = recordBytes e.1 e.2 ++ bodyBytes es := flatMap_cons
    rw [hbytes, length_append, recordBytes, length_append, Journal.uint32Bytes_length, length_cons]
    omega

theorem loadLoop_spec (hadd : ∀ a, env.add a = .success) : ∀ (es : List (AbsName × Rdataset)) (fuel cnt : ℕ) (l : LoadCtx),
    es.length < fuel → Stored env es → l.file = bodyBytes es → (env.loopCnt = 0 ∨ cnt ≤ env.loopCnt) →
    (∃ done read rest l', es = read ++ rest ∧ AllReadable read ∧ loadLoop env fuel cnt l = .ok (done, l') ∧
        Reads l read (bodyBytes rest) l' ∧ (done = true → rest = [] ∧ (env.loopCnt = 0 ∨ cnt + read.length < env.loopCnt)) ∧
        (done = false → env.loopCnt ≠ 0 ∧ env.loopCnt = cnt + read.length)) ∨
      ¬AllReadable es ∧ ∃ e, loadLoop env fuel cnt l = .error e := by
  intro es
  induction es with
  | nil =>
    intro fuel cnt l hfuel _ hfile hcnt
    obtain ⟨fuel, rfl⟩ := Nat.exists_eq_add_of_lt hfuel
    rw [loadLoop]
    by_cases hgo : env.loopCnt = 0 ∨ cnt < env.loopCnt
    · rw [if_pos hgo, loadRdataset, hfile, if_pos (by decide), ok_then]
      exact .inl ⟨true, [], [], l, rfl, forall_mem_nil _, rfl, Reads.refl hfile, fun _ => ⟨rfl, hgo⟩,
        fun h => absurd h Bool.noConfusion⟩
    rw [if_neg hgo]
    obtain ⟨hq, hturn⟩ := not_or.1 hgo
    refine .inl ⟨false, [], [], l, rfl, forall_mem_nil _, rfl, Reads.refl hfile, fun h => absurd h Bool.noConfusion,
      fun _ => ⟨hq, ?_⟩⟩
    have := hcnt.resolve_left hq
    rw [length_nil]
    omega
  | cons e es ih =>
    intro fuel cnt l hfuel hstored hfile hcnt
    obtain ⟨fuel, rfl⟩ : ∃ n, fuel = n + 1 := ⟨fuel - 1, by omega⟩
    obtain ⟨⟨hacc, hw⟩, hstored⟩ := forall_mem_cons.1 hstored
    have hbytes : bodyBytes (e :: es) = recordBytes e.1 e.2 ++ bodyBytes es := flatMap_cons
    rw [loadLoop]
    by_cases hgo : env.loopCnt = 0 ∨ cnt < env.loopCnt
    · rw [if_pos hgo]
      obtain ⟨hok, hfail⟩ := loadRdataset_spec hadd hacc hw (hfile.trans hbytes)
      by_cases hr : Readable e.1 e.2
      · obtain ⟨l1, hrun, hreads⟩ := hok hr
        have hfile1 : l1.file = bodyBytes es := hreads.frame.1
        rw [hrun, ok_then]
        obtain ⟨done, read, rest, l', rfl, hread, hloop, hreads', hdone, hmore⟩ | ⟨hbad, herr⟩ :=
          ih fuel (cnt + 1) l1 (by rw [length_cons] at hfuel; omega) hstored hfile1 (by omega)
        · refine .inl ⟨done, e :: read, rest, l', rfl, ?_, hloop, hreads.trans hreads', ?_, ?_⟩
          · exact forall_mem_cons.2 ⟨hr, hread⟩
          · intro hd
            rw [length_cons, Nat.add_comm read.length, ← Nat.add_assoc]
            exact hdone hd
          · intro hd
            rw [length_cons, Nat.add_comm read.length, ← Nat.add_assoc]
            exact hmore hd
        · exact .inr ⟨fun h => hbad (forall_mem_cons.1 h).2, herr⟩
      obtain ⟨err, herr⟩ := hfail hr
      rw [herr]
      exact .inr ⟨fun h => hr (forall_mem_cons.1 h).1, err, rfl⟩
    rw [if_neg hgo]
    obtain ⟨hq, hturn⟩ := not_or.1 hgo
    refine .inl ⟨false, [], e :: es, l, rfl, forall_mem_nil _, rfl, ⟨[], ?_, rfl⟩, fun h => absurd h Bool.noConfusion,
      fun _ => ⟨hq, ?_⟩⟩
    · rw [append_nil, ← hfile]
    · have := hcnt.resolve_left hq
      rw [length_nil]
      omega

theorem loadBody_spec (hadd : ∀ a, env.add a = .success) (header : Header) {es : List (AbsName × Rdataset)}
    (hstored : Stored env es) (hfile : l.file = bodyBytes es) (hresult : l.result = .success) :
    (∃ read rest l', es = read ++ rest ∧ AllReadable read ∧ Reads l read (bodyBytes rest) l' ∧
      (loadBody env header l = .ok (true, { l' with rawdata := l'.rawdata ++ [header] }) ∧ rest = [] ∧
          (env.loopCnt = 0 ∨ es.length < env.loopCnt) ∨
        loadBody env header l = .ok (false, l') ∧ env.loopCnt ≠ 0 ∧ env.loopCnt = read.length)) ∨
      ¬AllReadable es ∧ ∃ e, loadBody env header l = .error e := by
  have hfuel : es.length < l.file.length + 1 := by
    rw [hfile]
    exact Nat.lt_succ_of_le (length_le_bodyBytes es)
  obtain ⟨done, read, rest, l', rfl, hread, hloop, hreads, hdone, hmore⟩ | ⟨hbad, e, he⟩ :=
    loadLoop_spec hadd es (l.file.length + 1) 0 l hfuel hstored hfile (.inr (Nat.zero_le _))
  · have hresult' : l'.result = .success := hreads.frame.2.2.1.trans hresult
    rw [Nat.zero_add] at hdone hmore
    refine .inl ⟨read, rest, l', rfl, hread, hreads, ?_⟩
    rw [loadBody, hloop, ok_then]
    simp only
    cases done with
    | true =>
      obtain ⟨rfl, hturns⟩ := hdone rfl
      rw [if_neg (by decide), if_neg (not_not.2 hresult'), append_nil]
      exact .inl ⟨rfl, rfl, hturns⟩
    | false =>
      rw [if_pos rfl]
      exact .inr ⟨rfl, hmore rfl⟩
  · rw [loadBody, he]
    exact .inr ⟨hbad, e, rfl⟩

theorem loadSteps_spec (hadd : ∀ a, env.add a = .success) : ∀ (fuel : ℕ) (es : List (AbsName × Rdataset)) (l : LoadCtx),
    es.length < fuel → Stored env es → l.file = bodyBytes es → l.first = false → l.result = .success →
    (AllReadable es → ∃ l', Reads l es [] l' ∧
      loadSteps env fuel l = .ok { l' with rawdata := l'.rawdata ++ [.init] }) ∧
    (¬AllReadable es → ∃ e, loadSteps env fuel l = .error e) := by
  intro fuel
  induction fuel with
  | zero =>
    intro es l hfuel
    omega
  | succ fuel ih =>
    intro es l hfuel hstored hfile hfirst hresult
    have hcall : loadRaw env l = loadBody env .init l := by rw [loadRaw, hfirst, if_neg Bool.false_ne_true]
    rw [loadSteps, hcall]
    obtain ⟨read, rest, l', rfl, hread, hreads, ⟨hrun, rfl, -⟩ | ⟨hrun, hq, hturns⟩⟩ | ⟨hbad, e, he⟩ :=
      loadBody_spec hadd .init hstored hfile hresult
    · rw [hrun, ok_then, append_nil]
      exact ⟨fun _ => ⟨l', hreads, rfl⟩, fun h => absurd hread h⟩
    · have hstored' : Stored env rest := (forall_mem_append.1 hstored).2
      obtain ⟨hfile', hfirst', hresult', -⟩ := hreads.frame
      rw [length_append] at hfuel
      obtain ⟨hok, hfail⟩ :=
        ih rest l' (by omega) hstored' hfile' (hfirst'.trans hfirst) (hresult'.trans hresult)
      rw [hrun, ok_then]
      constructor
      · intro hall
        obtain ⟨l2, hreads2, hsteps⟩ := hok (forall_mem_append.1 hall).2
        exact ⟨l2, hreads.trans hreads2, hsteps⟩
      · intro hbad
        exact hfail (fun h => hbad (forall_mem_append.2 ⟨hread, h⟩))
    · rw [he]
      exact ⟨fun h => absurd h hbad, fun _ => ⟨e, rfl⟩⟩

end file

/-! ### The round trip -/

/-- What the file says in its header; version 0 has no flags and serials, and the loader takes zeros for them. -/
def dumpedHeader (now32 : UInt32) (header : Header) : Header :=
  if header.flags &&& compat ≠ 0 then ⟨0, now32, 0, 0, 0⟩
  else ⟨1, now32, header.flags, header.sourceserial, header.lastxfrin⟩

theorem loadHeader_eq {l : LoadCtx} {now32 : UInt32} {header : Header} {body : Bytes}
    (hfile : l.file = headerBytes now32 header ++ body) :
    loadHeader l = .ok (dumpedHeader now32 header,
      { l with first := false, header := dumpedHeader now32 header, file := body }) := by
  unfold headerBytes at hfile
  unfold dumpedHeader
  split at hfile
  next hcompat =>
    have hcommon : stdioRead l.file 8 = .ok (uint32Bytes masterformatRaw ++ uint32Bytes 0, uint32Bytes now32.toNat ++ body) := by
      rw [hfile]
      rfl
    have hrest : stdioRead (uint32Bytes now32.toNat ++ body) 4 = .ok (uint32Bytes now32.toNat ++ [], body) := rfl
    rw [if_pos hcompat, loadHeader, hcommon, ok_then]
    simp only
    rw [uint32Fromregion_append (by decide), ok_then, if_neg (by decide),
      show (uint32Bytes masterformatRaw ++ uint32Bytes 0).drop 4 = uint32Bytes 0 ++ [] from rfl,
      uint32Fromregion_append (by decide), ok_then, if_neg (by decide), if_pos rfl, hrest, ok_then]
    simp only
    rw [uint32Fromregion_append now32.toNat_lt, ok_then, if_pos trivial, UInt32.ofNat_toNat]
    rfl
  next hcompat =>
    let rest := uint32Bytes now32.toNat ++ (uint32Bytes header.flags.toNat ++ (uint32Bytes header.sourceserial.toNat ++
      (uint32Bytes header.lastxfrin.toNat ++ [])))
    have hcommon : stdioRead l.file 8 = .ok (uint32Bytes masterformatRaw ++ uint32Bytes 1, rest ++ body) := by
      rw [hfile]
      rfl
    have hrest : stdioRead (rest ++ body) 16 = .ok (rest, body) := rfl
    rw [if_neg hcompat, loadHeader, hcommon, ok_then]
    simp only
    rw [uint32Fromregion_append (by decide), ok_then, if_neg (by decide),
      show (uint32Bytes masterformatRaw ++ uint32Bytes 1).drop 4 = uint32Bytes 1 ++ [] from rfl,
      uint32Fromregion_append (by decide), ok_then, if_neg (by decide), if_neg (by decide), hrest, ok_then]
    rw [uint32Fromregion_append now32.toNat_lt, ok_then, if_neg (by decide),
      show rest.drop 4 = uint32Bytes header.flags.toNat ++ rest.drop 8 from rfl,
      uint32Fromregion_append header.flags.toNat_lt, ok_then,
      show rest.drop 8 = uint32Bytes header.sourceserial.toNat ++ rest.drop 12 from rfl,
      uint32Fromregion_append header.sourceserial.toNat_lt, ok_then,
      show rest.drop 12 = uint32Bytes header.lastxfrin.toNat ++ [] from rfl,
      uint32Fromregion_append header.lastxfrin.toNat_lt, ok_then]
    simp only [UInt32.ofNat_toNat]
    rfl

/-- The file is written and loaded, the callback is given the records of the zone, each of them once and in order, and the
callback for the header is called once, with the values of the file. -/
def RoundTrips (env : LoadEnv) (now32 : UInt32) (header : Header) (quanta : ℕ → ℕ) (nodes : List Node) : Prop :=
  ∃ file l h, dump now32 header quanta nodes = .ok file ∧ load env file = .ok l ∧
    l.added.flatMap Added.records = (entries nodes).flatMap entryRecords ∧ l.rawdata = [h] ∧
    h.flags = (dumpedHeader now32 header).flags ∧ h.sourceserial = (dumpedHeader now32 header).sourceserial ∧
    h.lastxfrin = (dumpedHeader now32 header).lastxfrin

/-- The loader sees the header: the first call of `load_raw` reads the whole file, or the header says nothing. -/
def HeaderSeen (env : LoadEnv) (now32 : UInt32) (header : Header) (n : ℕ) : Prop :=
  env.loopCnt = 0 ∨ n < env.loopCnt ∨
    ((dumpedHeader now32 header).flags = 0 ∧ (dumpedHeader now32 header).sourceserial = 0 ∧
      (dumpedHeader now32 header).lastxfrin = 0)

theorem load_spec (env : LoadEnv) (hadd : ∀ a, env.add a = .success) (now32 : UInt32) (header : Header)
    {es : List (AbsName × Rdataset)} (hstored : Stored env es) :
    (AllReadable es → ∃ l, load env (headerBytes now32 header ++ bodyBytes es) = .ok l ∧
      l.added.flatMap Added.records = es.flatMap entryRecords ∧
      l.rawdata = [if env.loopCnt = 0 ∨ es.length < env.loopCnt then dumpedHeader now32 header else .init]) ∧
    (¬AllReadable es → ∃ e, load env (headerBytes now32 header ++ bodyBytes es) = .error e) := by
  let file := headerBytes now32 header ++ bodyBytes es
  let l1 : LoadCtx := ⟨false, dumpedHeader now32 header, .success, bodyBytes es, [], []⟩
  have hcall : loadRaw env ⟨true, .init, .success, file, [], []⟩ = loadBody env (dumpedHeader now32 header) l1 := by
    rw [loadRaw, if_pos rfl, loadHeader_eq rfl, ok_then]
  have hrecords : ∀ l', Reads l1 es [] l' → l'.added.flatMap Added.records = es.flatMap entryRecords := by
    rintro l' ⟨calls, rfl, hcalls⟩
    exact hcalls
  rw [load, loadSteps, hcall]
  obtain ⟨read, rest, l', hsplit, hread, hreads, ⟨hrun, rfl, hturns⟩ | ⟨hrun, hq, hturns⟩⟩ | ⟨hbad, e, he⟩ :=
    loadBody_spec hadd (dumpedHeader now32 header) hstored (l := l1) rfl rfl
  · rw [append_nil] at hsplit
    subst hsplit
    rw [hrun, ok_then, if_pos hturns]
    refine ⟨fun _ => ⟨_, rfl, hrecords l' hreads, ?_⟩, fun h => absurd hread h⟩
    rw [hreads.frame.2.2.2]
    rfl
  · have hstored' : Stored env rest := by
      rw [hsplit] at hstored
      exact (forall_mem_append.1 hstored).2
    obtain ⟨hfile', hfirst', hresult', hraw'⟩ := hreads.frame
    have hlength : es.length = read.length + rest.length := by rw [hsplit, length_append]
    have hfuel : rest.length < file.length := by
      have := length_le_bodyBytes es
      rw [length_append]
      omega
    obtain ⟨hok, hfail⟩ := loadSteps_spec hadd file.length rest l' hfuel hstored' hfile' hfirst' hresult'
    rw [hrun, ok_then, if_neg (by omega)]
    constructor
    · intro hall
      rw [hsplit] at hall
      obtain ⟨l2, hreads2, hsteps⟩ := hok (forall_mem_append.1 hall).2
      refine ⟨_, hsteps, hrecords l2 ?_, ?_⟩
      · rw [hsplit]
        exact hreads.trans hreads2
      · rw [hreads2.frame.2.2.2, hraw']
        rfl
    · intro hbad
      refine hfail (fun h => hbad ?_)
      rw [hsplit]
      exact forall_mem_append.2 ⟨hread, h⟩
  · rw [he]
    exact ⟨fun h => absurd h hbad, fun _ => ⟨e, rfl⟩⟩

/-- Raw files round trip exactly if every record fits into the largest buffer of the dump, the loader has space for every
piece that it reads, and it sees the header. -/
theorem raw_zone_roundtrip (env : LoadEnv) (hadd : ∀ a, env.add a = .success) (now32 : UInt32) (header : Header)
    (quanta : ℕ → ℕ) (nodes : List Node) (hacc : ∀ e ∈ entries nodes, Accepts env e.2) :
    RoundTrips env now32 header quanta nodes ↔ AllWritable (entries nodes) ∧ AllReadable (entries nodes) ∧
      HeaderSeen env now32 header (entries nodes).length := by
  by_cases hw : AllWritable (entries nodes)
  · obtain ⟨hok, hfail⟩ := load_spec env hadd now32 header (fun e he => ⟨hacc e he, hw e he⟩)
    have hdump := dump_ok now32 header quanta hw
    by_cases hr : AllReadable (entries nodes)
    · obtain ⟨l, hload, hrecords, hraw⟩ := hok hr
      rw [and_iff_right hw, and_iff_right hr, HeaderSeen, ← or_assoc]
      constructor
      · rintro ⟨file, l', h, hfile, hl', -, hh, hflags, hserial, htime⟩
        rw [hdump] at hfile
        cases hfile
        rw [hload] at hl'
        cases hl'
        rw [hraw] at hh
        by_cases hturns : env.loopCnt = 0 ∨ (entries nodes).length < env.loopCnt
        · exact .inl hturns
        rw [if_neg hturns] at hh
        cases hh
        exact .inr ⟨hflags.symm, hserial.symm, htime.symm⟩
      · intro hseen
        refine ⟨_, l, _, hdump, hload, hrecords, hraw, ?_⟩
        by_cases hturns : env.loopCnt = 0 ∨ (entries nodes).length < env.loopCnt
        · rw [if_pos hturns]
          exact ⟨rfl, rfl, rfl⟩
        rw [if_neg hturns]
        obtain ⟨hflags, hserial, htime⟩ := hseen.resolve_left hturns
        exact ⟨hflags.symm, hserial.symm, htime.symm⟩
    refine iff_of_false ?_ (fun h => hr h.2.1)
    rintro ⟨file, l, h, hfile, hl, -⟩
    rw [hdump] at hfile
    cases hfile
    obtain ⟨e, he⟩ := hfail hr
    rw [he] at hl
    cases hl
  refine iff_of_false ?_ (fun h => hw h.1)
  rintro ⟨file, l, h, hfile, -⟩
  rw [dump_fails now32 header quanta hw] at hfile
  cases hfile

/-- A loader that takes rdata as they are, with `loop_cnt` rdatasets in a call. -/
def plainLoader (loopCnt : ℕ) : LoadEnv := ⟨fun _ _ r => .ok r, fun _ => .success, false, loopCnt⟩

def rootName : AbsName := ⟨⟨[[]]⟩, ⟨by decide, by decide, by decide⟩, by decide⟩

def privateSet (i : ℕ) : Rdataset where
  rdclass := 1
  type := UInt16.ofNat (65280 + i % 100)
  covers := 0
  ttl := 300
  rdata := [[1, 120]]
  nonempty := cons_ne_nil _ _
  count_lt := by decide
  rdata_lt := by decide
  type_ne := by
    intro h
    have h := congrArg UInt16.toNat h
    rw [UInt16.toNat_ofNat_of_lt' (by simp only [UInt16.size]; omega)] at h
    simp at h

def hundredTypes : List Node := [⟨rootName, (range 100).map privateSet⟩]

theorem mem_entries_privateSets {n : ℕ} {e : AbsName × Rdataset}
    (he : e ∈ entries [⟨rootName, (range n).map privateSet⟩]) : ∃ i, e = (rootName, privateSet i) := by
  obtain ⟨node, hnode, he⟩ := mem_flatMap.1 he
  obtain rfl := mem_singleton.1 hnode
  obtain ⟨set, hset, rfl⟩ := mem_map.1 he
  obtain ⟨i, -, rfl⟩ := mem_map.1 hset
  exact ⟨i, rfl⟩

theorem privateSet_stored (loopCnt i : ℕ) :
    Accepts (plainLoader loopCnt) (privateSet i) ∧ Writable rootName (privateSet i) ∧ Readable rootName (privateSet i) := by
  have hlength : rawLength rootName (privateSet i) = 25 := rfl
  refine ⟨fun r _ => rfl, ?_, ?_, fun h => ?_⟩
  · rw [Writable, hlength]
    decide
  · intro r hr
    obtain rfl := mem_singleton.1 hr
    decide
  · rw [hlength] at h
    exact absurd h (by decide)

/-- A load in several calls loses the header of the file: here a hundred rdatasets are read by a loader that reads a
hundred in a call. -/
theorem raw_header_lost : ¬RoundTrips (plainLoader 100) 0 ⟨1, 0, 2, 7, 0⟩ (fun _ => 100) hundredTypes := by
  have hall : ∀ e ∈ entries hundredTypes, (Accepts (plainLoader 100) e.2 ∧ Writable e.1 e.2) ∧ Readable e.1 e.2 := by
    intro e he
    obtain ⟨i, rfl⟩ := mem_entries_privateSets he
    obtain ⟨hacc, hw, hr⟩ := privateSet_stored 100 i
    exact ⟨⟨hacc, hw⟩, hr⟩
  obtain ⟨l, hload, -, hraw⟩ :=
    (load_spec (plainLoader 100) (fun _ => rfl) 0 ⟨1, 0, 2, 7, 0⟩ (fun e he => (hall e he).1)).1 (fun e he => (hall e he).2)
  rintro ⟨file, l', h, hfile, hl', -, hh, hflags, -⟩
  rw [dump_ok 0 ⟨1, 0, 2, 7, 0⟩ (fun _ => 100) (fun e he => (hall e he).1.2)] at hfile
  cases hfile
  rw [hload] at hl'
  cases hl'
  rw [hraw, if_neg (by decide)] at hh
  cases hh
  exact absurd hflags (by decide)

theorem raw_zone_roundtrip_root :
    RoundTrips (plainLoader 100) 0 ⟨1, 0, 2, 7, 0⟩ (fun _ => 1) [⟨rootName, (range 3).map privateSet⟩] := by
  have hall : ∀ e ∈ entries [⟨rootName, (range 3).map privateSet⟩],
      Accepts (plainLoader 100) e.2 ∧ Writable e.1 e.2 ∧ Readable e.1 e.2 := by
    intro e he
    obtain ⟨i, rfl⟩ := mem_entries_privateSets he
    exact privateSet_stored 100 i
  refine (raw_zone_roundtrip (plainLoader 100) (fun _ => rfl) 0 ⟨1, 0, 2, 7, 0⟩ (fun _ => 1) _ (fun e he => (hall e he).1)).2 ?_
  exact ⟨fun e he => (hall e he).2.1, fun e he => (hall e he).2.2, .inr (.inl (by decide))⟩

end Bind9.RawZone
