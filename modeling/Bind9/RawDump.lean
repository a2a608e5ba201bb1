import Bind9.JournalFormat
import Bind9.RawZone

/-! # What a raw dump writes

The buffer of the dump starts with 1200 bytes and is doubled until the record of an rdataset fits.  The length of a buffer
is an `int`: the record is written unless it is longer than the largest buffer (`Writable`), and otherwise the dump fails.
`dump_ok` and `dump_fails` say so for a whole dump, whatever the numbers of nodes in its steps are. -/

namespace Bind9.RawZone

open List

/-! ### Records -/

variable (name : AbsName) (set : Rdataset)

def rawLength : ℕ := 20 + name.name.length + (set.rdata.flatMap rdataBytes).length

/-- The five numbers that follow the length of a record. -/
def recordNumbers : Bytes :=
  uint16Bytes set.rdclass.toNat ++ (uint16Bytes set.type.toNat ++ (uint16Bytes set.covers.toNat ++
    (uint32Bytes set.ttl.toNat ++ uint32Bytes set.rdata.length)))

/-- What stands behind them: the owner and the rdata. -/
def recordData : Bytes :=
  uint16Bytes name.name.length ++ (name.name.ndata ++ set.rdata.flatMap rdataBytes)

/-- What stands behind the length of a record. -/
def recordTail : Bytes := recordNumbers set ++ recordData name set

def recordBytes : Bytes :=
  uint32Bytes (rawLength name set) ++ recordTail name set

theorem recordHead_length : (recordHead name set).length = 20 + name.name.length := by
  simp only [recordHead, length_append, Journal.uint16Bytes_length, Journal.uint32Bytes_length, Name.length]
  omega

theorem recordHead_append :
    recordHead name set ++ set.rdata.flatMap rdataBytes = uint32Bytes 0 ++ recordTail name set := by
  simp only [recordHead, recordTail, recordNumbers, recordData, append_assoc]

theorem recordTail_length : (recordTail name set).length + 4 = rawLength name set := by
  have h := congrArg List.length (recordHead_append name set)
  rw [length_append, recordHead_length, length_append, Journal.uint32Bytes_length] at h
  rw [rawLength]
  omega

/-- The largest buffer: 1200 bytes, doubled twenty times. -/
def maxRecord : ℕ := 1258291200

/-- The record of the rdataset fits into the largest buffer. -/
def Writable : Prop := rawLength name set ≤ maxRecord

/-! ### One rdataset -/

def Doubled (length : ℕ) : Prop := ∃ j ≤ 20, length = initialBufferLength * 2 ^ j

theorem Doubled.initial : Doubled initialBufferLength := ⟨0, by omega, rfl⟩

variable {length : ℕ}

theorem Doubled.bounds (h : Doubled length) : 1200 ≤ length ∧ length ≤ maxRecord := by
  obtain ⟨j, hj, rfl⟩ := h
  have hlow : 2 ^ 0 ≤ 2 ^ j := Nat.pow_le_pow_right (by omega) (Nat.zero_le j)
  have hhigh : 2 ^ j ≤ 2 ^ 20 := Nat.pow_le_pow_right (by omega) hj
  simp only [initialBufferLength, maxRecord]
  omega

theorem Doubled.double (h : Doubled length) :
    2 * length ≤ intMax ∧ Doubled (2 * length) ∨ intMax < 2 * length ∧ length = maxRecord := by
  obtain ⟨j, hj, rfl⟩ := h
  obtain hj | rfl := hj.lt_or_eq
  · have hpow : 2 ^ (j + 1) ≤ 2 ^ 20 := Nat.pow_le_pow_right (by omega) hj
    have heq : 2 * (initialBufferLength * 2 ^ j) = initialBufferLength * 2 ^ (j + 1) := by ring
    refine .inl ⟨?_, j + 1, hj, heq⟩
    rw [heq]
    simp only [initialBufferLength, intMax]
    omega
  · exact .inr ⟨by decide, by decide⟩

theorem putRdata_eq : ∀ {rs : List Rdata} {used : Bytes}, (∀ r ∈ rs, r.length < 65536) →
    used.length ≤ length → putRdata length used rs =
      .ok (if used.length + (rs.flatMap rdataBytes).length ≤ length then some (used ++ rs.flatMap rdataBytes) else none) := by
  intro rs
  induction rs with
  | nil =>
    intro used _ hlen
    simp [putRdata, hlen]
  | cons r rs ih =>
    intro used hrs hlen
    have hr := hrs r mem_cons_self
    have hbytes : (rdataBytes r).length = 2 + r.length := by simp [rdataBytes, Nat.add_comm]
    rw [putRdata, require_true (by simpa using Nat.le_of_lt_succ hr), ok_then, flatMap_cons, length_append, hbytes]
    by_cases hroom : length - used.length < 2 + r.length
    · rw [if_pos hroom, if_neg (by omega)]
      rfl
    have hused : (used ++ rdataBytes r).length = used.length + (2 + r.length) := by rw [length_append, hbytes]
    rw [if_neg hroom, ih (fun s hs => hrs s (mem_cons_of_mem r hs)) (by omega), hused, append_assoc,
      Nat.add_assoc]

theorem AbsName.name_length_le (name : AbsName) : name.name.length ≤ 255 := name.valid.length_le

theorem dumpRdatasetRaw_turn {name : AbsName} {set : Rdataset} (hlen : 1200 ≤ length) (hle : length ≤ maxRecord) :
    dumpRdatasetRaw name set length = if rawLength name set ≤ length then .ok (length, recordBytes name set)
      else if intMax < 2 * length then stop .nomemory else dumpRdatasetRaw name set (2 * length) := by
  have hname := AbsName.name_length_le name
  have hput : putRdata length (recordHead name set) set.rdata = .ok
      (if rawLength name set ≤ length then some (recordHead name set ++ set.rdata.flatMap rdataBytes) else none) := by
    rw [putRdata_eq set.rdata_lt (by rw [recordHead_length]; omega), recordHead_length]
    rfl
  rw [dumpRdatasetRaw, dif_neg (by omega), require_true (by simp; omega), ok_then, hput, ok_then]
  by_cases hfit : rawLength name set ≤ length
  · have hlength : (recordHead name set ++ set.rdata.flatMap rdataBytes).length = rawLength name set := by
      rw [length_append, recordHead_length, rawLength]
    have hmod : rawLength name set % 2 ^ 32 = rawLength name set := by
      refine Nat.mod_eq_of_lt (lt_of_le_of_lt (hfit.trans hle) (by decide))
    rw [if_pos hfit, if_pos hfit]
    simp only
    rw [hlength, hmod, require_true (by simp [rawLength]; omega), ok_then, recordHead_append]
    rfl
  · rw [if_neg hfit, if_neg hfit]
    simp only [dite_eq_ite]

theorem dumpRdatasetRaw_spec (name : AbsName) (set : Rdataset) (h : Doubled length) :
    (Writable name set → ∃ length', Doubled length' ∧ dumpRdatasetRaw name set length = .ok (length', recordBytes name set)) ∧
      (¬Writable name set → dumpRdatasetRaw name set length = stop .nomemory) := by
  induction hn : intMax - length using Nat.strong_induction_on generalizing length with
  | _ n ih =>
    have hbounds := h.bounds
    rw [dumpRdatasetRaw_turn hbounds.1 hbounds.2]
    by_cases hfit : rawLength name set ≤ length
    · rw [if_pos hfit]
      exact ⟨fun _ => ⟨length, h, rfl⟩, fun hw => absurd (hfit.trans hbounds.2) hw⟩
    rw [if_neg hfit]
    obtain ⟨hint, hdouble⟩ | ⟨hint, hmax⟩ := h.double
    · rw [if_neg (by omega)]
      exact ih _ (by omega) hdouble rfl
    rw [if_pos hint]
    refine ⟨fun hw => absurd ?_ hfit, fun _ => rfl⟩
    rw [hmax]
    exact hw

/-! ### The dump -/

/-- The rdatasets of the nodes, with their owners, in the order of the iterators. -/
def entries (nodes : List Node) : List (AbsName × Rdataset) := nodes.flatMap (fun node => node.sets.map (node.name, ·))

def bodyBytes (es : List (AbsName × Rdataset)) : Bytes := es.flatMap (fun e => recordBytes e.1 e.2)

def AllWritable (es : List (AbsName × Rdataset)) : Prop := ∀ e ∈ es, Writable e.1 e.2

theorem bodyBytes_append (es es' : List (AbsName × Rdataset)) : bodyBytes (es ++ es') = bodyBytes es ++ bodyBytes es' :=
  flatMap_append

theorem allWritable_nil : AllWritable [] := forall_mem_nil _

theorem allWritable_append {es es' : List (AbsName × Rdataset)} :
    AllWritable (es ++ es') ↔ AllWritable es ∧ AllWritable es' := forall_mem_append

theorem dumpRdatasetsRaw_spec (name : AbsName) (sets : List Rdataset) (h : Doubled length) :
    (AllWritable (sets.map (name, ·)) → ∃ length', Doubled length' ∧
      dumpRdatasetsRaw name sets length = .ok (length', bodyBytes (sets.map (name, ·)))) ∧
      (¬AllWritable (sets.map (name, ·)) → dumpRdatasetsRaw name sets length = stop .nomemory) := by
  induction sets generalizing length with
  | nil => exact ⟨fun _ => ⟨length, h, rfl⟩, fun hw => absurd allWritable_nil hw⟩
  | cons set sets ih =>
    have hcons : AllWritable ((set :: sets).map (name, ·)) ↔ Writable name set ∧ AllWritable (sets.map (name, ·)) :=
      forall_mem_cons
    obtain ⟨hok, hfail⟩ := dumpRdatasetRaw_spec name set h
    rw [hcons, dumpRdatasetsRaw]
    by_cases hset : Writable name set
    · obtain ⟨length1, h1, hset'⟩ := hok hset
      obtain ⟨hok, hfail⟩ := ih h1
      rw [hset', ok_then]
      constructor
      · intro hw
        obtain ⟨length2, h2, hsets⟩ := hok hw.2
        exact ⟨length2, h2, by simp only [hsets]; rfl⟩
      · intro hw
        simp only [hfail (fun hsets => hw ⟨hset, hsets⟩)]
        rfl
    · rw [hfail hset]
      exact ⟨fun hw => absurd hw.1 hset, fun _ => rfl⟩

/-- The loop writes nodes until the quantum is used up, and fails at a node that cannot be written. -/
theorem dumpLoop_spec (quantum : ℕ) : ∀ (nodes : List Node) (n : ℕ) {length : ℕ} (file : Bytes), Doubled length →
    (∃ written rest, nodes = written ++ rest ∧ AllWritable (entries written) ∧
        dumpLoop quantum nodes n length file = .ok (file ++ bodyBytes (entries written), rest) ∧
        (rest ≠ [] → quantum ≠ 0 ∧ written.length = n)) ∨
      ¬AllWritable (entries nodes) ∧ dumpLoop quantum nodes n length file = stop .nomemory := by
  intro nodes
  induction nodes with
  | nil =>
    intro n length file _
    refine .inl ⟨[], [], rfl, allWritable_nil, ?_, fun h => absurd rfl h⟩
    simp [dumpLoop, entries, bodyBytes]
  | cons node rest ih =>
    intro n length file hlen
    by_cases hgo : quantum = 0 ∨ n ≠ 0
    · rw [dumpLoop, if_pos hgo]
      have hentries : entries (node :: rest) = node.sets.map (node.name, ·) ++ entries rest := rfl
      obtain ⟨hok, hfail⟩ := dumpRdatasetsRaw_spec node.name node.sets hlen
      by_cases hnode : AllWritable (node.sets.map (node.name, ·))
      · obtain ⟨length', hlen', hnode'⟩ := hok hnode
        rw [hnode', ok_then]
        obtain ⟨written, rest', hsplit, hw, hrun, hrest⟩ | ⟨hw, hrun⟩ :=
          ih (n - 1) (file ++ bodyBytes (node.sets.map (node.name, ·))) hlen'
        · refine .inl ⟨node :: written, rest', ?_, ?_, ?_, ?_⟩
          · rw [hsplit, cons_append]
          · exact allWritable_append.2 ⟨hnode, hw⟩
          · simp only [hrun]
            rw [show entries (node :: written) = node.sets.map (node.name, ·) ++ entries written from rfl,
              bodyBytes_append, append_assoc]
          · intro hne
            obtain ⟨hq, hlength⟩ := hrest hne
            have hn : n ≠ 0 := hgo.resolve_left hq
            exact ⟨hq, by rw [length_cons]; omega⟩
        · refine .inr ⟨fun hall => hw (allWritable_append.1 hall).2, hrun⟩
      · rw [hfail hnode]
        exact .inr ⟨fun hall => hnode (allWritable_append.1 hall).1, rfl⟩
    rw [dumpLoop, if_neg hgo]
    have hgo : quantum ≠ 0 ∧ n = 0 := by simpa using hgo
    refine .inl ⟨[], node :: rest, rfl, allWritable_nil, ?_, fun _ => ⟨hgo.1, hgo.2.symm⟩⟩
    simp [entries, bodyBytes]

def stepHeader (now32 : UInt32) (header : Header) (i : ℕ) : Bytes := if i == 0 then headerBytes now32 header else []

theorem dumpSteps_spec (now32 : UInt32) (header : Header) (quanta : ℕ → ℕ) : ∀ (fuel i : ℕ) (file : Bytes)
    (nodes : List Node), nodes.length < fuel →
    (AllWritable (entries nodes) → dumpSteps now32 header quanta fuel i file nodes =
      .ok (file ++ (stepHeader now32 header i ++ bodyBytes (entries nodes)))) ∧
      (¬AllWritable (entries nodes) → dumpSteps now32 header quanta fuel i file nodes = stop .nomemory) := by
  intro fuel
  induction fuel with
  | zero => intro i file nodes h; omega
  | succ fuel ih =>
    intro i file nodes hfuel
    have hstart : (if (i == 0) = true then file ++ headerBytes now32 header else file) =
        file ++ stepHeader now32 header i := by
      unfold stepHeader
      split
      · rfl
      · rw [append_nil]
    rw [dumpSteps, dumptostreaminc, hstart]
    obtain ⟨written, rest, rfl, hw, hrun, hrest⟩ | ⟨hw, hrun⟩ :=
      dumpLoop_spec (quanta i) nodes (quanta i) (file ++ stepHeader now32 header i) Doubled.initial
    · have hentries : entries (written ++ rest) = entries written ++ entries rest := flatMap_append
      rw [hrun, ok_then, hentries]
      simp only
      cases hr : rest with
      | nil =>
        rw [isEmpty_nil, if_pos rfl, show entries [] = [] from rfl, append_nil, append_assoc]
        exact ⟨fun _ => rfl, fun hall => absurd hw hall⟩
      | cons node rest' =>
        rw [isEmpty_cons, if_neg Bool.false_ne_true, ← hr]
        obtain ⟨hq, hlength⟩ := hrest (by rw [hr]; exact cons_ne_nil _ _)
        rw [length_append] at hfuel
        obtain ⟨hok, hfail⟩ := ih (i + 1) (file ++ stepHeader now32 header i ++ bodyBytes (entries written)) rest (by omega)
        rw [allWritable_append]
        constructor
        · intro hall
          rw [hok hall.2, bodyBytes_append]
          simp only [stepHeader, append_assoc]
          rfl
        · intro hall
          exact hfail (fun h => hall ⟨hw, h⟩)
    · rw [hrun]
      exact ⟨fun hall => absurd hall hw, fun _ => rfl⟩

/-- The file of a zone whose rdatasets can all be written. -/
theorem dump_ok (now32 : UInt32) (header : Header) (quanta : ℕ → ℕ) {nodes : List Node} (h : AllWritable (entries nodes)) :
    dump now32 header quanta nodes = .ok (headerBytes now32 header ++ bodyBytes (entries nodes)) := by
  rw [dump, (dumpSteps_spec now32 header quanta _ 0 [] nodes (Nat.lt_succ_self _)).1 h]
  rfl

theorem dump_fails (now32 : UInt32) (header : Header) (quanta : ℕ → ℕ) {nodes : List Node} (h : ¬AllWritable (entries nodes)) :
    dump now32 header quanta nodes = stop .nomemory :=
  (dumpSteps_spec now32 header quanta _ 0 [] nodes (Nat.lt_succ_self _)).2 h

end Bind9.RawZone
