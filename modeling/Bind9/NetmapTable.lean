import Bind9.NetmapReply

/-! # The MAC map as a finite map

Runs of `netmap_add_macaddr` and `netmap_get_macmap` beside the entries that were added and not
retrieved yet.  A released entry stays in its slot and still answers to its ID; it is never found
because an entry that is in use lies in front of every other one with its ID. -/

namespace Bind9.Netmap

open List

def getMacmap (s : State) (qid : ℕ) : Option MacEntry × State :=
  match getSlot qid s.macaddrMap with
  | none => (none, s)
  | some (e, map) => (some e, { s with macaddrMap := map })

/-- The static variables and the entries that were added and not retrieved. -/
structure Held where
  st : State
  unretrieved : List MacEntry

/-- A call of `netmap_add_macaddr`, which marks the entry as in use. -/
def Held.add (t : Held) (e : MacEntry) : Held := ⟨addMacaddr t.st e.used, e.used :: t.unretrieved⟩

/-- A call of `netmap_get_macmap`. -/
def Held.get (t : Held) (qid : ℕ) : Held :=
  ⟨(getMacmap t.st qid).2, t.unretrieved.filter (fun e => e.qid ≠ qid)⟩

/-- The states after any calls: with an entry added at most eight are unretrieved, and no two of
them have one ID. -/
inductive Calls : Held → Prop
  | init : Calls ⟨.init, []⟩
  | add {t : Held} {e : MacEntry} : Calls t → t.unretrieved.length < MAC_ADDR_MAP_ITEMS →
      (∀ e' ∈ t.unretrieved, e'.qid ≠ e.qid) → Calls (t.add e)
  | get {t : Held} {qid : ℕ} : Calls t → Calls (t.get qid)

/-- No entry in use has its ID in an entry in front of it. -/
def Ahead (map : List MacEntry) : Prop := map.Pairwise (fun a b => b.dirty = true → a.qid ≠ b.qid)

/-- The entries in use are the unretrieved ones, and lookups find them. -/
structure Held.Inv (t : Held) : Prop where
  fresh : t.st.table = t.st.macaddrMap
  length : t.st.macaddrMap.length = MAC_ADDR_MAP_ITEMS
  ahead : Ahead t.st.macaddrMap
  mem : ∀ e, e ∈ t.unretrieved ↔ e ∈ t.st.macaddrMap ∧ e.dirty = true

variable {t : Held} {e : MacEntry} {qid : ℕ} {map : List MacEntry}

theorem addMacaddr_table (s : State) (e : MacEntry) :
    (addMacaddr s e).macaddrMap = addSlot e s.table ∧ (addMacaddr s e).macaddrMapInited = true := by
  unfold addMacaddr State.table
  split_ifs with h
  · exact ⟨rfl, h⟩
  · exact ⟨rfl, rfl⟩

/-- Eight entries in use would be eight unretrieved ones. -/
theorem Held.Inv.free (h : t.Inv) (hlt : t.unretrieved.length < MAC_ADDR_MAP_ITEMS) :
    ∃ m ∈ t.st.macaddrMap, m.dirty = false := by
  by_contra hno
  have hdirty : ∀ m ∈ t.st.macaddrMap, m.dirty = true := by
    intro m hm
    by_contra hd
    exact hno ⟨m, hm, Bool.eq_false_iff.2 hd⟩
  have hnodup : t.st.macaddrMap.Nodup := by
    refine Pairwise.imp_of_mem ?_ h.ahead
    intro a b _ hb hab heq
    exact hab (hdirty b hb) (congrArg MacEntry.qid heq)
  have hsub : t.st.macaddrMap ⊆ t.unretrieved := fun m hm => (h.mem m).2 ⟨hm, hdirty m hm⟩
  have hle := (subperm_of_subset hnodup hsub).length_le
  rw [h.length] at hle
  omega

theorem Held.Inv.add (h : t.Inv) (hlt : t.unretrieved.length < MAC_ADDR_MAP_ITEMS)
    (hnew : ∀ e' ∈ t.unretrieved, e'.qid ≠ e.qid) : (t.add e).Inv := by
  obtain ⟨hmap, hin⟩ := addMacaddr_table t.st e.used
  obtain ⟨pre, m, post, hsplit, hpre, hm, hadd⟩ := addSlot_split (e := e.used) (h.free hlt)
  rw [h.fresh, hadd] at hmap
  have hqid : ∀ a ∈ t.st.macaddrMap, a.dirty = true → a.qid ≠ e.qid :=
    fun a ha hd => hnew a ((h.mem a).2 ⟨ha, hd⟩)
  have hlen := h.length
  have hahead := h.ahead
  have hmem := h.mem
  rw [hsplit] at hlen hqid hmem
  rw [Ahead, hsplit, pairwise_append, pairwise_cons] at hahead
  obtain ⟨hfront, ⟨-, hback⟩, hcross⟩ := hahead
  constructor
  · exact State.table_inited hin
  · show (addMacaddr t.st e.used).macaddrMap.length = _
    rw [hmap, ← hlen]
    simp
  · show Ahead (addMacaddr t.st e.used).macaddrMap
    rw [hmap, Ahead, pairwise_append, pairwise_cons]
    refine ⟨hfront, ⟨fun b hb hd => (hqid b (by simp [hb]) hd).symm, hback⟩, fun a ha b hb => ?_⟩
    rcases mem_cons.1 hb with rfl | hb
    -- what lies in front of the first free slot is in use
    · exact fun _ => hqid a (by simp [ha]) (hpre a ha)
    · exact hcross a ha b (by simp [hb])
  · intro a
    show a ∈ e.used :: t.unretrieved ↔ a ∈ (addMacaddr t.st e.used).macaddrMap ∧ _
    rw [hmap, mem_cons, hmem a]
    constructor
    · rintro (rfl | ⟨ha, hd⟩)
      · exact ⟨by simp, rfl⟩
      · have hne : a ≠ m := by
          rintro rfl
          rw [hm] at hd
          cases hd
        simp only [mem_append, mem_cons, hne, false_or] at ha ⊢
        exact ⟨ha.imp_right Or.inr, hd⟩
    · rintro ⟨ha, hd⟩
      rcases mem_append.1 ha with ha | ha
      · exact .inr ⟨by simp [ha], hd⟩
      rcases mem_cons.1 ha with rfl | ha
      · exact .inl rfl
      · exact .inr ⟨by simp [ha], hd⟩

theorem getSlot_none : ∀ {map : List MacEntry}, (∀ m ∈ map, m.qid ≠ qid) → getSlot qid map = none
  | [], _ => rfl
  | m :: ms, h => by
    rw [getSlot, if_neg (h m (by simp)), getSlot_none (fun a ha => h a (by simp [ha]))]
theorem Held.Inv.get (h : t.Inv) (qid : ℕ) : (t.get qid).Inv := by
  by_cases hex : ∃ m ∈ t.st.macaddrMap, m.qid = qid
  · obtain ⟨pre, m, post, hsplit, hpre, hm, hget⟩ := getSlot_split hex
    have hst : (getMacmap t.st qid).2 =
        { t.st with macaddrMap := pre ++ { m with dirty := false } :: post } := by
      rw [getMacmap, hget]
    have hlen := h.length
    have hahead := h.ahead
    have hfresh := h.fresh
    rw [hsplit] at hlen
    rw [Ahead, hsplit, pairwise_append, pairwise_cons] at hahead
    obtain ⟨hfront, ⟨hhead, hback⟩, hcross⟩ := hahead
    constructor
    · show (getMacmap t.st qid).2.table = (getMacmap t.st qid).2.macaddrMap
      rw [hst]
      unfold State.table at hfresh ⊢
      split_ifs at hfresh ⊢ with hini
      · rfl
      · -- a lookup before the first entry only writes a zero
        have hzero : m ∈ List.replicate MAC_ADDR_MAP_ITEMS MacEntry.zero := by
          rw [hfresh, hsplit]
          simp
        rw [hfresh, hsplit, eq_of_mem_replicate hzero]
        rfl
    · show (getMacmap t.st qid).2.macaddrMap.length = _
      rw [hst, ← hlen]
      simp
    · show Ahead (getMacmap t.st qid).2.macaddrMap
      rw [hst, Ahead, pairwise_append, pairwise_cons]
      refine ⟨hfront, ⟨hhead, hback⟩, fun a ha b hb => ?_⟩
      rcases mem_cons.1 hb with rfl | hb
      · exact fun hd => by cases hd
      · exact hcross a ha b (by simp [hb])
    · intro a
      show a ∈ t.unretrieved.filter _ ↔ a ∈ (getMacmap t.st qid).2.macaddrMap ∧ _
      rw [hst, mem_filter, h.mem, hsplit]
      simp only [mem_append, mem_cons, decide_eq_true_eq]
      constructor
      · rintro ⟨⟨ha | rfl | ha, hd⟩, hq⟩
        · exact ⟨.inl ha, hd⟩
        · exact absurd hm hq
        · exact ⟨.inr (.inr ha), hd⟩
      · rintro ⟨ha | rfl | ha, hd⟩
        · exact ⟨⟨.inl ha, hd⟩, hpre a ha⟩
        · cases hd
        · exact ⟨⟨.inr (.inr ha), hd⟩, fun hq => hhead a ha hd (hm.trans hq.symm)⟩
  have hno : ∀ m ∈ t.st.macaddrMap, m.qid ≠ qid := fun m hm hq => hex ⟨m, hm, hq⟩
  have hst : (getMacmap t.st qid).2 = t.st := by rw [getMacmap, getSlot_none hno]
  have hsame : t.unretrieved.filter (fun e => e.qid ≠ qid) = t.unretrieved := by
    apply filter_eq_self.2
    intro a ha
    exact decide_eq_true (hno a ((h.mem a).1 ha).1)
  unfold Held.get
  rw [hst, hsame]
  exact h

theorem Calls.inv (h : Calls t) : t.Inv := by
  induction h with
  | init =>
    constructor
    · rfl
    · rfl
    · apply pairwise_replicate.2
      simp [MacEntry.zero]
    · simp [State.init, MacEntry.zero]
  | add _ hlt hnew ih => exact ih.add hlt hnew
  | get _ ih => exact ih.get _

/-- An unretrieved entry is what a lookup of its ID returns. -/
theorem getMacmap_unretrieved (h : Calls t) (he : e ∈ t.unretrieved) : (getMacmap t.st e.qid).1 = some e := by
  obtain ⟨hin, hd⟩ := (h.inv.mem e).1 he
  obtain ⟨pre, m, post, hsplit, hpre, hm, hget⟩ := getSlot_split ⟨e, hin, rfl⟩
  have hahead := h.inv.ahead
  rw [Ahead, hsplit, pairwise_append, pairwise_cons] at hahead
  rw [hsplit] at hin
  have hme : e = m := by
    rcases mem_append.1 hin with hin | hin
    · exact absurd rfl (hpre e hin)
    rcases mem_cons.1 hin with hin | hin
    · exact hin
    · exact absurd hm (hahead.2.1.1 e hin hd)
  rw [getMacmap, hget, hme]

/-- A second query under the ID of a released entry. -/
theorem getMacmap_reused : (getMacmap (((Held.mk .init []).add ⟨[1], [2], true, 7, 3, 4⟩).get 7 |>.add
    ⟨[5], [6], true, 7, 8, 9⟩).st 7).1 = some ⟨[5], [6], true, 7, 8, 9⟩ :=
  getMacmap_unretrieved (.add (.get (.add .init (by decide) (by decide))) (by decide) (by decide))
    (mem_cons_self)

end Bind9.Netmap
