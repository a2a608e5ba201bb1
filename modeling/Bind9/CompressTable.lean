import Bind9.Compress

/-! # The invariant of the compression table

`Compress.Inv c log` ties a `dns_compress_t` to the list `log` of its live nodes, newest first:
every chain is the part of `log` that hashes to it, offsets fall strictly along `log`, and the
node made as number `k` sits in `initialnodes[k]` while `k` is below sixteen.  It is what the
comment in `dns_compress_rollback` relies on: because offsets fall along every chain, dropping
nodes from the front removes exactly those at or above the given offset, and because these are
the newest ones, the node count again names a free entry of `initialnodes`. -/

namespace Bind9

open List
namespace Compress

/-- An upper bound for the offsets of nodes: a name that starts below `0x4000` has its labels
less than 256 bytes further on. -/
def offsetBound : ℕ := 0x4100

/-- Where the node made as number `k` lives. -/
def SlotOk (c : Compress) (k : ℕ) (r : NodeRef) : Prop :=
  (c.node r).count = k ∧
    if k < DNS_COMPRESS_INITIALNODES then r = .initial k else ∃ a < c.fresh, r = .heap a

/-- The invariant of the table; `log` lists the live nodes, newest first. -/
structure Inv (c : Compress) (log : List NodeRef) : Prop where
  chain : ∀ i, c.table i = log.filter (fun r => bucket (c.node r).name = i)
  count : c.count = log.length
  nodup : log.Nodup
  sorted : log.Pairwise (fun r r' => (c.node r').offset < (c.node r).offset)
  bound : ∀ r ∈ log, (c.node r).offset < offsetBound
  slot : ∀ k r, log.reverse[k]? = some r → c.SlotOk k r

theorem init_inv : Inv init [] := by
  constructor <;> simp [init]

theorem length_le_of_sorted_lt {f : NodeRef → ℕ} {B : ℕ} : ∀ {l : List NodeRef},
    l.Pairwise (fun r r' => f r' < f r) → (∀ r ∈ l, f r < B) → l.length ≤ B := by
  intro l hs hb
  have hnd : (l.map f).Nodup :=
    (pairwise_map.2 (hs.imp (fun h => Nat.ne_of_gt h)))
  have hsub : l.map f ⊆ range B := by
    intro x hx
    obtain ⟨r, hr, rfl⟩ := mem_map.1 hx
    exact mem_range.2 (hb r hr)
  simpa using (hnd.subperm hsub).length_le

namespace Inv

variable {c : Compress} {log : List NodeRef}

theorem count_lt (h : c.Inv log) : c.count < 65535 := by
  have := length_le_of_sorted_lt h.sorted h.bound
  rw [h.count]
  unfold offsetBound at this
  omega

theorem mem_table (h : c.Inv log) {i : ℕ} {r : NodeRef} (hr : r ∈ c.table i) : r ∈ log := by
  rw [h.chain i] at hr
  exact mem_of_mem_filter hr

theorem slot_of_mem (h : c.Inv log) {r : NodeRef} (hr : r ∈ log) : ∃ k < log.length, c.SlotOk k r := by
  obtain ⟨k, hk, rfl⟩ := mem_iff_getElem.1 (mem_reverse.2 hr)
  exact ⟨k, by simpa using hk, h.slot k _ (getElem?_eq_getElem hk)⟩

theorem initial_not_mem (h : c.Inv log) (hc : c.count < DNS_COMPRESS_INITIALNODES) : NodeRef.initial c.count ∉ log := by
  intro hm
  obtain ⟨k, hk, -, hs⟩ := h.slot_of_mem hm
  rw [h.count] at hc hs
  rw [if_pos (by omega)] at hs
  have : log.length = k := by simpa using hs
  omega

theorem heap_not_mem (h : c.Inv log) : NodeRef.heap c.fresh ∉ log := by
  intro hm
  obtain ⟨k, -, -, hs⟩ := h.slot_of_mem hm
  split_ifs at hs
  obtain ⟨a, ha, he⟩ := hs
  have : c.fresh = a := by simpa using he
  omega

end Inv

/-! ### Adding a node -/

@[simp] theorem push_node_self (c : Compress) (ref : NodeRef) (t : Name) (o : ℕ) :
    (c.push ref t o).node ref = ⟨t, o, c.count⟩ := by simp [push]

theorem push_node_of_ne (c : Compress) {ref r : NodeRef} (t : Name) (o : ℕ) (h : r ≠ ref) :
    (c.push ref t o).node r = c.node r := by simp [push, h]

theorem Inv.push {c : Compress} {log : List NodeRef} (h : c.Inv log) {ref : NodeRef} {t : Name} {o : ℕ} (hfree : ref ∉ log)
    (hslot : if c.count < DNS_COMPRESS_INITIALNODES then ref = .initial c.count else ∃ a < c.fresh, ref = .heap a)
    (hgt : ∀ r ∈ log, (c.node r).offset < o) (hb : o < offsetBound) : (c.push ref t o).Inv (ref :: log) := by
  have hne : ∀ r ∈ log, r ≠ ref := fun r hr he => hfree (he ▸ hr)
  have hnode : ∀ r ∈ log, (c.push ref t o).node r = c.node r :=
    fun r hr => push_node_of_ne c t o (hne r hr)
  have hcount : (c.count + 1) % 65536 = log.length + 1 := by
    have := h.count_lt
    rw [Nat.mod_eq_of_lt (by omega), h.count]
  constructor
  · intro i
    have hold : log.filter (fun r => decide (bucket ((c.push ref t o).node r).name = i)) =
        c.table i := by
      rw [h.chain i]
      exact filter_congr (fun r hr => by rw [hnode r hr])
    rw [filter_cons, hold, push_node_self]
    by_cases hi : bucket t = i
    · subst hi; simp [Compress.push]
    · simp [Compress.push, hi, Function.update_of_ne (Ne.symm hi)]
  · exact hcount
  · exact nodup_cons.2 ⟨hfree, h.nodup⟩
  · refine pairwise_cons.2 ⟨fun r hr => ?_, ?_⟩
    · rw [hnode r hr, push_node_self]
      exact hgt r hr
    · refine Pairwise.imp_of_mem (fun {a b} ha hb' hab => ?_) h.sorted
      rw [hnode a ha, hnode b hb']
      exact hab
  · intro r hr
    rcases mem_cons.1 hr with rfl | hr
    · rw [push_node_self]; exact hb
    · rw [hnode r hr]; exact h.bound r hr
  · intro k r hk
    rw [reverse_cons] at hk
    rcases lt_or_ge k log.length with hlt | hge
    · rw [getElem?_append_left (by simpa using hlt)] at hk
      have hr : r ∈ log := mem_reverse.1 (mem_of_getElem? hk)
      have := h.slot k r hk
      unfold SlotOk at this ⊢
      rw [hnode r hr]
      exact this
    rw [getElem?_append_right (by simpa using hge)] at hk
    have hk0 : k = log.length := by
      have := (List.getElem?_eq_some_iff.1 hk).1
      simp at this
      omega
    subst hk0
    have hr : r = ref := by simpa using hk.symm
    subst hr
    refine ⟨by rw [push_node_self]; exact h.count, ?_⟩
    rw [← h.count]
    exact hslot

theorem Inv.fresh_succ {c : Compress} {log : List NodeRef} (h : c.Inv log) :
    Inv { c with fresh := c.fresh + 1 } log := by
  refine ⟨h.chain, h.count, h.nodup, h.sorted, h.bound, fun k r hk => ?_⟩
  obtain ⟨hc, hs⟩ := h.slot k r hk
  refine ⟨hc, ?_⟩
  split_ifs at hs ⊢ with hlt
  · exact hs
  · obtain ⟨a, ha, he⟩ := hs
    exact ⟨a, Nat.lt_succ_of_lt ha, he⟩

theorem getlabelsequence_suffix (name : Name) (start : ℕ) :
    name.getlabelsequence start (name.countlabels - start) = ⟨name.labels.drop start⟩ := by
  simp [Name.getlabelsequence, Name.countlabels]

theorem length_sub_suffix (name : Name) (k : ℕ) :
    name.length - Name.length ⟨name.labels.drop k⟩ = Name.length ⟨name.labels.take k⟩ := by
  have := Name.length_append (name.labels.take k) (name.labels.drop k)
  rw [take_append_drop] at this
  change name.length = _ at this
  omega

theorem length_take_succ_lt (name : Name) {k : ℕ} (hk : k < name.countlabels) :
    Name.length ⟨name.labels.take k⟩ < Name.length ⟨name.labels.take (k + 1)⟩ := by
  rw [take_succ_eq_append_getElem (by exact hk), Name.length_append, Name.length_cons]
  omega

theorem length_take_le (name : Name) (k : ℕ) : Name.length ⟨name.labels.take k⟩ ≤ name.length := by
  have := length_sub_suffix name k
  omega

/-- What `dns_compress_add` leaves behind: the old nodes untouched, and for some of the labels
from `start` on a node at the place of that label. -/
structure Added (name : Name) (offset start stop : ℕ) (c c' : Compress)
    (log new : List NodeRef) : Prop where
  inv : c'.Inv (new ++ log)
  allowed : c'.allowed = c.allowed
  old : ∀ r ∈ log, c'.node r = c.node r
  node : ∀ r ∈ new, ∃ k, k < stop ∧ (c'.node r).name = ⟨name.labels.drop k⟩ ∧
    (c'.node r).offset = offset + Name.length ⟨name.labels.take k⟩

theorem Added.cons {name : Name} {offset start stop : ℕ} {c c1 c' : Compress}
    {log new : List NodeRef} {ref : NodeRef} (hold : ∀ r ∈ log, c1.node r = c.node r) (hall : c1.allowed = c.allowed)
    (hname : (c1.node ref).name = ⟨name.labels.drop start⟩)
    (hoff : (c1.node ref).offset = offset + Name.length ⟨name.labels.take start⟩)
    (hstop : start < stop) (h : Added name offset (start + 1) stop c1 c' (ref :: log) new) :
    Added name offset start stop c c' log (new ++ [ref]) := by
  constructor
  · rw [append_assoc]; exact h.inv
  · rw [h.allowed, hall]
  · intro r hr
    rw [h.old r (mem_cons_of_mem _ hr), hold r hr]
  · intro r hr
    rcases mem_append.1 hr with hr | hr
    · exact h.node r hr
    · rw [mem_singleton.1 hr, h.old ref (by simp)]
      exact ⟨start, hstop, hname, hoff⟩

theorem addLoop_added (mem : ℕ → Bool) {name : Name} (offset : ℕ) (hlen : name.length ≤ 255) :
    ∀ (count start : ℕ) (c : Compress) (log : List NodeRef), c.Inv log →
      start + count ≤ name.countlabels →
      (∀ r ∈ log, (c.node r).offset < offset + Name.length ⟨name.labels.take start⟩) →
      ∃ new, Added name offset start (start + count) c
        (addLoop mem name offset count start (name.countlabels - start) c) log new
  | 0, start, c, log, h, _, _ => ⟨[], h, rfl, fun _ _ => rfl, by simp⟩
  | count + 1, start, c, log, h, hle, hgt => by
    unfold addLoop
    by_cases hoff : 0x4000 ≤ offset
    · rw [if_pos hoff]
      exact ⟨[], h, rfl, fun _ _ => rfl, by simp⟩
    rw [if_neg hoff]
    have htake := length_take_le name start
    have hpush : ∀ (c0 : Compress) (ref : NodeRef), c0.Inv log → c0.node = c.node →
        c0.allowed = c.allowed → ref ∉ log →
        (if c0.count < DNS_COMPRESS_INITIALNODES then ref = .initial c0.count
          else ∃ a < c0.fresh, ref = .heap a) →
        ∃ new, Added name offset start (start + (count + 1)) c
          (addLoop mem name offset count (start + 1) (name.countlabels - start - 1)
            (c0.push ref (name.getlabelsequence start (name.countlabels - start))
              ((offset + (name.length -
                (name.getlabelsequence start (name.countlabels - start)).length)) % 65536)))
          log new := by
      intro c0 ref h₀ hnode hall hfree hslot
      rw [getlabelsequence_suffix, length_sub_suffix, Nat.mod_eq_of_lt (by omega)]
      have hold : ∀ r ∈ log, (c0.push ref ⟨name.labels.drop start⟩
          (offset + Name.length ⟨name.labels.take start⟩)).node r = c.node r := by
        intro r hr
        have hne : r ≠ ref := fun he => hfree (he ▸ hr)
        rw [push_node_of_ne _ _ _ hne, hnode]
      have hinv := h₀.push (t := ⟨name.labels.drop start⟩) hfree hslot
        (fun r hr => by rw [hnode]; exact hgt r hr) (by unfold offsetBound; omega)
      have hlt := length_take_succ_lt name (k := start) (by omega)
      obtain ⟨new, hnew⟩ := addLoop_added mem offset hlen count (start + 1) _ _ hinv
        (by omega) (by
          intro r hr
          rcases mem_cons.1 hr with rfl | hr
          · rw [push_node_self]; dsimp only; omega
          · rw [hold r hr]; have := hgt r hr; omega)
      rw [Nat.sub_sub]
      rw [show start + 1 + count = start + (count + 1) by omega] at hnew
      exact ⟨_, hnew.cons hold hall (by rw [push_node_self]) (by rw [push_node_self]) (by omega)⟩
    by_cases hinit : c.count < DNS_COMPRESS_INITIALNODES
    · simp only [if_pos hinit]
      exact hpush c _ h rfl rfl (h.initial_not_mem hinit) (by rw [if_pos hinit])
    simp only [if_neg hinit]
    split_ifs
    · refine hpush { c with fresh := c.fresh + 1 } _ h.fresh_succ rfl rfl h.heap_not_mem ?_
      rw [if_neg hinit]
      exact ⟨c.fresh, Nat.lt_succ_self _, rfl⟩
    · exact ⟨[], h, rfl, fun _ _ => rfl, by simp⟩

/-! ### Rolling back -/

theorem filter_lt_eq_dropWhile {f : NodeRef → ℕ} (u : ℕ) : ∀ {l : List NodeRef},
    l.Pairwise (fun r r' => f r' < f r) →
      l.filter (fun r => decide (f r < u)) = l.dropWhile (fun r => decide (u ≤ f r))
  | [], _ => rfl
  | r :: l, h => by
    obtain ⟨hr, hl⟩ := pairwise_cons.1 h
    by_cases hu : u ≤ f r
    · simp [hu, filter_lt_eq_dropWhile u hl]
    · have hall : ∀ a ∈ l, f a < u := fun a ha => lt_trans (hr a ha) (not_le.1 hu)
      simp [hu, not_le.1 hu, filter_eq_self.2 (fun a ha => decide_eq_true (hall a ha))]

theorem rollbackChain_eq (c : Compress) (u : ℕ) : ∀ (l : List NodeRef) (count : ℕ),
    l.Pairwise (fun r r' => (c.node r').offset < (c.node r).offset) →
    l.countP (fun r => decide (u ≤ (c.node r).offset)) ≤ count → count < 65536 →
    c.rollbackChain u l count = (l.filter (fun r => decide ((c.node r).offset < u)),
      count - l.countP (fun r => decide (u ≤ (c.node r).offset)))
  | [], _, _, _, _ => rfl
  | r :: l, count, h, hc, hlt => by
    obtain ⟨hr, hl⟩ := pairwise_cons.1 h
    unfold rollbackChain
    by_cases hu : u ≤ (c.node r).offset
    · rw [countP_cons_of_pos (by simpa using hu)] at hc ⊢
      have hdec : (count + 65535) % 65536 = count - 1 := by omega
      rw [if_pos hu, hdec, rollbackChain_eq c u l (count - 1) hl (by omega) (by omega),
        filter_cons_of_neg (by simpa using hu), Nat.sub_sub, Nat.add_comm 1]
    have hall : ∀ a ∈ l, (c.node a).offset < u :=
      fun a ha => lt_trans (hr a ha) (not_le.1 hu)
    have h0 : l.countP (fun r => decide (u ≤ (c.node r).offset)) = 0 := by
      rw [countP_eq_zero]
      intro a ha
      simpa using hall a ha
    rw [if_neg hu, countP_cons_of_neg (by simpa using hu), h0,
      filter_cons_of_pos (by simpa using hu),
      filter_eq_self.2 (fun a ha => decide_eq_true (hall a ha))]
    rfl

theorem countP_bucket_succ (c : Compress) (u m : ℕ) (log : List NodeRef) :
    log.countP (fun r => decide (bucket (c.node r).name < m + 1 ∧ u ≤ (c.node r).offset)) =
      log.countP (fun r => decide (bucket (c.node r).name < m ∧ u ≤ (c.node r).offset)) +
        (log.filter (fun r => decide (bucket (c.node r).name = m))).countP (fun r => decide (u ≤ (c.node r).offset)) := by
  rw [countP_filter]
  induction log with
  | nil => rfl
  | cons r l ih =>
    simp only [countP_cons, ih, Bool.and_eq_true, decide_eq_true_eq]
    split_ifs <;> omega

/-- The outer loop after `m` chains. -/
theorem rollback_fold {c : Compress} {log : List NodeRef} (h : c.Inv log) (u : ℕ) : ∀ m : ℕ,
    (range m).foldl (rollbackBucket u) c = { c with
      table := fun i => if i < m then
        (c.table i).filter (fun r => decide ((c.node r).offset < u)) else c.table i
      count := c.count - log.countP
        (fun r => decide (bucket (c.node r).name < m ∧ u ≤ (c.node r).offset)) }
  | 0 => by simp
  | m + 1 => by
    have hlog := countP_bucket_succ c u m log
    rw [← h.chain m] at hlog
    have hle := log.countP_le_length
      (p := fun r => decide (bucket (c.node r).name < m + 1 ∧ u ≤ (c.node r).offset))
    have hc := h.count
    have hlt := h.count_lt
    have hsort : (c.table m).Pairwise (fun r r' => (c.node r').offset < (c.node r).offset) := by
      rw [h.chain m]; exact h.sorted.filter _
    rw [range_succ, foldl_append, rollback_fold h u m, hlog, ← Nat.sub_sub]
    simp only [foldl_cons, foldl_nil, rollbackBucket, lt_irrefl, if_false]
    rw [rollbackChain_eq]
    rotate_left
    · exact hsort
    · dsimp only; omega
    · omega
    congr 1
    funext i
    rcases lt_trichotomy i m with hi | rfl | hi
    · simp [hi, Nat.lt_succ_of_lt hi, Nat.ne_of_lt hi]
    · simp
    · simp [Nat.ne_of_gt hi, Nat.not_lt_of_gt hi, Nat.not_lt.2 hi]

theorem Inv.rollback {c : Compress} {log : List NodeRef} (h : c.Inv log) (u : ℕ) :
    (c.rollback u).Inv (log.filter (fun r => decide ((c.node r).offset < u))) ∧
      (c.rollback u).node = c.node ∧ (c.rollback u).allowed = c.allowed := by
  have hfold : c.rollback u = _ := rollback_fold h u DNS_COMPRESS_TABLESIZE
  have hb : ∀ r, bucket (c.node r).name < DNS_COMPRESS_TABLESIZE :=
    fun r => Nat.mod_lt _ (by decide)
  refine ⟨?_, by rw [hfold], by rw [hfold]⟩
  rw [hfold]
  constructor
  · intro i
    dsimp only
    rw [h.chain i, filter_filter, filter_filter]
    split_ifs with hi
    · exact filter_congr (fun r _ => Bool.and_comm _ _)
    · -- no name hashes beyond the table
      have hne : ∀ r, bucket (c.node r).name ≠ i := fun r he => hi (he ▸ hb r)
      simp [hne]
  · simp only [hb, true_and]
    rw [h.count, length_eq_countP_add_countP (fun r => decide (u ≤ (c.node r).offset)),
      Nat.add_sub_cancel_left, countP_eq_length_filter]
    simp
  · exact h.nodup.filter _
  · exact h.sorted.filter _
  · exact fun r hr => h.bound r (mem_of_mem_filter hr)
  · intro k r hk
    rw [filter_lt_eq_dropWhile u h.sorted] at hk
    obtain ⟨t, ht⟩ := reverse_prefix.2
      (dropWhile_suffix (fun r => decide (u ≤ (c.node r).offset)) (l := log))
    refine h.slot k r ?_
    rw [← ht]
    exact getElem?_append_left (List.getElem?_eq_some_iff.1 hk).1 ▸ hk

/-! ### Searching -/

theorem lookup_some {c : Compress} {log : List NodeRef} (h : c.Inv log) {t : Name}
    {nd : CompressNode} (hl : c.lookup t = some nd) : ∃ r ∈ log, nd = c.node r ∧ c.matchesName nd.name t = true := by
  unfold lookup at hl
  have hm := find?_some hl
  obtain ⟨r, hr, rfl⟩ := mem_map.1 (mem_of_find?_eq_some hl)
  exact ⟨r, h.mem_table hr, rfl, hm⟩

theorem findglobalFrom_some {c : Compress} {log : List NodeRef} (h : c.Inv log) {name : Name}
    {m : ℕ} {nd : CompressNode} : ∀ {k n : ℕ}, c.findglobalFrom name k n = some (m, nd) →
      m < n + k ∧ ∃ r ∈ log, nd = c.node r ∧
        c.matchesName nd.name ⟨name.labels.drop m⟩ = true
  | 0, n, hf => by simp [findglobalFrom] at hf
  | k + 1, n, hf => by
    unfold findglobalFrom at hf
    rw [getlabelsequence_suffix] at hf
    cases hl : c.lookup ⟨name.labels.drop n⟩ with
    | none =>
      rw [hl] at hf
      obtain ⟨hm, hr⟩ := findglobalFrom_some h hf
      exact ⟨by omega, hr⟩
    | some nd' =>
      rw [hl] at hf
      obtain ⟨rfl, rfl⟩ := Prod.mk.inj (Option.some.inj hf)
      exact ⟨by omega, lookup_some h hl⟩

theorem findglobal_some {c : Compress} {log : List NodeRef} (h : c.Inv log) {name gp : Name}
    {go : ℕ} (hf : c.findglobal name = some (gp, go)) :
    ∃ m < name.countlabels - 1, gp = ⟨name.labels.take m⟩ ∧ ∃ r ∈ log, go = (c.node r).offset ∧
      c.matchesName (c.node r).name ⟨name.labels.drop m⟩ = true := by
  unfold findglobal at hf
  split_ifs at hf
  cases hg : c.findglobalFrom name (name.countlabels - 1) 0 with
  | none => rw [hg] at hf; cases hf
  | some p =>
    obtain ⟨m, nd⟩ := p
    rw [hg] at hf
    obtain ⟨rfl, rfl⟩ := Prod.mk.inj (Option.some.inj hf)
    obtain ⟨hm, r, hr, rfl, hmatch⟩ := findglobalFrom_some h hg
    exact ⟨m, by omega, by simp [Name.getlabelsequence], r, hr, rfl, hmatch⟩

end Compress
end Bind9
