import Bind9.Region
import Mathlib.Data.List.Nodup
import Mathlib.Logic.Function.Basic

/-! # Lists with links in their elements

`isc/list.h`.  A link is `none` in place of `(void *)(-1)`, which is no address: following it stops the program.  `Holds` says
which list the pointers make up, and the operations keep it as long as no element is appended twice. -/

namespace Bind9

open List
open Function

/-- `ISC_LIST`, with the `ISC_LINK` of each element. -/
structure IscList (K : Type) where
  head : Option K
  tail : Option K
  prev : K → Option (Option K)
  next : K → Option (Option K)

namespace IscList

set_option linter.unusedSectionVars false

variable {K : Type}

/-- `ISC_LIST_INIT`, before any element has been in the list. -/
def empty : IscList K := ⟨none, none, fun _ => none, fun _ => none⟩

def linked (q : IscList K) (k : K) : Bool := (q.prev k).isSome

/-- The elements of a list are those that are linked. -/
instance : Membership K (IscList K) := ⟨fun q k => q.linked k = true⟩

instance (q : IscList K) (k : K) : Decidable (k ∈ q) := inferInstanceAs (Decidable (q.linked k = true))

/-- The pointer of a link, when it is used as an address. -/
def deref : Option (Option K) → Exec (Option K)
  | some p => .ok p
  | none => .error .overrun

variable [DecidableEq K] (q : IscList K)

def initLink (k : K) : IscList K := { q with prev := update q.prev k none, next := update q.next k none }

/-- `ENQUEUE`, that is `ISC_LIST_APPEND`. -/
def enqueue (k : K) : IscList K :=
  match q.tail with
  | some j =>
    { q with
      tail := some k
      prev := update q.prev k (some (some j))
      next := update (update q.next j (some (some k))) k (some none) }
  | none => ⟨some k, some k, update q.prev k (some none), update q.next k (some none)⟩

/-- The first half of `ISC_LIST_UNLINK`: the element behind, or the list, gets the pointer to the element before. -/
def unlinkNext (k : K) (prev next : Option K) : Exec (IscList K) :=
  match next with
  | some j => .ok { q with prev := update q.prev j (some prev) }
  | none => do
    require (q.tail == some k)
    return { q with tail := prev }

def unlinkPrev (k : K) (prev next : Option K) : Exec (IscList K) :=
  match prev with
  | some i => .ok { q with next := update q.next i (some next) }
  | none => do
    require (q.head == some k)
    return { q with head := next }

/-- `DEQUEUE`, that is `ISC_LIST_UNLINK`. -/
def dequeue (k : K) : Exec (IscList K) := do
  let next ← deref (q.next k)
  let prev ← deref (q.prev k)
  let q ← q.unlinkNext k prev next
  let q ← q.unlinkPrev k prev next
  let q := q.initLink k
  require (q.head != some k)
  require (q.tail != some k)
  return q

/-- `DEQUEUE` of an element that is linked. -/
def dequeueLinked (k : K) : Exec (IscList K) := if k ∈ q then q.dequeue k else .ok q

/-! ### The list that the pointers make up -/

/-- The pointers of the elements of `l` go to their neighbours, and those of other elements are not set. -/
structure Holds (l : List K) : Prop where
  nodup : l.Nodup
  head : q.head = l.head?
  tail : q.tail = l.getLast?
  next : ∀ a k b, l = a ++ k :: b → q.next k = some b.head?
  prev : ∀ a k b, l = a ++ k :: b → q.prev k = some a.getLast?
  mem : ∀ k ∈ q, k ∈ l

variable {q q' : IscList K} {k : K} {l : List K}

theorem mem_def : k ∈ q ↔ q.linked k = true := Iff.rfl

theorem Holds.mem_iff (h : q.Holds l) : k ∈ q ↔ k ∈ l := by
  refine ⟨h.mem k, fun hk => ?_⟩
  obtain ⟨a, b, hl⟩ := append_of_mem hk
  rw [mem_def]
  unfold linked
  rw [h.prev a k b hl]
  rfl

theorem Holds.mem_of_head (h : q.Holds l) (hk : q.head = some k) : k ∈ q :=
  h.mem_iff.2 (mem_of_mem_head? (h.head.symm.trans hk))

theorem holds_empty : (empty : IscList K).Holds [] := by
  refine ⟨nodup_nil, rfl, rfl, fun a k b hl => ?_, fun a k b hl => ?_, fun k hk => ?_⟩
  · exact absurd hl (by simp)
  · exact absurd hl (by simp)
  · cases hk

theorem Holds.initLink (h : q.Holds l) (hk : k ∉ l) : (q.initLink k).Holds l := by
  have hne : ∀ {a x b}, l = a ++ x :: b → x ≠ k := by
    rintro a x b hl rfl
    exact hk (hl ▸ mem_append_right a mem_cons_self)
  refine ⟨h.nodup, h.head, h.tail, fun a x b hl => ?_, fun a x b hl => ?_, fun x hx => ?_⟩
  · exact (update_of_ne (hne hl) ..).trans (h.next a x b hl)
  · exact (update_of_ne (hne hl) ..).trans (h.prev a x b hl)
  · have hx : (update q.prev k none x).isSome = true := hx
    by_cases hxk : x = k
    · rw [hxk, update_self] at hx
      cases hx
    · rw [update_of_ne hxk] at hx
      exact h.mem x hx

theorem mem_initLink {x : K} : x ∈ q.initLink k ↔ x ∈ q ∧ x ≠ k := by
  show (update q.prev k none x).isSome = true ↔ (q.prev x).isSome = true ∧ x ≠ k
  by_cases hx : x = k
  · rw [hx, update_self]
    simp
  · rw [update_of_ne hx]
    simp [hx]

theorem mem_enqueue {x : K} : x ∈ q.enqueue k ↔ x ∈ q ∨ x = k := by
  have hprev : ∃ p, (q.enqueue k).prev = update q.prev k (some p) := by
    unfold IscList.enqueue
    split <;> exact ⟨_, rfl⟩
  obtain ⟨p, hp⟩ := hprev
  show ((q.enqueue k).prev x).isSome = true ↔ (q.prev x).isSome = true ∨ x = k
  rw [hp]
  by_cases hx : x = k
  · rw [hx, update_self]
    simp
  · rw [update_of_ne hx]
    simp [hx]

theorem enqueue_of_tail {j : K} (hj : q.tail = some j) :
    q.enqueue k = ⟨q.head, some k, update q.prev k (some (some j)), update (update q.next j (some (some k))) k (some none)⟩ := by
  unfold enqueue
  rw [hj]

theorem Holds.enqueue (h : q.Holds l) (hk : k ∉ l) : (q.enqueue k).Holds (l ++ [k]) := by
  have hnodup : (l ++ [k]).Nodup := h.nodup.append (nodup_singleton k) (disjoint_singleton.2 hk)
  -- a place in the list is an old one, or the end
  have hsplit : ∀ {a x b}, l ++ [k] = a ++ x :: b → (b = [] ∧ x = k ∧ a = l) ∨ ∃ b', b = b' ++ [k] ∧ l = a ++ x :: b' ∧ x ≠ k := by
    intro a x b hl
    obtain rfl | ⟨b', y, rfl⟩ := eq_nil_or_concat b
    · obtain ⟨ha, hx⟩ := append_inj' hl rfl
      exact .inl ⟨rfl, (singleton_inj.1 hx).symm, ha.symm⟩
    have hl' : l ++ [k] = (a ++ x :: b') ++ [y] := by rw [hl]; simp
    obtain ⟨ha, hy⟩ := append_inj' hl' rfl
    refine .inr ⟨b', by rw [singleton_inj.1 hy]; simp, ha, ?_⟩
    rintro rfl
    exact hk (ha ▸ mem_append_right a mem_cons_self)
  cases hj : q.tail with
  | none =>
    have hnil : l = [] := getLast?_eq_none_iff.1 (h.tail.symm.trans hj)
    subst hnil
    have hq : q.enqueue k = ⟨some k, some k, update q.prev k (some none), update q.next k (some none)⟩ := by
      unfold IscList.enqueue
      rw [hj]
    rw [hq]
    refine ⟨hnodup, rfl, rfl, fun a x b hl => ?_, fun a x b hl => ?_, fun x hx => ?_⟩
    · obtain ⟨rfl, rfl, -⟩ | ⟨b', -, hl, -⟩ := hsplit hl
      · exact update_self ..
      · exact absurd hl (by simp)
    · obtain ⟨-, rfl, rfl⟩ | ⟨b', -, hl, -⟩ := hsplit hl
      · exact update_self ..
      · exact absurd hl (by simp)
    · by_contra hne
      have hx : (update q.prev k (some none) x).isSome = true := hx
      rw [update_of_ne (fun hxk => hne (by rw [hxk]; exact mem_append_right _ (mem_singleton_self k)))] at hx
      exact not_mem_nil (h.mem x hx)
  | some j =>
    have hlast : l.getLast? = some j := h.tail.symm.trans hj
    rw [enqueue_of_tail hj]
    refine ⟨hnodup, ?_, by simp, fun a x b hl => ?_, fun a x b hl => ?_, fun x hx => ?_⟩
    · cases l with
      | nil => cases hlast
      | cons y l' => exact h.head
    · obtain ⟨rfl, rfl, rfl⟩ | ⟨b', rfl, hl, hxk⟩ := hsplit hl
      · exact update_self ..
      · refine (update_of_ne hxk ..).trans ?_
        obtain rfl | ⟨y, b''⟩ := b'
        · have hxj : x = j := by
            rw [hl] at hlast
            simpa using hlast
          rw [hxj]
          exact update_self ..
        have hxj : x ≠ j := by
          rintro rfl
          rw [hl] at hlast
          have hmem : x ∈ y :: b'' := by
            have hb : (y :: b'').getLast? = some x := by simpa using hlast
            exact mem_of_mem_getLast? hb
          have hnd := h.nodup
          rw [hl] at hnd
          exact (nodup_cons.1 hnd.of_append_right).1 hmem
        rw [update_of_ne hxj, h.next a x (y :: b'') hl]
        rfl
    · obtain ⟨-, rfl, rfl⟩ | ⟨b', -, hl, hxk⟩ := hsplit hl
      · rw [hlast]
        exact update_self ..
      · exact (update_of_ne hxk ..).trans (h.prev a x b' hl)
    · have hx : (update q.prev k (some (some j)) x).isSome = true := hx
      by_cases hxk : x = k
      · rw [hxk]
        exact mem_append_right _ (mem_singleton_self k)
      · rw [update_of_ne hxk] at hx
        exact mem_append_left _ (h.mem x hx)

theorem Holds.tail_cons {a b : List K} (h : q.Holds (a ++ k :: b)) {j : K} (hj : q.tail = some j) :
    b = [] ∧ j = k ∨ j ∈ b ∧ j ≠ k := by
  have hlast : (a ++ k :: b).getLast? = some j := h.tail.symm.trans hj
  have hb : (k :: b).getLast? = some j := by simpa using hlast
  cases b with
  | nil => exact .inl ⟨rfl, (Option.some.inj hb).symm⟩
  | cons y b =>
    have hmem : j ∈ y :: b := mem_of_mem_getLast? (by simpa using hb)
    refine .inr ⟨hmem, ?_⟩
    rintro rfl
    exact (nodup_cons.1 h.nodup.of_append_right).1 hmem

/-- An element that is linked and is appended once more leaves pointers that make up no list. -/
theorem Holds.enqueue_mem (h : q.Holds l) (hk : k ∈ l) (l' : List K) : ¬ (q.enqueue k).Holds l' := by
  intro h'
  obtain ⟨a, b, rfl⟩ := append_of_mem hk
  obtain ⟨j, hj⟩ : ∃ j, q.tail = some j := by
    cases hj : q.tail with
    | none => exact absurd (getLast?_eq_none_iff.1 (h.tail.symm.trans hj)) (by simp)
    | some j => exact ⟨j, rfl⟩
  have htail := h.tail_cons hj
  rw [enqueue_of_tail hj] at h'
  have hprev : update q.prev k (some (some j)) k = some (some j) := update_self ..
  have hold : ∀ {x}, x ≠ k → x ∈ a ++ k :: b → x ∈ l' := by
    intro x hx hmem
    refine h'.mem_iff.1 ?_
    have hsame : update q.prev k (some (some j)) x = q.prev x := update_of_ne hx ..
    show (update q.prev k (some (some j)) x).isSome = true
    rw [hsame]
    exact h.mem_iff.2 hmem
  -- what stands before an element in the new list has its link to it
  have hbefore : ∀ {x : K}, x ∈ l' → update (update q.next j (some (some k))) k (some none) x = some (some k) → x = j := by
    intro x hx hnext
    obtain ⟨c, d, rfl⟩ := append_of_mem hx
    have hd := (h'.next c x d rfl).symm.trans hnext
    cases d with
    | nil => cases hd
    | cons y d =>
      have hy : y = k := Option.some.inj (Option.some.inj hd)
      subst hy
      have hx' := (h'.prev (c ++ [x]) y d (by simp)).symm.trans hprev
      simpa using hx'
  obtain rfl | ⟨a, i, rfl⟩ := eq_nil_or_concat a
  · have hhead : l'.head? = some k := h'.head.symm.trans h.head
    obtain ⟨d, rfl⟩ := head?_eq_some_iff.1 hhead
    have hnone := (h'.prev [] k d rfl).symm.trans hprev
    cases hnone
  have hik : i ≠ k := by
    rintro rfl
    exact disjoint_of_nodup_append h.nodup (by simp) mem_cons_self
  have hij : i ≠ j := by
    rintro rfl
    have hmem : i ∈ k :: b := htail.elim (fun e => absurd e.2 hik) (fun e => mem_cons_of_mem k e.1)
    exact disjoint_of_nodup_append h.nodup (by simp) hmem
  have hnext := h.next a i (k :: b) (by simp)
  refine hij (hbefore (hold hik (by simp)) ?_)
  rw [update_of_ne hik, update_of_ne hij, hnext]
  rfl

/-- The places of two lists in a row. -/
theorem append_eq_append_cons {a b c d : List K} {x : K} (h : a ++ b = c ++ x :: d) :
    (∃ e, a = c ++ x :: e ∧ d = e ++ b) ∨ ∃ e, b = e ++ x :: d ∧ c = a ++ e := by
  obtain ⟨e, hc, hb⟩ | ⟨e, ha, he⟩ := append_eq_append_iff.1 h
  · exact .inr ⟨e, hb, hc⟩
  cases e with
  | nil => exact .inr ⟨[], he.symm, by simpa using ha.symm⟩
  | cons y e =>
    obtain ⟨rfl, rfl⟩ := cons.inj he
    exact .inl ⟨e, ha, rfl⟩

/-- The pointers behind a `DEQUEUE`. -/
def without (q : IscList K) (a : List K) (k : K) (b : List K) : IscList K where
  head := (a ++ b).head?
  tail := (a ++ b).getLast?
  prev x := if x = k then none else if b.head? = some x then some a.getLast? else q.prev x
  next x := if x = k then none else if a.getLast? = some x then some b.head? else q.next x

theorem update_eq_ite (f : K → Option (Option K)) (j : K) (v : Option (Option K)) :
    update f j v = fun x => if some j = some x then v else f x := by
  funext x
  by_cases hx : x = j
  · rw [hx, update_self, if_pos rfl]
  · rw [update_of_ne hx, if_neg (fun e => hx (Option.some.inj e).symm)]

theorem Holds.dequeue_eq {a b : List K} (h : q.Holds (a ++ k :: b)) (hk : k ∉ a ++ b) :
    q.dequeue k = .ok (q.without a k b) := by
  have hnext : q.unlinkNext k a.getLast? b.head? = .ok { q with
      tail := (a ++ b).getLast?
      prev := fun x => if b.head? = some x then some a.getLast? else q.prev x } := by
    unfold unlinkNext
    have htail := h.tail
    cases b with
    | nil =>
      have hlast : q.tail = some k := by simpa using htail
      simp [hlast, require]
    | cons j b =>
      have hlast : q.tail = (a ++ j :: b).getLast? := by simpa using htail
      rw [← hlast]
      show Except.ok { q with prev := update q.prev j (some a.getLast?) } = _
      rw [update_eq_ite]
      rfl
  have hprev : ∀ t p, IscList.unlinkPrev { q with tail := t, prev := p } k a.getLast? b.head? = .ok { q with
      head := (a ++ b).head?
      tail := t
      prev := p
      next := fun x => if a.getLast? = some x then some b.head? else q.next x } := by
    intro t p
    unfold unlinkPrev
    have hhead := h.head
    obtain rfl | ⟨a, i, rfl⟩ := eq_nil_or_concat a
    · have hfirst : q.head = some k := hhead
      simp [hfirst, require]
    have hfirst : q.head = (a ++ [i] ++ b).head? := by
      rw [hhead]
      cases a <;> rfl
    rw [concat_eq_append, getLast?_concat, ← hfirst]
    show Except.ok { q with tail := t, prev := p, next := update q.next i (some b.head?) } = _
    rw [update_eq_ite]
  have hinit : IscList.initLink ⟨(a ++ b).head?, (a ++ b).getLast?,
      fun x => if b.head? = some x then some a.getLast? else q.prev x,
      fun x => if a.getLast? = some x then some b.head? else q.next x⟩ k = q.without a k b := by
    unfold IscList.initLink without
    congr 1 <;>
    · funext x
      by_cases hx : x = k
      · simp [hx]
      · simp [hx]
  have hhead : (q.without a k b).head ≠ some k := fun hmem => hk (mem_of_mem_head? hmem)
  have htail : (q.without a k b).tail ≠ some k := fun hmem => hk (mem_of_mem_getLast? hmem)
  unfold IscList.dequeue
  rw [h.next a k b rfl, h.prev a k b rfl]
  simp only [deref, ok_then, hnext, hprev, hinit]
  rw [require_true (bne_iff_ne.2 hhead), require_true (bne_iff_ne.2 htail)]
  rfl

theorem Holds.dequeue (h : q.Holds l) (hk : k ∈ q) : ∃ q', q.dequeue k = .ok q' ∧ q'.Holds (l.erase k) := by
  obtain ⟨a, b, rfl⟩ := append_of_mem (h.mem_iff.1 hk)
  have hka : k ∉ a := fun hmem => disjoint_of_nodup_append h.nodup hmem mem_cons_self
  have hkb : k ∉ b := (nodup_cons.1 h.nodup.of_append_right).1
  have hnot : k ∉ a ++ b := by
    rw [mem_append]
    exact not_or.2 ⟨hka, hkb⟩
  have herase : (a ++ k :: b).erase k = a ++ b := by
    rw [erase_append_right _ hka, erase_cons_head]
  have hnodup : (a ++ b).Nodup := herase ▸ h.nodup.erase k
  rw [herase]
  refine ⟨_, h.dequeue_eq hnot, hnodup, rfl, rfl, fun c x d hl => ?_, fun c x d hl => ?_, fun x hx => ?_⟩
  · have hxk : x ≠ k := by
      rintro rfl
      exact hnot (hl ▸ mem_append_right c mem_cons_self)
    refine (if_neg hxk).trans ?_
    obtain ⟨e, rfl, rfl⟩ | ⟨e, rfl, rfl⟩ := append_eq_append_cons hl
    · cases e with
      | nil => simp
      | cons y e =>
        have hlast : (c ++ x :: y :: e).getLast? ≠ some x := by
          intro hlast
          have hmem : x ∈ y :: e := mem_of_mem_getLast? (by simpa using hlast)
          exact (nodup_cons.1 hnodup.of_append_left.of_append_right).1 hmem
        rw [if_neg hlast, h.next c x (y :: e ++ k :: b) (by simp)]
        rfl
    have hlast : a.getLast? ≠ some x := by
      intro hlast
      exact disjoint_of_nodup_append hnodup (mem_of_mem_getLast? hlast) (by simp)
    rw [if_neg hlast, h.next (a ++ k :: e) x d (by simp)]
  · have hxk : x ≠ k := by
      rintro rfl
      exact hnot (hl ▸ mem_append_right c mem_cons_self)
    refine (if_neg hxk).trans ?_
    obtain ⟨e, rfl, rfl⟩ | ⟨e, rfl, rfl⟩ := append_eq_append_cons hl
    · have hhead : b.head? ≠ some x := by
        intro hhead
        exact disjoint_of_nodup_append hnodup (by simp) (mem_of_mem_head? hhead)
      rw [if_neg hhead, h.prev c x (e ++ k :: b) (by simp)]
    cases e with
    | nil => simp
    | cons y e =>
      have hhead : (y :: e ++ x :: d).head? ≠ some x := by
        intro hhead
        have hyx : y = x := Option.some.inj hhead
        subst hyx
        exact (nodup_cons.1 hnodup.of_append_right).1 (by simp)
      rw [if_neg hhead, h.prev (a ++ k :: y :: e) x d (by simp)]
      simp
  · have hx : (if x = k then none else if b.head? = some x then some a.getLast? else q.prev x).isSome = true := hx
    split at hx
    · cases hx
    next hxk =>
      split at hx
      next hhead => exact mem_append_right a (mem_of_mem_head? hhead)
      · have hmem := h.mem x hx
        rw [mem_append, mem_cons] at hmem
        rw [mem_append]
        exact hmem.imp id (fun e => e.resolve_left hxk)

theorem Holds.dequeueLinked (h : q.Holds l) (k : K) : ∃ q', q.dequeueLinked k = .ok q' ∧ q'.Holds (l.erase k) ∧
    ∀ x, x ∈ q' ↔ x ∈ q ∧ x ≠ k := by
  have hmem : ∀ {q' : IscList K}, q'.Holds (l.erase k) → ∀ x, x ∈ q' ↔ x ∈ q ∧ x ≠ k := by
    intro q' h' x
    rw [h'.mem_iff, h.mem_iff, h.nodup.mem_erase_iff, and_comm]
  unfold IscList.dequeueLinked
  by_cases hk : k ∈ q
  · rw [if_pos hk]
    obtain ⟨q', hq, h'⟩ := h.dequeue hk
    exact ⟨q', hq, h', hmem h'⟩
  rw [if_neg hk]
  have herase : l.erase k = l := erase_of_not_mem (fun hl => hk (h.mem_iff.2 hl))
  rw [herase] at hmem ⊢
  exact ⟨q, rfl, h, hmem h⟩

end IscList

end Bind9
