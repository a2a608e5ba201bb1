import Mathlib.Data.List.SplitBy
import Mathlib.Tactic

/-! # Runs

A list falls into runs of entries, each related to the next one (`List.splitBy`).  Cut the list into pieces and split each
piece into runs: `regroup` joins the runs that a cut has separated, and gives back the runs of the whole list.  A process
that takes one run after the other notices the cuts only by what it asks for where two runs are joined (`all_regroup`). -/

namespace Runs

open List

variable {α σ : Type} (r : α → α → Bool)

/-- Does the first list go on in the second one? -/
def joins (p w : List α) : Bool := p.getLast?.any (fun a => w.head?.any (r a))

/-- The runs, those that belong together joined. -/
def regroup : List (List α) → List (List α)
  | [] => []
  | p :: ps =>
    match regroup ps with
    | [] => [p]
    | w :: ws => if joins r p w then (p ++ w) :: ws else p :: w :: ws

def pieces (ds : List (List α)) : List (List α) := ds.flatMap (List.splitBy r)

variable {r}

theorem joins_iff {p w : List α} : joins r p w = true ↔ ∃ a ∈ p.getLast?, ∃ b ∈ w.head?, r a b = true := by
  simp [joins, Option.any_eq_true]

theorem flatten_regroup (ps : List (List α)) : (regroup r ps).flatten = ps.flatten := by
  induction ps with
  | nil => rfl
  | cons p ps ih =>
    rw [regroup, flatten_cons, ← ih]
    split
    next hnil => rw [hnil]; rfl
    next w ws hcons =>
      rw [hcons]
      split
      · rw [flatten_cons, flatten_cons, append_assoc]
      · rfl

variable {ps : List (List α)}

theorem nil_notMem_regroup (hn : [] ∉ ps) : [] ∉ regroup r ps := by
  induction ps with
  | nil => exact hn
  | cons p ps ih =>
    rw [mem_cons, not_or] at hn
    have ih := ih hn.2
    rw [regroup]
    split
    · simpa using hn.1
    next w ws hcons =>
      rw [hcons, mem_cons, not_or] at ih
      split
      · rw [mem_cons, not_or]
        exact ⟨fun h => ih.1 (append_eq_nil_iff.1 h.symm).2.symm, ih.2⟩
      · simp only [mem_cons, not_or]
        exact ⟨hn.1, ih⟩

theorem isChain_of_mem_regroup (hc : ∀ p ∈ ps, p.IsChain (r · ·)) : ∀ w ∈ regroup r ps, w.IsChain (r · ·) := by
  induction ps with
  | nil => exact hc
  | cons p ps ih =>
    have ih := ih (fun q hq => hc q (mem_cons_of_mem p hq))
    have hp := hc p mem_cons_self
    rw [regroup]
    split
    · simpa using hp
    next w ws hcons =>
      rw [hcons] at ih
      split
      next hj =>
        obtain ⟨a, ha, b, hb, hab⟩ := joins_iff.1 hj
        refine forall_mem_cons.2 ⟨?_, fun q hq => ih q (mem_cons_of_mem w hq)⟩
        refine isChain_append.2 ⟨hp, ih w mem_cons_self, fun x hx y hy => ?_⟩
        cases Option.mem_unique hx ha
        cases Option.mem_unique hy hb
        exact hab
      · exact forall_mem_cons.2 ⟨hp, ih⟩

/-- Runs that are not joined do not belong together. -/
theorem isChain_regroup (hn : [] ∉ ps) :
    (regroup r ps).IsChain (fun a b => ∃ ha hb, r (a.getLast ha) (b.head hb) = false) := by
  induction ps with
  | nil => exact List.IsChain.nil
  | cons p ps ih =>
    rw [mem_cons, not_or] at hn
    have ih := ih hn.2
    have hne := nil_notMem_regroup (r := r) hn.2
    rw [regroup]
    split
    · exact List.IsChain.singleton p
    next w ws hcons =>
      rw [hcons] at ih hne
      rw [mem_cons, not_or] at hne
      have hp : p ≠ [] := fun h => hn.1 h.symm
      have hw : w ≠ [] := fun h => hne.1 h.symm
      split
      next hj =>
        -- the joined run ends as `w` does
        rw [isChain_cons] at ih ⊢
        refine ⟨fun q hq => ?_, ih.2⟩
        obtain ⟨_, hb, h⟩ := ih.1 q hq
        refine ⟨append_ne_nil_of_right_ne_nil p hw, hb, ?_⟩
        rwa [getLast_append_of_right_ne_nil p w hw]
      next hj =>
        refine isChain_cons.2 ⟨fun q hq => ?_, ih⟩
        cases Option.mem_some.1 hq
        refine ⟨hp, hw, ?_⟩
        rw [Bool.eq_false_iff]
        intro h
        exact hj (joins_iff.2 ⟨_, getLast_mem_getLast? hp, _, head_mem_head? hw, h⟩)

theorem regroup_pieces (ds : List (List α)) : regroup r (pieces r ds) = ds.flatten.splitBy r := by
  have hflat : (pieces r ds).flatten = ds.flatten := by
    induction ds with
    | nil => rfl
    | cons d ds ih =>
      rw [pieces, flatMap_cons, flatten_append, flatten_splitBy, flatten_cons]
      exact congrArg (d ++ ·) ih
  have hn : [] ∉ pieces r ds := by
    rw [pieces, mem_flatMap]
    rintro ⟨d, -, h⟩
    exact nil_notMem_splitBy r d h
  symm
  rw [splitBy_eq_iff]
  refine ⟨?_, nil_notMem_regroup hn, isChain_of_mem_regroup ?_, isChain_regroup hn⟩
  · rw [flatten_regroup, hflat]
  · intro p hp
    obtain ⟨d, -, h⟩ := mem_flatMap.1 hp
    exact isChain_of_mem_splitBy h

theorem foldlM_pieces {m : Type → Type} [Monad m] [LawfulMonad m] (f : σ → List α → m σ) (s : σ) (ds : List (List α)) :
    ds.foldlM (fun s d => (d.splitBy r).foldlM f s) s = (pieces r ds).foldlM f s := by
  induction ds generalizing s with
  | nil => rfl
  | cons d ds ih =>
    rw [pieces, flatMap_cons, foldlM_append, foldlM_cons]
    exact bind_congr (fun t => ih t)

/-! ### A process on runs -/

section process

/-- The process takes all the runs: `admits` is asked before each, `next` is the state after it. -/
def All (admits : σ → List α → Prop) (next : σ → List α → σ) : σ → List (List α) → Prop
  | _, [] => True
  | s, g :: gs => admits s g ∧ All admits next (next s g) gs

variable (r) in
/-- Each run that is joined with what comes behind it satisfies `clean`. -/
def Joints (clean : List α → List α → Prop) : List (List α) → Prop
  | [] => True
  | p :: ps => Joints clean ps ∧ ∀ w ∈ (regroup r ps).head?, joins r p w = true → clean p w

variable {admits : σ → List α → Prop} {next : σ → List α → σ} {clean : List α → List α → Prop}

/-- The pieces are taken if and only if the whole is and the joints are clean. -/
theorem all_regroup
    (hnext : ∀ s p w, p.IsChain (r · ·) → w.IsChain (r · ·) → joins r p w = true → next (next s p) w = next s (p ++ w))
    (hcut : ∀ s p w, p.IsChain (r · ·) → w.IsChain (r · ·) → joins r p w = true →
      (admits s p ∧ admits (next s p) w ↔ admits s (p ++ w) ∧ clean p w))
    (s : σ) {ps : List (List α)} (hc : ∀ p ∈ ps, p.IsChain (r · ·)) :
    (All admits next s ps ↔ All admits next s (regroup r ps) ∧ Joints r clean ps) ∧
      ps.foldl next s = (regroup r ps).foldl next s := by
  induction ps generalizing s with
  | nil => simp [All, Joints, regroup]
  | cons p ps ih =>
    obtain ⟨ihall, ihfold⟩ := ih (next s p) (fun q hq => hc q (mem_cons_of_mem p hq))
    have hp := hc p mem_cons_self
    have hws := isChain_of_mem_regroup (fun q hq => hc q (mem_cons_of_mem p hq))
    rw [All, ihall, Joints, regroup, foldl_cons, ihfold]
    split
    next hnil => simp [hnil, All]
    next w ws hcons =>
      rw [hcons] at hws
      have hw := hws w mem_cons_self
      simp only [hcons, head?_cons, Option.mem_some, forall_eq']
      by_cases hj : joins r p w = true
      · have hcut := hcut s p w hp hw hj
        rw [if_pos hj]
        simp only [All, foldl_cons, hnext s p w hp hw hj, and_true]
        tauto
      rw [if_neg hj]
      simp only [All, foldl_cons, and_true]
      tauto

theorem all_map {τ : Type} {proj : σ → τ} {admits' : τ → List α → Prop} {next' : τ → List α → τ}
    (h : ∀ s g, proj (next s g) = next' (proj s) g) (s : σ) (gs : List (List α)) :
    All (fun s => admits' (proj s)) next s gs ↔ All admits' next' (proj s) gs := by
  induction gs generalizing s with
  | nil => exact Iff.rfl
  | cons g gs ih => rw [All, All, ih, h]

end process

end Runs
