import Mathlib.Data.List.Basic
import Mathlib.Tactic

/-! # Chains of versions

Multi-version data keeps, for each item, a chain of entries with the newest first.  An entry carries
the serial number of the version that made it; entries of versions that were given up are ignored.

* `seen v c`: the entry of the chain `c` that version `v` sees.
* `seen_cons_of_lt`, `seen_map_mark`: what newer versions do to the chain is not seen.
* `seen_prune`: ignored entries and repeated serials can be dropped.
* `seen_of_head`: behind an entry that is old enough nothing is seen. -/

namespace VersionChain

open List

section seen
variable {H : Type*} (serial : H → ℕ) (ignored : H → Bool)

/-- The entry of a chain that version `v` sees. -/
def seen (v : ℕ) (c : List H) : Option H := c.find? (fun h => decide (serial h ≤ v) && !ignored h)

/-- Serials fall along the chain, and entries of one serial are ignored together. -/
structure Ordered (c : List H) : Prop where
  falls : c.Pairwise (fun a b => serial b ≤ serial a)
  together : ∀ a ∈ c, ∀ b ∈ c, serial a = serial b → ignored a = ignored b

/-- What is left behind the entry `p` without ignored entries and repeated serials. -/
def prune (p : H) : List H → List H
  | [] => []
  | d :: ds => if serial d = serial p ∨ ignored d = true then prune p ds else d :: prune d ds

variable {serial ignored} {v : ℕ} {h p : H} {c ds : List H}

theorem seen_cons_of_lt (hv : v < serial h) : seen serial ignored v (h :: c) = seen serial ignored v c := by
  unfold seen
  rw [find?_cons_of_neg (by simp [hv])]

theorem seen_cons_of_ignored (hi : ignored h = true) : seen serial ignored v (h :: c) = seen serial ignored v c := by
  unfold seen
  rw [find?_cons_of_neg (by simp [hi])]

theorem seen_of_head (hv : serial h ≤ v) (hi : ignored h = false) : seen serial ignored v (h :: c) = some h := by
  unfold seen
  rw [find?_cons_of_pos (by simp [hv, hi])]

/-- An entry that is too new or ignored is passed over. -/
theorem seen_cons_of_unseen (hu : ¬(serial h ≤ v ∧ ignored h = false)) :
    seen serial ignored v (h :: c) = seen serial ignored v c := by
  unfold seen
  rw [find?_cons_of_neg (by simpa using hu)]

theorem seen_mem (hs : seen serial ignored v c = some h) : h ∈ c ∧ serial h ≤ v ∧ ignored h = false := by
  have hp := find?_some hs
  simp only [Bool.and_eq_true, decide_eq_true_eq, Bool.not_eq_true'] at hp
  exact ⟨mem_of_find?_eq_some hs, hp⟩

theorem seen_congr {u : ℕ} (huv : ∀ h ∈ c, ignored h = false → (serial h ≤ u ↔ serial h ≤ v)) :
    seen serial ignored u c = seen serial ignored v c := by
  induction c with
  | nil => rfl
  | cons h c ih =>
    have ih := ih (fun x hx => huv x (mem_cons_of_mem _ hx))
    cases hi : ignored h with
    | true => rw [seen_cons_of_ignored hi, seen_cons_of_ignored hi, ih]
    | false =>
      have hiff := huv h mem_cons_self hi
      by_cases hu : serial h ≤ u
      · rw [seen_of_head hu hi, seen_of_head (hiff.1 hu) hi]
      · rw [seen_cons_of_lt (by omega), seen_cons_of_lt (by omega), ih]

theorem Ordered.of_sublist {c' : List H} (h : Ordered serial ignored c) (hsub : c'.Sublist c) : Ordered serial ignored c' :=
  ⟨h.falls.sublist hsub, fun a ha b hb => h.together a (hsub.mem ha) b (hsub.mem hb)⟩

theorem prune_sublist (serial : H → ℕ) (ignored : H → Bool) : ∀ (ds : List H) (p : H),
    (prune serial ignored p ds).Sublist ds
  | [], _ => Sublist.refl _
  | d :: ds, p => by
    rw [prune]
    split
    · exact (prune_sublist serial ignored ds p).cons d
    · exact (prune_sublist serial ignored ds d).cons_cons d
theorem prune_not_ignored (serial : H → ℕ) (ignored : H → Bool) : ∀ (ds : List H) (p : H),
    ∀ d ∈ prune serial ignored p ds, ignored d = false
  | d :: ds, p, x, hx => by
    rw [prune] at hx
    split at hx
    · exact prune_not_ignored serial ignored ds p x hx
    next hd =>
      rcases mem_cons.1 hx with rfl | hx
      · simpa using fun h => hd (Or.inr h)
      · exact prune_not_ignored serial ignored ds d x hx
/-- Ignored entries and repeated serials can be dropped. -/
theorem seen_prune : ∀ (ds : List H) (p : H), Ordered serial ignored (p :: ds) →
    seen serial ignored v (p :: prune serial ignored p ds) = seen serial ignored v (p :: ds)
  | [], _, _ => rfl
  | d :: ds, p, ho => by
    by_cases hp : serial p ≤ v ∧ ignored p = false
    · rw [seen_of_head hp.1 hp.2, seen_of_head hp.1 hp.2]
    have hpds : Ordered serial ignored (p :: ds) := ho.of_sublist ((sublist_cons_self d ds).cons_cons p)
    rw [prune]
    split
    · next hd =>
        have hskip : ¬(serial d ≤ v ∧ ignored d = false) := by
          rcases hd with hd | hd
          · rw [hd, ho.together d (by simp) p (by simp) hd]
            exact hp
          · simp [hd]
        rw [seen_prune ds p hpds, seen_cons_of_unseen hp, seen_cons_of_unseen hp, seen_cons_of_unseen hskip]
    · rw [seen_cons_of_unseen hp, seen_cons_of_unseen hp,
        seen_prune ds d (ho.of_sublist (sublist_cons_self p _))]

end seen

section marks
variable {H : Type*} {serial : H → ℕ} {ignored : H → Bool} {v s : ℕ} {mark : H → H}

theorem seen_map_mark (hkeep : ∀ h, serial h ≠ s → mark h = h) (hserial : ∀ h, serial (mark h) = serial h)
    (hv : v < s) : ∀ c : List H, seen serial ignored v (c.map mark) = seen serial ignored v c
  | [] => rfl
  | h :: c => by
    rw [map_cons]
    by_cases hs : serial h = s
    · rw [seen_cons_of_lt (by rw [hserial]; omega), seen_cons_of_lt (by omega), seen_map_mark hkeep hserial hv c]
    rw [hkeep h hs]
    unfold seen
    rw [find?_cons, find?_cons]
    split
    · rfl
    · exact seen_map_mark hkeep hserial hv c
end marks

end VersionChain
