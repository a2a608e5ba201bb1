import Mathlib.Data.List.Basic

/-! # Enumerations

An iterator is a state with an operation `current` that looks at an item and an operation `next` that moves on and says whether there is
another item.  `Enumerates` holds for a run that ends, with the items it has looked at; a run that fails has no such items. -/

namespace Enumeration

variable {σ α ρ ε : Type}

/-- The run from the state `s`, where the last answer was `r`, ends after looking at the items. -/
inductive Enumerates (current : σ → Except ε α) (next : σ → Except ε (ρ × σ)) (success nomore : ρ) : ρ → σ → List α → Prop
  | done (s : σ) : Enumerates current next success nomore nomore s []
  | item {s s' : σ} {a : α} {r : ρ} {as : List α} (hcurrent : current s = .ok a) (hnext : next s = .ok (r, s'))
      (h : Enumerates current next success nomore r s' as) : Enumerates current next success nomore success s (a :: as)

variable {current : σ → Except ε α} {next : σ → Except ε (ρ × σ)} {success nomore : ρ}

namespace Enumerates

theorem done_iff (hne : success ≠ nomore) {s : σ} {as : List α} : Enumerates current next success nomore nomore s as ↔ as = [] := by
  constructor
  · generalize hr : nomore = r
    intro h
    cases h with
    | done => rfl
    | item => exact absurd hr.symm hne
  · rintro rfl
    exact .done s

theorem item_iff (hne : success ≠ nomore) {s : σ} {as : List α} : Enumerates current next success nomore success s as ↔
    ∃ a r s' as', current s = .ok a ∧ next s = .ok (r, s') ∧ Enumerates current next success nomore r s' as' ∧ as = a :: as' := by
  constructor
  · generalize hr : success = r
    intro h
    cases h with
    | done => exact absurd hr hne
    | item hcurrent hnext h => exact ⟨_, _, _, _, hcurrent, hnext, h, rfl⟩
  · rintro ⟨a, r, s', as', hcurrent, hnext, h, rfl⟩
    exact .item hcurrent hnext h

end Enumerates

end Enumeration
