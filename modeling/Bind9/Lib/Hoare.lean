import Mathlib.Tactic

/-! # Programs that keep their state when they fail

Rules of pre- and postconditions for `EStateM`: a program returns a value or fails, and what it did to the state until
then stays.  A triple has one postcondition for each of the two ends.

A loop that passes its state along in `Except` has an invariant rule for the runs that end well. -/

namespace Hoare

variable {ε σ α β : Type}

/-- From every state with `P`, a return ends in `Q` and a failure in `E`. -/
def Triple (P : σ → Prop) (x : EStateM ε σ α) (Q : α → σ → Prop) (E : ε → σ → Prop) : Prop :=
  ∀ s, P s → (∀ a s', x s = .ok a s' → Q a s') ∧ ∀ e s', x s = .error e s' → E e s'

namespace Triple

variable {P P' : σ → Prop} {Q Q' : α → σ → Prop} {E E' : ε → σ → Prop} {x : EStateM ε σ α}

theorem pure {a : α} (h : ∀ s, P s → Q a s) : Triple P (Pure.pure a : EStateM ε σ α) Q E := by
  intro s hs
  constructor
  · intro b s' hx
    cases hx
    exact h s hs
  · intro e s' hx
    cases hx

theorem throw {e : ε} (h : ∀ s, P s → E e s) : Triple P (MonadExcept.throw e : EStateM ε σ α) Q E := by
  intro s hs
  constructor
  · intro b s' hx
    cases hx
  · intro e' s' hx
    cases hx
    exact h s hs

theorem bind {R : β → σ → Prop} {y : EStateM ε σ β} {f : β → EStateM ε σ α} (hy : Triple P y R E)
    (hf : ∀ b, Triple (R b) (f b) Q E) : Triple P (y >>= f) Q E := by
  intro s hs
  obtain ⟨hok, herr⟩ := hy s hs
  have hrun : (y >>= f) s = EStateM.bind y f s := rfl
  rw [hrun, EStateM.bind]
  cases hy : y s with
  | ok b s1 => exact hf b s1 (hok b s1 hy)
  | error e s1 =>
    constructor
    · intro a s' hx
      cases hx
    · intro e' s' hx
      cases hx
      exact herr e s1 hy

/-- Reading the state: what follows runs from the state that was read. -/
theorem get_bind {f : σ → EStateM ε σ α} (h : ∀ s, P s → Triple (fun t => t = s) (f s) Q E) :
    Triple P (get >>= f) Q E := fun s hs => h s hs s rfl

theorem modify {f : σ → σ} {Q : Unit → σ → Prop} (h : ∀ s, P s → Q () (f s)) :
    Triple P (modify f : EStateM ε σ Unit) Q E := by
  intro s hs
  constructor
  · intro b s' hx
    cases hx
    exact h s hs
  · intro e s' hx
    cases hx

theorem ite {c : Prop} [Decidable c] {y : EStateM ε σ α} (hx : c → Triple P x Q E) (hy : ¬c → Triple P y Q E) :
    Triple P (if c then x else y) Q E := by
  split
  next h => exact hx h
  next h => exact hy h

theorem conseq (h : Triple P x Q E) (hP : ∀ s, P' s → P s) (hQ : ∀ a s, Q a s → Q' a s)
    (hE : ∀ e s, E e s → E' e s) : Triple P' x Q' E' := by
  intro s hs
  obtain ⟨hok, herr⟩ := h s (hP s hs)
  exact ⟨fun a s' hx => hQ a s' (hok a s' hx), fun e s' hx => hE e s' (herr e s' hx)⟩

theorem pre (h : Triple P x Q E) (hP : ∀ s, P' s → P s) : Triple P' x Q E :=
  h.conseq hP (fun _ _ => id) (fun _ _ => id)

/-- A fact about the start of the program. -/
theorem of_pre {p : Prop} (hp : ∀ s, P s → p) (h : p → Triple P x Q E) : Triple P x Q E :=
  fun s hs => h (hp s hs) s hs

end Triple

/-! ### Loops in `Except` -/

theorem foldlM_invariant {f : β → α → Except ε β} (I : β → Prop) : ∀ {l : List α} {b b' : β},
    (∀ a ∈ l, ∀ c c', I c → f c a = .ok c' → I c') → I b → l.foldlM f b = .ok b' → I b'
  | [], b, b', _, hb, h => by
    cases h
    exact hb
  | a :: l, b, b', hstep, hb, h => by
    rw [List.foldlM_cons] at h
    cases hc : f b a with
    | error e =>
      rw [hc] at h
      cases h
    | ok c =>
      rw [hc] at h
      apply foldlM_invariant I (b := c) _ _ h
      · exact fun x hx => hstep x (List.mem_cons_of_mem a hx)
      · exact hstep a List.mem_cons_self b c hb hc

/-- A loop of checks ends well only if each check does. -/
theorem forM_ok {f : α → Except ε PUnit} : ∀ {l : List α}, forM l f = .ok () → ∀ a ∈ l, f a = .ok ()
  | [], _, a, ha => by cases ha
  | b :: l, h, a, ha => by
    rw [List.forM_cons] at h
    cases hb : f b with
    | error e =>
      rw [hb] at h
      cases h
    | ok c =>
      rw [hb] at h
      obtain rfl | ha := List.mem_cons.1 ha
      · exact hb
      · exact forM_ok h a ha

end Hoare
