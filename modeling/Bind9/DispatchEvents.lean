import Bind9.Dispatch

/-! # Where the events are

An event is in the pool, or is the failsafe event of a dispatch, or is with an entry: out, or queued behind the one that is
out.  `View` is what matters for this, `Move` are the ways in which it changes, and `Valid` is what they keep: entries differ in
peer, id and port, an entry has one event out at most, a packet is with an entry that it answers, and the failsafe event of a
dispatch goes to an entry of this dispatch. -/

namespace Bind9.Dispatch

open Function

/-- What an entry waits for. -/
structure Key where
  host : SockAddr
  id : ℕ
  port : ℕ
deriving DecidableEq, Repr

/-- The packet is a response from the peer with the id. -/
def Key.accepts (key : Key) (p : Packet) : Prop :=
  p.address = key.host ∧ ∃ flags, peekheader p.data = some (key.id, flags) ∧ isResponse flags = true

structure View (D E V : Type) where
  entry : E → Option (D × Key)
  out : V → E → Prop
  item : V → E → Prop
  itemOut : E → Bool
  failsafe : D → Option V
  shutdownOut : D → Bool
  event : V → Option Content
  received : ℕ

set_option linter.unusedSectionVars false

variable {D E V : Type} [DecidableEq D] [DecidableEq E] [DecidableEq V]

/-- What may be sent to an entry. -/
def View.mayGet (v : View D E V) (key : Key) : Content → Prop
  | .packet number p => key.accepts p ∧ number < v.received ∧ ∀ x p', v.event x ≠ some (.packet number p')
  | .failsafe => False
  | _ => True

inductive Move (v : View D E V) : View D E V → Prop
  | insert (e : E) (d : D) (key : Key) : v.entry e = none → (∃ x, v.failsafe d = some x) →
      (∀ e' d', v.entry e' ≠ some (d', key)) → Move v { v with entry := update v.entry e (some (d, key)) }
  | send (x : V) (e : E) (d : D) (key : Key) (c : Content) : v.event x = none → v.entry e = some (d, key) →
      v.itemOut e = false → v.mayGet key c →
      Move v { v with
        event := update v.event x (some c)
        out := fun x' e' => v.out x' e' ∨ x' = x ∧ e' = e
        itemOut := update v.itemOut e true }
  | queue (x : V) (e : E) (d : D) (key : Key) (c : Content) : v.event x = none → v.entry e = some (d, key) →
      v.itemOut e = true → v.mayGet key c →
      Move v { v with
        event := update v.event x (some c)
        item := fun x' e' => v.item x' e' ∨ x' = x ∧ e' = e }
  | cancel (x : V) (e : E) (d : D) (key : Key) : v.failsafe d = some x → v.entry e = some (d, key) → v.itemOut e = false →
      v.shutdownOut d = false →
      Move v { v with
        event := update v.event x (some .failsafe)
        out := fun x' e' => v.out x' e' ∨ x' = x ∧ e' = e
        itemOut := update v.itemOut e true
        shutdownOut := update v.shutdownOut d true }
  /-- The entry goes, and its events with it. -/
  | remove (e : E) (d : D) (key : Key) (event : V → Option Content) (shutdownOut : Bool) : v.entry e = some (d, key) →
      (∀ x, event x = none ↔ v.event x = none ∨ (v.out x e ∨ v.item x e) ∧ v.failsafe d ≠ some x) →
      (∀ x c, event x = some c → v.event x = some c) →
      (shutdownOut = true ↔ v.shutdownOut d = true ∧ ∀ x, v.failsafe d = some x → ¬ v.out x e) →
      Move v { v with
        entry := update v.entry e none
        event := event
        out := fun x' e' => v.out x' e' ∧ e' ≠ e
        item := fun x' e' => v.item x' e' ∧ e' ≠ e
        itemOut := update v.itemOut e false
        shutdownOut := update v.shutdownOut d shutdownOut }
  | create (d : D) (x : V) : v.failsafe d = none → v.event x = none →
      Move v { v with
        failsafe := update v.failsafe d (some x)
        event := update v.event x (some .failsafe)
        shutdownOut := update v.shutdownOut d false }
  | destroy (d : D) (x : V) : v.failsafe d = some x → (∀ e d' key, v.entry e = some (d', key) → d' ≠ d) →
      Move v { v with
        failsafe := update v.failsafe d none
        event := update v.event x none
        shutdownOut := update v.shutdownOut d false }
  | tick : Move v { v with received := v.received + 1 }

structure Valid (v : View D E V) : Prop where
  key : ∀ e e' d d' k, v.entry e = some (d, k) → v.entry e' = some (d', k) → e = e'
  disp : ∀ e d k, v.entry e = some (d, k) → ∃ x, v.failsafe d = some x
  out_entry : ∀ x e e', v.out x e → v.out x e' → e = e'
  out_event : ∀ x x' e, v.out x e → v.out x' e → x = x'
  out_live : ∀ x e, v.out x e → ∃ d k, v.entry e = some (d, k)
  item_out : ∀ e, v.itemOut e = true ↔ ∃ x, v.out x e
  item_entry : ∀ x e e', v.item x e → v.item x e' → e = e'
  item_behind : ∀ x e, v.item x e → v.itemOut e = true
  item_not_out : ∀ x e e', v.item x e → ¬ v.out x e'
  failsafe_inj : ∀ x d d', v.failsafe d = some x → v.failsafe d' = some x → d = d'
  failsafe_own : ∀ x d e, v.failsafe d = some x → v.out x e → ∃ k, v.entry e = some (d, k)
  failsafe_out : ∀ x d, v.failsafe d = some x → (v.shutdownOut d = true ↔ ∃ e, v.out x e)
  failsafe_item : ∀ x d e, v.failsafe d = some x → ¬ v.item x e
  failsafe_event : ∀ x d, v.failsafe d = some x → v.event x = some .failsafe
  event : ∀ x, v.event x ≠ none ↔ (∃ d, v.failsafe d = some x) ∨ (∃ e, v.out x e) ∨ ∃ e, v.item x e
  packet : ∀ x e n p d k, v.out x e ∨ v.item x e → v.event x = some (.packet n p) → v.entry e = some (d, k) → k.accepts p
  number : ∀ x n p, v.event x = some (.packet n p) → n < v.received
  number_inj : ∀ x x' n p p', v.event x = some (.packet n p) → v.event x' = some (.packet n p') → x = x'

section valid

variable {v : View D E V}

/-- An event in the pool is nowhere else. -/
theorem Valid.fresh (h : Valid v) {x : V} (hx : v.event x = none) :
    (∀ d, v.failsafe d ≠ some x) ∧ (∀ e, ¬ v.out x e) ∧ ∀ e, ¬ v.item x e := by
  have hnot : ¬ ((∃ d, v.failsafe d = some x) ∨ (∃ e, v.out x e) ∨ ∃ e, v.item x e) :=
    fun hplace => (h.event x).2 hplace hx
  exact ⟨fun d hd => hnot (Or.inl ⟨d, hd⟩), fun e he => hnot (Or.inr (Or.inl ⟨e, he⟩)),
    fun e he => hnot (Or.inr (Or.inr ⟨e, he⟩))⟩

/-- An entry that is free has no events. -/
theorem Valid.nothing (h : Valid v) {e : E} (he : v.entry e = none) : (∀ x, ¬ v.out x e) ∧ ∀ x, ¬ v.item x e := by
  have hout : ∀ x, ¬ v.out x e := by
    intro x hx
    obtain ⟨d, k, hk⟩ := h.out_live x e hx
    cases he.symm.trans hk
  refine ⟨hout, fun x hx => ?_⟩
  obtain ⟨y, hy⟩ := (h.item_out e).1 (h.item_behind x e hx)
  exact hout y hy

theorem update_event_cases {x x' : V} {c c' : Content} (h : update v.event x (some c) x' = some c') :
    x' = x ∧ c = c' ∨ x' ≠ x ∧ v.event x' = some c' := by
  by_cases hxx : x' = x
  · subst hxx
    rw [update_self] at h
    exact .inl ⟨rfl, Option.some.inj h⟩
  · rw [update_of_ne hxx] at h
    exact .inr ⟨hxx, h⟩

variable {x : V} {key : Key} {c : Content}

theorem Valid.numbers (h : Valid v) (hc : v.mayGet key c) :
    (∀ x' n p, update v.event x (some c) x' = some (.packet n p) → n < v.received) ∧
    ∀ x1 x2 n p p', update v.event x (some c) x1 = some (.packet n p) →
      update v.event x (some c) x2 = some (.packet n p') → x1 = x2 := by
  refine ⟨fun x' n p hx' => ?_, fun x1 x2 n p p' h1 h2 => ?_⟩
  · obtain ⟨-, rfl⟩ | ⟨-, hold⟩ := update_event_cases hx'
    · exact hc.2.1
    · exact h.number x' n p hold
  · obtain ⟨hx1, hc1⟩ | ⟨-, hold1⟩ := update_event_cases h1
    · obtain ⟨hx2, -⟩ | ⟨-, hold2⟩ := update_event_cases h2
      · exact hx1.trans hx2.symm
      · rw [hc1] at hc
        exact absurd hold2 (hc.2.2 x2 p')
    · obtain ⟨-, hc2⟩ | ⟨-, hold2⟩ := update_event_cases h2
      · rw [hc2] at hc
        exact absurd hold1 (hc.2.2 x1 p)
      · exact h.number_inj x1 x2 n p p' hold1 hold2

theorem Valid.insert (h : Valid v) {e : E} {d : D} {key : Key} (he : v.entry e = none)
    (hd : ∃ x, v.failsafe d = some x) (hkey : ∀ e' d', v.entry e' ≠ some (d', key)) :
    Valid { v with entry := update v.entry e (some (d, key)) } := by
  obtain ⟨hout, hitem⟩ := h.nothing he
  have hne : ∀ {x e'}, v.out x e' ∨ v.item x e' → e' ≠ e := by
    rintro x e' (hx | hx) rfl
    · exact hout x hx
    · exact hitem x hx
  refine ⟨?_, ?_, h.out_entry, h.out_event, fun x e' hx => ?_, h.item_out, h.item_entry, h.item_behind, h.item_not_out,
    h.failsafe_inj, fun x d' e' hx hx' => ?_, h.failsafe_out, h.failsafe_item, h.failsafe_event, h.event,
    fun x e' n p d' k hx hc hk => ?_, h.number, h.number_inj⟩
  · intro e1 e2 d1 d2 k h1 h2
    have hkey1 := h.key e1 e2 d1 d2 k
    grind [update_apply]
  · intro e1 d1 k h1
    have hdisp := h.disp e1 d1 k
    grind [update_apply]
  · simp only [update_of_ne (hne (Or.inl hx))]
    exact h.out_live x e' hx
  · simp only [update_of_ne (hne (Or.inl hx'))]
    exact h.failsafe_own x d' e' hx hx'
  · simp only [update_of_ne (hne hx)] at hk
    exact h.packet x e' n p d' k hx hc hk

variable {d : D}

theorem Valid.send (h : Valid v) {e : E} (hx : v.event x = none)
    (he : v.entry e = some (d, key)) (hout : v.itemOut e = false) (hc : v.mayGet key c) :
    Valid { v with
      event := update v.event x (some c)
      out := fun x' e' => v.out x' e' ∨ x' = x ∧ e' = e
      itemOut := update v.itemOut e true } := by
  obtain ⟨hfailsafe, hnout, hnitem⟩ := h.fresh hx
  have hnone : ∀ y, ¬ v.out y e := by
    intro y hy
    have htrue := (h.item_out e).2 ⟨y, hy⟩
    rw [hout] at htrue
    cases htrue
  refine ⟨h.key, h.disp, ?_, ?_, ?_, ?_, h.item_entry, ?_, ?_, h.failsafe_inj, ?_, ?_, h.failsafe_item, ?_, ?_, ?_, ?_, ?_⟩
  · grind [h.out_entry]
  · grind [h.out_event]
  · grind [h.out_live]
  · grind [h.item_out, update_apply]
  · grind [h.item_behind, update_apply]
  · grind [h.item_not_out]
  · grind [h.failsafe_own]
  · have hold := h.failsafe_out
    grind
  · grind [h.failsafe_event, update_apply]
  · grind [h.event, update_apply]
  · intro x' e' n p d' k hx' hcontent hk
    obtain ⟨rfl, rfl⟩ | ⟨hne, hold⟩ := update_event_cases hcontent
    · have hkey : k = key := by grind
      exact hkey ▸ hc.1
    · exact h.packet x' e' n p d' k (by grind) hold hk
  · exact (h.numbers hc).1
  · exact (h.numbers hc).2

theorem Valid.queue (h : Valid v) {e : E} (hx : v.event x = none)
    (he : v.entry e = some (d, key)) (hout : v.itemOut e = true) (hc : v.mayGet key c) :
    Valid { v with
      event := update v.event x (some c)
      item := fun x' e' => v.item x' e' ∨ x' = x ∧ e' = e } := by
  obtain ⟨hfailsafe, hnout, hnitem⟩ := h.fresh hx
  refine ⟨h.key, h.disp, h.out_entry, h.out_event, h.out_live, h.item_out, ?_, ?_, ?_, h.failsafe_inj, h.failsafe_own,
    h.failsafe_out, ?_, ?_, ?_, ?_, ?_, ?_⟩
  · grind [h.item_entry]
  · grind [h.item_behind]
  · grind [h.item_not_out]
  · grind [h.failsafe_item]
  · grind [h.failsafe_event, update_apply]
  · grind [h.event, update_apply]
  · intro x' e' n p d' k hx' hcontent hk
    obtain ⟨rfl, rfl⟩ | ⟨hne, hold⟩ := update_event_cases hcontent
    · have hkey : k = key := by grind
      exact hkey ▸ hc.1
    · exact h.packet x' e' n p d' k (by grind) hold hk
  · exact (h.numbers hc).1
  · exact (h.numbers hc).2

theorem Valid.cancel (h : Valid v) {e : E} (hx : v.failsafe d = some x)
    (he : v.entry e = some (d, key)) (hout : v.itemOut e = false) (hshut : v.shutdownOut d = false) :
    Valid { v with
      event := update v.event x (some .failsafe)
      out := fun x' e' => v.out x' e' ∨ x' = x ∧ e' = e
      itemOut := update v.itemOut e true
      shutdownOut := update v.shutdownOut d true } := by
  have hevent : update v.event x (some .failsafe) = v.event := by
    rw [← h.failsafe_event x d hx, update_eq_self]
  have hnone : ∀ y, ¬ v.out y e := by
    intro y hy
    have htrue := (h.item_out e).2 ⟨y, hy⟩
    rw [hout] at htrue
    cases htrue
  have hidle : ∀ e', ¬ v.out x e' := by
    intro e' he'
    have htrue := (h.failsafe_out x d hx).2 ⟨e', he'⟩
    rw [hshut] at htrue
    cases htrue
  rw [hevent]
  refine ⟨h.key, h.disp, ?_, ?_, ?_, ?_, h.item_entry, ?_, ?_, h.failsafe_inj, ?_, ?_, h.failsafe_item, h.failsafe_event, ?_,
    ?_, h.number, h.number_inj⟩
  · grind [h.out_entry]
  · grind [h.out_event]
  · grind [h.out_live]
  · grind [h.item_out, update_apply]
  · grind [h.item_behind, update_apply]
  · grind [h.item_not_out, h.failsafe_item]
  · grind [h.failsafe_own, h.failsafe_inj]
  · have hold := h.failsafe_out
    grind [h.failsafe_inj, update_apply]
  · grind [h.event]
  · grind [h.packet, h.failsafe_event]

theorem Valid.remove (h : Valid v) {e : E} {d : D} {key : Key} {event : V → Option Content} {shutdownOut : Bool}
    (he : v.entry e = some (d, key))
    (hevent : ∀ x, event x = none ↔ v.event x = none ∨ (v.out x e ∨ v.item x e) ∧ v.failsafe d ≠ some x)
    (hsame : ∀ x c, event x = some c → v.event x = some c)
    (hshut : shutdownOut = true ↔ v.shutdownOut d = true ∧ ∀ x, v.failsafe d = some x → ¬ v.out x e) :
    Valid { v with
      entry := update v.entry e none
      event := event
      out := fun x' e' => v.out x' e' ∧ e' ≠ e
      item := fun x' e' => v.item x' e' ∧ e' ≠ e
      itemOut := update v.itemOut e false
      shutdownOut := update v.shutdownOut d shutdownOut } := by
  have hentry : ∀ {e' d' k}, update v.entry e none e' = some (d', k) → v.entry e' = some (d', k) ∧ e' ≠ e := by
    intro e' d' k hk
    by_cases hee : e' = e
    · subst hee
      rw [update_self] at hk
      cases hk
    · rw [update_of_ne hee] at hk
      exact ⟨hk, hee⟩
  -- the failsafe event of another dispatch is not at the entry
  have hown : ∀ {x d'}, v.failsafe d' = some x → v.out x e → d' = d := by
    intro x d' hd' hx
    obtain ⟨k, hk⟩ := h.failsafe_own x d' e hd' hx
    exact congrArg Prod.fst (Option.some.inj (hk.symm.trans he))
  refine ⟨fun e1 e2 d1 d2 k h1 h2 => h.key e1 e2 d1 d2 k (hentry h1).1 (hentry h2).1,
    fun e1 d1 k h1 => h.disp e1 d1 k (hentry h1).1, fun x e1 e2 h1 h2 => h.out_entry x e1 e2 h1.1 h2.1,
    fun x x' e1 h1 h2 => h.out_event x x' e1 h1.1 h2.1, fun x e1 h1 => ?_, ?_,
    fun x e1 e2 h1 h2 => h.item_entry x e1 e2 h1.1 h2.1, ?_, fun x e1 e2 h1 h2 => h.item_not_out x e1 e2 h1.1 h2.1,
    h.failsafe_inj, fun x d1 e1 hd1 h1 => ?_, ?_, fun x d1 e1 hd1 h1 => h.failsafe_item x d1 e1 hd1 h1.1, ?_, ?_,
    fun x e1 n p d1 k hx hc hk => ?_, fun x n p hc => h.number x n p (hsame x _ hc),
    fun x x' n p p' hc hc' => h.number_inj x x' n p p' (hsame x _ hc) (hsame x' _ hc')⟩
  · simp only [update_of_ne h1.2]
    exact h.out_live x e1 h1.1
  · grind [h.item_out, update_apply]
  · grind [h.item_behind, update_apply]
  · simp only [update_of_ne h1.2]
    exact h.failsafe_own x d1 e1 hd1 h1.1
  · intro x d1 hd1
    have hold := h.failsafe_out x d1 hd1
    have hout := h.out_entry x
    by_cases hd : d1 = d
    · subst hd
      simp only [update_self]
      grind
    · simp only [update_of_ne hd]
      grind
  · intro x d1 hd1
    have hsome := h.failsafe_event x d1 hd1
    cases hx : event x with
    | some c =>
      exact hx.trans ((hsame x c hx).symm.trans hsome)
    | none =>
      obtain hnone | ⟨hplace, hne⟩ := (hevent x).1 hx
      · cases hnone.symm.trans hsome
      obtain hplace | hplace := hplace
      · rw [hown hd1 hplace] at hd1
        exact absurd hd1 hne
      · exact absurd hplace (h.failsafe_item x d1 e hd1)
  · intro x
    constructor
    · intro hx
      have hnot : ¬ (v.event x = none ∨ (v.out x e ∨ v.item x e) ∧ v.failsafe d ≠ some x) := fun hg => hx ((hevent x).2 hg)
      obtain ⟨hsome, hkept⟩ := not_or.1 hnot
      obtain hd | ⟨e', he'⟩ | ⟨e', he'⟩ := (h.event x).1 hsome
      · exact .inl hd
      · by_cases hee : e' = e
        · subst hee
          exact .inl ⟨d, by_contra fun hne => hkept ⟨Or.inl he', hne⟩⟩
        · exact .inr (.inl ⟨e', he', hee⟩)
      · by_cases hee : e' = e
        · subst hee
          exact .inl ⟨d, by_contra fun hne => hkept ⟨Or.inr he', hne⟩⟩
        · exact .inr (.inr ⟨e', he', hee⟩)
    · intro hplace hx
      have hsome : v.event x ≠ none :=
        (h.event x).2 (hplace.imp id (Or.imp (fun ⟨e', he'⟩ => ⟨e', he'.1⟩) (fun ⟨e', he'⟩ => ⟨e', he'.1⟩)))
      obtain hnone | ⟨hgone, hne⟩ := (hevent x).1 hx
      · exact hsome hnone
      obtain ⟨d', hd'⟩ | ⟨e', he', hee⟩ | ⟨e', he', hee⟩ := hplace
      · obtain hgone | hgone := hgone
        · exact hne (hown hd' hgone ▸ hd')
        · exact h.failsafe_item x d' e hd' hgone
      · obtain hgone | hgone := hgone
        · exact hee (h.out_entry x e' e he' hgone)
        · exact h.item_not_out x e e' hgone he'
      · obtain hgone | hgone := hgone
        · exact h.item_not_out x e' e he' hgone
        · exact hee (h.item_entry x e' e he' hgone)
  · exact h.packet x e1 n p d1 k (hx.imp And.left And.left) (hsame x _ hc) (hentry hk).1

theorem exists_update_failsafe {o : Option V} (hold : v.failsafe d ≠ some x) (hnew : o ≠ some x) :
    (∃ a, update v.failsafe d o a = some x) ↔ ∃ a, v.failsafe a = some x := by
  apply exists_congr
  intro a
  by_cases ha : a = d
  · subst ha
    rw [update_self]
    exact ⟨fun h => absurd h hnew, fun h => absurd h hold⟩
  · rw [update_of_ne ha]

theorem Valid.create (h : Valid v) (hd : v.failsafe d = none) (hx : v.event x = none) :
    Valid { v with
      failsafe := update v.failsafe d (some x)
      event := update v.event x (some .failsafe)
      shutdownOut := update v.shutdownOut d false } := by
  obtain ⟨hfailsafe, hnout, hnitem⟩ := h.fresh hx
  refine ⟨h.key, ?_, h.out_entry, h.out_event, h.out_live, h.item_out, h.item_entry, h.item_behind, h.item_not_out, ?_, ?_, ?_,
    ?_, ?_, ?_, ?_, ?_, ?_⟩
  · grind [h.disp, update_apply]
  · grind [h.failsafe_inj, update_apply]
  · grind [h.failsafe_own, update_apply]
  · have hold := h.failsafe_out
    grind [update_apply]
  · grind [h.failsafe_item, update_apply]
  · grind [h.failsafe_event, update_apply]
  · intro x'
    by_cases hxx : x' = x
    · subst hxx
      simp only [update_self]
      exact ⟨fun _ => Or.inl ⟨d, update_self ..⟩, fun _ hnone => by cases hnone⟩
    simp only [update_of_ne hxx]
    rw [h.event x', exists_update_failsafe]
    · rw [hd]
      exact fun heq => by cases heq
    · exact fun heq => hxx (Option.some.inj heq).symm
  · grind [h.packet, update_apply]
  · have hold := h.number
    grind [update_apply]
  · grind [h.number_inj, update_apply]

theorem Valid.destroy (h : Valid v) (hd : v.failsafe d = some x)
    (hentry : ∀ e d' key, v.entry e = some (d', key) → d' ≠ d) :
    Valid { v with
      failsafe := update v.failsafe d none
      event := update v.event x none
      shutdownOut := update v.shutdownOut d false } := by
  -- its failsafe event is not out since there is no entry of it
  have hidle : ∀ e, ¬ v.out x e := by
    intro e he
    obtain ⟨k, hk⟩ := h.failsafe_own x d e hd he
    exact hentry e d k hk rfl
  have hnitem := fun e => h.failsafe_item x d e hd
  refine ⟨h.key, ?_, h.out_entry, h.out_event, h.out_live, h.item_out, h.item_entry, h.item_behind, h.item_not_out, ?_, ?_, ?_,
    ?_, ?_, ?_, ?_, ?_, ?_⟩
  · grind [h.disp, update_apply]
  · grind [h.failsafe_inj, update_apply]
  · grind [h.failsafe_own, update_apply]
  · have hold := h.failsafe_out
    grind [update_apply]
  · grind [h.failsafe_item, update_apply]
  · grind [h.failsafe_event, h.failsafe_inj, update_apply]
  · intro x'
    by_cases hxx : x' = x
    · subst hxx
      simp only [update_self]
      grind [h.failsafe_inj, update_apply]
    simp only [update_of_ne hxx]
    rw [h.event x', exists_update_failsafe]
    · rw [hd]
      exact fun heq => hxx (Option.some.inj heq).symm
    · exact fun heq => by cases heq
  · grind [h.packet, update_apply]
  · have hold := h.number
    grind [update_apply]
  · grind [h.number_inj, update_apply]

theorem Valid.move (h : Valid v) {v' : View D E V} (hm : Move v v') : Valid v' := by
  cases hm with
  | insert e d key he hd hkey => exact h.insert he hd hkey
  | send x e d key c hx he hout hc => exact h.send hx he hout hc
  | queue x e d key c hx he hout hc => exact h.queue hx he hout hc
  | cancel x e d key hx he hout hshut => exact h.cancel hx he hout hshut
  | remove e d key event shutdownOut he hevent hsame hshut => exact h.remove he hevent hsame hshut
  | create d x hd hx => exact h.create hd hx
  | destroy d x hd hentry => exact h.destroy hd hentry
  | tick =>
    refine ⟨h.key, h.disp, h.out_entry, h.out_event, h.out_live, h.item_out, h.item_entry, h.item_behind, h.item_not_out,
      h.failsafe_inj, h.failsafe_own, h.failsafe_out, h.failsafe_item, h.failsafe_event, h.event, h.packet,
      fun x n p hc => ?_, h.number_inj⟩
    exact Nat.lt_succ_of_lt (h.number x n p hc)

end valid

end Bind9.Dispatch
