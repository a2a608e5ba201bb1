import Mathlib.Logic.Function.Basic
import Mathlib.Tactic

/-! # Absolute times and intervals

`lib/isc/unix/time.c`.  Seconds are 32 bits wide and wrap as the C type does; the nanoseconds of a
time that the library has built are below 10^9, which its `INSIST`s check.  Times are read and
written through pointers, so that `result` may be the operand itself. -/

namespace Bind9.IscTime

open Function

inductive Result where
  | range
  | unexpected
deriving DecidableEq, Repr

def NS_PER_S : ℕ := 1000000000
def NS_PER_US : ℕ := 1000
def US_PER_S : ℤ := 1000000

def INT_MAX : ℕ := 2 ^ 31 - 1
def UINT_MAX : ℕ := 2 ^ 32 - 1

@[ext]
structure Time where
  seconds : ℕ
  nanoseconds : ℕ
deriving DecidableEq, Repr

/-- 32-bit seconds, and nanoseconds below one second. -/
structure Time.Normalised (t : Time) : Prop where
  seconds : t.seconds < 2 ^ 32
  nanoseconds : t.nanoseconds < NS_PER_S

instance (t : Time) : Decidable t.Normalised :=
  decidable_of_iff (t.seconds < 2 ^ 32 ∧ t.nanoseconds < NS_PER_S) ⟨fun h => ⟨h.1, h.2⟩, fun h => ⟨h.1, h.2⟩⟩

def Time.total (t : Time) : ℕ := t.seconds * NS_PER_S + t.nanoseconds

/-! ### The functions -/

/-- The test in front of both additions; `sec` is the exact value of `tv_sec` or `t->seconds`. -/
def overflows (sec : ℤ) (i : Time) : Prop :=
  (sec > INT_MAX ∨ i.seconds > INT_MAX) ∧ sec + i.seconds > UINT_MAX

instance (sec : ℤ) (i : Time) : Decidable (overflows sec i) := inferInstanceAs (Decidable (_ ∧ _))

def Time.carry (t : Time) : Time :=
  if NS_PER_S ≤ t.nanoseconds then ⟨(t.seconds + 1) % 2 ^ 32, t.nanoseconds - NS_PER_S⟩ else t

section pointers

variable {P : Type*} [DecidableEq P]

/-- `isc_time_add`; the memory holds the times, `i` is not one of them. -/
def timeAdd (m : P → Time) (t : P) (i : Time) (result : P) : Except Result (P → Time) :=
  if overflows (m t).seconds i then .error .range
  else
    let m := update m result { m result with seconds := ((m t).seconds + i.seconds) % 2 ^ 32 }
    let m := update m result { m result with nanoseconds := ((m t).nanoseconds + i.nanoseconds) % 2 ^ 32 }
    .ok (update m result (m result).carry)

def timeSubtract (m : P → Time) (t : P) (i : Time) (result : P) : Except Result (P → Time) :=
  if (m t).seconds < i.seconds ∨ (m t).seconds = i.seconds ∧ (m t).nanoseconds < i.nanoseconds then .error .range
  else
    let m := update m result { m result with seconds := (m t).seconds - i.seconds }
    if i.nanoseconds ≤ (m t).nanoseconds then
      .ok (update m result { m result with nanoseconds := (m t).nanoseconds - i.nanoseconds })
    else
      let m := update m result { m result with nanoseconds := NS_PER_S - i.nanoseconds + (m t).nanoseconds }
      .ok (update m result { m result with seconds := ((m result).seconds + (2 ^ 32 - 1)) % 2 ^ 32 })

end pointers

/-- `isc_time_microdiff`; the products fit into 64 bits. -/
def timeMicrodiff (t1 t2 : Time) : ℕ :=
  if t1.seconds * NS_PER_S + t1.nanoseconds ≤ t2.seconds * NS_PER_S + t2.nanoseconds then 0
  else (t1.seconds * NS_PER_S + t1.nanoseconds - (t2.seconds * NS_PER_S + t2.nanoseconds)) / NS_PER_US

/-- `fix_tv_usec`, on `tv_sec` and `tv_usec`. -/
def fixTvUsec (sec usec : ℤ) : ℤ × ℤ :=
  if usec < 0 then fixTvUsec (sec - 1) (usec + US_PER_S)
  else if US_PER_S ≤ usec then fixTvUsec (sec + 1) (usec - US_PER_S)
  else (sec, usec)
termination_by (2 * usec - 999999).natAbs
decreasing_by
  all_goals
    unfold US_PER_S at *
    omega

/-- `isc_time_now`; `tv` is what `gettimeofday` gives, if it does not fail. -/
def timeNow (tv : Option (ℤ × ℤ)) : Except Result Time :=
  match tv with
  | none => .error .unexpected
  | some tv =>
    let tv := fixTvUsec tv.1 tv.2
    if tv.1 < 0 then .error .unexpected
    else if (2 ^ 32 : ℤ) ≤ tv.1 then .error .range
    else .ok ⟨tv.1.toNat, tv.2.toNat * NS_PER_US⟩

def timeNowplusinterval (tv : Option (ℤ × ℤ)) (i : Time) : Except Result Time :=
  match tv with
  | none => .error .unexpected
  | some tv =>
    let tv := fixTvUsec tv.1 tv.2
    if tv.1 < 0 then .error .unexpected
    else if overflows tv.1 i then .error .range
    else .ok (Time.carry ⟨(tv.1.toNat + i.seconds) % 2 ^ 32, (tv.2.toNat * NS_PER_US + i.nanoseconds) % 2 ^ 32⟩)

/-! ### What each function computes -/

variable {P : Type*} [DecidableEq P] {m m' : P → Time} {t t2 i : Time} {p r : P} {tv : Option (ℤ × ℤ)}

/-- The sum of the fields, as `isc_time_add` leaves it. -/
def Time.sum (t i : Time) : Time := Time.carry ⟨(t.seconds + i.seconds) % 2 ^ 32, (t.nanoseconds + i.nanoseconds) % 2 ^ 32⟩

def Time.difference (t i : Time) : Time :=
  if i.nanoseconds ≤ t.nanoseconds then ⟨t.seconds - i.seconds, t.nanoseconds - i.nanoseconds⟩
  else ⟨t.seconds - i.seconds - 1, NS_PER_S - i.nanoseconds + t.nanoseconds⟩

theorem timeAdd_eq (m : P → Time) (p : P) (i : Time) (r : P) :
    timeAdd m p i r = if UINT_MAX < (m p).seconds + i.seconds then .error .range else .ok (update m r ((m p).sum i)) := by
  have hover : overflows (m p).seconds i ↔ UINT_MAX < (m p).seconds + i.seconds := by
    unfold overflows INT_MAX UINT_MAX
    omega
  rw [timeAdd, if_congr hover rfl rfl]
  congr 2
  by_cases h : p = r
  · subst h
    simp [Time.sum]
  · simp [Time.sum, h]

theorem timeSubtract_eq (hp : (m p).Normalised) (hi : i.Normalised) :
    timeSubtract m p i r = if (m p).total < i.total then .error .range else .ok (update m r ((m p).difference i)) := by
  obtain ⟨hps, hpn⟩ := hp
  obtain ⟨his, hin⟩ := hi
  have hless : ((m p).seconds < i.seconds ∨ (m p).seconds = i.seconds ∧ (m p).nanoseconds < i.nanoseconds) ↔
      (m p).total < i.total := by
    unfold Time.total NS_PER_S at *
    omega
  rw [timeSubtract, if_congr hless rfl rfl]
  split_ifs with h
  · rfl
  · -- the seconds are larger where the nanoseconds are smaller
    have hborrow : ¬ i.nanoseconds ≤ (m p).nanoseconds →
        ((m p).seconds - i.seconds + 4294967295) % 4294967296 = (m p).seconds - i.seconds - 1 := by
      intro hn
      unfold Time.total NS_PER_S at *
      omega
    by_cases hpr : p = r
    · subst hpr
      by_cases hn : i.nanoseconds ≤ (m p).nanoseconds
      · simp [Time.difference, hn]
      · simp [Time.difference, hn, hborrow hn]
    by_cases hn : i.nanoseconds ≤ (m p).nanoseconds
    · simp [Time.difference, hpr, hn]
    · simp [Time.difference, hpr, hn, hborrow hn]

theorem Time.sum_total (ht : t.Normalised) (hi : i.Normalised) (h : t.total + i.total < 2 ^ 32 * NS_PER_S) :
    (t.sum i).Normalised ∧ (t.sum i).total = t.total + i.total := by
  obtain ⟨hts, htn⟩ := ht
  obtain ⟨his, hin⟩ := hi
  unfold sum carry total NS_PER_S at *
  dsimp only at *
  constructor
  · split_ifs with hc <;> constructor <;> dsimp only <;> try unfold NS_PER_S
    all_goals omega
  · split_ifs with hc <;> dsimp only <;> omega

theorem Time.difference_total (ht : t.Normalised) (hi : i.Normalised) (h : i.total ≤ t.total) :
    (t.difference i).Normalised ∧ (t.difference i).total = t.total - i.total := by
  obtain ⟨hts, htn⟩ := ht
  obtain ⟨his, hin⟩ := hi
  unfold difference total NS_PER_S at *
  constructor
  · split_ifs with hc <;> constructor <;> dsimp only <;> try unfold NS_PER_S
    all_goals omega
  · split_ifs with hc <;> dsimp only <;> omega

theorem Time.total_inj (ht : t.Normalised) (hi : i.Normalised) (h : t.total = i.total) : t = i := by
  obtain ⟨hts, htn⟩ := ht
  obtain ⟨his, hin⟩ := hi
  unfold total NS_PER_S at *
  ext <;> omega

/-! ### Exactness -/

/-- The seconds of the sum are all ones and the nanoseconds carry into them. -/
def Wraps (t i : Time) : Prop := t.seconds + i.seconds = UINT_MAX ∧ NS_PER_S ≤ t.nanoseconds + i.nanoseconds

/-- The functions on `t` at `p`, with the results at `r`, are those of exact arithmetic on lengths. -/
structure Exact (m : P → Time) (p r r' : P) (i t2 : Time) (tv : Option (ℤ × ℤ)) : Prop where
  add_ok : (∃ m', timeAdd m p i r = .ok m') ↔ (m p).total + i.total < 2 ^ 32 * NS_PER_S
  add : ∀ m', timeAdd m p i r = .ok m' →
    (m' r).Normalised ∧ (m' r).total = (m p).total + i.total ∧ ∀ q, q ≠ r → m' q = m q
  subtract_ok : (∃ m', timeSubtract m p i r = .ok m') ↔ i.total ≤ (m p).total
  subtract : ∀ m', timeSubtract m p i r = .ok m' →
    (m' r).Normalised ∧ (m' r).total = (m p).total - i.total ∧ ∀ q, q ≠ r → m' q = m q
  undo : ∀ m', timeAdd m p i r = .ok m' → ∃ m'', timeSubtract m' r i r' = .ok m'' ∧ m'' r' = m p
  now : timeNowplusinterval tv i =
    (timeNow tv).bind (fun t => (timeAdd (fun _ : Unit => t) () i ()).map (fun m' => m' ()))
  diff : timeMicrodiff (m p) t2 = ((m p).total - t2.total) / NS_PER_US

theorem timeNowplusinterval_eq (tv : Option (ℤ × ℤ)) (i : Time) : timeNowplusinterval tv i =
    (timeNow tv).bind (fun t => (timeAdd (fun _ : Unit => t) () i ()).map (fun m' => m' ())) := by
  obtain _ | tv := tv
  · rfl
  dsimp only [timeNowplusinterval, timeNow]
  split_ifs with hneg hover hbig hbig
  · rfl
  · rfl
  · show _ = (timeAdd _ () i ()).map _
    rw [timeAdd_eq, if_pos]
    · rfl
    · unfold overflows UINT_MAX at *
      dsimp only
      omega
  · -- a clock beyond 32 bits is past the limit by itself
    exfalso
    unfold overflows INT_MAX UINT_MAX at hover
    omega
  · show _ = (timeAdd _ () i ()).map _
    rw [timeAdd_eq, if_neg]
    · simp [Except.map, Time.sum]
    · unfold overflows INT_MAX UINT_MAX at *
      dsimp only
      omega

theorem timeMicrodiff_eq (t t2 : Time) : timeMicrodiff t t2 = (t.total - t2.total) / NS_PER_US := by
  unfold timeMicrodiff Time.total
  split_ifs with h
  · rw [Nat.sub_eq_zero_of_le h, Nat.zero_div]
  · rfl

theorem timeAdd_ok : timeAdd m p i r = .ok m' ↔ (m p).seconds + i.seconds ≤ UINT_MAX ∧ m' = update m r ((m p).sum i) := by
  rw [timeAdd_eq]
  split_ifs with h
  · simp only [false_iff, not_and]
    omega
  · simp only [Except.ok.injEq]
    exact ⟨fun hm => ⟨by omega, hm.symm⟩, fun hm => hm.2.symm⟩

theorem timeSubtract_ok (hp : (m p).Normalised) (hi : i.Normalised) : timeSubtract m p i r = .ok m' ↔
    i.total ≤ (m p).total ∧ m' = update m r ((m p).difference i) := by
  rw [timeSubtract_eq hp hi]
  split_ifs with h
  · simp only [false_iff, not_and]
    omega
  · simp only [Except.ok.injEq]
    exact ⟨fun hm => ⟨by omega, hm.symm⟩, fun hm => hm.2.symm⟩

theorem seconds_le_iff (ht : t.Normalised) (hi : i.Normalised) (hw : ¬ Wraps t i) :
    t.seconds + i.seconds ≤ UINT_MAX ↔ t.total + i.total < 2 ^ 32 * NS_PER_S := by
  obtain ⟨hts, htn⟩ := ht
  obtain ⟨his, hin⟩ := hi
  unfold Wraps UINT_MAX Time.total NS_PER_S at *
  omega

/-- Adding, subtracting and comparing are exact if and only if the carry does not overflow the seconds. -/
theorem time_exact_iff (r' : P) (hp : (m p).Normalised) (hi : i.Normalised) : Exact m p r r' i t2 tv ↔ ¬ Wraps (m p) i := by
  constructor
  · rintro h ⟨hsec, hns⟩
    have hlt := h.add_ok.1 ⟨_, timeAdd_ok.2 ⟨hsec.le, rfl⟩⟩
    unfold UINT_MAX Time.total NS_PER_S at *
    omega
  · intro hw
    have hle := seconds_le_iff hp hi hw
    constructor
    · simp only [timeAdd_ok, exists_and_left, exists_eq, and_true, hle]
    · intro m' h
      obtain ⟨hsec, rfl⟩ := timeAdd_ok.1 h
      obtain ⟨hn, htot⟩ := Time.sum_total hp hi (hle.1 hsec)
      rw [update_self]
      exact ⟨hn, htot, fun q hq => update_of_ne hq _ _⟩
    · simp only [timeSubtract_ok hp hi, exists_and_left, exists_eq, and_true]
    · intro m' h
      obtain ⟨hge, rfl⟩ := (timeSubtract_ok hp hi).1 h
      obtain ⟨hn, htot⟩ := Time.difference_total hp hi hge
      rw [update_self]
      exact ⟨hn, htot, fun q hq => update_of_ne hq _ _⟩
    · intro m' h
      obtain ⟨hsec, rfl⟩ := timeAdd_ok.1 h
      obtain ⟨hn, htot⟩ := Time.sum_total hp hi (hle.1 hsec)
      have hr : update m r ((m p).sum i) r = (m p).sum i := update_self ..
      have hge : i.total ≤ ((m p).sum i).total := by omega
      obtain ⟨hn', htot'⟩ := Time.difference_total hn hi hge
      refine ⟨_, (timeSubtract_ok (by rwa [hr]) hi).2 ⟨by rwa [hr], rfl⟩, ?_⟩
      rw [update_self, hr]
      exact Time.total_inj hn' hp (by omega)
    · exact timeNowplusinterval_eq tv i
    · exact timeMicrodiff_eq (m p) t2

theorem time_exact_one : Exact (fun _ : Unit => ⟨5, 999999999⟩) () () () ⟨0, 1⟩ ⟨7, 0⟩ (some (1, 2)) ↔
    ¬ Wraps ⟨5, 999999999⟩ ⟨0, 1⟩ :=
  time_exact_iff () (by decide) (by decide)

/-- One nanosecond behind the last one of the range is the epoch. -/
theorem timeAdd_wraps : (Time.mk (2 ^ 32 - 1) 999999999).total + (Time.mk 0 1).total = 2 ^ 32 * NS_PER_S ∧
    (timeAdd (fun _ : Unit => ⟨2 ^ 32 - 1, 999999999⟩) () ⟨0, 1⟩ ()).map (fun m => m ()) = .ok ⟨0, 0⟩ := by
  decide

end Bind9.IscTime
