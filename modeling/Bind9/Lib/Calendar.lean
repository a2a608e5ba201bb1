import Mathlib.Tactic

/-! # The proleptic Gregorian calendar

Days and seconds of the years from 0 on.  `daysBefore` counts the days in front of a year in closed form; a `Civil` is a date with a
time of the day, without leap seconds, and `Civil.seconds` counts from the start of 1970.  Different civil times have different counts. -/

namespace Calendar

/-- The years of 366 days. -/
def leap (y : ℕ) : Bool := y % 4 == 0 && (y % 100 != 0 || y % 400 == 0)

def yearDays (y : ℕ) : ℕ := if leap y then 366 else 365

/-- The days from the start of the year 0 to the start of the year `y`. -/
def daysBefore (y : ℕ) : ℕ := 365 * y + (y + 3) / 4 - (y + 99) / 100 + (y + 399) / 400

theorem multiples_succ (n k : ℕ) : (n + 1 + k) / (k + 1) = (n + k) / (k + 1) + if n % (k + 1) = 0 then 1 else 0 := by
  have hsplit := Nat.div_add_mod n (k + 1)
  have hlt := Nat.mod_lt n (Nat.succ_pos k)
  generalize n / (k + 1) = q at hsplit
  generalize n % (k + 1) = r at hsplit hlt
  subst hsplit
  split_ifs with h
  · subst h
    have h1 : (k + 1) * q + 0 + 1 + k = (k + 1) * (q + 1) := by ring
    have h2 : (k + 1) * q + 0 + k = k + (k + 1) * q := by ring
    rw [h1, h2, Nat.mul_div_cancel_left _ (Nat.succ_pos k), Nat.add_mul_div_left _ _ (Nat.succ_pos k),
      Nat.div_eq_of_lt (Nat.lt_succ_self k)]
    omega
  · have h1 : (k + 1) * q + r + 1 + k = r + (k + 1) * (q + 1) := by ring
    have h2 : (k + 1) * q + r + k = r - 1 + (k + 1) * (q + 1) := by
      have : r = r - 1 + 1 := by omega
      rw [this]
      simp only [Nat.add_sub_cancel]
      ring
    rw [h1, h2, Nat.add_mul_div_left _ _ (Nat.succ_pos k), Nat.add_mul_div_left _ _ (Nat.succ_pos k),
      Nat.div_eq_of_lt hlt, Nat.div_eq_of_lt (by omega)]
    omega

theorem daysBefore_succ (y : ℕ) : daysBefore (y + 1) = daysBefore y + yearDays y := by
  have hleap : leap y = true ↔ y % 4 = 0 ∧ (y % 100 ≠ 0 ∨ y % 400 = 0) := by simp [leap]
  have hle : (y + 99) / 100 ≤ (y + 3) / 4 := by omega
  have h100 : y % 100 = 0 → y % 4 = 0 := by omega
  have h400 : y % 400 = 0 → y % 100 = 0 := by omega
  unfold daysBefore yearDays
  rw [multiples_succ y 3, multiples_succ y 99, multiples_succ y 399]
  simp only [hleap]
  generalize (y + 99) / 100 = b at hle ⊢
  generalize (y + 3) / 4 = a at hle ⊢
  generalize (y + 399) / 400 = c
  split_ifs <;> omega

theorem daysBefore_mono : Monotone daysBefore := by
  apply monotone_nat_of_le_succ
  intro y
  rw [daysBefore_succ]
  exact Nat.le_add_right _ _

/-- The days of the month `m`, counted from 1. -/
def monthDays (l : Bool) (m : ℕ) : ℕ := if m = 2 then (if l then 29 else 28) else if m = 4 ∨ m = 6 ∨ m = 9 ∨ m = 11 then 30 else 31

def daysBeforeMonth (l : Bool) (m : ℕ) : ℕ := ((List.range' 1 (m - 1)).map (monthDays l)).sum

theorem daysBeforeMonth_succ (l : Bool) {m : ℕ} (h : 1 ≤ m) : daysBeforeMonth l (m + 1) = daysBeforeMonth l m + monthDays l m := by
  obtain ⟨k, rfl⟩ := Nat.exists_eq_add_of_le' h
  simp [daysBeforeMonth, List.range'_1_concat, Nat.add_comm 1 k]

theorem daysBeforeMonth_mono (l : Bool) : Monotone (daysBeforeMonth l) := by
  apply monotone_nat_of_le_succ
  intro m
  cases m with
  | zero => exact le_refl 0
  | succ m =>
    rw [daysBeforeMonth_succ l (Nat.succ_pos m)]
    exact Nat.le_add_right _ _

theorem daysBeforeMonth_year (l : Bool) : daysBeforeMonth l 13 = if l then 366 else 365 := by
  cases l <;> decide

theorem step_unique {f : ℕ → ℕ} (hf : Monotone f) {x m n : ℕ} (hm : f m ≤ x ∧ x < f (m + 1)) (hn : f n ≤ x ∧ x < f (n + 1)) : m = n := by
  obtain h | h | h := lt_trichotomy m n
  · have : f (m + 1) ≤ f n := hf (by omega)
    omega
  · exact h
  · have : f (n + 1) ≤ f m := hf (by omega)
    omega

/-- A date and a time of the day. -/
structure Civil where
  year : ℕ
  month : ℕ
  day : ℕ
  hour : ℕ
  minute : ℕ
  second : ℕ
  one_le_month : 1 ≤ month
  month_le : month ≤ 12
  one_le_day : 1 ≤ day
  day_le : day ≤ monthDays (leap year) month
  hour_lt : hour < 24
  minute_lt : minute < 60
  second_lt : second < 60

/-- The start of a year, in seconds from the start of 1970. -/
def yearStart (y : ℕ) : ℤ := (daysBefore y - daysBefore 1970) * 86400

theorem yearStart_succ (y : ℕ) : yearStart (y + 1) = yearStart y + yearDays y * 86400 := by
  unfold yearStart
  rw [daysBefore_succ]
  push_cast
  ring

theorem yearStart_mono : Monotone yearStart := by
  intro y y' h
  have := daysBefore_mono h
  unfold yearStart
  omega

namespace Civil

variable (c : Civil)

def yearDay : ℕ := daysBeforeMonth (leap c.year) c.month + (c.day - 1)

def daySecond : ℕ := c.hour * 3600 + c.minute * 60 + c.second

def seconds : ℤ := yearStart c.year + (c.yearDay * 86400 + c.daySecond : ℕ)

theorem yearDay_lt : c.yearDay < yearDays c.year := by
  have hmonth := daysBeforeMonth_succ (leap c.year) c.one_le_month
  have hmono := daysBeforeMonth_mono (leap c.year) (show c.month + 1 ≤ 13 by have := c.month_le; omega)
  have hday := c.day_le
  have hone := c.one_le_day
  rw [daysBeforeMonth_year] at hmono
  unfold yearDay yearDays
  omega

theorem daySecond_lt : c.daySecond < 86400 := by
  have := c.hour_lt
  have := c.minute_lt
  have := c.second_lt
  unfold daySecond
  omega

theorem seconds_bounds : yearStart c.year ≤ c.seconds ∧ c.seconds < yearStart (c.year + 1) := by
  have := c.yearDay_lt
  have := c.daySecond_lt
  rw [yearStart_succ, seconds]
  omega

theorem seconds_injective {c c' : Civil} (h : c.seconds = c'.seconds) : c = c' := by
  have hlt := c.daySecond_lt
  have hlt' := c'.daySecond_lt
  have hdays : daysBefore c.year + c.yearDay = daysBefore c'.year + c'.yearDay ∧ c.daySecond = c'.daySecond := by
    unfold seconds yearStart at h
    omega
  obtain ⟨hdays, hsecond⟩ := hdays
  have hyear : c.year = c'.year := by
    have hin := c.yearDay_lt
    have hin' := c'.yearDay_lt
    apply step_unique daysBefore_mono (x := daysBefore c.year + c.yearDay)
    · rw [daysBefore_succ]
      omega
    · rw [daysBefore_succ]
      omega
  have hyearDay : c.yearDay = c'.yearDay := by
    rw [hyear] at hdays
    omega
  have hmonth : c.month = c'.month := by
    have hone := c.one_le_day
    have hday := c.day_le
    have hone' := c'.one_le_day
    have hday' := c'.day_le
    unfold yearDay at hyearDay
    rw [hyear] at hyearDay hday
    apply step_unique (daysBeforeMonth_mono (leap c'.year)) (x := daysBeforeMonth (leap c'.year) c'.month + (c'.day - 1))
    · rw [daysBeforeMonth_succ _ c.one_le_month]
      omega
    · rw [daysBeforeMonth_succ _ c'.one_le_month]
      omega
  have hday : c.day = c'.day := by
    have hone := c.one_le_day
    have hone' := c'.one_le_day
    unfold yearDay at hyearDay
    rw [hyear, hmonth] at hyearDay
    omega
  have hclock : c.hour = c'.hour ∧ c.minute = c'.minute ∧ c.second = c'.second := by
    unfold daySecond at hsecond
    have := c.minute_lt
    have := c.second_lt
    have := c'.minute_lt
    have := c'.second_lt
    omega
  clear hsecond
  obtain ⟨hhour, hminute, hsecond⟩ := hclock
  obtain ⟨y, m, d, hh, mm, ss⟩ := c
  obtain ⟨y', m', d', hh', mm', ss'⟩ := c'
  subst hyear hmonth hday hhour hminute hsecond
  rfl

end Civil

end Calendar
