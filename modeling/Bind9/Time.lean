import Bind9.Lib.Calendar
import Bind9.Lib.Serial
import Bind9.LocText

/-! # The text of DNSSEC times

`dns_time64_totext`, `dns_time64_fromtext` and `dns_time64_from32` with their 32-bit forms.  Times are seconds from the start of 1970;
the 64-bit additions do not overflow and are those of `ℤ`. -/

namespace Bind9.Time

open List

open Bind9.Lex Bind9.Loc Calendar

def days : List ℕ := [31, 28, 31, 30, 31, 30, 31, 31, 30, 31, 30, 31]

def isLeap (y : ℕ) : Bool := (y % 4 == 0 && y % 100 != 0) || y % 400 == 0

def yearSecs (y : ℕ) : ℕ := (if isLeap y then 366 else 365) * 86400

/-! ### Printing -/

/-- The loop over the years before 1970. -/
def yearsBack : ℕ → ℤ → Exec (ℕ × ℕ)
  | tmYear, t =>
    if t < 0 then
      match tmYear with
      | 0 => stop .range
      | tmYear + 1 => yearsBack tmYear (t + yearSecs (tmYear + 1900))
    else .ok (tmYear, t.toNat)

/-- The loop over the years from 1970 on. -/
def yearsForward (tmYear t : ℕ) : Exec (ℕ × ℕ) :=
  if yearSecs (tmYear + 1900) ≤ t then
    if _h : 9999 < tmYear + 1 + 1900 then stop .range
    else yearsForward (tmYear + 1) (t - yearSecs (tmYear + 1900))
  else .ok (tmYear, t)
termination_by 9999 - tmYear

/-- The loop over the months of the year `y`, with the rest of `days` from `tm_mon` on. -/
def months (y : ℕ) : List ℕ → ℕ → ℕ → Exec (ℕ × ℕ)
  | [], _, _ => .error .overrun
  | d :: ds, tmMon, t =>
    let secs := (d + if tmMon = 1 ∧ isLeap y then 1 else 0) * 86400
    if secs ≤ t then months y ds (tmMon + 1) (t - secs) else .ok (tmMon, t)

/-- The loops that take `secs` off and count. -/
def countOff (secs n t : ℕ) : ℕ × ℕ :=
  if 0 < secs ∧ secs ≤ t then countOff secs (n + 1) (t - secs) else (n, t)
termination_by t

/-- `buf` of `dns_time64_totext`. -/
def time64Text (t : ℤ) : Exec Bytes := do
  let (tmYear, t) ← yearsBack 70 t
  let (tmYear, t) ← yearsForward tmYear t
  let (tmMon, t) ← months (tmYear + 1900) days 0 t
  let (tmMday, t) := countOff 86400 1 t
  let (tmHour, t) := countOff 3600 0 t
  let (tmMin, t) := countOff 60 0 t
  pure ((dec0 4 (tmYear + 1900) ++ dec0 2 (tmMon + 1) ++ dec0 2 tmMday ++ dec0 2 tmHour ++ dec0 2 tmMin ++ dec0 2 t).take 14)

def dnsTime64Totext (t : ℤ) (target : Buffer) : Exec Buffer := do
  let buf ← time64Text t
  memTobuffer target buf

/-- `dns_time64_from32`; `now` is what `isc_stdtime_get` gets. -/
def dnsTime64From32 (now value : UInt32) : ℤ :=
  if Serial.gt value now then now.toNat + (value - now).toNat else now.toNat - (now - value).toNat

def dnsTime32Totext (now value : UInt32) (target : Buffer) : Exec Buffer := dnsTime64Totext (dnsTime64From32 now value) target

/-! ### Reading -/

def range (min max value : ℕ) : Exec Unit := if value < min ∨ max < value then stop .range else .ok ()

/-- What `sscanf` reads from `n` digits. -/
def field (source : Bytes) (i n : ℕ) : ℕ := number ((source.drop i).take n)

/-- The loop over the years from 1969 down; `i` is one above the variable of the loop. -/
def subtractYears (year : ℕ) : ℕ → ℤ → ℤ
  | 0, value => value
  | i + 1, value => if year ≤ i then subtractYears year i (value - yearSecs i) else value

/-- The loop over the years from 1970 up. -/
def addYears (year i : ℕ) (value : ℤ) : ℤ := if i < year then addYears year (i + 1) (value + yearSecs i) else value
termination_by year - i

def daysAt (i : ℕ) : Exec ℕ :=
  match days[i]? with
  | some d => .ok d
  | none => .error .overrun

def dnsTime64Fromtext (source : Bytes) : Exec ℤ := do
  if source.length ≠ 14 then stop .syntaxerr
  if source.all isdigit = false then stop .syntaxerr
  let year := field source 0 4
  let month := field source 4 2
  let day := field source 6 2
  let hour := field source 8 2
  let minute := field source 10 2
  let second := field source 12 2
  range 0 9999 year
  range 1 12 month
  let d ← daysAt (month - 1)
  range 1 (d + if month = 2 ∧ isLeap year then 1 else 0) day
  range 0 23 hour
  range 0 59 minute
  range 0 60 second
  let value : ℤ := second + 60 * minute + 3600 * hour + (day - 1) * 86400
  let value := (days.take (month - 1)).foldl (fun (value : ℤ) (d : ℕ) => value + (d * 86400 : ℕ)) value
  let value := if isLeap year ∧ 2 < month then value + 86400 else value
  pure (if year < 1970 then subtractYears year 1970 value else addYears year 1970 value)

def dnsTime32Fromtext (source : Bytes) : Exec UInt32 := do
  let value64 ← dnsTime64Fromtext source
  pure (UInt32.ofNat (value64 % 2 ^ 32).toNat)

/-! ### Years and months -/

theorem isLeap_eq (y : ℕ) : isLeap y = leap y := by
  rw [Bool.eq_iff_iff]
  simp only [isLeap, leap, Bool.or_eq_true, Bool.and_eq_true, beq_iff_eq, bne_iff_ne]
  omega

theorem yearSecs_eq (y : ℕ) : yearSecs y = yearDays y * 86400 := by
  unfold yearSecs yearDays
  rw [isLeap_eq]

theorem yearStart_secs (y : ℕ) : yearStart (y + 1) = yearStart y + yearSecs y := by
  rw [yearStart_succ, yearSecs_eq]
  push_cast
  rfl

theorem yearStart_epoch : yearStart 1970 = 0 := by simp [yearStart]

theorem days_month (l : Bool) {m : ℕ} (h : m < 12) : daysAt m = .ok (days.getD m 0) ∧
    (days.getD m 0 + if m = 1 ∧ l then 1 else 0) = monthDays l (m + 1) := by
  have hall : ∀ (l : Bool) (m : Fin 12), daysAt m = .ok (days.getD m 0) ∧
      (days.getD m 0 + if m.val = 1 ∧ l then 1 else 0) = monthDays l (m + 1) := by
    decide
  exact hall l ⟨m, h⟩

theorem days_take (l : Bool) {m : ℕ} (h : m < 12) :
    ((days.take m).sum + if l ∧ 2 < m + 1 then 1 else 0) = daysBeforeMonth l (m + 1) := by
  have hall : ∀ (l : Bool) (m : Fin 12), ((days.take m).sum + if l ∧ 2 < m.val + 1 then 1 else 0) = daysBeforeMonth l (m + 1) := by
    decide
  exact hall l ⟨m, h⟩

/-! ### The loops that print -/

variable {t : ℤ}

theorem yearsBack_range {y : ℕ} (h : yearStart (y + 1900) + t < yearStart 1900) : yearsBack y t = stop .range := by
  induction y generalizing t with
  | zero =>
    rw [Nat.zero_add] at h
    rw [yearsBack, if_pos (by omega)]
  | succ y ih =>
    have hmono := yearStart_mono (Nat.le_add_left 1900 (y + 1))
    have hsucc := yearStart_secs (y + 1900)
    rw [Nat.add_right_comm y 1 1900] at h hmono
    rw [yearsBack, if_pos (by omega)]
    apply ih
    omega

theorem yearsBack_ok {y : ℕ} {t : ℤ} (h : yearStart 1900 ≤ yearStart (y + 1900) + t) :
    ∃ y' t', yearsBack y t = .ok (y', t') ∧ y' ≤ y ∧ yearStart (y' + 1900) + t' = yearStart (y + 1900) + t := by
  induction y generalizing t with
  | zero =>
    rw [Nat.zero_add] at h
    refine ⟨0, t.toNat, ?_, le_rfl, by omega⟩
    rw [yearsBack, if_neg (by omega)]
  | succ y ih =>
    by_cases hneg : t < 0
    · have hsucc := yearStart_secs (y + 1900)
      rw [Nat.add_right_comm y 1 1900] at h ⊢
      obtain ⟨y', t', hrun, hle, hsame⟩ := @ih (t + yearSecs (y + 1900)) (by omega)
      refine ⟨y', t', ?_, by omega, by omega⟩
      rw [yearsBack, if_pos hneg]
      exact hrun
    · refine ⟨y + 1, t.toNat, ?_, le_rfl, by omega⟩
      rw [yearsBack, if_neg hneg]

theorem yearsForward_ok : ∀ (n : ℕ) {y t : ℕ}, 8099 - y = n → y ≤ 8099 → yearStart (y + 1900) + t < yearStart 10000 →
    ∃ y' t', yearsForward y t = .ok (y', t') ∧ y ≤ y' ∧ y' ≤ 8099 ∧ yearStart (y' + 1900) + t' = yearStart (y + 1900) + t ∧
      t' < yearSecs (y' + 1900) := by
  intro n
  induction n with
  | zero =>
    intro y t hn hle h
    have heq : y + 1900 = 9999 := by omega
    have hsucc : yearStart 10000 = yearStart 9999 + yearSecs 9999 := yearStart_secs 9999
    rw [heq] at h
    refine ⟨y, t, ?_, le_rfl, hle, rfl, by rw [heq]; omega⟩
    rw [yearsForward, heq, if_neg (by omega)]
  | succ n ih =>
    intro y t hn hle h
    have hsucc := yearStart_secs (y + 1900)
    by_cases hsecs : yearSecs (y + 1900) ≤ t
    · have heq : y + 1 + 1900 = y + 1900 + 1 := by omega
      obtain ⟨y', t', hrun, hy, hy', hsame, hlt⟩ := ih (y := y + 1) (t := t - yearSecs (y + 1900)) (by omega) (by omega)
        (by rw [heq]; omega)
      rw [heq] at hsame
      refine ⟨y', t', ?_, by omega, hy', by omega, hlt⟩
      rw [yearsForward, if_pos hsecs, dif_neg (by omega)]
      exact hrun
    · refine ⟨y, t, ?_, le_rfl, hle, rfl, by omega⟩
      rw [yearsForward, if_neg hsecs]

theorem yearsForward_range : ∀ (n : ℕ) {y t : ℕ}, 8099 - y = n → y ≤ 8099 → yearStart 10000 ≤ yearStart (y + 1900) + t →
    yearsForward y t = stop .range := by
  intro n
  induction n with
  | zero =>
    intro y t hn hle h
    have heq : y + 1900 = 9999 := by omega
    have hsucc : yearStart 10000 = yearStart 9999 + yearSecs 9999 := yearStart_secs 9999
    rw [heq] at h
    rw [yearsForward, heq, if_pos (by omega), dif_pos (by omega)]
  | succ n ih =>
    intro y t hn hle h
    have hsucc := yearStart_secs (y + 1900)
    have hmono := yearStart_mono (show y + 1900 + 1 ≤ 10000 by omega)
    have heq : y + 1 + 1900 = y + 1900 + 1 := by omega
    rw [yearsForward, if_pos (by omega), dif_neg (by omega)]
    apply ih (by omega) (by omega)
    rw [heq]
    omega

theorem months_ok (y : ℕ) : ∀ (ds : List ℕ) {m t : ℕ}, days.drop m = ds →
    daysBeforeMonth (leap y) (m + 1) * 86400 + t < yearSecs y → ∃ m' t', months y ds m t = .ok (m', t') ∧ m' < 12 ∧
      daysBeforeMonth (leap y) (m' + 1) * 86400 + t' = daysBeforeMonth (leap y) (m + 1) * 86400 + t ∧
      t' < monthDays (leap y) (m' + 1) * 86400 := by
  intro ds
  induction ds with
  | nil =>
    intro m t hdrop hlt
    have hm : 12 ≤ m := drop_eq_nil_iff.1 hdrop
    have hmono := daysBeforeMonth_mono (leap y) (show 13 ≤ m + 1 by omega)
    rw [daysBeforeMonth_year] at hmono
    rw [yearSecs_eq, yearDays] at hlt
    omega
  | cons d ds ih =>
    intro m t hdrop hlt
    have hm : m < 12 := by
      by_contra hge
      rw [drop_eq_nil_of_le (show days.length ≤ m from Nat.le_of_not_lt hge)] at hdrop
      cases hdrop
    have hd : d = days.getD m 0 := by
      rw [getD_eq_getElem?_getD, ← head?_drop, hdrop]
      rfl
    have hrest : days.drop (m + 1) = ds := by
      rw [← tail_drop, hdrop]
      rfl
    have hmonth := (days_month (leap y) hm).2
    rw [← hd] at hmonth
    have hsucc := daysBeforeMonth_succ (leap y) (show 1 ≤ m + 1 by omega)
    unfold months
    simp only
    rw [isLeap_eq, hmonth]
    split_ifs with hsecs
    · have hshift : daysBeforeMonth (leap y) (m + 1 + 1) * 86400 + (t - monthDays (leap y) (m + 1) * 86400) =
          daysBeforeMonth (leap y) (m + 1) * 86400 + t := by
        rw [hsucc, Nat.add_mul, Nat.add_assoc, Nat.add_sub_cancel' hsecs]
      obtain ⟨m', t', hrun, hm', hsame, hlt'⟩ := @ih (m + 1) (t - monthDays (leap y) (m + 1) * 86400) hrest (by rw [hshift]; exact hlt)
      exact ⟨m', t', hrun, hm', hsame.trans hshift, hlt'⟩
    · exact ⟨m, t, rfl, hm, rfl, by omega⟩

theorem countOff_eq (secs : ℕ) (h : 0 < secs) (n t : ℕ) : countOff secs n t = (n + t / secs, t % secs) := by
  induction t using Nat.strong_induction_on generalizing n with
  | _ t ih =>
    rw [countOff]
    split_ifs with hle
    · rw [ih (t - secs) (by omega), Nat.mod_eq_sub_mod hle.2, Nat.div_eq_sub_div h hle.2]
      congr 1
      omega
    · have hlt : t < secs := by omega
      rw [Nat.div_eq_of_lt hlt, Nat.mod_eq_of_lt hlt, Nat.add_zero]

/-! ### The printed text -/

/-- The 14 digits of a civil time. -/
def text (c : Civil) : Bytes :=
  dec0 4 c.year ++ dec0 2 c.month ++ dec0 2 c.day ++ dec0 2 c.hour ++ dec0 2 c.minute ++ dec0 2 c.second

variable {c : Civil}

theorem text_lengths (h : c.year ≤ 9999) : (dec0 4 c.year).length = 4 ∧ (dec0 2 c.month).length = 2 ∧
    (dec0 2 c.day).length = 2 ∧ (dec0 2 c.hour).length = 2 ∧ (dec0 2 c.minute).length = 2 ∧ (dec0 2 c.second).length = 2 := by
  have hmonth := c.month_le
  have hday := c.day_le
  have hle : monthDays (leap c.year) c.month ≤ 31 := by
    unfold monthDays
    split_ifs <;> omega
  have hhour := c.hour_lt
  have hminute := c.minute_lt
  have hsecond := c.second_lt
  refine ⟨dec0_length ?_ ?_, dec0_length ?_ ?_, dec0_length ?_ ?_, dec0_length ?_ ?_, dec0_length ?_ ?_, dec0_length ?_ ?_⟩
  all_goals omega

theorem text_length (h : c.year ≤ 9999) : (text c).length = 14 := by
  obtain ⟨h1, h2, h3, h4, h5, h6⟩ := text_lengths h
  simp [text, h1, h2, h3, h4, h5, h6]

theorem time64Text_ok (hlo : yearStart 1900 ≤ t) (hhi : t < yearStart 10000) :
    ∃ c : Civil, 1900 ≤ c.year ∧ c.year ≤ 9999 ∧ c.seconds = t ∧ time64Text t = .ok (text c) := by
  obtain ⟨y1, t1, hback, hle, hsame1⟩ := @yearsBack_ok 70 t (by rw [yearStart_epoch]; omega)
  rw [yearStart_epoch] at hsame1
  obtain ⟨y, t2, hforward, -, hy, hsame2, hlt2⟩ := yearsForward_ok _ (y := y1) (t := t1) rfl (by omega) (by omega)
  have hfirst : daysBeforeMonth (leap (y + 1900)) (0 + 1) = 0 := rfl
  obtain ⟨m, t3, hmonths, hm, hsame3, hlt3⟩ := months_ok (y + 1900) days (m := 0) (t := t2) rfl (by omega)
  have hdays : t3 / 86400 < monthDays (leap (y + 1900)) (m + 1) := by omega
  let c : Civil := ⟨y + 1900, m + 1, 1 + t3 / 86400, t3 % 86400 / 3600, t3 % 86400 % 3600 / 60, t3 % 86400 % 3600 % 60,
    by omega, by omega, by omega, by omega, by omega, by omega, by omega⟩
  have hyear : c.year ≤ 9999 := Nat.add_le_add_right hy 1900
  refine ⟨c, Nat.le_add_left _ _, hyear, ?_, ?_⟩
  · show yearStart (y + 1900) + ((daysBeforeMonth (leap (y + 1900)) (m + 1) + (1 + t3 / 86400 - 1)) * 86400 +
      (t3 % 86400 / 3600 * 3600 + t3 % 86400 % 3600 / 60 * 60 + t3 % 86400 % 3600 % 60) : ℕ) = t
    omega
  · unfold time64Text
    simp only [hback, ok_then, hforward, hmonths, countOff_eq 86400 (by omega), countOff_eq 3600 (by omega), countOff_eq 60 (by omega),
      Nat.zero_add]
    show Except.ok ((text c).take 14) = _
    rw [take_of_length_le (text_length hyear).le]

theorem time64Text_range (h : t < yearStart 1900 ∨ yearStart 10000 ≤ t) : time64Text t = stop .range := by
  unfold time64Text
  by_cases hlo : t < yearStart 1900
  · rw [yearsBack_range (by rw [yearStart_epoch]; omega)]
    rfl
  obtain ⟨y1, t1, hback, hle, hsame1⟩ := @yearsBack_ok 70 t (by rw [yearStart_epoch]; omega)
  rw [yearStart_epoch] at hsame1
  have hforward := yearsForward_range _ (y := y1) (t := t1) rfl (by omega) (by omega)
  rw [hback, ok_then]
  simp only [hforward]
  rfl

theorem Civil.in_range (hlo : 1900 ≤ c.year) (hhi : c.year ≤ 9999) :
    yearStart 1900 ≤ c.seconds ∧ c.seconds < yearStart 10000 := by
  have hbounds := c.seconds_bounds
  have hfirst := yearStart_mono hlo
  have hlast := yearStart_mono (show c.year + 1 ≤ 10000 by omega)
  omega

theorem time64Text_seconds (hlo : 1900 ≤ c.year) (hhi : c.year ≤ 9999) : time64Text c.seconds = .ok (text c) := by
  obtain ⟨hfirst, hlast⟩ := Civil.in_range hlo hhi
  obtain ⟨c', -, -, hsame, htext⟩ := time64Text_ok hfirst hlast
  rw [Civil.seconds_injective hsame] at htext
  exact htext

/-! ### Reading back -/

theorem range_bind {α : Type} {min max value : ℕ} {f : Unit → Exec α} {x : α} :
    (range min max value >>= f) = .ok x ↔ (min ≤ value ∧ value ≤ max) ∧ f () = .ok x := by
  unfold range
  split_ifs with h
  · exact ⟨nofun, fun hok => by omega⟩
  · exact ⟨fun hok => ⟨by omega, hok⟩, And.right⟩

theorem subtractYears_eq {year : ℕ} : ∀ {i : ℕ} {value : ℤ}, year ≤ i →
    subtractYears year i value = value + yearStart year - yearStart i
  | 0, value, h => by
    rw [Nat.le_zero.1 h, subtractYears]
    omega
  | i + 1, value, h => by
    unfold subtractYears
    split_ifs with hle
    · rw [subtractYears_eq hle, yearStart_secs]
      omega
    · rw [show year = i + 1 by omega]
      omega
theorem addYears_eq (n : ℕ) {year i : ℕ} {value : ℤ} (hn : year - i = n) (h : i ≤ year) :
    addYears year i value = value + yearStart year - yearStart i := by
  induction n generalizing i value with
  | zero =>
    rw [addYears, if_neg (by omega), show i = year by omega]
    omega
  | succ n ih =>
    rw [addYears, if_pos (by omega), ih (by omega) (by omega), yearStart_secs]
    omega

theorem foldl_days (ds : List ℕ) (value : ℤ) :
    ds.foldl (fun (value : ℤ) (d : ℕ) => value + (d * 86400 : ℕ)) value = value + (ds.sum * 86400 : ℕ) := by
  induction ds generalizing value with
  | nil => simp
  | cons d ds ih =>
    rw [foldl_cons, ih, sum_cons]
    push_cast
    ring

theorem years_eq (year : ℕ) (value : ℤ) :
    (if year < 1970 then subtractYears year 1970 value else addYears year 1970 value) = value + yearStart year := by
  split_ifs with h
  · rw [subtractYears_eq h.le, yearStart_epoch]
    omega
  · rw [addYears_eq _ rfl (Nat.le_of_not_lt h), yearStart_epoch]
    omega

theorem months_eq {month : ℕ} (l : Bool) (h : 1 ≤ month ∧ month ≤ 12) (value : ℤ) : (if l = true ∧ 2 < month then
      (days.take (month - 1)).foldl (fun (value : ℤ) (d : ℕ) => value + (d * 86400 : ℕ)) value + 86400
      else (days.take (month - 1)).foldl (fun (value : ℤ) (d : ℕ) => value + (d * 86400 : ℕ)) value) =
    value + (daysBeforeMonth l month * 86400 : ℕ) := by
  have htake := days_take l (show month - 1 < 12 by omega)
  rw [Nat.sub_add_cancel h.1] at htake
  rw [foldl_days, ← htake]
  split_ifs <;> push_cast <;> ring

variable {source : Bytes}

theorem field_lt (h : ∀ c ∈ source, isdigit c = true) (i n : ℕ) : field source i n < 10 ^ n := by
  have hlt := @number_lt ((source.drop i).take n) (fun c hc => h c (mem_of_mem_drop (mem_of_mem_take hc)))
  have hle := Nat.pow_le_pow_right (show 0 < 10 by omega) (List.length_take_le n (source.drop i))
  exact lt_of_lt_of_le hlt hle

/-- The fields that are read, as they are checked, and the seconds they stand for. -/
theorem dnsTime64Fromtext_iff {v : ℤ} : dnsTime64Fromtext source = .ok v ↔
    source.length = 14 ∧ (∀ c ∈ source, isdigit c = true) ∧ (1 ≤ field source 4 2 ∧ field source 4 2 ≤ 12) ∧
    (1 ≤ field source 6 2 ∧ field source 6 2 ≤ monthDays (leap (field source 0 4)) (field source 4 2)) ∧
    field source 8 2 ≤ 23 ∧ field source 10 2 ≤ 59 ∧ field source 12 2 ≤ 60 ∧
    v = yearStart (field source 0 4) + ((daysBeforeMonth (leap (field source 0 4)) (field source 4 2) + (field source 6 2 - 1)) * 86400 +
      (field source 8 2 * 3600 + field source 10 2 * 60 + field source 12 2) : ℕ) := by
  unfold dnsTime64Fromtext
  by_cases hlen : source.length = 14
  · by_cases hdigit : source.all isdigit = true
    · have hall := all_eq_true.1 hdigit
      have hyear := field_lt hall 0 4
      simp only [hlen, hdigit, ne_eq, not_true_eq_false, if_false, Bool.true_eq_false, range_bind]
      generalize field source 0 4 = year at hyear ⊢
      generalize field source 4 2 = month
      rw [and_iff_right ⟨Nat.zero_le _, by omega⟩, true_and, and_iff_right hall]
      apply and_congr_right
      intro hmonth
      obtain ⟨hdays, hlength⟩ := days_month (leap year) (show month - 1 < 12 by omega)
      have hfebruary : month - 1 = 1 ↔ month = 2 := by omega
      rw [Nat.sub_add_cancel hmonth.1] at hlength
      simp only [hfebruary] at hlength
      rw [hdays, ok_then]
      simp only [range_bind, isLeap_eq, hlength, months_eq (leap year) hmonth, years_eq, Nat.zero_le, true_and]
      apply and_congr_right
      intro hday
      refine and_congr_right fun _ => and_congr_right fun _ => and_congr_right fun _ => ?_
      have hcast : ((field source 6 2 - 1 : ℕ) : ℤ) = (field source 6 2 : ℤ) - 1 := by omega
      refine ⟨fun h => ?_, fun h => congrArg Except.ok ?_⟩
      · rw [← Except.ok.inj h]
        push_cast [hcast]
        ring
      · rw [h]
        push_cast [hcast]
        ring
    · rw [if_neg (not_not.2 hlen), if_pos (Bool.eq_false_iff.2 hdigit)]
      refine ⟨nofun, fun h => absurd (all_eq_true.2 h.2.1) hdigit⟩
  · rw [if_pos hlen]
    exact ⟨nofun, fun h => absurd h.1 hlen⟩

theorem field_append {a b : Bytes} (c : Bytes) {i n : ℕ} (hi : a.length = i) (hn : b.length = n) :
    field (a ++ (b ++ c)) i n = number b := by
  unfold field
  rw [drop_left' hi, take_left' hn]

theorem field_text (h : c.year ≤ 9999) : field (text c) 0 4 = c.year ∧ field (text c) 4 2 = c.month ∧
    field (text c) 6 2 = c.day ∧ field (text c) 8 2 = c.hour ∧ field (text c) 10 2 = c.minute ∧ field (text c) 12 2 = c.second := by
  obtain ⟨h1, h2, h3, h4, h5, h6⟩ := text_lengths h
  refine ⟨?_, ?_, ?_, ?_, ?_, ?_⟩
  · have hsplit : text c = [] ++ (dec0 4 c.year ++ (dec0 2 c.month ++ dec0 2 c.day ++ dec0 2 c.hour ++ dec0 2 c.minute ++
        dec0 2 c.second)) := by simp [text]
    rw [hsplit, field_append _ length_nil h1, number_dec0]
  · have hsplit : text c = dec0 4 c.year ++ (dec0 2 c.month ++ (dec0 2 c.day ++ dec0 2 c.hour ++ dec0 2 c.minute ++
        dec0 2 c.second)) := by simp [text]
    rw [hsplit, field_append _ h1 h2, number_dec0]
  · have hsplit : text c = (dec0 4 c.year ++ dec0 2 c.month) ++ (dec0 2 c.day ++ (dec0 2 c.hour ++ dec0 2 c.minute ++
        dec0 2 c.second)) := by simp [text]
    rw [hsplit, field_append _ (by simp [h1, h2]) h3, number_dec0]
  · have hsplit : text c = (dec0 4 c.year ++ dec0 2 c.month ++ dec0 2 c.day) ++ (dec0 2 c.hour ++ (dec0 2 c.minute ++
        dec0 2 c.second)) := by simp [text]
    rw [hsplit, field_append _ (by simp [h1, h2, h3]) h4, number_dec0]
  · have hsplit : text c = (dec0 4 c.year ++ dec0 2 c.month ++ dec0 2 c.day ++ dec0 2 c.hour) ++ (dec0 2 c.minute ++
        dec0 2 c.second) := by simp [text]
    rw [hsplit, field_append _ (by simp [h1, h2, h3, h4]) h5, number_dec0]
  · have hsplit : text c = (dec0 4 c.year ++ dec0 2 c.month ++ dec0 2 c.day ++ dec0 2 c.hour ++ dec0 2 c.minute) ++
        (dec0 2 c.second ++ []) := by simp [text]
    rw [hsplit, field_append _ (by simp [h1, h2, h3, h4, h5]) h6, number_dec0]

theorem text_isdigit (c : Civil) : ∀ d ∈ text c, isdigit d = true := by
  intro d hd
  simp only [text, mem_append] at hd
  obtain ((((hd | hd) | hd) | hd) | hd) | hd := hd
  all_goals exact dec0_isdigit d hd

theorem dnsTime64Fromtext_text (h : c.year ≤ 9999) : dnsTime64Fromtext (text c) = .ok c.seconds := by
  obtain ⟨h1, h2, h3, h4, h5, h6⟩ := field_text h
  apply dnsTime64Fromtext_iff.2
  rw [h1, h2, h3, h4, h5, h6]
  refine ⟨text_length h, text_isdigit c, ⟨c.one_le_month, c.month_le⟩, ⟨c.one_le_day, c.day_le⟩, Nat.le_of_lt_succ c.hour_lt,
    Nat.le_of_lt_succ c.minute_lt, c.second_lt.le, rfl⟩

theorem number_injective : ∀ {a b : Bytes}, (∀ c ∈ a, isdigit c = true) → (∀ c ∈ b, isdigit c = true) → a.length = b.length →
    number a = number b → a = b
  | [], [], _, _, _, _ => rfl
  | c :: a, d :: b, ha, hb, hlen, h => by
    obtain ⟨hc, ha⟩ := forall_mem_cons.1 ha
    obtain ⟨hd, hb⟩ := forall_mem_cons.1 hb
    have hlen : a.length = b.length := Nat.succ_injective hlen
    have hlta := number_lt ha
    have hltb := number_lt hb
    obtain ⟨hc1, hc2⟩ := isdigit_iff.1 hc
    obtain ⟨hd1, hd2⟩ := isdigit_iff.1 hd
    rw [number_cons, number_cons, ← hlen] at h
    rw [← hlen] at hltb
    have hdiv := congrArg (· / 10 ^ a.length) h
    have hmod := congrArg (· % 10 ^ a.length) h
    simp only [Nat.mul_add_mod_self_right, Nat.mod_eq_of_lt hlta, Nat.mod_eq_of_lt hltb] at hmod
    simp only [Nat.mul_comm _ (10 ^ a.length), Nat.mul_add_div (Nat.pow_pos (show 0 < 10 by omega)), Nat.div_eq_of_lt hlta,
      Nat.div_eq_of_lt hltb, Nat.add_zero] at hdiv
    have hcd : c = d := UInt8.toNat_inj.1 (by omega)
    rw [hcd, number_injective ha hb hlen hmod]

theorem dec0_field (hdigit : ∀ c ∈ source, isdigit c = true) {i n : ℕ} (hn : 0 < n) (hlen : i + n ≤ source.length) :
    dec0 n (field source i n) = (source.drop i).take n := by
  have hmem : ∀ c ∈ (source.drop i).take n, isdigit c = true := fun c hc => hdigit c (mem_of_mem_drop (mem_of_mem_take hc))
  have hlength : ((source.drop i).take n).length = n := by
    rw [length_take, length_drop]
    omega
  apply number_injective dec0_isdigit hmem
  · rw [dec0_length hn (field_lt hdigit i n), hlength]
  · rw [number_dec0]
    rfl

theorem dnsTime64Fromtext_civil {v : ℤ} (h : dnsTime64Fromtext source = .ok v) (hsecond : field source 12 2 ≤ 59) :
    ∃ c : Civil, c.year = field source 0 4 ∧ c.year ≤ 9999 ∧ text c = source ∧ c.seconds = v := by
  obtain ⟨hlen, hdigit, hmonth, hday, hhour, hminute, -, hv⟩ := dnsTime64Fromtext_iff.1 h
  have hyear := field_lt hdigit 0 4
  refine ⟨⟨field source 0 4, field source 4 2, field source 6 2, field source 8 2, field source 10 2, field source 12 2, hmonth.1, hmonth.2,
    hday.1, hday.2, by omega, by omega, by omega⟩, rfl, Nat.le_of_lt_succ hyear, ?_, hv.symm⟩
  show dec0 4 _ ++ dec0 2 _ ++ dec0 2 _ ++ dec0 2 _ ++ dec0 2 _ ++ dec0 2 _ = source
  rw [dec0_field hdigit (by omega) (by omega), dec0_field hdigit (by omega) (by omega), dec0_field hdigit (by omega) (by omega),
    dec0_field hdigit (by omega) (by omega), dec0_field hdigit (by omega) (by omega), dec0_field hdigit (by omega) (by omega)]
  have hcut : ∀ i n, (source.drop i).take n ++ source.drop (i + n) = source.drop i := by
    intro i n
    rw [← drop_drop, take_append_drop]
  have hend : source.drop 14 = [] := drop_eq_nil_of_le hlen.le
  have h12 := hcut 12 2
  rw [hend, append_nil] at h12
  simp only [append_assoc]
  rw [h12, hcut 10 2, hcut 8 2, hcut 6 2, hcut 4 2, hcut 0 4]
  rfl

/-! ### 32-bit times -/

variable (now value : UInt32)

theorem dnsTime64From32_mod : dnsTime64From32 now value % 2 ^ 32 = value.toNat := by
  have hnow := now.toNat_lt
  have hvalue := value.toNat_lt
  unfold dnsTime64From32
  split_ifs
  · rw [UInt32.toNat_sub]
    omega
  · rw [UInt32.toNat_sub]
    omega

theorem dnsTime64From32_bounds : -(2 ^ 31 : ℤ) ≤ dnsTime64From32 now value - now.toNat ∧
    dnsTime64From32 now value - now.toNat < 2 ^ 31 := by
  have hnow := now.toNat_lt
  have hvalue := value.toNat_lt
  have hgt : Serial.gt value now = true ↔ 0 < (value - now).toNat ∧ (value - now).toNat < 2 ^ 31 := decide_eq_true_iff
  rw [UInt32.toNat_sub] at hgt
  unfold dnsTime64From32
  rw [UInt32.toNat_sub, UInt32.toNat_sub]
  split_ifs with h
  · have := hgt.1 h
    omega
  · have := mt hgt.2 h
    omega

theorem dnsTime64From32_nearest {k : ℤ} (h : k % 2 ^ 32 = value.toNat) :
    (dnsTime64From32 now value - now.toNat).natAbs ≤ (k - now.toNat).natAbs ∧
      ((k - now.toNat).natAbs = (dnsTime64From32 now value - now.toNat).natAbs → dnsTime64From32 now value ≤ k) := by
  have hmod := dnsTime64From32_mod now value
  have hbounds := dnsTime64From32_bounds now value
  omega

theorem UInt32_ofNat_mod {v : ℤ} {value : UInt32} (h : v % 2 ^ 32 = value.toNat) : UInt32.ofNat (v % 2 ^ 32).toNat = value := by
  rw [h, Int.toNat_natCast, UInt32.ofNat_toNat]

theorem dnsTime32_text :
    ∃ text, (∀ target, dnsTime32Totext now value target = memTobuffer target text) ∧ dnsTime32Fromtext text = .ok value := by
  have hmod := dnsTime64From32_mod now value
  have hbounds := dnsTime64From32_bounds now value
  have hnow := now.toNat_lt
  have hfirst : yearStart 1900 = -2208988800 := by simp [yearStart, daysBefore]
  have hlast : yearStart 10000 = 253402300800 := by simp [yearStart, daysBefore]
  obtain ⟨c, hlo, hhi, hseconds, htext⟩ := time64Text_ok (t := dnsTime64From32 now value) (by omega) (by omega)
  refine ⟨text c, fun target => ?_, ?_⟩
  · unfold dnsTime32Totext dnsTime64Totext
    rw [htext, ok_then]
  · unfold dnsTime32Fromtext
    rw [dnsTime64Fromtext_text hhi, ok_then, hseconds]
    exact congrArg Except.ok (UInt32_ofNat_mod hmod)

theorem dnsTime64Totext_ok {target target' : Buffer} (h : dnsTime64Totext t target = .ok target') :
    ∃ c : Civil, 1900 ≤ c.year ∧ c.year ≤ 9999 ∧ c.seconds = t ∧ target' = target.put (text c) := by
  obtain ⟨buf, hbuf, h⟩ := bind_eq_ok h
  by_cases hrange : yearStart 1900 ≤ t ∧ t < yearStart 10000
  · obtain ⟨c, hlo, hhi, hseconds, htext⟩ := time64Text_ok hrange.1 hrange.2
    obtain rfl := Except.ok.inj (hbuf.symm.trans htext)
    exact ⟨c, hlo, hhi, hseconds, memTobuffer_eq_ok h⟩
  · rw [time64Text_range (by omega)] at hbuf
    cases hbuf

theorem dnsTime64Totext_seconds (hlo : 1900 ≤ c.year) (hhi : c.year ≤ 9999) (target : Buffer) :
    dnsTime64Totext c.seconds target = memTobuffer target (text c) := by
  unfold dnsTime64Totext
  rw [time64Text_seconds hlo hhi, ok_then]

/-- **DNSSEC time text.**  A second is printed if and only if it lies in the years 1900 to 9999, and its 14 digits are read as that second.
A text that is read, of a year from 1900 on and without a leap second, is the one that is printed.  `dns_time64_from32` gets the nearest of the
seconds that a 32-bit time can mean, so that the text of a 32-bit time is read as that time. -/
theorem time_text (t v : ℤ) (target : Buffer) (source : Bytes) (now value : UInt32) : (14 ≤ target.available →
      ((∃ target', dnsTime64Totext t target = .ok target') ↔ ∃ c : Civil, 1900 ≤ c.year ∧ c.year ≤ 9999 ∧ c.seconds = t)) ∧
    (∀ target', dnsTime64Totext t target = .ok target' →
      ∃ text, text.length = 14 ∧ target' = target.put text ∧ dnsTime64Fromtext text = .ok t) ∧
    (dnsTime64Fromtext source = .ok v → 1900 ≤ field source 0 4 → field source 12 2 ≤ 59 →
      source.length = 14 ∧ dnsTime64Totext v target = memTobuffer target source) ∧
    dnsTime64From32 now value % 2 ^ 32 = value.toNat ∧
    (∀ k : ℤ, k % 2 ^ 32 = value.toNat → (dnsTime64From32 now value - now.toNat).natAbs ≤ (k - now.toNat).natAbs ∧
      ((k - now.toNat).natAbs = (dnsTime64From32 now value - now.toNat).natAbs → dnsTime64From32 now value ≤ k)) ∧
    ∃ text, (∀ target, dnsTime32Totext now value target = memTobuffer target text) ∧ dnsTime32Fromtext text = .ok value := by
  refine ⟨fun hroom => ⟨?_, ?_⟩, fun target' h => ?_, fun h hyear hsecond => ?_, dnsTime64From32_mod now value,
    fun k hk => dnsTime64From32_nearest now value hk, dnsTime32_text now value⟩
  · rintro ⟨target', h⟩
    obtain ⟨c, hlo, hhi, hseconds, -⟩ := dnsTime64Totext_ok h
    exact ⟨c, hlo, hhi, hseconds⟩
  · rintro ⟨c, hlo, hhi, rfl⟩
    rw [dnsTime64Totext_seconds hlo hhi, memTobuffer_ok (by rw [text_length hhi]; exact hroom)]
    exact ⟨_, rfl⟩
  · obtain ⟨c, hlo, hhi, rfl, rfl⟩ := dnsTime64Totext_ok h
    exact ⟨text c, text_length hhi, rfl, dnsTime64Fromtext_text hhi⟩
  · obtain ⟨c, hcyear, hhi, rfl, rfl⟩ := dnsTime64Fromtext_civil h hsecond
    exact ⟨text_length hhi, dnsTime64Totext_seconds (by omega) hhi target⟩

end Bind9.Time
