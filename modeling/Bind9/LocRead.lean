import Mathlib.Data.Rat.Floor
import Bind9.LocText

/-! # The numbers of LOC text

What `fromtext_loc` makes of the numbers that are written in a text it accepts. -/

namespace Bind9.Loc

open List

open Bind9.Lex

/-! ### Written numbers -/

/-- The digits behind a decimal point. -/
def fraction : Bytes → Bytes
  | 46 :: f => f.takeWhile isdigit
  | _ => []

/-- The size of the number that a text writes. -/
def writtenAbs (s : Bytes) : ℚ :=
  number (parts s).2.1 + number (fraction (parts s).2.2) / 10 ^ (fraction (parts s).2.2).length

/-- The number that a text writes: a sign, digits, perhaps a point and digits. -/
def written (s : Bytes) : ℚ := if (parts s).1 then -writtenAbs s else writtenAbs s

/-- A number cut off to whole `k`-ths. -/
def truncated (k : ℕ) (q : ℚ) : ℤ := if 0 ≤ q then ⌊q * k⌋ else ⌈q * k⌉

def FitsInt (s : Bytes) : Prop := -2 ^ 31 ≤ (strtol s).1 ∧ (strtol s).1 < 2 ^ 31

/-- A minus sign in front of noughts and a fraction that is not nought. -/
def NegativeFraction (s : Bytes) : Prop :=
  (parts s).1 = true ∧ number (parts s).2.1 = 0 ∧ number (fraction (parts s).2.2) ≠ 0

instance (s : Bytes) : Decidable (FitsInt s) := inferInstanceAs (Decidable (_ ∧ _))

instance (s : Bytes) : Decidable (NegativeFraction s) := inferInstanceAs (Decidable (_ ∧ _))

theorem writtenAbs_nonneg (s : Bytes) : 0 ≤ writtenAbs s := by
  unfold writtenAbs
  positivity

theorem fraction_digits (e : Bytes) : ∀ c ∈ fraction e, isdigit c = true := by
  unfold fraction
  split
  · exact fun c hc => mem_takeWhile_imp hc
  · exact fun c hc => absurd hc (by simp)

theorem writtenAbs_lt (s : Bytes) : writtenAbs s < number (parts s).2.1 + 1 := by
  have hlt : (number (fraction (parts s).2.2) : ℚ) < 10 ^ (fraction (parts s).2.2).length := by
    exact_mod_cast number_lt (fraction_digits (parts s).2.2)
  have hone : (number (fraction (parts s).2.2) : ℚ) / 10 ^ (fraction (parts s).2.2).length < 1 :=
    (div_lt_one (by positivity)).2 hlt
  unfold writtenAbs
  linarith

/-- The whole `k`-ths of a number. -/
theorem floor_writtenAbs (s : Bytes) (k : ℕ) : ⌊writtenAbs s * k⌋ =
    ((number (parts s).2.1 * k + number (fraction (parts s).2.2) * k / 10 ^ (fraction (parts s).2.2).length : ℕ) : ℤ) := by
  have hsplit : writtenAbs s * k = (number (parts s).2.1 * k : ℕ) +
      ((number (fraction (parts s).2.2) * k : ℕ) : ℚ) / ((10 ^ (fraction (parts s).2.2).length : ℕ) : ℚ) := by
    unfold writtenAbs
    push_cast
    ring
  rw [hsplit, Int.floor_natCast_add, Rat.floor_natCast_div_natCast]
  push_cast
  rfl

theorem fraction_take {f : Bytes} (hf : ∀ c ∈ f, isdigit c = true) (k : ℕ) :
    number f * 10 ^ k / 10 ^ f.length = number (f.take k) * 10 ^ (k - (f.take k).length) := by
  by_cases hle : f.length ≤ k
  · rw [take_of_length_le hle]
    have hpow : 10 ^ k = 10 ^ (k - f.length) * 10 ^ f.length := by rw [← Nat.pow_add, Nat.sub_add_cancel hle]
    rw [hpow, ← Nat.mul_assoc, Nat.mul_div_cancel _ (by positivity)]
  have hlen : (f.take k).length = k := by
    rw [length_take]
    omega
  have hsum : number f = number (f.take k) * 10 ^ (f.drop k).length + number (f.drop k) := by
    rw [← number_append, take_append_drop]
  have hdrop : (f.drop k).length = f.length - k := length_drop
  have hlt : number (f.drop k) < 10 ^ (f.length - k) := by
    rw [← hdrop]
    exact number_lt (fun c hc => hf c (mem_of_mem_drop hc))
  have hpow : 10 ^ f.length = 10 ^ k * 10 ^ (f.length - k) := by rw [← Nat.pow_add, Nat.add_sub_cancel' (by omega)]
  rw [hlen, Nat.sub_self, Nat.pow_zero, Nat.mul_one, hpow, Nat.mul_comm (number f), Nat.mul_div_mul_left _ _ (by positivity), hsum,
    hdrop, Nat.mul_comm, Nat.mul_add_div (by positivity), Nat.div_eq_of_lt hlt, Nat.add_zero]

/-! ### What `strtol` reads -/

theorem sign_eq {s : Bytes} (h : ∀ c ∈ s.head?, c ≠ 45 ∧ c ≠ 43) : sign s = (false, s) := by
  unfold sign
  split
  · exact absurd rfl (h 45 rfl).1
  · exact absurd rfl (h 43 rfl).2
  · rfl

/-- What `fromtext_loc` allows behind a whole number. -/
def Follows (e : Bytes) : Prop := e = [] ∨ e.head? = some 46 ∨ e.head? = some 109

theorem follows_parts {s : Bytes} (h : Follows s) : parts s = (false, [], s) := by
  have hhead : ∀ c ∈ s.head?, Rpz.isSpace c = false ∧ c ≠ 45 ∧ c ≠ 43 ∧ isdigit c = false := by
    intro c hc
    obtain rfl | h | h := h
    · exact absurd hc (by simp)
    · rw [h, Option.mem_some_iff] at hc
      subst hc
      decide
    · rw [h, Option.mem_some_iff] at hc
      subst hc
      decide
  have hblank : s.dropWhile Rpz.isSpace = s := by
    cases s with
    | nil => rfl
    | cons c s => exact dropWhile_cons_of_neg (by simp [(hhead c rfl).1])
  have hsign : sign s = (false, s) := sign_eq (fun c hc => ⟨(hhead c hc).2.1, (hhead c hc).2.2.1⟩)
  unfold parts
  rw [hblank, hsign]
  cases s with
  | nil => rfl
  | cons c s =>
    have hdigit : ¬isdigit c = true := by simp [(hhead c rfl).2.2.2]
    simp only [takeWhile_cons_of_neg hdigit, dropWhile_cons_of_neg hdigit]

theorem strtol_parts {s : Bytes} (h : Follows (strtol s).2) : (strtol s).2 = (parts s).2.2 ∧
    (strtol s).1 = max LONG_MIN (min LONG_MAX (signed (parts s).1 (number (parts s).2.1))) := by
  by_cases hds : (parts s).2.1 = []
  · have hstrtol : strtol s = (0, s) := if_pos hds
    rw [hstrtol] at h ⊢
    rw [follows_parts h]
    have hzero : max LONG_MIN (min LONG_MAX (signed false (number []))) = 0 := by decide
    exact ⟨rfl, hzero.symm⟩
  have hstrtol : strtol s = _ := if_neg hds
  rw [hstrtol]
  exact ⟨rfl, rfl⟩

/-- A value below the bounds of `long` has not been cut off. -/
theorem strtol_signed (lo hi : ℤ) {s : Bytes} (h : Follows (strtol s).2) (hlo : -2 ^ 63 < lo) (hhi : hi < 2 ^ 63 - 1)
    (h1 : lo ≤ (strtol s).1) (h2 : (strtol s).1 ≤ hi) : signed (parts s).1 (number (parts s).2.1) = (strtol s).1 := by
  have hv := (strtol_parts h).2
  unfold LONG_MIN LONG_MAX at hv
  omega

theorem toInt_fits {s : Bytes} (h : FitsInt s) : toInt (strtol s).1 = (strtol s).1 := toInt_of_lt h.1 h.2

theorem written_large {s : Bytes} (h : Follows (strtol s).2) (hfits : ¬FitsInt s) : written s < 0 ∨ 60 ≤ written s := by
  have hv := (strtol_parts h).2
  have hn : 2 ^ 31 ≤ number (parts s).2.1 := by
    unfold FitsInt LONG_MIN LONG_MAX at *
    by_contra hlt
    have hbound : -2 ^ 31 < signed (parts s).1 (number (parts s).2.1) ∧ signed (parts s).1 (number (parts s).2.1) < 2 ^ 31 := by
      unfold signed
      split_ifs <;> omega
    omega
  have habs : (60 : ℚ) ≤ writtenAbs s := by
    have hfrac : (0 : ℚ) ≤ number (fraction (parts s).2.2) / 10 ^ (fraction (parts s).2.2).length := by positivity
    have hcast : ((60 : ℕ) : ℚ) ≤ (number (parts s).2.1 : ℚ) := by
      exact_mod_cast (show 60 ≤ number (parts s).2.1 by omega)
    unfold writtenAbs
    push_cast at hcast
    linarith
  unfold written
  split_ifs
  · left
    linarith
  · right
    exact habs

theorem written_of_not_negative {s : Bytes} (hneg : ¬NegativeFraction s) (hwhole : 0 ≤ signed (parts s).1 (number (parts s).2.1)) :
    written s = writtenAbs s := by
  unfold written
  split_ifs with h
  · have hn : number (parts s).2.1 = 0 := by
      unfold signed at hwhole
      rw [if_pos h] at hwhole
      omega
    have hf : number (fraction (parts s).2.2) = 0 := by
      by_contra hne
      exact hneg ⟨h, hn, hne⟩
    unfold writtenAbs
    rw [hn, hf]
    simp
  · rfl

theorem written_negative {s : Bytes} (h : NegativeFraction s) : written s < 0 := by
  obtain ⟨hneg, hn, hf⟩ := h
  have hpos : (0 : ℚ) < writtenAbs s := by
    unfold writtenAbs
    rw [hn]
    have : (0 : ℚ) < number (fraction (parts s).2.2) := by exact_mod_cast Nat.pos_of_ne_zero hf
    positivity
  unfold written
  rw [if_pos hneg]
  linarith

/-! ### Minutes and seconds -/

section Tokens

variable {limit d : ℕ} {s : Bytes} {v : ℤ}

theorem minutes_spec (h : minutes limit d s = .ok v) : (0 ≤ v ∧ v ≤ 59 ∧ (d = limit → v = 0)) ∧
    (FitsInt s → written s = v) ∧ (¬FitsInt s → written s < 0 ∨ 60 ≤ written s) := by
  unfold minutes at h
  simp only at h
  split_ifs at h with hrest hrange hlimit
  have hv : v = toInt (strtol s).1 := (Except.ok.inj h).symm
  have hfollows : Follows (strtol s).2 := Or.inl (not_not.1 hrest)
  rw [← hv] at hrange hlimit
  refine ⟨⟨by omega, by omega, fun hd => by_contra fun hne => hlimit ⟨hd, hne⟩⟩, fun hfits => ?_, written_large hfollows⟩
  rw [toInt_fits hfits] at hv
  have hsigned := strtol_signed (-2 ^ 31) (2 ^ 31) hfollows (by omega) (by omega) hfits.1 hfits.2.le
  have hfraction : fraction (parts s).2.2 = [] := by
    rw [← (strtol_parts hfollows).1, not_not.1 hrest]
    rfl
  have hneg : ¬NegativeFraction s := fun hneg => hneg.2.2 (by rw [hfraction]; rfl)
  rw [written_of_not_negative hneg (by omega)]
  have hn : (number (parts s).2.1 : ℤ) = v := by
    unfold signed at hsigned
    split_ifs at hsigned <;> omega
  unfold writtenAbs
  rw [hfraction]
  have hcast : ((number (parts s).2.1 : ℤ) : ℚ) = (v : ℚ) := by rw [hn]
  simpa [number] using hcast

/-- The digits that the loop over a fraction has read. -/
theorem decimals_some {ends : UInt8 → Bool} {subtract : Bool} : ∀ (n : ℕ) {e l : Bytes} {v v' : ℤ},
    decimals ends subtract n v e = some (v', l) → ∃ ds, e = ds ++ l ∧ (∀ c ∈ ds, isdigit c = true) ∧ ds.length ≤ n ∧
      (ds.length < n → l = [] ∨ ∃ c ∈ l.head?, ends c = true) ∧ v' = v * 10 ^ n + signed subtract (number ds * 10 ^ (n - ds.length))
  | 0, e, l, v, v', h => by
    simp only [decimals, Option.some.injEq, Prod.mk.injEq] at h
    obtain ⟨rfl, rfl⟩ := h
    exact ⟨[], rfl, by simp, le_rfl, by simp, by simp [number, signed]⟩
  | n + 1, [], l, v, v', h => by
    simp only [decimals, Option.some.injEq, Prod.mk.injEq] at h
    obtain ⟨rfl, rfl⟩ := h
    exact ⟨[], rfl, by simp, by simp, by simp, by simp [number, signed]⟩
  | n + 1, c :: e, l, v, v', h => by
    rw [decimals] at h
    split_ifs at h with hends hdigit
    · simp only [Option.some.injEq, Prod.mk.injEq] at h
      obtain ⟨rfl, rfl⟩ := h
      exact ⟨[], rfl, by simp, by simp, fun _ => Or.inr ⟨c, rfl, hends⟩, by simp [number, signed]⟩
    all_goals
      obtain ⟨ds, rfl, hds, hlen, hstop, hv⟩ := decimals_some n h
      refine ⟨c :: ds, rfl, forall_mem_cons.2 ⟨hdigit, hds⟩, by simpa using hlen, fun hlt => hstop (by simpa using hlt), ?_⟩
      have hpow : (10 : ℤ) ^ n = 10 ^ ds.length * 10 ^ (n - ds.length) := by rw [← pow_add, Nat.add_sub_cancel' hlen]
      have hsub : n + 1 - (c :: ds).length = n - ds.length := by simp
      rw [hv, hsub, number_cons, pow_succ]
      unfold signed
      split_ifs
      push_cast
      rw [hpow]
      ring

theorem thousandths_some {w : ℤ} {e : Bytes} (hfollows : e = [] ∨ e.head? = some 46) (h : thousandths w e = some v) :
    v = w * 1000 + (number (fraction e) * 10 ^ 3 / 10 ^ (fraction e).length : ℕ) := by
  unfold thousandths at h
  split at h
  · next f =>
      split at h
      · next w' l hdec =>
          split_ifs at h with hall
          obtain ⟨ds, rfl, hds, hlen, hstop, hv⟩ := decimals_some 3 hdec
          have hw : w' = v := Option.some.inj h
          have hdigits : ∀ c ∈ ds ++ l, isdigit c = true := by
            intro c hc
            obtain hc | hc := mem_append.1 hc
            · exact hds c hc
            · exact all_eq_true.1 hall c hc
          have hfraction : fraction (46 :: (ds ++ l)) = ds ++ l := takeWhile_eq_self_iff.2 hdigits
          have htake : (ds ++ l).take 3 = ds := by
            by_cases hlt : ds.length < 3
            · obtain rfl | ⟨c, -, hc⟩ := hstop hlt
              · rw [append_nil, take_of_length_le hlt.le]
              · exact absurd hc (by simp)
            · rw [show 3 = ds.length by omega, take_left]
          rw [hfraction, fraction_take hdigits, htake, ← hw, hv]
          simp [signed]
      · cases h
  next hne =>
    obtain rfl | he := hfollows
    · simp [fraction, number, ← Option.some.inj h]
    obtain ⟨f, rfl⟩ : ∃ f, e = 46 :: f := by
      cases e with
      | nil => cases he
      | cons c f => exact ⟨f, by rw [Option.some.inj he]⟩
    exact absurd rfl (hne f)

theorem fraction_lt {f : Bytes} (hf : ∀ c ∈ f, isdigit c = true) (k : ℕ) : number f * 10 ^ k / 10 ^ f.length < 10 ^ k := by
  rw [Nat.div_lt_iff_lt_mul (by positivity), Nat.mul_comm]
  exact Nat.mul_lt_mul_of_pos_left (number_lt hf) (by positivity)

theorem seconds_spec (h : seconds limit d s = .ok v) : (0 ≤ v ∧ v ≤ 59999 ∧ (d = limit → v = 0)) ∧
    (FitsInt s ∧ ¬NegativeFraction s → 0 ≤ written s ∧ written s < 60 ∧ ⌊written s * 1000⌋ = v) ∧
    (¬(FitsInt s ∧ ¬NegativeFraction s) → written s < 0 ∨ 60 ≤ written s) := by
  unfold seconds at h
  simp only at h
  split_ifs at h with hrest hrange
  cases hthousandths : thousandths (toInt (strtol s).1) (strtol s).2 with
  | none =>
    rw [hthousandths] at h
    cases h
  | some w =>
    rw [hthousandths] at h
    simp only at h
    split_ifs at h with hlimit
    have hw : w = v := Except.ok.inj h
    subst hw
    have hfollow : (strtol s).2 = [] ∨ (strtol s).2.head? = some 46 := by
      by_contra hno
      rw [not_or] at hno
      exact hrest hno
    have hfollows : Follows (strtol s).2 := hfollow.imp_right Or.inl
    have hvalue := thousandths_some hfollow hthousandths
    rw [(strtol_parts hfollows).1] at hvalue
    have hbounds : 0 ≤ w ∧ w ≤ 59999 := by
      have hfrac := fraction_lt (fraction_digits (parts s).2.2) 3
      generalize number (fraction (parts s).2.2) * 10 ^ 3 / 10 ^ (fraction (parts s).2.2).length = x at hvalue hfrac
      omega
    refine ⟨⟨hbounds.1, hbounds.2, fun hd => by_contra fun hne => hlimit ⟨hd, hne⟩⟩, ?_, ?_⟩
    · rintro ⟨hfits, hneg⟩
      rw [toInt_fits hfits] at hvalue hrange
      have hsigned := strtol_signed (-2 ^ 31) (2 ^ 31) hfollows (by omega) (by omega) hfits.1 hfits.2.le
      have hn : (number (parts s).2.1 : ℤ) = (strtol s).1 := by
        unfold signed at hsigned
        split_ifs at hsigned <;> omega
      have hfloor := floor_writtenAbs s 1000
      rw [written_of_not_negative hneg (by omega)]
      refine ⟨writtenAbs_nonneg s, ?_, ?_⟩
      · have hlt := writtenAbs_lt s
        have hle : (number (parts s).2.1 : ℚ) ≤ 59 := by exact_mod_cast (show number (parts s).2.1 ≤ 59 by omega)
        linarith
      · push_cast at hfloor
        rw [hfloor, hvalue, ← hn]
        push_cast
        rfl
    · intro hbad
      by_cases hfits : FitsInt s
      · left
        exact written_negative (by_contra fun hneg => hbad ⟨hfits, hneg⟩)
      · exact written_large hfollows hfits

theorem metres_spec {lo hi m cm : ℤ} {back : Bool} (h : metres lo hi back s = .ok (m, cm)) :
    Follows (strtol s).2 ∧ m = (strtol s).1 ∧ lo ≤ m ∧ m ≤ hi ∧ (fraction (parts s).2.2).length ≤ 2 ∧
      cm = signed (decide (m < 0)) (number (fraction (parts s).2.2) * 10 ^ 2 / 10 ^ (fraction (parts s).2.2).length) := by
  unfold metres at h
  simp only at h
  split_ifs at h with hrest hrange
  have hfollows : Follows (strtol s).2 := by
    by_contra hno
    unfold Follows at hno
    simp only [not_or] at hno
    exact hrest hno
  have hzero : ∀ b, signed b (number [] * 10 ^ 2 / 10 ^ ([] : Bytes).length) = 0 := by
    intro b
    simp [signed, number]
  rw [← (strtol_parts hfollows).1]
  generalize hm : (strtol s).1 = w at *
  generalize he : (strtol s).2 = e at *
  split at h
  · cases h
  next cm' l hdec =>
    have hends : NoDigit l ∧ w = m ∧ cm' = cm := by
      split_ifs at h with hunit hrest' hrest'
      · obtain ⟨h1, h2⟩ := Prod.mk.inj (Except.ok.inj h)
        refine ⟨fun c hc => ?_, h1, h2⟩
        rw [hunit, Option.mem_some_iff] at hc
        rw [← hc]
        rfl
      · obtain ⟨h1, h2⟩ := Prod.mk.inj (Except.ok.inj h)
        rw [not_not.1 hrest']
        exact ⟨noDigit_nil, h1, h2⟩
    obtain ⟨hl, rfl, rfl⟩ := hends
    refine ⟨hfollows, rfl, by omega, by omega, ?_⟩
    split at hdec
    · next f =>
        obtain ⟨ds, rfl, hds, hlen, hstop, hv⟩ := decimals_some 2 hdec
        have hfraction : fraction (46 :: (ds ++ l)) = ds := (takeWhile_digits hds hl).1
        have htake : ds.take 2 = ds := take_of_length_le hlen
        rw [hfraction, fraction_take hds, htake, hv]
        exact ⟨hlen, by simp⟩
    next hpoint =>
      have hfraction : fraction e = [] := by
        unfold fraction
        split
        · next f => exact (hpoint f rfl).elim
        · rfl
      have hcm : cm' = 0 := (Prod.mk.inj (Option.some.inj hdec)).1.symm
      rw [hfraction, hzero, hcm]
      exact ⟨by simp, rfl⟩

theorem altitude_spec (h : altitude s = .ok v) : (0 ≤ v ∧ v < 2 ^ 32) ∧
    (v = truncated 100 (written s) + 10000000 ↔ ¬NegativeFraction s) := by
  unfold altitude at h
  split at h
  · cases h
  next m cm hmetres =>
    obtain ⟨hfollows, hm, hlo, hhi, hlen, hcm⟩ := metres_spec hmetres
    split_ifs at h with hlow hhigh
    have hv : (m + 100000) * 100 + cm = v := Except.ok.inj h
    have hfrac := fraction_lt (fraction_digits (parts s).2.2) 2
    have hsigned := strtol_signed (-100000) 42849672 hfollows (by omega) (by omega) (hm ▸ hlo) (hm ▸ hhi)
    have hfloor := floor_writtenAbs s 100
    have hpos : number (fraction (parts s).2.2) ≠ 0 →
        0 < number (fraction (parts s).2.2) * 10 ^ 2 / 10 ^ (fraction (parts s).2.2).length := by
      intro hne
      have htake : (fraction (parts s).2.2).take 2 = fraction (parts s).2.2 := take_of_length_le hlen
      rw [fraction_take (fraction_digits _), htake]
      have := Nat.pos_of_ne_zero hne
      positivity
    have hcents : ⌊writtenAbs s * (100 : ℕ)⌋ = ((number (parts s).2.1 * 100 +
        number (fraction (parts s).2.2) * 10 ^ 2 / 10 ^ (fraction (parts s).2.2).length : ℕ) : ℤ) := hfloor
    generalize number (fraction (parts s).2.2) * 10 ^ 2 / 10 ^ (fraction (parts s).2.2).length = x at hcm hfrac hpos hcents
    rw [← hm] at hsigned
    have hbounds : 0 ≤ v ∧ v < 2 ^ 32 := by
      unfold signed at hcm
      split_ifs at hcm with hneg
      · have := of_decide_eq_true hneg
        omega
      · omega
    refine ⟨hbounds, ?_⟩
    have hnegative : written s < 0 → truncated 100 (written s) = -⌊writtenAbs s * (100 : ℕ)⌋ := by
      intro hlt
      have hw : written s = -writtenAbs s := by
        unfold written at hlt ⊢
        split_ifs at hlt ⊢
        · rfl
        · exact absurd hlt (not_lt.2 (writtenAbs_nonneg s))
      unfold truncated
      rw [if_neg (not_le.2 hlt), hw, neg_mul, Int.ceil_neg]
    by_cases hbad : NegativeFraction s
    · -- the sign is lost
      rw [hnegative (written_negative hbad), hcents]
      obtain ⟨hneg, hn, hf⟩ := hbad
      have hxpos := hpos hf
      have hm0 : m = 0 := by
        unfold signed at hsigned
        rw [hn] at hsigned
        split_ifs at hsigned ; omega
      have hcm' : cm = x := by
        rw [hcm, hm0]
        rfl
      refine ⟨fun heq => ?_, fun hno => absurd ⟨hneg, hn, hf⟩ hno⟩
      rw [hn] at heq
      omega
    refine ⟨fun _ => hbad, fun _ => ?_⟩
    by_cases hm0 : m < 0
    · have hneg : (parts s).1 = true ∧ (number (parts s).2.1 : ℤ) = -m := by
        unfold signed at hsigned
        split_ifs at hsigned with hs
        · exact ⟨hs, by omega⟩
        · omega
      have hwlt : written s < 0 := by
        have hone : (1 : ℚ) ≤ number (parts s).2.1 := by exact_mod_cast (show 1 ≤ number (parts s).2.1 by omega)
        have habs : (number (parts s).2.1 : ℚ) ≤ writtenAbs s := by
          have : (0 : ℚ) ≤ number (fraction (parts s).2.2) / 10 ^ (fraction (parts s).2.2).length := by positivity
          unfold writtenAbs
          linarith
        unfold written
        rw [if_pos hneg.1]
        linarith
      have hcm' : cm = -(x : ℤ) := by
        rw [hcm, decide_eq_true hm0]
        rfl
      rw [hnegative hwlt, hcents]
      omega
    have hn : (number (parts s).2.1 : ℤ) = m := by
      unfold signed at hsigned
      split_ifs at hsigned <;> omega
    have hcm' : cm = x := by
      rw [hcm, decide_eq_false hm0]
      rfl
    unfold truncated
    rw [written_of_not_negative hbad (by omega), if_pos (writtenAbs_nonneg s), hcents]
    omega

end Tokens

/-! ### The sizes -/

theorem exponent_spec {m : ℤ} (h : 0 < m) : ∀ n exp, 10 ^ exp ≤ m → m < 10 ^ (exp + n + 1) →
    10 ^ exponent m n exp ≤ m ∧ m < 10 ^ (exponent m n exp + 1) ∧ exponent m n exp ≤ exp + n
  | 0, _, hle, hlt => ⟨hle, hlt, le_rfl⟩
  | n + 1, exp, hle, hlt => by
    unfold exponent
    split_ifs with hsmall
    · exact ⟨hle, hsmall, by omega⟩
    · obtain ⟨h1, h2, h3⟩ := exponent_spec h n (exp + 1) (by omega) (by rw [show exp + 1 + n + 1 = exp + (n + 1) + 1 by omega]; exact hlt)
      exact ⟨h1, h2, by omega⟩

theorem precisionOk_digits {man exp : ℕ} (hman : man < 10) (hexp : exp < 10) (h : man ≠ 0 ∨ exp = 0) :
    Rdata.precisionOk (UInt8.ofNat (man * 16 + exp)) := by
  have hall : ∀ man exp : Fin 10, man.val ≠ 0 ∨ exp.val = 0 →
      UInt8.ofNat (man.val * 16 + exp.val) = 0 ∨ Rdata.badPrecision (UInt8.ofNat (man.val * 16 + exp.val)) = false := by
    decide +kernel
  exact hall ⟨man, hman⟩ ⟨exp, hexp⟩ h

/-- A size that is read is one that `fromwire_loc` accepts. -/
theorem precision_ok {s : Bytes} {c : UInt8} (h : precision s = .ok c) : Rdata.precisionOk c := by
  unfold precision at h
  split at h
  · cases h
  next m cm hmetres =>
    obtain ⟨-, -, hlo, hhi, -, hcm⟩ := metres_spec hmetres
    have hfrac := fraction_lt (fraction_digits (parts s).2.2) 2
    have hsign : decide (m < 0) = false := decide_eq_false (by omega)
    rw [hsign] at hcm
    generalize number (fraction (parts s).2.2) * 10 ^ 2 / 10 ^ (fraction (parts s).2.2).length = x at hcm hfrac
    have hx : cm = x := hcm
    rw [← Except.ok.inj h]
    unfold sizeByte
    split_ifs with hpos htens
    · obtain ⟨h1, h2, h3⟩ := exponent_spec hpos 7 0 (by omega) (by omega)
      have hman1 : 1 ≤ m / 10 ^ exponent m 7 0 := Int.le_ediv_of_mul_le (by positivity) (by omega)
      have hman2 : m / 10 ^ exponent m 7 0 < 10 := by
        apply Int.ediv_lt_of_lt_mul (by positivity)
        rw [pow_succ] at h2
        omega
      exact precisionOk_digits (by omega) (by omega) (Or.inl (by omega))
    · exact precisionOk_digits (by omega) (by omega) (Or.inl (by omega))
    · exact @precisionOk_digits cm.toNat 0 (by omega) (by omega) (Or.inr rfl)

theorem precisions_ok : ∀ {defaults cs : Bytes} {lex lex' : Lexer}, precisions defaults lex = .ok (cs, lex') →
    (∀ c ∈ defaults, Rdata.precisionOk c) → (∀ c ∈ cs, Rdata.precisionOk c) ∧ cs.length = defaults.length
  | [], _, _, _, h, _ => by
    cases h
    exact ⟨by simp, rfl⟩
  | default :: defaults, cs, lex, lex', h, hdefaults => by
    unfold precisions at h
    obtain ⟨⟨token, lex1⟩, -, h⟩ := bind_eq_ok h
    simp only at h
    split_ifs at h
    · cases h
      exact ⟨hdefaults, rfl⟩
    · obtain ⟨c, hc, h⟩ := bind_eq_ok h
      obtain ⟨⟨cs', lex2⟩, hrest, h⟩ := bind_eq_ok h
      cases h
      obtain ⟨hcs, hlen⟩ := precisions_ok hrest (fun c hc => hdefaults c (mem_cons_of_mem _ hc))
      have hp : Rdata.precisionOk c := by
        cases hread : precision token.asStr with
        | error e =>
          rw [hread] at hc
          cases hc
        | ok c' =>
          rw [hread] at hc
          cases hc
          exact precision_ok hread
      exact ⟨forall_mem_cons.2 ⟨hp, hcs⟩, by simp [hlen]⟩

/-! ### The text -/

/-- The next token is the string. -/
def Next (lex : Lexer) (s : Bytes) (lex' : Lexer) : Prop :=
  ∃ token, getmastertoken lex .string false = .ok (token, lex') ∧ token.asStr = s

/-- A latitude or longitude as it is written. -/
structure AngleText where
  degrees : ℕ
  minutes : Option Bytes
  seconds : Option Bytes
  positive : Bool

/-- The tokens of a latitude or longitude. -/
inductive AngleText.Read (pos neg : UInt8) : Lexer → AngleText → Lexer → Prop
  | degrees {lex lex1 lex2 : Lexer} {d : ℕ} {s : Bytes} {positive : Bool}
      (hd : getmastertoken lex .number false = .ok (.number d, lex1)) (hs : Next lex1 s lex2)
      (hdir : direction pos neg s = some positive) : AngleText.Read pos neg lex ⟨d, none, none, positive⟩ lex2
  | minutes {lex lex1 lex2 lex3 : Lexer} {d : ℕ} {m s : Bytes} {positive : Bool}
      (hd : getmastertoken lex .number false = .ok (.number d, lex1)) (hm : Next lex1 m lex2) (hno : direction pos neg m = none)
      (hs : Next lex2 s lex3) (hdir : direction pos neg s = some positive) :
      AngleText.Read pos neg lex ⟨d, some m, none, positive⟩ lex3
  | seconds {lex lex1 lex2 lex3 lex4 : Lexer} {d : ℕ} {m c s : Bytes} {positive : Bool}
      (hd : getmastertoken lex .number false = .ok (.number d, lex1)) (hm : Next lex1 m lex2) (hno : direction pos neg m = none)
      (hc : Next lex2 c lex3) (hno' : direction pos neg c = none) (hs : Next lex3 s lex4)
      (hdir : direction pos neg s = some positive) : AngleText.Read pos neg lex ⟨d, some m, some c, positive⟩ lex4

namespace AngleText

variable (w : AngleText)

def min : ℚ := match w.minutes with | some s => written s | none => 0

def sec : ℚ := match w.seconds with | some s => written s | none => 0

/-- Minutes and seconds from 0 to 59. -/
def InRange : Prop := 0 ≤ w.min ∧ w.min < 60 ∧ 0 ≤ w.sec ∧ w.sec < 60

/-- The field is the number that is written, in thousandths of a second. -/
def Exact (field : ℕ) : Prop :=
  (field : ℤ) = 0x80000000 + (if w.positive then 1 else -1) * truncated 1000 (w.degrees * 3600 + w.min * 60 + w.sec)

/-- The numbers fit an `int`, and no minus sign gets lost. -/
def Fits : Prop := (∀ s ∈ w.minutes, FitsInt s) ∧ ∀ s ∈ w.seconds, FitsInt s ∧ ¬NegativeFraction s

end AngleText

/-- A LOC record as it is written, up to the altitude. -/
structure LocText where
  latitude : AngleText
  longitude : AngleText
  altitude : Bytes

/-- The tokens of a LOC record. -/
def LocText.Read (w : LocText) (lex : Lexer) : Prop :=
  ∃ lex1 lex2 lex3, w.latitude.Read 78 83 lex lex1 ∧ w.longitude.Read 69 87 lex1 lex2 ∧ Next lex2 w.altitude lex3

/-! ### The coordinates -/

variable {lex lex' : Lexer}

theorem master_ok {expect : Expect} {eol : Bool} {x : Token × Lexer} (h : master lex expect eol = .ok x) :
    getmastertoken lex expect eol = .ok x := by
  unfold master at h
  split at h
  · cases h
  · next hx => rw [hx, Except.ok.inj h]

theorem next_of_master {token : Token} (h : master lex .string false = .ok (token, lex')) :
    Next lex token.asStr lex' := ⟨token, master_ok h, rfl⟩

theorem rettok_ok {α : Type} {x : Except Result α} {a : α} (h : rettok lex x = .ok a) : x = .ok a := by
  cases x with
  | error r => cases h
  | ok b => rw [Except.ok.inj h]

theorem rettokIf_ok {α : Type} {x : Except (Result × Bool) α} {a : α} (h : rettokIf lex x = .ok a) : x = .ok a := by
  cases x with
  | error r => cases h
  | ok b => rw [Except.ok.inj h]

theorem number_token {token : Token} (h : getmastertoken lex .number false = .ok (token, lex')) :
    token = .number (asUlong token) := by
  unfold getmastertoken at h
  split at h
  · cases h
  next t _ _ =>
    rw [if_neg (by simp), if_neg (by simp)] at h
    split_ifs at h with htype
    obtain ⟨rfl, -⟩ := Prod.mk.inj (Except.ok.inj h)
    cases t with
    | number n => rfl
    | string _ | qstring _ | special _ | eol | eof => cases htype

/-- What is known about a latitude or longitude that has been read. -/
structure Angle.Bounded (limit : ℕ) (a : Angle) : Prop where
  d_le : a.d ≤ limit
  m_nonneg : 0 ≤ a.m
  m_le : a.m ≤ 59
  s_nonneg : 0 ≤ a.s
  s_le : a.s ≤ 59999
  pole : a.d = limit → a.m = 0 ∧ a.s = 0

variable {a : Angle}

theorem Angle.Bounded.value {limit : ℕ} (h : a.Bounded limit) (hlimit : limit ≤ 180) :
    (a.value : ℤ) = 0x80000000 + (if a.positive then 1 else -1) * ((a.d * 3600 + a.m * 60) * 1000 + a.s) ∧
      magnitude a.value ≤ limit * 3600000 := by
  obtain ⟨hd, hm1, hm2, hs1, hs2, hpole⟩ := h
  have hsum : (a.d * 3600 + a.m * 60) * 1000 + a.s ≤ limit * 3600000 := by
    by_cases he : a.d = limit
    · obtain ⟨h1, h2⟩ := hpole he
      omega
    · omega
  have hvalue : (a.value : ℤ) = 0x80000000 + (if a.positive then 1 else -1) * ((a.d * 3600 + a.m * 60) * 1000 + a.s) := by
    unfold Angle.value
    dsimp only
    split_ifs <;> omega
  refine ⟨hvalue, ?_⟩
  unfold magnitude
  split_ifs at hvalue ⊢ <;> omega

/-- Whole degrees and minutes are not cut off. -/
theorem truncated_angle {d : ℕ} {m : ℤ} {q : ℚ} (hm : 0 ≤ m) (hq : 0 ≤ q) :
    truncated 1000 (d * 3600 + m * 60 + q) = (d * 3600 + m * 60) * 1000 + ⌊q * 1000⌋ := by
  have hm' : (0 : ℚ) ≤ m := by exact_mod_cast hm
  have hsplit : ((d : ℚ) * 3600 + m * 60 + q) * (1000 : ℕ) = (((d * 3600 + m * 60) * 1000 : ℤ) : ℚ) + q * 1000 := by
    push_cast
    ring
  unfold truncated
  rw [if_pos (by positivity), hsplit, Int.floor_intCast_add]

/-- When the field is what is written: the minutes and the seconds are the ones written, each if it fits. -/
theorem exact_iff {limit : ℕ} {w : AngleText} (hb : a.Bounded limit) (hlimit : limit ≤ 180) (hd : w.degrees = a.d)
    (hpositive : w.positive = a.positive) (hmin : (∀ s ∈ w.minutes, FitsInt s) → w.min = a.m)
    (hmin' : ¬(∀ s ∈ w.minutes, FitsInt s) → w.min < 0 ∨ 60 ≤ w.min)
    (hsec : (∀ s ∈ w.seconds, FitsInt s ∧ ¬NegativeFraction s) → 0 ≤ w.sec ∧ w.sec < 60 ∧ ⌊w.sec * 1000⌋ = a.s)
    (hsec' : ¬(∀ s ∈ w.seconds, FitsInt s ∧ ¬NegativeFraction s) → w.sec < 0 ∨ 60 ≤ w.sec) :
    (w.InRange ∧ w.Exact a.value) ↔ w.Fits := by
  constructor
  · rintro ⟨⟨hm1, hm2, hs1, hs2⟩, -⟩
    refine ⟨by_contra fun hno => ?_, by_contra fun hno => ?_⟩
    · obtain h | h := hmin' hno
      · exact absurd hm1 (not_le.2 h)
      · exact absurd hm2 (not_lt.2 h)
    · obtain h | h := hsec' hno
      · exact absurd hs1 (not_le.2 h)
      · exact absurd hs2 (not_lt.2 h)
  · rintro ⟨hm, hs⟩
    obtain ⟨hs1, hs2, hfloor⟩ := hsec hs
    have hm1 : (0 : ℚ) ≤ a.m := by exact_mod_cast hb.m_nonneg
    have hm2 : (a.m : ℚ) < 60 := by exact_mod_cast (show a.m < 60 by have := hb.m_le; omega)
    refine ⟨⟨by rw [hmin hm]; exact hm1, by rw [hmin hm]; exact hm2, hs1, hs2⟩, ?_⟩
    unfold AngleText.Exact
    rw [hmin hm, hd, hpositive, truncated_angle hb.m_nonneg hs1, hfloor]
    exact (hb.value hlimit).1

/-- A latitude or longitude that is accepted, and when it is the one written. -/
theorem fromtextAngle_spec {limit : ℕ} {pos neg : UInt8} (hlimit : limit ≤ 180)
    (h : fromtextAngle lex limit pos neg = .ok (a, lex')) :
    ∃ w : AngleText, w.Read pos neg lex lex' ∧ magnitude a.value ≤ limit * 3600000 ∧
      ((w.InRange ∧ w.Exact a.value) ↔ w.Fits) := by
  unfold fromtextAngle at h
  obtain ⟨⟨token0, lex1⟩, hd, h⟩ := bind_eq_ok h
  simp only at h
  by_cases hrange : limit < asUlong token0
  · rw [if_pos hrange] at h
    cases h
  rw [if_neg hrange] at h
  have hdegrees : getmastertoken lex .number false = .ok (.number (asUlong token0), lex1) := by
    rw [← number_token (master_ok hd)]
    exact master_ok hd
  generalize asUlong token0 = d at *
  obtain ⟨⟨token1, lex2⟩, hfirst, h⟩ := bind_eq_ok h
  cases hdir1 : direction pos neg token1.asStr with
  | some positive =>
    rw [hdir1] at h
    cases h
    have hb : Angle.Bounded limit ⟨d, 0, 0, positive⟩ :=
      ⟨not_lt.1 hrange, le_rfl, (by decide : (0 : ℤ) ≤ 59), le_rfl, (by decide : (0 : ℤ) ≤ 59999), fun _ => ⟨rfl, rfl⟩⟩
    refine ⟨_, .degrees hdegrees (next_of_master hfirst) hdir1, (hb.value hlimit).2, exact_iff hb hlimit rfl rfl ?_ ?_ ?_ ?_⟩
    · exact fun _ => by simp [AngleText.min]
    · exact fun hno => absurd (by simp) hno
    · exact fun _ => by simp [AngleText.sec]
    · exact fun hno => absurd (by simp) hno
  | none =>
    rw [hdir1] at h
    obtain ⟨m, hm, h⟩ := bind_eq_ok h
    obtain ⟨⟨token2, lex3⟩, hsecond, h⟩ := bind_eq_ok h
    obtain ⟨⟨hm1, hm2, hm3⟩, hfits, hlarge⟩ := minutes_spec (rettok_ok hm)
    cases hdir2 : direction pos neg token2.asStr with
    | some positive =>
      rw [hdir2] at h
      cases h
      have hb : Angle.Bounded limit ⟨d, m, 0, positive⟩ :=
        ⟨not_lt.1 hrange, hm1, hm2, le_rfl, (by decide : (0 : ℤ) ≤ 59999), fun e => ⟨hm3 e, rfl⟩⟩
      refine ⟨_, .minutes hdegrees (next_of_master hfirst) hdir1 (next_of_master hsecond) hdir2, (hb.value hlimit).2,
        exact_iff hb hlimit rfl rfl ?_ ?_ ?_ ?_⟩
      · exact fun hno => hfits (hno _ rfl)
      · exact fun hno => hlarge (fun hf => hno (by simpa using hf))
      · exact fun _ => by simp [AngleText.sec]
      · exact fun hno => absurd (by simp) hno
    | none =>
      rw [hdir2] at h
      obtain ⟨s, hs, h⟩ := bind_eq_ok h
      obtain ⟨⟨token3, lex4⟩, hthird, h⟩ := bind_eq_ok h
      obtain ⟨⟨hs1, hs2, hs3⟩, hsfits, hslarge⟩ := seconds_spec (rettok_ok hs)
      cases hdir3 : direction pos neg token3.asStr with
      | none =>
        rw [hdir3] at h
        cases h
      | some positive =>
        rw [hdir3] at h
        cases h
        have hb : Angle.Bounded limit ⟨d, m, s, positive⟩ :=
          ⟨not_lt.1 hrange, hm1, hm2, hs1, hs2, fun e => ⟨hm3 e, hs3 e⟩⟩
        refine ⟨_, .seconds hdegrees (next_of_master hfirst) hdir1 (next_of_master hsecond) hdir2 (next_of_master hthird) hdir3,
          (hb.value hlimit).2, exact_iff hb hlimit rfl rfl ?_ ?_ ?_ ?_⟩
        · exact fun hno => hfits (hno _ rfl)
        · exact fun hno => hlarge (fun hf => hno (by simpa using hf))
        · exact fun hno => hsfits (hno _ rfl)
        · exact fun hno => hslarge (fun hf => hno (by simpa using hf))

/-! ### The records -/

section Records

variable {size horizontal vertical : UInt8} {latitude longitude altitude : ℕ}

theorem magnitude_lt {field limit : ℕ} (hlimit : limit ≤ 180) (h : magnitude field ≤ limit * 3600000) : field < 2 ^ 32 ∧
    ¬(field < 0x80000000 - limit * 3600000 ∨ 0x80000000 + limit * 3600000 < field) := by
  unfold magnitude at h
  split_ifs at h <;> omega

theorem magnitude_le {field limit : ℕ} (h : 0x80000000 - limit * 3600000 ≤ field ∧ field ≤ 0x80000000 + limit * 3600000) :
    magnitude field ≤ limit * 3600000 := by
  unfold magnitude
  split_ifs <;> omega

theorem fromwireLoc_locBytes {env : Rdata.WireEnv} {st : Rdata.WireState}
    (hregion : env.activeregion st = locBytes [size, horizontal, vertical] latitude longitude altitude)
    (hsize : Rdata.precisionOk size) (hhorizontal : Rdata.precisionOk horizontal) (hvertical : Rdata.precisionOk vertical)
    (hlatitude : magnitude latitude ≤ 90 * 3600000) (hlongitude : magnitude longitude ≤ 180 * 3600000)
    (hroom : 16 ≤ st.target.available) : ∃ st', Rdata.fromwireLoc env st = .ok st' ∧
      st'.target = st.target.put (locBytes [size, horizontal, vertical] latitude longitude altitude) := by
  have hprecision : ∀ {c : UInt8}, Rdata.precisionOk c → ¬(c ≠ 0 ∧ Rdata.badPrecision c = true) := by
    rintro c (rfl | hc) ⟨h1, h2⟩
    · exact h1 rfl
    · rw [hc] at h2
      cases h2
  obtain ⟨hlat, hlatrange⟩ := magnitude_lt (by omega) hlatitude
  obtain ⟨hlong, hlongrange⟩ := magnitude_lt (by omega) hlongitude
  have hbytes : locBytes [size, horizontal, vertical] latitude longitude altitude =
      0 :: size :: horizontal :: vertical :: (uint32Bytes latitude ++ (uint32Bytes longitude ++ uint32Bytes altitude)) := rfl
  have hlength : (locBytes [size, horizontal, vertical] latitude longitude altitude).length = 16 := rfl
  have hfour : ∀ v rest, consume (uint32Bytes v ++ rest) 4 = .ok rest := fun v rest => consume_append rfl
  have htake : (locBytes [size, horizontal, vertical] latitude longitude altitude).take 16 =
      locBytes [size, horizontal, vertical] latitude longitude altitude := take_of_length_le hlength.le
  refine ⟨⟨st.current + 16, st.target.put (locBytes [size, horizontal, vertical] latitude longitude altitude)⟩, ?_, rfl⟩
  have hversion : (locBytes [size, horizontal, vertical] latitude longitude altitude).getD 0 0 = 0 := rfl
  have hget1 : (locBytes [size, horizontal, vertical] latitude longitude altitude).getD 1 0 = size := rfl
  have hget2 : (locBytes [size, horizontal, vertical] latitude longitude altitude).getD 2 0 = horizontal := rfl
  have hget3 : (locBytes [size, horizontal, vertical] latitude longitude altitude).getD 3 0 = vertical := rfl
  unfold Rdata.fromwireLoc
  simp only [hregion]
  rw [hversion, hget1, hget2, hget3, if_neg (by omega), if_neg (not_not.2 rfl), if_neg (by omega), if_neg (hprecision hsize), if_neg (hprecision hhorizontal),
    if_neg (hprecision hvertical), hbytes, consume_four]
  simp only [ok_then, uint32Fromregion_append hlat]
  rw [if_neg hlatrange, hfour]
  simp only [ok_then, uint32Fromregion_append hlong]
  rw [if_neg hlongrange]
  unfold Rdata.fixedFromwire
  simp only [hregion]
  rw [if_neg (by omega), htake]
  unfold Rdata.WireState.mem
  rw [memTobuffer_ok (by omega)]
  rfl

theorem locBytes_of_fromwireLoc {env : Rdata.WireEnv} {st st' : Rdata.WireState} {r : Bytes}
    (h : Rdata.fromwireLoc env st = .ok st') (hr : st'.target = st.target.put r) :
    ∃ size horizontal vertical latitude longitude altitude, r = locBytes [size, horizontal, vertical] latitude longitude altitude ∧
      Rdata.precisionOk size ∧ Rdata.precisionOk horizontal ∧ Rdata.precisionOk vertical ∧
      magnitude latitude ≤ 90 * 3600000 ∧ magnitude longitude ≤ 180 * 3600000 ∧ altitude < 2 ^ 32 := by
  obtain ⟨r', hr', hlayout⟩ := Rdata.fromwireLoc_layout h
  have heq : r = r' := by
    rw [hr'] at hr
    exact (append_cancel_left (congrArg Buffer.data hr)).symm
  subst heq
  cases hlayout with
  | loc size horizontal vertical a0 a1 a2 a3 o0 o1 o2 o3 t0 t1 t2 t3 hs hh hv hlat hlong =>
    obtain ⟨lat, hlat, hlat1, hlat2⟩ := hlat
    obtain ⟨long, hlong, hlong1, hlong2⟩ := hlong
    simp only [uint32Fromregion, Except.ok.injEq] at hlat hlong
    refine ⟨size, horizontal, vertical, ((a0.toNat * 256 + a1.toNat) * 256 + a2.toNat) * 256 + a3.toNat,
      ((o0.toNat * 256 + o1.toNat) * 256 + o2.toNat) * 256 + o3.toNat,
      ((t0.toNat * 256 + t1.toNat) * 256 + t2.toNat) * 256 + t3.toNat, ?_, hs, hh, hv, ?_, ?_, ?_⟩
    · unfold locBytes
      rw [uint32Bytes_read, uint32Bytes_read, uint32Bytes_read]
      rfl
    · rw [hlat]
      exact magnitude_le ⟨hlat1, hlat2⟩
    · rw [hlong]
      exact magnitude_le ⟨hlong1, hlong2⟩
    · have h0 := t0.toNat_lt
      have h1 := t1.toNat_lt
      have h2 := t2.toNat_lt
      have h3 := t3.toNat_lt
      omega

theorem locBytes_drop (size horizontal vertical : UInt8) (latitude longitude : ℕ) (haltitude : altitude < 2 ^ 32) :
    uint32Fromregion ((locBytes [size, horizontal, vertical] latitude longitude altitude).drop 12) = .ok altitude := by
  have h := uint32Fromregion_append haltitude []
  rw [append_nil] at h
  exact h

theorem encode_ok {target target' : Buffer}
    (h : encode [size, horizontal, vertical] latitude longitude altitude target = .ok target') :
    target' = target.put (locBytes [size, horizontal, vertical] latitude longitude altitude) := by
  unfold encode at h
  simp only [foldlM_cons, foldlM_nil] at h
  obtain ⟨t0, h0, h⟩ := bind_eq_ok h
  obtain ⟨t, ht, h⟩ := bind_eq_ok h
  obtain ⟨t1, h1, ht⟩ := bind_eq_ok ht
  obtain ⟨t2, h2, ht⟩ := bind_eq_ok ht
  obtain ⟨t3, h3, ht⟩ := bind_eq_ok ht
  cases ht
  obtain ⟨t4, h4, h⟩ := bind_eq_ok h
  obtain ⟨t5, h5, h⟩ := bind_eq_ok h
  have e4 := memTobuffer_eq_ok (show memTobuffer t (uint32Bytes latitude) = .ok t4 from h4)
  have e5 := memTobuffer_eq_ok (show memTobuffer t4 (uint32Bytes longitude) = .ok t5 from h5)
  have e := memTobuffer_eq_ok (show memTobuffer t5 (uint32Bytes altitude) = .ok target' from h)
  rw [e, e5, e4, memTobuffer_eq_ok h3, memTobuffer_eq_ok h2, memTobuffer_eq_ok h1, memTobuffer_eq_ok h0]
  simp [locBytes]

end Records

/-- The fields are the numbers that are written. -/
def LocText.Exact (w : LocText) (latitude longitude altitude : ℕ) : Prop :=
  (w.latitude.InRange ∧ w.latitude.Exact latitude) ∧ (w.longitude.InRange ∧ w.longitude.Exact longitude) ∧
    (altitude : ℤ) = truncated 100 (written w.altitude) + 10000000

/-- The numbers fit, and no minus sign gets lost. -/
def LocText.Fits (w : LocText) : Prop := w.latitude.Fits ∧ w.longitude.Fits ∧ ¬NegativeFraction w.altitude

theorem fromtextLoc_spec {target target' : Buffer} (h : fromtextLoc lex target = .ok (target', lex')) :
    ∃ (w : LocText) (size horizontal vertical : UInt8) (latitude longitude altitude : ℕ), w.Read lex ∧
      target' = target.put (locBytes [size, horizontal, vertical] latitude longitude altitude) ∧
      Rdata.precisionOk size ∧ Rdata.precisionOk horizontal ∧ Rdata.precisionOk vertical ∧
      magnitude latitude ≤ 90 * 3600000 ∧ magnitude longitude ≤ 180 * 3600000 ∧ altitude < 2 ^ 32 ∧
      (w.Exact latitude longitude altitude ↔ w.Fits) := by
  unfold fromtextLoc at h
  obtain ⟨⟨lat, lex1⟩, hlat, h⟩ := bind_eq_ok h
  obtain ⟨⟨long, lex2⟩, hlong, h⟩ := bind_eq_ok h
  obtain ⟨⟨token, lex3⟩, htoken, h⟩ := bind_eq_ok h
  obtain ⟨alt, halt, h⟩ := bind_eq_ok h
  obtain ⟨⟨sizes, lex4⟩, hsizes, h⟩ := bind_eq_ok h
  simp only at h hlong htoken halt hsizes
  obtain ⟨w₁, hread1, hmag1, hexact1⟩ := fromtextAngle_spec (by omega) hlat
  obtain ⟨w₂, hread2, hmag2, hexact2⟩ := fromtextAngle_spec (by omega) hlong
  obtain ⟨⟨halt1, halt2⟩, hexact3⟩ := altitude_spec (rettokIf_ok halt)
  have hdefaults : ∀ c ∈ ([0x12, 0x16, 0x13] : Bytes), Rdata.precisionOk c := by
    intro c hc
    simp only [mem_cons, not_mem_nil, or_false] at hc
    obtain rfl | rfl | rfl := hc <;> exact .inr (by decide)
  obtain ⟨hok, hlength⟩ := precisions_ok hsizes hdefaults
  obtain ⟨size, horizontal, vertical, rfl⟩ : ∃ a b c, sizes = [a, b, c] := length_eq_three.1 hlength
  cases hencode : encode [size, horizontal, vertical] lat.value long.value (alt % 2 ^ 32).toNat target with
  | error e =>
    rw [hencode] at h
    cases h
  | ok t =>
    rw [hencode] at h
    cases h
    have hput := encode_ok hencode
    have haltitude : (((alt % 2 ^ 32).toNat : ℕ) : ℤ) = alt := by omega
    have hlt : (alt % 2 ^ 32).toNat < 2 ^ 32 := by omega
    generalize (alt % 2 ^ 32).toNat = altitude at hput haltitude hlt
    refine ⟨⟨w₁, w₂, token.asStr⟩, size, horizontal, vertical, lat.value, long.value, altitude,
      ⟨lex1, lex2, lex3, hread1, hread2, next_of_master htoken⟩, hput, hok _ mem_cons_self,
      hok _ (mem_cons_of_mem _ mem_cons_self), hok _ (mem_cons_of_mem _ (mem_cons_of_mem _ mem_cons_self)),
      hmag1, hmag2, hlt, ?_⟩
    unfold LocText.Exact LocText.Fits
    rw [haltitude]
    exact and_congr hexact1 (and_congr hexact2 hexact3)

/-- **LOC text.**  The rdata that `fromwire_loc` accepts is printed within the buffers, and read back as it was unless it is less than
a metre below the base.  A text that `fromtext_loc` accepts gives rdata that `fromwire_loc` accepts; it has the numbers that are written
if and only if these fit and no minus sign stands in front of nothing but a fraction. -/
theorem loc_text (env : Rdata.WireEnv) (st st' : Rdata.WireState) (r : Bytes) (lex lex' : Lexer) (target target' : Buffer) :
    (Rdata.fromwireLoc env st = .ok st' → st'.target = st.target.put r →
      ∃ text altitude, uint32Fromregion (r.drop 12) = .ok altitude ∧ (∀ target, totextLoc r target = memTobuffer target text) ∧
        ((∀ target : Buffer, 16 ≤ target.available → ∃ lex', fromtextLoc (openMaster text) target = .ok (target.put r, lex')) ↔
          ¬SignLost altitude)) ∧ (fromtextLoc lex target = .ok (target', lex') →
      ∃ (w : LocText) (r : Bytes) (latitude longitude altitude : ℕ), w.Read lex ∧ target' = target.put r ∧
        uint32Fromregion (r.drop 4) = .ok latitude ∧ uint32Fromregion (r.drop 8) = .ok longitude ∧
        uint32Fromregion (r.drop 12) = .ok altitude ∧
        (∀ (env : Rdata.WireEnv) (st : Rdata.WireState), env.activeregion st = r → 16 ≤ st.target.available →
          ∃ st', Rdata.fromwireLoc env st = .ok st' ∧ st'.target = st.target.put r) ∧
        (w.Exact latitude longitude altitude ↔ w.Fits)) := by
  refine ⟨fun h hr => ?_, fun h => ?_⟩
  · obtain ⟨size, horizontal, vertical, latitude, longitude, altitude, rfl, hs, hh, hv, hlat, hlong, halt⟩ := locBytes_of_fromwireLoc h hr
    obtain ⟨text, htext, hread⟩ := fromtextLoc_totextLoc hs hh hv hlat hlong halt
    refine ⟨text, altitude, locBytes_drop size horizontal vertical latitude longitude halt, htext, fun hall hlost => ?_,
      fun hkept target hroom => ?_⟩
    · -- the bytes that come back are those of another altitude
      have hroom : 16 ≤ (⟨[], 16⟩ : Buffer).available := by decide
      obtain ⟨lex1, h1⟩ := hread ⟨[], 16⟩ hroom
      obtain ⟨lex2, h2⟩ := hall ⟨[], 16⟩ hroom
      rw [if_pos hlost, h2] at h1
      have hdata := congrArg Buffer.data (Prod.mk.inj (Except.ok.inj h1)).1
      have hbytes := append_cancel_left hdata
      have hlt : 20000000 - altitude < 2 ^ 32 := by omega
      have hfield := locBytes_drop size horizontal vertical latitude longitude hlt
      rw [← hbytes, locBytes_drop size horizontal vertical latitude longitude halt] at hfield
      have heq : altitude = 20000000 - altitude := Except.ok.inj hfield
      obtain ⟨h3, h4⟩ := hlost
      omega
    · obtain ⟨lex', hlex'⟩ := hread target hroom
      rw [if_neg hkept] at hlex'
      exact ⟨lex', hlex'⟩
  · obtain ⟨w, size, horizontal, vertical, latitude, longitude, altitude, hread, hput, hs, hh, hv, hlat, hlong, halt, hexact⟩ :=
      fromtextLoc_spec h
    refine ⟨w, _, latitude, longitude, altitude, hread, hput, uint32Fromregion_append (magnitude_lt (by omega) hlat).1 _,
      uint32Fromregion_append (magnitude_lt (by omega) hlong).1 _, locBytes_drop size horizontal vertical latitude longitude halt,
      fun env st hregion hroom => fromwireLoc_locBytes hregion hs hh hv hlat hlong hroom, hexact⟩

/-- A record at latitude and longitude 0, with the default sizes. -/
def originBytes (altitude : ℕ) : Bytes := locBytes [0x12, 0x16, 0x13] 0x80000000 0x80000000 altitude

theorem fromwireLoc_originBytes (altitude : ℕ) :
    ∃ st', Rdata.fromwireLoc ⟨originBytes altitude, .none, false, fun _ => 0⟩ ⟨0, ⟨[], 16⟩⟩ = .ok st' ∧
      st'.target = (⟨[], 16⟩ : Buffer).put (originBytes altitude) := by
  have hregion : Rdata.WireEnv.activeregion ⟨originBytes altitude, .none, false, fun _ => 0⟩ ⟨0, ⟨[], 16⟩⟩ =
      locBytes [0x12, 0x16, 0x13] 0x80000000 0x80000000 altitude := drop_zero
  exact fromwireLoc_locBytes hregion (Or.inr (by decide)) (Or.inr (by decide)) (Or.inr (by decide)) (by decide) (by decide) (by decide)

theorem ok_of_toOption {x : Except (Stop × Lexer) (Buffer × Lexer)} {b : Buffer} (h : x.toOption.map (fun y => y.1) = some b) :
    ∃ lex', x = .ok (b, lex') := by
  cases x with
  | error e => cases h
  | ok y => exact ⟨y.2, by rw [← Option.some.inj h]⟩

/-- 42 21 54.500 S 71 6 18.000 W -24.25m 30m 10000m 2000m. -/
def placeBytes : Bytes := locBytes [0x33, 0x16, 0x25] 1994969148 1891505648 9997575

/-- The same with fewer digits. -/
def placeText : Bytes :=
  [52, 50, 32, 50, 49, 32, 53, 52, 46, 53, 32, 83, 32, 55, 49, 32, 54, 32, 49, 56, 32, 87, 32, 45, 50, 52, 46, 50, 53, 109, 32,
    51, 48, 109, 32, 49, 48, 48, 48, 48, 109, 32, 50, 48, 48, 48, 109]

theorem loc_text_place : (∃ text altitude, uint32Fromregion (placeBytes.drop 12) = .ok altitude ∧
      (∀ target, totextLoc placeBytes target = memTobuffer target text) ∧
      ((∀ target : Buffer, 16 ≤ target.available → ∃ lex', fromtextLoc (openMaster text) target =
        .ok (target.put placeBytes, lex')) ↔ ¬SignLost altitude)) ∧
    ∃ (w : LocText) (r : Bytes) (latitude longitude altitude : ℕ),
      w.Read (openMaster placeText) ∧ (⟨[], 16⟩ : Buffer).put placeBytes = (⟨[], 16⟩ : Buffer).put r ∧
        uint32Fromregion (r.drop 4) = .ok latitude ∧ uint32Fromregion (r.drop 8) = .ok longitude ∧
        uint32Fromregion (r.drop 12) = .ok altitude ∧
        (∀ (env : Rdata.WireEnv) (st : Rdata.WireState), env.activeregion st = r → 16 ≤ st.target.available →
          ∃ st', Rdata.fromwireLoc env st = .ok st' ∧ st'.target = st.target.put r) ∧
        (w.Exact latitude longitude altitude ↔ w.Fits) := by
  have hregion : Rdata.WireEnv.activeregion ⟨placeBytes, .none, false, fun _ => 0⟩ ⟨0, ⟨[], 16⟩⟩ = placeBytes := drop_zero
  obtain ⟨st', h, hr⟩ := fromwireLoc_locBytes hregion (Or.inr (by decide)) (Or.inr (by decide)) (Or.inr (by decide)) (by decide)
    (by decide) (by decide)
  obtain ⟨lex', hread⟩ := ok_of_toOption (show ((fromtextLoc (openMaster placeText) ⟨[], 16⟩).toOption.map (fun x => x.1)) =
    some ((⟨[], 16⟩ : Buffer).put placeBytes) by decide +kernel)
  obtain ⟨hprint, hparse⟩ := loc_text ⟨placeBytes, .none, false, fun _ => 0⟩ ⟨0, ⟨[], 16⟩⟩ st' placeBytes (openMaster placeText) lex'
    ⟨[], 16⟩ ((⟨[], 16⟩ : Buffer).put placeBytes)
  exact ⟨hprint h hr, hparse hread⟩

/-- Half a metre below the base is printed as `-0.50m` and read as half a metre above it, and 2^32 minutes are read as none. -/
theorem loc_text_sign_lost :
    (∃ st', Rdata.fromwireLoc ⟨originBytes 9999950, .none, false, fun _ => 0⟩ ⟨0, ⟨[], 16⟩⟩ = .ok st' ∧
      st'.target = (⟨[], 16⟩ : Buffer).put (originBytes 9999950)) ∧
    -- "0 0 0.000 N 0 0 0.000 E -0.50m 1m 10000m 10m"
    totextLoc (originBytes 9999950) ⟨[], 80⟩ = .ok ⟨[48, 32, 48, 32, 48, 46, 48, 48, 48, 32, 78, 32, 48, 32, 48, 32, 48, 46,
      48, 48, 48, 32, 69, 32, 45, 48, 46, 53, 48, 109, 32, 49, 109, 32, 49, 48, 48, 48, 48, 109, 32, 49, 48, 109], 80⟩ ∧
    ((fromtextLoc (openMaster [48, 32, 48, 32, 48, 46, 48, 48, 48, 32, 78, 32, 48, 32, 48, 32, 48, 46, 48, 48, 48, 32, 69, 32, 45, 48, 46,
      53, 48, 109, 32, 49, 109, 32, 49, 48, 48, 48, 48, 109, 32, 49, 48, 109]) ⟨[], 16⟩).toOption.map (fun x => x.1.data)) =
      some (originBytes 10000050) ∧
    -- "0 4294967296 N 0 E 0m"
    ((fromtextLoc (openMaster [48, 32, 52, 50, 57, 52, 57, 54, 55, 50, 57, 54, 32, 78, 32, 48, 32, 69, 32, 48, 109]) ⟨[], 16⟩).toOption.map
      (fun x => x.1.data)) = some (originBytes 10000000) := by
  refine ⟨fromwireLoc_originBytes 9999950, ?_, ?_, ?_⟩ <;> decide +kernel

end Bind9.Loc
