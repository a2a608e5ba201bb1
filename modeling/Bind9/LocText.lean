import Mathlib.Data.List.TakeWhile
import Bind9.Loc
import Bind9.RpzName

/-! # The text of LOC rdata

What `fromtext_loc` makes of the text of `totext_loc`, and of the numbers written in any text. -/

namespace Bind9.Loc

open List

open Bind9.Lex

/-! ### Printed numbers -/

variable {c : UInt8}

theorem isdigit_of_isDigit (h : Rpz.isDigit 10 c = true) : isdigit c = true ∧ Rpz.digitValue c = c.toNat - 48 := by
  have hall : ∀ n : Fin 256, Rpz.isDigit 10 (UInt8.ofNat n.val) = true →
      isdigit (UInt8.ofNat n.val) = true ∧ Rpz.digitValue (UInt8.ofNat n.val) = (UInt8.ofNat n.val).toNat - 48 := by
    decide +kernel
  have hc := hall ⟨c.toNat, c.toNat_lt⟩
  simp only [UInt8.ofNat_toNat] at hc
  exact hc h

theorem number_of_isDigit : ∀ ds : Bytes, (∀ c ∈ ds, Rpz.isDigit 10 c = true) → ∀ n, ds.foldl (fun n c => n * 10 + Rpz.digitValue c) n =
    ds.foldl (fun n c => n * 10 + (c.toNat - 48)) n
  | [], _, _ => rfl
  | c :: ds, h, n => by
    rw [foldl_cons, foldl_cons, (isdigit_of_isDigit (h c mem_cons_self)).2]
    exact number_of_isDigit ds (fun x hx => h x (mem_cons_of_mem _ hx)) _
variable {n limit d field : ℕ}

theorem dec_isdigit : ∀ c ∈ dec n, isdigit c = true := fun c hc =>
  (isdigit_of_isDigit ((Rpz.numText_digits (by omega) (by omega) n).digits c hc)).1

theorem dec_ne_nil (n : ℕ) : dec n ≠ [] := (Rpz.numText_digits (by omega) (by omega) n : Rpz.Digits 10 _ n).ne

@[simp] theorem number_dec (n : ℕ) : number (dec n) = n := by
  have h : Rpz.Digits 10 (dec n) n := Rpz.numText_digits (by omega) (by omega) n
  have hvalue := h.value
  unfold Rpz.digitsValue at hvalue
  rw [number_of_isDigit _ h.digits] at hvalue
  exact hvalue

theorem dec_length_le {k : ℕ} (hk : 0 < k) (h : n < 10 ^ k) : (dec n).length ≤ k := by
  unfold dec Rpz.numText
  rw [length_map]
  exact (Nat.length_toDigits_le_iff (by omega) hk).2 h

theorem dec0_isdigit {w : ℕ} : ∀ c ∈ dec0 w n, isdigit c = true := by
  intro c hc
  obtain hc | hc := mem_append.1 hc
  · rw [eq_of_mem_replicate hc]
    rfl
  · exact dec_isdigit c hc

theorem number_replicate (k : ℕ) : number (replicate k 48) = 0 := by
  induction k with
  | zero => rfl
  | succ k ih =>
    rw [replicate_succ, number_cons, ih]
    simp

@[simp] theorem number_dec0 (w n : ℕ) : number (dec0 w n) = n := by
  unfold dec0
  rw [number_append, number_replicate, number_dec]
  omega

theorem dec0_length {w : ℕ} (hw : 0 < w) (h : n < 10 ^ w) : (dec0 w n).length = w := by
  have hle := dec_length_le hw h
  unfold dec0
  rw [length_append, length_replicate]
  omega

/-! ### Numbers that are read -/

/-- What cannot go on a run of digits. -/
def NoDigit (e : Bytes) : Prop := ∀ c ∈ e.head?, isdigit c = false

theorem takeWhile_digits {ds e : Bytes} (hds : ∀ c ∈ ds, isdigit c = true) (he : NoDigit e) :
    (ds ++ e).takeWhile isdigit = ds ∧ (ds ++ e).dropWhile isdigit = e := by
  rw [takeWhile_append_of_pos hds, dropWhile_append_of_pos hds]
  cases e with
  | nil => simp
  | cons c e =>
    have hc : ¬isdigit c = true := by simp [he c rfl]
    rw [takeWhile_cons_of_neg hc, dropWhile_cons_of_neg hc, append_nil]
    exact ⟨rfl, rfl⟩

/-- A sign and digits, as they are printed. -/
def signText (neg : Bool) : Bytes := if neg then [45] else []

theorem isSpace_of_isdigit (h : isdigit c = true) : Rpz.isSpace c = false := by
  obtain ⟨h1, h2⟩ := isdigit_iff.1 h
  have hne : c ≠ 32 := by
    rintro rfl
    simp at h1
  have hlt : ¬c.toNat ≤ 13 := by omega
  simp [Rpz.isSpace, hne, UInt8.le_iff_toNat_le, hlt]

theorem parts_digits {neg : Bool} {ds e : Bytes} (hds : ∀ c ∈ ds, isdigit c = true) (hne : ds ≠ []) (he : NoDigit e) :
    parts (signText neg ++ ds ++ e) = (neg, ds, e) := by
  obtain ⟨c, ds, rfl⟩ := exists_cons_of_ne_nil hne
  have hc := hds c mem_cons_self
  have hsign : sign (dropWhile Rpz.isSpace (signText neg ++ c :: ds ++ e)) = (neg, c :: ds ++ e) := by
    cases neg with
    | true =>
      have hminus : ¬Rpz.isSpace 45 = true := by decide
      show sign (dropWhile Rpz.isSpace (45 :: (c :: ds ++ e))) = _
      rw [dropWhile_cons_of_neg hminus]
      rfl
    | false =>
      have hblank : ¬Rpz.isSpace c = true := by simp [isSpace_of_isdigit hc]
      show sign (dropWhile Rpz.isSpace (c :: (ds ++ e))) = _
      rw [dropWhile_cons_of_neg hblank]
      have h45 : c ≠ 45 := by rintro rfl; simp [isdigit] at hc
      have h43 : c ≠ 43 := by rintro rfl; simp [isdigit] at hc
      unfold sign
      split
      · next h => exact absurd (cons.inj h).1 h45
      · next h => exact absurd (cons.inj h).1 h43
      · rfl
  obtain ⟨h1, h2⟩ := takeWhile_digits hds he
  unfold parts
  rw [hsign]
  simp only [h1, h2]

theorem strtol_digits {neg : Bool} {ds e : Bytes} (hds : ∀ c ∈ ds, isdigit c = true) (hne : ds ≠ []) (he : NoDigit e)
    (hlt : number ds < 2 ^ 63) : strtol (signText neg ++ ds ++ e) = (signed neg (number ds), e) := by
  unfold strtol
  rw [parts_digits hds hne he]
  rw [if_neg hne]
  have hclamp : max LONG_MIN (min LONG_MAX (signed neg (number ds))) = signed neg (number ds) := by
    unfold signed LONG_MIN LONG_MAX
    cases neg with
    | true => simp only [if_true]; omega
    | false => simp only [Bool.false_eq_true, if_false]; omega
  rw [hclamp]

theorem toInt_of_lt {v : ℤ} (h1 : -2 ^ 31 ≤ v) (h2 : v < 2 ^ 31) : toInt v = v := by
  unfold toInt
  rw [Int.bmod_eq_of_le] <;> omega

theorem decimals_digits {ends : UInt8 → Bool} {subtract : Bool} : ∀ (n : ℕ) (ds e : Bytes) (v : ℤ),
    (∀ c ∈ ds, isdigit c = true ∧ ends c = false) → ds.length = n ∨ (ds.length < n ∧ (e = [] ∨ ∃ c e', e = c :: e' ∧ ends c = true)) →
    decimals ends subtract n v (ds ++ e) =
      some (v * 10 ^ n + signed subtract (number ds * 10 ^ (n - ds.length)), e)
  | 0, [], e, v, _, _ => by
    cases subtract with
    | true | false => simp [decimals, signed, number]
  | 0, _ :: _, _, _, _, h => by simp at h
  | n + 1, [], e, v, _, h => by
    have hzero : ∀ k, signed subtract (number [] * k) = 0 := by
      intro k
      simp [number, signed]
    rw [hzero, add_zero, nil_append]
    obtain h | ⟨-, rfl | ⟨c, e', rfl, hc⟩⟩ := h
    · simp at h
    · rfl
    · rw [decimals, if_pos hc]
  | n + 1, c :: ds, e, v, hds, h => by
    obtain ⟨hc, hends⟩ := hds c mem_cons_self
    have hlen : ds.length = n ∨ (ds.length < n ∧ (e = [] ∨ ∃ c e', e = c :: e' ∧ ends c = true)) := by
      simpa using h
    rw [cons_append, decimals, if_neg (by simp [hends]), if_pos hc,
      decimals_digits n ds e _ (fun x hx => hds x (mem_cons_of_mem _ hx)) hlen]
    have hle : ds.length ≤ n := by omega
    have hpow : (10 : ℤ) ^ n = 10 ^ ds.length * 10 ^ (n - ds.length) := by rw [← pow_add, Nat.add_sub_cancel' hle]
    have hsub : n + 1 - (c :: ds).length = n - ds.length := by simp
    rw [hsub, number_cons, pow_succ]
    congr 2
    unfold signed
    cases subtract with
    | true => simp only [if_true]; push_cast; rw [hpow]; ring
    | false => simp only [Bool.false_eq_true, if_false]; push_cast; rw [hpow]; ring

/-! ### The tokens of `totext_loc` -/

theorem noDigit_nil : NoDigit [] := fun _ h => absurd h (by simp)

theorem noDigit_cons {e : Bytes} (h : isdigit c = false) : NoDigit (c :: e) := fun x hx => by
  rw [head?_cons, Option.mem_some_iff] at hx
  rw [← hx]
  exact h

theorem strtol_dec {e : Bytes} (hn : n < 2 ^ 31) (he : NoDigit e) : strtol (dec n ++ e) = ((n : ℤ), e) := by
  have h := @strtol_digits false (dec n) e dec_isdigit (dec_ne_nil n) he (by rw [number_dec]; omega)
  rw [number_dec] at h
  exact h

theorem toInt_nat (hn : n < 2 ^ 31) : toInt (n : ℤ) = n := toInt_of_lt (by omega) (by omega)

theorem minutes_dec {m : ℕ} (hm : m < 60) (hlimit : d = limit → m = 0) : minutes limit d (dec m) = .ok (m : ℤ) := by
  have h := strtol_dec (show m < 2 ^ 31 by omega) noDigit_nil
  rw [append_nil] at h
  unfold minutes
  simp only [h, toInt_nat (show m < 2 ^ 31 by omega)]
  rw [if_neg (by simp), if_neg (by omega), if_neg (by rintro ⟨h1, h2⟩; exact h2 (by exact_mod_cast hlimit h1))]

theorem seconds_dec {s f : ℕ} (hs : s < 60) (hf : f < 1000) (hlimit : d = limit → s * 1000 + f = 0) :
    seconds limit d (dec s ++ 46 :: dec0 3 f) = .ok ((s * 1000 + f : ℕ) : ℤ) := by
  have h := strtol_dec (show s < 2 ^ 31 by omega) (noDigit_cons (e := dec0 3 f) (by decide : isdigit 46 = false))
  have hdec := @decimals_digits (fun _ => false) false 3 (dec0 3 f) [] (s : ℤ)
    (fun c hc => ⟨dec0_isdigit c hc, rfl⟩) (Or.inl (dec0_length (by omega) (by omega)))
  rw [append_nil, dec0_length (by omega) (by omega), number_dec0] at hdec
  have hvalue : (s : ℤ) * 10 ^ 3 + signed false (f * 10 ^ (3 - 3)) = ((s * 1000 + f : ℕ) : ℤ) := by
    simp [signed]
  rw [hvalue] at hdec
  have hthousandths : thousandths s (46 :: dec0 3 f) = some ((s * 1000 + f : ℕ) : ℤ) := by
    simp [thousandths, hdec]
  unfold seconds
  simp only [h, toInt_nat (show s < 2 ^ 31 by omega)]
  rw [if_neg (by simp), if_neg (by omega), hthousandths]
  simp only
  rw [if_neg (by rintro ⟨h1, h2⟩; exact h2 (by exact_mod_cast hlimit h1))]

section Metres

variable {lo hi : ℤ} {back neg : Bool} {ds : Bytes}

theorem metres_decimals {f : Bytes} (hds : ∀ c ∈ ds, isdigit c = true) (hne : ds ≠ []) (hlt : number ds < 2 ^ 63)
    (hlo : lo ≤ signed neg (number ds)) (hhi : signed neg (number ds) ≤ hi) (hf : ∀ c ∈ f, isdigit c = true) (hlen : f.length = 2) :
    metres lo hi back (signText neg ++ ds ++ 46 :: (f ++ [109])) =
      .ok (signed neg (number ds), signed (decide (signed neg (number ds) < 0)) (number f)) := by
  have h := @strtol_digits neg ds (46 :: (f ++ [109])) hds hne (noDigit_cons (by decide)) hlt
  have hne109 : ∀ c ∈ f, isdigit c = true ∧ (c == 109) = false := by
    intro c hc
    refine ⟨hf c hc, ?_⟩
    have hle := (isdigit_iff.1 (hf c hc)).2
    rw [beq_eq_false_iff_ne]
    rintro rfl
    exact absurd hle (by decide)
  have hdec := @decimals_digits (· == 109) (decide (signed neg (number ds) < 0)) 2 f [109] 0 hne109 (Or.inl hlen)
  rw [hlen] at hdec
  unfold metres
  simp only [h]
  rw [if_neg (by simp), if_neg (by omega)]
  simp only [hdec]
  simp

theorem metres_whole (hds : ∀ c ∈ ds, isdigit c = true) (hne : ds ≠ []) (hlt : number ds < 2 ^ 63)
    (hlo : lo ≤ signed neg (number ds)) (hhi : signed neg (number ds) ≤ hi) :
    metres lo hi back (signText neg ++ ds ++ [109]) = .ok (signed neg (number ds), 0) := by
  have h := @strtol_digits neg ds [109] hds hne (noDigit_cons (by decide)) hlt
  unfold metres
  simp only [h]
  rw [if_neg (by simp), if_neg (by omega)]
  simp

end Metres

/-- The altitude that `fromtext_loc` reads in what `totext_loc` prints; the sign gets lost where no metre carries it. -/
theorem altitude_text (hlt : field < 2 ^ 32) : altitude (altitudeText field) =
    .ok (if 9999900 < field ∧ field < 10000000 then 20000000 - (field : ℤ) else field) := by
  generalize hv : (if field < 10000000 then 10000000 - field else field - 10000000) = v
  have htext : altitudeText field =
      signText (decide (field < 10000000)) ++ dec (v / 100) ++ 46 :: (dec0 2 (v % 100) ++ [109]) := by
    unfold altitudeText signText
    simp only [hv, decide_eq_true_eq, append_assoc, cons_append, nil_append]
  have hsigned : ∀ n : ℕ, signed (decide (field < 10000000)) n = if field < 10000000 then -(n : ℤ) else n := by
    intro n
    unfold signed
    simp only [decide_eq_true_eq]
  have hbound : -100000 ≤ signed (decide (field < 10000000)) (v / 100) ∧ signed (decide (field < 10000000)) (v / 100) ≤ 42849672 := by
    rw [hsigned]
    split_ifs at hv ⊢ <;> omega
  have hm := @metres_decimals (-100000) 42849672 false (decide (field < 10000000))
    (dec (v / 100)) (dec0 2 (v % 100)) dec_isdigit (dec_ne_nil _)
    (by rw [number_dec]; split_ifs at hv <;> omega)
    (by rw [number_dec]; exact hbound.1) (by rw [number_dec]; exact hbound.2) dec0_isdigit
    (dec0_length (by omega) (Nat.mod_lt _ (by omega)))
  rw [number_dec, number_dec0, hsigned] at hm
  have hcm : signed (decide ((if field < 10000000 then -((v / 100 : ℕ) : ℤ) else ((v / 100 : ℕ) : ℤ)) < 0)) (v % 100) =
      if field < 10000000 ∧ v / 100 ≠ 0 then -((v % 100 : ℕ) : ℤ) else ((v % 100 : ℕ) : ℤ) := by
    unfold signed
    simp only [decide_eq_true_eq]
    split_ifs <;> omega
  rw [hcm] at hm
  unfold altitude
  rw [htext, hm]
  simp only
  have hlow : ¬((if field < 10000000 then -((v / 100 : ℕ) : ℤ) else ((v / 100 : ℕ) : ℤ)) = -100000 ∧
      (if field < 10000000 ∧ v / 100 ≠ 0 then -((v % 100 : ℕ) : ℤ) else ((v % 100 : ℕ) : ℤ)) ≠ 0) := by
    rintro ⟨h1, h2⟩
    split_ifs at hv h1 h2 <;> omega
  have hhigh : ¬((if field < 10000000 then -((v / 100 : ℕ) : ℤ) else ((v / 100 : ℕ) : ℤ)) = 42849672 ∧
      95 < (if field < 10000000 ∧ v / 100 ≠ 0 then -((v % 100 : ℕ) : ℤ) else ((v % 100 : ℕ) : ℤ))) := by
    rintro ⟨h1, h2⟩
    split_ifs at hv h1 h2 <;> omega
  rw [if_neg hlow, if_neg hhigh]
  congr 1
  split_ifs at hv ⊢ <;> omega

theorem sizeByte_metres : ∀ man exp : Fin 10, man.val ≠ 0 → 1 < exp.val →
    sizeByte ((man.val * 10 ^ (exp.val - 2) : ℕ) : ℤ) 0 = UInt8.ofNat (man.val * 16 + exp.val) := by decide +kernel

theorem sizeByte_centimetres : ∀ man : Fin 10, ∀ exp : Fin 2, man.val ≠ 0 ∨ exp.val = 0 →
    sizeByte 0 ((man.val * 10 ^ exp.val : ℕ) : ℤ) = UInt8.ofNat (man.val * 16 + exp.val) := by decide +kernel

theorem mantissa_exponent (c : UInt8) : UInt8.ofNat (c.toNat / 16 * 16 + c.toNat % 16) = c := by
  rw [Nat.div_add_mod']
  simp

/-- The bytes of the text of a LOC record. -/
def LocChar (c : UInt8) : Prop := isdigit c = true ∨ c ∈ [45, 46, 109, 78, 83, 69, 87]

/-- `fromtext_loc` reads back the size and the precisions that `totext_loc` prints, which fit their arrays. -/
theorem precision_text (hc : Rdata.precisionOk c) : ∃ text, precisionText c = .ok text ∧ text.length ≤ 9 ∧ text ≠ [] ∧
    (∀ x ∈ text, LocChar x) ∧ precision text = .ok c := by
  have hexp : c.toNat % 16 < 10 ∧ c.toNat / 16 < 10 ∧ (c.toNat / 16 ≠ 0 ∨ c.toNat % 16 = 0) := by
    obtain rfl | hc := hc
    · decide
    · have := of_decide_eq_false hc
      omega
  have hrequire : require (decide (c.toNat % 16 < 10) && decide (c.toNat / 16 < 10)) = .ok () :=
    require_true (by simp [hexp.1, hexp.2.1])
  have hman := hexp.2.1
  unfold precisionText
  simp only [hrequire, ok_then]
  by_cases hbig : 1 < c.toNat % 16
  · -- whole metres
    have hlt : c.toNat / 16 * 10 ^ (c.toNat % 16 - 2) < 10 ^ 8 := by
      have hpow : 10 ^ (c.toNat % 16 - 2) ≤ 10 ^ 7 := Nat.pow_le_pow_right (by omega) (by omega)
      calc c.toNat / 16 * 10 ^ (c.toNat % 16 - 2) ≤ 9 * 10 ^ 7 := Nat.mul_le_mul (by omega) hpow
        _ < 10 ^ 8 := by omega
    have hle : c.toNat / 16 * 10 ^ (c.toNat % 16 - 2) ≤ 90000000 := by
      have hpow : 10 ^ (c.toNat % 16 - 2) ≤ 10 ^ 7 := Nat.pow_le_pow_right (by omega) (by omega)
      exact Nat.mul_le_mul (show c.toNat / 16 ≤ 9 by omega) hpow
    have hlength := dec_length_le (by omega) hlt
    have hm := @metres_whole 0 90000000 true false (dec (c.toNat / 16 * 10 ^ (c.toNat % 16 - 2))) dec_isdigit (dec_ne_nil _)
      (by rw [number_dec]; omega) (by rw [number_dec]; exact Int.natCast_nonneg _)
      (by rw [number_dec]; simp only [signed, Bool.false_eq_true, if_false]; omega)
    rw [number_dec] at hm
    rw [if_pos hbig]
    refine ⟨_, if_pos ?_, ?_, by simp, ?_, ?_⟩
    · rw [length_append]
      simp only [length_singleton]
      omega
    · rw [length_append]
      simp only [length_singleton]
      omega
    · intro x hx
      obtain hx | hx := mem_append.1 hx
      · exact .inl (dec_isdigit x hx)
      · rw [mem_singleton.1 hx]
        exact .inr (by decide)
    · have hbyte := sizeByte_metres ⟨_, hman⟩ ⟨_, hexp.1⟩ (by have := hexp.2.2; show c.toNat / 16 ≠ 0; omega) hbig
      simp only [mantissa_exponent] at hbyte
      unfold precision
      rw [show dec (c.toNat / 16 * 10 ^ (c.toNat % 16 - 2)) ++ [109] =
        signText false ++ dec (c.toNat / 16 * 10 ^ (c.toNat % 16 - 2)) ++ [109] from rfl, hm]
      simp only [signed, Bool.false_eq_true, if_false]
      rw [hbyte]
  -- centimetres
  have hlt : c.toNat / 16 * 10 ^ (c.toNat % 16) < 10 ^ 2 := by
    have hpow : 10 ^ (c.toNat % 16) ≤ 10 ^ 1 := Nat.pow_le_pow_right (by omega) (by omega)
    calc c.toNat / 16 * 10 ^ (c.toNat % 16) ≤ 9 * 10 ^ 1 := Nat.mul_le_mul (by omega) hpow
      _ < 10 ^ 2 := by omega
  have hlength := dec0_length (by omega) hlt
  have hm := @metres_decimals 0 90000000 true false [48] (dec0 2 (c.toNat / 16 * 10 ^ (c.toNat % 16)))
    (forall_mem_singleton.2 (by decide)) (by simp) (by decide) (by decide) (by decide) dec0_isdigit hlength
  rw [number_dec0] at hm
  rw [if_neg hbig]
  refine ⟨_, if_pos ?_, ?_, by simp, ?_, ?_⟩
  · simp [hlength]
  · simp [hlength]
  · intro x hx
    simp only [mem_append, mem_cons, not_mem_nil, or_false] at hx
    obtain ((rfl | rfl) | hx) | rfl := hx
    · exact .inl rfl
    · exact .inr (by decide)
    · exact .inl (dec0_isdigit x hx)
    · exact .inr (by decide)
  · have hbyte := sizeByte_centimetres ⟨_, hman⟩ ⟨c.toNat % 16, by omega⟩ hexp.2.2
    simp only [mantissa_exponent] at hbyte
    have hzero : signed false (number [48]) = 0 := by decide
    rw [hzero] at hm
    unfold precision
    rw [show [48, 46] ++ dec0 2 (c.toNat / 16 * 10 ^ (c.toNat % 16)) ++ [109] =
      signText false ++ [48] ++ 46 :: (dec0 2 (c.toNat / 16 * 10 ^ (c.toNat % 16)) ++ [109]) by simp [signText], hm]
    simp only [lt_irrefl, decide_false, signed, Bool.false_eq_true, if_false]
    rw [hbyte]

/-! ### Reading the text of `totext_loc` -/

/-- The lexer in front of a text, with no special characters among those of the text of a LOC record. -/
structure At (lex : Lexer) (text : Bytes) : Prop where
  reading : Reading lex text
  plain : ∀ c, LocChar c → Plain lex c

theorem at_openMaster (text : Bytes) : At (openMaster text) text := by
  refine ⟨⟨rfl, rfl, rfl⟩, fun c hc => ?_⟩
  have hbyte : ∀ c ∈ ([45, 46, 109, 78, 83, 69, 87] : Bytes), Plain (openMaster []) c := by decide +kernel
  obtain hc | hc := hc
  · simp only [isdigit, Bool.and_eq_true, decide_eq_true_eq] at hc
    have hne : ∀ d : UInt8, d < 48 ∨ 57 < d → c ≠ d := by
      rintro d hd rfl
      exact hd.elim (UInt8.not_lt.2 hc.1) (UInt8.not_lt.2 hc.2)
    refine ⟨hne _ (by decide), hne _ (by decide), hne _ (by decide), hne _ (by decide), hne _ (by decide), hne _ (by decide),
      hne _ (by decide), ?_⟩
    simp [openMaster, hne 0 (by decide), hne 40 (by decide), hne 41 (by decide), hne 34 (by decide)]
  · exact hbyte c hc

section Reading

variable {lex : Lexer} {text word rest : Bytes}

theorem at_afterToken (h : At lex text) (rest : Bytes) : At (afterToken lex rest) rest :=
  ⟨reading_afterToken lex rest, fun c hc => plain_afterToken.2 (h.plain c hc)⟩

theorem LocChar.ne_zero {c : UInt8} (h : LocChar c) : (c != 0) = true := by
  rw [bne_iff_ne]
  rintro rfl
  exact absurd h (by unfold LocChar; decide)

theorem asStr_word (hword : ∀ c ∈ word, LocChar c) : (Token.string word).asStr = word :=
  takeWhile_eq_self_iff.2 (fun c hc => (hword c hc).ne_zero)

theorem master_string (h : At lex text) (hword : Word text word rest) (hchars : ∀ c ∈ word, LocChar c) (eol : Bool) :
    master lex .string eol = .ok (.string word, afterToken lex rest) := by
  unfold master
  rw [getmastertoken_string h.reading hword (fun c hc => h.plain c (hchars c hc))]

theorem master_dec (h : At lex text) (hword : Word text (dec n) rest) (hn : n < 2 ^ 32) :
    master lex .number false = .ok (.number n, afterToken lex rest) := by
  unfold master
  rw [getmastertoken_number h.reading hword (fun c hc => ⟨h.plain c (Or.inl (dec_isdigit c hc)), dec_isdigit c hc⟩)
    (by rw [number_dec]; exact hn), number_dec]

theorem ends_cons (rest : Bytes) : Ends (32 :: rest) := Or.inr ⟨rest, rfl⟩

theorem direction_digits {pos neg c : UInt8} {w : Bytes} (hpos : isdigit (maptolower pos) = false)
    (hneg : isdigit (maptolower neg) = false) (hc : isdigit c = true) : direction pos neg (c :: w) = none := by
  have hlower : isdigit (maptolower c) = true := by
    have hall : ∀ n : Fin 256, isdigit (UInt8.ofNat n.val) = true → isdigit (maptolower (UInt8.ofNat n.val)) = true := by
      decide +kernel
    have h := hall ⟨c.toNat, c.toNat_lt⟩
    simp only [UInt8.ofNat_toNat] at h
    exact h hc
  have hne : ∀ x : UInt8, isdigit (maptolower x) = false → strcasecmpEq (c :: w) [x] = false := by
    intro x hx
    unfold strcasecmpEq
    rw [beq_eq_false_iff_ne]
    intro h
    rw [map_cons, map_cons] at h
    rw [(cons.inj h).1, hx] at hlower
    exact absurd hlower (by decide)
  unfold direction
  rw [hne pos hpos, hne neg hneg]
  rfl

/-- The letters of the two directions. -/
structure Letters (pos neg : UInt8) : Prop where
  pos_char : LocChar pos
  neg_char : LocChar neg
  pos_digit : isdigit (maptolower pos) = false
  neg_digit : isdigit (maptolower neg) = false
  ne : maptolower pos ≠ maptolower neg

theorem letters_latitude : Letters 78 83 := ⟨Or.inr (by decide), Or.inr (by decide), by decide, by decide, by decide⟩

theorem letters_longitude : Letters 69 87 := ⟨Or.inr (by decide), Or.inr (by decide), by decide, by decide, by decide⟩

theorem direction_letter {pos neg : UInt8} (h : Letters pos neg) (positive : Bool) :
    direction pos neg [if positive then pos else neg] = some positive := by
  unfold direction strcasecmpEq
  cases positive with
  | true => simp
  | false => simp [h.ne.symm]

theorem direction_dec {pos neg : UInt8} (h : Letters pos neg) (n : ℕ) (w : Bytes) : direction pos neg (dec n ++ w) = none := by
  obtain ⟨c, v, hcv⟩ := exists_cons_of_ne_nil (dec_ne_nil n)
  have hc : isdigit c = true := dec_isdigit (n := n) c (by rw [hcv]; exact mem_cons_self)
  rw [hcv]
  exact direction_digits h.pos_digit h.neg_digit hc

/-- A latitude or longitude as it is printed, in front of `rest`. -/
def angleWords (d m s f : ℕ) (dir : UInt8) (rest : Bytes) : Bytes :=
  dec d ++ 32 :: (dec m ++ 32 :: ((dec s ++ 46 :: dec0 3 f) ++ 32 :: ([dir] ++ rest)))

theorem fromtextAngle_words (limit : ℕ) (positive : Bool) {m s f : ℕ} {pos neg dir : UInt8} (hl : Letters pos neg)
    (h : At lex text) (hletter : LocChar dir) (hpositive : direction pos neg [dir] = some positive)
    (htext : text = angleWords d m s f dir rest ∨ text = 32 :: angleWords d m s f dir rest)
    (hrest : Ends rest) (hd : d ≤ limit) (hlimit : limit < 2 ^ 32) (hm : m < 60) (hs : s < 60) (hf : f < 1000)
    (hend : d = limit → m = 0 ∧ s * 1000 + f = 0) :
    ∃ lex', fromtextAngle lex limit pos neg = .ok (⟨d, m, (s * 1000 + f : ℕ), positive⟩, lex') ∧ At lex' rest := by
  have hdec : ∀ n, ∀ c ∈ dec n, LocChar c := fun n c hc => Or.inl (dec_isdigit c hc)
  have hsecond : ∀ c ∈ dec s ++ 46 :: dec0 3 f, LocChar c := by
    intro c hc
    obtain hc | hc := mem_append.1 hc
    · exact hdec s c hc
    obtain rfl | hc := mem_cons.1 hc
    · exact .inr (by decide)
    · exact .inl (dec0_isdigit c hc)
  have hletter' : ∀ c ∈ [dir], LocChar c := by
    intro c hc
    rw [mem_singleton.1 hc]
    exact hletter
  have h1 := at_afterToken h (32 :: (dec m ++ 32 :: ((dec s ++ 46 :: dec0 3 f) ++ 32 :: ([dir] ++ rest))))
  have h2 := at_afterToken h1 (32 :: ((dec s ++ 46 :: dec0 3 f) ++ 32 :: ([dir] ++ rest)))
  have h3 := at_afterToken h2 (32 :: ([dir] ++ rest))
  have hdegrees := master_dec (n := d) h ⟨htext, dec_ne_nil d, ends_cons _⟩ (by omega)
  have hminutes := master_string h1 ⟨Or.inr rfl, dec_ne_nil m, ends_cons _⟩ (hdec m) false
  have hseconds := master_string h2 ⟨Or.inr rfl, by simp, ends_cons _⟩ hsecond false
  have hdir := master_string h3 ⟨Or.inr rfl, by simp, hrest⟩ hletter' false
  have hm' : direction pos neg (dec m) = none := by simpa using direction_dec hl m []
  refine ⟨_, ?_, at_afterToken h3 rest⟩
  unfold fromtextAngle
  simp only [hdegrees, ok_then, asUlong, Nat.not_lt.2 hd, if_false, hminutes, asStr_word (hdec m), hm']
  rw [minutes_dec hm (fun e => (hend e).1)]
  simp only [rettok, ok_then, hseconds, asStr_word hsecond, direction_dec hl s]
  rw [seconds_dec hs hf (fun e => (hend e).2)]
  simp only [ok_then, hdir, asStr_word hletter', hpositive]
  rfl

/-- A size that is read in front of the others. -/
theorem precisions_cons (default : UInt8) {c : UInt8} {defaults cs : Bytes} {lex' : Lexer} (h : At lex text) (hword : Word text word rest)
    (hchars : ∀ c ∈ word, LocChar c) (hp : precision word = .ok c)
    (hrest : precisions defaults (afterToken lex rest) = .ok (cs, lex')) :
    precisions (default :: defaults) lex = .ok (c :: cs, lex') := by
  have hend : (Token.string word).isEnd = false := rfl
  unfold precisions
  simp only [master_string h hword hchars, ok_then, hend, asStr_word hchars, hp, rettokIf, hrest]
  rfl

end Reading

/-! ### The round trip -/

def locBytes (sizes : Bytes) (latitude longitude altitude : ℕ) : Bytes :=
  0 :: (sizes ++ (uint32Bytes latitude ++ (uint32Bytes longitude ++ uint32Bytes altitude)))

theorem encode_room {size horizontal vertical : UInt8} {latitude longitude altitude : ℕ} {target : Buffer} (h : 16 ≤ target.available) :
    encode [size, horizontal, vertical] latitude longitude altitude target =
      .ok (target.put (locBytes [size, horizontal, vertical] latitude longitude altitude)) := by
  have hput : ∀ (done bs : Bytes), done.length + bs.length ≤ 16 → memTobuffer (target.put done) bs = .ok (target.put (done ++ bs)) := by
    intro done bs hle
    rw [memTobuffer_ok (by rw [Buffer.put_available]; omega), Buffer.put_put]
  have hnil : target = target.put [] := by simp [Buffer.put]
  have hlen : ∀ v, (uint32Bytes v).length = 4 := fun _ => rfl
  unfold encode uint32Tobuffer
  simp only [foldlM_cons, foldlM_nil]
  rw [hnil]
  rw [hput [] [0] (by simp)]
  simp only [ok_then]
  rw [hput _ [size] (by simp)]
  simp only [ok_then]
  rw [hput _ [horizontal] (by simp)]
  simp only [ok_then]
  rw [hput _ [vertical] (by simp)]
  show (memTobuffer _ _ >>= _) = _
  rw [hput _ (uint32Bytes latitude) (by simp [hlen])]
  simp only [ok_then]
  rw [hput _ (uint32Bytes longitude) (by simp [hlen])]
  simp only [ok_then]
  rw [hput _ (uint32Bytes altitude) (by simp [hlen])]
  simp [locBytes, Buffer.put]

/-- The value of a latitude or longitude without its direction. -/
def magnitude (field : ℕ) : ℕ := if 0x80000000 ≤ field then field - 0x80000000 else 0x80000000 - field

theorem angleText_words (pos neg : UInt8) (h : magnitude field ≤ limit * 3600000) :
    ∃ text, angleText limit pos neg field = .ok text ∧ text.length ≤ (dec (magnitude field / 1000 / 60 / 60)).length + 12 ∧
      ∀ rest, text ++ rest = angleWords (magnitude field / 1000 / 60 / 60) (magnitude field / 1000 / 60 % 60)
        (magnitude field / 1000 % 60) (magnitude field % 1000) (if 0x80000000 ≤ field then pos else neg) rest := by
  have hmagnitude : (if 0x80000000 ≤ field then field - 0x80000000 else 0x80000000 - field) = magnitude field := rfl
  have hrequire : require (decide (magnitude field / 1000 / 60 / 60 ≤ limit)) = .ok () := require_true (decide_eq_true (by omega))
  have hm := dec_length_le (show 0 < 2 by omega) (show magnitude field / 1000 / 60 % 60 < 10 ^ 2 by omega)
  have hs := dec_length_le (show 0 < 2 by omega) (show magnitude field / 1000 % 60 < 10 ^ 2 by omega)
  have hf := dec0_length (show 0 < 3 by omega) (show magnitude field % 1000 < 10 ^ 3 by omega)
  unfold angleText
  simp only [hmagnitude, hrequire, ok_then]
  refine ⟨_, rfl, ?_, fun rest => ?_⟩
  · simp only [length_append, length_cons, length_nil, hf]
    omega
  · simp [angleWords]

theorem angle_value (hlt : field < 2 ^ 32) :
    Angle.value ⟨magnitude field / 1000 / 60 / 60, (magnitude field / 1000 / 60 % 60 : ℕ),
      (magnitude field / 1000 % 60 * 1000 + magnitude field % 1000 : ℕ), decide (0x80000000 ≤ field)⟩ = field := by
  have hsum : ∀ v : ℕ, ((v / 1000 / 60 / 60 : ℕ) * 3600 + (v / 1000 / 60 % 60 : ℕ) * 60) * 1000 +
      (v / 1000 % 60 * 1000 + v % 1000 : ℕ) = v := by
    intro v
    omega
  generalize hv : magnitude field = v at *
  have h := hsum v
  unfold Angle.value
  unfold magnitude at hv
  simp only [decide_eq_true_eq]
  split_ifs at hv ⊢ <;> omega

theorem altitudeText_chars (field : ℕ) : altitudeText field ≠ [] ∧ ∀ c ∈ altitudeText field, LocChar c := by
  unfold altitudeText
  refine ⟨by simp, fun c hc => ?_⟩
  simp only [mem_append, mem_singleton] at hc
  obtain (((hc | hc) | rfl) | hc) | rfl := hc
  · split at hc
    · rw [mem_singleton.1 hc]
      exact .inr (by decide)
    · exact absurd hc (by simp)
  · exact .inl (dec_isdigit c hc)
  · exact .inr (by decide)
  · exact .inl (dec0_isdigit c hc)
  · exact .inr (by decide)

theorem altitudeText_length (h : field < 2 ^ 32) : (altitudeText field).length ≤ 12 := by
  have hcents : ∀ v, (dec0 2 (v % 100)).length = 2 := fun v => dec0_length (by omega) (show v % 100 < 10 ^ 2 by omega)
  unfold altitudeText
  simp only [length_append, length_singleton, hcents]
  split_ifs with hbelow
  · have hm := dec_length_le (show 0 < 6 by omega) (show (10000000 - field) / 100 < 10 ^ 6 by omega)
    simp only [length_singleton]
    omega
  · have hm := dec_length_le (show 0 < 8 by omega) (show (field - 10000000) / 100 < 10 ^ 8 by omega)
    simp only [length_nil]
    omega

/-- The altitudes that lose their sign: less than a metre below the base. -/
def SignLost (altitude : ℕ) : Prop := 9999900 < altitude ∧ altitude < 10000000

instance (altitude : ℕ) : Decidable (SignLost altitude) := inferInstanceAs (Decidable (_ ∧ _))

theorem fromtextLoc_totextLoc {size horizontal vertical : UInt8} {latitude longitude altitude : ℕ}
    (hsize : Rdata.precisionOk size) (hhorizontal : Rdata.precisionOk horizontal) (hvertical : Rdata.precisionOk vertical)
    (hlatitude : magnitude latitude ≤ 90 * 3600000) (hlongitude : magnitude longitude ≤ 180 * 3600000)
    (haltitude : altitude < 2 ^ 32) :
    ∃ text, (∀ target, totextLoc (locBytes [size, horizontal, vertical] latitude longitude altitude) target = memTobuffer target text) ∧
      ∀ target : Buffer, 16 ≤ target.available → ∃ lex', fromtextLoc (openMaster text) target =
        .ok (target.put (locBytes [size, horizontal, vertical] latitude longitude
          (if SignLost altitude then 20000000 - altitude else altitude)), lex') := by
  have hlat : latitude < 2 ^ 32 := by unfold magnitude at hlatitude; split_ifs at hlatitude <;> omega
  have hlong : longitude < 2 ^ 32 := by unfold magnitude at hlongitude; split_ifs at hlongitude <;> omega
  obtain ⟨stext, hs, hslen, hsne, hschars, hsread⟩ := precision_text hsize
  obtain ⟨htext, hh, hhlen, hhne, hhchars, hhread⟩ := precision_text hhorizontal
  obtain ⟨vtext, hv, hvlen, hvne, hvchars, hvread⟩ := precision_text hvertical
  obtain ⟨lattext, hlat1, hlat2, hlat3⟩ := angleText_words 78 83 hlatitude
  obtain ⟨longtext, hlong1, hlong2, hlong3⟩ := angleText_words 69 87 hlongitude
  have hlatlen := dec_length_le (show 0 < 2 by omega) (show magnitude latitude / 1000 / 60 / 60 < 10 ^ 2 by omega)
  have hlonglen := dec_length_le (show 0 < 3 by omega) (show magnitude longitude / 1000 / 60 / 60 < 10 ^ 3 by omega)
  have haltlen := altitudeText_length haltitude
  obtain ⟨haltne, haltchars⟩ := altitudeText_chars altitude
  refine ⟨lattext ++ [32] ++ longtext ++ [32] ++ altitudeText altitude ++ [32] ++ stext ++ [32] ++ htext ++ [32] ++ vtext,
    fun target => ?_, fun target hroom => ?_⟩
  · have hfits : sprintf 74 (lattext ++ [32] ++ longtext ++ [32] ++ altitudeText altitude ++ [32] ++ stext ++ [32] ++ htext ++ [32] ++
        vtext) = .ok (lattext ++ [32] ++ longtext ++ [32] ++ altitudeText altitude ++ [32] ++ stext ++ [32] ++ htext ++ [32] ++ vtext) :=
      if_pos (by simp only [length_append, length_singleton]; omega)
    have hnonempty : require (decide ((locBytes [size, horizontal, vertical] latitude longitude altitude).length ≠ 0)) = .ok () :=
      require_true (by simp [locBytes])
    have hbytes : ∀ v rest, consume (uint32Bytes v ++ rest) 4 = .ok rest := fun v rest => consume_append rfl
    unfold totextLoc
    rw [hnonempty]
    simp only [ok_then, locBytes, cons_append, nil_append, byteAt_succ, byteAt_zero, hs, hh, hv, consume_four,
      uint32Fromregion_append hlat, hlat1, hbytes, uint32Fromregion_append hlong, hlong1]
    have halt := uint32Fromregion_append haltitude []
    rw [append_nil] at halt
    rw [halt]
    simp only [ok_then, hfits]
  · have hwords : lattext ++ [32] ++ longtext ++ [32] ++ altitudeText altitude ++ [32] ++ stext ++ [32] ++ htext ++ [32] ++ vtext =
        lattext ++ 32 :: (longtext ++ 32 :: (altitudeText altitude ++ 32 :: (stext ++ 32 :: (htext ++ 32 :: (vtext ++ []))))) := by
      simp
    rw [hwords]
    obtain ⟨lex1, hangle1, hat1⟩ := fromtextAngle_words 90 (decide (0x80000000 ≤ latitude)) letters_latitude (at_openMaster _)
      (by split_ifs <;> exact .inr (by decide)) (by simpa using direction_letter letters_latitude (decide (0x80000000 ≤ latitude)))
      (Or.inl (hlat3 (32 :: (longtext ++ 32 :: (altitudeText altitude ++ 32 :: (stext ++ 32 :: (htext ++ 32 :: (vtext ++ []))))))))
        (ends_cons _) (by omega) (by omega) (by omega) (by omega) (by omega) (by omega)
    obtain ⟨lex2, hangle2, hat2⟩ := fromtextAngle_words 180 (decide (0x80000000 ≤ longitude)) letters_longitude hat1
      (by split_ifs <;> exact .inr (by decide)) (by simpa using direction_letter letters_longitude (decide (0x80000000 ≤ longitude)))
      (Or.inr (congrArg _ (hlong3 (32 :: (altitudeText altitude ++ 32 :: (stext ++ 32 :: (htext ++ 32 :: (vtext ++ []))))))))
        (ends_cons _) (by omega) (by omega) (by omega) (by omega) (by omega) (by omega)
    have hat3 := at_afterToken hat2 (32 :: (stext ++ 32 :: (htext ++ 32 :: (vtext ++ []))))
    have hat4 := at_afterToken hat3 (32 :: (htext ++ 32 :: (vtext ++ [])))
    have hat5 := at_afterToken hat4 (32 :: (vtext ++ []))
    have hnone : precisions [] (afterToken (afterToken (afterToken (afterToken lex2 (32 :: (stext ++ 32 :: (htext ++ 32 :: (vtext ++ [])))))
      (32 :: (htext ++ 32 :: (vtext ++ [])))) (32 :: (vtext ++ []))) []) = .ok ([], _) := rfl
    have hsizes := precisions_cons 0x12 hat3 ⟨Or.inr rfl, hsne, ends_cons _⟩ hschars hsread
      (precisions_cons 0x16 hat4 ⟨Or.inr rfl, hhne, ends_cons _⟩ hhchars hhread
        (precisions_cons 0x13 hat5 ⟨Or.inr rfl, hvne, Or.inl rfl⟩ hvchars hvread hnone))
    have hvalue : ((if 9999900 < altitude ∧ altitude < 10000000 then 20000000 - (altitude : ℤ) else altitude) % 2 ^ 32).toNat =
        if SignLost altitude then 20000000 - altitude else altitude := by
      by_cases h : SignLost altitude
      · have h' : 9999900 < altitude ∧ altitude < 10000000 := h
        rw [if_pos h, if_pos h']
        omega
      have h' : ¬(9999900 < altitude ∧ altitude < 10000000) := h
      rw [if_neg h, if_neg h']
      omega
    unfold fromtextLoc
    simp only [hangle1, hangle2, ok_then, master_string hat2 ⟨Or.inr rfl, haltne, ends_cons _⟩ haltchars, asStr_word haltchars,
      altitude_text haltitude, rettokIf, hsizes, angle_value hlat, angle_value hlong, hvalue, encode_room hroom]
    exact ⟨_, rfl⟩

end Bind9.Loc
