import Bind9.RpzRun
import Bind9.NameTotext

/-! # The names of response policy addresses

`ip2name` and `name2ipkey` of `lib/dns/rpz.c` against each other.  The text of an address is a list of labels (`ip2labels`), read
back as tokens: sixteen-bit words, and `zz` for a run of zeros.  A name that `name2ipkey` accepts is the name of the key that it
returns, up to capitals; but whole words behind the prefix are not looked at. -/

namespace Bind9.Rpz

open List

/-! ### Digits -/

theorem digitValue_lower : ∀ c : UInt8, digitValue (maptolower c) = digitValue c := by
  have hall : ∀ n : Fin 256, digitValue (maptolower (UInt8.ofNat n.val)) = digitValue (UInt8.ofNat n.val) := by decide +kernel
  intro c
  have hc := hall ⟨c.toNat, c.toNat_lt⟩
  simpa using hc

/-- A byte that is a digit or a letter. -/
def IsAlnum (c : UInt8) : Prop := 48 ≤ c ∧ c ≤ 57 ∨ 65 ≤ c ∧ c ≤ 90 ∨ 97 ≤ c ∧ c ≤ 122

instance (c : UInt8) : Decidable (IsAlnum c) :=
  inferInstanceAs (Decidable (48 ≤ c ∧ c ≤ 57 ∨ 65 ≤ c ∧ c ≤ 90 ∨ 97 ≤ c ∧ c ≤ 122))

theorem isAlnum_lower : ∀ c : UInt8, IsAlnum (maptolower c) ↔ IsAlnum c := by
  have hall : ∀ n : Fin 256, IsAlnum (maptolower (UInt8.ofNat n.val)) ↔ IsAlnum (UInt8.ofNat n.val) := by decide +kernel
  intro c
  have hc := hall ⟨c.toNat, c.toNat_lt⟩
  simpa using hc

/-- What the text of a letter or a digit is, and what it is not. -/
theorem isAlnum_facts : ∀ c : UInt8, IsAlnum c → charText c = [c] ∧ c ≠ 0x2e ∧ isSpace c = false ∧ c ≠ 45 ∧ c ≠ 43 := by
  have hall : ∀ n : Fin 256, IsAlnum (UInt8.ofNat n.val) → charText (UInt8.ofNat n.val) = [UInt8.ofNat n.val] ∧
      UInt8.ofNat n.val ≠ 0x2e ∧ isSpace (UInt8.ofNat n.val) = false ∧ UInt8.ofNat n.val ≠ 45 ∧ UInt8.ofNat n.val ≠ 43 := by
    decide +kernel
  intro c hc
  have h := hall ⟨c.toNat, c.toNat_lt⟩
  simp only [UInt8.ofNat_toNat] at h
  exact h hc

theorem isAlnum_of_digit : ∀ c : UInt8, isDigit 16 c = true → IsAlnum c := by
  have hall : ∀ n : Fin 256, isDigit 16 (UInt8.ofNat n.val) = true → IsAlnum (UInt8.ofNat n.val) := by decide +kernel
  intro c hc
  have h := hall ⟨c.toNat, c.toNat_lt⟩
  simp only [UInt8.ofNat_toNat] at h
  exact h hc

/-- A text of digits that stands for the number. -/
structure Digits (base : ℕ) (l : Label) (n : ℕ) : Prop where
  ne : l ≠ []
  digits : ∀ c ∈ l, isDigit base c = true
  value : digitsValue base l = n

theorem digitsValue_append (base : ℕ) (l : Label) (c : UInt8) : digitsValue base (l ++ [c]) = digitsValue base l * base + digitValue c := by
  unfold digitsValue
  rw [foldl_append]
  rfl

variable {base n i b : ℕ}

theorem digitChar_digit {d : ℕ} (hbase : base ≤ 16) (hd : d < base) : digitValue (UInt8.ofNat d.digitChar.toNat) = d := by
  have hall : ∀ n : Fin 16, digitValue (UInt8.ofNat n.val.digitChar.toNat) = n.val := by decide
  exact hall ⟨d, by omega⟩

theorem numText_digits (h1 : 1 < base) (hbase : base ≤ 16) (n : ℕ) : Digits base (numText base n) n := by
  induction n using Nat.strongRecOn with
  | ind n ih =>
    have hone : ∀ {d : ℕ}, d < base → isDigit base (UInt8.ofNat d.digitChar.toNat) = true := by
      intro d hd
      unfold isDigit
      rw [digitChar_digit hbase hd]
      exact decide_eq_true hd
    unfold numText
    rw [Nat.toDigits_eq_if h1]
    by_cases hlt : n < base
    · rw [if_pos hlt]
      refine ⟨cons_ne_nil _ _, fun c hc => ?_, ?_⟩
      · rw [map_singleton, mem_singleton] at hc
        rw [hc]
        exact hone hlt
      · show 0 * base + digitValue _ = n
        rw [digitChar_digit hbase hlt, Nat.zero_mul, Nat.zero_add]
    rw [if_neg hlt, map_append, map_singleton]
    have hrest := ih (n / base) (Nat.div_lt_self (by omega) h1)
    have hmod : n % base < base := Nat.mod_lt _ (by omega)
    refine ⟨append_ne_nil_of_right_ne_nil _ (cons_ne_nil _ _), fun c hc => ?_, ?_⟩
    · obtain hc | hc := mem_append.1 hc
      · exact hrest.digits c hc
      · rw [mem_singleton.1 hc]
        exact hone hmod
    · have hvalue : digitsValue base (List.map (fun c => UInt8.ofNat c.toNat) (Nat.toDigits base (n / base))) = n / base :=
        hrest.value
      rw [digitsValue_append, hvalue, digitChar_digit hbase hmod]
      exact Nat.div_add_mod' n base

variable {l : Label}

/-- Capitals do not matter. -/
theorem Digits.of_lower {l' : Label} (h : Digits base l n) (heq : l'.lower = l.lower) : Digits base l' n := by
  have hvalue : ∀ l : Label, digitsValue base l.lower = digitsValue base l := by
    intro l
    unfold digitsValue Label.lower
    rw [foldl_map]
    simp only [digitValue_lower]
  refine ⟨fun hnil => h.ne ?_, fun c hc => ?_, ?_⟩
  · have hlen := congrArg List.length heq
    rw [Label.lower_length, Label.lower_length, hnil] at hlen
    exact length_eq_zero_iff.1 hlen.symm
  · have hmem : maptolower c ∈ l.lower := heq ▸ mem_map_of_mem hc
    obtain ⟨d, hd, hdc⟩ := mem_map.1 hmem
    have hdigit := h.digits d hd
    unfold isDigit at hdigit ⊢
    rw [← digitValue_lower c, ← hdc, digitValue_lower d]
    exact hdigit
  · rw [← hvalue l', heq, hvalue l]
    exact h.value

/-- What stands behind a number: nothing, or a dot. -/
def Ends (post : Bytes) : Prop := post = [] ∨ ∃ rest, post = 0x2e :: rest

theorem Ends.not_digit {post : Bytes} (h : Ends post) (base : ℕ) (hbase : base ≤ 16) :
    post.takeWhile (isDigit base) = [] ∧ post.dropWhile (isDigit base) = post := by
  obtain rfl | ⟨rest, rfl⟩ := h
  · exact ⟨rfl, rfl⟩
  have hdot : isDigit base 0x2e = false := by
    unfold isDigit
    exact decide_eq_false (not_lt.2 (by show base ≤ 16; exact hbase))
  exact ⟨takeWhile_cons_of_neg (by simp [hdot]), dropWhile_cons_of_neg (by simp [hdot])⟩

variable {c : UInt8}

theorem isDigit_mono (hbase : base ≤ 16) (h : isDigit base c = true) : isDigit 16 c = true := by
  unfold isDigit at h ⊢
  exact decide_eq_true (lt_of_lt_of_le (of_decide_eq_true h) hbase)

theorem strtoul_digits (hbase : base = 10 ∨ base = 16) {l post : Bytes} (h : Digits base l n) (hn : n < 2 ^ 64)
    (hpost : Ends post) : strtoul base (l ++ post) = (n, post) := by
  have hle : base ≤ 16 := by omega
  obtain ⟨c, l', rfl⟩ := exists_cons_of_ne_nil h.ne
  have hdigit : ∀ x ∈ c :: l', isDigit 16 x = true := fun x hx => isDigit_mono hle (h.digits x hx)
  obtain ⟨-, -, hspace, hminus, hplus⟩ := isAlnum_facts c (isAlnum_of_digit c (hdigit c mem_cons_self))
  obtain ⟨htake, hdrop⟩ := hpost.not_digit base hle
  have hdrop' : dropWhile isSpace (c :: l' ++ post) = c :: (l' ++ post) := dropWhile_cons_of_neg (by simp [hspace])
  have htakeall : takeWhile (isDigit base) (c :: (l' ++ post)) = c :: l' := by
    rw [← cons_append, takeWhile_append_of_pos h.digits, htake, append_nil]
  have hdropall : dropWhile (isDigit base) (c :: (l' ++ post)) = post := by
    rw [← cons_append, dropWhile_append_of_pos h.digits, hdrop]
  -- no `0x` in front: the second byte is a digit or the dot
  have hsecond : ∀ x rest, l' ++ post = x :: rest → (x == 120 || x == 88) = false := by
    intro x rest heq
    have hx : isDigit 16 x = true ∨ x = 0x2e := by
      cases l' with
      | nil =>
        obtain rfl | ⟨rest', rfl⟩ := hpost
        · cases heq
        · exact .inr (cons.inj heq).1.symm
      | cons y l' =>
        rw [← (cons.inj heq).1]
        exact .inl (hdigit y (mem_cons_of_mem _ mem_cons_self))
    rw [Bool.or_eq_false_iff, beq_eq_false_iff_ne, beq_eq_false_iff_ne]
    constructor
    · rintro rfl
      obtain hx | hx := hx
      · exact absurd hx (by decide)
      · exact absurd hx (by decide)
    · rintro rfl
      obtain hx | hx := hx
      · exact absurd hx (by decide)
      · exact absurd hx (by decide)
  have hmin : min (digitsValue base (c :: l')) (2 ^ 64 - 1) = n := by
    rw [h.value]
    omega
  unfold strtoul
  rw [hdrop']
  simp only [cons.injEq, hminus, false_and, imp_self, implies_true, hplus, Bool.and_eq_true, Bool.or_eq_true, beq_iff_eq,
    cons_append, Nat.reducePow, Bool.false_and, Bool.false_eq_true, ↓reduceIte, Nat.add_one_sub_one]
  split
  next x d t hcons =>
    obtain ⟨rfl, htail⟩ := cons.inj hcons
    have hno : ¬ ((x = 120 ∨ x = 88) ∧ isDigit 16 d = true) := by
      have hx := hsecond x _ htail
      simp only [Bool.or_eq_false_iff, beq_eq_false_iff_ne] at hx
      exact fun h => h.1.elim hx.1 hx.2
    rw [if_neg hno, ← htail, htakeall, if_neg (cons_ne_nil _ _), hdropall]
    rw [show (18446744073709551615 : ℕ) = 2 ^ 64 - 1 from rfl, hmin]
  next =>
    rw [htakeall, if_neg (cons_ne_nil _ _), hdropall]
    rw [show (18446744073709551615 : ℕ) = 2 ^ 64 - 1 from rfl, hmin]

theorem strtoul_letter (h : IsAlnum c) (hdigit : isDigit 16 c = false) (post : Bytes) :
    strtoul 16 (c :: post) = (0, c :: post) := by
  obtain ⟨-, -, hspace, hminus, hplus⟩ := isAlnum_facts c h
  have hdrop : dropWhile isSpace (c :: post) = c :: post := dropWhile_cons_of_neg (by simp [hspace])
  have hzero : c ≠ 48 := by
    rintro rfl
    exact absurd hdigit (by decide)
  have htake : takeWhile (isDigit 16) (c :: post) = [] := takeWhile_cons_of_neg (by simp [hdigit])
  unfold strtoul
  rw [hdrop]
  simp only [cons.injEq, hminus, false_and, imp_self, implies_true, hplus, hzero, htake, if_true]

/-! ### Labels as tokens -/

/-- What a label of an IPv6 address is: a word, `zz`, or `zz` with a capital. -/
inductive Token where
  | word (w : ℕ)
  | zz
  | bad
deriving DecidableEq, Repr

def TokenText (l : Label) : Token → Prop
  | .word w => Digits 16 l w ∧ w < 65536
  | .zz => l = [0x7a, 0x7a]
  | .bad => l.lower = [0x7a, 0x7a] ∧ l ≠ [0x7a, 0x7a]

def putWord (i w : ℕ) (key : Key) : Key :=
  if i % 2 = 0 then key.setWord (3 - i / 2) (BitVec.ofNat 32 w)
  else key.setWord (3 - i / 2) (key.word 0 (3 - i / 2) ||| (BitVec.ofNat 32 w <<< 16))

/-- The loop over the labels of an IPv6 address, when all are read. -/
def readTokens : ℕ → List Token → Key → Option Key
  | _, [], key => some key
  | i, t :: ts, key =>
    if 8 ≤ i then none
    else match t with
      | .zz => if i ≤ 6 then readTokens (max (i + 1) (9 - (ts.length + 1))) ts (clearWords key i (max (i + 1) (9 - (ts.length + 1)))) else none
      | .word w => readTokens (i + 1) ts (putWord i w key)
      | .bad => none

theorem TokenText.alnum {t : Token} (h : TokenText l t) : ∀ c ∈ l, IsAlnum c := by
  cases t with
  | word w => exact fun c hc => isAlnum_of_digit c (h.1.digits c hc)
  | zz =>
    have hl : l = [0x7a, 0x7a] := h
    rw [hl]
    simp [IsAlnum]
  | bad =>
    intro c hc
    have hmem : maptolower c ∈ ([0x7a, 0x7a] : Label) := h.1 ▸ mem_map_of_mem hc
    rw [← isAlnum_lower]
    have hall : ∀ x ∈ ([0x7a, 0x7a] : Label), IsAlnum x := by simp [IsAlnum]
    exact hall _ hmem

theorem flatMap_charText (h : ∀ c ∈ l, IsAlnum c) : l.flatMap charText = l := by
  induction l with
  | nil => rfl
  | cons c l ih =>
    rw [flatMap_cons, (isAlnum_facts c (h c mem_cons_self)).1, ih (fun x hx => h x (mem_cons_of_mem _ hx))]
    rfl

/-- What stands behind the first label of a text. -/
def restText (ls : List Label) : Bytes := if ls = [] then [] else 0x2e :: formatText ls

theorem formatText_cons (h : ∀ c ∈ l, IsAlnum c) (ls : List Label) : formatText (l :: ls) = l ++ restText ls := by
  unfold restText
  cases ls with
  | nil =>
    rw [if_pos rfl, append_nil, formatText, flatMap_charText h]
  | cons l' ls =>
    rw [if_neg (cons_ne_nil _ _), formatText, flatMap_charText h]
    exact cons_ne_nil _ _

theorem restText_ends (ls : List Label) : Ends (restText ls) := by
  unfold restText
  split
  · exact .inl rfl
  · exact .inr ⟨_, rfl⟩

/-- What the loop goes on with behind the first label. -/
def nextText (ls : List Label) : Option Bytes := if ls = [] then none else some (formatText ls)

theorem readTokens_full (hi : 8 ≤ i) (t : Token) (ts : List Token) (key : Key) : readTokens i (t :: ts) key = none := by
  cases t with
  | zz | word w | bad => rw [readTokens, if_pos hi]

theorem readWords_word {w : ℕ} (hi : ¬ 8 ≤ i) (h : Digits 16 l w) (hw : w < 65536) (n : ℕ) (ls : List Label) (key : Key) :
    readWords (n + 1) i (some (l ++ restText ls)) key = readWords n (i + 1) (nextText ls) (putWord i w key) := by
  have hcond : ¬ ((l ++ restText ls).take 2 = [0x7a, 0x7a] ∧
      ((l ++ restText ls).length = 2 ∨ (l ++ restText ls).getD 2 0 = 0x2e) ∧ i ≤ 6) := by
    rintro ⟨htake, -⟩
    obtain ⟨c, l', rfl⟩ := exists_cons_of_ne_nil h.ne
    have hc : c = 0x7a := (cons.inj htake).1
    have hdigit := h.digits c mem_cons_self
    rw [hc] at hdigit
    exact absurd hdigit (by decide)
  rw [readWords, if_neg hi, if_neg hcond, strtoul_digits (Or.inr rfl) h (by omega) (restText_ends ls)]
  simp only
  rw [if_neg (by omega)]
  unfold restText nextText putWord
  by_cases hls : ls = []
  · rw [if_pos hls, if_pos hls]
  · rw [if_neg hls, if_neg hls]
    simp only [if_true]

theorem readWords_zz (h6 : i ≤ 6) (n : ℕ) (ls : List Label) (key : Key) :
    readWords (n + 1) i (some ([0x7a, 0x7a] ++ restText ls)) key =
      readWords n (max (i + 1) (9 - (n + 1))) (nextText ls) (clearWords key i (max (i + 1) (9 - (n + 1)))) := by
  rw [readWords, if_neg (by omega)]
  unfold restText nextText
  by_cases hls : ls = []
  · rw [if_pos hls, if_pos hls, if_pos ⟨rfl, Or.inl rfl, h6⟩]
    rfl
  rw [if_neg hls, if_neg hls, if_pos ⟨rfl, Or.inr rfl, h6⟩]
  rw [if_neg (by simp)]
  rfl

theorem readWords_letter (hc : IsAlnum c) (hdigit : isDigit 16 c = false) (n i : ℕ) (hi : ¬ 8 ≤ i) (text : Bytes) (key : Key)
    (hcond : ¬ ((c :: text).take 2 = [0x7a, 0x7a] ∧ ((c :: text).length = 2 ∨ (c :: text).getD 2 0 = 0x2e) ∧ i ≤ 6)) :
    readWords (n + 1) i (some (c :: text)) key = none := by
  rw [readWords, if_neg hi, if_neg hcond, strtoul_letter hc hdigit]
  simp only
  rw [if_neg (by omega), if_neg (isAlnum_facts c hc).2.1]

theorem readWords_bad (h : TokenText l .bad) (n i : ℕ) (hi : ¬ 8 ≤ i) (ls : List Label) (key : Key) :
    readWords (n + 1) i (some (l ++ restText ls)) key = none := by
  obtain ⟨hlower, hne⟩ := h
  have hlen : l.length = 2 := by
    rw [← Label.lower_length, hlower]
    rfl
  obtain ⟨c, d, rfl⟩ := length_eq_two.1 hlen
  obtain ⟨hc, htail⟩ := cons.inj hlower
  have hd : maptolower d = 0x7a := (cons.inj htail).1
  refine readWords_letter ((isAlnum_lower c).1 (hc ▸ by decide)) ?_ n i hi _ key ?_
  · unfold isDigit
    rw [← digitValue_lower, hc]
    rfl
  · rintro ⟨htake, -⟩
    exact hne htake

variable {ls : List Label} {ts : List Token}

theorem readWords_tokens (h : Forall₂ TokenText ls ts) : ∀ (i : ℕ) (key key' : Key),
    (readWords ls.length i (nextText ls) key = some (key', none) ↔ readTokens i ts key = some key') := by
  induction h with
  | nil =>
    intro i key key'
    simp [readWords, readTokens, nextText]
  | @cons l t ls ts hl hrest ih =>
    intro i key key'
    have hlen : ls.length = ts.length := hrest.length_eq
    rw [show nextText (l :: ls) = some (formatText (l :: ls)) from rfl, formatText_cons hl.alnum, length_cons]
    by_cases hi : 8 ≤ i
    · rw [readWords, if_pos hi, readTokens_full hi]
      simp
    cases t with
    | zz =>
      rw [show l = [0x7a, 0x7a] from hl, readTokens, if_neg hi]
      by_cases h6 : i ≤ 6
      · rw [readWords_zz h6, if_pos h6, ih, hlen]
      rw [if_neg h6, show ([0x7a, 0x7a] : Bytes) ++ restText ls = 0x7a :: (0x7a :: restText ls) from rfl,
        readWords_letter (by decide) (by decide) _ _ hi _ _ (fun h => h6 h.2.2)]
      simp
    | word w =>
      rw [readWords_word hi hl.1 hl.2, readTokens, if_neg hi]
      exact ih _ _ _
    | bad =>
      rw [readWords_bad hl _ _ hi, readTokens, if_neg hi]
      simp

/-! ### The sixteen-bit words -/

/-- A number put above the bits that are there. -/
theorem or_shift {v : BitVec 32} {d i : ℕ} (hv : v.toNat < 2 ^ i) (hd : d * 2 ^ i < 2 ^ 32) :
    (v ||| BitVec.ofNat 32 d <<< i).toNat = v.toNat + d * 2 ^ i := by
  have hlt : d < 2 ^ 32 := lt_of_le_of_lt (Nat.le_mul_of_pos_right d (Nat.two_pow_pos i)) hd
  have hmod : (d <<< i) % 2 ^ 32 = d <<< i := Nat.mod_eq_of_lt (by rw [Nat.shiftLeft_eq]; exact hd)
  rw [BitVec.toNat_or, BitVec.toNat_shiftLeft, BitVec.toNat_ofNat, Nat.mod_eq_of_lt hlt, hmod, Nat.or_comm,
    ← Nat.shiftLeft_add_eq_or_of_lt hv, Nat.shiftLeft_eq, Nat.add_comm]

/-- The words of a key, the last one first. -/
def Key.half (k : Key) (m : ℕ) : ℕ := (k.word 0 (3 - m / 2)).toNat / 65536 ^ (m % 2) % 65536

theorem words16_eq (k : Key) : words16 k = (range 8).map k.half := by
  have hhigh : ∀ w : BitVec 32, w.toNat / 65536 % 65536 = w.toNat / 65536 := by
    intro w
    have := w.isLt
    omega
  show [_, _, _, _, _, _, _, _] = [_, _, _, _, _, _, _, _]
  simp [Key.half, Key.word, hhigh]

variable {k target : Key}

theorem Key.ext_half {k' : Key} (h : ∀ m < 8, k.half m = k'.half m) : k = k' := by
  have hword : ∀ v w : BitVec 32, v.toNat / 65536 ^ 0 % 65536 = w.toNat / 65536 ^ 0 % 65536 →
      v.toNat / 65536 ^ 1 % 65536 = w.toNat / 65536 ^ 1 % 65536 → v = w := by
    intro v w hlow hhigh
    have hv := v.isLt
    have hw := w.isLt
    apply BitVec.eq_of_toNat_eq
    omega
  obtain ⟨a, b, c, d⟩ := k
  obtain ⟨a', b', c', d'⟩ := k'
  rw [hword a a' (h 6 (by omega)) (h 7 (by omega)), hword b b' (h 4 (by omega)) (h 5 (by omega)),
    hword c c' (h 2 (by omega)) (h 3 (by omega)), hword d d' (h 0 (by omega)) (h 1 (by omega))]

theorem Key.word_setWord (k : Key) {j : ℕ} (v : BitVec 32) (hi : i < 4) :
    (k.setWord i v).word 0 j = if j = i then v else k.word 0 j := by
  have hcases : i = 0 ∨ i = 1 ∨ i = 2 ∨ i = 3 := by omega
  obtain rfl | rfl | rfl | rfl := hcases <;> rcases j with _ | _ | _ | _ | j <;> rfl

theorem Key.setWord_word (k : Key) (hi : i < 4) : k.setWord i (k.word 0 i) = k := by
  have hcases : i = 0 ∨ i = 1 ∨ i = 2 ∨ i = 3 := by omega
  obtain rfl | rfl | rfl | rfl := hcases <;> rfl

/-- What the loop has read: the words before `i`; an odd word is still zero. -/
structure ReadUpTo (target key : Key) (i : ℕ) : Prop where
  done : ∀ m < i, key.half m = target.half m
  odd : i % 2 = 1 → key.half i = 0

theorem Key.half_setWord_ne (k : Key) {q m : ℕ} (v : BitVec 32) (hq : q < 4) (hm : m < 8) (hne : m / 2 ≠ q) :
    (k.setWord (3 - q) v).half m = k.half m := by
  unfold Key.half
  rw [Key.word_setWord k v (by omega), if_neg (by omega)]

theorem Key.half_setWord_eq (k : Key) {q m : ℕ} (v : BitVec 32) (heq : m / 2 = q) :
    (k.setWord (3 - q) v).half m = v.toNat / 65536 ^ (m % 2) % 65536 := by
  unfold Key.half
  rw [Key.word_setWord k v (by omega), heq, if_pos rfl]

theorem ReadUpTo.put {key : Key} (h : ReadUpTo target key i) (hi : i < 8) :
    ReadUpTo target (putWord i (target.half i) key) (i + 1) := by
  have hlt : target.half i < 65536 := Nat.mod_lt _ (by omega)
  generalize hw : target.half i = w at hlt
  have hnat : (BitVec.ofNat 32 w).toNat = w := by
    rw [BitVec.toNat_ofNat]
    omega
  unfold putWord
  by_cases heven : i % 2 = 0
  · rw [if_pos heven]
    refine ⟨fun m hm => ?_, fun hodd => ?_⟩
    · by_cases hmi : m = i
      · rw [Key.half_setWord_eq key _ (by rw [hmi]), hnat, hmi, heven, hw]
        omega
      · rw [Key.half_setWord_ne key _ (by omega) (by omega) (by omega)]
        exact h.done m (by omega)
    · rw [Key.half_setWord_eq key _ (by omega), hnat, hodd]
      omega
  rw [if_neg heven]
  have hodd : i % 2 = 1 := by omega
  -- the high half is zero, so the new one is added to it
  have hhigh : (key.word 0 (3 - i / 2)).toNat / 65536 ^ (i % 2) % 65536 = 0 := h.odd hodd
  have hlow : (key.word 0 (3 - (i - 1) / 2)).toNat / 65536 ^ ((i - 1) % 2) % 65536 = target.half (i - 1) := h.done (i - 1) (by omega)
  rw [hodd, pow_one] at hhigh
  rw [show (i - 1) / 2 = i / 2 by omega, show (i - 1) % 2 = 0 by omega, pow_zero, Nat.div_one] at hlow
  have hvalue : (key.word 0 (3 - i / 2) ||| BitVec.ofNat 32 w <<< 16).toNat = (key.word 0 (3 - i / 2)).toNat + w * 65536 := by
    have hbound := (key.word 0 (3 - i / 2)).isLt
    exact or_shift (by omega) (by omega)
  refine ⟨fun m hm => ?_, fun hodd' => absurd hodd' (by omega)⟩
  by_cases hsame : m / 2 = i / 2
  · rw [Key.half_setWord_eq key _ hsame, hvalue]
    have hm' : m = i ∨ m = i - 1 := by omega
    obtain rfl | rfl := hm'
    · rw [hodd, pow_one, hw]
      have hbound := (key.word 0 (3 - m / 2)).isLt
      omega
    · rw [show (i - 1) % 2 = 0 by omega, pow_zero, Nat.div_one, Nat.add_mul_mod_self_right]
      exact hlow
  · rw [Key.half_setWord_ne key _ (by omega) (by omega) hsame]
    exact h.done m (by omega)

theorem clearWords_succ (key : Key) (i n : ℕ) : clearWords key i (i + (n + 1)) =
    clearWords (if i % 2 = 0 then key.setWord (3 - i / 2) 0 else key) (i + 1) (i + 1 + n) := by
  unfold clearWords
  rw [show i + (n + 1) - i = n + 1 by omega, show i + 1 + n - (i + 1) = n by omega, range'_succ]
  by_cases heven : i % 2 = 0
  · rw [filter_cons_of_pos (by simp [heven]), foldl_cons, if_pos heven]
  · rw [filter_cons_of_neg (by simp [heven]), if_neg heven]

theorem ReadUpTo.clear : ∀ {key : Key} {i : ℕ}, ReadUpTo target key i → i + n ≤ 8 →
    (∀ m, i ≤ m → m < i + n → target.half m = 0) → ReadUpTo target (clearWords key i (i + n)) (i + n) := by
  induction n with
  | zero =>
    intro key i h _ _
    unfold clearWords
    rw [Nat.add_zero, Nat.sub_self]
    exact h
  | succ n ih =>
    intro key i h hle hzero
    have hput := h.put (by omega)
    rw [hzero i le_rfl (by omega)] at hput
    have hkey : putWord i 0 key = if i % 2 = 0 then key.setWord (3 - i / 2) 0 else key := by
      unfold putWord
      by_cases heven : i % 2 = 0
      · rw [if_pos heven, if_pos heven]
        rfl
      · rw [if_neg heven, if_neg heven, show (BitVec.ofNat 32 0 <<< 16 : BitVec 32) = 0#32 from rfl, BitVec.or_zero]
        exact Key.setWord_word key (by omega)
    rw [hkey] at hput
    rw [clearWords_succ, show i + (n + 1) = i + 1 + n by omega]
    exact ih hput (by omega) (fun m hm hlt => hzero m (by omega) (by omega))

/-! ### The labels of a key -/

def Key.wordsFrom (k : Key) (i : ℕ) : List ℕ := (range' i (8 - i)).map k.half

theorem Key.wordsFrom_cons (k : Key) (hi : i < 8) : k.wordsFrom i = k.half i :: k.wordsFrom (i + 1) := by
  unfold Key.wordsFrom
  rw [show 8 - i = (8 - (i + 1)) + 1 by omega, range'_succ, map_cons]

theorem Key.wordsFrom_end (k : Key) : k.wordsFrom 8 = [] := rfl

theorem Key.wordsFrom_length (k : Key) (i : ℕ) : (k.wordsFrom i).length = 8 - i := by
  unfold Key.wordsFrom
  rw [length_map, length_range']

theorem words16_wordsFrom (k : Key) : words16 k = k.wordsFrom 0 := by
  rw [words16_eq, range_eq_range']
  rfl

theorem numText_word (k : Key) (i : ℕ) : TokenText (numText 16 (k.half i)) (.word (k.half i)) :=
  ⟨numText_digits (by omega) (by omega) _, Nat.mod_lt _ (by omega)⟩

/-- Behind `zz` every word is written. -/
theorem ip6Labels_zeros (ws : List ℕ) : ip6Labels true false ws = ws.map (numText 16) := by
  induction ws with
  | nil => rfl
  | cons w ws ih =>
    rw [ip6Labels, if_neg (by simp), if_pos (Or.inr (Or.inl rfl)), ih]
    rfl

/-- The zeros behind `zz` are passed over. -/
theorem ip6Labels_skip (ws : List ℕ) : ip6Labels true true ws = (ws.dropWhile (· == 0)).map (numText 16) := by
  induction ws with
  | nil => rfl
  | cons w ws ih =>
    by_cases hw : w = 0
    · rw [ip6Labels, if_pos (by simp [hw]), ih, dropWhile_cons_of_pos (by simp [hw])]
    · rw [ip6Labels, if_neg (by simp [hw]), if_pos (Or.inl hw), ip6Labels_zeros, dropWhile_cons_of_neg (by simp [hw])]
      rfl

theorem readTokens_words : ∀ {key : Key} {i : ℕ}, ReadUpTo target key i → i + n = 8 →
    readTokens i ((target.wordsFrom i).map Token.word) key = some target := by
  induction n with
  | zero =>
    intro key i h hi
    obtain rfl : i = 8 := hi
    rw [Key.wordsFrom_end, map_nil, readTokens, Key.ext_half h.done]
  | succ n ih =>
    intro key i h hi
    rw [Key.wordsFrom_cons target (by omega), map_cons, readTokens, if_neg (by omega)]
    exact ih (h.put (by omega)) (by omega)

theorem Key.dropWhile_wordsFrom (k : Key) : ∀ {i : ℕ}, i + n = 8 →
    ∃ j, i ≤ j ∧ j ≤ 8 ∧ (k.wordsFrom i).dropWhile (· == 0) = k.wordsFrom j ∧ ∀ m, i ≤ m → m < j → k.half m = 0 := by
  induction n with
  | zero =>
    intro i hi
    obtain rfl : i = 8 := hi
    exact ⟨8, le_rfl, le_rfl, rfl, fun m hm hlt => absurd hlt (by omega)⟩
  | succ n ih =>
    intro i hi
    by_cases hzero : k.half i = 0
    · obtain ⟨j, hij, hj, hdrop, hbetween⟩ := ih (i := i + 1) (by omega)
      refine ⟨j, by omega, hj, ?_, fun m hm hlt => ?_⟩
      · rw [Key.wordsFrom_cons k (by omega), dropWhile_cons_of_pos (by simp [hzero]), hdrop]
      · by_cases hmi : m = i
        · rw [hmi, hzero]
        · exact hbetween m (by omega) hlt
    · refine ⟨i, le_rfl, by omega, ?_, fun m hm hlt => absurd hlt (by omega)⟩
      rw [Key.wordsFrom_cons k (by omega), dropWhile_cons_of_neg (by simp [hzero])]

theorem ip6Labels_read {target : Key} {n : ℕ} : ∀ {i : ℕ}, i + n = 8 →
    ∃ ts, Forall₂ TokenText (ip6Labels false false (target.wordsFrom i)) ts ∧ Token.bad ∉ ts ∧
      (.zz ∈ ts ∨ ts.length = n) ∧ ∀ key, ReadUpTo target key i → readTokens i ts key = some target := by
  induction n with
  | zero =>
    intro i hi
    obtain rfl : i = 8 := hi
    refine ⟨[], Forall₂.nil, not_mem_nil, Or.inr rfl, fun key h => ?_⟩
    rw [readTokens, Key.ext_half h.done]
  | succ n ih =>
    intro i hi
    rw [Key.wordsFrom_cons target (by omega), ip6Labels, if_neg (by simp)]
    split
    · obtain ⟨ts, htexts, hbad, hlen, hread⟩ := ih (i := i + 1) (by omega)
      refine ⟨.word (target.half i) :: ts, Forall₂.cons (numText_word target i) htexts, by simp [hbad], ?_, fun key h => ?_⟩
      · obtain hzz | hlen := hlen
        · exact .inl (mem_cons_of_mem _ hzz)
        · exact .inr (by rw [length_cons, hlen])
      · rw [readTokens, if_neg (by omega)]
        exact hread _ (h.put (by omega))
    next hcond =>
      push Not at hcond
      obtain ⟨hzero, -, hne, hhead⟩ := hcond
      -- two zeros at least, so `i` is at most 6
      have hn : i + 2 ≤ 8 := by
        by_contra hlt
        have hend : i + 1 = 8 := by omega
        rw [hend] at hne
        exact hne rfl
      obtain ⟨j, hij, hj, hdrop, hbetween⟩ := target.dropWhile_wordsFrom (n := n) (i := i + 1) (by omega)
      have hmap : ∀ ws : List ℕ, (∀ w ∈ ws, w < 65536) → Forall₂ TokenText (ws.map (numText 16)) (ws.map Token.word) := by
        intro ws
        induction ws with
        | nil => exact fun _ => Forall₂.nil
        | cons w ws ih =>
          intro hlt
          exact Forall₂.cons ⟨numText_digits (by omega) (by omega) _, hlt w mem_cons_self⟩
            (ih (fun x hx => hlt x (mem_cons_of_mem _ hx)))
      refine ⟨.zz :: (target.wordsFrom j).map Token.word, Forall₂.cons rfl ?_, ?_, Or.inl mem_cons_self, fun key h => ?_⟩
      · rw [ip6Labels_skip, hdrop]
        refine hmap _ (fun w hw => ?_)
        obtain ⟨m, -, rfl⟩ := mem_map.1 hw
        exact Nat.mod_lt _ (by omega)
      · simp
      · rw [readTokens, if_neg (by omega), if_pos (by omega), length_map, Key.wordsFrom_length]
        have hnext : max (i + 1) (9 - (8 - j + 1)) = i + (j - i) := by omega
        rw [hnext]
        have hclear := h.clear (n := j - i) (by omega) (fun m hm hlt => ?_)
        · rw [show i + (j - i) = j by omega] at hclear ⊢
          exact readTokens_words (n := 8 - j) hclear (by omega)
        · by_cases hmi : m = i
          · rw [hmi, hzero]
          · exact hbetween m (by omega) (by omega)

/-! ### Names up to capitals -/

/-- No label is `zz` with a capital. -/
def SmallZz (ls : List Label) : Prop := ∀ l ∈ ls, l.lower = [0x7a, 0x7a] → l = [0x7a, 0x7a]

instance (ls : List Label) : Decidable (SmallZz ls) := inferInstanceAs (Decidable (∀ l ∈ ls, l.lower = [0x7a, 0x7a] → l = [0x7a, 0x7a]))

theorem readTokens_bad (h : Token.bad ∈ ts) : ∀ (i : ℕ) (key : Key), readTokens i ts key = none := by
  induction ts with
  | nil => exact absurd h not_mem_nil
  | cons t ts ih =>
    intro i key
    by_cases hi : 8 ≤ i
    · exact readTokens_full hi t ts key
    cases t with
    | bad => rw [readTokens, if_neg hi]
    | word w =>
      rw [readTokens, if_neg hi]
      exact ih (by simpa using h) _ _
    | zz =>
      rw [readTokens, if_neg hi]
      split
      · exact ih (by simpa using h) _ _
      · rfl

theorem TokenText.not_bad (h : Forall₂ TokenText ls ts) : SmallZz ls ↔ Token.bad ∉ ts := by
  induction h with
  | nil => simp [SmallZz]
  | @cons l t ls ts hl hrest ih =>
    have hhead : (l.lower = [0x7a, 0x7a] → l = [0x7a, 0x7a]) ↔ t ≠ .bad := by
      cases t with
      | bad => exact ⟨fun h => absurd (h hl.1) hl.2, fun h => absurd rfl h⟩
      | zz => exact ⟨fun _ => by simp, fun _ _ => hl⟩
      | word w =>
        refine ⟨fun _ => by simp, fun _ hlower => ?_⟩
        obtain ⟨-, hdigits, -⟩ := hl.1.of_lower (show Label.lower [0x7a, 0x7a] = l.lower by rw [hlower]; rfl)
        exact absurd (hdigits 0x7a mem_cons_self) (by decide)
    unfold SmallZz at ih ⊢
    rw [forall_mem_cons, ih, hhead, mem_cons, not_or]
    exact and_congr_left (fun _ => ne_comm)

theorem TokenText.of_lower {ls' : List Label} (h : Forall₂ TokenText ls ts) (hbad : Token.bad ∉ ts) :
    ls'.map Label.lower = ls.map Label.lower → ∃ ts', Forall₂ TokenText ls' ts' ∧ (ts' = ts ∨ .bad ∈ ts') := by
  induction h generalizing ls' with
  | nil =>
    intro heq
    rw [map_eq_nil_iff.1 heq]
    exact ⟨[], Forall₂.nil, Or.inl rfl⟩
  | @cons l t ls ts hl hrest ih =>
    intro heq
    obtain ⟨l', ls', rfl, hlower, htail⟩ := map_eq_cons_iff.1 heq
    obtain ⟨ts', htexts, hsame⟩ := ih (fun hmem => hbad (mem_cons_of_mem _ hmem)) htail
    have hhead : ∃ t', TokenText l' t' ∧ (t' = t ∨ t' = .bad) := by
      cases t with
      | word w => exact ⟨.word w, ⟨hl.1.of_lower hlower, hl.2⟩, Or.inl rfl⟩
      | zz =>
        have hzz : l'.lower = [0x7a, 0x7a] := by
          rw [hlower, show l = [0x7a, 0x7a] from hl]
          rfl
        by_cases hl' : l' = [0x7a, 0x7a]
        · exact ⟨.zz, hl', Or.inl rfl⟩
        · exact ⟨.bad, ⟨hzz, hl'⟩, Or.inr rfl⟩
      | bad => exact absurd mem_cons_self hbad
    obtain ⟨t', htext, ht⟩ := hhead
    refine ⟨t' :: ts', Forall₂.cons htext htexts, ?_⟩
    obtain rfl | rfl := ht
    · obtain rfl | hmem := hsame
      · exact .inl rfl
      · exact .inr (mem_cons_of_mem _ hmem)
    · exact .inr mem_cons_self

theorem readWords_key (heq : ls.map Label.lower = (ip6Labels false false (words16 target)).map Label.lower)
    (init key : Key) : readWords ls.length 0 (nextText ls) init = some (key, none) ↔ SmallZz ls ∧ key = target := by
  obtain ⟨ts, htexts, hbad, -, hread⟩ := @ip6Labels_read target 8 0 (by omega)
  rw [← words16_wordsFrom] at htexts
  obtain ⟨ts', htexts', hsame⟩ := TokenText.of_lower htexts hbad heq
  have hinit : ReadUpTo target init 0 := ⟨fun m hm => absurd hm (by omega), fun h => absurd h (by omega)⟩
  rw [readWords_tokens htexts', TokenText.not_bad htexts']
  obtain rfl | hmem := hsame
  · rw [hread init hinit]
    constructor
    · intro h
      exact ⟨hbad, (Option.some.inj h).symm⟩
    · rintro ⟨-, rfl⟩
      rfl
  rw [readTokens_bad hmem]
  constructor
  · intro h
    cases h
  · rintro ⟨h, -⟩
    exact absurd hmem h

/-! ### Octets -/

theorem readOctets_step {d : ℕ} (h : Digits 10 l d) (hd : d < 256) (n i : ℕ) (ls : List Label) (w : BitVec 32) :
    readOctets (n + 1) i (some (l ++ restText ls)) w = readOctets n (i + 8) (nextText ls) (w ||| (BitVec.ofNat 32 d <<< i)) := by
  rw [readOctets, strtoul_digits (Or.inl rfl) h (by omega) (restText_ends ls)]
  simp only
  rw [if_neg (by omega)]
  unfold restText nextText
  by_cases hls : ls = []
  · rw [if_pos hls, if_pos hls]
  · rw [if_neg hls, if_neg hls]
    simp only [if_true]

theorem Digits.alnum (hbase : base ≤ 16) (h : Digits base l n) : ∀ c ∈ l, IsAlnum c :=
  fun c hc => isAlnum_of_digit c (isDigit_mono hbase (h.digits c hc))

theorem readOctets_word {a b c d : Label} (w : BitVec 32) (ha : Digits 10 a (w.toNat % 256)) (hb : Digits 10 b (w.toNat / 256 % 256))
    (hc : Digits 10 c (w.toNat / 65536 % 256)) (hd : Digits 10 d (w.toNat / 16777216)) :
    readOctets 4 0 (some (formatText [a, b, c, d])) 0 = some (w, none) := by
  have hlt := w.isLt
  rw [formatText_cons (ha.alnum (by omega)), readOctets_step ha (by omega)]
  rw [show nextText [b, c, d] = some (formatText [b, c, d]) from rfl, formatText_cons (hb.alnum (by omega)), readOctets_step hb (by omega)]
  rw [show nextText [c, d] = some (formatText [c, d]) from rfl, formatText_cons (hc.alnum (by omega)), readOctets_step hc (by omega)]
  rw [show nextText [d] = some (formatText [d]) from rfl, formatText_cons (hd.alnum (by omega)), readOctets_step hd (by omega)]
  rw [show nextText [] = none from rfl, readOctets]
  have h1 : ((0 : BitVec 32) ||| BitVec.ofNat 32 (w.toNat % 256) <<< 0).toNat = 0 + w.toNat % 256 * 2 ^ 0 :=
    or_shift (by decide) (by omega)
  have h2 := @or_shift ((0 : BitVec 32) ||| BitVec.ofNat 32 (w.toNat % 256) <<< 0) (w.toNat / 256 % 256) (0 + 8)
    (by rw [h1]; omega) (by omega)
  rw [h1] at h2
  have h3 := @or_shift _ (w.toNat / 65536 % 256) (0 + 8 + 8) (lt_of_eq_of_lt h2 (by omega)) (by omega)
  rw [h2] at h3
  have h4 := @or_shift _ (w.toNat / 16777216) (0 + 8 + 8 + 8) (lt_of_eq_of_lt h3 (by omega)) (by omega)
  rw [h3] at h4
  have hw : _ = w := BitVec.eq_of_toNat_eq (h4.trans (by omega))
  rw [hw]

/-! ### The text of a key -/

/-- The keys that are written as IPv4 addresses. -/
def IsV4 (k : Key) (b : ℕ) : Prop := 96 < b ∧ k.w0 = 0 ∧ k.w1 = 0 ∧ k.w2 = ADDR_V4MAPPED

instance (k : Key) (b : ℕ) : Decidable (IsV4 k b) := inferInstanceAs (Decidable (96 < b ∧ k.w0 = 0 ∧ k.w1 = 0 ∧ k.w2 = ADDR_V4MAPPED))

theorem readKey_cons (h : Digits 10 l b) (hb : 1 ≤ b ∧ b ≤ 128) (hne : ls ≠ []) (init : Key) (n : ℕ) :
    readKey init n (formatText (l :: ls)) =
      if n = 4 ∧ (0x7a : UInt8) ∉ formatText ls then
        if 32 < b then none
        else match readOctets 4 0 (some (formatText ls)) 0 with
          | some (w, none) => some (⟨0, 0, ADDR_V4MAPPED, w⟩, b + 96)
          | _ => none
      else match readWords n 0 (nextText ls) init with
        | some (key, none) => some (key, b)
        | _ => none := by
  have hnext : nextText ls = some (formatText ls) := if_neg hne
  unfold readKey
  rw [formatText_cons (h.alnum (by omega)), strtoul_digits (Or.inl rfl) h (by omega) (restText_ends ls), hnext]
  unfold restText
  rw [if_neg hne]
  exact if_neg (by omega)

theorem Digits.not_zz (hbase : base ≤ 16) (h : Digits base l n) : l.lower ≠ [0x7a, 0x7a] := by
  intro hlower
  have hzz := h.of_lower (show Label.lower [0x7a, 0x7a] = l.lower by rw [hlower]; rfl)
  exact absurd (isDigit_mono hbase (hzz.digits 0x7a mem_cons_self)) (by decide)

theorem SmallZz.cons {l : Label} (h : l.lower ≠ [0x7a, 0x7a]) {ls : List Label} : SmallZz (l :: ls) ↔ SmallZz ls := by
  unfold SmallZz
  rw [forall_mem_cons]
  exact and_iff_right (fun hlower => absurd hlower h)

theorem mem_formatText (hls : ∀ l ∈ ls, ∀ c ∈ l, IsAlnum c) (hl : l ∈ ls) (hc : c ∈ l) : c ∈ formatText ls := by
  induction ls with
  | nil => exact absurd hl not_mem_nil
  | cons x ls ih =>
    rw [formatText_cons (hls x mem_cons_self)]
    obtain rfl | hl := mem_cons.1 hl
    · exact mem_append_left _ hc
    apply mem_append_right
    unfold restText
    rw [if_neg (ne_nil_of_mem hl)]
    exact mem_cons_of_mem _ (ih (fun l hl => hls l (mem_cons_of_mem _ hl)) hl)

theorem formatText_mem (hdot : c ≠ 0x2e) (hne : ls ≠ []) (hls : ∀ l ∈ ls, ∀ c ∈ l, IsAlnum c)
    (hc : c ∈ formatText ls) : ∃ l ∈ ls, c ∈ l := by
  induction ls with
  | nil => exact absurd rfl hne
  | cons x ls ih =>
    rw [formatText_cons (hls x mem_cons_self)] at hc
    obtain hc | hc := mem_append.1 hc
    · exact ⟨x, mem_cons_self, hc⟩
    unfold restText at hc
    split at hc
    · exact absurd hc not_mem_nil
    next hnil =>
      obtain hc | hc := mem_cons.1 hc
      · exact absurd hc hdot
      · obtain ⟨l, hl, hcl⟩ := ih hnil (fun l hl => hls l (mem_cons_of_mem _ hl)) hc
        exact ⟨l, mem_cons_of_mem _ hl, hcl⟩

theorem ip2labels_v4 (h : IsV4 k b) : ip2labels k b =
    [numText 10 (b - 96), numText 10 (k.w3.toNat % 256), numText 10 (k.w3.toNat / 256 % 256), numText 10 (k.w3.toNat / 65536 % 256),
      numText 10 (k.w3.toNat / 16777216)] := if_pos h

theorem ip2labels_v6 (h : ¬ IsV4 k b) : ip2labels k b = numText 10 b :: ip6Labels false false (words16 k) := if_neg h

/-- The five labels of an IPv4 address. -/
theorem readKey_v4 (hb : b ≤ 128) (h : IsV4 k b) (heq : ls.map Label.lower = (ip2labels k b).map Label.lower)
    (init : Key) : SmallZz ls ∧ readKey init (ls.length - 1) (formatText ls) = some (k, b) := by
  have hdigits : ∀ n, Digits 10 (numText 10 n) n := numText_digits (by omega) (by omega)
  rw [ip2labels_v4 h] at heq
  obtain ⟨l0, ls, rfl, h0, heq⟩ := map_eq_cons_iff.1 heq
  obtain ⟨l1, ls, rfl, h1, heq⟩ := map_eq_cons_iff.1 heq
  obtain ⟨l2, ls, rfl, h2, heq⟩ := map_eq_cons_iff.1 heq
  obtain ⟨l3, ls, rfl, h3, heq⟩ := map_eq_cons_iff.1 heq
  obtain ⟨l4, ls, rfl, h4, heq⟩ := map_eq_cons_iff.1 heq
  rw [map_eq_nil_iff.1 heq]
  replace h0 := (hdigits _).of_lower h0
  replace h1 := (hdigits _).of_lower h1
  replace h2 := (hdigits _).of_lower h2
  replace h3 := (hdigits _).of_lower h3
  replace h4 := (hdigits _).of_lower h4
  have hlabels : ∀ l ∈ [l1, l2, l3, l4], ∃ n, Digits 10 l n := by
    simp only [mem_cons, not_mem_nil, or_false, forall_eq_or_imp, forall_eq]
    exact ⟨⟨_, h1⟩, ⟨_, h2⟩, ⟨_, h3⟩, ⟨_, h4⟩⟩
  have hnotz : (0x7a : UInt8) ∉ formatText [l1, l2, l3, l4] := by
    intro hmem
    obtain ⟨l, hl, hc⟩ := formatText_mem (by decide) (cons_ne_nil _ _)
      (fun l hl => (hlabels l hl).choose_spec.alnum (by omega)) hmem
    obtain ⟨n, hn⟩ := hlabels l hl
    exact absurd (isDigit_mono (by omega) (hn.digits _ hc)) (by decide)
  constructor
  · rw [SmallZz.cons (h0.not_zz (by omega)), SmallZz.cons (h1.not_zz (by omega)), SmallZz.cons (h2.not_zz (by omega)),
      SmallZz.cons (h3.not_zz (by omega)), SmallZz.cons (h4.not_zz (by omega))]
    exact fun l hl => absurd hl not_mem_nil
  · obtain ⟨h96, hw0, hw1, hw2⟩ := h
    have hkey : (⟨0, 0, ADDR_V4MAPPED, k.w3⟩ : Key) = k := by
      rw [← hw2]
      obtain ⟨w0, w1, w2, w3⟩ := k
      obtain rfl : w0 = 0 := hw0
      obtain rfl : w1 = 0 := hw1
      rfl
    rw [readKey_cons h0 (by omega) (cons_ne_nil _ _), if_pos ⟨rfl, hnotz⟩, if_neg (by omega), readOctets_word k.w3 h1 h2 h3 h4]
    simp only
    rw [hkey, Nat.sub_add_cancel (by omega)]

theorem TokenText.exists_label (h : Forall₂ TokenText ls ts) {t : Token} (ht : t ∈ ts) : ∃ l ∈ ls, TokenText l t := by
  induction h with
  | nil => exact absurd ht not_mem_nil
  | cons hl _ ih =>
    obtain rfl | ht := mem_cons.1 ht
    · exact ⟨_, mem_cons_self, hl⟩
    · obtain ⟨l, hmem, htext⟩ := ih ht
      exact ⟨l, mem_cons_of_mem _ hmem, htext⟩

theorem TokenText.alnum_labels (h : Forall₂ TokenText ls ts) : ∀ l ∈ ls, ∀ c ∈ l, IsAlnum c := by
  induction h with
  | nil => exact fun l hl => absurd hl not_mem_nil
  | cons hl _ ih => exact forall_mem_cons.2 ⟨hl.alnum, ih⟩

/-- The labels of an IPv6 address. -/
theorem readKey_v6 (hb : 1 ≤ b ∧ b ≤ 128) (h : ¬ IsV4 k b)
    (heq : ls.map Label.lower = (ip2labels k b).map Label.lower) (init : Key) :
    readKey init (ls.length - 1) (formatText ls) = some (k, b) ↔ SmallZz ls := by
  rw [ip2labels_v6 h] at heq
  obtain ⟨l, ls, rfl, hl, heq⟩ := map_eq_cons_iff.1 heq
  have hdigits := (numText_digits (by omega) (by omega) b : Digits 10 (numText 10 b) b).of_lower hl
  obtain ⟨ts, htexts, hbad, hlen, -⟩ := @ip6Labels_read k 8 0 (by omega)
  rw [← words16_wordsFrom] at htexts
  obtain ⟨ts', htexts', hsame⟩ := TokenText.of_lower htexts hbad heq
  have hlength : ls.length = ts.length := by
    rw [← htexts.length_eq, ← length_map Label.lower, heq, length_map]
  have hne : ls ≠ [] := by
    rintro rfl
    rw [length_nil] at hlength
    obtain hzz | hlen := hlen
    · exact absurd hlength.symm (Nat.ne_of_gt (length_pos_of_mem hzz))
    · omega
  rw [SmallZz.cons (hdigits.not_zz (by omega)), readKey_cons hdigits hb hne, length_cons, Nat.add_sub_cancel]
  split
  next hv4 =>
    -- four labels without a small `z`: one is `zz` with a capital
    have hnotsmall : ¬ SmallZz ls := by
      intro hsmall
      have hts : ts' = ts := hsame.resolve_right ((TokenText.not_bad htexts').1 hsmall)
      rw [hts] at htexts'
      have hzz : Token.zz ∈ ts := hlen.resolve_right (by omega)
      obtain ⟨l', hl', htext⟩ := TokenText.exists_label htexts' hzz
      have hmem : (0x7a : UInt8) ∈ l' := by
        rw [show l' = [0x7a, 0x7a] from htext]
        exact mem_cons_self
      exact hv4.2 (mem_formatText (TokenText.alnum_labels htexts') hl' hmem)
    refine ⟨fun hread => ?_, fun hsmall => absurd hsmall hnotsmall⟩
    split at hread
    · cases hread
    split at hread
    · have hbits := (Prod.mk.inj (Option.some.inj hread)).2
      omega
    · cases hread
  · constructor
    · intro hread
      split at hread
      next key hwords =>
        exact ((readWords_key heq init key).1 hwords).1
      · cases hread
    · intro hsmall
      rw [(readWords_key heq init k).2 ⟨hsmall, rfl⟩]

theorem readKey_labels (hb : 1 ≤ b ∧ b ≤ 128) (heq : ls.map Label.lower = (ip2labels k b).map Label.lower)
    (init : Key) : readKey init (ls.length - 1) (formatText ls) = some (k, b) ↔ SmallZz ls := by
  by_cases h : IsV4 k b
  · obtain ⟨hsmall, hread⟩ := readKey_v4 hb.2 h heq init
    exact iff_of_true hread hsmall
  · exact readKey_v6 hb h heq init

theorem readKey_pos {init : Key} {text : Bytes} {e : Key × ℕ} (h : readKey init n text = some e) : 1 ≤ e.2 := by
  unfold readKey at h
  split at h
  · split at h
    · cases h
    · split at h
      · split at h
        · cases h
        · split at h
          · cases h
            omega
          · cases h
      · split at h
        · cases h
          omega
        · cases h
  · cases h

theorem smallZz_ip2labels (k : Key) (hb : b ≤ 128) : SmallZz (ip2labels k b) := by
  by_cases h : IsV4 k b
  · exact (readKey_v4 hb h rfl k).1
  obtain ⟨ts, htexts, hbad, -, -⟩ := @ip6Labels_read k 8 0 (by omega)
  rw [← words16_wordsFrom] at htexts
  have hdigits : Digits 10 (numText 10 b) b := numText_digits (by omega) (by omega) b
  rw [ip2labels_v6 h, SmallZz.cons (hdigits.not_zz (by omega))]
  exact (TokenText.not_bad htexts).2 hbad

theorem two_le_ip2labels (k : Key) (b : ℕ) : 2 ≤ (ip2labels k b).length := by
  by_cases h : IsV4 k b
  · rw [ip2labels_v4 h]
    exact Nat.le_add_left 2 3
  obtain ⟨ts, htexts, -, hlen, -⟩ := @ip6Labels_read k 8 0 (by omega)
  rw [← words16_wordsFrom] at htexts
  rw [ip2labels_v6 h, length_cons, htexts.length_eq]
  obtain hzz | hlen := hlen
  · exact Nat.succ_le_succ (length_pos_of_mem hzz)
  · omega

/-! ### The text as a name -/

/-! ### Owner names -/

/-- `dns_rpz_new_cidr`: the names of the zone at `origin`. -/
def newCidr (origin : Name) : Option Cidr := do
  let ipName ← fromLabels [[0x72, 0x70, 0x7a, 0x2d, 0x69, 0x70]] origin
  let nsipName ← fromLabels [[0x72, 0x70, 0x7a, 0x2d, 0x6e, 0x73, 0x69, 0x70]] origin
  let nsdnameName ← fromLabels [[0x72, 0x70, 0x7a, 0x2d, 0x6e, 0x73, 0x64, 0x6e, 0x61, 0x6d, 0x65]] origin
  some ⟨false, .nil, ipName.lower, nsipName.lower, nsdnameName.lower⟩

/-- The names are those of a new database for the zone at `origin`. -/
def NamedFor (origin : Name) (cidr : Cidr) : Prop :=
  ∃ fresh, newCidr origin = some fresh ∧ cidr.ipName = fresh.ipName ∧ cidr.nsipName = fresh.nsipName

/-- What stands in front of the zone's name for addresses. -/
def addressLabels (cidr : Cidr) (name : Name) : List Label := (name.splitHead cidr.ipName.countlabels).labels

/-- No bit behind the prefix is set. -/
def HostZero (k : Key) (b : ℕ) : Prop := ∀ i, b ≤ i → k.toBits i = false

variable {origin : Name} {cidr : Cidr}

theorem NamedFor.countlabels (h : NamedFor origin cidr) (type : RpzType) :
    (if type = .nsip then cidr.nsipName else cidr.ipName).labels.length = cidr.ipName.countlabels := by
  obtain ⟨fresh, hfresh, hip, hnsip⟩ := h
  unfold newCidr at hfresh
  simp only [Option.bind_eq_bind, Option.bind_eq_some_iff] at hfresh
  obtain ⟨ipName, hipName, nsipName, hnsipName, nsdnameName, -, hall⟩ := hfresh
  cases hall
  unfold fromLabels at hipName hnsipName
  split at hipName
  · cases hipName
  split at hnsipName
  · cases hnsipName
  cases hipName
  cases hnsipName
  rw [hip, hnsip]
  split
  · simp [Name.lower, Name.countlabels]
  · simp [Name.lower, Name.countlabels]

theorem fromLabels_labels {origin n : Name} (h : fromLabels ls origin = some n) : n.labels = ls ++ origin.labels := by
  unfold fromLabels at h
  split at h
  · cases h
  · cases h
    rfl

theorem NamedFor.addressLabels (h : NamedFor origin cidr) {type : RpzType} {name n : Name}
    (hn : ip2name cidr k b type = some n) (heq : name.equal n = true) :
    name.countlabels = (ip2labels k b).length + cidr.ipName.countlabels ∧
      (Rpz.addressLabels cidr name).map Label.lower = (ip2labels k b).map Label.lower := by
  have hlabels := fromLabels_labels hn
  have hlower := (Name.equal_iff name n).1 heq
  have hmap : name.labels.map Label.lower = (ip2labels k b).map Label.lower ++
      (if type = .nsip then cidr.nsipName else cidr.ipName).labels.map Label.lower := by
    rw [← map_append, ← hlabels]
    exact congrArg Name.labels hlower
  have hcount : name.countlabels = (ip2labels k b).length + cidr.ipName.countlabels := by
    have hlen := congrArg List.length hmap
    rw [length_append, length_map, length_map, length_map, h.countlabels type] at hlen
    exact hlen
  refine ⟨hcount, ?_⟩
  show List.map Label.lower ((name.labels.drop 0).take (name.countlabels - cidr.ipName.countlabels)) = _
  rw [hcount, Nat.add_sub_cancel, drop_zero, map_take, hmap, take_append_of_le_length (by rw [length_map])]
  exact take_of_length_le (by rw [length_map])

theorem name2ipkey_iff (h : NamedFor origin cidr) (type : RpzType) (init : Key) (name : Name) (k : Key) (b : ℕ) :
    name2ipkey init cidr name type = some (k, b) ↔
      (1 ≤ b ∧ b ≤ 128) ∧ onesBehind k b = false ∧ SmallZz (addressLabels cidr name) ∧
        ∃ n, ip2name cidr k b type = some n ∧ name.equal n = true := by
  -- the number of labels and the text, once the name is known to be the name of a key
  have hread : ∀ {k : Key} {b : ℕ} {n : Name}, 1 ≤ b ∧ b ≤ 128 → ip2name cidr k b type = some n → name.equal n = true →
      (readKey init (name.countlabels - cidr.ipName.countlabels - 1) (formatText (addressLabels cidr name)) = some (k, b) ↔
        SmallZz (addressLabels cidr name)) := by
    intro k b n hb hn heq
    obtain ⟨hcount, hlabels⟩ := h.addressLabels hn heq
    have hlen : name.countlabels - cidr.ipName.countlabels = (addressLabels cidr name).length := by
      rw [hcount, Nat.add_sub_cancel, ← length_map Label.lower, ← hlabels, length_map]
    rw [hlen]
    exact readKey_labels hb hlabels init
  unfold name2ipkey
  constructor
  · intro hkey
    split at hkey
    · cases hkey
    simp only at hkey
    split at hkey
    · cases hkey
    next key bits hsome =>
      split at hkey
      · cases hkey
      next hones =>
        split at hkey
        · cases hkey
        next n hn =>
          split at hkey
          next heq =>
            cases hkey
            have hb : 1 ≤ b ∧ b ≤ 128 := ⟨readKey_pos hsome, readKey_bits hsome⟩
            exact ⟨hb, Bool.eq_false_iff.2 hones, (hread hb hn heq).1 hsome, n, hn, heq⟩
          · cases hkey
  · rintro ⟨hb, hones, hsmall, n, hn, heq⟩
    have hcount := (h.addressLabels hn heq).1
    have hge := two_le_ip2labels k b
    have hsome := (hread hb hn heq).2 hsmall
    unfold addressLabels at hsome
    rw [if_neg (by omega)]
    simp only
    rw [hsome]
    simp only
    rw [hones, hn]
    simp only [Bool.false_eq_true, if_false]
    rw [if_pos heq]

theorem onesBehind_eq_false (hb : b ≤ 128) :
    onesBehind k b = false ↔ b % 32 = 0 ∨ ∀ i, b ≤ i → i / 32 = b / 32 → k.toBits i = false := by
  unfold onesBehind
  by_cases hword : b % 32 = 0
  · simp [hword]
  have hlt : b < 128 := by omega
  have hmask : (k.word 0 (b / 32) &&& ~~~wordMask (b % 32)) = 0 ↔ ∀ i, b ≤ i → i / 32 = b / 32 → k.toBits i = false := by
    constructor
    · intro hzero i hi hsame
      have hbit := congrArg (fun w => BitVec.getMsbD w (i % 32)) hzero
      simp only [BitVec.getMsbD_and, BitVec.getMsbD_not, getMsbD_wordMask (Nat.mod_lt b (by omega)) hword] at hbit
      unfold Key.toBits
      rw [hsame]
      have hge : ¬ i % 32 < b % 32 := by omega
      simpa [hge, Nat.mod_lt] using hbit
    · intro hall
      apply BitVec.eq_of_getMsbD_eq
      intro j hj
      rw [BitVec.getMsbD_and, BitVec.getMsbD_not, getMsbD_wordMask (Nat.mod_lt b (by omega)) hword]
      by_cases hjb : j < b % 32
      · simp [hjb]
      have hbit := hall (32 * (b / 32) + j) (by omega) (by omega)
      unfold Key.toBits at hbit
      rw [show (32 * (b / 32) + j) / 32 = b / 32 by omega, show (32 * (b / 32) + j) % 32 = j by omega] at hbit
      rw [hbit, Bool.false_and]
      exact BitVec.getMsbD_zero.symm
  rw [← hmask]
  simp [hword, hlt]

/-- The key has a one in a 32-bit word that lies behind the prefix as a whole. -/
def OneInLaterWord (k : Key) (b : ℕ) : Prop := ∃ j < 4, b ≤ 32 * j ∧ k.word 0 j ≠ 0

instance (k : Key) (b : ℕ) : Decidable (OneInLaterWord k b) := inferInstanceAs (Decidable (∃ j < 4, b ≤ 32 * j ∧ k.word 0 j ≠ 0))

/-- A key without ones behind its prefix: none in the prefix's own word, and none in the words behind. -/
theorem hostZero_iff (hb : b ≤ 128) : HostZero k b ↔ onesBehind k b = false ∧ ¬ OneInLaterWord k b := by
  rw [onesBehind_eq_false hb]
  constructor
  · intro hzero
    refine ⟨Or.inr (fun i hi _ => hzero i hi), ?_⟩
    rintro ⟨j, hj, hbj, hne⟩
    apply hne
    apply BitVec.eq_of_getMsbD_eq
    intro m hm
    have hbit := hzero (32 * j + m) (by omega)
    unfold Key.toBits at hbit
    rw [show (32 * j + m) / 32 = j by omega, show (32 * j + m) % 32 = m by omega] at hbit
    rw [hbit]
    exact BitVec.getMsbD_zero.symm
  · rintro ⟨hown, hlater⟩ i hi
    by_cases h128 : 128 ≤ i
    · exact toBits_of_ge k h128
    have hword : b ≤ 32 * (i / 32) → k.toBits i = false := by
      intro hle
      have hzero : k.word 0 (i / 32) = 0 := by
        by_contra hne
        exact hlater ⟨i / 32, by omega, hle, hne⟩
      unfold Key.toBits
      rw [hzero]
      exact BitVec.getMsbD_zero
    obtain haligned | hown := hown
    · exact hword (by omega)
    by_cases hsame : i / 32 = b / 32
    · exact hown i hi hsame
    · exact hword (by omega)

/-- The name is, up to capitals, the name of a key with a one in a later word. -/
def Overlooked (cidr : Cidr) (type : RpzType) (name : Name) : Prop :=
  ∃ k b n, (1 ≤ b ∧ b ≤ 128) ∧ onesBehind k b = false ∧ OneInLaterWord k b ∧ SmallZz (addressLabels cidr name) ∧
    ip2name cidr k b type = some n ∧ name.equal n = true

theorem NamedFor.unique (h : NamedFor origin cidr) {type : RpzType} {name n n' : Name} {k' : Key} {b' : ℕ}
    (hb : 1 ≤ b ∧ b ≤ 128) (hb' : 1 ≤ b' ∧ b' ≤ 128) (hsmall : SmallZz (Rpz.addressLabels cidr name))
    (hn : ip2name cidr k b type = some n) (heq : name.equal n = true)
    (hn' : ip2name cidr k' b' type = some n') (heq' : name.equal n' = true) : k = k' ∧ b = b' := by
  have hread := (readKey_labels hb (h.addressLabels hn heq).2 k).2 hsmall
  have hread' := (readKey_labels hb' (h.addressLabels hn' heq').2 k).2 hsmall
  exact Prod.mk.inj (Option.some.inj (hread.symm.trans hread'))

/-- A search name is read back as the key that it was made of; what is read does not depend on what stood in the key before; and every
name that is accepted is the name of a key with zeros behind its prefix, if and only if no later word was overlooked. -/
theorem name2ipkey_sound (origin : Name) (cidr : Cidr) (type : RpzType) (h : NamedFor origin cidr) :
    (∀ k b n init, 1 ≤ b → b ≤ 128 → HostZero k b → ip2name cidr k b type = some n → name2ipkey init cidr n type = some (k, b)) ∧
    (∀ name init init' e, name2ipkey init cidr name type = some e → name2ipkey init' cidr name type = some e) ∧
    (∀ name init, (∀ e, name2ipkey init cidr name type = some e →
        ∃ k b n, (1 ≤ b ∧ b ≤ 128) ∧ HostZero k b ∧ ip2name cidr k b type = some n ∧ name.equal n = true) ↔
      ¬ Overlooked cidr type name) := by
  refine ⟨fun k b n init h1 hle hzero hn => ?_, fun name init init' e hread => ?_, fun name init => ⟨fun hall => ?_, fun hnot => ?_⟩⟩
  · have hequal : n.equal n = true := (Name.equal_iff n n).2 rfl
    refine (name2ipkey_iff h type init n k b).2 ⟨⟨h1, hle⟩, ((hostZero_iff hle).1 hzero).1, ?_, n, hn, hequal⟩
    have hhead : addressLabels cidr n = ip2labels k b := by
      have hlabels := fromLabels_labels hn
      show (n.labels.drop 0).take (n.countlabels - cidr.ipName.countlabels) = _
      rw [(h.addressLabels hn hequal).1, Nat.add_sub_cancel, drop_zero, hlabels, take_left]
    rw [hhead]
    exact smallZz_ip2labels k hle
  · obtain ⟨k, b⟩ := e
    exact (name2ipkey_iff h type init' name k b).2 ((name2ipkey_iff h type init name k b).1 hread)
  · rintro ⟨k, b, n, hb, hones, hlater, hsmall, hn, heq⟩
    obtain ⟨k', b', n', hb', hzero, hn', heq'⟩ := hall (k, b) ((name2ipkey_iff h type init name k b).2 ⟨hb, hones, hsmall, n, hn, heq⟩)
    obtain ⟨rfl, rfl⟩ := h.unique hb hb' hsmall hn heq hn' heq'
    exact ((hostZero_iff hb.2).1 hzero).2 hlater
  · rintro ⟨k, b⟩ hread
    obtain ⟨hb, hones, hsmall, n, hn, heq⟩ := (name2ipkey_iff h type init name k b).1 hread
    refine ⟨k, b, n, hb, (hostZero_iff hb.2).2 ⟨hones, fun hlater => hnot ?_⟩, hn, heq⟩
    exact ⟨k, b, n, hb, hones, hlater, hsmall, hn, heq⟩

def rpzOrigin : Name := ⟨[[0x72, 0x70, 0x7a], []]⟩

/-- `32.zz.db8.2001.rpz-ip.rpz.`, for 2001:db8::/32. -/
def name6 : Name :=
  ⟨[[0x33, 0x32], [0x7a, 0x7a], [0x64, 0x62, 0x38], [0x32, 0x30, 0x30, 0x31], [0x72, 0x70, 0x7a, 0x2d, 0x69, 0x70],
    [0x72, 0x70, 0x7a], []]⟩

/-- `32.1.zz.db8.2001.rpz-ip.rpz.`, for 2001:db8::1/32. -/
def name6One : Name :=
  ⟨[[0x33, 0x32], [0x31], [0x7a, 0x7a], [0x64, 0x62, 0x38], [0x32, 0x30, 0x30, 0x31], [0x72, 0x70, 0x7a, 0x2d, 0x69, 0x70],
    [0x72, 0x70, 0x7a], []]⟩

theorem namedFor_emptyZone : NamedFor rpzOrigin emptyZone.cidr := ⟨emptyZone.cidr, by decide, rfl, rfl⟩

theorem name2ipkey_sound_prefix6 : name2ipkey emptyKey emptyZone.cidr name6 .ip = some (⟨0x20010db8, 0, 0, 0⟩, 32) ∧
    ¬ Overlooked emptyZone.cidr .ip name6 := by
  have hzero : HostZero ⟨0x20010db8, 0, 0, 0⟩ 32 := (hostZero_iff (by omega)).2 ⟨by decide, by decide⟩
  have hname : ip2name emptyZone.cidr ⟨0x20010db8, 0, 0, 0⟩ 32 .ip = some name6 := by decide +kernel
  obtain ⟨hround, -, hsound⟩ := name2ipkey_sound rpzOrigin emptyZone.cidr .ip namedFor_emptyZone
  refine ⟨hround _ 32 name6 emptyKey (by omega) (by omega) hzero hname, (hsound name6 emptyKey).1 (fun e _ => ?_)⟩
  exact ⟨_, 32, name6, by omega, hzero, hname, by decide⟩

/-- 2001:db8::1/32 is accepted: its last bit is in a word behind the prefix. -/
theorem name2ipkey_later_word : name2ipkey emptyKey emptyZone.cidr name6One .ip = some (⟨0x20010db8, 0, 0, 1⟩, 32) ∧
    ¬ ∃ k b n, (1 ≤ b ∧ b ≤ 128) ∧ HostZero k b ∧ ip2name emptyZone.cidr k b .ip = some n ∧ name6One.equal n = true := by
  have hname : ip2name emptyZone.cidr ⟨0x20010db8, 0, 0, 1⟩ 32 .ip = some name6One := by decide +kernel
  refine ⟨by decide +kernel, ?_⟩
  rintro ⟨k, b, n, hb, hzero, hn, heq⟩
  obtain ⟨rfl, rfl⟩ := namedFor_emptyZone.unique (by omega) hb (by decide +kernel) hname (by decide) hn heq
  exact ((hostZero_iff hb.2).1 hzero).2 (by decide)

end Bind9.Rpz
