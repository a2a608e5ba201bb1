import Bind9.Rpz

/-! # The bits of policy keys

What `diff_keys` and `new_node` compute, in terms of the bits of a key: `diffKeys_spec` (the length
of the common head, and which word indices are used for it) and `toBits_masked`. -/

namespace Bind9.Rpz

open Patricia

/-! ### The first one bit of a word -/

theorem and_high_bits (w k : ℕ) : w &&& ((2 ^ k - 1) <<< k) = ((w >>> k) % 2 ^ k) <<< k := by
  rw [← Nat.and_two_pow_sub_one_eq_mod]
  apply Nat.eq_of_testBit_eq
  intro i
  simp only [Nat.testBit_and, Nat.testBit_shiftLeft, Nat.testBit_shiftRight]
  by_cases hk : k ≤ i
  · simp [hk]
  · simp [hk]

theorem and_high_bits_ne_zero {w k : ℕ} (h : w < 2 ^ k * 2 ^ k) : w &&& ((2 ^ k - 1) <<< k) ≠ 0 ↔ 2 ^ k ≤ w := by
  have hlt : w >>> k < 2 ^ k := by
    rw [Nat.shiftRight_eq_div_pow]
    exact Nat.div_lt_of_lt_mul h
  rw [and_high_bits, Nat.mod_eq_of_lt hlt, Nat.shiftLeft_eq, Nat.shiftRight_eq_div_pow]
  constructor
  · intro hne
    by_contra hcon
    rw [Nat.div_eq_of_lt (by omega)] at hne
    simp at hne
  · intro hle hz
    have hpos : 0 < w / 2 ^ k := Nat.div_pos hle (by positivity)
    have hpow : 0 < 2 ^ k := by positivity
    rcases Nat.mul_eq_zero.1 hz with h0 | h0 <;> omega

/-- One halving step of `ffbit`, for `2 * k` bits that are left. -/
def halve (k : ℕ) (mask : BitVec 32) (s : BitVec 32 × ℕ) : BitVec 32 × ℕ :=
  if s.1 &&& mask ≠ 0 then (s.1 >>> k, s.2 - k) else s

/-- What is left of `w` while `ffbit` looks for its first one: the first one is among the lower `k`
bits of the shifted word. -/
def Halved (w : BitVec 32) (k : ℕ) (s : BitVec 32 × ℕ) : Prop :=
  ∃ n ≤ 31, s.1.toNat = w.toNat / 2 ^ n ∧ s.2 = 31 - n ∧ 2 ^ n ≤ w.toNat ∧ w.toNat < 2 ^ n * 2 ^ k

variable {w : BitVec 32}

theorem halve_halved (k : ℕ) (mask : BitVec 32) {s : BitVec 32 × ℕ}
    (hmask : mask.toNat = (2 ^ k - 1) <<< k) (h : Halved w (k + k) s) : Halved w k (halve k mask s) := by
  obtain ⟨n, hn, hs, hb, hle, hlt⟩ := h
  have hslt : s.1.toNat < 2 ^ k * 2 ^ k := by
    rw [hs, ← pow_add]
    exact Nat.div_lt_of_lt_mul hlt
  have htest : s.1 &&& mask ≠ 0 ↔ 2 ^ k ≤ s.1.toNat := by
    rw [← and_high_bits_ne_zero hslt, ← hmask, ← BitVec.toNat_and, ne_eq, ne_eq, ← BitVec.toNat_inj]
    exact Iff.rfl
  unfold halve
  by_cases hge : 2 ^ k ≤ s.1.toNat
  · rw [if_pos (htest.2 hge)]
    have hle' : 2 ^ (n + k) ≤ w.toNat := by
      rw [hs] at hge
      rw [pow_add]
      have := (Nat.le_div_iff_mul_le (by positivity)).1 hge
      rw [mul_comm]
      exact this
    have hn' : n + k ≤ 31 := by
      have h32 : w.toNat < 2 ^ 32 := w.isLt
      have := (Nat.pow_lt_pow_iff_right (by omega : 1 < 2)).1 (lt_of_le_of_lt hle' h32)
      omega
    refine ⟨n + k, hn', ?_, by rw [hb]; omega, hle', ?_⟩
    · rw [BitVec.toNat_ushiftRight, hs, Nat.shiftRight_eq_div_pow, Nat.div_div_eq_div_mul, ← pow_add]
    · rw [pow_add] at hlt ⊢
      rw [mul_assoc]
      exact hlt
  rw [if_neg (fun h => hge (htest.1 h))]
  refine ⟨n, hn, hs, hb, hle, ?_⟩
  have hlt' : w.toNat / 2 ^ n < 2 ^ k := by rw [← hs]; omega
  exact (Nat.div_lt_iff_lt_mul (by positivity)).1 hlt' |>.trans_eq (mul_comm _ _)

theorem ffbit_eq_halve (w : BitVec 32) :
    ffbit w = (halve 1 2 (halve 2 0xc (halve 4 0xf0 (halve 8 0xff00 (halve 16 0xffff0000 (w, 31)))))).2 := by
  unfold ffbit halve
  simp only
  split_ifs <;> rfl

theorem ffbit_spec (hw : w ≠ 0) : ∃ n ≤ 31, ffbit w = 31 - n ∧ 2 ^ n ≤ w.toNat ∧ w.toNat < 2 ^ (n + 1) := by
  have hpos : 0 < w.toNat := by
    rw [Nat.pos_iff_ne_zero]
    intro h
    exact hw (BitVec.eq_of_toNat_eq h)
  have h0 : Halved w (16 + 16) (w, 31) :=
    ⟨0, by omega, by simp, rfl, by rw [pow_zero]; exact hpos, by simpa using w.isLt⟩
  have h1 := halve_halved 1 2 (by decide)
    (halve_halved 2 0xc (by decide)
      (halve_halved 4 0xf0 (by decide)
        (halve_halved 8 0xff00 (by decide)
          (halve_halved 16 0xffff0000 (by decide) h0))))
  obtain ⟨n, hn, -, hb, hle, hlt⟩ := h1
  exact ⟨n, hn, by rw [ffbit_eq_halve, hb], hle, by rw [pow_succ]; simpa using hlt⟩

theorem ffbit_lt (hw : w ≠ 0) : ffbit w < 32 := by
  obtain ⟨n, hn, hf, -⟩ := ffbit_spec hw
  omega

theorem getMsbD_ffbit (hw : w ≠ 0) : w.getMsbD (ffbit w) = true := by
  obtain ⟨n, hn, hf, hle, hlt⟩ := ffbit_spec hw
  rw [BitVec.getMsbD_eq_getLsbD, hf]
  have h31 : 32 - 1 - (31 - n) = n := by omega
  have hdiv : w.toNat / 2 ^ n = 1 := by
    apply Nat.div_eq_of_lt_le
    · simpa using hle
    · rw [pow_succ] at hlt
      omega
  simp only [h31, BitVec.getLsbD, Nat.testBit_eq_decide_div_mod_eq, hdiv]
  simp only [decide_true, Bool.and_true, decide_eq_true_eq]
  omega

theorem getMsbD_of_lt_ffbit (hw : w ≠ 0) {j : ℕ} (hj : j < ffbit w) : w.getMsbD j = false := by
  obtain ⟨n, hn, hf, hle, hlt⟩ := ffbit_spec hw
  rw [BitVec.getMsbD_eq_getLsbD]
  have hlt' : w.toNat < 2 ^ (32 - 1 - j) :=
    lt_of_lt_of_le hlt (Nat.pow_le_pow_right (by omega) (by omega))
  simp only [BitVec.getLsbD, Nat.testBit_lt_two_pow hlt', Bool.and_false]

/-! ### Keys as bit strings -/

/-- The bits of a key; there are none behind the 128th. -/
def Key.toBits (k : Key) : Bits := fun i => (k.word 0 (i / 32)).getMsbD (i % 32)

theorem word_of_lt (beyond : BitVec 32) (k : Key) {i : ℕ} (hi : i < 4) : k.word beyond i = k.word 0 i := by
  match i, hi with
  | 0, _ => rfl
  | 1, _ => rfl
  | 2, _ => rfl
  | 3, _ => rfl

theorem toBits_of_ge (k : Key) {i : ℕ} (hi : 128 ≤ i) : k.toBits i = false := by
  have h4 : 4 ≤ i / 32 := by omega
  have hw : k.word 0 (i / 32) = 0 := by
    match i / 32, h4 with
    | n + 4, _ => rfl
  unfold Key.toBits
  rw [hw]
  simp

theorem ipBit_eq (beyond : BitVec 32) (k : Key) {i : ℕ} (hi : i < 128) : ipBit beyond k i = k.toBits i := by
  unfold ipBit Key.toBits
  rw [word_of_lt beyond k (by omega)]
  generalize k.word 0 (i / 32) = w
  have hbit : (1 &&& (w >>> (31 - i % 32)) == 1) = w.getLsbD (31 - i % 32) := by
    rw [Bool.eq_iff_iff, beq_iff_eq, ← BitVec.toNat_inj, BitVec.toNat_and, BitVec.toNat_ushiftRight,
      BitVec.getLsbD, Nat.testBit_eq_decide_div_mod_eq, decide_eq_true_eq, Nat.shiftRight_eq_div_pow,
      Nat.and_comm]
    exact Iff.of_eq (congrArg (· = 1) (Nat.and_one_is_mod _))
  have hsub : 32 - 1 - i % 32 = 31 - i % 32 := rfl
  rw [hbit, BitVec.getMsbD_eq_getLsbD, hsub]
  simp [Nat.mod_lt]

/-- Keys with the same bits are equal. -/
theorem key_ext {k1 k2 : Key} (h : Agree 128 k1.toBits k2.toBits) : k1 = k2 := by
  have hw : ∀ i < 4, k1.word 0 i = k2.word 0 i := by
    intro i hi
    apply BitVec.eq_of_getMsbD_eq
    intro j hj
    have := h (32 * i + j) (by omega)
    unfold Key.toBits at this
    rw [show (32 * i + j) / 32 = i by omega, show (32 * i + j) % 32 = j by omega] at this
    exact this
  obtain ⟨a0, a1, a2, a3⟩ := k1
  obtain ⟨b0, b1, b2, b3⟩ := k2
  have h0 : a0 = b0 := hw 0 (by omega)
  have h1 : a1 = b1 := hw 1 (by omega)
  have h2 : a2 = b2 := hw 2 (by omega)
  have h3 : a3 = b3 := hw 3 (by omega)
  rw [h0, h1, h2, h3]

/-! ### `diff_keys` -/

section diff
variable (beyond : BitVec 32) (k1 k2 : Key)

theorem getMsbD_xor_ffbit {w₁ w₂ : BitVec 32} (h : w₁ ^^^ w₂ ≠ 0) :
    w₁.getMsbD (ffbit (w₁ ^^^ w₂)) ≠ w₂.getMsbD (ffbit (w₁ ^^^ w₂)) ∧
      ∀ j < ffbit (w₁ ^^^ w₂), w₁.getMsbD j = w₂.getMsbD j := by
  constructor
  · have := getMsbD_ffbit h
    rw [BitVec.getMsbD_xor] at this
    intro heq
    rw [heq] at this
    simp at this
  · intro j hj
    have := getMsbD_of_lt_ffbit h hj
    rw [BitVec.getMsbD_xor] at this
    simpa using this

theorem diffFrom_spec : ∀ (steps i : ℕ), i + steps ≤ 4 → Agree (32 * i) k1.toBits k2.toBits →
    Agree (diffFrom beyond k1 k2 steps i).1 k1.toBits k2.toBits ∧
      (diffFrom beyond k1 k2 steps i).1 ≤ 32 * (i + steps) ∧
      ((diffFrom beyond k1 k2 steps i).1 < 32 * (i + steps) →
        k1.toBits (diffFrom beyond k1 k2 steps i).1 ≠ k2.toBits (diffFrom beyond k1 k2 steps i).1) ∧
      ∀ n ∈ (diffFrom beyond k1 k2 steps i).2, n < i + steps
  | 0, i, _, h => by simpa [diffFrom] using h
  | steps + 1, i, hi, h => by
    have hw : ∀ j < 32, ∀ k : Key, k.toBits (32 * i + j) = (k.word beyond i).getMsbD j := by
      intro j hj k
      rw [word_of_lt beyond k (by omega)]
      unfold Key.toBits
      rw [show (32 * i + j) / 32 = i by omega, show (32 * i + j) % 32 = j by omega]
    unfold diffFrom
    by_cases hd : k1.word beyond i ^^^ k2.word beyond i = 0
    · have heq : k1.word beyond i = k2.word beyond i := by simpa [BitVec.xor_eq_zero_iff] using hd
      have hnext : Agree (32 * (i + 1)) k1.toBits k2.toBits := by
        intro j hj
        rcases Nat.lt_or_ge j (32 * i) with hlt | hge
        · exact h j hlt
        · obtain ⟨n, rfl⟩ : ∃ n, j = 32 * i + n := ⟨j - 32 * i, by omega⟩
          rw [hw n (by omega), hw n (by omega), heq]
      obtain ⟨h1, h2, h3, h4⟩ := diffFrom_spec steps (i + 1) (by omega) hnext
      simp only [hd, ne_eq, not_true_eq_false, if_false]
      refine ⟨h1, by omega, fun hlt => h3 (by omega), ?_⟩
      intro n hn
      rcases List.mem_cons.1 hn with rfl | hn
      · omega
      · have := h4 n hn
        omega
    have hlt := ffbit_lt hd
    obtain ⟨hne, hbefore⟩ := getMsbD_xor_ffbit hd
    simp only [ne_eq, hd, not_false_eq_true, if_true]
    refine ⟨?_, by omega, fun _ => ?_, ?_⟩
    · intro j hj
      rcases Nat.lt_or_ge j (32 * i) with hlt' | hge
      · exact h j hlt'
      obtain ⟨n, rfl⟩ : ∃ n, j = 32 * i + n := ⟨j - 32 * i, by omega⟩
      rw [hw n (by omega), hw n (by omega)]
      exact hbefore n (by omega)
    · rw [hw _ hlt, hw _ hlt]
      exact hne
    · intro n hn
      simp only [List.mem_singleton] at hn
      omega

theorem diffFrom_succ_of_lt : ∀ (steps i : ℕ),
    (diffFrom beyond k1 k2 steps i).1 < 32 * (i + steps) →
      diffFrom beyond k1 k2 (steps + 1) i = diffFrom beyond k1 k2 steps i
  | 0, i, h => by simp [diffFrom] at h
  | steps + 1, i, h => by
    by_cases hd : k1.word beyond i ^^^ k2.word beyond i = 0
    · have hlt : (diffFrom beyond k1 k2 steps (i + 1)).1 < 32 * (i + 1 + steps) := by
        rw [diffFrom] at h
        simp only [hd, ne_eq, not_true_eq_false, if_false] at h
        omega
      have ih := diffFrom_succ_of_lt steps (i + 1) hlt
      rw [diffFrom, ih]
      conv_rhs => rw [diffFrom]
    rw [diffFrom]
    conv_rhs => rw [diffFrom]
    simp only [ne_eq, hd, not_false_eq_true, if_true]

theorem le_diffFrom : ∀ (steps i : ℕ), Agree (32 * (i + steps)) k1.toBits k2.toBits → i + steps ≤ 4 →
    32 * (i + steps) ≤ (diffFrom beyond k1 k2 (steps + 1) i).1
  | 0, i, _, _ => by
    unfold diffFrom
    simp only
    split
    · simp
    · simp [diffFrom]
  | steps + 1, i, h, hi => by
    have hw : k1.word beyond i = k2.word beyond i := by
      rw [word_of_lt beyond k1 (by omega), word_of_lt beyond k2 (by omega)]
      apply BitVec.eq_of_getMsbD_eq
      intro j hj
      have := h (32 * i + j) (by omega)
      unfold Key.toBits at this
      rw [show (32 * i + j) / 32 = i by omega, show (32 * i + j) % 32 = j by omega] at this
      exact this
    have ih := le_diffFrom steps (i + 1) (h.mono (by omega)) (by omega)
    have hd : k1.word beyond i ^^^ k2.word beyond i = 0 := by
      rw [hw]
      exact BitVec.xor_self
    rw [diffFrom]
    simp only [hd, ne_eq, not_true_eq_false, if_false]
    omega

theorem diffKeys_spec {bits1 bits2 : ℕ} (h₁ : bits1 ≤ 128) (h₂ : bits2 ≤ 128) :
    (diffKeys beyond k1 bits1 k2 bits2).1 ≤ bits1 ∧ (diffKeys beyond k1 bits1 k2 bits2).1 ≤ bits2 ∧
      Agree (diffKeys beyond k1 bits1 k2 bits2).1 k1.toBits k2.toBits ∧
      ((diffKeys beyond k1 bits1 k2 bits2).1 < bits1 → (diffKeys beyond k1 bits1 k2 bits2).1 < bits2 →
        k1.toBits (diffKeys beyond k1 bits1 k2 bits2).1 ≠ k2.toBits (diffKeys beyond k1 bits1 k2 bits2).1) ∧
      (¬ (bits1 = 128 ∧ bits2 = 128 ∧ k1 = k2) → ∀ n ∈ (diffKeys beyond k1 bits1 k2 bits2).2, n < 4) := by
  have hagree : Agree (32 * 0) k1.toBits k2.toBits := fun i hi => by omega
  unfold diffKeys
  simp only
  rcases Nat.lt_or_ge (min bits1 bits2) 128 with hlt | hge
  · obtain ⟨ha, hle, hne, hreads⟩ :=
      diffFrom_spec beyond k1 k2 (min bits1 bits2 / 32 + 1) 0 (by omega) hagree
    generalize hd : (diffFrom beyond k1 k2 (min bits1 bits2 / 32 + 1) 0) = d at *
    refine ⟨by omega, by omega, ha.mono (by omega), ?_, fun _ n hn => ?_⟩
    · intro hb1 hb2
      have hmin : min d.1 (min bits1 bits2) = d.1 := by omega
      rw [hmin] at hb1 hb2 ⊢
      exact hne (by omega)
    · have := hreads n hn
      omega
  -- both lengths are 128 and the loop goes one word too far
  obtain ⟨rfl, rfl⟩ : bits1 = 128 ∧ bits2 = 128 := by omega
  obtain ⟨ha, hle, hne, hreads⟩ := diffFrom_spec beyond k1 k2 4 0 (by omega) hagree
  have hsteps : min 128 128 / 32 + 1 = 4 + 1 := rfl
  rw [hsteps]
  rcases Nat.lt_or_ge (diffFrom beyond k1 k2 4 0).1 128 with hstop | hno
  · rw [diffFrom_succ_of_lt beyond k1 k2 4 0 (by omega)]
    have hmin : min (diffFrom beyond k1 k2 4 0).1 (min 128 128) = (diffFrom beyond k1 k2 4 0).1 := by
      omega
    rw [hmin]
    exact ⟨by omega, by omega, ha, fun _ _ => hne (by omega), fun _ n hn => by have := hreads n hn; omega⟩
  have hall : Agree 128 k1.toBits k2.toBits := ha.mono hno
  have hge := le_diffFrom beyond k1 k2 4 0 (hall.mono (by omega)) (by omega)
  have hmin : min (diffFrom beyond k1 k2 (4 + 1) 0).1 (min 128 128) = 128 := by omega
  rw [hmin]
  exact ⟨le_rfl, le_rfl, hall, fun h => absurd h (by omega),
    fun hcon => absurd ⟨rfl, rfl, key_ext hall⟩ hcon⟩

end diff

/-! ### Masking -/

theorem getMsbD_wordMask {b j : ℕ} (hb : b < 32) (hb0 : b ≠ 0) : (wordMask b).getMsbD j = decide (j < b) := by
  unfold wordMask
  rw [if_neg hb0, BitVec.getMsbD_shiftLeft]
  simp only [BitVec.getMsbD_allOnes]
  rw [decide_eq_decide]
  omega

theorem toBits_masked (k : Key) (n i : ℕ) : (k.masked n).toBits i = (decide (i < n) && k.toBits i) := by
  rcases Nat.lt_or_ge i 128 with hi | hi
  · have hword : ∀ m < 4, (k.masked n).word 0 m =
        if m < n / 32 then k.word 0 m
        else if m = n / 32 ∧ n % 32 ≠ 0 then k.word 0 m &&& wordMask (n % 32) else 0 := by
      intro m hm
      match m, hm with
      | 0, _ => rfl
      | 1, _ => rfl
      | 2, _ => rfl
      | 3, _ => rfl
    unfold Key.toBits
    rw [hword (i / 32) (by omega)]
    by_cases h1 : i / 32 < n / 32
    · rw [if_pos h1]
      have : i < n := by omega
      simp [this]
    rw [if_neg h1]
    by_cases h2 : i / 32 = n / 32 ∧ n % 32 ≠ 0
    · rw [if_pos h2, BitVec.getMsbD_and, getMsbD_wordMask (by omega) h2.2, Bool.and_comm]
      congr 1
      rw [decide_eq_decide]
      omega
    rw [if_neg h2]
    have : ¬ i < n := by omega
    simp [this]
  · rw [toBits_of_ge _ hi, toBits_of_ge _ hi, Bool.and_false]

theorem agree_masked (k : Key) (n : ℕ) : Agree n (k.masked n).toBits k.toBits := by
  intro i hi
  rw [toBits_masked]
  simp [hi]

theorem masked_eq_iff {k1 k2 : Key} {n : ℕ} : k1.masked n = k2.masked n ↔ Agree n k1.toBits k2.toBits := by
  constructor
  · intro h
    exact (agree_masked k1 n).symm.trans (h ▸ agree_masked k2 n)
  · intro h
    apply key_ext
    intro i _
    rw [toBits_masked, toBits_masked]
    by_cases hi : i < n
    · rw [h i hi]
    · simp [hi]

end Bind9.Rpz
