import Bind9.Base32
import Bind9.BaseText

/-! # Base32 texts

`base32_totext` and `base32_decodestring` with both alphabets.  What is written is read back, except for data whose last
group has two bytes: its padding is taken for that of three. -/

namespace Bind9.Base32

open List

open BaseText Chunks

/-- `base32`, with its terminating NUL. -/
def base32 : Bytes :=
  ['A', 'B', 'C', 'D', 'E', 'F', 'G', 'H', 'I', 'J', 'K', 'L', 'M', 'N', 'O', 'P', 'Q', 'R', 'S', 'T', 'U', 'V', 'W', 'X',
    'Y', 'Z', '2', '3', '4', '5', '6', '7', '=', 'a', 'b', 'c', 'd', 'e', 'f', 'g', 'h', 'i', 'j', 'k', 'l', 'm', 'n', 'o',
    'p', 'q', 'r', 's', 't', 'u', 'v', 'w', 'x', 'y', 'z', '2', '3', '4', '5', '6', '7'].map (fun c => UInt8.ofNat c.toNat) ++
    [0]

section Coding

variable (base : Bytes)

/-- `base32_decodestring`, with `base32_decode_finish`. -/
def base32Decodestring (cstr : Bytes) (target : Buffer) : Exec Buffer := do
  let ctx ← decodeString (base32DecodeChar base) ⟨target, false, [], 0⟩ cstr
  if ctx.val.length ≠ 0 then stop badbase32 else pure ctx.target

/-- The digits of up to five bytes, without the padding. -/
def digitsOf : Bytes → List ℕ
  | [] => []
  | [a] => [a.toNat >>> 3 &&& 0x1f, a.toNat <<< 2 &&& 0x1c]
  | [a, b] => [a.toNat >>> 3 &&& 0x1f, a.toNat <<< 2 &&& 0x1c ||| b.toNat >>> 6 &&& 0x03, b.toNat >>> 1 &&& 0x1f,
      b.toNat <<< 4 &&& 0x10]
  | [a, b, c] => [a.toNat >>> 3 &&& 0x1f, a.toNat <<< 2 &&& 0x1c ||| b.toNat >>> 6 &&& 0x03, b.toNat >>> 1 &&& 0x1f,
      b.toNat <<< 4 &&& 0x10 ||| c.toNat >>> 4 &&& 0x0f, c.toNat <<< 1 &&& 0x1e]
  | [a, b, c, d] => [a.toNat >>> 3 &&& 0x1f, a.toNat <<< 2 &&& 0x1c ||| b.toNat >>> 6 &&& 0x03, b.toNat >>> 1 &&& 0x1f,
      b.toNat <<< 4 &&& 0x10 ||| c.toNat >>> 4 &&& 0x0f, c.toNat <<< 1 &&& 0x1e ||| d.toNat >>> 7 &&& 0x01,
      d.toNat >>> 2 &&& 0x1f, d.toNat <<< 3 &&& 0x18]
  | a :: b :: c :: d :: e :: _ => [a.toNat >>> 3 &&& 0x1f, a.toNat <<< 2 &&& 0x1c ||| b.toNat >>> 6 &&& 0x03,
      b.toNat >>> 1 &&& 0x1f, b.toNat <<< 4 &&& 0x10 ||| c.toNat >>> 4 &&& 0x0f,
      c.toNat <<< 1 &&& 0x1e ||| d.toNat >>> 7 &&& 0x01, d.toNat >>> 2 &&& 0x1f,
      d.toNat <<< 3 &&& 0x18 ||| e.toNat >>> 5 &&& 0x07, e.toNat &&& 0x1f]

/-- `buf` for up to five bytes. -/
def groupText (bs : Bytes) : Bytes :=
  (digitsOf bs).map (fun v => base.getD v 0) ++ replicate (8 - (digitsOf bs).length) 61

def base32Totext (source : Bytes) (wordlength : ℤ) (wordbreak : Bytes) (target : Buffer) : Exec Buffer :=
  let wordlength := if 0 ≤ wordlength ∧ wordlength < 8 then 8 else wordlength
  totextLoop 4 (groupText base) (fun loops => decide (0 ≤ wordlength) && wordFull 8 wordlength loops) wordbreak 0 source target

end Coding

/-- What is written is read back. -/
def RoundTrips (base x : Bytes) (wordlength : ℤ) (wordbreak : Bytes) : Prop :=
  ∃ text, (∀ target : Buffer, text.length ≤ target.available →
      base32Totext base x wordlength wordbreak target = .ok (target.put text)) ∧
    ∀ target : Buffer, x.length ≤ target.available → base32Decodestring base text target = .ok (target.put x)

/-! ### Digits -/

/-- What the code relies on in its alphabets. -/
structure Alphabet (base : Bytes) : Prop where
  digit : ∀ v < 32, digitIn base (base.getD v 0) = .ok v
  plain : ∀ v < 32, base.getD v 0 ≠ 0 ∧ isWhite (base.getD v 0) = false
  pad : digitIn base 61 = .ok 32

theorem alphabet_base32 : Alphabet base32 := ⟨by decide, by decide, by decide⟩

theorem alphabet_base32hex : Alphabet base32hex := ⟨by decide, by decide, by decide⟩

theorem digitsOf_five (a b c d e : UInt8) (rest : Bytes) : digitsOf (a :: b :: c :: d :: e :: rest) =
    [a.toNat / 8 % 32, a.toNat % 8 * 4 + b.toNat / 64 % 4, b.toNat / 2 % 32, b.toNat % 2 * 16 + c.toNat / 16 % 16,
      c.toNat % 16 * 2 + d.toNat / 128 % 2, d.toNat / 4 % 32, d.toNat % 4 * 8 + e.toNat / 32 % 8, e.toNat % 32] := by
  have h0 := shiftRight_and a.toNat 3 5
  have h1 := joined a.toNat b.toNat 2 3 6 2 (by decide)
  have h2 := shiftRight_and b.toNat 1 5
  have h3 := joined b.toNat c.toNat 4 1 4 4 (by decide)
  have h4 := joined c.toNat d.toNat 1 4 7 1 (by decide)
  have h5 := shiftRight_and d.toNat 2 5
  have h6 := joined d.toNat e.toNat 3 2 5 3 (by decide)
  have h7 := Nat.and_two_pow_sub_one_eq_mod e.toNat 5
  rw [digitsOf]
  exact cons_eq_cons.2 ⟨h0, cons_eq_cons.2 ⟨h1, cons_eq_cons.2 ⟨h2, cons_eq_cons.2 ⟨h3,
    cons_eq_cons.2 ⟨h4, cons_eq_cons.2 ⟨h5, cons_eq_cons.2 ⟨h6, cons_eq_cons.2 ⟨h7, rfl⟩⟩⟩⟩⟩⟩⟩⟩

theorem digitsOf_short (a b c d : UInt8) : digitsOf [a] ++ replicate 6 0 = digitsOf [a, 0, 0, 0, 0] ∧
    digitsOf [a, b] ++ replicate 4 0 = digitsOf [a, b, 0, 0, 0] ∧
    digitsOf [a, b, c] ++ replicate 3 0 = digitsOf [a, b, c, 0, 0] ∧
    digitsOf [a, b, c, d] ++ replicate 1 0 = digitsOf [a, b, c, d, 0] := by
  simp [digitsOf]

theorem digitsOf_five_lt (a b c d e : UInt8) (rest : Bytes) : ∀ v ∈ digitsOf (a :: b :: c :: d :: e :: rest), v < 32 := by
  rw [digitsOf_five]
  simp only [forall_mem_cons]
  refine ⟨?_, ?_, ?_, ?_, ?_, ?_, ?_, ?_, by simp⟩
  all_goals omega

theorem digitsOf_lt : ∀ bs : Bytes, ∀ v ∈ digitsOf bs, v < 32
  | [] => by simp [digitsOf]
  | [a] => fun v hv => digitsOf_five_lt a 0 0 0 0 [] v (by rw [← (digitsOf_short a 0 0 0).1]; exact mem_append_left _ hv)
  | [a, b] => fun v hv => digitsOf_five_lt a b 0 0 0 [] v (by rw [← (digitsOf_short a b 0 0).2.1]; exact mem_append_left _ hv)
  | [a, b, c] => fun v hv =>
    digitsOf_five_lt a b c 0 0 [] v (by rw [← (digitsOf_short a b c 0).2.2.1]; exact mem_append_left _ hv)
  | [a, b, c, d] => fun v hv =>
    digitsOf_five_lt a b c d 0 [] v (by rw [← (digitsOf_short a b c d).2.2.2]; exact mem_append_left _ hv)
  | a :: b :: c :: d :: e :: rest => digitsOf_five_lt a b c d e rest
theorem bytesOf_eight {v0 v1 v2 v3 v4 v5 v6 v7 : ℕ} (h1 : v1 < 32) (h2 : v2 < 32) (h3 : v3 < 32) (h4 : v4 < 32) (h5 : v5 < 32)
    (h6 : v6 < 32) (h7 : v7 < 32) : bytesOf [v0, v1, v2, v3, v4, v5, v6, v7] =
      [UInt8.ofNat (v0 * 8 + v1 / 4), UInt8.ofNat (v1 * 64 + v2 * 2 + v3 / 16), UInt8.ofNat (v3 * 16 + v4 / 2),
        UInt8.ofNat (v4 * 128 + v5 * 4 + v6 / 8), UInt8.ofNat (v6 * 32 + v7)] := by
  have e0 : v0 <<< 3 ||| v1 >>> 2 = v0 * 8 + v1 / 4 := by
    rw [Nat.shiftRight_eq_div_pow]
    exact shiftLeft_or (by omega)
  have e1 : v1 <<< 6 ||| v2 <<< 1 ||| v3 >>> 4 = v1 * 64 + v2 * 2 + v3 / 16 := by
    have hlow : v1 <<< 6 ||| v2 <<< 1 = (v1 * 32 + v2) <<< 1 := by
      rw [Nat.shiftLeft_eq v2, shiftLeft_or (by omega), Nat.shiftLeft_eq]
      omega
    rw [hlow, Nat.shiftRight_eq_div_pow, shiftLeft_or (by omega)]
    omega
  have e2 : v3 <<< 4 ||| v4 >>> 1 = v3 * 16 + v4 / 2 := by
    rw [Nat.shiftRight_eq_div_pow]
    exact shiftLeft_or (by omega)
  have e3 : v4 <<< 7 ||| v5 <<< 2 ||| v6 >>> 3 = v4 * 128 + v5 * 4 + v6 / 8 := by
    have hlow : v4 <<< 7 ||| v5 <<< 2 = (v4 * 32 + v5) <<< 2 := by
      rw [Nat.shiftLeft_eq v5, shiftLeft_or (by omega), Nat.shiftLeft_eq]
      omega
    rw [hlow, Nat.shiftRight_eq_div_pow, shiftLeft_or (by omega)]
    omega
  have e4 : v6 <<< 5 ||| v7 = v6 * 32 + v7 := shiftLeft_or h7
  simp only [bytesOf, getD_cons_zero, getD_cons_succ]
  rw [e0, e1, e2, e3, e4]

theorem ofNat_eq {n : ℕ} {b : UInt8} (h : n % 256 = b.toNat) : UInt8.ofNat n = b := by
  apply UInt8.toNat_inj.1
  rw [UInt8.toNat_ofNat', h]

theorem bytesOf_digitsOf (a b c d e : UInt8) (rest : Bytes) :
    bytesOf (digitsOf (a :: b :: c :: d :: e :: rest)) = [a, b, c, d, e] := by
  have ha := a.toNat_lt
  have hb := b.toNat_lt
  have hc := c.toNat_lt
  have hd := d.toNat_lt
  have he := e.toNat_lt
  rw [digitsOf_five, bytesOf_eight (by omega) (by omega) (by omega) (by omega) (by omega) (by omega) (by omega)]
  refine cons_eq_cons.2 ⟨ofNat_eq ?_, cons_eq_cons.2 ⟨ofNat_eq ?_, cons_eq_cons.2 ⟨ofNat_eq ?_,
    cons_eq_cons.2 ⟨ofNat_eq ?_, cons_eq_cons.2 ⟨ofNat_eq ?_, rfl⟩⟩⟩⟩⟩
  all_goals omega

section Decoding

variable {base : Bytes} {t : Buffer} {vs : List ℕ}

theorem base32DecodeChar_digit (hbase : Alphabet base) {v : ℕ} (hv : v < 32) :
    base32DecodeChar base ⟨t, false, vs, 0⟩ (base.getD v 0) = put ⟨t, false, vs, 0⟩ v 0 := by
  rw [base32DecodeChar]
  simp only [Bool.false_eq_true, if_false]
  rw [hbase.digit v hv, ok_then, if_neg (fun h => h.2 rfl), if_neg (by omega)]

theorem put_short {s n v : ℕ} (hlen : vs.length < 7) :
    put ⟨t, false, vs, s⟩ v n = .ok ⟨t, false, vs ++ [if v = 32 then 0 else v], n⟩ := by
  rw [put]
  simp only [length_append, length_singleton]
  rw [if_neg (by omega)]
  rfl

theorem put_last {s n v : ℕ} (hlen : vs.length = 7) (hroom : (if n ≠ 0 then n else 5) ≤ t.available) :
    put ⟨t, false, vs, s⟩ v n =
      .ok ⟨t.put ((bytesOf (vs ++ [if v = 32 then 0 else v])).take (if n ≠ 0 then n else 5)), decide (n ≠ 0), [], n⟩ := by
  have hbytes : ∀ val m, ((bytesOf val).take m).length ≤ m := fun val m => by
    rw [length_take]
    exact min_le_left _ _
  rw [put]
  simp only [length_append, length_singleton, hlen, if_true]
  rw [memTobuffer_ok ((hbytes _ _).trans hroom)]
  rfl

theorem decode_digits (hbase : Alphabet base) : ∀ {ds vs : List ℕ}, (∀ v ∈ ds, v < 32) → vs.length + ds.length < 8 →
    (ds.map (fun v => base.getD v 0)).foldlM (base32DecodeChar base) ⟨t, false, vs, 0⟩ = .ok ⟨t, false, vs ++ ds, 0⟩ := by
  intro ds
  induction ds with
  | nil =>
    intro vs _ _
    simp
    rfl
  | cons v ds ih =>
    intro vs hds hlen
    obtain ⟨hv, hds⟩ := forall_mem_cons.1 hds
    rw [length_cons] at hlen
    rw [map_cons, foldlM_cons, base32DecodeChar_digit hbase hv, put_short (by omega), ok_then, if_neg (by omega),
      ih hds (by rw [length_append, length_singleton]; omega), append_assoc, singleton_append]

/-- A group of eight digits. -/
theorem decode_full (hbase : Alphabet base) {ds : List ℕ} (hds : ∀ v ∈ ds, v < 32) (hlen : ds.length = 8) (hroom : 5 ≤ t.available) :
    (ds.map (fun v => base.getD v 0)).foldlM (base32DecodeChar base) ⟨t, false, [], 0⟩ = .ok ⟨t.put (bytesOf ds), false, [], 0⟩ := by
  obtain ⟨init, last, rfl⟩ : ∃ init last, ds = init ++ [last] :=
    ⟨_, _, (dropLast_append_getLast (ne_nil_of_length_pos (by omega))).symm⟩
  have hinit : init.length = 7 := by simpa using hlen
  have hlast : last < 32 := hds last (by simp)
  rw [map_append, foldlM_append, decode_digits hbase (fun v hv => hds v (mem_append_left _ hv)) (by simp [hinit]), ok_then,
    nil_append, map_singleton, foldlM_cons, base32DecodeChar_digit hbase hlast, put_last (n := 0) hinit (by simpa using hroom), ok_then,
    if_neg (by omega : ¬last = 32)]
  rfl

theorem base32DecodeChar_pad (hbase : Alphabet base) {n : ℕ} (hn : n ≠ 0) :
    base32DecodeChar base ⟨t, false, vs, n⟩ 61 = put ⟨t, false, vs, n⟩ 32 n := by
  rw [base32DecodeChar]
  simp [hbase.pad, hn]

/-- The padding behind the first padding character. -/
theorem decode_morePads (hbase : Alphabet base) {n s : ℕ} (hn : n ≠ 0) (hroom : n ≤ t.available) : ∀ (p : ℕ) (vs : List ℕ),
    vs.length + 1 + p = 8 → (put ⟨t, false, vs, s⟩ 32 n >>= (replicate p 61).foldlM (base32DecodeChar base)) =
      .ok ⟨t.put ((bytesOf (vs ++ replicate (p + 1) 0)).take n), true, [], n⟩ := by
  intro p
  induction p generalizing s with
  | zero =>
    intro vs hlen
    rw [put_last (by omega) (by rw [if_pos hn]; exact hroom), ok_then]
    simp [hn]
    rfl
  | succ p ih =>
    intro vs hlen
    rw [put_short (by omega), ok_then, replicate_succ, foldlM_cons, base32DecodeChar_pad hbase hn, if_pos rfl,
      ih _ (by rw [length_append, length_singleton]; omega), append_assoc, singleton_append, ← replicate_succ]

theorem decode_padded (hbase : Alphabet base) {ds : List ℕ} {n : ℕ} (hds : ∀ v ∈ ds, v < 32) (hlen : ds.length < 8)
    (hpad : paddingStart ds = .ok n) (hn : n ≠ 0) (hroom : n ≤ t.available) :
    (ds.map (fun v => base.getD v 0) ++ replicate (8 - ds.length) 61).foldlM (base32DecodeChar base) ⟨t, false, [], 0⟩ =
      .ok ⟨t.put ((bytesOf (ds ++ replicate (8 - ds.length) 0)).take n), true, [], n⟩ := by
  obtain ⟨p, hp⟩ : ∃ p, 8 - ds.length = p + 1 := ⟨7 - ds.length, by omega⟩
  have hfirst : base32DecodeChar base ⟨t, false, ds, 0⟩ 61 = put ⟨t, false, ds, 0⟩ 32 n := by
    rw [base32DecodeChar]
    simp [hbase.pad, hpad]
  rw [foldlM_append, decode_digits hbase hds (by simpa using hlen), ok_then, nil_append, hp, replicate_succ,
    foldlM_cons, hfirst]
  exact decode_morePads hbase hn hroom p ds (by omega)

def readBack (x : Bytes) : Bytes := if x.length % 5 = 2 then x ++ [0] else x

theorem paddingStart_digits (a b c d : UInt8) : paddingStart (digitsOf [a]) = .ok 1 ∧ paddingStart (digitsOf [a, b]) = .ok 3 ∧
    paddingStart (digitsOf [a, b, c]) = .ok 3 ∧ paddingStart (digitsOf [a, b, c, d]) = .ok 4 := by
  have h1 : a.toNat <<< 2 &&& 0x1c &&& 0x03 = 0 := by rw [Nat.and_assoc]; exact Nat.and_zero _
  have h2 : b.toNat <<< 4 &&& 0x10 &&& 0x0f = 0 := by rw [Nat.and_assoc]; exact Nat.and_zero _
  have h3 : c.toNat <<< 1 &&& 0x1e &&& 0x01 = 0 := by rw [Nat.and_assoc]; exact Nat.and_zero _
  have h4 : d.toNat <<< 3 &&& 0x18 &&& 0x07 = 0 := by rw [Nat.and_assoc]; exact Nat.and_zero _
  simp only [paddingStart, digitsOf, length_cons, length_nil, getD_cons_succ, getD_cons_zero]
  exact ⟨if_neg (not_not.2 h1), if_neg (not_not.2 h2), if_neg (not_not.2 h3), if_neg (not_not.2 h4)⟩

theorem decode_last (hbase : Alphabet base) {bs five : Bytes} {n : ℕ} (hlen : (digitsOf bs).length < 8)
    (hpad : paddingStart (digitsOf bs) = .ok n) (hn : n ≠ 0) (hroom : n ≤ t.available)
    (hfive : bytesOf (digitsOf bs ++ replicate (8 - (digitsOf bs).length) 0) = five) :
    (groupText base bs).foldlM (base32DecodeChar base) ⟨t, false, [], 0⟩ = .ok ⟨t.put (five.take n), true, [], n⟩ := by
  rw [groupText, decode_padded hbase (digitsOf_lt bs) hlen hpad hn hroom, hfive]

theorem decode_text (hbase : Alphabet base) : ∀ (x : Bytes) (t : Buffer), (readBack x).length ≤ t.available →
    ∃ ended s, (encodeChunks 4 (groupText base) x).foldlM (base32DecodeChar base) ⟨t, false, [], 0⟩ =
      .ok ⟨t.put (readBack x), ended, [], s⟩
  | [], t, _ => ⟨false, 0, by simp [encodeChunks, readBack, Buffer.put]; rfl⟩
  | [a], t, hroom => by
    have hbytes := bytesOf_digitsOf a 0 0 0 0 []
    rw [← (digitsOf_short a 0 0 0).1] at hbytes
    rw [encodeChunks, take_nil, drop_nil, encodeChunks, append_nil]
    exact ⟨_, _, decode_last hbase (by simp [digitsOf]) (paddingStart_digits a 0 0 0).1 (by decide) hroom hbytes⟩
  | [a, b], t, hroom => by
    have hbytes := bytesOf_digitsOf a b 0 0 0 []
    rw [← (digitsOf_short a b 0 0).2.1] at hbytes
    rw [encodeChunks, drop_of_length_le (by simp), take_of_length_le (by simp), encodeChunks, append_nil]
    exact ⟨_, _, decode_last hbase (by simp [digitsOf]) (paddingStart_digits a b 0 0).2.1 (by decide) hroom hbytes⟩
  | [a, b, c], t, hroom => by
    have hbytes := bytesOf_digitsOf a b c 0 0 []
    rw [← (digitsOf_short a b c 0).2.2.1] at hbytes
    rw [encodeChunks, drop_of_length_le (by simp), take_of_length_le (by simp), encodeChunks, append_nil]
    exact ⟨_, _, decode_last hbase (by simp [digitsOf]) (paddingStart_digits a b c 0).2.2.1 (by decide) hroom hbytes⟩
  | [a, b, c, d], t, hroom => by
    have hbytes := bytesOf_digitsOf a b c d 0 []
    rw [← (digitsOf_short a b c d).2.2.2] at hbytes
    rw [encodeChunks, drop_of_length_le (by simp), take_of_length_le (by simp), encodeChunks, append_nil]
    exact ⟨_, _, decode_last hbase (by simp [digitsOf]) (paddingStart_digits a b c d).2.2.2 (by decide) hroom hbytes⟩
  | a :: b :: c :: d :: e :: rest, t, hroom => by
    have hsplit : readBack (a :: b :: c :: d :: e :: rest) = [a, b, c, d, e] ++ readBack rest := by
      have hmod : (a :: b :: c :: d :: e :: rest).length % 5 = rest.length % 5 := by
        simp only [length_cons]
        omega
      unfold readBack
      rw [hmod]
      split
      · rfl
      · rfl
    rw [hsplit, length_append] at hroom
    have hgroup : (groupText base [a, b, c, d, e]).foldlM (base32DecodeChar base) ⟨t, false, [], 0⟩ =
        .ok ⟨t.put [a, b, c, d, e], false, [], 0⟩ := by
      rw [groupText, show 8 - (digitsOf [a, b, c, d, e]).length = 0 from rfl, replicate_zero, append_nil,
        decode_full hbase (digitsOf_lt _) rfl (by simp at hroom; omega), bytesOf_digitsOf]
    obtain ⟨ended, s, hrest⟩ := decode_text hbase rest (t.put [a, b, c, d, e]) (by
      rw [Buffer.put_available]
      omega)
    refine ⟨ended, s, ?_⟩
    rw [encodeChunks, foldlM_append]
    show (groupText base [a, b, c, d, e]).foldlM (base32DecodeChar base) ⟨t, false, [], 0⟩ >>= _ = _
    rw [hgroup, ok_then]
    show (encodeChunks 4 (groupText base) rest).foldlM (base32DecodeChar base) ⟨t.put [a, b, c, d, e], false, [], 0⟩ = _
    rw [hrest, Buffer.put_put, hsplit]

end Decoding

/-! ### The round trip -/

section Roundtrip

variable {base x wordbreak : Bytes} {wordlength : ℤ}

theorem groupText_plain (hbase : Alphabet base) (bs : Bytes) : ∀ c ∈ groupText base bs, c ≠ 0 ∧ isWhite c = false := by
  intro c hc
  obtain hc | hc := mem_append.1 hc
  · obtain ⟨v, hv, rfl⟩ := mem_map.1 hc
    exact hbase.plain v (digitsOf_lt bs v hv)
  · rw [eq_of_mem_replicate hc]
    decide

/-- The text with its breaks is read as `readBack x`. -/
theorem decodestring_wrapped (hbase : Alphabet base) (hbreak : ∀ c ∈ wordbreak, isWhite c = true) (full : ℕ → Bool) (target : Buffer)
    (hroom : (readBack x).length ≤ target.available) :
    base32Decodestring base (wrapped 4 (groupText base) full wordbreak 0 x) target = .ok (target.put (readBack x)) := by
  obtain ⟨ended, s, hrun⟩ := decode_text hbase x target hroom
  rw [base32Decodestring, decodeString_wrapped _ hbreak (groupText_plain hbase), hrun]
  rfl

theorem roundTrips_iff (hbase : Alphabet base) (hbreak : ∀ c ∈ wordbreak, isWhite c = true) :
    RoundTrips base x wordlength wordbreak ↔ x.length % 5 ≠ 2 := by
  obtain ⟨full, hfull⟩ : ∃ full, ∀ target, base32Totext base x wordlength wordbreak target =
      totextLoop 4 (groupText base) full wordbreak 0 x target := ⟨_, fun _ => rfl⟩
  constructor
  · rintro ⟨text, htext, hdecode⟩ hmod
    -- a buffer for both texts shows that they are the same
    have hroom : ∀ n : ℕ, (⟨[], n⟩ : Buffer).available = n := fun n => Nat.sub_zero n
    have hsame : text = wrapped 4 (groupText base) full wordbreak 0 x := by
      have h := htext ⟨[], text.length + (wrapped 4 (groupText base) full wordbreak 0 x).length⟩ (by rw [hroom]; omega)
      rw [hfull, totextLoop_ok _ _ _ (by rw [hroom]; omega)] at h
      have hdata := congrArg Buffer.data (Except.ok.inj h)
      simpa [Buffer.put] using hdata.symm
    have hread := @decodestring_wrapped base x wordbreak hbase hbreak full ⟨[], (readBack x).length⟩ (by rw [hroom])
    have hback : readBack x = x ++ [0] := if_pos hmod
    rw [← hsame, hdecode _ (by rw [hroom, hback, length_append]; omega), hback] at hread
    have hdata := congrArg Buffer.data (Except.ok.inj hread)
    simp [Buffer.put] at hdata
  · intro hmod
    have hback : readBack x = x := if_neg hmod
    refine ⟨wrapped 4 (groupText base) full wordbreak 0 x, fun target hroom => ?_, fun target hroom => ?_⟩
    · rw [hfull]
      exact totextLoop_ok _ _ _ hroom
    · have hread := @decodestring_wrapped base x wordbreak hbase hbreak full target (by rw [hback]; exact hroom)
      rwa [hback] at hread

end Roundtrip

/-- **Base32 round trip.**  With either alphabet, data that is written with any breaks of white space is read back iff its
last group has not two bytes. -/
theorem base32_roundtrip (x : Bytes) (wordlength : ℤ) (wordbreak : Bytes) (hbreak : ∀ c ∈ wordbreak, isWhite c = true) :
    (RoundTrips base32 x wordlength wordbreak ↔ x.length % 5 ≠ 2) ∧
      (RoundTrips base32hex x wordlength wordbreak ↔ x.length % 5 ≠ 2) :=
  ⟨roundTrips_iff alphabet_base32 hbreak, roundTrips_iff alphabet_base32hex hbreak⟩

/-- Five bytes with a break of one blank. -/
theorem base32_roundtrip_five : RoundTrips base32 [102, 111, 111, 98, 97] 0 [32] ∧ RoundTrips base32hex [102, 111, 111, 98, 97] 0 [32] := by
  obtain ⟨h, hhex⟩ := base32_roundtrip [102, 111, 111, 98, 97] 0 [32] (by simp [isWhite])
  exact ⟨h.2 (by decide), hhex.2 (by decide)⟩

/-- Two bytes are read as three. -/
theorem base32_two_bytes : base32Totext base32 [102, 111] 0 [] ⟨[], 100⟩ = .ok ⟨[77, 90, 88, 81, 61, 61, 61, 61], 100⟩ ∧
    base32Decodestring base32 [77, 90, 88, 81, 61, 61, 61, 61] ⟨[], 100⟩ = .ok ⟨[102, 111, 0], 100⟩ ∧
    ¬RoundTrips base32 [102, 111] 0 [] := by
  refine ⟨by decide +kernel, by decide +kernel, ?_⟩
  rw [roundTrips_iff alphabet_base32 (by simp)]
  decide

end Bind9.Base32
