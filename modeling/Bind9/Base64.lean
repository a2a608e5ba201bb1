import Bind9.BaseText

/-! # Base64

`isc_base64_totext`, `base64_decode_char`, `base64_decode_finish` and `isc_base64_decodestring` of `lib/isc/base64.c`, without
a desired length.  The characters are looked up with `strchr` in a C string, so that a NUL is found too and counts as the
digit 65.  Where no NUL is read, the accepted texts are the canonical ones. -/

namespace Bind9.Base64

open List

open BaseText Chunks

def badbase64 : Result := .other 31

/-- `base64`, with its terminating NUL. -/
def base64 : Bytes :=
  ['A', 'B', 'C', 'D', 'E', 'F', 'G', 'H', 'I', 'J', 'K', 'L', 'M', 'N', 'O', 'P', 'Q', 'R', 'S', 'T', 'U', 'V', 'W', 'X',
    'Y', 'Z', 'a', 'b', 'c', 'd', 'e', 'f', 'g', 'h', 'i', 'j', 'k', 'l', 'm', 'n', 'o', 'p', 'q', 'r', 's', 't', 'u', 'v',
    'w', 'x', 'y', 'z', '0', '1', '2', '3', '4', '5', '6', '7', '8', '9', '+', '/', '='].map (fun c => UInt8.ofNat c.toNat) ++ [0]

/-! ### Decoding -/

/-- `base64_decode_ctx_t`; the desired length is -1. -/
structure DecodeCtx where
  target : Buffer
  seenEnd : Bool
  val : List ℕ

/-- The value that `base64_decode_char` stores in `val` for a character. -/
def storedValue (ctx : DecodeCtx) (c : UInt8) : Option ℕ := if ctx.seenEnd then none else base64.idxOf? c

/-- The tests of a whole group and its number of bytes. -/
def significant (v0 v1 v2 v3 : ℕ) : Exec ℕ :=
  if v0 = 64 ∨ v1 = 64 then stop badbase64
  else if v2 = 64 ∧ v3 ≠ 64 then stop badbase64
  else if v2 = 64 ∧ v1 &&& 0xf ≠ 0 then stop badbase64
  else if v3 = 64 ∧ v2 &&& 0x3 ≠ 0 then stop badbase64
  else .ok (if v2 = 64 then 1 else if v3 = 64 then 2 else 3)

/-- The padding of a group that ends the text is a nought. -/
def unpad (n v : ℕ) : ℕ := if n ≠ 3 ∧ v = 64 then 0 else v

/-- `buf`. -/
def bytesOf (v0 v1 v2 v3 : ℕ) : Bytes :=
  [UInt8.ofNat (v0 <<< 2 ||| v1 >>> 4), UInt8.ofNat (v1 <<< 4 ||| v2 >>> 2), UInt8.ofNat (v2 <<< 6 ||| v3)]

/-- A group of four values. -/
def endGroup (target : Buffer) (v0 v1 v2 v3 : ℕ) : Exec DecodeCtx := do
  let n ← significant v0 v1 v2 v3
  let target ← memTobuffer target ((bytesOf v0 v1 (unpad n v2) (unpad n v3)).take n)
  pure ⟨target, decide (n ≠ 3), []⟩

def base64DecodeChar (ctx : DecodeCtx) (c : UInt8) : Exec DecodeCtx :=
  match storedValue ctx c with
  | none => stop badbase64
  | some v =>
    match ctx.val with
    | [v0, v1, v2] => endGroup ctx.target v0 v1 v2 v
    | val => .ok { ctx with val := val ++ [v] }

/-- `base64_decode_char` on one character after the other and `base64_decode_finish`. -/
def base64Decode (c : Bytes) (target : Buffer) : Exec Buffer := do
  let ctx ← c.foldlM base64DecodeChar ⟨target, false, []⟩
  if ctx.val.length ≠ 0 then stop badbase64 else pure ctx.target

def base64Decodestring (cstr : Bytes) (target : Buffer) : Exec Buffer := do
  let ctx ← decodeString base64DecodeChar ⟨target, false, []⟩ cstr
  if ctx.val.length ≠ 0 then stop badbase64 else pure ctx.target

/-! ### Encoding -/

/-- The digits of up to three bytes, without the padding. -/
def digitsOf : Bytes → List ℕ
  | [] => []
  | [a] => [a.toNat >>> 2 &&& 0x3f, a.toNat <<< 4 &&& 0x30]
  | [a, b] => [a.toNat >>> 2 &&& 0x3f, a.toNat <<< 4 &&& 0x30 ||| b.toNat >>> 4 &&& 0x0f, b.toNat <<< 2 &&& 0x3c]
  | a :: b :: c :: _ => [a.toNat >>> 2 &&& 0x3f, a.toNat <<< 4 &&& 0x30 ||| b.toNat >>> 4 &&& 0x0f,
      b.toNat <<< 2 &&& 0x3c ||| c.toNat >>> 6 &&& 0x03, c.toNat &&& 0x3f]

/-- `buf` for up to three bytes. -/
def groupText (bs : Bytes) : Bytes :=
  (digitsOf bs).map (fun v => base64.getD v 0) ++ replicate (4 - (digitsOf bs).length) 61

def base64Totext (source : Bytes) (wordlength : ℤ) (wordbreak : Bytes) (target : Buffer) : Exec Buffer :=
  let wordlength := if wordlength < 4 then 4 else wordlength
  totextLoop 2 groupText (wordFull 4 wordlength) wordbreak 0 source target

def canonical (y : Bytes) : Bytes := encodeChunks 2 groupText y

/-- A character of the alphabet, without the padding. -/
def IsDigit (c : UInt8) : Prop := c ∈ base64.take 64

instance (c : UInt8) : Decidable (IsDigit c) := inferInstanceAs (Decidable (c ∈ _))

/-! ### The alphabet -/

theorem base64_digit : ∀ v < 64, base64.idxOf? (base64.getD v 0) = some v ∧ IsDigit (base64.getD v 0) ∧ base64.getD v 0 ≠ 0 ∧
    base64.getD v 0 ≠ 61 ∧ isWhite (base64.getD v 0) = false := by
  have hplace : ∀ v < 64, (fun c : UInt8 => if c < 48 then c.toNat / 4 + 52 else if c < 65 then c.toNat + 4
      else if c < 97 then c.toNat - 65 else c.toNat - 71) (base64.getD v 0) = v := by decide +kernel
  have hall : ∀ c ∈ base64.take 64, c ≠ 0 ∧ c ≠ 61 ∧ isWhite c = false := by decide +kernel
  intro v hv
  have hlt : v < base64.length := hv.trans (by decide)
  have hget : ∀ {j}, (hj : j < base64.length) → base64.getD j 0 = base64[j] := fun hj => by
    rw [getD_eq_getElem?_getD, getElem?_eq_getElem hj, Option.getD_some]
  have hmem : base64[v] ∈ base64.take 64 := mem_take_iff_getElem.2 ⟨v, lt_min hv hlt, rfl⟩
  rw [hget hlt]
  refine ⟨idxOf?_eq_some_iff.2 ⟨hlt, rfl, fun j hj h => hj.ne ?_⟩, hmem, hall _ hmem⟩
  rw [← hplace j (hj.trans hv), ← hplace v hv, hget (hj.trans hlt), hget hlt, h]

theorem idxOf_pad : base64.idxOf? 61 = some 64 := by decide

theorem idxOf_nul : base64.idxOf? 0 = some 65 := by decide

variable {c : UInt8} {v v0 v1 v2 v3 n : ℕ}

/-- A character that is found is a digit, the padding or NUL. -/
theorem idxOf_cases (h : base64.idxOf? c = some v) :
    (v < 64 ∧ base64.getD v 0 = c ∧ IsDigit c) ∨ (v = 64 ∧ c = 61) ∨ (v = 65 ∧ c = 0) := by
  obtain ⟨hv, hc, -⟩ := idxOf?_eq_some_iff.1 h
  have hget : base64.getD v 0 = c := by rw [getD_eq_getElem?_getD, getElem?_eq_getElem hv, Option.getD_some, hc]
  have hlen : v < 66 := hv
  obtain hlt | rfl | rfl : v < 64 ∨ v = 64 ∨ v = 65 := by omega
  · exact .inl ⟨hlt, hget, hget ▸ (base64_digit v hlt).2.1⟩
  · exact .inr (.inl ⟨rfl, hget.symm⟩)
  · exact .inr (.inr ⟨rfl, hget.symm⟩)

theorem idxOf_isDigit (h : IsDigit c) : ∃ v < 64, base64.idxOf? c = some v ∧ base64.getD v 0 = c := by
  obtain ⟨v, hv, hc⟩ := mem_iff_getElem.1 h
  have hlt : v < 64 := hv
  have hget : base64.getD v 0 = c := by
    rw [getD_eq_getElem?_getD, ← hc, getElem_take, getElem?_eq_getElem, Option.getD_some]
  exact ⟨v, hlt, hget ▸ (base64_digit v hlt).1, hget⟩

/-! ### A group -/

theorem digitsOf_three (a b c : UInt8) (rest : Bytes) : digitsOf (a :: b :: c :: rest) =
    [a.toNat / 4 % 64, a.toNat % 4 * 16 + b.toNat / 16 % 16, b.toNat % 16 * 4 + c.toNat / 64 % 4, c.toNat % 64] := by
  have h0 := shiftRight_and a.toNat 2 6
  have h1 := joined a.toNat b.toNat 4 2 4 4 (by decide)
  have h2 := joined b.toNat c.toNat 2 4 6 2 (by decide)
  have h3 := Nat.and_two_pow_sub_one_eq_mod c.toNat 6
  rw [digitsOf]
  exact cons_eq_cons.2 ⟨h0, cons_eq_cons.2 ⟨h1, cons_eq_cons.2 ⟨h2, cons_eq_cons.2 ⟨h3, rfl⟩⟩⟩⟩

theorem digitsOf_two (a b : UInt8) :
    digitsOf [a, b] = [a.toNat / 4 % 64, a.toNat % 4 * 16 + b.toNat / 16 % 16, b.toNat % 16 * 4] := by
  have h2 := shiftLeft_and b.toNat 2 4
  have h := digitsOf_three a b 0 []
  simp only [digitsOf] at h ⊢
  obtain ⟨h0, h⟩ := cons_eq_cons.1 h
  obtain ⟨h1, -⟩ := cons_eq_cons.1 h
  exact cons_eq_cons.2 ⟨h0, cons_eq_cons.2 ⟨h1, cons_eq_cons.2 ⟨h2, rfl⟩⟩⟩

theorem digitsOf_one (a : UInt8) : digitsOf [a] = [a.toNat / 4 % 64, a.toNat % 4 * 16] := by
  have h0 := shiftRight_and a.toNat 2 6
  have h1 := shiftLeft_and a.toNat 4 2
  rw [digitsOf]
  exact cons_eq_cons.2 ⟨h0, cons_eq_cons.2 ⟨h1, rfl⟩⟩

theorem digitsOf_lt : ∀ bs : Bytes, ∀ v ∈ digitsOf bs, v < 64
  | [] => by simp [digitsOf]
  | [a] => by
    rw [digitsOf_one, forall_mem_cons, forall_mem_singleton]
    omega
  | [a, b] => by
    rw [digitsOf_two, forall_mem_cons, forall_mem_cons, forall_mem_singleton]
    omega
  | a :: b :: c :: rest => by
    rw [digitsOf_three, forall_mem_cons, forall_mem_cons, forall_mem_cons, forall_mem_singleton]
    omega
theorem bytesOf_four (h1 : v1 < 64) (h2 : v2 < 64) (h3 : v3 < 64) : bytesOf v0 v1 v2 v3 =
    [UInt8.ofNat (v0 * 4 + v1 / 16), UInt8.ofNat (v1 * 16 + v2 / 4), UInt8.ofNat (v2 * 64 + v3)] := by
  have e0 : v0 <<< 2 ||| v1 >>> 4 = v0 * 4 + v1 / 16 := by
    rw [Nat.shiftRight_eq_div_pow]
    exact shiftLeft_or (by omega)
  have e1 : v1 <<< 4 ||| v2 >>> 2 = v1 * 16 + v2 / 4 := by
    rw [Nat.shiftRight_eq_div_pow]
    exact shiftLeft_or (by omega)
  have e2 : v2 <<< 6 ||| v3 = v2 * 64 + v3 := shiftLeft_or h3
  rw [bytesOf, e0, e1, e2]

/-- The four values of up to three bytes, with the padding. -/
def valuesOf (bs : Bytes) : List ℕ := digitsOf bs ++ replicate (4 - (digitsOf bs).length) 64

theorem toNat_byte (h : n < 256) : (UInt8.ofNat n).toNat = n := by
  rw [UInt8.toNat_ofNat', Nat.mod_eq_of_lt h]

theorem ofNat_congr {m : ℕ} (h : n % 256 = m % 256) : UInt8.ofNat n = UInt8.ofNat m := by
  apply UInt8.toNat_inj.1
  rw [UInt8.toNat_ofNat', UInt8.toNat_ofNat', h]

/-- What the tests of a group let through. -/
theorem significant_ok_iff : significant v0 v1 v2 v3 = .ok n ↔ v0 ≠ 64 ∧ v1 ≠ 64 ∧
    ((n = 1 ∧ v2 = 64 ∧ v3 = 64 ∧ v1 % 16 = 0) ∨ (n = 2 ∧ v2 ≠ 64 ∧ v3 = 64 ∧ v2 % 4 = 0) ∨ (n = 3 ∧ v2 ≠ 64 ∧ v3 ≠ 64)) := by
  have h1 : v1 &&& 0xf = v1 % 16 := Nat.and_two_pow_sub_one_eq_mod v1 4
  have h2 : v2 &&& 0x3 = v2 % 4 := Nat.and_two_pow_sub_one_eq_mod v2 2
  unfold significant
  rw [h1, h2]
  split_ifs
  all_goals simp only [stop, reduceCtorEq, false_iff, Except.ok.injEq]
  all_goals omega

variable {ctx : DecodeCtx}

theorem endGroup_ok {t : Buffer} (h0 : v0 ≤ 64) (h1 : v1 ≤ 64) (h2 : v2 ≤ 64) (h3 : v3 ≤ 64)
    (h : endGroup t v0 v1 v2 v3 = .ok ctx) : ∃ bs, bs ≠ [] ∧ bs.length ≤ 3 ∧ valuesOf bs = [v0, v1, v2, v3] ∧
      ctx = ⟨t.put bs, decide (bs.length ≠ 3), []⟩ := by
  obtain ⟨n, hn, hput⟩ := bind_eq_ok h
  obtain ⟨target, htarget, hctx⟩ := bind_eq_ok hput
  cases hctx
  rw [memTobuffer_eq_ok htarget]
  obtain ⟨hv0, hv1, ⟨rfl, rfl, rfl, hlow⟩ | ⟨rfl, hv2, rfl, hlow⟩ | ⟨rfl, hv2, hv3⟩⟩ := significant_ok_iff.1 hn
  · refine ⟨[UInt8.ofNat (v0 * 4 + v1 / 16)], by simp, by simp, ?_, ?_⟩
    · rw [valuesOf, digitsOf_one, toNat_byte (by omega)]
      simp only [length_cons, length_nil, cons_append, nil_append]
      refine cons_eq_cons.2 ⟨by omega, cons_eq_cons.2 ⟨by omega, rfl⟩⟩
    · rw [bytesOf_four (by omega) (by decide) (by decide)]
      rfl
  · have hunpad : unpad 2 v2 = v2 := if_neg (fun h => hv2 h.2)
    refine ⟨[UInt8.ofNat (v0 * 4 + v1 / 16), UInt8.ofNat (v1 % 16 * 16 + v2 / 4)], by simp, by simp, ?_, ?_⟩
    · rw [valuesOf, digitsOf_two, toNat_byte (by omega), toNat_byte (by omega)]
      simp only [length_cons, length_nil, cons_append, nil_append]
      refine cons_eq_cons.2 ⟨by omega, cons_eq_cons.2 ⟨by omega, cons_eq_cons.2 ⟨by omega, rfl⟩⟩⟩
    · have hb : UInt8.ofNat (v1 * 16 + v2 / 4) = UInt8.ofNat (v1 % 16 * 16 + v2 / 4) := ofNat_congr (by omega)
      rw [hunpad, bytesOf_four (by omega) (by omega) (by decide), hb]
      rfl
  · have hunpad : ∀ v, unpad 3 v = v := fun v => if_neg (fun h => h.1 rfl)
    refine ⟨[UInt8.ofNat (v0 * 4 + v1 / 16), UInt8.ofNat (v1 % 16 * 16 + v2 / 4), UInt8.ofNat (v2 % 4 * 64 + v3)], by simp, by simp,
      ?_, ?_⟩
    · rw [valuesOf, digitsOf_three, toNat_byte (by omega), toNat_byte (by omega), toNat_byte (by omega)]
      simp only [length_cons, length_nil, cons_append, nil_append]
      refine cons_eq_cons.2 ⟨by omega, cons_eq_cons.2 ⟨by omega, cons_eq_cons.2 ⟨by omega,
        cons_eq_cons.2 ⟨by omega, rfl⟩⟩⟩⟩
    · have hb : UInt8.ofNat (v1 * 16 + v2 / 4) = UInt8.ofNat (v1 % 16 * 16 + v2 / 4) := ofNat_congr (by omega)
      have hc : UInt8.ofNat (v2 * 64 + v3) = UInt8.ofNat (v2 % 4 * 64 + v3) := ofNat_congr (by omega)
      rw [hunpad, hunpad, bytesOf_four (by omega) (by omega) (by omega), hb, hc]
      rfl

theorem endGroup_values {t : Buffer} : ∀ {bs : Bytes}, bs ≠ [] → bs.length ≤ 3 → bs.length ≤ t.available →
    ∀ {v0 v1 v2 v3 : ℕ}, valuesOf bs = [v0, v1, v2, v3] → endGroup t v0 v1 v2 v3 = .ok ⟨t.put bs, decide (bs.length ≠ 3), []⟩
  | [a], _, _, hroom, v0, v1, v2, v3, hvalues => by
    have ha := a.toNat_lt
    rw [valuesOf, digitsOf_one] at hvalues
    obtain ⟨rfl, rfl, rfl, rfl⟩ : a.toNat / 4 % 64 = v0 ∧ a.toNat % 4 * 16 = v1 ∧ 64 = v2 ∧ 64 = v3 := by simpa using hvalues
    have hn : significant (a.toNat / 4 % 64) (a.toNat % 4 * 16) 64 64 = .ok 1 := by
      rw [significant_ok_iff]
      omega
    have hbytes : (bytesOf (a.toNat / 4 % 64) (a.toNat % 4 * 16) (unpad 1 64) (unpad 1 64)).take 1 = [a] := by
      rw [bytesOf_four (by omega) (by decide) (by decide)]
      exact cons_eq_cons.2 ⟨(ofNat_congr (by omega)).trans a.ofNat_toNat, rfl⟩
    rw [endGroup, hn, ok_then, hbytes, memTobuffer_ok hroom]
    rfl
  | [a, b], _, _, hroom, v0, v1, v2, v3, hvalues => by
    have ha := a.toNat_lt
    have hb := b.toNat_lt
    rw [valuesOf, digitsOf_two] at hvalues
    obtain ⟨rfl, rfl, rfl, rfl⟩ : a.toNat / 4 % 64 = v0 ∧ a.toNat % 4 * 16 + b.toNat / 16 % 16 = v1 ∧ b.toNat % 16 * 4 = v2 ∧
        64 = v3 := by simpa using hvalues
    have hn : significant (a.toNat / 4 % 64) (a.toNat % 4 * 16 + b.toNat / 16 % 16) (b.toNat % 16 * 4) 64 = .ok 2 := by
      rw [significant_ok_iff]
      omega
    have hunpad : unpad 2 (b.toNat % 16 * 4) = b.toNat % 16 * 4 := if_neg (by omega)
    have hbytes : (bytesOf (a.toNat / 4 % 64) (a.toNat % 4 * 16 + b.toNat / 16 % 16) (unpad 2 (b.toNat % 16 * 4))
        (unpad 2 64)).take 2 = [a, b] := by
      rw [hunpad, bytesOf_four (by omega) (by omega) (by decide)]
      exact cons_eq_cons.2 ⟨(ofNat_congr (by omega)).trans a.ofNat_toNat,
        cons_eq_cons.2 ⟨(ofNat_congr (by omega)).trans b.ofNat_toNat, rfl⟩⟩
    rw [endGroup, hn, ok_then, hbytes, memTobuffer_ok hroom]
    rfl
  | [a, b, c], _, _, hroom, v0, v1, v2, v3, hvalues => by
    have ha := a.toNat_lt
    have hb := b.toNat_lt
    have hc := c.toNat_lt
    rw [valuesOf, digitsOf_three] at hvalues
    obtain ⟨rfl, rfl, rfl, rfl⟩ : a.toNat / 4 % 64 = v0 ∧ a.toNat % 4 * 16 + b.toNat / 16 % 16 = v1 ∧
        b.toNat % 16 * 4 + c.toNat / 64 % 4 = v2 ∧ c.toNat % 64 = v3 := by simpa using hvalues
    have hn : significant (a.toNat / 4 % 64) (a.toNat % 4 * 16 + b.toNat / 16 % 16) (b.toNat % 16 * 4 + c.toNat / 64 % 4)
        (c.toNat % 64) = .ok 3 := by
      rw [significant_ok_iff]
      omega
    have hunpad : ∀ v, unpad 3 v = v := fun v => if_neg (fun h => h.1 rfl)
    have hbytes : (bytesOf (a.toNat / 4 % 64) (a.toNat % 4 * 16 + b.toNat / 16 % 16)
        (unpad 3 (b.toNat % 16 * 4 + c.toNat / 64 % 4)) (unpad 3 (c.toNat % 64))).take 3 = [a, b, c] := by
      rw [hunpad, hunpad, bytesOf_four (by omega) (by omega) (by omega)]
      exact cons_eq_cons.2 ⟨(ofNat_congr (by omega)).trans a.ofNat_toNat,
        cons_eq_cons.2 ⟨(ofNat_congr (by omega)).trans b.ofNat_toNat,
        cons_eq_cons.2 ⟨(ofNat_congr (by omega)).trans c.ofNat_toNat, rfl⟩⟩⟩
    rw [endGroup, hn, ok_then, hbytes, memTobuffer_ok hroom]
    rfl

/-! ### Groups of characters -/

theorem groupText_eq (bs : Bytes) : groupText bs = (valuesOf bs).map (fun v => base64.getD v 0) := by
  rw [groupText, valuesOf, map_append, map_replicate]
  rfl

variable {bs : Bytes}

theorem valuesOf_length (hne : bs ≠ []) (hlen : bs.length ≤ 3) : (valuesOf bs).length = 4 := by
  match bs, hne, hlen with
  | [a], _, _ => rfl
  | [a, b], _, _ => rfl
  | [a, b, c], _, _ => rfl

theorem valuesOf_le (hne : bs ≠ []) (hlen : bs.length ≤ 3) : ∀ v ∈ valuesOf bs, v ≤ 64 := by
  match bs, hne, hlen with
  | [a], _, _ =>
    rw [valuesOf, digitsOf_one]
    simp only [length_cons, length_nil, cons_append, nil_append, forall_mem_cons]
    refine ⟨?_, ?_, by simp⟩
    all_goals omega
  | [a, b], _, _ =>
    rw [valuesOf, digitsOf_two]
    simp only [length_cons, length_nil, cons_append, nil_append, forall_mem_cons]
    refine ⟨?_, ?_, ?_, by simp⟩
    all_goals omega
  | [a, b, c], _, _ =>
    rw [valuesOf, digitsOf_three]
    simp only [length_cons, length_nil, cons_append, nil_append, forall_mem_cons]
    refine ⟨?_, ?_, ?_, ?_, by simp⟩
    all_goals omega

/-- A value up to the padding is that of its character. -/
theorem idxOf_getD (hv : v ≤ 64) : base64.idxOf? (base64.getD v 0) = some v := by
  obtain hlt | rfl := Nat.lt_or_eq_of_le hv
  · exact (base64_digit v hlt).1
  · exact idxOf_pad

section Fold

variable {t : Buffer} {vs : List ℕ}

theorem decodeChar_short (hv : base64.idxOf? c = some v) (hlen : vs.length < 3) :
    base64DecodeChar ⟨t, false, vs⟩ c = .ok ⟨t, false, vs ++ [v]⟩ := by
  have hstored : storedValue ⟨t, false, vs⟩ c = some v := hv
  rw [base64DecodeChar, hstored]
  simp only
  split
  · simp at hlen
  · rfl

theorem decodeChar_none (hv : base64.idxOf? c = none) : base64DecodeChar ⟨t, false, vs⟩ c = stop badbase64 := by
  have hstored : storedValue ⟨t, false, vs⟩ c = none := hv
  rw [base64DecodeChar, hstored]

theorem decodeChar_ended (c : UInt8) : base64DecodeChar ⟨t, true, vs⟩ c = stop badbase64 := rfl

theorem decodeChar_fourth (hv : base64.idxOf? c = some v) :
    base64DecodeChar ⟨t, false, [v0, v1, v2]⟩ c = endGroup t v0 v1 v2 v := by
  have hstored : storedValue ⟨t, false, [v0, v1, v2]⟩ c = some v := hv
  rw [base64DecodeChar, hstored]

theorem fold_four {c0 c1 c2 c3 : UInt8} (h0 : base64.idxOf? c0 = some v0) (h1 : base64.idxOf? c1 = some v1)
    (h2 : base64.idxOf? c2 = some v2) (h3 : base64.idxOf? c3 = some v3) :
    [c0, c1, c2, c3].foldlM base64DecodeChar ⟨t, false, []⟩ = endGroup t v0 v1 v2 v3 := by
  rw [foldlM_cons, decodeChar_short h0 (by decide), ok_then, foldlM_cons, decodeChar_short h1 (by simp), ok_then,
    foldlM_cons, decodeChar_short h2 (by simp), ok_then, foldlM_cons]
  simp only [nil_append, cons_append]
  rw [decodeChar_fourth h3]
  cases endGroup t v0 v1 v2 v3 with
  | error e => rfl
  | ok ctx => rfl

theorem fold_groupText (hne : bs ≠ []) (hlen : bs.length ≤ 3) (hroom : bs.length ≤ t.available) :
    (groupText bs).foldlM base64DecodeChar ⟨t, false, []⟩ = .ok ⟨t.put bs, decide (bs.length ≠ 3), []⟩ := by
  obtain ⟨v0, v1, v2, v3, hvalues⟩ : ∃ v0 v1 v2 v3, valuesOf bs = [v0, v1, v2, v3] := length_eq_four.1 (valuesOf_length hne hlen)
  have hle := valuesOf_le hne hlen
  rw [hvalues] at hle
  rw [groupText_eq, hvalues]
  simp only [map_cons, map_nil]
  rw [fold_four (idxOf_getD (hle v0 (by simp))) (idxOf_getD (hle v1 (by simp))) (idxOf_getD (hle v2 (by simp)))
    (idxOf_getD (hle v3 (by simp)))]
  exact endGroup_values hne hlen hroom hvalues

theorem decodeChar_short_ok (hlen : vs.length < 3)
    (h : base64DecodeChar ⟨t, false, vs⟩ c = .ok ctx) : ∃ v, base64.idxOf? c = some v ∧ ctx = ⟨t, false, vs ++ [v]⟩ := by
  cases hv : base64.idxOf? c with
  | none =>
    rw [decodeChar_none hv] at h
    cases h
  | some v =>
    rw [decodeChar_short hv hlen] at h
    exact ⟨v, rfl, (Except.ok.inj h).symm⟩

/-- Fewer than four characters only fill `val`. -/
theorem fold_short_ok : ∀ {cs : Bytes} {vs : List ℕ} {ctx : DecodeCtx}, vs.length + cs.length ≤ 3 →
    cs.foldlM base64DecodeChar ⟨t, false, vs⟩ = .ok ctx →
    (∀ c ∈ cs, (base64.idxOf? c).isSome = true) ∧ ctx.seenEnd = false ∧ ctx.val.length = vs.length + cs.length := by
  intro cs
  induction cs with
  | nil =>
    intro vs ctx _ h
    cases h
    simp
  | cons c cs ih =>
    intro vs ctx hlen h
    rw [length_cons] at hlen
    obtain ⟨ctx', hc, hcs⟩ := bind_eq_ok (show base64DecodeChar ⟨t, false, vs⟩ c >>= _ = _ from h)
    obtain ⟨v, hv, rfl⟩ := decodeChar_short_ok (by omega) hc
    obtain ⟨hall, hend, hval⟩ := ih (by rw [length_append, length_singleton]; omega) hcs
    refine ⟨?_, hend, ?_⟩
    · rw [forall_mem_cons]
      exact ⟨by rw [hv]; rfl, hall⟩
    · rw [hval, length_append, length_singleton, length_cons]
      omega

/-- The other way round. -/
theorem fold_short : ∀ {cs : Bytes} {vs : List ℕ}, vs.length + cs.length ≤ 3 → (∀ c ∈ cs, (base64.idxOf? c).isSome = true) →
    ∃ vs', cs.foldlM base64DecodeChar ⟨t, false, vs⟩ = .ok ⟨t, false, vs'⟩ := by
  intro cs
  induction cs with
  | nil => exact fun _ _ => ⟨_, rfl⟩
  | cons c cs ih =>
    intro vs hlen hall
    rw [length_cons] at hlen
    obtain ⟨hc, hcs⟩ := forall_mem_cons.1 hall
    obtain ⟨v, hv⟩ := Option.isSome_iff_exists.1 hc
    rw [foldlM_cons, decodeChar_short hv (by omega), ok_then]
    exact ih (by rw [length_append, length_singleton]; omega) hcs

theorem value_le (hc : c ≠ 0) (hv : base64.idxOf? c = some v) : v ≤ 64 ∧ base64.getD v 0 = c := by
  obtain ⟨hlt, hget, -⟩ | ⟨rfl, rfl⟩ | ⟨-, rfl⟩ := idxOf_cases hv
  · exact ⟨hlt.le, hget⟩
  · exact ⟨le_rfl, rfl⟩
  · exact absurd rfl hc

theorem fold_four_ok {cs : Bytes} (hlen : cs.length = 4) (hnul : ∀ c ∈ cs, c ≠ 0)
    (h : cs.foldlM base64DecodeChar ⟨t, false, []⟩ = .ok ctx) : ∃ bs, bs ≠ [] ∧ bs.length ≤ 3 ∧ cs = groupText bs ∧
      ctx = ⟨t.put bs, decide (bs.length ≠ 3), []⟩ := by
  obtain ⟨c0, c1, c2, c3, rfl⟩ := length_eq_four.1 hlen
  obtain ⟨ctx0, h0, h'⟩ := bind_eq_ok (show base64DecodeChar ⟨t, false, []⟩ c0 >>= _ = _ from h)
  obtain ⟨v0, hv0, rfl⟩ := decodeChar_short_ok (by simp) h0
  obtain ⟨ctx1, h1, h'⟩ := bind_eq_ok (show base64DecodeChar _ c1 >>= _ = _ from h')
  obtain ⟨v1, hv1, rfl⟩ := decodeChar_short_ok (by simp) h1
  obtain ⟨ctx2, h2, h'⟩ := bind_eq_ok (show base64DecodeChar _ c2 >>= _ = _ from h')
  obtain ⟨v2, hv2, rfl⟩ := decodeChar_short_ok (by simp) h2
  obtain ⟨ctx3, h3, h'⟩ := bind_eq_ok (show base64DecodeChar _ c3 >>= _ = _ from h')
  cases h'
  cases hv3 : base64.idxOf? c3 with
  | none =>
    rw [decodeChar_none hv3] at h3
    cases h3
  | some v3 =>
    simp only [nil_append, cons_append] at h3
    rw [decodeChar_fourth hv3] at h3
    obtain ⟨hle0, hget0⟩ := value_le (hnul c0 (by simp)) hv0
    obtain ⟨hle1, hget1⟩ := value_le (hnul c1 (by simp)) hv1
    obtain ⟨hle2, hget2⟩ := value_le (hnul c2 (by simp)) hv2
    obtain ⟨hle3, hget3⟩ := value_le (hnul c3 (by simp)) hv3
    obtain ⟨bs, hne, hbs, hvalues, hctx⟩ := endGroup_ok hle0 hle1 hle2 hle3 h3
    refine ⟨bs, hne, hbs, ?_, hctx⟩
    rw [groupText_eq, hvalues, map_cons, map_cons, map_cons, map_cons, map_nil, hget0, hget1, hget2, hget3]

theorem fold_ended {cs : Bytes} (h : cs.foldlM base64DecodeChar ⟨t, true, vs⟩ = .ok ctx) :
    cs = [] ∧ ctx = ⟨t, true, vs⟩ := by
  cases cs with
  | nil => exact ⟨rfl, (Except.ok.inj h).symm⟩
  | cons c cs =>
    rw [foldlM_cons, decodeChar_ended] at h
    cases h

end Fold

/-! ### Canonical texts -/

theorem canonical_group (hne : bs ≠ []) (hlen : bs.length ≤ 3) : canonical bs = groupText bs := by
  obtain ⟨a, rest, rfl⟩ := exists_cons_of_ne_nil hne
  rw [length_cons] at hlen
  rw [canonical, encodeChunks, take_of_length_le (by omega), drop_of_length_le (by omega), encodeChunks, append_nil]

theorem canonical_append (hlen : bs.length = 3) (y : Bytes) : canonical (bs ++ y) = groupText bs ++ canonical y := by
  obtain ⟨a, b, c, rfl⟩ := length_eq_three.1 hlen
  rw [canonical, cons_append, encodeChunks]
  rfl

theorem canonical_of_fold (c : Bytes) : ∀ {t : Buffer} {ctx : DecodeCtx}, (∀ x ∈ c, x ≠ 0) →
    c.foldlM base64DecodeChar ⟨t, false, []⟩ = .ok ctx → ctx.val = [] → ∃ y, c = canonical y ∧ ctx.target = t.put y := by
  induction hn : c.length using Nat.strongRecOn generalizing c with
  | ind n ih =>
    intro t ctx hnul h hval
    by_cases hshort : c.length ≤ 3
    · obtain ⟨-, -, hlen⟩ := fold_short_ok (by simpa using hshort) h
      rw [hval] at hlen
      obtain rfl : c = [] := length_eq_zero_iff.1 (by simpa using hlen.symm)
      cases h
      exact ⟨[], by simp [canonical, encodeChunks], by simp [Buffer.put]⟩
    have hsplit : c.take 4 ++ c.drop 4 = c := take_append_drop 4 c
    rw [← hsplit, foldlM_append] at h
    obtain ⟨ctx1, hgroup, hrest⟩ := bind_eq_ok h
    obtain ⟨bs, hne, hbs, htext, rfl⟩ := fold_four_ok (by rw [length_take]; omega)
      (fun x hx => hnul x (mem_of_mem_take hx)) hgroup
    by_cases hthree : bs.length = 3
    · rw [decide_eq_false (not_not.2 hthree)] at hrest
      obtain ⟨y, hy, htarget⟩ := ih (c.drop 4).length (by rw [length_drop]; omega) (c.drop 4) rfl
        (fun x hx => hnul x (mem_of_mem_drop hx)) hrest hval
      exact ⟨bs ++ y, by rw [canonical_append hthree, ← htext, ← hy, hsplit], by rw [htarget, Buffer.put_put]⟩
    rw [decide_eq_true hthree] at hrest
    obtain ⟨hnil, rfl⟩ := fold_ended hrest
    refine ⟨bs, ?_, rfl⟩
    rw [canonical_group hne hbs, ← htext, ← hsplit, hnil, append_nil, take_take, Nat.min_self]

theorem fold_canonical : ∀ (y : Bytes) (t : Buffer), y.length ≤ t.available →
    ∃ ended, (canonical y).foldlM base64DecodeChar ⟨t, false, []⟩ = .ok ⟨t.put y, ended, []⟩ := by
  intro y
  induction hn : y.length using Nat.strongRecOn generalizing y with
  | ind n ih =>
    intro t hroom
    by_cases hshort : y.length ≤ 3
    · by_cases hne : y = []
      · subst hne
        exact ⟨false, by simp [canonical, encodeChunks, Buffer.put]; rfl⟩
      · rw [canonical_group hne hshort]
        exact ⟨_, fold_groupText hne hshort (by omega)⟩
    have hthree : (y.take 3).length = 3 := by
      rw [length_take]
      omega
    have hne : y.take 3 ≠ [] := ne_nil_of_length_pos (by omega)
    obtain ⟨ended, hrest⟩ := ih (y.drop 3).length (by rw [length_drop]; omega) (y.drop 3) rfl (t.put (y.take 3))
      (by rw [Buffer.put_available, hthree, length_drop]; omega)
    refine ⟨ended, ?_⟩
    rw [← take_append_drop 3 y, canonical_append hthree, foldlM_append,
      fold_groupText hne hthree.le (by omega), ok_then, decide_eq_false (not_not.2 hthree), hrest, Buffer.put_put]

/-! ### NULs -/

/-- The decoder comes to a NUL: in front of it stand groups of four digits and then at most three digits or paddings. -/
def ReadsNul (c : Bytes) : Prop :=
  ∃ full part post, c = full ++ (part ++ 0 :: post) ∧ 4 ∣ full.length ∧ (∀ x ∈ full, IsDigit x) ∧ part.length ≤ 3 ∧
    ∀ x ∈ part, IsDigit x ∨ x = 61

/-- `base64_decode_char` stores `v` for the character `ch` of `c`. -/
def Stores (target : Buffer) (c : Bytes) (ch : UInt8) (v : ℕ) : Prop :=
  ∃ pre post ctx, c = pre ++ ch :: post ∧ pre.foldlM base64DecodeChar ⟨target, false, []⟩ = .ok ctx ∧ storedValue ctx ch = some v

/-- The decoder accepts `c` iff it is canonical, and what it stores for digits is below 64. -/
structure DecodesExactly (target : Buffer) (c : Bytes) : Prop where
  accepts : ∀ y, base64Decode c target = .ok (target.put y) ↔ c = canonical y
  output : ∀ target', base64Decode c target = .ok target' → ∃ y, target' = target.put y
  stored : ∀ ch v, Stores target c ch v → ch ≠ 61 → v < 64

section Nul

variable {t : Buffer}

/-- What stands in front of a character that is read. -/
theorem shape_of_fold (pre : Bytes) : ∀ {t : Buffer} {ctx : DecodeCtx}, (∀ x ∈ pre, x ≠ 0) →
    pre.foldlM base64DecodeChar ⟨t, false, []⟩ = .ok ctx → ctx.seenEnd = false →
    ∃ full part, pre = full ++ part ∧ 4 ∣ full.length ∧ (∀ x ∈ full, IsDigit x) ∧ part.length ≤ 3 ∧
      ∀ x ∈ part, IsDigit x ∨ x = 61 := by
  induction hn : pre.length using Nat.strongRecOn generalizing pre with
  | ind n ih =>
    intro t ctx hnul h hend
    by_cases hshort : pre.length ≤ 3
    · obtain ⟨hall, -, -⟩ := fold_short_ok (by simpa using hshort) h
      refine ⟨[], pre, rfl, by simp, by simp, hshort, fun x hx => ?_⟩
      obtain ⟨v, hv⟩ := Option.isSome_iff_exists.1 (hall x hx)
      obtain ⟨-, -, hdigit⟩ | ⟨-, hpad⟩ | ⟨-, hzero⟩ := idxOf_cases hv
      · exact .inl hdigit
      · exact .inr hpad
      · exact absurd hzero (hnul x hx)
    have hsplit : pre.take 4 ++ pre.drop 4 = pre := take_append_drop 4 pre
    rw [← hsplit, foldlM_append] at h
    obtain ⟨ctx1, hgroup, hrest⟩ := bind_eq_ok h
    obtain ⟨bs, hne, hbs, htext, rfl⟩ := fold_four_ok (by rw [length_take]; omega)
      (fun x hx => hnul x (mem_of_mem_take hx)) hgroup
    by_cases hthree : bs.length = 3
    · rw [decide_eq_false (not_not.2 hthree)] at hrest
      obtain ⟨full, part, hpre, hfour, hfull, hlen, hpart⟩ := ih (pre.drop 4).length (by rw [length_drop]; omega)
        (pre.drop 4) rfl (fun x hx => hnul x (mem_of_mem_drop hx)) hrest hend
      refine ⟨pre.take 4 ++ full, part, by rw [append_assoc, ← hpre, hsplit], ?_, ?_, hlen, hpart⟩
      · rw [length_append, length_take]
        omega
      · intro x hx
        obtain hx | hx := mem_append.1 hx
        · obtain ⟨a, b, d, rfl⟩ := length_eq_three.1 hthree
          rw [htext, groupText, show 4 - (digitsOf [a, b, d]).length = 0 from rfl, replicate_zero, append_nil] at hx
          obtain ⟨v, hv, rfl⟩ := mem_map.1 hx
          exact (base64_digit v (digitsOf_lt _ v hv)).2.1
        · exact hfull x hx
    rw [decide_eq_true hthree] at hrest
    obtain ⟨-, rfl⟩ := fold_ended hrest
    cases hend

theorem seenEnd_of_ok {ctx' : DecodeCtx} (h : base64DecodeChar ctx c = .ok ctx') : ctx.seenEnd = false := by
  cases hend : ctx.seenEnd with
  | false => rfl
  | true =>
    have hstored : storedValue ctx c = none := if_pos hend
    rw [base64DecodeChar, hstored] at h
    cases h

theorem readsNul_of_fold {c : Bytes} (pre : Bytes) : ∀ {post : Bytes} {ctx : DecodeCtx}, c = pre ++ 0 :: post →
    pre.foldlM base64DecodeChar ⟨t, false, []⟩ = .ok ctx → ctx.seenEnd = false → ReadsNul c := by
  induction hn : pre.length using Nat.strongRecOn generalizing pre with
  | ind n ih =>
    intro post ctx hc h hend
    by_cases hnul : (0 : UInt8) ∈ pre
    · obtain ⟨a, b, rfl⟩ := append_of_mem hnul
      rw [foldlM_append] at h
      obtain ⟨ctx', ha, hrest⟩ := bind_eq_ok h
      obtain ⟨ctx'', hzero, -⟩ := bind_eq_ok (show base64DecodeChar ctx' 0 >>= _ = _ from hrest)
      rw [append_assoc, cons_append] at hc
      exact ih a.length (by rw [← hn, length_append, length_cons]; omega) a rfl hc ha (seenEnd_of_ok hzero)
    · obtain ⟨full, part, rfl, hfour, hfull, hlen, hpart⟩ := shape_of_fold pre (fun x hx hz => hnul (hz ▸ hx)) h hend
      exact ⟨full, part, post, by rw [hc, append_assoc], hfour, hfull, hlen, hpart⟩

/-- The decoder reads so far. -/
theorem fold_shape (full part : Bytes) : ∀ {t : Buffer}, 4 ∣ full.length → (∀ x ∈ full, IsDigit x) → part.length ≤ 3 →
    (∀ x ∈ part, IsDigit x ∨ x = 61) → full.length ≤ t.available →
    ∃ ctx, (full ++ part).foldlM base64DecodeChar ⟨t, false, []⟩ = .ok ctx ∧ ctx.seenEnd = false := by
  induction hn : full.length using Nat.strongRecOn generalizing full with
  | ind n ih =>
    intro t hfour hfull hlen hpart hroom
    by_cases hnil : full = []
    · subst hnil
      have hall : ∀ x ∈ part, (base64.idxOf? x).isSome = true := by
        intro x hx
        obtain hdigit | rfl := hpart x hx
        · obtain ⟨v, -, hv, -⟩ := idxOf_isDigit hdigit
          rw [hv]
          rfl
        · rfl
      obtain ⟨vs, hfold⟩ := @fold_short t part [] (by simpa using hlen) hall
      exact ⟨_, hfold, rfl⟩
    have hpos : 0 < full.length := length_pos_iff.2 hnil
    have hsplit : full.take 4 ++ full.drop 4 = full := take_append_drop 4 full
    obtain ⟨c0, c1, c2, c3, hfirst⟩ := length_eq_four.1 (show (full.take 4).length = 4 by rw [length_take]; omega)
    have hdigit : ∀ x ∈ [c0, c1, c2, c3], IsDigit x := fun x hx => hfull x (mem_of_mem_take (hfirst ▸ hx))
    obtain ⟨v0, hv0, h0, -⟩ := idxOf_isDigit (hdigit c0 (by simp))
    obtain ⟨v1, hv1, h1, -⟩ := idxOf_isDigit (hdigit c1 (by simp))
    obtain ⟨v2, hv2, h2, -⟩ := idxOf_isDigit (hdigit c2 (by simp))
    obtain ⟨v3, hv3, h3, -⟩ := idxOf_isDigit (hdigit c3 (by simp))
    have hthree : significant v0 v1 v2 v3 = .ok 3 := by
      rw [significant_ok_iff]
      omega
    have hgroup : endGroup t v0 v1 v2 v3 = .ok ⟨t.put (bytesOf v0 v1 (unpad 3 v2) (unpad 3 v3)), false, []⟩ := by
      rw [endGroup, hthree, ok_then, memTobuffer_ok (show _ ≤ t.available from le_trans (by rw [length_take]; exact min_le_left _ _)
        (by omega : 3 ≤ t.available))]
      rfl
    obtain ⟨ctx, hrest, hend⟩ := ih (full.drop 4).length (by rw [length_drop]; omega) (full.drop 4) rfl
      (t := t.put (bytesOf v0 v1 (unpad 3 v2) (unpad 3 v3))) (by rw [length_drop]; omega)
      (fun x hx => hfull x (mem_of_mem_drop hx)) hlen hpart
      (by rw [Buffer.put_available, length_drop, show (bytesOf v0 v1 (unpad 3 v2) (unpad 3 v3)).length = 3 from rfl]; omega)
    refine ⟨ctx, ?_, hend⟩
    rw [← hsplit, append_assoc, foldlM_append, hfirst, fold_four h0 h1 h2 h3, hgroup, ok_then, hrest]

theorem base64Decode_ok {c : Bytes} {target : Buffer} (h : base64Decode c t = .ok target) :
    ∃ ctx, c.foldlM base64DecodeChar ⟨t, false, []⟩ = .ok ctx ∧ ctx.val = [] ∧ ctx.target = target := by
  obtain ⟨ctx, hfold, hend⟩ := bind_eq_ok h
  split at hend
  · cases hend
  · next hval => exact ⟨ctx, hfold, length_eq_zero_iff.1 (not_not.1 hval), Except.ok.inj hend⟩

theorem readsNul_of_ok {c : Bytes} (hfold : c.foldlM base64DecodeChar ⟨t, false, []⟩ = .ok ctx)
    (hnul : (0 : UInt8) ∈ c) : ReadsNul c := by
  obtain ⟨pre, post, rfl⟩ := append_of_mem hnul
  rw [foldlM_append] at hfold
  obtain ⟨ctx', hpre, hrest⟩ := bind_eq_ok hfold
  obtain ⟨ctx'', hzero, -⟩ := bind_eq_ok (show base64DecodeChar ctx' 0 >>= _ = _ from hrest)
  exact readsNul_of_fold pre rfl hpre (seenEnd_of_ok hzero)

theorem put_inj {a b : Bytes} (h : t.put a = t.put b) : a = b := append_cancel_left (congrArg Buffer.data h)

theorem groupText_length (hne : bs ≠ []) (hlen : bs.length ≤ 3) : (groupText bs).length = 4 := by
  rw [groupText_eq, length_map, valuesOf_length hne hlen]

/-- A text is at least as long as its data. -/
theorem length_le_canonical (y : Bytes) : y.length ≤ (canonical y).length := by
  induction hn : y.length using Nat.strongRecOn generalizing y with
  | ind n ih =>
    by_cases hne : y = []
    · subst hne
      simp [← hn]
    by_cases hshort : y.length ≤ 3
    · rw [canonical_group hne hshort, groupText_length hne hshort]
      omega
    have hthree : (y.take 3).length = 3 := by
      rw [length_take]
      omega
    have hrest := ih (y.drop 3).length (by rw [length_drop]; omega) (y.drop 3) rfl
    rw [← take_append_drop 3 y, canonical_append hthree, length_append,
      groupText_length (ne_nil_of_length_pos (by omega)) hthree.le]
    rw [length_drop] at hrest
    omega

/-- **Base64 exactly.**  With space enough the decoder accepts just the canonical texts and stores just digits iff it does not
come to a NUL. -/
theorem decodesExactly_iff {target : Buffer} {c : Bytes} (hroom : c.length ≤ target.available) :
    DecodesExactly target c ↔ ¬ReadsNul c := by
  constructor
  · rintro h ⟨full, part, post, rfl, hfour, hfull, hlen, hpart⟩
    obtain ⟨ctx, hfold, hend⟩ := @fold_shape full part target hfour hfull hlen hpart
      (by rw [length_append] at hroom; omega)
    have hstored : storedValue ctx 0 = some 65 := by
      rw [storedValue, hend, if_neg (by simp)]
      exact idxOf_nul
    exact absurd (h.stored 0 65 ⟨full ++ part, post, ctx, by rw [append_assoc], hfold, hstored⟩ (by decide)) (by decide)
  · intro hread
    have haccept : ∀ target', base64Decode c target = .ok target' → ∃ y, c = canonical y ∧ target' = target.put y := by
      intro target' h
      obtain ⟨ctx, hfold, hval, rfl⟩ := base64Decode_ok h
      exact canonical_of_fold c (fun x hx hz => hread (readsNul_of_ok hfold (hz ▸ hx))) hfold hval
    refine ⟨fun y => ⟨fun h => ?_, fun h => ?_⟩, fun target' h => ?_, fun ch v h hpad => ?_⟩
    · obtain ⟨y', hc, hput⟩ := haccept _ h
      rw [hc, put_inj hput]
    · have hlen := length_le_canonical y
      rw [← h] at hlen
      obtain ⟨ended, hfold⟩ := fold_canonical y target (by omega)
      rw [base64Decode, h, hfold]
      rfl
    · obtain ⟨y, -, hput⟩ := haccept _ h
      exact ⟨y, hput⟩
    · obtain ⟨pre, post, ctx, hc, hfold, hstored⟩ := h
      have hend : ctx.seenEnd = false := by
        cases hend : ctx.seenEnd with
        | false => rfl
        | true =>
          rw [storedValue, hend, if_pos rfl] at hstored
          cases hstored
      rw [storedValue, hend, if_neg (by simp)] at hstored
      obtain ⟨hlt, -⟩ | ⟨-, hc'⟩ | ⟨-, hc'⟩ := idxOf_cases hstored
      · exact hlt
      · exact absurd hc' hpad
      · rw [hc'] at hc
        exact absurd (readsNul_of_fold pre hc hfold hend) hread

end Nul

/-! ### The round trip -/

/-- What is written is read back. -/
def RoundTrips (x : Bytes) (wordlength : ℤ) (wordbreak : Bytes) : Prop :=
  ∃ text, (∀ target : Buffer, text.length ≤ target.available → base64Totext x wordlength wordbreak target = .ok (target.put text)) ∧
    ∀ target : Buffer, x.length ≤ target.available → base64Decodestring text target = .ok (target.put x)

theorem groupText_plain (bs : Bytes) : ∀ c ∈ groupText bs, c ≠ 0 ∧ isWhite c = false := by
  intro c hc
  obtain hc | hc := mem_append.1 hc
  · obtain ⟨v, hv, rfl⟩ := mem_map.1 hc
    have hdigit := base64_digit v (digitsOf_lt bs v hv)
    exact ⟨hdigit.2.2.1, hdigit.2.2.2.2⟩
  · rw [eq_of_mem_replicate hc]
    decide

theorem roundTrips (x : Bytes) (wordlength : ℤ) {wordbreak : Bytes} (hbreak : ∀ c ∈ wordbreak, isWhite c = true) :
    RoundTrips x wordlength wordbreak := by
  obtain ⟨full, hfull⟩ : ∃ full, ∀ target, base64Totext x wordlength wordbreak target = totextLoop 2 groupText full wordbreak 0 x target :=
    ⟨_, fun _ => rfl⟩
  refine ⟨wrapped 2 groupText full wordbreak 0 x, fun target hroom => ?_, fun target hroom => ?_⟩
  · rw [hfull]
    exact totextLoop_ok _ _ _ hroom
  · obtain ⟨ended, hfold⟩ := fold_canonical x target hroom
    rw [base64Decodestring, decodeString_wrapped _ hbreak groupText_plain, ← canonical, hfold]
    rfl

end Bind9.Base64
