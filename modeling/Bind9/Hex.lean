import Bind9.Base64

/-! # Hex, and the texts that are accepted

`isc_hex_totext`, `hex_decode_char`, the final digit check and `isc_hex_decodestring` of `lib/isc/hex.c`, without a desired
length.  As in base64 a NUL is found in the C string of the digits and counts as the digit 16. -/

namespace Bind9.Hex

open List

open BaseText Chunks

def badhex : Result := .other 49

/-- `hex`, with its terminating NUL. -/
def hex : Bytes :=
  ['0', '1', '2', '3', '4', '5', '6', '7', '8', '9', 'A', 'B', 'C', 'D', 'E', 'F'].map (fun c => UInt8.ofNat c.toNat) ++ [0]

/-! ### Decoding -/

/-- `hex_decode_ctx_t`; the desired length is -1. -/
structure DecodeCtx where
  target : Buffer
  val : List ℕ

/-- The value that `hex_decode_char` stores in `val` for a character. -/
def storedValue (c : UInt8) : Option ℕ := hex.idxOf? (toupper c)

def hexDecodeChar (ctx : DecodeCtx) (c : UInt8) : Exec DecodeCtx :=
  match storedValue c with
  | none => stop badhex
  | some v =>
    match ctx.val with
    | [v0] => do
      let target ← memTobuffer ctx.target [UInt8.ofNat (v0 <<< 4 + v)]
      pure ⟨target, []⟩
    | val => .ok { ctx with val := val ++ [v] }

/-- `hex_decode_char` on one character after the other and the final digit check. -/
def hexDecode (c : Bytes) (target : Buffer) : Exec Buffer := do
  let ctx ← c.foldlM hexDecodeChar ⟨target, []⟩
  if ctx.val.length ≠ 0 then stop badhex else pure ctx.target

def hexDecodestring (cstr : Bytes) (target : Buffer) : Exec Buffer := do
  let ctx ← decodeString hexDecodeChar ⟨target, []⟩ cstr
  if ctx.val.length ≠ 0 then stop badhex else pure ctx.target

/-! ### Encoding -/

def byteText (a : UInt8) : Bytes := [hex.getD (a.toNat >>> 4 &&& 0xf) 0, hex.getD (a.toNat &&& 0xf) 0]

def hexTotext (source : Bytes) (wordlength : ℤ) (wordbreak : Bytes) (target : Buffer) : Exec Buffer :=
  let wordlength := if wordlength < 2 then 2 else wordlength
  totextLoop 0 (fun bs => bs.flatMap byteText) (wordFull 2 wordlength) wordbreak 0 source target

/-- The text in capital letters. -/
def hexText (y : Bytes) : Bytes := y.flatMap byteText

def IsDigit (c : UInt8) : Prop := toupper c ∈ hex.take 16

instance (c : UInt8) : Decidable (IsDigit c) := inferInstanceAs (Decidable (_ ∈ _))

/-! ### Digits -/

theorem hex_digit : ∀ v < 16, storedValue (hex.getD v 0) = some v ∧ toupper (hex.getD v 0) = hex.getD v 0 ∧ hex.getD v 0 ≠ 0 ∧
    isWhite (hex.getD v 0) = false := by
  decide +kernel

variable {c : UInt8}

theorem toupper_eq_zero (h : toupper c = 0) : c = 0 := by
  unfold toupper at h
  split at h
  · next hc =>
      have := UInt8.le_iff_toNat_le.1 hc.1
      have hz := congrArg UInt8.toNat h
      rw [UInt8.toNat_sub_of_le _ _ (by rw [UInt8.le_iff_toNat_le]; exact le_trans (by decide) this)] at hz
      have h97 : (97 : UInt8).toNat = 97 := rfl
      have h32 : (32 : UInt8).toNat = 32 := rfl
      have h0 : (0 : UInt8).toNat = 0 := rfl
      omega
  · exact h

theorem storedValue_zero : storedValue 0 = some 16 := by decide

/-- A character that is found is a digit or NUL. -/
theorem storedValue_cases {v : ℕ} (h : storedValue c = some v) :
    (v < 16 ∧ hex.getD v 0 = toupper c ∧ IsDigit c) ∨ (v = 16 ∧ c = 0) := by
  obtain ⟨hv, hc, -⟩ := idxOf?_eq_some_iff.1 h
  have hget : hex.getD v 0 = toupper c := by rw [getD_eq_getElem?_getD, getElem?_eq_getElem hv, Option.getD_some, hc]
  have hlen : v < 17 := hv
  obtain hlt | rfl : v < 16 ∨ v = 16 := by omega
  · have hmem : hex[v] ∈ hex.take 16 := mem_iff_getElem.2 ⟨v, hlt, getElem_take⟩
    exact .inl ⟨hlt, hget, by rw [IsDigit, ← hc]; exact hmem⟩
  · exact .inr ⟨rfl, toupper_eq_zero hget.symm⟩

theorem storedValue_isDigit (h : IsDigit c) : ∃ v < 16, storedValue c = some v := by
  obtain ⟨v, hv, hc⟩ := mem_iff_getElem.1 h
  have hlt : v < 16 := hv
  have hget : hex.getD v 0 = toupper c := by
    rw [getD_eq_getElem?_getD, ← hc, getElem_take, getElem?_eq_getElem, Option.getD_some]
  refine ⟨v, hlt, ?_⟩
  have hdigit := hex_digit v hlt
  rw [storedValue, ← hget, ← hdigit.2.1]
  exact hdigit.1

theorem digit_div (n : ℕ) : n >>> 4 &&& 0xf = n / 16 % 16 := shiftRight_and n 4 4

theorem digit_mod (n : ℕ) : n &&& 0xf = n % 16 := Nat.and_two_pow_sub_one_eq_mod n 4

theorem byteText_eq (a : UInt8) : byteText a = [hex.getD (a.toNat / 16 % 16) 0, hex.getD (a.toNat % 16) 0] := by
  rw [byteText, digit_div, digit_mod]

theorem hexText_cons (a : UInt8) (y : Bytes) : hexText (a :: y) = byteText a ++ hexText y := rfl

theorem hexText_length (y : Bytes) : (hexText y).length = 2 * y.length := by
  induction y with
  | nil => rfl
  | cons a y ih =>
    rw [hexText_cons, length_append, ih, length_cons, show (byteText a).length = 2 from rfl]
    omega

theorem encodeChunks_byteText (y : Bytes) : encodeChunks 0 (fun bs => bs.flatMap byteText) y = hexText y := by
  induction y with
  | nil => simp [encodeChunks, hexText]
  | cons a y ih =>
    rw [encodeChunks, take_zero, drop_zero, ih]
    simp [hexText]

theorem byteText_plain (a : UInt8) : ∀ c ∈ byteText a, c ≠ 0 ∧ isWhite c = false := by
  rw [byteText_eq, forall_mem_cons, forall_mem_singleton]
  exact ⟨(hex_digit _ (Nat.mod_lt _ (by decide))).2.2, (hex_digit _ (Nat.mod_lt _ (by decide))).2.2⟩

/-! ### Pairs of characters -/

section Fold

variable {t : Buffer}

theorem decodeChar_first {v : ℕ} (hv : storedValue c = some v) : hexDecodeChar ⟨t, []⟩ c = .ok ⟨t, [v]⟩ := by
  rw [hexDecodeChar, hv]
  rfl

theorem decodeChar_second {v0 v : ℕ} (hv : storedValue c = some v) :
    hexDecodeChar ⟨t, [v0]⟩ c = (memTobuffer t [UInt8.ofNat (v0 * 16 + v)] >>= fun target => pure ⟨target, []⟩) := by
  rw [hexDecodeChar, hv, show v0 * 16 = v0 <<< 4 from (Nat.shiftLeft_eq v0 4).symm]

theorem decodeChar_none {ctx : DecodeCtx} (hv : storedValue c = none) : hexDecodeChar ctx c = stop badhex := by
  rw [hexDecodeChar, hv]

theorem storedValue_of_ok {ctx ctx' : DecodeCtx} (h : hexDecodeChar ctx c = .ok ctx') : ∃ v, storedValue c = some v := by
  cases hv : storedValue c with
  | none =>
    rw [decodeChar_none hv] at h
    cases h
  | some v => exact ⟨v, rfl⟩

theorem byte_chars {c0 c1 : UInt8} {v0 v1 : ℕ} (h₀ : v0 < 16) (h1 : v1 < 16) (e0 : hex.getD v0 0 = toupper c0)
    (e1 : hex.getD v1 0 = toupper c1) : [toupper c0, toupper c1] = byteText (UInt8.ofNat (v0 * 16 + v1)) := by
  have hb : (UInt8.ofNat (v0 * 16 + v1)).toNat = v0 * 16 + v1 := Base64.toNat_byte (by omega)
  rw [byteText_eq, hb, ← e0, ← e1, show (v0 * 16 + v1) / 16 % 16 = v0 by omega, show (v0 * 16 + v1) % 16 = v1 by omega]

theorem hexText_of_fold : ∀ (c : Bytes) {t : Buffer} {ctx : DecodeCtx}, (∀ x ∈ c, x ≠ 0) →
    c.foldlM hexDecodeChar ⟨t, []⟩ = .ok ctx → ctx.val = [] → ∃ y, c.map toupper = hexText y ∧ ctx.target = t.put y
  | [], t, ctx, _, h, _ => by
    cases h
    exact ⟨[], rfl, by simp [Buffer.put]⟩
  | [c0], t, ctx, _, h, hval => by
    obtain ⟨ctx0, h₀, h⟩ := bind_eq_ok (show hexDecodeChar ⟨t, []⟩ c0 >>= _ = _ from h)
    obtain ⟨v0, hv0⟩ := storedValue_of_ok h₀
    rw [decodeChar_first hv0] at h₀
    cases h₀
    cases h
    cases hval
  | c0 :: c1 :: c, t, ctx, hnul, h, hval => by
    obtain ⟨hc0, hnul⟩ := forall_mem_cons.1 hnul
    obtain ⟨hc1, hnul⟩ := forall_mem_cons.1 hnul
    obtain ⟨ctx0, h₀, h⟩ := bind_eq_ok (show hexDecodeChar ⟨t, []⟩ c0 >>= _ = _ from h)
    obtain ⟨v0, hv0⟩ := storedValue_of_ok h₀
    rw [decodeChar_first hv0] at h₀
    cases h₀
    obtain ⟨ctx1, h1, h⟩ := bind_eq_ok (show hexDecodeChar _ c1 >>= _ = _ from h)
    obtain ⟨v1, hv1⟩ := storedValue_of_ok h1
    rw [decodeChar_second hv1] at h1
    obtain ⟨target, htarget, h1⟩ := bind_eq_ok h1
    cases h1
    rw [memTobuffer_eq_ok htarget] at h
    obtain ⟨hlt0, hget0, -⟩ | ⟨-, hz⟩ := storedValue_cases hv0
    · obtain ⟨hlt1, hget1, -⟩ | ⟨-, hz⟩ := storedValue_cases hv1
      · obtain ⟨y, hy, hput⟩ := hexText_of_fold c hnul h hval
        refine ⟨UInt8.ofNat (v0 * 16 + v1) :: y, ?_, by rw [hput, Buffer.put_put]; rfl⟩
        rw [map_cons, map_cons, hy, hexText_cons, ← byte_chars hlt0 hlt1 hget0 hget1]
        rfl
      · exact absurd hz hc1
    · exact absurd hz hc0

theorem fold_hexText : ∀ (y c : Bytes) (t : Buffer), c.map toupper = hexText y → y.length ≤ t.available →
    c.foldlM hexDecodeChar ⟨t, []⟩ = .ok ⟨t.put y, []⟩ := by
  intro y
  induction y with
  | nil =>
    intro c t hc _
    obtain rfl : c = [] := map_eq_nil_iff.1 hc
    simp [Buffer.put]
    rfl
  | cons a y ih =>
    intro c t hc hroom
    rw [hexText, flatMap_cons, byteText_eq] at hc
    obtain ⟨c0, c, rfl, e0, hc⟩ := map_eq_cons_iff.1 hc
    obtain ⟨c1, c, rfl, e1, hc⟩ := map_eq_cons_iff.1 hc
    have ha := a.toNat_lt
    rw [length_cons] at hroom
    have hvalue : ∀ v < 16, ∀ x, toupper x = hex.getD v 0 → storedValue x = some v := by
      intro v hv x hx
      have hdigit := hex_digit v hv
      rw [storedValue, hx, ← hdigit.2.1]
      exact hdigit.1
    have hbyte : UInt8.ofNat (a.toNat / 16 % 16 * 16 + a.toNat % 16) = a :=
      (Base64.ofNat_congr (by omega)).trans a.ofNat_toNat
    rw [foldlM_cons, decodeChar_first (hvalue _ (Nat.mod_lt _ (by decide)) c0 e0), ok_then, foldlM_cons,
      decodeChar_second (hvalue _ (Nat.mod_lt _ (by decide)) c1 e1), hbyte,
      memTobuffer_ok (by rw [length_singleton]; omega), ok_then]
    show c.foldlM hexDecodeChar ⟨t.put [a], []⟩ = _
    rw [ih c (t.put [a]) hc (by rw [Buffer.put_available, length_singleton]; omega), Buffer.put_put]
    rfl

end Fold

/-! ### NULs -/

/-- The decoder comes to a NUL: only digits stand in front of it. -/
def ReadsNul (c : Bytes) : Prop := ∃ pre post, c = pre ++ 0 :: post ∧ ∀ x ∈ pre, IsDigit x

/-- `hex_decode_char` stores `v` for a character of `c`. -/
def Stores (target : Buffer) (c : Bytes) (v : ℕ) : Prop :=
  ∃ pre ch post ctx, c = pre ++ ch :: post ∧ pre.foldlM hexDecodeChar ⟨target, []⟩ = .ok ctx ∧ storedValue ch = some v

/-- The decoder accepts `c` iff it is hexadecimal, and what it stores is below 16. -/
structure DecodesExactly (target : Buffer) (c : Bytes) : Prop where
  accepts : ∀ y, hexDecode c target = .ok (target.put y) ↔ c.map toupper = hexText y
  output : ∀ target', hexDecode c target = .ok target' → ∃ y, target' = target.put y
  stored : ∀ v, Stores target c v → v < 16

section Nul

variable {t : Buffer}

theorem fold_digits : ∀ (pre : Bytes) {t : Buffer}, (∀ x ∈ pre, IsDigit x) → pre.length ≤ t.available →
    ∃ ctx, pre.foldlM hexDecodeChar ⟨t, []⟩ = .ok ctx
  | [], t, _, _ => ⟨_, rfl⟩
  | [c0], t, h, _ => by
    obtain ⟨v0, -, hv0⟩ := storedValue_isDigit (h c0 (by simp))
    exact ⟨⟨t, [v0]⟩, by rw [foldlM_cons, decodeChar_first hv0]; rfl⟩
  | c0 :: c1 :: pre, t, h, hroom => by
    obtain ⟨v0, -, hv0⟩ := storedValue_isDigit (h c0 (by simp))
    obtain ⟨v1, -, hv1⟩ := storedValue_isDigit (h c1 (by simp))
    rw [length_cons, length_cons] at hroom
    obtain ⟨ctx, hctx⟩ := fold_digits pre (t := t.put [UInt8.ofNat (v0 * 16 + v1)])
      (fun x hx => h x (mem_cons_of_mem _ (mem_cons_of_mem _ hx)))
      (by rw [Buffer.put_available, length_singleton]; omega)
    refine ⟨ctx, ?_⟩
    rw [foldlM_cons, decodeChar_first hv0, ok_then, foldlM_cons, decodeChar_second hv1,
      memTobuffer_ok (by rw [length_singleton]; omega), ok_then]
    exact hctx

theorem isDigit_of_fold : ∀ {pre : Bytes} {ctx ctx' : DecodeCtx}, (∀ x ∈ pre, x ≠ 0) →
    pre.foldlM hexDecodeChar ctx = .ok ctx' → ∀ x ∈ pre, IsDigit x := by
  intro pre
  induction pre with
  | nil => simp
  | cons c pre ih =>
    intro ctx ctx' hnul h
    obtain ⟨hc, hnul⟩ := forall_mem_cons.1 hnul
    obtain ⟨ctx1, hchar, hrest⟩ := bind_eq_ok (show hexDecodeChar ctx c >>= _ = _ from h)
    obtain ⟨v, hv⟩ := storedValue_of_ok hchar
    rw [forall_mem_cons]
    obtain ⟨-, -, hdigit⟩ | ⟨-, hz⟩ := storedValue_cases hv
    · exact ⟨hdigit, ih hnul hrest⟩
    · exact absurd hz hc

theorem readsNul_of_fold {c : Bytes} (pre : Bytes) : ∀ {post : Bytes} {ctx : DecodeCtx}, c = pre ++ 0 :: post →
    pre.foldlM hexDecodeChar ⟨t, []⟩ = .ok ctx → ReadsNul c := by
  induction hn : pre.length using Nat.strongRecOn generalizing pre with
  | ind n ih =>
    intro post ctx hc h
    by_cases hnul : (0 : UInt8) ∈ pre
    · obtain ⟨a, b, rfl⟩ := append_of_mem hnul
      rw [foldlM_append] at h
      obtain ⟨ctx', ha, -⟩ := bind_eq_ok h
      rw [append_assoc, cons_append] at hc
      exact ih a.length (by rw [← hn, length_append, length_cons]; omega) a rfl hc ha
    · exact ⟨pre, post, hc, isDigit_of_fold (fun x hx hz => hnul (hz ▸ hx)) h⟩

/-- **Hex exactly.**  With space enough the decoder accepts just the hexadecimal texts and stores just digits iff it does not
come to a NUL. -/
theorem decodesExactly_iff {target : Buffer} {c : Bytes} (hroom : c.length ≤ target.available) :
    DecodesExactly target c ↔ ¬ReadsNul c := by
  constructor
  · rintro h ⟨pre, post, rfl, hpre⟩
    obtain ⟨ctx, hfold⟩ := @fold_digits pre target hpre (by rw [length_append] at hroom; omega)
    exact absurd (h.stored 16 ⟨pre, 0, post, ctx, rfl, hfold, storedValue_zero⟩) (by decide)
  · intro hread
    have haccept : ∀ target', hexDecode c target = .ok target' → ∃ y, c.map toupper = hexText y ∧ target' = target.put y := by
      intro target' h
      obtain ⟨ctx, hfold, hend⟩ := bind_eq_ok h
      split at hend
      · cases hend
      next hval =>
        cases hend
        refine hexText_of_fold c (fun x hx hz => ?_) hfold (length_eq_zero_iff.1 (not_not.1 hval))
        obtain ⟨pre, post, rfl⟩ := append_of_mem (hz ▸ hx)
        rw [foldlM_append] at hfold
        obtain ⟨ctx', hpre, -⟩ := bind_eq_ok hfold
        exact hread (readsNul_of_fold pre rfl hpre)
    refine ⟨fun y => ⟨fun h => ?_, fun h => ?_⟩, fun target' h => ?_, fun v h => ?_⟩
    · obtain ⟨y', hc, hput⟩ := haccept _ h
      rw [hc, Base64.put_inj hput]
    · have hlen := congrArg List.length h
      rw [length_map, hexText_length] at hlen
      rw [hexDecode, fold_hexText y c target h (by omega)]
      rfl
    · obtain ⟨y, -, hput⟩ := haccept _ h
      exact ⟨y, hput⟩
    · obtain ⟨pre, ch, post, ctx, hc, hfold, hstored⟩ := h
      obtain ⟨hlt, -⟩ | ⟨-, hz⟩ := storedValue_cases hstored
      · exact hlt
      · rw [hz] at hc
        exact absurd (readsNul_of_fold pre hc hfold) hread

end Nul

/-! ### The round trip -/

/-- What is written is read back. -/
def RoundTrips (x : Bytes) (wordlength : ℤ) (wordbreak : Bytes) : Prop :=
  ∃ text, (∀ target : Buffer, text.length ≤ target.available → hexTotext x wordlength wordbreak target = .ok (target.put text)) ∧
    ∀ target : Buffer, x.length ≤ target.available → hexDecodestring text target = .ok (target.put x)

theorem hexText_toupper (y : Bytes) : (hexText y).map toupper = hexText y := by
  induction y with
  | nil => rfl
  | cons a y ih =>
    rw [hexText_cons, map_append, ih, byteText_eq, map_cons, map_singleton,
      (hex_digit _ (Nat.mod_lt _ (by decide))).2.1, (hex_digit _ (Nat.mod_lt _ (by decide))).2.1]

theorem roundTrips (x : Bytes) (wordlength : ℤ) {wordbreak : Bytes} (hbreak : ∀ c ∈ wordbreak, isWhite c = true) :
    RoundTrips x wordlength wordbreak := by
  obtain ⟨full, hfull⟩ : ∃ full, ∀ target, hexTotext x wordlength wordbreak target =
      totextLoop 0 (fun bs => bs.flatMap byteText) full wordbreak 0 x target := ⟨_, fun _ => rfl⟩
  have hplain : ∀ l : Bytes, ∀ c ∈ l.flatMap byteText, c ≠ 0 ∧ isWhite c = false := by
    intro l c hc
    obtain ⟨a, -, ha⟩ := mem_flatMap.1 hc
    exact byteText_plain a c ha
  refine ⟨wrapped 0 (fun bs => bs.flatMap byteText) full wordbreak 0 x, fun target hroom => ?_, fun target hroom => ?_⟩
  · rw [hfull]
    exact totextLoop_ok _ _ _ hroom
  · rw [hexDecodestring, decodeString_wrapped _ hbreak hplain, encodeChunks_byteText,
      fold_hexText x _ target (hexText_toupper x) hroom]
    rfl

/-- **Base64 and hex exactly.**  With space enough either decoder accepts just the texts of its output and stores just digits
iff it does not come to a NUL; what is written with breaks of white space is read back. -/
theorem base_texts (c : Bytes) (target : Buffer) (hroom : c.length ≤ target.available) (x : Bytes) (wordlength : ℤ)
    (wordbreak : Bytes) (hbreak : ∀ b ∈ wordbreak, isWhite b = true) :
    (Base64.DecodesExactly target c ↔ ¬Base64.ReadsNul c) ∧ (DecodesExactly target c ↔ ¬ReadsNul c) ∧
      Base64.RoundTrips x wordlength wordbreak ∧ RoundTrips x wordlength wordbreak :=
  ⟨Base64.decodesExactly_iff hroom, decodesExactly_iff hroom, Base64.roundTrips x wordlength hbreak, roundTrips x wordlength hbreak⟩

/-- The text `4142`, read by both decoders, and the byte `A`, with breaks of a blank. -/
theorem base_texts_plain : Base64.DecodesExactly ⟨[], 10⟩ [52, 49, 52, 50] ∧ DecodesExactly ⟨[], 10⟩ [52, 49, 52, 50] ∧
    Base64.RoundTrips [65] 1 [32] ∧ RoundTrips [65] 1 [32] := by
  have hnul : ∀ (pre post : Bytes), [52, 49, 52, 50] ≠ pre ++ 0 :: post := by
    intro pre post h
    have hmem : (0 : UInt8) ∈ [52, 49, 52, 50] := by
      rw [h]
      simp
    exact absurd hmem (by decide)
  obtain ⟨h64, h16, hr64, hr16⟩ := base_texts [52, 49, 52, 50] ⟨[], 10⟩ (by decide) [65] 1 [32] (by simp [isWhite])
  refine ⟨h64.2 ?_, h16.2 ?_, hr64, hr16⟩
  · rintro ⟨full, part, post, h, -⟩
    rw [← append_assoc] at h
    exact hnul _ _ h
  · rintro ⟨pre, post, h, -⟩
    exact hnul _ _ h

/-- `AAA` and a NUL in base64, `4` and a NUL in hex: both are accepted, and neither is the text of its output. -/
theorem base_texts_nul : Base64.base64Decode [65, 65, 65, 0] ⟨[], 10⟩ = .ok ⟨[0, 0, 65], 10⟩ ∧
    [65, 65, 65, 0] ≠ Base64.canonical [0, 0, 65] ∧ ¬Base64.DecodesExactly ⟨[], 10⟩ [65, 65, 65, 0] ∧
    hexDecode [52, 0] ⟨[], 10⟩ = .ok ⟨[80], 10⟩ ∧ [52, 0].map toupper ≠ hexText [80] ∧ ¬DecodesExactly ⟨[], 10⟩ [52, 0] := by
  have h64 : Base64.base64Decode [65, 65, 65, 0] ⟨[], 10⟩ = .ok ⟨[0, 0, 65], 10⟩ := by decide +kernel
  have h16 : hexDecode [52, 0] ⟨[], 10⟩ = .ok ⟨[80], 10⟩ := by decide +kernel
  have hne64 : [65, 65, 65, 0] ≠ Base64.canonical [0, 0, 65] := by decide +kernel
  have hne16 : [52, 0].map toupper ≠ hexText [80] := by decide +kernel
  exact ⟨h64, hne64, fun h => hne64 ((h.accepts [0, 0, 65]).1 h64), h16, hne16, fun h => hne16 ((h.accepts [80]).1 h16)⟩

end Bind9.Hex
