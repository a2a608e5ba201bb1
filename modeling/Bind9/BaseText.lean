import Mathlib.Data.List.TakeWhile
import Bind9.Lib.Chunks
import Bind9.Region

/-! # Data as text: what base32, base64 and hex share

`isc_base32_totext`, `isc_base64_totext` and `isc_hex_totext` write the text of one group of bytes after the other and a
break between two groups where the word is full; their decoders of strings skip white space up to the terminating NUL. -/

namespace Bind9.BaseText

open List

open Chunks

/-- `str_totext` of a string without NUL. -/
def strTotext (source : Bytes) (target : Buffer) : Exec Buffer :=
  if target.available < source.length then stop .nospace else .ok (target.put source)

/-- The characters that the decoders of strings skip. -/
def isWhite (c : UInt8) : Bool := c == 32 || c == 9 || c == 10 || c == 13

/-- `(int)((loops + 1) * size) >= wordlength`, where `loops` is an `unsigned int`. -/
def wordFull (size : ℕ) (wordlength : ℤ) (loops : ℕ) : Bool :=
  decide (wordlength ≤ (((loops + 1) * size : ℕ) : ℤ).bmod (2 ^ 32))

/-- The loops of the three encoders: groups of `k + 1` bytes; `full` decides after `loops` groups whether a break follows if
there are more bytes. -/
def totextLoop (k : ℕ) (group : Bytes → Bytes) (full : ℕ → Bool) (wordbreak : Bytes) :
    ℕ → Bytes → Buffer → Exec Buffer
  | _, [], target => .ok target
  | loops, a :: rest, target => do
    let target ← strTotext (group (a :: rest.take k)) target
    if rest.drop k = [] then pure target
    else if full (loops + 1) then do
      let target ← strTotext wordbreak target
      totextLoop k group full wordbreak 0 (rest.drop k) target
    else totextLoop k group full wordbreak (loops + 1) (rest.drop k) target
termination_by _ source => source.length

def decodeString {σ : Type} (decodeChar : σ → UInt8 → Exec σ) (ctx : σ) (cstr : Bytes) : Exec σ :=
  (cstr.takeWhile (· != 0)).foldlM (fun ctx c => if isWhite c then pure ctx else decodeChar ctx c) ctx

section Loop

variable {k : ℕ} {group : Bytes → Bytes} {full : ℕ → Bool} {wordbreak : Bytes}

theorem strTotext_ok {source : Bytes} {target : Buffer} (h : source.length ≤ target.available) :
    strTotext source target = .ok (target.put source) := by
  rw [strTotext, if_neg (by omega)]

theorem totextLoop_ok (loops : ℕ) (source : Bytes) : ∀ target : Buffer,
    (wrapped k group full wordbreak loops source).length ≤ target.available →
    totextLoop k group full wordbreak loops source target = .ok (target.put (wrapped k group full wordbreak loops source)) := by
  induction loops, source using wrapped.induct k with
  | case1 loops =>
    intro target _
    simp [totextLoop, wrapped, Buffer.put]
  | case2 loops a rest ih0 ih1 =>
    intro target hroom
    rw [wrapped] at hroom ⊢
    rw [length_append] at hroom
    rw [totextLoop, strTotext_ok (by omega), ok_then]
    by_cases hnil : rest.drop k = []
    · rw [if_pos hnil, if_pos hnil, append_nil]
      rfl
    rw [if_neg hnil] at hroom
    rw [if_neg hnil, if_neg hnil]
    by_cases hfull : full (loops + 1) = true
    · rw [if_pos hfull, length_append] at hroom
      rw [if_pos hfull, if_pos hfull, strTotext_ok (by rw [Buffer.put_available]; omega), ok_then, ih0 _ ?_]
      · rw [Buffer.put_put, Buffer.put_put]
      · rw [Buffer.put_available, Buffer.put_available]
        omega
    rw [if_neg hfull] at hroom
    rw [if_neg hfull, if_neg hfull, ih1 _ ?_]
    · rw [Buffer.put_put]
    · rw [Buffer.put_available]
      omega

theorem decodeString_filter {σ : Type} (decodeChar : σ → UInt8 → Exec σ) {cstr : Bytes} (h : ∀ c ∈ cstr, c ≠ 0) :
    ∀ ctx : σ, decodeString decodeChar ctx cstr = (cstr.filter (fun c => !isWhite c)).foldlM decodeChar ctx := by
  have hwhole : cstr.takeWhile (· != 0) = cstr := takeWhile_eq_self_iff.2 (fun c hc => by simpa using h c hc)
  unfold decodeString
  rw [hwhole]
  clear hwhole h
  induction cstr with
  | nil => exact fun ctx => rfl
  | cons c cstr ih =>
    intro ctx
    rw [foldlM_cons, filter_cons]
    cases hc : isWhite c with
    | true =>
      simp only [if_true, Bool.not_true, Bool.false_eq_true, if_false]
      exact ih ctx
    | false =>
      simp only [Bool.false_eq_true, if_false, Bool.not_false, if_true]
      rw [foldlM_cons]
      cases decodeChar ctx c with
      | error e => rfl
      | ok ctx' => exact ih ctx'

/-- A decoder of strings passes over the breaks. -/
theorem decodeString_wrapped {σ : Type} (decodeChar : σ → UInt8 → Exec σ) (hbreak : ∀ c ∈ wordbreak, isWhite c = true)
    (hplain : ∀ l, ∀ c ∈ group l, c ≠ 0 ∧ isWhite c = false) (source : Bytes) (ctx : σ) :
    decodeString decodeChar ctx (wrapped k group full wordbreak 0 source) = (encodeChunks k group source).foldlM decodeChar ctx := by
  rw [decodeString_filter, filter_wrapped (fun c hc => by simp [hbreak c hc]) (fun l c hc => by simp [(hplain l c hc).2])]
  apply wrapped_forall
  · rintro c hc rfl
    exact absurd (hbreak 0 hc) (by decide)
  · exact fun l c hc => (hplain l c hc).1

end Loop

end Bind9.BaseText
