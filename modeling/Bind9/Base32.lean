import Bind9.Region

/-! # Base32

`isc_base32hex_decoderegion` of `lib/isc/base32.c`.  The characters are looked up with `strchr` in a C string, so that a
NUL finds the end of the string and counts as padding. -/

namespace Bind9.Base32

def badbase32 : Result := .other 60

/-- `base32hex`, with its terminating NUL. -/
def base32hex : Bytes :=
  ['0', '1', '2', '3', '4', '5', '6', '7', '8', '9', 'A', 'B', 'C', 'D', 'E', 'F', 'G', 'H', 'I', 'J', 'K', 'L', 'M', 'N',
    'O', 'P', 'Q', 'R', 'S', 'T', 'U', 'V', '=', '0', '1', '2', '3', '4', '5', '6', '7', '8', '9', 'a', 'b', 'c', 'd', 'e',
    'f', 'g', 'h', 'i', 'j', 'k', 'l', 'm', 'n', 'o', 'p', 'q', 'r', 's', 't', 'u', 'v'].map (fun c => UInt8.ofNat c.toNat) ++
    [0]

/-- `base32_decode_ctx_t`; the desired length is -1. -/
structure DecodeCtx where
  target : Buffer
  seenEnd : Bool
  val : List ℕ
  seen32 : ℕ

/-- Where padding may start: the number of significant bytes. -/
def paddingStart (val : List ℕ) : Exec ℕ :=
  match val.length with
  | 2 => if val.getD 1 0 &&& 0x03 ≠ 0 then stop badbase32 else .ok 1
  | 4 => if val.getD 3 0 &&& 0x0f ≠ 0 then stop badbase32 else .ok 3
  | 5 => if val.getD 4 0 &&& 0x01 ≠ 0 then stop badbase32 else .ok 3
  | 7 => if val.getD 6 0 &&& 0x07 ≠ 0 then stop badbase32 else .ok 4
  | _ => stop badbase32

/-- The five bytes of eight digits. -/
def bytesOf (val : List ℕ) : Bytes :=
  [UInt8.ofNat (val.getD 0 0 <<< 3 ||| val.getD 1 0 >>> 2),
    UInt8.ofNat (val.getD 1 0 <<< 6 ||| val.getD 2 0 <<< 1 ||| val.getD 3 0 >>> 4),
    UInt8.ofNat (val.getD 3 0 <<< 4 ||| val.getD 4 0 >>> 1),
    UInt8.ofNat (val.getD 4 0 <<< 7 ||| val.getD 5 0 <<< 2 ||| val.getD 6 0 >>> 3),
    UInt8.ofNat (val.getD 6 0 <<< 5 ||| val.getD 7 0)]

/-- The digit of a character in the alphabet `base`; 32 is padding. -/
def digitIn (base : Bytes) (c : UInt8) : Exec ℕ :=
  match base.idxOf? c with
  | none => stop badbase32
  | some last => .ok (if 32 < last then last - 33 else last)

/-- The end of `base32_decode_char`: a digit more. -/
def put (ctx : DecodeCtx) (last seen32 : ℕ) : Exec DecodeCtx := do
  let val := ctx.val ++ [if last = 32 then 0 else last]
  if val.length = 8 then do
    let n := if seen32 ≠ 0 then seen32 else 5
    let target ← memTobuffer ctx.target ((bytesOf val).take n)
    pure ⟨target, decide (seen32 ≠ 0), [], seen32⟩
  else pure { ctx with val := val, seen32 := seen32 }

def base32DecodeChar (base : Bytes) (ctx : DecodeCtx) (c : UInt8) : Exec DecodeCtx := do
  if ctx.seenEnd then stop badbase32
  else
    let last ← digitIn base c
    if last ≠ 32 ∧ ctx.seen32 ≠ 0 then stop badbase32
    else if last = 32 ∧ ctx.seen32 = 0 then do
      let seen32 ← paddingStart ctx.val
      put ctx last seen32
    else put ctx last ctx.seen32

/-- `isc_base32hex_decoderegion` with `base32_decode_finish`. -/
def base32hexDecoderegion (source : Bytes) (target : Buffer) : Exec Buffer := do
  let ctx ← source.foldlM (base32DecodeChar base32hex) ⟨target, false, [], 0⟩
  if ctx.val.length ≠ 0 then stop badbase32 else pure ctx.target

end Bind9.Base32
