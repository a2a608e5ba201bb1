import Bind9.Lex
import Bind9.RdataLayout
import Bind9.Rpz

/-! # LOC rdata and its text

`fromtext_loc` and `totext_loc`; `fromwire_loc` is with the other types.  `long` has 64 bits and `int` 32.  The warning about
extra digits of the seconds is left out. -/

namespace Bind9.Loc

open Bind9.Lex

/-! ### Numbers -/

/-- The sign in front of a number, and what follows it. -/
def sign : Bytes → Bool × Bytes
  | 45 :: s => (true, s)
  | 43 :: s => (false, s)
  | s => (false, s)

/-- What `strtol` takes a string apart into: the sign, the digits and the rest. -/
def parts (s : Bytes) : Bool × Bytes × Bytes :=
  let t := sign (s.dropWhile Rpz.isSpace)
  (t.1, t.2.takeWhile isdigit, t.2.dropWhile isdigit)

def LONG_MAX : ℤ := 2 ^ 63 - 1

def LONG_MIN : ℤ := -2 ^ 63

def signed (neg : Bool) (n : ℕ) : ℤ := if neg then -(n : ℤ) else n

/-- `strtol` in base 10: the value and what `*e` is left at. -/
def strtol (s : Bytes) : ℤ × Bytes :=
  if (parts s).2.1 = [] then (0, s)
  else (max LONG_MIN (min LONG_MAX (signed (parts s).1 (number (parts s).2.1))), (parts s).2.2)

/-- A `long` assigned to an `int`. -/
def toInt (v : ℤ) : ℤ := v.bmod (2 ^ 32)

/-- `strcasecmp(s, t) == 0`. -/
def strcasecmpEq (s t : Bytes) : Bool := s.map maptolower == t.map maptolower

/-- The loop over `n` digits of a fraction: each is added to ten times the value, or subtracted; the missing ones are noughts. -/
def decimals (ends : UInt8 → Bool) (subtract : Bool) : ℕ → ℤ → Bytes → Option (ℤ × Bytes)
  | 0, v, e => some (v, e)
  | n + 1, v, [] => some (v * 10 ^ (n + 1), [])
  | n + 1, v, c :: e =>
    if ends c then some (v * 10 ^ (n + 1), c :: e)
    else if isdigit c then
      decimals ends subtract n (if subtract then v * 10 - (c.toNat - 48 : ℕ) else v * 10 + (c.toNat - 48 : ℕ)) e
    else none

/-! ### The tokens of `fromtext_loc` -/

/-- The minutes, after `d` degrees. -/
def minutes (limit d : ℕ) (s : Bytes) : Except Result ℤ :=
  let m := toInt (strtol s).1
  if (strtol s).2 ≠ [] then .error .syntaxerr
  else if m < 0 ∨ 59 < m then .error .range
  else if d = limit ∧ m ≠ 0 then .error .range
  else .ok m

/-- The seconds in thousandths, from the whole seconds and what follows them. -/
def thousandths (s : ℤ) : Bytes → Option ℤ
  | 46 :: e =>
    match decimals (fun _ => false) false 3 s e with
    | some (s, l) => if l.all isdigit then some s else none
    | none => none
  | _ => some (s * 1000)

/-- The seconds, after `d` degrees. -/
def seconds (limit d : ℕ) (s : Bytes) : Except Result ℤ :=
  let s1 := toInt (strtol s).1
  if (strtol s).2 ≠ [] ∧ (strtol s).2.head? ≠ some 46 then .error .syntaxerr
  else if s1 < 0 ∨ 59 < s1 then .error .range
  else
    match thousandths s1 (strtol s).2 with
    | none => .error .syntaxerr
    | some s1 => if d = limit ∧ s1 ≠ 0 then .error .range else .ok s1

/-- Metres and centimetres, of the altitude and of the sizes.  With the error is said whether the token is put back, which is
`back` where a digit is missing. -/
def metres (lo hi : ℤ) (back : Bool) (s : Bytes) : Except (Result × Bool) (ℤ × ℤ) :=
  let m := (strtol s).1
  let e := (strtol s).2
  if e ≠ [] ∧ e.head? ≠ some 46 ∧ e.head? ≠ some 109 then .error (.syntaxerr, true)
  else if m < lo ∨ hi < m then .error (.range, true)
  else
    match (match e with | 46 :: e => decimals (· == 109) (decide (m < 0)) 2 0 e | e => some (0, e)) with
    | none => .error (.syntaxerr, back)
    | some (cm, e) =>
      let e := if e.head? = some 109 then e.tail else e
      if e ≠ [] then .error (.syntaxerr, true) else .ok (m, cm)

/-- The altitude above the base, in centimetres. -/
def altitude (s : Bytes) : Except (Result × Bool) ℤ :=
  match metres (-100000) 42849672 false s with
  | .error e => .error e
  | .ok (m, cm) =>
    if m = -100000 ∧ cm ≠ 0 then .error (.range, true)
    else if m = 42849672 ∧ 95 < cm then .error (.range, true)
    else .ok ((m + 100000) * 100 + cm)

/-- The loop that looks for the power of ten, from `exp` on. -/
def exponent (m : ℤ) : ℕ → ℕ → ℕ
  | 0, exp => exp
  | n + 1, exp => if m < 10 ^ (exp + 1) then exp else exponent m n (exp + 1)

/-- A size as mantissa and power of ten. -/
def sizeByte (m cm : ℤ) : UInt8 :=
  if 0 < m then UInt8.ofNat ((m / 10 ^ exponent m 7 0).toNat * 16 + (exponent m 7 0 + 2))
  else if 10 ≤ cm then UInt8.ofNat ((cm / 10).toNat * 16 + 1)
  else UInt8.ofNat (cm.toNat * 16)

/-- The size and the two precisions. -/
def precision (s : Bytes) : Except (Result × Bool) UInt8 :=
  match metres 0 90000000 true s with
  | .error e => .error e
  | .ok (m, cm) => .ok (sizeByte m cm)

/-! ### `fromtext_loc` -/

/-- `RETERR` around `isc_lex_getmastertoken`. -/
def master (lex : Lexer) (expect : Expect) (eol : Bool) : Except (Stop × Lexer) (Token × Lexer) :=
  match getmastertoken lex expect eol with
  | .error (r, lex) => .error (.result r, lex)
  | .ok x => .ok x

/-- `RETTOK` where the token is refused. -/
def rettok {α : Type} (lex : Lexer) : Except Result α → Except (Stop × Lexer) α
  | .error r => .error (.result r, ungettoken lex)
  | .ok a => .ok a

/-- `RETTOK`, or `return` where the token is not put back. -/
def rettokIf {α : Type} (lex : Lexer) : Except (Result × Bool) α → Except (Stop × Lexer) α
  | .error (r, back) => .error (.result r, if back then ungettoken lex else lex)
  | .ok a => .ok a

def asUlong : Token → ℕ
  | .number n => n
  | _ => 0

/-- Whether the token is one of the two directions, and which. -/
def direction (pos neg : UInt8) (s : Bytes) : Option Bool :=
  if strcasecmpEq s [pos] then some true
  else if strcasecmpEq s [neg] then some false
  else none

/-- Degrees, minutes, thousandths of seconds, and `north` or `east`. -/
structure Angle where
  d : ℕ
  m : ℤ
  s : ℤ
  positive : Bool
deriving DecidableEq, Repr

/-- The latitude and the longitude up to `getlong` and `getalt`. -/
def fromtextAngle (lex : Lexer) (limit : ℕ) (pos neg : UInt8) : Except (Stop × Lexer) (Angle × Lexer) := do
  let (token, lex) ← master lex .number false
  let d := asUlong token
  if limit < d then rettok lex (.error .range)
  else
    let (token, lex) ← master lex .string false
    match direction pos neg token.asStr with
    | some positive => pure (⟨d, 0, 0, positive⟩, lex)
    | none =>
      let m ← rettok lex (minutes limit d token.asStr)
      let (token, lex) ← master lex .string false
      match direction pos neg token.asStr with
      | some positive => pure (⟨d, m, 0, positive⟩, lex)
      | none =>
        let s ← rettok lex (seconds limit d token.asStr)
        let (token, lex) ← master lex .string false
        match direction pos neg token.asStr with
        | some positive => pure (⟨d, m, s, positive⟩, lex)
        | none => rettok lex (.error .syntaxerr)

/-- The value of the field, in unsigned arithmetic. -/
def Angle.value (a : Angle) : ℕ :=
  let v := (a.d * 3600 + a.m * 60) * 1000
  ((if a.positive then 0x80000000 + v + a.s else 0x80000000 - v - a.s) % 2 ^ 32).toNat

/-- The size and the precisions, which may end early with their defaults. -/
def precisions : Bytes → Lexer → Except (Stop × Lexer) (Bytes × Lexer)
  | [], lex => pure ([], lex)
  | default :: defaults, lex => do
    let (token, lex) ← master lex .string true
    if token.isEnd then pure (default :: defaults, ungettoken lex)
    else
      let c ← rettokIf lex (precision token.asStr)
      let (cs, lex) ← precisions defaults lex
      pure (c :: cs, lex)

/-- What stands behind `encode`. -/
def encode (sizes : Bytes) (latitude longitude altitude : ℕ) (target : Buffer) : Exec Buffer := do
  let target ← memTobuffer target [0]
  let target ← sizes.foldlM (fun target c => memTobuffer target [c]) target
  let target ← uint32Tobuffer target latitude
  let target ← uint32Tobuffer target longitude
  uint32Tobuffer target altitude

def fromtextLoc (lex : Lexer) (target : Buffer) : Except (Stop × Lexer) (Buffer × Lexer) := do
  let (latitude, lex) ← fromtextAngle lex 90 78 83
  let (longitude, lex) ← fromtextAngle lex 180 69 87
  let (token, lex) ← master lex .string false
  let altitude ← rettokIf lex (altitude token.asStr)
  let (sizes, lex) ← precisions [0x12, 0x16, 0x13] lex
  match encode sizes latitude.value longitude.value (altitude % 2 ^ 32).toNat target with
  | .error e => .error (e, lex)
  | .ok target => pure (target, lex)

/-! ### `totext_loc` -/

def sprintf (n : ℕ) (text : Bytes) : Exec Bytes :=
  if text.length < n then .ok text else .error .overrun

def dec (n : ℕ) : Bytes := Rpz.numText 10 n

/-- `%0wd`. -/
def dec0 (w n : ℕ) : Bytes := List.replicate (w - (dec n).length) 48 ++ dec n

def precisionText (c : UInt8) : Exec Bytes := do
  let exp := c.toNat % 16
  let man := c.toNat / 16
  require (decide (exp < 10) && decide (man < 10))
  sprintf 10 (if 1 < exp then dec (man * 10 ^ (exp - 2)) ++ [109] else [48, 46] ++ dec0 2 (man * 10 ^ exp) ++ [109])

/-- The text of a latitude or longitude. -/
def angleText (limit : ℕ) (pos neg : UInt8) (field : ℕ) : Exec Bytes := do
  let v := if 0x80000000 ≤ field then field - 0x80000000 else 0x80000000 - field
  require (decide (v / 1000 / 60 / 60 ≤ limit))
  pure (dec (v / 1000 / 60 / 60) ++ [32] ++ dec (v / 1000 / 60 % 60) ++ [32] ++ dec (v / 1000 % 60) ++ [46] ++ dec0 3 (v % 1000) ++
    [32, if 0x80000000 ≤ field then pos else neg])

def altitudeText (field : ℕ) : Bytes :=
  let v := if field < 10000000 then 10000000 - field else field - 10000000
  (if field < 10000000 then [45] else []) ++ dec (v / 100) ++ [46] ++ dec0 2 (v % 100) ++ [109]

def totextLoc (rdata : Bytes) (target : Buffer) : Exec Buffer := do
  require (decide (rdata.length ≠ 0))
  let sbuf ← precisionText (← byteAt rdata 1)
  let hbuf ← precisionText (← byteAt rdata 2)
  let vbuf ← precisionText (← byteAt rdata 3)
  let sr ← consume rdata 4
  let latitude ← angleText 90 78 83 (← uint32Fromregion sr)
  let sr ← consume sr 4
  let longitude ← angleText 180 69 87 (← uint32Fromregion sr)
  let sr ← consume sr 4
  let altitude ← uint32Fromregion sr
  let buf ← sprintf 74 (latitude ++ [32] ++ longitude ++ [32] ++ altitudeText altitude ++ [32] ++ sbuf ++ [32] ++ hbuf ++ [32] ++ vbuf)
  memTobuffer target buf

end Bind9.Loc
