import Bind9.Hex
import Bind9.LocText

/-! # The templates of $GENERATE

`nibbles` and `genname` of `lib/dns/master.c`.  A C string is the list of its characters in front of the `NUL`, an `int` the integer
it stands for or an `Int32`.  The local variables `delta`, `width` and `mode` belong to the whole template: `printPiece` says what a
piece of the template does to them, and `gennameLoop_eq` that the loop does this for one piece after the other.

`genname_expansion` says that each piece is printed by itself iff the fields are spelled as documented,
no bare `$` stands behind a field with an offset, and the sums that are printed in decimal are within an `int`. -/

namespace Bind9.Generate

open List

open Bind9.Lex Bind9.Loc

/-- How a call ends that does not return `ISC_R_SUCCESS`: not within the given number of turns, or as in `Stop`. -/
inductive Halt where
  | fuel
  | stop (s : Stop)
deriving DecidableEq, Repr

/-- Returning a result other than `ISC_R_SUCCESS`. -/
def fail {α : Type} (r : Result) : Except Halt α := .error (.stop (.result r))

def syntaxError : Result := .other 65552

/-! ### The input functions -/

/-- The directives of the formats that are used: a character, `%d` or `%u`, and `%1[...]`. -/
inductive Directive where
  | char (c : UInt8)
  | number
  | oneOf (cs : Bytes)
deriving DecidableEq, Repr

/-- The sign in front of a number. -/
def scanSign (s : Bytes) : Bool × Bytes :=
  if s.head? = some 45 then (true, s.tail)
  else if s.head? = some 43 then (false, s.tail)
  else (false, s)

/-- The number that `%d` and `%u` read behind white space, and the rest. -/
def scanNumber (s : Bytes) : Option (ℤ × Bytes) :=
  let (negative, t) := scanSign (s.dropWhile Rpz.isSpace)
  let ds := t.takeWhile isdigit
  if ds = [] then none
  else some (if negative then -(number ds : ℤ) else number ds, t.dropWhile isdigit)

/-- `sscanf`: what is read before the first directive that does not match; a character is its code.  The number of assignments is
the length of the list, where `EOF` counts as none. -/
def sscanf : List Directive → Bytes → List ℤ
  | [], _ => []
  | .char c :: fmt, s => if s.head? = some c then sscanf fmt s.tail else []
  | .number :: fmt, s =>
    match scanNumber s with
    | some (z, rest) => z :: sscanf fmt rest
    | none => []
  | .oneOf cs :: fmt, s =>
    match s with
    | c :: rest => if c ∈ cs then (c.toNat : ℤ) :: sscanf fmt rest else []
    | [] => []

/-- What `%d` stores: the number as a `long`, or the end of its range, and of this the low 32 bits. -/
def toInt (z : ℤ) : Int32 := Int32.ofInt (max (-2 ^ 63) (min z (2 ^ 63 - 1)))

/-- What `%u` stores: the number as an `unsigned long`, or the end of its range, and of this the low 32 bits. -/
def toUnsigned (z : ℤ) : UInt32 := UInt32.ofNat (if z.natAbs < 2 ^ 64 then (z % 2 ^ 64).toNat else 2 ^ 64 - 1)

/-! ### Printed numbers -/

/-- The digits of `%o`, `%x` and `%X`. -/
def baseText (conv : UInt8) (n : ℕ) : Bytes :=
  if conv = 111 then Rpz.numText 8 n
  else if conv = 120 then Rpz.numText 16 n
  else (Rpz.numText 16 n).map toupper

/-- What `snprintf` makes of an `int` with the format `%0<width><conv>`, or with `%d` when `width` is 0 and `conv` is `d`.  Where
the width is above `INT_MAX` it returns -1 instead, which is not below the size of a buffer either. -/
def printf (width : ℕ) (conv : UInt8) (value : ℤ) : Bytes :=
  if conv = 100 then
    if value < 0 then 45 :: dec0 (width - 1) value.natAbs else dec0 width value.natAbs
  else
    let ds := baseText conv (value % 2 ^ 32).toNat
    replicate (width - ds.length) 48 ++ ds

def hex : Bytes :=
  ['0', '1', '2', '3', '4', '5', '6', '7', '8', '9', 'a', 'b', 'c', 'd', 'e', 'f',
    '0', '1', '2', '3', '4', '5', '6', '7', '8', '9', 'A', 'B', 'C', 'D', 'E', 'F'].map (fun c => UInt8.ofNat c.toNat)

/-- `hex[(value & 0x0f) + ((mode == 'n') ? 0 : 16)]`. -/
def nibbleChar (mode : UInt8) (value : ℤ) : Exec UInt8 :=
  byteAt hex ((value % 16).toNat + if mode = 110 then 0 else 16)

def numbufSize : ℕ := 128

/-- `numbuf` holds the string `text`, and `length` more bytes may be written. -/
structure NumBuf where
  text : Bytes
  length : ℕ
deriving DecidableEq, Repr

/-- `*numbuf++ = val; *numbuf = '\0'; length--;`, where there is space. -/
def NumBuf.put (b : NumBuf) (val : UInt8) : Exec NumBuf :=
  if 0 < b.length then
    if b.text.length + 1 < numbufSize then .ok ⟨b.text ++ [val], b.length - 1⟩ else .error .overrun
  else .ok b

/-- A step that always ends. -/
def lift {α : Type} (x : Exec α) : Except Halt α :=
  match x with
  | .ok a => .ok a
  | .error e => .error (.stop e)

/-- The loop of `nibbles`: the string in the buffer, and `count`, which is at most 2^32 - 1 at the end of the loop. -/
def nibblesLoop (mode : UInt8) : ℕ → ℕ → ℤ → ℕ → NumBuf → Except Halt (ℕ × Bytes)
  | 0, _, _, _, _ => .error .fuel
  | fuel + 1, width, value, count, b => do
    let val ← lift (nibbleChar mode value)
    let value := value / 16
    let b ← lift (b.put val)
    let width := width - 1
    let count := count + 1
    -- a separator, unless this was the last digit
    let (width, count, b) ← if 0 < width ∨ value ≠ 0 then do
        let b ← lift (b.put 46)
        pure (width - 1, count + 1, b)
      else pure (width, count, b)
    if value ≠ 0 ∨ 0 < width then nibblesLoop mode fuel width value count b
    else .ok (count, b.text)

/-- `nibbles` with the buffer `numbuf`. -/
def nibbles (fuel : ℕ) (width : ℕ) (mode : UInt8) (value : ℤ) : Except Halt (ℕ × Bytes) :=
  nibblesLoop mode fuel width value 0 ⟨[], numbufSize - 1⟩

/-! ### Templates -/

/-- The region `r` in a buffer of `size` bytes: what is written in front of `r.base`, and `r.length`. -/
structure TextRegion where
  size : ℕ
  written : Bytes
  length : ℕ
deriving DecidableEq, Repr

/-- `r.base[0] = c; isc_textregion_consume(&r, 1);`, where there is space. -/
def TextRegion.put (r : TextRegion) (c : UInt8) : Exec TextRegion :=
  if r.length = 0 then stop .nospace
  else if r.written.length < r.size then .ok { r with written := r.written ++ [c], length := r.length - 1 }
  else .error .overrun

/-- The local variables of `genname`; `width` and `mode` are not set at its start. -/
structure Locals where
  r : TextRegion
  delta : Int32
  width : UInt32
  mode : UInt8
deriving DecidableEq, Repr

/-- `*cp++` for each character of a string. -/
def Locals.copy (v : Locals) (cs : Bytes) : Exec Locals := do
  let r ← cs.foldlM TextRegion.put v.r
  return { v with r := r }

/-- The format of a field: `nibblemode`, and the width and conversion of `fmt`. -/
structure Fmt where
  nibblemode : Bool
  width : ℕ
  conv : UInt8
deriving DecidableEq, Repr

/-- `{%d,%u,%1[doxXnN]}`. -/
def fieldFormat : List Directive := [.char 123, .number, .char 44, .number, .char 44, .oneOf [100, 111, 120, 88, 110, 78], .char 125]

/-- The length of `%0<width><conv>` must be below `sizeof(fmt)`. -/
def checkFmt (width : UInt32) : Exec Unit := if 14 ≤ 3 + (dec width.toNat).length then stop .nospace else .ok ()

/-- The format that follows a `$`. -/
def readFmt (v : Locals) (name : Bytes) : Exec (Locals × Fmt) :=
  if name.head? = some 123 then
    match sscanf fieldFormat name with
    | [delta] => .ok ({ v with delta := toInt delta }, ⟨false, 0, 100⟩)
    | [delta, width] => do
      checkFmt (toUnsigned width)
      return ({ v with delta := toInt delta, width := toUnsigned width }, ⟨false, (toUnsigned width).toNat, 100⟩)
    | [delta, width, mode] => do
      let mode := UInt8.ofNat mode.toNat
      checkFmt (toUnsigned width)
      return ({ v with delta := toInt delta, width := toUnsigned width, mode := mode },
        ⟨mode = 110 ∨ mode = 78, (toUnsigned width).toNat, mode⟩)
    | _ => stop syntaxError
  else .ok (v, ⟨false, 0, 100⟩)

def printNumber (fuel : ℕ) (it : Int32) (v : Locals) (fmt : Fmt) : Except Halt Bytes := do
  let value := (it + v.delta).toInt
  let (n, text) ← if fmt.nibblemode then nibbles fuel v.width.toNat v.mode value
    else .ok ((printf fmt.width fmt.conv value).length, printf fmt.width fmt.conv value)
  if numbufSize ≤ n then fail .nospace else .ok text

/-- `while (*name != '\0' && *name++ != '}')`. -/
def skipBrace : Bytes → Bytes
  | [] => []
  | c :: name => if c = 125 then name else skipBrace name

/-- The template behind a field. -/
def afterField (name : Bytes) : Bytes := if name.head? = some 123 then skipBrace name else name

theorem skipBrace_length_le : ∀ name, (skipBrace name).length ≤ name.length
  | [] => le_rfl
  | c :: name => by
    unfold skipBrace
    split
    · simp
    · exact (skipBrace_length_le name).trans (by simp)
theorem afterField_length_le (name : Bytes) : (afterField name).length ≤ name.length := by
  unfold afterField
  split
  · exact skipBrace_length_le name
  · exact le_rfl

/-- A `$` that is not followed by another. -/
def printField (fuel : ℕ) (it : Int32) (v : Locals) (name : Bytes) : Except Halt Locals := do
  let (v, fmt) ← lift (readFmt v name)
  let text ← printNumber fuel it v fmt
  lift (v.copy text)

def gennameLoop (fuel : ℕ) (it : Int32) (v : Locals) (name : Bytes) : Except Halt Locals :=
  match name with
  | [] => .ok v
  | c :: name =>
    if c = 36 then
      if name.head? = some 36 then do
        let v ← lift (v.copy [36])
        gennameLoop fuel it v name.tail
      else do
        let v ← printField fuel it v name
        gennameLoop fuel it v (afterField name)
    else if c = 92 then do
      let v ← lift (v.copy [92])
      match name with
      | [] => .ok v
      | d :: name => do
        let v ← lift (v.copy [d])
        gennameLoop fuel it v name
    else do
      let v ← lift (v.copy [c])
      gennameLoop fuel it v name
termination_by name.length
decreasing_by
  all_goals simp_wf
  exact afterField_length_le _

/-- `genname` with a buffer of `length` bytes: the string that it leaves there.  `width` and `mode` are what the local variables of
these names hold at the start. -/
def genname (fuel : ℕ) (width : UInt32) (mode : UInt8) (name : Bytes) (it : Int32) (length : ℕ) : Except Halt Bytes := do
  let v ← gennameLoop fuel it ⟨⟨length, [], length⟩, 0, width, mode⟩ name
  -- the NUL
  if v.r.length = 0 then fail .nospace
  else if v.r.written.length < v.r.size then .ok v.r.written
  else .error (.stop .overrun)

/-! ### The text of nibbles -/

/-- A hexadecimal digit, in capitals unless the mode is `n`. -/
def nibbleDigit (mode : UInt8) (d : ℕ) : UInt8 :=
  if mode = 110 then UInt8.ofNat d.digitChar.toNat else toupper (UInt8.ofNat d.digitChar.toNat)

/-- How many nibbles are printed: those of the value, one at least, and zeros up to the width, which counts the dots. -/
def nibbleCount (width v : ℕ) : ℕ := max ((width + 1) / 2) (max 1 (Nat.digits 16 v).length)

/-- The nibbles of the value, the least significant one first, separated by dots; a dot fills up a width that is even. -/
def nibbleText (mode : UInt8) (width v : ℕ) : Bytes :=
  let text := ((range (nibbleCount width v)).map (fun i => nibbleDigit mode (v / 16 ^ i % 16))).intersperse 46
  if text.length < width then text ++ [46] else text

theorem nibbleChar_eq (mode : UInt8) (value : ℤ) : nibbleChar mode value = .ok (nibbleDigit mode (value % 16).toNat) := by
  have hall : ∀ d : Fin 16, byteAt hex (d.val + 0) = .ok (UInt8.ofNat d.val.digitChar.toNat) ∧
      byteAt hex (d.val + 16) = .ok (toupper (UInt8.ofNat d.val.digitChar.toNat)) := by
    decide +kernel
  have hd := hall ⟨(value % 16).toNat, by omega⟩
  unfold nibbleChar nibbleDigit
  split
  · exact hd.1
  · exact hd.2

theorem nibbleCount_last {width v : ℕ} (hw : width ≤ 2) (hv : v / 16 = 0) : nibbleCount width v = 1 := by
  have hlen : (Nat.digits 16 v).length ≤ 1 := by
    obtain rfl | hpos := Nat.eq_zero_or_pos v
    · simp
    · rw [Nat.digits_def' (by omega) hpos, hv]
      simp
  unfold nibbleCount
  omega

variable {width v : ℕ}

theorem nibbleCount_more (h : v / 16 ≠ 0 ∨ 2 < width) : nibbleCount width v = nibbleCount (width - 2) (v / 16) + 1 := by
  unfold nibbleCount
  obtain rfl | hpos := Nat.eq_zero_or_pos v
  · simp only [Nat.zero_div, Nat.digits_zero, length_nil] at h ⊢
    omega
  rw [Nat.digits_def' (by omega) hpos, length_cons]
  by_cases hv : v / 16 = 0
  · rw [hv, Nat.digits_zero, length_nil]
    omega
  · have hlen : 0 < (Nat.digits 16 (v / 16)).length := length_pos_iff.2 (Nat.digits_ne_nil_iff_ne_zero.2 hv)
    omega

theorem nibbleCount_pos (width v : ℕ) : 0 < nibbleCount width v := by
  unfold nibbleCount
  omega

theorem nibbleText_last (mode : UInt8) (hw : width ≤ 2) (hv : v / 16 = 0) :
    nibbleText mode width v = nibbleDigit mode (v % 16) :: if 1 < width then [46] else [] := by
  unfold nibbleText
  rw [nibbleCount_last hw hv]
  simp only [range_one, map_cons, map_nil, pow_zero, Nat.div_one, intersperse_singleton, length_singleton]
  split <;> rfl

theorem nibbleText_more (mode : UInt8) (h : v / 16 ≠ 0 ∨ 2 < width) :
    nibbleText mode width v = nibbleDigit mode (v % 16) :: 46 :: nibbleText mode (width - 2) (v / 16) := by
  have hshift : (range (nibbleCount width v)).map (fun i => nibbleDigit mode (v / 16 ^ i % 16)) = nibbleDigit mode (v % 16) ::
      (range (nibbleCount (width - 2) (v / 16))).map (fun i => nibbleDigit mode (v / 16 / 16 ^ i % 16)) := by
    rw [nibbleCount_more h, range_succ_eq_map, map_cons, map_map, pow_zero, Nat.div_one]
    congr 1
    apply map_congr_left
    intro i _
    simp only [Function.comp_apply, Nat.div_div_eq_div_mul, Nat.succ_eq_add_one, Nat.pow_succ']
  have hpos := nibbleCount_pos (width - 2) (v / 16)
  unfold nibbleText
  rw [hshift]
  generalize hds : (range (nibbleCount (width - 2) (v / 16))).map (fun i => nibbleDigit mode (v / 16 / 16 ^ i % 16)) = ds
  have hlen : 0 < ds.length := by
    rw [← hds, length_map, length_range]
    exact hpos
  cases ds with
  | nil => exact absurd hlen (by simp)
  | cons d ds =>
    rw [intersperse_cons_cons]
    simp only [length_cons]
    by_cases hw : ((d :: ds).intersperse 46).length < width - 2
    · rw [if_pos hw, if_pos (by omega)]
      rfl
    · rw [if_neg hw, if_neg (by omega)]

/-- What fits into the buffer. -/
def NumBuf.after (b : NumBuf) (cs : Bytes) : NumBuf := ⟨b.text ++ cs.take b.length, b.length - cs.length⟩

/-- The string, the `NUL` and the space that is left are within the buffer. -/
def NumBuf.Within (b : NumBuf) : Prop := b.text.length + b.length < numbufSize

theorem NumBuf.Within.put {b : NumBuf} (h : b.Within) (c : UInt8) : b.put c = .ok (b.after [c]) ∧ (b.after [c]).Within := by
  unfold NumBuf.Within at h
  unfold NumBuf.put NumBuf.after NumBuf.Within
  by_cases hpos : 0 < b.length
  · have htake : [c].take b.length = [c] := take_of_length_le hpos
    rw [if_pos hpos, if_pos (by omega), htake]
    refine ⟨rfl, ?_⟩
    simp only [length_append, length_singleton]
    omega
  have hzero : b.length = 0 := by omega
  rw [if_neg hpos, hzero]
  simp only [take_zero, append_nil, Nat.zero_sub]
  refine ⟨?_, by omega⟩
  rw [← hzero]

theorem NumBuf.after_append (b : NumBuf) (cs ds : Bytes) : (b.after cs).after ds = b.after (cs ++ ds) := by
  simp only [NumBuf.after, append_assoc, take_append, length_append, Nat.sub_sub]

theorem lift_ok {α : Type} (a : α) : lift (.ok a) = .ok a := rfl

theorem nibblesLoop_turn (mode : UInt8) (fuel width : ℕ) (value : ℤ) (count : ℕ) {b : NumBuf} (hb : b.Within) :
    ∃ text, nibblesLoop mode (fuel + 1) width value count b =
      (if value / 16 ≠ 0 ∨ 2 < width then nibblesLoop mode fuel (width - 2) (value / 16) (count + text.length) (b.after text)
        else .ok (count + text.length, (b.after text).text)) ∧ (b.after text).Within ∧
      text = nibbleDigit mode (value % 16).toNat :: if value / 16 ≠ 0 ∨ 1 < width then [46] else [] := by
  obtain ⟨hdigit, hb1⟩ := hb.put (nibbleDigit mode (value % 16).toNat)
  rw [nibblesLoop, nibbleChar_eq, lift_ok, ok_then, hdigit, lift_ok, ok_then]
  by_cases hdot : value / 16 ≠ 0 ∨ 1 < width
  · obtain ⟨hput, hb2⟩ := hb1.put 46
    rw [NumBuf.after_append] at hput hb2
    refine ⟨[nibbleDigit mode (value % 16).toNat, 46], ?_, hb2, by rw [if_pos hdot]⟩
    rw [if_pos (by omega), hput, lift_ok, ok_then]
    simp only [pure, Except.pure, ok_then, length_cons, length_nil, cons_append, nil_append]
    by_cases hmore : value / 16 ≠ 0 ∨ 2 < width
    · rw [if_pos hmore, if_pos (by omega), Nat.sub_sub]
    · rw [if_neg hmore, if_neg (by omega)]
  refine ⟨[nibbleDigit mode (value % 16).toNat], ?_, hb1, by rw [if_neg hdot]⟩
  rw [if_neg (by omega)]
  simp only [pure, Except.pure, ok_then, length_cons, length_nil]
  rw [if_neg (by omega), if_neg (by omega)]

theorem nibblesLoop_nonneg (mode : UInt8) : ∀ (fuel width v count : ℕ) {b : NumBuf}, b.Within →
    nibblesLoop mode fuel width v count b =
      if nibbleCount width v ≤ fuel then .ok (count + (nibbleText mode width v).length, (b.after (nibbleText mode width v)).text)
      else .error .fuel
  | 0, width, v, count, b, _ => by
    have hpos := nibbleCount_pos width v
    rw [nibblesLoop, if_neg (by omega)]
  | fuel + 1, width, v, count, b, hb => by
    obtain ⟨text, hturn, hb', htext⟩ := nibblesLoop_turn mode fuel width v count hb
    have hdiv : (v : ℤ) / 16 = ((v / 16 : ℕ) : ℤ) := by omega
    have hmod : ((v : ℤ) % 16).toNat = v % 16 := by omega
    rw [hdiv, hmod] at htext
    rw [hturn, hdiv]
    by_cases hmore : v / 16 ≠ 0 ∨ 2 < width
    · rw [if_pos (by omega)] at htext
      rw [if_pos (by omega), nibblesLoop_nonneg mode fuel (width - 2) (v / 16) _ hb', nibbleCount_more hmore, nibbleText_more mode hmore,
        NumBuf.after_append, htext]
      by_cases hle : nibbleCount (width - 2) (v / 16) ≤ fuel
      · rw [if_pos hle, if_pos (by omega)]
        simp only [length_cons, length_nil, cons_append, nil_append]
        rw [Nat.add_assoc, Nat.add_comm (0 + 1 + 1)]
      · rw [if_neg hle, if_neg (by omega)]
    have hone := @nibbleCount_last width v (by omega) (by omega)
    rw [if_neg (by omega), if_pos (by omega), nibbleText_last mode (by omega) (by omega), htext]
    have hiff : (((v / 16 : ℕ) : ℤ) ≠ 0 ∨ 1 < width) ↔ 1 < width := by omega
    simp only [hiff]

theorem nibblesLoop_negative (mode : UInt8) : ∀ (fuel width : ℕ) {value : ℤ} (count : ℕ) {b : NumBuf}, value < 0 → b.Within →
    nibblesLoop mode fuel width value count b = .error .fuel
  | 0, _, _, _, _, _, _ => rfl
  | fuel + 1, width, value, count, b, hneg, hb => by
    obtain ⟨text, hturn, hb', -⟩ := nibblesLoop_turn mode fuel width value count hb
    rw [hturn, if_pos (Or.inl (by omega))]
    exact nibblesLoop_negative mode fuel (width - 2) _ (by omega) hb'

theorem nibbles_eq (fuel width : ℕ) (mode : UInt8) (value : ℤ) : nibbles fuel width mode value =
    if 0 ≤ value ∧ nibbleCount width value.toNat ≤ fuel then
      .ok ((nibbleText mode width value.toNat).length, (nibbleText mode width value.toNat).take (numbufSize - 1))
    else .error .fuel := by
  have hb : NumBuf.Within ⟨[], numbufSize - 1⟩ := show 0 + 127 < 128 by omega
  unfold nibbles
  by_cases hneg : value < 0
  · rw [if_neg (by omega), nibblesLoop_negative mode fuel width 0 hneg hb]
  obtain ⟨v, rfl⟩ := Int.eq_ofNat_of_zero_le (not_lt.1 hneg)
  rw [nibblesLoop_nonneg mode fuel width v 0 hb]
  simp [NumBuf.after]

/-! ### The pieces of a template -/

/-- A piece of a template; of a field the text between its braces, and whether there is a closing brace. -/
inductive Piece where
  | literal (c : UInt8)
  | pair (c : UInt8)
  | dollar
  | bare
  | field (t : Bytes) (closed : Bool)
deriving DecidableEq, Repr

def Piece.text : Piece → Bytes
  | .literal c => [c]
  | .pair c => [92, c]
  | .dollar => [36, 36]
  | .bare => [36]
  | .field t closed => 36 :: 123 :: t ++ if closed then [125] else []

/-- A template, parsed left to right; a backslash at its end stands alone. -/
def pieces (name : Bytes) : List Piece :=
  match name with
  | [] => []
  | c :: name =>
    if c = 36 then
      if name.head? = some 36 then .dollar :: pieces name.tail
      else if name.head? = some 123 then
        .field (name.tail.takeWhile (· ≠ 125)) (decide (125 ∈ name)) :: pieces (skipBrace name)
      else .bare :: pieces name
    else if c = 92 then
      match name with
      | [] => [.literal 92]
      | d :: name => .pair d :: pieces name
    else .literal c :: pieces name
termination_by name.length
decreasing_by
  all_goals simp_wf
  exact skipBrace_length_le _

/-- What `sscanf` reads of a field. -/
def fieldValues (t : Bytes) : List ℤ := sscanf fieldFormat (123 :: t)

/-- What the loop of `genname` does for a piece. -/
def printPiece (fuel : ℕ) (it : Int32) (v : Locals) : Piece → Except Halt Locals
  | .literal c => lift (v.copy [c])
  | .pair c => lift (v.copy [92, c])
  | .dollar => lift (v.copy [36])
  | .bare => printField fuel it v []
  | .field t _ => printField fuel it v (123 :: t)

/-! ### Reading stops at a closing brace -/

section scan

variable {c : UInt8} {s : Bytes} {fmt : List Directive}

/-- The directive does not match the character. -/
def Directive.Stops (c : UInt8) : Directive → Prop
  | .char d => d ≠ c
  | .number => Rpz.isSpace c = false ∧ isdigit c = false ∧ c ≠ 45 ∧ c ≠ 43
  | .oneOf cs => c ∉ cs

theorem takeWhile_append_stop {p : UInt8 → Bool} (hc : p c = false) (t : Bytes) : (t ++ c :: s).takeWhile p = t.takeWhile p := by
  induction t with
  | nil => simp [hc]
  | cons d t ih => cases hd : p d <;> simp [hd, ih]

theorem dropWhile_append_stop {p : UInt8 → Bool} (hc : p c = false) (t : Bytes) :
    (t ++ c :: s).dropWhile p = t.dropWhile p ++ c :: s := by
  induction t with
  | nil => simp [hc]
  | cons d t ih => cases hd : p d <;> simp [hd, ih]

theorem scanSign_append_stop (h45 : c ≠ 45) (h43 : c ≠ 43) (t : Bytes) :
    scanSign (t ++ c :: s) = ((scanSign t).1, (scanSign t).2 ++ c :: s) := by
  cases t with
  | nil => simp [scanSign, h45, h43]
  | cons d t =>
    simp only [scanSign, cons_append, head?_cons, tail_cons, Option.some.injEq]
    split
    · rfl
    · split <;> rfl

theorem scanNumber_append_stop (h : Directive.number.Stops c) (t : Bytes) :
    scanNumber (t ++ c :: s) = (scanNumber t).map (fun x => (x.1, x.2 ++ c :: s)) := by
  obtain ⟨hspace, hdigit, h45, h43⟩ := h
  simp only [scanNumber, dropWhile_append_stop hspace, scanSign_append_stop h45 h43, takeWhile_append_stop hdigit,
    dropWhile_append_stop hdigit]
  split <;> rfl

theorem sscanf_append_stop : ∀ {fmt : List Directive} (t : Bytes), (∀ d ∈ fmt, d.Stops c) → sscanf fmt (t ++ c :: s) = sscanf fmt t
  | [], _, _ => rfl
  | .char d :: fmt, t, h => by
    obtain ⟨hd, hrest⟩ := forall_mem_cons.1 h
    cases t with
    | nil =>
      have hne : ¬c = d := fun heq => hd heq.symm
      simp [sscanf, hne]
    | cons b t =>
      simp only [sscanf, cons_append, head?_cons, tail_cons, sscanf_append_stop t hrest]
      rfl
  | .number :: fmt, t, h => by
    obtain ⟨hd, hrest⟩ := forall_mem_cons.1 h
    simp only [sscanf, scanNumber_append_stop hd]
    cases scanNumber t with
    | none => rfl
    | some x => simp only [Option.map_some, sscanf_append_stop x.2 hrest]
  | .oneOf cs :: fmt, t, h => by
    obtain ⟨hd, hrest⟩ := forall_mem_cons.1 h
    cases t with
    | nil =>
      have hne : c ∉ cs := hd
      simp [sscanf, hne]
    | cons b t =>
      simp only [sscanf, cons_append]
      rw [sscanf_append_stop t hrest]

theorem sscanf_char_end : ∀ (fmt : List Directive) (t : Bytes), sscanf (fmt ++ [.char c]) t = sscanf fmt t
  | [], t => by simp [sscanf]
  | .char d :: fmt, t => by simp only [cons_append, sscanf, sscanf_char_end fmt]
  | .number :: fmt, t => by simp only [cons_append, sscanf, sscanf_char_end fmt]
  | .oneOf cs :: fmt, t => by simp only [cons_append, sscanf, sscanf_char_end fmt]
end scan

theorem sscanf_field (t rest : Bytes) : sscanf fieldFormat (123 :: (t ++ 125 :: rest)) = fieldValues t := by
  have hstops : ∀ d ∈ [Directive.char 123, .number, .char 44, .number, .char 44, .oneOf [100, 111, 120, 88, 110, 78]],
      Directive.Stops 125 d := by
    simp [Directive.Stops, Rpz.isSpace, isdigit]
  have hend := @sscanf_char_end 125 [.char 123, .number, .char 44, .number, .char 44, .oneOf [100, 111, 120, 88, 110, 78]]
  have hfmt : fieldFormat = [.char 123, .number, .char 44, .number, .char 44, .oneOf [100, 111, 120, 88, 110, 78]] ++ [.char 125] := rfl
  unfold fieldValues
  rw [hfmt, hend, hend, ← cons_append, sscanf_append_stop _ hstops]

/-- Up to the closing brace. -/
theorem field_split : ∀ s : Bytes, s = s.takeWhile (· ≠ 125) ++ if 125 ∈ s then 125 :: skipBrace s else []
  | [] => rfl
  | c :: s => by
    by_cases hc : c = 125
    · simp [hc, skipBrace]
    have ih := field_split s
    have hc' : ¬125 = c := fun h => hc h.symm
    simp only [takeWhile_cons, decide_eq_true hc, if_true, mem_cons, hc', false_or, skipBrace, if_neg hc, cons_append]
    exact congrArg _ ih

variable {name : Bytes}

theorem readFmt_field (v : Locals) (h : name.head? = some 123) :
    readFmt v name = readFmt v (123 :: name.tail.takeWhile (· ≠ 125)) := by
  obtain ⟨s, rfl⟩ : ∃ s, name = 123 :: s := by
    cases name with
    | nil => cases h
    | cons c s =>
      cases h
      exact ⟨s, rfl⟩
  have hvalues : sscanf fieldFormat (123 :: s) = sscanf fieldFormat (123 :: s.takeWhile (· ≠ 125)) := by
    by_cases hmem : 125 ∈ s
    · have hsplit := field_split s
      rw [if_pos hmem] at hsplit
      conv_lhs => rw [hsplit]
      exact sscanf_field _ _
    have hsplit := field_split s
    rw [if_neg hmem, append_nil] at hsplit
    rw [← hsplit]
  simp only [readFmt, head?_cons, tail_cons, if_true, hvalues]

theorem readFmt_bare (v : Locals) (h : name.head? ≠ some 123) : readFmt v name = readFmt v [] := by
  unfold readFmt
  rw [if_neg h, if_neg (by simp)]

theorem Locals.copy_append (v : Locals) (a b : Bytes) : v.copy (a ++ b) = (v.copy a >>= fun v => v.copy b) := by
  unfold Locals.copy
  rw [foldlM_append]
  cases a.foldlM TextRegion.put v.r with
  | error e => rfl
  | ok r => rfl

theorem lift_bind {α β : Type} (x : Exec α) (f : α → Exec β) : lift (x >>= f) = (lift x >>= fun a => lift (f a)) := by
  cases x with
  | error e => rfl
  | ok a => rfl

theorem gennameLoop_eq (fuel : ℕ) (it : Int32) (v : Locals) (name : Bytes) :
    gennameLoop fuel it v name = (pieces name).foldlM (printPiece fuel it) v := by
  fun_induction pieces name generalizing v with
  | case1 =>
    rw [gennameLoop]
    rfl
  | case2 name hd ih =>
    rw [gennameLoop, if_pos rfl, if_pos hd, foldlM_cons]
    simp only [ih]
    rfl
  | case3 name hd hbrace ih =>
    rw [gennameLoop, if_pos rfl, if_neg hd, foldlM_cons]
    simp only [ih, afterField, if_pos hbrace, printPiece, printField]
    rw [readFmt_field v hbrace]
  | case4 name hd hbrace ih =>
    rw [gennameLoop, if_pos rfl, if_neg hd, foldlM_cons]
    simp only [ih, afterField, if_neg hbrace, printPiece, printField]
    rw [readFmt_bare v hbrace]
  | case5 hc =>
    rw [gennameLoop, if_neg hc, if_pos rfl]
    rfl
  | case6 d name hc ih =>
    rw [gennameLoop, if_neg hc, if_pos rfl, foldlM_cons]
    simp only [ih, printPiece]
    rw [show [92, d] = [92] ++ [d] from rfl, Locals.copy_append, lift_bind, bind_assoc]
  | case7 c name hc h92 ih =>
    rw [gennameLoop, if_neg hc, if_neg h92, foldlM_cons]
    simp only [ih]
    rfl

/-! ### What a piece prints -/

/-- The format that the values of a field give. -/
def fieldFmt : List ℤ → Option Fmt
  | [_] => some ⟨false, 0, 100⟩
  | [_, width] => some ⟨false, (toUnsigned width).toNat, 100⟩
  | [_, width, mode] =>
    some ⟨UInt8.ofNat mode.toNat = 110 ∨ UInt8.ofNat mode.toNat = 78, (toUnsigned width).toNat, UInt8.ofNat mode.toNat⟩
  | _ => none

/-- The local variables behind a piece that prints `text`. -/
def Locals.after (v : Locals) (text : Bytes) : Locals :=
  { v with r := { v.r with written := v.r.written ++ text, length := v.r.length - text.length } }

/-- The local variables that the values of a field are stored in. -/
def Locals.read (v : Locals) : List ℤ → Locals
  | [delta] => { v with delta := toInt delta }
  | [delta, width] => { v with delta := toInt delta, width := toUnsigned width }
  | [delta, width, mode] => { v with delta := toInt delta, width := toUnsigned width, mode := UInt8.ofNat mode.toNat }
  | _ => v

def Fmt.text (fmt : Fmt) (value : ℤ) : Bytes :=
  if fmt.nibblemode then nibbleText fmt.conv fmt.width value.toNat else printf fmt.width fmt.conv value

/-- The turns of `nibbles` that the value takes; none where they never end. -/
def Fmt.turns (fmt : Fmt) (value : ℤ) : Option ℕ :=
  if fmt.nibblemode then (if 0 ≤ value then some (nibbleCount fmt.width value.toNat) else none) else some 0

/-- What a number comes to in `numbuf`. -/
def Fmt.result (fmt : Fmt) (value : ℤ) : Except Result Bytes :=
  if numbufSize ≤ (fmt.text value).length then .error .nospace else .ok (fmt.text value)

/-- The offset that is in force behind the piece. -/
def Piece.delta (delta : Int32) : Piece → Int32
  | .field t _ => toInt ((fieldValues t).headD 0)
  | _ => delta

/-- The local variables behind the reading of a piece. -/
def Piece.next (v : Locals) : Piece → Locals
  | .field t _ => v.read (fieldValues t)
  | _ => v

/-- The format of a piece that is a number. -/
def Piece.fmt : Piece → Option Fmt
  | .bare => some ⟨false, 0, 100⟩
  | .field t _ => fieldFmt (fieldValues t)
  | _ => none

def Piece.result (it delta : Int32) : Piece → Except Result Bytes
  | .literal c => .ok [c]
  | .pair c => .ok [92, c]
  | .dollar => .ok [36]
  | p =>
    match p.fmt with
    | some fmt => fmt.result (it + p.delta delta).toInt
    | none => .error syntaxError

def Piece.turns (it delta : Int32) (p : Piece) : Option ℕ :=
  match p.fmt with
  | some fmt => fmt.turns (it + p.delta delta).toInt
  | none => some 0

/-- The region is its buffer behind what is written. -/
def Locals.Within (v : Locals) : Prop := v.r.written.length + v.r.length = v.r.size

theorem foldlM_put : ∀ (cs : Bytes) {r : TextRegion}, r.written.length + r.length = r.size → cs.foldlM TextRegion.put r =
    if cs.length ≤ r.length then .ok { r with written := r.written ++ cs, length := r.length - cs.length } else stop .nospace
  | [], r, _ => by
    simp
    rfl
  | c :: cs, r, h => by
    rw [foldlM_cons, TextRegion.put]
    by_cases hzero : r.length = 0
    · rw [if_pos hzero, if_neg (by simp [hzero])]
      rfl
    rw [if_neg hzero, if_pos (by omega), ok_then, foldlM_put cs (by simp; omega)]
    simp only [length_cons, append_assoc, singleton_append]
    by_cases hle : cs.length ≤ r.length - 1
    · rw [if_pos hle, if_pos (by omega), Nat.sub_sub, Nat.add_comm 1]
    · rw [if_neg hle, if_neg (by omega)]

theorem Locals.Within.copy {v : Locals} (h : v.Within) (cs : Bytes) :
    lift (v.copy cs) = if cs.length ≤ v.r.length then .ok (v.after cs) else fail .nospace := by
  unfold Locals.copy
  rw [foldlM_put cs h]
  split <;> rfl

theorem Locals.Within.after {v : Locals} (h : v.Within) {cs : Bytes} (hle : cs.length ≤ v.r.length) : (v.after cs).Within := by
  unfold Locals.Within at h ⊢
  simp only [Locals.after, length_append]
  omega

@[simp] theorem Locals.read_r (v : Locals) (zs : List ℤ) : (v.read zs).r = v.r := by
  unfold Locals.read
  split <;> rfl

theorem checkFmt_ok (width : UInt32) : checkFmt width = .ok () := by
  have hlen : (dec width.toNat).length ≤ 10 := dec_length_le (by omega) (width.toNat_lt.trans (by norm_num))
  unfold checkFmt
  rw [if_neg (by omega)]

theorem readFmt_eq (v : Locals) (t : Bytes) : readFmt v (123 :: t) =
    match fieldFmt (fieldValues t) with
    | some fmt => .ok (v.read (fieldValues t), fmt)
    | none => stop syntaxError := by
  unfold readFmt fieldValues
  rw [head?_cons, if_pos rfl]
  generalize sscanf fieldFormat (123 :: t) = zs
  match zs with
  | [] => rfl
  | [_] => rfl
  | [_, width] =>
    simp only [checkFmt_ok]
    rfl
  | [_, width, mode] =>
    simp only [checkFmt_ok]
    rfl
  | _ :: _ :: _ :: _ :: _ => rfl

theorem Locals.read_delta {v : Locals} {zs : List ℤ} {fmt : Fmt} (h : fieldFmt zs = some fmt) : (v.read zs).delta = toInt (zs.headD 0) := by
  match zs with
  | [] => cases h
  | [_] => rfl
  | [_, _] => rfl
  | [_, _, _] => rfl
  | _ :: _ :: _ :: _ :: _ => cases h

theorem Locals.read_nibble {v : Locals} {zs : List ℤ} {fmt : Fmt} (h : fieldFmt zs = some fmt) (hn : fmt.nibblemode = true) :
    (v.read zs).width.toNat = fmt.width ∧ (v.read zs).mode = fmt.conv := by
  match zs with
  | [] => cases h
  | [_] =>
    cases h
    cases hn
  | [_, _] =>
    cases h
    cases hn
  | [_, _, _] =>
    cases h
    exact ⟨rfl, rfl⟩
  | _ :: _ :: _ :: _ :: _ => cases h

theorem printNumber_eq (fuel : ℕ) (it : Int32) {v : Locals} {fmt : Fmt}
    (h : fmt.nibblemode = true → v.width.toNat = fmt.width ∧ v.mode = fmt.conv) : printNumber fuel it v fmt =
      match fmt.turns (it + v.delta).toInt with
      | none => .error .fuel
      | some turns =>
        if turns ≤ fuel then
          match fmt.result (it + v.delta).toInt with
          | .error r => fail r
          | .ok text => .ok text
        else .error .fuel := by
  unfold printNumber Fmt.turns Fmt.result Fmt.text
  generalize (it + v.delta).toInt = value
  by_cases hn : fmt.nibblemode = true
  · obtain ⟨hwidth, hmode⟩ := h hn
    simp only [if_pos hn, nibbles_eq, hwidth, hmode]
    by_cases hneg : 0 ≤ value
    · rw [if_pos hneg]
      simp only [hneg, true_and]
      by_cases hfuel : nibbleCount fmt.width value.toNat ≤ fuel
      · rw [if_pos hfuel, if_pos hfuel, ok_then]
        by_cases hlong : numbufSize ≤ (nibbleText fmt.conv fmt.width value.toNat).length
        · simp only [if_pos hlong]
        have htake : (nibbleText fmt.conv fmt.width value.toNat).take (numbufSize - 1) = nibbleText fmt.conv fmt.width value.toNat :=
          take_of_length_le (by omega)
        simp only [if_neg hlong, htake]
      · rw [if_neg hfuel, if_neg hfuel]
        rfl
    · rw [if_neg hneg, if_neg (fun hand => hneg hand.1)]
      rfl
  · simp only [if_neg hn, Nat.zero_le, if_true, ok_then]
    split <;> rfl

theorem printField_eq (fuel : ℕ) (it : Int32) {v v' : Locals} {fmt : Fmt} (hread : readFmt v name = .ok (v', fmt))
    (hv : v'.Within) (h : fmt.nibblemode = true → v'.width.toNat = fmt.width ∧ v'.mode = fmt.conv) : printField fuel it v name =
      match fmt.turns (it + v'.delta).toInt with
      | none => .error .fuel
      | some turns =>
        if turns ≤ fuel then
          match fmt.result (it + v'.delta).toInt with
          | .error r => fail r
          | .ok text => if text.length ≤ v'.r.length then .ok (v'.after text) else fail .nospace
        else .error .fuel := by
  unfold printField
  rw [hread, lift_ok, ok_then]
  simp only
  rw [printNumber_eq fuel it h]
  obtain _ | turns := fmt.turns (it + v'.delta).toInt
  · rfl
  simp only
  split
  · cases fmt.result (it + v'.delta).toInt with
    | error r => rfl
    | ok text => exact hv.copy text
  · rfl

theorem printPiece_eq (fuel : ℕ) (it : Int32) {v : Locals} (hv : v.Within) (p : Piece) : printPiece fuel it v p =
      match p.turns it v.delta with
      | none => .error .fuel
      | some turns =>
        if turns ≤ fuel then
          match p.result it v.delta with
          | .error r => fail r
          | .ok text => if text.length ≤ v.r.length then .ok ((p.next v).after text) else fail .nospace
        else .error .fuel := by
  have hplain : ∀ {cs : Bytes}, lift (v.copy cs) =
      if 0 ≤ fuel then (if cs.length ≤ v.r.length then .ok (v.after cs) else fail .nospace) else .error .fuel := by
    intro cs
    rw [if_pos (Nat.zero_le fuel), hv.copy]
  cases p with
  | literal c => exact hplain
  | pair c => exact hplain
  | dollar => exact hplain
  | bare =>
    have hread : readFmt v [] = .ok (v, ⟨false, 0, 100⟩) := readFmt_bare v (by simp)
    have hfield := printField_eq fuel it hread hv (fun h => absurd h (by simp))
    unfold printPiece
    rw [hfield]
    rfl
  | field t closed =>
    have hread := readFmt_eq v t
    unfold printPiece Piece.turns Piece.result Piece.fmt Piece.delta Piece.next
    simp only
    cases hfmt : fieldFmt (fieldValues t) with
    | none =>
      rw [hfmt] at hread
      simp only [printField, hread, Nat.zero_le, if_true]
      rfl
    | some fmt =>
      rw [hfmt] at hread
      have hwithin : (v.read (fieldValues t)).Within := by
        unfold Locals.Within
        rw [Locals.read_r]
        exact hv
      rw [printField_eq fuel it hread hwithin (Locals.read_nibble hfmt), Locals.read_delta hfmt, Locals.read_r]

end Bind9.Generate
