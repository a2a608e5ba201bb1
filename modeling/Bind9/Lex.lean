import Bind9.Region

/-! # The lexer of master files

`isc_lex_gettoken` with one buffer as its source and, of the comments, those of master files; `isc_lex_getmastertoken`; and
`isc_lex_ungettoken`.  A number token stands for the digits that `isc_parse_uint32` reads.  The tables `isspace` and `isdigit`
are those of the C locale. -/

namespace Bind9.Lex

open List hiding Lex

/-- `options` of `isc_lex_gettoken`, as far as `isc_lex_getmastertoken` sets them. -/
structure Options where
  eol : Bool
  eof : Bool
  dnsmultiline : Bool
  escape : Bool
  number : Bool
  qstring : Bool
deriving DecidableEq, Repr

inductive Token where
  | string (text : Bytes)
  | qstring (text : Bytes)
  | number (n : ℕ)
  | special (c : UInt8)
  | eol
  | eof
deriving DecidableEq, Repr

inductive State where
  | start
  | crlf
  | string
  | number
  | eatline
  | qstring
deriving DecidableEq, Repr

/-- `isc_lex_t` with its source: the bytes that are still to be read, and what `isc_lex_ungettoken` goes back to. -/
structure Lexer where
  input : Bytes
  atEof : Bool
  parenCount : ℕ
  savedInput : Bytes
  savedParenCount : ℕ
  lastWasEol : Bool
  /-- `ISC_LEXCOMMENT_DNSMASTERFILE`. -/
  comments : Bool
  specials : UInt8 → Bool

/-- The variables of `isc_lex_gettoken`. -/
structure Locals where
  state : State
  savedState : State
  noComments : Bool
  escaped : Bool
  /-- `lex->data` up to `curr`. -/
  data : Bytes
  /-- `ISC_LEXOPT_EOL` of `options`, which parentheses switch off. -/
  eol : Bool
  parenCount : ℕ
  lastWasEol : Bool

/-- What a turn of the loop does with a character: go on, or end; `back` when the character is pushed back. -/
inductive Turn where
  | more (v : Locals)
  | done (v : Locals) (t : Token) (back : Bool)
  | fail (v : Locals) (r : Result) (back : Bool)

def isdigit (c : UInt8) : Bool := 48 ≤ c && c ≤ 57

/-- `strtoul` of a string of digits. -/
def number (ds : Bytes) : ℕ := ds.foldl (fun n c => n * 10 + (c.toNat - 48)) 0

theorem foldl_number (b : Bytes) (n : ℕ) : b.foldl (fun n c => n * 10 + (c.toNat - 48)) n = n * 10 ^ b.length + number b := by
  induction b generalizing n with
  | nil => simp [number]
  | cons c b ih =>
    have hcons : number (c :: b) = b.foldl (fun n c => n * 10 + (c.toNat - 48)) (0 * 10 + (c.toNat - 48)) := rfl
    rw [foldl_cons, ih, hcons, ih, length_cons, Nat.pow_succ]
    ring

theorem number_append (a b : Bytes) : number (a ++ b) = number a * 10 ^ b.length + number b := by
  rw [← foldl_number]
  exact foldl_append

theorem number_cons (c : UInt8) (b : Bytes) : number (c :: b) = (c.toNat - 48) * 10 ^ b.length + number b := by
  rw [← singleton_append, number_append]
  simp [number]

theorem isdigit_iff {c : UInt8} : isdigit c = true ↔ 48 ≤ c.toNat ∧ c.toNat ≤ 57 := by
  simp [isdigit, UInt8.le_iff_toNat_le]

theorem number_lt : ∀ {ds : Bytes}, (∀ c ∈ ds, isdigit c = true) → number ds < 10 ^ ds.length
  | [], _ => by simp [number]
  | c :: ds, h => by
    have hrest := number_lt (fun x hx => h x (mem_cons_of_mem _ hx))
    have hc : c.toNat - 48 ≤ 9 := by
      have := (isdigit_iff.1 (h c mem_cons_self)).2
      omega
    rw [number_cons, length_cons, Nat.pow_succ]
    calc (c.toNat - 48) * 10 ^ ds.length + number ds < (c.toNat - 48) * 10 ^ ds.length + 10 ^ ds.length := by omega
      _ = (c.toNat - 48 + 1) * 10 ^ ds.length := by ring
      _ ≤ 10 * 10 ^ ds.length := Nat.mul_le_mul_right _ (by omega)
      _ = 10 ^ ds.length * 10 := Nat.mul_comm _ _

/-- `isc_parse_uint32` in base 10 of a string of digits; without one it is `ISC_R_BADNUMBER`. -/
def parseUint32 (ds : Bytes) : Except Result ℕ :=
  if ds = [] then .error (.other 56) else if number ds < 2 ^ 32 then .ok (number ds) else .error .range

section Turns

variable (lex : Lexer) (opts : Options) (v : Locals)

def turnString (c : Option UInt8) : Turn :=
  match c with
  | none => .done v (.string v.data) true
  | some c =>
    if c = 13 ∨ c = 10 ∨ (v.escaped = false ∧ (c = 32 ∨ c = 9 ∨ lex.specials c = true)) then .done v (.string v.data) true
    else .more { v with escaped := if opts.escape then !v.escaped && c == 92 else v.escaped, data := v.data ++ [c] }

def endNumber : Turn :=
  match parseUint32 v.data with
  | .ok n => .done v (.number n) true
  | .error r => .fail v r true

def turnNumber (c : Option UInt8) : Turn :=
  match c with
  | none => endNumber v
  | some c =>
    if isdigit c then .more { v with data := v.data ++ [c] }
    else if c = 32 ∨ c = 9 ∨ c = 13 ∨ c = 10 ∨ lex.specials c = true then endNumber v
    else .more { v with state := .string, data := v.data ++ [c] }

def turnStart (c : Option UInt8) : Turn :=
  match c with
  | none =>
    let v := { v with lastWasEol := false }
    if opts.dnsmultiline ∧ v.parenCount ≠ 0 then .fail { v with parenCount := 0 } (.other 28) false
    else if opts.eof = false then .fail v .eof false
    else .done v .eof false
  | some c =>
    if c = 32 ∨ c = 9 then .more v
    else if c = 10 then
      let v := { v with lastWasEol := true }
      if v.eol then .done v .eol false else .more v
    else if c = 13 then .more (if v.eol then { v with state := .crlf } else v)
    else
      let v := { v with lastWasEol := false }
      if c = 34 ∧ opts.qstring then .more { v with noComments := true, state := .qstring }
      else if lex.specials c then
        if (c = 40 ∨ c = 41) ∧ opts.dnsmultiline then
          if c = 40 then .more { v with eol := if v.parenCount = 0 then false else v.eol, parenCount := v.parenCount + 1 }
          else if v.parenCount = 0 then .fail v (.other 28) false
          else .more { v with eol := if v.parenCount = 1 then opts.eol else v.eol, parenCount := v.parenCount - 1 }
        else .done v (.special c) false
      else if isdigit c ∧ opts.number then turnNumber lex { v with state := .number } (some c)
      else turnString lex opts { v with state := .string } (some c)

def turnCrlf (c : Option UInt8) : Turn := .done { v with lastWasEol := true } .eol (c != some 10)

/-- `lexstate_qstring`; the backslash before an escaped quote is overwritten. -/
def turnQstring (c : Option UInt8) : Turn :=
  match c with
  | none => .fail v .unexpectedend false
  | some c =>
    if c = 34 then
      if v.escaped then .more { v with escaped := false, data := v.data.dropLast ++ [34] }
      else .done { v with noComments := false } (.qstring v.data) false
    else if c = 10 ∧ v.escaped = false then .fail v (.other 52) true
    else .more { v with escaped := c == 92 && !v.escaped, data := v.data ++ [c] }

/-- The states that take a character themselves. -/
def turnIn (state : State) (v : Locals) (c : Option UInt8) : Turn :=
  match state with
  | .start => turnStart lex opts v c
  | .crlf => turnCrlf v c
  | .string => turnString lex opts v c
  | .number => turnNumber lex v c
  | .qstring => turnQstring v c
  | .eatline => .more v

/-- A turn of the loop of `isc_lex_gettoken` after the character is read. -/
def turn (c : Option UInt8) : Turn :=
  if lex.comments ∧ v.noComments = false ∧ v.escaped = false ∧ c = some 59 then
    .more { v with savedState := v.state, state := .eatline, noComments := true }
  else
    match v.state with
    | .eatline =>
      if c = some 10 ∨ c = none then
        turnIn lex opts v.savedState { v with noComments := false, state := v.savedState } c
      else .more v
    | state => turnIn lex opts state v c

end Turns

/-- The loop of `isc_lex_gettoken` from the input on. -/
def loop (lex : Lexer) (opts : Options) : Bytes → Locals → Except (Result × Lexer) (Token × Lexer)
  | [], v =>
    let after (v : Locals) (back : Bool) : Lexer :=
      { lex with input := [], atEof := !back, parenCount := v.parenCount, lastWasEol := v.lastWasEol }
    match turn lex opts v none with
    | .done v t back => .ok (t, after v back)
    | .fail v r back => .error (r, after v back)
    -- no state goes on at the end of the file
    | .more v => .error (.eof, after v false)
  | c :: rest, v =>
    let after (v : Locals) (back : Bool) : Lexer :=
      { lex with
        input := if back then c :: rest else rest, atEof := false, parenCount := v.parenCount, lastWasEol := v.lastWasEol }
    match turn lex opts v (some c) with
    | .more v => loop lex opts rest v
    | .done v t back => .ok (t, after v back)
    | .fail v r back => .error (r, after v back)

/-- The variables before the first turn. -/
def initial (lex : Lexer) (opts : Options) : Locals :=
  ⟨.start, .start, false, false, [], if opts.dnsmultiline ∧ 0 < lex.parenCount then false else opts.eol, lex.parenCount,
    lex.lastWasEol⟩

/-- `isc_lex_gettoken`: the token, or the result, and the lexer after it. -/
def gettoken (lex : Lexer) (opts : Options) : Except (Result × Lexer) (Token × Lexer) :=
  let lex := { lex with savedInput := lex.input, savedParenCount := lex.parenCount }
  if lex.input = [] ∧ lex.atEof then
    if opts.dnsmultiline ∧ lex.parenCount ≠ 0 then .error (.other 28, { lex with parenCount := 0 })
    else if opts.eof then .ok (.eof, lex)
    else .error (.eof, lex)
  else loop lex opts lex.input (initial lex opts)

def ungettoken (lex : Lexer) : Lexer := { lex with input := lex.savedInput, parenCount := lex.savedParenCount, atEof := false }

/-- The token types that a caller of `isc_lex_getmastertoken` can ask for. -/
inductive Expect where
  | string
  | qstring
  | number
deriving DecidableEq, Repr

/-- `token->type == expect`. -/
def Token.hasType : Token → Expect → Bool
  | .string _, .string => true
  | .qstring _, .qstring => true
  | .number _, .number => true
  | _, _ => false

def Token.isEnd : Token → Bool
  | .eol => true
  | .eof => true
  | _ => false

def Token.isString : Token → Bool
  | .string _ => true
  | _ => false

def getmastertoken (lex : Lexer) (expect : Expect) (eol : Bool) : Except (Result × Lexer) (Token × Lexer) :=
  match gettoken lex ⟨true, true, true, true, expect == .number, expect == .qstring⟩ with
  | .error (r, lex) => .error (r, if r = .range then ungettoken lex else lex)
  | .ok (t, lex) =>
    if eol ∧ t.isEnd then .ok (t, lex)
    else if t.isString ∧ expect = .qstring then .ok (t, lex)
    else if t.hasType expect then .ok (t, lex)
    else .error (if t.isEnd then .unexpectedend else if expect = .number then .other 56 else .unexpectedtoken, ungettoken lex)

/-- `DNS_AS_STR` of a string token: the bytes up to the first `NUL`. -/
def Token.asStr : Token → Bytes
  | .string text => text.takeWhile (· != 0)
  | .qstring text => text.takeWhile (· != 0)
  | _ => []

/-- A lexer on a buffer as `master.c` sets it up. -/
def openMaster (text : Bytes) : Lexer :=
  ⟨text, false, 0, text, 0, true, true, fun c => c == 0 || c == 40 || c == 41 || c == 34⟩

/-! ### Words -/

/-- A byte that has no meaning for the lexer. -/
def Plain (lex : Lexer) (c : UInt8) : Prop :=
  c ≠ 32 ∧ c ≠ 9 ∧ c ≠ 10 ∧ c ≠ 13 ∧ c ≠ 92 ∧ c ≠ 59 ∧ c ≠ 34 ∧ lex.specials c = false

instance (lex : Lexer) (c : UInt8) : Decidable (Plain lex c) := inferInstanceAs (Decidable (_ ∧ _))

/-- What may stand after a word: a blank or nothing. -/
def Ends (rest : Bytes) : Prop := rest = [] ∨ ∃ rest', rest = 32 :: rest'

/-- The lexer outside parentheses and strings, with `text` still to be read. -/
structure Reading (lex : Lexer) (text : Bytes) : Prop where
  input : lex.input = text
  atEof : lex.atEof = false
  parenCount : lex.parenCount = 0

section Words

variable {lex : Lexer} {opts : Options}

/-- The lexer after a token that ends in front of `rest`. -/
def after (lex : Lexer) (rest : Bytes) : Lexer :=
  { lex with input := rest, atEof := false, parenCount := 0, lastWasEol := false }

variable {c : UInt8}

theorem turn_plain {v : Locals} (hc : Plain lex c) (hstate : v.state ≠ .eatline) :
    turn lex opts v (some c) = turnIn lex opts v.state v (some c) := by
  have hne : (some c : Option UInt8) ≠ some 59 := fun h => hc.2.2.2.2.2.1 (Option.some.inj h)
  unfold turn
  rw [if_neg (fun h => hne h.2.2.2)]
  cases hs : v.state with
  | eatline => exact absurd hs hstate
  | start | crlf | string | number | qstring => rfl

/-- The rest of a word. -/
theorem loop_string {v : Locals} : ∀ (w rest : Bytes) (data : Bytes), (∀ c ∈ w, Plain lex c) → Ends rest →
    v.state = .string → v.escaped = false → v.parenCount = 0 → v.lastWasEol = false →
    loop lex opts (w ++ rest) { v with data := data } = .ok (.string (data ++ w), after lex rest)
  | [], rest, data, _, hends, hstate, hesc, hparen, heol => by
    obtain rfl | ⟨rest', rfl⟩ := hends
    · simp [loop, turn, hstate, turnIn, turnString, after, hparen, heol]
    · simp [loop, turn, hstate, turnIn, turnString, hesc, after, hparen, heol]
  | c :: w, rest, data, hw, hends, hstate, hesc, hparen, heol => by
    have hc := hw c (by simp)
    obtain ⟨h32, h9, h10, h13, h92, -, -, hspecial⟩ := hc
    have hturn : turnString lex opts { v with data := data } (some c) = .more { v with data := data ++ [c] } := by
      unfold turnString
      simp only
      rw [if_neg (by simp [h32, h9, h10, h13, hspecial])]
      have hescaped : (if opts.escape = true then !v.escaped && c == 92 else v.escaped) = v.escaped := by
        rw [hesc]
        simp [h92]
      rw [hescaped]
    have hrun : loop lex opts (c :: w ++ rest) { v with data := data } = loop lex opts (w ++ rest) { v with data := data ++ [c] } := by
      rw [cons_append, loop, turn_plain (hw c (by simp)) (by rw [hstate]; decide)]
      simp only [hstate, turnIn]
      rw [← hstate, hturn]
    rw [hrun, loop_string w rest (data ++ [c]) (fun x hx => hw x (by simp [hx])) hends hstate hesc hparen heol]
    simp

theorem loop_number {v : Locals} : ∀ w rest data : Bytes, data ≠ [] → (∀ c ∈ w, Plain lex c ∧ isdigit c = true) →
    Ends rest → v.state = .number → v.parenCount = 0 → v.lastWasEol = false → number (data ++ w) < 2 ^ 32 →
    loop lex opts (w ++ rest) { v with data := data } = .ok (.number (number (data ++ w)), after lex rest)
  | [], rest, data, hne, _, hends, hstate, hparen, heol, hlt => by
    rw [append_nil] at hlt ⊢
    have hparse : parseUint32 data = .ok (number data) := by rw [parseUint32, if_neg hne, if_pos hlt]
    obtain rfl | ⟨rest', rfl⟩ := hends
    · simp [loop, turn, hstate, turnIn, turnNumber, endNumber, after, hparen, heol, hparse]
    · have h32 : isdigit 32 = false := rfl
      simp [loop, turn, hstate, turnIn, turnNumber, endNumber, after, hparen, heol, hparse, h32]
  | c :: w, rest, data, _, hw, hends, hstate, hparen, heol, hlt => by
    obtain ⟨hplain, hdigit⟩ := hw c (by simp)
    have hrun : loop lex opts (c :: w ++ rest) { v with data := data } = loop lex opts (w ++ rest) { v with data := data ++ [c] } := by
      rw [cons_append, loop, turn_plain hplain (by rw [hstate]; decide)]
      simp [hstate, turnIn, turnNumber, hdigit]
    rw [hrun, loop_number w rest (data ++ [c]) (by simp) (fun x hx => hw x (by simp [hx])) hends hstate hparen heol
      (by simpa using hlt)]
    simp

theorem turnStart_word {v : Locals} (hc : Plain lex c) : turnStart lex opts v (some c) =
    if isdigit c = true ∧ opts.number = true then turnNumber lex { v with lastWasEol := false, state := .number } (some c)
    else turnString lex opts { v with lastWasEol := false, state := .string } (some c) := by
  obtain ⟨h32, h9, h10, h13, -, -, h34, hspecial⟩ := hc
  unfold turnStart
  simp only
  rw [if_neg (by simp [h32, h9]), if_neg h10, if_neg h13, if_neg (by simp [h34]), if_neg (by simp [hspecial])]

theorem loop_word {v : Locals} {w rest : Bytes} (hw : ∀ x ∈ c :: w, Plain lex x) (hends : Ends rest)
    (hstate : v.state = .start) (hesc : v.escaped = false) (hdata : v.data = []) (hparen : v.parenCount = 0)
    (hnumber : opts.number = false ∨ isdigit c = false) :
    loop lex opts (c :: w ++ rest) v = .ok (.string (c :: w), after lex rest) := by
  have hc := hw c (by simp)
  obtain ⟨h32, h9, h10, h13, h92, -, -, hspecial⟩ := id hc
  have hturn : turnString lex opts { v with lastWasEol := false, state := .string } (some c) =
      .more { v with lastWasEol := false, state := .string, data := [c] } := by
    unfold turnString
    simp only
    rw [if_neg (by simp [h32, h9, h10, h13, hspecial])]
    have hescaped : (if opts.escape = true then !v.escaped && c == 92 else v.escaped) = v.escaped := by
      rw [hesc]
      simp [h92]
    rw [hescaped, hdata, nil_append]
  have hstep : loop lex opts (c :: w ++ rest) v = loop lex opts (w ++ rest) { v with lastWasEol := false, state := .string, data := [c] } := by
    rw [cons_append, loop, turn_plain hc (by rw [hstate]; decide)]
    simp only [hstate, turnIn]
    rw [turnStart_word hc, if_neg (by rintro ⟨h1, h2⟩; rcases hnumber with h | h <;> simp_all), hturn]
  rw [hstep]
  exact loop_string (v := { v with lastWasEol := false, state := .string, data := [c] }) w rest [c]
    (fun x hx => hw x (by simp [hx])) hends rfl hesc hparen rfl

theorem loop_digits {v : Locals} {w rest : Bytes} (hw : ∀ x ∈ c :: w, Plain lex x ∧ isdigit x = true)
    (hends : Ends rest) (hstate : v.state = .start) (hdata : v.data = []) (hparen : v.parenCount = 0)
    (hnumber : opts.number = true) (hlt : number (c :: w) < 2 ^ 32) :
    loop lex opts (c :: w ++ rest) v = .ok (.number (number (c :: w)), after lex rest) := by
  obtain ⟨hc, hdigit⟩ := hw c (by simp)
  have hstep : loop lex opts (c :: w ++ rest) v = loop lex opts (w ++ rest) { v with lastWasEol := false, state := .number, data := [c] } := by
    rw [cons_append, loop, turn_plain hc (by rw [hstate]; decide)]
    simp only [hstate, turnIn]
    rw [turnStart_word hc, if_pos ⟨hdigit, hnumber⟩]
    simp [turnNumber, hdigit, hdata]
  rw [hstep]
  exact loop_number (v := { v with lastWasEol := false, state := .number, data := [c] }) w rest [c]
    (cons_ne_nil c []) (fun x hx => hw x (by simp [hx])) hends rfl hparen rfl hlt

theorem loop_blank {v : Locals} (hstate : v.state = .start) (rest : Bytes) :
    loop lex opts (32 :: rest) v = loop lex opts rest v := by
  have hne : ¬(some (32 : UInt8) = some 59) := by decide
  rw [loop]
  simp [turn, hstate, turnIn, turnStart]

end Words

/-! ### Tokens of master files -/

section Master

variable {lex : Lexer} {text : Bytes}

/-- The lexer that remembers where it is, for `isc_lex_ungettoken`. -/
def saved (lex : Lexer) : Lexer := { lex with savedInput := lex.input, savedParenCount := lex.parenCount }

def afterToken (lex : Lexer) (rest : Bytes) : Lexer := after (saved lex) rest

theorem reading_afterToken (lex : Lexer) (rest : Bytes) : Reading (afterToken lex rest) rest := ⟨rfl, rfl, rfl⟩

theorem plain_afterToken {lex : Lexer} {rest : Bytes} {c : UInt8} : Plain (afterToken lex rest) c ↔ Plain lex c := Iff.rfl

/-- `text` starts with `word`, perhaps after a blank, and goes on with `rest`. -/
def Word (text word rest : Bytes) : Prop := (text = word ++ rest ∨ text = 32 :: (word ++ rest)) ∧ word ≠ [] ∧ Ends rest

variable {word rest : Bytes}

theorem gettoken_word (hread : Reading lex text) (hword : Word text word rest) (opts : Options) :
    gettoken lex opts = loop (saved lex) opts (word ++ rest) (initial lex opts) := by
  obtain ⟨htext, hne, -⟩ := hword
  have hinput : lex.input = text := hread.input
  have hnil : text ≠ [] := by
    rcases htext with rfl | rfl
    · simp [hne]
    · simp
  have hloop : loop (saved lex) opts text (initial lex opts) = loop (saved lex) opts (word ++ rest) (initial lex opts) := by
    rcases htext with rfl | rfl
    · rfl
    · exact loop_blank rfl _
  rw [← hloop, ← hinput]
  unfold gettoken
  rw [if_neg (by rw [hinput]; exact fun h => hnil h.1)]
  rfl

theorem initial_parenCount (hread : Reading lex text) (opts : Options) : (initial lex opts).parenCount = 0 := hread.parenCount

theorem getmastertoken_string (hread : Reading lex text) (hword : Word text word rest)
    (hplain : ∀ c ∈ word, Plain lex c) (eol : Bool) :
    getmastertoken lex .string eol = .ok (.string word, afterToken lex rest) := by
  obtain ⟨c, w, rfl⟩ := exists_cons_of_ne_nil hword.2.1
  have hplain' : ∀ x ∈ c :: w, Plain (saved lex) x := hplain
  unfold getmastertoken
  rw [gettoken_word hread hword, loop_word hplain' hword.2.2 rfl rfl rfl (initial_parenCount hread _) (Or.inl rfl)]
  simp only
  rw [if_neg (by simp [Token.isEnd]), if_neg (by simp), if_pos (by rfl)]
  rfl

theorem getmastertoken_number (hread : Reading lex text) (hword : Word text word rest)
    (hplain : ∀ c ∈ word, Plain lex c ∧ isdigit c = true) (hlt : number word < 2 ^ 32) (eol : Bool) :
    getmastertoken lex .number eol = .ok (.number (number word), afterToken lex rest) := by
  obtain ⟨c, w, rfl⟩ := exists_cons_of_ne_nil hword.2.1
  have hplain' : ∀ x ∈ c :: w, Plain (saved lex) x ∧ isdigit x = true := hplain
  unfold getmastertoken
  rw [gettoken_word hread hword, loop_digits hplain' hword.2.2 rfl rfl (initial_parenCount hread _) rfl hlt]
  simp only
  rw [if_neg (by simp [Token.isEnd]), if_neg (by simp [Token.isString]), if_pos (by rfl)]
  rfl

end Master

end Bind9.Lex
