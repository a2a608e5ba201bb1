import Bind9.Genname

/-! # The fields of a template

The documented grammar of the fields (`FieldText`), what a piece is to print by itself (`Piece.Expands`), and when it does
(`Piece.Alone`).  `genname_expansion` says it for whole templates: at every end of a piece the output is that of the pieces so far,
each by itself. -/

namespace Bind9.Generate

open List

open Bind9.Lex Bind9.Loc

/-! ### The grammar of fields -/

/-- The number `z` with white space and a sign in front. -/
structure NumberText (t : Bytes) (z : ℤ) : Prop where
  spelled : ∃ blanks sign ds, t = blanks ++ (sign ++ ds) ∧ (∀ b ∈ blanks, Rpz.isSpace b = true) ∧ ds ≠ [] ∧
    (∀ d ∈ ds, isdigit d = true) ∧ (sign = [45] ∧ z = -(number ds : ℤ) ∨ (sign = [43] ∨ sign = []) ∧ z = number ds)

/-- `offset[,width[,base]]`, by default `0,0,d`; the offset is an `int` and the width an `unsigned int`. -/
inductive FieldText : Bytes → ℤ → ℕ → UInt8 → Prop where
  | offset {t : Bytes} {z : ℤ} (ht : NumberText t z) (hz : -2 ^ 31 ≤ z ∧ z < 2 ^ 31) : FieldText t z 0 100
  | width {t u : Bytes} {z : ℤ} {w : ℕ} (ht : NumberText t z) (hz : -2 ^ 31 ≤ z ∧ z < 2 ^ 31) (hu : NumberText u w)
      (hw : w < 2 ^ 32) : FieldText (t ++ 44 :: u) z w 100
  | base {t u : Bytes} {z : ℤ} {w : ℕ} {c : UInt8} (ht : NumberText t z) (hz : -2 ^ 31 ≤ z ∧ z < 2 ^ 31) (hu : NumberText u w)
      (hw : w < 2 ^ 32) (hc : c ∈ [100, 111, 120, 88, 110, 78]) : FieldText (t ++ 44 :: (u ++ [44, c])) z w c

/-- The value in the base `c`, filled up with zeros to the width. -/
def fieldText (w : ℕ) (c : UInt8) (value : ℤ) : Bytes :=
  if c = 110 ∨ c = 78 then nibbleText c w (value % 2 ^ 32).toNat else printf w c value

/-- What a piece prints by itself. -/
inductive Piece.Expands (it : Int32) : Piece → Bytes → Prop where
  | literal (c : UInt8) : Expands it (.literal c) [c]
  | pair (c : UInt8) : Expands it (.pair c) [92, c]
  | dollar : Expands it .dollar [36]
  | bare : Expands it .bare (fieldText 0 100 it.toInt)
  | field {t : Bytes} {z : ℤ} {w : ℕ} {c : UInt8} (h : FieldText t z w c) :
      Expands it (.field t true) (fieldText w c (it.toInt + z))

/-- The piece prints just this, where `delta` is the offset that is in force in front of it. -/
def Piece.Alone (it delta : Int32) : Piece → Prop
  | .bare => delta = 0
  | .field t closed => closed = true ∧ ∃ z w c, FieldText t z w c ∧ (c = 100 → -2 ^ 31 ≤ it.toInt + z ∧ it.toInt + z < 2 ^ 31)
  | _ => True

/-- At every end of a piece the output is that of the pieces in front, each by itself. -/
def Independent (fuel : ℕ) (width : UInt32) (mode : UInt8) (name : Bytes) (it : Int32) (length : ℕ) : Prop :=
  ∃ texts, Forall₂ (Piece.Expands it) (pieces name) texts ∧
    ∀ k, genname fuel width mode (((pieces name).take k).flatMap Piece.text) it length = .ok (texts.take k).flatten

/-! ### Reading a field -/

variable {t text name : Bytes} {z : ℤ}

theorem NumberText.scan (h : NumberText t z) {rest : Bytes} (hrest : ∀ c, rest.head? = some c → isdigit c = false) :
    scanNumber (t ++ rest) = some (z, rest) := by
  obtain ⟨blanks, sign, ds, rfl, hblanks, hne, hds, hsign⟩ := h.spelled
  have htake : (ds ++ rest).takeWhile isdigit = ds := by
    rw [takeWhile_append_of_pos hds]
    cases rest with
    | nil => simp
    | cons c rest => simp [hrest c rfl]
  have hdrop : (ds ++ rest).dropWhile isdigit = rest := by
    rw [dropWhile_append_of_pos hds]
    cases rest with
    | nil => rfl
    | cons c rest => simp [hrest c rfl]
  obtain ⟨d, ds', rfl⟩ := exists_cons_of_ne_nil hne
  have hd : isdigit d = true := hds d mem_cons_self
  have hplain : ∀ c : UInt8, isdigit c = true ∨ c = 45 ∨ c = 43 → Rpz.isSpace c = false := by
    intro c hc
    cases hspace : Rpz.isSpace c with
    | false => rfl
    | true =>
      simp only [Rpz.isSpace, Bool.or_eq_true, beq_iff_eq, Bool.and_eq_true, decide_eq_true_eq, UInt8.le_iff_toNat_le] at hspace
      obtain hc | rfl | rfl := hc
      · obtain ⟨h1, -⟩ := isdigit_iff.1 hc
        obtain rfl | ⟨-, hle⟩ := hspace
        · exact absurd h1 (by decide)
        · have hle' : c.toNat ≤ 13 := hle
          omega
      · exact absurd hspace (by decide)
      · exact absurd hspace (by decide)
  have hsign' : ∀ (b : Bool), (scanSign (sign ++ (d :: ds' ++ rest)) = (b, d :: ds' ++ rest)) →
    z = (if b then -(number (d :: ds') : ℤ) else number (d :: ds')) →
      (blanks ++ (sign ++ (d :: ds' ++ rest))).dropWhile Rpz.isSpace = sign ++ (d :: ds' ++ rest) →
      scanNumber (blanks ++ (sign ++ d :: ds') ++ rest) = some (z, rest) := by
    intro b hscan hz hblank
    rw [append_assoc, append_assoc]
    simp only [scanNumber, hblank, hscan, htake, hdrop, if_neg hne, hz]
  have hskip : ∀ {c : UInt8} {s : Bytes}, Rpz.isSpace c = false → (blanks ++ c :: s).dropWhile Rpz.isSpace = c :: s := by
    intro c s hc
    rw [dropWhile_append_of_pos hblanks, dropWhile_cons_of_neg (by simp [hc])]
  obtain ⟨rfl, hz⟩ | ⟨rfl | rfl, hz⟩ := hsign
  · exact hsign' true rfl hz (hskip (hplain 45 (by simp)))
  · exact hsign' false rfl hz (hskip (hplain 43 (by simp)))
  · refine hsign' false ?_ hz (hskip (hplain d (Or.inl hd)))
    obtain ⟨h1, h2⟩ := isdigit_iff.1 hd
    have h45 : d ≠ 45 := by
      rintro rfl
      exact absurd h1 (by decide)
    have h43 : d ≠ 43 := by
      rintro rfl
      exact absurd h1 (by decide)
    simp [scanSign, h45, h43]

theorem toInt_eq (hz : -2 ^ 31 ≤ z ∧ z < 2 ^ 31) : (toInt z).toInt = z := by
  have hclamp : max (-2 ^ 63) (min z (2 ^ 63 - 1)) = z := by omega
  unfold toInt
  rw [hclamp, Int32.toInt_ofInt_of_le hz.1 hz.2]

variable {w fuel : ℕ}

theorem toUnsigned_eq (hw : w < 2 ^ 32) : (toUnsigned (w : ℤ)).toNat = w := by
  have hmod : ((w : ℤ) % 2 ^ 64).toNat = w := by omega
  unfold toUnsigned
  rw [if_pos (by omega), hmod, UInt32.toNat_ofNat_of_lt' hw]

variable {c : UInt8}

theorem FieldText.read (h : FieldText t z w c) :
    fieldFmt (fieldValues t) = some ⟨c = 110 ∨ c = 78, w, c⟩ ∧ (toInt ((fieldValues t).headD 0)).toInt = z := by
  have hnil : ∀ c : UInt8, ([] : Bytes).head? = some c → isdigit c = false := fun c hc => by cases hc
  have hcomma : ∀ (s : Bytes) (c : UInt8), (44 :: s).head? = some c → isdigit c = false := fun s c hc => by
    cases hc
    rfl
  cases h with
  | offset ht hz =>
    have hscan := ht.scan hnil
    rw [append_nil] at hscan
    have hvalues : fieldValues t = [z] := by
      simp [fieldValues, fieldFormat, sscanf, hscan]
    rw [hvalues]
    exact ⟨rfl, toInt_eq hz⟩
  | @width t u z w ht hz hu hw =>
    have hscan := ht.scan (hcomma u)
    have hscan' := hu.scan hnil
    rw [append_nil] at hscan'
    have hvalues : fieldValues (t ++ 44 :: u) = [z, w] := by
      simp [fieldValues, fieldFormat, sscanf, hscan, hscan']
    rw [hvalues]
    refine ⟨?_, toInt_eq hz⟩
    simp only [fieldFmt, toUnsigned_eq hw]
    rfl
  | @base t u z w c ht hz hu hw hc =>
    have hscan := ht.scan (hcomma (u ++ [44, c]))
    have hscan' := hu.scan (hcomma [c])
    have hvalues : fieldValues (t ++ 44 :: (u ++ [44, c])) = [z, w, (c.toNat : ℤ)] := by
      simp [fieldValues, fieldFormat, sscanf, hscan, hscan', hc]
    rw [hvalues]
    refine ⟨?_, toInt_eq hz⟩
    simp [fieldFmt, toUnsigned_eq hw]

/-! ### One piece -/

theorem printf_decimal (w : ℕ) (a : ℤ) : printf w 100 a = if a < 0 then 45 :: dec0 (w - 1) a.natAbs else dec0 w a.natAbs := rfl

/-- The text of a decimal number tells the number. -/
theorem printf_injective {a b : ℤ} (h : printf w 100 a = printf w 100 b) : a = b := by
  have hsign : ∀ {w n w' n'}, 45 :: dec0 w n ≠ dec0 w' n' := fun heq =>
    absurd (dec0_isdigit 45 (heq ▸ mem_cons_self)) (by decide)
  rw [printf_decimal, printf_decimal] at h
  by_cases ha : a < 0
  · by_cases hb : b < 0
    · rw [if_pos ha, if_pos hb] at h
      have hnum := congrArg number (cons.inj h).2
      rw [number_dec0, number_dec0] at hnum
      omega
    · rw [if_pos ha, if_neg hb] at h
      exact absurd h hsign
  by_cases hb : b < 0
  · rw [if_neg ha, if_pos hb] at h
    exact absurd h.symm hsign
  rw [if_neg ha, if_neg hb] at h
  have hnum := congrArg number h
  rw [number_dec0, number_dec0] at hnum
  omega

theorem bmod_of_range (h : -2 ^ 31 ≤ z ∧ z < 2 ^ 31) : z.bmod (2 ^ 32) = z := by
  rw [Int.bmod_eq_of_le_mul_two] <;> omega

/-- The sum in an `int` is printed as the sum, unless it is printed in decimal and out of range. -/
theorem fmt_text_iff (hturns : Fmt.turns ⟨c = 110 ∨ c = 78, w, c⟩ (z.bmod (2 ^ 32)) ≠ none) :
    Fmt.text ⟨c = 110 ∨ c = 78, w, c⟩ (z.bmod (2 ^ 32)) = fieldText w c z ↔ (c = 100 → -2 ^ 31 ≤ z ∧ z < 2 ^ 31) := by
  have hle : -2 ^ 31 ≤ z.bmod (2 ^ 32) := Int.le_bmod (by norm_num)
  have hlt : z.bmod (2 ^ 32) < 2 ^ 31 := Int.bmod_lt (by norm_num)
  have hmod : z.bmod (2 ^ 32) % 2 ^ 32 = z % 2 ^ 32 := Int.bmod_emod
  by_cases hn : c = 110 ∨ c = 78
  · have hc : c ≠ 100 := by
      rintro rfl
      exact absurd hn (by decide)
    simp only [Fmt.turns, decide_eq_true hn, if_true] at hturns
    have hnonneg : 0 ≤ z.bmod (2 ^ 32) := by
      by_contra hneg
      exact hturns (if_neg hneg)
    have hvalue : (z.bmod (2 ^ 32)).toNat = (z % 2 ^ 32).toNat := by omega
    simp only [Fmt.text, fieldText, decide_eq_true hn, if_true, if_pos hn, hvalue, true_iff]
    exact fun h => absurd h hc
  simp only [Fmt.text, fieldText, if_neg hn, decide_eq_false hn]
  by_cases hc : c = 100
  · subst hc
    simp only [true_implies]
    constructor
    · intro h
      have heq := printf_injective h
      omega
    · intro h
      rw [bmod_of_range h]
      rfl
  simp only [hc, false_implies, iff_true]
  simp only [printf, if_neg hc, hmod]
  rfl

theorem Fmt.text_of_result {fmt : Fmt} {value : ℤ} (h : fmt.result value = .ok text) : fmt.text value = text := by
  unfold Fmt.result at h
  split at h
  · cases h
  · exact Except.ok.inj h

variable {it delta : Int32} {p : Piece}

theorem Piece.expands_iff (hres : p.result it delta = .ok text)
    (hturns : p.turns it delta ≠ none) : p.Expands it text ↔ p.Alone it delta := by
  cases p with
  | literal c =>
    cases hres
    exact iff_of_true (.literal c) trivial
  | pair c =>
    cases hres
    exact iff_of_true (.pair c) trivial
  | dollar =>
    cases hres
    exact iff_of_true .dollar trivial
  | bare =>
    have htext : printf 0 100 (it + delta).toInt = text := Fmt.text_of_result hres
    constructor
    · intro h
      generalize hp : Piece.bare = p at h
      cases h with
      | bare =>
        have heq : (it + delta).toInt = it.toInt := printf_injective htext
        have heq' : it + delta = it + 0 := by rw [Int32.toInt_inj.1 heq, Int32.add_zero]
        exact (Int32.add_right_inj it).1 heq'
      | _ => cases hp
    · intro h
      have hzero : delta = 0 := h
      rw [hzero, Int32.add_zero] at htext
      rw [← htext]
      exact .bare
  | field t closed =>
    have hkey : ∀ {z w c}, FieldText t z w c → (text = fieldText w c (it.toInt + z) ↔
        (c = 100 → -2 ^ 31 ≤ it.toInt + z ∧ it.toInt + z < 2 ^ 31)) := by
      intro z w c h
      obtain ⟨hfmt, hdelta⟩ := h.read
      dsimp only [Piece.result, Piece.turns, Piece.fmt, Piece.delta] at hres hturns
      simp only [hfmt, Int32.toInt_add, hdelta] at hres hturns
      rw [← fmt_text_iff hturns, Fmt.text_of_result hres]
    constructor
    · intro h
      cases h with
      | field h => exact ⟨rfl, _, _, _, h, (hkey h).1 rfl⟩
    · rintro ⟨rfl, z, w, c, h, hrange⟩
      rw [(hkey h).2 hrange]
      exact .field h

/-! ### Fronts of a template -/

@[simp] theorem pieces_nil : pieces [] = [] := by rw [pieces]

theorem pieces_dollar (s : Bytes) : pieces (36 :: 36 :: s) = .dollar :: pieces s := by
  rw [pieces]
  simp

theorem pieces_bare {s : Bytes} (h1 : s.head? ≠ some 36) (h2 : s.head? ≠ some 123) : pieces (36 :: s) = .bare :: pieces s := by
  rw [pieces.eq_def]
  simp only [if_true, if_neg h1, if_neg h2]

theorem pieces_pair (d : UInt8) (s : Bytes) : pieces (92 :: d :: s) = .pair d :: pieces s := by
  rw [pieces.eq_def]
  simp only [if_true]
  rw [if_neg (by decide)]

theorem pieces_literal (h1 : c ≠ 36) (h2 : c ≠ 92) (s : Bytes) : pieces (c :: s) = .literal c :: pieces s := by
  rw [pieces.eq_def]
  simp only [if_neg h1, if_neg h2]

theorem skipBrace_closed (ht : ∀ c ∈ t, c ≠ 125) (rest : Bytes) : skipBrace (t ++ 125 :: rest) = rest := by
  induction t with
  | nil => rfl
  | cons c t ih =>
    obtain ⟨hc, ht⟩ := forall_mem_cons.1 ht
    simpa only [cons_append, skipBrace, if_neg hc] using ih ht

theorem skipBrace_open (ht : ∀ c ∈ t, c ≠ 125) : skipBrace t = [] := by
  induction t with
  | nil => rfl
  | cons c t ih =>
    obtain ⟨hc, ht⟩ := forall_mem_cons.1 ht
    simpa only [skipBrace, if_neg hc] using ih ht

theorem pieces_field (h : name.head? = some 123) :
    pieces (36 :: name) = .field (name.tail.takeWhile (· ≠ 125)) (decide (125 ∈ name)) :: pieces (skipBrace name) := by
  have h36 : name.head? ≠ some 36 := by
    rw [h]
    decide
  rw [pieces.eq_def]
  simp only [if_true, if_neg h36, if_pos h]

theorem pieces_closed (ht : ∀ c ∈ t, c ≠ 125) (rest : Bytes) :
    pieces (36 :: 123 :: (t ++ 125 :: rest)) = .field t true :: pieces rest := by
  have htake : (t ++ 125 :: rest).takeWhile (· ≠ 125) = t := by
    rw [takeWhile_append_of_pos (fun c hc => decide_eq_true (ht c hc)), takeWhile_cons_of_neg (by decide), append_nil]
  have hmem : decide (125 ∈ 123 :: (t ++ 125 :: rest)) = true := decide_eq_true (by simp)
  have hskip : skipBrace (123 :: (t ++ 125 :: rest)) = rest := skipBrace_closed ht rest
  rw [pieces_field rfl, tail_cons, htake, hmem, hskip]

theorem pieces_open (ht : ∀ c ∈ t, c ≠ 125) : pieces (36 :: 123 :: t) = [.field t false] := by
  have htake : t.takeWhile (· ≠ 125) = t := takeWhile_eq_self_iff.2 (fun c hc => decide_eq_true (ht c hc))
  have hmem : decide (125 ∈ 123 :: t) = false := decide_eq_false (by
    rw [mem_cons]
    rintro (h | h)
    · exact absurd h (by decide)
    · exact ht 125 h rfl)
  have hskip : skipBrace (123 :: t) = [] := (skipBrace_open ht : skipBrace t = [])
  rw [pieces_field rfl, tail_cons, htake, hmem, hskip, pieces_nil]

theorem field_cases (s : Bytes) : ∃ t, (∀ c ∈ t, c ≠ 125) ∧ (s = t ++ 125 :: skipBrace s ∨ s = t ∧ skipBrace s = []) := by
  have ht : ∀ c ∈ s.takeWhile (· ≠ 125), c ≠ 125 := fun c hc => by simpa using mem_takeWhile_imp hc
  have hsplit := field_split s
  refine ⟨s.takeWhile (· ≠ 125), ht, ?_⟩
  by_cases hmem : 125 ∈ s
  · rw [if_pos hmem] at hsplit
    exact .inl hsplit
  · rw [if_neg hmem, append_nil] at hsplit
    exact .inr ⟨hsplit, skipBrace_open (fun c hc h => hmem (h ▸ hc))⟩

theorem pieces_text (name : Bytes) : (pieces name).flatMap Piece.text = name := by
  fun_induction pieces name with
  | case1 => rfl
  | case2 name hd ih =>
    obtain ⟨s, rfl⟩ : ∃ s, name = 36 :: s := head?_eq_some_iff.1 hd
    simpa [Piece.text] using ih
  | case3 name hd hbrace ih =>
    obtain ⟨s, rfl⟩ : ∃ s, name = 123 :: s := head?_eq_some_iff.1 hbrace
    have hskip : skipBrace (123 :: s) = skipBrace s := rfl
    rw [← pieces_field rfl]
    rw [hskip] at ih
    obtain ⟨t, ht, hs | ⟨rfl, -⟩⟩ := field_cases s
    · rw [hs, pieces_closed ht, flatMap_cons, ih]
      simp [Piece.text]
    · rw [pieces_open ht]
      simp [Piece.text]
  | case4 name hd hbrace ih | case6 d name hc ih | case7 c name hc h92 ih => simpa [Piece.text] using ih
  | case5 hc => rfl

theorem pieces_take (name : Bytes) (k : ℕ) : pieces (((pieces name).take k).flatMap Piece.text) = (pieces name).take k := by
  fun_induction pieces name generalizing k with
  | case1 => simp
  | case2 name hd ih =>
    cases k with
    | zero => simp
    | succ k =>
      rw [take_succ_cons, flatMap_cons]
      exact (pieces_dollar _).trans (congrArg _ (ih k))
  | case3 name hd hbrace ih =>
    obtain ⟨s, rfl⟩ : ∃ s, name = 123 :: s := head?_eq_some_iff.1 hbrace
    rw [← pieces_field rfl]
    obtain ⟨t, ht, hs | ⟨rfl, -⟩⟩ := field_cases s
    · have hskip : skipBrace (123 :: s) = skipBrace s := rfl
      rw [hs, pieces_closed ht]
      rw [hskip] at ih
      cases k with
      | zero => simp
      | succ k =>
        rw [take_succ_cons, flatMap_cons]
        have htext : (Piece.field t true).text ++ ((pieces (skipBrace s)).take k).flatMap Piece.text =
            36 :: 123 :: (t ++ 125 :: ((pieces (skipBrace s)).take k).flatMap Piece.text) := by simp [Piece.text]
        rw [htext, pieces_closed ht, ih k]
    rw [pieces_open ht]
    cases k with
    | zero => simp
    | succ k =>
      have htext : ([Piece.field s false].take (k + 1)).flatMap Piece.text = 36 :: 123 :: s := by simp [Piece.text]
      rw [htext, pieces_open ht]
      simp
  | case4 name hd hbrace ih =>
    cases k with
    | zero => simp
    | succ k =>
      have hfront : ∀ c, name.head? ≠ some c → (((pieces name).take k).flatMap Piece.text).head? ≠ some c := by
        intro c hc h
        obtain ⟨front, hname⟩ := head?_eq_some_iff.1 h
        have hsplit := pieces_text name
        rw [← take_append_drop k (pieces name), flatMap_append, hname] at hsplit
        rw [← hsplit] at hc
        exact hc rfl
      rw [take_succ_cons, flatMap_cons]
      exact (pieces_bare (hfront 36 hd) (hfront 123 hbrace)).trans (congrArg _ (ih k))
  | case5 hc =>
    have hend : pieces [92] = [.literal 92] := by
      rw [pieces.eq_def]
      simp
    cases k with
    | zero => simp
    | succ k => simpa [Piece.text] using hend
  | case6 d name hc ih =>
    cases k with
    | zero => simp
    | succ k =>
      rw [take_succ_cons, flatMap_cons]
      exact (pieces_pair d _).trans (congrArg _ (ih k))
  | case7 c name hc h92 ih =>
    cases k with
    | zero => simp
    | succ k =>
      rw [take_succ_cons, flatMap_cons]
      exact (pieces_literal hc h92 _).trans (congrArg _ (ih k))

/-! ### Whole templates -/

/-- The texts that the pieces come to one after the other, where `delta` is the offset in force at the start. -/
inductive Prints (it : Int32) : Int32 → List Piece → List Bytes → Prop where
  | nil {delta : Int32} : Prints it delta [] []
  | cons {delta : Int32} {p : Piece} {t : Bytes} {ps : List Piece} {ts : List Bytes} (hres : p.result it delta = .ok t)
      (hturns : p.turns it delta ≠ none) (hrest : Prints it (p.delta delta) ps ts) : Prints it delta (p :: ps) (t :: ts)

variable {ps : List Piece}

theorem Prints.unique {ts ts' : List Bytes} (h : Prints it delta ps ts) (h' : Prints it delta ps ts') : ts = ts' := by
  induction h generalizing ts' with
  | nil =>
    cases h'
    rfl
  | cons hres _ _ ih =>
    cases h' with
    | cons hres' _ hrest' => rw [Except.ok.inj (hres.symm.trans hres'), ih hrest']

variable {ts : List Bytes}

theorem Prints.take (h : Prints it delta ps ts) (k : ℕ) : Prints it delta (ps.take k) (ts.take k) := by
  induction h generalizing k with
  | nil =>
    rw [take_nil, take_nil]
    exact .nil
  | cons hres hturns _ ih =>
    cases k with
    | zero => exact .nil
    | succ k => exact .cons hres hturns (ih k)

theorem Prints.length_eq (h : Prints it delta ps ts) : ts.length = ps.length := by
  induction h with
  | nil => rfl
  | cons _ _ _ ih => rw [length_cons, length_cons, ih]

/-- The offset in force behind the pieces. -/
def deltaAfter (delta : Int32) (ps : List Piece) : Int32 := ps.foldl (fun delta p => p.delta delta) delta

theorem Prints.expands_iff (h : Prints it delta ps ts) :
    Forall₂ (Piece.Expands it) ps ts ↔ ∀ front p back, ps = front ++ p :: back → p.Alone it (deltaAfter delta front) := by
  induction h with
  | nil =>
    refine iff_of_true .nil (fun front p back heq => ?_)
    simp at heq
  | @cons delta p t ps ts hres hturns hrest ih =>
    rw [forall₂_cons, ih, Piece.expands_iff hres hturns]
    constructor
    · rintro ⟨hhead, htail⟩ front q back heq
      cases front with
      | nil =>
        cases heq
        exact hhead
      | cons r front =>
        obtain ⟨rfl, htl⟩ := cons.inj heq
        exact htail front q back htl
    · intro hall
      exact ⟨hall [] p ps rfl, fun front q back heq => hall (p :: front) q back (by rw [heq]; rfl)⟩

theorem Piece.next_delta {v : Locals} (h : p.result it v.delta = .ok text) : (p.next v).delta = p.delta v.delta := by
  cases p with
  | field t closed =>
    cases hfmt : fieldFmt (fieldValues t) with
    | none =>
      dsimp only [Piece.result, Piece.fmt] at h
      rw [hfmt] at h
      cases h
    | some fmt => exact Locals.read_delta hfmt
  | _ => rfl

theorem Piece.next_r (v : Locals) (p : Piece) : (p.next v).r = v.r := by
  cases p with
  | field t closed => exact Locals.read_r v _
  | _ => rfl

/-- What a step of the loop has done. -/
theorem printPiece_ok {v v' : Locals} (hv : v.Within) (h : printPiece fuel it v p = .ok v') :
    ∃ text, p.result it v.delta = .ok text ∧ p.turns it v.delta ≠ none ∧ text.length ≤ v.r.length ∧ v'.Within ∧
      v'.delta = p.delta v.delta ∧ v'.r = (v.after text).r := by
  rw [printPiece_eq fuel it hv p] at h
  cases hturns : p.turns it v.delta with
  | none =>
    rw [hturns] at h
    cases h
  | some turns =>
    rw [hturns] at h
    simp only at h
    split at h
    · cases hres : p.result it v.delta with
      | error r =>
        rw [hres] at h
        cases h
      | ok text =>
        rw [hres] at h
        simp only at h
        split at h
        · rename_i hle
          have hnext : (p.next v).Within := by
            unfold Locals.Within
            rw [Piece.next_r]
            exact hv
          obtain rfl := Except.ok.inj h
          refine ⟨text, rfl, by simp, hle, hnext.after (by rw [Piece.next_r]; exact hle), Piece.next_delta hres, ?_⟩
          simp only [Locals.after, Piece.next_r]
        · cases h
    · cases h

/-- What the loop has done. -/
theorem foldlM_prints : ∀ {ps : List Piece} {v v' : Locals}, v.Within →
    ps.foldlM (printPiece fuel it) v = .ok v' → ∃ texts, Prints it v.delta ps texts ∧ v'.Within ∧
      v'.r.written = v.r.written ++ texts.flatten ∧ v'.r.size = v.r.size
  | [], v, v', hv, h => by
    obtain rfl : v = v' := Except.ok.inj h
    exact ⟨[], .nil, hv, by simp, rfl⟩
  | p :: ps, v, v', hv, h => by
    rw [foldlM_cons] at h
    obtain ⟨v1, hstep, hrest⟩ := bind_eq_ok h
    obtain ⟨text, hres, hturns, -, hv1, hdelta, hr⟩ := printPiece_ok hv hstep
    obtain ⟨texts, hprints, hv', hwritten, hsize⟩ := foldlM_prints hv1 hrest
    rw [hdelta] at hprints
    refine ⟨text :: texts, .cons hres hturns hprints, hv', ?_, ?_⟩
    · rw [hwritten, hr, flatten_cons, ← append_assoc]
      rfl
    · rw [hsize, hr]
      rfl

def start (length : ℕ) (width : UInt32) (mode : UInt8) : Locals := ⟨⟨length, [], length⟩, 0, width, mode⟩

theorem start_within (length : ℕ) (width : UInt32) (mode : UInt8) : (start length width mode).Within := Nat.zero_add length

theorem genname_eq (fuel : ℕ) (width : UInt32) (mode : UInt8) (name : Bytes) (it : Int32) (length : ℕ) :
    genname fuel width mode name it length = ((pieces name).foldlM (printPiece fuel it) (start length width mode) >>= fun v =>
      if v.r.length = 0 then fail .nospace else if v.r.written.length < v.r.size then .ok v.r.written
      else .error (.stop .overrun)) := by
  unfold genname
  rw [gennameLoop_eq]
  rfl

theorem genname_prints {width : UInt32} {mode : UInt8} {length : ℕ} {out : Bytes}
    (h : genname fuel width mode name it length = .ok out) : ∃ texts, Prints it 0 (pieces name) texts ∧ out = texts.flatten ∧
      ∀ k, genname fuel width mode (((pieces name).take k).flatMap Piece.text) it length = .ok (texts.take k).flatten := by
  rw [genname_eq] at h
  obtain ⟨v, hloop, hend⟩ := bind_eq_ok h
  obtain ⟨texts, hprints, hv, hwritten, hsize⟩ := foldlM_prints (start_within length width mode) hloop
  have hpos : v.r.length ≠ 0 := fun hzero => by
    rw [if_pos hzero] at hend
    cases hend
  unfold Locals.Within at hv
  rw [if_neg hpos, if_pos (by omega)] at hend
  refine ⟨texts, hprints, (Except.ok.inj hend).symm.trans hwritten, fun k => ?_⟩
  have hloop' := hloop
  rw [← take_append_drop k (pieces name), foldlM_append] at hloop'
  obtain ⟨v1, hfront, hback⟩ := bind_eq_ok hloop'
  obtain ⟨texts1, hprints1, hv1, hwritten1, hsize1⟩ := foldlM_prints (start_within length width mode) hfront
  obtain ⟨texts2, -, -, hwritten2, -⟩ := foldlM_prints hv1 hback
  unfold Locals.Within at hv1
  have htexts : texts1 = texts.take k := hprints1.unique (hprints.take k)
  have hlen := congrArg List.length hwritten2
  rw [length_append] at hlen
  rw [genname_eq, pieces_take, hfront, ok_then, if_neg (by omega), if_pos (by omega), hwritten1, htexts]
  rfl

/-- Lists of texts with the same fronts are the same. -/
theorem eq_of_flatten_take : ∀ {a b : List Bytes}, a.length = b.length → (∀ k, (a.take k).flatten = (b.take k).flatten) → a = b
  | [], [], _, _ => rfl
  | x :: a, y :: b, hlen, h => by
    have hhead : x = y := by simpa using h 1
    subst hhead
    have htail : a = b := eq_of_flatten_take (Nat.succ_injective hlen) (fun k => by simpa using h (k + 1))
    rw [htail]

theorem independent_iff {width : UInt32} {mode : UInt8} {length : ℕ} {out : Bytes}
    (h : genname fuel width mode name it length = .ok out) : Independent fuel width mode name it length ↔
      ∀ front p back, pieces name = front ++ p :: back → p.Alone it (deltaAfter 0 front) := by
  obtain ⟨texts, hprints, -, hfronts⟩ := genname_prints h
  rw [← hprints.expands_iff]
  constructor
  · rintro ⟨texts', hexpands, hfronts'⟩
    have hall : ∀ k, (texts.take k).flatten = (texts'.take k).flatten := fun k =>
      Except.ok.inj ((hfronts k).symm.trans (hfronts' k))
    rw [eq_of_flatten_take (hprints.length_eq.trans hexpands.length_eq) hall]
    exact hexpands
  · intro hexpands
    exact ⟨texts, hexpands, hfronts⟩

/-- **The pieces of a template.**  Where `genname` succeeds each piece is printed by itself iff every field is spelled as documented,
with a sum that fits an `int` where it is printed in decimal, and no bare `$` stands behind a field with an offset. -/
theorem genname_expansion (fuel : ℕ) (width : UInt32) (mode : UInt8) (name : Bytes) (it : Int32) (length : ℕ) (out : Bytes)
    (h : genname fuel width mode name it length = .ok out) : Independent fuel width mode name it length ↔
      ∀ front p back, pieces name = front ++ p :: back → p.Alone it (deltaAfter 0 front) := independent_iff h

/-- The template `$-${2,3,x}` at 10 prints `10-00c`. -/
theorem genname_expansion_plain :
    genname 0 0 0 [36, 45, 36, 123, 50, 44, 51, 44, 120, 125] 10 64 = .ok [49, 48, 45, 48, 48, 99] ∧
      Independent 0 0 0 [36, 45, 36, 123, 50, 44, 51, 44, 120, 125] 10 64 := by
  have hout : genname 0 0 0 [36, 45, 36, 123, 50, 44, 51, 44, 120, 125] 10 64 = .ok [49, 48, 45, 48, 48, 99] := by decide +kernel
  refine ⟨hout, (genname_expansion 0 0 0 _ 10 64 _ hout).2 (fun front p back heq => ?_)⟩
  have hpieces : pieces [36, 45, 36, 123, 50, 44, 51, 44, 120, 125] = [.bare, .literal 45, .field [50, 44, 51, 44, 120] true] := by
    decide +kernel
  have hnumber : ∀ d : UInt8, isdigit d = true → NumberText [d] (number [d]) := fun d hd =>
    ⟨[], [], [d], rfl, by simp, by simp, by simpa using hd, Or.inr ⟨Or.inr rfl, rfl⟩⟩
  rw [hpieces] at heq
  match front, heq with
  | [], heq =>
    cases heq
    exact rfl
  | [_], heq =>
    cases heq
    exact trivial
  | [_, _], heq =>
    cases heq
    exact ⟨rfl, 2, 3, 120, .base (hnumber 50 rfl) (by decide) (hnumber 51 rfl) (by decide) (by decide), by decide⟩
  | _ :: _ :: _ :: front, heq => simp at heq

/-- The template `${5} $` at 1 prints `6 6`: the offset of the field is added to the bare `$` behind it. -/
theorem genname_expansion_offset : genname 0 0 0 [36, 123, 53, 125, 32, 36] 1 64 = .ok [54, 32, 54] ∧
    ¬Independent 0 0 0 [36, 123, 53, 125, 32, 36] 1 64 := by
  have hout : genname 0 0 0 [36, 123, 53, 125, 32, 36] 1 64 = .ok [54, 32, 54] := by decide +kernel
  have hpieces : pieces [36, 123, 53, 125, 32, 36] = [.field [53] true, .literal 32] ++ .bare :: [] := by decide +kernel
  refine ⟨hout, fun h => ?_⟩
  have hbare : deltaAfter 0 [.field [53] true, .literal 32] = 0 := (independent_iff hout).1 h _ _ _ hpieces
  exact absurd hbare (by decide +kernel)

end Bind9.Generate
