import Bind9.LocText

/-! # The text of TTLs

`bind_ttl` and `dns_ttl_fromtext`, `ttlfmt` and `dns_ttl_totext`.  The numbers of a text are 32-bit words, their products with the
seconds of a unit and the sum of these are taken modulo 2^32. -/

namespace Bind9.Ttl

open List hiding Lex

open Bind9.Lex

def badttl : Result := .other 65562

/-! ### Reading -/

/-- What the letter behind the number `n` adds. -/
def scaled (c : UInt8) (n : UInt32) : Option UInt32 :=
  -- w, d, h, m and s
  if c = 119 ∨ c = 87 then some (n * 7 * 24 * 3600)
  else if c = 100 ∨ c = 68 then some (n * 24 * 3600)
  else if c = 104 ∨ c = 72 then some (n * 3600)
  else if c = 109 ∨ c = 77 then some (n * 60)
  else if c = 115 ∨ c = 83 then some n
  else none

/-- The number at the start of the C string `s`, copied to `nbuf`. -/
def nextNumber (s : Bytes) : Exec UInt32 := do
  let nbuf := s.takeWhile isdigit
  require (decide (nbuf.length + 1 ≤ 64))
  match parseUint32 nbuf with
  | .error _ => stop .syntaxerr
  | .ok n => .ok (UInt32.ofNat n)

/-- The loop of `bind_ttl` over the C string `s`. -/
def loop (s : Bytes) (tmp : UInt32) : Exec UInt32 :=
  match nextNumber s with
  | .error e => .error e
  | .ok n =>
    match _h : s.dropWhile isdigit with
    | [] => if tmp ≠ 0 then stop .syntaxerr else .ok n
    | c :: rest =>
      match scaled c n with
      | none => stop .syntaxerr
      | some seconds => if rest = [] then .ok (tmp + seconds) else loop rest (tmp + seconds)
termination_by s.length
decreasing_by
  have hle := (dropWhile_suffix isdigit : s.dropWhile isdigit <:+ s).length_le
  rw [_h, length_cons] at hle
  omega

/-- `bind_ttl`: `strncpy` copies up to the first `NUL`. -/
def bindTtl (source : Bytes) : Exec UInt32 :=
  if 63 < source.length then stop .syntaxerr else loop (source.takeWhile (· ≠ 0)) 0

def dnsTtlFromtext (source : Bytes) : Exec UInt32 :=
  match bindTtl source with
  | .error (.result _) => stop badttl
  | r => r

/-! ### Printing -/

def ttlfmt (t : ℕ) (s : Bytes) (verbose space : Bool) (target : Buffer) : Exec Buffer := do
  let tmp := if verbose then (if space then [32] else []) ++ Loc.dec t ++ [32] ++ s ++ (if t = 1 then [] else [115])
    else Loc.dec t ++ s.take 1
  require (decide (tmp.length + 1 ≤ 60))
  memTobuffer target tmp

/-- A part of the text, behind `x` others. -/
def part (verbose : Bool) (t : ℕ) (s : Bytes) (print : Bool) (x : ℕ) (target : Buffer) : Exec (ℕ × Buffer) :=
  if print then do
    let target ← ttlfmt t s verbose (decide (0 < x)) target
    pure (x + 1, target)
  else pure (x, target)

/-- `toupper` of the last byte of a string. -/
def upperLast : Bytes → Bytes
  | [] => []
  | [c] => [toupper c]
  | c :: d :: text => c :: upperLast (d :: text)

def dnsTtlTotext (src : UInt32) (verbose : Bool) (target : Buffer) : Exec Buffer := do
  let secs := src.toNat % 60
  let mins := src.toNat / 60 % 60
  let hours := src.toNat / 60 / 60 % 24
  let days := src.toNat / 60 / 60 / 24 % 7
  let weeks := src.toNat / 60 / 60 / 24 / 7
  -- week, day, hour, minute and second
  let (x, target) ← part verbose weeks [119, 101, 101, 107] (weeks ≠ 0) 0 target
  let (x, target) ← part verbose days [100, 97, 121] (days ≠ 0) x target
  let (x, target) ← part verbose hours [104, 111, 117, 114] (hours ≠ 0) x target
  let (x, target) ← part verbose mins [109, 105, 110, 117, 116, 101] (mins ≠ 0) x target
  let (x, target) ← part verbose secs [115, 101, 99, 111, 110, 100]
    (decide (secs ≠ 0) || decide (weeks = 0 ∧ days = 0 ∧ hours = 0 ∧ mins = 0)) x target
  require (decide (0 < x))
  pure (if x = 1 ∧ verbose = false then { target with data := upperLast target.data } else target)

/-! ### Written texts -/

def unitSeconds (c : UInt8) : Option ℕ :=
  if c = 119 ∨ c = 87 then some 604800
  else if c = 100 ∨ c = 68 then some 86400
  else if c = 104 ∨ c = 72 then some 3600
  else if c = 109 ∨ c = 77 then some 60
  else if c = 115 ∨ c = 83 then some 1
  else none

/-- A number with the unit behind it. -/
structure Part where
  digits : Bytes
  unit : UInt8
  seconds : ℕ
  ne : digits ≠ []
  isdigit : ∀ c ∈ digits, isdigit c = true
  isunit : unitSeconds unit = some seconds

def Part.text (p : Part) : Bytes := p.digits ++ [p.unit]

def Part.value (p : Part) : ℕ := number p.digits * p.seconds

def spell (parts : List Part) : Bytes := parts.flatMap Part.text

/-- What a sequence of parts says. -/
def total (parts : List Part) : ℕ := (parts.map Part.value).sum

/-- The text says `value`: numbers with units that sum to it, or one plain number. -/
def Says (source : Bytes) (value : ℕ) : Prop :=
  (∃ parts, parts ≠ [] ∧ source = spell parts ∧ value = total parts) ∨
    (source ≠ [] ∧ (∀ c ∈ source, isdigit c = true) ∧ value = number source)

/-- The text is read, up to its first `NUL`, as parts and a plain number behind them, each number below 2^32. -/
structure Reads (source : Bytes) (parts : List Part) (plain : Bytes) : Prop where
  length : source.length ≤ 63
  text : source.takeWhile (· ≠ 0) = spell parts ++ plain
  numbers : ∀ p ∈ parts, number p.digits < 2 ^ 32
  isdigit : ∀ c ∈ plain, isdigit c = true
  number : number plain < 2 ^ 32
  /-- The text ends with a unit, or with a number behind units that sum to nothing. -/
  ends : plain = [] ∧ parts ≠ [] ∨ plain ≠ [] ∧ 2 ^ 32 ∣ total parts

/-- The text is read although it has a `NUL`, its sum is past 2^32, or a plain number stands behind units. -/
def Misread (source : Bytes) : Prop :=
  ∃ parts plain, Reads source parts plain ∧ (0 ∈ source ∨ 2 ^ 32 ≤ total parts ∨ parts ≠ [] ∧ plain ≠ [])

/-! ### Units -/

theorem scaled_eq (c : UInt8) (n : UInt32) : scaled c n = (unitSeconds c).map (fun k => n * UInt32.ofNat k) := by
  have hweek : n * 7 * 24 * 3600 = n * UInt32.ofNat 604800 := by
    rw [UInt32.mul_assoc, UInt32.mul_assoc]
    rfl
  have hday : n * 24 * 3600 = n * UInt32.ofNat 86400 := by
    rw [UInt32.mul_assoc]
    rfl
  unfold scaled unitSeconds
  rw [hweek, hday]
  split_ifs
  · rfl
  · rfl
  · rfl
  · rfl
  · exact congrArg some (UInt32.mul_one n).symm
  · rfl

theorem unitSeconds_some {c : UInt8} {k : ℕ} (h : unitSeconds c = some k) : Lex.isdigit c = false ∧ c ≠ 0 := by
  unfold unitSeconds at h
  split_ifs at h with h1 h2 h3 h4 h5
  · obtain rfl | rfl := h1 <;> decide
  · obtain rfl | rfl := h2 <;> decide
  · obtain rfl | rfl := h3 <;> decide
  · obtain rfl | rfl := h4 <;> decide
  · obtain rfl | rfl := h5 <;> decide

theorem isdigit_ne_zero {c : UInt8} (h : Lex.isdigit c = true) : c ≠ 0 := by
  rintro rfl
  cases h

namespace Part

variable (p : Part)

theorem text_ne : p.text ≠ [] := by
  unfold text
  simp

theorem text_mem_ne_zero : ∀ c ∈ p.text, c ≠ 0 := by
  intro c hc
  obtain hc | hc := mem_append.1 hc
  · exact isdigit_ne_zero (p.isdigit c hc)
  · rw [mem_singleton.1 hc]
    exact (unitSeconds_some p.isunit).2

theorem takeWhile_text (rest : Bytes) : (p.text ++ rest).takeWhile Lex.isdigit = p.digits := by
  unfold text
  rw [append_assoc, takeWhile_append_of_pos p.isdigit, singleton_append,
    takeWhile_cons_of_neg (by rw [(unitSeconds_some p.isunit).1]; decide), append_nil]

theorem dropWhile_text (rest : Bytes) : (p.text ++ rest).dropWhile Lex.isdigit = p.unit :: rest := by
  unfold text
  rw [append_assoc, dropWhile_append_of_pos p.isdigit, singleton_append,
    dropWhile_cons_of_neg (by rw [(unitSeconds_some p.isunit).1]; decide)]

theorem scaled_value : scaled p.unit (UInt32.ofNat (number p.digits)) = some (UInt32.ofNat p.value) := by
  rw [scaled_eq, p.isunit, Option.map_some, value, UInt32.ofNat_mul]

end Part

@[simp] theorem spell_cons (p : Part) (parts : List Part) : spell (p :: parts) = p.text ++ spell parts := flatMap_cons

@[simp] theorem total_cons (p : Part) (parts : List Part) : total (p :: parts) = p.value + total parts := by
  unfold total
  rw [map_cons, sum_cons]

theorem spell_append (a b : List Part) : spell (a ++ b) = spell a ++ spell b := flatMap_append

theorem total_append (a b : List Part) : total (a ++ b) = total a + total b := by
  unfold total
  rw [map_append, sum_append]

variable {parts : List Part}

theorem spell_mem_ne_zero : ∀ c ∈ spell parts, c ≠ 0 := by
  intro c hc
  obtain ⟨p, -, hc⟩ := mem_flatMap.1 hc
  exact p.text_mem_ne_zero c hc

/-! ### The loop -/

theorem parseUint32_ok {nbuf : Bytes} {n : ℕ} (h : parseUint32 nbuf = .ok n) :
    nbuf ≠ [] ∧ number nbuf < 2 ^ 32 ∧ n = number nbuf := by
  unfold parseUint32 at h
  split_ifs at h with hne hlt
  · exact ⟨hne, hlt, (Except.ok.inj h).symm⟩

variable {s plain source : Bytes}

theorem nextNumber_ok {n : UInt32} (h : nextNumber s = .ok n) :
    s.takeWhile isdigit ≠ [] ∧ number (s.takeWhile isdigit) < 2 ^ 32 ∧ n = UInt32.ofNat (number (s.takeWhile isdigit)) := by
  obtain ⟨u, -, h⟩ := bind_eq_ok h
  cases hparse : parseUint32 (s.takeWhile isdigit) with
  | error e =>
    rw [hparse] at h
    cases h
  | ok m =>
    rw [hparse] at h
    obtain ⟨hne, hlt, rfl⟩ := parseUint32_ok hparse
    exact ⟨hne, hlt, (Except.ok.inj h).symm⟩

theorem nextNumber_eq {ds : Bytes} (hds : s.takeWhile isdigit = ds) (hne : ds ≠ []) (hlen : ds.length ≤ 63)
    (hlt : number ds < 2 ^ 32) : nextNumber s = .ok (UInt32.ofNat (number ds)) := by
  have hparse : parseUint32 ds = .ok (number ds) := by rw [parseUint32, if_neg hne, if_pos hlt]
  have hroom : require (decide (ds.length + 1 ≤ 64)) = .ok () := require_true (decide_eq_true (by omega))
  unfold nextNumber
  simp only
  rw [hds, hroom, ok_then, hparse]

theorem loop_part (p : Part) {rest : Bytes} {tmp : UInt32} (hlen : p.digits.length ≤ 63) (hlt : number p.digits < 2 ^ 32) :
    loop (p.text ++ rest) tmp =
      if rest = [] then .ok (tmp + UInt32.ofNat p.value) else loop rest (tmp + UInt32.ofNat p.value) := by
  rw [loop, nextNumber_eq (p.takeWhile_text rest) p.ne hlen hlt]
  simp only
  split
  · next h => cases h.symm.trans (p.dropWhile_text rest)
  next c rest' h =>
    obtain ⟨rfl, rfl⟩ := cons.inj (h.symm.trans (p.dropWhile_text rest))
    rw [p.scaled_value]

theorem loop_plain {tmp : UInt32} (hne : plain ≠ []) (hdigit : ∀ c ∈ plain, isdigit c = true)
    (hlen : plain.length ≤ 63) (hlt : number plain < 2 ^ 32) :
    loop plain tmp = if tmp ≠ 0 then stop .syntaxerr else .ok (UInt32.ofNat (number plain)) := by
  rw [loop, nextNumber_eq (takeWhile_eq_self_iff.2 hdigit) hne hlen hlt]
  simp only
  split
  · rfl
  · next h => cases h.symm.trans (dropWhile_eq_nil_iff.2 hdigit)

theorem loop_ok {tmp v : UInt32} (h : loop s tmp = .ok v) :
    (s ≠ [] ∧ (∀ c ∈ s, isdigit c = true) ∧ number s < 2 ^ 32 ∧ tmp = 0 ∧ v = UInt32.ofNat (number s)) ∨
      ∃ (p : Part) (rest : Bytes), s = p.text ++ rest ∧ number p.digits < 2 ^ 32 ∧
        (rest = [] ∧ v = tmp + UInt32.ofNat p.value ∨ rest ≠ [] ∧ loop rest (tmp + UInt32.ofNat p.value) = .ok v) := by
  rw [loop] at h
  cases hnumber : nextNumber s with
  | error e =>
    rw [hnumber] at h
    cases h
  | ok n =>
    rw [hnumber] at h
    obtain ⟨hne, hlt, rfl⟩ := nextNumber_ok hnumber
    simp only at h
    split at h
    · next hdrop =>
        have hall := dropWhile_eq_nil_iff.1 hdrop
        rw [takeWhile_eq_self_iff.2 hall] at hne hlt h
        split_ifs at h with htmp
        · cases h
        · exact .inl ⟨hne, hall, hlt, not_not.1 htmp, (Except.ok.inj h).symm⟩
    next c rest hdrop =>
      have hs : s = (s.takeWhile isdigit ++ [c]) ++ rest := by
        rw [append_assoc, singleton_append, ← hdrop, takeWhile_append_dropWhile]
      cases hunit : unitSeconds c with
      | none =>
        rw [scaled_eq, hunit] at h
        cases h
      | some k =>
        let p : Part := ⟨s.takeWhile isdigit, c, k, hne, fun c hc => mem_takeWhile_imp hc, hunit⟩
        have hscaled : scaled c (UInt32.ofNat (number (s.takeWhile isdigit))) = some (UInt32.ofNat p.value) := p.scaled_value
        rw [hscaled] at h
        refine .inr ⟨p, rest, hs, hlt, ?_⟩
        split_ifs at h with hrest
        · exact .inl ⟨hrest, (Except.ok.inj h).symm⟩
        · exact .inr ⟨hrest, h⟩

/-- The word that a read text stands for. -/
def Outcome (tmp : UInt32) (parts : List Part) (plain : Bytes) (v : UInt32) : Prop :=
  plain = [] ∧ parts ≠ [] ∧ v = tmp + UInt32.ofNat (total parts) ∨
    plain ≠ [] ∧ tmp + UInt32.ofNat (total parts) = 0 ∧ v = UInt32.ofNat (number plain)

theorem Outcome.cons {tmp v : UInt32} {p : Part} {parts : List Part} {plain : Bytes}
    (h : Outcome (tmp + UInt32.ofNat p.value) parts plain v) : Outcome tmp (p :: parts) plain v := by
  unfold Outcome
  rw [total_cons, UInt32.ofNat_add, ← UInt32.add_assoc]
  obtain ⟨h1, -, h2⟩ | h := h
  · exact .inl ⟨h1, cons_ne_nil _ _, h2⟩
  · exact .inr h

theorem loop_reads : ∀ (n : ℕ) {s : Bytes} {tmp v : UInt32}, s.length ≤ n → loop s tmp = .ok v →
    ∃ parts plain, s = spell parts ++ plain ∧ (∀ p ∈ parts, number p.digits < 2 ^ 32) ∧ (∀ c ∈ plain, isdigit c = true) ∧
      number plain < 2 ^ 32 ∧ Outcome tmp parts plain v := by
  intro n
  induction n with
  | zero =>
    intro s tmp v hlen h
    obtain rfl := length_eq_zero_iff.1 (Nat.le_zero.1 hlen)
    obtain ⟨hne, -⟩ | ⟨p, rest, htext, -⟩ := loop_ok h
    · exact absurd rfl hne
    · exact absurd (append_eq_nil_iff.1 htext.symm).1 p.text_ne
  | succ n ih =>
    intro s tmp v hlen h
    obtain ⟨hne, hdigit, hlt, htmp, hv⟩ | ⟨p, rest, rfl, hlt, ⟨rfl, hv⟩ | ⟨hrest, h⟩⟩ := loop_ok h
    · refine ⟨[], s, rfl, nofun, hdigit, hlt, Or.inr ⟨hne, ?_, hv⟩⟩
      rw [htmp]
      rfl
    · refine ⟨[p], [], by simp [spell], forall_mem_singleton.2 hlt, nofun, by decide, Or.inl ⟨rfl, cons_ne_nil _ _, ?_⟩⟩
      rw [hv, total_cons]
      rfl
    · have hpos := length_pos_of_ne_nil p.text_ne
      rw [length_append] at hlen
      obtain ⟨parts, plain, rfl, hnumbers, hdigit, hplain, hout⟩ := ih (by omega) h
      refine ⟨p :: parts, plain, ?_, forall_mem_cons.2 ⟨hlt, hnumbers⟩, hdigit, hplain, hout.cons⟩
      rw [spell_cons, append_assoc]

theorem loop_spell : ∀ {parts : List Part} {plain : Bytes} {tmp v : UInt32}, (spell parts ++ plain).length ≤ 63 →
    (∀ p ∈ parts, number p.digits < 2 ^ 32) → (∀ c ∈ plain, isdigit c = true) → number plain < 2 ^ 32 →
    Outcome tmp parts plain v → loop (spell parts ++ plain) tmp = .ok v
  | [], plain, tmp, v, hlen, _, hdigit, hlt, hout => by
    obtain ⟨-, hne, -⟩ | ⟨hne, htmp, rfl⟩ := hout
    · exact absurd rfl hne
    have htmp : tmp = 0 := by
      rw [← htmp]
      exact (UInt32.add_zero tmp).symm
    show loop plain tmp = _
    rw [loop_plain hne hdigit hlen hlt, if_neg (not_not.2 htmp)]
  | p :: parts, plain, tmp, v, hlen, hnumbers, hdigit, hlt, hout => by
    obtain ⟨hp, hnumbers⟩ := forall_mem_cons.1 hnumbers
    rw [spell_cons, append_assoc] at hlen ⊢
    have hsplit := hlen
    rw [length_append, Part.text, length_append] at hsplit
    rw [loop_part p (by omega) hp]
    split_ifs with hrest
    · -- the last part
      obtain ⟨hspell, rfl⟩ := append_eq_nil_iff.1 hrest
      obtain rfl : parts = [] := by
        cases parts with
        | nil => rfl
        | cons q qs => exact absurd (append_eq_nil_iff.1 hspell).1 q.text_ne
      obtain ⟨-, -, rfl⟩ | ⟨hne, -⟩ := hout
      · rw [total_cons]
        rfl
      · exact absurd rfl hne
    · apply loop_spell (by omega) hnumbers hdigit hlt
      unfold Outcome at hout ⊢
      rw [total_cons, UInt32.ofNat_add, ← UInt32.add_assoc] at hout
      obtain ⟨rfl, -, hv⟩ | hout := hout
      · refine .inl ⟨rfl, ?_, hv⟩
        rintro rfl
        exact hrest rfl
      · exact .inr hout

theorem ofNat_eq_zero {n : ℕ} : UInt32.ofNat n = 0 ↔ 2 ^ 32 ∣ n := by
  rw [← UInt32.toNat_inj, UInt32.toNat_ofNat']
  exact ⟨Nat.dvd_of_mod_eq_zero, Nat.mod_eq_zero_of_dvd⟩

variable {v : UInt32}

theorem dnsTtlFromtext_ok : dnsTtlFromtext source = .ok v ↔ bindTtl source = .ok v := by
  unfold dnsTtlFromtext
  cases bindTtl source with
  | ok w => exact Iff.rfl
  | error e => cases e <;> exact ⟨nofun, nofun⟩

theorem dnsTtlFromtext_iff :
    dnsTtlFromtext source = .ok v ↔ ∃ parts plain, Reads source parts plain ∧ Outcome 0 parts plain v := by
  rw [dnsTtlFromtext_ok, bindTtl]
  constructor
  · intro h
    split_ifs at h with hlen
    · cases h
    · obtain ⟨parts, plain, htext, hnumbers, hdigit, hlt, hout⟩ := loop_reads _ le_rfl h
      refine ⟨parts, plain, ⟨by omega, htext, hnumbers, hdigit, hlt, ?_⟩, hout⟩
      obtain ⟨hplain, hparts, -⟩ | ⟨hplain, htotal, -⟩ := hout
      · exact .inl ⟨hplain, hparts⟩
      · rw [UInt32.zero_add] at htotal
        exact .inr ⟨hplain, ofNat_eq_zero.1 htotal⟩
  · rintro ⟨parts, plain, h, hout⟩
    have hle := ( takeWhile_prefix (l := source) (· ≠ 0)).length_le
    have hlen := h.length
    rw [if_neg (by omega), h.text]
    rw [h.text] at hle
    exact loop_spell (by omega) h.numbers h.isdigit h.number hout

theorem Reads.outcome (h : Reads source parts plain) : ∃ v, Outcome 0 parts plain v := by
  obtain ⟨hplain, hparts⟩ | ⟨hplain, hdvd⟩ := h.ends
  · exact ⟨_, Or.inl ⟨hplain, hparts, rfl⟩⟩
  · exact ⟨_, Or.inr ⟨hplain, by rw [UInt32.zero_add]; exact ofNat_eq_zero.2 hdvd, rfl⟩⟩

/-! ### One text, one sequence of parts -/

theorem Part.ext {p q : Part} (hdigits : p.digits = q.digits) (hunit : p.unit = q.unit) : p = q := by
  obtain ⟨ds, c, k, hne, hdigit, hk⟩ := p
  obtain ⟨ds', c', k', hne', hdigit', hk'⟩ := q
  obtain rfl : ds = ds' := hdigits
  obtain rfl : c = c' := hunit
  obtain rfl : k = k' := Option.some.inj (hk.symm.trans hk')
  rfl

theorem spell_eq_digits {ds : Bytes} (hds : ∀ c ∈ ds, isdigit c = true) (h : spell parts ++ plain = ds) :
    parts = [] := by
  cases parts with
  | nil => rfl
  | cons p parts =>
    have hmem : p.unit ∈ ds := by
      rw [← h, spell_cons, Part.text]
      simp
    have hdigit := hds _ hmem
    rw [(unitSeconds_some p.isunit).1] at hdigit
    cases hdigit

theorem spell_inj : ∀ {parts parts' : List Part} {plain plain' : Bytes}, (∀ c ∈ plain, isdigit c = true) →
    (∀ c ∈ plain', isdigit c = true) → spell parts ++ plain = spell parts' ++ plain' → parts = parts' ∧ plain = plain'
  | [], parts', plain, plain', hplain, _, h => by
    obtain rfl := spell_eq_digits hplain h.symm
    exact ⟨rfl, h⟩
  | p :: parts, [], plain, plain', _, hplain', h => by
    cases spell_eq_digits hplain' h
  | p :: parts, q :: parts', plain, plain', hplain, hplain', h => by
    rw [spell_cons, spell_cons, append_assoc, append_assoc] at h
    have hdigits := congrArg (takeWhile isdigit) h
    have hrest := congrArg (dropWhile isdigit) h
    rw [p.takeWhile_text, q.takeWhile_text] at hdigits
    rw [p.dropWhile_text, q.dropWhile_text] at hrest
    obtain ⟨hunit, hrest⟩ := cons.inj hrest
    obtain ⟨rfl, rfl⟩ := spell_inj hplain hplain' hrest
    exact ⟨by rw [Part.ext hdigits hunit], rfl⟩

theorem says_iff {source plain : Bytes} {parts : List Part} {value : ℕ} (hplain : ∀ c ∈ plain, isdigit c = true)
    (htext : source = spell parts ++ plain) :
    Says source value ↔ (parts ≠ [] ∧ plain = [] ∧ value = total parts) ∨ (parts = [] ∧ plain ≠ [] ∧ value = number plain) := by
  constructor
  · rintro (⟨parts', hne, h, hvalue⟩ | ⟨hne, hdigit, hvalue⟩)
    · rw [htext] at h
      obtain ⟨rfl, rfl⟩ := @spell_inj parts parts' plain [] hplain nofun (h.trans (append_nil _).symm)
      exact .inl ⟨hne, rfl, hvalue⟩
    · obtain rfl := spell_eq_digits hdigit htext.symm
      obtain rfl : source = plain := htext
      exact .inr ⟨rfl, hne, hvalue⟩
  · rintro (⟨hne, rfl, hvalue⟩ | ⟨rfl, hne, hvalue⟩)
    · exact .inl ⟨parts, hne, htext.trans (append_nil _), hvalue⟩
    · obtain rfl : source = plain := htext
      exact .inr ⟨hne, hplain, hvalue⟩

theorem Says.not_mem_zero {value : ℕ} (h : Says source value) : 0 ∉ source := by
  intro hzero
  obtain ⟨parts, -, rfl, -⟩ | ⟨-, hdigit, -⟩ := h
  · exact spell_mem_ne_zero 0 hzero rfl
  · exact isdigit_ne_zero (hdigit 0 hzero) rfl

theorem takeWhile_of_not_mem (h : 0 ∉ source) : source.takeWhile (· ≠ 0) = source := by
  apply takeWhile_eq_self_iff.2
  intro c hc
  apply decide_eq_true
  rintro rfl
  exact h hc

theorem says_of_ok (h : dnsTtlFromtext source = .ok v) (hnot : ¬Misread source) : Says source v.toNat := by
  obtain ⟨parts, plain, hreads, hout⟩ := dnsTtlFromtext_iff.1 h
  have hzero : 0 ∉ source := fun hzero => hnot ⟨parts, plain, hreads, Or.inl hzero⟩
  have htotal : total parts < 2 ^ 32 := by
    by_contra hge
    exact hnot ⟨parts, plain, hreads, Or.inr (Or.inl (by omega))⟩
  have htext := hreads.text
  rw [takeWhile_of_not_mem hzero] at htext
  apply (says_iff hreads.isdigit htext).2
  obtain ⟨hplain, hparts, rfl⟩ | ⟨hplain, -, rfl⟩ := hout
  · refine .inl ⟨hparts, hplain, ?_⟩
    rw [UInt32.zero_add, UInt32.toNat_ofNat_of_lt' htotal]
  refine .inr ⟨?_, hplain, (UInt32.toNat_ofNat_of_lt' hreads.number)⟩
  by_contra hparts
  exact hnot ⟨parts, plain, hreads, Or.inr (Or.inr ⟨hparts, hplain⟩)⟩

theorem not_misread_of_says (h : ∀ v, dnsTtlFromtext source = .ok v → Says source v.toNat) : ¬Misread source := by
  rintro ⟨parts, plain, hreads, hwrong⟩
  obtain ⟨v, hout⟩ := hreads.outcome
  have hsays := h v (dnsTtlFromtext_iff.2 ⟨parts, plain, hreads, hout⟩)
  have hzero := hsays.not_mem_zero
  have htext := hreads.text
  rw [takeWhile_of_not_mem hzero] at htext
  have hlt := v.toNat_lt
  obtain ⟨hparts, hplain, hvalue⟩ | ⟨hparts, hplain, hvalue⟩ := (says_iff hreads.isdigit htext).1 hsays
  · obtain hwrong | hwrong | hwrong := hwrong
    · exact hzero hwrong
    · omega
    · exact hwrong.2 hplain
  obtain hwrong | hwrong | hwrong := hwrong
  · exact hzero hwrong
  · rw [hparts] at hwrong
    cases hwrong
  · exact hwrong.1 hparts

/-! ### The printed text -/

theorem memTobuffer_append (target : Buffer) (a b : Bytes) :
    (memTobuffer target a >>= fun target => memTobuffer target b) = memTobuffer target (a ++ b) := by
  have hput : (target.put a).put b = target.put (a ++ b) := by simp [Buffer.put]
  have havailable : (target.put a).available = target.available - a.length := by
    unfold Buffer.available
    rw [Buffer.put_used, Buffer.put_length]
    omega
  unfold memTobuffer
  rw [length_append]
  split_ifs with h1 h2
  · rfl
  · omega
  · rw [ok_then, if_pos (by omega)]
  · rw [ok_then, if_neg (by omega), hput]

theorem memTobuffer_nil (target : Buffer) : memTobuffer target [] = .ok target := by
  rw [memTobuffer_ok (Nat.zero_le _)]
  simp [Buffer.put]

/-- The part that is printed for a number, if it is. -/
def printedPart (t : ℕ) (c : UInt8) (k : ℕ) (h : unitSeconds c = some k) (print : Bool) : List Part :=
  if print then [⟨Loc.dec t, c, k, Loc.dec_ne_nil t, Loc.dec_isdigit, h⟩] else []

section PrintedPart

variable {t : ℕ} {c : UInt8} {k : ℕ} {h : unitSeconds c = some k} {print : Bool}

theorem printedPart_total (hprint : print = false → t = 0) : total (printedPart t c k h print) = t * k := by
  unfold printedPart
  cases print with
  | true =>
    rw [if_pos rfl, total_cons, Part.value, Loc.number_dec]
    exact Nat.add_zero _
  | false =>
    rw [hprint rfl, Nat.zero_mul]
    rfl

theorem printedPart_length_le {w : ℕ} (hw : 0 < w) (ht : t < 10 ^ w) : (spell (printedPart t c k h print)).length ≤ w + 1 := by
  unfold printedPart
  have hle := Loc.dec_length_le hw ht
  cases print with
  | true =>
    rw [if_pos rfl, spell_cons, Part.text]
    simpa [spell] using hle
  | false => exact Nat.zero_le _

theorem printedPart_number (ht : t < 2 ^ 32) : ∀ p ∈ printedPart t c k h print, number p.digits < 2 ^ 32 := by
  unfold printedPart
  cases print with
  | true =>
    intro p hp
    rw [if_pos rfl] at hp
    rw [mem_singleton.1 hp, Loc.number_dec]
    exact ht
  | false => exact nofun

theorem part_bind {α : Type} (hs : s.take 1 = [c]) (ht : t < 2 ^ 32) (x : ℕ) (target : Buffer)
    (f : ℕ × Buffer → Exec α) : (part false t s print x target >>= f) =
      memTobuffer target (spell (printedPart t c k h print)) >>= fun target => f (x + (printedPart t c k h print).length, target) := by
  unfold part printedPart
  cases print with
  | true =>
    have hle : (Loc.dec t).length ≤ 10 := Loc.dec_length_le (by omega) (by omega)
    have hroom : require (decide ((Loc.dec t ++ [c]).length + 1 ≤ 60)) = .ok () := by
      apply require_true
      rw [length_append]
      exact decide_eq_true (by simp; omega)
    rw [if_pos rfl, if_pos rfl, ttlfmt]
    simp only [Bool.false_eq_true, if_false, hs, hroom, ok_then, spell_cons, Part.text, bind_assoc, pure_bind]
    rw [show spell [] = [] from rfl, append_nil]
    rfl
  | false =>
    rw [if_neg Bool.false_ne_true, if_neg Bool.false_ne_true]
    show _ = memTobuffer target [] >>= _
    rw [memTobuffer_nil]
    rfl

end PrintedPart

theorem toupper_unitSeconds {c : UInt8} {k : ℕ} (h : unitSeconds c = some k) : unitSeconds (toupper c) = some k := by
  unfold unitSeconds at h
  split_ifs at h with h1 h2 h3 h4 h5
  · obtain rfl | rfl := h1 <;> exact h
  · obtain rfl | rfl := h2 <;> exact h
  · obtain rfl | rfl := h3 <;> exact h
  · obtain rfl | rfl := h4 <;> exact h
  · obtain rfl | rfl := h5 <;> exact h

theorem upperLast_append (c : UInt8) : ∀ text : Bytes, upperLast (text ++ [c]) = text ++ [toupper c]
  | [] => rfl
  | [_] => rfl
  | d :: e :: text => by
    show d :: upperLast (e :: text ++ [c]) = _
    rw [upperLast_append c (e :: text)]
    rfl
def Part.upper (p : Part) : Part := { p with unit := toupper p.unit, isunit := toupper_unitSeconds p.isunit }

theorem upperLast_text (data : Bytes) (p : Part) : upperLast (data ++ p.text) = data ++ p.upper.text := by
  unfold Part.text
  rw [← append_assoc, upperLast_append, append_assoc]
  rfl

theorem unitSeconds_week : unitSeconds 119 = some 604800 := rfl

theorem unitSeconds_day : unitSeconds 100 = some 86400 := rfl

theorem unitSeconds_hour : unitSeconds 104 = some 3600 := rfl

theorem unitSeconds_minute : unitSeconds 109 = some 60 := rfl

theorem unitSeconds_second : unitSeconds 115 = some 1 := rfl

/-- The parts that `dns_ttl_totext` prints without `verbose`, before the case of a single unit is changed. -/
def printed (n : ℕ) : List Part :=
  printedPart (n / 60 / 60 / 24 / 7) 119 604800 unitSeconds_week (n / 60 / 60 / 24 / 7 ≠ 0) ++
  printedPart (n / 60 / 60 / 24 % 7) 100 86400 unitSeconds_day (n / 60 / 60 / 24 % 7 ≠ 0) ++
  printedPart (n / 60 / 60 % 24) 104 3600 unitSeconds_hour (n / 60 / 60 % 24 ≠ 0) ++
  printedPart (n / 60 % 60) 109 60 unitSeconds_minute (n / 60 % 60 ≠ 0) ++
  printedPart (n % 60) 115 1 unitSeconds_second (decide (n % 60 ≠ 0) ||
    decide (n / 60 / 60 / 24 / 7 = 0 ∧ n / 60 / 60 / 24 % 7 = 0 ∧ n / 60 / 60 % 24 = 0 ∧ n / 60 % 60 = 0))

theorem printed_total (n : ℕ) : total (printed n) = n := by
  have hzero : ∀ {t : ℕ}, decide (t ≠ 0) = false → t = 0 := fun h => not_not.1 (of_decide_eq_false h)
  unfold printed
  rw [total_append, total_append, total_append, total_append, printedPart_total hzero, printedPart_total hzero,
    printedPart_total hzero, printedPart_total hzero, printedPart_total (fun h => hzero (Bool.or_eq_false_iff.1 h).1)]
  omega

theorem printed_number {n : ℕ} (h : n < 2 ^ 32) : ∀ p ∈ printed n, number p.digits < 2 ^ 32 := by
  intro p hp
  simp only [printed, mem_append] at hp
  obtain (((hp | hp) | hp) | hp) | hp := hp
  · exact printedPart_number (by omega) p hp
  · exact printedPart_number (by omega) p hp
  · exact printedPart_number (by omega) p hp
  · exact printedPart_number (by omega) p hp
  · exact printedPart_number (by omega) p hp

theorem printed_length_le {n : ℕ} (h : n < 2 ^ 32) : (spell (printed n)).length ≤ 17 := by
  have htwo : ∀ {t k : ℕ} {c : UInt8} {h : unitSeconds c = some k} {print : Bool}, t < 100 →
      (spell (printedPart t c k h print)).length ≤ 3 := fun ht => @printedPart_length_le _ _ _ _ _ 2 (by omega) (by omega)
  have hweeks := @printedPart_length_le (n / 60 / 60 / 24 / 7) 119 604800 unitSeconds_week (n / 60 / 60 / 24 / 7 ≠ 0) 4 (by omega) (by omega)
  unfold printed
  rw [spell_append, spell_append, spell_append, spell_append, length_append, length_append, length_append,
    length_append]
  refine (Nat.add_le_add (Nat.add_le_add (Nat.add_le_add (Nat.add_le_add hweeks (htwo ?_)) (htwo ?_)) (htwo ?_)) (htwo ?_))
  all_goals omega

theorem printed_ne (n : ℕ) : printed n ≠ [] := by
  unfold printed printedPart
  simp
  omega

/-- The parts as they are printed. -/
def shown (parts : List Part) : List Part := if parts.length = 1 then parts.map Part.upper else parts

theorem shown_total (parts : List Part) : total (shown parts) = total parts := by
  unfold shown total
  split_ifs
  · rw [map_map]
    rfl
  · rfl

theorem shown_number (h : ∀ p ∈ parts, number p.digits < 2 ^ 32) : ∀ p ∈ shown parts, number p.digits < 2 ^ 32 := by
  unfold shown
  split_ifs
  · exact forall_mem_map.2 h
  · exact h

theorem shown_ne (h : parts ≠ []) : shown parts ≠ [] := by
  unfold shown
  split_ifs
  · exact fun hnil => h (map_eq_nil_iff.1 hnil)
  · exact h

theorem shown_length (parts : List Part) : (spell (shown parts)).length = (spell parts).length := by
  unfold shown spell
  split_ifs
  · rw [length_flatMap, length_flatMap, map_map]
    congr 1
    apply map_congr_left
    intro p _
    simp [Part.text, Part.upper]
  · rfl

theorem memTobuffer_append_bind {α : Type} (target : Buffer) (a b : Bytes) (f : Buffer → Exec α) :
    (memTobuffer target a >>= fun target => memTobuffer target b >>= f) = memTobuffer target (a ++ b) >>= f := by
  rw [← memTobuffer_append, bind_assoc]

/-- The five parts one after the other. -/
theorem dnsTtlTotext_printed (x : UInt32) (target : Buffer) :
    dnsTtlTotext x false target = memTobuffer target (spell (printed x.toNat)) >>= fun target =>
      require (decide (0 < (printed x.toNat).length)) >>= fun _ =>
      pure (if (printed x.toNat).length = 1 then { target with data := upperLast target.data } else target) := by
  have hlt := x.toNat_lt
  unfold dnsTtlTotext printed
  simp only [part_bind (h := unitSeconds_week) (show take 1 [119, 101, 101, 107] = [119] from rfl) (show x.toNat / 60 / 60 / 24 / 7 < 2 ^ 32 by omega),
    part_bind (h := unitSeconds_day) (show take 1 [100, 97, 121] = [100] from rfl) (show x.toNat / 60 / 60 / 24 % 7 < 2 ^ 32 by omega),
    part_bind (h := unitSeconds_hour) (show take 1 [104, 111, 117, 114] = [104] from rfl) (show x.toNat / 60 / 60 % 24 < 2 ^ 32 by omega),
    part_bind (h := unitSeconds_minute) (show take 1 [109, 105, 110, 117, 116, 101] = [109] from rfl) (show x.toNat / 60 % 60 < 2 ^ 32 by omega),
    part_bind (h := unitSeconds_second) (show take 1 [115, 101, 99, 111, 110, 100] = [115] from rfl) (show x.toNat % 60 < 2 ^ 32 by omega),
    memTobuffer_append_bind, spell_append, append_assoc, length_append, Nat.zero_add, Nat.add_assoc,
    and_true]

theorem dnsTtlTotext_eq (x : UInt32) (target : Buffer) :
    dnsTtlTotext x false target = memTobuffer target (spell (shown (printed x.toNat))) := by
  have hne := length_pos_of_ne_nil (printed_ne x.toNat)
  rw [dnsTtlTotext_printed, require_true (decide_eq_true hne)]
  unfold memTobuffer
  rw [shown_length]
  by_cases hroom : target.available < (spell (printed x.toNat)).length
  · rw [if_pos hroom, if_pos hroom]
    rfl
  rw [if_neg hroom, if_neg hroom, ok_then, ok_then]
  apply congrArg Except.ok
  unfold shown
  by_cases hone : (printed x.toNat).length = 1
  · obtain ⟨p, hp⟩ := length_eq_one_iff.1 hone
    rw [if_pos hone, if_pos hone, hp]
    simp [spell, Buffer.put, upperLast_text]
  · rw [if_neg hone, if_neg hone]

theorem dnsTtlFromtext_shown (x : UInt32) : dnsTtlFromtext (spell (shown (printed x.toNat))) = .ok x := by
  have hle := printed_length_le x.toNat_lt
  apply dnsTtlFromtext_iff.2
  refine ⟨shown (printed x.toNat), [], ⟨?_, ?_, shown_number (printed_number x.toNat_lt), nofun, by decide,
    Or.inl ⟨rfl, shown_ne (printed_ne _)⟩⟩, Or.inl ⟨rfl, shown_ne (printed_ne _), ?_⟩⟩
  · rw [shown_length]
    omega
  · rw [append_nil]
    exact takeWhile_of_not_mem (fun h => spell_mem_ne_zero 0 h rfl)
  · rw [shown_total, printed_total, UInt32.zero_add, UInt32.ofNat_toNat]

/-- **TTL text.**  The text that `dns_ttl_totext` prints for a TTL is read as that TTL.  The other texts that `dns_ttl_fromtext` accepts
say the value they are read as if and only if they are not misread. -/
theorem ttl_text (x : UInt32) (source : Bytes) :
    (∃ text, (∀ target, dnsTtlTotext x false target = memTobuffer target text) ∧ dnsTtlFromtext text = .ok x ∧ Says text x.toNat) ∧
    ((∀ v, dnsTtlFromtext source = .ok v → Says source v.toNat) ↔ ¬Misread source) := by
  refine ⟨⟨_, dnsTtlTotext_eq x, dnsTtlFromtext_shown x, ?_⟩, not_misread_of_says, fun hnot v h => says_of_ok h hnot⟩
  refine .inl ⟨_, shown_ne (printed_ne x.toNat), rfl, ?_⟩
  rw [shown_total, printed_total]

/-- 2^32 - 1 weeks are read as 2^32 - 604800 seconds; a number behind `0s` and a text behind a `NUL` are not seen as wrong. -/
theorem ttl_text_wrapped :
    -- "4294967295w"
    dnsTtlFromtext [52, 50, 57, 52, 57, 54, 55, 50, 57, 53, 119] = .ok 4294362496 ∧
    ¬Says [52, 50, 57, 52, 57, 54, 55, 50, 57, 53, 119] 4294362496 ∧
    -- "0s5" and "5", NUL, "x"
    dnsTtlFromtext [48, 115, 53] = .ok 5 ∧ (∀ value, ¬Says [48, 115, 53] value) ∧
    dnsTtlFromtext [53, 0, 120] = .ok 5 ∧ (∀ value, ¬Says [53, 0, 120] value) ∧
    ¬∀ source v, dnsTtlFromtext source = .ok v → Says source v.toNat := by
  have hweeks : dnsTtlFromtext [52, 50, 57, 52, 57, 54, 55, 50, 57, 53, 119] = .ok 4294362496 := by decide +kernel
  have hplain : dnsTtlFromtext [48, 115, 53] = .ok 5 := by decide +kernel
  have hnul : dnsTtlFromtext [53, 0, 120] = .ok 5 := by decide +kernel
  have hwrong : ¬Says [52, 50, 57, 52, 57, 54, 55, 50, 57, 53, 119] 4294362496 := by
    intro h
    have hsays := (@says_iff _ [] [⟨[52, 50, 57, 52, 57, 54, 55, 50, 57, 53], 119, 604800, by decide, by simp [isdigit], rfl⟩] _ nofun rfl).1 h
    obtain ⟨-, -, hvalue⟩ | ⟨hnil, -⟩ := hsays
    · cases hvalue
    · cases hnil
  refine ⟨hweeks, hwrong, hplain, fun value h => ?_, hnul, fun value h => h.not_mem_zero (by simp), fun h => hwrong (h _ _ hweeks)⟩
  have hsays := (@says_iff _ [53] [⟨[48], 115, 1, by decide, by simp [isdigit], rfl⟩] _ (by simp [isdigit]) rfl).1 h
  obtain ⟨-, hnil, -⟩ | ⟨hnil, -⟩ := hsays
  · cases hnil
  · cases hnil

end Bind9.Ttl
