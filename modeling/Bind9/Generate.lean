import Bind9.GennameFields
import Bind9.NameText

/-! # The loop of $GENERATE

`generate` of `lib/dns/master.c`.  The functions for the type, the rdata and the callbacks are parameters, with any state that the
callbacks change.  The loop keeps a record of the values it visits.

`genname_endless` says when `genname` does not end, and `generate_ends` when the loop visits the values of the range and no others. -/

namespace Bind9.Generate

open List
open Option hiding map_map

open Bind9.Lex Bind9.Loc

/-! ### The directive -/

/-- What `generate` calls: `dns_rdatatype_fromtext`, `dns_name_issubdomain(·, lctx->top)`, `dns_rdata_fromtext` on a lexer for the
text, and `commit`; the options that it looks at, and the origin. -/
structure Env (S : Type) where
  typeFromtext : Bytes → Exec UInt16
  origin : Option DnsName
  issubdomain : DnsName → Bool
  zone : Bool
  slave : Bool
  key : Bool
  rdataFromtext : UInt16 → Bytes → Exec Bytes
  commit : S → DnsName → UInt16 → Bytes → Exec S

/-- `DNS_MASTER_LHS` and `DNS_MASTER_RHS`. -/
def lhsSize : ℕ := 2048

def rhsSize : ℕ := 65512

/-- `%u-%u/%u`. -/
def rangeFormat : List Directive := [.number, .char 45, .number, .char 47, .number]

/-- `start`, `stop` and `step`, when two numbers are read at least. -/
def readRange (range : Bytes) : Option (UInt32 × UInt32 × UInt32) :=
  match sscanf rangeFormat range with
  | start :: stop :: step => some (toUnsigned start, toUnsigned stop, toUnsigned (step.headD 1))
  | _ => none

section generate

variable {S : Type} (env : Env S) (type : UInt16)

/-- The rest of a turn: the owner, which is passed over when it is out of zone, and the rdata. -/
def record (s : S) (lhsbuf rhsbuf : Bytes) : Exec S := do
  let owner ← dnsNameFromtext lhsbuf 0 env.origin false ⟨[], 255⟩ true
  if owner.result ≠ .success then stop owner.result
  else if env.zone ∧ ¬env.slave ∧ ¬env.key ∧ ¬env.issubdomain owner.name then .ok s
  else do
    let rdata ← env.rdataFromtext type rhsbuf
    env.commit s owner.name type rdata

/-- A turn of the loop.  `genname_stack` says that what its local variables hold at the start does not matter. -/
def generateTurn (turns : ℕ) (lhs rhs : Bytes) (i : UInt32) (s : S) : Except Halt S := do
  let lhsbuf ← genname turns 0 0 lhs i.toInt32 lhsSize
  let rhsbuf ← genname turns 0 0 rhs i.toInt32 rhsSize
  lift (record env type s lhsbuf rhsbuf)

/-- `for (i = start; i <= stop; i += step)`: the values of `i` it visits, and how it ends. -/
def generateLoop (turn : UInt32 → S → Except Halt S) (stop step : UInt32) : ℕ → UInt32 → S → List UInt32 × Except Halt S
  | 0, _, _ => ([], .error .fuel)
  | fuel + 1, i, s =>
    if i ≤ stop then
      match turn i s with
      | .error e => ([i], .error e)
      | .ok s => (i :: (generateLoop turn stop step fuel (i + step) s).1, (generateLoop turn stop step fuel (i + step) s).2)
    else ([], .ok s)

def generate (turns : ℕ) (range lhs gtype rhs : Bytes) (s : S) : List UInt32 × Except Halt S :=
  match readRange range with
  | none => ([], fail syntaxError)
  | some (start, stop, step) =>
    if stop < start then ([], fail syntaxError)
    else
      match env.typeFromtext gtype with
      | .error e => ([], .error (.stop e))
      | .ok type => generateLoop (generateTurn env type turns lhs rhs) stop step turns start s

end generate

/-! ### What genname comes to -/

/-- The number of turns that `nibbles` takes is within the fuel. -/
def within (fuel : ℕ) (turns : Option ℕ) : Bool := turns.any (· ≤ fuel)

/-- What the pieces come to in the space that is left, where `enough` says which numbers of turns there is fuel for. -/
def settle (it : Int32) (enough : Option ℕ → Bool) : Int32 → ℕ → List Piece → Except Halt Bytes
  | _, _, [] => .ok []
  | delta, room, p :: ps =>
    if enough (p.turns it delta) then
      match p.result it delta with
      | .error r => fail r
      | .ok text =>
        if text.length ≤ room then (settle it enough (p.delta delta) (room - text.length) ps).map (text ++ ·) else fail .nospace
    else .error .fuel

/-- What `genname` comes to. -/
def settleName (it : Int32) (enough : Option ℕ → Bool) (name : Bytes) (length : ℕ) : Except Halt Bytes := do
  let text ← settle it enough 0 length (pieces name)
  if text.length < length then .ok text else fail .nospace

section settle

variable {it : Int32}

theorem printPiece_settle (fuel : ℕ) {v : Locals} (hv : v.Within) (p : Piece) : printPiece fuel it v p =
    if within fuel (p.turns it v.delta) then
      match p.result it v.delta with
      | .error r => fail r
      | .ok text => if text.length ≤ v.r.length then .ok ((p.next v).after text) else fail .nospace
    else .error .fuel := by
  rw [printPiece_eq fuel it hv p]
  obtain _ | turns := p.turns it v.delta
  · rfl
  have hwithin : within fuel (some turns) = true ↔ turns ≤ fuel := by simp [within]
  show (if turns ≤ fuel then _ else _) = _
  by_cases hle : turns ≤ fuel
  · rewrite [if_pos hle, if_pos (hwithin.2 hle)]
    rfl
  · rewrite [if_neg hle, if_neg (fun h => hle (hwithin.1 h))]
    rfl

theorem foldlM_settle (fuel : ℕ) : ∀ (ps : List Piece) {v : Locals}, v.Within →
    match settle it (within fuel) v.delta v.r.length ps with
    | .error e => ps.foldlM (printPiece fuel it) v = .error e
    | .ok text => ∃ v', ps.foldlM (printPiece fuel it) v = .ok v' ∧ v'.r = (v.after text).r ∧ text.length ≤ v.r.length
  | [], v, _ => ⟨v, rfl, by simp [Locals.after], Nat.zero_le _⟩
  | p :: ps, v, hv => by
    rw [foldlM_cons, printPiece_settle fuel hv p]
    unfold settle
    by_cases hfuel : within fuel (p.turns it v.delta) = true
    · rw [if_pos hfuel, if_pos hfuel]
      cases hres : p.result it v.delta with
      | error r => rfl
      | ok text =>
        simp only
        by_cases hle : text.length ≤ v.r.length
        · have hnext : (p.next v).Within := by
            unfold Locals.Within
            rw [Piece.next_r]
            exact hv
          have hv1 : ((p.next v).after text).Within := hnext.after (by rw [Piece.next_r]; exact hle)
          have hdelta : ((p.next v).after text).delta = p.delta v.delta := Piece.next_delta hres
          have hr : ((p.next v).after text).r = (v.after text).r := by simp only [Locals.after, Piece.next_r]
          have ih := foldlM_settle fuel ps hv1
          rw [hdelta, hr] at ih
          rw [if_pos hle, if_pos hle, ok_then]
          have hroom : (v.after text).r.length = v.r.length - text.length := rfl
          rw [hroom] at ih
          cases hrest : settle it (within fuel) (p.delta v.delta) (v.r.length - text.length) ps with
          | error e =>
            rw [hrest] at ih
            exact ih
          | ok rest =>
            rw [hrest] at ih
            obtain ⟨v', hfold, hr', hlen⟩ := ih
            refine ⟨v', hfold, ?_, ?_⟩
            · rw [hr']
              simp only [Locals.after, Piece.next_r, append_assoc, length_append, Nat.sub_sub]
            · rw [length_append]
              omega
        · rw [if_neg hle, if_neg hle]
          rfl
    · rw [if_neg hfuel, if_neg hfuel]
      rfl

theorem genname_settle (fuel : ℕ) (width : UInt32) (mode : UInt8) (name : Bytes) (length : ℕ) :
    genname fuel width mode name it length = settleName it (within fuel) name length := by
  have hrun := @foldlM_settle it fuel (pieces name) _ (start_within length width mode)
  rw [genname_eq]
  unfold settleName
  have hstart : settle it (within fuel) 0 length (pieces name) =
      settle it (within fuel) (start length width mode).delta (start length width mode).r.length (pieces name) := rfl
  rw [hstart]
  cases hset : settle it (within fuel) (start length width mode).delta (start length width mode).r.length (pieces name) with
  | error e =>
    rw [hset] at hrun
    rw [hrun]
    rfl
  | ok text =>
    rw [hset] at hrun
    obtain ⟨v', hfold, hr, hlen⟩ := hrun
    have hlen' : text.length ≤ length := hlen
    have hr' : v'.r = ⟨length, text, length - text.length⟩ := hr
    rw [hfold, ok_then, ok_then, hr']
    simp only
    by_cases hlt : text.length < length
    · rw [if_neg (by omega), if_pos hlt, if_pos hlt]
    · rw [if_pos (show length - text.length = 0 by omega), if_neg hlt]

/-- With few turns the loop may not end; otherwise it comes to what it comes to with many. -/
theorem settle_within (fuel : ℕ) : ∀ (ps : List Piece) (delta : Int32) (room : ℕ),
    settle it (within fuel) delta room ps = .error .fuel ∨
      settle it (within fuel) delta room ps = settle it isSome delta room ps
  | [], _, _ => Or.inr rfl
  | p :: ps, delta, room => by
    unfold settle
    by_cases hfuel : within fuel (p.turns it delta) = true
    · have hsome : (p.turns it delta).isSome = true := by
        cases hturns : p.turns it delta with
        | none =>
          rw [hturns] at hfuel
          exact absurd hfuel (by simp [within])
        | some turns => rfl
      rw [if_pos hfuel, if_pos hsome]
      cases p.result it delta with
      | error r => exact .inr rfl
      | ok text =>
        simp only
        split
        · obtain hrest | hrest := settle_within fuel ps (p.delta delta) (room - text.length)
          · rw [hrest]
            exact .inl rfl
          · rw [hrest]
            exact .inr rfl
        · exact .inr rfl
    · rw [if_neg hfuel]
      exact .inl rfl

theorem settle_enough : ∀ (ps : List Piece) (delta : Int32) (room : ℕ),
    ∃ turns, ∀ fuel, turns ≤ fuel → settle it (within fuel) delta room ps = settle it isSome delta room ps
  | [], _, _ => ⟨0, fun _ _ => rfl⟩
  | p :: ps, delta, room => by
    cases hturns : p.turns it delta with
    | none =>
      refine ⟨0, fun fuel _ => ?_⟩
      unfold settle
      rw [hturns]
      rfl
    | some n =>
      have hstep : ∀ enough : Option ℕ → Bool, enough (some n) = true → settle it enough delta room (p :: ps) =
          match p.result it delta with
          | .error r => fail r
          | .ok text =>
            if text.length ≤ room then (settle it enough (p.delta delta) (room - text.length) ps).map (text ++ ·)
            else fail .nospace := by
        intro enough h
        rw [settle, hturns, if_pos h]
      have hn : ∀ fuel, n ≤ fuel → within fuel (some n) = true := fun fuel hle => decide_eq_true hle
      cases hres : p.result it delta with
      | error r =>
        refine ⟨n, fun fuel hle => ?_⟩
        rw [hstep _ (hn fuel hle), hstep _ rfl, hres]
      | ok text =>
        obtain ⟨turns, hrest⟩ := settle_enough ps (p.delta delta) (room - text.length)
        refine ⟨max n turns, fun fuel hle => ?_⟩
        rw [hstep _ (hn fuel (le_trans (le_max_left n turns) hle)), hstep _ rfl, hres]
        simp only
        rw [hrest fuel (le_trans (le_max_right n turns) hle)]

end settle

/-! ### When it does not end -/

/-- The loop comes to a number that `nibbles` does not end on: it is negative, and what stands in front has space. -/
def Sticks (it delta : Int32) (room : ℕ) (ps : List Piece) : Prop :=
  ∃ front p back, ps = front ++ p :: back ∧ (∃ texts, Prints it delta front texts ∧ texts.flatten.length ≤ room) ∧
    p.turns it (deltaAfter delta front) = none

/-- The template comes to the text `out`, which has space with its `NUL`. -/
def Expansion (it : Int32) (name : Bytes) (length : ℕ) (out : Bytes) : Prop :=
  ∃ texts, Prints it 0 (pieces name) texts ∧ out = texts.flatten ∧ out.length < length

section ends

variable {it : Int32} {delta : Int32} {p : Piece}

theorem sticks_cons {room : ℕ} {ps : List Piece} {text : Bytes} (hres : p.result it delta = .ok text)
    (hturns : p.turns it delta ≠ none) (hle : text.length ≤ room) :
    Sticks it delta room (p :: ps) ↔ Sticks it (p.delta delta) (room - text.length) ps := by
  constructor
  · rintro ⟨front, q, back, heq, ⟨texts, hprints, hlen⟩, hstuck⟩
    cases front with
    | nil =>
      cases heq
      exact absurd hstuck hturns
    | cons r front =>
      obtain ⟨rfl, heq'⟩ := cons.inj heq
      cases hprints with
      | cons hres' _ hrest =>
        obtain rfl := Except.ok.inj (hres.symm.trans hres')
        rw [flatten_cons, length_append] at hlen
        exact ⟨front, q, back, heq', ⟨_, hrest, by omega⟩, hstuck⟩
  · rintro ⟨front, q, back, rfl, ⟨texts, hprints, hlen⟩, hstuck⟩
    refine ⟨p :: front, q, back, rfl, ⟨text :: texts, .cons hres hturns hprints, ?_⟩, hstuck⟩
    rw [flatten_cons, length_append]
    omega

/-- The pieces behind one that is no text do not matter. -/
theorem not_sticks_cons {room : ℕ} {ps : List Piece} (hturns : p.turns it delta ≠ none)
    (h : ∀ text, p.result it delta = .ok text → room < text.length) : ¬Sticks it delta room (p :: ps) := by
  rintro ⟨front, q, back, heq, ⟨texts, hprints, hlen⟩, hstuck⟩
  cases front with
  | nil =>
    cases heq
    exact hturns hstuck
  | cons r front =>
    obtain ⟨rfl, -⟩ := cons.inj heq
    cases hprints with
    | cons hres _ _ =>
      have hlt := h _ hres
      rw [flatten_cons, length_append] at hlen
      omega

theorem turns_of_isSome : (p.turns it delta).isSome = true ↔ p.turns it delta ≠ none :=
  isSome_iff_ne_none

/-- What the loop comes to: it sticks, or a text, or a result. -/
theorem settle_cases : ∀ (ps : List Piece) (delta : Int32) (room : ℕ),
    (Sticks it delta room ps ∧ settle it isSome delta room ps = .error .fuel) ∨
    (¬Sticks it delta room ps ∧ ∃ texts, Prints it delta ps texts ∧ texts.flatten.length ≤ room ∧
      settle it isSome delta room ps = .ok texts.flatten) ∨
    (¬Sticks it delta room ps ∧ (∀ texts, Prints it delta ps texts → room < texts.flatten.length) ∧
      ∃ r, settle it isSome delta room ps = fail r)
  | [], delta, room => by
    refine .inr (.inl ⟨?_, [], .nil, Nat.zero_le _, rfl⟩)
    rintro ⟨front, p, back, heq, -⟩
    simp at heq
  | p :: ps, delta, room => by
    by_cases hsome : (p.turns it delta).isSome = true
    · have hturns := turns_of_isSome.1 hsome
      cases hres : p.result it delta with
      | error r =>
        have hnone : ∀ text, p.result it delta = .ok text → room < text.length := by
          intro text h
          rw [hres] at h
          cases h
        refine .inr (.inr ⟨not_sticks_cons hturns hnone, ?_, r, ?_⟩)
        · intro texts hprints
          cases hprints with
          | cons hres' _ _ =>
            rw [hres] at hres'
            cases hres'
        · rw [settle, if_pos hsome, hres]
      | ok text =>
        by_cases hle : text.length ≤ room
        · have hstep : settle it isSome delta room (p :: ps) =
              (settle it isSome (p.delta delta) (room - text.length) ps).map (text ++ ·) := by
            rw [settle, if_pos hsome, hres]
            simp only [if_pos hle]
          rw [sticks_cons hres hturns hle, hstep]
          obtain ⟨hstuck, hset⟩ | ⟨hnot, texts, hprints, hlen, hset⟩ | ⟨hnot, hlong, r, hset⟩ :=
            settle_cases ps (p.delta delta) (room - text.length)
          · exact .inl ⟨hstuck, by rw [hset]; rfl⟩
          · refine .inr (.inl ⟨hnot, text :: texts, .cons hres hturns hprints, ?_, by rw [hset]; rfl⟩)
            rw [flatten_cons, length_append]
            omega
          · refine .inr (.inr ⟨hnot, ?_, r, by rw [hset]; rfl⟩)
            intro texts hprints
            cases hprints with
            | cons hres' _ hrest =>
              obtain rfl := Except.ok.inj (hres.symm.trans hres')
              have hlt := hlong _ hrest
              rw [flatten_cons, length_append]
              omega
        have hlong : ∀ text', p.result it delta = .ok text' → room < text'.length := by
          intro text' h
          obtain rfl := Except.ok.inj (hres.symm.trans h)
          omega
        refine .inr (.inr ⟨not_sticks_cons hturns hlong, ?_, .nospace, ?_⟩)
        · intro texts hprints
          cases hprints with
          | cons hres' _ _ =>
            have hlt := hlong _ hres'
            rw [flatten_cons, length_append]
            omega
        · rw [settle, if_pos hsome, hres]
          simp only [if_neg hle]
    have hnone : p.turns it delta = none := not_isSome_iff_eq_none.1 hsome
    refine .inl ⟨⟨[], p, ps, rfl, ⟨[], .nil, Nat.zero_le _⟩, hnone⟩, ?_⟩
    rw [settle, if_neg hsome]

variable {name : Bytes}

theorem Expansion.unique {length : ℕ} {out out' : Bytes} (h : Expansion it name length out)
    (h' : Expansion it name length out') : out = out' := by
  obtain ⟨texts, hprints, rfl, -⟩ := h
  obtain ⟨texts', hprints', rfl, -⟩ := h'
  rw [hprints.unique hprints']

theorem Prints.turns : ∀ {front : List Piece} {delta : Int32} {p : Piece} {back : List Piece} {texts : List Bytes},
    Prints it delta (front ++ p :: back) texts → p.turns it (deltaAfter delta front) ≠ none
  | [], _, _, _, _, .cons _ hturns _ => hturns
  | _ :: _, _, _, _, _, .cons _ _ hrest => hrest.turns
theorem Expansion.not_sticks {length room : ℕ} {out : Bytes} (h : Expansion it name length out) :
    ¬Sticks it 0 room (pieces name) := by
  obtain ⟨texts, hprints, -⟩ := h
  rintro ⟨front, p, back, heq, -, hstuck⟩
  rw [heq] at hprints
  exact hprints.turns hstuck

theorem settleName_cases (name : Bytes) (length : ℕ) :
    (Sticks it 0 length (pieces name) ∧ settleName it isSome name length = .error .fuel) ∨
    (¬Sticks it 0 length (pieces name) ∧ ∃ out, Expansion it name length out ∧ settleName it isSome name length = .ok out) ∨
    (¬Sticks it 0 length (pieces name) ∧ (∀ out, ¬Expansion it name length out) ∧
      ∃ r, settleName it isSome name length = fail r) := by
  unfold settleName
  obtain ⟨hstuck, hset⟩ | ⟨hnot, texts, hprints, hlen, hset⟩ | ⟨hnot, hlong, r, hset⟩ := @settle_cases it (pieces name) 0 length
  · exact .inl ⟨hstuck, by rw [hset]; rfl⟩
  · rw [hset, ok_then]
    by_cases hlt : texts.flatten.length < length
    · exact .inr (.inl ⟨hnot, _, ⟨texts, hprints, rfl, hlt⟩, if_pos hlt⟩)
    refine .inr (.inr ⟨hnot, ?_, .nospace, if_neg hlt⟩)
    rintro out ⟨texts', hprints', rfl, hlt'⟩
    rw [hprints.unique hprints'] at hlt
    exact hlt hlt'
  · refine .inr (.inr ⟨hnot, ?_, r, by rw [hset]; rfl⟩)
    rintro out ⟨texts', hprints', rfl, hlt'⟩
    have hlt := hlong texts' hprints'
    omega

theorem settleName_within (fuel : ℕ) (name : Bytes) (length : ℕ) : settleName it (within fuel) name length = .error .fuel ∨
    settleName it (within fuel) name length = settleName it isSome name length := by
  unfold settleName
  obtain h | h := @settle_within it fuel (pieces name) 0 length
  · rw [h]
    exact .inl rfl
  · rw [h]
    exact .inr rfl

theorem settleName_enough (name : Bytes) (length : ℕ) :
    ∃ turns, ∀ fuel, turns ≤ fuel → settleName it (within fuel) name length = settleName it isSome name length := by
  obtain ⟨turns, h⟩ := @settle_enough it (pieces name) 0 length
  refine ⟨turns, fun fuel hle => ?_⟩
  unfold settleName
  rw [h fuel hle]

theorem genname_endless (name : Bytes) (length : ℕ) (width : UInt32) (mode : UInt8) :
    (∃ turns, genname turns width mode name it length ≠ .error .fuel) ↔ ¬Sticks it 0 length (pieces name) := by
  constructor
  · rintro ⟨turns, hne⟩ hstuck
    rw [genname_settle] at hne
    obtain h | h := @settleName_within it turns name length
    · exact hne h
    obtain ⟨-, hset⟩ | ⟨hnot, -⟩ | ⟨hnot, -⟩ := @settleName_cases it name length
    · exact hne (h.trans hset)
    · exact hnot hstuck
    · exact hnot hstuck
  · intro hnot
    obtain ⟨turns, h⟩ := @settleName_enough it name length
    refine ⟨turns, ?_⟩
    rw [genname_settle, h turns le_rfl]
    obtain ⟨hstuck, -⟩ | ⟨-, out, -, hset⟩ | ⟨-, -, r, hset⟩ := @settleName_cases it name length
    · exact absurd hstuck hnot
    · rw [hset]
      simp
    · rw [hset]
      simp [fail]

theorem genname_safe {turns : ℕ} {width : UInt32} {mode : UInt8} {length : ℕ} {e : Stop}
    (h : genname turns width mode name it length = .error (.stop e)) : ∃ r, e = .result r := by
  rw [genname_settle] at h
  obtain hfuel | hset := @settleName_within it turns name length
  · rw [hfuel] at h
    cases h
  rw [hset] at h
  obtain ⟨-, hset⟩ | ⟨-, out, -, hset⟩ | ⟨-, -, r, hset⟩ := @settleName_cases it name length
  · rw [hset] at h
    cases h
  · rw [hset] at h
    cases h
  · rw [hset] at h
    cases h
    exact ⟨r, rfl⟩

end ends

/-! ### Turns of the loop -/

section turns

variable {S : Type} (env : Env S) (type : UInt16) (lhs rhs : Bytes)

/-- The value does not come to the end of its turn. -/
def Endless (i : UInt32) : Prop :=
  Sticks i.toInt32 0 lhsSize (pieces lhs) ∨
    (∃ l, Expansion i.toInt32 lhs lhsSize l) ∧ Sticks i.toInt32 0 rhsSize (pieces rhs)

/-- The record of the value is made. -/
def Handles (i : UInt32) (s s' : S) : Prop :=
  ∃ l r, Expansion i.toInt32 lhs lhsSize l ∧ Expansion i.toInt32 rhs rhsSize r ∧ record env type s l r = .ok s'

/-- The record of the value fails. -/
def Breaks (i : UInt32) (s : S) : Prop := ¬Endless lhs rhs i ∧ ∀ s', ¬Handles env type lhs rhs i s s'

/-- A turn with fuel enough. -/
def settleTurn (i : UInt32) (s : S) : Except Halt S := do
  let lhsbuf ← settleName i.toInt32 isSome lhs lhsSize
  let rhsbuf ← settleName i.toInt32 isSome rhs rhsSize
  lift (record env type s lhsbuf rhsbuf)

theorem settleTurn_cases (i : UInt32) (s : S) : (Endless lhs rhs i ∧ settleTurn env type lhs rhs i s = .error .fuel) ∨
    (∃ s', Handles env type lhs rhs i s s' ∧ settleTurn env type lhs rhs i s = .ok s') ∨
    (Breaks env type lhs rhs i s ∧ ∃ e, settleTurn env type lhs rhs i s = .error (.stop e)) := by
  unfold settleTurn
  obtain ⟨hstuck, hset⟩ | ⟨hnot, l, hl, hset⟩ | ⟨hnot, hnone, r, hset⟩ := @settleName_cases i.toInt32 lhs lhsSize
  · rw [hset]
    exact .inl ⟨Or.inl hstuck, rfl⟩
  · rw [hset, ok_then]
    obtain ⟨hstuck', hset'⟩ | ⟨hnot', r, hr, hset'⟩ | ⟨hnot', hnone', e, hset'⟩ := @settleName_cases i.toInt32 rhs rhsSize
    · rw [hset']
      exact .inl ⟨Or.inr ⟨⟨l, hl⟩, hstuck'⟩, rfl⟩
    · rw [hset', ok_then]
      have hend : ¬Endless lhs rhs i := by
        rintro (h | ⟨-, h⟩)
        · exact hnot h
        · exact hnot' h
      cases hrec : record env type s l r with
      | ok s' => exact .inr (.inl ⟨s', ⟨l, r, hl, hr, hrec⟩, rfl⟩)
      | error e =>
        refine .inr (.inr ⟨⟨hend, ?_⟩, e, rfl⟩)
        rintro s' ⟨l', r', hl', hr', hrec'⟩
        rw [hl'.unique hl, hr'.unique hr, hrec] at hrec'
        cases hrec'
    · rw [hset']
      refine .inr (.inr ⟨⟨?_, ?_⟩, .result e, rfl⟩)
      · rintro (h | ⟨-, h⟩)
        · exact hnot h
        · exact hnot' h
      · rintro s' ⟨l', r', -, hr', -⟩
        exact hnone' r' hr'
  · rw [hset]
    refine .inr (.inr ⟨⟨?_, ?_⟩, .result r, rfl⟩)
    · rintro (h | ⟨⟨l, hl⟩, -⟩)
      · exact hnot h
      · exact hnone l hl
    · rintro s' ⟨l', r', hl', -, -⟩
      exact hnone l' hl'

theorem generateTurn_within (turns : ℕ) (i : UInt32) (s : S) : generateTurn env type turns lhs rhs i s = .error .fuel ∨
    generateTurn env type turns lhs rhs i s = settleTurn env type lhs rhs i s := by
  unfold generateTurn settleTurn
  rw [genname_settle, genname_settle]
  obtain h | h := @settleName_within i.toInt32 turns lhs lhsSize
  · rw [h]
    exact .inl rfl
  rw [h]
  cases settleName i.toInt32 isSome lhs lhsSize with
  | error e => exact .inr rfl
  | ok l =>
    rw [ok_then, ok_then]
    obtain h' | h' := @settleName_within i.toInt32 turns rhs rhsSize
    · rw [h']
      exact .inl rfl
    · rw [h']
      exact .inr rfl

theorem generateTurn_enough (i : UInt32) (s : S) :
    ∃ turns, ∀ fuel, turns ≤ fuel → generateTurn env type fuel lhs rhs i s = settleTurn env type lhs rhs i s := by
  obtain ⟨n, hn⟩ := @settleName_enough i.toInt32 lhs lhsSize
  obtain ⟨m, hm⟩ := @settleName_enough i.toInt32 rhs rhsSize
  refine ⟨max n m, fun fuel hle => ?_⟩
  unfold generateTurn settleTurn
  rw [genname_settle, genname_settle, hn fuel (le_trans (le_max_left n m) hle), hm fuel (le_trans (le_max_right n m) hle)]

theorem generateTurn_cases (turns : ℕ) (i : UInt32) (s : S) : generateTurn env type turns lhs rhs i s = .error .fuel ∨
    (∃ s', Handles env type lhs rhs i s s' ∧ generateTurn env type turns lhs rhs i s = .ok s') ∨
    (Breaks env type lhs rhs i s ∧ ∃ e, generateTurn env type turns lhs rhs i s = .error (.stop e)) := by
  obtain h | h := generateTurn_within env type lhs rhs turns i s
  · exact .inl h
  rw [h]
  obtain ⟨-, hset⟩ | hset | hset := settleTurn_cases env type lhs rhs i s
  · exact .inl hset
  · exact .inr (.inl hset)
  · exact .inr (.inr hset)

variable {env type lhs rhs} {i : UInt32}

theorem Handles.unique {s s1 s2 : S} (h1 : Handles env type lhs rhs i s s1) (h2 : Handles env type lhs rhs i s s2) : s1 = s2 := by
  obtain ⟨l, r, hl, hr, hrec⟩ := h1
  obtain ⟨l', r', hl', hr', hrec'⟩ := h2
  rw [hl'.unique hl, hr'.unique hr, hrec] at hrec'
  exact Except.ok.inj hrec'

theorem Handles.not_endless {s s' : S} (h : Handles env type lhs rhs i s s') : ¬Endless lhs rhs i := by
  obtain ⟨l, r, hl, hr, -⟩ := h
  rintro (hstuck | ⟨-, hstuck⟩)
  · exact hl.not_sticks hstuck
  · exact hr.not_sticks hstuck

theorem Handles.turn {s s' : S} (h : Handles env type lhs rhs i s s') :
    ∃ turns, ∀ fuel, turns ≤ fuel → generateTurn env type fuel lhs rhs i s = .ok s' := by
  obtain ⟨turns, hturn⟩ := generateTurn_enough env type lhs rhs i s
  refine ⟨turns, fun fuel hle => ?_⟩
  rw [hturn fuel hle]
  obtain ⟨hend, -⟩ | ⟨s1, h1, hset⟩ | ⟨hbreaks, -⟩ := settleTurn_cases env type lhs rhs i s
  · exact absurd hend h.not_endless
  · rw [hset, h1.unique h]
  · exact absurd h (hbreaks.2 s')

theorem Breaks.turn {s : S} (h : Breaks env type lhs rhs i s) :
    ∃ turns e, ∀ fuel, turns ≤ fuel → generateTurn env type fuel lhs rhs i s = .error (.stop e) := by
  obtain ⟨turns, hturn⟩ := generateTurn_enough env type lhs rhs i s
  obtain ⟨hend, -⟩ | ⟨s1, h1, -⟩ | ⟨-, e, hset⟩ := settleTurn_cases env type lhs rhs i s
  · exact absurd hend h.1
  · exact absurd h1 (h.2 s1)
  · exact ⟨turns, e, fun fuel hle => (hturn fuel hle).trans hset⟩

end turns

/-! ### The range -/

/-- The values `start`, `start + step`, ... up to `stop`. -/
def progression (start stop step : ℕ) : List ℕ := (List.range ((stop - start) / step + 1)).map (fun k => start + k * step)

theorem progression_cons {start stop step : ℕ} (hle : start ≤ stop) (hstep : 0 < step) :
    progression start stop step = start :: if start + step ≤ stop then progression (start + step) stop step else [] := by
  unfold progression
  by_cases hnext : start + step ≤ stop
  · have hdiv : (stop - start) / step = (stop - (start + step)) / step + 1 := by
      rw [← Nat.add_div_right _ hstep]
      congr 1
      omega
    rw [if_pos hnext, hdiv, range_succ_eq_map, map_cons, map_map, Nat.zero_mul, Nat.add_zero]
    congr 1
    apply map_congr_left
    intro k _
    simp only [Function.comp_apply, Nat.succ_eq_add_one, Nat.add_mul, Nat.one_mul]
    omega
  · rw [if_neg hnext, Nat.div_eq_of_lt (by omega)]
    simp

section range

variable {S : Type} (env : Env S) (type : UInt16) (lhs rhs : Bytes) (stop step : UInt32)

/-- From the value `i` on the loop ends as it is to: the record of a value up to `stop` fails, or all are made and the value behind
the last is a 32-bit word. -/
inductive Ends : UInt32 → S → Prop where
  | breaks {i : UInt32} {s : S} (h : Breaks env type lhs rhs i s) : Ends i s
  | next {i : UInt32} {s s' : S} (h : Handles env type lhs rhs i s s') (hle : i.toNat + step.toNat ≤ stop.toNat)
      (hrest : Ends (i + step) s') : Ends i s
  | last {i : UInt32} {s s' : S} (h : Handles env type lhs rhs i s s') (hlt : stop.toNat < i.toNat + step.toNat)
      (hfits : i.toNat + step.toNat < 2 ^ 32) : Ends i s

/-- From the value `i` on the loop visits the values of the range, all of them unless it fails. -/
def Visits (i : UInt32) (run : List UInt32 × Except Halt S) : Prop :=
  run.2 ≠ .error .fuel ∧ run.1.map UInt32.toNat <+: progression i.toNat stop.toNat step.toNat ∧
    ∀ s, run.2 = .ok s → run.1.map UInt32.toNat = progression i.toNat stop.toNat step.toNat

variable {env type lhs rhs stop step}

theorem toNat_add_of_lt {i : UInt32} (h : i.toNat + step.toNat < 2 ^ 32) : (i + step).toNat = i.toNat + step.toNat := by
  rw [UInt32.toNat_add, Nat.mod_eq_of_lt h]

theorem Ends.visits {i : UInt32} {s : S} (h : Ends env type lhs rhs stop step i s) (hle : i ≤ stop) (hstep : 0 < step.toNat) :
    ∃ turns, ∀ n, turns ≤ n → ∀ fuel, turns ≤ fuel →
      Visits stop step i (generateLoop (generateTurn env type n lhs rhs) stop step fuel i s) := by
  induction h with
  | @breaks i s h =>
    obtain ⟨turns, e, hturn⟩ := h.turn
    refine ⟨turns + 1, fun n hn fuel hfuel => ?_⟩
    obtain ⟨fuel, rfl⟩ : ∃ k, fuel = k + 1 := ⟨fuel - 1, by omega⟩
    rw [generateLoop, if_pos hle, hturn n (by omega)]
    refine ⟨by simp, ?_, fun s h => by cases h⟩
    rw [progression_cons (UInt32.le_iff_toNat_le.1 hle) hstep]
    simp
  | @next i s s' h hnext _ ih =>
    obtain ⟨turns, hturn⟩ := h.turn
    have hadd : (i + step).toNat = i.toNat + step.toNat := toNat_add_of_lt (lt_of_le_of_lt hnext stop.toNat_lt)
    obtain ⟨turns', hrest⟩ := ih (UInt32.le_iff_toNat_le.2 (by omega))
    refine ⟨max turns turns' + 1, fun n hn fuel hfuel => ?_⟩
    obtain ⟨fuel, rfl⟩ : ∃ k, fuel = k + 1 := ⟨fuel - 1, by omega⟩
    obtain ⟨hends, hprefix, hall⟩ := hrest n (by omega) fuel (by omega)
    rw [hadd] at hprefix hall
    rw [generateLoop, if_pos hle, hturn n (by omega)]
    unfold Visits
    rw [progression_cons (UInt32.le_iff_toNat_le.1 hle) hstep, if_pos hnext]
    refine ⟨hends, ?_, fun s hs => ?_⟩
    · simpa using hprefix
    · simpa using hall s hs
  | @last i s s' h hlt hfits =>
    obtain ⟨turns, hturn⟩ := h.turn
    have hadd : (i + step).toNat = i.toNat + step.toNat := toNat_add_of_lt hfits
    refine ⟨turns + 2, fun n hn fuel hfuel => ?_⟩
    obtain ⟨fuel, rfl⟩ : ∃ k, fuel = k + 2 := ⟨fuel - 2, by omega⟩
    have hend : ¬i + step ≤ stop := by
      rw [UInt32.le_iff_toNat_le]
      omega
    rw [generateLoop, if_pos hle, hturn n (by omega)]
    simp only
    rw [generateLoop, if_neg hend]
    unfold Visits
    rw [progression_cons (UInt32.le_iff_toNat_le.1 hle) hstep, if_neg (by omega)]
    refine ⟨by simp, by simp, fun s _ => by simp⟩

theorem Ends.of_visits {n : ℕ} (hstep : 0 < step.toNat) : ∀ {fuel : ℕ} {i : UInt32} {s : S}, i ≤ stop →
    Visits stop step i (generateLoop (generateTurn env type n lhs rhs) stop step fuel i s) → Ends env type lhs rhs stop step i s
  | 0, i, s, _, h => absurd rfl h.1
  | fuel + 1, i, s, hle, h => by
    have hle' := UInt32.le_iff_toNat_le.1 hle
    rw [generateLoop, if_pos hle] at h
    obtain hturn | ⟨s', hs', hturn⟩ | ⟨hbreaks, -⟩ := generateTurn_cases env type lhs rhs n i s
    · rw [hturn] at h
      exact absurd rfl h.1
    · rw [hturn] at h
      obtain ⟨hends, hprefix, hall⟩ := h
      rw [progression_cons hle' hstep] at hprefix hall
      simp only at hends hprefix hall
      by_cases hnext : i.toNat + step.toNat ≤ stop.toNat
      · have hadd : (i + step).toNat = i.toNat + step.toNat := toNat_add_of_lt (lt_of_le_of_lt hnext stop.toNat_lt)
        rw [if_pos hnext] at hprefix hall
        refine .next hs' hnext (Ends.of_visits hstep (UInt32.le_iff_toNat_le.2 (by omega)) ⟨hends, ?_, fun s hs => ?_⟩)
        · rw [hadd]
          simpa using hprefix
        · rw [hadd]
          simpa using hall s hs
      by_cases hfits : i.toNat + step.toNat < 2 ^ 32
      · exact .last hs' (by omega) hfits
      -- the value wraps, and the loop visits one that it is not to visit
      exfalso
      have hadd : (i + step).toNat = i.toNat + step.toNat - 2 ^ 32 := by
        rw [UInt32.toNat_add, Nat.mod_eq_sub_mod (by omega), Nat.mod_eq_of_lt (by have := i.toNat_lt; have := step.toNat_lt; omega)]
      rw [if_neg hnext] at hprefix
      cases fuel with
      | zero => exact hends rfl
      | succ fuel =>
        have hwrapped : i + step ≤ stop := by
          have hlt := step.toNat_lt
          rw [UInt32.le_iff_toNat_le]
          omega
        have hlen := hprefix.length_le
        rw [generateLoop, if_pos hwrapped] at hlen
        cases hturn' : generateTurn env type n lhs rhs (i + step) s' with
        | error e | ok s'' =>
          rw [hturn'] at hlen
          simp at hlen
    · exact .breaks hbreaks

end range

/-! ### Main result -/

/-- What the directive is to do: to end, and to visit the values of the range, all of them unless it fails; a range with the step 0
is to be rejected. -/
def Exact {S : Type} (env : Env S) (range lhs gtype rhs : Bytes) (s : S) (start stop step : UInt32) : Prop :=
  ∃ turns, (generate env turns range lhs gtype rhs s).2 ≠ .error .fuel ∧
    if step = 0 then (generate env turns range lhs gtype rhs s).1 = [] ∧ ∀ s', (generate env turns range lhs gtype rhs s).2 ≠ .ok s'
    else Visits stop step start (generate env turns range lhs gtype rhs s)

theorem exact_iff {S : Type} {env : Env S} {range lhs gtype rhs : Bytes} {s : S} {start stop step : UInt32}
    (hrange : readRange range = some (start, stop, step)) (hle : start ≤ stop) : Exact env range lhs gtype rhs s start stop step ↔
      ∀ type, env.typeFromtext gtype = .ok type → step ≠ 0 ∧ Ends env type lhs rhs stop step start s := by
  have hrun : ∀ turns, generate env turns range lhs gtype rhs s =
      match env.typeFromtext gtype with
      | .error e => ([], .error (.stop e))
      | .ok type => generateLoop (generateTurn env type turns lhs rhs) stop step turns start s := by
    intro turns
    unfold generate
    rw [hrange]
    simp only
    rw [if_neg (UInt32.not_lt.2 hle)]
  unfold Exact
  simp only [hrun]
  cases henv : env.typeFromtext gtype with
  | error e =>
    refine iff_of_true ⟨0, by simp, ?_⟩ (fun type h => by cases h)
    split
    · exact ⟨rfl, fun s' h => by cases h⟩
    · exact ⟨by simp, by simp, fun s' h => by cases h⟩
  | ok type =>
    simp only
    constructor
    · rintro ⟨turns, hends, hright⟩ type' htype
      cases htype
      by_cases hzero : step = 0
      · -- the loop visits the first value
        exfalso
        rw [if_pos hzero] at hright
        cases turns with
        | zero => exact hends rfl
        | succ n =>
          have hvisits := hright.1
          rw [generateLoop, if_pos hle] at hvisits
          cases hturn : generateTurn env type (n + 1) lhs rhs start s with
          | error e | ok s' =>
            rw [hturn] at hvisits
            cases hvisits
      rw [if_neg hzero] at hright
      have hpos : 0 < step.toNat := Nat.pos_of_ne_zero (fun h => hzero (UInt32.toNat_inj.1 h))
      exact ⟨hzero, Ends.of_visits hpos hle hright⟩
    · intro h
      obtain ⟨hzero, hends⟩ := h type rfl
      have hpos : 0 < step.toNat := Nat.pos_of_ne_zero (fun h => hzero (UInt32.toNat_inj.1 h))
      obtain ⟨turns, hvisits⟩ := hends.visits hle hpos
      refine ⟨turns, (hvisits turns le_rfl turns le_rfl).1, ?_⟩
      rw [if_neg hzero]
      exact hvisits turns le_rfl turns le_rfl

/-- **$GENERATE.**  The loop ends and visits the values of the range iff the step is not 0 and, up to the first record that fails,
no `n` or `N` field of a negative value is reached, and the value behind the last is a 32-bit word where no record fails.  `genname`
ends iff it reaches no such field, and writes within its buffers. -/
theorem generate_ends {S : Type} (env : Env S) (range lhs gtype rhs : Bytes) (s : S) (start stop step : UInt32)
    (hrange : readRange range = some (start, stop, step)) (hle : start ≤ stop) :
    (Exact env range lhs gtype rhs s start stop step ↔
      ∀ type, env.typeFromtext gtype = .ok type → step ≠ 0 ∧ Ends env type lhs rhs stop step start s) ∧
    ∀ (width : UInt32) (mode : UInt8) (name : Bytes) (it : Int32) (length : ℕ),
      ((∃ turns, genname turns width mode name it length ≠ .error .fuel) ↔ ¬Sticks it 0 length (pieces name)) ∧
      ∀ turns e, genname turns width mode name it length = .error (.stop e) → ∃ r, e = .result r :=
  ⟨exact_iff hrange hle, fun width mode name _ length => ⟨genname_endless name length width mode, fun _ _ h => genname_safe h⟩⟩

/-- The address that the right-hand sides say, 1.2.3.4. -/
def plainAddress : Bytes := [49, 46, 50, 46, 51, 46, 52]

/-- The type is A, and the text of the address is the only rdata. -/
def plainEnv : Env Unit :=
  ⟨fun _ => .ok 1, none, fun _ => true, true, false, false,
    fun _ text => if text = plainAddress then .ok [1, 2, 3, 4] else stop .range, fun s _ _ _ => .ok s⟩

/-- A template without fields comes to itself. -/
theorem expansion_literal (it : Int32) {text : Bytes} {length : ℕ} (hpieces : pieces text = text.map .literal)
    (h : text.length < length) : Expansion it text length text := by
  have hprints : ∀ (delta : Int32) (cs : Bytes), Prints it delta (cs.map .literal) (cs.map (fun c => [c])) := by
    intro delta cs
    induction cs generalizing delta with
    | nil => exact .nil
    | cons c cs ih => exact .cons rfl (by simp [Piece.turns, Piece.fmt]) (ih _)
  refine ⟨text.map (fun c => [c]), ?_, ?_, h⟩
  · rw [hpieces]
    exact hprints 0 text
  · rw [← flatMap_def, flatMap_singleton']

theorem handles_letter (i : UInt32) : Handles plainEnv 1 [97] plainAddress i () () :=
  ⟨[97], plainAddress, expansion_literal _ (by decide +kernel) (by decide), expansion_literal _ (by decide +kernel) (by decide),
    by decide +kernel⟩

/-- The range `1-2`. -/
theorem generate_ends_plain : readRange [49, 45, 50] = some (1, 2, 1) ∧
    Exact plainEnv [49, 45, 50] [97] [65] plainAddress () 1 2 1 := by
  have hrange : readRange [49, 45, 50] = some (1, 2, 1) := by decide +kernel
  refine ⟨hrange, (generate_ends plainEnv [49, 45, 50] [97] [65] plainAddress () 1 2 1 hrange (by decide)).1.2
    (fun type htype => ?_)⟩
  cases htype
  exact ⟨by decide, .next (handles_letter 1) (by decide) (.last (handles_letter (1 + 1)) (by decide) (by decide))⟩

/-- The range `1-2/0`, of which the loop never comes to the end, the range `4294967295-4294967295`, where the value wraps, and the
field `${-1,1,n}` at 0. -/
theorem generate_endless : ¬Exact plainEnv [49, 45, 50, 47, 48] [97] [65] plainAddress () 1 2 0 ∧
    ¬Exact plainEnv [52, 50, 57, 52, 57, 54, 55, 50, 57, 53, 45, 52, 50, 57, 52, 57, 54, 55, 50, 57, 53] [97] [65] plainAddress ()
      4294967295 4294967295 1 ∧ ∀ turns, genname turns 0 0 [36, 123, 45, 49, 44, 49, 44, 110, 125] 0 2048 = .error .fuel := by
  refine ⟨fun h => ?_, fun h => ?_, fun turns => ?_⟩
  · exact absurd rfl ((exact_iff (by decide +kernel) (by decide)).1 h 1 rfl).1
  · have hends := ((exact_iff (by decide +kernel) (by decide)).1 h 1 rfl).2
    cases hends with
    | breaks h => exact h.2 () (handles_letter _)
    | next _ hle _ => exact absurd hle (by decide)
    | last _ _ hfits => exact absurd hfits (by decide)
  · have hpieces : pieces [36, 123, 45, 49, 44, 49, 44, 110, 125] = [.field [45, 49, 44, 49, 44, 110] true] := by decide +kernel
    have hstuck : Sticks 0 0 2048 (pieces [36, 123, 45, 49, 44, 49, 44, 110, 125]) := by
      rw [hpieces]
      exact ⟨[], _, [], rfl, ⟨[], .nil, Nat.zero_le _⟩, by decide +kernel⟩
    by_contra hne
    exact (genname_endless _ _ 0 0).1 ⟨turns, hne⟩ hstuck

end Bind9.Generate
