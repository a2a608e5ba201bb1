import Bind9.NameText

/-! # Reading names from text

What the state machine of `dns_name_fromtext` reads, without the machine: `LabelText` is the text of a label and `LabelsText` the
text of labels with a dot behind each.  `FtLocals.Inv` connects the local variables with the text that has been read.  The only
accesses that can be out of range are those to `maptolower` by a byte from 0x80 on when the name is downcased (`HighInText`,
`HighInOrigin`). -/

namespace Bind9

open List
open Bool hiding decide_eq_true not_not

/-- The number that three digits stand for. -/
def decimalValue (d1 d2 d3 : UInt8) : ℕ := ((d1.toNat - 48) * 10 + (d2.toNat - 48)) * 10 + (d3.toNat - 48)

inductive ByteText : Bytes → UInt8 → Prop
  | plain {c : UInt8} : c ≠ 46 → c ≠ 92 → ByteText [c] c
  | escaped {c : UInt8} : isDigit c = false → ByteText [92, c] c
  | decimal {d1 d2 d3 : UInt8} : isDigit d1 = true → isDigit d2 = true → isDigit d3 = true → decimalValue d1 d2 d3 ≤ 255 →
      ByteText [92, d1, d2, d3] (UInt8.ofNat (decimalValue d1 d2 d3))

/-- The text of a label, which must not look like a bitstring label. -/
inductive LabelText : Bytes → Label → Prop
  | nil : LabelText [] []
  | snoc {u p : Bytes} {l : Label} {b : UInt8} : LabelText u l → ByteText p b → (l = [] → p ≠ [92, 91]) →
      LabelText (u ++ p) (l ++ [b])

inductive LabelsText : Bytes → List Label → Prop
  | nil : LabelsText [] []
  | snoc {t u : Bytes} {ls : List Label} {l : Label} : LabelsText t ls → LabelText u l → l ≠ [] → l.length ≤ 63 →
      LabelsText (t ++ u ++ [46]) (ls ++ [l])

/-- The text of labels without a dot at its end; `@` stands for none. -/
def RelativeText (text : Bytes) (ls : List Label) : Prop :=
  text = [64] ∧ ls = [] ∨
  text ≠ [64] ∧ ∃ t u ls' l, text = t ++ u ∧ LabelsText t ls' ∧ LabelText u l ∧ l ≠ [] ∧ l.length ≤ 63 ∧ ls = ls' ++ [l]

/-- A byte from 0x80 on stands in the text, plain or behind a backslash, where a byte of a label is read that fits into `nmax`
bytes. -/
def HighInText (nmax : ℕ) (text : Bytes) : Prop :=
  ∃ t u p post ls l b, text = t ++ u ++ p ++ post ∧ LabelsText t ls ∧ LabelText u l ∧ l.length < 63 ∧
    (p = [b] ∨ p = [92, b]) ∧ 128 ≤ b.toNat ∧ Name.length ⟨ls⟩ + 1 + l.length < nmax

/-- The text is relative, there is space for the origin, and the origin has a byte from 0x80 on. -/
def HighInOrigin (nmax : ℕ) (text : Bytes) (origin : Option Name) : Prop :=
  ∃ o ls, origin = some o ∧ RelativeText text ls ∧ Name.length ⟨ls⟩ < nmax ∧ Name.length ⟨ls⟩ + o.length ≤ nmax ∧
    ∃ l ∈ o.labels, ∃ b ∈ l, 128 ≤ b.toNat

/-! ### What has been read -/

/-- A byte as it is put into the name. -/
def FtEnv.copy (env : FtEnv) (b : UInt8) : UInt8 := if env.downcase then maptolower b else b

structure FtLocals.Between (env : FtEnv) (ls : List Label) (v : FtLocals) : Prop where
  inner : Inner ls
  ndata : v.ndata = Name.ndata ⟨ls⟩
  nused : v.nused = Name.length ⟨ls⟩
  nrem : v.nrem + v.nused = env.nmax
  labels : v.labels = ls.length
  offsets : v.offsets = Name.offsetsFrom 0 ls ++ [Name.length ⟨ls⟩]
  done : v.done = false

/-- The local variables in a label of which `l` has been read. -/
structure FtLocals.Within (env : FtEnv) (ls : List Label) (l : Label) (v : FtLocals) : Prop where
  inner : Inner ls
  label_le : l.length ≤ 63
  count : v.count = l.length
  ndata : v.ndata = Name.ndata ⟨ls⟩ ++ 0 :: l
  label : v.label = Name.length ⟨ls⟩
  nused : v.nused = Name.length ⟨ls⟩ + 1 + l.length
  nrem : v.nrem + v.nused = env.nmax
  labels : v.labels = ls.length
  offsets : v.offsets = Name.offsetsFrom 0 ls ++ [Name.length ⟨ls⟩]
  done : v.done = false

/-- The local variables behind the root label. -/
structure FtLocals.Ended (env : FtEnv) (ls : List Label) (v : FtLocals) : Prop where
  inner : Inner ls
  ndata : v.ndata = Name.ndata ⟨ls ++ [[]]⟩
  nused : v.nused = Name.length ⟨ls ++ [[]]⟩
  fits : v.nused ≤ env.nmax
  labels : v.labels = ls.length + 1
  offsets : v.offsets = Name.offsets ⟨ls ++ [[]]⟩

/-- The labels as they are put into the name. -/
def FtEnv.copied (env : FtEnv) (ls : List Label) : List Label := ls.map (fun l => l.map env.copy)

/-- The local variables when `text` has been read and `tlen` bytes are left. -/
def FtLocals.Inv (env : FtEnv) (text : Bytes) (tlen : ℕ) (v : FtLocals) : Prop :=
  if v.done then tlen = 0 ∧ (text = [46] ∧ v.Ended env [] ∨ ∃ ls, ls ≠ [] ∧ LabelsText text ls ∧ v.Ended env (env.copied ls))
  else match v.state with
  | .init => text = [] ∧ v.Between env []
  | .start => ∃ ls, ls ≠ [] ∧ LabelsText text ls ∧ v.Between env (env.copied ls)
  | .ordinary => (tlen = 0 → text ≠ [64]) ∧ ∃ t u ls l, text = t ++ u ∧ LabelsText t ls ∧ LabelText u l ∧ l ≠ [] ∧
      v.Within env (env.copied ls) (l.map env.copy)
  | .initialescape => ∃ t ls, text = t ++ [92] ∧ LabelsText t ls ∧ v.Within env (env.copied ls) []
  | .escape => ∃ t u ls l, text = t ++ u ++ [92] ∧ LabelsText t ls ∧ LabelText u l ∧ l ≠ [] ∧
      v.Within env (env.copied ls) (l.map env.copy)
  | .escdecimal => ∃ t u ls l d, text = t ++ u ++ 92 :: d ∧ LabelsText t ls ∧ LabelText u l ∧
      v.Within env (env.copied ls) (l.map env.copy) ∧ d.length = v.digits ∧ (∀ c ∈ d, isDigit c = true) ∧ 0 < v.digits ∧
      v.digits < 3 ∧ v.value = d.foldl (fun n c => n * 10 + (c.toNat - 48)) 0
  | .at => text = [64] ∧ tlen = 0 ∧ v.Between env []

/-! ### Steps -/

section steps

variable {env : FtEnv} {v v' : FtLocals} {ls : List Label} {l : Label}

theorem decr_eq {n : ℕ} (h : 0 < n) (hle : n ≤ 255) : decr n = n - 1 := by
  unfold decr
  omega

theorem tableIndex_cases (c : UInt8) : tableIndex c = .ok c.toNat ∧ c.toNat < 128 ∨ tableIndex c = .error .overrun ∧ 128 ≤ c.toNat := by
  unfold tableIndex
  by_cases h : c.toNat < 128
  · exact .inl ⟨if_pos h, h⟩
  · exact .inr ⟨if_neg h, not_lt.1 h⟩

/-- Downcasing is out of range for a byte from 0x80 on. -/
theorem ftLower_cases (env : FtEnv) (c : UInt8) : ftLower env c = .ok (env.copy c) ∧ (env.downcase = true → c.toNat < 128) ∨
    ftLower env c = .error .overrun ∧ env.downcase = true ∧ 128 ≤ c.toNat := by
  unfold ftLower FtEnv.copy
  cases env.downcase with
  | false => exact .inl ⟨rfl, Bool.noConfusion⟩
  | true =>
    obtain ⟨h, hc⟩ | ⟨h, hc⟩ := tableIndex_cases c
    · rw [h]
      simp only [if_true, ok_then, UInt8.ofNat_toNat]
      exact .inl ⟨rfl, fun _ => hc⟩
    · rw [h]
      exact .inr ⟨rfl, rfl, hc⟩

theorem ftLowerValue_eq (env : FtEnv) {value : ℕ} (h : value ≤ 255) :
    ftLowerValue env value = .ok (env.copy (UInt8.ofNat value)) := by
  unfold ftLowerValue FtEnv.copy
  cases env.downcase with
  | false => rfl
  | true =>
    simp only [if_true]
    rw [inRange_true (decide_eq_true (by omega)), ok_then]
    rfl

theorem digitvalue_eq {c : UInt8} (h : isDigit c = true) : digitvalue c = .ok (c.toNat - 48) ∧ c.toNat - 48 ≤ 9 := by
  unfold isDigit at h
  simp only [and_eq_true, decide_eq_true_eq] at h
  unfold digitvalue tableIndex
  rw [if_pos (by omega)]
  exact ⟨rfl, by omega⟩

theorem FtLocals.Within.put (h : v.Within env ls l) (hlt : l.length < 63) (hrem : 0 < v.nrem) (hmax : env.nmax ≤ 255) (c : UInt8) :
    ∃ v', ftPut env { v with count := v.count + 1, state := .ordinary } c = .ok v' ∧ v'.Within env ls (l ++ [c]) ∧
      v'.state = .ordinary := by
  have hlen : v.ndata.length = v.nused := by
    rw [h.ndata, h.nused, length_append, length_cons]
    have hl : (Name.ndata ⟨ls⟩).length = Name.length ⟨ls⟩ := rfl
    omega
  have hnrem := h.nrem
  have hnused := h.nused
  unfold ftPut
  rw [inRange_true (decide_eq_true (show v.ndata.length < env.nmax by omega))]
  refine ⟨_, rfl, ⟨h.inner, ?_, ?_, ?_, h.label, ?_, ?_, h.labels, h.offsets, h.done⟩, rfl⟩
  · rw [length_append, length_singleton]
    omega
  · rw [length_append, length_singleton]
    exact congrArg (· + 1) h.count
  · rw [h.ndata, append_assoc]
    rfl
  · show v.nused + 1 = _
    rw [length_append, length_singleton]
    omega
  · show decr v.nrem + (v.nused + 1) = env.nmax
    rw [decr_eq hrem (by omega)]
    omega

/-- A byte of a label, plain or behind a backslash. -/
theorem FtLocals.Within.char (h : v.Within env ls l) (hrem : 0 < v.nrem) (hmax : env.nmax ≤ 255) (c : UInt8) :
    (l.length < 63 ∧ (env.downcase = true → c.toNat < 128) ∧
      ∃ v', ftChar env v c = .ok v' ∧ v'.Within env ls (l ++ [env.copy c]) ∧ v'.state = .ordinary) ∨
    (63 ≤ l.length ∧ ftChar env v c = .error (.result .labeltoolong)) ∨
    (l.length < 63 ∧ ftChar env v c = .error .overrun ∧ env.downcase = true ∧ 128 ≤ c.toNat) := by
  have hcount := h.count
  unfold ftChar
  by_cases hlt : l.length < 63
  · rw [if_neg (by omega)]
    obtain ⟨hlower, hlow⟩ | ⟨hlower, hdown, hc⟩ := ftLower_cases env c
    · rw [hlower, ok_then]
      exact .inl ⟨hlt, hlow, h.put hlt hrem hmax _⟩
    · rw [hlower]
      exact .inr (.inr ⟨hlt, rfl, hdown, hc⟩)
  · rw [if_pos (by omega)]
    exact .inr (.inl ⟨not_lt.1 hlt, rfl⟩)

theorem Inner.two_mul_length_le (h : Inner ls) : 2 * ls.length ≤ Name.length ⟨ls⟩ :=
  AbsName.two_mul_length_le ls (fun l hl => (h l hl).2)

theorem set_length_byte (xs : Bytes) (l : Label) : (xs ++ 0 :: l).set xs.length (UInt8.ofNat l.length) = xs ++ l.wire := by
  rw [set_append_right _ _ (le_refl _), Nat.sub_self]
  rfl

theorem offsetsFrom_append : ∀ (xs ys : List Label) (o : ℕ),
    Name.offsetsFrom o (xs ++ ys) = Name.offsetsFrom o xs ++ Name.offsetsFrom (o + Name.length ⟨xs⟩) ys
  | [], ys, o => rfl
  | x :: xs, ys, o => by
    have hplace : o + Name.length ⟨x :: xs⟩ = o + x.length + 1 + Name.length ⟨xs⟩ := by
      rw [Name.length_cons]
      omega
    rw [cons_append, Name.offsetsFrom, offsetsFrom_append xs ys, Name.offsetsFrom, hplace]
    rfl

theorem FtLocals.Within.close (h : v.Within env ls l) (hne : l ≠ []) (hrem : 0 < v.nrem) (hmax : env.nmax ≤ 255) :
    ∃ v', ftClose env v = .ok v' ∧ v'.Between env (ls ++ [l]) ∧ v'.nrem = v.nrem ∧ v'.state = v.state := by
  have hinner : Inner (ls ++ [l]) := h.inner.snoc h.label_le hne
  have htwo := hinner.two_mul_length_le
  have hlen : Name.length ⟨ls ++ [l]⟩ = Name.length ⟨ls⟩ + 1 + l.length := by
    rw [Name.length_append, Name.length_cons]
    have hnil : Name.length ⟨[]⟩ = 0 := rfl
    omega
  have hnused := h.nused
  have hnrem := h.nrem
  have hlabel := h.label
  have hlabels := h.labels
  rw [length_append, length_singleton] at htwo
  unfold ftClose
  rw [inRange_true (decide_eq_true (by omega)), ok_then, require_true (decide_eq_true (by omega)), ok_then,
    inRange_true (decide_eq_true (by omega)), ok_then]
  refine ⟨_, rfl, ⟨hinner, ?_, ?_, h.nrem, ?_, ?_, h.done⟩, rfl, rfl⟩
  · rw [h.ndata, h.label, h.count]
    have hset := set_length_byte (Name.ndata ⟨ls⟩) l
    have hwire : Name.ndata ⟨ls ++ [l]⟩ = Name.ndata ⟨ls⟩ ++ l.wire := by
      rw [Name.ndata_append]
      exact congrArg (Name.ndata ⟨ls⟩ ++ ·) (append_nil l.wire)
    rw [hwire]
    exact hset
  · show v.nused = _
    omega
  · rw [length_append, length_singleton, h.labels]
  · have hall : v.offsets.take (v.labels + 1) = v.offsets := by
      apply take_of_length_le
      rw [h.offsets, length_append, Name.offsetsFrom_length, length_singleton, h.labels]
    rw [hall, h.offsets, offsetsFrom_append, Nat.zero_add, h.nused, hlen]
    rfl

theorem FtLocals.Between.root (h : v.Between env ls) (hrem : 0 < v.nrem) :
    ∃ v', ftRoot env v = .ok v' ∧ v'.Ended env ls ∧ v'.done = true := by
  have hlen : v.ndata.length = v.nused := by
    rw [h.ndata, h.nused]
    rfl
  have hroot : Name.length ⟨ls ++ [[]]⟩ = Name.length ⟨ls⟩ + 1 := by
    rw [Name.length_append]
    rfl
  have hnrem := h.nrem
  have hnused := h.nused
  unfold ftRoot ftPut
  rw [inRange_true (decide_eq_true (by omega)), ok_then]
  refine ⟨_, rfl, ⟨h.inner, ?_, ?_, ?_, ?_, ?_⟩, rfl⟩
  · rw [h.ndata, Name.ndata_append]
    rfl
  · show v.nused + 1 = _
    omega
  · show v.nused + 1 ≤ env.nmax
    omega
  · rw [h.labels]
  · rw [h.offsets, Name.offsets, offsetsFrom_append, Nat.zero_add]
    rfl

theorem FtLocals.Within.dot (h : v.Within env ls l) (hne : l ≠ []) (hrem : 0 < v.nrem) (hmax : env.nmax ≤ 255) (tlen : ℕ) :
    ∃ v', ftDot env v tlen = .ok v' ∧
      if tlen = 0 then v'.done = true ∧ v'.Ended env (ls ++ [l]) else v'.state = .start ∧ v'.Between env (ls ++ [l]) := by
  have hcount : v.count ≠ 0 := by
    rw [h.count]
    exact fun hz => hne (length_eq_zero_iff.1 hz)
  obtain ⟨v1, hclose, hbetween, hrem1, -⟩ := h.close hne hrem hmax
  unfold ftDot
  rw [if_neg hcount, hclose, ok_then]
  have hstart : FtLocals.Between env (ls ++ [l]) { v1 with state := .start } :=
    ⟨hbetween.inner, hbetween.ndata, hbetween.nused, hbetween.nrem, hbetween.labels, hbetween.offsets, hbetween.done⟩
  by_cases ht : tlen = 0
  · rw [if_pos ht]
    obtain ⟨v2, hroot, hended, hdone⟩ := hstart.root (show 0 < v1.nrem by omega)
    refine ⟨v2, hroot, ?_⟩
    rw [if_pos ht]
    exact ⟨hdone, hended⟩
  rw [if_neg ht]
  refine ⟨_, rfl, ?_⟩
  rw [if_neg ht]
  exact ⟨rfl, hstart⟩

/-- A label is begun. -/
theorem FtLocals.Between.begin (h : v.Between env ls) (hrem : 0 < v.nrem) (hmax : env.nmax ≤ 255) (state : FtState) :
    FtLocals.Within env ls [] { v with
      label := v.ndata.length
      ndata := v.ndata ++ [0]
      nrem := decr v.nrem
      nused := v.nused + 1
      count := 0
      state := state } := by
  have hnrem := h.nrem
  refine ⟨h.inner, Nat.zero_le _, rfl, ?_, ?_, ?_, ?_, h.labels, h.offsets, h.done⟩
  · rw [h.ndata]
  · rw [h.ndata]
    rfl
  · rw [h.nused]
    rfl
  · show decr v.nrem + (v.nused + 1) = env.nmax
    rw [decr_eq hrem (by omega)]
    omega

end steps

/-! ### The invariant of the loop -/

/-- A byte from 0x80 on at the end of the text is looked up. -/
def HighAt (env : FtEnv) (text : Bytes) : Prop :=
  env.downcase = true ∧ ∃ t u p ls l b, text = t ++ u ++ p ∧ LabelsText t ls ∧ LabelText u l ∧ l.length < 63 ∧
    (p = [b] ∨ p = [92, b]) ∧ 128 ≤ b.toNat ∧ Name.length ⟨ls⟩ + 1 + l.length < env.nmax

/-- What a turn can do: it keeps the invariant, returns a result that is not `ISC_R_SUCCESS`, or is out of range. -/
def Stepped (env : FtEnv) (text : Bytes) (tlen : ℕ) (x : Exec FtLocals) : Prop :=
  (∃ v, x = .ok v ∧ v.Inv env text tlen) ∨ (∃ r, x = .error (.result r) ∧ r ≠ .success) ∨ x = .error .overrun ∧ HighAt env text

section invariant

variable {env : FtEnv} {v : FtLocals} {t u p : Bytes} {ls : List Label} {l : Label} {c : UInt8} {tlen : ℕ}

theorem Stepped.stopped {text : Bytes} {r : Result} (hr : r ≠ .success) : Stepped env text tlen (stop r) :=
  Or.inr (Or.inl ⟨r, rfl, hr⟩)

theorem length_copied (env : FtEnv) : ∀ ls : List Label, Name.length ⟨env.copied ls⟩ = Name.length ⟨ls⟩
  | [] => rfl
  | l :: ls => by
    have ih := length_copied env ls
    have hcons : env.copied (l :: ls) = l.map env.copy :: env.copied ls := rfl
    rw [hcons, Name.length_cons, Name.length_cons, length_map, ih]

theorem copied_append (env : FtEnv) (xs ys : List Label) : env.copied (xs ++ ys) = env.copied xs ++ env.copied ys :=
  map_append

/-- Behind a byte of a label. -/
theorem FtLocals.Within.inv_ordinary (hw : v.Within env (env.copied ls) (l.map env.copy)) (hs : v.state = .ordinary)
    (ht : LabelsText t ls) (hu : LabelText u l) (hne : l ≠ []) (h64 : tlen = 0 → t ++ u ≠ [64]) : v.Inv env (t ++ u) tlen := by
  unfold FtLocals.Inv
  rw [hw.done]
  simp only [false_eq_true, if_false, hs]
  exact ⟨h64, t, u, ls, l, rfl, ht, hu, hne, hw⟩

theorem ftChar_stepped (hw : v.Within env (env.copied ls) (l.map env.copy)) (hrem : 0 < v.nrem) (hmax : env.nmax ≤ 255)
    (ht : LabelsText t ls) (hu : LabelText u l) (hp : p = [c] ∧ c ≠ 46 ∧ c ≠ 92 ∨ p = [92, c] ∧ isDigit c = false)
    (hbit : l = [] → p ≠ [92, 91]) (h64 : tlen = 0 → t ++ u ++ p ≠ [64]) : Stepped env (t ++ u ++ p) tlen (ftChar env v c) := by
  have hlen : (l.map env.copy).length = l.length := length_map ..
  have hbyte : ByteText p c := by
    obtain ⟨rfl, h1, h2⟩ | ⟨rfl, hd⟩ := hp
    · exact .plain h1 h2
    · exact .escaped hd
  obtain ⟨hlt, -, v', hv', hw', hs'⟩ | ⟨-, herr⟩ | ⟨hlt, herr, hdown, hc⟩ := hw.char hrem hmax c
  · refine .inl ⟨v', hv', ?_⟩
    rw [append_assoc]
    rw [← map_singleton, ← map_append] at hw'
    rw [append_assoc] at h64
    exact hw'.inv_ordinary hs' ht (hu.snoc hbyte hbit) (append_ne_nil_of_right_ne_nil _ (cons_ne_nil _ _)) h64
  · rw [herr]
    exact Stepped.stopped Result.noConfusion
  · refine .inr (.inr ⟨herr, hdown, t, u, p, ls, l, c, rfl, ht, hu, hlen ▸ hlt, ?_, hc, ?_⟩)
    · exact hp.imp And.left And.left
    · have hnused := hw.nused
      have hnrem := hw.nrem
      rw [length_copied, hlen] at hnused
      omega

theorem ftEscdecimal_stepped {d : Bytes} (hw : v.Within env (env.copied ls) (l.map env.copy)) (hs : v.state = .escdecimal)
    (hrem : 0 < v.nrem) (hmax : env.nmax ≤ 255) (ht : LabelsText t ls) (hu : LabelText u l) (hd : d.length = v.digits)
    (hdigits : ∀ c ∈ d, isDigit c = true) (hlt : v.digits < 3)
    (hvalue : v.value = d.foldl (fun n c => n * 10 + (c.toNat - 48)) 0) :
    Stepped env (t ++ u ++ 92 :: d ++ [c]) tlen (ftEscdecimal env v c) := by
  unfold ftEscdecimal
  by_cases hc : isDigit c = true
  · obtain ⟨hdigit, -⟩ := digitvalue_eq hc
    rw [if_neg (by simp [hc]), hdigit, ok_then]
    simp only
    have hfold : v.value * 10 + (c.toNat - 48) = (d ++ [c]).foldl (fun n c => n * 10 + (c.toNat - 48)) 0 := by
      rw [foldl_append, ← hvalue]
      rfl
    have hall : ∀ c' ∈ d ++ [c], isDigit c' = true := by
      intro c' hc'
      obtain h | h := mem_append.1 hc'
      · exact hdigits c' h
      · rw [mem_singleton.1 h]
        exact hc
    have hlast : (d ++ [c]).length = v.digits + 1 := by
      rw [length_append, length_singleton, hd]
    by_cases hthree : v.digits + 1 = 3
    · rw [if_neg (not_not.2 hthree)]
      split
      · exact Stepped.stopped Result.noConfusion
      next hle =>
        split
        · exact Stepped.stopped Result.noConfusion
        next hcount =>
          rw [ftLowerValue_eq env (not_lt.1 hle), ok_then]
          have hw' : FtLocals.Within env (env.copied ls) (l.map env.copy)
              { v with value := v.value * 10 + (c.toNat - 48), digits := v.digits + 1 } :=
            ⟨hw.inner, hw.label_le, hw.count, hw.ndata, hw.label, hw.nused, hw.nrem, hw.labels, hw.offsets, hw.done⟩
          have hlt' : (l.map env.copy).length < 63 := by
            have hcount' := hw.count
            omega
          obtain ⟨v', hv', hwithin, hs'⟩ := hw'.put hlt' hrem hmax (env.copy (UInt8.ofNat (v.value * 10 + (c.toNat - 48))))
          refine .inl ⟨v', hv', ?_⟩
          rw [← map_singleton, ← map_append] at hwithin
          obtain ⟨d1, d2, rfl⟩ := length_eq_two.1 (show d.length = 2 by omega)
          have hdecimal : v.value * 10 + (c.toNat - 48) = decimalValue d1 d2 c := by
            rw [hvalue]
            unfold decimalValue
            simp
          rw [hdecimal] at hwithin hle
          have hbyte : ByteText [92, d1, d2, c] (UInt8.ofNat (decimalValue d1 d2 c)) :=
            .decimal (hdigits d1 (by simp)) (hdigits d2 (by simp)) hc (not_lt.1 hle)
          have htext : t ++ u ++ 92 :: [d1, d2] ++ [c] = t ++ (u ++ [92, d1, d2, c]) := by simp
          rw [htext]
          refine hwithin.inv_ordinary hs' ht (hu.snoc hbyte (fun _ heq => by cases heq)) ?_ (fun _ heq => ?_)
          · exact append_ne_nil_of_right_ne_nil _ (cons_ne_nil _ _)
          · have hlen := congrArg List.length heq
            simp at hlen
            omega
    rw [if_pos hthree]
    refine .inl ⟨_, rfl, ?_⟩
    unfold FtLocals.Inv
    rw [hw.done]
    simp only [false_eq_true, if_false, hs]
    refine ⟨t, u, ls, l, d ++ [c], ?_, ht, hu, ?_, hlast, hall, Nat.succ_pos _, by omega, hfold⟩
    · simp
    · exact ⟨hw.inner, hw.label_le, hw.count, hw.ndata, hw.label, hw.nused, hw.nrem, hw.labels, hw.offsets, rfl⟩
  · rw [if_pos (by simpa using hc)]
    exact Stepped.stopped Result.noConfusion

theorem ftEscape_stepped (hw : v.Within env (env.copied ls) (l.map env.copy)) (hrem : 0 < v.nrem) (hmax : env.nmax ≤ 255)
    (ht : LabelsText t ls) (hu : LabelText u l) (hbit : l = [] → c ≠ 91) :
    Stepped env (t ++ u ++ [92] ++ [c]) tlen (ftEscape env v c) := by
  unfold ftEscape
  cases hc : isDigit c with
  | false =>
    rw [if_pos rfl]
    have htext : t ++ u ++ [92] ++ [c] = t ++ u ++ [92, c] := by simp
    rw [htext]
    refine ftChar_stepped hw hrem hmax ht hu (Or.inr ⟨rfl, hc⟩) (fun hl heq => hbit hl ?_) (fun _ heq => ?_)
    · simpa using heq
    · have hlen := congrArg List.length heq
      simp at hlen
      omega
  | true =>
    rw [if_neg Bool.noConfusion]
    have hw' : FtLocals.Within env (env.copied ls) (l.map env.copy) { v with digits := 0, value := 0, state := .escdecimal } :=
      ⟨hw.inner, hw.label_le, hw.count, hw.ndata, hw.label, hw.nused, hw.nrem, hw.labels, hw.offsets, hw.done⟩
    exact ftEscdecimal_stepped (d := []) hw' rfl hrem hmax ht hu rfl (fun c hc => by cases hc) (show 0 < 3 by decide) rfl

/-- A byte in a label or at its start. -/
theorem ftOrdinary_stepped (hw : v.Within env (env.copied ls) (l.map env.copy)) (hrem : 0 < v.nrem) (hmax : env.nmax ≤ 255)
    (ht : LabelsText t ls) (hu : LabelText u l) (hslash : l = [] → c ≠ 92) (h64 : tlen = 0 → t ++ u ++ [c] ≠ [64]) :
    Stepped env (t ++ u ++ [c]) tlen (ftOrdinary env v c tlen) := by
  unfold ftOrdinary
  split
  next hdot =>
    subst hdot
    by_cases hne : l = []
    · subst hne
      have hzero : v.count = 0 := hw.count
      unfold ftDot
      rw [if_pos hzero]
      exact Stepped.stopped Result.noConfusion
    have hne' : l.map env.copy ≠ [] := fun h => hne (map_eq_nil_iff.1 h)
    obtain ⟨v', hv', hresult⟩ := hw.dot hne' hrem hmax tlen
    refine .inl ⟨v', hv', ?_⟩
    have hle : l.length ≤ 63 := by
      have hlen := hw.label_le
      rw [length_map] at hlen
      exact hlen
    have hlabels : LabelsText (t ++ u ++ [46]) (ls ++ [l]) := ht.snoc hu hne hle
    have hcopied : env.copied ls ++ [l.map env.copy] = env.copied (ls ++ [l]) := (copied_append env ls [l]).symm
    rw [hcopied] at hresult
    have hcons : ls ++ [l] ≠ [] := append_ne_nil_of_right_ne_nil _ (cons_ne_nil _ _)
    unfold FtLocals.Inv
    by_cases htlen : tlen = 0
    · rw [if_pos htlen] at hresult
      rw [hresult.1, if_pos rfl]
      exact ⟨htlen, Or.inr ⟨ls ++ [l], hcons, hlabels, hresult.2⟩⟩
    rw [if_neg htlen] at hresult
    rw [hresult.2.done]
    simp only [false_eq_true, if_false, hresult.1]
    exact ⟨ls ++ [l], hcons, hlabels, hresult.2⟩
  next hdot =>
    split
    next hback =>
      subst hback
      refine .inl ⟨_, rfl, ?_⟩
      unfold FtLocals.Inv
      simp only [hw.done, false_eq_true, if_false]
      refine ⟨t, u, ls, l, rfl, ht, hu, fun hl => hslash hl rfl, ?_⟩
      exact ⟨hw.inner, hw.label_le, hw.count, hw.ndata, hw.label, hw.nused, hw.nrem, hw.labels, hw.offsets, rfl⟩
    next hback => exact ftChar_stepped hw hrem hmax ht hu (Or.inl ⟨rfl, hdot, hback⟩) (fun _ heq => by cases heq) h64

theorem ftStart_stepped (hb : v.Between env (env.copied ls)) (hrem : 0 < v.nrem) (hmax : env.nmax ≤ 255) (ht : LabelsText t ls)
    (h64 : tlen = 0 → t ++ [c] ≠ [64]) : Stepped env (t ++ [c]) tlen (ftStart env v c tlen) := by
  unfold ftStart
  simp only
  split
  next hback =>
    subst hback
    refine .inl ⟨_, rfl, ?_⟩
    have hw := hb.begin hrem hmax .initialescape
    unfold FtLocals.Inv
    simp only [hb.done, false_eq_true, if_false] at hw ⊢
    exact ⟨t, ls, rfl, ht, hw⟩
  next hback =>
    split
    · exact Stepped.stopped Result.noConfusion
    next hnrem =>
      have hw := hb.begin hrem hmax .ordinary
      have hstep : Stepped env (t ++ [] ++ [c]) tlen (ftOrdinary env _ c tlen) :=
        ftOrdinary_stepped (l := []) hw (Nat.pos_of_ne_zero hnrem) hmax ht .nil (fun _ => hback) (by simpa using h64)
      rw [append_nil] at hstep
      exact hstep

/-- One turn of the loop. -/
theorem ftStep_stepped {text : Bytes} (hinv : v.Inv env text (tlen + 1)) (hrem : 0 < v.nrem) (hd : v.done = false)
    (hmax : env.nmax ≤ 255) : Stepped env (text ++ [c]) tlen (ftStep env v c tlen) := by
  unfold FtLocals.Inv at hinv
  simp only [hd, false_eq_true, if_false] at hinv
  unfold ftStep
  cases hs : v.state with
  | init =>
    simp only [hs] at hinv ⊢
    obtain ⟨rfl, hb⟩ := hinv
    unfold ftInit
    split
    next hdot =>
      subst hdot
      split
      · exact Stepped.stopped Result.noConfusion
      next htlen =>
        obtain ⟨v', hv', hended, hdone⟩ := hb.root hrem
        refine .inl ⟨v', hv', ?_⟩
        unfold FtLocals.Inv
        rw [hdone, if_pos rfl]
        exact ⟨not_not.1 htlen, Or.inl ⟨rfl, hended⟩⟩
    · split
      next hat =>
        obtain ⟨rfl, htlen⟩ := hat
        refine .inl ⟨_, rfl, ?_⟩
        unfold FtLocals.Inv
        simp only [hd, false_eq_true, if_false]
        exact ⟨rfl, htlen, hb.inner, hb.ndata, hb.nused, hb.nrem, hb.labels, hb.offsets, rfl⟩
      next hat =>
        have hb : v.Between env (env.copied []) := hb
        refine ftStart_stepped hb hrem hmax .nil (fun htlen heq => hat ⟨?_, htlen⟩)
        simpa using heq
  | start =>
    simp only [hs] at hinv ⊢
    obtain ⟨ls, hne, hlabels, hb⟩ := hinv
    refine ftStart_stepped hb hrem hmax hlabels (fun _ heq => ?_)
    cases hlabels with
    | nil => exact hne rfl
    | snoc ht hu hl hle =>
      have hlen := congrArg List.length heq
      simp at hlen
      omega
  | ordinary =>
    simp only [hs] at hinv ⊢
    obtain ⟨-, t, u, ls, l, rfl, ht, hu, hne, hw⟩ := hinv
    refine ftOrdinary_stepped hw hrem hmax ht hu (fun hl => absurd hl hne) (fun _ heq => ?_)
    cases hu with
    | nil => exact hne rfl
    | snoc hu' hp _ =>
      have hlen := congrArg List.length heq
      cases hp <;> simp at hlen <;> omega
  | initialescape =>
    simp only [hs] at hinv ⊢
    obtain ⟨t, ls, rfl, ht, hw⟩ := hinv
    split
    · exact Stepped.stopped Result.noConfusion
    next hbit =>
      have hstep : Stepped env (t ++ [] ++ [92] ++ [c]) tlen (ftEscape env v c) :=
        ftEscape_stepped (l := []) hw hrem hmax ht .nil (fun _ => hbit)
      rw [append_nil] at hstep
      exact hstep
  | escape =>
    simp only [hs] at hinv ⊢
    obtain ⟨t, u, ls, l, rfl, ht, hu, hne, hw⟩ := hinv
    exact ftEscape_stepped hw hrem hmax ht hu (fun hl => absurd hl hne)
  | escdecimal =>
    simp only [hs] at hinv ⊢
    obtain ⟨t, u, ls, l, d, rfl, ht, hu, hw, hlen, hdigits, -, hlt, hvalue⟩ := hinv
    exact ftEscdecimal_stepped hw hs hrem hmax ht hu hlen hdigits hlt hvalue
  | «at» =>
    simp only [hs] at hinv
    cases hinv.2.1

theorem ftLoop_stepped (hmax : env.nmax ≤ 255) : ∀ (text pre : Bytes) (v : FtLocals), v.Inv env pre text.length →
    (∃ v' read rest, text = read ++ rest ∧ ftLoop env v text = .ok (v', rest) ∧ v'.Inv env (pre ++ read) rest.length ∧
      (v'.done = true ∨ v'.nrem = 0 ∨ rest = [])) ∨
    (∃ r, ftLoop env v text = .error (.result r) ∧ r ≠ .success) ∨
    (ftLoop env v text = .error .overrun ∧ ∃ read post, text = read ++ post ∧ HighAt env (pre ++ read))
  | [], pre, v, hinv => Or.inl ⟨v, [], [], rfl, rfl, by rw [append_nil]; exact hinv, Or.inr (Or.inr rfl)⟩
  | c :: text, pre, v, hinv => by
    unfold ftLoop
    by_cases hgo : 0 < v.nrem ∧ v.done = false
    · rw [if_pos hgo]
      have hturn : Stepped env (pre ++ [c]) text.length (ftStep env v c text.length) := ftStep_stepped hinv hgo.1 hgo.2 hmax
      obtain ⟨v1, hstep, hinv1⟩ | ⟨r, hstep, hr⟩ | ⟨hstep, hhigh⟩ := hturn
      · rw [hstep, ok_then]
        obtain ⟨v', read, rest, rfl, hloop, hinv', hend⟩ | hstop | ⟨hloop, read, post, rfl, hhigh⟩ :=
          ftLoop_stepped hmax text (pre ++ [c]) v1 hinv1
        · rw [append_assoc] at hinv'
          exact .inl ⟨v', c :: read, rest, rfl, hloop, hinv', hend⟩
        · exact .inr (.inl hstop)
        · rw [append_assoc] at hhigh
          exact .inr (.inr ⟨hloop, c :: read, post, rfl, hhigh⟩)
      · rw [hstep]
        exact .inr (.inl ⟨r, rfl, hr⟩)
      · rw [hstep]
        exact .inr (.inr ⟨rfl, [c], text, rfl, hhigh⟩)
    rw [if_neg hgo]
    refine .inl ⟨v, [], c :: text, rfl, rfl, by rw [append_nil]; exact hinv, ?_⟩
    rw [not_and_or, not_eq_false, Nat.pos_iff_ne_zero, not_not] at hgo
    exact hgo.elim (fun h => Or.inr (Or.inl h)) Or.inl

end invariant

/-! ### The origin -/

/-- The local variables when the labels `ls` are in the name and more come. -/
structure FtLocals.Joined (ls : List Label) (v : FtLocals) : Prop where
  inner : Inner ls
  ndata : v.ndata = Name.ndata ⟨ls⟩
  nused : v.nused = Name.length ⟨ls⟩
  labels : v.labels = ls.length
  offsets : v.offsets = Name.offsetsFrom 0 ls ++ [Name.length ⟨ls⟩]

/-- The local variables when the name has the labels `ls`. -/
structure FtLocals.Named (ls : List Label) (v : FtLocals) : Prop where
  ndata : v.ndata = Name.ndata ⟨ls⟩
  nused : v.nused = Name.length ⟨ls⟩
  labels : v.labels = ls.length
  offsets : Name.offsets ⟨ls⟩ <+: v.offsets

section origin

variable {env : FtEnv}

theorem ftCopy_cases (env : FtEnv) : ∀ (bs : Bytes) (v : FtLocals), v.ndata.length + bs.length ≤ env.nmax →
    ftCopy env v bs = .ok { v with ndata := v.ndata ++ bs.map env.copy } ∧ (env.downcase = true → ∀ b ∈ bs, b.toNat < 128) ∨
    ftCopy env v bs = .error .overrun ∧ env.downcase = true ∧ ∃ b ∈ bs, 128 ≤ b.toNat
  | [], v, _ => by
    refine .inl ⟨?_, fun _ b hb => by cases hb⟩
    rw [map_nil, append_nil]
    rfl
  | c :: bs, v, hlen => by
    rw [length_cons] at hlen
    unfold ftCopy
    obtain ⟨hlower, hlow⟩ | ⟨hlower, hdown, hc⟩ := ftLower_cases env c
    · rw [hlower, ok_then, inRange_true (decide_eq_true (by omega)), ok_then]
      obtain ⟨hcopy, hrest⟩ | ⟨hcopy, hdown, b, hb, hhigh⟩ := ftCopy_cases env bs { v with ndata := v.ndata ++ [env.copy c] } (by
        rw [length_append, length_singleton]
        omega)
      · refine .inl ⟨?_, fun hdown b hb => ?_⟩
        · rw [hcopy]
          simp
        · obtain rfl | hb := mem_cons.1 hb
          · exact hlow hdown
          · exact hrest hdown b hb
      · exact .inr ⟨hcopy, hdown, b, mem_cons_of_mem c hb, hhigh⟩
    · rw [hlower]
      exact .inr ⟨rfl, hdown, c, mem_cons_self, hc⟩

theorem ndata_cons (l : Label) (ls : List Label) :
    Name.ndata ⟨l :: ls⟩ = UInt8.ofNat l.length :: (l ++ Name.ndata ⟨ls⟩) := rfl

theorem ftOrigin_cases (hmax : env.nmax ≤ 255) : ∀ (os : List Label) (fuel : ℕ) (ls : List Label) (v : FtLocals),
    (∀ l ∈ os, l.length ≤ 63) → (∀ l ∈ os.dropLast, l ≠ []) → os ≠ [] → Name.length ⟨os⟩ ≤ fuel → v.Joined ls →
    Name.length ⟨ls⟩ + Name.length ⟨os⟩ ≤ env.nmax →
    (∃ v', ftOrigin env fuel v (Name.ndata ⟨os⟩) = .ok v' ∧ v'.Named (ls ++ env.copied os) ∧
      (env.downcase = true → ∀ l ∈ os, ∀ b ∈ l, b.toNat < 128)) ∨
    (ftOrigin env fuel v (Name.ndata ⟨os⟩) = .error .overrun ∧ env.downcase = true ∧ ∃ l ∈ os, ∃ b ∈ l, 128 ≤ b.toNat)
  | [], _, _, _, _, _, hne, _, _, _ => absurd rfl hne
  | l :: os, fuel, ls, v, hle, hinner, _, hfuel, hv, hfits => by
    have hl := hle l mem_cons_self
    have hcons := Name.length_cons l os
    obtain ⟨fuel, rfl⟩ : ∃ k, fuel = k + 1 := ⟨fuel - 1, by omega⟩
    have hndata : v.ndata.length = Name.length ⟨ls⟩ := by
      rw [hv.ndata]
      rfl
    have hrest : (Name.ndata ⟨os⟩).length = Name.length ⟨os⟩ := rfl
    rw [ndata_cons, ftOrigin, toNat_ofNat_length hl, require_true (decide_eq_true hl), ok_then,
      inRange_true (decide_eq_true (by omega)), ok_then,
      inRange_true (decide_eq_true (by rw [length_append]; omega)), ok_then, take_left, drop_left,
      length_append, Nat.add_sub_cancel_left, hrest]
    obtain ⟨hcopy, hlow⟩ | ⟨hcopy, hdown, b, hb, hhigh⟩ := ftCopy_cases env l
      { v with ndata := v.ndata ++ [UInt8.ofNat l.length], nused := v.nused + l.length + 1 } (by
        rw [length_append, length_singleton]
        omega)
    · rw [hcopy, ok_then]
      have hlen : (l.map env.copy).length = l.length := length_map ..
      have hnd : v.ndata ++ [UInt8.ofNat l.length] ++ l.map env.copy = Name.ndata ⟨ls ++ [l.map env.copy]⟩ := by
        rw [hv.ndata, Name.ndata_append, append_assoc]
        congr 1
        rw [ndata_cons, hlen]
        have hnil : Name.ndata ⟨[]⟩ = [] := rfl
        rw [hnil, append_nil]
        rfl
      have hnu : v.nused + l.length + 1 = Name.length ⟨ls ++ [l.map env.copy]⟩ := by
        rw [Name.length_append, Name.length_cons, hlen, hv.nused]
        have hnil : Name.length ⟨[]⟩ = 0 := rfl
        omega
      have hcount : v.labels + 1 = (ls ++ [l.map env.copy]).length := by
        rw [length_append, length_singleton, hv.labels]
      have hoffs : Name.offsets ⟨ls ++ [l.map env.copy]⟩ = v.offsets := by
        rw [Name.offsets, offsetsFrom_append, Nat.zero_add, hv.offsets]
        rfl
      by_cases hos : os = []
      · subst hos
        have hlast : ∀ w, ftOrigin env fuel w (Name.ndata ⟨[]⟩) = .ok w := by
          intro w
          cases fuel <;> rfl
        have hzero : Name.length ⟨[]⟩ = 0 := rfl
        unfold ftOffset
        rw [if_pos hzero, ok_then, hlast]
        refine .inl ⟨_, rfl, ⟨hnd, hnu, hcount, ?_⟩, fun hdown l' hl' => ?_⟩
        · rw [show env.copied [l] = [l.map env.copy] from rfl, hoffs]
        · rw [mem_singleton.1 hl']
          exact hlow hdown
      have hpos : Name.length ⟨os⟩ ≠ 0 := by
        cases os with
        | nil => exact absurd rfl hos
        | cons l' os' =>
          rw [Name.length_cons]
          omega
      have hdrop : (l :: os).dropLast = l :: os.dropLast := dropLast_cons_of_ne_nil hos
      have hlne : l ≠ [] := hinner l (by rw [hdrop]; exact mem_cons_self)
      have hin : Inner (ls ++ [l.map env.copy]) :=
        hv.inner.snoc (by omega) (fun h => hlne (map_eq_nil_iff.1 h))
      have htwo := hin.two_mul_length_le
      rw [← hcount, ← hnu] at htwo
      have hnused := hv.nused
      unfold ftOffset
      rw [if_neg hpos, require_true (decide_eq_true (show v.labels + 1 ≤ 127 by omega)), ok_then,
        inRange_true (decide_eq_true (show v.labels + 1 < 128 by omega)), ok_then]
      have hjoined : FtLocals.Joined (ls ++ [l.map env.copy])
          { v with
            ndata := v.ndata ++ [UInt8.ofNat l.length] ++ l.map env.copy
            nused := v.nused + l.length + 1
            labels := v.labels + 1
            offsets := v.offsets.take (v.labels + 1) ++ [v.nused + l.length + 1] } := by
        refine ⟨hin, hnd, hnu, hcount, ?_⟩
        have hall : v.offsets.take (v.labels + 1) = v.offsets := by
          apply take_of_length_le
          rw [hv.offsets, length_append, Name.offsetsFrom_length, length_singleton, hv.labels]
        rw [hall, ← hoffs, hnu]
        rfl
      have hfits' : Name.length ⟨ls ++ [l.map env.copy]⟩ + Name.length ⟨os⟩ ≤ env.nmax := by omega
      obtain ⟨v', hloop, hnamed, hlow'⟩ | ⟨hloop, hdown, l', hl', hhigh⟩ :=
        ftOrigin_cases hmax os fuel (ls ++ [l.map env.copy]) _ (fun l' hl' => hle l' (mem_cons_of_mem l hl'))
          (fun l' hl' => hinner l' (by rw [hdrop]; exact mem_cons_of_mem l hl')) hos (by omega) hjoined hfits'
      · refine .inl ⟨v', hloop, ?_, fun hdown l' hl' => ?_⟩
        · rw [append_assoc] at hnamed
          exact hnamed
        · obtain rfl | hl' := mem_cons.1 hl'
          · exact hlow hdown
          · exact hlow' hdown l' hl'
      · exact .inr ⟨hloop, hdown, l', mem_cons_of_mem l hl', hhigh⟩
    · rw [hcopy]
      exact .inr ⟨rfl, hdown, l, mem_cons_self, b, hb, hhigh⟩

end origin

end Bind9
