import Mathlib.Data.List.Perm.Basic
import Mathlib.Tactic

/-! # Symbol tables

`lib/isc/symtab.c`.  A table is its buckets, each a chain with the newest entry first; the unsigned
arithmetic of the sizes is modulo 2^32.  An operation gives the entries for which it calls
`undefine_action`, and nothing where an `INSIST` fails. -/

namespace Bind9.Symtab

open List
open Function

variable {V : Type*}

inductive Result where
  | success
  | exists_
  | notfound
  | nomemory
deriving DecidableEq, Repr

/-- An `isc_symexists_t`. -/
inductive Policy where
  | reject
  | replace
  | add
deriving DecidableEq, Repr

/-- An `elt_t`; the key is a C string. -/
structure Elt (V : Type*) where
  key : List UInt8
  type : ℕ
  value : V
deriving DecidableEq

/-- An `isc_symtab_t`. -/
structure Table (V : Type*) where
  size : ℕ
  count : ℕ
  maxload : ℕ
  table : ℕ → List (Elt V)
  caseSensitive : Bool

def create (size : ℕ) (caseSensitive : Bool) : Table V := ⟨size, 0, size * 3 % 2 ^ 32 / 4, fun _ => [], caseSensitive⟩

def tolower (c : UInt8) : UInt8 := if 65 ≤ c ∧ c ≤ 90 then c + 32 else c

variable (caseSensitive : Bool)

/-- What is compared of a key. -/
def folded (key : List UInt8) : List UInt8 := if caseSensitive then key else key.map tolower

/-- `hash`; a plain `char` is signed. -/
def hash (key : List UInt8) : UInt32 :=
  if caseSensitive then key.foldl (fun h c => h + ((h <<< 3) + c.toInt8.toInt32.toUInt32)) 0
  else key.foldl (fun h c => h + ((h <<< 3) + (tolower c).toUInt32)) 0

/-- `strcmp` or `strcasecmp` finds no difference. -/
def sameKey (k : List UInt8) (e : Elt V) : Bool :=
  folded caseSensitive e.key == folded caseSensitive k

/-- The test in `FIND`. -/
def matching (k : List UInt8) (t : ℕ) (e : Elt V) : Bool :=
  (t == 0 || e.type == t) && sameKey caseSensitive k e

section Functions

variable (s : Table V) (key : List UInt8) (type : ℕ)

def Table.bucket (k : List UInt8) : ℕ := (hash s.caseSensitive k).toNat % s.size

def Table.find : Option (Elt V) := (s.table (s.bucket key)).find? (matching s.caseSensitive key type)

/-- `UNLINK` of what `FIND` has found. -/
def Table.unlink : ℕ → List (Elt V) :=
  update s.table (s.bucket key) ((s.table (s.bucket key)).eraseP (matching s.caseSensitive key type))

def lookup : Option V := (s.find key type).map Elt.value

/-- The loops of `grow_table`, bucket by bucket and from head to tail. -/
def rehash (newsize : ℕ) : ℕ → List (Elt V) :=
  ((range s.size).flatMap s.table).foldl (fun newtable e =>
    let hv := (hash s.caseSensitive e.key).toNat % newsize
    update newtable hv (newtable hv ++ [e])) (fun _ => [])

/-- `grow_table`; `mem` tells whether it gets the new table. -/
def growTable (mem : Bool) : Option (Table V) :=
  let newsize := s.size * 2 % 2 ^ 32
  let newmax := newsize * 3 % 2 ^ 32 / 4
  if 0 < newsize ∧ 0 < newmax then
    if mem then some { s with table := rehash s newsize, size := newsize, maxload := newmax } else some s
  else none

/-- The end of `isc_symtab_define`: `PREPEND` and the growth. -/
def prepend (e : Elt V) (mem : Bool) : Option (Table V) :=
  let s := { s with table := update s.table (s.bucket e.key) (e :: s.table (s.bucket e.key)) }
  if s.maxload < s.count then growTable s mem else some s

/-- `isc_symtab_define`; `elt` and `mem` tell whether it gets memory for the entry and for a table. -/
def define (value : V) (policy : Policy) (elt mem : Bool) : Option (Result × Table V × List (Elt V)) :=
  match s.find key type, policy with
  | some _, .reject => some (.exists_, s, [])
  | some e, .replace => (prepend { s with table := s.unlink key type } ⟨key, type, value⟩ mem).map fun s => (.success, s, [e])
  | _, _ =>
    if elt then (prepend { s with count := (s.count + 1) % 2 ^ 32 } ⟨key, type, value⟩ mem).map fun s => (.success, s, [])
    else some (.nomemory, s, [])

def undefine : Result × Table V × List (Elt V) :=
  match s.find key type with
  | none => (.notfound, s, [])
  | some e => (.success, { s with table := s.unlink key type, count := s.count - 1 }, [e])

def destroy : List (Elt V) := (range s.size).flatMap s.table

end Functions

/-! ### The list -/

section Spec

variable (key : List UInt8) (type : ℕ) (cs : Bool) (l : List (Elt V))

/-- A definition on a list, newest first, that has room for one entry more if `elt` is true. -/
def Spec.define (value : V) (policy : Policy) (elt : Bool) : Result × List (Elt V) × List (Elt V) :=
  match l.find? (matching cs key type), policy with
  | some _, .reject => (.exists_, l, [])
  | some e, .replace => (.success, ⟨key, type, value⟩ :: l.eraseP (matching cs key type), [e])
  | _, _ => if elt then (.success, ⟨key, type, value⟩ :: l, []) else (.nomemory, l, [])

def Spec.undefine : Result × List (Elt V) × List (Elt V) :=
  match l.find? (matching cs key type) with
  | none => (.notfound, l, [])
  | some e => (.success, l.eraseP (matching cs key type), [e])

end Spec

/-- The doubled size and its load limit are not zero in 32 bits. -/
def Growable (s : Table V) : Prop := 0 < s.size * 2 % 2 ^ 32 ∧ 0 < s.size * 2 % 2 ^ 32 * 3 % 2 ^ 32 / 4

/-- The tables after any calls, with the entries of the list; a table that may grow is growable, and it has
fewer than 2^32 entries. -/
inductive Run (cs : Bool) : Table V → List (Elt V) → Prop
  | create {size : ℕ} : 0 < size → Run cs (create size cs) []
  | define {s s' : Table V} {l calls : List (Elt V)} {r : Result} {key : List UInt8} {type : ℕ} {value : V}
      {policy : Policy} {elt mem : Bool} : Run cs s l → l.length + 1 < 2 ^ 32 →
      define s key type value policy elt mem = some (r, s', calls) →
      Run cs s' (Spec.define key type cs l value policy elt).2.1
  | undefine {s : Table V} {l : List (Elt V)} {key : List UInt8} {type : ℕ} : Run cs s l →
      Run cs (undefine s key type).2.1 (Spec.undefine key type cs l).2.1

structure Exact (cs : Bool) (s : Table V) (l : List (Elt V)) : Prop where
  count : s.count = l.length
  bucket : ∀ b, ∀ e ∈ s.table b, (hash cs e.key).toNat % s.size = b
  lookups : ∀ key type, lookup s key type = (l.find? (matching cs key type)).map Elt.value
  returns : ∀ key type value policy elt mem, l.length + 1 < 2 ^ 32 → Growable s →
    (define s key type value policy elt mem).isSome
  defines : ∀ key type value policy elt mem r s' calls, l.length + 1 < 2 ^ 32 →
    define s key type value policy elt mem = some (r, s', calls) →
      r = (Spec.define key type cs l value policy elt).1 ∧ calls = (Spec.define key type cs l value policy elt).2.2
  undefines : ∀ key type, (undefine s key type).1 = (Spec.undefine key type cs l).1 ∧
    (undefine s key type).2.2 = (Spec.undefine key type cs l).2.2
  destroys : destroy s ~ l

/-! ### Keys -/

variable {s s' : Table V} {k k' key : List UInt8} {cs : Bool} {l l' : List (Elt V)} {e : Elt V} {type size : ℕ}
  {table : ℕ → List (Elt V)} {mem : Bool}

theorem hash_folded (h : folded cs k = folded cs k') : hash cs k = hash cs k' := by
  cases cs with
  | true => rw [show k = k' from h]
  | false =>
    have hmap : ∀ x : List UInt8, hash false x =
        (x.map tolower).foldl (fun (h : UInt32) c => h + ((h <<< 3) + c.toUInt32)) 0 := fun x => by rw [foldl_map]; rfl
    rw [hmap, hmap, show k.map tolower = k'.map tolower from h]

theorem sameKey_iff : sameKey cs k e = true ↔ folded cs e.key = folded cs k := beq_iff_eq

theorem sameKey_congr (h : folded cs k = folded cs k') : sameKey cs k = sameKey (V := V) cs k' := by
  funext e
  rw [sameKey, h, sameKey]

theorem find_filter (l : List (Elt V)) : l.find? (matching cs k type) =
    (l.filter (sameKey cs k)).find? (fun e => type == 0 || e.type == type) := by
  rw [find?_filter]
  congr 1
  funext e
  rw [matching, Bool.decide_and, Bool.decide_eq_true, Bool.decide_eq_true, Bool.and_comm]

theorem filter_eraseP_same (l : List (Elt V)) : (l.eraseP (matching cs k type)).filter (sameKey cs k) =
    (l.filter (sameKey cs k)).eraseP (fun e => type == 0 || e.type == type) := by
  induction l with
  | nil => rfl
  | cons e l ih =>
    rw [eraseP_cons, filter_cons]
    cases hq : sameKey cs k e <;> cases hr : (type == 0 || e.type == type)
    all_goals simp [matching, hq, hr, ih]

theorem filter_eraseP_other (h : folded cs k' ≠ folded cs k) (l : List (Elt V)) :
    (l.eraseP (matching cs k type)).filter (sameKey cs k') = l.filter (sameKey cs k') := by
  induction l with
  | nil => rfl
  | cons e l ih =>
    cases hm : matching cs k type e with
    | true =>
      have hno : sameKey cs k' e ≠ true := by
        rw [matching, Bool.and_eq_true] at hm
        rw [ne_eq, sameKey_iff, sameKey_iff.1 hm.2]
        exact fun he => h he.symm
      rw [eraseP_cons_of_pos hm, filter_cons_of_neg hno]
    | false =>
      rw [eraseP_cons_of_neg (by simp [hm]), filter_cons, filter_cons, ih]

/-! ### Chains -/

/-- Each entry is in the bucket of its hash, and in every bucket the entries of a key stand as in the list. -/
structure Chains (cs : Bool) (size : ℕ) (table : ℕ → List (Elt V)) (l : List (Elt V)) : Prop where
  bucket : ∀ b, ∀ e ∈ table b, (hash cs e.key).toNat % size = b
  chain : ∀ k, (table ((hash cs k).toNat % size)).filter (sameKey cs k) = l.filter (sameKey cs k)

theorem Chains.find (h : Chains cs size table l) :
    (table ((hash cs k).toNat % size)).find? (matching cs k type) = l.find? (matching cs k type) := by
  rw [find_filter, h.chain, ← find_filter]

theorem Chains.erase (h : Chains cs size table l) (k : List UInt8) (type : ℕ) :
    Chains cs size (update table ((hash cs k).toNat % size)
      ((table ((hash cs k).toNat % size)).eraseP (matching cs k type))) (l.eraseP (matching cs k type)) := by
  constructor
  · intro b e he
    by_cases hb : b = (hash cs k).toNat % size
    · subst hb
      rw [update_self] at he
      exact h.bucket _ e (mem_of_mem_eraseP he)
    · rw [update_of_ne hb] at he
      exact h.bucket b e he
  · intro k'
    by_cases hk : folded cs k' = folded cs k
    · rw [sameKey_congr hk, hash_folded hk, update_self, filter_eraseP_same, h.chain, ← filter_eraseP_same]
    rw [filter_eraseP_other hk, ← h.chain k']
    by_cases hb : (hash cs k').toNat % size = (hash cs k).toNat % size
    · rw [hb, update_self, filter_eraseP_other hk]
    · rw [update_of_ne hb]

theorem Chains.cons (h : Chains cs size table l) (e : Elt V) : Chains cs size (update table ((hash cs e.key).toNat % size)
      (e :: table ((hash cs e.key).toNat % size))) (e :: l) := by
  constructor
  · intro b a ha
    by_cases hb : b = (hash cs e.key).toNat % size
    · subst hb
      rw [update_self] at ha
      rcases mem_cons.1 ha with rfl | ha
      · rfl
      · exact h.bucket _ a ha
    · rw [update_of_ne hb] at ha
      exact h.bucket b a ha
  · intro k
    by_cases hk : sameKey cs k e = true
    · rw [← hash_folded (sameKey_iff.1 hk), update_self, filter_cons_of_pos hk, filter_cons_of_pos hk,
        hash_folded (sameKey_iff.1 hk), h.chain]
    rw [filter_cons_of_neg hk, ← h.chain k]
    by_cases hb : (hash cs k).toNat % size = (hash cs e.key).toNat % size
    · rw [hb, update_self, filter_cons_of_neg hk]
    · rw [update_of_ne hb]

theorem Chains.flat (h : Chains cs size table l) (hsize : 0 < size) (k : List UInt8) :
    ((range size).flatMap table).filter (sameKey cs k) = l.filter (sameKey cs k) := by
  have hother : ∀ b, b ≠ (hash cs k).toNat % size → (table b).filter (sameKey cs k) = [] := by
    intro b hb
    refine filter_eq_nil_iff.2 fun e he hk => hb ?_
    rw [← h.bucket b e he, hash_folded (sameKey_iff.1 hk)]
  have hrange : ∀ n, ((range n).flatMap table).filter (sameKey cs k) =
      if (hash cs k).toNat % size < n then l.filter (sameKey cs k) else [] := by
    intro n
    induction n with
    | zero => rfl
    | succ n ih =>
      rw [range_succ, flatMap_append, filter_append, ih, flatMap_singleton]
      rcases lt_trichotomy ((hash cs k).toNat % size) n with hlt | rfl | hlt
      · rw [if_pos hlt, if_pos (by omega), hother n (by omega), append_nil]
      · rw [if_neg (lt_irrefl _), if_pos (Nat.lt_succ_self _), h.chain, nil_append]
      · rw [if_neg (by omega), if_neg (by omega), hother n (by omega), append_nil]
  rw [hrange, if_pos (Nat.mod_lt _ hsize)]

theorem rehash_eq (s : Table V) (newsize b : ℕ) : rehash s newsize b = ((range s.size).flatMap s.table).filter
    (fun e => (hash s.caseSensitive e.key).toNat % newsize == b) := by
  have hfold : ∀ (es : List (Elt V)) (nt : ℕ → List (Elt V)), es.foldl (fun newtable e =>
      update newtable ((hash s.caseSensitive e.key).toNat % newsize)
        (newtable ((hash s.caseSensitive e.key).toNat % newsize) ++ [e])) nt b =
        nt b ++ es.filter (fun e => (hash s.caseSensitive e.key).toNat % newsize == b) := by
    intro es
    induction es with
    | nil => intro nt; simp
    | cons e es ih =>
      intro nt
      rw [foldl_cons, ih, filter_cons]
      by_cases hb : (hash s.caseSensitive e.key).toNat % newsize = b
      · simp [hb]
      · simp [hb, update_of_ne (Ne.symm hb)]
  exact hfold _ _

theorem Chains.rehash {newsize : ℕ} (h : Chains s.caseSensitive s.size s.table l) (hsize : 0 < s.size) :
    Chains s.caseSensitive newsize (rehash s newsize) l := by
  constructor
  · intro b e he
    rw [rehash_eq] at he
    exact beq_iff_eq.1 (mem_filter.1 he).2
  · intro k
    rw [rehash_eq, filter_filter, ← h.flat hsize]
    refine filter_congr fun e _ => ?_
    by_cases hk : sameKey s.caseSensitive k e = true
    · simp [hk, hash_folded (sameKey_iff.1 hk)]
    · simp [hk]

theorem Chains.perm (h : Chains cs size table l) (hsize : 0 < size) : (range size).flatMap table ~ l := by
  classical
  refine perm_iff_count.2 fun e => ?_
  have hself : sameKey cs e.key e = true := sameKey_iff.2 rfl
  rw [← count_filter hself, h.flat hsize, count_filter hself]

/-! ### Runs -/

/-- What holds in every run. -/
structure Refines (cs : Bool) (s : Table V) (l : List (Elt V)) : Prop where
  caseSensitive : s.caseSensitive = cs
  size : 0 < s.size
  count : s.count = l.length
  small : l.length < 2 ^ 32
  chains : Chains cs s.size s.table l

theorem growTable_refines (h : Refines cs s l) (hg : growTable s mem = some s') : Refines cs s' l := by
  unfold growTable at hg
  dsimp only at hg
  split_ifs at hg with hins hmem <;> cases hg
  · obtain ⟨rfl, hsize, hcount, hsmall, hchains⟩ := h
    exact ⟨rfl, hins.1, hcount, hsmall, hchains.rehash hsize⟩
  · exact h

theorem prepend_refines (h : Refines cs s l) (e : Elt V) {n : ℕ} (hn : n = l.length + 1) (hsmall : n < 2 ^ 32)
    (hp : prepend { s with count := n } e mem = some s') : Refines cs s' (e :: l) := by
  have hcons : Refines cs { s with
      count := n, table := update s.table (s.bucket e.key) (e :: s.table (s.bucket e.key)) } (e :: l) := by
    obtain ⟨rfl, hsize, -, -, hchains⟩ := h
    exact ⟨rfl, hsize, hn, by rwa [length_cons, ← hn], hchains.cons e⟩
  unfold prepend at hp
  dsimp only at hp
  split_ifs at hp with hload
  · exact growTable_refines hcons hp
  · cases hp
    exact hcons

theorem prepend_some (hg : Growable s) (table : ℕ → List (Elt V)) (n : ℕ) (e : Elt V) (mem : Bool) :
    (prepend { s with count := n, table := table } e mem).isSome := by
  unfold prepend growTable
  dsimp only
  split_ifs with hload hins
  · rfl
  · rfl
  · exact absurd hg hins
  · rfl

theorem Refines.find (h : Refines cs s l) (key : List UInt8) (type : ℕ) : s.find key type = l.find? (matching cs key type) := by
  obtain ⟨rfl, -, -, -, hchains⟩ := h
  exact hchains.find

theorem Refines.unlink (h : Refines cs s l) (he : s.find key type = some e) :
    Refines cs { s with table := s.unlink key type, count := s.count - 1 } (l.eraseP (matching cs key type)) ∧
      (l.eraseP (matching cs key type)).length + 1 = l.length := by
  rw [h.find] at he
  have hlen := length_eraseP_of_mem (mem_of_find?_eq_some he) (find?_some he)
  have hpos := length_pos_of_mem (mem_of_find?_eq_some he)
  obtain ⟨rfl, hsize, hcount, hsmall, hchains⟩ := h
  refine ⟨⟨rfl, hsize, ?_, by omega, hchains.erase key type⟩, by omega⟩
  dsimp only
  omega

theorem Refines.define (h : Refines cs s l) (hroom : l.length + 1 < 2 ^ 32) {value : V} {policy : Policy} {elt : Bool}
    {r : Result} {calls : List (Elt V)} (hd : define s key type value policy elt mem = some (r, s', calls)) :
    Refines cs s' (Spec.define key type cs l value policy elt).2.1 ∧
      r = (Spec.define key type cs l value policy elt).1 ∧ calls = (Spec.define key type cs l value policy elt).2.2 := by
  have hadd : ∀ v : Option (Table V), v = prepend { s with count := (s.count + 1) % 2 ^ 32 } ⟨key, type, value⟩ mem →
      ∀ s', v = some s' → Refines cs s' (⟨key, type, value⟩ :: l) := by
    rintro v rfl s' hs'
    have hn : (s.count + 1) % 2 ^ 32 = l.length + 1 := by
      rw [h.count]
      omega
    exact prepend_refines h _ hn (by omega) hs'
  unfold Symtab.define at hd
  unfold Spec.define
  rw [← h.find]
  cases hf : s.find key type with
  | none =>
    rw [hf] at hd
    cases elt with
    | false =>
      cases policy <;> cases hd <;> exact ⟨h, rfl, rfl⟩
    | true =>
      have hd' := hd
      simp only [if_true, Option.map_eq_some_iff] at hd'
      obtain ⟨s'', hs'', he⟩ := hd'
      cases he
      cases policy <;> exact ⟨hadd _ rfl _ hs'', rfl, rfl⟩
  | some e =>
    rw [hf] at hd
    cases policy with
    | reject =>
      cases hd
      exact ⟨h, rfl, rfl⟩
    | replace =>
      obtain ⟨s'', hs'', he⟩ := Option.map_eq_some_iff.1 hd
      cases he
      obtain ⟨hun, hlen⟩ := h.unlink hf
      refine ⟨prepend_refines hun _ (n := s.count) ?_ ?_ hs'', rfl, rfl⟩
      · rw [hlen, h.count]
      · rw [h.count]
        exact h.small
    | add =>
      cases elt with
      | false =>
        cases hd
        exact ⟨h, rfl, rfl⟩
      | true =>
        obtain ⟨s'', hs'', he⟩ := Option.map_eq_some_iff.1 hd
        cases he
        exact ⟨hadd _ rfl _ hs'', rfl, rfl⟩

theorem Refines.undefine (h : Refines cs s l) (key : List UInt8) (type : ℕ) :
    Refines cs (undefine s key type).2.1 (Spec.undefine key type cs l).2.1 ∧
      (undefine s key type).1 = (Spec.undefine key type cs l).1 ∧
        (undefine s key type).2.2 = (Spec.undefine key type cs l).2.2 := by
  unfold Symtab.undefine Spec.undefine
  rw [← h.find]
  cases hf : s.find key type with
  | none => exact ⟨h, rfl, rfl⟩
  | some e => exact ⟨(h.unlink hf).1, rfl, rfl⟩

theorem Run.refines (h : Run cs s l) : Refines cs s l := by
  induction h with
  | create hsize => exact ⟨rfl, hsize, rfl, by simp, ⟨fun b e he => (by cases he), fun k => rfl⟩⟩
  | define _ hroom hd ih => exact (ih.define hroom hd).1
  | undefine _ ih => exact (ih.undefine _ _).1

/-- In every run a table is the list of its entries, newest first. -/
theorem symtab_exact (h : Run cs s l) : Exact cs s l := by
  have hr := h.refines
  constructor
  · exact hr.count
  · exact hr.chains.bucket
  · exact fun key type => by rw [lookup, hr.find]
  · intro key type value policy elt mem hroom hg
    unfold Symtab.define
    cases hf : s.find key type with
    | none => cases policy <;> cases elt <;> simp [prepend_some hg s.table]
    | some e => cases policy <;> cases elt <;> simp [prepend_some hg s.table, prepend_some hg (s.unlink key type) s.count]
  · exact fun key type value policy elt mem r s' calls hroom hd => (hr.define hroom hd).2
  · exact fun key type => (hr.undefine key type).2
  · exact hr.chains.perm hr.size

theorem Run.call (h : Run cs s l) (hroom : l.length + 1 < 2 ^ 32) {key : List UInt8} {type : ℕ} {value : V} {policy : Policy}
    {elt mem : Bool} (hd : (Symtab.define s key type value policy elt mem).isSome = true) :
    Run cs ((Symtab.define s key type value policy elt mem).get hd).2.1 (Spec.define key type cs l value policy elt).2.1 :=
  h.define hroom (Option.some_get hd).symm

/-- From size 1: "A" is defined, shadowed as "a" and replaced, the table growing twice; "b" is defined and "A" undefined. -/
theorem symtab_exact_shadowed : ∃ s, Run false s [⟨[98], 2, 10⟩, ⟨[65], 1, 7⟩] ∧ Exact false s [⟨[98], 2, 10⟩, ⟨[65], 1, 7⟩] ∧
    s.size = 4 ∧ s.count = 2 ∧ lookup s [97] 1 = some 7 ∧ lookup s [66] 0 = some 10 ∧ lookup s [98] 1 = none := by
  have h0 : Run false (create (V := ℕ) 1 false) [] := .create (by decide)
  have h1 := @Run.call _ _ _ _ h0 (by decide) [65] 1 7 .add true true (by decide +kernel)
  have h2 := @Run.call _ _ _ _ h1 (by decide) [97] 1 8 .add true true (by decide +kernel)
  have h3 := @Run.call _ _ _ _ h2 (by decide) [65] 1 9 .replace true false (by decide +kernel)
  have h4 := @Run.call _ _ _ _ h3 (by decide) [98] 2 10 .reject true true (by decide +kernel)
  have h5 := @Run.undefine _ _ _ _ [65] 0 h4
  exact ⟨_, h5, symtab_exact h5, by decide +kernel, by decide +kernel, by decide +kernel, by decide +kernel, by decide +kernel⟩

/-- The first definition in a table of this size needs a load limit of 2^33 / 4 modulo 2^32. -/
theorem define_insist : define (create (V := ℕ) 2863311531 true) [65] 1 7 .add true true = none := by
  decide +kernel

end Bind9.Symtab
