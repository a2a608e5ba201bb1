import Bind9.Isccc
import Bind9.RdataWire

/-! # Messages of the control channel that are read

`Value`, `Elements` and `Values` are the format of a message and the s-expression that it stands for.  `isccc_cc_fromwire`
reads exactly this format, always ends and never reads outside the message (`fromwire_spec`).

What remains are the types of the values under `_auth` and `hmd5`, on which `verify` calls accessors before it knows them
(`cc_fromwire_safe_iff`). -/

namespace Bind9.Isccc

open List hiding Vector
open Option

/-! ### Lists and association lists -/

/-- The list of some values. -/
def listOf : List Sexpr → Sexpr
  | [] => .null
  | v :: vs => .pair v (listOf vs)

/-- A key with its value. -/
def kvOf (e : Bytes × Sexpr) : Sexpr := .pair (.string e.1) e.2

variable (kvs : List (Bytes × Sexpr))

/-- The association list of some keys with their values. -/
def alistOf : Sexpr := listOf (.string alistTag :: kvs.map kvOf)

/-- Setting the value of a key. -/
def setKey : List (Bytes × Sexpr) → Bytes × Sexpr → List (Bytes × Sexpr)
  | [], e => [e]
  | d :: kvs, e => if d.1 = e.1 then e :: kvs else d :: setKey kvs e

def getKey (key : Bytes) : List (Bytes × Sexpr) → Option Sexpr
  | [] => none
  | d :: kvs => if d.1 = key then some d.2 else getKey key kvs

theorem addLast_listOf (elt v : Sexpr) (vs : List Sexpr) :
    addLast (.pair elt .null) (listOf (v :: vs)) = .ok (listOf (v :: vs ++ [elt])) := by
  induction vs generalizing v with
  | nil => rfl
  | cons w vs ih =>
    have hrest : addLast (.pair elt .null) (.pair w (listOf vs)) = .ok (listOf (w :: vs ++ [elt])) := ih w
    show addLast (.pair elt .null) (.pair v (.pair w (listOf vs))) = _
    rw [addLast, hrest]
    · rfl
    · exact Sexpr.noConfusion

theorem sexprAddtolist_listOf (vs : List Sexpr) (v : Sexpr) : sexprAddtolist (listOf vs) v = .ok (listOf (vs ++ [v])) := by
  cases vs with
  | nil => rfl
  | cons w vs => exact addLast_listOf v w vs

theorem assqLoop_listOf (key : Bytes) (kvs : List (Bytes × Sexpr)) :
    assqLoop key (listOf (kvs.map kvOf)) = .ok ((getKey key kvs).elim .null (fun v => kvOf (key, v))) := by
  induction kvs with
  | nil => rfl
  | cons d kvs ih =>
    rw [map_cons, listOf, kvOf, assqLoop, getKey]
    by_cases h : d.1 = key
    · rw [if_pos h, if_pos h, ← h]
      rfl
    · rw [if_neg h, if_neg h]
      exact ih

theorem alistAssq_alistOf (key : Bytes) :
    alistAssq (alistOf kvs) key = .ok ((getKey key kvs).elim .null (fun v => kvOf (key, v))) := by
  have htag : alistp (alistOf kvs) = true := beq_self_eq_true alistTag
  rw [alistAssq, htag]
  exact assqLoop_listOf key kvs

theorem alistLookup_alistOf (key : Bytes) :
    alistLookup (alistOf kvs) key = .ok ((getKey key kvs).getD .null) := by
  rw [alistLookup, alistAssq_alistOf]
  cases getKey key kvs with
  | none => rfl
  | some v => rfl

variable {kvs es : List (Bytes × Sexpr)}

theorem setKey_of_getKey_none {e : Bytes × Sexpr} (h : getKey e.1 kvs = none) : setKey kvs e = kvs ++ [e] := by
  induction kvs with
  | nil => rfl
  | cons d kvs ih =>
    rw [getKey] at h
    split at h
    · cases h
    next hne => rw [setKey, if_neg hne, ih h, cons_append]

theorem replaceLoop_listOf (key : Bytes) (v : Sexpr) (kvs : List (Bytes × Sexpr)) {w : Sexpr}
    (h : getKey key kvs = some w) : replaceLoop key v (listOf (kvs.map kvOf)) = listOf ((setKey kvs (key, v)).map kvOf) := by
  induction kvs with
  | nil => cases h
  | cons d kvs ih =>
    rw [map_cons, listOf, kvOf, replaceLoop, setKey]
    rw [getKey] at h
    by_cases hd : d.1 = key
    · rw [if_pos hd, if_pos hd, hd]
      rfl
    rw [if_neg hd] at h
    rw [if_neg hd, if_neg hd, ih h]
    rfl

theorem alistDefine_alistOf (kvs : List (Bytes × Sexpr)) (key : Bytes) (v : Sexpr) :
    alistDefine (alistOf kvs) key v = .ok (alistOf (setKey kvs (key, v))) := by
  rw [alistDefine, alistAssq_alistOf]
  cases h : getKey key kvs with
  | none =>
    rw [setKey_of_getKey_none h, ok_then, elim_none, if_pos rfl, alistOf, alistOf, map_append]
    exact sexprAddtolist_listOf _ _
  | some w =>
    rw [ok_then, elim_some, if_neg (by rw [kvOf]; exact Sexpr.noConfusion), alistOf, alistOf, listOf, listOf,
      replaceLoop]
    · rw [replaceLoop_listOf key v kvs h]
      rfl
    · intro s d hcar
      cases hcar

/-! ### The format -/

/-- A value on the wire: its type, its length and its bytes. -/
def header (msgtype : ℕ) (active : Region) : Region := UInt8.ofNat msgtype :: (uint32Bytes active.length ++ active)

/-- The association list of the elements of a table; a later value of a key replaces an earlier one. -/
def tableOf (es : List (Bytes × Sexpr)) : Sexpr := alistOf (es.foldl setKey [])

mutual

/-- A value and the s-expression that it stands for. -/
inductive Value : Region → Sexpr → Prop
  | binary {active : Region} : active.length < 2 ^ 32 → Value (header ccmsgtypeBinarydata active) (.binary active)
  | table {active : Region} {es : List (Bytes × Sexpr)} : active.length < 2 ^ 32 → Elements active es →
      Value (header ccmsgtypeTable active) (tableOf es)
  | list {active : Region} {vs : List Sexpr} : active.length < 2 ^ 32 → Values active vs →
      Value (header ccmsgtypeList active) (listOf vs)

/-- The elements of a table, each a key of at most 255 bytes and a value. -/
inductive Elements : Region → List (Bytes × Sexpr) → Prop
  | nil : Elements [] []
  | cons {key v rest : Region} {x : Sexpr} {es : List (Bytes × Sexpr)} : key.length ≤ 255 → Value v x →
      Elements rest es → Elements (UInt8.ofNat key.length :: (key ++ (v ++ rest))) ((cstr key, x) :: es)

/-- The elements of a list. -/
inductive Values : Region → List Sexpr → Prop
  | nil : Values [] []
  | cons {v rest : Region} {x : Sexpr} {vs : List Sexpr} : Value v x → Values rest vs → Values (v ++ rest) (x :: vs)

end

def Message (source : Region) (es : List (Bytes × Sexpr)) : Prop := ∃ body, source = uint32Bytes 1 ++ body ∧ Elements body es

/-! ### Reading the format -/

/-- Only results end the computation early. -/
def NoFault {α : Type} (run : Except Exit α) : Prop := ∀ e, run = .error e → e.isFault = false

theorem NoFault.ok {α : Type} (a : α) : NoFault (Except.ok a : Except Exit α) := by
  intro e h
  cases h

theorem NoFault.result {α : Type} (r : CcResult) : NoFault (Except.error (.result r) : Except Exit α) := by
  intro e h
  cases h
  rfl

theorem NoFault.bind {α β : Type} {run : Except Exit α} {f : α → Except Exit β} (h : NoFault run)
    (hf : ∀ a, run = .ok a → NoFault (f a)) : NoFault (run >>= f) := by
  cases run with
  | error e =>
    intro e' he
    cases he
    exact h e rfl
  | ok a => exact hf a rfl

theorem regionSize_of_lt {r : Region} (h : r.length < 2 ^ 32) : regionSize r = r.length := Nat.mod_eq_of_lt h

theorem get32_uint32Bytes {n : ℕ} (hn : n < 2 ^ 32) (r : Region) : get32 (uint32Bytes n ++ r) = .ok (n, r) := by
  show Except.ok (_, r) = _
  congr 2
  simp only [UInt8.toNat_ofNat']
  omega

variable {source bs rest data body : Region}

theorem get32_eq_ok {r : Region} {n : ℕ} (h : get32 source = .ok (n, r)) : source = uint32Bytes n ++ r ∧ n < 2 ^ 32 := by
  unfold get32 at h
  split at h
  next b0 b1 b2 b3 r =>
    cases h
    have h0 := b0.toNat_lt
    have h1 := b1.toNat_lt
    have h2 := b2.toNat_lt
    have h3 := b3.toNat_lt
    refine ⟨?_, by omega⟩
    rw [uint32Bytes_read]
    rfl
  · cases h

theorem exists_get32 (h : 4 ≤ source.length) : ∃ n r, get32 source = .ok (n, r) := by
  rcases source with _ | ⟨b0, _ | ⟨b1, _ | ⟨b2, _ | ⟨b3, r⟩⟩⟩⟩
  case cons.cons.cons.cons => exact ⟨_, _, rfl⟩
  all_goals
    simp only [length_cons, length_nil] at h
    omega

theorem valueFromwire_header (fuel : ℕ) (msgtype : ℕ) (hmsg : msgtype < 256) (active rest : Region)
    (hlen : (header msgtype active ++ rest).length < 2 ^ 32) :
    valueFromwire (fuel + 1) (header msgtype active ++ rest) =
      (if msgtype = ccmsgtypeBinarydata then .ok (.binary active, rest)
      else if msgtype = ccmsgtypeTable then do
        let (alist, _) ← tableLoop fuel false active alistCreate true none
        return (alist, rest)
      else if msgtype = ccmsgtypeList then do
        let list ← listLoop fuel active .null
        return (list, rest)
      else .error (.result .syntaxError)) := by
  have hlength : (header msgtype active ++ rest).length = 1 + 4 + active.length + rest.length := by
    simp [header, uint32Bytes]
    omega
  have hmem : getMem (active ++ rest) active.length = .ok (active, rest) := by
    rw [getMem, if_pos (by simp), take_left, drop_left]
  have hget : get8 (header msgtype active ++ rest) = .ok (msgtype, uint32Bytes active.length ++ (active ++ rest)) := by
    show Except.ok ((UInt8.ofNat msgtype).toNat, _) = _
    rw [UInt8.toNat_ofNat', Nat.mod_eq_of_lt hmsg]
    rfl
  have hsize : ¬regionSize (header msgtype active ++ rest) < 1 + 4 := by
    rw [regionSize_of_lt hlen]
    omega
  have hsize' : ¬regionSize (active ++ rest) < active.length := by
    rw [regionSize_of_lt (by rw [length_append]; omega), length_append]
    omega
  rw [valueFromwire, if_neg hsize]
  simp only [hget, ok_then, get32_uint32Bytes (show active.length < 2 ^ 32 by omega), if_neg hsize', hmem]
  rfl

/-- A region starts with a value, or `value_fromwire` says that it ends too early. -/
theorem header_or_end (fuel : ℕ) (hlen : source.length < 2 ^ 32) :
    valueFromwire (fuel + 1) source = .error (.result .unexpectedend) ∨
    ∃ msgtype active rest, msgtype < 256 ∧ source = header msgtype active ++ rest := by
  by_cases hsize : regionSize source < 1 + 4
  · left
    rw [valueFromwire, if_pos hsize]
    rfl
  have hfive := hsize
  rw [regionSize_of_lt hlen] at hfive
  cases source with
  | nil => exact absurd (Nat.zero_lt_succ 4) hfive
  | cons t s =>
    rw [length_cons] at hfive hlen
    obtain ⟨n, r, hget⟩ := exists_get32 (show 4 ≤ s.length by omega)
    obtain ⟨hs, hn⟩ := get32_eq_ok hget
    have hlength : s.length = 4 + r.length := by
      rw [hs, length_append]
      rfl
    by_cases hend : regionSize r < n
    · left
      rw [valueFromwire, if_neg hsize]
      simp only [get8, ok_then, hget, if_pos hend]
      rfl
    right
    rw [regionSize_of_lt (by omega)] at hend
    refine ⟨t.toNat, r.take n, r.drop n, t.toNat_lt, ?_⟩
    rw [header, length_take, Nat.min_eq_left (by omega), cons_append, append_assoc,
      take_append_drop, UInt8.ofNat_toNat, hs]

theorem tableLoop_cons (fuel : ℕ) (secret : Bool) {key : Region} (hkey : key.length ≤ 255) {tail : Region}
    (hlen : (UInt8.ofNat key.length :: (key ++ tail)).length < 2 ^ 32) (alist : Sexpr) (firstTag : Bool)
    (checksum : Option Region) :
    tableLoop (fuel + 1) secret (UInt8.ofNat key.length :: (key ++ tail)) alist firstTag checksum = (do
      let (value, source) ← valueFromwire fuel tail
      let alist ← alistDefine alist (cstr key) value
      tableLoop fuel secret source alist false
        (if firstTag && secret && cstr key == text "_auth" then some source else checksum)) := by
  rw [length_cons] at hlen
  have hget : get8 (UInt8.ofNat key.length :: (key ++ tail)) = .ok (key.length, key ++ tail) := by
    show Except.ok ((UInt8.ofNat key.length).toNat, _) = _
    rw [UInt8.toNat_ofNat', Nat.mod_eq_of_lt (by omega)]
  have hsize : ¬regionSize (key ++ tail) < key.length := by
    rw [regionSize_of_lt (by omega), length_append]
    omega
  have hmem : getMem (key ++ tail) key.length = .ok (key, tail) := by
    rw [getMem, if_pos (by simp), take_left, drop_left]
  rw [tableLoop, if_neg (cons_ne_nil _ _)]
  simp only [hget, ok_then, if_neg hsize, hmem]

theorem key_or_end (fuel : ℕ) (secret : Bool) (hne : source ≠ []) (hlen : source.length < 2 ^ 32)
    (alist : Sexpr) (firstTag : Bool) (checksum : Option Region) :
    tableLoop (fuel + 1) secret source alist firstTag checksum = .error (.result .unexpectedend) ∨
    ∃ key tail, key.length ≤ 255 ∧ source = UInt8.ofNat key.length :: (key ++ tail) := by
  cases source with
  | nil => exact absurd rfl hne
  | cons b s =>
    rw [length_cons] at hlen
    by_cases hend : regionSize s < b.toNat
    · left
      rw [tableLoop, if_neg hne]
      simp only [get8, ok_then, if_pos hend]
      rfl
    right
    have hb := b.toNat_lt
    rw [regionSize_of_lt (by omega)] at hend
    refine ⟨s.take b.toNat, s.drop b.toNat, ?_, ?_⟩
    · rw [length_take]
      omega
    · rw [length_take, Nat.min_eq_left (by omega), UInt8.ofNat_toNat, take_append_drop]

/-- With enough fuel the functions end, never fault and read exactly the format.  The loop of a table is described where
it does not note the signed bytes. -/
structure Reads (fuel : ℕ) : Prop where
  value : ∀ source, source.length < fuel → source.length < 2 ^ 32 → NoFault (valueFromwire fuel source) ∧
    ∀ x rest, valueFromwire fuel source = .ok (x, rest) ↔ ∃ bs, source = bs ++ rest ∧ Value bs x
  table : ∀ secret source kvs firstTag checksum, source.length < fuel → source.length < 2 ^ 32 →
    (firstTag && secret) = false → NoFault (tableLoop fuel secret source (alistOf kvs) firstTag checksum) ∧
    ∀ a c, tableLoop fuel secret source (alistOf kvs) firstTag checksum = .ok (a, c) ↔
      c = checksum ∧ ∃ es, Elements source es ∧ a = alistOf (es.foldl setKey kvs)
  list : ∀ source vs, source.length + 1 < fuel → source.length < 2 ^ 32 → NoFault (listLoop fuel source (listOf vs)) ∧
    ∀ l, listLoop fuel source (listOf vs) = .ok l ↔ ∃ ws, Values source ws ∧ l = listOf (vs ++ ws)

theorem length_header (msgtype : ℕ) (active : Region) : (header msgtype active).length = 5 + active.length := by
  simp [header, uint32Bytes]
  omega

variable {x : Sexpr} {fuel : ℕ}

theorem Reads.value_complete (h : Reads fuel) (hv : Value bs x)
    (hfuel : (bs ++ rest).length < fuel + 1) (hlen : (bs ++ rest).length < 2 ^ 32) :
    valueFromwire (fuel + 1) (bs ++ rest) = .ok (x, rest) := by
  cases hv with
  | binary hactive =>
    rw [valueFromwire_header fuel _ (by decide) _ _ hlen]
    rfl
  | @table active es hactive hes =>
    rw [valueFromwire_header fuel _ (by decide) _ _ hlen]
    rw [length_append, length_header] at hfuel
    have hloop := ((h.table false active [] true none (by omega) hactive rfl).2 _ _).2 ⟨rfl, es, hes, rfl⟩
    show (tableLoop fuel false active (alistOf []) true none >>= _) = _
    rw [hloop]
    rfl
  | @list active vs hactive hvs =>
    rw [valueFromwire_header fuel _ (by decide) _ _ hlen]
    rw [length_append, length_header] at hfuel
    have hloop := ((h.list active [] (by omega) hactive).2 _).2 ⟨vs, hvs, rfl⟩
    show (listLoop fuel active (listOf []) >>= _) = _
    rw [hloop]
    rfl

theorem Reads.value_step (h : Reads fuel) (hfuel : source.length < fuel + 1)
    (hlen : source.length < 2 ^ 32) : NoFault (valueFromwire (fuel + 1) source) ∧
    ∀ x rest, valueFromwire (fuel + 1) source = .ok (x, rest) ↔ ∃ bs, source = bs ++ rest ∧ Value bs x := by
  have hcomplete : ∀ x rest, (∃ bs, source = bs ++ rest ∧ Value bs x) → valueFromwire (fuel + 1) source = .ok (x, rest) := by
    rintro x rest ⟨bs, rfl, hv⟩
    exact h.value_complete hv hfuel hlen
  obtain hend | ⟨msgtype, active, rest, hmsg, rfl⟩ := header_or_end fuel hlen
  · refine ⟨by rw [hend]; exact NoFault.result _, fun x rest => ⟨fun hok => ?_, hcomplete x rest⟩⟩
    rw [hend] at hok
    cases hok
  have heq := valueFromwire_header fuel msgtype hmsg active rest hlen
  rw [length_append, length_header] at hfuel hlen
  by_cases hbinary : msgtype = ccmsgtypeBinarydata
  · rw [if_pos hbinary] at heq
    refine ⟨by rw [heq]; exact NoFault.ok _, fun x rest => ⟨fun hok => ?_, hcomplete x rest⟩⟩
    rw [heq] at hok
    cases hok
    exact ⟨_, rfl, hbinary ▸ Value.binary (by omega)⟩
  rw [if_neg hbinary] at heq
  by_cases htable : msgtype = ccmsgtypeTable
  · obtain ⟨hsafe, hloop⟩ := h.table false active [] true none (by omega) (by omega) rfl
    rw [if_pos htable] at heq
    refine ⟨by rw [heq]; exact hsafe.bind (fun a _ => NoFault.ok _), fun x rest => ⟨fun hok => ?_, hcomplete x rest⟩⟩
    rw [heq] at hok
    obtain ⟨⟨alist, c⟩, hrun, hok⟩ := bind_eq_ok hok
    cases hok
    obtain ⟨-, es, hes, rfl⟩ := (hloop _ _).1 hrun
    exact ⟨_, rfl, htable ▸ Value.table (by omega) hes⟩
  rw [if_neg htable] at heq
  by_cases hlist : msgtype = ccmsgtypeList
  · obtain ⟨hsafe, hloop⟩ := h.list active [] (by omega) (by omega)
    rw [if_pos hlist] at heq
    refine ⟨by rw [heq]; exact hsafe.bind (fun a _ => NoFault.ok _), fun x rest => ⟨fun hok => ?_, hcomplete x rest⟩⟩
    rw [heq] at hok
    obtain ⟨l, hrun, hok⟩ := bind_eq_ok hok
    cases hok
    obtain ⟨vs, hvs, rfl⟩ := (hloop _).1 hrun
    exact ⟨_, rfl, hlist ▸ Value.list (by omega) hvs⟩
  rw [if_neg hlist] at heq
  refine ⟨by rw [heq]; exact NoFault.result _, fun x rest => ⟨fun hok => ?_, hcomplete x rest⟩⟩
  rw [heq] at hok
  cases hok

theorem Reads.element_eq (h : Reads fuel) (secret : Bool) {key v : Region}
    (hkey : key.length ≤ 255) (hv : Value v x) (hfuel : (UInt8.ofNat key.length :: (key ++ (v ++ rest))).length < fuel + 1)
    (hlen : (UInt8.ofNat key.length :: (key ++ (v ++ rest))).length < 2 ^ 32) (kvs : List (Bytes × Sexpr))
    (firstTag : Bool) (checksum : Option Region) :
    tableLoop (fuel + 1) secret (UInt8.ofNat key.length :: (key ++ (v ++ rest))) (alistOf kvs) firstTag checksum =
      tableLoop fuel secret rest (alistOf (setKey kvs (cstr key, x))) false
        (if firstTag && secret && cstr key == text "_auth" then some rest else checksum) := by
  rw [tableLoop_cons fuel secret hkey hlen]
  rw [length_cons, length_append] at hfuel hlen
  rw [((h.value (v ++ rest) (by omega) (by omega)).2 x rest).2 ⟨v, rfl, hv⟩, ok_then]
  simp only [alistDefine_alistOf, ok_then]

theorem Reads.element_or_result (h : Reads fuel) (secret : Bool) (hne : source ≠ [])
    (hfuel : source.length < fuel + 1) (hlen : source.length < 2 ^ 32) (alist : Sexpr) (firstTag : Bool)
    (checksum : Option Region) : (∃ r, tableLoop (fuel + 1) secret source alist firstTag checksum = .error (.result r)) ∨
    ∃ key v rest x, key.length ≤ 255 ∧ Value v x ∧ source = UInt8.ofNat key.length :: (key ++ (v ++ rest)) := by
  obtain hend | ⟨key, tail, hkey, rfl⟩ := key_or_end fuel secret hne hlen alist firstTag checksum
  · exact .inl ⟨_, hend⟩
  have heq := tableLoop_cons fuel secret hkey hlen alist firstTag checksum
  rw [length_cons, length_append] at hfuel hlen
  obtain ⟨hsafe, hval⟩ := h.value tail (by omega) (by omega)
  cases hrun : valueFromwire fuel tail with
  | error e =>
    have he := hsafe e hrun
    cases e with
    | result r =>
      left
      refine ⟨r, ?_⟩
      rw [heq, hrun]
      rfl
    | _ => cases he
  | ok y =>
    right
    obtain ⟨x, rest⟩ := y
    obtain ⟨v, rfl, hv⟩ := (hval x rest).1 hrun
    exact ⟨key, v, rest, x, hkey, hv, rfl⟩

theorem Reads.table_step (h : Reads fuel) (secret : Bool) (kvs : List (Bytes × Sexpr))
    (firstTag : Bool) (checksum : Option Region) (hfuel : source.length < fuel + 1) (hlen : source.length < 2 ^ 32)
    (hfirst : (firstTag && secret) = false) : NoFault (tableLoop (fuel + 1) secret source (alistOf kvs) firstTag checksum) ∧
    ∀ a c, tableLoop (fuel + 1) secret source (alistOf kvs) firstTag checksum = .ok (a, c) ↔
      c = checksum ∧ ∃ es, Elements source es ∧ a = alistOf (es.foldl setKey kvs) := by
  have hlater : ∀ {key v rest : Region} {x : Sexpr}, key.length ≤ 255 → Value v x →
      source = UInt8.ofNat key.length :: (key ++ (v ++ rest)) →
      tableLoop (fuel + 1) secret source (alistOf kvs) firstTag checksum =
        tableLoop fuel secret rest (alistOf (setKey kvs (cstr key, x))) false checksum ∧ rest.length < fuel ∧
        rest.length < 2 ^ 32 := by
    rintro key v rest x hkey hv rfl
    refine ⟨?_, ?_, ?_⟩
    · rw [h.element_eq secret hkey hv hfuel hlen, hfirst, Bool.false_and, if_neg Bool.false_ne_true]
    · simp only [length_cons, length_append] at hfuel
      omega
    · simp only [length_cons, length_append] at hlen
      omega
  have hcomplete : ∀ a c, (c = checksum ∧ ∃ es, Elements source es ∧ a = alistOf (es.foldl setKey kvs)) →
      tableLoop (fuel + 1) secret source (alistOf kvs) firstTag checksum = .ok (a, c) := by
    rintro a c ⟨rfl, es, hes, rfl⟩
    cases hes with
    | nil => rw [tableLoop, if_pos rfl]; rfl
    | cons hkey hv hrest =>
      obtain ⟨heq, hf, hl⟩ := hlater hkey hv rfl
      rw [heq]
      exact ((h.table secret _ _ false _ hf hl (Bool.false_and secret)).2 _ _).2 ⟨rfl, _, hrest, rfl⟩
  by_cases hne : source = []
  · subst hne
    have heq : tableLoop (fuel + 1) secret [] (alistOf kvs) firstTag checksum = .ok (alistOf kvs, checksum) := by
      rw [tableLoop, if_pos rfl]
      rfl
    refine ⟨by rw [heq]; exact NoFault.ok _, fun a c => ⟨fun hok => ?_, hcomplete a c⟩⟩
    rw [heq] at hok
    cases hok
    exact ⟨rfl, [], Elements.nil, rfl⟩
  obtain ⟨r, hend⟩ | ⟨key, v, rest, x, hkey, hv, hsource⟩ :=
    h.element_or_result secret hne hfuel hlen (alistOf kvs) firstTag checksum
  · refine ⟨by rw [hend]; exact NoFault.result _, fun a c => ⟨fun hok => ?_, hcomplete a c⟩⟩
    rw [hend] at hok
    cases hok
  obtain ⟨heq, hf, hl⟩ := hlater hkey hv hsource
  obtain ⟨hsafe, hloop⟩ := h.table secret rest (setKey kvs (cstr key, x)) false checksum hf hl (Bool.false_and secret)
  refine ⟨by rw [heq]; exact hsafe, fun a c => ⟨fun hok => ?_, hcomplete a c⟩⟩
  rw [heq] at hok
  obtain ⟨hc, es, hes, ha⟩ := (hloop a c).1 hok
  exact ⟨hc, (cstr key, x) :: es, hsource ▸ Elements.cons hkey hv hes, ha⟩

theorem Value.length_le (h : Value bs x) : 5 ≤ bs.length := by
  cases h with
  | _ =>
    rw [length_header]
    omega

theorem Reads.list_step (h : Reads fuel) (vs : List Sexpr) (hfuel : source.length < fuel)
    (hlen : source.length < 2 ^ 32) : NoFault (listLoop (fuel + 1) source (listOf vs)) ∧
    ∀ l, listLoop (fuel + 1) source (listOf vs) = .ok l ↔ ∃ ws, Values source ws ∧ l = listOf (vs ++ ws) := by
  by_cases hne : source = []
  · subst hne
    have heq : listLoop (fuel + 1) [] (listOf vs) = .ok (listOf vs) := by
      rw [listLoop, if_pos rfl]
      rfl
    refine ⟨by rw [heq]; exact NoFault.ok _, fun l => ⟨fun hok => ?_, ?_⟩⟩
    · rw [heq] at hok
      cases hok
      exact ⟨[], Values.nil, by rw [append_nil]⟩
    · rintro ⟨ws, hws, rfl⟩
      generalize hs : ([] : Region) = s at hws
      cases hws with
      | nil => rw [heq, append_nil]
      | cons hv hrest =>
        have hpos := hv.length_le
        have hzero := congrArg List.length hs
        rw [length_append, length_nil] at hzero
        omega
  have heq : listLoop (fuel + 1) source (listOf vs) = (do
      let (value, source) ← valueFromwire fuel source
      let list ← sexprAddtolist (listOf vs) value
      listLoop fuel source list) := by
    rw [listLoop, if_neg hne]
  obtain ⟨hsafe, hval⟩ := h.value source hfuel hlen
  -- after a value the loop goes on with a longer list
  have hlater : ∀ {v rest : Region} {x : Sexpr}, source = v ++ rest → Value v x →
      listLoop (fuel + 1) source (listOf vs) = listLoop fuel rest (listOf (vs ++ [x])) ∧ rest.length + 1 < fuel ∧
        rest.length < 2 ^ 32 := by
    intro v rest x hsource hv
    have hpos := hv.length_le
    have hlength : source.length = v.length + rest.length := by rw [hsource, length_append]
    refine ⟨?_, by omega, by omega⟩
    rw [heq, (hval x rest).2 ⟨v, hsource, hv⟩, ok_then]
    simp only [sexprAddtolist_listOf, ok_then]
  constructor
  · rw [heq]
    apply hsafe.bind
    rintro ⟨x, rest⟩ hrun
    obtain ⟨v, hsource, hv⟩ := (hval x rest).1 hrun
    obtain ⟨-, hf, hl⟩ := hlater hsource hv
    simp only [sexprAddtolist_listOf, ok_then]
    exact (h.list rest _ hf hl).1
  intro l
  constructor
  · intro hok
    have hrun := hok
    rw [heq] at hrun
    obtain ⟨⟨x, rest⟩, hrun, -⟩ := bind_eq_ok hrun
    obtain ⟨v, hsource, hv⟩ := (hval x rest).1 hrun
    obtain ⟨hnext, hf, hl⟩ := hlater hsource hv
    rw [hnext] at hok
    obtain ⟨ws, hws, rfl⟩ := ((h.list rest _ hf hl).2 l).1 hok
    exact ⟨x :: ws, hsource ▸ Values.cons hv hws, by rw [append_assoc, singleton_append]⟩
  · rintro ⟨ws, hws, rfl⟩
    cases hws with
    | nil => exact absurd rfl hne
    | @cons v rest x ws hv hrest =>
      obtain ⟨hnext, hf, hl⟩ := hlater rfl hv
      rw [hnext]
      apply ((h.list rest _ hf hl).2 _).2
      exact ⟨ws, hrest, by rw [append_assoc, singleton_append]⟩

/-- By induction on the fuel. -/
theorem fromwire_spec (fuel : ℕ) : Reads fuel := by
  induction fuel with
  | zero =>
    exact ⟨fun _ h => absurd h (Nat.not_lt_zero _), fun _ _ _ _ _ h => absurd h (Nat.not_lt_zero _),
      fun _ _ h => absurd h (Nat.not_lt_zero _)⟩
  | succ fuel ih =>
    refine ⟨fun source hfuel hlen => ih.value_step hfuel hlen,
      fun secret source kvs firstTag checksum hfuel hlen hfirst => ih.table_step secret kvs firstTag checksum hfuel hlen hfirst,
      fun source vs hfuel hlen => ih.list_step vs (by omega) hlen⟩

/-! ### The values of a table -/

theorem mem_setKey {e d : Bytes × Sexpr} (h : d ∈ setKey kvs e) : d = e ∨ d ∈ kvs := by
  induction kvs with
  | nil => exact .inl (mem_singleton.1 h)
  | cons c kvs ih =>
    rw [setKey] at h
    split at h
    · obtain rfl | h := mem_cons.1 h
      · exact .inl rfl
      · exact .inr (mem_cons_of_mem _ h)
    obtain rfl | h := mem_cons.1 h
    · exact .inr mem_cons_self
    · exact (ih h).imp id (mem_cons_of_mem _)

theorem mem_foldl_setKey {d : Bytes × Sexpr} (h : d ∈ es.foldl setKey kvs) : d ∈ es ∨ d ∈ kvs := by
  induction es generalizing kvs with
  | nil => exact .inr h
  | cons e es ih =>
    obtain h | h := ih h
    · exact .inl (mem_cons_of_mem _ h)
    obtain rfl | h := mem_setKey h
    · exact .inl mem_cons_self
    · exact .inr h

variable {key : Bytes}

theorem getKey_mem (h : getKey key kvs = some x) : ∃ d ∈ kvs, d.2 = x := by
  induction kvs with
  | nil => cases h
  | cons c kvs ih =>
    rw [getKey] at h
    split at h
    · exact ⟨c, mem_cons_self, Option.some.inj h⟩
    · obtain ⟨d, hd, hx⟩ := ih h
      exact ⟨d, mem_cons_of_mem _ hd, hx⟩

theorem Elements.value_of_mem (h : Elements bs es) : ∀ e ∈ es, ∃ v, Value v e.2 := by
  induction es generalizing bs with
  | nil =>
    intro e he
    cases he
  | cons d es ih =>
    cases h with
    | cons hkey hv hrest =>
      intro e he
      obtain rfl | he := mem_cons.1 he
      · exact ⟨_, hv⟩
      · exact ih hrest e he

theorem Elements.value_of_getKey (h : Elements bs es) (hx : getKey key (es.foldl setKey []) = some x) : ∃ v, Value v x := by
  obtain ⟨d, hd, rfl⟩ := getKey_mem hx
  obtain hd | hd := mem_foldl_setKey hd
  · exact h.value_of_mem d hd
  · cases hd

theorem Value.ne_string (h : Value bs x) (s : Bytes) : x ≠ .string s := by
  cases h with
  | binary | table => exact Sexpr.noConfusion
  | @list active vs hactive hvs =>
    cases vs with
    | nil | cons v vs => exact Sexpr.noConfusion

theorem Value.table_of_alistp (h : Value bs x) (hx : alistp x = true) : ∃ active es, Elements active es ∧ x = tableOf es := by
  cases h with
  | binary => cases hx
  | table _ hes => exact ⟨_, _, hes, rfl⟩
  | list _ hvs =>
    cases hvs with
    | nil => cases hx
    | @cons _ _ y _ hv _ =>
      cases y with
      | string s => exact absurd rfl (hv.ne_string s)
      | null | pair | binary => cases hx

/-! ### The signature -/

/-- The value under `_auth` is of the types that `verify` relies on: `NULL`, or a table whose `hmd5` is no table and no list
with elements. -/
def AuthTyped (auth : Sexpr) : Prop :=
  auth = .null ∨ alistp auth = true ∧ ∀ hmd5, alistLookup auth (text "hmd5") = .ok hmd5 → ∀ car cdr, hmd5 ≠ .pair car cdr

/-- The C string of the value under `hmd5` in a value of `_auth`. -/
def HmdText (auth : Sexpr) (s : Bytes) : Prop :=
  ∃ hmd5, alistLookup auth (text "hmd5") = .ok hmd5 ∧ sexprTostring hmd5 = .ok s

theorem verify_alistOf (hmac : HmacMd5) (kvs : List (Bytes × Sexpr)) (hdata : data.length < 2 ^ 32)
    (secret : Region) : verify hmac (alistOf kvs) data secret =
    (if (getKey (text "_auth") kvs).getD .null = .null then .error (.result .failure)
    else do
      let hmd5 ← alistLookup ((getKey (text "_auth") kvs).getD .null) (text "hmd5")
      if hmd5 = .null then .error (.result .failure)
      else do
        let s ← sexprTostring hmd5
        if digestText hmac secret data ≠ s then .error (.result .badauth) else .ok ()) := by
  rw [verify, alistLookup_alistOf, Nat.mod_eq_of_lt hdata, take_length, ok_then]
  split <;> rfl

theorem noFault_verify_iff (hmac : HmacMd5) (hes : Elements body es) (hdata : data.length < 2 ^ 32) (secret : Region) :
    NoFault (verify hmac (tableOf es) data secret) ↔
      AuthTyped ((getKey (text "_auth") (es.foldl setKey [])).getD .null) := by
  rw [tableOf, verify_alistOf hmac _ hdata]
  cases hauth : getKey (text "_auth") (es.foldl setKey []) with
  | none => exact ⟨fun _ => Or.inl rfl, fun _ => NoFault.result _⟩
  | some auth =>
    obtain ⟨bs, hval⟩ := hes.value_of_getKey hauth
    rw [getD_some]
    by_cases hnull : auth = .null
    · rw [if_pos hnull]
      exact ⟨fun _ => Or.inl hnull, fun _ => NoFault.result _⟩
    rw [if_neg hnull]
    cases hp : alistp auth with
    | false =>
      have hlookup : alistLookup auth (text "hmd5") = .error .assertion := by
        rw [alistLookup, alistAssq, hp]
        rfl
      rw [hlookup]
      constructor
      · intro h
        cases h .assertion rfl
      · rintro (h | ⟨h, -⟩)
        · exact absurd h hnull
        · rw [hp] at h
          cases h
    | true =>
      obtain ⟨active, fs, hfs, rfl⟩ := hval.table_of_alistp hp
      have hlookup := alistLookup_alistOf (fs.foldl setKey []) (text "hmd5")
      rw [tableOf, hlookup, ok_then]
      generalize (getKey (text "hmd5") (fs.foldl setKey [])).getD .null = hmd5 at hlookup
      have htyped : AuthTyped (alistOf (fs.foldl setKey [])) ↔ ∀ car cdr, hmd5 ≠ .pair car cdr := by
        constructor
        · rintro (h | ⟨-, h⟩)
          · exact absurd h hnull
          · exact h hmd5 hlookup
        · intro h
          refine .inr ⟨hp, fun y hy => ?_⟩
          rw [hlookup] at hy
          cases hy
          exact h
      rw [htyped]
      cases hmd5 with
      | null => exact ⟨fun _ _ _ => Sexpr.noConfusion, fun _ => NoFault.result _⟩
      | pair car cdr =>
        constructor
        · intro h
          cases h .assertion rfl
        · intro h
          exact absurd rfl (h car cdr)
      | string s | binary s =>
        refine ⟨fun _ _ _ => Sexpr.noConfusion, fun _ => ?_⟩
        rw [if_neg Sexpr.noConfusion, sexprTostring, ok_then]
        split
        · exact NoFault.result _
        · exact NoFault.ok _

theorem verify_eq_ok_iff {hmac : HmacMd5} (hdata : data.length < 2 ^ 32) {secret : Region} :
    verify hmac (alistOf kvs) data secret = .ok () ↔
      ∃ auth, getKey (text "_auth") kvs = some auth ∧ HmdText auth (digestText hmac secret data) := by
  rw [verify_alistOf hmac _ hdata]
  cases hauth : getKey (text "_auth") kvs with
  | none =>
    refine iff_of_false nofun ?_
    rintro ⟨auth, h, -⟩
    cases h
  | some auth =>
    rw [getD_some]
    constructor
    · intro h
      split at h
      · cases h
      obtain ⟨hmd5, hlookup, h⟩ := bind_eq_ok h
      split at h
      · cases h
      obtain ⟨s, hs, h⟩ := bind_eq_ok h
      split at h
      · cases h
      next heq => exact ⟨auth, rfl, hmd5, hlookup, (not_not.1 heq) ▸ hs⟩
    · rintro ⟨auth', h, hmd5, hlookup, hs⟩
      cases h
      have hnull : auth ≠ .null := by
        rintro rfl
        cases hlookup
      have hnull' : hmd5 ≠ .null := by
        rintro rfl
        cases hs
      rw [if_neg hnull, hlookup, ok_then, if_neg hnull', hs, ok_then, if_neg (not_not.2 rfl)]

/-! ### Messages -/

/-- The first element of a message has the key `_auth`, and the value under `hmd5` in its value is the digest of all bytes
behind this element. -/
def Signed (hmac : HmacMd5) (source secret : Region) : Prop :=
  ∃ v rest x es, source = uint32Bytes 1 ++ UInt8.ofNat (text "_auth").length :: (text "_auth" ++ (v ++ rest)) ∧
    Value v x ∧ Elements rest es ∧ alistLookup x (text "hmd5") = .ok (.binary (digestText hmac secret rest))

/-- Reading a message ends without a fault, and with a secret only a signed message is accepted. -/
def CcSafe (hmac : HmacMd5) (source : Region) (secret : Option Region) : Prop :=
  NoFault (ccFromwire hmac source secret) ∧
    ∀ alist, ccFromwire hmac source secret = .ok alist → ∀ key, secret = some key → Signed hmac source key

/-- If a secret is given and the first key of a well-formed message is `_auth`, then its value has the right type. -/
def WellTyped (source : Region) (secret : Option Region) : Prop :=
  secret.isSome = true → ∀ es, Message source es → es.head?.map Prod.fst = some (text "_auth") →
    AuthTyped ((getKey (text "_auth") (es.foldl setKey [])).getD .null)

/-- Where the digest is that of the C string under `hmd5` in the last `_auth`, the first key has nothing behind a NUL, and the
data under `hmd5` in the first `_auth` are this C string. -/
def Plain (hmac : HmacMd5) (source secret : Region) : Prop :=
  ∀ key v rest x es auth s, source = uint32Bytes 1 ++ UInt8.ofNat key.length :: (key ++ (v ++ rest)) → key.length ≤ 255 →
    Value v x → Elements rest es → cstr key = text "_auth" →
    getKey (text "_auth") (((cstr key, x) :: es).foldl setKey []) = some auth → HmdText auth s →
    digestText hmac secret rest = s → key = text "_auth" ∧ alistLookup x (text "hmd5") = .ok (.binary s)

theorem value_unique {v rest' : Region} {y : Sexpr} (hlen : (bs ++ rest).length < 2 ^ 32) (hx : Value bs x) (hy : Value v y)
    (h : bs ++ rest = v ++ rest') : x = y ∧ rest = rest' := by
  have hspec := ((fromwire_spec ((bs ++ rest).length + 1)).value (bs ++ rest) (Nat.lt_succ_self _) hlen).2
  have hfirst := (hspec x rest).2 ⟨bs, rfl, hx⟩
  rw [(hspec y rest').2 ⟨v, h, hy⟩] at hfirst
  cases hfirst
  exact ⟨rfl, rfl⟩

theorem version_or_result (hmac : HmacMd5) (secret : Option Region) (hlen : source.length < 2 ^ 32) :
    ((∃ r, ccFromwire hmac source secret = .error (.result r)) ∧ ∀ body, source ≠ uint32Bytes 1 ++ body) ∨
    ∃ body, source = uint32Bytes 1 ++ body ∧
      ccFromwire hmac source secret = tableFromwire hmac (body.length + 1) body secret := by
  by_cases hsize : regionSize source < 4
  · left
    refine ⟨⟨.unexpectedend, ?_⟩, ?_⟩
    · rw [ccFromwire, if_pos hsize]
      rfl
    · rintro body rfl
      rw [regionSize_of_lt hlen, length_append] at hsize
      exact absurd hsize (by simp [uint32Bytes])
  have hfour := hsize
  rw [regionSize_of_lt hlen] at hfour
  obtain ⟨n, body, hget⟩ := exists_get32 (not_lt.1 hfour)
  obtain ⟨hsource, hn⟩ := get32_eq_ok hget
  by_cases hone : n = 1
  · right
    refine ⟨body, hone ▸ hsource, ?_⟩
    rw [ccFromwire, if_neg hsize]
    simp only [hget, ok_then, if_neg (not_not.2 hone)]
  left
  refine ⟨⟨.unknownversion, ?_⟩, ?_⟩
  · rw [ccFromwire, if_neg hsize]
    simp only [hget, ok_then, if_pos hone]
    rfl
  · rintro body' rfl
    rw [get32_uint32Bytes (by decide)] at hget
    cases hget
    exact hone rfl

theorem tableFromwire_auth (hmac : HmacMd5) (secret : Region) {key v : Region} (hkey : key.length ≤ 255) (hv : Value v x)
    (hes : Elements rest es)
    (hauth : cstr key = text "_auth") (hlen : (UInt8.ofNat key.length :: (key ++ (v ++ rest))).length < 2 ^ 32) :
    tableFromwire hmac ((UInt8.ofNat key.length :: (key ++ (v ++ rest))).length + 1)
      (UInt8.ofNat key.length :: (key ++ (v ++ rest))) (some secret) = (do
        verify hmac (tableOf ((cstr key, x) :: es)) rest secret
        return tableOf ((cstr key, x) :: es)) := by
  have hfirst := (fromwire_spec (UInt8.ofNat key.length :: (key ++ (v ++ rest))).length).element_eq true hkey hv
    (Nat.lt_succ_self _) hlen [] true none
  rw [hauth, beq_self_eq_true, ← hauth] at hfirst
  have hrest : rest.length < (UInt8.ofNat key.length :: (key ++ (v ++ rest))).length := by
    simp only [length_cons, length_append]
    omega
  have hloop := (((fromwire_spec _).table true rest (setKey [] (cstr key, x)) false (some rest) hrest (hrest.trans hlen)
    rfl).2 _ _).2 ⟨rfl, es, hes, rfl⟩
  have hrun : tableLoop ((UInt8.ofNat key.length :: (key ++ (v ++ rest))).length + 1) true
      (UInt8.ofNat key.length :: (key ++ (v ++ rest))) alistCreate true none =
      .ok (tableOf ((cstr key, x) :: es), some rest) := hfirst.trans hloop
  rw [tableFromwire, isSome_some, hrun]
  rfl

theorem tableFromwire_other (hmac : HmacMd5) (secret : Region) (hlen : body.length < 2 ^ 32)
    (hother : ∀ es, Elements body es → es.head?.map Prod.fst ≠ some (text "_auth")) :
    ∃ r, tableFromwire hmac (body.length + 1) body (some secret) = .error (.result r) := by
  -- the loop ends with a result or notes no bytes
  suffices hloop : (∃ r, tableLoop (body.length + 1) true body alistCreate true none = .error (.result r)) ∨
      ∃ alist, tableLoop (body.length + 1) true body alistCreate true none = .ok (alist, none) by
    obtain ⟨r, hrun⟩ | ⟨alist, hrun⟩ := hloop
    · refine ⟨r, ?_⟩
      rw [tableFromwire, isSome_some, hrun]
      rfl
    refine ⟨.badauth, ?_⟩
    rw [tableFromwire, isSome_some, hrun]
    rfl
  by_cases hne : body = []
  · right
    subst hne
    refine ⟨alistCreate, ?_⟩
    rw [tableLoop, if_pos rfl]
    rfl
  have hspec := fromwire_spec body.length
  obtain hend | ⟨key, v, rest, x, hkey, hv, hbody⟩ :=
    hspec.element_or_result true hne (Nat.lt_succ_self _) hlen alistCreate true none
  · exact .inl hend
  have hfirst : tableLoop (body.length + 1) true body alistCreate true none =
      tableLoop body.length true rest (alistOf (setKey [] (cstr key, x))) false
        (if true && true && cstr key == text "_auth" then some rest else none) := by
    have heq := hspec.element_eq true hkey hv (by rw [← hbody]; exact Nat.lt_succ_self _) (hbody ▸ hlen) [] true none
    rw [← hbody] at heq
    exact heq
  have hrest : rest.length < body.length := by
    rw [hbody]
    simp only [length_cons, length_append]
    omega
  obtain ⟨hsafe, hloop⟩ := hspec.table true rest (setKey [] (cstr key, x)) false
    (if true && true && cstr key == text "_auth" then some rest else none) hrest (hrest.trans hlen) rfl
  rw [← hfirst] at hsafe hloop
  cases hrun : tableLoop (body.length + 1) true body alistCreate true none with
  | error e =>
    have he := hsafe e hrun
    cases e with
    | result r => exact .inl ⟨r, rfl⟩
    | _ => cases he
  | ok y =>
    right
    obtain ⟨alist, c⟩ := y
    obtain ⟨rfl, es, hes, -⟩ := (hloop alist c).1 hrun
    have hkey' := hother _ (hbody ▸ Elements.cons hkey hv hes)
    have hne' : ¬cstr key = text "_auth" := fun h => hkey' (congrArg some h)
    refine ⟨alist, ?_⟩
    rw [Bool.true_and, Bool.true_and, if_neg (by rw [beq_iff_eq]; exact hne')]

theorem Elements.auth_cases (h : Elements body es)
    (hhead : es.head?.map Prod.fst = some (text "_auth")) : ∃ key v rest x fs, es = (cstr key, x) :: fs ∧
    body = UInt8.ofNat key.length :: (key ++ (v ++ rest)) ∧ key.length ≤ 255 ∧ Value v x ∧ Elements rest fs ∧
    cstr key = text "_auth" := by
  cases h with
  | nil => cases hhead
  | cons hkey hv hrest => exact ⟨_, _, _, _, _, rfl, rfl, hkey, hv, hrest, Option.some.inj hhead⟩

theorem safe_auth_iff (hmac : HmacMd5) (secret : Region) (hlen : body.length < 2 ^ 32) (hes : Elements body es)
    (hhead : es.head?.map Prod.fst = some (text "_auth")) :
    (NoFault (tableFromwire hmac (body.length + 1) body (some secret)) ↔
      AuthTyped ((getKey (text "_auth") (es.foldl setKey [])).getD .null)) ∧
    (Plain hmac (uint32Bytes 1 ++ body) secret → ∀ alist, tableFromwire hmac (body.length + 1) body (some secret) = .ok alist →
      Signed hmac (uint32Bytes 1 ++ body) secret) := by
  obtain ⟨key, v, rest, x, fs, rfl, rfl, hkey, hv, hfs, hauth⟩ := hes.auth_cases hhead
  rw [tableFromwire_auth hmac secret hkey hv hfs hauth hlen]
  have hrest : rest.length < 2 ^ 32 := by
    simp only [length_cons, length_append] at hlen
    omega
  have htyped := noFault_verify_iff hmac hes hrest secret
  constructor
  · rw [← htyped]
    constructor
    · intro h e he
      apply h e
      rw [he]
      rfl
    · intro h
      exact h.bind (fun _ _ => NoFault.ok _)
  · intro hplain alist hok
    obtain ⟨u, hver, -⟩ := bind_eq_ok hok
    obtain ⟨auth, hget, hdigest⟩ := (verify_eq_ok_iff hrest).1 hver
    obtain ⟨rfl, hlookup⟩ := hplain key v rest x fs auth _ rfl hkey hv hfs hauth hget hdigest rfl
    exact ⟨v, rest, x, fs, rfl, hv, hfs, hlookup⟩

theorem CcSafe.plain {hmac : HmacMd5} {secret : Region} (h : CcSafe hmac source (some secret)) (hlen : source.length < 2 ^ 32) :
    Plain hmac source secret := by
  rintro key v rest x es auth s rfl hkey hv hes hauth hget htext rfl
  rw [length_append] at hlen
  have hbody : (UInt8.ofNat key.length :: (key ++ (v ++ rest))).length < 2 ^ 32 := by omega
  have hrun := tableFromwire_auth hmac secret hkey hv hes hauth hbody
  simp only [length_cons, length_append] at hbody
  have hver : verify hmac (tableOf ((cstr key, x) :: es)) rest secret = .ok () :=
    (verify_eq_ok_iff (by omega)).2 ⟨auth, hget, htext⟩
  rw [hver, ok_then] at hrun
  have hok : ccFromwire hmac (uint32Bytes 1 ++ UInt8.ofNat key.length :: (key ++ (v ++ rest))) (some secret) =
      .ok (tableOf ((cstr key, x) :: es)) := by
    have hsize : ¬regionSize (uint32Bytes 1 ++ UInt8.ofNat key.length :: (key ++ (v ++ rest))) < 4 := by
      rw [regionSize_of_lt (by rw [length_append]; exact hlen), length_append, show (uint32Bytes 1).length = 4 from rfl]
      omega
    rw [ccFromwire, if_neg hsize, get32_uint32Bytes (by decide), ok_then]
    exact hrun
  obtain ⟨v', rest', y, es', hsource, hv', -, hlookup⟩ := h.2 _ hok secret rfl
  obtain ⟨hlength, hrest⟩ := cons.inj (append_cancel_left hsource)
  have hkeylen : key.length = (text "_auth").length := by
    have hnat := congrArg UInt8.toNat hlength
    rw [UInt8.toNat_ofNat', UInt8.toNat_ofNat', Nat.mod_eq_of_lt (by omega), text_auth] at hnat
    rw [text_auth]
    exact hnat
  obtain ⟨rfl, hvalues⟩ := append_inj hrest hkeylen
  obtain ⟨rfl, rfl⟩ := value_unique (by rw [length_append]; omega) hv hv' hvalues
  exact ⟨rfl, hlookup⟩

/-- Messages are read safely if and only if the values under `_auth` and `hmd5` are of the types that are expected, and what is
compared with the digest is the whole data under `hmd5` in the first element, whose key is `_auth` as a whole. -/
theorem cc_fromwire_safe_iff (hmac : HmacMd5) (source : Region) (secret : Option Region) (hlen : source.length < 2 ^ 32) :
    CcSafe hmac source secret ↔ WellTyped source secret ∧ ∀ key, secret = some key → Plain hmac source key := by
  have hplain : CcSafe hmac source secret → ∀ key, secret = some key → Plain hmac source key := by
    rintro h key rfl
    exact h.plain hlen
  obtain ⟨⟨r, hrun⟩, hversion⟩ | ⟨body, rfl, hrun⟩ := version_or_result hmac secret hlen
  · refine ⟨fun h => ⟨fun _ es hes => ?_, hplain h⟩, fun _ => ⟨by rw [hrun]; exact NoFault.result _, fun alist hok => ?_⟩⟩
    · obtain ⟨body, hsource, -⟩ := hes
      exact absurd hsource (hversion body)
    · rw [hrun] at hok
      cases hok
  rw [length_append] at hlen
  have hbody : body.length < 2 ^ 32 := by omega
  refine ⟨fun h => ⟨?_, hplain h⟩, fun h => ?_⟩
  · rw [CcSafe, hrun] at h
    cases secret with
    | none =>
      intro hsome
      cases hsome
    | some secret =>
      rintro - es ⟨body', hsource, hes⟩ hhead
      cases append_cancel_left hsource
      exact (safe_auth_iff hmac secret hbody hes hhead).1.1 h.1
  · rw [CcSafe, hrun]
    cases secret with
    | none =>
      refine ⟨?_, fun alist hok key h => ?_⟩
      · rw [tableFromwire]
        apply ((fromwire_spec _).table false body [] true none (Nat.lt_succ_self _) hbody rfl).1.bind
        intro a _
        exact NoFault.ok _
      · cases h
    | some secret =>
      by_cases hauth : ∃ es, Elements body es ∧ es.head?.map Prod.fst = some (text "_auth")
      · obtain ⟨es, hes, hhead⟩ := hauth
        obtain ⟨hsafe, hsigned⟩ := safe_auth_iff hmac secret hbody hes hhead
        refine ⟨hsafe.2 (h.1 rfl es ⟨body, rfl, hes⟩ hhead), fun alist hok key hkey => ?_⟩
        cases hkey
        exact hsigned (h.2 secret rfl) alist hok
      obtain ⟨r, hres⟩ := tableFromwire_other hmac secret hbody (fun es hes hhead => hauth ⟨es, hes, hhead⟩)
      rw [hres]
      refine ⟨NoFault.result _, fun alist hok => ?_⟩
      cases hok

/-- With this digest, a message of the elements `_auth` and `x`. -/
def zeroHmac : HmacMd5 := fun _ _ => Vector.replicate 16 0

def hmdElement : Region := UInt8.ofNat (text "hmd5").length :: (text "hmd5" ++ header ccmsgtypeBinarydata (replicate 22 65))

def xElement : Region := UInt8.ofNat [(0x78 : UInt8)].length :: ([0x78] ++ header ccmsgtypeBinarydata [7, 0])

def signedMessage : Region :=
  uint32Bytes 1 ++ UInt8.ofNat (text "_auth").length :: (text "_auth" ++ (header ccmsgtypeTable hmdElement ++ xElement))

theorem cc_fromwire_safe_signed : CcSafe zeroHmac signedMessage (some [1]) ∧ WellTyped signedMessage (some [1]) ∧
    Plain zeroHmac signedMessage [1] := by
  have hbinary : ∀ {active : Region}, active.length < 2 ^ 32 → Value (header ccmsgtypeBinarydata active) (.binary active) := .binary
  have hhmd : Elements hmdElement [(cstr (text "hmd5"), .binary (replicate 22 65))] := by
    have h := @Elements.cons (text "hmd5") _ _ _ _ (by decide +kernel) (@hbinary (replicate 22 65) (by decide)) .nil
    rw [append_nil] at h
    exact h
  have hx : Elements xElement [(cstr [0x78], .binary [7, 0])] := by
    have h := @Elements.cons [0x78] _ _ _ _ (by decide) (@hbinary [7, 0] (by decide)) .nil
    rw [append_nil] at h
    exact h
  have hsafe : CcSafe zeroHmac signedMessage (some [1]) := by
    have hrun : (ccFromwire zeroHmac signedMessage (some [1])).isOk = true := by decide +kernel
    refine ⟨fun e he => ?_, fun _ _ key hkey => ?_⟩
    · rw [he] at hrun
      cases hrun
    · cases hkey
      have hlookup : alistLookup (tableOf [(cstr (text "hmd5"), .binary (replicate 22 65))]) (text "hmd5") =
          .ok (.binary (digestText zeroHmac [1] xElement)) := by decide +kernel
      exact ⟨_, _, _, _, rfl, .table (by decide +kernel) hhmd, hx, hlookup⟩
  obtain ⟨htyped, hplain⟩ := (cc_fromwire_safe_iff zeroHmac signedMessage (some [1]) (by decide +kernel)).1 hsafe
  exact ⟨hsafe, htyped, hplain [1] rfl⟩

/-- A message whose `_auth` is binary data. -/
def binaryAuth : Region := [0, 0, 0, 1, 5, 95, 97, 117, 116, 104, 1, 0, 0, 0, 0]

/-- With a secret it makes the assertion in `isccc_alist_assq` fail, whatever the digest. -/
theorem binary_auth_not_safe : ¬∀ hmac : HmacMd5, CcSafe hmac binaryAuth (some [1]) := by
  intro h
  obtain ⟨hsafe, -⟩ := h (fun _ _ => Vector.replicate 16 0)
  have hrun : ccFromwire (fun _ _ => Vector.replicate 16 0) binaryAuth (some [1]) = .error .assertion := by decide +kernel
  cases hsafe .assertion hrun

end Bind9.Isccc
