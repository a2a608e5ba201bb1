import Mathlib.Data.List.Sort
import Mathlib.Tactic

/-! # Lists of ports

`lib/dns/portlist.c`.  The array is a list as long as what is allocated; only its first `active`
entries are sorted and searched.  An access behind the array is the fault `outside`, and memory that
`isc_mem_get` returns may hold anything. -/

namespace Bind9.Portlist

open List
open Function

inductive Fault where
  | outside
  | insist
  | timeout
deriving DecidableEq, Repr

inductive Result where
  | success
  | nomemory
deriving DecidableEq, Repr

inductive Af where
  | inet
  | inet6
deriving DecidableEq, Repr

/-- `DNS_PL_INET` and `DNS_PL_INET6`. -/
def Af.flag : Af → UInt16
  | .inet => 1
  | .inet6 => 2

def DNS_PL_ALLOCATE : ℕ := 16

structure Element where
  port : UInt16
  flags : UInt16
deriving DecidableEq, Repr

structure Ports where
  list : List Element
  active : ℕ
deriving DecidableEq, Repr

def create : Ports := ⟨[], 0⟩

/-- `list[i]`. -/
def read (list : List Element) (i : ℕ) : Except Fault Element :=
  match list[i]? with
  | some e => .ok e
  | none => .error .outside

/-- The loop of `find_port`; the first argument counts the rounds it may take. -/
def findLoop (list : List Element) (port : UInt16) : ℕ → ℕ → ℕ → ℕ → ℕ → Except Fault (Option ℕ)
  | 0, _, _, _, _ => .error .timeout
  | fuel + 1, xtry, min, max, last => do
    let e ← read list xtry
    if e.port = port then .ok (some xtry)
    else if e.port < port then
      if xtry = max then .ok none
      else
        let min := xtry
        let xtry := xtry + (max - xtry + 1) / 2
        if max < xtry then .error .insist
        else if xtry = last then .ok none
        else findLoop list port fuel xtry min max min
    else
      if xtry = min then .ok none
      else
        let max := xtry
        let xtry := xtry - (xtry - min + 1) / 2
        if xtry < min then .error .insist
        else if xtry = last then .ok none
        else findLoop list port fuel xtry min max max

def findPort (list : List Element) (len : ℕ) (port : UInt16) : Except Fault (Option ℕ) :=
  findLoop list port (len + 1) (len / 2) 0 (len - 1) len

/-- The search in front of each operation. -/
def Ports.find (s : Ports) (port : UInt16) : Except Fault (Option ℕ) :=
  if s.active ≠ 0 then findPort s.list s.active port else .ok none

/-- `compare`. -/
abbrev PortLe (a b : Element) : Prop := a.port ≤ b.port

instance : Std.Total PortLe := ⟨fun _ _ => UInt16.le_total _ _⟩

instance : IsTrans Element PortLe := ⟨fun _ _ _ => UInt16.le_trans⟩

/-- `qsort(list, active, sizeof(*el), compare)`. -/
def qsort (list : List Element) (active : ℕ) : List Element := (list.take active).insertionSort PortLe ++ list.drop active

/-- The growth in `dns_portlist_add`; the new memory holds `g`. -/
def grow (list : List Element) (g : ℕ → Element) : Except Fault (List Element) :=
  let allocated := (list.length + DNS_PL_ALLOCATE) % 2 ^ 32
  if allocated < list.length then .error .outside
  else .ok (list ++ (List.range (allocated - list.length)).map g)

/-- An array with an unused entry; `mem` is the memory that it may need. -/
def Ports.room (s : Ports) (mem : Option (ℕ → Element)) : Option (Except Fault (List Element)) :=
  if s.list.length ≤ s.active then mem.map (grow s.list) else some (.ok s.list)

def add (s : Ports) (af : Af) (port : UInt16) (mem : Option (ℕ → Element)) : Except Fault (Result × Ports) := do
  match ← s.find port with
  | some k =>
    let e ← read s.list k
    .ok (.success, { s with list := s.list.set k { e with flags := e.flags ||| af.flag } })
  | none =>
    match s.room mem with
    | none => .ok (.nomemory, s)
    | some list => do
      let list ← list
      let _ ← read list s.active
      let list := list.set s.active ⟨port, af.flag⟩
      .ok (.success, ⟨qsort list (s.active + 1), s.active + 1⟩)

def remove (s : Ports) (af : Af) (port : UInt16) : Except Fault Ports := do
  match ← s.find port with
  | some k =>
    let e ← read s.list k
    let e := { e with flags := e.flags &&& ~~~af.flag }
    if e.flags = 0 then do
      let e ← read s.list s.active
      .ok ⟨qsort (s.list.set k e) (s.active - 1), s.active - 1⟩
    else .ok { s with list := s.list.set k e }
  | none => .ok s

def portlistMatch (s : Ports) (af : Af) (port : UInt16) : Except Fault Bool := do
  match ← s.find port with
  | some k =>
    let e ← read s.list k
    .ok (e.flags &&& af.flag != 0)
  | none => .ok false

/-! ### Runs -/

/-- The pairs that were added and not removed since. -/
abbrev Pairs := Af → UInt16 → Bool

def Pairs.put (S : Pairs) (af : Af) (port : UInt16) (b : Bool) : Pairs :=
  update S af (update (S af) port b)

def Pairs.flags (S : Pairs) (port : UInt16) : UInt16 := (if S .inet port then 1 else 0) ||| if S .inet6 port then 2 else 0

/-- The removal empties no entry, or the last active one with an unused entry behind it. -/
def Removable (s : Ports) (af : Af) (port : UInt16) : Prop :=
  ∀ k e, k < s.active → s.list[k]? = some e → e.port = port → e.flags &&& ~~~af.flag = 0 →
    k + 1 = s.active ∧ s.active < s.list.length

/-- The states after any calls, removals being as above, with the pairs they should hold. -/
inductive Run : Ports → Pairs → Prop
  | create : Run create (fun _ _ => false)
  | add {s s' : Ports} {S : Pairs} {af : Af} {port : UInt16} {mem : Option (ℕ → Element)} :
      Run s S → add s af port mem = .ok (.success, s') → Run s' (S.put af port true)
  | nomemory {s s' : Ports} {S : Pairs} {af : Af} {port : UInt16} {mem : Option (ℕ → Element)} :
      Run s S → add s af port mem = .ok (.nomemory, s') → Run s' S
  | remove {s s' : Ports} {S : Pairs} {af : Af} {port : UInt16} :
      Run s S → Removable s af port → remove s af port = .ok s' → Run s' (S.put af port false)

/-- The port of an entry, as a number. -/
def portAt (list : List Element) (k : ℕ) : ℕ := ((list[k]?).getD ⟨0, 0⟩).port.toNat

/-- What the search answers on the first `len` entries. -/
def Finds (list : List Element) (len : ℕ) (port : UInt16) : Option ℕ → Prop
  | some k => k < len ∧ portAt list k = port.toNat
  | none => ∀ k < len, portAt list k ≠ port.toNat

/-- The state is a set of pairs, and no operation can fail on it. -/
structure Exact (s : Ports) (S : Pairs) : Prop where
  sorted : (s.list.take s.active).Pairwise (fun a b => a.port < b.port)
  flags : ∀ e ∈ s.list.take s.active, e.flags ≠ 0
  portlistMatch : ∀ af port, portlistMatch s af port = .ok (S af port)
  add : ∀ af port mem, ∃ r s', add s af port mem = .ok (r, s') ∧ (r = .nomemory → mem = none)
  remove : ∀ af port, Removable s af port → ∃ s', remove s af port = .ok s'

/-! ### The search -/

variable {list : List Element} {port : UInt16} {fuel xtry min max last len k : ℕ}

theorem portAt_eq (h : k < list.length) : portAt list k = list[k].port.toNat := by
  unfold portAt
  rw [getElem?_eq_getElem h]
  rfl

theorem read_eq (h : k < list.length) : read list k = .ok list[k] := by
  unfold read
  rw [getElem?_eq_getElem h]

/-- The ports of the first `len` entries do not fall. -/
def Rising (list : List Element) (len : ℕ) : Prop :=
  len ≤ list.length ∧ ∀ i j, i < j → j < len → portAt list i ≤ portAt list j

/-- What holds in front of each round: where the bounds are, which of them were looked at, and how the
probe lies between them. -/
structure Searching (list : List Element) (port : UInt16) (len xtry min max last : ℕ) : Prop where
  order : min ≤ xtry ∧ xtry ≤ max ∧ max < len
  low : min = 0 ∨ portAt list min < port.toNat
  high : max = len - 1 ∨ port.toNat < portAt list max
  probe : (last = len ∧ xtry = len / 2 ∧ min = 0 ∧ max = len - 1) ∨
    (last = min ∧ min < max ∧ xtry = min + (max - min + 1) / 2 ∧ portAt list min < port.toNat) ∨
    (last = max ∧ min < max ∧ xtry = max - (max - min + 1) / 2 ∧ port.toNat < portAt list max)

/-- A port between two neighbours is not there. -/
theorem Rising.absent (h : Rising list len) {a : ℕ} (ha : a ≤ len) (hlo : a = 0 ∨ portAt list (a - 1) < port.toNat)
    (hhi : len ≤ a ∨ port.toNat < portAt list a) : Finds list len port none := by
  intro k hk
  rcases lt_or_ge k a with hka | hka
  · have hprev := hlo.resolve_left (by omega)
    rcases Nat.eq_or_lt_of_le (show k ≤ a - 1 by omega) with rfl | hlt
    · omega
    · have := h.2 k (a - 1) hlt (by omega)
      omega
  have hnext := hhi.resolve_left (by omega)
  rcases Nat.eq_or_lt_of_le hka with rfl | hlt
  · omega
  · have := h.2 a k hlt hk
    omega

theorem Searching.up (h : Searching list port len xtry min max last) (hr : Rising list len)
    (hlt : portAt list xtry < port.toNat) : (xtry = max → Finds list len port none) ∧
      (xtry ≠ max → xtry + (max - xtry + 1) / 2 ≤ max ∧ (xtry + (max - xtry + 1) / 2 = last → Finds list len port none) ∧
        (xtry + (max - xtry + 1) / 2 ≠ last → min < xtry ∧
          Searching list port len (xtry + (max - xtry + 1) / 2) xtry max xtry)) := by
  obtain ⟨⟨hmin, hmax, hlen⟩, hlow, hhigh, hprobe⟩ := h
  refine ⟨fun he => ?_, fun hne => ⟨by omega, fun hl => ?_, fun hl => ⟨?_, ?_⟩⟩⟩
  · subst he
    exact hr.absent (a := xtry + 1) (by omega) (.inr hlt) (.inl (by omega))
  · -- the probe meets the upper bound again, one above the last one
    obtain ⟨hlast, -⟩ | ⟨hlast, -⟩ | ⟨hlast, hlt', -, hm⟩ := hprobe
    · omega
    · omega
    · have he : xtry + 1 = max := by omega
      rw [← he] at hm
      exact hr.absent (a := xtry + 1) (by omega) (.inr hlt) (.inr hm)
  · omega
  · exact ⟨by omega, .inr hlt, hhigh, .inr (.inl ⟨rfl, by omega, rfl, hlt⟩)⟩

theorem Searching.down (h : Searching list port len xtry min max last) (hr : Rising list len)
    (hgt : port.toNat < portAt list xtry) : (xtry = min → Finds list len port none) ∧
      (xtry ≠ min → min ≤ xtry - (xtry - min + 1) / 2 ∧ (xtry - (xtry - min + 1) / 2 = last → Finds list len port none) ∧
        (xtry - (xtry - min + 1) / 2 ≠ last → (xtry < max ∨ last = len) ∧
          Searching list port len (xtry - (xtry - min + 1) / 2) min xtry xtry)) := by
  obtain ⟨⟨hmin, hmax, hlen⟩, hlow, hhigh, hprobe⟩ := h
  refine ⟨fun he => ?_, fun hne => ⟨by omega, fun hl => ?_, fun hl => ⟨?_, ?_⟩⟩⟩
  · subst he
    have hzero : xtry = 0 := hlow.resolve_right (by omega)
    subst hzero
    exact hr.absent (a := 0) (by omega) (.inl rfl) (.inr hgt)
  · obtain ⟨hlast, -⟩ | ⟨hlast, hlt', -, hm⟩ | ⟨hlast, -⟩ := hprobe
    · omega
    · have he : xtry - 1 = min := by omega
      rw [← he] at hm
      exact hr.absent (a := xtry) (by omega) (.inr hm) (.inr hgt)
    · omega
  · omega
  · exact ⟨by omega, hlow, .inr hgt, .inr (.inr ⟨rfl, by omega, rfl, hgt⟩)⟩

theorem findLoop_finds (hr : Rising list len) (h : Searching list port len xtry min max last)
    (hfuel : max - min + (if last = len then 1 else 0) < fuel) :
    ∃ r, findLoop list port fuel xtry min max last = .ok r ∧ Finds list len port r := by
  induction fuel generalizing xtry min max last with
  | zero => omega
  | succ fuel ih =>
    have horder := h.order
    have hx : xtry < list.length := by have := hr.1; omega
    have hport := portAt_eq hx
    have hup : list[xtry].port < port → portAt list xtry < port.toNat := fun hlt => hport ▸ UInt16.lt_iff_toNat_lt.1 hlt
    have hdown : ¬ list[xtry].port = port → ¬ list[xtry].port < port → port.toNat < portAt list xtry := by
      intro heq hlt
      rw [UInt16.lt_iff_toNat_lt] at hlt
      rw [← UInt16.toNat_inj] at heq
      omega
    rw [findLoop, read_eq hx]
    dsimp only [bind, Except.bind]
    split_ifs with heq hlt hm hins hl hm hins hl
    · exact ⟨some xtry, rfl, by omega, by rw [hport, heq]⟩
    · exact ⟨none, rfl, (h.up hr (hup hlt)).1 hm⟩
    · exact absurd ((h.up hr (hup hlt)).2 hm).1 (by omega)
    · exact ⟨none, rfl, ((h.up hr (hup hlt)).2 hm).2.1 hl⟩
    · obtain ⟨hmin, hs⟩ := ((h.up hr (hup hlt)).2 hm).2.2 hl
      refine ih hs ?_
      rw [if_neg (by omega)]
      omega
    · exact ⟨none, rfl, (h.down hr (hdown heq hlt)).1 hm⟩
    · exact absurd ((h.down hr (hdown heq hlt)).2 hm).1 (by omega)
    · exact ⟨none, rfl, ((h.down hr (hdown heq hlt)).2 hm).2.1 hl⟩
    · obtain ⟨hmax, hs⟩ := ((h.down hr (hdown heq hlt)).2 hm).2.2 hl
      refine ih hs ?_
      have hgap := hs.order
      rw [if_neg (by omega)]
      split_ifs at hfuel <;> omega

theorem findPort_finds (hr : Rising list len) (hpos : 0 < len) (port : UInt16) :
    ∃ r, findPort list len port = .ok r ∧ Finds list len port r := by
  refine findLoop_finds hr ⟨by omega, .inl rfl, .inl rfl, .inl ⟨rfl, rfl, rfl, rfl⟩⟩ ?_
  rw [if_pos rfl]
  omega

/-! ### The flags -/

variable {S : Pairs} {af : Af} {q : UInt16} {b : Bool}

theorem Pairs.flags_put_ne (h : q ≠ port) : (S.put af port b).flags q = S.flags q := by
  cases af <;> simp [put, flags, update, h]

theorem Pairs.flags_put_true : (S.put af port true).flags port = S.flags port ||| af.flag := by
  cases af <;> cases h4 : S .inet port <;> cases h6 : S .inet6 port <;> simp [put, flags, update, h4, h6, Af.flag] <;> decide

theorem Pairs.flags_put_false : (S.put af port false).flags port = S.flags port &&& ~~~af.flag := by
  cases af <;> cases h4 : S .inet port <;> cases h6 : S .inet6 port <;> simp [put, flags, update, h4, h6, Af.flag] <;> decide

theorem Pairs.flags_and (S : Pairs) (af : Af) (port : UInt16) : (S.flags port &&& af.flag != 0) = S af port := by
  cases af <;> cases h4 : S .inet port <;> cases h6 : S .inet6 port <;> simp [flags, h4, h6, Af.flag] <;> decide

theorem Pairs.put_true_ne : (S.put af port true).flags port ≠ 0 := by
  cases af <;> cases h4 : S .inet port <;> cases h6 : S .inet6 port <;> simp [put, flags, update, h4, h6]

/-! ### The invariant -/

/-- The active entries, sorted, are the ports with a flag, with their flags. -/
structure Inv (s : Ports) (S : Pairs) : Prop where
  size : s.active ≤ s.list.length
  sorted : (s.list.take s.active).Pairwise (fun a b => a.port < b.port)
  flags : ∀ e ∈ s.list.take s.active, e.flags = S.flags e.port
  mem : ∀ p, p ∈ (s.list.take s.active).map Element.port ↔ S.flags p ≠ 0

variable {s s' : Ports} {l : List Element} {e : Element} {n : ℕ}

theorem Inv.length (h : Inv s S) : (s.list.take s.active).length = s.active := by
  rw [length_take, Nat.min_eq_left h.size]

/-- There are no more entries than ports. -/
theorem Inv.active_le (h : Inv s S) : s.active ≤ 65536 := by
  have hnodup : ((s.list.take s.active).map (fun e => e.port.toNat)).Nodup := by
    refine pairwise_map.2 (h.sorted.imp fun hlt => ?_)
    exact Nat.ne_of_lt (UInt16.lt_iff_toNat_lt.1 hlt)
  have hsub : (s.list.take s.active).map (fun e => e.port.toNat) ⊆ range 65536 := by
    intro x hx
    obtain ⟨e, -, rfl⟩ := mem_map.1 hx
    exact mem_range.2 e.port.toNat_lt
  have := (subperm_of_subset hnodup hsub).length_le
  rwa [length_map, h.length, length_range] at this

theorem Inv.rising (h : Inv s S) : Rising s.list s.active := by
  refine ⟨h.size, fun i j hij hj => ?_⟩
  have hsize := h.size
  have hlen := h.length
  have hlt := pairwise_iff_getElem.1 h.sorted i j (by omega) (by omega) hij
  rw [getElem_take, getElem_take] at hlt
  rw [portAt_eq (by omega), portAt_eq (by omega)]
  exact (UInt16.lt_iff_toNat_lt.1 hlt).le

theorem Inv.find (h : Inv s S) (port : UInt16) : (∃ k, ∃ hk : k < s.list.length, k < s.active ∧ s.find port = .ok (some k) ∧
    s.list[k].port = port ∧ s.list[k].flags = S.flags port) ∨ s.find port = .ok none ∧ S.flags port = 0 := by
  have hsize := h.size
  have habsent : (∀ k < s.active, portAt s.list k ≠ port.toNat) → S.flags port = 0 := by
    intro hno
    by_contra hne
    obtain ⟨e, he, hp⟩ := mem_map.1 ((h.mem port).2 hne)
    obtain ⟨k, hk, rfl⟩ := getElem_of_mem he
    rw [h.length] at hk
    rw [getElem_take] at hp
    exact hno k hk (by rw [portAt_eq (by omega), hp])
  unfold Ports.find
  by_cases hpos : s.active = 0
  · exact .inr ⟨if_neg (not_not.2 hpos), habsent fun k hk => by omega⟩
  obtain ⟨r, hr, hfinds⟩ := findPort_finds h.rising (by omega) port
  rw [if_pos hpos, hr]
  cases r with
  | none => exact .inr ⟨rfl, habsent hfinds⟩
  | some k =>
    obtain ⟨hk, hp⟩ := hfinds
    have hlt : k < s.list.length := by omega
    rw [portAt_eq hlt, UInt16.toNat_inj] at hp
    have hmem : s.list[k] ∈ s.list.take s.active := mem_take_iff_getElem.2 ⟨k, by omega, rfl⟩
    exact .inl ⟨k, hlt, hk, rfl, hp, hp ▸ h.flags _ hmem⟩

/-- New flags for an entry that keeps one. -/
theorem Inv.set (h : Inv s S) (hk : k < s.list.length) (ha : k < s.active) {f : UInt16}
    (hf : (S.put af s.list[k].port b).flags s.list[k].port = f) (hne : f ≠ 0) :
    Inv { s with list := s.list.set k ⟨s.list[k].port, f⟩ } (S.put af s.list[k].port b) := by
  have hports : ((s.list.take s.active).set k ⟨s.list[k].port, f⟩).map Element.port =
      (s.list.take s.active).map Element.port := by
    refine ext_getElem (by simp) fun i h1 h2 => ?_
    rw [getElem_map, getElem_map, getElem_set]
    split_ifs with hik
    · subst hik
      rw [getElem_take]
    · rfl
  constructor
  · rw [length_set]
    exact h.size
  · rw [take_set, ← pairwise_map (f := Element.port), hports, pairwise_map]
    exact h.sorted
  · intro e he
    rw [take_set] at he
    obtain ⟨i, hi, rfl⟩ := getElem_of_mem he
    rw [length_set] at hi
    rw [getElem_set]
    split_ifs with hik
    · exact hf.symm
    · have hne : (s.list.take s.active)[i].port ≠ s.list[k].port := by
        have hlen := h.length
        have hrel := fun i j hi hj hij => pairwise_iff_getElem.1 h.sorted i j hi hj hij
        rcases Nat.lt_or_gt_of_ne hik with hlt | hlt
        · have := hrel k i (by omega) hi hlt
          rw [getElem_take] at this
          exact fun he => UInt16.lt_irrefl _ (he ▸ this)
        have := hrel i k hi (by omega) hlt
        rw [getElem_take (i := k)] at this
        exact fun he => UInt16.lt_irrefl _ (he ▸ this)
      rw [Pairs.flags_put_ne hne]
      exact h.flags _ (getElem_mem hi)
  · intro p
    rw [take_set, hports, h.mem]
    by_cases hp : p = s.list[k].port
    · subst hp
      rw [hf]
      refine iff_of_true ((h.mem _).1 (mem_map.2 ⟨_, ?_, rfl⟩)) hne
      exact mem_take_iff_getElem.2 ⟨k, by omega, rfl⟩
    · rw [Pairs.flags_put_ne hp]

/-! ### Sorting -/

theorem qsort_take (h : n ≤ l.length) : (qsort l n).take n = (l.take n).insertionSort PortLe := by
  unfold qsort
  rw [take_append_of_le_length (by simp [h]), take_of_length_le (by simp)]

theorem qsort_length (h : n ≤ l.length) : (qsort l n).length = l.length := by
  simp [qsort]
  omega

/-- Two entries of one port, or an entry without its place in the order, sorted with the others. -/
theorem Inv.insert (h : Inv s S) (hport : S.flags port = 0) (hlen : s.active < l.length)
    (hl : l.take s.active = s.list.take s.active) :
    Inv ⟨qsort (l.set s.active ⟨port, af.flag⟩) (s.active + 1), s.active + 1⟩ (S.put af port true) := by
  have hle : s.active + 1 ≤ (l.set s.active ⟨port, af.flag⟩).length := by
    rw [length_set]
    omega
  have hflags : (S.put af port true).flags port = af.flag := by
    rw [Pairs.flags_put_true, hport]
    cases af <;> rfl
  have htake : (l.set s.active ⟨port, af.flag⟩).take (s.active + 1) = s.list.take s.active ++ [⟨port, af.flag⟩] := by
    rw [take_add_one, take_set_of_le (le_refl _), hl, getElem?_set_self hlen]
    rfl
  have hperm := perm_insertionSort PortLe (s.list.take s.active ++ [⟨port, af.flag⟩])
  have hnotin : ∀ e ∈ s.list.take s.active, e.port ≠ port := by
    intro e he hp
    exact (h.mem port).1 (hp ▸ mem_map_of_mem he) hport
  constructor
  · show s.active + 1 ≤ (qsort _ _).length
    rwa [qsort_length hle]
  · show ((qsort _ _).take (s.active + 1)).Pairwise _
    rw [qsort_take hle, htake]
    have hnodup : List.Pairwise (fun a b : Element => a.port ≠ b.port) (s.list.take s.active ++ [⟨port, af.flag⟩]) := by
      refine pairwise_append.2 ⟨h.sorted.imp UInt16.ne_of_lt, pairwise_singleton _ _, fun a ha b hb => ?_⟩
      rw [mem_singleton.1 hb]
      exact hnotin a ha
    have hne := (hperm.pairwise_iff (R := fun a b : Element => a.port ≠ b.port) (fun h => h.symm)).2 hnodup
    exact ((pairwise_insertionSort PortLe _).and hne).imp fun h => UInt16.lt_of_le_of_ne h.1 h.2
  · intro e he
    rw [qsort_take hle, htake, hperm.mem_iff, mem_append, mem_singleton] at he
    rcases he with he | rfl
    · rw [Pairs.flags_put_ne (hnotin e he)]
      exact h.flags e he
    · exact hflags.symm
  · intro p
    rw [qsort_take hle, htake, (hperm.map _).mem_iff, map_append, mem_append, h.mem]
    by_cases hp : p = port
    · subst hp
      simp [Pairs.put_true_ne]
    · simp [Pairs.flags_put_ne hp, hp]

theorem Inv.drop (h : Inv s S) {k : ℕ} (hk : k < s.list.length) (ha : k + 1 = s.active)
    (hf : (S.put af s.list[k].port false).flags s.list[k].port = 0) (e : Element) :
    Inv ⟨qsort (s.list.set k e) k, k⟩ (S.put af s.list[k].port false) := by
  have hle : k ≤ (s.list.set k e).length := by
    rw [length_set]
    omega
  have hsplit : s.list.take s.active = s.list.take k ++ [s.list[k]] := by rw [← ha, take_succ_eq_append_getElem hk]
  have hsorted := h.sorted
  have hmem := h.mem
  have hflags := h.flags
  rw [hsplit, pairwise_append] at hsorted
  rw [hsplit] at hmem hflags
  have hlt : ∀ e ∈ s.list.take k, e.port ≠ s.list[k].port := fun e he =>
    UInt16.ne_of_lt (hsorted.2.2 e he _ (mem_singleton_self _))
  have htake : (qsort (s.list.set k e) k).take k = s.list.take k := by
    rw [qsort_take hle, take_set_of_le (le_refl _)]
    exact (hsorted.1.imp (S := PortLe) UInt16.le_of_lt).insertionSort_eq
  constructor
  · show k ≤ (qsort _ _).length
    rwa [qsort_length hle]
  · rw [htake]
    exact hsorted.1
  · intro a ha'
    rw [htake] at ha'
    rw [Pairs.flags_put_ne (hlt a ha')]
    exact hflags a (mem_append_left _ ha')
  · intro p
    rw [htake]
    by_cases hp : p = s.list[k].port
    · subst hp
      rw [hf]
      refine iff_of_false (fun hin => ?_) (fun hne => hne rfl)
      obtain ⟨a, ha', he⟩ := mem_map.1 hin
      exact hlt a ha' he
    · rw [Pairs.flags_put_ne hp, ← hmem p]
      simp only [map_append, mem_append, map_cons, map_nil, mem_singleton, hp, or_false]

/-! ### The operations -/

theorem Inv.add (h : Inv s S) (af : Af) (port : UInt16) (mem : Option (ℕ → Element)) :
    (∃ s', add s af port mem = .ok (.success, s') ∧ Inv s' (S.put af port true)) ∨
      add s af port mem = .ok (.nomemory, s) ∧ mem = none := by
  obtain ⟨k, hk, ha, hfind, rfl, hflags⟩ | ⟨hfind, hzero⟩ := h.find port
  · refine .inl ⟨_, ?_, h.set hk ha (f := s.list[k].flags ||| af.flag) (by rw [Pairs.flags_put_true, hflags]) ?_⟩
    · rw [Portlist.add, hfind]
      show (read s.list k >>= _) = _
      rw [read_eq hk]
      rfl
    · rw [hflags, ← Pairs.flags_put_true]
      exact Pairs.put_true_ne
  have hnew : ∀ l : List Element, s.active < l.length → l.take s.active = s.list.take s.active →
      s.room mem = some (.ok l) →
      ∃ s', Portlist.add s af port mem = .ok (.success, s') ∧ Inv s' (S.put af port true) := by
    intro l hl htake hmem
    refine ⟨_, ?_, h.insert hzero hl htake⟩
    rw [Portlist.add, hfind, hmem]
    show (read l s.active >>= _) = _
    rw [read_eq hl]
    rfl
  by_cases hfull : s.list.length ≤ s.active
  · cases mem with
    | none =>
      refine .inr ⟨?_, rfl⟩
      rw [Portlist.add, hfind, Ports.room, if_pos hfull]
      rfl
    | some g =>
      have hle := h.active_le
      have hsize := h.size
      have hmod : (s.list.length + DNS_PL_ALLOCATE) % 2 ^ 32 = s.list.length + 16 := by
        unfold DNS_PL_ALLOCATE
        omega
      refine .inl (hnew (s.list ++ (range 16).map g) (by simp; omega) (take_append_of_le_length hsize) ?_)
      rw [Ports.room, if_pos hfull, Option.map_some, grow, hmod, if_neg (by omega), Nat.add_sub_cancel_left]
  · exact .inl (hnew s.list (by omega) rfl (if_neg hfull))

theorem Inv.remove (h : Inv s S) (hrem : Removable s af port) :
    ∃ s', remove s af port = .ok s' ∧ Inv s' (S.put af port false) := by
  obtain ⟨k, hk, ha, hfind, rfl, hflags⟩ | ⟨hfind, hzero⟩ := h.find port
  · have hput : (S.put af s.list[k].port false).flags s.list[k].port = s.list[k].flags &&& ~~~af.flag := by
      rw [Pairs.flags_put_false, hflags]
    by_cases hf : s.list[k].flags &&& ~~~af.flag = 0
    · obtain ⟨hlast, hroom⟩ := hrem k _ ha (getElem?_eq_getElem hk) rfl hf
      refine ⟨_, ?_, h.drop hk hlast (hput.trans hf) s.list[s.active]⟩
      rw [Portlist.remove, hfind]
      show (read s.list k >>= _) = _
      rw [read_eq hk]
      refine (if_pos hf).trans ?_
      rw [read_eq hroom, show k = s.active - 1 by omega]
      rfl
    refine ⟨_, ?_, h.set hk ha hput hf⟩
    rw [Portlist.remove, hfind]
    show (read s.list k >>= _) = _
    rw [read_eq hk]
    exact if_neg hf
  have hsame : S.put af port false = S := by
    have hfalse : S af port = false := by
      rw [← Pairs.flags_and S, hzero]
      cases af <;> rfl
    rw [Pairs.put, show false = S af port from hfalse.symm, update_eq_self, update_eq_self]
  refine ⟨s, ?_, hsame.symm ▸ h⟩
  rw [Portlist.remove, hfind]
  rfl

theorem Inv.portlistMatch (h : Inv s S) (af : Af) (port : UInt16) : portlistMatch s af port = .ok (S af port) := by
  obtain ⟨k, hk, -, hfind, rfl, hflags⟩ | ⟨hfind, hzero⟩ := h.find port
  · rw [Portlist.portlistMatch, hfind]
    show (read s.list k >>= _) = _
    rw [read_eq hk, ← Pairs.flags_and S, ← hflags]
    rfl
  · rw [Portlist.portlistMatch, hfind, ← Pairs.flags_and S, hzero]
    cases af <;> rfl

theorem Run.inv (h : Run s S) : Inv s S := by
  induction h with
  | create =>
    constructor
    · exact le_refl _
    · exact Pairwise.nil
    · intro e he
      cases he
    · intro p
      simp [Portlist.create, Pairs.flags]
  | add _ hadd ih =>
    obtain ⟨s'', hok, hinv⟩ | ⟨hno, -⟩ := ih.add _ _ _
    · rw [hok] at hadd
      cases hadd
      exact hinv
    · rw [hno] at hadd
      cases hadd
  | nomemory _ hadd ih =>
    obtain ⟨s'', hok, hinv⟩ | ⟨hno, -⟩ := ih.add _ _ _
    · rw [hok] at hadd
      cases hadd
    rw [hno] at hadd
    cases hadd
    exact ih
  | remove _ hrem hremove ih =>
    obtain ⟨s'', hok, hinv⟩ := ih.remove hrem
    rw [hok] at hremove
    cases hremove
    exact hinv

/-- The search is right on every sorted array, and a list is the set of its pairs in every run whose
removals empty no entry but the last one. -/
theorem portlist_exact (h : Run s S) (hr : Rising list len) (hpos : 0 < len) (port : UInt16) :
    (∃ r, findPort list len port = .ok r ∧ Finds list len port r) ∧ Exact s S := by
  refine ⟨findPort_finds hr hpos port, ?_⟩
  have hinv := h.inv
  constructor
  · exact hinv.sorted
  · intro e he
    rw [hinv.flags e he, ← hinv.mem]
    exact mem_map_of_mem he
  · exact hinv.portlistMatch
  · intro af port mem
    obtain ⟨s', hok, -⟩ | ⟨hno, hmem⟩ := hinv.add af port mem
    · exact ⟨_, s', hok, fun h => by cases h⟩
    · exact ⟨_, s, hno, fun _ => hmem⟩
  · intro af port hrem
    obtain ⟨s', hok, -⟩ := hinv.remove hrem
    exact ⟨s', hok⟩

/-- An array of 16 entries of which the first ones are active. -/
def ports (active : List Element) : Ports := ⟨active ++ replicate (16 - active.length) ⟨0, 0⟩, active.length⟩

theorem portlist_exact_four : ∃ S, Run (ports [⟨53, 1⟩, ⟨80, 1⟩, ⟨123, 1⟩]) S ∧
    Exact (ports [⟨53, 1⟩, ⟨80, 1⟩, ⟨123, 1⟩]) S ∧ S .inet 53 = true ∧ S .inet6 53 = false ∧ S .inet 5353 = false ∧
    ∀ port ∈ [(53 : UInt16), 123, 100], ∃ r, findPort (ports [⟨53, 1⟩, ⟨80, 1⟩, ⟨123, 1⟩]).list 3 port = .ok r ∧
        Finds (ports [⟨53, 1⟩, ⟨80, 1⟩, ⟨123, 1⟩]).list 3 port r := by
  have h1 : Run (ports [⟨80, 1⟩]) _ := @Run.add _ _ _ .inet 80 (some fun _ => ⟨0, 0⟩) .create rfl
  have h2 : Run (ports [⟨53, 1⟩, ⟨80, 1⟩]) _ := @Run.add _ _ _ .inet 53 none h1 rfl
  have h3 : Run (ports [⟨53, 3⟩, ⟨80, 1⟩]) _ := @Run.add _ _ _ .inet6 53 none h2 rfl
  have h4 : Run (ports [⟨53, 3⟩, ⟨80, 1⟩, ⟨5353, 1⟩]) _ := @Run.add _ _ _ .inet 5353 none h3 rfl
  have h5 : Run (ports [⟨53, 3⟩, ⟨80, 1⟩, ⟨123, 1⟩, ⟨5353, 1⟩]) _ := @Run.add _ _ _ .inet 123 none h4 rfl
  have hflag : ∀ k < 4, ∀ e ∈ (ports [⟨53, 3⟩, ⟨80, 1⟩, ⟨123, 1⟩, ⟨5353, 1⟩]).list[k]?, e.port = 53 →
      e.flags &&& ~~~Af.inet6.flag = 0 → k + 1 = 4 ∧ 4 < 16 := by decide
  have h6 : Run (ports [⟨53, 1⟩, ⟨80, 1⟩, ⟨123, 1⟩, ⟨5353, 1⟩]) _ :=
    @Run.remove _ _ _ .inet6 53 h5 (fun k e hk he => hflag k hk e he) rfl
  have hlast : ∀ k < 4, ∀ e ∈ (ports [⟨53, 1⟩, ⟨80, 1⟩, ⟨123, 1⟩, ⟨5353, 1⟩]).list[k]?, e.port = 5353 →
      e.flags &&& ~~~Af.inet.flag = 0 → k + 1 = 4 ∧ 4 < 16 := by decide
  have h7 : Run (ports [⟨53, 1⟩, ⟨80, 1⟩, ⟨123, 1⟩]) _ :=
    @Run.remove _ _ _ .inet 5353 h6 (fun k e hk he => hlast k hk e he) rfl
  have hrising : Rising (ports [⟨53, 1⟩, ⟨80, 1⟩, ⟨123, 1⟩]).list 3 := by
    refine ⟨by decide, fun i j hij hj => ?_⟩
    have hle : ∀ j < 3, ∀ i < j, portAt (ports [⟨53, 1⟩, ⟨80, 1⟩, ⟨123, 1⟩]).list i ≤
        portAt (ports [⟨53, 1⟩, ⟨80, 1⟩, ⟨123, 1⟩]).list j := by decide
    exact hle j hj i hij
  exact ⟨_, h7, (portlist_exact h7 hrising (by decide) 53).2, by decide, by decide, by decide,
    fun port _ => (portlist_exact h7 hrising (by decide) port).1⟩

/-- Of two ports, the smaller one is removed and the larger one is gone. -/
theorem remove_loses :
    (do
      let (_, s) ← add create .inet 1 (some fun _ => ⟨0, 0⟩)
      let (_, s) ← add s .inet 2 none
      let s ← remove s .inet 1
      portlistMatch s .inet 2) = .ok false := by
  decide

end Bind9.Portlist
