import Mathlib.Data.List.TakeWhile
import Bind9.IscccFromwire

/-! # Messages of the control channel that are written

`isccc_cc_towire` of `lib/isccc/cc.c`, with `isccc_alist_delete`, and what `isccc_cc_fromwire` makes of its messages.  A write
outside the target region is an `Exit` of the model.

Each function that writes is described by `Emits`: the bytes that it writes where there is space for them.  The bytes are those of
the format that is read (`wire_value`). -/

namespace Bind9.Isccc

open List hiding Vector
open Option hiding bind_congr mem_map mem_map_of_mem

/-! ### Writing -/

/-- `ISC_R_NOSPACE`, and the exits of the other modules. -/
inductive SendExit where
  | exit (e : Exit)
  | nospace
deriving DecidableEq, Repr

/-- The target region: the bytes up to `rstart`, and its size. -/
structure Target where
  written : Region
  size : ℕ
deriving DecidableEq, Repr

/-- `REGION_SIZE` of what is left. -/
def Target.left (t : Target) : ℕ := (t.size - t.written.length) % 2 ^ 32

/-- `PUT8`, `PUT32` and `PUT_MEM`. -/
def Target.put (t : Target) (bs : Region) : Except SendExit Target :=
  if t.written.length + bs.length ≤ t.size then .ok { t with written := t.written ++ bs } else .error (.exit .overrun)

/-- Bytes in front of `rstart` are written again. -/
def Target.patch (t : Target) (offset : ℕ) (bs : Region) : Except SendExit Target :=
  if offset + bs.length ≤ t.written.length then
    .ok { t with written := t.written.take offset ++ bs ++ t.written.drop (offset + bs.length) }
  else .error (.exit .overrun)

/-- A type, a placeholder for the length, what `emit` writes, and then the length. -/
def putCounted (msgtype : ℕ) (emit : Target → Except SendExit Target) (t : Target) : Except SendExit Target := do
  if t.left < 1 + 4 then throw .nospace
  let t ← t.put [UInt8.ofNat msgtype]
  let lenp := t.written.length
  let t ← t.put (uint32Bytes 0)
  let t ← emit t
  let len := t.written.length - lenp
  if len < 4 then throw (.exit .assertion)
  t.patch lenp (uint32Bytes (len - 4))

mutual

/-- `value_towire`.  The first turn of the loop of `list_towire` stands here. -/
def valueTowire : Sexpr → Target → Except SendExit Target
  | .binary r, t => do
    let len := regionSize r
    if t.left < 1 + 4 + len then throw .nospace
    let t ← t.put [UInt8.ofNat ccmsgtypeBinarydata]
    let t ← t.put (uint32Bytes len)
    if t.left < len then throw .nospace
    t.put (r.take len)
  | .pair car cdr, t =>
    if alistp (.pair car cdr) then putCounted ccmsgtypeTable (tableElements cdr) t
    else putCounted ccmsgtypeList (fun t => do listTowire cdr (← valueTowire car t)) t
  | .null, t => putCounted ccmsgtypeList (fun t => .ok t) t
  | .string _, t => .ok t

def tableElements : Sexpr → Target → Except SendExit Target
  | .null, t => .ok t
  | .pair (.pair k v) cdr, t => do
    let ks ← (sexprTostring k).mapError .exit
    let len := ks.length
    if 255 < len then throw (.exit .assertion)
    if t.left < 1 + len then throw .nospace
    let t ← t.put [UInt8.ofNat len]
    let t ← t.put ks
    let t ← valueTowire v t
    tableElements cdr t
  | _, _ => .error (.exit .access)

def listTowire : Sexpr → Target → Except SendExit Target
  | .null, t => .ok t
  | .pair car cdr, t => do
    let t ← valueTowire car t
    listTowire cdr t
  | _, _ => .error (.exit .access)

end

def tableTowire (alist : Sexpr) (t : Target) : Except SendExit Target := do
  (insist (alistp alist)).mapError .exit
  let elt ← (cdr alist).mapError .exit
  tableElements elt t

def deleteLoop (key : Bytes) : Sexpr → Except Exit Sexpr
  | .null => .ok .null
  | .pair (.pair (.string s) v) cdr =>
    if s = key then .ok cdr else do return .pair (.pair (.string s) v) (← deleteLoop key cdr)
  | .pair (.pair .null _) _ => .error .access
  | .pair (.pair k v) cdr => do return .pair (.pair k v) (← deleteLoop key cdr)
  | _ => .error .assertion

def alistDelete (alist : Sexpr) (key : Bytes) : Except Exit Sexpr := do
  insist (alistp alist)
  match alist with
  | .pair tag cdr => return .pair tag (← deleteLoop key cdr)
  | _ => throw .access

def authHmd5 : Region :=
  [0x05, 0x5f, 0x61, 0x75, 0x74, 0x68, UInt8.ofNat ccmsgtypeTable, 0, 0, 0, 0x20, 0x04, 0x68, 0x6d, 0x64, 0x35,
    UInt8.ofNat ccmsgtypeBinarydata, 0, 0, 0, 0x16] ++ replicate 22 0

def hmd5Offset : ℕ := 21

def hmd5Length : ℕ := 22

/-- `sign`.  The length of the data is an `unsigned int`. -/
def sign (hmac : HmacMd5) (data : Region) (hmd5 : ℕ) (secret : Region) (t : Target) : Except SendExit Target :=
  let digestb64 := base64Totext (hmac secret (data.take (data.length % 2 ^ 32))).toList
  t.patch hmd5 (digestb64.take hmd5Length)

def ccTowire (hmac : HmacMd5) (alist : Sexpr) (t : Target) (secret : Option Region) : Except SendExit Target := do
  if t.left < 4 + authHmd5.length then throw .nospace
  let t ← t.put (uint32Bytes 1)
  let hmd5 := t.written.length + hmd5Offset
  let t ← if secret.isSome then t.put authHmd5 else .ok t
  let signed := t.written.length
  let alist ← (alistDelete alist (text "_auth")).mapError .exit
  let t ← tableTowire alist t
  match secret with
  | none => return t
  | some key => sign hmac (t.written.drop signed) hmd5 key t

/-! ### The bytes that are written -/

mutual

/-- The bytes of a value. -/
def wire : Sexpr → Region
  | .binary r => header ccmsgtypeBinarydata r
  | .pair car cdr =>
    if alistp (.pair car cdr) then header ccmsgtypeTable (wireElements cdr) else header ccmsgtypeList (wire car ++ wireList cdr)
  | .null => header ccmsgtypeList []
  | .string _ => []

/-- The bytes of the elements of a table. -/
def wireElements : Sexpr → Region
  | .pair (.pair (.string k) v) cdr => UInt8.ofNat k.length :: (k ++ (wire v ++ wireElements cdr))
  | _ => []

/-- The bytes of the values of a list. -/
def wireList : Sexpr → Region
  | .pair car cdr => wire car ++ wireList cdr
  | _ => []

end

/-- The target with more bytes written. -/
def Target.add (t : Target) (bs : Region) : Target := { t with written := t.written ++ bs }

/-- Where there is space, these bytes are written, and otherwise the result is `ISC_R_NOSPACE`. -/
def Emits (emit : Target → Except SendExit Target) (bs : Region) : Prop :=
  ∀ t : Target, t.written.length ≤ t.size → emit t = if bs.length ≤ t.left then .ok (t.add bs) else .error .nospace

section emits

variable {t : Target} {a b bs : Region} {emit f g : Target → Except SendExit Target}

theorem Target.add_length (t : Target) (bs : Region) : (t.add bs).written.length = t.written.length + bs.length := length_append

@[simp] theorem Target.add_size (t : Target) (bs : Region) : (t.add bs).size = t.size := rfl

theorem Target.add_add (t : Target) (a b : Region) : (t.add a).add b = t.add (a ++ b) := by
  rw [Target.add, Target.add, Target.add, append_assoc]

/-- What is written where there is space stays in the region. -/
theorem Target.add_within (ht : t.written.length ≤ t.size) (hbs : bs.length ≤ t.left) : (t.add bs).written.length ≤ (t.add bs).size := by
  rw [Target.left] at hbs
  rw [Target.add_length]
  show t.written.length + bs.length ≤ t.size
  omega

theorem Target.left_add (ht : t.written.length ≤ t.size) (hbs : bs.length ≤ t.left) : (t.add bs).left = t.left - bs.length := by
  have hwithin := Target.add_within ht hbs
  rw [Target.left] at hbs
  rw [Target.left, Target.left]
  rw [Target.add_length] at hwithin ⊢
  have hsize : (t.add bs).size = t.size := rfl
  rw [hsize] at hwithin ⊢
  omega

theorem Target.put_add (ht : t.written.length ≤ t.size) (hbs : bs.length ≤ t.left) : t.put bs = .ok (t.add bs) := by
  have hwithin := Target.add_within ht hbs
  rw [Target.add_length, Target.add_size] at hwithin
  rw [Target.put, if_pos hwithin]
  rfl

/-- Two writes with space for both. -/
theorem Target.put_put {β : Type} (ht : t.written.length ≤ t.size) (hab : a.length + b.length ≤ t.left)
    (k : Target → Target → Except SendExit β) :
    (t.put a >>= fun t1 => t1.put b >>= fun t2 => k t1 t2) = k (t.add a) (t.add (a ++ b)) := by
  have ha : a.length ≤ t.left := by omega
  have hb : b.length ≤ (t.add a).left := by
    rw [Target.left_add ht ha]
    omega
  rw [Target.put_add ht ha, ok_then, Target.put_add (Target.add_within ht ha) hb, ok_then, Target.add_add]

theorem Emits.nil : Emits (fun t => .ok t) [] := by
  intro t _
  rw [length_nil, if_pos (Nat.zero_le _), Target.add, append_nil]

/-- One after the other. -/
theorem Emits.append (hf : Emits f a) (hg : Emits g b) : Emits (fun t => f t >>= g) (a ++ b) := by
  intro t ht
  show f t >>= g = _
  rw [hf t ht, length_append]
  by_cases ha : a.length ≤ t.left
  · rw [if_pos ha, ok_then, hg _ (Target.add_within ht ha), Target.left_add ht ha, Target.add_add]
    by_cases hb : b.length ≤ t.left - a.length
    · rw [if_pos hb, if_pos (by omega)]
    · rw [if_neg hb, if_neg (by omega)]
  · rw [if_neg ha, if_neg (by omega)]
    rfl

/-- Writing over the bytes behind the first ones. -/
theorem Target.patch_add (t : Target) {x y : Region} (hxy : x.length = y.length) (bs : Region) :
    ((t.add x).add bs).patch t.written.length y = .ok ((t.add y).add bs) := by
  rw [Target.patch, Target.add_length, Target.add_length, if_pos (by omega)]
  simp only [Target.add, append_assoc]
  rw [take_left, ← hxy, ← drop_drop, drop_left, drop_left]

/-- The placeholder is replaced by the length. -/
theorem Emits.counted (h : Emits emit bs) (msgtype : ℕ) : Emits (putCounted msgtype emit) (header msgtype bs) := by
  intro t ht
  rw [length_header, putCounted]
  by_cases hfive : t.left < 1 + 4
  · rw [if_pos hfive, if_neg (by omega)]
    rfl
  have hspace : [UInt8.ofNat msgtype].length + (uint32Bytes 0).length ≤ t.left := not_lt.1 hfive
  have hspace' : ([UInt8.ofNat msgtype] ++ uint32Bytes 0).length ≤ t.left := not_lt.1 hfive
  rw [if_neg hfive, Target.put_put ht hspace, h _ (Target.add_within ht hspace'), Target.left_add ht hspace']
  have hlength : ([UInt8.ofNat msgtype] ++ uint32Bytes 0).length = 5 := rfl
  rw [hlength]
  by_cases hbs : bs.length ≤ t.left - 5
  · have hlen : ((t.add ([UInt8.ofNat msgtype] ++ uint32Bytes 0)).add bs).written.length - (t.add [UInt8.ofNat msgtype]).written.length =
        4 + bs.length := by
      rw [Target.add_length, Target.add_length, Target.add_length, hlength]
      show t.written.length + 5 + bs.length - (t.written.length + 1) = 4 + bs.length
      omega
    rw [if_pos hbs, if_pos (by omega), ok_then]
    rw [hlen, if_neg (by omega), Nat.add_sub_cancel_left, ← Target.add_add,
      Target.patch_add _ (show (uint32Bytes 0).length = (uint32Bytes bs.length).length from rfl), Target.add_add, Target.add_add]
    rfl
  · rw [if_neg hbs, if_neg (by omega)]
    rfl

theorem Emits.binary {r : Region} (hr : r.length < 2 ^ 32) : Emits (valueTowire (.binary r)) (wire (.binary r)) := by
  intro t ht
  rw [valueTowire, wire, length_header, regionSize_of_lt hr]
  by_cases hspace : t.left < 1 + 4 + r.length
  · rw [if_pos hspace, if_neg (by omega)]
    rfl
  have hfive : [UInt8.ofNat ccmsgtypeBinarydata].length + (uint32Bytes r.length).length ≤ t.left := by
    show 1 + 4 ≤ t.left
    omega
  have hfive' : ([UInt8.ofNat ccmsgtypeBinarydata] ++ uint32Bytes r.length).length ≤ t.left := hfive
  have hlength : ([UInt8.ofNat ccmsgtypeBinarydata] ++ uint32Bytes r.length).length = 5 := rfl
  have hleft : (t.add ([UInt8.ofNat ccmsgtypeBinarydata] ++ uint32Bytes r.length)).left = t.left - 5 := by
    rw [Target.left_add ht hfive', hlength]
  rw [if_neg hspace, Target.put_put ht hfive, hleft, if_neg (by omega), take_length,
    Target.put_add (Target.add_within ht hfive') (by rw [hleft]; omega), Target.add_add, if_pos (by omega)]
  rfl

theorem Emits.element {k : Bytes} {v cdr : Sexpr} (hk : k.length ≤ 255) (hv : Emits (valueTowire v) (wire v))
    (hcdr : Emits (tableElements cdr) (wireElements cdr)) :
    Emits (tableElements (.pair (.pair (.string k) v) cdr)) (wireElements (.pair (.pair (.string k) v) cdr)) := by
  intro t ht
  have hrest := hv.append hcdr
  have hlength : (wireElements (.pair (.pair (.string k) v) cdr)).length = 1 + k.length + (wire v ++ wireElements cdr).length := by
    rw [wireElements, length_cons, length_append]
    omega
  have hkey : tableElements (.pair (.pair (.string k) v) cdr) t =
      if t.left < 1 + k.length then .error .nospace
      else t.put [UInt8.ofNat k.length] >>= fun t1 => t1.put k >>= fun t2 => valueTowire v t2 >>= tableElements cdr := by
    rw [tableElements]
    show (if 255 < k.length then _ else _) = _
    rw [if_neg (by omega)]
    rfl
  rw [hkey, hlength]
  by_cases hspace : t.left < 1 + k.length
  · rw [if_pos hspace, if_neg (by omega)]
  have hspace' : ([UInt8.ofNat k.length] ++ k).length ≤ t.left := by
    rw [length_append]
    exact not_lt.1 hspace
  have hadd : ([UInt8.ofNat k.length] ++ k).length = 1 + k.length := length_append
  rw [if_neg hspace, Target.put_put ht (show [UInt8.ofNat k.length].length + k.length ≤ t.left from not_lt.1 hspace)]
  have hrun : (valueTowire v (t.add ([UInt8.ofNat k.length] ++ k)) >>= tableElements cdr) = _ := hrest _ (Target.add_within ht hspace')
  rw [hrun, Target.left_add ht hspace', hadd, Target.add_add]
  by_cases hfit : (wire v ++ wireElements cdr).length ≤ t.left - (1 + k.length)
  · rw [if_pos hfit, if_pos (by omega)]
    rw [wireElements]
    rfl
  · rw [if_neg hfit, if_neg (by omega)]

end emits

/-! ### The messages -/

/-- What a message is made of: binary values, association lists with different keys, and lists.  A binary value is a copy of
`REGION_SIZE` bytes. -/
inductive Sendable : Sexpr → Prop
  | binary {r : Region} : r.length < 2 ^ 32 → Sendable (.binary r)
  | table {kvs : List (Bytes × Sexpr)} : (kvs.map Prod.fst).Nodup → (∀ e ∈ kvs, e.1.length ≤ 255 ∧ 0 ∉ e.1) →
      (∀ e ∈ kvs, Sendable e.2) → Sendable (alistOf kvs)
  | list {vs : List Sexpr} : (∀ v ∈ vs, Sendable v) → Sendable (listOf vs)

variable {x : Sexpr}

theorem Sendable.ne_string (h : Sendable x) (s : Bytes) : x ≠ .string s := by
  cases h with
  | binary _ | table _ _ _ => exact Sexpr.noConfusion
  | @list vs _ => cases vs <;> exact Sexpr.noConfusion

variable {vs : List Sexpr}

theorem alistp_listOf (h : ∀ v ∈ vs, Sendable v) : alistp (listOf vs) = false := by
  cases vs with
  | nil => rfl
  | cons v vs =>
    have hv := (h v mem_cons_self).ne_string
    cases v with
    | string s => exact absurd rfl (hv s)
    | null => rfl
    | pair _ _ => rfl
    | binary _ => rfl

theorem wire_listOf (h : ∀ v ∈ vs, Sendable v) : wire (listOf vs) = header ccmsgtypeList (wireList (listOf vs)) := by
  have hlist := alistp_listOf h
  cases vs with
  | nil => rfl
  | cons v vs =>
    rw [listOf] at hlist
    rw [listOf, wire, hlist, if_neg Bool.false_ne_true, wireList]

theorem wire_alistOf (kvs : List (Bytes × Sexpr)) : wire (alistOf kvs) = header ccmsgtypeTable (wireElements (listOf (kvs.map kvOf))) := by
  have htag : alistp (alistOf kvs) = true := beq_self_eq_true alistTag
  rw [alistOf, listOf] at htag
  rw [alistOf, listOf, wire, htag, if_pos rfl]

theorem Emits.elements {kvs : List (Bytes × Sexpr)} (hkeys : ∀ e ∈ kvs, e.1.length ≤ 255 ∧ 0 ∉ e.1)
    (h : ∀ e ∈ kvs, Emits (valueTowire e.2) (wire e.2)) :
    Emits (tableElements (listOf (kvs.map kvOf))) (wireElements (listOf (kvs.map kvOf))) := by
  induction kvs with
  | nil => exact Emits.nil
  | cons e kvs ih =>
    obtain ⟨hkey, hkeys⟩ := forall_mem_cons.1 hkeys
    obtain ⟨he, h⟩ := forall_mem_cons.1 h
    exact Emits.element hkey.1 he (ih hkeys h)

theorem Emits.values (h : ∀ v ∈ vs, Emits (valueTowire v) (wire v)) :
    Emits (listTowire (listOf vs)) (wireList (listOf vs)) := by
  induction vs with
  | nil => exact Emits.nil
  | cons v vs ih =>
    obtain ⟨hv, h⟩ := forall_mem_cons.1 h
    exact hv.append (ih h)

/-- By induction on the value. -/
theorem Sendable.emits (h : Sendable x) : Emits (valueTowire x) (wire x) := by
  induction h with
  | binary hr => exact Emits.binary hr
  | @table kvs _ hkeys _ ih =>
    have htag : alistp (alistOf kvs) = true := beq_self_eq_true alistTag
    have hrun : valueTowire (alistOf kvs) = putCounted ccmsgtypeTable (tableElements (listOf (kvs.map kvOf))) := by
      funext t
      rw [alistOf, listOf] at htag ⊢
      rw [valueTowire, htag, if_pos rfl]
    rw [hrun, wire_alistOf]
    exact (Emits.elements hkeys ih).counted ccmsgtypeTable
  | @list vs hvs ih =>
    have hlist := alistp_listOf hvs
    have hrun : valueTowire (listOf vs) = putCounted ccmsgtypeList (listTowire (listOf vs)) := by
      funext t
      cases vs with
      | nil => rfl
      | cons v vs =>
        rw [listOf] at hlist ⊢
        rw [valueTowire, hlist, if_neg Bool.false_ne_true]
        rfl
    rw [hrun, wire_listOf hvs]
    exact (Emits.values ih).counted ccmsgtypeList

theorem cstr_of_not_mem {k : Bytes} (h : 0 ∉ k) : cstr k = k := by
  rw [cstr, takeWhile_eq_self_iff]
  intro c hc
  rw [decide_eq_true_eq]
  rintro rfl
  exact h hc

theorem getKey_eq_none {key : Bytes} {kvs : List (Bytes × Sexpr)} (h : ∀ e ∈ kvs, e.1 ≠ key) : getKey key kvs = none := by
  induction kvs with
  | nil => rfl
  | cons d kvs ih =>
    obtain ⟨hd, h⟩ := forall_mem_cons.1 h
    rw [getKey, if_neg hd]
    exact ih h

/-- Different keys are kept in their order. -/
theorem foldl_setKey_nodup (kvs es : List (Bytes × Sexpr)) (h : ((kvs ++ es).map Prod.fst).Nodup) :
    es.foldl setKey kvs = kvs ++ es := by
  induction es generalizing kvs with
  | nil => exact (append_nil kvs).symm
  | cons e es ih =>
    have hnone : getKey e.1 kvs = none := getKey_eq_none (fun d hd heq => by
      rw [map_append, map_cons] at h
      exact (nodup_append'.1 h).2.2 (mem_map_of_mem hd) (heq ▸ mem_cons_self))
    rw [foldl_cons, setKey_of_getKey_none hnone, ih (kvs ++ [e]) (by rwa [append_assoc]), append_assoc]
    rfl

theorem tableOf_nodup {kvs : List (Bytes × Sexpr)} (h : (kvs.map Prod.fst).Nodup) : tableOf kvs = alistOf kvs := by
  rw [tableOf, foldl_setKey_nodup [] kvs h, nil_append]

theorem elements_wire {kvs : List (Bytes × Sexpr)} (hkeys : ∀ e ∈ kvs, e.1.length ≤ 255 ∧ 0 ∉ e.1)
    (h : ∀ e ∈ kvs, (wire e.2).length < 2 ^ 32 → Value (wire e.2) e.2) (hlen : (wireElements (listOf (kvs.map kvOf))).length < 2 ^ 32) :
    Elements (wireElements (listOf (kvs.map kvOf))) kvs := by
  induction kvs with
  | nil => exact Elements.nil
  | cons e kvs ih =>
    obtain ⟨hkey, hkeys⟩ := forall_mem_cons.1 hkeys
    obtain ⟨he, h⟩ := forall_mem_cons.1 h
    rw [map_cons, listOf, kvOf, wireElements] at hlen ⊢
    simp only [length_cons, length_append] at hlen
    have hcons := Elements.cons hkey.1 (he (by omega)) (ih hkeys h (by omega))
    rw [cstr_of_not_mem hkey.2] at hcons
    exact hcons

theorem values_wire (h : ∀ v ∈ vs, (wire v).length < 2 ^ 32 → Value (wire v) v)
    (hlen : (wireList (listOf vs)).length < 2 ^ 32) : Values (wireList (listOf vs)) vs := by
  induction vs with
  | nil => exact Values.nil
  | cons v vs ih =>
    obtain ⟨hv, h⟩ := forall_mem_cons.1 h
    rw [listOf, wireList] at hlen ⊢
    rw [length_append] at hlen
    exact Values.cons (hv (by omega)) (ih h (by omega))

/-- What is written is in the format that is read. -/
theorem wire_value (h : Sendable x) (hlen : (wire x).length < 2 ^ 32) : Value (wire x) x := by
  induction h with
  | binary hr => exact Value.binary hr
  | @table kvs hnodup hkeys _ ih =>
    rw [wire_alistOf, length_header] at hlen
    rw [wire_alistOf, ← tableOf_nodup hnodup]
    exact Value.table (by omega) (elements_wire hkeys ih (by omega))
  | @list vs hvs ih =>
    rw [wire_listOf hvs, length_header] at hlen
    rw [wire_listOf hvs]
    exact Value.list (by omega) (values_wire ih (by omega))

theorem alistDelete_alistOf {kvs : List (Bytes × Sexpr)} {key : Bytes} (h : ∀ e ∈ kvs, e.1 ≠ key) :
    alistDelete (alistOf kvs) key = .ok (alistOf kvs) := by
  have hloop : deleteLoop key (listOf (kvs.map kvOf)) = .ok (listOf (kvs.map kvOf)) := by
    induction kvs with
    | nil => rfl
    | cons e kvs ih =>
      obtain ⟨he, h⟩ := forall_mem_cons.1 h
      rw [map_cons, listOf, kvOf, deleteLoop, if_neg he, ih h]
      rfl
  have htag : alistp (alistOf kvs) = true := beq_self_eq_true alistTag
  rw [alistOf, listOf] at htag
  rw [alistOf, listOf, alistDelete, htag, hloop]
  rfl

theorem tableTowire_alistOf (kvs : List (Bytes × Sexpr)) : tableTowire (alistOf kvs) = tableElements (listOf (kvs.map kvOf)) := by
  have htag : alistp (alistOf kvs) = true := beq_self_eq_true alistTag
  funext t
  rw [tableTowire, htag]
  rfl

/-! ### The signature -/

theorem base64Char_ne_zero : ∀ i < 64, base64Char i ≠ 0 := by decide +kernel

theorem base64Totext_spec (bs : Bytes) : (base64Totext bs).length = 4 * ((bs.length + 2) / 3) ∧ 0 ∉ base64Totext bs := by
  induction bs using base64Totext.induct with
  | case1 a b c rest ih =>
    have ha := a.toNat_lt
    have hb := b.toNat_lt
    have hc := c.toNat_lt
    rw [base64Totext]
    refine ⟨?_, ?_⟩
    · simp only [length_cons, ih.1]
      omega
    · simp only [mem_cons, not_or]
      exact ⟨(base64Char_ne_zero _ (by omega)).symm, (base64Char_ne_zero _ (by omega)).symm, (base64Char_ne_zero _ (by omega)).symm,
        (base64Char_ne_zero _ (by omega)).symm, ih.2⟩
  | case2 a b =>
    have ha := a.toNat_lt
    have hb := b.toNat_lt
    rw [base64Totext, show text "=" = [61] by decide +kernel]
    refine ⟨by simp, ?_⟩
    simp only [mem_cons, not_or]
    exact ⟨(base64Char_ne_zero _ (by omega)).symm, (base64Char_ne_zero _ (by omega)).symm, (base64Char_ne_zero _ (by omega)).symm,
      by decide, not_mem_nil⟩
  | case3 a =>
    have ha := a.toNat_lt
    rw [base64Totext, show text "==" = [61, 61] by decide +kernel]
    refine ⟨by simp, ?_⟩
    simp only [mem_cons, not_or]
    exact ⟨(base64Char_ne_zero _ (by omega)).symm, (base64Char_ne_zero _ (by omega)).symm, by decide, by decide, not_mem_nil⟩
  | case4 => exact ⟨rfl, not_mem_nil⟩

variable (hmac : HmacMd5)

theorem digestText_spec (secret data : Region) :
    (digestText hmac secret data).length = hmd5Length ∧ 0 ∉ digestText hmac secret data ∧
      digestText hmac secret data = (base64Totext (hmac secret data).toList).take hmd5Length := by
  obtain ⟨hlen, hnul⟩ := base64Totext_spec (hmac secret data).toList
  rw [Vector.length_toList] at hlen
  have htake : digestText hmac secret data = (base64Totext (hmac secret data).toList).take hmd5Length := by
    show (base64Totext (hmac secret data).toList).take ((base64Totext (hmac secret data).toList).length - 2) = _
    rw [hlen]
    rfl
  refine ⟨?_, ?_, htake⟩
  · rw [htake, length_take, hlen]
    rfl
  · rw [htake]
    exact fun h => hnul (mem_of_mem_take h)

/-! ### The round trip -/

theorem listOf_injective {vs ws : List Sexpr} (h : listOf vs = listOf ws) : vs = ws := by
  induction vs generalizing ws with
  | nil =>
    cases ws with
    | nil => rfl
    | cons w ws => cases h
  | cons v vs ih =>
    cases ws with
    | nil => cases h
    | cons w ws =>
      obtain ⟨rfl, hrest⟩ := Sexpr.pair.inj h
      rw [ih hrest]

theorem kvOf_injective : Function.Injective kvOf := by
  intro d e h
  obtain ⟨hkey, hvalue⟩ := Sexpr.pair.inj h
  exact Prod.ext (Sexpr.string.inj hkey) hvalue

theorem Sendable.table_cases {kvs : List (Bytes × Sexpr)} (h : Sendable (alistOf kvs)) :
    (kvs.map Prod.fst).Nodup ∧ (∀ e ∈ kvs, e.1.length ≤ 255 ∧ 0 ∉ e.1) ∧ ∀ e ∈ kvs, Sendable e.2 := by
  generalize hx : alistOf kvs = x at h
  cases h with
  | binary _ => cases hx
  | @table kvs' hnodup hkeys hvalues =>
    have hcdr := (cons.inj (listOf_injective hx)).2
    obtain rfl := kvOf_injective.list_map hcdr
    exact ⟨hnodup, hkeys, hvalues⟩
  | @list vs hvs =>
    obtain rfl := listOf_injective hx
    exact absurd rfl ((hvs _ mem_cons_self).ne_string alistTag)

/-- The bytes of the elements of an association list. -/
def wireBody (kvs : List (Bytes × Sexpr)) : Region := wireElements (listOf (kvs.map kvOf))

def wireAuth (secret : Option Region) (body : Region) : Region :=
  match secret with
  | none => []
  | some key => authHmd5.take hmd5Offset ++ digestText hmac key body

def authOf (secret : Option Region) (body : Region) : List (Bytes × Sexpr) :=
  match secret with
  | none => []
  | some key => [(text "_auth", alistOf [(text "hmd5", .binary (digestText hmac key body))])]

def message (kvs : List (Bytes × Sexpr)) (secret : Option Region) : Region :=
  uint32Bytes 1 ++ (wireAuth hmac secret (wireBody kvs) ++ wireBody kvs)

section roundtrip

variable {kvs : List (Bytes × Sexpr)} (hmac : HmacMd5)

theorem wireAuth_length (secret : Option Region) (body : Region) :
    (wireAuth hmac secret body).length = if secret.isSome then authHmd5.length else 0 := by
  cases secret with
  | none => rfl
  | some key =>
    rw [wireAuth, length_append, (digestText_spec hmac key body).1]
    rfl

theorem mapError_ok {α : Type} (a : α) : Except.mapError SendExit.exit (.ok a) = .ok a := rfl

theorem ccTowire_none (hauth : ∀ e ∈ kvs, e.1 ≠ text "_auth") (t : Target) :
    ccTowire hmac (alistOf kvs) t none =
      if t.left < 4 + authHmd5.length then .error .nospace else t.put (uint32Bytes 1) >>= tableElements (listOf (kvs.map kvOf)) := by
  rw [ccTowire]
  simp only [alistDelete_alistOf hauth]
  split
  · rfl
  · refine bind_congr (fun t => ?_)
    simp only [isSome_none, Bool.false_eq_true, if_false, ok_then, mapError_ok, tableTowire_alistOf, bind_pure]

theorem ccTowire_some (hauth : ∀ e ∈ kvs, e.1 ≠ text "_auth") (t : Target) (key : Region) :
    ccTowire hmac (alistOf kvs) t (some key) =
      if t.left < 4 + authHmd5.length then .error .nospace
      else t.put (uint32Bytes 1) >>= fun t1 => t1.put authHmd5 >>= fun t2 => tableElements (listOf (kvs.map kvOf)) t2 >>= fun t3 =>
        sign hmac (t3.written.drop t2.written.length) (t1.written.length + hmd5Offset) key t3 := by
  rw [ccTowire]
  simp only [alistDelete_alistOf hauth]
  split
  · rfl
  · refine bind_congr (fun t => ?_)
    simp only [isSome_some, if_true, ok_then, mapError_ok, tableTowire_alistOf]

/-- The text of the digest is put into its place. -/
theorem sign_add (key : Region) {body : Region} (hbody : body.length < 2 ^ 32) (t : Target) :
    sign hmac body (t.written.length + hmd5Offset) key ((t.add authHmd5).add body) =
      .ok (t.add (wireAuth hmac (some key) body ++ body)) := by
  obtain ⟨hlen, -, htake⟩ := digestText_spec hmac key body
  have hsplit : t.add authHmd5 = (t.add (authHmd5.take hmd5Offset)).add (replicate 22 0) := by
    rw [Target.add_add]
    rfl
  have hoffset : t.written.length + hmd5Offset = (t.add (authHmd5.take hmd5Offset)).written.length := by
    rw [Target.add_length]
    rfl
  have hpatch := Target.patch_add (t.add (authHmd5.take hmd5Offset)) (x := replicate 22 0) (y := digestText hmac key body)
    (by rw [length_replicate, hlen]; rfl) body
  rw [sign, Nat.mod_eq_of_lt hbody, take_length, hsplit, hoffset, ← htake,
    hpatch, Target.add_add, Target.add_add, wireAuth, append_assoc]

/-- The message is written if there is space for it, and for `_auth` in any case. -/
theorem ccTowire_eq (h : Sendable (alistOf kvs)) (hauth : ∀ e ∈ kvs, e.1 ≠ text "_auth") (secret : Option Region)
    (size : ℕ) : ccTowire hmac (alistOf kvs) ⟨[], size⟩ secret =
      if 4 + authHmd5.length ≤ size % 2 ^ 32 ∧ (message hmac kvs secret).length ≤ size % 2 ^ 32 then
        .ok ⟨message hmac kvs secret, size⟩
      else .error .nospace := by
  obtain ⟨-, hkeys, hvalues⟩ := h.table_cases
  have hbody : Emits (tableElements (listOf (kvs.map kvOf))) (wireBody kvs) := Emits.elements hkeys (fun e he => (hvalues e he).emits)
  have hwithin : (Target.written ⟨[], size⟩).length ≤ Target.size ⟨[], size⟩ := Nat.zero_le _
  have hleft : Target.left ⟨[], size⟩ = size % 2 ^ 32 := rfl
  have hfour : (uint32Bytes 1).length = 4 := rfl
  have hmessage : (message hmac kvs secret).length = 4 + ((if secret.isSome then authHmd5.length else 0) + (wireBody kvs).length) := by
    rw [message, length_append, length_append, wireAuth_length]
    rfl
  rw [hmessage]
  cases secret with
  | none =>
    rw [ccTowire_none hmac hauth, hleft]
    by_cases hmin : size % 2 ^ 32 < 4 + authHmd5.length
    · rw [if_pos hmin, if_neg (fun hand => absurd hand.1 (not_le.2 hmin))]
    have hspace : (uint32Bytes 1).length ≤ Target.left ⟨[], size⟩ := by omega
    rw [if_neg hmin, Target.put_add hwithin hspace, ok_then, hbody _ (Target.add_within hwithin hspace),
      Target.left_add hwithin hspace, hleft, hfour]
    simp only [isSome_none, Bool.false_eq_true, if_false]
    by_cases hfit : (wireBody kvs).length ≤ size % 2 ^ 32 - 4
    · rw [if_pos hfit, if_pos (by omega), Target.add_add]
      rfl
    · rw [if_neg hfit, if_neg (by omega)]
  | some key =>
    rw [ccTowire_some hmac hauth, hleft]
    by_cases hmin : size % 2 ^ 32 < 4 + authHmd5.length
    · rw [if_pos hmin, if_neg (fun hand => absurd hand.1 (not_le.2 hmin))]
    have hspace : (uint32Bytes 1).length + authHmd5.length ≤ Target.left ⟨[], size⟩ := by omega
    have hspace' : (uint32Bytes 1 ++ authHmd5).length ≤ Target.left ⟨[], size⟩ := by
      rw [length_append]
      exact hspace
    rw [if_neg hmin, Target.put_put hwithin hspace, hbody _ (Target.add_within hwithin hspace'), Target.left_add hwithin hspace',
      length_append, hleft, hfour]
    simp only [isSome_some, if_true]
    by_cases hfit : (wireBody kvs).length ≤ size % 2 ^ 32 - (4 + authHmd5.length)
    · have hdrop : ((Target.add ⟨[], size⟩ (uint32Bytes 1 ++ authHmd5)).add (wireBody kvs)).written.drop
          (Target.add ⟨[], size⟩ (uint32Bytes 1 ++ authHmd5)).written.length = wireBody kvs := drop_left
      rw [if_pos hfit, if_pos (by omega), ok_then, hdrop, ← Target.add_add, sign_add hmac key (by omega), Target.add_add]
      rfl
    · rw [if_neg hfit, if_neg (by omega)]
      rfl

theorem wireAuth_element (key body : Region) (rest : Region) :
    ∃ v, Value v (alistOf [(text "hmd5", .binary (digestText hmac key body))]) ∧
      wireAuth hmac (some key) body ++ rest = UInt8.ofNat (text "_auth").length :: (text "_auth" ++ (v ++ rest)) := by
  obtain ⟨hlen, -, -⟩ := digestText_spec hmac key body
  have hbinary : Value (header ccmsgtypeBinarydata (digestText hmac key body)) (.binary (digestText hmac key body)) :=
    Value.binary (by rw [hlen]; decide)
  have hcstr : cstr (text "hmd5") = text "hmd5" := by rw [text_hmd5]; decide
  have helement := Elements.cons (show (text "hmd5").length ≤ 255 by rw [text_hmd5]; decide) hbinary Elements.nil
  rw [hcstr, append_nil] at helement
  have hactive : (UInt8.ofNat (text "hmd5").length :: (text "hmd5" ++ header ccmsgtypeBinarydata (digestText hmac key body))).length = 32 := by
    rw [length_cons, length_append, length_header, hlen, text_hmd5]
    rfl
  refine ⟨_, Value.table (by rw [hactive]; decide) helement, ?_⟩
  have hprefix : authHmd5.take hmd5Offset = [0x05, 0x5f, 0x61, 0x75, 0x74, 0x68, 2, 0, 0, 0, 0x20, 0x04, 0x68, 0x6d, 0x64, 0x35,
      1, 0, 0, 0, 0x16] := by decide
  have hlength : uint32Bytes 32 = [0, 0, 0, 0x20] := by decide
  have hlength' : uint32Bytes hmd5Length = [0, 0, 0, 0x16] := by decide
  rw [wireAuth, hprefix, header, hactive, header, hlen, text_hmd5, text_auth, hlength, hlength']
  rfl

theorem ccFromwire_message (h : Sendable (alistOf kvs)) (hauth : ∀ e ∈ kvs, e.1 ≠ text "_auth") (secret : Option Region)
    (hlen : (message hmac kvs secret).length < 2 ^ 32) :
    ccFromwire hmac (message hmac kvs secret) secret = .ok (alistOf (authOf hmac secret (wireBody kvs) ++ kvs)) := by
  obtain ⟨hnodup, hkeys, hvalues⟩ := h.table_cases
  obtain ⟨-, hversion⟩ | ⟨body, hbody, hrun⟩ := version_or_result hmac secret hlen
  · exact absurd rfl (hversion _)
  obtain rfl := append_cancel_left hbody
  rw [message, length_append] at hlen
  have hes : Elements (wireBody kvs) kvs := by
    rw [length_append] at hlen
    exact elements_wire hkeys (fun e he hlen => wire_value (hvalues e he) hlen) (by rw [← wireBody]; omega)
  rw [hrun]
  cases secret with
  | none =>
    have hloop := (((fromwire_spec _).table false (wireBody kvs) [] true none (Nat.lt_succ_self _) (by
      rw [wireAuth, nil_append] at hlen
      omega) rfl).2 _ _).2 ⟨rfl, kvs, hes, rfl⟩
    have hloop' : tableLoop ((wireBody kvs).length + 1) false (wireBody kvs) alistCreate true none = _ := hloop
    rw [wireAuth, nil_append, tableFromwire, isSome_none, hloop', foldl_setKey_nodup [] kvs hnodup]
    rfl
  | some key =>
    obtain ⟨v, hv, hwire⟩ := wireAuth_element hmac key (wireBody kvs) (wireBody kvs)
    have hcstr : cstr (text "_auth") = text "_auth" := by rw [text_auth]; decide
    have hnodup' : (((cstr (text "_auth"), alistOf [(text "hmd5", Sexpr.binary (digestText hmac key (wireBody kvs)))]) :: kvs).map
        Prod.fst).Nodup := by
      rw [map_cons, hcstr]
      refine nodup_cons.2 ⟨fun hmem => ?_, hnodup⟩
      obtain ⟨e, he, heq⟩ := mem_map.1 hmem
      exact hauth e he heq
    have hbody' : (wireBody kvs).length < 2 ^ 32 := by
      rw [length_append] at hlen
      omega
    have hverify : verify hmac (alistOf ((cstr (text "_auth"), alistOf [(text "hmd5", Sexpr.binary (digestText hmac key (wireBody kvs)))]) ::
        kvs)) (wireBody kvs) key = .ok () := by
      rw [verify_alistOf hmac _ hbody', getKey, if_pos hcstr, getD_some, if_neg (by exact Sexpr.noConfusion), alistLookup_alistOf,
        getKey, if_pos rfl, getD_some, ok_then, if_neg (by exact Sexpr.noConfusion), sexprTostring, ok_then,
        cstr_of_not_mem (digestText_spec hmac key (wireBody kvs)).2.1, if_neg (not_not.2 rfl)]
    rw [hwire, tableFromwire_auth hmac key (by rw [text_auth]; decide) hv hes hcstr (by rw [← hwire]; omega), tableOf_nodup hnodup', hverify,
      hcstr]
    rfl

/-- The message is written into a region of this size, and what is read of exactly these bytes is the association list, behind `_auth` if
there is a secret. -/
def RoundTrips (kvs : List (Bytes × Sexpr)) (secret : Option Region) (size : ℕ) : Prop :=
  ∃ bytes, ccTowire hmac (alistOf kvs) ⟨[], size⟩ secret = .ok ⟨bytes, size⟩ ∧
    ccFromwire hmac bytes secret = .ok (alistOf (authOf hmac secret (wireBody kvs) ++ kvs))

/-- Messages are read back.  There has to be space for them in `REGION_SIZE` of the target, and for `_auth` also if there is no secret;
otherwise the result is `ISC_R_NOSPACE`.  A write outside the region would be another exit. -/
theorem cc_roundtrip (kvs : List (Bytes × Sexpr)) (h : Sendable (alistOf kvs))
    (hauth : ∀ e ∈ kvs, e.1 ≠ text "_auth") (secret : Option Region) (size : ℕ) :
    (4 + authHmd5.length ≤ size % 2 ^ 32 ∧ (message hmac kvs secret).length ≤ size % 2 ^ 32 → RoundTrips hmac kvs secret size) ∧
    (¬(4 + authHmd5.length ≤ size % 2 ^ 32 ∧ (message hmac kvs secret).length ≤ size % 2 ^ 32) →
      ccTowire hmac (alistOf kvs) ⟨[], size⟩ secret = .error .nospace) := by
  have hrun := ccTowire_eq hmac h hauth secret size
  constructor
  · intro hspace
    rw [if_pos hspace] at hrun
    exact ⟨_, hrun, ccFromwire_message hmac h hauth secret (lt_of_le_of_lt hspace.2 (Nat.mod_lt _ (by decide)))⟩
  · intro hspace
    rw [if_neg hspace] at hrun
    exact hrun

end roundtrip

/-- Some table with all kinds of values. -/
def someElements : List (Bytes × Sexpr) :=
  [(text "type", .binary [110, 117, 108, 108]), ([], alistOf [(text "_auth", listOf [])]), (text "list", listOf [.binary [], alistOf []])]

theorem cc_roundtrip_some : RoundTrips (fun _ _ => Vector.replicate 16 0) someElements (some [1]) 2048 := by
  have hbinary : ∀ r : Region, r.length < 2 ^ 32 → Sendable (.binary r) := fun r => Sendable.binary
  have hnil : Sendable (alistOf []) := Sendable.table nodup_nil (fun e he => (by cases he)) (fun e he => (by cases he))
  have hempty : Sendable (listOf []) := Sendable.list (fun v hv => (by cases hv))
  have hauth : Sendable (alistOf [(text "_auth", listOf [])]) :=
    Sendable.table (by decide +kernel) (by decide +kernel) (fun e he => (by rw [mem_singleton.1 he]; exact hempty))
  have hlist : Sendable (listOf [.binary [], alistOf []]) := Sendable.list (fun v hv => by
    obtain rfl | hv := mem_cons.1 hv
    · exact hbinary [] (by decide)
    · rw [mem_singleton.1 hv]
      exact hnil)
  have hall : Sendable (alistOf someElements) := by
    refine Sendable.table (by decide +kernel) (by decide +kernel) (fun e he => ?_)
    obtain rfl | he := mem_cons.1 he
    · exact hbinary _ (by decide)
    obtain rfl | he := mem_cons.1 he
    · exact hauth
    · rw [mem_singleton.1 he]
      exact hlist
  exact (cc_roundtrip (fun _ _ => Vector.replicate 16 0) someElements hall (by decide +kernel) (some [1]) 2048).1 (by decide +kernel)

/-- The empty message fits into four bytes, but is not written into them; and with a secret it is not written into a region of 2^32 bytes. -/
theorem cc_roundtrip_small :
    ¬(∀ kvs : List (Bytes × Sexpr), Sendable (alistOf kvs) → (∀ e ∈ kvs, e.1 ≠ text "_auth") → ∀ size,
      (message (fun _ _ => Vector.replicate 16 0) kvs none).length ≤ size → RoundTrips (fun _ _ => Vector.replicate 16 0) kvs none size) ∧
    ¬(∀ kvs : List (Bytes × Sexpr), Sendable (alistOf kvs) → (∀ e ∈ kvs, e.1 ≠ text "_auth") → ∀ size,
      (message (fun _ _ => Vector.replicate 16 0) kvs (some [1])).length ≤ size →
        RoundTrips (fun _ _ => Vector.replicate 16 0) kvs (some [1]) size) := by
  have hnil : Sendable (alistOf []) := Sendable.table nodup_nil (fun e he => (by cases he)) (fun e he => (by cases he))
  have hkeys : ∀ e ∈ ([] : List (Bytes × Sexpr)), e.1 ≠ text "_auth" := fun e he => (by cases he)
  constructor
  · intro h
    obtain ⟨bytes, hwrite, -⟩ := h [] hnil hkeys 4 (by decide +kernel)
    rw [show ccTowire (fun _ _ => Vector.replicate 16 0) (alistOf []) ⟨[], 4⟩ none = .error .nospace from rfl] at hwrite
    cases hwrite
  · intro h
    obtain ⟨bytes, hwrite, -⟩ := h [] hnil hkeys (2 ^ 32) (by decide +kernel)
    rw [show ccTowire (fun _ _ => Vector.replicate 16 0) (alistOf []) ⟨[], 2 ^ 32⟩ (some [1]) = .error .nospace from rfl] at hwrite
    cases hwrite

end Bind9.Isccc
