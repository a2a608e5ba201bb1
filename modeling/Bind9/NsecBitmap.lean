import Mathlib.Data.Nat.Bitwise
import Bind9.Lib.FileImage
import Bind9.RdataOrder

/-! # NSEC type bitmaps

`dns_nsec_setbit`, `dns_nsec_isset`, `dns_nsec_compressbitmap`, `dns_nsec_buildrdata` and `dns_nsec_typepresent`.  The buffer that the
rdata are built in is the list of its bytes, a pointer into it an offset; reading or writing outside of it is `Stop.overrun`.  The raw
bitmap lies 512 bytes behind the place that it is packed to. -/

namespace Bind9.NsecBitmap

open List
open Option hiding any_eq_false any_eq_true

open FileImage

/-! ### Bits -/

/-- Bytes stored at `p`. -/
def store (mem : Bytes) (p : ℕ) (bs : Bytes) : Exec Bytes :=
  if p + bs.length ≤ mem.length then .ok (writeAt 0 mem p bs) else .error .overrun

/-- Bytes read at `p`. -/
def load (mem : Bytes) (p n : ℕ) : Exec Bytes :=
  match readAt mem p n with
  | some bs => .ok bs
  | none => .error .overrun

def mask (type : ℕ) : UInt8 := UInt8.ofNat (1 <<< (7 - type % 8))

def dnsNsecSetbit (mem : Bytes) (array type : ℕ) (bit : Bool) : Exec Bytes := do
  let byte ← byteAt mem (array + type / 8)
  store mem (array + type / 8) [if bit then byte ||| mask type else byte &&& ~~~(mask type)]

def dnsNsecIsset (mem : Bytes) (array type : ℕ) : Exec Bool := do
  let byte ← byteAt mem (array + type / 8)
  pure (decide (byte &&& mask type ≠ 0))

/-! ### Packing -/

/-- The last octet below `n` that is not zero. -/
def lastOctet (raw : Bytes) : ℕ → Option ℕ
  | 0 => none
  | octet + 1 => if raw.getD octet 0 ≠ 0 then some octet else lastOctet raw octet

/-- The buffer, and the pointers `map` and `raw`. -/
structure Packing where
  mem : Bytes
  map : ℕ
  raw : ℕ
deriving DecidableEq, Repr

/-- A turn of the loop of `dns_nsec_compressbitmap`. -/
def turn (st : Packing) (window : ℕ) : Exec Packing := do
  let raw ← load st.mem st.raw 32
  match lastOctet raw 32 with
  | none => pure { st with raw := st.raw + 32 }
  | some octet =>
    let mem ← store st.mem st.map [UInt8.ofNat window]
    let mem ← store mem (st.map + 1) [UInt8.ofNat (octet + 1)]
    -- `memmove` moves the bytes that are there by now
    let bits ← load mem st.raw (octet + 1)
    let mem ← store mem (st.map + 2) bits
    pure ⟨mem, st.map + 2 + (octet + 1), st.raw + 32⟩

/-- The windows that the loop goes through. -/
def windows (maxType : ℕ) : List ℕ := (range 256).takeWhile (fun window => decide (window * 256 ≤ maxType))

/-- `dns_nsec_compressbitmap`: the buffer, and the number of bytes that were written. -/
def dnsNsecCompressbitmap (mem : Bytes) (map : ℕ) (raw : Option ℕ) (maxType : ℕ) : Exec (Bytes × ℕ) :=
  match raw with
  | none => .ok (mem, 0)
  | some raw => do
    let st ← (windows maxType).foldlM turn ⟨mem, map, raw⟩
    pure (st.mem, st.map - map)

/-! ### Rdata -/

def DNS_NSEC_BUFFERSIZE : ℕ := 255 + 8192 + 512

/-- A raw bitmap with the bits of `types`, in the buffer of `dns_nsec_buildrdata` behind the name `target`. -/
def rawBitmap (types : List UInt16) (target : Bytes) : Exec Bytes := do
  let mem ← store (replicate DNS_NSEC_BUFFERSIZE 0) 0 target
  types.foldlM (fun mem type => dnsNsecSetbit mem (target.length + 512) type.toNat true) mem

/-- The loop of `dns_nsec_typepresent` over `typebits`. -/
def typepresentLoop (type : ℕ) : Bytes → Exec Bool
  | [] => .ok false
  | [_] => .error .assertion
  | window :: len :: bits =>
    if len.toNat = 0 ∨ 32 < len.toNat then .error .assertion
    else if bits.length < len.toNat then .error .assertion
    else if type < window.toNat * 256 then .ok false
    else if (window.toNat + 1) * 256 ≤ type then typepresentLoop type (bits.drop len.toNat)
    else if type < window.toNat * 256 + len.toNat * 8 then dnsNsecIsset bits 0 (type % 256)
    else .ok false
termination_by bits => bits.length

def dnsNsecTypepresent (nsec : Bytes) (type : UInt16) : Exec Bool := do
  require (decide (nsec.length ≠ 0))
  let name ← nameFromregion nsec
  let typebits ← consume nsec name.length
  typepresentLoop type.toNat typebits

/-! ### Bitmaps as sets -/

variable (byte : UInt8)

def bit (type : ℕ) : Bool := decide (byte &&& mask type ≠ 0)

def has (bits : Bytes) (type : ℕ) : Bool := bit (bits.getD (type / 8) 0) type

theorem mask_mod (type : ℕ) : mask type = mask (type % 8) := by
  unfold mask
  rw [Nat.mod_mod]

theorem bit_mod (type : ℕ) : bit byte type = bit byte (type % 8) := by
  unfold bit
  rw [mask_mod]

theorem bit_eq_testBit (type : ℕ) : bit byte type = byte.toNat.testBit (7 - type % 8) := by
  have hall : ∀ t : Fin 8, (mask t.val).toNat = 2 ^ (7 - t.val) := by decide
  have hmask : (mask type).toNat = 2 ^ (7 - type % 8) := by
    rw [mask_mod]
    exact hall ⟨type % 8, Nat.mod_lt _ (by omega)⟩
  rw [bit, Bool.eq_iff_iff, decide_eq_true_eq, ne_eq, ← UInt8.toNat_inj, UInt8.toNat_and, hmask, Nat.and_two_pow]
  cases byte.toNat.testBit (7 - type % 8) <;> simp

theorem mask_testBit (s t : ℕ) : (mask s).toNat.testBit (7 - t % 8) = decide (s % 8 = t % 8) ∧
    (~~~(mask s)).toNat.testBit (7 - t % 8) = !decide (s % 8 = t % 8) := by
  have hall : ∀ s t : Fin 8, (mask s).toNat.testBit (7 - t.val) = decide (s.val = t.val) ∧
      (~~~(mask s)).toNat.testBit (7 - t.val) = !decide (s.val = t.val) := by
    decide
  rw [mask_mod]
  exact hall ⟨s % 8, Nat.mod_lt _ (by omega)⟩ ⟨t % 8, Nat.mod_lt _ (by omega)⟩

theorem bit_or (s t : ℕ) : bit (byte ||| mask s) t = (bit byte t || decide (s % 8 = t % 8)) := by
  rw [bit_eq_testBit, bit_eq_testBit, UInt8.toNat_or, Nat.testBit_or, (mask_testBit s t).1]

theorem bit_and (s t : ℕ) : bit (byte &&& ~~~(mask s)) t = (bit byte t && !decide (s % 8 = t % 8)) := by
  rw [bit_eq_testBit, bit_eq_testBit, UInt8.toNat_and, Nat.testBit_and, (mask_testBit s t).2]

@[simp] theorem bit_zero (type : ℕ) : bit 0 type = false := by
  unfold bit
  rw [UInt8.zero_and]
  rfl

theorem has_replicate (n type : ℕ) : has (replicate n 0) type = false := by
  have hbyte : (replicate n (0 : UInt8)).getD (type / 8) 0 = 0 := by
    rw [getD_eq_getElem?_getD, getElem?_replicate]
    split_ifs <;> rfl
  unfold has
  rw [hbyte, bit_zero]

/-- The octet that `dns_nsec_setbit` stores. -/
def octetOf (type : ℕ) (b : Bool) : UInt8 := if b then byte ||| mask type else byte &&& ~~~(mask type)

theorem has_set {bits : Bytes} {s : ℕ} (hs : s / 8 < bits.length) (b : Bool) (t : ℕ) :
    has (bits.set (s / 8) (octetOf (bits.getD (s / 8) 0) s b)) t = if s = t then b else has bits t := by
  unfold has
  by_cases hoctet : s / 8 = t / 8
  · have hsame : (s % 8 = t % 8) = (s = t) := propext (by omega)
    rw [← hoctet, getD_eq_getElem?_getD, getElem?_set_self hs, getD_some]
    unfold octetOf
    cases b with
    | true =>
      rw [if_pos rfl, bit_or]
      simp only [hsame]
      by_cases h : s = t <;> simp [h]
    | false =>
      rw [if_neg Bool.false_ne_true, bit_and]
      simp only [hsame]
      by_cases h : s = t <;> simp [h]
  · rw [if_neg (fun h => hoctet (by rw [h])), getD_eq_getElem?_getD, getElem?_set_ne hoctet, ← getD_eq_getElem?_getD]

/-! ### Segments of the buffer -/

variable {n type window : ℕ}

section Segments

variable {a b rest : Bytes}

theorem store_append {p : ℕ} {bs : Bytes} (hp : p = a.length) (hlen : bs.length ≤ rest.length) :
    store (a ++ rest) p bs = .ok (a ++ (bs ++ rest.drop bs.length)) := by
  unfold store
  rw [if_pos (by rw [hp, length_append]; omega), writeAt_append 0 rest bs hp]

theorem load_append {p : ℕ} (hp : p = a.length) (hn : n = b.length) : load (a ++ (b ++ rest)) p n = .ok b := by
  unfold load
  rw [readAt_append rest hp hn]

theorem byteAt_append {i : ℕ} {bits : Bytes} (hi : i < bits.length) :
    byteAt (a ++ (bits ++ rest)) (a.length + i) = .ok (bits.getD i 0) := by
  unfold byteAt
  rw [getElem?_append_right (Nat.le_add_right _ _), Nat.add_sub_cancel_left, getElem?_append_left hi,
    getD_eq_getElem?_getD, getElem?_eq_getElem hi]
  rfl

theorem dnsNsecIsset_append {array type : ℕ} {bits : Bytes} (ha : array = a.length) (h : type / 8 < bits.length) :
    dnsNsecIsset (a ++ (bits ++ rest)) array type = .ok (has bits type) := by
  unfold dnsNsecIsset
  rw [ha, byteAt_append h, ok_then]
  rfl

theorem dnsNsecSetbit_append {array : ℕ} {bits : Bytes} (ha : array = a.length) (h : type / 8 < bits.length) (b : Bool) :
    dnsNsecSetbit (a ++ (bits ++ rest)) array type b =
      .ok (a ++ (bits.set (type / 8) (octetOf (bits.getD (type / 8) 0) type b) ++ rest)) := by
  have hsplit : a ++ (bits ++ rest) = (a ++ bits.take (type / 8)) ++ (bits.drop (type / 8) ++ rest) := by
    rw [append_assoc, ← append_assoc (bits.take _), take_append_drop]
  unfold dnsNsecSetbit
  rw [ha, byteAt_append h, ok_then, hsplit]
  have hlen : (a ++ bits.take (type / 8)).length = a.length + type / 8 := by
    rw [length_append, length_take]
    omega
  have hdrop : (bits.drop (type / 8) ++ rest).drop 1 = bits.drop (type / 8 + 1) ++ rest := by
    rw [drop_append_of_le_length (by rw [length_drop]; omega), drop_drop]
  rw [store_append hlen.symm (by rw [length_append, length_drop, length_singleton]; omega)]
  rw [length_singleton, hdrop, set_eq_take_append_cons_drop, if_pos h]
  simp [octetOf]

end Segments

/-! ### Blocks -/

/-- A window with its octets. -/
structure Block where
  window : ℕ
  bits : Bytes

def Block.text (b : Block) : Bytes := UInt8.ofNat b.window :: UInt8.ofNat b.bits.length :: b.bits

def spell (blocks : List Block) : Bytes := blocks.flatMap Block.text

/-- A block as it may stand in a bitmap. -/
structure Block.Good (b : Block) : Prop where
  window_lt : b.window < 256
  pos : 0 < b.bits.length
  length_le : b.bits.length ≤ 32
  last : b.bits.getD (b.bits.length - 1) 0 ≠ 0

/-- The windows increase, and every block is good. -/
structure WellFormed (blocks : List Block) : Prop where
  good : ∀ b ∈ blocks, b.Good
  increasing : blocks.Pairwise (fun b c => b.window < c.window)

theorem lastOctet_none {raw : Bytes} : ∀ {n : ℕ}, lastOctet raw n = none → ∀ j < n, raw.getD j 0 = 0
  | n + 1, h, j, hj => by
    unfold lastOctet at h
    split_ifs at h with hzero
    obtain hlt | rfl := Nat.lt_succ_iff_lt_or_eq.1 hj
    · exact lastOctet_none h j hlt
    · exact not_not.1 hzero

theorem lastOctet_some {raw : Bytes} : ∀ {n octet : ℕ}, lastOctet raw n = some octet →
    octet < n ∧ raw.getD octet 0 ≠ 0 ∧ ∀ j, octet < j → j < n → raw.getD j 0 = 0
  | n + 1, octet, h => by
    unfold lastOctet at h
    split_ifs at h with hne
    · obtain rfl := Option.some.inj h
      exact ⟨Nat.lt_succ_self n, hne, fun j h1 h2 => by omega⟩
    · obtain ⟨hlt, hoctet, hzero⟩ := lastOctet_some h
      refine ⟨by omega, hoctet, fun j h1 h2 => ?_⟩
      obtain hj | rfl := Nat.lt_succ_iff_lt_or_eq.1 h2
      · exact hzero j h1 hj
      · exact not_not.1 hne

def octets (raw : Bytes) (window : ℕ) : Bytes := (raw.drop (32 * window)).take 32

def pack (raw : Bytes) (window : ℕ) : Option Block :=
  (lastOctet (octets raw window) 32).map (fun octet => ⟨window, (octets raw window).take (octet + 1)⟩)

/-- The blocks of the first windows. -/
def blocks (raw : Bytes) (n : ℕ) : List Block := (range n).filterMap (pack raw)

theorem blocks_succ (raw : Bytes) (n : ℕ) : blocks raw (n + 1) = blocks raw n ++ (pack raw n).toList := by
  unfold blocks
  rw [range_succ, filterMap_append, filterMap_cons]
  cases pack raw n <;> rfl

theorem spell_append (a b : List Block) : spell (a ++ b) = spell a ++ spell b := flatMap_append

theorem spell_cons (b : Block) (bs : List Block) : spell (b :: bs) = b.text ++ spell bs := flatMap_cons

theorem Block.text_length (b : Block) : b.text.length = b.bits.length + 2 := rfl

section Raw

variable {raw : Bytes}

theorem octets_length (hraw : raw.length = 8192) (h : window < 256) : (octets raw window).length = 32 := by
  rw [octets, length_take, length_drop]
  omega

theorem octets_append (window : ℕ) : raw.drop (32 * window) = octets raw window ++ raw.drop (32 * (window + 1)) := by
  unfold octets
  rw [show 32 * (window + 1) = 32 * window + 32 by omega, ← drop_drop, take_append_drop]

theorem octets_getD (window : ℕ) {j : ℕ} (hj : j < 32) : (octets raw window).getD j 0 = raw.getD (32 * window + j) 0 := by
  simp only [octets, getD_eq_getElem?_getD, getElem?_take_of_lt hj, getElem?_drop]

theorem pack_some {b : Block} (h : pack raw window = some b) :
    ∃ octet, lastOctet (octets raw window) 32 = some octet ∧ b = ⟨window, (octets raw window).take (octet + 1)⟩ := by
  obtain ⟨octet, hoctet, rfl⟩ := map_eq_some_iff.1 h
  exact ⟨octet, hoctet, rfl⟩

theorem pack_good (hraw : raw.length = 8192) (hw : window < 256) {b : Block} (h : pack raw window = some b) :
    b.window = window ∧ b.Good := by
  obtain ⟨octet, hoctet, rfl⟩ := pack_some h
  obtain ⟨hlt, hne, -⟩ := lastOctet_some hoctet
  have hlen : ((octets raw window).take (octet + 1)).length = octet + 1 := by
    rw [length_take, octets_length hraw hw]
    omega
  refine ⟨rfl, hw, ?_, ?_, ?_⟩
  · show 0 < ((octets raw window).take (octet + 1)).length
    omega
  · show ((octets raw window).take (octet + 1)).length ≤ 32
    omega
  · rw [hlen, Nat.add_sub_cancel, getD_eq_getElem?_getD, getElem?_take_of_lt (Nat.lt_succ_self octet),
      ← getD_eq_getElem?_getD]
    exact hne

theorem mem_blocks {b : Block} : b ∈ blocks raw n ↔ b.window < n ∧ pack raw b.window = some b := by
  unfold blocks
  rw [mem_filterMap]
  constructor
  · rintro ⟨window, hmem, h⟩
    obtain ⟨octet, -, rfl⟩ := pack_some h
    exact ⟨mem_range.1 hmem, h⟩
  · rintro ⟨hlt, h⟩
    exact ⟨b.window, mem_range.2 hlt, h⟩

theorem blocks_wellFormed (hraw : raw.length = 8192) : ∀ {n : ℕ}, n ≤ 256 → WellFormed (blocks raw n)
  | 0, _ => ⟨nofun, .nil⟩
  | n + 1, hn => by
    obtain ⟨hgood, hincreasing⟩ := blocks_wellFormed hraw (Nat.le_of_succ_le hn)
    rw [blocks_succ]
    refine ⟨fun b hb => ?_, pairwise_append.2 ⟨hincreasing, ?_, fun b hb c hc => ?_⟩⟩
    · obtain hb | hb := mem_append.1 hb
      · exact hgood b hb
      · exact (pack_good hraw hn (mem_toList.1 hb)).2
    · cases pack raw n with
      | none => exact .nil
      | some b => exact pairwise_singleton _ b
    · rw [(pack_good hraw hn (mem_toList.1 hc)).1]
      exact (mem_blocks.1 hb).1

theorem spell_length_le {bs : List Block} (h : ∀ b ∈ bs, b.Good) : (spell bs).length ≤ 34 * bs.length := by
  induction bs with
  | nil => exact le_refl 0
  | cons b bs ih =>
    obtain ⟨hb, hbs⟩ := forall_mem_cons.1 h
    have hle := ih hbs
    have hbits := hb.length_le
    rw [spell_cons, length_append, length_cons, b.text_length]
    omega

theorem blocks_length_le (n : ℕ) : (blocks raw n).length ≤ n := by
  have hle := length_filterMap_le (pack raw) (range n)
  rwa [length_range] at hle

/-- The octets of a block, as a set of types of its window. -/
theorem pack_has (type : ℕ) : (pack raw (type / 256)).any (fun b => has b.bits (type % 256)) = has raw type := by
  have hoctet : 32 * (type / 256) + type % 256 / 8 = type / 8 := by omega
  have hj : type % 256 / 8 < 32 := by omega
  have hgetD := @octets_getD raw (type / 256) _ hj
  rw [hoctet] at hgetD
  have hbit : ∀ byte, bit byte (type % 256) = bit byte type := by
    intro byte
    rw [bit_mod, bit_mod byte type]
    congr 1
    omega
  unfold pack has
  cases hlast : lastOctet (octets raw (type / 256)) 32 with
  | none =>
    rw [← hgetD, lastOctet_none hlast _ hj, bit_zero]
    rfl
  | some octet =>
    obtain ⟨-, -, hzero⟩ := lastOctet_some hlast
    rw [map_some, any_some, hbit, ← hgetD]
    by_cases hin : type % 256 / 8 < octet + 1
    · rw [getD_eq_getElem?_getD, getElem?_take_of_lt hin, ← getD_eq_getElem?_getD]
    · rw [hzero _ (by omega) hj, getD_eq_getElem?_getD, getElem?_take_eq_none (by omega)]
      rfl

end Raw

/-! ### The packing loop -/

section Packing

variable {a raw rest : Bytes} (hraw : raw.length = 8192)

/-- The buffer at the start of the turn for `window`: the blocks of the windows before it, a gap, and the raw windows from it on. -/
structure Packed (a raw rest : Bytes) (window : ℕ) (st : Packing) : Prop where
  at_raw : st.raw = a.length + 512 + 32 * window
  at_map : st.map = a.length + (spell (blocks raw window)).length
  mem : ∃ gap, st.mem = a ++ spell (blocks raw window) ++ (gap ++ (raw.drop (32 * window) ++ rest)) ∧
    (spell (blocks raw window)).length + gap.length = 512 + 32 * window

include hraw

theorem spell_blocks_length_le (hn : n ≤ 256) : (spell (blocks raw n)).length ≤ 34 * n := by
  have hle := spell_length_le (blocks_wellFormed hraw hn).good
  have hcount := @blocks_length_le raw n
  omega

variable {st : Packing}

theorem Packed.turn (h : Packed a raw rest window st) (hw : window < 256) :
    ∃ st', turn st window = .ok st' ∧ Packed a raw rest (window + 1) st' := by
  obtain ⟨hstraw, hmap, gap, hmem, hgap⟩ := h
  have hlen := octets_length hraw hw
  have hle := spell_blocks_length_le hraw hw.le
  -- the window still lies behind what is written
  have hsegments : st.mem = (a ++ spell (blocks raw window) ++ gap) ++ (octets raw window ++ (raw.drop (32 * (window + 1)) ++ rest)) := by
    rw [hmem, octets_append window]
    simp only [append_assoc]
  have hbehind : st.raw = (a ++ spell (blocks raw window) ++ gap).length := by
    rw [hstraw, length_append, length_append]
    omega
  unfold NsecBitmap.turn
  rw [hsegments, load_append hbehind hlen.symm, ok_then]
  cases hlast : lastOctet (octets raw window) 32 with
  | none =>
    have hpack : pack raw window = none := by rw [pack, hlast, map_none]
    have hblocks : blocks raw (window + 1) = blocks raw window := by
      rw [blocks_succ, hpack]
      exact append_nil _
    refine ⟨_, rfl, ?_, ?_, gap ++ octets raw window, ?_, ?_⟩
    · show st.raw + 32 = _
      omega
    · rw [hblocks]
      exact hmap
    · rw [hblocks]
      simp only [append_assoc]
    · rw [hblocks, length_append, hlen]
      omega
  | some octet =>
    obtain ⟨hoctet, -, -⟩ := lastOctet_some hlast
    have hpack : pack raw window = some ⟨window, (octets raw window).take (octet + 1)⟩ := by rw [pack, hlast, map_some]
    have hbits : ((octets raw window).take (octet + 1)).length = octet + 1 := by
      rw [length_take, hlen]
      omega
    have hblocks : spell (blocks raw (window + 1)) = spell (blocks raw window) ++
        (UInt8.ofNat window :: UInt8.ofNat (octet + 1) :: (octets raw window).take (octet + 1)) := by
      rw [blocks_succ, hpack, spell_append]
      show _ ++ (Block.text _ ++ []) = _
      rw [append_nil, Block.text, hbits]
    obtain _ | ⟨g0, _ | ⟨g1, gap⟩⟩ := gap
    · simp only [length_nil] at hgap
      omega
    · simp only [length_cons, length_nil] at hgap
      omega
    simp only [length_cons] at hgap
    generalize hA : a ++ spell (blocks raw window) = A at hbehind ⊢
    have hAlen : A.length = st.map := by rw [← hA, length_append, hmap]
    have hsplit : octets raw window = (octets raw window).take (octet + 1) ++ (octets raw window).drop (octet + 1) :=
      (take_append_drop _ _).symm
    generalize hR : raw.drop (32 * (window + 1)) ++ rest = R at hsegments ⊢
    have hstore1 : store (A ++ (g0 :: g1 :: gap) ++ (octets raw window ++ R)) st.map [UInt8.ofNat window] =
        .ok (A ++ [UInt8.ofNat window] ++ (g1 :: gap ++ (octets raw window ++ R))) := by
      rw [append_assoc, store_append hAlen.symm (by simp)]
      simp
    have hstore2 : store (A ++ [UInt8.ofNat window] ++ (g1 :: gap ++ (octets raw window ++ R))) (st.map + 1) [UInt8.ofNat (octet + 1)] =
        .ok (A ++ [UInt8.ofNat window] ++ [UInt8.ofNat (octet + 1)] ++ (gap ++ (octets raw window ++ R))) := by
      rw [store_append (by rw [length_append, hAlen, length_singleton]) (by simp)]
      simp
    have hload : load (A ++ [UInt8.ofNat window] ++ [UInt8.ofNat (octet + 1)] ++ (gap ++ (octets raw window ++ R))) st.raw (octet + 1) =
        .ok ((octets raw window).take (octet + 1)) := by
      rw [hsplit, append_assoc _ ((octets raw window).drop (octet + 1)), ← append_assoc _ gap, ← hsplit]
      apply load_append _ hbits.symm
      rw [hbehind]
      simp only [length_append, length_cons, length_nil]
      omega
    have hstore3 : store (A ++ [UInt8.ofNat window] ++ [UInt8.ofNat (octet + 1)] ++ (gap ++ (octets raw window ++ R))) (st.map + 2)
        ((octets raw window).take (octet + 1)) =
        .ok (A ++ [UInt8.ofNat window] ++ [UInt8.ofNat (octet + 1)] ++ ((octets raw window).take (octet + 1) ++
          ((gap ++ octets raw window).drop (octet + 1) ++ R))) := by
      rw [store_append (by simp [hAlen]) (by rw [hbits]; simp [hlen]; omega), hbits, ← append_assoc gap,
        drop_append_of_le_length (by rw [length_append, hlen]; omega)]
    simp only [hstore1, hstore2, hload, hstore3, ok_then]
    refine ⟨_, rfl, ?_, ?_, (gap ++ octets raw window).drop (octet + 1), ?_, ?_⟩
    · show st.raw + 32 = _
      omega
    · rw [hblocks, length_append, length_cons, length_cons, hbits]
      show st.map + 2 + (octet + 1) = _
      omega
    · rw [hblocks, ← append_assoc a, hA, hR]
      simp
    · rw [hblocks, length_append, length_cons, length_cons, hbits, length_drop, length_append, hlen]
      omega

/-- The first turns of the loop. -/
theorem Packed.run (h : Packed a raw rest 0 st) : ∀ {n : ℕ}, n ≤ 256 →
    ∃ st', (range n).foldlM NsecBitmap.turn st = .ok st' ∧ Packed a raw rest n st'
  | 0, _ => ⟨st, rfl, h⟩
  | n + 1, hn => by
    obtain ⟨st1, hrun, h1⟩ := h.run (Nat.le_of_succ_le hn)
    obtain ⟨st2, hturn, h2⟩ := h1.turn hraw hn
    refine ⟨st2, ?_, h2⟩
    rw [range_succ, foldlM_append, hrun, ok_then, foldlM_cons, hturn, ok_then]
    rfl

omit hraw

theorem Packed.start {gap : Bytes} (hgap : gap.length = 512) :
    Packed a raw rest 0 ⟨a ++ (gap ++ (raw ++ rest)), a.length, a.length + 512⟩ :=
  ⟨rfl, rfl, gap, by simp [blocks, spell], by simpa [blocks, spell] using hgap⟩

/-- What the loop still has to read is what it was. -/
theorem Packed.load (h : Packed a raw rest n st) (hraw : raw.length = 8192) (hle : n ≤ window)
    (hw : window < 256) : NsecBitmap.load st.mem (a.length + 512 + 32 * window) 32 = .ok (octets raw window) := by
  obtain ⟨-, hmap, gap, hmem, hgap⟩ := h
  obtain ⟨k, rfl⟩ := Nat.exists_eq_add_of_le hle
  obtain ⟨M, hM, hlen⟩ : ∃ M, raw.drop (32 * n) = M ++ (octets raw (n + k) ++ raw.drop (32 * (n + k + 1))) ∧ M.length = 32 * k := by
    refine ⟨(raw.drop (32 * n)).take (32 * k), ?_, ?_⟩
    · rw [← octets_append, Nat.mul_add, ← drop_drop, take_append_drop]
    · rw [length_take, length_drop]
      omega
  have hsegments : st.mem = (a ++ spell (blocks raw n) ++ gap ++ M) ++
      (octets raw (n + k) ++ (raw.drop (32 * (n + k + 1)) ++ rest)) := by
    rw [hmem, hM]
    simp only [append_assoc]
  rw [hsegments]
  apply load_append _ (octets_length hraw hw).symm
  simp only [length_append]
  omega

end Packing

theorem takeWhile_range {m : ℕ} (p : ℕ → Bool) (hp : ∀ w, p w = true ↔ w < m) (n : ℕ) :
    (range n).takeWhile p = range (min n m) := by
  induction n with
  | zero => simp
  | succ n ih =>
    rw [range_succ]
    by_cases hlt : n < m
    · have hall : ∀ w ∈ range n, p w = true := fun w hw => (hp w).2 (lt_trans (mem_range.1 hw) hlt)
      rw [takeWhile_append_of_pos hall, takeWhile_cons_of_pos ((hp n).2 hlt), takeWhile_nil,
        Nat.min_eq_left hlt, range_succ]
    have hfalse : (range n ++ [n]).takeWhile p = (range n).takeWhile p := by
      rw [takeWhile_append]
      split_ifs with hall
      · rw [takeWhile_cons_of_neg (fun h => hlt ((hp n).1 h)), append_nil]
        exact ( takeWhile_prefix p).eq_of_length hall |>.symm
      · rfl
    rw [hfalse, ih]
    congr 1
    omega

theorem windows_eq (maxType : ℕ) : windows maxType = range (min 256 (maxType / 256 + 1)) := by
  apply takeWhile_range
  intro w
  rw [decide_eq_true_iff]
  omega

/-! ### Reading -/

theorem typepresentLoop_spell (type : ℕ) : ∀ {bs : List Block}, WellFormed bs →
    typepresentLoop type (spell bs) = .ok (bs.any (fun b => decide (b.window = type / 256) && has b.bits (type % 256)))
  | [], _ => by
    show typepresentLoop type [] = _
    rw [typepresentLoop]
    rfl
  | b :: bs, ⟨hgood, hincreasing⟩ => by
    obtain ⟨⟨hw, hpos, hlen, -⟩, hgood⟩ := forall_mem_cons.1 hgood
    obtain ⟨hfirst, hincreasing⟩ := pairwise_cons.1 hincreasing
    have hwindow : (UInt8.ofNat b.window).toNat = b.window := UInt8.toNat_ofNat_of_lt' (by simpa [UInt8.size] using hw)
    have hlength : (UInt8.ofNat b.bits.length).toNat = b.bits.length :=
      UInt8.toNat_ofNat_of_lt' (by simp only [UInt8.size]; omega)
    have ih := typepresentLoop_spell type ⟨hgood, hincreasing⟩
    have hlater : ∀ c ∈ bs, type / 256 ≤ b.window → (decide (c.window = type / 256) && has c.bits (type % 256)) = false := by
      intro c hc hle
      have := hfirst c hc
      rw [decide_eq_false (by omega), Bool.false_and]
    rw [spell_cons]
    show typepresentLoop type (UInt8.ofNat b.window :: UInt8.ofNat b.bits.length :: (b.bits ++ spell bs)) = _
    rw [typepresentLoop, hwindow, hlength, if_neg (by omega), if_neg (by rw [length_append]; omega), drop_left, any_cons]
    split_ifs with h1 h2 h3
    · rw [decide_eq_false (by omega), Bool.false_and, Bool.false_or, any_eq_false.2 (fun c hc => ?_)]
      rw [hlater c hc (by omega)]
      exact Bool.false_ne_true
    · rw [ih, decide_eq_false (by omega), Bool.false_and, Bool.false_or]
    · have hany : bs.any (fun b => decide (b.window = type / 256) && has b.bits (type % 256)) = false := by
        apply any_eq_false.2
        intro c hc
        rw [hlater c hc (by omega)]
        exact Bool.false_ne_true
      have hread := @dnsNsecIsset_append [] (spell bs) 0 (type % 256) b.bits rfl (by omega)
      rw [nil_append] at hread
      rw [hread, hany, decide_eq_true (by omega), Bool.true_and, Bool.or_false]
    · have hany : bs.any (fun b => decide (b.window = type / 256) && has b.bits (type % 256)) = false := by
        apply any_eq_false.2
        intro c hc
        rw [hlater c hc (by omega)]
        exact Bool.false_ne_true
      have hbeyond : has b.bits (type % 256) = false := by
        unfold has
        rw [getD_eq_getElem?_getD, getElem?_eq_none (by omega), getD_none, bit_zero]
      rw [hany, hbeyond, Bool.and_false, Bool.or_false]

theorem blocks_any {raw : Bytes} :
    (blocks raw n).any (fun b => decide (b.window = type / 256) && has b.bits (type % 256)) = (decide (type / 256 < n) && has raw type) := by
  have hpack := @pack_has raw type
  rw [Bool.eq_iff_iff, any_eq_true, Bool.and_eq_true, decide_eq_true_iff, ← hpack, Option.any_eq_true]
  constructor
  · rintro ⟨b, hb, h⟩
    rw [Bool.and_eq_true, decide_eq_true_iff] at h
    obtain ⟨hlt, hsome⟩ := mem_blocks.1 hb
    rw [h.1] at hlt hsome
    exact ⟨hlt, b, hsome, h.2⟩
  · rintro ⟨hlt, b, hsome, h⟩
    obtain ⟨octet, -, rfl⟩ := pack_some hsome
    refine ⟨⟨type / 256, (octets raw (type / 256)).take (octet + 1)⟩, mem_blocks.2 ⟨hlt, hsome⟩, ?_⟩
    rw [Bool.and_eq_true, decide_eq_true_iff]
    exact ⟨rfl, h⟩

/-! ### The buffer of `dns_nsec_buildrdata` -/

/-- The name, 512 bytes, the raw bitmap, and the rest of the buffer. -/
def layout (target raw : Bytes) : Bytes :=
  target ++ (replicate 512 0 ++ (raw ++ replicate (255 - target.length) 0))

/-- The raw bitmap of a set of types. -/
structure RawHas (raw : Bytes) (S : ℕ → Bool) : Prop where
  length : raw.length = 8192
  has : ∀ t < 65536, has raw t = S t

section Layout

variable {target raw : Bytes} {S : ℕ → Bool}

theorem store_zeros {k : ℕ} (hn : n = target.length + k) :
    store (replicate n 0) 0 target = .ok (target ++ replicate k 0) := by
  have hstore := @store_append [] (replicate n 0) 0 target rfl (by rw [length_replicate]; omega)
  simp only [nil_append, drop_replicate] at hstore
  rw [hstore, hn, Nat.add_sub_cancel_left]

theorem store_layout (h : target.length ≤ 255) :
    store (replicate DNS_NSEC_BUFFERSIZE 0) 0 target = .ok (layout target (replicate 8192 0)) := by
  unfold layout
  rw [replicate_append_replicate, replicate_append_replicate]
  apply store_zeros
  unfold DNS_NSEC_BUFFERSIZE
  omega

theorem RawHas.empty : RawHas (replicate 8192 0) (fun _ => false) :=
  ⟨length_replicate, fun t _ => has_replicate 8192 t⟩

theorem RawHas.setbit (h : RawHas raw S) (target : Bytes) (ht : type < 65536) (b : Bool) :
    ∃ raw', dnsNsecSetbit (layout target raw) (target.length + 512) type b = .ok (layout target raw') ∧
      RawHas raw' (fun t => if type = t then b else S t) := by
  have hlt : type / 8 < raw.length := by
    rw [h.length]
    omega
  refine ⟨raw.set (type / 8) (octetOf (raw.getD (type / 8) 0) type b), ?_, ?_, fun t hlt' => ?_⟩
  · unfold layout
    rw [← append_assoc target, dnsNsecSetbit_append (by rw [length_append, length_replicate]) hlt, append_assoc]
  · rw [length_set, h.length]
  · rw [has_set hlt, h.has t hlt']

theorem RawHas.congr (h : RawHas raw S) {S' : ℕ → Bool} (heq : ∀ t < 65536, S t = S' t) : RawHas raw S' :=
  ⟨h.length, fun t ht => (h.has t ht).trans (heq t ht)⟩

theorem compressbitmap_layout (htarget : target.length ≤ 255) (hraw : raw.length = 8192) (maxType : ℕ) :
    ∃ bs mem, bs = blocks raw (min 256 (maxType / 256 + 1)) ∧
      dnsNsecCompressbitmap (layout target raw) target.length (some (target.length + 512)) maxType = .ok (mem, (spell bs).length) ∧
      mem.take (target.length + (spell bs).length) = target ++ spell bs ∧ target.length + (spell bs).length ≤ DNS_NSEC_BUFFERSIZE := by
  have hstart := @Packed.start target raw (replicate (255 - target.length) 0) (replicate 512 0) length_replicate
  obtain ⟨st, hrun, -, hmap, gap, hmem, -⟩ := hstart.run hraw (Nat.min_le_left 256 (maxType / 256 + 1))
  have hle := spell_blocks_length_le hraw (Nat.min_le_left 256 (maxType / 256 + 1))
  refine ⟨_, st.mem, rfl, ?_, ?_, ?_⟩
  · unfold dnsNsecCompressbitmap layout
    rw [windows_eq]
    simp only [hrun, ok_then, hmap, Nat.add_sub_cancel_left]
    rfl
  · rw [hmem]
    exact take_left' length_append
  · unfold DNS_NSEC_BUFFERSIZE
    omega

theorem dnsNsecTypepresent_spell (next : AbsName) {bs : List Block} (h : WellFormed bs) (t : UInt16) :
    dnsNsecTypepresent (next.name.ndata ++ spell bs) t =
      .ok (bs.any (fun b => decide (b.window = t.toNat / 256) && has b.bits (t.toNat % 256))) := by
  have hne : (next.name.ndata ++ spell bs).length ≠ 0 := by
    have hpos := length_pos_of_ne_nil (Rdata.ndata_ne_nil next)
    rw [length_append]
    omega
  have hconsume : consume (next.name.ndata ++ spell bs) next.name.length = .ok (spell bs) := consume_append rfl
  unfold dnsNsecTypepresent
  rw [require_true (decide_eq_true hne), ok_then, nameFromregion_append, ok_then, hconsume, ok_then, typepresentLoop_spell _ h]

theorem RawHas.setbits (target : Bytes) : ∀ (types : List UInt16) {raw : Bytes} {S : ℕ → Bool}, RawHas raw S →
    ∃ raw', types.foldlM (fun mem type => dnsNsecSetbit mem (target.length + 512) type.toNat true) (layout target raw) =
      .ok (layout target raw') ∧ RawHas raw' (fun t => S t || types.any (fun type => type.toNat = t))
  | [], raw, S, h => ⟨raw, rfl, h.congr (fun t _ => by rw [any_nil, Bool.or_false])⟩
  | type :: types, raw, S, h => by
    obtain ⟨raw1, hset, h1⟩ := h.setbit target type.toNat_lt true
    obtain ⟨raw2, hrun, h2⟩ := h1.setbits target types
    refine ⟨raw2, ?_, h2.congr (fun t _ => ?_)⟩
    · rw [foldlM_cons, hset, ok_then, hrun]
    · rw [any_cons]
      by_cases heq : type.toNat = t
      · rw [if_pos heq, decide_eq_true heq, Bool.true_or, Bool.or_true]
      · rw [if_neg heq, decide_eq_false heq, Bool.false_or]

theorem typepresent_blocks (next : AbsName) (h : RawHas raw S) (maxType : ℕ) (hmax : ∀ t < 65536, S t = true → t ≤ maxType) (t : UInt16) :
    dnsNsecTypepresent (next.name.ndata ++ spell (blocks raw (min 256 (maxType / 256 + 1)))) t = .ok (S t.toNat) := by
  rw [dnsNsecTypepresent_spell next (blocks_wellFormed h.length (Nat.min_le_left _ _)), blocks_any, h.has _ t.toNat_lt]
  apply congrArg Except.ok
  cases hS : S t.toNat with
  | false => rw [Bool.and_false]
  | true =>
    have hle := hmax _ t.toNat_lt hS
    have hlt := t.toNat_lt
    rw [decide_eq_true (by omega), Bool.true_and]

end Layout

/-- The turns of the loop that are still to come read what was there at its start. -/
theorem load_later {a raw rest : Bytes} {st0 st : Packing} {maxType : ℕ} {done later : List ℕ} (hraw : raw.length = 8192)
    (hstart : Packed a raw rest 0 st0) (hsplit : windows maxType = done ++ later) (hrun : done.foldlM turn st0 = .ok st) :
    ∀ window ∈ later, load st.mem (a.length + 512 + 32 * window) 32 = load st0.mem (a.length + 512 + 32 * window) 32 := by
  have hle := Nat.min_le_left 256 (maxType / 256 + 1)
  rw [windows_eq] at hsplit
  generalize min 256 (maxType / 256 + 1) = m at hsplit hle
  have hlen := congrArg List.length hsplit
  rw [length_range, length_append] at hlen
  have hdone : done = range done.length := by
    have htake := congrArg (take done.length) hsplit
    rw [take_left, take_range, Nat.min_eq_left (by omega)] at htake
    exact htake.symm
  obtain ⟨st', hrun', hpacked⟩ := hstart.run hraw (n := done.length) (by omega)
  rw [← hdone, hrun] at hrun'
  obtain rfl := Except.ok.inj hrun'
  intro window hwindow
  obtain ⟨i, hi, rfl⟩ := mem_iff_getElem.1 hwindow
  have hget : later[i] = done.length + i := by
    have hrange := congrArg (·[done.length + i]?) hsplit
    simp only [getElem?_append_right (Nat.le_add_right done.length i), Nat.add_sub_cancel_left] at hrange
    rw [getElem?_range (by omega), getElem?_eq_getElem hi] at hrange
    exact (Option.some.inj hrange).symm
  rw [hget, hpacked.load hraw (by omega) (by omega), hstart.load hraw (Nat.zero_le _) (by omega)]

/-- **NSEC type bitmaps.**  The raw bitmap of a set of types is packed, without a raw window being overwritten before it is read, to
well-formed blocks that fit the buffer, and `dns_nsec_typepresent` finds just the types of the set in them. -/
theorem nsec_bitmap (next : AbsName) (types : List UInt16) (maxType : ℕ) (hmax : ∀ t ∈ types, t.toNat ≤ maxType) :
    ∃ mem mem' bs, rawBitmap types next.name.ndata = .ok mem ∧
      dnsNsecCompressbitmap mem next.name.length (some (next.name.length + 512)) maxType = .ok (mem', (spell bs).length) ∧
      (∀ done later st, windows maxType = done ++ later →
        done.foldlM turn ⟨mem, next.name.length, next.name.length + 512⟩ = .ok st →
        ∀ window ∈ later, load st.mem (next.name.length + 512 + 32 * window) 32 = load mem (next.name.length + 512 + 32 * window) 32) ∧
      mem'.take (next.name.length + (spell bs).length) = next.name.ndata ++ spell bs ∧
      next.name.length + (spell bs).length ≤ DNS_NSEC_BUFFERSIZE ∧ WellFormed bs ∧
      ∀ t, dnsNsecTypepresent (next.name.ndata ++ spell bs) t = .ok (decide (t ∈ types)) := by
  have hlen : next.name.ndata.length ≤ 255 := next.valid.length_le
  obtain ⟨raw, hset, h⟩ := (RawHas.empty).setbits next.name.ndata types
  obtain ⟨bs, mem', rfl, hcompress, htake, hfits⟩ := compressbitmap_layout hlen h.length maxType
  refine ⟨layout next.name.ndata raw, mem', _, ?_, hcompress, fun done later st => ?_, htake, hfits,
    blocks_wellFormed h.length (Nat.min_le_left _ _), fun t => ?_⟩
  · unfold rawBitmap
    rw [store_layout hlen, ok_then, hset]
  · exact load_later h.length (Packed.start length_replicate)
  · rw [typepresent_blocks next h maxType (fun t _ hS => ?_) t]
    · congr 1
      rw [Bool.eq_iff_iff, Bool.false_or, any_eq_true, decide_eq_true_iff]
      constructor
      · rintro ⟨type, hmem, heq⟩
        rwa [UInt16.toNat_inj.1 (of_decide_eq_true heq)] at hmem
      · exact fun hmem => ⟨t, hmem, decide_eq_true rfl⟩
    · rw [Bool.false_or, any_eq_true] at hS
      obtain ⟨type, hmem, heq⟩ := hS
      rw [← of_decide_eq_true heq]
      exact hmax type hmem

def host : AbsName := Rdata.oneLetter 104

theorem nsec_bitmap_host : ∃ mem mem' bs, rawBitmap [1, 1234, 46, 47] host.name.ndata = .ok mem ∧
    dnsNsecCompressbitmap mem host.name.length (some (host.name.length + 512)) 1234 = .ok (mem', (spell bs).length) ∧
    (∀ done later st, windows 1234 = done ++ later →
      done.foldlM turn ⟨mem, host.name.length, host.name.length + 512⟩ = .ok st →
      ∀ window ∈ later, load st.mem (host.name.length + 512 + 32 * window) 32 =
        load mem (host.name.length + 512 + 32 * window) 32) ∧
    mem'.take (host.name.length + (spell bs).length) = host.name.ndata ++ spell bs ∧
    host.name.length + (spell bs).length ≤ DNS_NSEC_BUFFERSIZE ∧ WellFormed bs ∧
    ∀ t, dnsNsecTypepresent (host.name.ndata ++ spell bs) t = .ok (decide (t ∈ ([1, 1234, 46, 47] : List UInt16))) :=
  nsec_bitmap host [1, 1234, 46, 47] 1234 (by simp)

end Bind9.NsecBitmap
