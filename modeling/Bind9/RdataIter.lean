import Bind9.Lib.Enumeration
import Bind9.Lib.FileImage
import Bind9.RdataRoundtrip

/-! # Iterators over rdata structures

`dns_rdata_apl_first`, `dns_rdata_apl_next` and `dns_rdata_apl_current` on the structure of `tostruct_in_apl`, and the same functions for
HIP.  The loop of a caller asks for the first item, then looks at an item and asks for the next one as long as the answer is
`ISC_R_SUCCESS`. -/

namespace Bind9.Rdata

open List

open Enumeration

/-! ### APL -/

structure AplIter where
  apl : Option Bytes
  aplLen : ℕ
  offset : ℕ
deriving DecidableEq, Repr

/-- `dns_rdata_apl_ent_t`; `data` is an offset into `apl`. -/
structure AplEnt where
  negative : Bool
  family : ℕ
  pfx : ℕ
  length : ℕ
  data : Option ℕ
deriving DecidableEq, Repr

def aplIter (r : Bytes) : AplIter := ⟨some r, r.length % 2 ^ 16, 0⟩

/-- The low bits of the length byte of the item at `offset`. -/
def aplLength (apl : Bytes) (offset : ℕ) : Exec ℕ := do
  let n ← byteAt apl (offset + 3)
  pure (n &&& 0x7f).toNat

def dnsRdataAplFirst (it : AplIter) : Exec (Result × AplIter) :=
  match it.apl with
  | none => do
    require (decide (it.aplLen = 0))
    pure (.nomore, it)
  | some apl => do
    require (decide (3 < it.aplLen))
    let length ← aplLength apl it.offset
    require (decide (length ≤ it.aplLen))
    pure (.success, { it with offset := 0 })

def dnsRdataAplNext (it : AplIter) : Exec (Result × AplIter) :=
  match it.apl with
  | none => do
    require (decide (it.aplLen = 0))
    pure (.nomore, it)
  | some apl =>
    if it.offset = it.aplLen then .ok (.nomore, it)
    else do
      require (decide (it.offset < it.aplLen))
      require (decide (3 < it.aplLen))
      require (decide (it.offset ≤ it.aplLen - 4))
      let length ← aplLength apl it.offset
      require (decide (length + it.offset ≤ it.aplLen))
      let it := { it with offset := (it.offset + length) % 2 ^ 16 }
      pure (if it.aplLen ≤ it.offset then .success else .nomore, it)

def dnsRdataAplCurrent (it : AplIter) : Exec AplEnt := do
  require (decide (it.apl ≠ none) || decide (it.aplLen = 0))
  require (decide (it.offset ≤ it.aplLen))
  if it.offset = it.aplLen then stop .nomore
  else do
    let apl := it.apl.getD []
    require (decide (3 < it.aplLen))
    require (decide (it.offset ≤ it.aplLen - 4))
    let length ← aplLength apl it.offset
    require (decide (length + it.offset ≤ it.aplLen))
    let hi ← byteAt apl it.offset
    let lo ← byteAt apl (it.offset + 1)
    let pfx ← byteAt apl (it.offset + 2)
    let n ← byteAt apl (it.offset + 3)
    pure ⟨decide (n &&& 0x80 ≠ 0), hi.toNat * 256 + lo.toNat, pfx.toNat, length, if length ≠ 0 then some (it.offset + 4) else none⟩

/-- An item as it is encoded. -/
structure AplItem where
  family : UInt16
  pfx : UInt8
  negative : Bool
  address : Bytes
  length_lt : address.length < 128

def AplItem.lengthByte (i : AplItem) : UInt8 := UInt8.ofNat (i.address.length + if i.negative then 128 else 0)

def AplItem.text (i : AplItem) : Bytes := uint16Bytes i.family.toNat ++ i.pfx :: i.lengthByte :: i.address

/-- APL rdata with these items. -/
def aplText (items : List AplItem) : Bytes := items.flatMap AplItem.text

/-- The entry shows the item; its address lies inside the rdata. -/
def AplEnt.Shows (r : Bytes) (e : AplEnt) (i : AplItem) : Prop :=
  e.family = i.family.toNat ∧ e.pfx = i.pfx.toNat ∧ e.negative = i.negative ∧ e.length = i.address.length ∧
    match e.data with
    | some p => FileImage.readAt r p e.length = some i.address
    | none => i.address = []

/-- The loop of a caller over APL rdata ends with these entries. -/
def AplEnumerates (r : Bytes) (ents : List AplEnt) : Prop :=
  ∃ res it, dnsRdataAplFirst (aplIter r) = .ok (res, it) ∧ Enumerates dnsRdataAplCurrent dnsRdataAplNext .success .nomore res it ents

/-! ### HIP -/

/-- The servers of a `dns_rdata_hip_t`. -/
structure HipIter where
  servers : Bytes
  serversLen : ℕ
  offset : ℕ
deriving DecidableEq, Repr

/-- The servers after `tostruct_hip`. -/
def hipIter (hip : HipStruct) : HipIter := ⟨hip.servers, hip.servers.length % 2 ^ 16, hip.servers.length % 2 ^ 16⟩

def dnsRdataHipFirst (it : HipIter) : Exec (Result × HipIter) :=
  if it.serversLen = 0 then .ok (.nomore, it) else .ok (.success, { it with offset := 0 })

def dnsRdataHipNext (it : HipIter) : Exec (Result × HipIter) :=
  if it.serversLen ≤ it.offset then .ok (.nomore, it)
  else do
    let name ← nameFromregion ((it.servers.drop it.offset).take (it.serversLen - it.offset))
    let it := { it with offset := (it.offset + name.length) % 2 ^ 16 }
    require (decide (it.offset ≤ it.serversLen))
    pure (.success, it)

def dnsRdataHipCurrent (it : HipIter) : Exec Name := do
  require (decide (it.offset < it.serversLen))
  let name ← nameFromregion ((it.servers.drop it.offset).take (it.serversLen - it.offset))
  require (decide (name.length + it.offset ≤ it.serversLen))
  pure name

/-- The loop of a caller over the servers of HIP rdata ends with these names. -/
def HipEnumerates (r : Bytes) (names : List Name) : Prop :=
  ∃ hip res it, tostructHip r = .ok hip ∧ dnsRdataHipFirst (hipIter hip) = .ok (res, it) ∧
    Enumerates dnsRdataHipCurrent dnsRdataHipNext .success .nomore res it names

/-! ### The entry of an item -/

namespace AplItem

variable (i : AplItem)

theorem lengthByte_toNat : i.lengthByte.toNat = i.address.length + if i.negative then 128 else 0 := by
  have hlt := i.length_lt
  unfold lengthByte
  rw [UInt8.toNat_ofNat_of_lt' (by simp only [UInt8.size]; split_ifs <;> omega)]

theorem and_low (n : UInt8) : (n &&& 0x7f).toNat = n.toNat % 128 := by
  rw [UInt8.toNat_and]
  exact Nat.and_two_pow_sub_one_eq_mod n.toNat 7

theorem and_high (n : UInt8) : n &&& 0x80 ≠ 0 ↔ 128 ≤ n.toNat := by
  have hall : ∀ n : Fin 256, UInt8.ofNat n &&& 0x80 ≠ 0 ↔ 128 ≤ n.val := by decide +kernel
  have h := hall ⟨n.toNat, n.toNat_lt⟩
  rwa [UInt8.ofNat_toNat] at h

theorem family_bytes : (UInt8.ofNat (i.family.toNat / 256)).toNat * 256 + (UInt8.ofNat (i.family.toNat % 256)).toNat = i.family.toNat := by
  have hlt := i.family.toNat_lt
  rw [UInt8.toNat_ofNat', UInt8.toNat_ofNat']
  omega

theorem text_length : i.text.length = 4 + i.address.length := by
  simp only [text, uint16Bytes, length_append, length_cons, length_nil]
  omega

end AplItem

section First

variable (i : AplItem) (rest : Bytes)

theorem aplLength_text : aplLength (i.text ++ rest) 0 = .ok i.address.length := by
  have hlt := i.length_lt
  have hn := i.lengthByte_toNat
  show Except.ok _ = _
  rw [AplItem.and_low, hn]
  apply congrArg
  split_ifs <;> omega

theorem dnsRdataAplFirst_text (hmax : (i.text ++ rest).length < 2 ^ 16) :
    dnsRdataAplFirst (aplIter (i.text ++ rest)) = .ok (.success, aplIter (i.text ++ rest)) := by
  have hlen := i.text_length
  have hle : i.text.length ≤ (i.text ++ rest).length := (prefix_append _ _).length_le
  unfold dnsRdataAplFirst aplIter
  rw [Nat.mod_eq_of_lt hmax]
  simp only [aplLength_text, ok_then, require_true (decide_eq_true (show 3 < (i.text ++ rest).length by omega)),
    require_true (decide_eq_true (show i.address.length ≤ (i.text ++ rest).length by omega))]
  rfl

theorem dnsRdataAplCurrent_text (hmax : (i.text ++ rest).length < 2 ^ 16) :
    ∃ e : AplEnt, dnsRdataAplCurrent (aplIter (i.text ++ rest)) = .ok e ∧ e.Shows (i.text ++ rest) i := by
  have hlen := i.text_length
  have hle : i.text.length ≤ (i.text ++ rest).length := (prefix_append _ _).length_le
  have hn := i.lengthByte_toNat
  have hlt := i.length_lt
  refine ⟨⟨decide (i.lengthByte &&& 0x80 ≠ 0), (UInt8.ofNat (i.family.toNat / 256)).toNat * 256 + (UInt8.ofNat (i.family.toNat % 256)).toNat,
    i.pfx.toNat, i.address.length, if i.address.length ≠ 0 then some (0 + 4) else none⟩, ?_, i.family_bytes, rfl, ?_, rfl, ?_⟩
  · unfold dnsRdataAplCurrent aplIter
    rw [Nat.mod_eq_of_lt hmax]
    simp only [Option.getD_some, aplLength_text, ok_then]
    rw [require_true (by simp), ok_then, require_true (by simp), ok_then, if_neg (by omega),
      require_true (decide_eq_true (by omega)), ok_then, require_true (by simp), ok_then,
      require_true (decide_eq_true (by omega)), ok_then]
    rfl
  · rw [decide_eq_decide.2 (AplItem.and_high _)]
    cases hnegative : i.negative with
    | true =>
      rw [hnegative, if_pos rfl] at hn
      exact decide_eq_true (by omega)
    | false =>
      rw [hnegative, if_neg Bool.false_ne_true] at hn
      exact decide_eq_false (by omega)
  · by_cases haddress : i.address.length ≠ 0
    · rw [if_pos haddress]
      have hsplit : i.text ++ rest = (uint16Bytes i.family.toNat ++ [i.pfx, i.lengthByte]) ++ (i.address ++ rest) := by
        simp [AplItem.text]
      rw [hsplit]
      exact FileImage.readAt_append rest rfl rfl
    · rw [if_neg haddress]
      exact length_eq_zero_iff.1 (not_not.1 haddress)

theorem dnsRdataAplNext_text (hmax : (i.text ++ rest).length < 2 ^ 16) :
    ∃ it, dnsRdataAplNext (aplIter (i.text ++ rest)) = .ok (.nomore, it) := by
  have hlen := i.text_length
  have hle : i.text.length ≤ (i.text ++ rest).length := (prefix_append _ _).length_le
  have hlt := i.length_lt
  unfold dnsRdataAplNext aplIter
  rw [Nat.mod_eq_of_lt hmax]
  simp only [aplLength_text, ok_then]
  rw [if_neg (by omega), require_true (decide_eq_true (by omega)), ok_then, require_true (decide_eq_true (by omega)), ok_then,
    require_true (by simp), ok_then, require_true (decide_eq_true (by omega)), ok_then, if_neg (by omega)]
  exact ⟨_, rfl⟩

end First

/-! ### What the loops end with -/

theorem aplText_of_aplLoop (n : ℕ) {r : Bytes} (hn : r.length ≤ n) (h : aplLoop r = .ok ()) : ∃ items, r = aplText items := by
  induction n generalizing r with
  | zero => exact ⟨[], length_eq_zero_iff.1 (Nat.le_zero.1 hn)⟩
  | succ n ih =>
    obtain _ | ⟨a0, _ | ⟨a1, _ | ⟨pfx, _ | ⟨c, sr⟩⟩⟩⟩ := r
    · exact ⟨[], rfl⟩
    · unfold aplLoop at h
      cases h
    · unfold aplLoop at h
      cases h
    · unfold aplLoop at h
      cases h
    · unfold aplLoop at h
      simp only at h
      split_ifs at h with h1 h2 h3 h4
      · cases h
      · cases h
      · cases h
      · cases h
      · simp only [length_cons] at hn
        obtain ⟨items, hitems⟩ := ih (by rw [length_drop]; omega) h
        have hlen : (sr.take (c.toNat % 128)).length = c.toNat % 128 := by
          rw [length_take]
          omega
        have hfamily : (UInt16.ofNat (a0.toNat * 256 + a1.toNat)).toNat = a0.toNat * 256 + a1.toNat := by
          have h0 := a0.toNat_lt
          have h1 := a1.toNat_lt
          exact UInt16.toNat_ofNat_of_lt' (by simp only [UInt16.size]; omega)
        let i : AplItem := ⟨UInt16.ofNat (a0.toNat * 256 + a1.toNat), pfx, decide (128 ≤ c.toNat), sr.take (c.toNat % 128), by omega⟩
        have hbyte : i.lengthByte = c := by
          apply UInt8.toNat_inj.1
          rw [i.lengthByte_toNat]
          show (sr.take (c.toNat % 128)).length + (if decide (128 ≤ c.toNat) = true then 128 else 0) = c.toNat
          have := c.toNat_lt
          rw [hlen]
          simp only [decide_eq_true_eq]
          split_ifs <;> omega
        refine ⟨i :: items, ?_⟩
        rw [aplText, flatMap_cons, AplItem.text, hbyte]
        show _ = uint16Bytes (UInt16.ofNat (a0.toNat * 256 + a1.toNat)).toNat ++ pfx :: c :: sr.take (c.toNat % 128) ++ aplText items
        rw [hfamily, uint16Bytes_read, ← hitems]
        simp

theorem aplEnumerates_iff {items : List AplItem} (hmax : (aplText items).length < 2 ^ 16) :
    (∃ ents, AplEnumerates (aplText items) ents ∧ Forall₂ (AplEnt.Shows (aplText items)) ents items) ↔ items.length = 1 := by
  have hne : Result.success ≠ Result.nomore := nofun
  obtain _ | ⟨i, rest⟩ := items
  · -- the `INSIST` on `apl_len`
    refine ⟨fun h => ?_, nofun⟩
    obtain ⟨ents, ⟨res, it, hfirst, -⟩, -⟩ := h
    cases hfirst
  have hcons : aplText (i :: rest) = i.text ++ aplText rest := flatMap_cons
  rw [hcons] at hmax ⊢
  have hfirst := dnsRdataAplFirst_text i (aplText rest) hmax
  obtain ⟨e, hcurrent, hshows⟩ := dnsRdataAplCurrent_text i (aplText rest) hmax
  obtain ⟨it', hnext⟩ := dnsRdataAplNext_text i (aplText rest) hmax
  constructor
  · rintro ⟨ents, ⟨res, it, hfirst', hrun⟩, hents⟩
    rw [hfirst] at hfirst'
    obtain ⟨rfl, rfl⟩ := Prod.mk.inj (Except.ok.inj hfirst')
    obtain ⟨e', r', it2, ents', -, hnext', hrun', rfl⟩ := (Enumerates.item_iff hne).1 hrun
    rw [hnext] at hnext'
    obtain ⟨rfl, rfl⟩ := Prod.mk.inj (Except.ok.inj hnext')
    obtain rfl := (Enumerates.done_iff hne).1 hrun'
    obtain ⟨-, hnil⟩ := forall₂_cons.1 hents
    rw [forall₂_nil_left_iff.1 hnil]
    rfl
  · intro hone
    obtain rfl : rest = [] := length_eq_zero_iff.1 (Nat.succ_injective hone)
    exact ⟨[e], ⟨_, _, hfirst, .item hcurrent hnext (.done _)⟩, .cons hshows .nil⟩

/-- A run over the servers never gets past the last one. -/
theorem not_enumerates_success {it : HipIter} {names : List Name} :
    ¬Enumerates dnsRdataHipCurrent dnsRdataHipNext .success .nomore .success it names := by
  have hne : Result.success ≠ Result.nomore := nofun
  intro h
  induction names generalizing it with
  | nil =>
    obtain ⟨name, r, it', names', -, -, -, hnil⟩ := (Enumerates.item_iff hne).1 h
    cases hnil
  | cons name names ih =>
    obtain ⟨a, r, it', names', hcurrent, hnext, hrest, heq⟩ := (Enumerates.item_iff hne).1 h
    obtain ⟨rfl, rfl⟩ := cons.inj heq
    obtain ⟨u, hu, -⟩ := bind_eq_ok hcurrent
    have hlt : it.offset < it.serversLen := of_decide_eq_true (require_ok hu)
    unfold dnsRdataHipNext at hnext
    rw [if_neg (by omega)] at hnext
    obtain ⟨n, -, hnext⟩ := bind_eq_ok hnext
    obtain ⟨u, -, hnext⟩ := bind_eq_ok hnext
    obtain ⟨rfl, rfl⟩ := Prod.mk.inj (Except.ok.inj hnext)
    exact ih hrest

theorem tostructHip_layout {hl algorithm k0 k1 : UInt8} {hit key : Bytes} {ns : List AbsName} (hh : hit.length = hl.toNat)
    (hk : key.length = k0.toNat * 256 + k1.toNat) : tostructHip (hl :: algorithm :: k0 :: k1 :: (hit ++ (key ++ servers ns))) =
      .ok ⟨hit, key, servers ns, algorithm.toNat, hl.toNat, k0.toNat * 256 + k1.toNat⟩ := by
  unfold tostructHip
  rw [require_true (by simp), ok_then]
  simp only [uint8Consume_cons, uint16Consume_cons, ok_then]
  rw [memConsume_append hh.symm, ok_then, memConsume_append hk.symm, ok_then]
  rfl

theorem hipEnumerates_iff {r : Bytes} {hip : HipStruct} {ns : List AbsName} (h : tostructHip r = .ok hip) (hservers : hip.servers = servers ns)
    (hmax : (servers ns).length < 2 ^ 16) : HipEnumerates r (ns.map AbsName.name) ↔ ns = [] := by
  constructor
  · rintro ⟨hip', res, it, hstruct, hfirst, hrun⟩
    obtain rfl := Except.ok.inj (h.symm.trans hstruct)
    unfold dnsRdataHipFirst hipIter at hfirst
    rw [hservers, Nat.mod_eq_of_lt hmax] at hfirst
    simp only at hfirst
    split_ifs at hfirst with hempty
    · cases ns with
      | nil => rfl
      | cons n ns =>
        have hpos := length_pos_of_ne_nil (ndata_ne_nil n)
        rw [servers, flatMap_cons, length_append] at hempty
        omega
    · obtain ⟨rfl, rfl⟩ := Prod.mk.inj (Except.ok.inj hfirst)
      exact absurd hrun not_enumerates_success
  · rintro rfl
    refine ⟨hip, .nomore, hipIter hip, h, ?_, .done _⟩
    unfold dnsRdataHipFirst hipIter
    rw [hservers]
    rfl

/-- **Iterators.**  The loop of a caller over accepted APL rdata shows the encoded items if and only if there is one item; over the servers of
accepted HIP rdata it shows their names if and only if there are none. -/
theorem iterators (validate : Bytes → ℤ) (r : Bytes) : (Accepted validate .apl r → ∃ items, r = aplText items ∧
      ((∃ ents, AplEnumerates r ents ∧ Forall₂ (AplEnt.Shows r) ents items) ↔ items.length = 1)) ∧
    (Accepted validate .hip r → ∃ hip ns, tostructHip r = .ok hip ∧ hip.servers = servers ns ∧
      (HipEnumerates r (ns.map AbsName.name) ↔ ns = [])) := by
  constructor
  · intro h
    obtain ⟨hlayout, hmax⟩ := layout_of_accepted h
    cases hlayout with
    | apl r hloop =>
      obtain ⟨items, rfl⟩ := aplText_of_aplLoop _ le_rfl hloop
      exact ⟨items, rfl, aplEnumerates_iff (lt_of_le_of_lt hmax (by decide))⟩
  · intro h
    obtain ⟨hlayout, hmax⟩ := layout_of_accepted h
    cases hlayout with
    | hip hl algorithm k0 k1 hit key ns hh hk =>
      have hstruct := @tostructHip_layout hl algorithm k0 k1 hit key ns hh hk
      refine ⟨_, ns, hstruct, rfl, hipEnumerates_iff hstruct rfl ?_⟩
      have hlt := lt_of_le_of_lt hmax (show DNS_RDATA_MAXLENGTH < 2 ^ 16 by decide)
      simp only [length_cons, length_append] at hlt
      omega

theorem accepted_hip (validate : Bytes → ℤ) (c : UInt8) : Accepted validate .hip [1, 2, 0, 1, 7, 8, 1, c, 0] := by
  let env : WireEnv := ⟨[1, 2, 0, 1, 7, 8, 1, c, 0], .any, false, validate⟩
  have hname : env.name DNS_COMPRESS_NONE ⟨6, ⟨[1, 2, 0, 1, 7, 8], 100⟩⟩ = .ok ⟨9, ⟨[1, 2, 0, 1, 7, 8, 1, c, 0], 100⟩⟩ :=
    WireEnv.name_of_ndata (oneLetter c) rfl ⟨[], rfl⟩ (by simp [Buffer.available, Buffer.used, oneLetter_length])
  have hend : hipServers env ⟨9, ⟨[1, 2, 0, 1, 7, 8, 1, c, 0], 100⟩⟩ = .ok ⟨9, ⟨[1, 2, 0, 1, 7, 8, 1, c, 0], 100⟩⟩ := by
    rw [hipServers, dif_neg (by simp [env])]
  have hservers : hipServers env ⟨6, ⟨[1, 2, 0, 1, 7, 8], 100⟩⟩ = .ok ⟨9, ⟨[1, 2, 0, 1, 7, 8, 1, c, 0], 100⟩⟩ := by
    rw [hipServers, dif_pos (by simp [env])]
    split
    · next e he => cases hname.symm.trans he
    next st' hst =>
      obtain rfl := Except.ok.inj (hname.symm.trans hst)
      exact hend
  have hhip : fromwireSwitch env ⟨0, ⟨[], 100⟩⟩ .hip = .ok ⟨9, ⟨[1, 2, 0, 1, 7, 8, 1, c, 0], 100⟩⟩ := by
    have hregion : env.activeregion ⟨0, ⟨[], 100⟩⟩ = [1, 2, 0, 1, 7, 8, 1, c, 0] := rfl
    have hmem : (⟨0, ⟨[], 100⟩⟩ : WireState).mem [1, 2, 0, 1, 7, 8] = .ok ⟨0, ⟨[1, 2, 0, 1, 7, 8], 100⟩⟩ := rfl
    simp [fromwireSwitch, fromwireHip, hregion, uint8Fromregion, uint16Fromregion, consume, hmem, WireState.forward, hservers]
  exact accepted_of_switch (by simp [WireEnv.activeregion, env]) hhip (by simp [DNS_RDATA_MAXLENGTH, Buffer.used]) rfl

theorem accepted_hip_none (validate : Bytes → ℤ) : Accepted validate .hip [1, 2, 0, 1, 7, 8] := by
  let env : WireEnv := ⟨[1, 2, 0, 1, 7, 8], .any, false, validate⟩
  have hservers : hipServers env ⟨6, ⟨[1, 2, 0, 1, 7, 8], 100⟩⟩ = .ok ⟨6, ⟨[1, 2, 0, 1, 7, 8], 100⟩⟩ := by
    rw [hipServers, dif_neg (by simp [env])]
  have hhip : fromwireSwitch env ⟨0, ⟨[], 100⟩⟩ .hip = .ok ⟨6, ⟨[1, 2, 0, 1, 7, 8], 100⟩⟩ := by
    have hregion : env.activeregion ⟨0, ⟨[], 100⟩⟩ = [1, 2, 0, 1, 7, 8] := rfl
    have hmem : (⟨0, ⟨[], 100⟩⟩ : WireState).mem [1, 2, 0, 1, 7, 8] = .ok ⟨0, ⟨[1, 2, 0, 1, 7, 8], 100⟩⟩ := rfl
    simp [fromwireSwitch, fromwireHip, hregion, uint8Fromregion, uint16Fromregion, consume, hmem, WireState.forward, hservers]
  exact accepted_of_switch (by simp [WireEnv.activeregion, env]) hhip (by simp [DNS_RDATA_MAXLENGTH, Buffer.used]) rfl

theorem accepted_apl (validate : Bytes → ℤ) {r : Bytes} (hloop : aplLoop r = .ok ()) (hr : r.length ≤ 100) :
    Accepted validate .apl r := by
  have hroom : ¬ (100 : ℕ) < r.length := by omega
  have hrest : restFromwire ⟨r, .any, false, validate⟩ ⟨0, ⟨[], 100⟩⟩ = .ok ⟨r.length, ⟨r, 100⟩⟩ := by
    simp [restFromwire, WireEnv.activeregion, WireState.mem, memTobuffer, Buffer.available, Buffer.used, WireState.forward, Buffer.put,
      hroom]
  have hapl : fromwireSwitch ⟨r, .any, false, validate⟩ ⟨0, ⟨[], 100⟩⟩ .apl = .ok ⟨r.length, ⟨r, 100⟩⟩ := by
    simp [fromwireSwitch, fromwireApl, WireEnv.activeregion, hloop, Buffer.available, Buffer.used, hroom, hrest]
  have hlt : r.length < 65536 := lt_of_le_of_lt hr (by decide)
  exact accepted_of_switch (by simpa [WireEnv.activeregion] using hlt) hapl (le_trans hr (by decide)) rfl

/-- One address, and no server. -/
theorem iterators_single : (∃ (items : List AplItem) (ents : List AplEnt), AplEnumerates [0, 1, 8, 1, 10] ents ∧
      Forall₂ (AplEnt.Shows [0, 1, 8, 1, 10]) ents items ∧ [0, 1, 8, 1, 10] = aplText items ∧ items.length = 1) ∧
    ∃ hip, tostructHip [1, 2, 0, 1, 7, 8] = .ok hip ∧ HipEnumerates [1, 2, 0, 1, 7, 8] [] := by
  have hone : aplLoop [0, 1, 8, 1, 10] = .ok () := by simp [aplLoop]
  obtain ⟨items, hitems, hapl⟩ := (iterators (fun _ => 0) [0, 1, 8, 1, 10]).1 (accepted_apl _ hone (by decide))
  obtain ⟨hip, ns, hstruct, hservers, hhip⟩ := (iterators (fun _ => 0) [1, 2, 0, 1, 7, 8]).2 (accepted_hip_none _)
  have hlength : items.length = 1 := by
    have htext := congrArg List.length hitems
    obtain _ | ⟨a, _ | ⟨b, rest⟩⟩ := items
    · cases hitems
    · rfl
    · simp [aplText, AplItem.text, uint16Bytes] at htext
      omega
  obtain ⟨ents, henum, hshows⟩ := hapl.2 hlength
  have hnone : ns = [] := by
    have hempty : hip.servers = [] := by
      have hsame := @tostructHip_layout 1 2 0 1 [7] [8] [] rfl rfl
      rw [Except.ok.inj (hstruct.symm.trans hsame)]
      rfl
    obtain _ | ⟨n, ns⟩ := ns
    · rfl
    · exact absurd (append_eq_nil_iff.1 (hservers.symm.trans hempty)).1 (ndata_ne_nil n)
  subst hnone
  exact ⟨⟨items, ents, henum, hshows, hitems, hlength⟩, hip, hstruct, hhip.2 rfl⟩

/-- No item: an `INSIST` fails.  Two items: the second is not shown.  One server: a `REQUIRE` fails behind it. -/
theorem iterators_fail :
    (Accepted (fun _ => 0) .apl [] ∧ dnsRdataAplFirst (aplIter []) = .error .assertion ∧ ∀ ents, ¬AplEnumerates [] ents) ∧
    (Accepted (fun _ => 0) .apl [0, 1, 8, 1, 10, 0, 1, 8, 1, 11] ∧
      dnsRdataAplFirst (aplIter [0, 1, 8, 1, 10, 0, 1, 8, 1, 11]) = .ok (.success, aplIter [0, 1, 8, 1, 10, 0, 1, 8, 1, 11]) ∧
      dnsRdataAplNext (aplIter [0, 1, 8, 1, 10, 0, 1, 8, 1, 11]) = .ok (.nomore, ⟨some [0, 1, 8, 1, 10, 0, 1, 8, 1, 11], 10, 1⟩)) ∧
    (Accepted (fun _ => 0) .hip [1, 2, 0, 1, 7, 8, 1, 97, 0] ∧ (∃ hip, tostructHip [1, 2, 0, 1, 7, 8, 1, 97, 0] = .ok hip ∧
      dnsRdataHipFirst (hipIter hip) = .ok (.success, ⟨[1, 97, 0], 3, 0⟩)) ∧
      dnsRdataHipCurrent ⟨[1, 97, 0], 3, 0⟩ = .ok (oneLetter 97).name ∧
      dnsRdataHipNext ⟨[1, 97, 0], 3, 0⟩ = .ok (.success, ⟨[1, 97, 0], 3, 3⟩) ∧
      dnsRdataHipCurrent ⟨[1, 97, 0], 3, 3⟩ = .error .assertion) := by
  have hempty : Accepted (fun _ => 0) .apl [] := accepted_apl _ (by rw [aplLoop]) (by decide)
  have htwo : Accepted (fun _ => 0) .apl [0, 1, 8, 1, 10, 0, 1, 8, 1, 11] := by
    have hsecond : aplLoop [0, 1, 8, 1, 11] = .ok () := by simp [aplLoop]
    exact accepted_apl _ (by simp [aplLoop]) (by decide)
  have hstruct := @tostructHip_layout 1 2 0 1 [7] [8] [oneLetter 97] rfl rfl
  refine ⟨⟨hempty, rfl, fun ents h => ?_⟩, ⟨htwo, by decide, by decide⟩, accepted_hip _ 97, ⟨_, hstruct, rfl⟩, by decide, by decide, by decide⟩
  obtain ⟨res, it, hfirst, -⟩ := h
  cases hfirst

end Bind9.Rdata
