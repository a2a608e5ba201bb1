import Bind9.NameWire

/-! # Decoding names safely

`dns_name_fromwire` with every access to memory that it makes: the bytes of the source, the 128 entries of the offsets table,
the free bytes of the target.  It never leaves them, it ends, and it succeeds exactly when labels stand at the place where it
starts (`Encodes`) that fit; a failure leaves the name empty and the buffers as they were. -/

namespace Bind9

open List

/-- An access to memory. -/
def inRange (b : Bool) : Exec Unit := if b then .ok () else .error .overrun

theorem inRange_true {b : Bool} (h : b = true) : inRange b = .ok () := by
  unfold inRange
  rw [h]
  rfl

/-- A result other than `ISC_R_SUCCESS` is returned. -/
def ofResult {α : Type} : Except Result α → Exec α
  | .ok a => .ok a
  | .error r => .error (.result r)

/-- The writes of a turn of the loop, with `c` just read: the entry of the offsets table comes before the test for space. -/
def fwWrites (env : FwEnv) (space : ℕ) (v : FwLocals) (c : UInt8) : Exec Unit :=
  match v.state with
  | .start =>
    if c.toNat < 64 then do
      inRange (v.labels < 128)
      if v.nused + c.toNat + 1 > env.nmax then return () else inRange (v.ndata.length < space)
    else .ok ()
  | .ordinary => inRange (v.ndata.length < space)
  | .newcurrent => .ok ()

/-- A turn of the loop with its accesses. -/
def fwTurn (env : FwEnv) (space : ℕ) (v : FwLocals) : Exec FwLocals := do
  let c ← byteAt env.source v.current
  fwWrites env space v c
  ofResult (fwStep env v)

theorem fwTurn_ok {env : FwEnv} {space : ℕ} {v v' : FwLocals} (h : fwTurn env space v = .ok v') : fwStep env v = .ok v' := by
  obtain ⟨c, -, h⟩ := bind_eq_ok h
  obtain ⟨_, -, h⟩ := bind_eq_ok h
  cases hs : fwStep env v with
  | error r =>
    rw [hs] at h
    cases h
  | ok w =>
    rw [hs] at h
    cases h
    rfl

/-- The loop. -/
def fwRun (env : FwEnv) (space : ℕ) (v : FwLocals) : Exec FwLocals :=
  if _h : v.current < env.source.length ∧ v.done = false then
    match _hs : fwTurn env space v with
    | .error e => .error e
    | .ok v' => fwRun env space v'
  else .ok v
termination_by (v.biggestPointer, env.source.length - v.current)
decreasing_by
  rcases fwStep_progress (fwTurn_ok _hs) with hb | ⟨hb, hc⟩
  · exact Prod.Lex.left _ _ hb
  · rw [hb, hc]
    exact Prod.Lex.right _ (by omega)

/-- The name `MAKE_EMPTY` makes; the offsets table stays with the name. -/
def DnsName.empty (table : Bool) : DnsName := ⟨[], 0, false, if table then some [] else none⟩

/-- What is left of a call that makes a name: the name, `source->current`, the target and the result. -/
structure NameResult where
  name : DnsName
  current : ℕ
  target : Buffer
  result : Result
deriving DecidableEq, Repr

/-- `dns_name_fromwire` for a name with or without an offsets table.  Bytes behind `target->used` do not count. -/
def dnsNameFromwire (source : Bytes) (current : ℕ) (target : Buffer) (downcase : Bool) (allowed : UInt32) (table : Bool) :
    Exec NameResult :=
  match fwRun ⟨source, min target.available 255, downcase, allowed⟩ target.available (fwInit current) with
  | .error (.result r) => .ok ⟨.empty table, current, target, r⟩
  | .error e => .error e
  | .ok v =>
    if v.done then
      .ok ⟨⟨v.ndata, v.labels, true, if table then some v.offsets else none⟩, current + v.cused, target.put v.ndata, .success⟩
    else .ok ⟨.empty table, current, target, .unexpectedend⟩

/-! ### The accesses are in range -/

/-- Every label so far has two bytes. -/
def FwLocals.Counted (env : FwEnv) (v : FwLocals) : Prop := v.done = false → 2 * v.labels ≤ v.nused ∧ v.nused ≤ env.nmax

section safe

variable {env : FwEnv} {space : ℕ} {v v' : FwLocals}

theorem fwStep_counted (hd : v.done = false) (hv : v.Counted env) (h : fwStep env v = .ok v') : v'.Counted env := by
  intro hd'
  obtain ⟨hlabels, hnused⟩ := hv hd
  unfold fwStep at h
  cases hs : v.state with
  | start =>
    simp only [hs, fwStart] at h
    split at h
    next hc =>
      split at h
      · cases h
      next hfits =>
        cases h
        simp only [FwLocals.advance, Bool.or_eq_false_iff, beq_eq_false_iff_ne] at hd' hfits ⊢
        omega
    · split at h
      · cases h
      · split at h
        · split at h
          · cases h
          · cases h
            exact ⟨hlabels, hnused⟩
        · cases h
  | ordinary =>
    simp only [hs] at h
    cases h
    exact ⟨hlabels, hnused⟩
  | newcurrent =>
    simp only [hs, fwNewcurrent] at h
    split at h
    · cases h
      exact ⟨hlabels, hnused⟩
    split at h
    · cases h
    · cases h
      exact ⟨hlabels, hnused⟩

theorem fwTurn_eq (hc : v.current < env.source.length) (hd : v.done = false) (hw : v.Wrote env) (hv : v.Counted env)
    (hmax : env.nmax ≤ 255) (hspace : env.nmax ≤ space) : fwTurn env space v = ofResult (fwStep env v) := by
  obtain ⟨hlabels, hnused⟩ := hv hd
  have hbyte : byteAt env.source v.current = .ok env.source[v.current] := by
    unfold byteAt
    rw [getElem?_eq_getElem hc]
  have hwrites : fwWrites env space v env.source[v.current] = .ok () := by
    unfold fwWrites
    cases hs : v.state with
    | start =>
      simp only
      split
      · rw [inRange_true (decide_eq_true (by omega)), ok_then]
        split
        · rfl
        next hfits =>
          simp only [FwLocals.Wrote, hd, hs, Bool.false_eq_true, if_false, reduceCtorEq] at hw
          obtain ⟨ls, -, -, hlen, -⟩ := hw
          exact inRange_true (decide_eq_true (by omega))
      · rfl
    | ordinary =>
      simp only [FwLocals.Wrote, hd, hs, Bool.false_eq_true, if_false, if_true] at hw
      obtain ⟨ls, l, -, -, hpos, -, hlen, -⟩ := hw
      exact inRange_true (decide_eq_true (by omega))
    | newcurrent => rfl
  unfold fwTurn
  rw [hbyte, ok_then, hwrites, ok_then]

/-- So are those of the whole loop. -/
theorem fwRun_eq (hmax : env.nmax ≤ 255) (hspace : env.nmax ≤ space) (v : FwLocals) : v.Wrote env → v.Counted env →
    fwRun env space v = ofResult (fwLoop env v) := by
  induction v using fwLoop.induct env with
  | case1 v hc r hr =>
    intro hw hv
    have hturn := fwTurn_eq hc.1 hc.2 hw hv hmax hspace
    rw [hr] at hturn
    rw [fwRun, dif_pos hc, fwLoop, dif_pos hc]
    split
    next e he =>
      rw [hturn] at he
      cases he
      split
      next r' hr' =>
        rw [hr] at hr'
        cases hr'
        rfl
      next w hw' =>
        rw [hr] at hw'
        cases hw'
    next w he =>
      rw [hturn] at he
      cases he
  | case2 v hc w hs ih =>
    intro hw hv
    have hturn := fwTurn_eq hc.1 hc.2 hw hv hmax hspace
    rw [hs] at hturn
    rw [fwLoop_step hc.1 hc.2 hs, ← ih (fwStep_wrote hc.2 hw hs) (fwStep_counted hc.2 hv hs), fwRun, dif_pos hc]
    split
    next e he =>
      rw [hturn] at he
      cases he
    next w' he =>
      rw [hturn] at he
      cases he
      rfl
  | case3 v hc =>
    intro _ _
    rw [fwRun, dif_neg hc, fwLoop, dif_neg hc]
    rfl

end safe

/-! ### What is accepted stands in the source -/

/-- Labels stand at `p` that fit into what is left of `nmax` bytes; a pointer is only there when it is allowed. -/
def FwEnv.Reads (env : FwEnv) (s p nused : ℕ) : Prop :=
  ∃ ls e, Encodes env.source s p e ls ∧ (env.allowed &&& DNS_COMPRESS_GLOBAL14 ≠ 0 ∨ e = p + Name.length ⟨ls⟩) ∧
    nused + Name.length ⟨ls⟩ ≤ env.nmax

/-- What the loop is about to read when it comes to its end. -/
def FwLocals.Accepts (env : FwEnv) (v : FwLocals) : Prop :=
  match v.state with
  | .start => env.Reads v.biggestPointer v.current v.nused
  | .ordinary => 0 < v.n → ∃ l : Label, l.length = v.n ∧ l <+: env.source.drop v.current ∧
      env.Reads v.biggestPointer (v.current + v.n) v.nused
  | .newcurrent => v.n = 1 → ∃ c, [c] <+: env.source.drop v.current ∧ v.newCurrent * 256 + c.toNat < v.biggestPointer ∧
      env.Reads (v.newCurrent * 256 + c.toNat) (v.newCurrent * 256 + c.toNat) v.nused

section accepts

variable {env : FwEnv} {v v' : FwLocals}

theorem cons_prefix_drop {bs : Bytes} {p : ℕ} (h : p < bs.length) {l : Bytes} (hl : l <+: bs.drop (p + 1)) :
    bs.getD p 0 :: l <+: bs.drop p := by
  rw [getD_eq_getElem?_getD, getElem?_eq_getElem h, drop_eq_getElem_cons h]
  exact cons_prefix_cons.2 ⟨rfl, hl⟩

theorem FwEnv.Reads.label {s p nused : ℕ} {l : Label} (h : env.Reads s (p + l.length + 1) (nused + l.length + 1)) (hne : l ≠ [])
    (hle : l.length ≤ 63) (hl : l.wire <+: env.source.drop p) : env.Reads s p nused := by
  obtain ⟨ls, e, henc, hallowed, hfits⟩ := h
  refine ⟨l :: ls, e, .label hne hle hl henc, hallowed.imp id (fun he => ?_), ?_⟩
  · rw [Name.length_cons]
    omega
  · rw [Name.length_cons]
    omega

theorem FwEnv.Reads.pointer {s p t nused : ℕ} (h : env.Reads t t nused) (hs : t < s) (ht : t < 0x4000)
    (hg : env.allowed &&& DNS_COMPRESS_GLOBAL14 ≠ 0) (hp : uint16Bytes (t ||| 0xc000) <+: env.source.drop p) :
    env.Reads s p nused := by
  obtain ⟨ls, e, henc, -, hfits⟩ := h
  exact ⟨ls, p + 2, .pointer hs ht hp henc, Or.inl hg, hfits⟩

theorem fwStart_accepts (hs : v.state = .start) (hd : v.done = false) (hc : v.current < env.source.length)
    (h : fwStep env v = .ok v') (ih : v'.done = false → v'.Accepts env) : v.Accepts env := by
  have hcons := @cons_prefix_drop _ _ hc
  unfold FwLocals.Accepts
  simp only [hs]
  unfold fwStep at h
  simp only [hs, fwStart] at h
  generalize env.source.getD v.current 0 = c at h hcons
  have hbyte : UInt8.ofNat c.toNat = c := UInt8.ofNat_toNat
  split at h
  next hlt =>
    split at h
    · cases h
    next hfits =>
      have hfits : ¬ (v.nused + c.toNat + 1 > env.nmax) := hfits
      cases h
      by_cases hzero : c.toNat = 0
      · have hroot : [0] <+: env.source.drop v.current := by
          have hhead := hcons nil_prefix
          rw [← hbyte, hzero] at hhead
          exact hhead
        refine ⟨[[]], v.current + 1, .root hroot, Or.inr rfl, ?_⟩
        have hone : Name.length ⟨[[]]⟩ = 1 := rfl
        omega
      have hnotdone : ((v.advance 1).done || c.toNat == 0) = false := by
        rw [Bool.or_eq_false_iff, beq_eq_false_iff_ne]
        exact ⟨hd, hzero⟩
      have hread := ih hnotdone
      simp only [FwLocals.Accepts] at hread
      obtain ⟨l, hlen, hl, hread⟩ := hread (Nat.pos_of_ne_zero hzero)
      have hne : l ≠ [] := by
        rintro rfl
        exact hzero hlen.symm
      refine FwEnv.Reads.label ?_ hne (by omega) ?_ (l := l)
      · rw [hlen]
        have hplace : v.current + 1 + c.toNat = v.current + c.toNat + 1 := by omega
        exact hplace ▸ hread
      · have hwire : l.wire = c :: l := by
          unfold Label.wire
          rw [hlen, hbyte]
        rw [hwire]
        exact hcons hl
  · split at h
    · cases h
    · split at h
      next hge =>
        split at h
        · cases h
        next hg =>
          cases h
          have hread := ih hd
          simp only [FwLocals.Accepts] at hread
          obtain ⟨c', hc', hbig, hread⟩ := hread trivial
          have hlt := c.toNat_lt
          have hlt' := c'.toNat_lt
          have hsmall : c.toNat % 64 * 256 + c'.toNat < 0x4000 := by omega
          obtain ⟨hhi, hlo⟩ := pointer_bytes hsmall
          refine FwEnv.Reads.pointer hread hbig hsmall hg ?_
          have hbytes : uint16Bytes ((c.toNat % 64 * 256 + c'.toNat) ||| 0xc000) = [c, c'] := by
            unfold uint16Bytes
            have h1 : UInt8.ofNat (((c.toNat % 64 * 256 + c'.toNat) ||| 0xc000) / 256) = c := by
              apply UInt8.toNat_inj.1
              omega
            have h2 : UInt8.ofNat (((c.toNat % 64 * 256 + c'.toNat) ||| 0xc000) % 256) = c' := by
              apply UInt8.toNat_inj.1
              omega
            rw [h1, h2]
          rw [hbytes]
          exact hcons hc'
      · cases h

theorem fwOrdinary_accepts (hs : v.state = .ordinary) (hd : v.done = false) (hc : v.current < env.source.length)
    (h : fwStep env v = .ok v') (ih : v'.done = false → v'.Accepts env) : v.Accepts env := by
  have hcons := @cons_prefix_drop _ _ hc
  unfold FwLocals.Accepts
  simp only [hs]
  intro hpos
  unfold fwStep at h
  simp only [hs] at h
  generalize env.source.getD v.current 0 = c at h hcons
  cases h
  have hread := ih hd
  unfold FwLocals.Accepts fwOrdinary at hread
  by_cases hlast : (v.advance 1).n - 1 = 0
  · rw [if_pos hlast] at hread
    have hone : v.n = 1 := by
      have hn : (v.advance 1).n = v.n := rfl
      omega
    refine ⟨[c], hone.symm, hcons nil_prefix, ?_⟩
    rw [hone]
    exact hread
  rw [if_neg hlast] at hread
  have hmore : 0 < v.n - 1 := Nat.pos_of_ne_zero hlast
  obtain ⟨l, hlen, hl, hread⟩ := hread hmore
  refine ⟨c :: l, ?_, hcons hl, ?_⟩
  · have hlen : l.length = v.n - 1 := hlen
    rw [List.length_cons]
    omega
  · have hplace : v.current + 1 + (v.n - 1) = v.current + v.n := by omega
    have hread : env.Reads v.biggestPointer (v.current + 1 + (v.n - 1)) v.nused := hread
    rw [hplace] at hread
    exact hread

theorem fwNewcurrent_accepts (hs : v.state = .newcurrent) (hd : v.done = false) (hc : v.current < env.source.length)
    (h : fwStep env v = .ok v') (ih : v'.done = false → v'.Accepts env) : v.Accepts env := by
  have hcons := @cons_prefix_drop _ _ hc
  unfold FwLocals.Accepts
  simp only [hs]
  intro hone
  unfold fwStep at h
  simp only [hs, fwNewcurrent] at h
  generalize env.source.getD v.current 0 = c at h hcons
  have hlast : ¬ ((v.advance 1).n - 1 ≠ 0) := by
    have hn : (v.advance 1).n = v.n := rfl
    omega
  rw [if_neg hlast] at h
  split at h
  · cases h
  next hbig =>
    cases h
    have hread := ih hd
    exact ⟨c, hcons nil_prefix, not_le.1 hbig, hread⟩

theorem fwLoop_accepts (env : FwEnv) (v : FwLocals) : ∀ v', fwLoop env v = .ok v' → v'.done = true → v.done = false →
    v.Accepts env := by
  induction v using fwLoop.induct env with
  | case1 v hc r hr =>
    intro v' h _ _
    rw [fwLoop, dif_pos hc] at h
    split at h
    · cases h
    next w hs =>
      rw [hr] at hs
      cases hs
  | case2 v hc w hs ih =>
    intro v' h hdone hd
    rw [fwLoop_step hc.1 hc.2 hs] at h
    have ih := ih v' h hdone
    cases hstate : v.state with
    | start => exact fwStart_accepts hstate hd hc.1 hs ih
    | ordinary => exact fwOrdinary_accepts hstate hd hc.1 hs ih
    | newcurrent => exact fwNewcurrent_accepts hstate hd hc.1 hs ih
  | case3 v hc =>
    intro v' h hdone hd
    rw [fwLoop, dif_neg hc] at h
    cases h
    rw [hd] at hdone
    cases hdone

end accepts

/-! ### The whole function -/

theorem Encodes.le_length {buf : Bytes} {s p e : ℕ} {ls : List Label} (h : Encodes buf s p e ls) : e ≤ buf.length := by
  induction h with
  | root h =>
    have hle := h.length_le
    rw [length_singleton, length_drop] at hle
    omega
  | label _ _ _ _ ih => exact ih
  | @pointer s p t e ls hs ht h _ _ =>
    have hle := h.length_le
    have htwo : (uint16Bytes (t ||| 0xc000)).length = 2 := rfl
    rw [htwo, length_drop] at hle
    omega

theorem Encodes.copied_le {buf : Bytes} {s p e : ℕ} {ls : List Label} (h : Encodes buf s p e ls) (downcase : Bool) :
    ∀ l ∈ (if downcase then ls.map Label.lower else ls), l.length ≤ 63 := by
  have hle : ∀ l ∈ ls, l.length ≤ 63 := by
    induction h with
    | root _ =>
      intro l hl
      rw [mem_singleton.1 hl]
      exact Nat.zero_le _
    | label _ hle _ _ ih =>
      intro l hl
      obtain rfl | hl := mem_cons.1 hl
      · exact hle
      · exact ih l hl
    | pointer _ _ _ _ ih => exact ih
  cases downcase with
  | false => exact hle
  | true =>
    intro l hl
    obtain ⟨l', hl', rfl⟩ := mem_map.1 hl
    rw [Label.lower_length]
    exact hle l' hl'

theorem fwStep_error {env : FwEnv} {v : FwLocals} {r : Result} (h : fwStep env v = .error r) : r ≠ .success := by
  unfold fwStep at h
  cases hs : v.state with
  | start =>
    simp only [hs, fwStart] at h
    split_ifs at h <;> cases h <;> exact Result.noConfusion
  | ordinary =>
    simp only [hs] at h
    cases h
  | newcurrent =>
    simp only [hs, fwNewcurrent] at h
    split_ifs at h
    cases h
    exact Result.noConfusion

theorem fwLoop_error (env : FwEnv) (v : FwLocals) : ∀ r, fwLoop env v = .error r → r ≠ .success := by
  induction v using fwLoop.induct env with
  | case1 v hc r' hr =>
    intro r h
    rw [fwLoop, dif_pos hc] at h
    split at h
    next r'' hs =>
      cases h
      exact fwStep_error hs
    next w hs =>
      rw [hr] at hs
      cases hs
  | case2 v hc w hs ih =>
    intro r h
    rw [fwLoop_step hc.1 hc.2 hs] at h
    exact ih r h
  | case3 v hc =>
    intro r h
    rw [fwLoop, dif_neg hc] at h
    cases h

section call

variable (source : Bytes) (current : ℕ) (target : Buffer) (downcase : Bool) (allowed : UInt32) (table : Bool)

/-- What `dns_name_fromwire` makes of the result of the decoder. -/
abbrev nameResult : Except Result Decoded → Exec NameResult
  | .error r => .ok ⟨.empty table, current, target, r⟩
  | .ok d => .ok ⟨⟨d.ndata, d.labels, true, if table then some d.offsets else none⟩, current + d.cused, target.put d.ndata, .success⟩

theorem dnsNameFromwire_eq : dnsNameFromwire source current target downcase allowed table =
    nameResult current target table (fromwire source current target.available downcase allowed) := by
  have hwrote : (fwInit current).Wrote ⟨source, min target.available 255, downcase, allowed⟩ := by
    simp only [FwLocals.Wrote, fwInit, Bool.false_eq_true, if_false, reduceCtorEq]
    exact ⟨[], List.forall_mem_nil _, rfl, rfl, Nat.zero_le _⟩
  have hcounted : (fwInit current).Counted ⟨source, min target.available 255, downcase, allowed⟩ :=
    fun _ => ⟨le_refl _, Nat.zero_le _⟩
  unfold dnsNameFromwire fromwire
  rw [fwRun_eq (Nat.min_le_right _ _) (Nat.min_le_left _ _) _ hwrote hcounted]
  cases hloop : fwLoop ⟨source, min target.available 255, downcase, allowed⟩ (fwInit current) with
  | error r => rfl
  | ok v =>
    simp only [ofResult]
    cases v.done with
    | true => rfl
    | false => rfl

/-- The decoder accepts exactly what stands in the source and fits. -/
theorem fromwire_isOk_iff : (∃ d, fromwire source current target.available downcase allowed = .ok d) ↔
    ∃ ls e, Encodes source current current e ls ∧ (allowed &&& DNS_COMPRESS_GLOBAL14 ≠ 0 ∨ e = current + Name.length ⟨ls⟩) ∧
      Name.length ⟨ls⟩ ≤ min 255 target.available := by
  constructor
  · rintro ⟨d, h⟩
    unfold fromwire at h
    split at h
    · cases h
    next v hv =>
      split at h
      next hdone =>
        obtain ⟨ls, e, henc, hg, hfits⟩ := fwLoop_accepts _ _ v hv hdone rfl
        have hfits : 0 + Name.length ⟨ls⟩ ≤ min target.available 255 := hfits
        exact ⟨ls, e, henc, hg, by omega⟩
      · cases h
  · rintro ⟨ls, e, henc, hg, hfits⟩
    exact ⟨_, fromwire_of_encodes target.available downcase henc (le_refl _) (by omega) (by omega) hg⟩

/-- `dns_name_fromwire` on every input: it returns without leaving its tables; it succeeds exactly when labels stand at
`current` that fit, and pointers are allowed if there are any; then the name is that of the labels, valid and absolute, with
the offsets that `set_offsets` finds, the source is behind the first pointer or the root label and the target behind the name;
otherwise the name is empty and the buffers are as they were. -/
theorem fromwire_safe : ∃ out, dnsNameFromwire source current target downcase allowed table = .ok out ∧
    (out.result = .success ↔ ∃ ls e, Encodes source current current e ls ∧
      (allowed &&& DNS_COMPRESS_GLOBAL14 ≠ 0 ∨ e = current + Name.length ⟨ls⟩) ∧
      Name.length ⟨ls⟩ ≤ min 255 target.available) ∧ (out.result = .success → ∃ n e, Encodes source current current e n ∧
      out.name.Is ⟨if downcase then n.map Label.lower else n⟩ ∧ out.name.absolute = true ∧
      out.name.ndata.length ≤ 255 ∧ out.name.labels ≤ 128 ∧
      (∀ offsets, out.name.offsets = some offsets → out.name.setOffsets = .ok offsets) ∧
      out.current = e ∧ e ≤ source.length ∧ out.target = target.put out.name.ndata) ∧
    (out.result ≠ .success → out.name = .empty table ∧ out.current = current ∧ out.target = target) := by
  rw [dnsNameFromwire_eq, ← fromwire_isOk_iff source current target downcase allowed]
  cases hread : fromwire source current target.available downcase allowed with
  | error r =>
    have hr : r ≠ .success := by
      unfold fromwire at hread
      split at hread
      next r' hloop =>
        cases hread
        exact fwLoop_error _ _ r hloop
      · split at hread
        · cases hread
        · cases hread
          exact Result.noConfusion
    refine ⟨_, rfl, ⟨fun h => absurd h hr, fun h => ?_⟩, fun h => absurd h hr, fun _ => ⟨rfl, rfl, rfl⟩⟩
    obtain ⟨d, hd⟩ := h
    cases hd
  | ok d =>
    obtain ⟨ls, e, henc, hg, hfits⟩ := (fromwire_isOk_iff source current target downcase allowed).1 ⟨d, hread⟩
    have hfits' : Name.length ⟨ls⟩ ≤ 255 ∧ Name.length ⟨ls⟩ ≤ target.available := by omega
    have hlabels := fromwire_of_encodes target.available downcase henc (le_refl _) hfits'.1 hfits'.2 hg
    cases Except.ok.inj (hread.symm.trans hlabels)
    obtain ⟨n, hndata, -⟩ := fromwire_ok hread
    have hmap : ∀ l ∈ (if downcase then ls.map Label.lower else ls), l.length ≤ 63 := henc.copied_le downcase
    have hname : (⟨if downcase then ls.map Label.lower else ls⟩ : Name) = n.name :=
      congrArg Name.mk (Name.ndata_inj hmap n.valid.label_le hndata)
    have hoffsets : Name.offsets ⟨ls⟩ = n.name.offsets := by
      rw [← hname]
      cases downcase with
      | false => rfl
      | true => exact (Name.offsetsFrom_map_lower ls 0).symm
    have hcount : ls.length = n.name.countlabels := by
      rw [← hname]
      cases downcase with
      | false => rfl
      | true => exact (length_map ..).symm
    have hIs : DnsName.Is ⟨Name.ndata ⟨if downcase then ls.map Label.lower else ls⟩, ls.length, true,
        if table then some (Name.offsets ⟨ls⟩) else none⟩ n.name := by
      refine ⟨n.valid, hndata, hcount, n.absolute.symm, fun offsets ho => ?_⟩
      cases table with
      | false => cases ho
      | true =>
        cases ho
        rw [hoffsets]
    have hlt := henc.lt
    refine ⟨_, rfl, ⟨fun _ => ⟨_, rfl⟩, fun _ => rfl⟩, fun _ => ⟨ls, e, henc, ?_, rfl, ?_, ?_, fun offsets ho => ?_, ?_,
      henc.le_length, rfl⟩, fun h => absurd rfl h⟩
    · rw [← hname] at hIs
      exact hIs
    · rw [hname]
      exact n.valid.length_le
    · rw [hcount]
      exact n.valid.countlabels_le
    · rw [hIs.setOffsets]
      cases table with
      | false => cases ho
      | true =>
        cases ho
        rw [hoffsets]
    · show current + (e - current) = e
      omega

end call

/-- A pointer that the decompression context does not allow. -/
theorem fromwire_disallowed : Encodes [0, 192, 0] 1 1 3 [[]] ∧ Name.length ⟨[[]]⟩ ≤ min 255 (Buffer.available ⟨[], 255⟩) ∧
    dnsNameFromwire [0, 192, 0] 1 ⟨[], 255⟩ false 0 false = .ok ⟨.empty false, 1, ⟨[], 255⟩, .disallowed⟩ := by
  have hroot : Encodes [0, 192, 0] 0 0 1 [[]] := .root (by decide)
  refine ⟨.pointer (by decide) (by decide) (by decide) hroot, by decide, ?_⟩
  rw [dnsNameFromwire_eq]
  have hstep : fwStep ⟨[0, 192, 0], 255, false, 0⟩ (fwInit 1) = .error .disallowed := rfl
  have hread : fromwire [0, 192, 0] 1 (Buffer.available ⟨[], 255⟩) false 0 = .error .disallowed := by
    unfold fromwire
    have hmin : min (Buffer.available ⟨[], 255⟩) 255 = 255 := rfl
    rw [hmin, fwLoop, dif_pos (by decide)]
    split
    next r hr =>
      rw [hstep] at hr
      cases hr
      rfl
    next v hv =>
      rw [hstep] at hv
      cases hv
  rw [hread]

end Bind9
