import Bind9.RdataStruct
import Bind9.RdataOrder

/-! # Rdata to a structure and back

For each type, what `tostruct` makes of rdata with the layout of the type and what `fromstruct` writes for it.
`struct_roundtrip` is the result: the bytes come back for all types, but for the rdata that `StructOk` excludes. -/

namespace Bind9.Rdata

open List

/-! ### Functions that append bytes -/

/-- `f` appends `bs` to every buffer that has room for them. -/
def Writes (f : Buffer → Exec Buffer) (bs : Bytes) : Prop :=
  ∀ t : Buffer, bs.length ≤ t.available → f t = .ok (t.put bs)

theorem Writes.bind {f g : Buffer → Exec Buffer} {a b : Bytes} (hf : Writes f a) (hg : Writes g b) :
    Writes (fun t => f t >>= g) (a ++ b) := by
  intro t h
  rw [length_append] at h
  beta_reduce
  rw [hf t (by omega), ok_then, hg _ (by rw [Buffer.put_available]; omega), Buffer.put_put]

theorem Writes.check {α : Type} {x : Exec α} {a : α} {f : α → Buffer → Exec Buffer} {bs : Bytes}
    (hx : x = .ok a) (hf : Writes (f a) bs) : Writes (fun t => x >>= fun a => f a t) bs := by
  intro t h
  beta_reduce
  rw [hx, ok_then, hf t h]

theorem Writes.ite {c : Prop} {_ : Decidable c} {f g : Buffer → Exec Buffer} {bs : Bytes} (hc : ¬c)
    (hg : Writes g bs) : Writes (fun t => if c then f t else g t) bs := by
  intro t h
  beta_reduce
  rw [if_neg hc, hg t h]

theorem writes_mem (bs : Bytes) : Writes (fun t => memTobuffer t bs) bs := fun _ h => memTobuffer_ok h

theorem writes_uint8 (b : UInt8) : Writes (fun t => uint8Tobuffer t b.toNat) [b] := by
  intro t h
  have hb := b.toNat_lt
  beta_reduce
  rw [uint8Tobuffer, if_neg (by omega), UInt8.ofNat_toNat, memTobuffer_ok h]

theorem writes_uint16 (b0 b1 : UInt8) : Writes (fun t => uint16Tobuffer t (b0.toNat * 256 + b1.toNat)) [b0, b1] := by
  intro t h
  have h₀ := b0.toNat_lt
  have h₁ := b1.toNat_lt
  beta_reduce
  rw [uint16Tobuffer, if_neg (by omega), uint16Bytes_read, memTobuffer_ok h]

theorem writes_uint32 (b0 b1 b2 b3 : UInt8) : Writes (fun t => uint32Tobuffer t
    (((b0.toNat * 256 + b1.toNat) * 256 + b2.toNat) * 256 + b3.toNat)) [b0, b1, b2, b3] := by
  intro t h
  beta_reduce
  rw [uint32Tobuffer, uint32Bytes_read, memTobuffer_ok h]

/-- The rdata goes to a structure and comes back. -/
def RoundTrip (type : RdataType) (r : Bytes) : Prop :=
  ∃ s, tostructSwitch r type = .ok s ∧ Writes (rdataFromstruct s) r

theorem roundTrip_of {type : RdataType} {r : Bytes} {s : RdataStruct} (hmax : r.length ≤ DNS_RDATA_MAXLENGTH)
    (hs : tostructSwitch r type = .ok s) (hw : Writes (fromstructSwitch s) r) : RoundTrip type r := by
  refine ⟨s, hs, fun t h => ?_⟩
  rw [rdataFromstruct, hw t h, ok_then, Buffer.put_used, Nat.add_sub_cancel_left, if_neg (by omega)]
  rfl

/-! ### Reading -/

@[simp] theorem uint8Consume_cons (b : UInt8) (r : Bytes) : uint8Consume (b :: r) = .ok (b.toNat, r) := by
  simp [uint8Consume, uint8Fromregion]

@[simp] theorem uint16Consume_cons (b0 b1 : UInt8) (r : Bytes) :
    uint16Consume (b0 :: b1 :: r) = .ok (b0.toNat * 256 + b1.toNat, r) := by
  simp [uint16Consume, uint16Fromregion]

@[simp] theorem uint32Consume_cons (b0 b1 b2 b3 : UInt8) (r : Bytes) : uint32Consume (b0 :: b1 :: b2 :: b3 :: r) =
      .ok (((b0.toNat * 256 + b1.toNat) * 256 + b2.toNat) * 256 + b3.toNat, r) := by
  simp [uint32Consume, uint32Fromregion]

@[simp] theorem nameConsume_append (n : AbsName) (r : Bytes) : nameConsume (n.name.ndata ++ r) = .ok (n.name, r) := by
  rw [nameConsume, nameFromregion_append, ok_then, consume_name, ok_then]
  rfl

theorem memConsume_append {a r : Bytes} {n : ℕ} (h : n = a.length) : memConsume (a ++ r) n = .ok (a, r) := by
  rw [memConsume, bytesAt_append h, ok_then, consume_append h, ok_then]
  rfl

/-! ### The types -/

section Types

variable {validate : Bytes → ℤ} {r : Bytes}

theorem soa_roundTrip (origin contact : AbsName) (tail : Bytes) (h : tail.length = 20)
    (hmax : (origin.name.ndata ++ (contact.name.ndata ++ tail)).length ≤ DNS_RDATA_MAXLENGTH) :
    RoundTrip .soa (origin.name.ndata ++ (contact.name.ndata ++ tail)) := by
  match tail, h with
  | [s0, s1, s2, s3, f0, f1, f2, f3, t0, t1, t2, t3, e0, e1, e2, e3, m0, m1, m2, m3], _ =>
    apply roundTrip_of hmax
    · simp only [tostructSwitch, tostructSoa]
      rw [require_true (by simp [ndata_ne_nil]), ok_then]
      simp only [nameConsume_append, uint32Consume_cons, uint32Fromregion, ok_then]
      rfl
    · exact (writes_mem _).bind ((writes_mem _).bind ((writes_uint32 s0 s1 s2 s3).bind
        ((writes_uint32 f0 f1 f2 f3).bind ((writes_uint32 t0 t1 t2 t3).bind
          ((writes_uint32 e0 e1 e2 e3).bind (writes_uint32 m0 m1 m2 m3))))))

theorem srv_roundTrip (p0 p1 w₀ w₁ q0 q1 : UInt8) (target : AbsName)
    (hmax : (p0 :: p1 :: w₀ :: w₁ :: q0 :: q1 :: target.name.ndata).length ≤ DNS_RDATA_MAXLENGTH) :
    RoundTrip .srv (p0 :: p1 :: w₀ :: w₁ :: q0 :: q1 :: target.name.ndata) := by
  apply roundTrip_of hmax
  · simp only [tostructSwitch, tostructSrv]
    rw [require_true (by simp), ok_then]
    simp only [uint16Consume_cons, nameFromregion_self, ok_then]
    rfl
  · exact (writes_uint16 p0 p1).bind ((writes_uint16 w₀ w₁).bind ((writes_uint16 q0 q1).bind (writes_mem _)))

theorem naptr_roundTrip {o0 o1 p0 p1 fl sl rl : UInt8} {flags service regexp : Bytes}
    (replacement : AbsName) (hf : flags.length = fl.toNat) (hs : service.length = sl.toNat)
    (hr : regexp.length = rl.toNat) (hmax : (o0 :: o1 :: p0 :: p1 :: fl :: (flags ++ sl :: (service ++ rl :: (regexp ++
      replacement.name.ndata)))).length ≤ DNS_RDATA_MAXLENGTH) :
    RoundTrip .naptr (o0 :: o1 :: p0 :: p1 :: fl :: (flags ++ sl :: (service ++ rl :: (regexp ++
      replacement.name.ndata)))) := by
  apply roundTrip_of hmax
  · simp only [tostructSwitch, tostructNaptr]
    rw [require_true (by simp), ok_then]
    simp only [uint16Consume_cons, uint8Consume_cons, ok_then]
    rw [require_true (by simp [hf]), ok_then, memConsume_append hf.symm, ok_then]
    simp only [uint8Consume_cons, ok_then]
    rw [require_true (by simp [hs]), ok_then, memConsume_append hs.symm, ok_then]
    simp only [uint8Consume_cons, ok_then]
    rw [require_true (by simp [hr]), ok_then, memConsume_append hr.symm, ok_then]
    simp only [nameFromregion_self, ok_then]
    rfl
  · exact (writes_uint16 o0 o1).bind ((writes_uint16 p0 p1).bind ((writes_uint8 fl).bind ((writes_mem flags).bind
      ((writes_uint8 sl).bind ((writes_mem service).bind ((writes_uint8 rl).bind ((writes_mem regexp).bind
        (writes_mem _))))))))

theorem rrsig_roundTrip (fixed : Bytes) (signer : AbsName) (signature : Bytes) (h : fixed.length = 18)
    (hmax : (fixed ++ (signer.name.ndata ++ signature)).length ≤ DNS_RDATA_MAXLENGTH) :
    RoundTrip .rrsig (fixed ++ (signer.name.ndata ++ signature)) := by
  match fixed, h with
  | [c0, c1, a, l, o0, o1, o2, o3, e0, e1, e2, e3, s0, s1, s2, s3, k0, k1], _ =>
    apply roundTrip_of hmax
    · simp only [tostructSwitch, tostructRrsig]
      rw [require_true (by simp), ok_then]
      simp only [cons_append, nil_append, uint16Consume_cons, uint8Consume_cons, uint32Consume_cons,
        nameConsume_append, ok_then]
      rfl
    · exact (writes_uint16 c0 c1).bind ((writes_uint8 a).bind ((writes_uint8 l).bind
        ((writes_uint32 o0 o1 o2 o3).bind ((writes_uint32 e0 e1 e2 e3).bind ((writes_uint32 s0 s1 s2 s3).bind
          ((writes_uint16 k0 k1).bind ((writes_mem _).bind (writes_mem signature))))))))

/-- What the windows are checked with does not matter to a bitmap that passes. -/
theorem typemapLoop_fail {e : Stop} (e' : Stop) (first : Bool) (last : ℕ) (bits : Bytes) (res : Bool) :
    typemapLoop e first last bits = .ok res → typemapLoop e' first last bits = .ok res := by
  fun_induction typemapLoop e first last bits with
  | case1 => simp [typemapLoop]
  | case7 first last window len rest h₁ h₂ h₃ h4 ih =>
    intro h
    rw [typemapLoop, if_neg h₁, if_neg h₂, if_neg h₃, if_neg h4]
    exact ih h
  | _ => exact nofun

theorem nsec_roundTrip (next : AbsName) (bits : Bytes) (h : typemapLoop (.result .formerr) true 0 bits = .ok false)
    (hmax : (next.name.ndata ++ bits).length ≤ DNS_RDATA_MAXLENGTH) : RoundTrip .nsec (next.name.ndata ++ bits) := by
  apply roundTrip_of hmax
  · simp only [tostructSwitch, tostructNsec]
    rw [require_true (by simp [ndata_ne_nil]), ok_then]
    simp only [nameConsume_append, ok_then]
    rfl
  · have h' := typemapLoop_fail .assertion true 0 bits false h
    exact (writes_mem _).bind (Writes.check h' (Writes.check (a := ()) rfl (writes_mem bits)))

theorem hipWalk_servers : ∀ ns : List AbsName, hipWalk (servers ns) = .ok ()
  | [] => by simp [servers, hipWalk]
  | n :: ns => by
    have ih := hipWalk_servers ns
    have e : servers (n :: ns) = n.name.ndata ++ servers ns := rfl
    have hread := nameFromregion_append n (servers ns)
    have hdrop : (n.name.ndata ++ servers ns).drop n.name.length = servers ns := drop_left
    match hr : n.name.ndata ++ servers ns with
    | [] => exact absurd (append_eq_nil_iff.1 hr).1 (ndata_ne_nil n)
    | c :: r =>
      rw [hr] at hread hdrop
      have hlen : n.name.length ≤ (c :: r).length := by
        rw [← hr, length_append]
        exact Nat.le_add_right _ _
      rw [e, hr, hipWalk]
      split
      · next he => rw [hread] at he; cases he
      next name he =>
        rw [hread] at he
        cases he
        rw [if_neg (by omega), hdrop, ih]

theorem hip_roundTrip {hl algorithm k0 k1 : UInt8} {hit key : Bytes} (ns : List AbsName)
    (hh : hit.length = hl.toNat) (hk : key.length = k0.toNat * 256 + k1.toNat) (hh0 : hl.toNat ≠ 0) (hk0 : key.length ≠ 0)
    (hmax : (hl :: algorithm :: k0 :: k1 :: (hit ++ (key ++ servers ns))).length ≤ DNS_RDATA_MAXLENGTH) :
    RoundTrip .hip (hl :: algorithm :: k0 :: k1 :: (hit ++ (key ++ servers ns))) := by
  apply roundTrip_of hmax
  · simp only [tostructSwitch, tostructHip]
    rw [require_true (by simp), ok_then]
    simp only [uint8Consume_cons, uint16Consume_cons, ok_then]
    rw [memConsume_append hh.symm, ok_then, memConsume_append hk.symm, ok_then]
    rfl
  · refine Writes.check (a := ()) (require_true (by simpa using Nat.pos_of_ne_zero hh0)) ?_
    have hkey : 0 < k0.toNat * 256 + k1.toNat := by omega
    refine Writes.check (a := ()) (require_true (decide_eq_true hkey)) ?_
    exact (writes_uint8 hl).bind ((writes_uint8 algorithm).bind ((writes_uint16 k0 k1).bind ((writes_mem hit).bind
      ((writes_mem key).bind (Writes.check (hipWalk_servers ns) (writes_mem _))))))

theorem txtWalk_txts {r : Bytes} (h : Txts r) : txtWalk r = .ok () := by
  induction h with
  | last c s h => rw [txtWalk, if_neg (by omega), ← h, drop_length, txtWalk]
  | more c s r h _ ih => rw [txtWalk, if_neg (by simp; omega), ← h, drop_left, ih]

theorem txt_roundTrip (h : Txts r) (hmax : r.length ≤ DNS_RDATA_MAXLENGTH) : RoundTrip .txt r := by
  have hne : r.length ≠ 0 := by cases h <;> simp
  apply roundTrip_of hmax rfl
  exact Writes.check (a := ()) (require_true (by simpa using hne)) (Writes.check (txtWalk_txts h) (writes_mem r))

theorem uriWalk_multitxt {r : Bytes} (h : Multitxt r) : uriWalk 255 r = .ok () := by
  induction h with
  | last c s h => rw [uriWalk, if_neg (by simp), if_neg (by omega), ← h, drop_length, uriWalk]
  | more s r h _ ih =>
    have h255 : (255 : UInt8).toNat = 255 := rfl
    rw [uriWalk, if_neg (by simp), if_neg (by simp [h255]; omega), h255, ← h, drop_left, h, ih]

theorem uri_roundTrip (p0 p1 w₀ w₁ : UInt8) {target : Bytes} (h : Multitxt target)
    (hmax : (p0 :: p1 :: w₀ :: w₁ :: target).length ≤ DNS_RDATA_MAXLENGTH) :
    RoundTrip .uri (p0 :: p1 :: w₀ :: w₁ :: target) := by
  have hne : target.length ≠ 0 := by cases h <;> simp
  apply roundTrip_of hmax
  · simp only [tostructSwitch, tostructUri]
    rw [require_true (by simp), ok_then, if_neg (by simp), uint16Consume_cons, ok_then]
    rw [if_neg (by simp), uint16Consume_cons, ok_then]
    rfl
  · exact Writes.check (a := ()) (require_true (by simpa using hne)) ((writes_uint16 p0 p1).bind
      ((writes_uint16 w₀ w₁).bind (Writes.check (uriWalk_multitxt h) (writes_mem target))))

theorem apl_roundTrip (h : aplLoop r = .ok ()) (hmax : r.length ≤ DNS_RDATA_MAXLENGTH) : RoundTrip .apl r := by
  apply roundTrip_of hmax rfl
  intro t ht
  simp only [fromstructSwitch, fromstructApl]
  rw [if_neg (by omega), h, ok_then, memTobuffer_ok ht]

theorem length_eq_four {α : Type} : ∀ {l : List α}, l.length = 4 → ∃ a b c d, l = [a, b, c, d]
  | [a, b, c, d], _ => ⟨a, b, c, d, rfl⟩
theorem ipseckey_roundTrip {precedence gatewayType algorithm : UInt8} {gateway key : Bytes}
    (h : Gateway gatewayType gateway)
    (hmax : (precedence :: gatewayType :: algorithm :: (gateway ++ key)).length ≤ DNS_RDATA_MAXLENGTH) :
    RoundTrip .ipseckey (precedence :: gatewayType :: algorithm :: (gateway ++ key)) := by
  -- the three bytes in front, then what the gateway writes, then the key
  have hwrite : ∀ (s : IpseckeyStruct) (g : UInt8) (gw : Bytes), g.toNat ≤ 3 →
      s.precedence = precedence.toNat → s.gatewayType = g.toNat → s.algorithm = algorithm.toNat → s.key = key →
      Writes (gatewayTobuffer s) gw → Writes (fromstructIpseckey s) (precedence :: g :: algorithm :: (gw ++ key)) := by
    intro s g gw hg hp hgt ha hk hgw
    refine Writes.ite (by rw [hgt]; omega) ?_
    rw [hp, hgt, ha, hk]
    exact (writes_uint8 precedence).bind ((writes_uint8 g).bind ((writes_uint8 algorithm).bind
      (hgw.bind (writes_mem key))))
  cases h with
  | none =>
    apply roundTrip_of (s := .ipseckey ⟨precedence.toNat, 0, algorithm.toNat, 0, [], ⟨[]⟩, key⟩) hmax
    · rw [tostructSwitch, tostructIpseckey, require_true (by simp), ok_then]
      simp only [uint8Consume_cons, ok_then]
      rfl
    · refine hwrite _ 0 [] (by decide) rfl rfl rfl rfl (fun t _ => ?_)
      simp [gatewayTobuffer, Buffer.put]
  | ipv4 _ ha =>
    obtain ⟨a0, a1, a2, a3, rfl⟩ := length_eq_four ha
    apply roundTrip_of hmax
    · rw [tostructSwitch, tostructIpseckey, require_true (by simp), ok_then]
      simp only [uint8Consume_cons, ok_then]
      rfl
    · exact hwrite _ 1 _ (by decide) rfl rfl rfl rfl (writes_uint32 a0 a1 a2 a3)
  | ipv6 _ ha =>
    have hg : Writes (fun t => memTobuffer t (gateway.take 16)) gateway := by
      rw [take_of_length_le (by omega)]
      exact writes_mem gateway
    apply roundTrip_of hmax
    · rw [tostructSwitch, tostructIpseckey, require_true (by simp), ok_then]
      simp only [uint8Consume_cons, memConsume_append ha.symm, UInt8.toNat_ofNat, ok_then]
      rfl
    · exact hwrite _ 2 _ (by decide) rfl rfl rfl rfl hg
  | name n =>
    apply roundTrip_of hmax
    · rw [tostructSwitch, tostructIpseckey, require_true (by simp), ok_then]
      simp only [uint8Consume_cons, nameConsume_append, UInt8.toNat_ofNat, ok_then]
      rfl
    · exact hwrite _ 3 _ (by decide) rfl rfl rfl rfl (writes_mem _)

theorem a6_suffix {p : UInt8} {suffix : Bytes} (h128 : p.toNat < 128) (hlen : suffix.length = 16 - p.toNat / 8)
    (hpad : suffix.headD 0 &&& (255 >>> (p % 8)) = suffix.headD 0) (n : Name) :
    a6Suffix ⟨n, p.toNat, replicate (p.toNat / 8) 0 ++ suffix⟩ = suffix := by
  have e : 16 - (16 - p.toNat / 8) = (replicate (p.toNat / 8) (0 : UInt8)).length := by simp; omega
  match suffix with
  | [] => simp at hlen; omega
  | c :: s =>
    simp only [a6Suffix]
    by_cases hbits : p.toNat % 8 = 0
    · rw [if_neg (by simp [hbits]), e, drop_left]
    have e' : 16 - (16 - p.toNat / 8 - 1) = (replicate (p.toNat / 8) (0 : UInt8) ++ [c]).length := by
      simp; omega
    have hmod : UInt8.ofNat (p.toNat % 8) = p % 8 := by
      apply UInt8.toNat_inj.1
      have h8 : (8 : UInt8).toNat = 8 := rfl
      rw [UInt8.toNat_ofNat', UInt8.toNat_mod, h8]
      omega
    have hget : (replicate (p.toNat / 8) (0 : UInt8) ++ c :: s).getD (16 - (16 - p.toNat / 8)) 0 = c := by
      rw [e, getD_eq_getElem?_getD, getElem?_append_right (le_refl _)]
      simp
    have hsplit : replicate (p.toNat / 8) (0 : UInt8) ++ c :: s =
        (replicate (p.toNat / 8) 0 ++ [c]) ++ s := by simp
    rw [headD_cons] at hpad
    rw [if_pos hbits, hget, hmod, e', hsplit, drop_left, hpad]

theorem a6_roundTrip {p : UInt8} {suffix : Bytes} {pfx : Option AbsName} (h128 : p.toNat ≤ 128)
    (hlen : suffix.length = 16 - p.toNat / 8) (hpad : suffix.headD 0 &&& (255 >>> (p % 8)) = suffix.headD 0)
    (hp : pfx.isSome ↔ p.toNat ≠ 0) (hmax : (p :: (suffix ++ prefixName pfx)).length ≤ DNS_RDATA_MAXLENGTH) :
    RoundTrip .a6 (p :: (suffix ++ prefixName pfx)) := by
  have hoct : (if p.toNat = 128 then 0 else 16 - p.toNat / 8) = suffix.length := by
    split
    · next h => rw [hlen, h]
    · exact hlen.symm
  have hpre : 16 - suffix.length = p.toNat / 8 := by omega
  have hhead : tostructA6 (p :: (suffix ++ prefixName pfx)) =
      if p.toNat = 0 then .ok ⟨⟨[]⟩, p.toNat, replicate (p.toNat / 8) 0 ++ suffix⟩
      else nameFromregion (prefixName pfx) >>= fun name =>
        .ok ⟨name, p.toNat, replicate (p.toNat / 8) 0 ++ suffix⟩ := by
    rw [tostructA6, require_true (by simp), ok_then]
    simp only [uint8Consume_cons, ok_then, hoct]
    rw [require_true (by simp), ok_then, memConsume_append rfl, ok_then, hpre]
    rfl
  have hwrite : ∀ n : Name, Writes (fun t => memTobuffer t (if p.toNat ≠ 128 then
      a6Suffix ⟨n, p.toNat, replicate (p.toNat / 8) 0 ++ suffix⟩ else [])) suffix := by
    intro n
    by_cases h : p.toNat = 128
    · have hs : suffix = [] := eq_nil_of_length_eq_zero (by omega)
      rw [if_neg (by simp [h]), hs]
      exact writes_mem []
    · rw [if_pos h, a6_suffix (by omega) hlen hpad]
      exact writes_mem suffix
  cases pfx with
  | none =>
    have h0 : p.toNat = 0 := by simpa using hp
    apply roundTrip_of hmax
    · rw [tostructSwitch, hhead, if_pos h0]
      rfl
    · refine Writes.ite (by simp; omega) ((writes_uint8 p).bind ((hwrite _).bind (fun t _ => ?_)))
      rw [if_pos h0]
      simp [prefixName, Buffer.put]
      rfl
  | some n =>
    have h0 : p.toNat ≠ 0 := by simpa using hp
    apply roundTrip_of hmax
    · rw [tostructSwitch, hhead, if_neg h0, prefixName, nameFromregion_self]
      rfl
    · exact Writes.ite (by simp; omega) ((writes_uint8 p).bind ((hwrite _).bind (Writes.ite h0 (writes_mem _))))

/-! ### The types that lose something -/

/-- A structure whose bytes are others than the rdata does not come back. -/
theorem not_roundTrip_of_writes {type : RdataType} {r bs : Bytes} {s : RdataStruct}
    (hs : tostructSwitch r type = .ok s) (hmax : bs.length ≤ DNS_RDATA_MAXLENGTH) (hw : Writes (fromstructSwitch s) bs)
    (hne : bs ≠ r) : ¬RoundTrip type r := by
  rintro ⟨s', hs', hw'⟩
  rw [hs] at hs'
  cases hs'
  let t : Buffer := ⟨[], bs.length + r.length⟩
  have hb := hw t (by simp [t, Buffer.available, Buffer.used])
  have hr := hw' t (by simp [t, Buffer.available, Buffer.used])
  rw [rdataFromstruct, hb, ok_then, Buffer.put_used, Nat.add_sub_cancel_left, if_neg (by omega)] at hr
  have hdata := congrArg Buffer.data (Except.ok.inj hr)
  exact hne (by simpa [t] using hdata)

/-- A structure that `fromstruct` refuses does not come back. -/
theorem not_roundTrip_of_error {type : RdataType} {r : Bytes} {s : RdataStruct}
    (hs : tostructSwitch r type = .ok s) (he : ∀ t : Buffer, r.length ≤ t.available → ∀ t', fromstructSwitch s t ≠ .ok t') :
    ¬RoundTrip type r := by
  rintro ⟨s', hs', hw'⟩
  rw [hs] at hs'
  cases hs'
  have hroom : r.length ≤ Buffer.available ⟨[], r.length⟩ := by simp [Buffer.available, Buffer.used]
  obtain ⟨t, ht, -⟩ := bind_eq_ok (hw' _ hroom)
  exact he _ hroom t ht

theorem px_roundTrip_iff (p0 p1 : UInt8) (map822 mapx400 : AbsName) :
    RoundTrip .px (p0 :: p1 :: (map822.name.ndata ++ mapx400.name.ndata)) ↔ map822.name = mapx400.name := by
  have hs : tostructSwitch (p0 :: p1 :: (map822.name.ndata ++ mapx400.name.ndata)) .px =
      .ok (.px ⟨p0.toNat * 256 + p1.toNat, map822.name, map822.name⟩) := by
    simp only [tostructSwitch, tostructPx]
    rw [require_true (by simp), ok_then]
    simp only [uint16Consume_cons, nameFromregion_append, consume_name, ok_then]
    rfl
  have hw : Writes (fromstructSwitch (.px ⟨p0.toNat * 256 + p1.toNat, map822.name, map822.name⟩))
      (p0 :: p1 :: (map822.name.ndata ++ map822.name.ndata)) :=
    (writes_uint16 p0 p1).bind ((writes_mem _).bind (writes_mem _))
  have hlen : map822.name.ndata.length ≤ 255 := map822.valid.length_le
  have hmax : (p0 :: p1 :: (map822.name.ndata ++ map822.name.ndata)).length ≤ DNS_RDATA_MAXLENGTH := by
    simp only [length_cons, length_append, DNS_RDATA_MAXLENGTH]
    omega
  constructor
  · intro h
    by_contra hne
    refine not_roundTrip_of_writes hs hmax hw (fun he => hne ?_) h
    simp only [cons.injEq, true_and, append_cancel_left_eq] at he
    exact congrArg Name.mk (Name.ndata_inj map822.valid.label_le mapx400.valid.label_le he)
  · intro h
    rw [h] at hs hw hmax ⊢
    exact roundTrip_of hmax hs hw

theorem wks_roundTrip_iff {r : Bytes} (h5 : 5 ≤ r.length) (hmax : r.length ≤ 8 * 1024 + 5) :
    RoundTrip .wks r ↔ r.length ≠ 5 := by
  match r with
  | [] | [_] | [_, _] | [_, _, _] | [_, _, _, _] => simp at h5
  | [a0, a1, a2, a3, p] =>
    simp only [length_cons, length_nil, ne_eq, not_true_eq_false, iff_false]
    rintro ⟨s, hs, -⟩
    simp only [tostructSwitch, tostructWks] at hs
    rw [require_true (by simp), ok_then, uint32Consume_cons, ok_then] at hs
    cases hs
  | a0 :: a1 :: a2 :: a3 :: p :: m :: map =>
    simp only [length_cons, ne_eq]
    refine iff_of_true ?_ (by omega)
    have hlen : map.length ≤ 8 * 1024 := by
      simp only [length_cons] at hmax
      omega
    apply roundTrip_of (s := .wks ⟨((a0.toNat * 256 + a1.toNat) * 256 + a2.toNat) * 256 + a3.toNat,
      p.toNat * 256 + m.toNat, map⟩)
    · simp only [length_cons, DNS_RDATA_MAXLENGTH]
      omega
    · simp only [tostructSwitch, tostructWks]
      rw [require_true (by simp), ok_then, uint32Consume_cons, ok_then, uint16Consume_cons, ok_then]
      rfl
    · exact Writes.check (a := ()) (require_true (decide_eq_true hlen)) ((writes_uint32 a0 a1 a2 a3).bind
        ((writes_uint16 p m).bind (writes_mem map)))

theorem nsec3_roundTrip_iff {hash flags i0 i1 sl nl : UInt8} {salt next bits : Bytes}
    (hs : salt.length = sl.toNat) (hn : next.length = nl.toNat)
    (h : ∃ first, typemapLoop (.result .formerr) true 0 bits = .ok first)
    (hmax : (hash :: flags :: i0 :: i1 :: sl :: (salt ++ nl :: (next ++ bits))).length ≤ DNS_RDATA_MAXLENGTH) :
    RoundTrip .nsec3 (hash :: flags :: i0 :: i1 :: sl :: (salt ++ nl :: (next ++ bits))) ↔ hash = 1 := by
  have hto : tostructSwitch (hash :: flags :: i0 :: i1 :: sl :: (salt ++ nl :: (next ++ bits))) .nsec3 =
      .ok (.nsec3 ⟨hash.toNat, flags.toNat, i0.toNat * 256 + i1.toNat, sl.toNat, salt, nl.toNat, next, bits⟩) := by
    simp only [tostructSwitch, tostructNsec3]
    rw [require_true (by simp), ok_then]
    simp only [uint8Consume_cons, uint16Consume_cons, ok_then]
    rw [memConsume_append hs.symm, ok_then]
    simp only [uint8Consume_cons, ok_then]
    rw [memConsume_append hn.symm, ok_then]
    rfl
  by_cases h1 : hash = 1
  · refine iff_of_true ?_ h1
    obtain ⟨first, hfirst⟩ := h
    apply roundTrip_of hmax hto
    refine Writes.check (a := ()) (require_true (by simp [h1])) ?_
    exact (writes_uint8 hash).bind ((writes_uint8 flags).bind ((writes_uint16 i0 i1).bind ((writes_uint8 sl).bind
      ((writes_mem salt).bind ((writes_uint8 nl).bind ((writes_mem next).bind
        (Writes.check (typemapLoop_fail .assertion true 0 bits first hfirst) (writes_mem bits))))))))
  refine iff_of_false (not_roundTrip_of_error hto (fun t _ t' he => ?_)) h1
  have hne : ¬hash.toNat = 1 := fun he => h1 (UInt8.toNat_inj.1 he)
  simp only [fromstructSwitch, fromstructNsec3, require, hne, decide_false] at he
  cases he

theorem fromstructLoc_writes (loc : LocStruct) {a0 a1 a2 a3 o0 o1 o2 o3 t0 t1 t2 t3 : UInt8} (hv : loc.version = 0)
    (h₁ : ¬badPrecision loc.size = true) (h₂ : ¬badPrecision loc.horizontal = true) (h₃ : ¬badPrecision loc.vertical = true)
    (hlat : loc.latitude = ((a0.toNat * 256 + a1.toNat) * 256 + a2.toNat) * 256 + a3.toNat)
    (h4 : ¬(loc.latitude < 0x80000000 - 90 * 3600000 ∨ 0x80000000 + 90 * 3600000 < loc.latitude))
    (hlong : loc.longitude = ((o0.toNat * 256 + o1.toNat) * 256 + o2.toNat) * 256 + o3.toNat)
    (h₅ : ¬(loc.longitude < 0x80000000 - 180 * 3600000 ∨ 0x80000000 + 180 * 3600000 < loc.longitude))
    (halt : loc.altitude = ((t0.toNat * 256 + t1.toNat) * 256 + t2.toNat) * 256 + t3.toNat) : Writes (fromstructLoc loc)
      [0, loc.size, loc.horizontal, loc.vertical, a0, a1, a2, a3, o0, o1, o2, o3, t0, t1, t2, t3] := by
  have w0 : Writes (fun t => uint8Tobuffer t loc.version) [0] := by
    rw [hv]
    exact writes_uint8 0
  have wlat : Writes (fun t => uint32Tobuffer t loc.latitude) [a0, a1, a2, a3] := by
    rw [hlat]
    exact writes_uint32 a0 a1 a2 a3
  have wlong : Writes (fun t => uint32Tobuffer t loc.longitude) [o0, o1, o2, o3] := by
    rw [hlong]
    exact writes_uint32 o0 o1 o2 o3
  have walt : Writes (fun t => uint32Tobuffer t loc.altitude) [t0, t1, t2, t3] := by
    rw [halt]
    exact writes_uint32 t0 t1 t2 t3
  exact Writes.ite (not_not.2 hv) (w0.bind (Writes.ite h₁ ((writes_uint8 loc.size).bind (Writes.ite h₂
    ((writes_uint8 loc.horizontal).bind (Writes.ite h₃ ((writes_uint8 loc.vertical).bind (Writes.ite h4
      (wlat.bind (Writes.ite h₅ (wlong.bind walt)))))))))))

theorem loc_roundTrip_iff {size horizontal vertical a0 a1 a2 a3 o0 o1 o2 o3 t0 t1 t2 t3 : UInt8}
    (hs : precisionOk size) (hh : precisionOk horizontal) (hv : precisionOk vertical)
    (hlat : ∃ v, uint32Fromregion [a0, a1, a2, a3] = .ok v ∧ 0x80000000 - 90 * 3600000 ≤ v ∧ v ≤ 0x80000000 + 90 * 3600000)
    (hlong : ∃ v, uint32Fromregion [o0, o1, o2, o3] = .ok v ∧
      0x80000000 - 180 * 3600000 ≤ v ∧ v ≤ 0x80000000 + 180 * 3600000) :
    RoundTrip .loc [0, size, horizontal, vertical, a0, a1, a2, a3, o0, o1, o2, o3, t0, t1, t2, t3] ↔
      size ≠ 0 ∧ horizontal ≠ 0 ∧ vertical ≠ 0 := by
  obtain ⟨lat, hlat, hlat1, hlat2⟩ := hlat
  obtain ⟨long, hlong, hlong1, hlong2⟩ := hlong
  simp only [uint32Fromregion, Except.ok.injEq] at hlat hlong
  have hto : tostructSwitch [0, size, horizontal, vertical, a0, a1, a2, a3, o0, o1, o2, o3, t0, t1, t2, t3] .loc =
      .ok (.loc ⟨0, size, horizontal, vertical, ((a0.toNat * 256 + a1.toNat) * 256 + a2.toNat) * 256 + a3.toNat,
        ((o0.toNat * 256 + o1.toNat) * 256 + o2.toNat) * 256 + o3.toNat,
        ((t0.toNat * 256 + t1.toNat) * 256 + t2.toNat) * 256 + t3.toNat⟩) := by
    simp only [tostructSwitch, tostructLoc]
    rw [require_true (by simp), ok_then]
    simp only [uint8Fromregion, ok_then, consume_one, uint8Consume_cons, uint32Consume_cons, UInt8.ofNat_toNat]
    rfl
  have bad : badPrecision 0 = true := by decide
  by_cases hall : size ≠ 0 ∧ horizontal ≠ 0 ∧ vertical ≠ 0
  · refine iff_of_true ?_ hall
    obtain ⟨h1, h2, h3⟩ := hall
    have g1 : ¬badPrecision size = true := by simp [hs.resolve_left h1]
    have g2 : ¬badPrecision horizontal = true := by simp [hh.resolve_left h2]
    have g3 : ¬badPrecision vertical = true := by simp [hv.resolve_left h3]
    rw [← hlat] at hlat1 hlat2
    rw [← hlong] at hlong1 hlong2
    apply roundTrip_of (by simp [DNS_RDATA_MAXLENGTH]) hto
    exact fromstructLoc_writes _ rfl g1 g2 g3 rfl (not_or.2 ⟨not_lt.2 hlat1, not_lt.2 hlat2⟩) rfl
      (not_or.2 ⟨not_lt.2 hlong1, not_lt.2 hlong2⟩) rfl
  refine iff_of_false (not_roundTrip_of_error hto (fun t _ t' he => hall ?_)) hall
  -- each precision byte has passed its check, so it is not zero
  simp only [fromstructSwitch, fromstructLoc, ne_eq, not_true_eq_false, if_false] at he
  obtain ⟨t1, -, he⟩ := bind_eq_ok he
  split at he
  · cases he
  next g1 =>
  obtain ⟨t2, -, he⟩ := bind_eq_ok he
  split at he
  · cases he
  next g2 =>
  obtain ⟨t3, -, he⟩ := bind_eq_ok he
  split at he
  · cases he
  next g3 =>
  exact ⟨fun h => g1 (by rw [h]; exact bad), fun h => g2 (by rw [h]; exact bad), fun h => g3 (by rw [h]; exact bad)⟩

end Types

/-! ### The result -/

/-- The rdata that come back from their structure: a PX record has one name twice, a WKS record has a bitmap, no
precision of a LOC record is zero, an NSEC3 record is hashed with SHA-1. -/
def StructOk (r : Bytes) : RdataType → Prop
  | .px => ∀ map822 mapx400, nameFromregion (r.drop 2) = .ok map822 →
      nameFromregion (r.drop (2 + map822.length)) = .ok mapx400 → map822.caseequal mapx400 = true
  | .wks => r.length ≠ 5
  | .loc => r.getD 1 0 ≠ 0 ∧ r.getD 2 0 ≠ 0 ∧ r.getD 3 0 ≠ 0
  | .nsec3 => r.getD 0 0 = 1
  | _ => True

theorem structOk_px (p0 p1 : UInt8) (map822 mapx400 : AbsName) :
    StructOk (p0 :: p1 :: (map822.name.ndata ++ mapx400.name.ndata)) .px ↔ map822.name = mapx400.name := by
  have hdrop : (map822.name.ndata ++ mapx400.name.ndata).drop map822.name.length = mapx400.name.ndata := drop_left
  have hcase := Name.caseequal_iff map822.valid.label_le mapx400.valid.label_le
  simp only [StructOk, drop_succ_cons, drop_zero, nameFromregion_append]
  constructor
  · intro h
    refine hcase.1 (h map822.name mapx400.name rfl ?_)
    rw [Nat.add_comm, drop_succ_cons, drop_succ_cons, hdrop, nameFromregion_self]
  · intro h a b ha hb
    cases ha
    rw [Nat.add_comm, drop_succ_cons, drop_succ_cons, hdrop, nameFromregion_self] at hb
    cases hb
    exact hcase.2 h

/-- **Structures lose nothing, but for four types.**  Accepted rdata of a type with a structure goes to the structure
and comes back as the same bytes, without a failed assertion, iff `StructOk` holds. -/
theorem struct_roundtrip {validate : Bytes → ℤ} {type : RdataType} {r : Bytes}
    (hacc : Accepted validate type r) (hn : type ≠ .nxt) (hu : ∀ code, type ≠ .unknown code) : RoundTrip type r ↔ StructOk r type := by
  obtain ⟨hl, hmax⟩ := layout_of_accepted hacc
  cases hl with
  | wks r h5 h8k => exact wks_roundTrip_iff h5 h8k
  | soa origin contact tail h => exact iff_of_true (soa_roundTrip origin contact tail h hmax) trivial
  | txt r h => exact iff_of_true (txt_roundTrip h hmax) trivial
  | px p0 p1 map822 mapx400 => rw [px_roundTrip_iff, structOk_px]
  | loc size horizontal vertical a0 a1 a2 a3 o0 o1 o2 o3 t0 t1 t2 t3 hs hh hv hlat hlong =>
    exact loc_roundTrip_iff hs hh hv hlat hlong
  | nxt => exact absurd rfl hn
  | srv p0 p1 w₀ w₁ q0 q1 target => exact iff_of_true (srv_roundTrip p0 p1 w₀ w₁ q0 q1 target hmax) trivial
  | naptr o0 o1 p0 p1 fl sl rl flags service regexp replacement hf hs hr =>
    exact iff_of_true (naptr_roundTrip replacement hf hs hr hmax) trivial
  | a6 prefixlen suffix pfx h128 hlen hpad hp => exact iff_of_true (a6_roundTrip h128 hlen hpad hp hmax) trivial
  | apl r h => exact iff_of_true (apl_roundTrip h hmax) trivial
  | ipseckey precedence gatewayType algorithm gateway key h => exact iff_of_true (ipseckey_roundTrip h hmax) trivial
  | rrsig fixed signer signature h => exact iff_of_true (rrsig_roundTrip fixed signer signature h hmax) trivial
  | nsec next bits h => exact iff_of_true (nsec_roundTrip next bits h hmax) trivial
  | nsec3 hash flags i0 i1 sl nl salt next bits hs hn' h => exact nsec3_roundTrip_iff hs hn' h hmax
  | hip hl algorithm k0 k1 hit key ns hh hk hh0 hk0 => exact iff_of_true (hip_roundTrip ns hh hk hh0 hk0 hmax) trivial
  | uri p0 p1 w₀ w₁ target h => exact iff_of_true (uri_roundTrip p0 p1 w₀ w₁ h hmax) trivial
  | unknown code => exact absurd rfl (hu code)

/-! ### The four slips, on the smallest records -/

theorem accepted_px (validate : Bytes → ℤ) (c d : UInt8) :
    Accepted validate .px (0 :: 0 :: ((oneLetter c).name.ndata ++ (oneLetter d).name.ndata)) := by
  let env : WireEnv := ⟨[0, 0, 1, c, 0, 1, d, 0], .any, false, validate⟩
  have first : env.name DNS_COMPRESS_NONE ⟨2, ⟨[0, 0], 100⟩⟩ = .ok ⟨5, ⟨[0, 0, 1, c, 0], 100⟩⟩ :=
    WireEnv.name_of_ndata (oneLetter c) rfl ⟨[1, d, 0], rfl⟩ (by simp [Buffer.available, Buffer.used, oneLetter_length])
  have second : env.name DNS_COMPRESS_NONE ⟨5, ⟨[0, 0, 1, c, 0], 100⟩⟩ = .ok ⟨8, ⟨[0, 0, 1, c, 0, 1, d, 0], 100⟩⟩ :=
    WireEnv.name_of_ndata (oneLetter d) rfl ⟨[], rfl⟩ (by simp [Buffer.available, Buffer.used, oneLetter_length])
  have hpx : fromwireSwitch env ⟨0, ⟨[], 100⟩⟩ .px = .ok ⟨8, ⟨[0, 0, 1, c, 0, 1, d, 0], 100⟩⟩ := by
    have hfixed : fixedFromwire env 2 ⟨0, ⟨[], 100⟩⟩ = .ok ⟨2, ⟨[0, 0], 100⟩⟩ := rfl
    rw [fromwireSwitch, fromwirePx, hfixed, ok_then, first, ok_then, second]
  exact accepted_of_switch (by simp [WireEnv.activeregion, env]) hpx (by simp [DNS_RDATA_MAXLENGTH, Buffer.used]) rfl

theorem accepted_wks (validate : Bytes → ℤ) : Accepted validate .wks [10, 0, 0, 1, 6] :=
  ⟨⟨[10, 0, 0, 1, 6], .any, false, validate⟩, ⟨0, ⟨[], 100⟩⟩, _, rfl, rfl⟩

theorem accepted_loc (validate : Bytes → ℤ) :
    Accepted validate .loc [0, 0, 0x16, 0x13, 0x80, 0, 0, 0, 0x80, 0, 0, 0, 0, 0x98, 0x96, 0x80] := by
  refine ⟨⟨[0, 0, 0x16, 0x13, 0x80, 0, 0, 0, 0x80, 0, 0, 0, 0, 0x98, 0x96, 0x80], .any, false, validate⟩,
    ⟨0, ⟨[], 100⟩⟩, ⟨16, ⟨[0, 0, 0x16, 0x13, 0x80, 0, 0, 0, 0x80, 0, 0, 0, 0, 0x98, 0x96, 0x80], 100⟩⟩, rfl, ?_⟩
  have h₁ : badPrecision 0x16 = false := by decide
  have h₂ : badPrecision 0x13 = false := by decide
  simp [rdataFromwire, fromwireSwitch, fromwireLoc, WireEnv.activeregion, consume, uint32Fromregion, require, ok_then, h₁, h₂]
  rfl

theorem accepted_nsec3 (validate : Bytes → ℤ) : Accepted validate .nsec3 [2, 0, 0, 0, 0, 0] := by
  refine ⟨⟨[2, 0, 0, 0, 0, 0], .any, false, validate⟩, ⟨0, ⟨[], 100⟩⟩, ⟨6, ⟨[2, 0, 0, 0, 0, 0], 100⟩⟩, rfl, ?_⟩
  simp [rdataFromwire, fromwireSwitch, fromwireNsec3, WireEnv.activeregion, consume, typemapLoop, require, ok_then]
  rfl

/-- Accepted rdata of PX, WKS, LOC and NSEC3 that do not come back. -/
theorem struct_loses : (Accepted (fun _ => 0) .px [0, 0, 1, 97, 0, 1, 98, 0] ∧ ¬RoundTrip .px [0, 0, 1, 97, 0, 1, 98, 0]) ∧
    (Accepted (fun _ => 0) .wks [10, 0, 0, 1, 6] ∧ ¬RoundTrip .wks [10, 0, 0, 1, 6]) ∧
    (Accepted (fun _ => 0) .loc [0, 0, 0x16, 0x13, 0x80, 0, 0, 0, 0x80, 0, 0, 0, 0, 0x98, 0x96, 0x80] ∧
      ¬RoundTrip .loc [0, 0, 0x16, 0x13, 0x80, 0, 0, 0, 0x80, 0, 0, 0, 0, 0x98, 0x96, 0x80]) ∧
    (Accepted (fun _ => 0) .nsec3 [2, 0, 0, 0, 0, 0] ∧ ¬RoundTrip .nsec3 [2, 0, 0, 0, 0, 0]) := by
  refine ⟨⟨accepted_px _ 97 98, ?_⟩, ⟨accepted_wks _, ?_⟩, ⟨accepted_loc _, ?_⟩, ⟨accepted_nsec3 _, ?_⟩⟩
  · exact fun h => absurd ((px_roundTrip_iff 0 0 (oneLetter 97) (oneLetter 98)).1 h) (by decide)
  · exact fun h => (wks_roundTrip_iff (by decide) (by decide)).1 h rfl
  · intro h
    have hzero := (loc_roundTrip_iff (.inl rfl) (.inr (by decide)) (.inr (by decide)) ⟨_, rfl, by decide, by decide⟩
      ⟨_, rfl, by decide, by decide⟩).1 h
    exact hzero.1 rfl
  · intro h
    have hone := (@nsec3_roundTrip_iff 2 0 0 0 0 0 [] [] [] rfl rfl ⟨true, by simp [typemapLoop]⟩ (by decide)).1 h
    exact absurd hone (by decide)

/-- A PX record that maps a name to itself comes back. -/
theorem struct_roundtrip_px : RoundTrip .px [0, 0, 1, 97, 0, 1, 97, 0] :=
  (struct_roundtrip (accepted_px (fun _ => 0) 97 97) (by decide) (fun _ => by simp)).2
    ((structOk_px 0 0 (oneLetter 97) (oneLetter 97)).2 rfl)

end Bind9.Rdata
