import Bind9.RdataWire

/-! # The layout of accepted rdata

What the bytes look like that the `fromwire` functions write.  `Layout` has one constructor for each type,
`layout_of_accepted` says that rdata accepted from the wire has the layout of its type. -/

namespace Bind9.Rdata

open List

/-- One or more character strings. -/
inductive Txts : Bytes → Prop
  | last (c : UInt8) (s : Bytes) (h : s.length = c.toNat) : Txts (c :: s)
  | more (c : UInt8) (s r : Bytes) (h : s.length = c.toNat) (hr : Txts r) : Txts (c :: (s ++ r))

/-- One or more character strings, all but the last of 255 bytes. -/
inductive Multitxt : Bytes → Prop
  | last (c : UInt8) (s : Bytes) (h : s.length = c.toNat) : Multitxt (c :: s)
  | more (s r : Bytes) (h : s.length = 255) (hr : Multitxt r) : Multitxt (255 :: (s ++ r))

/-- The gateway of an IPSECKEY, by its type. -/
inductive Gateway : UInt8 → Bytes → Prop
  | none : Gateway 0 []
  | ipv4 (a : Bytes) (h : a.length = 4) : Gateway 1 a
  | ipv6 (a : Bytes) (h : a.length = 16) : Gateway 2 a
  | name (n : AbsName) : Gateway 3 n.name.ndata

/-- The names at the end of a HIP record. -/
def servers (ns : List AbsName) : Bytes := ns.flatMap (fun n => n.name.ndata)

/-- The prefix name of an A6 record; it is missing if the prefix length is 0. -/
def prefixName : Option AbsName → Bytes
  | some n => n.name.ndata
  | none => []

/-- The check that `fromwire_nxt` makes on the bitmap. -/
def nxtBitmapOk (sr : Bytes) : Prop :=
  ¬(0 < sr.length ∧ sr.headD 0 &&& 0x80 = 0 ∧ (16 < sr.length ∨ sr.getLastD 0 = 0))

/-- A size or precision that `fromwire_loc` accepts. -/
def precisionOk (c : UInt8) : Prop := c = 0 ∨ badPrecision c = false

inductive Layout (validate : Bytes → ℤ) : RdataType → Bytes → Prop
  | wks (r : Bytes) (h5 : 5 ≤ r.length) (hmax : r.length ≤ 8 * 1024 + 5) : Layout validate .wks r
  | soa (origin contact : AbsName) (tail : Bytes) (h : tail.length = 20) :
      Layout validate .soa (origin.name.ndata ++ (contact.name.ndata ++ tail))
  | txt (r : Bytes) (h : Txts r) : Layout validate .txt r
  | px (p0 p1 : UInt8) (map822 mapx400 : AbsName) :
      Layout validate .px (p0 :: p1 :: (map822.name.ndata ++ mapx400.name.ndata))
  | loc (size horizontal vertical a0 a1 a2 a3 o0 o1 o2 o3 t0 t1 t2 t3 : UInt8) (hs : precisionOk size)
      (hh : precisionOk horizontal) (hv : precisionOk vertical)
      (hlat : ∃ v, uint32Fromregion [a0, a1, a2, a3] = .ok v ∧
        0x80000000 - 90 * 3600000 ≤ v ∧ v ≤ 0x80000000 + 90 * 3600000)
      (hlong : ∃ v, uint32Fromregion [o0, o1, o2, o3] = .ok v ∧
        0x80000000 - 180 * 3600000 ≤ v ∧ v ≤ 0x80000000 + 180 * 3600000) :
      Layout validate .loc [0, size, horizontal, vertical, a0, a1, a2, a3, o0, o1, o2, o3, t0, t1, t2, t3]
  | nxt (next : AbsName) (bits : Bytes) (h : nxtBitmapOk bits) : Layout validate .nxt (next.name.ndata ++ bits)
  | srv (p0 p1 w₀ w₁ q0 q1 : UInt8) (target : AbsName) :
      Layout validate .srv (p0 :: p1 :: w₀ :: w₁ :: q0 :: q1 :: target.name.ndata)
  | naptr (o0 o1 p0 p1 fl sl rl : UInt8) (flags service regexp : Bytes) (replacement : AbsName)
      (hf : flags.length = fl.toNat) (hs : service.length = sl.toNat) (hr : regexp.length = rl.toNat)
      (hv : ∀ env : WireEnv, env.regexValidate = validate → txtValidRegex env regexp = .ok ()) :
      Layout validate .naptr (o0 :: o1 :: p0 :: p1 :: fl :: (flags ++ sl :: (service ++ rl :: (regexp ++
        replacement.name.ndata))))
  | a6 (prefixlen : UInt8) (suffix : Bytes) (pfx : Option AbsName) (h128 : prefixlen.toNat ≤ 128)
      (hlen : suffix.length = 16 - prefixlen.toNat / 8)
      (hpad : suffix.headD 0 &&& (255 >>> (prefixlen % 8)) = suffix.headD 0)
      (hp : pfx.isSome ↔ prefixlen.toNat ≠ 0) : Layout validate .a6 (prefixlen :: (suffix ++ prefixName pfx))
  | apl (r : Bytes) (h : aplLoop r = .ok ()) : Layout validate .apl r
  | ipseckey (precedence gatewayType algorithm : UInt8) (gateway key : Bytes)
      (h : Gateway gatewayType gateway) :
      Layout validate .ipseckey (precedence :: gatewayType :: algorithm :: (gateway ++ key))
  | rrsig (fixed : Bytes) (signer : AbsName) (signature : Bytes) (h : fixed.length = 18) :
      Layout validate .rrsig (fixed ++ (signer.name.ndata ++ signature))
  | nsec (next : AbsName) (bits : Bytes) (h : typemapLoop (.result .formerr) true 0 bits = .ok false) :
      Layout validate .nsec (next.name.ndata ++ bits)
  | nsec3 (hash flags i0 i1 sl nl : UInt8) (salt next bits : Bytes) (hs : salt.length = sl.toNat)
      (hn : next.length = nl.toNat) (h : ∃ first, typemapLoop (.result .formerr) true 0 bits = .ok first) :
      Layout validate .nsec3 (hash :: flags :: i0 :: i1 :: sl :: (salt ++ nl :: (next ++ bits)))
  | hip (hl algorithm k0 k1 : UInt8) (hit key : Bytes) (ns : List AbsName) (hh : hit.length = hl.toNat)
      (hk : key.length = k0.toNat * 256 + k1.toNat) (hh0 : hl.toNat ≠ 0) (hk0 : key.length ≠ 0) :
      Layout validate .hip (hl :: algorithm :: k0 :: k1 :: (hit ++ (key ++ servers ns)))
  | uri (p0 p1 w₀ w₁ : UInt8) (target : Bytes) (h : Multitxt target) :
      Layout validate .uri (p0 :: p1 :: w₀ :: w₁ :: target)
  | unknown (code : ℕ) (r : Bytes) : Layout validate (.unknown code) r

/-! ### The pieces -/

variable {env : WireEnv} {st st' : WireState}

theorem fixedFromwire_eq {n : ℕ} (h : fixedFromwire env n st = .ok st') :
    n ≤ (env.activeregion st).length ∧ st'.target = st.target.put ((env.activeregion st).take n) := by
  unfold fixedFromwire at h
  simp only at h
  split at h
  · cases h
  next hlen =>
    obtain ⟨st1, hm, h⟩ := bind_eq_ok h
    have ht := WireState.mem_ok hm
    cases h
    exact ⟨by omega, ht⟩

theorem fixedFromwire_ok {n : ℕ} (h : fixedFromwire env n st = .ok st') :
    ∃ f : Bytes, f.length = n ∧ st'.target = st.target.put f := by
  obtain ⟨hlen, ht⟩ := fixedFromwire_eq h
  exact ⟨_, by rw [length_take]; omega, ht⟩

theorem restFromwire_ok (h : restFromwire env st = .ok st') : st'.target = st.target.put (env.activeregion st) := by
  obtain ⟨st1, hm, h⟩ := bind_eq_ok h
  have ht := WireState.mem_ok hm
  cases h
  exact ht

theorem txtsFromwire_ok (env : WireEnv) (st : WireState) : ∀ st', txtsFromwire env st = .ok st' →
    ∃ r, Txts r ∧ st'.target = st.target.put r := by
  induction st using txtsFromwire.induct env with
  | case1 st e he =>
    intro st' h
    rw [txtsFromwire] at h
    split at h
    · cases h
    · next hs => rw [he] at hs; cases hs
  | case2 st st1 h1 hlt ih =>
    intro st' h
    obtain ⟨c, s, hlen, ht, -⟩ := txtFromwire_ok h1
    rw [txtsFromwire] at h
    split at h
    · cases h
    next st2 hs =>
      rw [h1] at hs
      cases hs
      rw [if_pos hlt] at h
      obtain ⟨r, hr, ht'⟩ := ih st' h
      exact ⟨c :: (s ++ r), .more c s r hlen hr, by rw [ht', ht, Buffer.put_put, cons_append]⟩
  | case3 st st1 h1 hlt =>
    intro st' h
    obtain ⟨c, s, hlen, ht, -⟩ := txtFromwire_ok h1
    rw [txtsFromwire] at h
    split at h
    · cases h
    next st2 hs =>
      rw [h1] at hs
      cases hs
      rw [if_neg hlt] at h
      cases h
      exact ⟨c :: s, .last c s hlen, ht⟩

theorem multitxtLoop_ok (env : WireEnv) (n : ℕ) (st : WireState) : ∀ st', multitxtLoop env n st = .ok st' →
    n = 256 ∧ ∃ r, Multitxt r ∧ st'.target = st.target.put r := by
  induction n, st using multitxtLoop.induct env with
  | case1 n st hn =>
    intro st' h
    rw [multitxtLoop, if_pos hn] at h
    cases h
  | case2 n st hn e he =>
    intro st' h
    rw [multitxtLoop, if_neg hn] at h
    split at h
    · cases h
    · next hs => rw [he] at hs; cases hs
  | case3 n st hn st1 h1 hlt ih =>
    intro st' h
    obtain ⟨c, s, hlen, ht, hc, -⟩ := txtFromwire_ok h1
    rw [multitxtLoop, if_neg hn] at h
    split at h
    · cases h
    next st2 hs =>
      rw [h1] at hs
      cases hs
      rw [if_pos hlt] at h
      obtain ⟨hfull, r, hr, ht'⟩ := ih st' h
      -- the loop goes on only after a string of 255 bytes
      have hc255 : c.toNat = 255 := by omega
      have hc' : c = 255 := UInt8.toNat_inj.1 hc255
      subst hc'
      exact ⟨not_not.1 hn, 255 :: (s ++ r), .more s r hlen hr, by rw [ht', ht, Buffer.put_put, cons_append]⟩
  | case4 n st hn st1 h1 hlt =>
    intro st' h
    obtain ⟨c, s, hlen, ht, -⟩ := txtFromwire_ok h1
    rw [multitxtLoop, if_neg hn] at h
    split at h
    · cases h
    next st2 hs =>
      rw [h1] at hs
      cases hs
      rw [if_neg hlt] at h
      cases h
      exact ⟨not_not.1 hn, c :: s, .last c s hlen, ht⟩

theorem hipServers_ok (env : WireEnv) (st : WireState) : ∀ st', hipServers env st = .ok st' →
    ∃ ns, st'.target = st.target.put (servers ns) := by
  induction st using hipServers.induct env with
  | case1 st hc e he =>
    intro st' h
    rw [hipServers, dif_pos hc] at h
    split at h
    · cases h
    · next hs => rw [he] at hs; cases hs
  | case2 st hc st1 h1 ih =>
    intro st' h
    obtain ⟨n, ht⟩ := WireEnv.name_ok h1
    rw [hipServers, dif_pos hc] at h
    split at h
    · cases h
    next st2 hs =>
      rw [h1] at hs
      cases hs
      obtain ⟨ns, ht'⟩ := ih st' h
      exact ⟨n :: ns, by rw [ht', ht, Buffer.put_put]; rfl⟩
  | case3 st hc =>
    intro st' h
    rw [hipServers, dif_neg hc] at h
    cases h
    exact ⟨[], by simp [servers, Buffer.put]⟩

/-! ### The types -/

/-- What is written has the layout of the type. -/
abbrev LaysOut (env : WireEnv) (st st' : WireState) (type : RdataType) : Prop :=
  ∃ r, st'.target = st.target.put r ∧ Layout env.regexValidate type r

theorem fromwireSoa_layout (h : fromwireSoa env st = .ok st') : LaysOut env st st' .soa := by
  obtain ⟨st1, h1, h⟩ := bind_eq_ok h
  obtain ⟨st2, h2, h⟩ := bind_eq_ok h
  obtain ⟨origin, ho⟩ := WireEnv.name_ok h1
  obtain ⟨contact, hc⟩ := WireEnv.name_ok h2
  obtain ⟨tail, hlen, ht⟩ := fixedFromwire_ok (n := 20) h
  exact ⟨_, by rw [ht, hc, ho, Buffer.put_put, Buffer.put_put], .soa origin contact tail hlen⟩

theorem fromwireSrv_layout (h : fromwireSrv env st = .ok st') : LaysOut env st st' .srv := by
  obtain ⟨st1, h1, h⟩ := bind_eq_ok h
  obtain ⟨fixed, hlen, hf⟩ := fixedFromwire_ok h1
  obtain ⟨target, ht⟩ := WireEnv.name_ok h
  match fixed, hlen with
  | [p0, p1, w₀, w₁, q0, q1], _ =>
    exact ⟨_, by rw [ht, hf, Buffer.put_put]; rfl, .srv p0 p1 w₀ w₁ q0 q1 target⟩

theorem fromwirePx_layout (h : fromwirePx env st = .ok st') : LaysOut env st st' .px := by
  obtain ⟨st1, h1, h⟩ := bind_eq_ok h
  obtain ⟨st2, h2, h⟩ := bind_eq_ok h
  obtain ⟨fixed, hlen, hf⟩ := fixedFromwire_ok h1
  obtain ⟨map822, hm⟩ := WireEnv.name_ok h2
  obtain ⟨mapx400, hx⟩ := WireEnv.name_ok h
  match fixed, hlen with
  | [p0, p1], _ =>
    exact ⟨_, by rw [hx, hm, hf, Buffer.put_put, Buffer.put_put]; rfl, .px p0 p1 map822 mapx400⟩

theorem txtValidRegex_congr {env' : WireEnv} (h : env.regexValidate = env'.regexValidate) :
    ∀ txt : Bytes, txtValidRegex env txt = txtValidRegex env' txt
  | [] => rfl
  | delim :: txt => by simp only [txtValidRegex, h]
theorem fromwireNaptr_layout (h : fromwireNaptr env st = .ok st') : LaysOut env st st' .naptr := by
  obtain ⟨st1, h1, h⟩ := bind_eq_ok h
  obtain ⟨st2, h2, h⟩ := bind_eq_ok h
  obtain ⟨st3, h₃, h⟩ := bind_eq_ok h
  obtain ⟨st4, h₄, h⟩ := bind_eq_ok h
  obtain ⟨len, hl, h⟩ := bind_eq_ok h
  obtain ⟨u, hv, h⟩ := bind_eq_ok h
  obtain ⟨fixed, hlen, hfix⟩ := fixedFromwire_ok h1
  obtain ⟨fl, flags, hfl, hft, -⟩ := txtFromwire_ok h2
  obtain ⟨sl, service, hsl, hst, -⟩ := txtFromwire_ok h₃
  obtain ⟨rl, regexp, hrl, hrt, -, tail, htail⟩ := txtFromwire_ok h₄
  obtain ⟨replacement, ht⟩ := WireEnv.name_ok h
  -- the bytes that are checked are the string that was copied
  rw [← htail, cons_append, byteAt_zero] at hl
  rw [← htail, cons_append, drop_one, tail_cons, ← Except.ok.inj hl, ← hrl, take_left] at hv
  match fixed, hlen with
  | [o0, o1, p0, p1], _ =>
    refine ⟨_, ?_, .naptr o0 o1 p0 p1 fl sl rl flags service regexp replacement hfl hsl hrl ?_⟩
    · rw [ht, hrt, hst, hft, hfix]
      simp
    · intro env' he
      rw [txtValidRegex_congr he, hv]

theorem fromwireA6_layout (h : fromwireA6 env st = .ok st') : LaysOut env st st' .a6 := by
  unfold fromwireA6 at h
  split at h
  · cases h
  next prefixlen sr hr =>
    split at h
    · cases h
    next h128 =>
      obtain ⟨st1, h1, h⟩ := bind_eq_ok h
      have ht1 := WireState.mem_ok h1
      simp only at h
      split at h
      · next heq =>
          obtain ⟨n, hn⟩ := WireEnv.name_ok h
          refine ⟨prefixlen :: ([] ++ prefixName (some n)), ?_, .a6 prefixlen [] (some n) (by omega) ?_ ?_ ?_⟩
          · rw [hn, WireState.forward_target, ht1, Buffer.put_put]
            rfl
          · simp [heq]
          · simp
          · simp [heq]
      next hne =>
        split at h
        · cases h
        next hoct =>
          obtain ⟨st2, h2, h⟩ := bind_eq_ok h
          have ht2 := WireState.mem_ok h2
          generalize hfirst : sr.headD 0 &&& (255 >>> (prefixlen % 8)) = first at h h2 ht2
          have hpos : 0 < 16 - prefixlen.toNat / 8 := by omega
          have hlen : (first :: (sr.take (16 - prefixlen.toNat / 8)).tail).length =
              16 - prefixlen.toNat / 8 := by
            simp only [length_cons, length_tail, length_take]
            omega
          have hpad : first &&& (255 >>> (prefixlen % 8)) = first := by
            rw [← hfirst, UInt8.and_assoc, UInt8.and_self]
          split at h
          · next h0 =>
              cases h
              refine ⟨_, ?_, .a6 prefixlen (first :: (sr.take (16 - prefixlen.toNat / 8)).tail) none
                (by omega) hlen hpad (by simp [h0])⟩
              rw [WireState.forward_target, ht2, WireState.forward_target, ht1, Buffer.put_put]
              simp [prefixName]
          next h0 =>
            obtain ⟨n, hn⟩ := WireEnv.name_ok h
            refine ⟨_, ?_, .a6 prefixlen (first :: (sr.take (16 - prefixlen.toNat / 8)).tail) (some n)
              (by omega) hlen hpad (by simp [h0])⟩
            rw [hn, WireState.forward_target, ht2, WireState.forward_target, ht1, Buffer.put_put,
              Buffer.put_put]
            simp [prefixName]

theorem fromwireNxt_layout (h : fromwireNxt env st = .ok st') : LaysOut env st st' .nxt := by
  obtain ⟨st1, h1, h⟩ := bind_eq_ok h
  obtain ⟨next, hn⟩ := WireEnv.name_ok h1
  simp only at h
  split at h
  · cases h
  · next hbits =>
      exact ⟨_, by rw [restFromwire_ok h, hn, Buffer.put_put], .nxt next _ hbits⟩

theorem fromwireNsec_layout (h : fromwireNsec env st = .ok st') : LaysOut env st st' .nsec := by
  obtain ⟨st1, h1, h⟩ := bind_eq_ok h
  obtain ⟨first, hbits, h⟩ := bind_eq_ok h
  obtain ⟨next, hn⟩ := WireEnv.name_ok h1
  split at h
  · cases h
  next hfirst =>
    rw [Bool.eq_false_of_not_eq_true hfirst] at hbits
    exact ⟨_, by rw [restFromwire_ok h, hn, Buffer.put_put], .nsec next _ hbits⟩

theorem fromwireRrsig_layout (h : fromwireRrsig env st = .ok st') : LaysOut env st st' .rrsig := by
  obtain ⟨st1, h1, h⟩ := bind_eq_ok h
  obtain ⟨st2, h2, h⟩ := bind_eq_ok h
  obtain ⟨fixed, hlen, hf⟩ := fixedFromwire_ok h1
  obtain ⟨signer, hs⟩ := WireEnv.name_ok h2
  exact ⟨_, by rw [restFromwire_ok h, hs, hf, Buffer.put_put, Buffer.put_put], .rrsig fixed signer _ hlen⟩

theorem fromwireHip_layout (h : fromwireHip env st = .ok st') : LaysOut env st st' .hip := by
  unfold fromwireHip at h
  simp only at h
  split at h
  · cases h
  next h4 =>
    match hr : env.activeregion st with
    | [] | [_] | [_, _] | [_, _, _] => simp [hr] at h4
    | hl :: algorithm :: k0 :: k1 :: rest =>
      simp only [hr, uint8Fromregion, ok_then, consume_two, uint16Fromregion] at h
      split at h
      · cases h
      next hl0 =>
        split at h
        · cases h
        next hk0 =>
          split at h
          · cases h
          next hlen =>
            obtain ⟨st1, h1, h⟩ := bind_eq_ok h
            obtain ⟨ns, hns⟩ := hipServers_ok env _ st' h
            have ht := WireState.mem_ok h1
            generalize hk : k0.toNat * 256 + k1.toNat = k at hk0 hlen ht
            have htake : (hl :: algorithm :: k0 :: k1 :: rest).take (4 + hl.toNat + k) =
                hl :: algorithm :: k0 :: k1 :: (rest.take hl.toNat ++ (rest.drop hl.toNat).take k) := by
              have e : 4 + hl.toNat + k = (hl.toNat + k) + 4 := by omega
              rw [e]
              simp only [take_succ_cons, take_add]
            refine ⟨_, ?_, .hip hl algorithm k0 k1 (rest.take hl.toNat) ((rest.drop hl.toNat).take k) ns
              ?_ ?_ hl0 ?_⟩
            · rw [hns, WireState.forward_target, ht, htake, Buffer.put_put]
              simp
            · rw [length_take]
              omega
            · rw [length_take, length_drop, hk]
              omega
            · rw [length_take, length_drop]
              omega

theorem gateway_of_length {n : ℕ} {key : Bytes} (h : n ≤ key.length) : (key.take n).length = n := by
  rw [length_take]
  omega

theorem fromwireIpseckey_layout (h : fromwireIpseckey env st = .ok st') : LaysOut env st st' .ipseckey := by
  unfold fromwireIpseckey at h
  simp only at h
  split at h
  · cases h
  next h3 =>
    match hr : env.activeregion st with
    | [] | [_] | [_, _] => simp [hr] at h3
    | precedence :: gatewayType :: algorithm :: key =>
      simp only [hr, getD_cons_succ, getD_cons_zero, length_cons] at h
      split at h
      · next hg =>
          rw [(UInt8.toNat_inj (b := 0)).1 hg] at hr
          exact ⟨_, by rw [restFromwire_ok h, hr]; rfl, .ipseckey precedence 0 algorithm [] key .none⟩
      · next hg =>
          split at h
          · cases h
          next h7 =>
            rw [(UInt8.toNat_inj (b := 1)).1 hg] at hr
            refine ⟨_, ?_, .ipseckey precedence 1 algorithm (key.take 4) (key.drop 4)
              (.ipv4 _ (gateway_of_length (by omega)))⟩
            rw [restFromwire_ok h, hr, take_append_drop]
      · next hg =>
          split at h
          · cases h
          next h19 =>
            rw [(UInt8.toNat_inj (b := 2)).1 hg] at hr
            refine ⟨_, ?_, .ipseckey precedence 2 algorithm (key.take 16) (key.drop 16)
              (.ipv6 _ (gateway_of_length (by omega)))⟩
            rw [restFromwire_ok h, hr, take_append_drop]
      · next hg =>
          obtain ⟨st1, h1, h⟩ := bind_eq_ok h
          obtain ⟨st2, h2, h⟩ := bind_eq_ok h
          obtain ⟨n, hn⟩ := WireEnv.name_ok h2
          refine ⟨_, ?_, .ipseckey precedence gatewayType algorithm n.name.ndata (env.activeregion st2) ?_⟩
          · rw [restFromwire_ok h, hn, WireState.forward_target, WireState.mem_ok h1, Buffer.put_put,
              Buffer.put_put]
            rfl
          · rw [(UInt8.toNat_inj (b := 3)).1 hg]
            exact .name n
      · cases h

theorem fromwireNsec3_layout (h : fromwireNsec3 env st = .ok st') : LaysOut env st st' .nsec3 := by
  unfold fromwireNsec3 at h
  simp only at h
  split at h
  · cases h
  next h5 =>
    match hr : env.activeregion st with
    | [] | [_] | [_, _] | [_, _, _] | [_, _, _, _] => simp [hr] at h5
    | hash :: flags :: i0 :: i1 :: sl :: rest =>
      have hc5 : consume (hash :: flags :: i0 :: i1 :: sl :: rest) 5 = .ok rest := by simp [consume]
      simp only [hr, getD_cons_succ, getD_cons_zero, hc5, ok_then] at h
      split at h
      · cases h
      next hs =>
        have hcs : consume rest sl.toNat = .ok (rest.drop sl.toNat) := by
          rw [consume, if_pos (by omega)]
        simp only [hcs, ok_then] at h
        split at h
        · cases h
        next hn =>
          cases hd : rest.drop sl.toNat with
          | nil => simp [hd] at hn
          | cons nl rest' =>
            simp only [hd, getD_cons_zero, consume_one, ok_then] at h
            split at h
            · cases h
            next hnl =>
              have hcn : consume rest' nl.toNat = .ok (rest'.drop nl.toNat) := by
                rw [consume, if_pos (by omega)]
              simp only [hcn, ok_then] at h
              obtain ⟨first, hbits, h⟩ := bind_eq_ok h
              refine ⟨_, ?_, .nsec3 hash flags i0 i1 sl nl (rest.take sl.toNat) (rest'.take nl.toNat)
                (rest'.drop nl.toNat) ?_ ?_ ⟨first, hbits⟩⟩
              · rw [restFromwire_ok h, hr, take_append_drop, ← hd, take_append_drop]
              · rw [length_take]
                omega
              · rw [length_take]
                omega

theorem precisionOk_of {c : UInt8} (h : ¬(c ≠ 0 ∧ badPrecision c = true)) : precisionOk c := by
  unfold precisionOk
  by_cases hc : c = 0
  · exact .inl hc
  · exact .inr (by simpa [hc] using h)

theorem fromwireLoc_layout (h : fromwireLoc env st = .ok st') : LaysOut env st st' .loc := by
  unfold fromwireLoc at h
  simp only at h
  split at h
  · cases h
  split at h
  · cases h
  next hversion =>
  split at h
  · cases h
  next h16 =>
  split at h
  · cases h
  next hsize =>
  split at h
  · cases h
  next hhor =>
  split at h
  · cases h
  next hver =>
  -- the sixteen bytes and what follows them
  obtain ⟨f, rest, hr, hlen⟩ : ∃ f rest, env.activeregion st = f ++ rest ∧ f.length = 16 :=
    ⟨_, _, (take_append_drop 16 _).symm, by rw [length_take]; omega⟩
  match f, hlen with
  | [v, size, horizontal, vertical, a0, a1, a2, a3, o0, o1, o2, o3, t0, t1, t2, t3], _ =>
    simp only [hr, cons_append, nil_append, getD_cons_succ, getD_cons_zero, consume_four, ok_then,
      uint32Fromregion] at h hversion hsize hhor hver
    split at h
    · cases h
    next hlat =>
    split at h
    · cases h
    next hlong =>
    obtain ⟨-, ht⟩ := fixedFromwire_eq h
    have hv : v = 0 := not_not.1 hversion
    subst hv
    refine ⟨_, ?_, .loc size horizontal vertical a0 a1 a2 a3 o0 o1 o2 o3 t0 t1 t2 t3 (precisionOk_of hsize)
      (precisionOk_of hhor) (precisionOk_of hver) ⟨_, rfl, by omega, by omega⟩ ⟨_, rfl, by omega, by omega⟩⟩
    rw [ht, hr]
    rfl

theorem fromwireApl_layout (h : fromwireApl env st = .ok st') : LaysOut env st st' .apl := by
  unfold fromwireApl at h
  simp only at h
  split at h
  · cases h
  · obtain ⟨u, hu, h⟩ := bind_eq_ok h
    exact ⟨_, restFromwire_ok h, .apl _ hu⟩

theorem fromwireWks_layout (h : fromwireWks env st = .ok st') : LaysOut env st st' .wks := by
  unfold fromwireWks at h
  simp only at h
  split at h
  · cases h
  next h5 =>
    split at h
    · cases h
    · next hmax => exact ⟨_, restFromwire_ok h, .wks _ (by omega) (by omega)⟩

theorem fromwireUri_layout (h : fromwireUri env st = .ok st') : LaysOut env st st' .uri := by
  obtain ⟨st1, h1, h⟩ := bind_eq_ok h
  obtain ⟨fixed, hlen, hf⟩ := fixedFromwire_ok h1
  unfold multitxtFromwire at h
  split at h
  · cases h
  obtain ⟨-, r, hr, ht⟩ := multitxtLoop_ok env 256 st1 st' h
  match fixed, hlen with
  | [p0, p1, w₀, w₁], _ => exact ⟨_, by rw [ht, hf, Buffer.put_put]; rfl, .uri p0 p1 w₀ w₁ r hr⟩

theorem layout_of_switch : ∀ {type : RdataType},
    fromwireSwitch env st type = .ok st' → LaysOut env st st' type
  | .wks, h => fromwireWks_layout h
  | .soa, h => fromwireSoa_layout h
  | .txt, h => by
    obtain ⟨r, hr, ht⟩ := txtsFromwire_ok env st st' h
    exact ⟨r, ht, .txt r hr⟩
  | .px, h => fromwirePx_layout h
  | .loc, h => fromwireLoc_layout h
  | .nxt, h => fromwireNxt_layout h
  | .srv, h => fromwireSrv_layout h
  | .naptr, h => fromwireNaptr_layout h
  | .a6, h => fromwireA6_layout h
  | .apl, h => fromwireApl_layout h
  | .ipseckey, h => fromwireIpseckey_layout h
  | .rrsig, h => fromwireRrsig_layout h
  | .nsec, h => fromwireNsec_layout h
  | .nsec3, h => fromwireNsec3_layout h
  | .hip, h => fromwireHip_layout h
  | .uri, h => fromwireUri_layout h
  | .unknown code, h => by
    simp only [fromwireSwitch] at h
    split at h
    · cases h
    · exact ⟨_, restFromwire_ok h, .unknown code _⟩

/-- **Accepted rdata** has the layout of its type and at most `DNS_RDATA_MAXLENGTH` bytes. -/
theorem layout_of_accepted {validate : Bytes → ℤ} {type : RdataType} {r : Bytes}
    (h : Accepted validate type r) : Layout validate type r ∧ r.length ≤ DNS_RDATA_MAXLENGTH := by
  obtain ⟨env, st, st', rfl, h⟩ := h
  obtain ⟨-, -, h⟩ := bind_eq_ok h
  obtain ⟨st1, hsw, h⟩ := bind_eq_ok h
  obtain ⟨r', ht, hl⟩ := layout_of_switch hsw
  have hdrop : st1.target.data.drop st.target.used = r' := by
    rw [ht, Buffer.put_data, Buffer.used, drop_left]
  rw [hdrop] at h
  simp only at h
  split at h
  · cases h
  next hmax =>
    split at h
    · cases h
    · cases h
      exact ⟨hl, by omega⟩

end Bind9.Rdata
