import Bind9.TsigExchange

/-! # The length of accepted signatures

`dns_tsig_verify` tests the length of a signature before it looks at the MAC, `tsig_verify_tcp` has no such test, and the
MAC accepts every start of the right value.  `signature_length` says exactly when what is accepted satisfies the policy for
lengths. -/

namespace Bind9

open List

/-- The policy: no longer than the digest, at least 10 bytes and half the digest, and at least the digest bits of the key or,
where it has none, the whole digest. -/
structure LengthPolicy (key : DstKey) (siglen : ℕ) : Prop where
  digest : ∃ size, key.sigsize = some size ∧ siglen ≤ size ∧ size ≤ 2 * siglen ∧ (key.bits = 0 → size ≤ siglen)
  minimum : 10 ≤ siglen
  bits : key.bits ≤ 8 * siglen

/-- The policy but for digest bits that do not fill the last byte: the signature ends with the byte before. -/
structure RoundedDown (key : DstKey) (siglen : ℕ) : Prop where
  digest : ∃ size, key.sigsize = some size ∧ siglen ≤ size ∧ size ≤ 2 * siglen
  minimum : 10 ≤ siglen
  bits : siglen = key.bits / 8 ∧ 1 ≤ key.bits % 8 ∧ key.bits % 8 ≤ 6

def usedKey (env : VerifyEnv) (msg : Message) (t : TsigRR) : Option TsigKey :=
  match msg.tsigkey with
  | some k => some k
  | none => if msg.tcpContinuation || msg.response then none else findInRings env t

/-- Key name and algorithm are those of the query. -/
def MatchesQuery (t : TsigRR) (k : TsigKey) (q : TsigRdata) : Prop :=
  t.name.equal k.name = true ∧ t.rdata.algorithm.equal q.algorithm = true

/-- The time is within the fudge, as the code sees it. -/
def InTime (env : VerifyEnv) (msg : Message) (t : TsigRdata) : Prop := sigExpired env msg t = false ∧ sigInFuture env msg t = false

/-- The TSIG of a continuation is in order but for the length of its signature. -/
structure TcpOrder (mac : DstKey → Bytes → Bytes) (env : VerifyEnv) (msg : Message) (t : TsigRR) (k : TsigKey) : Prop where
  response : msg.response = true
  key : msg.tsigkey = some k
  time : InTime env msg t.rdata
  nonempty : t.rdata.signature ≠ []
  signature : ∃ q, msg.querytsig = some q ∧ MatchesQuery t k q ∧
    t.rdata.signature <+: mac k.key (msg.tsigctx.getD (querySignature (some q)) ++ (tcpChunks msg).flatten)

/-- The TSIG of another message is in order but for the length of its signature. -/
structure PlainOrder (mac : DstKey → Bytes → Bytes) (env : VerifyEnv) (msg : Message) (t : TsigRR) (k : TsigKey) : Prop where
  key : usedKey env msg t = some k
  query : msg.response = true → ∃ q, msg.querytsig = some q ∧ MatchesQuery t k q
  time : InTime env msg t.rdata
  noerror : t.rdata.error = rcodeNoerror
  nonempty : t.rdata.signature ≠ []
  signature : t.rdata.signature <+: mac k.key (tsigChunks msg t k).flatten

section Lengths

variable {key : DstKey} {siglen size : ℕ}

theorem checkLength_ok_iff (hhmac : key.alg.isHmac = true) (hsize : key.sigsize = some size) (hpos : 0 < siglen) :
    checkLength key siglen = .ok ↔ LengthPolicy key siglen ∨ RoundedDown key siglen := by
  have hdigest : ∀ P : ℕ → Prop, (∃ s, key.sigsize = some s ∧ P s) ↔ P size := fun P => by
    rw [hsize]
    constructor
    · rintro ⟨s, hs, hP⟩
      cases hs
      exact hP
    · exact fun hP => ⟨size, rfl, hP⟩
  have hpolicy : LengthPolicy key siglen ↔ (siglen ≤ size ∧ size ≤ 2 * siglen ∧ (key.bits = 0 → size ≤ siglen)) ∧ 10 ≤ siglen ∧
      key.bits ≤ 8 * siglen := by
    rw [← hdigest (fun s => siglen ≤ s ∧ s ≤ 2 * siglen ∧ (key.bits = 0 → s ≤ siglen))]
    exact ⟨fun h => ⟨h.digest, h.minimum, h.bits⟩, fun h => ⟨h.1, h.2.1, h.2.2⟩⟩
  have hrounded : RoundedDown key siglen ↔ (siglen ≤ size ∧ size ≤ 2 * siglen) ∧ 10 ≤ siglen ∧
      siglen = key.bits / 8 ∧ 1 ≤ key.bits % 8 ∧ key.bits % 8 ≤ 6 := by
    rw [← hdigest (fun s => siglen ≤ s ∧ s ≤ 2 * siglen)]
    exact ⟨fun h => ⟨h.digest, h.minimum, h.bits⟩, fun h => ⟨h.1, h.2.1, h.2.2⟩⟩
  rw [hpolicy, hrounded]
  unfold checkLength
  rw [hsize, hhmac]
  simp only [Bool.not_true, Bool.false_eq_true, if_false]
  by_cases hbig : size < siglen
  · rw [if_pos hbig]
    simp only [reduceCtorEq, false_iff]
    omega
  rw [if_neg hbig]
  by_cases hshort : 0 < siglen ∧ (siglen < 10 ∨ siglen < (size + 1) / 2)
  · rw [if_pos hshort]
    simp only [reduceCtorEq, false_iff]
    omega
  rw [if_neg hshort]
  by_cases hbits : key.bits = 0
  · simp only [hbits, ne_eq, not_true_eq_false, false_and, and_false, if_false, true_and, true_imp_iff]
    by_cases hwhole : 0 < siglen ∧ siglen < size
    · rw [if_pos hwhole]
      simp only [reduceCtorEq, false_iff]
      omega
    rw [if_neg hwhole]
    simp only [true_iff]
    omega
  by_cases htrunc : 0 < siglen ∧ key.bits ≠ 0 ∧ siglen < (key.bits + 1) / 8
  · rw [if_pos htrunc]
    simp only [reduceCtorEq, false_iff]
    omega
  rw [if_neg htrunc, if_neg (fun h => hbits h.2.1)]
  simp only [true_iff]
  omega

theorem checkLength_ne_success : checkLength key siglen ≠ .bad .success := by
  unfold checkLength
  split
  · simp
  · split_ifs
    all_goals simp

theorem RoundedDown.not_policy (h : RoundedDown key siglen) : ¬LengthPolicy key siglen := by
  intro hp
  have hb := h.bits
  have hle := hp.bits
  omega

end Lengths

section Verification

variable {mac : DstKey → Bytes → Bytes} {env : VerifyEnv} {msg : Message} {t : TsigRR} {k : TsigKey}

theorem hmac_verify_iff (key : DstKey) (acc sig : Bytes) :
    (hmacDst mac).verify key acc sig = .success ↔ sig <+: mac key acc := by
  rw [← isPrefixOf_iff_prefix]
  show (if sig.isPrefixOf (mac key acc) then Result.success else .verifyfailure) = .success ↔ _
  split
  · next h => simp [h]
  · next h => simp [h]

theorem verifyError_success_iff (msg : Message) (t : TsigRdata) : (verifyError msg t).2 = .success ↔ t.error = rcodeNoerror := by
  unfold verifyError
  split
  · next h =>
      split
      · simp [h]
      · simp [h]
  · next h => simp [not_not.1 h]

theorem verifyWithKey_success_iff (hdst : env.dst = hmacDst mac) : (verifyWithKey env msg t k).2 = .success ↔
    InTime env msg t.rdata ∧ checkLength k.key t.rdata.signature.length = .ok ∧ t.rdata.error = rcodeNoerror ∧
      t.rdata.signature ≠ [] ∧ t.rdata.signature <+: mac k.key (tsigChunks msg t k).flatten := by
  have hcheck : env.dst.check k.key (tsigChunks msg t k) t.rdata.signature =
      (hmacDst mac).verify k.key (tsigChunks msg t k).flatten t.rdata.signature := by
    rw [hdst]
    exact check_eq_verify rfl (fun _ _ => rfl) _ _
  unfold verifyWithKey InTime
  cases hexpired : sigExpired env msg t.rdata with
  | true => simp
  | false =>
    cases hfuture : sigInFuture env msg t.rdata with
    | true => simp
    | false =>
      simp only [Bool.false_eq_true, if_false, true_and]
      cases hlen : checkLength k.key t.rdata.signature.length with
      | bad r =>
        have hr : r ≠ .success := by
          rintro rfl
          exact checkLength_ne_success hlen
        simp [hr]
      | badtrunc => simp
      | ok =>
        simp only
        rw [hcheck, ← hmac_verify_iff, ← verifyError_success_iff msg]
        by_cases hempty : t.rdata.signature = []
        · simp only [hempty, length_nil, lt_irrefl, if_false, ne_eq, not_true_eq_false, false_and, and_false, iff_false]
          split
          · simp
          next h =>
            rw [verifyError_success_iff]
            intro hno
            apply h
            rw [hno]
            exact ⟨by decide, by decide⟩
        rw [if_pos (length_pos_iff.2 hempty)]
        split
        · next h => simp [h, hempty]
        · next h => simp [h]
        · next h _ => exact iff_of_false h (fun hh => h hh.2.2.2)

theorem tcpDigest_success_iff {q : TsigRdata} (hdst : env.dst = hmacDst mac) (ht : msg.tsig = some t) :
    (tcpDigest env msg q k).2 = .success ↔ t.rdata.signature ≠ [] ∧
      t.rdata.signature <+: mac k.key (msg.tsigctx.getD (querySignature (some q)) ++ (tcpChunks msg).flatten) := by
  have hadd : ∀ (chunks : List Bytes) (acc : Bytes),
      (hmacDst mac).addAll k.key chunks acc = .ok (acc ++ chunks.flatten) := addAll_ok (fun _ _ => rfl)
  have hcontext : tcpContext env.dst k.key q msg.tsigctx = .ok (msg.tsigctx.getD (querySignature (some q))) := by
    rw [hdst]
    unfold tcpContext
    cases msg.tsigctx with
    | some acc => rfl
    | none =>
      simp only [show (hmacDst mac).create k.key = .success from rfl, Option.getD_none]
      rw [hadd, nil_append, querySignature_chunks]
  unfold tcpDigest
  rw [hcontext]
  simp only
  rw [hdst, hadd, ht]
  simp only [length_eq_zero_iff]
  rw [← hmac_verify_iff]
  by_cases hempty : t.rdata.signature = []
  · simp only [hempty, if_true, ne_eq, not_true_eq_false, false_and, iff_false]
    split_ifs
    · simp
    · simp
    · simp
  rw [if_neg hempty]
  split
  · next h => simp [h, hempty]
  · next h => simp [h]
  · next h _ => exact iff_of_false h (fun hh => h hh.2)

theorem tsigVerifyTcp_success_iff {q : TsigRdata} (hdst : env.dst = hmacDst mac) (ht : msg.tsig = some t) :
    (tsigVerifyTcp env msg q k).2 = .success ↔ msg.response = true ∧ MatchesQuery t k q ∧ InTime env msg t.rdata ∧
      t.rdata.signature ≠ [] ∧
      t.rdata.signature <+: mac k.key (msg.tsigctx.getD (querySignature (some q)) ++ (tcpChunks msg).flatten) := by
  rw [← @tcpDigest_success_iff mac env msg t k q hdst ht, MatchesQuery, InTime]
  unfold tsigVerifyTcp
  rw [ht]
  simp only
  cases msg.response with
  | false => simp
  | true =>
    cases t.name.equal k.name with
    | false => simp
    | true =>
      cases t.rdata.algorithm.equal q.algorithm with
      | false => simp
      | true =>
        cases sigExpired env msg t.rdata with
        | true => simp
        | false =>
          cases sigInFuture env msg t.rdata with
          | true => simp
          | false => simp

theorem tsigVerifyTried_tcp_iff (hdst : env.dst = hmacDst mac) (ht : msg.tsig = some t) (hk : usedKey env msg t = some k)
    (hcont : msg.tcpContinuation = true) : (tsigVerifyTried env msg).2 = .success ↔ TcpOrder mac env msg t k := by
  have hkey : msg.tsigkey = some k := by
    unfold usedKey at hk
    rw [hcont] at hk
    split at hk
    · next h => rw [h, hk]
    · simp at hk
  unfold tsigVerifyTried
  rw [if_pos hcont, hkey]
  cases hquery : msg.querytsig with
  | none =>
    simp only [reduceCtorEq, false_iff]
    intro h
    obtain ⟨q, hq, -⟩ := h.signature
    rw [hquery] at hq
    cases hq
  | some q =>
    rw [tsigVerifyTcp_success_iff hdst ht]
    constructor
    · rintro ⟨hresponse, hmatch, htime, hne, hsig⟩
      exact ⟨hresponse, hkey, htime, hne, q, hquery, hmatch, hsig⟩
    · intro h
      obtain ⟨q', hq, hmatch, hsig⟩ := h.signature
      obtain rfl := Option.some.inj (hquery.symm.trans hq)
      exact ⟨h.response, hmatch, h.time, h.nonempty, hsig⟩

theorem tsigVerifyTried_plain_iff (hdst : env.dst = hmacDst mac) (ht : msg.tsig = some t) (hk : usedKey env msg t = some k)
    (hcont : msg.tcpContinuation = false) : (tsigVerifyTried env msg).2 = .success ↔
      PlainOrder mac env msg t k ∧ checkLength k.key t.rdata.signature.length = .ok := by
  have horder : PlainOrder mac env msg t k ∧ checkLength k.key t.rdata.signature.length = .ok ↔
      (msg.response = true → ∃ q, msg.querytsig = some q ∧ MatchesQuery t k q) ∧ (verifyWithKey env msg t k).2 = .success := by
    rw [verifyWithKey_success_iff hdst]
    constructor
    · rintro ⟨h, hlen⟩
      exact ⟨h.query, h.time, hlen, h.noerror, h.nonempty, h.signature⟩
    · rintro ⟨hquery, htime, hlen, hno, hne, hsig⟩
      exact ⟨⟨hk, hquery, htime, hno, hne, hsig⟩, hlen⟩
  rw [horder]
  unfold tsigVerifyTried
  rw [if_neg (by simp [hcont]), ht]
  simp only
  unfold usedKey at hk
  cases hresponse : msg.response with
  | true =>
    rw [hcont, hresponse] at hk
    rw [if_pos rfl]
    cases hkey : msg.tsigkey with
    | none =>
      rw [hkey] at hk
      simp at hk
    | some k' =>
      rw [hkey] at hk
      obtain rfl : k' = k := Option.some.inj hk
      cases hquery : msg.querytsig with
      | none => simp
      | some q =>
        simp only [Option.some.injEq, forall_const, exists_eq_left', MatchesQuery]
        cases t.name.equal k'.name with
        | false => simp
        | true =>
          cases t.rdata.algorithm.equal q.algorithm with
          | false => simp
          | true => simp
  | false =>
    rw [hcont, hresponse] at hk
    rw [if_neg (by simp)]
    cases hkey : msg.tsigkey with
    | some k' =>
      rw [hkey] at hk
      obtain rfl : k' = k := Option.some.inj hk
      simp
    | none =>
      rw [hkey] at hk
      simp only [Bool.or_self, Bool.false_eq_true, if_false] at hk
      rw [hk]
      simp only [Bool.false_eq_true, false_imp_iff, true_and]
      have hchunks : tsigChunks { msg with response := false, tsig := some t, tsigkey := some k } t k = tsigChunks msg t k := by
        unfold tsigChunks
        rw [hresponse]
      rw [verifyWithKey_success_iff hdst, verifyWithKey_success_iff hdst, ← hchunks]
      exact Iff.rfl

/-- **One policy for lengths?**  With HMACs, whatever is accepted satisfies the policy, unless a continuation whose TSIG is
in order otherwise has a signature that violates it, or in another message the key has digest bits that do not fill the last
byte and the signature ends with the byte before. -/
theorem signature_length (mac : DstKey → Bytes → Bytes) (env : VerifyEnv) (hdst : env.dst = hmacDst mac) (msg : Message)
    (t : TsigRR) (ht : msg.tsig = some t) (k : TsigKey) (hk : usedKey env msg t = some k) (hhmac : k.key.alg.isHmac = true) :
    ((tsigVerify env msg).2 = .success → LengthPolicy k.key t.rdata.signature.length) ↔
      ¬(msg.tcpContinuation = true ∧ TcpOrder mac env msg t k ∧ ¬LengthPolicy k.key t.rdata.signature.length) ∧
      ¬(msg.tcpContinuation = false ∧ PlainOrder mac env msg t k ∧ RoundedDown k.key t.rdata.signature.length) := by
  obtain ⟨size, hsize⟩ : ∃ size, k.key.sigsize = some size := by
    unfold DstKey.sigsize
    unfold DstAlg.isHmac at hhmac
    split
    all_goals first | exact ⟨_, rfl⟩ | simp_all
  cases hcont : msg.tcpContinuation with
  | true =>
    have htcp : (tsigVerify env msg).2 = .success ↔ TcpOrder mac env { msg with verifyAttempted := true } t k :=
      tsigVerifyTried_tcp_iff hdst ht hk hcont
    have horder : TcpOrder mac env { msg with verifyAttempted := true } t k ↔ TcpOrder mac env msg t k :=
      ⟨fun h => ⟨h.response, h.key, h.time, h.nonempty, h.signature⟩, fun h => ⟨h.response, h.key, h.time, h.nonempty, h.signature⟩⟩
    rw [htcp, horder]
    simp
  | false =>
    have hplain : (tsigVerify env msg).2 = .success ↔ PlainOrder mac env { msg with verifyAttempted := true } t k ∧
        checkLength k.key t.rdata.signature.length = .ok := tsigVerifyTried_plain_iff hdst ht hk hcont
    have horder : PlainOrder mac env { msg with verifyAttempted := true } t k ↔ PlainOrder mac env msg t k :=
      ⟨fun h => ⟨h.key, h.query, h.time, h.noerror, h.nonempty, h.signature⟩,
        fun h => ⟨h.key, h.query, h.time, h.noerror, h.nonempty, h.signature⟩⟩
    rw [hplain, horder]
    simp only [reduceCtorEq, false_and, not_false_eq_true, true_and]
    constructor
    · rintro h ⟨hin, hround⟩
      have hpos : 0 < t.rdata.signature.length := length_pos_iff.2 hin.nonempty
      exact hround.not_policy (h ⟨hin, (checkLength_ok_iff hhmac hsize hpos).2 (.inr hround)⟩)
    · rintro h ⟨hin, hlen⟩
      have hpos : 0 < t.rdata.signature.length := length_pos_iff.2 hin.nonempty
      obtain hpolicy | hround := (checkLength_ok_iff hhmac hsize hpos).1 hlen
      · exact hpolicy
      · exact absurd ⟨hin, hround⟩ h

end Verification

/-! ### A signature of one byte -/

/-- The TSIG of the query, with the algorithm of the shared key. -/
def shortQuery : TsigRdata := ⟨hmacSha256Name, 1500000000, 300, [], 1, 0, []⟩

/-- A TSIG with the first byte of its MAC. -/
def shortTsig : TsigRR := ⟨keyName, 255, 0, ⟨hmacSha256Name, 1500000000, 300, [158], 1, 0, []⟩⟩

/-- A continuation of a response. -/
def shortMessage : Message where
  response := true
  saved := [0, 1, 0x80, 0, 0, 0, 0, 0, 0, 0, 0, 1]
  sigstart := 12
  tsig := some shortTsig
  sig0 := none
  querytsig := some shortQuery
  query := none
  tcpContinuation := true
  verifiedSig := false
  verifyAttempted := false
  tsigstatus := 0
  sig0status := 0
  timeadjust := 0
  tsigkey := some sharedKey
  tsigctx := none

def shortEnv : VerifyEnv := ⟨hmacDst sumMac, none, none, 1500000000, .success⟩

theorem shortKey_policy : ¬LengthPolicy sharedKey.key 1 := fun h => absurd h.minimum (by decide)

/-- It is accepted in a continuation. -/
theorem signature_length_short : (tsigVerify shortEnv shortMessage).2 = .success ∧ shortMessage.tsig = some shortTsig ∧
    shortTsig.rdata.signature.length = 1 ∧ usedKey shortEnv shortMessage shortTsig = some sharedKey ∧
    sharedKey.key.alg.isHmac = true ∧ ¬LengthPolicy sharedKey.key 1 :=
  ⟨by decide, rfl, rfl, rfl, rfl, shortKey_policy⟩

/-- The same signature in a message that is no continuation. -/
theorem signature_length_plain : (tsigVerify shortEnv { shortMessage with tcpContinuation := false }).2 ≠ .success :=
  fun h => shortKey_policy
    ((signature_length sumMac shortEnv rfl { shortMessage with tcpContinuation := false } shortTsig rfl sharedKey rfl rfl).2
      ⟨fun h => Bool.false_ne_true h.1, fun h => absurd h.2.2.minimum (by decide)⟩ h)

end Bind9
