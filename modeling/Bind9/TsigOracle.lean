import Bind9.TsigSign

/-! # Which replies are signed

A reply is signed with the key of the request unless `tsigstatus` says `BADSIG` or the key has no
secret.  `dns_tsig_verify` looks at the time and at the length of a signature before it looks at the
signature itself, and those checks leave another status; so a request whose signature was never
verified gets a signed reply, unless it passes the checks and is refused by the last one
(`Refused`). -/

namespace Bind9

open List

/-! ### The status that verification leaves -/

section status
variable (env : VerifyEnv) (msg : Message) (t : TsigRR) (k : TsigKey)

/-- The last check refuses the signature: the library rejects it, or it is empty without an error that
explains it. -/
def Refused : Prop :=
  Timely env msg t ∧ checkLength k.key t.rdata.signature.length = .ok ∧
    (0 < t.rdata.signature.length ∧
        env.dst.check k.key (tsigChunks msg t k) t.rdata.signature = .verifyfailure ∨
      t.rdata.signature.length = 0 ∧ t.rdata.error ≠ tsigerrorBadsig ∧ t.rdata.error ≠ tsigerrorBadkey)

/-- `dst_context_verify` was called and succeeded. -/
def MacFound : Prop :=
  Timely env msg t ∧ checkLength k.key t.rdata.signature.length = .ok ∧ 0 < t.rdata.signature.length ∧
    env.dst.check k.key (tsigChunks msg t k) t.rdata.signature = .success

theorem verifyError_status (r : TsigRdata) : (verifyError msg r).1.tsigstatus = rcodeNoerror := by
  unfold verifyError
  split
  · split
    · rfl
    · rfl
  · rfl

theorem status_badsig_iff (h0 : msg.tsigstatus = rcodeNoerror) :
    (verifyWithKey env msg t k).1.tsigstatus = tsigerrorBadsig ↔ Refused env msg t k := by
  have hne : ¬rcodeNoerror = tsigerrorBadsig := by decide
  have htime : ¬tsigerrorBadtime = tsigerrorBadsig := by decide
  have htrunc : ¬tsigerrorBadtrunc = tsigerrorBadsig := by decide
  unfold verifyWithKey Refused Timely
  split
  next hexp => simp [hexp, htime]
  next hexp =>
    split
    next hfut => simp [hfut, htime]
    next hfut =>
      simp only [hexp, hfut, and_self, true_and]
      split
      next r hlen => simp [hlen, h0, hne]
      next hlen => simp [hlen, htrunc]
      next hlen =>
        simp only [hlen, true_and]
        split
        next hpos =>
          have hzero : ¬t.rdata.signature.length = 0 := by omega
          simp only [hpos, hzero, true_and, false_and, or_false]
          split
          next hc => simp [verifyError_status, hne, hc]
          next hc => simp [hc]
          next r hs hv =>
            simp only [h0, hne, false_iff]
            exact hv
        next hpos =>
          have hzero : t.rdata.signature.length = 0 := by omega
          simp only [hzero, Nat.lt_irrefl, false_and, false_or, true_and]
          split
          next he => simp [he]
          next he => simp [verifyError_status, hne, he]

end status

/-! ### Signing a reply -/

/-- The crypto library works with the key: contexts take data, and signing gives a signature that is
not empty and at most as long as `dst_key_sigsize` says. -/
structure SignEnv.Works (env : SignEnv) (key : DstKey) : Prop where
  create : env.dst.create key = .success
  adddata : ∀ acc chunk, env.dst.adddata key acc chunk = .success
  sign : ∀ acc size, key.sigsize = some size →
    ∃ mac, env.sign key acc size = .ok mac ∧ mac ≠ [] ∧ mac.length ≤ size

structure TsigKey.InRing (k : TsigKey) : Prop where
  hasKey : k.hasKey = true
  algorithm_le : k.algorithm.length ≤ 255
  sigsize : ∃ size, k.key.sigsize = some size ∧ size ≤ 128

/-- No reply to the request carries a signature. -/
def Unsigned (env : SignEnv) (msg : Message) : Prop :=
  ∀ (m o : Outgoing) (rr : TsigRR), m.replying msg = some o → tsigSign env o = .ok rr → rr.rdata.signature = []

/-- The reply cannot be signed: the signature of the request is too long to be digested, or it is empty and
the key asks for less than a byte. -/
def Unsignable (k : TsigKey) (t : TsigRR) : Prop :=
  126 < t.rdata.signature.length ∨ t.rdata.signature.length = 0 ∧ k.key.bits ≠ 0 ∧ k.key.bits < 7

theorem addAll_ok {dst : Dst} {key : DstKey} (h : ∀ acc chunk, dst.adddata key acc chunk = .success) :
    ∀ (chunks : List Bytes) (acc : Bytes), dst.addAll key chunks acc = .ok (acc ++ chunks.flatten)
  | [], acc => by rw [Dst.addAll, flatten_nil, append_nil]
  | c :: cs, acc => by
    rw [Dst.addAll, h]
    rw [addAll_ok h cs, flatten_cons, append_assoc]
/-- When the contexts take data, the answer is the one for the concatenated chunks. -/
theorem check_eq_verify {dst : Dst} {key : DstKey} (hc : dst.create key = .success)
    (ha : ∀ acc chunk, dst.adddata key acc chunk = .success) (chunks : List Bytes) (sig : Bytes) :
    dst.check key chunks sig = dst.verify key chunks.flatten sig := by
  rw [Dst.check, hc]
  simp only [addAll_ok ha, nil_append]

theorem testBit_qr (flags : ℕ) : (flags ||| 0x8000).testBit 15 = true := by
  have hbit : Nat.testBit 0x8000 15 = true := by decide
  rw [Nat.testBit_or, hbit, Bool.or_true]

theorem signFinish_ok {t : TsigRdata} {name : Name} {rr : TsigRR} (h : signFinish t name = .ok rr) : rr.rdata = t := by
  unfold signFinish at h
  split at h
  · cases h
  · cases h
    rfl

variable {m : Outgoing}

theorem tsigSign_plain {env : SignEnv} {rr : TsigRR}
    (h : (m.tsigkey.hasKey && (if m.response then m.querytsigstatus else rcodeNoerror) != tsigerrorBadsig) = false)
    (hrr : tsigSign env m = .ok rr) : rr.rdata.signature = [] := by
  unfold tsigSign at hrr
  simp only [h, Bool.false_eq_true, if_false] at hrr
  by_cases hq : (m.response && m.querytsig.isNone) = true
  · rw [if_pos hq] at hrr
    cases hrr
  · rw [if_neg hq] at hrr
    rw [signFinish_ok hrr]

variable {q : TsigRdata}

theorem tsigSign_mac (env : SignEnv) (hr : m.response = true) (hq : m.querytsig = some q)
    (hkey : m.tsigkey.hasKey = true) (hstatus : m.querytsigstatus ≠ tsigerrorBadsig) :
    ∃ timesigned other, other.length ≤ 6 ∧ tsigSign env m = (do
      let signature ← signMac env m (some q) timesigned m.querytsigstatus other
      signFinish ⟨m.tsigkey.algorithm, timesigned, tsigFudge, signature, m.id, m.querytsigstatus, other⟩
        m.tsigkey.name) := by
  refine ⟨if m.querytsigstatus = tsigerrorBadtime then q.timesigned else (env.now + m.timeadjust) % 2 ^ 32,
    if m.querytsigstatus = tsigerrorBadtime then put48 ((env.now + m.timeadjust) % 2 ^ 32) else [], ?_, ?_⟩
  · split
    · exact Nat.le_refl 6
    · exact Nat.zero_le 6
  · have hbne : (m.querytsigstatus != tsigerrorBadsig) = true := bne_iff_ne.2 hstatus
    unfold tsigSign
    simp only [hr, hq, Option.isNone_some, Bool.and_false, Bool.false_eq_true, if_false, if_true, hkey, hbne,
      Bool.and_true]

theorem signMac_works {env : SignEnv} {size : ℕ} (hworks : env.Works m.tsigkey.key)
    (hsize : m.tsigkey.key.sigsize = some size) (hq : q.signature.length ≤ 126) (timesigned error : ℕ)
    (other : Bytes) : ∃ mac, mac ≠ [] ∧ mac.length ≤ size ∧
      signMac env m (some q) timesigned error other = .ok (mac.take (signLength m.tsigkey.key (some q) mac.length)) := by
  obtain ⟨mac, hmac, hne, hle⟩ := hworks.sign (signChunks m (some q) timesigned error other).flatten size hsize
  refine ⟨mac, hne, hle, ?_⟩
  unfold signMac
  simp only [hworks.create, addAll_ok hworks.adddata, nil_append, hsize, hmac]
  rw [if_neg (by omega)]

theorem unsigned_of_badsig (env : SignEnv) {msg : Message} (h : msg.tsigstatus = tsigerrorBadsig) : Unsigned env msg := by
  intro m o rr ho hrr
  unfold Outgoing.replying at ho
  split at ho
  next => cases ho
  next k hk =>
    cases ho
    refine tsigSign_plain ?_ hrr
    simp only [Outgoing.response, testBit_qr, if_true, h, bne_self_eq_false, Bool.and_false]

theorem unsigned_of_noKey (env : SignEnv) {msg : Message} {k : TsigKey} (hk : msg.tsigkey = some k)
    (h : k.hasKey = false) : Unsigned env msg := by
  intro m o rr ho hrr
  simp only [Outgoing.replying, hk, Option.some.injEq] at ho
  subst ho
  refine tsigSign_plain ?_ hrr
  rw [h]
  rfl

theorem signLength_eq_zero_iff (key : DstKey) {mac : Bytes} (hne : mac ≠ []) :
    signLength key (some q) mac.length = 0 ↔ q.signature.length = 0 ∧ key.bits ≠ 0 ∧ key.bits < 7 := by
  have hpos := length_pos_iff.2 hne
  unfold signLength
  simp only
  split
  · omega
  · omega

theorem unsigned_iff_of_status {env : SignEnv} {msg : Message} {t : TsigRR} {k : TsigKey} (hk : msg.tsigkey = some k)
    (ht : msg.tsig = some t) (hring : k.InRing) (hworks : env.Works k.key) (h : msg.tsigstatus ≠ tsigerrorBadsig) :
    Unsigned env msg ↔ Unsignable k t := by
  obtain ⟨size, hsize, hle⟩ := hring.sigsize
  -- the reply to the request
  have hreply : ∀ m : Outgoing, ∃ o, m.replying msg = some o ∧ o.response = true ∧ o.querytsig = some t.rdata ∧
      o.tsigkey = k ∧ o.querytsigstatus = msg.tsigstatus := by
    intro m
    refine ⟨{ m with
      flags := m.flags ||| 0x8000
      tcpContinuation := msg.tcpContinuation
      querytsig := some t.rdata
      querytsigstatus := msg.tsigstatus
      timeadjust := msg.timeadjust
      tsigkey := k }, ?_, testBit_qr m.flags, rfl, rfl, rfl⟩
    simp only [Outgoing.replying, hk, ht]
  constructor
  · intro hun
    by_contra hcan
    obtain ⟨o, ho, hr, hq, rfl, hstatus⟩ := hreply ⟨0, 0, 0, 0, 0, 0, [], false, none, 0, 0, k⟩
    obtain ⟨timesigned, other, hother, hsign⟩ := tsigSign_mac env hr hq hring.hasKey (by rw [hstatus]; exact h)
    have hshort : t.rdata.signature.length ≤ 126 := by
      by_contra hlong
      exact hcan (.inl (by omega))
    obtain ⟨mac, hne, hmac, hsigned⟩ := signMac_works hworks hsize hshort timesigned o.querytsigstatus other
    rw [hsigned] at hsign
    have hfits : signFinish ⟨o.tsigkey.algorithm, timesigned, tsigFudge,
        mac.take (signLength o.tsigkey.key (some t.rdata) mac.length), o.id, o.querytsigstatus, other⟩ o.tsigkey.name =
        .ok ⟨o.tsigkey.name, 255, 0, ⟨o.tsigkey.algorithm, timesigned, tsigFudge,
          mac.take (signLength o.tsigkey.key (some t.rdata) mac.length), o.id, o.querytsigstatus, other⟩⟩ := by
      have halg := hring.algorithm_le
      refine if_neg ?_
      rw [TsigRdata.wireLength, length_take]
      simp only
      omega
    have hempty := hun _ o _ ho (hsign.trans hfits)
    simp only [take_eq_nil_iff, hne, or_false] at hempty
    exact hcan (.inr ((signLength_eq_zero_iff _ hne).1 hempty))
  · intro hcannot m o rr ho hrr
    obtain ⟨o', ho', hr, hq, hkey, hstatus⟩ := hreply m
    obtain rfl : o' = o := Option.some.inj (ho'.symm.trans ho)
    obtain ⟨timesigned, other, hother, hsign⟩ := tsigSign_mac env hr hq (by rw [hkey]; exact hring.hasKey)
      (by rw [hstatus]; exact h)
    rw [hsign] at hrr
    obtain hlong | hzero := hcannot
    · have hnospace : signMac env o' (some t.rdata) timesigned o'.querytsigstatus other = .error .nospace := by
        unfold signMac
        simp only [hkey, hworks.create, hlong, if_true]
      rw [hnospace] at hrr
      cases hrr
    obtain ⟨mac, hne, hmac, hsigned⟩ := signMac_works (by rw [hkey]; exact hworks) (by rw [hkey]; exact hsize)
      (show t.rdata.signature.length ≤ 126 by omega) timesigned o'.querytsigstatus other
    rw [hsigned] at hrr
    rw [signFinish_ok hrr]
    have hlen := (signLength_eq_zero_iff k.key hne).2 hzero
    simp only [hkey, hlen, take_zero]

/-! ### Requests -/

/-- `dst_context_verify` found the signature of the request right, under a key of the rings. -/
def RequestVerified (env : SigEnv) (req : Request) : Prop :=
  ∃ t k, req.msg.tsig = some t ∧ findInRings env.verifyEnv t = some k ∧
    MacFound env.verifyEnv (req.msg.verifying k) t k

/-- The TSIG of the request is of no use to a client without the secret. -/
def Harmless (env : SigEnv) (req : Request) : Prop :=
  ∀ t k, req.msg.tsig = some t → findInRings env.verifyEnv t = some k →
    Refused env.verifyEnv (req.msg.verifying k) t k ∨ Unsignable k t

theorem checkKeys_tsigkey (dst : Dst) (now : ℕ) (algNumber : DstAlg → ℕ) (fromdns : KeyRdata → Option DstKey)
    (sig : SigRdata) : ∀ (keys : List KeyRdata) (msg : Message),
    (checkKeys dst now algNumber fromdns sig keys msg).1.tsigkey = msg.tsigkey
  | [], _ => rfl
  | rd :: rest, msg => by
    have ih := checkKeys_tsigkey dst now algNumber fromdns sig rest
    rw [checkKeys]
    split
    next => exact ih msg
    next key hkey =>
      split
      next hfits =>
        obtain ⟨v, s, hv, -⟩ := verifymessage_spec dst now sig msg key
        have hm : (verifymessage dst now msg sig key).1.tsigkey = msg.tsigkey := by
          rw [hv]
          rfl
        split
        next m heq =>
          rw [heq] at hm
          exact hm
        next m r hr heq =>
          rw [heq] at hm
          exact (ih m).trans hm
      next => exact ih msg

theorem rechecksig_tsigkey (env : SigEnv) (algNumber : DstAlg → ℕ) {msg : Message} (ht : msg.tsig = none) :
    (msg.rechecksig env algNumber).1.tsigkey = none := by
  have hrt : msg.resetsig.tsig = none := ht
  have hrk : msg.resetsig.tsigkey = none := rfl
  unfold Message.rechecksig Message.checksig
  simp only [hrt, hrk, Option.isNone_none, Option.isSome_none, Bool.true_and, Bool.or_self, Bool.false_eq_true, if_false]
  split
  · rfl
  split
  · rfl
  split
  · rfl
  split
  · rfl
  split
  · rfl
  split
  · rfl
  · exact (checkKeys_tsigkey _ _ _ _ _ _ _).trans hrk

theorem unsigned_of_unknown (env : SigEnv) (senv : SignEnv) (algNumber : DstAlg → ℕ) (req : Request)
    (h : ∀ t, req.msg.tsig = some t → findInRings env.verifyEnv t = none) :
    Unsigned senv (req.msg.rechecksig env algNumber).1 := by
  cases ht : req.msg.tsig with
  | none =>
    intro m o rr ho _
    rw [Outgoing.replying, rechecksig_tsigkey env algNumber ht] at ho
    cases ho
  | some t =>
    have hk := h t ht
    unfold Message.rechecksig
    rw [checksig_tsig env algNumber req.msg.resetsig ht]
    unfold tsigVerify tsigVerifyTried
    simp only [Message.resetsig, req.not_continuation, req.not_response, ht, hk, Bool.false_eq_true, if_false]
    split
    · intro m o rr ho hrr
      cases ho
    · exact unsigned_of_noKey senv rfl rfl

theorem unsigned_iff_harmless (env : SigEnv) (senv : SignEnv) (algNumber : DstAlg → ℕ) (req : Request)
    (hring : ∀ t k, findInRings env.verifyEnv t = some k → k.InRing ∧ senv.Works k.key) :
    Unsigned senv (req.msg.rechecksig env algNumber).1 ↔ Harmless env req := by
  cases ht : req.msg.tsig with
  | none =>
    refine ⟨fun _ t k h => ?_, fun _ => unsigned_of_unknown env senv algNumber req (fun t h => ?_)⟩
    · rw [ht] at h
      cases h
    · rw [ht] at h
      cases h
  | some t =>
    cases hk : findInRings env.verifyEnv t with
    | none =>
      refine ⟨fun _ t' k h hk' => ?_, fun _ => unsigned_of_unknown env senv algNumber req (fun t' h => ?_)⟩
      · obtain rfl : t = t' := Option.some.inj (ht.symm.trans h)
        rw [hk] at hk'
        cases hk'
      · obtain rfl : t = t' := Option.some.inj (ht.symm.trans h)
        exact hk
    | some k =>
      obtain ⟨hk1, hk2⟩ := hring t k hk
      obtain ⟨htsig, -, hkey, -⟩ := verifyWithKey_frame env.verifyEnv (req.msg.verifying k) t k
      have hstatus := status_badsig_iff env.verifyEnv (req.msg.verifying k) t k rfl
      rw [rechecksig_known env algNumber req ht hk]
      constructor
      · intro hun t' k' h hk'
        obtain rfl : t = t' := Option.some.inj (ht.symm.trans h)
        obtain rfl : k = k' := Option.some.inj (hk.symm.trans hk')
        by_cases hb : (verifyWithKey env.verifyEnv (req.msg.verifying k) t k).1.tsigstatus = tsigerrorBadsig
        · exact .inl (hstatus.1 hb)
        · exact .inr ((unsigned_iff_of_status (hkey.trans rfl) (htsig.trans ht) hk1 hk2 hb).1 hun)
      · intro hharmless
        by_cases hb : (verifyWithKey env.verifyEnv (req.msg.verifying k) t k).1.tsigstatus = tsigerrorBadsig
        · exact unsigned_of_badsig senv hb
        obtain hr | hu := hharmless t k ht hk
        · exact absurd (hstatus.2 hr) hb
        · exact (unsigned_iff_of_status (hkey.trans rfl) (htsig.trans ht) hk1 hk2 hb).2 hu

/-- A client without the secret gets no signature, exactly for the requests that are signed with the secret and the
harmless ones. -/
theorem no_oracle_iff (env : SigEnv) (senv : SignEnv) (algNumber : DstAlg → ℕ) (req : Request)
    (hring : ∀ t k, findInRings env.verifyEnv t = some k → k.InRing ∧ senv.Works k.key) :
    (¬RequestVerified env req → Unsigned senv (req.msg.rechecksig env algNumber).1) ↔
      RequestVerified env req ∨ Harmless env req := by
  rw [unsigned_iff_harmless env senv algNumber req hring]
  exact or_iff_not_imp_left.symm

/-! ### A signature over a request without one

The key `k.` is known; the request says that it was signed at time 0, with 32 bytes that are no signature.  The
library rejects every signature, and signs with 32 ones. -/

def stampEnv : SignEnv where
  dst := rejectAll
  sign := fun _ _ _ => .ok (replicate 32 1)
  now := 1500000000

def lateRequest : Request where
  msg := { forgedRequest.msg with
    tsig := some ⟨keyName, 255, 0, ⟨hmacSha256Name, 0, 300, replicate 32 0, 1, 0, []⟩⟩ }
  not_response := rfl
  not_continuation := rfl
  one_signature := Or.inr rfl

theorem tsigkeyFind_mem {now : ℕ} {name algorithm : Name} {ring : List TsigKey} {k : TsigKey}
    (h : tsigkeyFind now name algorithm ring = some k) : k ∈ ring := by
  unfold tsigkeyFind at h
  simp only at h
  split at h
  next => cases h
  next k' hk' =>
    have hmem := mem_of_mem_filter (mem_of_find?_eq_some hk')
    split at h
    next => cases h
    next =>
      split at h
      next => cases h
      next =>
        cases h
        exact hmem

theorem forgedEnv_ring (t : TsigRR) (k : TsigKey) (h : findInRings forgedEnv.verifyEnv t = some k) :
    k.InRing ∧ stampEnv.Works k.key := by
  have hfind : tsigkeyFind 1500000000 t.name t.rdata.algorithm [sharedKey] = some k := by
    unfold findInRings at h
    split at h
    next k' hk' =>
      cases h
      exact hk'
    next => cases h
  obtain rfl : k = sharedKey := mem_singleton.1 (tsigkeyFind_mem hfind)
  refine ⟨⟨rfl, by decide, 32, rfl, by decide⟩, rfl, fun _ _ => rfl, fun _ size hs => ?_⟩
  cases hs
  exact ⟨replicate 32 1, rfl, by decide, by decide⟩

theorem late_request_not_verified : ¬RequestVerified forgedEnv lateRequest := by
  rintro ⟨t, k, -, -, -, -, -, hcheck⟩
  have hreject : rejectAll.check k.key (tsigChunks (lateRequest.msg.verifying k) t k) t.rdata.signature =
      .verifyfailure := check_eq_verify rfl (fun _ _ => rfl) _ _
  rw [show forgedEnv.verifyEnv.dst = rejectAll from rfl, hreject] at hcheck
  cases hcheck

/-- The reply to a request that was never verified carries a signature. -/
theorem reply_to_late_request_signed : ¬RequestVerified forgedEnv lateRequest ∧
    ¬Unsigned stampEnv (lateRequest.msg.rechecksig forgedEnv (fun _ => 0)).1 := by
  refine ⟨late_request_not_verified, fun hun => ?_⟩
  have hempty := hun ⟨0, 0, 0, 0, 0, 0, [], false, none, 0, 0, sharedKey⟩ _ _ rfl rfl
  revert hempty
  decide +kernel

theorem no_oracle_iff_late : (¬RequestVerified forgedEnv lateRequest →
    Unsigned stampEnv (lateRequest.msg.rechecksig forgedEnv (fun _ => 0)).1) ↔
      RequestVerified forgedEnv lateRequest ∨ Harmless forgedEnv lateRequest :=
  no_oracle_iff forgedEnv stampEnv (fun _ => 0) lateRequest forgedEnv_ring

end Bind9
