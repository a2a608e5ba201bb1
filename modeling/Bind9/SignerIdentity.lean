import Bind9.MessageSig

/-! # Which requests get a signer

`client_request` takes the name that `dns_message_signer` returns with `ISC_R_SUCCESS` as the
identity of the requestor.  `dns_message_signer` does not look at the result of the signature
check: it looks at `tsigstatus`, which `dns_message_resetsig` clears, and at the error field of
the TSIG record.  So the identity can be trusted exactly when every failing path of
`dns_tsig_verify` has recorded a status.

`signer_verified_iff` says which requests these are: all but those that reach a return of
`dns_tsig_verify` that sets `msg->tsigkey` and records nothing (`Unrecorded`).  SIG(0) is not
among them: there the identity needs `verified_sig` (`signer_sig0`). -/

namespace Bind9

open Option
open Bool hiding true_and

/-! ### The outcomes of `dns_tsig_verify` with a known key -/

section withKey
variable (env : VerifyEnv) (msg : Message) (t : TsigRR) (k : TsigKey)

/-- The signature was made within `fudge` seconds of now. -/
def Timely : Prop := sigExpired env msg t.rdata = false ∧ sigInFuture env msg t.rdata = false

/-- A length that no signature of the key can have: `dns_tsig_verify` answers `DNS_R_FORMERR`
(or the error of `dst_key_sigsize`). -/
def ImpossibleLength (key : DstKey) (siglen : ℕ) : Prop :=
  match key.sigsize with
  | none => True
  | some size => key.alg.isHmac = true ∧
      (size < siglen ∨ 0 < siglen ∧ (siglen < 10 ∨ siglen < (size + 1) / 2))

/-- The crypto library fails with something else than "this signature is wrong". -/
def LibraryError (r : Result) : Prop := r ≠ .success ∧ r ≠ .verifyfailure

/-- The failures after which no status is recorded. -/
def SilentFailure : Prop :=
  Timely env msg t ∧
    (ImpossibleLength k.key t.rdata.signature.length ∨
      checkLength k.key t.rdata.signature.length = .ok ∧ 0 < t.rdata.signature.length ∧
        LibraryError (env.dst.check k.key (tsigChunks msg t k) t.rdata.signature))

theorem checkLength_bad_iff (key : DstKey) (siglen : ℕ) :
    (∃ r, checkLength key siglen = .bad r) ↔ ImpossibleLength key siglen := by
  unfold checkLength ImpossibleLength
  obtain _ | size := key.sigsize
  · simp
  cases key.alg.isHmac with
  | false => simp
  | true =>
    simp only [Bool.not_true, false_eq_true, if_false, true_and]
    split
    · simp [*]
    split
    · simp [*]
    have h : ¬ (size < siglen ∨ 0 < siglen ∧ (siglen < 10 ∨ siglen < (size + 1) / 2)) := by
      omega
    simp only [h, iff_false, not_exists]
    intro r
    split
    · simp
    · split <;> simp

theorem checkLength_bad_ne_success {key : DstKey} {siglen : ℕ} {r : Result}
    (h : checkLength key siglen = .bad r) : r ≠ .success := by
  unfold checkLength at h
  rintro rfl
  split at h
  · cases h
  split at h
  · cases h
  split at h
  · cases h
  split at h
  · cases h
  split at h
  · cases h
  · split at h <;> cases h

theorem verifyWithKey_frame : (verifyWithKey env msg t k).1.tsig = msg.tsig ∧ (verifyWithKey env msg t k).1.sig0 = msg.sig0 ∧
      (verifyWithKey env msg t k).1.tsigkey = msg.tsigkey ∧
      (verifyWithKey env msg t k).1.verifyAttempted = msg.verifyAttempted := by
  unfold verifyWithKey verifyError
  refine ⟨?_, ?_, ?_, ?_⟩
  all_goals
    dsimp only
    repeat' split
    all_goals rfl

theorem check_of_verifyWithKey (he : t.rdata.error = rcodeNoerror) (h : (verifyWithKey env msg t k).2 = .success) :
    env.dst.check k.key (tsigChunks msg t k) t.rdata.signature = .success := by
  unfold verifyWithKey at h
  dsimp only at h
  split at h
  · cases h
  split at h
  · cases h
  split at h
  next r hr => exact absurd h (checkLength_bad_ne_success hr)
  next => cases h
  next =>
    split at h
    · split at h
      next hc => exact hc
      next => cases h
      next r hr _ => exact absurd h hr
    split at h
    · cases h
    next hne =>
      -- an empty signature needs an error field that says so
      rw [he] at hne
      exact absurd ⟨by decide, by decide⟩ hne

theorem verifyWithKey_noerror_iff (hs : msg.tsigstatus = rcodeNoerror) (he : t.rdata.error = rcodeNoerror) :
    (verifyWithKey env msg t k).1.tsigstatus = rcodeNoerror ↔
      (verifyWithKey env msg t k).2 = .success ∨ SilentFailure env msg t k := by
  have hbad := checkLength_bad_iff k.key t.rdata.signature.length
  unfold SilentFailure Timely
  rw [← hbad]
  unfold verifyWithKey
  dsimp only
  cases hx : sigExpired env msg t.rdata with
  | true => simp [tsigerrorBadtime, rcodeNoerror]
  | false =>
    cases hf : sigInFuture env msg t.rdata with
    | true => simp [tsigerrorBadtime, rcodeNoerror]
    | false =>
      cases hl : checkLength k.key t.rdata.signature.length with
      | bad r => simp [hs]
      | badtrunc => simp [tsigerrorBadtrunc, rcodeNoerror]
      | ok =>
        by_cases hlen : 0 < t.rdata.signature.length
        · cases hc : env.dst.check k.key (tsigChunks msg t k) t.rdata.signature
          all_goals
            simp [hlen, hs, LibraryError, verifyError, he, tsigerrorBadsig, rcodeNoerror]
        · simp [hlen, he, tsigerrorBadsig, tsigerrorBadkey, rcodeNoerror]

theorem silentFailure_not_success (h : SilentFailure env msg t k) : (verifyWithKey env msg t k).2 ≠ .success := by
  obtain ⟨⟨hx, hf⟩, hlen | ⟨hl, hpos, hne, hne'⟩⟩ := h
  · obtain ⟨r, hr⟩ := (checkLength_bad_iff _ _).2 hlen
    unfold verifyWithKey
    simp only [hx, hf, hr, false_eq_true, if_false]
    exact checkLength_bad_ne_success hr
  unfold verifyWithKey
  simp only [hx, hf, hl, hpos, false_eq_true, if_false, if_true]
  exact hne

end withKey

/-! ### SIG(0) -/

section sig0
variable (dst : Dst) (now : ℕ) (algNumber : DstAlg → ℕ) (fromdns : KeyRdata → Option DstKey)
  (sig : SigRdata)

def Message.afterSig0 (msg : Message) (verified : Bool) (status : ℕ) : Message :=
  { msg with verifyAttempted := true, verifiedSig := verified, sig0status := status }

/-- `dst_context_verify` accepted the SIG(0) under a key of its signer. -/
def Sig0Accepted (msg : Message) : Prop :=
  ∃ key : DstKey, key.name.equal sig.signer = true ∧
    dst.check key (sig0Chunks msg sig) sig.signature = .success

theorem verifymessage_spec (msg : Message) (key : DstKey) : ∃ v s, (verifymessage dst now msg sig key).1 = msg.afterSig0 v s ∧
      (v = true → msg.verifiedSig = true ∨ (verifymessage dst now msg sig key).2 = .success ∧ Sig0Accepted dst sig msg) := by
  unfold verifymessage
  dsimp only
  split
  · exact ⟨_, _, rfl, Or.inl⟩
  split
  · exact ⟨_, _, rfl, Or.inl⟩
  split
  · exact ⟨_, _, rfl, Or.inl⟩
  split
  · exact ⟨_, _, rfl, Or.inl⟩
  split
  · exact ⟨_, _, rfl, Or.inl⟩
  split
  · exact ⟨_, _, rfl, Or.inl⟩
  next hname =>
    cases hc : dst.create key
    case success =>
      dsimp only
      cases ha : dst.addAll key (sig0Chunks { msg with verifyAttempted := true } sig) [] with
      | error r => exact ⟨_, _, rfl, Or.inl⟩
      | ok acc =>
        dsimp only
        cases hv : dst.verify key acc sig.signature
        case success =>
          refine ⟨true, _, rfl, fun _ => Or.inr ⟨rfl, key, by simpa using hname, ?_⟩⟩
          change dst.addAll key (sig0Chunks msg sig) [] = .ok acc at ha
          simp only [Dst.check, hc, ha, hv]
        all_goals exact ⟨_, _, rfl, Or.inl⟩
    all_goals exact ⟨_, _, rfl, Or.inl⟩

theorem checkKeys_verified (keys : List KeyRdata) (msg : Message) (hmsg : msg.verifiedSig = false) :
    (checkKeys dst now algNumber fromdns sig keys msg).1.sig0 = msg.sig0 ∧
      (checkKeys dst now algNumber fromdns sig keys msg).1.tsig = msg.tsig ∧
      ((checkKeys dst now algNumber fromdns sig keys msg).1.verifiedSig = true →
        (checkKeys dst now algNumber fromdns sig keys msg).2 = .success ∧ Sig0Accepted dst sig msg) := by
  induction keys generalizing msg with
  | nil => exact ⟨rfl, rfl, fun h => by simp [checkKeys, hmsg] at h⟩
  | cons rd rest ih =>
    rw [checkKeys]
    split
    · exact ih msg hmsg
    next key _ =>
      split
      · obtain ⟨v, s, hv, hacc⟩ := verifymessage_spec dst now sig msg key
        rw [hmsg] at hacc
        split
        next m heq =>
          rw [heq] at hv hacc
          subst hv
          refine ⟨rfl, rfl, fun h => ?_⟩
          obtain h' | h' := hacc h
          · cases h'
          · exact h'
        next m r hr heq =>
          rw [heq] at hv hacc
          subst hv
          have hfalse : v = false := by
            cases v with
            | false => rfl
            | true =>
              obtain h' | h' := hacc rfl
              · cases h'
              · exact absurd h'.1 hr
          exact ih _ hfalse
      · exact ih msg hmsg

end sig0

/-! ### Requests -/

/-- A parsed request: `dns_message_parse` accepts a TSIG and a SIG(0) only as the last record of
the additional section, so never both, and `client_request` drops responses. -/
structure Request where
  msg : Message
  not_response : msg.response = false
  not_continuation : msg.tcpContinuation = false
  one_signature : msg.tsig = none ∨ msg.sig0 = none

/-- The key rings of the view and the clock, for `dns_tsig_verify`. -/
def SigEnv.verifyEnv (env : SigEnv) : VerifyEnv :=
  match env.view with
  | some view => ⟨env.dst, view.statickeys, view.dynamickeys, env.now, env.create⟩
  | none => ⟨env.dst, none, none, env.now, env.create⟩

def Message.rechecksig (env : SigEnv) (algNumber : DstAlg → ℕ) (msg : Message) :
    Message × Result :=
  msg.resetsig.checksig env algNumber

/-- `dst_context_verify` accepted the signature of the message under a key with this identity. -/
inductive Accepted (env : SigEnv) (msg : Message) (signer : Name) : Prop
  | tsig (t : TsigRR) (k : TsigKey) (present : msg.tsig = some t)
      (known : findInRings env.verifyEnv t = some k) (identity : k.identity = some signer)
      (verified : env.dst.check k.key (tsigChunks msg t k) t.rdata.signature = .success)
  | sig0 (sig : SigRdata) (present : msg.sig0 = some sig) (identity : sig.signer = signer)
      (verified : Sig0Accepted env.dst sig msg)

/-- A signer identity implies a verified signature. -/
def SignerVerified (env : SigEnv) (algNumber : DstAlg → ℕ) (req : Request) : Prop :=
  ∀ mem name, (req.msg.rechecksig env algNumber).1.signer mem = some (.success, some name) →
    (req.msg.rechecksig env algNumber).2 = .success ∧ Accepted env req.msg name

/-- The TSIG of the request names a known key with an identity, has no error and is timely, and
then fails without a trace. -/
def Unrecorded (env : SigEnv) (msg : Message) : Prop :=
  ∃ t k, msg.tsig = some t ∧ findInRings env.verifyEnv t = some k ∧ k.identity ≠ none ∧
    t.rdata.error = rcodeNoerror ∧ SilentFailure env.verifyEnv msg.resetsig t k

theorem verifyEnv_dst (env : SigEnv) : env.verifyEnv.dst = env.dst := by
  unfold SigEnv.verifyEnv
  cases env.view <;> rfl

theorem checksig_tsig (env : SigEnv) (algNumber : DstAlg → ℕ) (msg : Message) {t : TsigRR}
    (ht : msg.tsig = some t) : msg.checksig env algNumber = tsigVerify env.verifyEnv msg := by
  unfold Message.checksig SigEnv.verifyEnv
  simp only [ht, isSome_some, Bool.or_true, if_true, isNone_some, Bool.and_false,
    Bool.false_and, false_eq_true, if_false]
  cases env.view <;> rfl

/-- The message while a request signed with the known key `k` is verified. -/
def Message.verifying (msg : Message) (k : TsigKey) : Message :=
  { msg.resetsig with verifyAttempted := true, tsigkey := some k }

theorem rechecksig_known (env : SigEnv) (algNumber : DstAlg → ℕ) (req : Request) {t : TsigRR}
    {k : TsigKey} (ht : req.msg.tsig = some t) (hk : findInRings env.verifyEnv t = some k) :
    req.msg.rechecksig env algNumber = verifyWithKey env.verifyEnv (req.msg.verifying k) t k := by
  unfold Message.rechecksig
  rw [checksig_tsig env algNumber req.msg.resetsig ht]
  unfold tsigVerify tsigVerifyTried
  simp only [Message.resetsig, req.not_continuation, req.not_response, ht, hk, false_eq_true,
    if_false]
  unfold Message.verifying Message.resetsig
  simp only [ht, req.not_continuation, req.not_response]

theorem signer_unknown (env : SigEnv) (algNumber : DstAlg → ℕ) (req : Request) {t : TsigRR}
    (ht : req.msg.tsig = some t) (hk : findInRings env.verifyEnv t = none) (mem : Bool) (name : Name) :
    (req.msg.rechecksig env algNumber).1.signer mem ≠ some (.success, some name) := by
  have h0 : req.msg.sig0 = none := by
    obtain h | h := req.one_signature
    · rw [ht] at h; cases h
    · exact h
  unfold Message.rechecksig
  rw [checksig_tsig env algNumber req.msg.resetsig ht]
  unfold tsigVerify tsigVerifyTried
  simp only [Message.resetsig, req.not_continuation, req.not_response, ht, hk, false_eq_true,
    if_false]
  split
  all_goals
    cases mem
    all_goals
      simp [Message.signer, h0, tsigerrorBadkey, rcodeNoerror, TsigKey.identity, unknownKey]

theorem signer_tsig {msg : Message} {t : TsigRR} {k : TsigKey} (ht : msg.tsig = some t)
    (h0 : msg.sig0 = none) (hk : msg.tsigkey = some k) (hv : msg.verifyAttempted = true) (mem : Bool) (name : Name) :
    msg.signer mem = some (.success, some name) ↔ mem = true ∧ msg.tsigstatus = rcodeNoerror ∧ t.rdata.error = rcodeNoerror ∧
        k.identity = some name := by
  unfold Message.signer
  rw [ht, h0, hk, hv]
  cases mem with
  | false => simp
  | true =>
    by_cases hs : msg.tsigstatus = rcodeNoerror
    · by_cases he : t.rdata.error = rcodeNoerror
      · cases hi : k.identity with
        | none => simp [hs, he, hi]
        | some n => simp [hs, he, hi]
      · cases hi : k.identity with
        | none => simp [hs, he, hi]
        | some n => simp [hs, he, hi]
    cases hi : k.identity with
    | none => simp [hs, hi]
    | some n => simp [hs, hi]

theorem signer_sig0 (env : SigEnv) (algNumber : DstAlg → ℕ) (req : Request) {sig : SigRdata}
    (hsig : req.msg.sig0 = some sig) {mem : Bool} {name : Name}
    (h : (req.msg.rechecksig env algNumber).1.signer mem = some (.success, some name)) :
    (req.msg.rechecksig env algNumber).2 = .success ∧ Accepted env req.msg name := by
  have ht : req.msg.tsig = none := by
    obtain h' | h' := req.one_signature
    · exact h'
    · rw [hsig] at h'; cases h'
  have hsigner : ∀ m : Message, m.sig0 = some sig → m.signer mem = some (.success, some name) →
      m.verifiedSig = true ∧ sig.signer = name := by
    intro m hm hs
    unfold Message.signer at hs
    rw [hm] at hs
    cases hv : m.verifiedSig <;> cases mem <;> cases hva : m.verifyAttempted <;> simp_all
  have hnot : ∀ r, req.msg.rechecksig env algNumber ≠ (req.msg.resetsig, r) := by
    intro r hr
    rw [hr] at h
    have := (hsigner req.msg.resetsig hsig h).1
    cases this
  unfold Message.rechecksig Message.checksig at h hnot ⊢
  have hrt : req.msg.resetsig.tsig = none := ht
  have hrk : req.msg.resetsig.tsigkey = none := rfl
  have hrs : req.msg.resetsig.sig0 = some sig := hsig
  simp only [hrt, hrk, hrs, isNone_none, isNone_some, isSome_none,
    Bool.true_and, false_eq_true, if_false, Bool.or_self] at h hnot ⊢
  split at h
  next hl => exact absurd (if_pos hl) (hnot _)
  next hl =>
    simp only [hl, if_false] at hnot ⊢
    cases hview : env.view with
    | none => rw [hview] at hnot; exact absurd rfl (hnot _)
    | some view =>
      rw [hview] at h hnot
      dsimp only at h hnot ⊢
      cases hfind : view.simplefind sig.signer with
      | none => rw [hfind] at hnot; exact absurd rfl (hnot _)
      | some ks =>
        obtain ⟨keys, secure⟩ := ks
        rw [hfind] at h hnot
        dsimp only at h hnot ⊢
        cases secure with
        | false => exact absurd rfl (hnot _)
        | true =>
          simp only [Bool.not_true, false_eq_true, if_false] at h ⊢
          obtain ⟨hs0, -, hver⟩ := checkKeys_verified env.dst env.now algNumber
            (view.fromdns sig.signer) sig keys req.msg.resetsig rfl
          obtain ⟨hvs, hname⟩ := hsigner _ (hs0.trans hsig) h
          obtain ⟨hok, hacc⟩ := hver hvs
          exact ⟨hok, .sig0 sig hsig hname hacc⟩

theorem signer_known (env : SigEnv) (algNumber : DstAlg → ℕ) (req : Request) {t : TsigRR}
    {k : TsigKey} (ht : req.msg.tsig = some t) (hk : findInRings env.verifyEnv t = some k) (mem : Bool) (name : Name) :
    (req.msg.rechecksig env algNumber).1.signer mem = some (.success, some name) ↔
      mem = true ∧ t.rdata.error = rcodeNoerror ∧ k.identity = some name ∧ ((req.msg.rechecksig env algNumber).2 = .success ∨
          SilentFailure env.verifyEnv req.msg.resetsig t k) := by
  have h0 : req.msg.sig0 = none := by
    obtain h | h := req.one_signature
    · rw [ht] at h; cases h
    · exact h
  rw [rechecksig_known env algNumber req ht hk]
  obtain ⟨f1, f2, f3, f4⟩ := verifyWithKey_frame env.verifyEnv (req.msg.verifying k) t k
  rw [signer_tsig (f1.trans ht) (f2.trans h0) (f3.trans rfl) (f4.trans rfl)]
  constructor
  · rintro ⟨hm, hs, he, hi⟩
    exact ⟨hm, he, hi, (verifyWithKey_noerror_iff _ _ _ _ rfl he).1 hs⟩
  · rintro ⟨hm, he, hi, hs⟩
    exact ⟨hm, (verifyWithKey_noerror_iff _ _ _ _ rfl he).2 hs, he, hi⟩

/-- A signer identity implies a verified signature for exactly those requests that reach no
return of `dns_tsig_verify` that records nothing. -/
theorem signer_verified_iff (env : SigEnv) (algNumber : DstAlg → ℕ) (req : Request) :
    SignerVerified env algNumber req ↔ ¬ Unrecorded env req.msg := by
  constructor
  · rintro h ⟨t, k, ht, hk, hid, he, hsilent⟩
    obtain ⟨name, hname⟩ := ne_none_iff_exists'.1 hid
    have hsigner := (signer_known env algNumber req ht hk true name).2
      ⟨rfl, he, hname, Or.inr hsilent⟩
    have hok := (h true name hsigner).1
    rw [rechecksig_known env algNumber req ht hk] at hok
    exact silentFailure_not_success env.verifyEnv (req.msg.verifying k) t k hsilent hok
  · intro h mem name hsigner
    cases ht : req.msg.tsig with
    | some t =>
      cases hk : findInRings env.verifyEnv t with
      | none => exact absurd hsigner (signer_unknown env algNumber req ht hk mem name)
      | some k =>
        obtain ⟨-, he, hi, hok | hsilent⟩ := (signer_known env algNumber req ht hk mem name).1 hsigner
        · refine ⟨hok, .tsig t k ht hk hi ?_⟩
          rw [rechecksig_known env algNumber req ht hk] at hok
          have hc := check_of_verifyWithKey _ _ _ _ he hok
          rw [verifyEnv_dst] at hc
          exact hc
        · exact absurd ⟨t, k, ht, hk, by simp [hi], he, hsilent⟩ h
    | none =>
      cases h0 : req.msg.sig0 with
      | some sig => exact signer_sig0 env algNumber req h0 hsigner
      | none =>
        -- neither record: `dns_message_checksig` returns at once and there is no signer
        have hr : req.msg.rechecksig env algNumber = (req.msg.resetsig, .success) := by
          unfold Message.rechecksig Message.checksig
          simp [Message.resetsig, ht, h0]
        rw [hr] at hsigner
        simp [Message.signer, Message.resetsig, ht, h0] at hsigner

/-! ### A signer without a signature

The key `k.` is known; the request carries 33 bytes that are no signature at all, one more than
an HMAC-SHA256 digest has.  The library rejects every signature. -/

def keyName : Name := ⟨[[0x6b], []]⟩
def hmacSha256Name : Name :=
  ⟨[[0x68, 0x6d, 0x61, 0x63, 0x2d, 0x73, 0x68, 0x61, 0x32, 0x35, 0x36], []]⟩

def sharedKey : TsigKey where
  key := ⟨.hmacsha256, keyName, 256, 0, 0, 0, [1, 2, 3, 4]⟩
  name := keyName
  algorithm := hmacSha256Name
  creator := none
  generated := false
  inception := 0
  expire := 0
  refs := 1

def rejectAll : Dst where
  create := fun _ => .success
  adddata := fun _ _ _ => .success
  verify := fun _ _ _ => .verifyfailure

def forgedEnv : SigEnv where
  dst := rejectAll
  now := 1500000000
  create := .success
  view := some ⟨some [sharedKey], none, fun _ => none, fun _ _ => none⟩

def forgedRequest : Request where
  msg :=
    { response := false
      saved := [0, 1, 0x28, 0, 0, 0, 0, 0, 0, 0, 0, 1]
      sigstart := 12
      tsig := some ⟨keyName, 255, 0, ⟨hmacSha256Name, 1500000000, 300, List.replicate 33 0, 1, 0, []⟩⟩
      sig0 := none
      querytsig := none
      query := none
      tcpContinuation := false
      verifiedSig := false
      verifyAttempted := false
      tsigstatus := 0
      sig0status := 0
      timeadjust := 0
      tsigkey := none
      tsigctx := none }
  not_response := rfl
  not_continuation := rfl
  one_signature := Or.inr rfl

theorem signer_of_forged_request : (forgedRequest.msg.rechecksig forgedEnv (fun _ => 0)).1.signer true =
        some (.success, some keyName) ∧ (forgedRequest.msg.rechecksig forgedEnv (fun _ => 0)).2 = .formerr ∧
      ¬ SignerVerified forgedEnv (fun _ => 0) forgedRequest := by
  have hs : (forgedRequest.msg.rechecksig forgedEnv (fun _ => 0)).1.signer true =
      some (.success, some keyName) := by decide +kernel
  have hr : (forgedRequest.msg.rechecksig forgedEnv (fun _ => 0)).2 = .formerr := by decide +kernel
  refine ⟨hs, hr, fun h => ?_⟩
  have := (h true keyName hs).1
  rw [hr] at this
  cases this

end Bind9
