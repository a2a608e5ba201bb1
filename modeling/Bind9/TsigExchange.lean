import Bind9.TsigOracle

/-! # Signer and verifier digest the same bytes

An HMAC is an arbitrary function of the key and the digested bytes, and a signature is right if it is the
start of its value.  The signer digests what it has rendered; the verifier digests what it has received, with the
ID and the number of additional records put back.  Both are the same bytes, for a query, for the first response to
it and for the continuations of a long response, so every message of an exchange is accepted; and the digested bytes
determine the message up to its ID and the times of its TSIG. -/

namespace Bind9

open List

/-! ### The library -/

variable (mac : DstKey → Bytes → Bytes)

/-- Contexts that take every data and accept the starts of the HMAC. -/
def hmacDst : Dst where
  create := fun _ => .success
  adddata := fun _ _ _ => .success
  verify := fun key acc sig => if sig.isPrefixOf (mac key acc) then .success else .verifyfailure

def hmacSigner (now : ℕ) : SignEnv where
  dst := hmacDst mac
  sign := fun key acc _ => .ok (mac key acc)
  now := now

/-- The length of the signatures of a key with a digest of `size` bytes. -/
def fullLength (key : DstKey) (size : ℕ) : ℕ := if key.bits ≠ 0 then (key.bits + 1) / 8 else size

/-- An HMAC key whose digest bits satisfy the minimum of the verifier. -/
structure HmacKey (k : TsigKey) (size : ℕ) : Prop where
  hasKey : k.hasKey = true
  isHmac : k.key.alg.isHmac = true
  sigsize : k.key.sigsize = some size
  mac_length : ∀ acc, (mac k.key acc).length = size
  minimum : 10 ≤ fullLength k.key size ∧ (size + 1) / 2 ≤ fullLength k.key size ∧ fullLength k.key size ≤ size
  algorithm_le : k.algorithm.length ≤ 255

section key
variable {mac : DstKey → Bytes → Bytes} {k : TsigKey} {size : ℕ}

theorem HmacKey.checkLength (h : HmacKey mac k size) : Bind9.checkLength k.key (fullLength k.key size) = .ok := by
  obtain ⟨hten, hhalf, hfull⟩ := h.minimum
  unfold Bind9.checkLength
  rw [h.sigsize, h.isHmac]
  simp only [Bool.not_true, Bool.false_eq_true, if_false]
  rw [if_neg (by omega), if_neg (by omega)]
  unfold fullLength at *
  split at hten
  next hb =>
    simp only [if_pos hb] at *
    rw [if_neg (by omega), if_neg (by omega)]
  next hb =>
    simp only [if_neg hb] at *
    rw [if_neg (by omega), if_neg (by omega)]

theorem HmacKey.signLength (h : HmacKey mac k size) {q : Option TsigRdata}
    (hq : ∀ r ∈ q, r.signature.length = fullLength k.key size) (acc : Bytes) :
    Bind9.signLength k.key q (mac k.key acc).length = fullLength k.key size := by
  obtain ⟨-, -, hfull⟩ := h.minimum
  have hlen := h.mac_length acc
  unfold Bind9.signLength
  cases q with
  | none =>
    unfold fullLength at *
    split
    next hb =>
      rw [if_pos hb] at *
      simp only [hlen]
      omega
    next hb => rw [hlen]
  | some r =>
    have hr := hq r rfl
    unfold fullLength at *
    split
    next hb =>
      rw [if_pos hb] at *
      simp only [hlen, hr]
      omega
    next hb => rw [hlen]

end key

/-! ### What is digested -/

/-- A signed message as it is received: with the TSIG record behind it and counted in the header, and with any ID. -/
def Outgoing.arrives (m : Outgoing) (id : ℕ) (record : Bytes) : Bytes :=
  { m with id := id, arcount := m.arcount + 1 }.header ++ (m.body ++ record)

variable {m : Outgoing}

/-- The TSIG record that goes with a digest. -/
def signedRecord (mac : DstKey → Bytes → Bytes) (k : TsigKey) (size : ℕ) (m : Outgoing)
    (timesigned error : ℕ) (other digest : Bytes) : TsigRR :=
  ⟨k.name, 255, 0, ⟨k.algorithm, timesigned, tsigFudge, (mac k.key digest).take (fullLength k.key size), m.id, error,
    other⟩⟩

/-- The message `m` with the TSIG record `rr`, parsed: the reader has the key, or looks it up, and has the TSIG that the
signer answered. -/
def Outgoing.parsed (m : Outgoing) (id : ℕ) (record : Bytes) (rr : TsigRR) (key : Option TsigKey)
    (timeadjust : ℕ) : Message where
  response := m.response
  saved := m.arrives id record
  sigstart := 12 + m.body.length
  tsig := some rr
  sig0 := none
  querytsig := m.querytsig
  query := none
  tcpContinuation := m.tcpContinuation
  verifiedSig := false
  verifyAttempted := false
  tsigstatus := rcodeNoerror
  sig0status := rcodeNoerror
  timeadjust := timeadjust
  tsigkey := key
  tsigctx := none

def Outgoing.answered (m : Outgoing) : Option TsigRdata := if m.response then m.querytsig else none

/-- The length and the bytes of the signature of the query. -/
def querySignature (q : Option TsigRdata) : Bytes :=
  match q with
  | some q => put16 q.signature.length ++ q.signature
  | none => []

theorem querySignature_chunks (q : TsigRdata) :
    (put16 q.signature.length :: if 0 < q.signature.length then [q.signature] else []).flatten = querySignature (some q) := by
  split
  · simp [querySignature]
  next h =>
    have hnil : q.signature = [] := length_eq_zero_iff.1 (by omega)
    simp [querySignature, hnil]

def Message.answered (msg : Message) : Option TsigRdata := if msg.response then msg.querytsig else none

namespace Outgoing

def signError (m : Outgoing) : ℕ := if m.response then m.querytsigstatus else rcodeNoerror

def signNow (m : Outgoing) (now : ℕ) : ℕ := (now + m.timeadjust) % 2 ^ 32

def signTime (m : Outgoing) (now : ℕ) : ℕ :=
  if m.signError = tsigerrorBadtime then (match m.answered with | some q => q.timesigned | none => m.signNow now)
  else m.signNow now

/-- The other data of the TSIG. -/
def signOther (m : Outgoing) (now : ℕ) : Bytes :=
  if m.signError = tsigerrorBadtime then put48 (m.signNow now) else []

def signDigest (m : Outgoing) (now : ℕ) : Bytes :=
  (signChunks m m.answered (m.signTime now) m.signError (m.signOther now)).flatten

/-- The TSIG record of the message. -/
def signed (m : Outgoing) (mac : DstKey → Bytes → Bytes) (size now : ℕ) : TsigRR :=
  signedRecord mac m.tsigkey size m (m.signTime now) m.signError (m.signOther now) (m.signDigest now)

end Outgoing

variable {msg : Message} {t : TsigRR}

section key
variable {mac : DstKey → Bytes → Bytes} {size : ℕ}

/-- The clock of the verifier is within `fudge` of the time of the signature. -/
def ClockNear (env : VerifyEnv) (msg : Message) (t : TsigRdata) : Prop :=
  t.fudge ≤ t.timesigned ∧ t.timesigned < 2 ^ 48 ∧ t.timesigned ≤ adjustedNow env msg + t.fudge ∧
    adjustedNow env msg ≤ t.timesigned + t.fudge

variable {env : VerifyEnv}

theorem ClockNear.expired {t : TsigRdata} (h : ClockNear env msg t) : sigExpired env msg t = false := by
  obtain ⟨-, -, -, h4⟩ := h
  exact decide_eq_false (by omega)

theorem ClockNear.future {t : TsigRdata} (h : ClockNear env msg t) : sigInFuture env msg t = false := by
  obtain ⟨h1, h2, h3, -⟩ := h
  exact decide_eq_false (by omega)

variable {q : TsigRdata}

def verifyDigest (msg : Message) (t : TsigRR) (k : TsigKey) : Bytes :=
  if msg.tcpContinuation then querySignature msg.querytsig ++ (tcpChunks msg).flatten else (tsigChunks msg t k).flatten

/-- A reader: its clock and rings, the ID and the bytes of the TSIG record that arrive, and its time adjustment. -/
structure Reader where
  env : VerifyEnv
  id : ℕ
  record : Bytes
  adjust : ℕ

/-- The reader holds the library, and its clock is within `fudge` of `time`. -/
structure Reader.Near (mac : DstKey → Bytes → Bytes) (r : Reader) (time : ℕ) : Prop where
  dst : r.env.dst = hmacDst mac
  least : tsigFudge ≤ time
  most : time < 2 ^ 48
  future : time ≤ (r.env.now + r.adjust) % 2 ^ 32 + tsigFudge
  expired : (r.env.now + r.adjust) % 2 ^ 32 ≤ time + tsigFudge

def Reader.reads (r : Reader) (m : Outgoing) (rr : TsigRR) (key : Option TsigKey) : Message :=
  m.parsed r.id r.record rr key r.adjust

variable {r : Reader}

/-- A response of the server: the rendered message, the time of the server and the reader. -/
structure Leg where
  out : Outgoing
  now : ℕ
  reader : Reader

/-- The response to `q` that the server signs. -/
def Leg.outgoing (l : Leg) (k : TsigKey) (q : TsigRdata) (continuation : Bool) : Outgoing :=
  { l.out with
    tcpContinuation := continuation
    querytsig := some q
    querytsigstatus := rcodeNoerror
    tsigkey := k }

/-- What the server promises of a response, and the client of its clock. -/
structure Leg.Ok (mac : DstKey → Bytes → Bytes) (l : Leg) : Prop where
  response : l.out.response = true
  count : l.out.arcount < 65535
  near : l.reader.Near mac (l.out.signNow l.now)

/-- Every response is signed over the bytes that its verification digests, and accepted. -/
def Agrees (mac : DstKey → Bytes → Bytes) (k : TsigKey) (size : ℕ) : Bool → TsigRdata → List Leg → Prop
  | _, _, [] => True
  | continuation, q, l :: ls =>
    let m := l.outgoing k q continuation
    let rr := m.signed mac size l.now
    tsigSign (hmacSigner mac l.now) m = .ok rr ∧
      verifyDigest (l.reader.reads m rr (some k)) rr k = m.signDigest l.now ∧
      (tsigVerify l.reader.env (l.reader.reads m rr (some k))).2 = .success ∧
      Agrees mac k size true rr.rdata ls

end key

/-! ### The digested bytes determine the message -/

/-- A message with a TSIG record behind its header. -/
structure Message.WithTsig (msg : Message) (t : TsigRR) : Prop where
  tsig : msg.tsig = some t
  header : 12 ≤ msg.sigstart
  inside : msg.sigstart ≤ msg.saved.length
  time : t.rdata.timesigned < 2 ^ 48
  fudge : t.rdata.fudge < 65536

/-- The bytes before the TSIG record, without the ID. -/
def Message.signedBytes (msg : Message) : Bytes := (msg.saved.take msg.sigstart).drop 2

/-- The header apart from the ID, its last two bytes and the rest. -/
theorem Message.WithTsig.split (h : msg.WithTsig t) : ∃ (a : Bytes) (b0 b1 : UInt8),
    a.length = 8 ∧ msg.signedBytes = a ++ (b0 :: b1 :: (msg.saved.take msg.sigstart).drop 12) ∧
      ∀ id, tsigHeader msg.saved id = put16 id ++ (a ++ put16 ((b0.toNat * 256 + b1.toNat + 65535) % 65536)) := by
  have hlen : 12 ≤ msg.saved.length := le_trans h.header h.inside
  have h10 : (msg.saved.take 10).length = 10 := by
    rw [length_take]
    omega
  have hdrop : msg.saved.drop 10 = msg.saved[10] :: msg.saved[11] :: msg.saved.drop 12 := by
    rw [drop_eq_getElem_cons (by omega), drop_eq_getElem_cons (by omega)]
  have hsaved : msg.saved = msg.saved.take 10 ++ (msg.saved[10] :: msg.saved[11] :: msg.saved.drop 12) := by
    rw [← hdrop, take_append_drop]
  obtain ⟨n, hn⟩ := Nat.exists_eq_add_of_le' h.header
  have htake : msg.saved.take msg.sigstart =
      msg.saved.take 10 ++ (msg.saved[10] :: msg.saved[11] :: (msg.saved.take msg.sigstart).drop 12) := by
    rw [drop_take, ← take_append_drop 10 (msg.saved.take msg.sigstart), take_take, drop_take, hdrop,
      show min 10 msg.sigstart = 10 by omega, show msg.sigstart - 10 = msg.sigstart - 12 + 2 by omega]
    rfl
  refine ⟨(msg.saved.take 10).drop 2, msg.saved[10], msg.saved[11], ?_, ?_, fun id => ?_⟩
  · rw [length_drop, h10]
  · rw [Message.signedBytes]
    nth_rewrite 1 [htake]
    rw [drop_append_of_le_length (by omega)]
  · have e0 : msg.saved.getD 10 0 = msg.saved[10] := by
      rw [getD_eq_getElem?_getD, getElem?_eq_getElem (by omega)]
      rfl
    have e1 : msg.saved.getD 11 0 = msg.saved[11] := by
      rw [getD_eq_getElem?_getD, getElem?_eq_getElem (by omega)]
      rfl
    rw [tsigHeader]
    simp only [append_assoc, e0, e1]

/-- An HMAC that depends on the sum of the bytes only. -/
def sumMac (_ : DstKey) (acc : Bytes) : Bytes := replicate 32 (acc.foldl UInt8.add (UInt8.ofNat 0))

end Bind9
