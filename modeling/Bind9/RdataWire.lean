import Bind9.Region

/-! # Rdata from the wire

`dns_rdata_fromwire` and the `fromwire` functions of the rdata types under `lib/dns/rdata`.  The source
is a message up to the active end, read from `current` on; the target is the buffer the validated rdata
is copied to.  `isc_regex_validate`, which NAPTR calls, is a field of the environment.

The loops end because each name and each character string takes at least one byte of the source. -/

namespace Bind9

variable {env : WireEnv} {st st' : WireState}

namespace Rdata

def DNS_COMPRESS_NONE : UInt32 := 0
def DNS_RDATA_MAXLENGTH : ℕ := 65512

inductive DecompressType where
  | any
  | strict
  | none
deriving DecidableEq, Repr

/-- What a `fromwire` function reads and does not change. -/
structure WireEnv where
  source : Bytes
  dctx : DecompressType
  downcase : Bool
  regexValidate : Bytes → ℤ

/-- The position in the source and the target. -/
structure WireState where
  current : ℕ
  target : Buffer

/-- `dns_decompress_setmethods`: the methods allowed from here on. -/
def DecompressType.setmethods : DecompressType → UInt32 → UInt32
  | any, _ => DNS_COMPRESS_ALL
  | none, _ => DNS_COMPRESS_NONE
  | strict, allowed => allowed

namespace WireEnv

def activeregion (env : WireEnv) (st : WireState) : Bytes := env.source.drop st.current

/-- `dns_decompress_setmethods` followed by `dns_name_fromwire`. -/
def name (env : WireEnv) (allowed : UInt32) (st : WireState) : Exec WireState :=
  match fromwire env.source st.current st.target.available env.downcase (env.dctx.setmethods allowed) with
  | .error r => stop r
  | .ok d => .ok ⟨st.current + d.cused, st.target.put d.ndata⟩

end WireEnv

namespace WireState

/-- `isc_buffer_forward`; every caller has looked at the length before. -/
def forward (st : WireState) (n : ℕ) : WireState := { st with current := st.current + n }

/-- `mem_tobuffer` to the target. -/
def mem (st : WireState) (bs : Bytes) : Exec WireState := do
  let target ← memTobuffer st.target bs
  pure { st with target := target }

end WireState

variable {allowed : UInt32}

theorem WireEnv.name_ok (h : env.name allowed st = .ok st') : ∃ n : AbsName, st'.target = st.target.put n.name.ndata := by
  unfold WireEnv.name at h
  split at h
  · cases h
  next d hd =>
    obtain ⟨n, hn, -⟩ := fromwire_ok hd
    cases h
    exact ⟨n, by rw [hn]⟩

theorem WireEnv.name_advances (hc : st.current ≤ env.source.length) (h : env.name allowed st = .ok st') :
    st.current < st'.current ∧ st'.current ≤ env.source.length := by
  unfold WireEnv.name at h
  split at h
  · cases h
  next d hd =>
    obtain ⟨hpos, hle⟩ := fromwire_cused hc hd
    cases h
    exact ⟨by simpa using hpos, hle⟩

theorem WireEnv.name_of_ndata (n : AbsName)
    (hc : env.downcase = false) (h : n.name.ndata <+: env.activeregion st) (hroom : n.name.length ≤ st.target.available) :
    env.name allowed st = .ok ⟨st.current + n.name.length, st.target.put n.name.ndata⟩ := by
  obtain ⟨labels, offsets, hname⟩ := fromwire_of_ndata (env.dctx.setmethods allowed) n h hroom
  rw [WireEnv.name, hc, hname]

theorem WireState.mem_ok {bs : Bytes} (h : st.mem bs = .ok st') : st'.target = st.target.put bs := by
  obtain ⟨t, ht, h⟩ := bind_eq_ok h
  cases h
  exact memTobuffer_eq_ok ht

@[simp] theorem WireState.forward_target (st : WireState) (n : ℕ) : (st.forward n).target = st.target := rfl

/-! ### Character strings -/

def txtFromwire (env : WireEnv) (st : WireState) : Exec WireState :=
  match env.activeregion st with
  | [] => stop .unexpectedend
  | c :: rest =>
    if rest.length < c.toNat then stop .unexpectedend
    else do
      let st ← st.mem (c :: rest.take c.toNat)
      pure (st.forward (c.toNat + 1))

theorem txtFromwire_ok (h : txtFromwire env st = .ok st') :
    ∃ c : UInt8, ∃ s : Bytes, s.length = c.toNat ∧ st'.target = st.target.put (c :: s) ∧
      st'.current = st.current + (c.toNat + 1) ∧ c :: s <+: env.activeregion st := by
  unfold txtFromwire at h
  split at h
  · cases h
  next c rest hr =>
    split at h
    · cases h
    obtain ⟨st1, hm, h⟩ := bind_eq_ok h
    have ht := WireState.mem_ok hm
    obtain ⟨t, -, hm⟩ := bind_eq_ok hm
    cases hm
    cases h
    refine ⟨c, rest.take c.toNat, ?_, ht, rfl, ?_⟩
    · rw [List.length_take]; omega
    · rw [hr]
      exact ⟨rest.drop c.toNat, by simp⟩

theorem txtFromwire_advances (h : txtFromwire env st = .ok st') : st.current < st'.current := by
  obtain ⟨c, s, -, -, hc, -⟩ := txtFromwire_ok h
  omega

def txtsFromwire (env : WireEnv) (st : WireState) : Exec WireState :=
  match _hs : txtFromwire env st with
  | .error e => .error e
  | .ok st' => if st'.current < env.source.length then txtsFromwire env st' else .ok st'
termination_by env.source.length - st.current
decreasing_by
  have := txtFromwire_advances _hs
  omega

/-- The loop of `multitxt_fromwire`; `n` is the size of the string before. -/
def multitxtLoop (env : WireEnv) (n : ℕ) (st : WireState) : Exec WireState :=
  if n ≠ 256 then stop .syntaxerr
  else
    match _hs : txtFromwire env st with
    | .error e => .error e
    | .ok st' =>
      if st'.current < env.source.length then multitxtLoop env (st'.current - st.current) st' else .ok st'
termination_by env.source.length - st.current
decreasing_by
  have := txtFromwire_advances _hs
  omega

variable (env : WireEnv) (st : WireState)

def multitxtFromwire : Exec WireState :=
  if (env.activeregion st).length = 0 then stop .unexpectedend else multitxtLoop env 256 st

/-- The variables of `txt_valid_regex`. -/
structure RegexScan where
  nsub : ℕ
  regex : Bytes
  flags : Bool
  replace : Bool

/-- The loop of `txt_valid_regex`; nothing stands for `DNS_R_SYNTAX`. -/
def scanRegex (delim : UInt8) : Bytes → RegexScan → Option RegexScan
  | [], s => some s
  | c :: txt, s =>
    if c = 0 then none
    else if c = delim ∧ s.replace = false then scanRegex delim txt { s with replace := true }
    else if c = delim ∧ s.flags = false then scanRegex delim txt { s with flags := true }
    else if c = delim then none
    else if s.flags then (if c = 105 then scanRegex delim txt s else none)
    else
      let s := if s.replace then s else { s with regex := s.regex ++ [c] }
      if c = 92 then
        match txt with
        | [] => none
        | c' :: txt' =>
          if c' = 0 then none
          else if s.replace then
            if c' = 48 then none
            else if 49 ≤ c' ∧ c' ≤ 57 then scanRegex delim txt' { s with nsub := max s.nsub (c'.toNat - 48) }
            else scanRegex delim txt' s
          else scanRegex delim txt' { s with regex := s.regex ++ [c'] }
      else scanRegex delim txt s

/-- `txt_valid_regex` on the bytes after the length byte. -/
def txtValidRegex : Bytes → Exec Unit
  | [] => .ok ()
  | delim :: txt =>
    if (48 ≤ delim ∧ delim ≤ 57) ∨ delim = 92 ∨ delim = 105 ∨ delim = 0 then stop .syntaxerr
    else
      match scanRegex delim txt ⟨0, [], false, false⟩ with
      | none => stop .syntaxerr
      | some s =>
        if s.flags = false then stop .syntaxerr
        else if env.regexValidate s.regex < 0 ∨ env.regexValidate s.regex < s.nsub then stop .syntaxerr
        else .ok ()

/-! ### The types with embedded names -/

def fromwireSoa : Exec WireState := do
  let st ← env.name DNS_COMPRESS_GLOBAL14 st
  let st ← env.name DNS_COMPRESS_GLOBAL14 st
  let sregion := env.activeregion st
  if sregion.length < 20 then stop .unexpectedend
  else do
    let st ← st.mem (sregion.take 20)
    pure (st.forward 20)

/-- The fixed part in front of a name: `n` bytes are copied. -/
def fixedFromwire (n : ℕ) (st : WireState) : Exec WireState :=
  let sr := env.activeregion st
  if sr.length < n then stop .unexpectedend
  else do
    let st ← st.mem (sr.take n)
    pure (st.forward n)

/-- All that is left of the source is copied. -/
def restFromwire : Exec WireState := do
  let sr := env.activeregion st
  let st ← st.mem sr
  pure (st.forward sr.length)

def fromwireSrv : Exec WireState := do
  let st ← fixedFromwire env 6 st
  env.name DNS_COMPRESS_NONE st

def fromwirePx : Exec WireState := do
  let st ← fixedFromwire env 2 st
  let st ← env.name DNS_COMPRESS_NONE st
  env.name DNS_COMPRESS_NONE st

def fromwireNaptr : Exec WireState := do
  let st ← fixedFromwire env 4 st
  let st ← txtFromwire env st
  let st ← txtFromwire env st
  let st' ← txtFromwire env st
  let len ← byteAt (env.activeregion st) 0
  txtValidRegex env (((env.activeregion st).drop 1).take len.toNat)
  env.name DNS_COMPRESS_NONE st'

/-- `fromwire_in_a6`; the pad bits are cleared in the source too. -/
def fromwireA6 : Exec WireState :=
  match env.activeregion st with
  | [] => stop .unexpectedend
  | prefixlen :: sr =>
    if 128 < prefixlen.toNat then stop .range
    else do
      let st ← st.mem [prefixlen]
      let st := st.forward 1
      if prefixlen.toNat = 128 then env.name DNS_COMPRESS_NONE st
      else
        let octets := 16 - prefixlen.toNat / 8
        if sr.length < octets then stop .unexpectedend
        else
          let first := sr.headD 0 &&& (255 >>> (prefixlen % 8))
          let env := { env with source := env.source.set st.current first }
          do
            let st ← st.mem (first :: (sr.take octets).tail)
            let st := st.forward octets
            if prefixlen.toNat = 0 then pure st else env.name DNS_COMPRESS_NONE st

def fromwireNxt : Exec WireState := do
  let st ← env.name DNS_COMPRESS_NONE st
  let sr := env.activeregion st
  if 0 < sr.length ∧ sr.headD 0 &&& 0x80 = 0 ∧ (16 < sr.length ∨ sr.getLastD 0 = 0) then stop .badbitmap
  else restFromwire env st

/-- The loop over the windows of a type bitmap: whether there was none, or what `fail` says at the first
window that is out of order or malformed.  Since a window that runs over the end fails, the loop ends at the
end. -/
def typemapLoop (fail : Stop) (first : Bool) (lastwindow : ℕ) : Bytes → Exec Bool
  | [] => .ok first
  | [_] => .error fail
  | window :: len :: rest =>
    if first = false ∧ window.toNat ≤ lastwindow then .error fail
    else if len.toNat < 1 ∨ 32 < len.toNat then .error fail
    else if rest.length < len.toNat then .error fail
    else if rest.getD (len.toNat - 1) 0 = 0 then .error fail
    else typemapLoop fail false window.toNat (rest.drop len.toNat)
termination_by r => r.length

def fromwireNsec : Exec WireState := do
  let st ← env.name DNS_COMPRESS_NONE st
  let first ← typemapLoop (.result .formerr) true 0 (env.activeregion st)
  if first then stop .formerr else restFromwire env st

def fromwireRrsig : Exec WireState := do
  let st ← fixedFromwire env 18 st
  let st ← env.name DNS_COMPRESS_NONE st
  restFromwire env st

/-- The names at the end of `fromwire_hip`. -/
def hipServers (env : WireEnv) (st : WireState) : Exec WireState :=
  if _h : st.current < env.source.length then
    match _hs : env.name DNS_COMPRESS_NONE st with
    | .error e => .error e
    | .ok st' => hipServers env st'
  else .ok st
termination_by env.source.length - st.current
decreasing_by
  have := WireEnv.name_advances (by omega) _hs
  omega

def fromwireHip : Exec WireState := do
  let rr := env.activeregion st
  if rr.length < 4 then stop .formerr
  else
    let hitLen ← uint8Fromregion rr
    if hitLen = 0 then stop .formerr
    else
      let region ← consume rr 2
      let keyLen ← uint16Fromregion region
      if keyLen = 0 then stop .formerr
      else
        let region ← consume region 2
        if region.length < hitLen + keyLen then stop .formerr
        else
          let st ← st.mem (rr.take (4 + hitLen + keyLen))
          hipServers env (st.forward (4 + hitLen + keyLen))

def fromwireIpseckey : Exec WireState :=
  let region := env.activeregion st
  if region.length < 3 then stop .unexpectedend
  else
    match (region.getD 1 0).toNat with
    | 0 => restFromwire env st
    | 1 => if region.length < 7 then stop .unexpectedend else restFromwire env st
    | 2 => if region.length < 19 then stop .unexpectedend else restFromwire env st
    | 3 => do
      let st ← st.mem (region.take 3)
      let st ← env.name DNS_COMPRESS_NONE (st.forward 3)
      restFromwire env st
    | _ => stop .notimplemented

/-! ### The types without names -/

def fromwireNsec3 : Exec WireState := do
  let sr := env.activeregion st
  if sr.length < 5 then stop .formerr
  else
    let saltlen := (sr.getD 4 0).toNat
    let sr ← consume sr 5
    if sr.length < saltlen then stop .formerr
    else
      let sr ← consume sr saltlen
      if sr.length < 1 then stop .formerr
      else
        let hashlen := (sr.getD 0 0).toNat
        let sr ← consume sr 1
        if sr.length < hashlen then stop .formerr
        else
          let sr ← consume sr hashlen
          let _ ← typemapLoop (.result .formerr) true 0 sr
          restFromwire env st

/-- A size or precision that `fromwire_loc` refuses: the two digits are decimal, the first is not zero. -/
def badPrecision (c : UInt8) : Bool := decide (9 < c.toNat % 16 ∨ 9 < c.toNat / 16 ∨ c.toNat / 16 = 0)

def fromwireLoc : Exec WireState := do
  let sr := env.activeregion st
  if sr.length < 1 then stop .unexpectedend
  else if sr.getD 0 0 ≠ 0 then stop .notimplemented
  else if sr.length < 16 then stop .unexpectedend
  else if sr.getD 1 0 ≠ 0 ∧ badPrecision (sr.getD 1 0) then stop .range
  else if sr.getD 2 0 ≠ 0 ∧ badPrecision (sr.getD 2 0) then stop .range
  else if sr.getD 3 0 ≠ 0 ∧ badPrecision (sr.getD 3 0) then stop .range
  else
    let sr ← consume sr 4
    let latitude ← uint32Fromregion sr
    if latitude < 0x80000000 - 90 * 3600000 ∨ 0x80000000 + 90 * 3600000 < latitude then stop .range
    else
      let sr ← consume sr 4
      let longitude ← uint32Fromregion sr
      if longitude < 0x80000000 - 180 * 3600000 ∨ 0x80000000 + 180 * 3600000 < longitude then stop .range
      else fixedFromwire env 16 st

/-- The loop of `fromwire_in_apl` over the items. -/
def aplLoop (sr : Bytes) : Exec Unit :=
  match sr with
  | [] => .ok ()
  | a0 :: a1 :: pfx :: n :: sr =>
    let afi := a0.toNat * 256 + a1.toNat
    let len := n.toNat % 128
    if sr.length < len then stop .unexpectedend
    else if afi = 1 ∧ (32 < pfx.toNat ∨ 4 < len) then stop .range
    else if afi = 2 ∧ (128 < pfx.toNat ∨ 16 < len) then stop .range
    else if 0 < len ∧ sr.getD (len - 1) 0 = 0 then stop .formerr
    else aplLoop (sr.drop len)
  | _ => stop .unexpectedend
termination_by sr.length

def fromwireApl : Exec WireState := do
  let sr := env.activeregion st
  if st.target.available < sr.length then stop .nospace
  else
    aplLoop sr
    restFromwire env st

def fromwireWks : Exec WireState :=
  let sr := env.activeregion st
  if sr.length < 5 then stop .unexpectedend
  else if 8 * 1024 + 5 < sr.length then stop .extradata
  else restFromwire env st

def fromwireUri : Exec WireState := do
  let st ← fixedFromwire env 4 st
  multitxtFromwire env st

/-! ### All types -/

/-- The rdata types of the development.  `px`, `srv`, `a6`, `apl` and `wks` are types of class IN; in another
class their numbers are unknown types. -/
inductive RdataType where
  | wks
  | soa
  | txt
  | px
  | loc
  | nxt
  | srv
  | naptr
  | a6
  | apl
  | ipseckey
  | rrsig
  | nsec
  | nsec3
  | hip
  | uri
  | unknown (code : ℕ)
deriving DecidableEq, Repr

def fromwireSwitch : RdataType → Exec WireState
  | .wks => fromwireWks env st
  | .soa => fromwireSoa env st
  | .txt => txtsFromwire env st
  | .px => fromwirePx env st
  | .loc => fromwireLoc env st
  | .nxt => fromwireNxt env st
  | .srv => fromwireSrv env st
  | .naptr => fromwireNaptr env st
  | .a6 => fromwireA6 env st
  | .apl => fromwireApl env st
  | .ipseckey => fromwireIpseckey env st
  | .rrsig => fromwireRrsig env st
  | .nsec => fromwireNsec env st
  | .nsec3 => fromwireNsec3 env st
  | .hip => fromwireHip env st
  | .uri => fromwireUri env st
  | .unknown code => if code = 0 then stop .formerr else restFromwire env st

/-- `dns_rdata_fromwire`: the rdata that was added to the target, and the new state. -/
def rdataFromwire (type : RdataType) (st : WireState) :
    Exec (Bytes × WireState) := do
  require (decide ((env.activeregion st).length < 65536))
  let st' ← fromwireSwitch env st type
  let rdata := st'.target.data.drop st.target.used
  if DNS_RDATA_MAXLENGTH < rdata.length then stop .formerr
  else if st'.current ≠ env.source.length then stop .extradata
  else pure (rdata, st')

variable {env st}

/-- The rdata that `dns_rdata_fromwire` accepts from some message. -/
def Accepted (regexValidate : Bytes → ℤ) (type : RdataType) (r : Bytes) : Prop :=
  ∃ env st st', env.regexValidate = regexValidate ∧ rdataFromwire env type st = .ok (r, st')

theorem accepted_of_switch {type : RdataType}
    (hlen : (env.activeregion st).length < 65536) (h : fromwireSwitch env st type = .ok st')
    (hmax : (st'.target.data.drop st.target.used).length ≤ DNS_RDATA_MAXLENGTH) (hend : st'.current = env.source.length) :
    Accepted env.regexValidate type (st'.target.data.drop st.target.used) := by
  refine ⟨env, st, st', rfl, ?_⟩
  rw [rdataFromwire, require_true (decide_eq_true hlen), ok_then, h, ok_then]
  rw [if_neg (by omega), if_neg (not_not.2 hend)]
  rfl

/-- The absolute name of one label of one byte. -/
def oneLetter (c : UInt8) : AbsName where
  name := ⟨[[c], []]⟩
  valid := ⟨by simp, by simp, by simp [Name.length, Name.ndata, Label.wire]⟩
  absolute := rfl

theorem oneLetter_length (c : UInt8) : (oneLetter c).name.length = 3 := by
  simp [oneLetter, Name.length, Name.ndata, Label.wire]

end Rdata

end Bind9
