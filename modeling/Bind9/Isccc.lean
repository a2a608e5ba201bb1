import Bind9.Region

/-! # Messages of the control channel

`isccc_cc_fromwire` of `lib/isccc/cc.c` with what it uses of `alist.c`, `sexpr.c` and `lib/isc/base64.c`.  A region is the
list of its bytes, and `NULL` is an s-expression of its own.  A call ends with an `Exit` when an assertion fails, a read goes
outside the region, a pointer or a member of the union is used that is not there, or the result is not `ISC_R_SUCCESS`;
`*alistp` is set only when there is none.

The recursion has a fuel, which the length of the message bounds.  HMAC-MD5 is a parameter; memory does not run out. -/

namespace Bind9.Isccc

abbrev Region := Bytes

/-- `isccc_sexpr_t *`. -/
inductive Sexpr where
  | null
  | string (s : Bytes)
  | pair (car cdr : Sexpr)
  | binary (r : Region)
deriving DecidableEq, Repr

inductive CcResult where
  | failure
  | unexpectedend
  | syntaxError
  | badauth
  | unknownversion
deriving DecidableEq, Repr

inductive Exit where
  | assertion
  | overrun
  | access
  | fuel
  | result (r : CcResult)
deriving DecidableEq, Repr

/-- The exits that are not results. -/
def Exit.isFault : Exit → Bool
  | .result _ => false
  | _ => true

def insist (b : Bool) : Except Exit Unit := if b then .ok () else .error .assertion

/-- The C string at the start of some bytes that a NUL follows. -/
def cstr (bs : Bytes) : Bytes := bs.takeWhile (· ≠ 0)

def text (s : String) : Bytes := s.toUTF8.toList

theorem text_hmd5 : text "hmd5" = [0x68, 0x6d, 0x64, 0x35] := by decide +kernel

theorem text_auth : text "_auth" = [0x5f, 0x61, 0x75, 0x74, 0x68] := by decide +kernel

/-! ### S-expressions -/

def sexprTostring : Sexpr → Except Exit Bytes
  | .string s => .ok s
  | .binary r => .ok (cstr r)
  | _ => .error .assertion

/-- The loop of `isccc_sexpr_addtolist`. -/
def addLast (elt : Sexpr) : Sexpr → Except Exit Sexpr
  | .pair car .null => .ok (.pair car elt)
  | .pair car cdr => do return .pair car (← addLast elt cdr)
  | _ => .error .access

def sexprAddtolist (l1 l2 : Sexpr) : Except Exit Sexpr :=
  match l1 with
  | .null => .ok (.pair l2 .null)
  | .pair car cdr => addLast (.pair l2 .null) (.pair car cdr)
  | _ => .error .assertion

/-! ### Association lists -/

def alistTag : Bytes := text "*alist*"

def alistCreate : Sexpr := .pair (.string alistTag) .null

def alistp : Sexpr → Bool
  | .pair (.string s) _ => s == alistTag
  | _ => false

def assqLoop (key : Bytes) : Sexpr → Except Exit Sexpr
  | .null => .ok .null
  | .pair (.pair (.string s) v) cdr => if s = key then .ok (.pair (.string s) v) else assqLoop key cdr
  | .pair (.pair .null _) _ => .error .access
  | .pair (.pair _ _) cdr => assqLoop key cdr
  | .pair .null _ => .error .access
  | _ => .error .assertion

def cdr : Sexpr → Except Exit Sexpr
  | .pair _ d => .ok d
  | _ => .error .access

def alistAssq (alist : Sexpr) (key : Bytes) : Except Exit Sexpr := do
  insist (alistp alist)
  assqLoop key (← cdr alist)

/-- `CDR(kv) = value`, in the list that holds `kv`. -/
def replaceLoop (key : Bytes) (value : Sexpr) : Sexpr → Sexpr
  | .pair (.pair (.string s) v) d =>
    if s = key then .pair (.pair (.string s) value) d else .pair (.pair (.string s) v) (replaceLoop key value d)
  | .pair car d => .pair car (replaceLoop key value d)
  | x => x

def alistDefine (alist : Sexpr) (key : Bytes) (value : Sexpr) : Except Exit Sexpr := do
  let kv ← alistAssq alist key
  if kv = .null then sexprAddtolist alist (.pair (.string key) value)
  else return replaceLoop key value alist

def alistLookup (alist : Sexpr) (key : Bytes) : Except Exit Sexpr := do
  let kv ← alistAssq alist key
  if kv = .null then return .null else cdr kv

/-! ### Reading -/

def regionSize (r : Region) : ℕ := r.length % 2 ^ 32

def get8 : Region → Except Exit (ℕ × Region)
  | b :: r => .ok (b.toNat, r)
  | [] => .error .overrun

def get32 : Region → Except Exit (ℕ × Region)
  | b0 :: b1 :: b2 :: b3 :: r => .ok (((b0.toNat * 256 + b1.toNat) * 256 + b2.toNat) * 256 + b3.toNat, r)
  | _ => .error .overrun

/-- `GET_MEM`, and the region `active`. -/
def getMem (r : Region) (n : ℕ) : Except Exit (Region × Region) :=
  if n ≤ r.length then .ok (r.take n, r.drop n) else .error .overrun

def ccmsgtypeBinarydata : ℕ := 1

def ccmsgtypeTable : ℕ := 2

def ccmsgtypeList : ℕ := 3

mutual

/-- `value_fromwire`.  A table below the top has no secret. -/
def valueFromwire : ℕ → Region → Except Exit (Sexpr × Region)
  | 0, _ => .error .fuel
  | fuel + 1, source => do
    if regionSize source < 1 + 4 then throw (.result .unexpectedend)
    let (msgtype, source) ← get8 source
    let (len, source) ← get32 source
    if regionSize source < len then throw (.result .unexpectedend)
    let (active, source) ← getMem source len
    if msgtype = ccmsgtypeBinarydata then return (.binary active, source)
    else if msgtype = ccmsgtypeTable then
      let (alist, _) ← tableLoop fuel false active alistCreate true none
      return (alist, source)
    else if msgtype = ccmsgtypeList then
      let list ← listLoop fuel active .null
      return (list, source)
    else throw (.result .syntaxError)

/-- The loop of `table_fromwire`, with `alist`, `first_tag` and the bytes from `checksum_rstart` on. -/
def tableLoop : ℕ → Bool → Region → Sexpr → Bool → Option Region → Except Exit (Sexpr × Option Region)
  | 0, _, _, _, _, _ => .error .fuel
  | fuel + 1, secret, source, alist, firstTag, checksum => do
    if source = [] then return (alist, checksum)
    let (len, source) ← get8 source
    if regionSize source < len then throw (.result .unexpectedend)
    let (key, source) ← getMem source len
    let key := cstr key
    let (value, source) ← valueFromwire fuel source
    let alist ← alistDefine alist key value
    let checksum := if firstTag && secret && key == text "_auth" then some source else checksum
    tableLoop fuel secret source alist false checksum

def listLoop : ℕ → Region → Sexpr → Except Exit Sexpr
  | 0, _, _ => .error .fuel
  | fuel + 1, source, list => do
    if source = [] then return list
    let (value, source) ← valueFromwire fuel source
    let list ← sexprAddtolist list value
    listLoop fuel source list

end

/-! ### The signature -/

def base64Chars : Bytes := text "ABCDEFGHIJKLMNOPQRSTUVWXYZabcdefghijklmnopqrstuvwxyz0123456789+/="

def base64Char (i : ℕ) : UInt8 := base64Chars.getD i 0

/-- `isc_base64_totext` without word breaks. -/
def base64Totext : Bytes → Bytes
  | a :: b :: c :: rest =>
    base64Char (a.toNat / 4) :: base64Char (a.toNat % 4 * 16 + b.toNat / 16) ::
      base64Char (b.toNat % 16 * 4 + c.toNat / 64) :: base64Char (c.toNat % 64) :: base64Totext rest
  | [a, b] => base64Char (a.toNat / 4) :: base64Char (a.toNat % 4 * 16 + b.toNat / 16) :: base64Char (b.toNat % 16 * 4) ::
      text "="
  | [a] => base64Char (a.toNat / 4) :: base64Char (a.toNat % 4 * 16) :: text "=="
  | [] => []

/-- `isc_hmacmd5_init`, `isc_hmacmd5_update` and `isc_hmacmd5_sign`: a secret and the data give a digest. -/
abbrev HmacMd5 := Region → Region → Vector UInt8 16

/-- The digest in base64 without the trailing `==`. -/
def digestText (hmac : HmacMd5) (secret data : Region) : Bytes :=
  let digestb64 := base64Totext (hmac secret data).toList
  digestb64.take (digestb64.length - 2)

def verify (hmac : HmacMd5) (alist : Sexpr) (data secret : Region) : Except Exit Unit := do
  let auth ← alistLookup alist (text "_auth")
  if auth = .null then throw (.result .failure)
  let hmd5 ← alistLookup auth (text "hmd5")
  if hmd5 = .null then throw (.result .failure)
  -- the length is an `unsigned int`
  let digestb64 := digestText hmac secret (data.take (data.length % 2 ^ 32))
  let s ← sexprTostring hmd5
  if digestb64 ≠ s then throw (.result .badauth)

def tableFromwire (hmac : HmacMd5) (fuel : ℕ) (source : Region) (secret : Option Region) : Except Exit Sexpr := do
  let (alist, checksum) ← tableLoop fuel secret.isSome source alistCreate true none
  match secret, checksum with
  | none, _ => return alist
  | some _, none => throw (.result .badauth)
  | some key, some data =>
    verify hmac alist data key
    return alist

def ccFromwire (hmac : HmacMd5) (source : Region) (secret : Option Region) : Except Exit Sexpr := do
  if regionSize source < 4 then throw (.result .unexpectedend)
  let (version, source) ← get32 source
  if version ≠ 1 then throw (.result .unknownversion)
  tableFromwire hmac (source.length + 1) source secret

end Bind9.Isccc
