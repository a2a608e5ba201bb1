import Bind9.Compress

/-! # Decoding a compressed name

`dns_name_fromwire` of `lib/dns/name.c`, byte by byte: the loop of the source is `fwLoop`, one
turn of it `fwStep`, its local variables `FwLocals`.  The loop ends because a pointer is only
followed to a place before every earlier one (`biggest_pointer`); between two pointers it walks
forward.

`Encodes buf s p e ls` says, without the decoder, that the labels `ls` stand at `p` in `buf`:
labels up to `e`, closed by the root label or by a pointer to before `s`, the place where the
segment started.  `fromwire_of_encodes` is the decoder's correctness against it, `fromwire_ok` says that what
the decoder accepts is a valid absolute name. -/

namespace Bind9

open List
open Bool

/-- `fw_state`; the state `fw_copy` is never entered. -/
inductive FwState where
  | start
  | ordinary
  | newcurrent
deriving DecidableEq, Repr

/-- The local variables of `dns_name_fromwire` that change in the loop. -/
structure FwLocals where
  state : FwState
  current : ℕ
  newCurrent : ℕ
  biggestPointer : ℕ
  n : ℕ
  labels : ℕ
  nused : ℕ
  cused : ℕ
  seenPointer : Bool
  done : Bool
  ndata : Bytes
  offsets : List ℕ
deriving Repr

/-- What the loop reads and never changes: the source buffer up to `active`, the space in the
target, the option `DNS_NAME_DOWNCASE` and the methods the decompression context allows. -/
structure FwEnv where
  source : Bytes
  nmax : ℕ
  downcase : Bool
  allowed : UInt32

def fwStart (env : FwEnv) (c : ℕ) (v : FwLocals) : Except Result FwLocals :=
  if c < 64 then
    if v.nused + c + 1 > env.nmax then
      .error (if env.nmax = 255 then .nametoolong else .nospace)
    else
      .ok { v with
        offsets := v.offsets ++ [v.nused]
        labels := v.labels + 1
        nused := v.nused + c + 1
        ndata := v.ndata ++ [UInt8.ofNat c]
        done := v.done || c == 0
        n := c
        state := .ordinary }
  else if 128 ≤ c ∧ c < 192 then .error .badlabeltype
  else if 192 ≤ c then
    if env.allowed &&& DNS_COMPRESS_GLOBAL14 = 0 then .error .disallowed
    else .ok { v with newCurrent := c % 64, n := 1, state := .newcurrent }
  else .error .badlabeltype

def fwOrdinary (env : FwEnv) (c : UInt8) (v : FwLocals) : FwLocals :=
  { v with
    ndata := v.ndata ++ [if env.downcase then maptolower c else c]
    n := v.n - 1
    state := if v.n - 1 = 0 then .start else .ordinary }

def fwNewcurrent (c : ℕ) (v : FwLocals) : Except Result FwLocals :=
  let v := { v with newCurrent := v.newCurrent * 256 + c, n := v.n - 1 }
  if v.n ≠ 0 then .ok v
  else if v.newCurrent ≥ v.biggestPointer then .error .badpointer
  else .ok { v with
    biggestPointer := v.newCurrent
    current := v.newCurrent
    seenPointer := true
    state := .start }

/-- Move `k` bytes on; bytes behind a pointer do not count as used. -/
def FwLocals.advance (v : FwLocals) (k : ℕ) : FwLocals :=
  { v with
    current := v.current + k
    cused := if v.seenPointer then v.cused else v.cused + k }

/-- One turn of the loop: fetch a byte, then act on the state. -/
def fwStep (env : FwEnv) (v : FwLocals) : Except Result FwLocals :=
  let c := env.source.getD v.current 0
  match v.state with
  | .start => fwStart env c.toNat (v.advance 1)
  | .ordinary => .ok (fwOrdinary env c (v.advance 1))
  | .newcurrent => fwNewcurrent c.toNat (v.advance 1)

variable {env : FwEnv} {v v' : FwLocals}

theorem fwStep_progress (h : fwStep env v = .ok v') : v'.biggestPointer < v.biggestPointer ∨
      (v'.biggestPointer = v.biggestPointer ∧ v'.current = v.current + 1) := by
  unfold fwStep at h
  cases hs : v.state with
  | start =>
    simp only [hs, fwStart] at h
    split_ifs at h <;> cases h <;> exact .inr ⟨rfl, rfl⟩
  | ordinary =>
    simp only [hs] at h
    cases h
    exact .inr ⟨rfl, rfl⟩
  | newcurrent =>
    simp only [hs, fwNewcurrent] at h
    split_ifs at h with h1 h2
    · cases h; exact .inr ⟨rfl, rfl⟩
    · cases h; exact .inl (not_le.1 h2)

/-- The loop `while (current < source->active && !done)`. -/
def fwLoop (env : FwEnv) (v : FwLocals) : Except Result FwLocals :=
  if _h : v.current < env.source.length ∧ v.done = false then
    match _hs : fwStep env v with
    | .error r => .error r
    | .ok v' => fwLoop env v'
  else .ok v
termination_by (v.biggestPointer, env.source.length - v.current)
decreasing_by
  rcases fwStep_progress _hs with hb | ⟨hb, hc⟩
  · exact Prod.Lex.left _ _ hb
  · rw [hb, hc]; exact Prod.Lex.right _ (by omega)

/-- The decoded name and the number of source bytes it took. -/
structure Decoded where
  ndata : Bytes
  labels : ℕ
  offsets : List ℕ
  cused : ℕ
deriving DecidableEq, Repr

/-- The local variables on entry, with `source->current` at `current`. -/
def fwInit (current : ℕ) : FwLocals where
  state := .start
  current := current
  newCurrent := 0
  biggestPointer := current
  n := 0
  labels := 0
  nused := 0
  cused := 0
  seenPointer := false
  done := false
  ndata := []
  offsets := []

/-- `dns_name_fromwire` at `current` in `source` (up to its active end), into a target with
`avail` bytes left. -/
def fromwire (source : Bytes) (current avail : ℕ) (downcase : Bool) (allowed : UInt32) :
    Except Result Decoded :=
  match fwLoop ⟨source, min avail 255, downcase, allowed⟩ (fwInit current) with
  | .error r => .error r
  | .ok v =>
    if v.done then .ok ⟨v.ndata, v.labels, v.offsets, v.cused⟩ else .error .unexpectedend

/-! ### What it means for labels to stand in a buffer -/

/-- The labels `ls` stand at `p` in `buf` and end at `e`; `s` is where the segment started. -/
inductive Encodes (buf : Bytes) : ℕ → ℕ → ℕ → List Label → Prop
  | root {s p : ℕ} (h : [0] <+: buf.drop p) : Encodes buf s p (p + 1) [[]]
  | label {s p e : ℕ} {l : Label} {ls : List Label} (hne : l ≠ []) (hle : l.length ≤ 63)
      (h : l.wire <+: buf.drop p) (hr : Encodes buf s (p + l.length + 1) e ls) :
      Encodes buf s p e (l :: ls)
  | pointer {s p t e : ℕ} {ls : List Label} (hs : t < s) (ht : t < 0x4000)
      (h : uint16Bytes (t ||| 0xc000) <+: buf.drop p) (hr : Encodes buf t t e ls) :
      Encodes buf s p (p + 2) ls

variable {buf source : Bytes} {s p e k avail : ℕ} {ls : List Label}

namespace Encodes

theorem mono {s' : ℕ} (h : Encodes buf s p e ls) (hs : s ≤ s') : Encodes buf s' p e ls := by
  induction h with
  | root h => exact .root h
  | label hne hle h _ ih => exact .label hne hle h (ih hs)
  | pointer ht h14 h hr _ => exact .pointer (by omega) h14 h hr

theorem drop_prefix_append {bs : Bytes} (ext : Bytes) (hbs : bs ≠ [])
    (h : bs <+: buf.drop p) : bs <+: (buf ++ ext).drop p := by
  have hp : p < buf.length := by
    by_contra hge
    rw [drop_of_length_le (by omega)] at h
    exact hbs (prefix_nil.1 h)
  rw [drop_append_of_le_length (by omega)]
  exact h.trans (prefix_append _ _)

/-- More bytes behind the buffer change nothing. -/
theorem append (h : Encodes buf s p e ls) (ext : Bytes) : Encodes (buf ++ ext) s p e ls := by
  induction h with
  | root h => exact .root (drop_prefix_append ext (by simp) h)
  | label hne hle h _ ih =>
    exact .label hne hle (drop_prefix_append ext (by simp [Label.wire]) h) ih
  | pointer hs ht h _ ih =>
    exact .pointer hs ht (drop_prefix_append ext (by simp [uint16Bytes]) h) ih

end Encodes

/-! ### The decoder on encoded labels -/

/-- The bytes of a label as the decoder copies them. -/
def FwEnv.copy (env : FwEnv) (l : Label) : Label := if env.downcase then l.lower else l

@[simp] theorem FwEnv.copy_length (env : FwEnv) (l : Label) : (env.copy l).length = l.length := by
  unfold copy; split <;> simp

@[simp] theorem FwEnv.copy_nil (env : FwEnv) : env.copy [] = [] := by
  simp [copy, Label.lower]

theorem FwEnv.copy_cons (env : FwEnv) (c : UInt8) (l : Label) :
    env.copy (c :: l) = (if env.downcase then maptolower c else c) :: env.copy l := by
  unfold copy Label.lower; split <;> simp

theorem fwLoop_step (hc : v.current < env.source.length)
    (hd : v.done = false) (h : fwStep env v = .ok v') : fwLoop env v = fwLoop env v' := by
  rw [fwLoop, dif_pos ⟨hc, hd⟩]
  split
  · next r hs => rw [h] at hs; cases hs
  · next w hs => rw [h] at hs; cases hs; rfl

theorem fwLoop_done (hd : v.done = true) : fwLoop env v = .ok v := by
  rw [fwLoop, dif_neg (by simp [hd])]

theorem fetch_of_head {c : UInt8} {bs : Bytes} (h : c :: bs <+: buf.drop p) :
    p < buf.length ∧ buf.getD p 0 = c ∧ bs <+: buf.drop (p + 1) := by
  obtain ⟨t, ht⟩ := h
  have hp : p < buf.length := by
    by_contra hge
    rw [drop_of_length_le (by omega)] at ht
    simp at ht
  have hd := drop_eq_getElem_cons hp
  rw [hd, cons_append, cons.injEq] at ht
  refine ⟨hp, ?_, ⟨t, ht.2⟩⟩
  rw [getD_eq_getElem?_getD, getElem?_eq_getElem hp]
  exact ht.1.symm

/-- The state after the bytes of a label have been copied. -/
def FwLocals.copied (env : FwEnv) (v : FwLocals) (l : Label) : FwLocals :=
  { v.advance l.length with ndata := v.ndata ++ env.copy l, n := 0, state := .start }

theorem fwLoop_bytes (env : FwEnv) : ∀ (l : Label) (v : FwLocals), l ≠ [] →
    v.state = .ordinary → v.n = l.length → v.done = false → l <+: env.source.drop v.current →
    fwLoop env v = fwLoop env (v.copied env l)
  | [], _, hne, _, _, _, _ => absurd rfl hne
  | c :: l, v, _, hs, hn, hd, hp => by
    obtain ⟨hlt, hget, hp'⟩ := fetch_of_head hp
    have hstep : fwStep env v = .ok (fwOrdinary env c (v.advance 1)) := by
      simp only [fwStep, hs, hget]
    rw [fwLoop_step hlt hd hstep]
    have hn' : (v.advance 1).n - 1 = l.length := by simp [FwLocals.advance, hn]
    cases l with
    | nil =>
      congr 1
      simp only [fwOrdinary, FwLocals.copied, hn', length_nil, if_pos, FwEnv.copy_cons]
      simp [FwLocals.advance, FwEnv.copy, Label.lower]
    | cons c' l =>
      rw [fwLoop_bytes env (c' :: l) (fwOrdinary env c (v.advance 1)) (by simp)
        (by simp [fwOrdinary, hn']) (by simp [fwOrdinary, hn']) hd hp']
      congr 1
      simp only [FwLocals.copied, fwOrdinary, FwLocals.advance, FwEnv.copy_cons, List.length_cons]
      by_cases hp : v.seenPointer = true <;> simp [hp] <;> omega

/-- The state after the length byte of a label. -/
def FwLocals.opened (v : FwLocals) (l : Label) : FwLocals :=
  { v.advance 1 with
    offsets := v.offsets ++ [v.nused]
    labels := v.labels + 1
    nused := v.nused + l.length + 1
    ndata := v.ndata ++ [UInt8.ofNat l.length]
    done := l.length == 0
    n := l.length
    state := .ordinary }

variable {l : Label}

theorem toNat_ofNat_length (hle : l.length ≤ 63) : (UInt8.ofNat l.length).toNat = l.length := by
  rw [UInt8.toNat_ofNat']
  omega

theorem fwLoop_open (hle : l.length ≤ 63)
    (hs : v.state = .start) (hd : v.done = false) (hp : l.wire <+: env.source.drop v.current)
    (hmax : v.nused + l.length + 1 ≤ env.nmax) : fwLoop env v = fwLoop env (v.opened l) := by
  obtain ⟨hlt, hget, -⟩ := fetch_of_head hp
  refine fwLoop_step hlt hd ?_
  have hnu : (v.advance 1).nused = v.nused := rfl
  simp only [fwStep, hs, hget, fwStart, toNat_ofNat_length hle]
  rw [if_pos (by omega), if_neg (by omega)]
  simp [FwLocals.opened, FwLocals.advance, hd]

theorem fwLoop_label (hne : l ≠ []) (hle : l.length ≤ 63)
    (hs : v.state = .start) (hd : v.done = false) (hp : l.wire <+: env.source.drop v.current)
    (hmax : v.nused + l.length + 1 ≤ env.nmax) : fwLoop env v = fwLoop env ((v.opened l).copied env l) := by
  rw [fwLoop_open hle hs hd hp hmax]
  have hl : l.length ≠ 0 := by simpa using hne
  exact fwLoop_bytes env l (v.opened l) hne rfl rfl (by simp [FwLocals.opened, hne])
    (fetch_of_head hp).2.2

theorem Encodes.lt (h : Encodes buf s p e ls) : p < e := by
  induction h <;> omega

theorem Encodes.length_ne_two (h : Encodes buf s p e ls) : 0 < Name.length ⟨ls⟩ ∧ Name.length ⟨ls⟩ ≠ 2 := by
  induction h with
  | root h => simp [Name.length, Name.ndata, Label.wire]
  | @label s p e l ls hne hle h hr ih =>
    have hl : 0 < l.length := length_pos_of_ne_nil hne
    rw [Name.length_cons]
    omega
  | pointer hs ht h hr ih => exact ih

theorem pointer_bytes {t : ℕ} (ht : t < 0x4000) : (UInt8.ofNat ((t ||| 0xc000) / 256)).toNat = 192 + t / 256 ∧
      (UInt8.ofNat ((t ||| 0xc000) % 256)).toNat = t % 256 := by
  have hor : t ||| 0xc000 = t + 0xc000 := by
    have h3 : (0xc000 : ℕ) = 2 ^ 14 * 3 := rfl
    rw [h3, Nat.or_comm, ← Nat.two_pow_add_eq_or_of_lt ht, Nat.add_comm]
  simp only [hor, UInt8.toNat_ofNat']
  omega

theorem fwLoop_pointer {t : ℕ} (ht : t < 0x4000)
    (hb : t < v.biggestPointer) (hg : env.allowed &&& DNS_COMPRESS_GLOBAL14 ≠ 0)
    (hs : v.state = .start) (hd : v.done = false)
    (hp : uint16Bytes (t ||| 0xc000) <+: env.source.drop v.current) :
    fwLoop env v = fwLoop env { v.advance 2 with
      newCurrent := t, n := 0, biggestPointer := t, current := t, seenPointer := true,
      state := .start } := by
  obtain ⟨hlt, hget, hp'⟩ := fetch_of_head hp
  obtain ⟨hlt', hget', -⟩ := fetch_of_head hp'
  obtain ⟨hhi, hlo⟩ := pointer_bytes ht
  have h1 : fwStep env v = .ok { v.advance 1 with
      newCurrent := t / 256, n := 1, state := .newcurrent } := by
    simp only [fwStep, hs, hget, fwStart, hhi]
    rw [if_neg (by omega), if_neg (by omega), if_pos (by omega), if_neg hg]
    congr 3
    omega
  rw [fwLoop_step hlt hd h1]
  refine fwLoop_step hlt' hd ?_
  have hnc : t / 256 * 256 + t % 256 = t := Nat.div_add_mod' t 256
  simp only [fwStep, FwLocals.advance, hget', fwNewcurrent, hlo, hnc]
  rw [if_neg (by simp), if_neg (by omega)]
  by_cases hsp : v.seenPointer = true <;> simp [hsp]

theorem fwLoop_encodes (env : FwEnv) (h : Encodes env.source s p e ls)
    (hg : env.allowed &&& DNS_COMPRESS_GLOBAL14 ≠ 0 ∨ e = p + Name.length ⟨ls⟩) :
    ∀ v : FwLocals, v.state = .start → v.done = false → v.current = p → v.biggestPointer = s →
      v.nused + Name.length ⟨ls⟩ ≤ env.nmax → ∃ v', fwLoop env v = .ok v' ∧ v'.done = true ∧
        v'.ndata = v.ndata ++ Name.ndata ⟨ls.map env.copy⟩ ∧ v'.labels = v.labels + ls.length ∧
        v'.offsets = v.offsets ++ Name.offsetsFrom v.nused ls ∧
        v'.cused = if v.seenPointer then v.cused else v.cused + (e - p) := by
  induction h with
  | root h =>
    intro v hs hd hc hb hmax
    subst hc
    simp only [Name.length_cons, length_nil] at hmax
    refine ⟨v.opened [], ?_, rfl, ?_, ?_, ?_, ?_⟩
    · rw [fwLoop_open (l := []) (by simp) hs hd h (by simp; omega)]
      exact fwLoop_done rfl
    · simp [FwLocals.opened, Name.ndata, Label.wire]
    · simp [FwLocals.opened, FwLocals.advance]
    · simp [FwLocals.opened, Name.offsetsFrom]
    · simp [FwLocals.opened, FwLocals.advance]
  | @label s p e l ls hne hle h hr ih =>
    intro v hs hd hc hb hmax
    subst hc
    rw [Name.length_cons] at hmax hg
    obtain ⟨v', hloop, hdone, hnd, hlab, hoff, hcu⟩ := ih (hg.imp_right (fun he => by omega)) ((v.opened l).copied env l) rfl
      (by simp [FwLocals.copied, FwLocals.opened, FwLocals.advance, hne])
      (by simp [FwLocals.copied, FwLocals.opened, FwLocals.advance]; omega)
      (by simpa [FwLocals.copied, FwLocals.opened, FwLocals.advance] using hb)
      (by simp only [FwLocals.copied, FwLocals.opened, FwLocals.advance]; omega)
    have hlt := hr.lt
    refine ⟨v', ?_, hdone, ?_, ?_, ?_, ?_⟩
    · rw [fwLoop_label hne hle hs hd h (by omega), hloop]
    · rw [hnd]
      simp [FwLocals.copied, FwLocals.opened, FwLocals.advance, Name.ndata, Label.wire]
    · rw [hlab]
      simp [FwLocals.copied, FwLocals.opened, FwLocals.advance]; omega
    · rw [hoff]
      simp [FwLocals.copied, FwLocals.opened, FwLocals.advance, Name.offsetsFrom]
    · rw [hcu]
      by_cases hsp : v.seenPointer = true <;>
        simp [FwLocals.copied, FwLocals.opened, FwLocals.advance, hsp]
      omega
  | @pointer s p t e ls hts ht h hr ih =>
    intro v hs hd hc hb hmax
    subst hc
    have hg : env.allowed &&& DNS_COMPRESS_GLOBAL14 ≠ 0 :=
      hg.resolve_right (fun he => hr.length_ne_two.2 (by omega))
    obtain ⟨v', hloop, hdone, hnd, hlab, hoff, hcu⟩ := ih (.inl hg) { v.advance 2 with
        newCurrent := t, n := 0, biggestPointer := t, current := t, seenPointer := true,
        state := .start } rfl hd rfl rfl hmax
    refine ⟨v', ?_, hdone, hnd, hlab, hoff, ?_⟩
    · rw [fwLoop_pointer ht (by omega) hg hs hd h, hloop]
    · rw [hcu]
      by_cases hsp : v.seenPointer = true <;> simp [FwLocals.advance, hsp]

variable {allowed : UInt32}

/-- **Decoding.**  Where labels stand in a buffer, `dns_name_fromwire` returns them and
consumes the bytes up to their end. -/
theorem fromwire_of_encodes (avail : ℕ) (downcase : Bool) (h : Encodes source s p e ls) (hs : s ≤ p)
    (hlen : Name.length ⟨ls⟩ ≤ 255) (havail : Name.length ⟨ls⟩ ≤ avail)
    (hg : allowed &&& DNS_COMPRESS_GLOBAL14 ≠ 0 ∨ e = p + Name.length ⟨ls⟩) : fromwire source p avail downcase allowed =
      .ok ⟨Name.ndata ⟨if downcase then ls.map Label.lower else ls⟩, ls.length, Name.offsets ⟨ls⟩, e - p⟩ := by
  obtain ⟨v', hloop, hdone, hnd, hlab, hoff, hcu⟩ :=
    fwLoop_encodes ⟨source, min avail 255, downcase, allowed⟩ (h.mono hs) hg (fwInit p)
      rfl rfl rfl rfl (by simp [fwInit, hlen, havail])
  have hcopy : ls.map (FwEnv.copy ⟨source, min avail 255, downcase, allowed⟩) =
      if downcase then ls.map Label.lower else ls := by
    cases downcase with
    | false => exact map_id ls
    | true => rfl
  unfold fromwire
  rw [hloop]
  simp [hdone, hnd, hlab, hoff, hcu, fwInit, hcopy, Name.offsets]

/-! ### What the decoder accepts -/

/-- Labels that may stand before the root label. -/
def Inner (ls : List Label) : Prop := ∀ l ∈ ls, l.length ≤ 63 ∧ l ≠ []

/-- What the loop has written: whole labels, then, in the state `fw_ordinary`, a label of which `n` bytes are
still missing. -/
def FwLocals.Wrote (env : FwEnv) (v : FwLocals) : Prop :=
  if v.done then ∃ ls, Inner ls ∧ v.ndata = Name.ndata ⟨ls ++ [[]]⟩ ∧ v.ndata.length ≤ env.nmax
  else if v.state = .ordinary then
    ∃ ls, ∃ l : Label, Inner ls ∧ v.ndata = Name.ndata ⟨ls⟩ ++ UInt8.ofNat (l.length + v.n) :: l ∧
      0 < v.n ∧ l.length + v.n ≤ 63 ∧ v.ndata.length + v.n = v.nused ∧ v.nused ≤ env.nmax
  else ∃ ls, Inner ls ∧ v.ndata = Name.ndata ⟨ls⟩ ∧ v.ndata.length = v.nused ∧ v.nused ≤ env.nmax

theorem Name.ndata_append (xs ys : List Label) : Name.ndata ⟨xs ++ ys⟩ = Name.ndata ⟨xs⟩ ++ Name.ndata ⟨ys⟩ := by
  simp [Name.ndata]

theorem Inner.snoc {ls : List Label} {l : Label} (h : Inner ls) (hle : l.length ≤ 63) (hne : l ≠ []) : Inner (ls ++ [l]) := by
  intro x hx
  obtain hx | hx := mem_append.1 hx
  · exact h x hx
  · rw [mem_singleton.1 hx]
    exact ⟨hle, hne⟩

theorem fwStart_wrote {c : ℕ} (hs : v.state ≠ .ordinary) (hd : v.done = false)
    (hw : v.Wrote env) (h : fwStart env c (v.advance k) = .ok v') : v'.Wrote env := by
  simp only [FwLocals.Wrote, hd, hs, if_false, false_eq_true] at hw
  obtain ⟨ls, hin, hnd, hlen, hmax⟩ := hw
  unfold fwStart at h
  split_ifs at h with hc hsp <;> cases h
  · -- a label starts; the root label ends the name
    have hsp' : v.nused + c + 1 ≤ env.nmax := not_lt.1 hsp
    by_cases h0 : c = 0
    · subst h0
      simp only [FwLocals.Wrote, beq_self_eq_true, Bool.or_true, if_true]
      refine ⟨ls, hin, ?_, ?_⟩
      · simp [FwLocals.advance, hnd, Name.ndata, Label.wire]
      · simp only [FwLocals.advance, List.length_append, List.length_cons, length_nil, hlen]
        omega
    have hdone : ((v.advance k).done || c == 0) = false := by simp [FwLocals.advance, hd, h0]
    simp only [FwLocals.Wrote, hdone, false_eq_true, if_false, if_true]
    refine ⟨ls, [], hin, ?_, Nat.pos_of_ne_zero h0, ?_, ?_, ?_⟩
    · simp [FwLocals.advance, hnd]
    · simp only [length_nil]; omega
    · simp only [FwLocals.advance, List.length_append, List.length_cons, length_nil, hlen]
      omega
    · exact hsp'
  · simp only [FwLocals.Wrote]
    have hdone : (v.advance k).done = false := hd
    rw [hdone]
    exact ⟨ls, hin, hnd, hlen, hmax⟩

theorem fwOrdinary_wrote {c : UInt8} (hs : v.state = .ordinary)
    (hd : v.done = false) (hw : v.Wrote env) : (fwOrdinary env c (v.advance k)).Wrote env := by
  simp only [FwLocals.Wrote, hd, hs, if_false, if_true, false_eq_true] at hw
  obtain ⟨ls, l, hin, hnd, hn, h63, hlen, hmax⟩ := hw
  have hdone : (fwOrdinary env c (v.advance k)).done = false := hd
  simp only [FwLocals.Wrote, hdone, false_eq_true, if_false]
  generalize hb : (if env.downcase then maptolower c else c) = b
  have hnd' : (fwOrdinary env c (v.advance k)).ndata =
      Name.ndata ⟨ls⟩ ++ UInt8.ofNat (l.length + v.n) :: (l ++ [b]) := by
    simp [fwOrdinary, FwLocals.advance, hnd, hb]
  have hn' : (fwOrdinary env c (v.advance k)).n = v.n - 1 := rfl
  have hlen' : (fwOrdinary env c (v.advance k)).ndata.length + (v.n - 1) = v.nused := by
    rw [hnd', ← hlen, hnd]
    simp only [List.length_append, List.length_cons, length_nil]
    omega
  by_cases hlast : v.n - 1 = 0
  · rw [if_neg (by simp [fwOrdinary, FwLocals.advance, hlast])]
    have h1 : v.n = 1 := by omega
    refine ⟨ls ++ [l ++ [b]], hin.snoc ?_ (by simp), ?_, ?_, hmax⟩
    · simp only [List.length_append, List.length_cons, length_nil]; omega
    · rw [hnd', Name.ndata_append, h1]
      simp [Name.ndata, Label.wire]
    · rw [hlast] at hlen'
      exact hlen'
  rw [if_pos (by simp [fwOrdinary, FwLocals.advance, hlast]), hn']
  refine ⟨ls, l ++ [b], hin, ?_, by omega, ?_, hlen', hmax⟩
  · rw [hnd']
    congr 3
    simp only [List.length_append, List.length_cons, length_nil]; omega
  · simp only [List.length_append, List.length_cons, length_nil]; omega

theorem fwNewcurrent_wrote {c : ℕ} (hs : v.state = .newcurrent)
    (hd : v.done = false) (hw : v.Wrote env) (h : fwNewcurrent c (v.advance k) = .ok v') : v'.Wrote env := by
  have hso : v.state ≠ .ordinary := by simp [hs]
  simp only [FwLocals.Wrote, hd, hso, if_false, false_eq_true] at hw
  unfold fwNewcurrent at h
  simp only at h
  split_ifs at h <;> cases h
  · simp only [FwLocals.Wrote, FwLocals.advance, hd, hso, if_false, false_eq_true]
    exact hw
  · simp only [FwLocals.Wrote, FwLocals.advance, hd, if_false, false_eq_true, reduceCtorEq]
    exact hw

/-- One turn of the loop keeps what it has written well formed. -/
theorem fwStep_wrote (hd : v.done = false) (hw : v.Wrote env) (h : fwStep env v = .ok v') : v'.Wrote env := by
  unfold fwStep at h
  cases hs : v.state with
  | start =>
    simp only [hs] at h
    exact fwStart_wrote (by simp [hs]) hd hw h
  | ordinary =>
    simp only [hs] at h
    cases h
    exact fwOrdinary_wrote hs hd hw
  | newcurrent =>
    simp only [hs] at h
    exact fwNewcurrent_wrote hs hd hw h

theorem fwLoop_wrote (env : FwEnv) (v : FwLocals) : ∀ v', v.Wrote env → fwLoop env v = .ok v' → v'.Wrote env := by
  induction v using fwLoop.induct env with
  | case1 v hc r hr =>
    intro v' _ h
    rw [fwLoop, dif_pos hc] at h
    split at h
    · cases h
    · next w hs => rw [hr] at hs; cases hs
  | case2 v hc w hw ih =>
    intro v' hv h
    rw [fwLoop_step hc.1 hc.2 hw] at h
    exact ih v' (fwStep_wrote hc.2 hv hw) h
  | case3 v hc =>
    intro v' hv h
    rw [fwLoop, dif_neg hc] at h
    cases h
    exact hv

/-- **Accepted names.**  What `dns_name_fromwire` returns is a valid absolute name that fits the target. -/
theorem fromwire_ok {current : ℕ} {downcase : Bool} {d : Decoded}
    (h : fromwire source current avail downcase allowed = .ok d) :
    ∃ n : AbsName, d.ndata = n.name.ndata ∧ n.name.length ≤ avail := by
  unfold fromwire at h
  split at h
  · cases h
  next v hv =>
    split_ifs at h with hdone
    cases h
    have hw : (fwInit current).Wrote ⟨source, min avail 255, downcase, allowed⟩ := by
      simp only [FwLocals.Wrote, fwInit, false_eq_true, if_false, reduceCtorEq]
      exact ⟨[], nofun, rfl, rfl, Nat.zero_le _⟩
    have hv' := fwLoop_wrote _ _ v hw hv
    simp only [FwLocals.Wrote, hdone, if_true] at hv'
    obtain ⟨ls, hin, hnd, hlen⟩ := hv'
    have hlen' : Name.length ⟨ls ++ [[]]⟩ ≤ min avail 255 := by rw [Name.length, ← hnd]; exact hlen
    have hvalid : Name.Valid ⟨ls ++ [[]]⟩ := by
      refine ⟨fun l hl => ?_, fun l hl => ?_, by omega⟩
      · obtain hl | hl := mem_append.1 hl
        · exact (hin l hl).1
        · simp [mem_singleton.1 hl]
      · rw [dropLast_concat] at hl
        exact (hin l hl).2
    exact ⟨⟨⟨ls ++ [[]]⟩, hvalid, by simp [Name.isabsolute]⟩, hnd, hlen'.trans (min_le_left _ _)⟩

/-- How far the loop has come in the source, which it entered at `p`. -/
structure FwLocals.Reached (source : Bytes) (p : ℕ) (v : FwLocals) : Prop where
  used_le : p + v.cused ≤ source.length
  current_eq : v.seenPointer = false → v.current = p + v.cused

theorem fwStep_cused (h : fwStep env v = .ok v') : v'.cused = (if v.seenPointer then v.cused else v.cused + 1) ∧
      (v'.seenPointer = false → v.seenPointer = false ∧ v'.current = v.current + 1) := by
  unfold fwStep at h
  cases hs : v.state with
  | start =>
    simp only [hs, fwStart] at h
    split_ifs at h <;> cases h <;> exact ⟨rfl, fun hp => ⟨hp, rfl⟩⟩
  | ordinary =>
    simp only [hs] at h
    cases h
    exact ⟨rfl, fun hp => ⟨hp, rfl⟩⟩
  | newcurrent =>
    simp only [hs, fwNewcurrent] at h
    split_ifs at h <;> cases h
    · exact ⟨rfl, fun hp => ⟨hp, rfl⟩⟩
    · exact ⟨rfl, nofun⟩

theorem fwStep_reached (hc : v.current < env.source.length) (hv : v.Reached env.source p) (h : fwStep env v = .ok v') :
    v'.Reached env.source p ∧ v.cused ≤ v'.cused ∧ (v.seenPointer = false → v.cused < v'.cused) := by
  obtain ⟨hcu, hsp⟩ := fwStep_cused h
  have hle := hv.used_le
  by_cases hp : v.seenPointer = true
  · rw [if_pos hp] at hcu
    refine ⟨⟨by omega, fun h' => ?_⟩, by omega, fun h' => by simp [hp] at h'⟩
    rw [(hsp h').1] at hp
    cases hp
  have hp' : v.seenPointer = false := by simpa using hp
  have hcur := hv.current_eq hp'
  rw [if_neg hp] at hcu
  refine ⟨⟨by omega, fun h' => ?_⟩, by omega, fun _ => by omega⟩
  rw [(hsp h').2, hcur, hcu]
  omega

theorem fwLoop_reached (env : FwEnv) (p : ℕ) (v : FwLocals) : ∀ v', v.Reached env.source p →
    fwLoop env v = .ok v' → v'.Reached env.source p ∧ v.cused ≤ v'.cused ∧
      (v.done = false → v'.done = true → v.seenPointer = false → v.cused < v'.cused) := by
  induction v using fwLoop.induct env with
  | case1 v hc r hr =>
    intro v' _ h
    rw [fwLoop, dif_pos hc] at h
    split at h
    · cases h
    · next w hs => rw [hr] at hs; cases hs
  | case2 v hc w hw ih =>
    intro v' hv h
    rw [fwLoop_step hc.1 hc.2 hw] at h
    obtain ⟨hr, hle, hlt⟩ := fwStep_reached hc.1 hv hw
    obtain ⟨hr', hle', -⟩ := ih v' hr h
    exact ⟨hr', hle.trans hle', fun _ _ hp => (hlt hp).trans_le hle'⟩
  | case3 v hc =>
    intro v' hv h
    rw [fwLoop, dif_neg hc] at h
    cases h
    exact ⟨hv, le_refl _, fun h1 h2 => by rw [h1] at h2; cases h2⟩

/-- An accepted name takes at least one byte of the source, and none beyond its end. -/
theorem fromwire_cused {current : ℕ} {downcase : Bool} {d : Decoded}
    (hc : current ≤ source.length) (h : fromwire source current avail downcase allowed = .ok d) :
    0 < d.cused ∧ current + d.cused ≤ source.length := by
  unfold fromwire at h
  split at h
  · cases h
  next v hv =>
    split_ifs at h with hdone
    cases h
    have hinit : (fwInit current).Reached source current := ⟨by simpa [fwInit] using hc, fun _ => rfl⟩
    obtain ⟨hr, -, hlt⟩ := fwLoop_reached ⟨source, min avail 255, downcase, allowed⟩ current _ v hinit hv
    exact ⟨hlt rfl hdone rfl, hr.used_le⟩

/-! ### Names that stand uncompressed -/

theorem encodes_of_labels (s : ℕ) : ∀ (ls : List Label) (p : ℕ), (∀ l ∈ ls, l ≠ [] ∧ l.length ≤ 63) →
    Name.ndata ⟨ls ++ [[]]⟩ <+: buf.drop p → Encodes buf s p (p + Name.length ⟨ls ++ [[]]⟩) (ls ++ [[]])
  | [], _, _, h => .root h
  | l :: ls, p, hl, h => by
    obtain ⟨hne, hle⟩ := hl l mem_cons_self
    obtain ⟨rest, hrest⟩ := h
    have hcons : Name.ndata ⟨l :: ls ++ [[]]⟩ = l.wire ++ Name.ndata ⟨ls ++ [[]]⟩ := rfl
    have hwire : l.wire.length = l.length + 1 := by simp [Label.wire]
    rw [hcons, append_assoc] at hrest
    have hdrop : buf.drop (p + l.length + 1) = Name.ndata ⟨ls ++ [[]]⟩ ++ rest := by
      rw [Nat.add_assoc, ← drop_drop, ← hrest, ← hwire, drop_left]
    have hr := encodes_of_labels s ls (p + l.length + 1) (fun x hx => hl x (mem_cons_of_mem l hx)) ⟨rest, hdrop.symm⟩
    have hend : p + Name.length ⟨l :: ls ++ [[]]⟩ = p + l.length + 1 + Name.length ⟨ls ++ [[]]⟩ := by
      rw [cons_append, Name.length_cons]
      omega
    rw [hend]
    exact .label hne hle ⟨_, hrest⟩ hr

/-- An absolute name that stands uncompressed in a buffer. -/
theorem encodes_of_ndata (s : ℕ) (n : AbsName) (h : n.name.ndata <+: buf.drop p) :
    Encodes buf s p (p + n.name.length) n.name.labels := by
  have hlabels : n.name = ⟨n.name.labels.dropLast ++ [[]]⟩ := congrArg Name.mk n.labels_eq
  rw [hlabels] at h ⊢
  exact encodes_of_labels s _ p (fun l hl => ⟨n.valid.inner_ne l hl, n.valid.label_le l (dropLast_subset _ hl)⟩) h

/-- Whatever methods are allowed, an uncompressed name is read back. -/
theorem fromwire_of_ndata (allowed : UInt32) (n : AbsName)
    (h : n.name.ndata <+: source.drop p) (havail : n.name.length ≤ avail) :
    ∃ labels offsets, fromwire source p avail false allowed = .ok ⟨n.name.ndata, labels, offsets, n.name.length⟩ := by
  have henc := encodes_of_ndata p n h
  have hread : fromwire source p avail false allowed = _ :=
    fromwire_of_encodes avail false henc (le_refl p) n.valid.length_le havail (.inr rfl)
  rw [Nat.add_sub_cancel_left] at hread
  exact ⟨_, _, hread⟩

end Bind9
