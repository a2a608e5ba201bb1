import Mathlib.Data.List.GetD
import Mathlib.Tactic

/-! # Network addresses, prefixes and masks

`isc_netaddr_eqprefix`, `isc_netaddr_prefixok` and `isc_netaddr_masktoprefixlen` of
`lib/isc/netaddr.c`.  An index behind the bytes of an address is the result `outside`. -/

namespace Bind9.Netaddr

open List

inductive Result where
  | maskNoncontig
  | range
  | failure
  | notimplemented
  | outside
deriving DecidableEq, Repr

inductive Family where
  | inet
  | inet6
  | other
deriving DecidableEq, Repr

def Family.ipbytes : Family → ℕ
  | .inet => 4
  | .inet6 => 16
  | .other => 0

/-- An `isc_netaddr_t`, in network byte order. -/
structure NetAddr where
  family : Family
  zone : ℕ
  bytes : List UInt8
  length : bytes.length = family.ipbytes
deriving DecidableEq

/-! ### The functions -/

def index (p : List UInt8) (i : ℕ) : Except Result UInt8 :=
  match p[i]? with
  | some c => .ok c
  | none => .error .outside

/-- `memcmp(p, q, n) == 0`. -/
def memcmp (p q : List UInt8) (n : ℕ) : Except Result Bool :=
  if n ≤ p.length ∧ n ≤ q.length then .ok (p.take n == q.take n) else .error .outside

def eqprefix (a b : NetAddr) (prefixlen : ℕ) : Except Result Bool :=
  if a.family ≠ b.family then .ok false
  else if a.zone ≠ b.zone ∧ b.zone ≠ 0 then .ok false
  else if a.family = .other then .ok false
  else
    let prefixlen := if prefixlen > a.family.ipbytes * 8 then a.family.ipbytes * 8 else prefixlen
    let nbytes := prefixlen / 8
    let nbits := prefixlen % 8
    match (if 0 < nbytes then memcmp a.bytes b.bytes nbytes else .ok true) with
    | .error r => .error r
    | .ok false => .ok false
    | .ok true =>
      if 0 < nbits then do
        let bytea ← index a.bytes nbytes
        let byteb ← index b.bytes nbytes
        let mask : UInt8 := 0xFF <<< UInt8.ofNat (8 - nbits)
        .ok (bytea &&& mask == byteb &&& mask)
      else .ok true

def prefixok (na : NetAddr) (prefixlen : ℕ) : Except Result Unit :=
  if na.family = .other then .error .notimplemented
  else if prefixlen > na.family.ipbytes * 8 then .error .range
  else do
    let nbytes := prefixlen / 8
    let nbits := prefixlen % 8
    let nbytes ← if nbits ≠ 0 then do
        let c ← index na.bytes nbytes
        if c &&& (0xff >>> UInt8.ofNat nbits) ≠ 0 then .error .failure else .ok (nbytes + 1)
      else .ok nbytes
    if ← memcmp (na.bytes.drop nbytes) (replicate 16 0) (na.family.ipbytes - nbytes) then .ok ()
    else .error .failure

/-- `for (i = 0; i < ipbytes; i++) if (p[i] != 0xFF) break;` -/
def onesLoop (p : List UInt8) (ipbytes i : ℕ) : Except Result ℕ :=
  if i < ipbytes then do
    let c ← index p i
    if c ≠ 0xFF then .ok i else onesLoop p ipbytes (i + 1)
  else .ok i
termination_by ipbytes - i

/-- `while ((c & 0x80) != 0 && nbits < 8) { c <<= 1; nbits++; }`; the first argument is `8 - nbits`. -/
def shiftLoop : ℕ → UInt32 → UInt32 × ℕ
  | 0, c => (c, 8)
  | k + 1, c => if c &&& 0x80 ≠ 0 then shiftLoop k (c <<< 1) else (c, 8 - (k + 1))

/-- The last loop, which increments its counter twice in a round. -/
def tailLoop (p : List UInt8) (ipbytes i : ℕ) : Except Result Unit :=
  if i < ipbytes then do
    let c ← index p i
    if c ≠ 0 then .error .maskNoncontig else tailLoop p ipbytes (i + 1 + 1)
  else .ok ()
termination_by ipbytes - i

def masktoprefixlen (s : NetAddr) : Except Result ℕ :=
  if s.family = .other then .error .notimplemented
  else do
    let ipbytes := s.family.ipbytes
    let nbytes ← onesLoop s.bytes ipbytes 0
    if nbytes < ipbytes then do
      let c ← index s.bytes nbytes
      let (c, nbits) := shiftLoop 8 c.toUInt32
      if c &&& 0xFF ≠ 0 then .error .maskNoncontig
      else do
        tailLoop s.bytes ipbytes (nbytes + 1)
        .ok (nbytes * 8 + nbits)
    else .ok (nbytes * 8)

/-! ### Masks -/

/-- Bit `i` of an address, the first one first. -/
def bitAt (p : List UInt8) (i : ℕ) : Bool := (p.getD (i / 8) 0).toBitVec.getMsbD (i % 8)

/-- `n` one bits followed only by zero bits. -/
def IsMask (p : List UInt8) (n : ℕ) : Prop := n ≤ 8 * p.length ∧ ∀ i < 8 * p.length, bitAt p i = decide (i < n)

def maskBy (a m : List UInt8) : List UInt8 := zipWith (· &&& ·) a m

/-- `a AND (NOT m)`. -/
def hostPart (a m : List UInt8) : List UInt8 := zipWith (fun x y => x &&& ~~~y) a m

/-- The byte with `t` leading ones. -/
def ones (t : ℕ) : UInt8 := if 8 ≤ t then 0xFF else if t = 0 then 0 else 0xFF <<< UInt8.ofNat (8 - t)

/-- The last loop, started at byte `i`, meets zeros only. -/
def Seen (p : List UInt8) (i : ℕ) : Prop := ∀ j, i + 2 * j < p.length → p.getD (i + 2 * j) 0 = 0

/-- The byte behind the full ones is a mask, no byte that the last loop looks at is set, and one that
it jumps over is. -/
def Overlooked (p : List UInt8) : Prop :=
  ∃ k < p.length, (∀ j < k, p.getD j 0 = 0xFF) ∧ (∃ r < 8, p.getD k 0 = ones r) ∧
    Seen p (k + 1) ∧ ∃ j, k + 2 + 2 * j < p.length ∧ p.getD (k + 2 + 2 * j) 0 ≠ 0

/-- The three functions agree on the mask `m` and on the addresses `a` and `b` of its family. -/
structure Consistent (m a b : NetAddr) : Prop where
  mask : ∀ n, masktoprefixlen m = .ok n ↔ IsMask m.bytes n
  noncontig : (∀ n, ¬ IsMask m.bytes n) → masktoprefixlen m = .error .maskNoncontig
  eqprefix : ∀ n, IsMask m.bytes n →
    eqprefix a b n = .ok (decide (maskBy a.bytes m.bytes = maskBy b.bytes m.bytes))
  prefixok : ∀ n, IsMask m.bytes n → prefixok a n =
    if hostPart a.bytes m.bytes = replicate a.bytes.length 0 then .ok () else .error .failure

variable {p q : List UInt8} {n k i t : ℕ} {c : UInt8}

theorem ones_bit (ht : i < 8) : (ones t).toBitVec.getMsbD i = decide (i < t) := by
  unfold ones
  split_ifs with h8 h0
  · rw [decide_eq_true (by omega)]
    interval_cases i <;> rfl
  · subst h0
    interval_cases i <;> rfl
  · interval_cases t
    all_goals first | omega | (interval_cases i <;> rfl)

theorem byte_ext {c d : UInt8} (h : ∀ i < 8, c.toBitVec.getMsbD i = d.toBitVec.getMsbD i) : c = d := by
  apply UInt8.eq_of_toBitVec_eq
  apply BitVec.eq_of_getMsbD_eq
  intro i hi
  exact h i hi

theorem isMask_iff : IsMask p n ↔ n ≤ 8 * p.length ∧ ∀ j < p.length, p.getD j 0 = ones (n - 8 * j) := by
  have hbit : ∀ j i, i < 8 → bitAt p (8 * j + i) = (p.getD j 0).toBitVec.getMsbD i := by
    intro j i hi
    unfold bitAt
    rw [show (8 * j + i) / 8 = j by omega, show (8 * j + i) % 8 = i by omega]
  refine and_congr_right fun _ => ⟨fun h j hj => byte_ext fun i hi => ?_, fun h i hi => ?_⟩
  · rw [← hbit j i hi, h _ (by omega), ones_bit hi]
    exact decide_eq_decide.2 (by omega)
  · have hi8 : i % 8 < 8 := Nat.mod_lt _ (by omega)
    rw [← Nat.div_add_mod i 8, hbit _ _ hi8, h _ (by omega), ones_bit hi8]
    exact decide_eq_decide.2 (by omega)

theorem ones_ff : ones t = 0xFF ↔ 8 ≤ t := by
  constructor
  · intro h
    by_contra hlt
    have hbit := @ones_bit 7 t (by omega)
    rw [h, decide_eq_false (by omega)] at hbit
    cases hbit
  · intro h
    exact if_pos h

/-- The masks that the function accepts, with the lengths it finds. -/
def Accepts (p : List UInt8) (n : ℕ) : Prop :=
  (n = 8 * p.length ∧ ∀ j < p.length, p.getD j 0 = 0xFF) ∨
    ∃ k < p.length, ∃ r < 8, (∀ j < k, p.getD j 0 = 0xFF) ∧ p.getD k 0 = ones r ∧ n = 8 * k + r ∧
      Seen p (k + 1)

theorem ones_inj {r r' : ℕ} (hr : r < 8) (hr' : r' < 8) (h : ones r = ones r') : r = r' := by
  have hall : ∀ x y : Fin 8, ones x.val = ones y.val → x.val = y.val := by decide
  exact hall ⟨r, hr⟩ ⟨r', hr'⟩ h

theorem Accepts.unique {n' : ℕ} (h : Accepts p n) (h' : Accepts p n') : n = n' := by
  have hff : ∀ {k r}, r < 8 → p.getD k 0 = ones r → p.getD k 0 ≠ 0xFF := by
    intro k r hr he hk
    have := ones_ff.1 (he.symm.trans hk)
    omega
  obtain ⟨rfl, hall⟩ | ⟨k, hk, r, hr, hfront, he, rfl, -⟩ := h
  · obtain ⟨rfl, -⟩ | ⟨k', hk', r', hr', -, he', -⟩ := h'
    · rfl
    · exact absurd (hall k' hk') (hff hr' he')
  obtain ⟨rfl, hall'⟩ | ⟨k', hk', r', hr', hfront', he', rfl, -⟩ := h'
  · exact absurd (hall' k hk) (hff hr he)
  rcases lt_trichotomy k k' with hlt | rfl | hlt
  · exact absurd (hfront' k hlt) (hff hr he)
  · rw [ones_inj hr hr' (he.symm.trans he')]
  · exact absurd (hfront k' hlt) (hff hr' he')

theorem IsMask.accepts (h : IsMask p n) : Accepts p n := by
  obtain ⟨hle, hbytes⟩ := isMask_iff.1 h
  rcases Nat.eq_or_lt_of_le hle with rfl | hlt
  · exact .inl ⟨rfl, fun j hj => (hbytes j hj).trans (ones_ff.2 (by omega))⟩
  refine .inr ⟨n / 8, by omega, n % 8, by omega, fun j hj => ?_, ?_, by omega, fun j hj => ?_⟩
  · exact (hbytes j (by omega)).trans (ones_ff.2 (by omega))
  · rw [hbytes _ (by omega), show n - 8 * (n / 8) = n % 8 by omega]
  · rw [hbytes _ hj, show n - 8 * (n / 8 + 1 + 2 * j) = 0 by omega]
    rfl

theorem accepts_isMask_iff : (∀ n, Accepts p n → IsMask p n) ↔ ¬ Overlooked p := by
  constructor
  · rintro h ⟨k, hk, hfront, ⟨r, hr, he⟩, hseen, j, hj, hnz⟩
    have hmask := h _ (.inr ⟨k, hk, r, hr, hfront, he, rfl, hseen⟩)
    have := (isMask_iff.1 hmask).2 _ hj
    rw [show 8 * k + r - 8 * (k + 2 + 2 * j) = 0 by omega] at this
    exact hnz this
  · rintro hover n (⟨rfl, hall⟩ | ⟨k, hk, r, hr, hfront, he, rfl, hseen⟩)
    · exact isMask_iff.2 ⟨le_refl _, fun j hj => (hall j hj).trans (ones_ff.2 (by omega)).symm⟩
    · refine isMask_iff.2 ⟨by omega, fun j hj => ?_⟩
      rcases lt_trichotomy j k with hjk | rfl | hjk
      · rw [hfront j hjk, ones_ff.2 (by omega)]
      · rw [he, Nat.add_sub_cancel_left]
      · rw [show 8 * k + r - 8 * j = 0 by omega]
        -- the bytes behind are looked at or jumped over, by turns
        obtain ⟨i, hi | hi⟩ := Nat.even_or_odd' (j - (k + 1))
        · have := hseen i (by omega)
          rwa [show k + 1 + 2 * i = j by omega] at this
        · by_contra hnz
          exact hover ⟨k, hk, hfront, ⟨r, hr, he⟩, hseen, i, by omega, by rwa [show k + 2 + 2 * i = j by omega]⟩

/-! ### The loops -/

theorem index_eq (h : i < p.length) : index p i = .ok (p.getD i 0) := by
  unfold index
  rw [getElem?_eq_getElem h, getD_eq_getElem _ _ h]

theorem onesLoop_eq (i : ℕ) (hi : i ≤ p.length) : ∃ k, onesLoop p p.length i = .ok k ∧ i ≤ k ∧ k ≤ p.length ∧
    (∀ j, i ≤ j → j < k → p.getD j 0 = 0xFF) ∧ (k < p.length → p.getD k 0 ≠ 0xFF) := by
  induction hd : p.length - i generalizing i with
  | zero =>
    refine ⟨i, ?_, le_refl i, hi, fun j hj hj' => by omega, fun h => by omega⟩
    rw [onesLoop, if_neg (by omega)]
  | succ d ih =>
    have hlt : i < p.length := by omega
    rw [onesLoop, if_pos hlt, index_eq hlt]
    by_cases hc : p.getD i 0 ≠ 0xFF
    · exact ⟨i, if_pos hc, le_refl i, hi, fun j hj hj' => by omega, fun _ => hc⟩
    obtain ⟨k, hrun, hik, hk, hones, hstop⟩ := ih (i + 1) (by omega) (by omega)
    refine ⟨k, (if_neg hc).trans hrun, by omega, hk, fun j hj hj' => ?_, hstop⟩
    rcases Nat.eq_or_lt_of_le hj with rfl | hj
    · exact not_not.1 hc
    · exact hones j hj hj'

theorem tailLoop_eq (i : ℕ) : (Seen p i → tailLoop p p.length i = .ok ()) ∧
    (¬ Seen p i → tailLoop p p.length i = .error .maskNoncontig) := by
  induction hd : p.length - i using Nat.strong_induction_on generalizing i with
  | h d ih =>
    rw [tailLoop]
    by_cases hlt : i < p.length
    · have hnext : Seen p i ↔ p.getD i 0 = 0 ∧ Seen p (i + 1 + 1) := by
        refine ⟨fun h => ⟨h 0 hlt, fun j hj => ?_⟩, fun h j hj => ?_⟩
        · have := h (j + 1) (by omega)
          rwa [show i + 2 * (j + 1) = i + 1 + 1 + 2 * j by omega] at this
        · cases j with
          | zero => exact h.1
          | succ j =>
            have := h.2 j (by omega)
            rwa [show i + 1 + 1 + 2 * j = i + 2 * (j + 1) by omega] at this
      obtain ⟨hok, herr⟩ := ih _ (by omega) (i + 1 + 1) rfl
      rw [if_pos hlt, index_eq hlt, hnext]
      by_cases hc : p.getD i 0 = 0
      · exact ⟨fun h => (if_neg (not_not.2 hc)).trans (hok h.2), fun h => (if_neg (not_not.2 hc)).trans
          (herr fun hs => h ⟨hc, hs⟩)⟩
      · exact ⟨fun h => absurd h.1 hc, fun _ => if_pos hc⟩
    · rw [if_neg hlt]
      exact ⟨fun _ => rfl, fun h => absurd (fun j hj => by omega) h⟩

theorem shiftLoop_eq (c : UInt8) : (∀ r < 8, c = ones r → shiftLoop 8 c.toUInt32 = (c.toUInt32 <<< UInt32.ofNat r, r)) ∧
    ((shiftLoop 8 c.toUInt32).1 &&& 0xFF = 0 → c ≠ 0xFF → ∃ r < 8, c = ones r) ∧
      ∀ r < 8, (ones r).toUInt32 <<< UInt32.ofNat r &&& 0xFF = 0 := by
  have hones : ∀ r < 8, shiftLoop 8 (ones r).toUInt32 = ((ones r).toUInt32 <<< UInt32.ofNat r, r) := by decide
  have hall : ∀ x : Fin 256, let c := UInt8.ofNat x.val
      (shiftLoop 8 c.toUInt32).1 &&& 0xFF = 0 → c ≠ 0xFF → ∃ r : Fin 8, c = ones r.val := by
    decide +kernel
  have hc := hall ⟨c.toNat, c.toNat_lt⟩
  rw [UInt8.ofNat_toNat] at hc
  refine ⟨fun r hr h => h ▸ hones r hr, fun h hff => ?_, by decide⟩
  obtain ⟨r, hr⟩ := hc h hff
  exact ⟨r.val, r.isLt, hr⟩

/-! ### The functions on masks -/

variable {m a b : NetAddr}

theorem masktoprefixlen_eq (hf : m.family ≠ .other) : (∃ n, masktoprefixlen m = .ok n ∧ Accepts m.bytes n) ∨
    masktoprefixlen m = .error .maskNoncontig ∧ ∀ n, ¬ Accepts m.bytes n := by
  obtain ⟨k, hrun, -, hle, hfront, hstop⟩ := onesLoop_eq (p := m.bytes) 0 (Nat.zero_le _)
  rw [masktoprefixlen, if_neg hf, ← m.length]
  dsimp only
  rw [hrun]
  rcases Nat.eq_or_lt_of_le hle with hk | hk
  · refine .inl ⟨_, if_neg (by omega), .inl ⟨by rw [hk, Nat.mul_comm], fun j hj => hfront j (Nat.zero_le j) (by omega)⟩⟩
  obtain ⟨hones, hzero, hshift⟩ := shiftLoop_eq (m.bytes.getD k 0)
  -- another byte cannot be the first one that is not all ones
  have hat : ∀ n, Accepts m.bytes n → (∃ r < 8, m.bytes.getD k 0 = ones r) ∧
      Seen m.bytes (k + 1) := by
    rintro n (⟨-, hall⟩ | ⟨k', hk', r, hr, hfront', he, -, hseen⟩)
    · exact absurd (hall k hk) (hstop hk)
    · rcases lt_trichotomy k' k with hlt | rfl | hlt
      · have := ones_ff.1 (he.symm.trans (hfront k' (Nat.zero_le _) hlt))
        omega
      · exact ⟨⟨r, hr, he⟩, hseen⟩
      · exact absurd (hfront' k hlt) (hstop hk)
  simp only [bind, Except.bind, if_pos hk, index_eq hk]
  by_cases hex : ∃ r < 8, m.bytes.getD k 0 = ones r
  · obtain ⟨r, hr, he⟩ := hex
    rw [hones r hr he, he, if_neg (not_not.2 (hshift r hr))]
    by_cases hall : Seen m.bytes (k + 1)
    · rw [(tailLoop_eq _).1 hall]
      exact .inl ⟨_, rfl, .inr ⟨k, hk, r, hr, fun j hj => hfront j (Nat.zero_le j) hj, he, by omega, hall⟩⟩
    · rw [(tailLoop_eq _).2 hall]
      exact .inr ⟨rfl, fun n h => hall (hat n h).2⟩
  · rw [if_pos (fun hc => hex (hzero hc (hstop hk)))]
    exact .inr ⟨rfl, fun n h => hex (hat n h).1⟩

theorem masktoprefixlen_ok (hf : m.family ≠ .other) : masktoprefixlen m = .ok n ↔ Accepts m.bytes n := by
  obtain ⟨n', hok, hacc⟩ | ⟨herr, hno⟩ := masktoprefixlen_eq hf
  · rw [hok]
    exact ⟨fun h => Except.ok.inj h ▸ hacc, fun h => by rw [h.unique hacc]⟩
  · rw [herr]
    exact iff_of_false (by simp) (hno n)

theorem list_ext (h : p.length = q.length) : p = q ↔ ∀ j < p.length, p.getD j 0 = q.getD j 0 := by
  refine ⟨fun he j _ => by rw [he], fun hj => ext_getElem h fun i h1 h2 => ?_⟩
  have := hj i h1
  rwa [getD_eq_getElem _ _ h1, getD_eq_getElem _ _ h2] at this

theorem zipWith_getD {f : UInt8 → UInt8 → UInt8} {j : ℕ} (hp : j < p.length) (hq : j < q.length) :
    (zipWith f p q).getD j 0 = f (p.getD j 0) (q.getD j 0) := by
  rw [getD_eq_getElem _ _ (by simp; omega), getElem_zipWith, getD_eq_getElem _ _ hp,
    getD_eq_getElem _ _ hq]

theorem memcmp_eq (hp : n ≤ p.length) (hq : n ≤ q.length) :
    memcmp p q n = .ok (decide (∀ j < n, p.getD j 0 = q.getD j 0)) := by
  rw [memcmp, if_pos ⟨hp, hq⟩]
  congr 1
  rw [Bool.eq_iff_iff, beq_iff_eq, decide_eq_true_eq, list_ext (by simp; omega)]
  have htake : ∀ (l : List UInt8) j, j < n → (l.take n).getD j 0 = l.getD j 0 := by
    intro l j hj
    rw [getD_eq_getElem?_getD, getElem?_take_of_lt hj, getD_eq_getElem?_getD]
  rw [length_take, Nat.min_eq_left hp]
  refine forall₂_congr fun j hj => ?_
  rw [htake p j hj, htake q j hj]

theorem forall_masked {P : ℕ → UInt8 → Prop} (h : n ≤ 8 * p.length) : (∀ j < p.length, P j (ones (n - 8 * j))) ↔
    (∀ j < n / 8, P j 0xFF) ∧ (0 < n % 8 → P (n / 8) (ones (n % 8))) ∧ ∀ j < p.length, n ≤ 8 * j → P j 0 := by
  have hfull : ∀ j, j < n / 8 → ones (n - 8 * j) = 0xFF := fun j hj => ones_ff.2 (by omega)
  have hzero : ∀ j, n ≤ 8 * j → ones (n - 8 * j) = 0 := by
    intro j hj
    rw [show n - 8 * j = 0 by omega]
    rfl
  have hmid : ones (n - 8 * (n / 8)) = ones (n % 8) := by rw [show n - 8 * (n / 8) = n % 8 by omega]
  constructor
  · intro hall
    refine ⟨fun j hj => hfull j hj ▸ hall j (by omega), fun hr => hmid ▸ hall _ (by omega), fun j hj hj' => ?_⟩
    exact hzero j hj' ▸ hall j hj
  · rintro ⟨hf, hm, hz⟩ j hj
    rcases lt_trichotomy j (n / 8) with hlt | rfl | hlt
    · exact (hfull j hlt).symm ▸ hf j hlt
    · rcases Nat.eq_zero_or_pos (n % 8) with hr | hr
      · exact (hzero (n / 8) (by omega)).symm ▸ hz (n / 8) hj (by omega)
      · exact hmid.symm ▸ hm hr
    · exact (hzero j (by omega)).symm ▸ hz j hj (by omega)

theorem eqprefix_mask (hf : m.family ≠ .other) (ha : a.family = m.family) (hb : b.family = m.family)
    (hz : a.zone = b.zone) (h : IsMask m.bytes n) :
    eqprefix a b n = .ok (decide (maskBy a.bytes m.bytes = maskBy b.bytes m.bytes)) := by
  obtain ⟨hle, hbytes⟩ := isMask_iff.1 h
  have hla : a.bytes.length = m.bytes.length := by rw [a.length, m.length, ha]
  have hlb : b.bytes.length = m.bytes.length := by rw [b.length, m.length, hb]
  have hmasked : maskBy a.bytes m.bytes = maskBy b.bytes m.bytes ↔ (∀ j < n / 8, a.bytes.getD j 0 = b.bytes.getD j 0) ∧
      (0 < n % 8 → a.bytes.getD (n / 8) 0 &&& ones (n % 8) = b.bytes.getD (n / 8) 0 &&& ones (n % 8)) := by
    rw [list_ext (by simp [maskBy, hla, hlb]), maskBy, maskBy, length_zipWith, hla, Nat.min_self]
    have hzip : (∀ j < m.bytes.length, (zipWith (· &&& ·) a.bytes m.bytes).getD j 0 =
        (zipWith (· &&& ·) b.bytes m.bytes).getD j 0) ↔ ∀ j < m.bytes.length,
          a.bytes.getD j 0 &&& ones (n - 8 * j) = b.bytes.getD j 0 &&& ones (n - 8 * j) := by
      refine forall₂_congr fun j hj => ?_
      rw [zipWith_getD (by omega) hj, zipWith_getD (by omega) hj, hbytes j hj]
    rw [hzip, forall_masked (P := fun j c => a.bytes.getD j 0 &&& c = b.bytes.getD j 0 &&& c) hle]
    have hff : ∀ c : UInt8, c &&& 0xFF = c := fun c => UInt8.and_neg_one
    simp only [hff, UInt8.and_zero, implies_true, and_true]
  have hcmp : (if 0 < n / 8 then memcmp a.bytes b.bytes (n / 8) else .ok true) =
      .ok (decide (∀ j < n / 8, a.bytes.getD j 0 = b.bytes.getD j 0)) := by
    split_ifs with hq
    · exact memcmp_eq (by omega) (by omega)
    · rw [decide_eq_true (fun j hj => by omega)]
  rw [ eqprefix, if_neg (not_not.2 (ha.trans hb.symm)), if_neg (fun hzz => hzz.1 hz), if_neg (ha ▸ hf), ← a.length,
    if_neg (by omega)]
  dsimp only
  rw [hcmp]
  by_cases hall : ∀ j < n / 8, a.bytes.getD j 0 = b.bytes.getD j 0
  · rw [decide_eq_true hall]
    by_cases hr : 0 < n % 8
    · have hones : (0xFF : UInt8) <<< UInt8.ofNat (8 - n % 8) = ones (n % 8) := by
        rw [ones, if_neg (by omega), if_neg (by omega)]
      simp only [if_pos hr, index_eq (show n / 8 < a.bytes.length by omega), index_eq (show n / 8 < b.bytes.length by omega),
        bind, Except.bind, hones]
      congr 1
      rw [Bool.eq_iff_iff, beq_iff_eq, decide_eq_true_eq, hmasked]
      exact ⟨fun he => ⟨hall, fun _ => he⟩, fun he => he.2 hr⟩
    · simp only [if_neg hr]
      rw [decide_eq_true (hmasked.2 ⟨hall, fun h => absurd h hr⟩)]
  · rw [decide_eq_false hall, decide_eq_false (fun he => hall (hmasked.1 he).1)]

theorem prefixok_mask (hf : m.family ≠ .other) (ha : a.family = m.family) (h : IsMask m.bytes n) : prefixok a n =
    if hostPart a.bytes m.bytes = replicate a.bytes.length 0 then .ok () else .error .failure := by
  obtain ⟨hle, hbytes⟩ := isMask_iff.1 h
  have hla : a.bytes.length = m.bytes.length := by rw [a.length, m.length, ha]
  have hle16 : a.bytes.length ≤ 16 := by
    rw [a.length]
    cases a.family <;> decide
  have hhost : hostPart a.bytes m.bytes = replicate a.bytes.length 0 ↔
      (0 < n % 8 → a.bytes.getD (n / 8) 0 &&& ~~~ones (n % 8) = 0) ∧
        ∀ j < m.bytes.length, n ≤ 8 * j → a.bytes.getD j 0 = 0 := by
    rw [list_ext (by simp [hostPart, hla]), hostPart, length_zipWith, hla, Nat.min_self]
    have hzip : (∀ j < m.bytes.length, (zipWith (fun x y => x &&& ~~~y) a.bytes m.bytes).getD j 0 =
        (replicate m.bytes.length 0).getD j 0) ↔
        ∀ j < m.bytes.length, a.bytes.getD j 0 &&& ~~~ones (n - 8 * j) = 0 := by
      refine forall₂_congr fun j hj => ?_
      rw [zipWith_getD (by omega) hj, hbytes j hj, getD_replicate _ hj]
    rw [hzip, forall_masked (P := fun j c => a.bytes.getD j 0 &&& ~~~c = 0) hle]
    have hff : ∀ c : UInt8, c &&& ~~~0xFF = 0 := fun c => UInt8.and_zero
    have h0 : ∀ c : UInt8, c &&& ~~~0 = c := fun c => UInt8.and_neg_one
    simp only [hff, h0, implies_true, true_and]
  -- the bytes from the first one without network bits
  have hrest : ∀ s, n ≤ 8 * s → 8 * s < n + 8 → memcmp (a.bytes.drop s) (replicate 16 0) (a.bytes.length - s) =
      .ok (decide (∀ j < m.bytes.length, n ≤ 8 * j → a.bytes.getD j 0 = 0)) := by
    intro s hs hs'
    rw [memcmp_eq (by simp) (by simp; omega)]
    congr 1
    refine decide_eq_decide.2 ⟨fun hj j hlt hn => ?_, fun hj i hi => ?_⟩
    · have := hj (j - s) (by omega)
      rwa [getD_replicate _ (by omega), getD_eq_getElem?_getD, getElem?_drop,
        ← getD_eq_getElem?_getD, show s + (j - s) = j by omega] at this
    · rw [getD_replicate _ (by omega), getD_eq_getElem?_getD, getElem?_drop, ← getD_eq_getElem?_getD]
      exact hj _ (by omega) (by omega)
  rw [prefixok, if_neg (ha ▸ hf), ← a.length, if_neg (by omega)]
  dsimp only
  by_cases hr : n % 8 = 0
  · simp only [hr, bind, Except.bind, ne_eq, not_true_eq_false, if_false, hrest (n / 8) (by omega) (by omega)]
    by_cases hz : ∀ j < m.bytes.length, n ≤ 8 * j → a.bytes.getD j 0 = 0
    · rw [if_pos (decide_eq_true hz), if_pos (hhost.2 ⟨fun h => by omega, hz⟩)]
    · rw [if_neg (by simpa using hz), if_neg (fun h => hz (hhost.1 h).2)]
  have hshift : (0xff : UInt8) >>> UInt8.ofNat (n % 8) = ~~~ones (n % 8) := by
    have hall : ∀ r : Fin 8, r.val ≠ 0 → (0xff : UInt8) >>> UInt8.ofNat r.val = ~~~ones r.val := by decide
    exact hall ⟨n % 8, by omega⟩ hr
  simp only [if_pos hr, bind, Except.bind, index_eq (show n / 8 < a.bytes.length by omega), hshift]
  by_cases hc : a.bytes.getD (n / 8) 0 &&& ~~~ones (n % 8) = 0
  · simp only [hc, ne_eq, not_true_eq_false, if_false, hrest (n / 8 + 1) (by omega) (by omega)]
    by_cases hz : ∀ j < m.bytes.length, n ≤ 8 * j → a.bytes.getD j 0 = 0
    · rw [if_pos (decide_eq_true hz), if_pos (hhost.2 ⟨fun _ => hc, hz⟩)]
    · rw [if_neg (by simpa using hz), if_neg (fun h => hz (hhost.1 h).2)]
  · simp only [ne_eq, hc, not_false_eq_true, if_true]
    rw [if_neg (fun h => hc ((hhost.1 h).1 (by omega)))]

/-- The functions agree if and only if the mask has no byte that the last loop jumps over. -/
theorem consistent_iff (hf : m.family ≠ .other) (ha : a.family = m.family) (hb : b.family = m.family)
    (hz : a.zone = b.zone) : Consistent m a b ↔ ¬ Overlooked m.bytes := by
  rw [← accepts_isMask_iff]
  constructor
  · intro h n hn
    exact (h.mask n).1 ((masktoprefixlen_ok hf).2 hn)
  · intro h
    constructor
    · exact fun n => (masktoprefixlen_ok hf).trans ⟨h n, IsMask.accepts⟩
    · intro hno
      obtain ⟨n, -, hn⟩ | ⟨herr, -⟩ := masktoprefixlen_eq hf
      · exact absurd (h n hn) (hno n)
      · exact herr
    · exact fun n => eqprefix_mask hf ha hb hz
    · exact fun n => prefixok_mask hf ha

/-- An IPv4 address. -/
def inet (w x y z : UInt8) : NetAddr := ⟨.inet, 0, [w, x, y, z], rfl⟩

theorem consistent_24 : Consistent (inet 255 255 255 0) (inet 10 1 2 3) (inet 10 1 2 4) ↔
    ¬ Overlooked (inet 255 255 255 0).bytes :=
  consistent_iff (by decide) rfl rfl rfl

/-- A mask with a bit in its last byte passes for one of eight bits. -/
theorem masktoprefixlen_overlooks : masktoprefixlen (inet 255 0 0 1) = .ok 8 ∧ ∀ n, ¬ IsMask [255, 0, 0, 1] n := by
  constructor
  · rw [masktoprefixlen_ok (by decide)]
    refine .inr ⟨1, by decide, 0, by decide, by decide, rfl, rfl, fun j hj => ?_⟩
    have hj0 : j = 0 := by
      simp only [inet, length_cons, length_nil] at hj
      omega
    subst hj0
    rfl
  · intro n h
    have h1 := h.2 15 (by decide)
    have h2 := h.2 31 (by decide)
    rw [show bitAt [255, 0, 0, 1] 15 = false from rfl, eq_comm, decide_eq_false_iff_not] at h1
    rw [show bitAt [255, 0, 0, 1] 31 = true from rfl, eq_comm, decide_eq_true_eq] at h2
    omega

end Bind9.Netaddr
