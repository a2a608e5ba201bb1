import Bind9.CacheNode

/-! # Cache entries that contradict each other

Two entries of a node contradict each other when both answer for one type, or when one is a signature and the other denies the type that
it covers (`Rival`).  `add` marks the entries that a new one replaces, but not all of them: what it leaves as it is are the headers
`spared`.  As long as none of these contradicts the new entry, no two active entries of the node ever do. -/

namespace Bind9.Cache

open Rbtdb (RdType rrsig any)
open List hiding any
open Bool hiding decide_eq_false decide_eq_true

/-! ### Contradiction -/

/-- The header exists, is not stale, and its TTL has not run out. -/
def Header.active (h : Header) (now : ℕ) : Bool := !h.nonexistent && !h.stale && decide (now < h.rdhTtl)

/-- A header of this type answers for the type `t`. -/
def Answers (t x : RdType) : Prop := x = t ∨ x = nodata t.base ∨ x = ncacheAny

instance (t x : RdType) : Decidable (Answers t x) := inferInstanceAs (Decidable (x = t ∨ x = nodata t.base ∨ x = ncacheAny))

/-- A header of this type denies the type `c`. -/
def Denies (c : UInt16) (x : RdType) : Prop := x = nodata c ∨ x = ncacheAny

instance (c : UInt16) (x : RdType) : Decidable (Denies c x) := inferInstanceAs (Decidable (x = nodata c ∨ x = ncacheAny))

/-- The entry `x` denies the entry `y`, or the type that `y` signs. -/
def Against (x y : RdType) : Prop := x = ncacheAny ∨ x.base = 0 ∧ (y.base ≠ 0 ∧ x.covers = y.base ∨ y = sigOf x.covers)

/-- The entries contradict each other when both are active. -/
def Rival (x y : RdType) : Prop := x = y ∨ Against x y ∨ Against y x

/-- A header of the type `x`, before one of the type `y`, is what `add` finds in its place. -/
def Hides (x y : RdType) : Prop :=
  x = y ∨ x.base = 0 ∧ y.base ≠ 0 ∧ x.covers = y.base ∨ y.base = 0 ∧ x = ⟨y.covers, 0⟩ ∨ x.base = 0 ∧ y = ncacheAny

variable {x y t : RdType}

theorem Rival.symm (h : Rival x y) : Rival y x := by
  obtain rfl | h | h := h
  · exact .inl rfl
  · exact .inr (.inr h)
  · exact .inr (.inl h)

theorem rival_of_answers (h0 : t.base ≠ 0) (hx : Answers t x) (hy : Answers t y) : Rival x y := by
  obtain rfl | rfl | rfl := hx
  · obtain rfl | rfl | rfl := hy
    · exact .inl rfl
    · exact .inr (.inr (.inr ⟨rfl, Or.inl ⟨h0, rfl⟩⟩))
    · exact .inr (.inr (.inl rfl))
  · obtain rfl | rfl | rfl := hy
    · exact .inr (.inl (.inr ⟨rfl, Or.inl ⟨h0, rfl⟩⟩))
    · exact .inl rfl
    · exact .inr (.inr (.inl rfl))
  · exact .inr (.inl (.inl rfl))

theorem rival_of_denies {c : UInt16} (h : Denies c x) : Rival x (sigOf c) := by
  obtain rfl | rfl := h
  · exact .inr (.inl (.inr ⟨rfl, Or.inr rfl⟩))
  · exact .inr (.inl (.inl rfl))

theorem Hides.rival (h : Hides x y) : Rival x y := by
  obtain rfl | ⟨h0, hne, heq⟩ | ⟨h0, rfl⟩ | ⟨-, rfl⟩ := h
  · exact .inl rfl
  · exact .inr (.inl (.inr ⟨h0, Or.inl ⟨hne, heq⟩⟩))
  · by_cases hc : y.covers = 0
    · left
      rw [hc]
      exact (RdType.mk.injEq _ _ _ _ ▸ ⟨h0.symm, hc.symm⟩ : (⟨0, 0⟩ : RdType) = ⟨y.base, y.covers⟩)
    · exact .inr (.inr (.inr ⟨h0, Or.inl ⟨hc, rfl⟩⟩))
  · exact .inr (.inr (.inl rfl))

/-! ### The invariant -/

/-- What a lookup shows of a header, apart from its TTL and its proofs. -/
structure Entry where
  type : RdType
  trust : UInt16
  negative : Bool
  nxdomain : Bool
  optout : Bool
  rdata : List Rdata
deriving DecidableEq

def Header.entry (h : Header) : Entry := ⟨h.type, h.trust, h.negative, h.nxdomain, h.optout, h.rdata⟩

/-- Two headers in the order of the list: an active one is not hidden, and they do not contradict each other. -/
def Apart (now : ℕ) (c d : Chain) : Prop :=
  (d.top.active now = true → ¬ Hides c.top.type d.top.type) ∧
    (c.top.active now = true → d.top.active now = true → ¬ Rival c.top.type d.top.type)

/-- Nothing that contradicts the entry was accepted after it; the log has the newest entry first. -/
def Newest (log : List Entry) (e : Entry) : Prop := ∃ newer older, log = newer ++ e :: older ∧ ∀ l ∈ newer, ¬ Rival l.type e.type

/-- The invariant of a node at a time. -/
structure Inv (data : List Chain) (log : List Entry) (now : ℕ) : Prop where
  apart : data.Pairwise (Apart now)
  stale : ∀ c ∈ data, c.top.stale = true → c.top.rdhTtl ≤ now
  newest : ∀ c ∈ data, c.top.active now = true → Newest log c.top.entry

/-- A header with the same entry that is active only if the other one is. -/
structure Below (now : ℕ) (c' c : Chain) : Prop where
  type : c'.top.type = c.top.type
  active : c'.top.active now = true → c.top.active now = true ∧ c'.top.entry = c.top.entry
  stale : (c.top.stale = true → c.top.rdhTtl ≤ now) → c'.top.stale = true → c'.top.rdhTtl ≤ now

theorem Below.refl (now : ℕ) (c : Chain) : Below now c c := ⟨rfl, fun h => ⟨h, rfl⟩, fun h => h⟩

theorem Below.list_refl (now : ℕ) (cs : List Chain) : Forall₂ (Below now) cs cs := forall₂_same.2 (fun c _ => .refl now c)

theorem active_expire (h : Header) (now : ℕ) : h.expire.active now = false := by
  simp [Header.active, Header.expire]

theorem Below.expire (now : ℕ) (c : Chain) : Below now c.expire c := by
  refine ⟨rfl, fun h => ?_, fun _ _ => Nat.zero_le now⟩
  rw [show c.expire.top.active now = false from active_expire c.top now] at h
  cases h

theorem active_later {h : Header} {now now' : ℕ} (hle : now ≤ now') (hactive : h.active now' = true) : h.active now = true := by
  simp only [Header.active, and_eq_true, decide_eq_true_eq] at hactive ⊢
  exact ⟨hactive.1, lt_of_le_of_lt hle hactive.2⟩

variable {c d : Chain}

theorem Apart.below {now : ℕ} {c' d' : Chain} (h : Apart now c d) (hc : Below now c' c) (hd : Below now d' d) :
    Apart now c' d' := by
  constructor
  · intro hactive
    rw [hc.type, hd.type]
    exact h.1 (hd.active hactive).1
  · intro hactive hactive'
    rw [hc.type, hd.type]
    exact h.2 (hc.active hactive).1 (hd.active hactive').1

variable {cs xs ys before behind : List Chain}

theorem Below.exists_of_mem {now : ℕ} {cs' : List Chain} (h : Forall₂ (Below now) cs' cs) {c' : Chain} (hc : c' ∈ cs') :
    ∃ c ∈ cs, Below now c' c := by
  induction h with
  | nil => exact absurd hc not_mem_nil
  | cons hd _ ih =>
    obtain rfl | hc := mem_cons.1 hc
    · exact ⟨_, mem_cons_self, hd⟩
    · obtain ⟨c, hmem, hbelow⟩ := ih hc
      exact ⟨c, mem_cons_of_mem _ hmem, hbelow⟩

theorem Below.pairwise {now : ℕ} {cs' : List Chain} (h : Forall₂ (Below now) cs' cs) (hcs : cs.Pairwise (Apart now)) :
    cs'.Pairwise (Apart now) := by
  induction h with
  | nil => exact Pairwise.nil
  | @cons c' c cs' cs hd hrest ih =>
    obtain ⟨hhead, htail⟩ := pairwise_cons.1 hcs
    refine pairwise_cons.2 ⟨fun d' hd' => ?_, ih htail⟩
    obtain ⟨d, hmem, hbelow⟩ := Below.exists_of_mem hrest hd'
    exact (hhead d hmem).below hd hbelow

section inv

variable {data : List Chain} {log : List Entry} {now : ℕ}

theorem Inv.later (h : Inv data log now) {now' : ℕ} (hle : now ≤ now') : Inv data log now' where
  apart := h.apart.imp (fun hcd => ⟨fun hd => hcd.1 (active_later hle hd),
    fun hc hd => hcd.2 (active_later hle hc) (active_later hle hd)⟩)
  stale c hc hstale := (h.stale c hc hstale).trans hle
  newest c hc hactive := h.newest c hc (active_later hle hactive)

theorem Inv.below (h : Inv data log now) {data' : List Chain} (hb : Forall₂ (Below now) data' data) : Inv data' log now where
  apart := Below.pairwise hb h.apart
  stale c' hc' := by
    obtain ⟨c, hc, hbelow⟩ := Below.exists_of_mem hb hc'
    exact hbelow.stale (h.stale c hc)
  newest c' hc' hactive := by
    obtain ⟨c, hc, hbelow⟩ := Below.exists_of_mem hb hc'
    obtain ⟨hactive', hentry⟩ := hbelow.active hactive
    rw [hentry]
    exact h.newest c hc hactive'

theorem Inv.sublist (h : Inv data log now) {data' : List Chain} (hsub : data'.Sublist data) : Inv data' log now where
  apart := h.apart.sublist hsub
  stale c hc := h.stale c (hsub.subset hc)
  newest c hc := h.newest c (hsub.subset hc)

theorem Newest.cons {e l : Entry} (h : Newest log e) (hne : ¬ Rival l.type e.type) : Newest (l :: log) e := by
  obtain ⟨newer, older, rfl, hnewer⟩ := h
  exact ⟨l :: newer, older, rfl, forall_mem_cons.2 ⟨hne, hnewer⟩⟩

theorem Newest.self (e : Entry) : Newest (e :: log) e := ⟨[], log, rfl, fun _ hl => absurd hl not_mem_nil⟩

theorem Inv.not_both (h : Inv data log now) (hc : c ∈ data) (hd : d ∈ data) (hne : c ≠ d) (hc' : c.top.active now = true)
    (hd' : d.top.active now = true) : ¬ Rival c.top.type d.top.type := by
  have hpair : data.Pairwise (fun c d => c.top.active now = true → d.top.active now = true → ¬ Rival c.top.type d.top.type) :=
    h.apart.imp And.right
  have hsymm : Std.Symm (fun c d : Chain => c.top.active now = true → d.top.active now = true → ¬ Rival c.top.type d.top.type) :=
    ⟨fun c d hcd hd hc hrival => hcd hc hd hrival.symm⟩
  exact hpair.forall hc hd hne hc' hd'

/-- A header that is put between the others; nothing active that stays contradicts it. -/
theorem Inv.link (h : Inv (xs ++ ys) log now) {n : Chain} (hstale : n.top.stale = true → n.top.rdhTtl ≤ now)
    (hfirst : ∀ d ∈ xs, ¬ Hides d.top.type n.top.type)
    (hrest : ∀ d ∈ xs ++ ys, d.top.active now = true → ¬ Rival n.top.type d.top.type) :
    Inv (xs ++ n :: ys) (n.top.entry :: log) now := by
  obtain ⟨hxs, hys, hxy⟩ := pairwise_append.1 h.apart
  refine ⟨pairwise_append.2 ⟨hxs, pairwise_cons.2 ⟨fun d hd => ?_, hys⟩, fun c hc d hd => ?_⟩, fun c hc => ?_,
    fun c hc hactive => ?_⟩
  · have hmem : d ∈ xs ++ ys := mem_append_right _ hd
    exact ⟨fun hd' hhides => hrest d hmem hd' hhides.rival, fun _ hd' => hrest d hmem hd'⟩
  · obtain rfl | hd := mem_cons.1 hd
    · exact ⟨fun _ => hfirst c hc, fun hc' _ hrival => hrest c (mem_append_left _ hc) hc' hrival.symm⟩
    · exact hxy c hc d hd
  · obtain hc | hc := mem_append.1 hc
    · exact h.stale c (mem_append_left _ hc)
    · obtain rfl | hc := mem_cons.1 hc
      · exact hstale
      · exact h.stale c (mem_append_right _ hc)
  · have hold : ∀ c ∈ xs ++ ys, c.top.active now = true → Newest (n.top.entry :: log) c.top.entry :=
      fun c hc hactive => (h.newest c hc hactive).cons (hrest c hc hactive)
    obtain hc | hc := mem_append.1 hc
    · exact hold c (mem_append_left _ hc) hactive
    obtain rfl | hc := mem_cons.1 hc
    · exact Newest.self _
    · exact hold c (mem_append_right _ hc) hactive

/-- A header that stands for a deletion; it hides nothing active behind it. -/
theorem Inv.place (h : Inv (xs ++ ys) log now) {n : Chain} (hstale : n.top.stale = false)
    (hactive : n.top.active now = false) (hrest : ∀ d ∈ ys, d.top.active now = true → ¬ Hides n.top.type d.top.type) :
    Inv (xs ++ n :: ys) log now := by
  obtain ⟨hxs, hys, hxy⟩ := pairwise_append.1 h.apart
  have hnot : ¬ n.top.active now = true := by
    rw [hactive]
    exact Bool.false_ne_true
  refine ⟨pairwise_append.2 ⟨hxs, pairwise_cons.2 ⟨fun d hd => ?_, hys⟩, fun c hc d hd => ?_⟩, fun c hc => ?_,
    fun c hc hactive' => ?_⟩
  · exact ⟨fun hd' => hrest d hd hd', fun hn => absurd hn hnot⟩
  · obtain rfl | hd := mem_cons.1 hd
    · exact ⟨fun hn => absurd hn hnot, fun _ hn => absurd hn hnot⟩
    · exact hxy c hc d hd
  · obtain hc | hc := mem_append.1 hc
    · exact h.stale c (mem_append_left _ hc)
    · obtain rfl | hc := mem_cons.1 hc
      · intro hst
        rw [hstale] at hst
        cases hst
      · exact h.stale c (mem_append_right _ hc)
  · obtain hc | hc := mem_append.1 hc
    · exact h.newest c (mem_append_left _ hc) hactive'
    · obtain rfl | hc := mem_cons.1 hc
      · exact absurd hactive' hnot
      · exact h.newest c (mem_append_right _ hc) hactive'

end inv

/-! ### Searches -/

theorem search_some {p : Header → Bool} (h : search p cs = some (before, c, behind)) :
    cs = before ++ c :: behind ∧ p c.top = true ∧ ∀ d ∈ before, p d.top = false := by
  induction cs generalizing before with
  | nil => cases h
  | cons d cs ih =>
    rw [search] at h
    split at h
    next hp =>
      cases h
      exact ⟨rfl, hp, fun _ hd => absurd hd not_mem_nil⟩
    next hp =>
      obtain ⟨⟨before', c', behind'⟩, hrest, heq⟩ := Option.map_eq_some_iff.1 h
      cases heq
      obtain ⟨rfl, hpc, hbefore⟩ := ih hrest
      exact ⟨rfl, hpc, forall_mem_cons.2 ⟨eq_false_iff.2 hp, hbefore⟩⟩

theorem search_none {p : Header → Bool} (h : search p cs = none) : ∀ d ∈ cs, p d.top = false := by
  induction cs with
  | nil => exact fun _ hd => absurd hd not_mem_nil
  | cons d cs ih =>
    rw [search] at h
    split at h
    · cases h
    next hp => exact forall_mem_cons.2 ⟨eq_false_iff.2 hp, ih (Option.map_eq_none_iff.1 h)⟩

def withoutLast (t : RdType) : List Chain → List Chain
  | [] => []
  | c :: cs => if c.top.type = t ∧ cs.all (fun d => d.top.type ≠ t) then cs else c :: withoutLast t cs

theorem expireLast_below (t : RdType) (now : ℕ) (cs : List Chain) : Forall₂ (Below now) (expireLast t cs) cs := by
  induction cs with
  | nil => exact Forall₂.nil
  | cons c cs ih =>
    rw [expireLast]
    split
    · exact Forall₂.cons (Below.expire now c) (Below.list_refl now cs)
    · exact Forall₂.cons (Below.refl now c) ih

theorem mem_withoutLast {now : ℕ} (hd : d ∈ expireLast t cs) (hactive : d.top.active now = true) : d ∈ withoutLast t cs := by
  induction cs with
  | nil => exact absurd hd not_mem_nil
  | cons c cs ih =>
    rw [expireLast] at hd
    rw [withoutLast]
    split at hd
    next hlast =>
      rw [if_pos hlast]
      obtain rfl | hd := mem_cons.1 hd
      · rw [show c.expire.top.active now = false from active_expire c.top now] at hactive
        cases hactive
      · exact hd
    next hlast =>
      rw [if_neg hlast]
      obtain rfl | hd := mem_cons.1 hd
      · exact mem_cons_self
      · exact mem_cons_of_mem _ (ih hd)

theorem expireLast_middle {t : RdType} {n : Chain} (hn : n.top.type ≠ t) (now : ℕ) (xs ys : List Chain) :
    ∃ xs' ys', expireLast t (xs ++ n :: ys) = xs' ++ n :: ys' ∧ Forall₂ (Below now) xs' xs ∧ Forall₂ (Below now) ys' ys ∧
      ∀ d ∈ xs' ++ ys', d.top.active now = true → d ∈ withoutLast t (xs ++ ys) := by
  induction xs with
  | nil =>
    refine ⟨[], expireLast t ys, ?_, Forall₂.nil, expireLast_below t now ys, fun d hd hactive => mem_withoutLast hd hactive⟩
    rw [nil_append, expireLast, if_neg (fun h => hn h.1)]
    rfl
  | cons x xs ih =>
    have hall : (xs ++ n :: ys).all (fun d => d.top.type ≠ t) = (xs ++ ys).all (fun d => d.top.type ≠ t) := by
      rw [all_append, all_cons, all_append, decide_eq_true hn, Bool.true_and]
    rw [cons_append, expireLast, hall, cons_append, withoutLast]
    by_cases hlast : x.top.type = t ∧ (xs ++ ys).all (fun d => d.top.type ≠ t) = true
    · rw [if_pos hlast, if_pos hlast]
      refine ⟨x.expire :: xs, ys, rfl, Forall₂.cons (Below.expire now x) (Below.list_refl now xs), Below.list_refl now ys,
        fun d hd hactive => ?_⟩
      obtain rfl | hd := mem_cons.1 hd
      · rw [show x.expire.top.active now = false from active_expire x.top now] at hactive
        cases hactive
      · exact hd
    rw [if_neg hlast, if_neg hlast]
    obtain ⟨xs', ys', heq, hxs, hys, hactive⟩ := ih
    rw [heq]
    refine ⟨x :: xs', ys', rfl, Forall₂.cons (Below.refl now x) hxs, hys, fun d hd hd' => ?_⟩
    obtain rfl | hd := mem_cons.1 hd
    · exact mem_cons_self
    · exact mem_cons_of_mem _ (hactive d hd hd')

/-! ### The condition -/

section condition

variable (same : UInt16 → List Rdata → List Rdata → Bool)

/-- The headers beside the first one that `newheader` replaces. -/
def others (node : Node) (newheader : Header) (negtype : RdType) : List Chain :=
  match search (newheader.replaces negtype) node.data with
  | none => node.data
  | some (before, _, behind) => before ++ behind

/-- The headers that `add` leaves as they are when it links `newheader`: not the first header of its type or of `negtype`, not the negative
entry that it meets first, and not the last signature of the type that it denies. -/
def spared (node : Node) (newheader : Header) (now : ℕ) : List Chain :=
  if newheader.negative then
    if newheader.type.covers = any then []
    else match search (newheader.replaces ⟨newheader.type.covers, 0⟩) node.data with
      | none => node.data
      | some (before, _, behind) => withoutLast (sigOf newheader.type.covers) (before ++ behind)
  else match search newheader.against node.data with
    | none => others node newheader (nodata newheader.type.base)
    | some (before, c, behind) =>
      if !c.top.nonexistent && decide (now < c.top.rdhTtl) then before ++ behind else others node newheader (nodata newheader.type.base)

/-- The entries that contradict the new one and that no search of `add` is for: NXDOMAIN, the signatures of the type, and data of it with
`covers`, for NODATA; NODATA of the type that is signed and of the signature type itself, for signatures. -/
def Missed (newheader : Header) (x : RdType) : Prop :=
  if newheader.negative then
    x = ncacheAny ∨ x = sigOf newheader.type.covers ∨ x.base = newheader.type.covers ∧ x.base ≠ 0 ∧ x.covers ≠ 0
  else
    newheader.type.base = rrsig ∧ x = nodata newheader.type.covers ∨
      (newheader.type.base = rrsig ∨ newheader.type.covers ≠ 0) ∧ x = nodata newheader.type.base

instance (newheader : Header) (x : RdType) : Decidable (Missed newheader x) := by
  unfold Missed
  infer_instance

/-- The header that stands in the place of the new one is more trusted, or it holds the same data and stays. -/
def Header.stays (header newheader : Header) (trust : UInt16) (now : ℕ) : Bool :=
  header.outranks trust now || (keepsNs same header newheader now || keepsAddress header (withNsTtl header newheader now) now)

/-- `add` does not link the new header. -/
def turnedAway (node : Node) (newheader : Header) (force : Bool) (now : ℕ) : Bool :=
  let trust := if force then trustUltimate else newheader.trust
  let stays := fun negtype => match search (newheader.replaces negtype) node.data with
    | none => false
    | some (_, c, _) => c.top.stays same newheader trust now
  if newheader.negative then !decide (newheader.type.covers = any) && stays ⟨newheader.type.covers, 0⟩
  else match search newheader.against node.data with
    | none => stays (nodata newheader.type.base)
    | some (_, c, _) =>
      if !c.top.nonexistent && decide (now < c.top.rdhTtl) then decide (trust < c.top.trust) else stays (nodata newheader.type.base)

instance (x y : RdType) : Decidable (Hides x y) := by
  unfold Hides
  infer_instance

/-- Nothing active that is spared contradicts the new entry. -/
def AddOk (node : Node) (newheader : Header) (force : Bool) (now : ℕ) : Prop :=
  turnedAway same node newheader force now = false →
    ∀ d ∈ spared node newheader now, d.top.active now = true → ¬ Missed newheader d.top.type

/-- The deletion of a type does not meet NODATA for the type 0 before active data of the type. -/
def DeleteOk (node : Node) (t : RdType) (now : ℕ) : Prop :=
  match search ((nonexistentHeader t).replaces ⟨0, 0⟩) node.data with
  | none => True
  | some (_, c, behind) => c.top.type ≠ t → ∀ d ∈ behind, d.top.active now = true → ¬ Hides t d.top.type

instance (node : Node) (newheader : Header) (force : Bool) (now : ℕ) : Decidable (AddOk same node newheader force now) := by
  unfold AddOk
  infer_instance

instance (node : Node) (t : RdType) (now : ℕ) : Decidable (DeleteOk node t now) := by
  unfold DeleteOk
  split <;> infer_instance

end condition

/-! ### What is spared -/

section rivals

variable {node : Node} {log : List Entry} {now : ℕ} {newheader : Header}

/-- A header of the place is not active behind the first one that hides it. -/
theorem Inv.found (h : Inv node.data log now) {p : Header → Bool}
    (hs : search p node.data = some (before, c, behind)) (hd : d ∈ before ++ behind) (hactive : d.top.active now = true)
    (hp : p d.top = true) : ¬ Hides c.top.type d.top.type := by
  obtain ⟨hdata, -, hbefore⟩ := search_some hs
  obtain hd | hd := mem_append.1 hd
  · rw [hbefore d hd] at hp
    cases hp
  have hpair := h.apart
  rw [hdata] at hpair
  obtain ⟨-, hcons, -⟩ := pairwise_append.1 hpair
  exact ((pairwise_cons.1 hcons).1 d hd).1 hactive

/-- Two headers of the list that are both active. -/
theorem Inv.not_rival (h : Inv node.data log now) (hdata : node.data = before ++ c :: behind)
    (hd : d ∈ before ++ behind) (hc : c.top.active now = true) (hactive : d.top.active now = true) : ¬ Rival c.top.type d.top.type := by
  have hpair := h.apart
  rw [hdata] at hpair
  obtain ⟨-, hcons, hcross⟩ := pairwise_append.1 hpair
  obtain hd | hd := mem_append.1 hd
  · exact fun hrival => (hcross d hd c mem_cons_self).2 hactive hc hrival.symm
  · exact ((pairwise_cons.1 hcons).1 d hd).2 hc hactive

/-- A negative entry that `add` meets and that has not run out is active. -/
theorem Inv.alive (h : Inv node.data log now) (hc : c ∈ node.data)
    (halive : (!c.top.nonexistent && decide (now < c.top.rdhTtl)) = true) : c.top.active now = true := by
  have hstale := h.stale c hc
  simp only [and_eq_true, not_eq_true', decide_eq_true_eq] at halive
  unfold Header.active
  cases hs : c.top.stale with
  | true => exact absurd (hstale hs) (not_le.2 halive.2)
  | false => simp [halive.1, halive.2]

theorem withoutLast_subset (t : RdType) (cs : List Chain) : withoutLast t cs ⊆ cs := by
  induction cs with
  | nil => exact List.Subset.refl _
  | cons c cs ih =>
    rw [withoutLast]
    split
    · exact subset_cons_self c cs
    · exact cons_subset_cons c ih

/-- An active entry that denies all types is what `add` meets. -/
theorem Inv.ncacheAny_alive (h : Inv node.data log now) (hd : d ∈ node.data) (hactive : d.top.active now = true)
    (htype : d.top.type = ncacheAny) (newheader : Header) : ∃ before c behind,
      search newheader.against node.data = some (before, c, behind) ∧ (!c.top.nonexistent && decide (now < c.top.rdhTtl)) = true := by
  have hp : newheader.against d.top = true := by
    unfold Header.against
    rw [htype, decide_eq_true rfl, Bool.true_or]
  cases hs : search newheader.against node.data with
  | none =>
    rw [search_none hs d hd] at hp
    cases hp
  | some found =>
    obtain ⟨before, c, behind⟩ := found
    refine ⟨before, c, behind, rfl, ?_⟩
    obtain ⟨hdata, hpc, -⟩ := search_some hs
    rw [hdata] at hd
    obtain rfl | hd := (mem_append.1 hd).elim (fun hd => Or.inr (mem_append_left behind hd))
        (fun hd => (mem_cons.1 hd).imp_right (mem_append_right before))
    · simp only [Header.active, and_eq_true] at hactive
      rw [hactive.1.1, hactive.2]
      rfl
    refine absurd ?_ (h.found hs hd hactive hp)
    rw [htype]
    simp only [Header.against, or_eq_true, and_eq_true, decide_eq_true_eq] at hpc
    obtain hc | ⟨-, hc⟩ := hpc
    · exact .inl hc
    · exact .inr (.inr (.inr ⟨by rw [hc]; rfl, rfl⟩))

/-- Beside the first header that a new one replaces there is nothing active that it would replace. -/
theorem Inv.others_hides (h : Inv node.data log now) {negtype : RdType} (hd : d ∈ others node newheader negtype)
    (hactive : d.top.active now = true) (hp : newheader.replaces negtype d.top = true) :
    ∃ x, (x = newheader.type ∨ x = negtype) ∧ ¬ Hides x d.top.type := by
  unfold others at hd
  split at hd
  next hs =>
    rw [search_none hs d hd] at hp
    cases hp
  next before c behind hs =>
    obtain ⟨-, hpc, -⟩ := search_some hs
    refine ⟨c.top.type, ?_, h.found hs hd hactive hp⟩
    simpa [Header.replaces] using hpc

theorem others_subset (node : Node) (newheader : Header) (negtype : RdType) : others node newheader negtype ⊆ node.data := by
  unfold others
  split
  · exact List.Subset.refl _
  next hs =>
    rw [(search_some hs).1]
    exact append_subset.2 ⟨subset_append_left _ _, fun d hd => mem_append_right _ (mem_cons_of_mem _ hd)⟩

theorem rival_nodata {c : UInt16} (hc : c ≠ any) (h : Rival (nodata c) x) :
    x = nodata c ∨ x.base ≠ 0 ∧ c = x.base ∨ x = sigOf c ∨ x = ncacheAny := by
  obtain rfl | (hany | ⟨-, ⟨hne, heq⟩ | heq⟩) | (hany | ⟨-, ⟨hne, -⟩ | heq⟩) := h
  · exact .inl rfl
  · exact absurd (congrArg RdType.covers hany) hc
  · exact .inr (.inl ⟨hne, heq⟩)
  · exact .inr (.inr (.inl heq))
  · exact .inr (.inr (.inr hany))
  · exact absurd rfl hne
  · exact absurd (show (0 : UInt16) = rrsig from congrArg RdType.base heq) (by decide)

theorem nodata_of_base (h : t.base = 0) : t = nodata t.covers := by
  obtain ⟨base, covers⟩ := t
  obtain rfl : base = 0 := h
  rfl

theorem rival_data (h0 : t.base ≠ 0) (h : Rival t x) :
    x = t ∨ x = ncacheAny ∨ x = nodata t.base ∨ t.base = rrsig ∧ x = nodata t.covers := by
  obtain rfl | (hany | ⟨hzero, -⟩) | (hany | ⟨hzero, ⟨-, heq⟩ | heq⟩) := h
  · exact .inl rfl
  · exact absurd (congrArg RdType.base hany) h0
  · exact absurd hzero h0
  · exact .inr (.inl hany)
  · rw [nodata_of_base hzero, heq]
    exact .inr (.inr (.inl rfl))
  · rw [heq]
    exact .inr (.inr (.inr ⟨rfl, nodata_of_base hzero⟩))

theorem Inv.spared_missed (h : Inv node.data log now) (hneg : newheader.negative = true ↔ newheader.type.base = 0)
    (hd : d ∈ spared node newheader now) (hactive : d.top.active now = true) (hrival : Rival newheader.type d.top.type) :
    Missed newheader d.top.type := by
  unfold Missed
  unfold spared at hd
  cases hn : newheader.negative with
  | true =>
    rw [hn, if_pos rfl] at hd
    rw [if_pos rfl]
    have htype : newheader.type = nodata newheader.type.covers := nodata_of_base (hneg.1 hn)
    by_cases hany : newheader.type.covers = any
    · rw [if_pos hany] at hd
      exact absurd hd not_mem_nil
    rw [if_neg hany] at hd
    have hothers : d ∈ others node newheader ⟨newheader.type.covers, 0⟩ := by
      unfold others
      split at hd
      · exact hd
      · exact withoutLast_subset _ _ hd
    have hhides : newheader.replaces ⟨newheader.type.covers, 0⟩ d.top = true →
        ∃ x, (x = nodata newheader.type.covers ∨ x = ⟨newheader.type.covers, 0⟩) ∧ ¬ Hides x d.top.type := by
      intro hp
      obtain ⟨x, hx, hnot⟩ := h.others_hides hothers hactive hp
      rw [htype] at hx
      exact ⟨x, hx, hnot⟩
    rw [htype] at hrival
    obtain heq | ⟨hne, heq⟩ | heq | heq := rival_nodata hany hrival
    · obtain ⟨x, hx, hnot⟩ := hhides (by
        unfold Header.replaces
        rw [heq, ← htype, decide_eq_true rfl, Bool.true_or])
      refine absurd ?_ hnot
      rw [heq]
      obtain rfl | rfl := hx
      · exact .inl rfl
      · exact .inr (.inr (.inl ⟨rfl, rfl⟩))
    · by_cases hcovers : d.top.type.covers = 0
      · have hd0 : d.top.type = ⟨newheader.type.covers, 0⟩ := by
          rw [heq, ← hcovers]
        obtain ⟨x, hx, hnot⟩ := hhides (by
          unfold Header.replaces
          rw [hd0, decide_eq_true rfl, Bool.or_true])
        refine absurd ?_ hnot
        obtain rfl | rfl := hx
        · exact .inr (.inl ⟨rfl, hne, heq⟩)
        · exact .inl hd0.symm
      · exact .inr (.inr ⟨heq.symm, hne, hcovers⟩)
    · exact .inr (.inl heq)
    · exact .inl heq
  | false =>
    rw [hn, if_neg Bool.false_ne_true] at hd
    rw [if_neg Bool.false_ne_true]
    have h0 : newheader.type.base ≠ 0 := fun h0 => Bool.false_ne_true (hn ▸ hneg.2 h0)
    -- beside the header that is replaced
    have hothers : d ∈ others node newheader (nodata newheader.type.base) → d.top.type ≠ ncacheAny →
        newheader.type.base = rrsig ∧ d.top.type = nodata newheader.type.covers ∨
          (newheader.type.base = rrsig ∨ newheader.type.covers ≠ 0) ∧ d.top.type = nodata newheader.type.base := by
      intro hmem hnot
      obtain heq | heq | heq | heq := rival_data h0 hrival
      · obtain ⟨x, hx, hhides⟩ := h.others_hides hmem hactive (by
          unfold Header.replaces
          rw [heq, decide_eq_true rfl, Bool.true_or])
        refine absurd ?_ hhides
        rw [heq]
        obtain rfl | rfl := hx
        · exact .inl rfl
        · exact .inr (.inl ⟨rfl, h0, rfl⟩)
      · exact absurd heq hnot
      · by_cases hcovers : newheader.type.covers = 0
        · obtain ⟨x, hx, hhides⟩ := h.others_hides hmem hactive (by
            unfold Header.replaces
            rw [heq, decide_eq_true rfl, Bool.or_true])
          refine absurd ?_ hhides
          rw [heq]
          obtain rfl | rfl := hx
          · exact .inr (.inr (.inl ⟨rfl, congrArg (RdType.mk newheader.type.base) hcovers⟩))
          · exact .inl rfl
        · exact .inr ⟨Or.inr hcovers, heq⟩
      · exact .inl heq
    -- an entry that denies all types would have been met
    have hmet : d ∈ node.data → d.top.type = ncacheAny → ∃ before c behind,
        search newheader.against node.data = some (before, c, behind) ∧ (!c.top.nonexistent && decide (now < c.top.rdhTtl)) = true :=
      fun hmem htype => h.ncacheAny_alive hmem hactive htype newheader
    split at hd
    next hs =>
      refine hothers hd (fun htype => ?_)
      obtain ⟨before, c, behind, hsome, -⟩ := hmet (others_subset _ _ _ hd) htype
      rw [hs] at hsome
      cases hsome
    next before c behind hs =>
      obtain ⟨hdata, hpc, -⟩ := search_some hs
      split at hd
      next halive =>
        have hc := h.alive (hdata ▸ mem_append_right _ mem_cons_self) halive
        have hnot := h.not_rival hdata hd hc hactive
        simp only [Header.against, or_eq_true, and_eq_true, decide_eq_true_eq] at hpc
        obtain hpc | ⟨hrrsig, hpc⟩ := hpc
        · rw [hpc] at hnot
          exact absurd (Or.inr (Or.inl (Or.inl rfl))) hnot
        rw [hpc] at hnot
        obtain heq | heq | heq | heq := rival_data h0 hrival
        · refine absurd (Or.inr (Or.inl (Or.inr ⟨rfl, Or.inr ?_⟩))) hnot
          rw [heq]
          exact congrArg (fun b => RdType.mk b newheader.type.covers) hrrsig
        · rw [heq] at hnot
          exact absurd (Or.inr (Or.inr (Or.inl rfl))) hnot
        · exact .inr ⟨Or.inl hrrsig, heq⟩
        · exact .inl heq
      next hdead =>
        refine hothers hd (fun htype => ?_)
        obtain ⟨before', c', behind', hsome, halive⟩ := hmet (others_subset _ _ _ hd) htype
        rw [hs] at hsome
        cases hsome
        exact hdead halive

end rivals

/-! ### Adding -/

/-- The new header stands between `xs` and `ys`, which are headers of the old list; what is active of them is in `rest`. -/
structure LinkedAt (data : List Chain) (newheader : Header) (now : ℕ) (rest : List Chain) (added : Added) (xs ys : List Chain) (n : Chain) :
    Prop where
  list : added.node.data = xs ++ n :: ys
  linked : added.linked = some n.top
  entry : n.top.entry = newheader.entry
  stale : n.top.stale = newheader.stale
  below : ∃ old, old.Sublist data ∧ Forall₂ (Below now) (xs ++ ys) old
  visible : ∀ d ∈ xs, ¬ Hides d.top.type newheader.type
  rest : ∀ d ∈ xs ++ ys, d.top.active now = true → d ∈ rest

def Linked (data : List Chain) (newheader : Header) (now : ℕ) (rest : List Chain) (added : Added) : Prop :=
  ∃ xs ys n, LinkedAt data newheader now rest added xs ys n

/-- The new header was freed; the list has the same entries. -/
structure Away (data : List Chain) (now : ℕ) (added : Added) : Prop where
  linked : added.linked = none
  below : Forall₂ (Below now) added.node.data data

section adding

variable {same : UInt16 → List Rdata → List Rdata → Bool} {node : Node} {newheader : Header} {trust : UInt16} {now : ℕ}

theorem kept_below (c : Chain) (newheader : Header) (now : ℕ) : Below now { c with top := kept c.top newheader } c where
  type := rfl
  active h := by
    refine ⟨?_, rfl⟩
    simp only [Header.active, kept, and_eq_true, decide_eq_true_eq] at h ⊢
    exact ⟨h.1, lt_of_lt_of_le (of_decide_eq_true h.2) (min_le_left _ _)⟩
  stale h hstale := (min_le_left _ _).trans (h hstale)

theorem withNsTtl_entry (header newheader : Header) (now : ℕ) : (withNsTtl header newheader now).entry = newheader.entry := by
  unfold withNsTtl
  split <;> rfl

theorem withNsTtl_stale (header newheader : Header) (now : ℕ) : (withNsTtl header newheader now).stale = newheader.stale := by
  unfold withNsTtl
  split <;> rfl

theorem append_below {now : ℕ} {xs' ys' : List Chain} (hxs : Forall₂ (Below now) xs' xs)
    (hys : Forall₂ (Below now) ys' ys) :
    Forall₂ (Below now) (xs' ++ ys') (xs ++ ys) := rel_append hxs hys

/-- A header of a type that is new to the list. -/
theorem addAt_none (hexists : newheader.nonexistent = false) (sig : Option RdType) {data : List Chain}
    (hbelow : Forall₂ (Below now) node.data data) {rest : List Chain} (hrest : ∀ d ∈ node.data, d.top.active now = true → d ∈ rest) :
    Linked data newheader now rest (node.addAt same newheader trust now none sig) := by
  refine ⟨[], node.data, ⟨newheader, []⟩, ?_⟩
  unfold Node.addAt
  rw [hexists]
  exact ⟨rfl, rfl, rfl, rfl, ⟨data, Sublist.refl _, hbelow⟩, fun d hd => absurd hd not_mem_nil, hrest⟩

/-- A header in the place of another one. -/
theorem addAt_some (hexists : newheader.nonexistent = false) {sig : Option RdType} (hsig : ∀ t, sig = some t → newheader.type ≠ t)
    {negtype : RdType} (hhides : ∀ h : Header, newheader.replaces negtype h = false → ¬ Hides h.type newheader.type)
    (hs : search (newheader.replaces negtype) node.data = some (before, c, behind))
    {rest : List Chain} (hrest : rest = match sig with
      | some t => withoutLast t (before ++ behind)
      | none => before ++ behind) :
    c.top.stays same newheader trust now = true ∧
        Away node.data now (node.addAt same newheader trust now (some (before, c, behind)) sig) ∨
      c.top.stays same newheader trust now = false ∧
        Linked node.data newheader now rest (node.addAt same newheader trust now (some (before, c, behind)) sig) := by
  obtain ⟨hdata, -, hbefore⟩ := search_some hs
  unfold Node.addAt Header.stays
  simp only [hexists, Bool.and_false, false_eq_true, if_false]
  by_cases houtranks : c.top.outranks trust now = true
  · rw [if_pos houtranks, houtranks]
    exact .inl ⟨rfl, rfl, Below.list_refl now _⟩
  rw [if_neg houtranks, eq_false_iff.2 houtranks, Bool.false_or]
  by_cases hkeeps : (keepsNs same c.top newheader now || keepsAddress c.top (withNsTtl c.top newheader now) now) = true
  · rw [if_pos hkeeps]
    refine .inl ⟨hkeeps, rfl, ?_⟩
    rw [hdata]
    exact append_below (Below.list_refl now before) (Forall₂.cons (kept_below c newheader now) (Below.list_refl now behind))
  rw [if_neg hkeeps]
  refine .inr ⟨eq_false_iff.2 hkeeps, ?_⟩
  have hsub : (before ++ behind).Sublist node.data := by
    rw [hdata]
    exact (Sublist.refl before).append (sublist_cons_self c behind)
  have hvisible : ∀ d ∈ before, ¬ Hides d.top.type newheader.type := fun d hd => hhides d.top (hbefore d hd)
  cases sig with
  | none =>
    refine ⟨before, behind, ⟨withNsTtl c.top newheader now, c.top.expire :: c.down⟩, rfl, rfl, withNsTtl_entry _ _ _,
      withNsTtl_stale _ _ _, ⟨_, hsub, Below.list_refl now _⟩, hvisible, fun d hd _ => ?_⟩
    rw [hrest]
    exact hd
  | some t =>
    have htype : (withNsTtl c.top newheader now).type ≠ t := by
      rw [show (withNsTtl c.top newheader now).type = newheader.type from congrArg Entry.type (withNsTtl_entry c.top newheader now)]
      exact hsig t rfl
    obtain ⟨xs, ys, heq, hxs, hys, hactive⟩ := @expireLast_middle t ⟨withNsTtl c.top newheader now, c.top.expire :: c.down⟩ htype now
      before behind
    refine ⟨xs, ys, _, heq, rfl, withNsTtl_entry _ _ _, withNsTtl_stale _ _ _, ⟨_, hsub, append_below hxs hys⟩, fun d hd => ?_,
      fun d hd hd' => ?_⟩
    · obtain ⟨d', hd', hbelow⟩ := Below.exists_of_mem hxs hd
      rw [hbelow.type]
      exact hvisible d' hd'
    · rw [hrest]
      exact hactive d hd hd'

theorem not_hides_nodata {h : Header} (hbase : newheader.type.base = 0) (hany : newheader.type.covers ≠ any)
    (hreplaces : newheader.replaces ⟨newheader.type.covers, 0⟩ h = false) : ¬ Hides h.type newheader.type := by
  simp only [Header.replaces, or_eq_false_iff, decide_eq_false_iff_not] at hreplaces
  rintro (heq | ⟨-, hne, -⟩ | ⟨-, heq⟩ | ⟨-, heq⟩)
  · exact hreplaces.1 heq
  · exact hne hbase
  · exact hreplaces.2 heq
  · exact hany (congrArg RdType.covers heq)

theorem not_hides_data {h : Header} (hbase : newheader.type.base ≠ 0)
    (hreplaces : newheader.replaces (nodata newheader.type.base) h = false) : ¬ Hides h.type newheader.type := by
  simp only [Header.replaces, or_eq_false_iff, decide_eq_false_iff_not] at hreplaces
  rintro (heq | ⟨h0, -, heq⟩ | ⟨h0, -⟩ | ⟨-, heq⟩)
  · exact hreplaces.1 heq
  · exact hreplaces.2 ((nodata_of_base h0).trans (congrArg nodata heq))
  · exact hbase h0
  · exact hbase (congrArg RdType.base heq)

/-- A new header that exists is freed, or it is linked and only what is spared stays active. -/
theorem add_step (hexists : newheader.nonexistent = false) (hneg : newheader.negative = true ↔ newheader.type.base = 0) (force : Bool) :
    Away node.data now (node.add same newheader force now) ∨ turnedAway same node newheader force now = false ∧
        Linked node.data newheader now (spared node newheader now) (node.add same newheader force now) := by
  have hself := Below.list_refl now node.data
  unfold Node.add turnedAway spared
  simp only [hexists, false_eq_true, if_false]
  cases hn : newheader.negative with
  | true =>
    simp only [if_true]
    by_cases hany : newheader.type.covers = any
    · rw [if_pos hany, if_pos hany, decide_eq_true hany]
      refine .inr ⟨rfl, addAt_none hexists none ?_ ?_⟩
      · exact forall₂_map_left_iff.2 (forall₂_same.2 (fun c _ => Below.expire now c))
      · intro d hd hactive
        obtain ⟨c, -, rfl⟩ := mem_map.1 hd
        rw [show c.expire.top.active now = false from active_expire c.top now] at hactive
        cases hactive
    rw [if_neg hany, if_neg hany, decide_eq_false hany, Bool.not_false, Bool.true_and]
    have hsig : ∀ t, some (sigOf newheader.type.covers) = some t → newheader.type ≠ t := by
      rintro t ht heq
      rw [← Option.some.inj ht] at heq
      have hbase : newheader.type.base = rrsig := congrArg RdType.base heq
      rw [hneg.1 hn] at hbase
      exact absurd hbase (by decide)
    cases hs : search (newheader.replaces ⟨newheader.type.covers, 0⟩) node.data with
    | none => exact .inr ⟨rfl, addAt_none hexists _ hself (fun d hd _ => hd)⟩
    | some found =>
      obtain ⟨before, c, behind⟩ := found
      obtain ⟨-, haway⟩ | hlinked := addAt_some hexists hsig (fun h => not_hides_nodata (hneg.1 hn) hany) hs rfl
      · exact .inl haway
      · exact .inr hlinked
  | false =>
    simp only [false_eq_true, if_false]
    have h0 : newheader.type.base ≠ 0 := fun h0 => Bool.false_ne_true (hn ▸ hneg.2 h0)
    -- no negative entry is met that has not run out
    have hplace : Away node.data now (node.addAt same newheader (if force then trustUltimate else newheader.trust) now
          (search (newheader.replaces (nodata newheader.type.base)) node.data) none) ∨
        (match search (newheader.replaces (nodata newheader.type.base)) node.data with
          | none => false
          | some (_, c, _) => c.top.stays same newheader (if force then trustUltimate else newheader.trust) now) = false ∧
          Linked node.data newheader now (others node newheader (nodata newheader.type.base))
            (node.addAt same newheader (if force then trustUltimate else newheader.trust) now
              (search (newheader.replaces (nodata newheader.type.base)) node.data) none) := by
      unfold others
      cases hs : search (newheader.replaces (nodata newheader.type.base)) node.data with
      | none => exact .inr ⟨rfl, addAt_none hexists _ hself (fun d hd _ => hd)⟩
      | some found =>
        obtain ⟨before, c, behind⟩ := found
        obtain ⟨-, haway⟩ | hlinked := addAt_some hexists (show ∀ t, (none : Option RdType) = some t → newheader.type ≠ t by
          rintro t ⟨⟩) (fun h => not_hides_data h0) hs rfl
        · exact .inl haway
        · exact .inr hlinked
    cases hs : search newheader.against node.data with
    | none => exact hplace
    | some found =>
      obtain ⟨before, c, behind⟩ := found
      simp only
      by_cases halive : (!c.top.nonexistent && decide (now < c.top.rdhTtl)) = true
      · rw [if_pos halive, if_pos halive, if_pos halive]
        by_cases htrust : (if force then trustUltimate else newheader.trust) < c.top.trust
        · rw [if_pos htrust]
          exact .inl ⟨rfl, hself⟩
        rw [if_neg htrust, decide_eq_false htrust]
        refine .inr ⟨rfl, addAt_none hexists none ?_ ?_⟩
        · rw [(search_some hs).1]
          exact append_below (Below.list_refl now before) (Forall₂.cons (Below.expire now c) (Below.list_refl now behind))
        · intro d hd hactive
          obtain hd | hd := mem_append.1 hd
          · exact mem_append_left _ hd
          obtain rfl | hd := mem_cons.1 hd
          · rw [show c.expire.top.active now = false from active_expire c.top now] at hactive
            cases hactive
          · exact mem_append_right _ hd
      · rw [if_neg halive, if_neg halive, if_neg halive]
        exact hplace

theorem Inv.add {log : List Entry} (h : Inv node.data log now) (hexists : newheader.nonexistent = false) (hfresh : newheader.stale = false)
    (hneg : newheader.negative = true ↔ newheader.type.base = 0) {force : Bool} (hok : AddOk same node newheader force now) :
    Inv (node.add same newheader force now).node.data ((node.add same newheader force now).linked.elim log (fun n => n.entry :: log)) now := by
  obtain haway | ⟨haway, xs, ys, n, hlinked⟩ := @add_step same node newheader now hexists hneg force
  · rw [haway.linked]
    exact h.below haway.below
  rw [hlinked.list, hlinked.linked]
  obtain ⟨old, hsub, hbelow⟩ := hlinked.below
  have htype : n.top.type = newheader.type := congrArg Entry.type hlinked.entry
  refine ((h.sublist hsub).below hbelow).link (fun hst => ?_) (fun d hd => ?_) (fun d hd hactive hrival => ?_)
  · rw [hlinked.stale, hfresh] at hst
    cases hst
  · rw [htype]
    exact hlinked.visible d hd
  · have hspared := hlinked.rest d hd hactive
    rw [htype] at hrival
    exact hok haway d hspared hactive (h.spared_missed hneg hspared hactive hrival)

theorem Inv.delete {log : List Entry} (h : Inv node.data log now) (hok : DeleteOk node t now) :
    Inv (node.add same (nonexistentHeader t) true 0).node.data log now := by
  have hadd : node.add same (nonexistentHeader t) true 0 =
      node.addAt same (nonexistentHeader t) trustUltimate 0 (search ((nonexistentHeader t).replaces ⟨0, 0⟩) node.data) none := rfl
  rw [hadd]
  cases hs : search ((nonexistentHeader t).replaces ⟨0, 0⟩) node.data with
  | none => exact h
  | some found =>
    obtain ⟨before, c, behind⟩ := found
    obtain ⟨hdata, -, -⟩ := search_some hs
    have hkeep : (keepsNs same c.top (nonexistentHeader t) 0 ||
        keepsAddress c.top (withNsTtl c.top (nonexistentHeader t) 0) 0) = false := by
      have hns : keepsNs same c.top (nonexistentHeader t) 0 = false := by
        simp [keepsNs, nonexistentHeader]
      have hwith : (withNsTtl c.top (nonexistentHeader t) 0).nonexistent = true := by
        unfold withNsTtl
        split <;> rfl
      have haddress : keepsAddress c.top (withNsTtl c.top (nonexistentHeader t) 0) 0 = false := by
        simp [keepsAddress, hwith]
      rw [hns, haddress]
      rfl
    unfold Node.addAt
    simp only [hkeep, false_eq_true, if_false]
    split
    · exact h
    split
    · exact h
    have hsub : (before ++ behind).Sublist node.data := by
      rw [hdata]
      exact (Sublist.refl before).append (sublist_cons_self c behind)
    have hwith : withNsTtl c.top (nonexistentHeader t) 0 = nonexistentHeader t := by
      unfold withNsTtl replacesNs
      simp [nonexistentHeader]
    rw [hwith]
    refine (h.sublist hsub).place rfl rfl (fun d hd hactive hhides => ?_)
    by_cases htype : c.top.type = t
    · have hpair := h.apart
      rw [hdata] at hpair
      obtain ⟨-, hcons, -⟩ := pairwise_append.1 hpair
      refine ((pairwise_cons.1 hcons).1 d hd).1 hactive ?_
      rw [htype]
      exact hhides
    unfold DeleteOk at hok
    rw [hs] at hok
    exact hok htype d hd hactive hhides

end adding

/-! ### Cleaning and expiry -/

section cleaning

variable {node : Node} {log : List Entry} {now : ℕ}

theorem Inv.clean (h : Inv node.data log now) : Inv (cleanCacheNode node).data log now := by
  refine (h.sublist (filter_sublist (p := fun c => !(c.top.nonexistent || c.top.stale)))).below ?_
  exact forall₂_map_left_iff.2 (forall₂_same.2 (fun c _ => ⟨rfl, fun hc => ⟨hc, rfl⟩, fun hc => hc⟩))

theorem Inv.expire (h : Inv node.data log now) (i : ℕ) : Inv (expireHeader node i).data log now := by
  refine h.below ?_
  show Forall₂ (Below now) (node.data.modify i Chain.expire) node.data
  induction node.data generalizing i with
  | nil =>
    rw [modify_nil]
    exact Forall₂.nil
  | cons c cs ih =>
    cases i with
    | zero => exact Forall₂.cons (Below.expire now c) (Below.list_refl now cs)
    | succ i => exact Forall₂.cons (Below.refl now c) (ih i)

/-- The marks that a lookup makes are on headers that have run out. -/
theorem findLoop_below (w : Wanted) (now : ℕ) : ∀ (cs : List Chain) (write : Bool) (tries : List Bool) (found foundsig : Option Header),
    Forall₂ (Below now) (findLoop w now cs write tries found foundsig).data cs
  | [], _, _, _, _ => Forall₂.nil
  | c :: cs, write, tries, found, foundsig => by
    rw [findLoop]
    by_cases hout : c.top.rdhTtl ≤ now
    · rw [if_pos hout]
      by_cases hlong : c.top.rdhTtl ≤ (now + 2 ^ 32 - 300) % 2 ^ 32
      · rw [if_pos hlong]
        simp only
        split
        · refine Forall₂.cons ⟨rfl, fun hactive => ?_, fun _ _ => hout⟩ (findLoop_below w now cs _ _ _ _)
          simp [Header.active] at hactive
        · exact Forall₂.cons (Below.refl now c) (findLoop_below w now cs _ _ _ _)
      · rw [if_neg hlong]
        exact Forall₂.cons (Below.refl now c) (findLoop_below w now cs _ _ _ _)
    · rw [if_neg hout]
      exact Forall₂.cons (Below.refl now c) (findLoop_below w now cs _ _ _ _)
end cleaning

/-! ### Looking up -/

/-- What `cache_findrdataset` takes for the rdataset. -/
def Header.matched (w : Wanted) (now : ℕ) (h : Header) : Bool :=
  decide (now < h.rdhTtl) && (!h.nonexistent && (decide (h.type = w.matchtype) || decide (h.type = ncacheAny) || decide (h.type = w.negtype)))

theorem findLoop_found (w : Wanted) (now : ℕ) : ∀ (cs : List Chain) (write : Bool) (tries : List Bool) (found foundsig : Option Header),
    (findLoop w now cs write tries found foundsig).found =
      (cs.filter (fun c => c.top.matched w now)).foldl (fun _ c => some c.top) found
  | [], _, _, _, _ => rfl
  | c :: cs, write, tries, found, foundsig => by
    rw [findLoop]
    by_cases hout : c.top.rdhTtl ≤ now
    · have hnot : ¬ c.top.matched w now = true := by
        unfold Header.matched
        rw [decide_eq_false (not_lt.2 hout), Bool.false_and]
        exact Bool.false_ne_true
      have hfilter : (c :: cs).filter (fun c => c.top.matched w now) = cs.filter (fun c => c.top.matched w now) :=
        filter_cons_of_neg hnot
      rw [if_pos hout, hfilter]
      by_cases hlong : c.top.rdhTtl ≤ (now + 2 ^ 32 - 300) % 2 ^ 32
      · rw [if_pos hlong]
        simp only
        split
        · exact findLoop_found w now cs _ _ _ _
        · exact findLoop_found w now cs _ _ _ _
      · rw [if_neg hlong]
        exact findLoop_found w now cs _ _ _ _
    rw [if_neg hout]
    rw [findLoop_found w now cs]
    by_cases hp : (!c.top.nonexistent && (decide (c.top.type = w.matchtype) || decide (c.top.type = ncacheAny) ||
        decide (c.top.type = w.negtype))) = true
    · have hmatched : c.top.matched w now = true := by
        unfold Header.matched
        rw [decide_eq_true (not_le.1 hout), Bool.true_and]
        exact hp
      have hfilter : (c :: cs).filter (fun c => c.top.matched w now) = c :: cs.filter (fun c => c.top.matched w now) :=
        filter_cons_of_pos hmatched
      rw [if_pos hp, hfilter, foldl_cons]
    have hmatched : ¬ c.top.matched w now = true := by
      unfold Header.matched
      rw [decide_eq_true (not_le.1 hout), Bool.true_and]
      exact hp
    have hfilter : (c :: cs).filter (fun c => c.top.matched w now) = cs.filter (fun c => c.top.matched w now) :=
      filter_cons_of_neg hmatched
    rw [if_neg hp, hfilter]

section lookup

variable {node : Node} {log : List Entry} {now : ℕ}

theorem Inv.matched_iff (h : Inv node.data log now) (t : RdType) (hc : c ∈ node.data) :
    c.top.matched (wanted t) now = true ↔ c.top.active now = true ∧ Answers t c.top.type := by
  constructor
  · intro hm
    simp only [Header.matched, wanted, and_eq_true, or_eq_true, decide_eq_true_eq] at hm
    obtain ⟨hlive, hexists, htype⟩ := hm
    refine ⟨h.alive hc (by rw [hexists, decide_eq_true hlive]; rfl), ?_⟩
    obtain (htype | htype) | htype := htype
    · exact .inl (of_decide_eq_true htype)
    · exact .inr (.inr htype)
    · exact .inr (.inl (of_decide_eq_true htype))
  · rintro ⟨hactive, htype⟩
    simp only [Header.active, and_eq_true, decide_eq_true_eq] at hactive
    simp only [Header.matched, wanted, and_eq_true, or_eq_true, decide_eq_true_eq]
    refine ⟨hactive.2, hactive.1.1, ?_⟩
    obtain htype | htype | htype := htype
    · exact .inl (.inl (decide_eq_true htype))
    · exact .inr (decide_eq_true htype)
    · exact .inl (.inr htype)

/-- The active headers that answer for a type. -/
def answering (node : Node) (t : RdType) (now : ℕ) : List Chain :=
  node.data.filter (fun c => c.top.active now && decide (Answers t c.top.type))

/-- At most one active header answers for a type. -/
theorem Inv.single (h : Inv node.data log now) (h0 : t.base ≠ 0) : (answering node t now).length ≤ 1 := by
  have hpair : (answering node t now).Pairwise (Apart now) := h.apart.sublist filter_sublist
  have hmem : ∀ c ∈ answering node t now, c.top.active now = true ∧ Answers t c.top.type := by
    intro c hc
    have hp := (mem_filter.1 hc).2
    rw [and_eq_true, decide_eq_true_eq] at hp
    exact hp
  rcases heq : answering node t now with _ | ⟨c, _ | ⟨d, ds⟩⟩
  · exact Nat.zero_le 1
  · exact le_rfl
  · rw [heq] at hpair hmem
    obtain ⟨hc, hct⟩ := hmem c mem_cons_self
    obtain ⟨hd, hdt⟩ := hmem d (mem_cons_of_mem _ mem_cons_self)
    exact absurd (rival_of_answers h0 hct hdt) (((pairwise_cons.1 hpair).1 d mem_cons_self).2 hc hd)

theorem Inv.found_eq (h : Inv node.data log now) (t : RdType) (tries : List Bool) :
    (findLoop (wanted t) now node.data false tries none none).found = (answering node t now).foldl (fun _ c => some c.top) none := by
  rw [findLoop_found]
  congr 1
  refine filter_congr (fun c hc => ?_)
  rw [Bool.eq_iff_iff, h.matched_iff t hc, and_eq_true, decide_eq_true_eq]

/-- The header that answers for a type is the one that is found, and nothing for the type was accepted after it. -/
theorem Inv.lookup (h : Inv node.data log now) (h0 : t.base ≠ 0) (tries : List Bool) (hc : c ∈ node.data)
    (hactive : c.top.active now = true) (htype : Answers t c.top.type) :
    (cacheFindrdataset node t now tries).2.result = c.top.findResult ∧
      (cacheFindrdataset node t now tries).2.rdataset = some (c.top.bind now) ∧
      log.find? (fun e => decide (Answers t e.type)) = some c.top.entry := by
  have hmem : c ∈ answering node t now := mem_filter.2 ⟨hc, by rw [hactive, decide_eq_true htype]; rfl⟩
  have hone : answering node t now = [c] := by
    obtain ⟨d, hd⟩ := length_eq_one_iff.1 (le_antisymm (h.single h0) (length_pos_of_mem hmem))
    rw [hd] at hmem ⊢
    rw [mem_singleton.1 hmem]
  have hfound : (findLoop (wanted t) now node.data false tries none none).found = some c.top := by
    rw [h.found_eq, hone]
    rfl
  refine ⟨?_, ?_, ?_⟩
  · unfold cacheFindrdataset
    simp only [hfound]
  · unfold cacheFindrdataset
    simp only [hfound]
  · obtain ⟨newer, older, rfl, hnewer⟩ := h.newest c hc hactive
    have hnone : newer.find? (fun e => decide (Answers t e.type)) = none := by
      rw [find?_eq_none]
      intro l hl hanswers
      exact hnewer l hl (rival_of_answers h0 (of_decide_eq_true hanswers) htype)
    have hself : (c.top.entry :: older).find? (fun e => decide (Answers t e.type)) = some c.top.entry :=
      find?_cons_of_pos (decide_eq_true htype)
    rw [find?_append, hnone, Option.none_or, hself]

end lookup

/-! ### Runs -/

/-- A node, the time of the last call, and the entries that were accepted, the newest one first. -/
structure State where
  node : Node
  now : ℕ
  accepted : List Entry
deriving DecidableEq

/-- What can happen to a node, with its time: the three calls, a lookup, and a header that `expire_header` is called for. -/
inductive Op where
  | add (now : ℕ) (r : Rdataset) (force : Bool)
  | delete (now : ℕ) (type covers : UInt16)
  | clean (now : ℕ)
  | expire (now : ℕ) (i : ℕ)
  | find (now : ℕ) (t : RdType) (tries : List Bool)

def Op.now : Op → ℕ
  | .add now _ _ | .delete now _ _ | .clean now | .expire now _ | .find now _ _ => now

section run

variable (same : UInt16 → List Rdata → List Rdata → Bool)

def step (st : State) : Op → State
  | .add now r force =>
    let added := addrdataset same st.node now r force
    ⟨added.node, now, added.linked.elim st.accepted (fun n => n.entry :: st.accepted)⟩
  | .delete now type covers => ⟨(deleterdataset same st.node type covers).node, now, st.accepted⟩
  | .clean now => ⟨cleanCacheNode st.node, now, st.accepted⟩
  | .expire now i => ⟨expireHeader st.node i, now, st.accepted⟩
  | .find now t tries => ⟨(cacheFindrdataset st.node t now tries).1, now, st.accepted⟩

def run (st : State) (ops : List Op) : State := ops.foldl (step same) st

/-- A node without data. -/
def State.init : State := ⟨⟨[], false⟩, 0, []⟩

/-- Time does not go back, and the call does not overlook an entry that contradicts the new one. -/
def StepOk (st : State) (op : Op) : Prop :=
  st.now ≤ op.now ∧
    match op with
    | .add now r force => AddOk same st.node (r.header now) force now
    | .delete now type covers => DeleteOk st.node ⟨type, covers⟩ now
    | _ => True

def RunOk : State → List Op → Prop
  | _, [] => True
  | st, op :: ops => StepOk same st op ∧ RunOk (step same st op) ops

instance (st : State) (op : Op) : Decidable (StepOk same st op) := by
  cases op <;> unfold StepOk <;> infer_instance

instance decidableRunOk : ∀ (st : State) (ops : List Op), Decidable (RunOk same st ops)
  | _, [] => isTrue trivial
  | st, op :: ops =>
    have : Decidable (RunOk same (step same st op) ops) := decidableRunOk _ ops
    inferInstanceAs (Decidable (StepOk same st op ∧ RunOk same (step same st op) ops))

/-- The entries of a node do not contradict each other, at any time from now on, and a lookup shows the one that was accepted last. -/
structure Consistent (st : State) : Prop where
  single : ∀ t now, st.now ≤ now → t.base ≠ 0 → t.base ≠ any → (answering st.node t now).length ≤ 1
  signed : ∀ t now, st.now ≤ now → ∀ c ∈ st.node.data, ∀ d ∈ st.node.data, c.top.active now = true → d.top.active now = true →
    c.top.type = sigOf t → ¬ Denies t d.top.type
  lookup : ∀ t now tries, st.now ≤ now → t.base ≠ 0 → t.base ≠ any → ∀ c ∈ answering st.node t now,
    (cacheFindrdataset st.node t now tries).2.result = c.top.findResult ∧
      (cacheFindrdataset st.node t now tries).2.rdataset = some (c.top.bind now) ∧
      st.accepted.find? (fun e => decide (Answers t e.type)) = some c.top.entry
  notfound : ∀ t now tries, st.now ≤ now → t.base ≠ 0 → t.base ≠ any → answering st.node t now = [] →
    (cacheFindrdataset st.node t now tries).2 = ⟨.notfound, none, none⟩

end run

section invariant

variable {same : UInt16 → List Rdata → List Rdata → Bool}

theorem step_inv {st : State} (h : Inv st.node.data st.accepted st.now) {op : Op} (hok : StepOk same st op) :
    Inv (step same st op).node.data (step same st op).accepted (step same st op).now := by
  obtain ⟨htime, hop⟩ := hok
  replace h := h.later htime
  cases op with
  | add now r force => exact h.add rfl rfl r.negative_iff hop
  | delete now type covers =>
    show Inv (deleterdataset same st.node type covers).node.data st.accepted now
    unfold deleterdataset
    split
    · exact h
    · exact h.delete hop
  | clean now => exact h.clean
  | expire now i => exact h.expire i
  | find now t tries => exact h.below (findLoop_below _ _ _ _ _ _ _)

theorem run_inv {ops : List Op} : ∀ {st : State}, Inv st.node.data st.accepted st.now → RunOk same st ops →
    Inv (run same st ops).node.data (run same st ops).accepted (run same st ops).now := by
  induction ops with
  | nil => exact fun h _ => h
  | cons op ops ih => exact fun h hok => ih (step_inv h hok.1) hok.2

theorem RunOk.take {ops : List Op} : ∀ {st : State}, RunOk same st ops → ∀ n, RunOk same st (ops.take n) := by
  induction ops with
  | nil =>
    intro st _ n
    rw [take_nil]
    exact trivial
  | cons op ops ih =>
    intro st hok n
    cases n with
    | zero => exact trivial
    | succ n => exact ⟨hok.1, ih hok.2 n⟩

theorem Inv.consistent {st : State} (h : Inv st.node.data st.accepted st.now) : Consistent st where
  single t now hle h0 _ := (h.later hle).single h0
  signed t now hle c hc d hd hactive hactive' htype hdenies := by
    have hl := h.later hle
    have hne : d ≠ c := by
      rintro rfl
      rw [htype] at hdenies
      obtain heq | heq := hdenies
      · exact absurd (show rrsig = 0 from congrArg RdType.base heq) (by decide)
      · exact absurd (show rrsig = 0 from congrArg RdType.base heq) (by decide)
    have hrival : Rival d.top.type c.top.type := htype ▸ rival_of_denies hdenies
    exact hl.not_both hd hc hne hactive' hactive hrival
  lookup t now tries hle h0 _ c hc := by
    obtain ⟨hmem, hp⟩ := mem_filter.1 hc
    rw [and_eq_true, decide_eq_true_eq] at hp
    exact (h.later hle).lookup h0 tries hmem hp.1 hp.2
  notfound t now tries hle h0 _ hnil := by
    have hfound := (h.later hle).found_eq t tries
    rw [hnil] at hfound
    unfold cacheFindrdataset
    simp only [hfound]
    rfl

theorem inv_init : Inv State.init.node.data State.init.accepted State.init.now :=
  ⟨Pairwise.nil, fun _ hc => absurd hc not_mem_nil, fun _ hc => absurd hc not_mem_nil⟩

/-- In a run that never overlooks a contradicting entry, the entries of the node never contradict each other. -/
theorem cache_consistent (ops : List Op) (h : RunOk same State.init ops) (n : ℕ) : Consistent (run same State.init (ops.take n)) :=
  (run_inv inv_init (h.take n)).consistent

end invariant

def sameBytes : UInt16 → List Rdata → List Rdata → Bool := fun _ a b => decide (a = b)

/-- An address of the node, secure. -/
def addressA : Rdataset := ⟨⟨1, 0⟩, 300, 8, false, false, false, [[192, 0, 2, 1]], none, none, by decide⟩

def signatureA : Rdataset := ⟨sigOf 1, 300, 8, false, false, false, [[0, 1, 8, 2]], none, none, by decide⟩

def nodataA : Rdataset := ⟨nodata 1, 300, 8, true, false, false, [[0]], none, none, by decide⟩

def nxdomain : Rdataset := ⟨ncacheAny, 300, 8, true, true, false, [[0]], none, none, by decide⟩

/-- The addresses and their signature, then NODATA, a lookup, NXDOMAIN and the addresses again. -/
def quietOps : List Op :=
  [.add 1000010 addressA false, .add 1000010 signatureA false, .add 1000020 nodataA false, .find 1000030 ⟨1, 0⟩ [],
    .clean 1000030, .add 1000040 nxdomain false, .add 1000050 addressA false, .delete 1000060 1 0]

theorem cache_consistent_quiet : RunOk sameBytes State.init quietOps ∧ Consistent (run sameBytes State.init (quietOps.take 5)) := by
  have hok : RunOk sameBytes State.init quietOps := by decide +kernel
  exact ⟨hok, cache_consistent quietOps hok 5⟩

/-- NODATA beside a signature when there are no addresses, and NODATA beside NXDOMAIN. -/
theorem cache_contradiction : ¬ Consistent (run sameBytes State.init [.add 1000010 signatureA false, .add 1000010 nodataA false]) ∧
    ¬ Consistent (run sameBytes State.init [.add 1000010 nxdomain false, .add 1000010 nodataA false]) := by
  constructor
  · intro h
    exact h.signed 1 1000010 (by decide) ⟨signatureA.header 1000010, []⟩ (by decide) ⟨nodataA.header 1000010, []⟩ (by decide)
      (by decide) (by decide) (by decide) (by decide)
  · intro h
    exact absurd (h.single ⟨1, 0⟩ 1000010 (by decide) (by decide) (by decide)) (by decide)

end Bind9.Cache
