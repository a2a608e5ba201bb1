import Bind9.RwlockAtomic

/-! # The lock with atomic operations excludes

What matters of a place is whether the thread has announced itself as a reader, has set the flag of a writer, may read, has
a ticket, and whether `write_completions` is behind because of it.  `Effect` says what a step does in these terms
(`step_does`), and the invariant `Inv` follows the effects: the counters of the lock are the numbers of the threads at such
places.

`write_completions` plus the threads that hold it back is the number of tickets that were served.  So a ticket is reached
only when all earlier ones are served and nobody holds `write_completions` back, which gives the order of the queue
(`Queue.reached`).  The counters have 32 bits and the threads are less than `2 ^ 30`, so that a wrap makes no two of them equal. -/

namespace Bind9.RwlockAtomic

open List
open Bool hiding not_not

namespace Place

/-- The reader counts in `cnt_and_flag`. -/
def announces : Place → Bool
  | readCheck | readBlock | readSleep | readGrant | reading | tryReadUndo | downgradeFlag | downgradeComplete
  | downgradeWake => true
  | _ => false

/-- The thread has set the flag in `cnt_and_flag`. -/
def flags : Place → Bool
  | writeInsist | writeGrant | writing | tryWriteJump | tryWriteGrant | upgradeJump | downgradeFlag => true
  | _ => false

/-- The thread holds the lock for reading. -/
def reads : Place → Bool
  | readGrant | reading | downgradeComplete | downgradeWake => true
  | _ => false

/-- `write_completions` has still to be raised by the thread. -/
def behind : Place → Bool
  | writeInsist | writeGrant | writing | tryWriteGrant | downgradeFlag | downgradeComplete | unlockComplete => true
  | _ => false

/-- The thread waits as a reader. -/
def waits : Place → Bool
  | readWait | readSleep => true
  | _ => false

/-- The ticket of a writer in the queue. -/
def ticket : Place → Option ℕ
  | writeTurn n | writeMutex n | writeWait n | writeTake n | writeBlock n | writeSleep n => some n
  | _ => none

/-- It is the writer's turn. -/
def served : Place → Bool
  | writeTake _ | writeBlock _ | writeSleep _ => true
  | _ => false

/-- What matters of a place. -/
structure Traits where
  announces : Bool
  flags : Bool
  reads : Bool
  behind : Bool
  waits : Bool
  ticket : Option ℕ
  served : Bool

def traits (p : Place) : Traits := ⟨p.announces, p.flags, p.reads, p.behind, p.waits, p.ticket, p.served⟩

end Place

/-- A thread that is not concerned with the lock. -/
def Place.nothing : Place.Traits := ⟨false, false, false, false, false, none, false⟩

set_option linter.unusedSectionVars false

variable {T : Type} [DecidableEq T]

/-- What a step of the thread `t`, from a place with traits `x` to a place with traits `y`, does to the shared
variables. -/
inductive Effect (s : State T) (t : T) (x y : Place.Traits) : State T → Prop
  /-- Nothing of interest. -/
  | silent (granted : UInt32) : y = x → Effect s t x y { s with writeGranted := granted }
  /-- A reader waits. -/
  | wait : y = { x with waits := true } → x.waits = false → Effect s t x y { s with readersWaiting := s.readersWaiting + 1 }
  /-- A reader wakes up. -/
  | wake : y = { x with waits := false } → x.waits = true → Effect s t x y { s with readersWaiting := s.readersWaiting - 1 }
  /-- A reader announces itself. -/
  | announce : x = Place.nothing → y = { Place.nothing with announces := true } →
      Effect s t x y { s with cntAndFlag := s.cntAndFlag + readerIncr }
  /-- A reader announces itself and finds no writer. -/
  | join : x = Place.nothing → y = { Place.nothing with announces := true, reads := true } → s.flag = false →
      Effect s t x y { s with cntAndFlag := s.cntAndFlag + readerIncr }
  /-- A reader finds no writer. -/
  | check : x = { Place.nothing with announces := true } → y = { Place.nothing with announces := true, reads := true } →
      s.flag = false → Effect s t x y s
  /-- A reader leaves. -/
  | retire (r : Bool) : x = { Place.nothing with announces := true, reads := r } → y = Place.nothing →
      Effect s t x y { s with cntAndFlag := s.cntAndFlag - readerIncr }
  /-- A writer takes a ticket. -/
  | enter : x = Place.nothing → y = { Place.nothing with ticket := some s.entered.length } →
      Effect s t x y { s with writeRequests := s.writeRequests + 1, entered := s.entered ++ [t] }
  /-- A ticket is reached. -/
  | turn (n : ℕ) : x = { Place.nothing with ticket := some n } → y = { Place.nothing with ticket := some n, served := true } →
      s.writeCompletions = UInt32.ofNat n → Effect s t x y s
  /-- The writer whose turn it is gets the lock. -/
  | take (n : ℕ) : x = { Place.nothing with ticket := some n, served := true } →
      y = { Place.nothing with flags := true, behind := true } → s.cntAndFlag = 0 →
      Effect s t x y { s with cntAndFlag := writerActive, obtained := s.obtained ++ [t] }
  /-- A writer gets the lock without a ticket. -/
  | jump : x = Place.nothing → y = { Place.nothing with flags := true } → s.cntAndFlag = 0 →
      Effect s t x y { s with cntAndFlag := writerActive }
  /-- The only reader becomes a writer. -/
  | upgrade : x = { Place.nothing with announces := true, reads := true } → y = { Place.nothing with flags := true } →
      s.cntAndFlag = readerIncr → Effect s t x y { s with cntAndFlag := writerActive }
  /-- A writer without a ticket moves `write_completions` back. -/
  | back : x = { Place.nothing with flags := true } → y = { Place.nothing with flags := true, behind := true } →
      Effect s t x y { s with writeCompletions := s.writeCompletions - 1 }
  /-- A writer announces itself as a reader. -/
  | downgrade : x = { Place.nothing with flags := true, behind := true } →
      y = { Place.nothing with announces := true, flags := true, behind := true } →
      Effect s t x y { s with cntAndFlag := s.cntAndFlag + readerIncr }
  /-- A writer clears the flag, and goes on as a reader or leaves. -/
  | unflag (r : Bool) : x = { Place.nothing with announces := r, flags := true, behind := true } →
      y = { Place.nothing with announces := r, reads := r, behind := true } →
      Effect s t x y { s with cntAndFlag := s.cntAndFlag - writerActive }
  /-- A writer raises `write_completions`. -/
  | complete (r : Bool) : x = { Place.nothing with announces := r, reads := r, behind := true } →
      y = { Place.nothing with announces := r, reads := r } →
      Effect s t x y { s with writeCompletions := s.writeCompletions + 1 }

/-- The step moves the thread to a place `q` and does no more than its effect says. -/
def Does (s : State T) (t : T) (s' : State T) : Prop :=
  ∃ q s1, s' = State.goto s1 t q ∧ Effect s t (s.place t).traits q.traits s1

variable {q : Place}

section effect

variable {s s' : State T} {t : T}

theorem does_silent (h : q.traits = (s.place t).traits) : Does s t (s.goto t q) :=
  ⟨q, s, rfl, .silent s.writeGranted h⟩

theorem does_silent_ite {c : Prop} [Decidable c] {q' : Place} (h : q.traits = (s.place t).traits)
    (h' : q'.traits = (s.place t).traits) : Does s t (s.goto t (if c then q else q')) := by
  split
  · exact does_silent h
  · exact does_silent h'

/-- The first operations of the calls. -/
theorem start_does {a : Action} (hp : s.place t = a.place) (hne : a ≠ .next) (h : start s t a = .ok s') : Does s t s' := by
  cases a with
  | lockRead | trylockRead =>
    cases h
    exact does_silent (by rw [hp]; rfl)
  | lockWrite =>
    cases h
    exact ⟨_, _, rfl, .enter (by rw [hp]; rfl) rfl⟩
  | trylockWrite =>
    rw [start] at h
    split at h
    next hcnt =>
      cases h
      exact ⟨_, _, rfl, .jump (by rw [hp]; rfl) rfl hcnt⟩
    · cases h
      exact does_silent (by rw [hp]; rfl)
  | tryupgrade =>
    obtain ⟨_, -, h⟩ := bind_eq_ok h
    cases h
    split
    next hcnt => exact ⟨_, _, rfl, .upgrade (by rw [hp]; rfl) rfl hcnt⟩
    · exact does_silent (by rw [hp]; rfl)
  | downgrade =>
    obtain ⟨_, -, h⟩ := bind_eq_ok h
    cases h
    exact ⟨_, _, rfl, .downgrade (by rw [hp]; rfl) rfl⟩
  | unlockRead =>
    cases h
    refine ⟨_, _, rfl, .retire true (by rw [hp]; rfl) ?_⟩
    split <;> rfl
  | unlockWrite =>
    cases h
    exact ⟨_, _, rfl, .unflag false (by rw [hp]; rfl) rfl⟩
  | next => exact absurd rfl hne

/-- The other operations, in the order of the source. -/
theorem advance_does (h : advance s t = .ok s') (ha : Protocol (s.place t) .next) : Does s t s' := by
  unfold advance at h
  cases hp : s.place t with
  | idle => exact absurd hp ha.1
  | reading => exact absurd hp ha.2.1
  | writing => exact absurd hp ha.2.2
  | readTest requests | writeBlock n | tryReadTest requests | tryReadCompare completions | unlockReadCompare completions
  | unlockQuota | unlockCompletions requests | unlockReaders | unlockCompare wakeup requests =>
    rw [hp] at h
    cases h
    exact does_silent_ite (by rw [hp]; rfl) (by rw [hp]; rfl)
  | readMutex | readBlock =>
    rw [hp] at h
    simp only at h
    split at h
    · cases h
      exact ⟨_, _, rfl, .wait (by rw [hp]; rfl) (by rw [hp]; rfl)⟩
    · cases h
      exact does_silent (by rw [hp]; rfl)
  | readWait | readSleep =>
    rw [hp] at h
    cases h
    exact ⟨_, _, rfl, .wake (by rw [hp]; rfl) (by rw [hp]; rfl)⟩
  | readAnnounce =>
    rw [hp] at h
    cases h
    exact ⟨_, _, rfl, .announce (by rw [hp]; rfl) rfl⟩
  | readCheck =>
    rw [hp] at h
    cases hflag : s.flag with
    | true =>
      rw [hflag, if_pos rfl] at h
      cases h
      exact does_silent (by rw [hp]; rfl)
    | false =>
      rw [hflag, if_neg Bool.false_ne_true] at h
      cases h
      exact ⟨_, _, rfl, .check (by rw [hp]; rfl) rfl hflag⟩
  | readGrant =>
    rw [hp] at h
    cases h
    exact ⟨_, _, rfl, .silent 0 (by rw [hp]; rfl)⟩
  | writeTurn n | writeMutex n =>
    rw [hp] at h
    cases h
    split
    · exact does_silent (by rw [hp]; rfl)
    next hturn => exact ⟨_, _, rfl, .turn n (by rw [hp]; rfl) rfl (not_not.1 hturn)⟩
  | writeTake n =>
    rw [hp] at h
    simp only at h
    split at h
    next hcnt =>
      cases h
      exact ⟨_, _, rfl, .take n (by rw [hp]; rfl) rfl hcnt⟩
    · cases h
      exact does_silent (by rw [hp]; rfl)
  | writeInsist =>
    rw [hp] at h
    obtain ⟨_, -, h⟩ := bind_eq_ok h
    cases h
    exact does_silent (by rw [hp]; rfl)
  | writeGrant | tryWriteGrant =>
    rw [hp] at h
    cases h
    exact ⟨_, _, rfl, .silent _ (by rw [hp]; rfl)⟩
  | tryReadAnnounce =>
    rw [hp] at h
    cases hflag : s.flag with
    | true =>
      rw [hflag, if_pos rfl] at h
      cases h
      exact ⟨_, _, rfl, .announce (by rw [hp]; rfl) rfl⟩
    | false =>
      rw [hflag, if_neg Bool.false_ne_true] at h
      cases h
      exact ⟨_, _, rfl, .join (by rw [hp]; rfl) rfl hflag⟩
  | tryReadUndo =>
    rw [hp] at h
    cases h
    refine ⟨_, _, rfl, .retire false (by rw [hp]; rfl) ?_⟩
    split <;> rfl
  | tryWriteJump | upgradeJump =>
    rw [hp] at h
    cases h
    exact ⟨_, _, rfl, .back (by rw [hp]; rfl) rfl⟩
  | downgradeFlag =>
    rw [hp] at h
    cases h
    exact ⟨_, _, rfl, .unflag true (by rw [hp]; rfl) rfl⟩
  | downgradeComplete =>
    rw [hp] at h
    cases h
    exact ⟨_, _, rfl, .complete true (by rw [hp]; rfl) rfl⟩
  | unlockComplete =>
    rw [hp] at h
    cases h
    exact ⟨_, _, rfl, .complete false (by rw [hp]; rfl) rfl⟩
  | _ =>
    rw [hp] at h
    cases h
    exact does_silent (by rw [hp]; rfl)

theorem step_does {a : Action} (ha : Protocol (s.place t) a) (h : step s t a = .ok s') : Does s t s' := by
  unfold step at h
  split at h
  next hnext =>
    subst hnext
    exact advance_does h ha
  next hne =>
    rw [Protocol, if_neg hne] at ha
    exact start_does ha hne h

end effect

/-! ### The invariant -/

section inv

variable [Fintype T]

def State.number (s : State T) (p : Place → Bool) : ℕ := Threads.count p s.place

/-- `cnt_and_flag` is made of the announced readers and the writer, and where a writer is there is nobody else. -/
structure Exclusion (s : State T) : Prop where
  cnt_eq : s.cntAndFlag.toNat = 2 * s.number Place.announces + s.number Place.flags
  flags_le : s.number Place.flags ≤ 1
  alone : 0 < s.number Place.flags → s.number Place.reads = 0

omit [Fintype T] in
@[simp] theorem goto_place_self (s : State T) (t : T) (q : Place) : (s.goto t q).place t = q := by
  unfold State.goto
  exact Function.update_self t q s.place

omit [Fintype T] in
theorem goto_place_of_ne (s : State T) {t u : T} (hu : u ≠ t) (q : Place) : (s.goto t q).place u = s.place u := by
  unfold State.goto
  exact Function.update_of_ne hu q s.place

theorem number_goto {s s1 : State T} (hs : s1.place = s.place) (t : T) (q : Place) (p : Place → Bool) :
    (s1.goto t q).number p + (p (s.place t)).toNat = s.number p + (p q).toNat := by
  rw [State.number, State.number, ← hs]
  exact Threads.count_update p s1.place t q

omit [DecidableEq T] [Fintype T] in
theorem Effect.place_eq {s s1 : State T} {t : T} {x y : Place.Traits} (h : Effect s t x y s1) : s1.place = s.place := by
  cases h <;> rfl

theorem flag_iff {s : State T} (h : Exclusion s) : s.flag = true ↔ s.number Place.flags = 1 := by
  have hand : (s.cntAndFlag &&& writerActive).toNat = s.cntAndFlag.toNat % 2 := by
    rw [UInt32.toNat_and, show writerActive.toNat = 1 from rfl, Nat.and_one_is_mod]
  have hle := h.flags_le
  have hcnt := h.cnt_eq
  rw [State.flag, bne_iff_ne, ne_eq, ← UInt32.toNat_inj, hand, UInt32.toNat_zero]
  omega

variable {c : UInt32}

theorem incr_toNat (h : c.toNat + 2 < 2 ^ 32) : (c + readerIncr).toNat = c.toNat + 2 := by
  rw [UInt32.toNat_add, show readerIncr.toNat = 2 from rfl, Nat.mod_eq_of_lt h]

theorem decr_toNat (h : 2 ≤ c.toNat) : (c - readerIncr).toNat = c.toNat - 2 :=
  UInt32.toNat_sub_of_le c readerIncr (UInt32.le_iff_toNat_le.2 h)

theorem clear_toNat (h : 1 ≤ c.toNat) : (c - writerActive).toNat = c.toNat - 1 :=
  UInt32.toNat_sub_of_le c writerActive (UInt32.le_iff_toNat_le.2 h)

theorem reads_le (s : State T) : s.number Place.reads ≤ s.number Place.announces := by
  apply Threads.count_mono
  intro p hp
  cases p <;> first | rfl | cases hp

theorem Exclusion.effect {s s1 : State T} {t : T} (hT : Fintype.card T < 2 ^ 30) (h : Exclusion s)
    (he : Effect s t (s.place t).traits q.traits s1) : Exclusion (s1.goto t q) := by
  have hA : _ + (s.place t).traits.announces.toNat = _ + q.traits.announces.toNat := number_goto he.place_eq t q Place.announces
  have hF : _ + (s.place t).traits.flags.toNat = _ + q.traits.flags.toNat := number_goto he.place_eq t q Place.flags
  have hR : _ + (s.place t).traits.reads.toNat = _ + q.traits.reads.toNat := number_goto he.place_eq t q Place.reads
  have hcard : s.number Place.announces ≤ Fintype.card T := Threads.count_le_card _ _
  have hreads := reads_le s
  have hfree : s.flag = false → s.number Place.flags = 0 := by
    intro hflag
    have hne : ¬s.number Place.flags = 1 := fun hone => by
      rw [(flag_iff h).2 hone] at hflag
      cases hflag
    have := h.flags_le
    omega
  obtain ⟨hcnt, hone, halone⟩ := h
  generalize (s.place t).traits = x at he hA hF hR
  generalize q.traits = y at he hA hF hR
  cases he with
  | silent granted hy =>
    subst hy
    exact ⟨hcnt.trans (by omega), by omega, by omega⟩
  | wait hy hx | wake hy hx =>
    subst hy
    simp only at hA hF hR
    exact ⟨hcnt.trans (by omega), by omega, by omega⟩
  | announce hx hy | downgrade hx hy =>
    subst hx hy
    simp only [Place.nothing, toNat_true, toNat_false] at hA hF hR
    exact ⟨(incr_toNat (by omega)).trans (by omega), by omega, by omega⟩
  | join hx hy hflag =>
    subst hx hy
    have hnone := hfree hflag
    simp only [Place.nothing, toNat_true, toNat_false] at hA hF hR
    exact ⟨(incr_toNat (by omega)).trans (by omega), by omega, by omega⟩
  | check hx hy hflag =>
    subst hx hy
    have hnone := hfree hflag
    simp only [Place.nothing, toNat_true, toNat_false] at hA hF hR
    exact ⟨hcnt.trans (by omega), by omega, by omega⟩
  | retire r hx hy =>
    subst hx hy
    simp only [Place.nothing, toNat_true, toNat_false] at hA hF hR
    exact ⟨(decr_toNat (by omega)).trans (by omega), by omega, by omega⟩
  | enter hx hy | turn n hx hy hturn | back hx hy | complete r hx hy =>
    subst hx hy
    simp only [Place.nothing] at hA hF hR
    exact ⟨hcnt.trans (by omega), by omega, by omega⟩
  | take n hx hy hzero | jump hx hy hzero =>
    subst hx hy
    rw [hzero, UInt32.toNat_zero] at hcnt
    simp only [Place.nothing, toNat_true, toNat_false] at hA hF hR
    exact ⟨(show writerActive.toNat = 1 from rfl).trans (by omega), by omega, by omega⟩
  | upgrade hx hy htwo =>
    subst hx hy
    rw [htwo, show readerIncr.toNat = 2 from rfl] at hcnt
    simp only [Place.nothing, toNat_true, toNat_false] at hA hF hR
    exact ⟨(show writerActive.toNat = 1 from rfl).trans (by omega), by omega, by omega⟩
  | unflag r hx hy =>
    subst hx hy
    simp only [Place.nothing, toNat_true, toNat_false] at hA hF hR
    exact ⟨(clear_toNat (by omega)).trans (by omega), by omega, by omega⟩

def Waiting (s : State T) : Prop := s.readersWaiting = s.number Place.waits

theorem Waiting.effect {s s1 : State T} {t : T} (h : Waiting s)
    (he : Effect s t (s.place t).traits q.traits s1) : Waiting (s1.goto t q) := by
  have hW : _ + (s.place t).traits.waits.toNat = _ + q.traits.waits.toNat := number_goto he.place_eq t q Place.waits
  have hcnt : s.readersWaiting = s.number Place.waits := h
  generalize (s.place t).traits = x at he hW
  generalize q.traits = y at he hW
  cases he with
  | silent granted hy =>
    subst hy
    exact hcnt.trans (by omega)
  | wait hy hx =>
    subst hy
    rw [hx, toNat_false, toNat_true] at hW
    exact (congrArg (· + 1) hcnt).trans (by omega)
  | wake hy hx =>
    subst hy
    rw [hx, toNat_false, toNat_true] at hW
    exact (congrArg (· - 1) hcnt).trans (by omega)
  | announce hx hy | join hx hy | check hx hy | retire r hx hy | enter hx hy | turn n hx hy | take n hx hy | jump hx hy
  | upgrade hx hy | back hx hy | downgrade hx hy | unflag r hx hy | complete r hx hy =>
    subst hx hy
    exact hcnt.trans (Nat.add_right_cancel hW).symm

/-! ### The queue of the writers -/

/-- The tickets from `obtained.length` on are in the hands of threads.  `write_completions`, with what is held back, is the
first of them, and only the thread that has it goes for the lock. -/
structure Queue (s : State T) : Prop where
  requests_eq : s.writeRequests.toNat = s.entered.length % 2 ^ 32
  completions_eq : (s.writeCompletions.toNat + s.number Place.behind) % 2 ^ 32 = s.obtained.length % 2 ^ 32
  order : s.obtained <+: s.entered
  holder : ∀ t n, (s.place t).ticket = some n → s.obtained.length ≤ n ∧ s.entered[n]? = some t
  owner : ∀ n, s.obtained.length ≤ n → n < s.entered.length → ∃ t, (s.place t).ticket = some n
  turn : ∀ t n, (s.place t).ticket = some n → (s.place t).served = true → n = s.obtained.length

theorem Queue.keep {s s1 : State T} {t : T} (h : Queue s) (hplace : s1.place = s.place)
    (hreq : s1.writeRequests = s.writeRequests) (hent : s1.entered = s.entered) (hobt : s1.obtained = s.obtained)
    (hcomp : (s1.writeCompletions.toNat + (s1.goto t q).number Place.behind) % 2 ^ 32 = s.obtained.length % 2 ^ 32)
    (hticket : q.ticket = (s.place t).ticket) (hserved : q.served = (s.place t).served) : Queue (s1.goto t q) := by
  have hsame : ∀ u, ((s1.goto t q).place u).ticket = (s.place u).ticket ∧
      ((s1.goto t q).place u).served = (s.place u).served := by
    intro u
    by_cases hu : u = t
    · subst hu
      rw [goto_place_self]
      exact ⟨hticket, hserved⟩
    · rw [goto_place_of_ne s1 hu, hplace]
      exact ⟨rfl, rfl⟩
  have hent' : (s1.goto t q).entered = s.entered := hent
  have hobt' : (s1.goto t q).obtained = s.obtained := hobt
  refine ⟨?_, ?_, ?_, ?_, ?_, ?_⟩
  · rw [hent']
    exact (congrArg UInt32.toNat hreq).trans h.requests_eq
  · rw [hobt']
    exact hcomp
  · rw [hent', hobt']
    exact h.order
  · intro u n hu
    rw [hent', hobt']
    exact h.holder u n ((hsame u).1.symm.trans hu)
  · intro n hn hlt
    rw [hobt'] at hn
    rw [hent'] at hlt
    obtain ⟨u, hu⟩ := h.owner n hn hlt
    exact ⟨u, (hsame u).1.trans hu⟩
  · intro u n hu hs
    rw [hobt']
    exact h.turn u n ((hsame u).1.symm.trans hu) ((hsame u).2.symm.trans hs)

theorem Queue.length_le {s : State T} (h : Queue s) : s.entered.length ≤ s.obtained.length + Fintype.card T := by
  have howner : ∀ i : Fin (s.entered.length - s.obtained.length), ∃ t, (s.place t).ticket = some (s.obtained.length + i) :=
    fun i => h.owner _ (Nat.le_add_right _ _) (by omega)
  choose f hf using howner
  have hinj : Function.Injective f := by
    intro i j hij
    have heq : some (s.obtained.length + (i : ℕ)) = some (s.obtained.length + j) := by
      rw [← hf i, ← hf j, hij]
    exact Fin.ext (Nat.add_left_cancel (Option.some.inj heq))
  have hcard := Fintype.card_le_of_injective f hinj
  rw [Fintype.card_fin] at hcard
  omega

theorem Queue.reached {s : State T} (hT : Fintype.card T < 2 ^ 30) (h : Queue s) {t : T} {n : ℕ}
    (ht : (s.place t).ticket = some n) (hturn : s.writeCompletions = UInt32.ofNat n) : n = s.obtained.length := by
  obtain ⟨hle, hget⟩ := h.holder t n ht
  have hlt : n < s.entered.length := (List.getElem?_eq_some_iff.1 hget).1
  have hlen := h.length_le
  have hcard : s.number Place.behind ≤ Fintype.card T := Threads.count_le_card _ _
  have hcomp := h.completions_eq
  rw [hturn, UInt32.toNat_ofNat'] at hcomp
  have hsize : UInt32.size = 2 ^ 32 := rfl
  omega

/-- A writer takes the next ticket. -/
theorem Queue.enter {s : State T} {t : T} (h : Queue s) (hnone : (s.place t).ticket = none)
    (hbehind : q.behind = (s.place t).behind) (hticket : q.ticket = some s.entered.length) (hserved : q.served = false) :
    Queue ({ s with writeRequests := s.writeRequests + 1, entered := s.entered ++ [t] }.goto t q) := by
  have hB : ({ s with writeRequests := s.writeRequests + 1, entered := s.entered ++ [t] }.goto t q).number Place.behind + _ =
      s.number Place.behind + _ := number_goto rfl t q Place.behind
  rw [hbehind] at hB
  refine ⟨?_, ?_, h.order.trans (prefix_append _ _), ?_, ?_, ?_⟩
  · show (s.writeRequests + 1).toNat = (s.entered ++ [t]).length % 2 ^ 32
    rw [UInt32.toNat_add, h.requests_eq, length_append]
    exact Nat.mod_add_mod _ _ _
  · rw [Nat.add_right_cancel hB]
    exact h.completions_eq
  · intro u n hu
    by_cases hut : u = t
    · subst hut
      rw [goto_place_self, hticket] at hu
      cases hu
      exact ⟨h.order.length_le, getElem?_concat_length⟩
    rw [goto_place_of_ne _ hut] at hu
    obtain ⟨hle, hget⟩ := h.holder u n hu
    exact ⟨hle, (getElem?_append_left (List.getElem?_eq_some_iff.1 hget).1).trans hget⟩
  · intro n (hn : s.obtained.length ≤ n) (hlt : n < (s.entered ++ [t]).length)
    rw [length_append, length_singleton] at hlt
    by_cases hlast : n = s.entered.length
    · refine ⟨t, ?_⟩
      rw [goto_place_self, hticket, hlast]
    obtain ⟨u, hu⟩ := h.owner n hn (by omega)
    refine ⟨u, ?_⟩
    have hut : u ≠ t := by
      rintro rfl
      rw [hnone] at hu
      cases hu
    rw [goto_place_of_ne _ hut]
    exact hu
  · intro u n hu hs
    by_cases hut : u = t
    · subst hut
      rw [goto_place_self, hserved] at hs
      cases hs
    · rw [goto_place_of_ne _ hut] at hu hs
      exact h.turn u n hu hs

/-- It becomes the turn of a writer. -/
theorem Queue.serve {s : State T} {t : T} {n : ℕ} (hT : Fintype.card T < 2 ^ 30) (h : Queue s)
    (hn : (s.place t).ticket = some n) (hturn : s.writeCompletions = UInt32.ofNat n)
    (hbehind : q.behind = (s.place t).behind) (hticket : q.ticket = some n) : Queue (s.goto t q) := by
  have hB : (s.goto t q).number Place.behind + _ = s.number Place.behind + _ := number_goto rfl t q Place.behind
  rw [hbehind] at hB
  have hsame : ∀ u, ((s.goto t q).place u).ticket = (s.place u).ticket := by
    intro u
    by_cases hu : u = t
    · subst hu
      rw [goto_place_self, hticket, hn]
    · rw [goto_place_of_ne _ hu]
  refine ⟨h.requests_eq, ?_, h.order, ?_, ?_, ?_⟩
  · rw [Nat.add_right_cancel hB]
    exact h.completions_eq
  · intro u m hu
    exact h.holder u m ((hsame u).symm.trans hu)
  · intro m hm hlt
    obtain ⟨u, hu⟩ := h.owner m hm hlt
    exact ⟨u, (hsame u).trans hu⟩
  · intro u m hu hs
    by_cases hut : u = t
    · subst hut
      rw [hsame, hn] at hu
      cases hu
      exact h.reached hT hn hturn
    · rw [goto_place_of_ne _ hut] at hu hs
      exact h.turn u m hu hs

theorem Queue.obtain {s : State T} {t : T} {n : ℕ} (h : Queue s) (hn : (s.place t).ticket = some n)
    (hs : (s.place t).served = true) (hfront : (s.place t).behind = false) (hbehind : q.behind = true)
    (hticket : q.ticket = none) :
    Queue ({ s with cntAndFlag := writerActive, obtained := s.obtained ++ [t] }.goto t q) := by
  have hB : ({ s with cntAndFlag := writerActive, obtained := s.obtained ++ [t] }.goto t q).number Place.behind + _ =
      s.number Place.behind + _ := number_goto rfl t q Place.behind
  rw [hfront, hbehind, toNat_false, toNat_true] at hB
  have hfirst := h.turn t n hn hs
  obtain ⟨-, hget⟩ := h.holder t n hn
  rw [hfirst] at hget
  -- no other writer has the first ticket
  have hother : ∀ u m, u ≠ t → (s.place u).ticket = some m → s.obtained.length < m := by
    intro u m hut hu
    obtain ⟨hle, hget'⟩ := h.holder u m hu
    refine lt_of_le_of_ne hle ?_
    rintro rfl
    rw [hget] at hget'
    exact hut (Option.some.inj hget').symm
  refine ⟨h.requests_eq, ?_, ?_, ?_, ?_, ?_⟩
  · have hcomp := h.completions_eq
    show (s.writeCompletions.toNat + _) % 2 ^ 32 = (s.obtained ++ [t]).length % 2 ^ 32
    rw [length_append, length_singleton]
    omega
  · show s.obtained ++ [t] <+: s.entered
    obtain ⟨rest, hrest⟩ := h.order
    rw [← hrest] at hget ⊢
    rw [getElem?_append_right (le_refl _), Nat.sub_self] at hget
    cases rest with
    | nil => cases hget
    | cons u rest =>
      cases hget
      exact ⟨rest, by rw [append_assoc, singleton_append]⟩
  · intro u m hu
    show (s.obtained ++ [t]).length ≤ m ∧ _
    have hut : u ≠ t := by
      rintro rfl
      rw [goto_place_self, hticket] at hu
      cases hu
    rw [goto_place_of_ne _ hut] at hu
    rw [length_append, length_singleton]
    exact ⟨hother u m hut hu, (h.holder u m hu).2⟩
  · intro m (hm : (s.obtained ++ [t]).length ≤ m) hlt
    rw [length_append, length_singleton] at hm
    obtain ⟨u, hu⟩ := h.owner m (by omega) hlt
    refine ⟨u, ?_⟩
    have hut : u ≠ t := by
      rintro rfl
      rw [hn] at hu
      cases hu
      omega
    rw [goto_place_of_ne _ hut]
    exact hu
  · intro u m hu hs'
    have hut : u ≠ t := by
      rintro rfl
      rw [goto_place_self, hticket] at hu
      cases hu
    rw [goto_place_of_ne _ hut] at hu hs'
    have hlt := hother u m hut hu
    rw [h.turn u m hu hs'] at hlt
    exact absurd hlt (lt_irrefl _)

theorem Queue.effect {s s1 : State T} {t : T} (hT : Fintype.card T < 2 ^ 30) (h : Queue s)
    (he : Effect s t (s.place t).traits q.traits s1) : Queue (s1.goto t q) := by
  have hB : _ + (s.place t).traits.behind.toNat = _ + q.traits.behind.toNat := number_goto he.place_eq t q Place.behind
  have hcomp := h.completions_eq
  have hticket : (s.place t).ticket = (s.place t).traits.ticket := rfl
  have hserved : (s.place t).served = (s.place t).traits.served := rfl
  have hbehind : (s.place t).behind = (s.place t).traits.behind := rfl
  have hticket' : q.ticket = q.traits.ticket := rfl
  have hserved' : q.served = q.traits.served := rfl
  have hbehind' : q.behind = q.traits.behind := rfl
  generalize (s.place t).traits = x at he hB hticket hserved hbehind
  generalize q.traits = y at he hB hticket' hserved' hbehind'
  cases he with
  | silent granted hy | wait hy | wake hy =>
    subst hy
    exact h.keep rfl rfl rfl rfl (by rw [Nat.add_right_cancel hB]; exact hcomp) (hticket'.trans hticket.symm)
      (hserved'.trans hserved.symm)
  | announce hx hy | join hx hy | check hx hy | retire r hx hy | jump hx hy | upgrade hx hy | downgrade hx hy
  | unflag r hx hy =>
    subst hx hy
    exact h.keep rfl rfl rfl rfl (by rw [Nat.add_right_cancel hB]; exact hcomp) (hticket'.trans hticket.symm)
      (hserved'.trans hserved.symm)
  | enter hx hy =>
    subst hx hy
    exact h.enter hticket (hbehind'.trans hbehind.symm) hticket' hserved'
  | turn n hx hy hturn =>
    subst hx hy
    exact h.serve hT hticket hturn (hbehind'.trans hbehind.symm) hticket'
  | take n hx hy =>
    subst hx hy
    exact h.obtain hticket hserved hbehind hbehind' hticket'
  | back hx hy =>
    subst hx hy
    simp only [Place.nothing, toNat_true, toNat_false] at hB
    refine h.keep rfl rfl rfl rfl ?_ (hticket'.trans hticket.symm) (hserved'.trans hserved.symm)
    rw [UInt32.toNat_sub, show (1 : UInt32).toNat = 1 from rfl]
    omega
  | complete r hx hy =>
    subst hx hy
    simp only [Place.nothing, toNat_true, toNat_false] at hB
    refine h.keep rfl rfl rfl rfl ?_ (hticket'.trans hticket.symm) (hserved'.trans hserved.symm)
    rw [UInt32.toNat_add, show (1 : UInt32).toNat = 1 from rfl]
    omega

/-! ### The runs -/

/-- What holds of the lock after each step. -/
structure Inv (s : State T) : Prop where
  exclusion : Exclusion s
  waiting : Waiting s
  queue : Queue s

theorem number_init (writeQuota : UInt32) {p : Place → Bool} (hp : p .idle = false) : (init T writeQuota).number p = 0 :=
  Threads.count_eq_zero.2 (fun _ => hp)

theorem Inv.init (writeQuota : UInt32) : Inv (init T writeQuota) := by
  refine ⟨⟨?_, ?_, ?_⟩, ?_, ?_⟩
  · rw [number_init writeQuota rfl, number_init writeQuota rfl]
    rfl
  · rw [number_init writeQuota rfl]
    exact Nat.zero_le 1
  · intro _
    exact number_init writeQuota rfl
  · exact (number_init writeQuota rfl).symm
  · refine ⟨rfl, ?_, prefix_refl _, ?_, ?_, ?_⟩
    · rw [number_init writeQuota rfl]
      rfl
    · intro t n ht
      cases ht
    · intro n _ hlt
      exact absurd hlt (Nat.not_lt_zero n)
    · intro t n ht
      cases ht

theorem Inv.preserve {s s' : State T} {t : T} {a : Action} (hT : Fintype.card T < 2 ^ 30) (h : Inv s)
    (ha : Protocol (s.place t) a) (hstep : step s t a = .ok s') : Inv s' := by
  obtain ⟨q, s1, rfl, he⟩ := step_does ha hstep
  exact ⟨h.exclusion.effect hT he, h.waiting.effect he, h.queue.effect hT he⟩

theorem Reach.inv {writeQuota : UInt32} {s : State T} (hT : Fintype.card T < 2 ^ 30) (h : Reach writeQuota s) : Inv s := by
  induction h with
  | init => exact Inv.init writeQuota
  | step _ ha hstep ih => exact ih.preserve hT ha hstep

/-- A writer is alone. -/
theorem Exclusion.excludes {s : State T} (h : Exclusion s) {t u : T} (hut : u ≠ t) (ht : (s.place t).flags = true) :
    (s.place u).flags = false ∧ (s.place u).reads = false := by
  constructor
  · rw [← not_eq_true]
    intro hu
    exact hut (Threads.eq_of_count_le_one h.flags_le hu ht)
  · exact Threads.count_eq_zero.1 (h.alone (Threads.count_pos ht)) u

theorem Exclusion.flag_of_flags {s : State T} (h : Exclusion s) {t : T} (ht : (s.place t).flags = true) : s.flag = true := by
  have hpos : 0 < s.number Place.flags := Threads.count_pos ht
  have hle := h.flags_le
  exact (flag_iff h).2 (by omega)

/-- Where a thread reads, `cnt_and_flag` is as `isc_rwlock_tryupgrade` insists. -/
theorem Exclusion.upgradable {s : State T} (h : Exclusion s) {t : T} (ht : (s.place t).reads = true) :
    (!s.flag && s.cntAndFlag &&& ~~~writerActive != 0) = true := by
  have hpos : 0 < s.number Place.reads := Threads.count_pos ht
  have hnone : s.number Place.flags = 0 := by
    by_contra hne
    have := h.alone (Nat.pos_of_ne_zero hne)
    omega
  have hflag : s.flag = false := by
    rw [← not_eq_true, flag_iff h]
    omega
  have hcnt := h.cnt_eq
  have hreads := reads_le s
  rw [hflag, Bool.not_false, Bool.true_and, bne_iff_ne, ne_eq, ← UInt32.toNat_inj, UInt32.toNat_zero]
  intro hzero
  have hand : s.cntAndFlag = (s.cntAndFlag &&& ~~~writerActive) ||| (s.cntAndFlag &&& writerActive) := by
    apply UInt32.toBitVec_inj.1
    rw [UInt32.toBitVec_or, UInt32.toBitVec_and, UInt32.toBitVec_and, ← BitVec.and_or_distrib_left, ← UInt32.toBitVec_or,
      UInt32.not_or_self, ← UInt32.toBitVec_and, UInt32.and_neg_one]
  have hlow : s.cntAndFlag &&& writerActive = 0 := by
    rw [State.flag] at hflag
    simpa using hflag
  rw [hlow, UInt32.or_zero] at hand
  rw [hand] at hcnt
  omega

/-- A thread that follows the protocol goes on: no `INSIST` fires. -/
theorem Inv.steps {s : State T} {t : T} {a : Action} (h : Inv s) (ha : Protocol (s.place t) a) :
    ∃ s', step s t a = .ok s' := by
  unfold step
  split
  next hnext =>
    unfold advance
    cases hp : s.place t with
    | writeInsist =>
      have hflag : s.flag = true := h.exclusion.flag_of_flags (t := t) (by rw [hp]; rfl)
      simp only [hflag]
      exact ⟨_, rfl⟩
    | readMutex | readBlock | writeTake n =>
      simp only
      split <;> exact ⟨_, rfl⟩
    | _ => exact ⟨_, rfl⟩
  next hne =>
    rw [Protocol, if_neg hne] at ha
    cases a with
    | trylockWrite =>
      rw [start]
      split <;> exact ⟨_, rfl⟩
    | tryupgrade =>
      have hinsist := h.exclusion.upgradable (t := t) (by rw [ha]; rfl)
      rw [start, hinsist]
      exact ⟨_, rfl⟩
    | downgrade =>
      have hflag : s.flag = true := h.exclusion.flag_of_flags (t := t) (by rw [ha]; rfl)
      rw [start, hflag]
      exact ⟨_, rfl⟩
    | _ => exact ⟨_, rfl⟩

theorem Inv.destroyable {s : State T} (h : Inv s) (hidle : ∀ t, s.place t = .idle) :
    s.cntAndFlag = 0 ∧ s.writeRequests = s.writeCompletions ∧ s.readersWaiting = 0 := by
  have hzero : ∀ p : Place → Bool, p .idle = false → s.number p = 0 := by
    intro p hp
    apply Threads.count_eq_zero.2
    intro t
    rw [hidle t, hp]
  have hcnt := h.exclusion.cnt_eq
  rw [hzero _ rfl, hzero _ rfl] at hcnt
  have hwait : s.readersWaiting = 0 := h.waiting.trans (hzero _ rfl)
  -- no ticket is left, so all were served
  have hlen : s.entered.length = s.obtained.length := by
    apply le_antisymm _ h.queue.order.length_le
    by_contra hlt
    obtain ⟨t, ht⟩ := h.queue.owner s.obtained.length le_rfl (not_le.1 hlt)
    rw [hidle t] at ht
    cases ht
  have hcomp := h.queue.completions_eq
  rw [hzero _ rfl, Nat.add_zero, Nat.mod_eq_of_lt s.writeCompletions.toNat_lt, ← hlen, ← h.queue.requests_eq] at hcomp
  exact ⟨UInt32.toNat_inj.1 hcnt, (UInt32.toNat_inj.1 hcomp).symm, hwait⟩

/-- The lock excludes: over all runs of fewer than `2 ^ 30` threads, whatever the order of their operations. -/
theorem rwlock_atomic_excludes (hT : Fintype.card T < 2 ^ 30) (writeQuota : UInt32) (s : State T) (h : Reach writeQuota s) :
    (∀ t u, u ≠ t → (s.place t).flags = true → (s.place u).flags = false ∧ (s.place u).reads = false) ∧
    (∀ t a, Protocol (s.place t) a → ∃ s', step s t a = .ok s') ∧ s.cntAndFlag.toNat / 2 = s.number Place.announces ∧
    s.obtained <+: s.entered ∧
    ((∀ t, s.place t = .idle) → s.cntAndFlag = 0 ∧ s.writeRequests = s.writeCompletions ∧ s.readersWaiting = 0) := by
  have hinv := h.inv hT
  refine ⟨fun t u hut ht => hinv.exclusion.excludes hut ht, fun t a ha => hinv.steps ha, ?_, hinv.queue.order,
    hinv.destroyable⟩
  have hcnt := hinv.exclusion.cnt_eq
  have hle := hinv.exclusion.flags_le
  omega

/-- A thread writes, another one has announced itself for reading and sleeps, and a third waits for its turn to write. -/
theorem rwlock_atomic_excludes_three : ∃ s : State (Fin 3), Reach 0 s ∧ s.place 0 = .writing ∧ s.place 1 = .readSleep ∧
    s.obtained = [0] ∧ s.entered = [0, 2] ∧ (s.place 1).reads = false ∧ (s.place 2).flags = false ∧
    s.cntAndFlag.toNat / 2 = s.number Place.announces ∧ s.cntAndFlag = 3 ∧ s.obtained <+: s.entered := by
  have h1 : Reach (T := Fin 3) 0 _ := Reach.init.step (t := 1) (a := .lockRead) rfl rfl
  have h2 := h1.step (t := 1) (a := .next) (by decide) rfl
  have h3 := h2.step (t := 0) (a := .lockWrite) rfl rfl
  have h4 := h3.step (t := 0) (a := .next) (by decide) rfl
  have h5 := h4.step (t := 0) (a := .next) (by decide) rfl
  have h6 := h5.step (t := 0) (a := .next) (by decide) rfl
  have h7 := h6.step (t := 0) (a := .next) (by decide) rfl
  have h8 := h7.step (t := 1) (a := .next) (by decide) rfl
  have h9 := h8.step (t := 1) (a := .next) (by decide) rfl
  have h10 := h9.step (t := 1) (a := .next) (by decide) rfl
  have h11 := h10.step (t := 2) (a := .lockWrite) rfl rfl
  have h12 := h11.step (t := 2) (a := .next) (by decide) rfl
  obtain ⟨halone, -, hcount, horder, -⟩ := rwlock_atomic_excludes (by decide) 0 _ h12
  exact ⟨_, h12, rfl, rfl, rfl, rfl, (halone 0 1 (by decide) rfl).2, (halone 0 2 (by decide) rfl).1, hcount, rfl, horder⟩

end inv

end Bind9.RwlockAtomic
