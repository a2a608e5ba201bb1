import Bind9.RpzTree

/-! # Policy lookups over a run

A run adds and deletes `rpz-ip` owner names in any order, starting with an empty tree.  Next to the
tree it keeps the entries that are present: the addresses and prefix lengths read from the names that
were added and not deleted since.

`longest_match_run` says that after every run whose steps meet `StepOk` each lookup answers with the
longest prefix that contains the address, that no word index leaves the arrays, and that the sides and
flags of the tree are right.  Three things are asked of a step:

* no node is hung on the wrong side of a new parent (`wrongSide`);
* no prefix of the full 128 bits is added: `diff_keys` reads one word too many when it compares such a
  prefix with an equal one, and every lookup of its address does;
* no other entry present denotes the same prefix (`name2ipkey` does not look at whole words behind the
  prefix, so several names may), and the prefix has a name that fits. -/

namespace Bind9.Rpz

open Patricia
open List
open Function

/-! ### The word indices of a search -/

theorem searchFrom_reads {sur : Surroundings} {tgt : Target} (hbits : tgt.bits ≤ 128) :
    ∀ (cur : BitTree CidrNode) (path : List (Frame CidrNode)) (findResult : Result)
      (found : Option Place) (reads : List ℕ), (∀ a ∈ cur.labels, a.bits ≤ 128) →
      (tgt.bits = 128 → ∀ a ∈ cur.labels, a.bits = 128 → a.ip ≠ tgt.ip) →
      (tgt.create = true → ∀ a ∈ cur.labels, a.bits < 128) → (∀ i ∈ reads, i < 4) →
      ∀ i ∈ (searchFrom sur tgt cur path findResult found reads).reads, i < 4 := by
  intro cur
  induction cur with
  | nil =>
    intro path findResult found reads _ _ _ hreads
    rw [searchFrom]
    split
    · exact hreads
    split
    · exact hreads
    · exact hreads
  | node a l r ihl ihr =>
    intro path findResult found reads hall hfull hparent hreads
    have ha := hall a (by simp)
    obtain ⟨hd1, hd2, -, -, hidx⟩ := diffKeys_spec sur.beyond tgt.ip a.ip hbits ha
    have hidx' : ∀ i ∈ (diffKeys sur.beyond tgt.ip tgt.bits a.ip a.bits).2, i < 4 := by
      apply hidx
      rintro ⟨h1, h2, h3⟩
      exact hfull h1 a (by simp) h2 h3.symm
    rw [searchFrom]
    generalize hdef : (diffKeys sur.beyond tgt.ip tgt.bits a.ip a.bits) = d at *
    have hreads' : ∀ i ∈ reads ++ d.2, i < 4 := by
      intro i hi
      rcases mem_append.1 hi with hi | hi
      · exact hreads i hi
      · exact hidx' i hi
    have hone : ∀ n < 4, ∀ i ∈ reads ++ d.2 ++ [n], i < 4 := by
      intro n hn i hi
      rcases mem_append.1 hi with hi | hi
      · exact hreads' i hi
      · rw [mem_singleton.1 hi]
        exact hn
    dsimp only
    split
    · exact hreads
    split
    · split
      · split
        · split <;> exact hreads'
        · split <;> exact hreads'
      · split
        · exact hreads'
        · next hcreate =>
            split
            · exact hreads'
            · have := hparent (by simpa using hcreate) a (by simp)
              exact hone _ (by omega)
    split
    · have hlt : d.1 / 32 < 4 := by omega
      split
      · exact ihr _ _ _ _ (fun b hb => hall b (by simp [hb])) (fun h b hb => hfull h b (by simp [hb]))
          (fun h b hb => hparent h b (by simp [hb])) (hone _ hlt)
      · exact ihl _ _ _ _ (fun b hb => hall b (by simp [hb])) (fun h b hb => hfull h b (by simp [hb]))
          (fun h b hb => hparent h b (by simp [hb])) (hone _ hlt)
    split
    · exact hreads'
    split
    · exact hreads'
    · exact hone _ (by omega)

/-! ### Runs -/

/-- The tree of a policy zone and the entries that are present in it. -/
structure State where
  cidr : Cidr
  entries : List (Key × ℕ)

/-- A call; `init` is what the key on the stack holds before. -/
inductive Op where
  | add (name : Name) (init : Key) (sur : Surroundings)
  | delete (name : Name) (init : Key) (sur : Surroundings)

/-- The entry that a call is about, if `name2ipkey` accepts its name. -/
def Op.entry (st : State) : Op → Option (Key × ℕ)
  | .add name init _ | .delete name init _ => name2ipkey init st.cidr name .ip

def Op.name : Op → Name
  | .add name _ _ | .delete name _ _ => name

/-- The entries after a call: one more unless there was no memory for it, or one less. -/
def Op.entries (st : State) (op : Op) : List (Key × ℕ) :=
  match op, op.entry st with
  | .add _ _ sur, some e =>
    if (search sur ⟨e.1, e.2, .ip, true⟩ st.cidr.root).result = .nomemory then st.entries
    else e :: st.entries
  | .delete _ _ _, some e => st.entries.filter (fun x => x ≠ e)
  | _, none => st.entries

/-- One call: the state after it and the word indices it used. -/
def step (opts : BuildOptions) (st : State) (op : Op) : State × List ℕ :=
  match op with
  | .add name init sur =>
    (⟨(addip opts sur init st.cidr name).1, op.entries st⟩, (addip opts sur init st.cidr name).2)
  | .delete name init sur =>
    (⟨(deleteip opts sur init st.cidr name).1, op.entries st⟩, (deleteip opts sur init st.cidr name).2)

def run (opts : BuildOptions) : State → List Op → State × List ℕ
  | st, [] => (st, [])
  | st, op :: ops =>
    ((run opts (step opts st op).1 ops).1, (step opts st op).2 ++ (run opts (step opts st op).1 ops).2)

/-- A policy zone without entries. -/
def State.init (ipName nsipName nsdnameName : Name) : State :=
  ⟨⟨false, .nil, ipName, nsipName, nsdnameName⟩, []⟩

/-! ### What a run is for -/

/-- The prefix of the entry contains the address. -/
def Contains (e : Key × ℕ) (ip : Key) : Prop := Agree e.2 e.1.toBits ip.toBits

/-- Two entries denote the same prefix. -/
def SamePrefix (e e' : Key × ℕ) : Prop := e.2 = e'.2 ∧ e.1.masked e.2 = e'.1.masked e'.2

/-- Everything below a node lies on the side of its first bit behind the node's prefix. -/
def Sided : BitTree CidrNode → Prop
  | .nil => True
  | .node a l r =>
    (∀ b ∈ l.labels, a.bits < b.bits ∧ Agree a.bits b.ip.toBits a.ip.toBits ∧ b.ip.toBits a.bits = false) ∧
      (∀ b ∈ r.labels, a.bits < b.bits ∧ Agree a.bits b.ip.toBits a.ip.toBits ∧ b.ip.toBits a.bits = true) ∧
      Sided l ∧ Sided r

/-- A node's IP flag is set exactly when it or a descendant holds IP data. -/
def FlagExact : BitTree CidrNode → Prop
  | .nil => True
  | .node a l r => (a.flags.ip = true ↔ ∃ b ∈ (BitTree.node a l r).labels, b.flags.ipData = true) ∧
      FlagExact l ∧ FlagExact r

/-- The answer for an address is the longest entry that contains it, under its canonical search
name. -/
structure LongestMatch (st : State) (ip : Key) (answer : Answer) : Prop where
  some : ∀ e ∈ st.entries, Contains e ip → (∀ e' ∈ st.entries, Contains e' ip → e'.2 ≤ e.2) →
    ∃ n, ip2name st.cidr (e.1.masked e.2) e.2 .ip = some n ∧ answer = ⟨.success, some e.2, some n⟩
  none : (∀ e ∈ st.entries, ¬ Contains e ip) → answer = ⟨.notfound, none, none⟩

/-- Lookups answer with the longest match and stay inside the key arrays; the tree is in order. -/
structure Correct (st : State) : Prop where
  longest : ∀ sur addr ip, addr.key = some ip → LongestMatch st ip (find sur st.cidr addr .ip).1
  reads : ∀ sur addr, ∀ i ∈ (find sur st.cidr addr .ip).2, i < 4
  sided : Sided st.cidr.root
  flags : FlagExact st.cidr.root

/-- What is asked of a call with the `rpz-ip` entry `e`. -/
def EntryOk (st : State) : Op → Key × ℕ → Prop
  | .add _ _ sur, e =>
    wrongSide sur ⟨e.1, e.2, .ip, true⟩ st.cidr.root = false ∧
      (∀ e' ∈ st.entries, SamePrefix e' e → e' = e) ∧ e.2 < 128 ∧
      (ip2name st.cidr (e.1.masked e.2) e.2 .ip).isSome
  | .delete _ _ _, e => ∀ e' ∈ st.entries, SamePrefix e' e → e' = e

/-- A call with an `rpz-ip` owner name that meets the conditions. -/
def StepOk (opts : BuildOptions) (st : State) (op : Op) : Prop :=
  setType opts st.cidr op.name = .ip ∧ ∀ e ∈ op.entry st, EntryOk st op e

/-- Every call of the run meets the conditions. -/
def RunOk (opts : BuildOptions) : State → List Op → Prop
  | _, [] => True
  | st, op :: ops => StepOk opts st op ∧ RunOk opts (step opts st op).1 ops

/-! ### The invariant of a run -/

variable {e : Key × ℕ}

theorem readKey_bits {init : Key} {ipLabels : ℕ} {text : Bytes}
    (h : readKey init ipLabels text = some e) : e.2 ≤ 128 := by
  unfold readKey at h
  split at h
  · split at h
    · cases h
    · next hrange =>
        split at h
        · split at h
          · cases h
          · next h32 =>
              split at h
              · cases h
                omega
              · cases h
        split at h
        · cases h
          omega
        · cases h
  · cases h

theorem name2ipkey_bits {init : Key} {cidr : Cidr} {name : Name} {type : RpzType}
    (h : name2ipkey init cidr name type = some e) : e.2 ≤ 128 := by
  unfold name2ipkey at h
  split at h
  · cases h
  dsimp only at h
  split at h
  · cases h
  next hread =>
    have hle := readKey_bits hread
    split at h
    · cases h
    split at h
    · cases h
    split at h
    · cases h
      exact hle
    · cases h

/-- The tree holds exactly the prefixes of the entries, and all of them have names. -/
structure RunInv (st : State) : Prop where
  inv : Inv 127 st.cidr.root
  has : ∀ ip bits, Has st.cidr.root ip bits ↔ ∃ e ∈ st.entries, e.1.masked e.2 = ip ∧ e.2 = bits
  named : ∀ e ∈ st.entries, (ip2name st.cidr (e.1.masked e.2) e.2 .ip).isSome

theorem RunInv.init (ipName nsipName nsdnameName : Name) : RunInv (State.init ipName nsipName nsdnameName) :=
  ⟨⟨fun _ => trivial, fun a ha => absurd ha (by simp [State.init]), trivial⟩,
    fun ip bits => by simp [State.init], fun e he => absurd he (by simp [State.init])⟩

variable {st : State}

theorem search_lookup (h : RunInv st) (sur : Surroundings) (ip : Key) {bits : ℕ} (hbits : bits ≤ 128) :
    LookedUp ⟨ip, bits, .ip, false⟩ st.cidr.root [] .notfound none (search sur ⟨ip, bits, .ip, false⟩ st.cidr.root) :=
  searchFrom_lookup (N := 128) rfl rfl le_rfl hbits _ _ _ _ _ 0 trivial (h.inv.fits _)
    (fun a ha => ⟨(h.inv.shape a ha).1.trans (by omega), (h.inv.shape a ha).2⟩) h.inv.flags

theorem covers_of_entry (h : RunInv st) (he : e ∈ st.entries) {t : Target} (hle : e.2 ≤ t.bits) (hcont : Contains e t.ip) :
    ∃ b ∈ st.cidr.root.labels, Covers t b ∧ b.ip = e.1.masked e.2 ∧ b.bits = e.2 := by
  obtain ⟨b, hb, hip, hbits, hdata⟩ := (h.has _ _).2 ⟨e, he, rfl, rfl⟩
  refine ⟨b, hb, ⟨hdata, by omega, ?_⟩, hip, hbits⟩
  rw [hip, hbits]
  exact (agree_masked _ _).trans hcont

theorem entry_of_covers (h : RunInv st) {tgt : Target} {b : CidrNode} (hb : b ∈ st.cidr.root.labels) (hcov : Covers tgt b) :
    ∃ e ∈ st.entries, e.1.masked e.2 = b.ip ∧ e.2 = b.bits ∧ Contains e tgt.ip := by
  obtain ⟨e, he, hip, hbits⟩ := (h.has _ _).1 ⟨b, hb, rfl, rfl, hcov.1⟩
  refine ⟨e, he, hip, hbits, ?_⟩
  have hagree := hcov.2.2
  rw [← hip, ← hbits] at hagree
  exact (agree_masked _ _).symm.trans hagree

theorem find_longest (h : RunInv st) (sur : Surroundings) {addr : NetAddr} {ip : Key}
    (haddr : addr.key = some ip) : LongestMatch st ip (find sur st.cidr addr .ip).1 := by
  obtain ⟨-, hcase⟩ := search_lookup h sur ip (le_refl 128)
  unfold find
  simp only [haddr]
  rcases hcase with ⟨hno, hres, hfound⟩ | ⟨place, -, hin, hcov, hmax, hfound, hres⟩
  · refine ⟨fun e he hcont _ => ?_, fun _ => by unfold Found.answer; rw [hres, hfound]⟩
    have hbits : e.2 ≤ 128 := by
      obtain ⟨b, hb, -, hb2, -⟩ := (h.has _ _).2 ⟨e, he, rfl, rfl⟩
      have := (h.inv.shape b hb).1
      omega
    obtain ⟨b, hb, hcov, -⟩ := covers_of_entry h he (t := ⟨ip, 128, .ip, false⟩) hbits hcont
    exact absurd hcov (hno b hb)
  obtain ⟨e0, he0, hip0, hbits0, hcont0⟩ := entry_of_covers h hin hcov
  have hans : ∀ n, ip2name st.cidr place.node.ip place.node.bits .ip = some n →
      (search sur ⟨ip, 128, .ip, false⟩ st.cidr.root).answer st.cidr .ip =
        ⟨.success, some place.node.bits, some n⟩ := by
    intro n hn
    unfold Found.answer
    rw [hres, hfound]
    split_ifs <;> simp [hn]
  refine ⟨fun e he hcont hlongest => ?_, fun hno => absurd hcont0 (hno e0 he0)⟩
  -- the node found and the longest entry have the same length, so they are the same prefix
  have hle : e.2 ≤ 128 := by
    obtain ⟨b, hb, -, hb2, -⟩ := (h.has _ _).2 ⟨e, he, rfl, rfl⟩
    have := (h.inv.shape b hb).1
    omega
  obtain ⟨b, hb, hcovb, -, hbbits⟩ := covers_of_entry h he (t := ⟨ip, 128, .ip, false⟩) hle hcont
  have hge : e.2 ≤ place.node.bits := hbbits ▸ hmax b hb hcovb
  have heq : e.2 = place.node.bits := le_antisymm hge (hbits0 ▸ hlongest e0 he0 hcont0)
  have hkey : e.1.masked e.2 = place.node.ip := by
    rw [← hip0, hbits0, heq, masked_eq_iff]
    unfold Contains at hcont hcont0
    rw [hbits0] at hcont0
    rw [heq] at hcont
    exact hcont.trans hcont0.symm
  obtain ⟨n, hn⟩ := Option.isSome_iff_exists.1 (h.named e he)
  refine ⟨n, hn, ?_⟩
  rw [hkey, heq] at hn
  rw [hans n hn, heq]

theorem find_reads (h : RunInv st) (sur : Surroundings) (addr : NetAddr) : ∀ i ∈ (find sur st.cidr addr .ip).2, i < 4 := by
  unfold find
  obtain _ | ip := addr.key
  · intro i hi; cases hi
  apply searchFrom_reads le_rfl
  · intro a ha
    have := (h.inv.shape a ha).1
    omega
  · intro _ a ha h128
    have := (h.inv.shape a ha).1
    omega
  · intro hc
    cases hc
  · intro i hi
    cases hi

theorem sided_of_fits : ∀ {t : BitTree CidrNode} {c : Bits} {n : ℕ},
    Fits CidrNode.bits nodeKey c n t → Sided t
  | .nil, _, _, _ => trivial
  | .node a l r, _, _, h => by
    obtain ⟨hl, hr⟩ := h.children rfl (Agree.refl _ _)
    have side : ∀ {t : BitTree CidrNode} {v : Bool},
        Fits CidrNode.bits nodeKey (update a.ip.toBits a.bits v) (a.bits + 1) t →
        ∀ b ∈ t.labels, a.bits < b.bits ∧ Agree a.bits b.ip.toBits a.ip.toBits ∧ b.ip.toBits a.bits = v := by
      intro t v ht b hb
      obtain ⟨hlt, hagree⟩ := ht.of_mem hb
      have hk := hagree _ rfl
      refine ⟨hlt, fun i hi => ?_, ?_⟩
      · rw [hk i (by omega), update_of_ne (by omega)]
      · rw [hk a.bits (by omega), update_self]
    exact ⟨side hl, side hr, sided_of_fits hl, sided_of_fits hr⟩

theorem flagExact_of_flagsOk : ∀ {t : BitTree CidrNode}, FlagsOk t → FlagExact t
  | .nil, _ => trivial
  | .node _ _ _, h => ⟨h.ip_iff, flagExact_of_flagsOk h.2.1, flagExact_of_flagsOk h.2.2⟩
theorem RunInv.correct (h : RunInv st) : Correct st where
  longest sur _ _ haddr := find_longest h sur haddr
  reads := find_reads h
  sided := sided_of_fits (h.inv.fits (fun _ => false))
  flags := flagExact_of_flagsOk h.inv.flags

/-! ### Steps -/

/-- An entry is added, or was there before. -/
theorem add_inv (h : RunInv st) {sur : Surroundings} (hle : e.2 < 128)
    (hside : wrongSide sur ⟨e.1, e.2, .ip, true⟩ st.cidr.root = false)
    (hname : (ip2name st.cidr (e.1.masked e.2) e.2 .ip).isSome) :
    let f := search sur ⟨e.1, e.2, .ip, true⟩ st.cidr.root
    RunInv ⟨{ st.cidr with root := f.root },
      if f.result = .nomemory then st.entries else e :: st.entries⟩ ∧ ∀ i ∈ f.reads, i < 4 := by
  intro f
  have hreads : ∀ i ∈ f.reads, i < 4 := by
    apply searchFrom_reads (le_of_lt hle)
    · intro a ha
      have := (h.inv.shape a ha).1
      omega
    · intro hc
      exact absurd hc (by show e.2 ≠ 128; omega)
    · intro _ a ha
      have := (h.inv.shape a ha).1
      omega
    · intro i hi
      cases hi
  refine ⟨?_, hreads⟩
  have hnamed : ∀ e' ∈ e :: st.entries, (ip2name st.cidr (e'.1.masked e'.2) e'.2 .ip).isSome := by
    intro e' he'
    rcases mem_cons.1 he' with rfl | he'
    · exact hname
    · exact h.named e' he'
  have hins : Inserted 127 ⟨e.1, e.2, .ip, true⟩ st.cidr.root f := by
    refine searchFrom_insert (N := 127) rfl rfl (by omega) ?_ st.cidr.root [] .notfound none [] 0 trivial
      (Nat.zero_le _) (h.inv.fits _) h.inv.shape h.inv.flags hside
    show e.2 ≤ 127
    omega
  cases hins with
  | «exists» hres hroot hhas =>
    rw [hres, hroot, if_neg (by simp)]
    refine ⟨h.inv, fun ip bits => ?_, hnamed⟩
    simp only [mem_cons, exists_eq_or_imp]
    rw [← h.has]
    constructor
    · exact .inr
    · rintro (⟨rfl, rfl⟩ | hh)
      · exact hhas
      · exact hh
  | nomemory hres hroot =>
    rw [hres, hroot, if_pos rfl]
    exact h
  | success hres hinv hhas =>
    rw [hres, if_neg (by simp)]
    refine ⟨hinv, fun ip bits => ?_, hnamed⟩
    simp only [mem_cons, exists_eq_or_imp]
    rw [hhas, ← h.has]
    constructor
    · rintro (hh | ⟨rfl, rfl⟩)
      · exact .inr hh
      · exact .inl ⟨rfl, rfl⟩
    · rintro (⟨rfl, rfl⟩ | hh)
      · exact .inr ⟨rfl, rfl⟩
      · exact .inl hh

/-- The tree after a deletion that looked for the entry. -/
def deletedRoot (e : Key × ℕ) (f : Found) (root : BitTree CidrNode) : BitTree CidrNode :=
  match f.result, f.found with
  | .success, some place => deleteAt (getFlags e.1 e.2 .ip) place
  | _, _ => root

/-- An entry is removed, or was not there. -/
theorem delete_inv (h : RunInv st) (sur : Surroundings) (hle : e.2 ≤ 128)
    (hsame : ∀ e' ∈ st.entries, SamePrefix e' e → e' = e) :
    RunInv ⟨{ st.cidr with root := deletedRoot e (search sur ⟨e.1, e.2, .ip, false⟩ st.cidr.root) st.cidr.root },
      st.entries.filter (fun x => x ≠ e)⟩ := by
  have hnamed : ∀ e' ∈ st.entries.filter (fun x => x ≠ e),
      (ip2name st.cidr (e'.1.masked e'.2) e'.2 .ip).isSome :=
    fun e' he' => h.named e' (mem_filter.1 he').1
  -- what is left are the entries with another prefix
  have hleft : ∀ ip bits, (∃ e' ∈ st.entries.filter (fun x => x ≠ e), e'.1.masked e'.2 = ip ∧ e'.2 = bits) ↔
      Has st.cidr.root ip bits ∧ ¬ (ip = e.1.masked e.2 ∧ bits = e.2) := by
    intro ip bits
    rw [h.has]
    constructor
    · rintro ⟨e', he', rfl, rfl⟩
      obtain ⟨hin, hne⟩ := mem_filter.1 he'
      refine ⟨⟨e', hin, rfl, rfl⟩, ?_⟩
      rintro ⟨h1, h2⟩
      exact (of_decide_eq_true hne) (hsame e' hin ⟨h2, h1⟩)
    · rintro ⟨⟨e', hin, rfl, rfl⟩, hne⟩
      refine ⟨e', mem_filter.2 ⟨hin, decide_eq_true ?_⟩, rfl, rfl⟩
      rintro rfl
      exact hne ⟨rfl, rfl⟩
  -- without a node for the prefix nothing changes
  have hgone : ¬ Has st.cidr.root (e.1.masked e.2) e.2 →
      RunInv ⟨st.cidr, st.entries.filter (fun x => x ≠ e)⟩ := by
    intro hno
    refine ⟨h.inv, fun ip bits => ?_, hnamed⟩
    rw [hleft]
    constructor
    · intro hh
      refine ⟨hh, ?_⟩
      rintro ⟨rfl, rfl⟩
      exact hno hh
    · exact And.left
  have hnot : ∀ b : CidrNode, b.ip = e.1.masked e.2 → b.bits = e.2 → b.flags.ipData = true →
      Covers ⟨e.1, e.2, .ip, false⟩ b := by
    intro b hip hbits hdata
    refine ⟨hdata, le_of_eq hbits, ?_⟩
    rw [hip, hbits]
    exact agree_masked _ _
  obtain ⟨-, hcase⟩ := search_lookup h sur e.1 hle
  unfold deletedRoot
  rcases hcase with ⟨hno, hres, hfound⟩ | ⟨place, hplace, hin, hcov, hmax, hfound, hres⟩
  · rw [hres, hfound]
    apply hgone
    rintro ⟨b, hb, hip, hbits, hdata⟩
    exact hno b hb (hnot b hip hbits hdata)
  rw [hres, hfound]
  split_ifs with heq
  · have hkey : place.node.ip = e.1.masked e.2 := by
      have hshape := (h.inv.shape _ hin).2
      rw [← hshape, heq, masked_eq_iff]
      have := hcov.2.2
      rw [heq] at this
      exact this
    obtain ⟨hinv, hhas⟩ := deleteAt_spec h.inv hplace hcov
    refine ⟨hinv, fun ip bits => ?_, hnamed⟩
    rw [hleft, ← hkey, ← (show place.node.bits = e.2 from heq)]
    exact hhas ip bits
  · apply hgone
    rintro ⟨b, hb, hip, hbits, hdata⟩
    have h1 := hmax b hb (hnot b hip hbits hdata)
    have h2 : place.node.bits ≤ e.2 := hcov.2.1
    exact heq (le_antisymm h2 (hbits ▸ h1))

theorem delete_reads (h : RunInv st) (sur : Surroundings) (hle : e.2 ≤ 128) :
    ∀ i ∈ (search sur ⟨e.1, e.2, .ip, false⟩ st.cidr.root).reads, i < 4 := by
  apply searchFrom_reads hle
  · intro a ha
    have := (h.inv.shape a ha).1
    omega
  · intro _ a ha h128
    have := (h.inv.shape a ha).1
    omega
  · intro hc
    cases hc
  · intro i hi
    cases hi

theorem step_inv {opts : BuildOptions} (h : RunInv st) {op : Op} (hop : StepOk opts st op) :
    RunInv (step opts st op).1 ∧ ∀ i ∈ (step opts st op).2, i < 4 := by
  obtain ⟨htype, hok⟩ := hop
  cases op with
  | add name init sur =>
    simp only [Op.name] at htype
    simp only [step, addip, htype, Op.entries, Op.entry] at hok ⊢
    cases hkey : name2ipkey init st.cidr name .ip with
    | none => exact ⟨h, fun i hi => absurd hi (by simp)⟩
    | some e =>
      obtain ⟨hside, -, hlt, hname⟩ := hok e hkey
      exact add_inv h hlt hside hname
  | delete name init sur =>
    simp only [Op.name] at htype
    simp only [step, deleteip, htype, Op.entries, Op.entry] at hok ⊢
    cases hkey : name2ipkey init st.cidr name .ip with
    | none => exact ⟨h, fun i hi => absurd hi (by simp)⟩
    | some e =>
      have hle := name2ipkey_bits hkey
      have hinv := delete_inv h sur hle (hok e hkey)
      have hreads := delete_reads h sur hle
      unfold deletedRoot at hinv
      dsimp only
      split
      · next hres hfound =>
          rw [hres, hfound] at hinv
          exact ⟨hinv, hreads⟩
      next hno =>
        refine ⟨?_, hreads⟩
        split at hinv
        · next hres hfound => exact absurd hfound (hno _ hres)
        · exact hinv

theorem run_inv {opts : BuildOptions} : ∀ (ops : List Op) (st : State), RunInv st → RunOk opts st ops →
    RunInv (run opts st ops).1 ∧ ∀ i ∈ (run opts st ops).2, i < 4
  | [], _, h, _ => ⟨h, fun i hi => by cases hi⟩
  | op :: ops, st, h, ⟨hop, hops⟩ => by
    obtain ⟨h1, hr1⟩ := step_inv h hop
    obtain ⟨h2, hr2⟩ := run_inv ops _ h1 hops
    refine ⟨h2, fun i hi => ?_⟩
    rcases mem_append.1 hi with hi | hi
    · exact hr1 i hi
    · exact hr2 i hi

/-- In every state that a run reaches, lookups answer with the longest prefix present, all word
indices are inside the key arrays, and the sides and flags of the tree are right. -/
theorem longest_match_run (opts : BuildOptions) (ipName nsipName nsdnameName : Name) (ops : List Op)
    (hops : RunOk opts (State.init ipName nsipName nsdnameName) ops) :
    Correct (run opts (State.init ipName nsipName nsdnameName) ops).1 ∧
      ∀ i ∈ (run opts (State.init ipName nsipName nsdnameName) ops).2, i < 4 := by
  obtain ⟨hinv, hreads⟩ := run_inv ops _ (RunInv.init ipName nsipName nsdnameName) hops
  exact ⟨hinv.correct, hreads⟩

/-! ### Two concrete runs -/

instance (e e' : Key × ℕ) : Decidable (SamePrefix e e') :=
  inferInstanceAs (Decidable (e.2 = e'.2 ∧ e.1.masked e.2 = e'.1.masked e'.2))

instance (st : State) (op : Op) (e : Key × ℕ) : Decidable (EntryOk st op e) :=
  match op with
  | .add _ _ sur => inferInstanceAs (Decidable (wrongSide sur ⟨e.1, e.2, .ip, true⟩ st.cidr.root = false ∧
      (∀ e' ∈ st.entries, SamePrefix e' e → e' = e) ∧ e.2 < 128 ∧
      (ip2name st.cidr (e.1.masked e.2) e.2 .ip).isSome))
  | .delete _ _ _ => inferInstanceAs (Decidable (∀ e' ∈ st.entries, SamePrefix e' e → e' = e))

instance (opts : BuildOptions) (st : State) (op : Op) : Decidable (StepOk opts st op) :=
  inferInstanceAs (Decidable (setType opts st.cidr op.name = .ip ∧ ∀ e ∈ op.entry st, EntryOk st op e))

instance decidableRunOk (opts : BuildOptions) : ∀ (st : State) (ops : List Op), Decidable (RunOk opts st ops)
  | _, [] => isTrue trivial
  | st, op :: ops =>
    have : Decidable (RunOk opts (step opts st op).1 ops) := decidableRunOk opts _ ops
    inferInstanceAs (Decidable (StepOk opts st op ∧ RunOk opts (step opts st op).1 ops))

def defaultBuild : BuildOptions := ⟨false, false⟩
def calm : Surroundings := ⟨0, true, true⟩
def emptyKey : Key := ⟨0, 0, 0, 0⟩

/-- The zone `rpz.`: `rpz-ip.rpz.`, `rpz-nsip.rpz.` and `rpz-nsdname.rpz.`. -/
def emptyZone : State :=
  State.init ⟨[[0x72, 0x70, 0x7a, 0x2d, 0x69, 0x70], [0x72, 0x70, 0x7a], []]⟩
    ⟨[[0x72, 0x70, 0x7a, 0x2d, 0x6e, 0x73, 0x69, 0x70], [0x72, 0x70, 0x7a], []]⟩
    ⟨[[0x72, 0x70, 0x7a, 0x2d, 0x6e, 0x73, 0x64, 0x6e, 0x61, 0x6d, 0x65], [0x72, 0x70, 0x7a], []]⟩

/-- `24.0.128.0.10.rpz-ip.rpz.`, for 10.0.128.0/24. -/
def name24 : Name :=
  ⟨[[0x32, 0x34], [0x30], [0x31, 0x32, 0x38], [0x30], [0x31, 0x30],
    [0x72, 0x70, 0x7a, 0x2d, 0x69, 0x70], [0x72, 0x70, 0x7a], []]⟩

/-- `16.0.0.0.10.rpz-ip.rpz.`, for 10.0.0.0/16. -/
def name16 : Name :=
  ⟨[[0x31, 0x36], [0x30], [0x30], [0x30], [0x31, 0x30],
    [0x72, 0x70, 0x7a, 0x2d, 0x69, 0x70], [0x72, 0x70, 0x7a], []]⟩

/-- The shorter prefix first, so that nothing is hung under a new parent. -/
def downwardOps : List Op :=
  [.add name16 emptyKey calm, .add name24 emptyKey calm, .delete name16 emptyKey calm]

theorem longest_match_downward : RunOk defaultBuild emptyZone downwardOps ∧
      Correct (run defaultBuild emptyZone downwardOps).1 ∧ ∀ i ∈ (run defaultBuild emptyZone downwardOps).2, i < 4 := by
  have hops : RunOk defaultBuild emptyZone downwardOps := by decide +kernel
  exact ⟨hops, longest_match_run defaultBuild _ _ _ downwardOps hops⟩

/-- The shorter prefix second: bit 16 of 10.0.128.0 is one and bit 17 is zero. -/
def upwardOps : List Op := [.add name24 emptyKey calm, .add name16 emptyKey calm]

/-- 10.0.128.1 is in 10.0.128.0/24, but the answer is 10.0.0.0/16. -/
theorem longest_match_missed : (∀ op ∈ upwardOps, (op.entry emptyZone).isSome) ∧
      ¬ Correct (run defaultBuild emptyZone upwardOps).1 := by
  refine ⟨by decide +kernel, fun h => ?_⟩
  have hfound := (h.longest calm (.inet 0x0a008001) ⟨0, 0, ADDR_V4MAPPED, 0x0a008001⟩ rfl).some
    (⟨0, 0, ADDR_V4MAPPED, 0x0a008000⟩, 120) (by decide +kernel) (by unfold Contains Agree; decide +kernel)
    (by unfold Contains Agree; decide +kernel)
  obtain ⟨n, -, hans⟩ := hfound
  have hbits : (find calm (run defaultBuild emptyZone upwardOps).1.cidr (.inet 0x0a008001) .ip).1.bits =
      some 112 := by decide +kernel
  rw [hans] at hbits
  cases hbits

end Bind9.Rpz
