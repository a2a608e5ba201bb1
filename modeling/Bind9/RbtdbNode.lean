import Mathlib.Data.List.Basic
import Mathlib.Data.List.Nodup
import Mathlib.Tactic
import Bind9.Lib.VersionChain
import Bind9.Rbtdb

/-! # What a version sees at a node

`view v data` is the content of a node in version `v`: the TTL and the rdata of every type.
`zone_findrdataset` reads nothing else (`zoneFindrdataset_eq`).

* `clean_spec`: `clean_zone_node` shows every version from the least serial on what it saw before,
  provided the headers above another one are not newer than that.
* `view_rollbackNode`: `rollback_node` is not seen by older versions.
* `add_spec`, `subtract_spec`: a write is not seen by older versions, and shows the writer what
  `NodeView.add` and `NodeView.subtract` say. -/

namespace Bind9.Rbtdb

open VersionChain
open List
open Function
open Option hiding any_eq_true mem_map
open Bool

abbrev NodeView := RdType → Option Rdataset

/-- The header of a chain that version `v` sees. -/
abbrev see (v : ℕ) (hs : List Header) : Option Header := seen Header.serial Header.ignore v hs

/-- The content of a node in version `v`. -/
def view (v : ℕ) (data : List Chain) : NodeView := fun t =>
  (findChain t data).bind (fun c => (see v c.headers).bind Header.bind)

/-- A chain as the database keeps it. -/
structure ChainOk (c : Chain) : Prop where
  ordered : Ordered Header.serial Header.ignore c.headers
  typed : ∀ h ∈ c.headers, h.type = c.top.type

/-- The list of a node as the database keeps it: one chain for a type. -/
structure DataOk (data : List Chain) : Prop where
  chains : ∀ c ∈ data, ChainOk c
  types : (data.map (fun c => c.top.type)).Nodup

/-- Header `h` stands in a chain of the node. -/
def Stands (data : List Chain) (h : Header) : Prop := ∃ c ∈ data, h ∈ c.headers

/-- Header `h` stands above another one. -/
def Above (data : List Chain) (h : Header) : Prop := ∃ c ∈ data, h ∈ c.headers.dropLast

variable {h : Header}

theorem Above.stands {data : List Chain} (ha : Above data h) : Stands data h := by
  obtain ⟨c, hc, hh⟩ := ha
  exact ⟨c, hc, mem_of_mem_dropLast hh⟩

theorem Chain.top_mem (c : Chain) : c.top ∈ c.headers := mem_cons_self

theorem DataOk.tail {c : Chain} {cs : List Chain} (h : DataOk (c :: cs)) : DataOk cs :=
  ⟨fun d hd => h.chains d (mem_cons_of_mem _ hd), (nodup_cons.1 h.types).2⟩

/-! ### Reading -/

theorem bind_isSome : h.bind.isSome = h.rdata.isSome := by
  unfold Header.bind
  exact isSome_map

theorem active_eq (v : ℕ) : ∀ hs : List Header, active v hs = (see v hs).filter (fun h => h.rdata.isSome)
  | [] => rfl
  | h :: hs => by
    rw [active]
    by_cases hv : h.serial ≤ v ∧ h.ignore = false
    · rw [if_pos hv, see, seen_of_head hv.1 hv.2]
      cases hr : h.rdata with
      | none | some s => simp [Option.filter, hr]
    · rw [if_neg hv, active_eq v hs, see, see, seen_cons_of_unseen hv]
theorem active_bind (v : ℕ) (hs : List Header) : (active v hs).bind Header.bind = (see v hs).bind Header.bind := by
  rw [active_eq]
  obtain _ | h := see v hs
  · rfl
  cases hr : h.rdata with
  | none => simp [Option.filter, Header.bind, hr]
  | some s => simp [Option.filter, hr]

variable {v least s : ℕ}

theorem active_mem {hs : List Header} (ha : active v hs = some h) : h ∈ hs ∧ h.rdata.isSome = true := by
  rw [active_eq, filter_eq_some_iff] at ha
  exact ⟨(seen_mem ha.1).1, ha.2⟩

theorem active_isSome (v : ℕ) (hs : List Header) : (active v hs).isSome = ((see v hs).bind Header.bind).isSome := by
  rw [← active_bind]
  cases ha : active v hs with
  | none => rfl
  | some h => simp [bind_isSome, (active_mem ha).2]

theorem findChain_cons (t : RdType) (c : Chain) (cs : List Chain) :
    findChain t (c :: cs) = if c.top.type = t then some c else findChain t cs := by
  unfold findChain
  rw [find?_cons]
  by_cases h : c.top.type = t
  · simp [h]
  · simp [h]

theorem findChain_some {t : RdType} {data : List Chain} {c : Chain} (h : findChain t data = some c) :
    c ∈ data ∧ c.top.type = t :=
  ⟨mem_of_find?_eq_some h, by simpa using find?_some h⟩

theorem findChain_none {t : RdType} {data : List Chain} (h : t ∉ data.map (fun c => c.top.type)) :
    findChain t data = none := by
  rw [findChain, find?_eq_none]
  intro c hc
  simpa using fun ht => h (mem_map.2 ⟨c, hc, ht⟩)

theorem findChain_of_mem {data : List Chain} (hd : DataOk data) {c : Chain} (hc : c ∈ data) :
    findChain c.top.type data = some c := by
  induction data with
  | nil => exact absurd hc not_mem_nil
  | cons d ds ih =>
    rw [findChain_cons]
    rcases mem_cons.1 hc with rfl | hc
    · rw [if_pos rfl]
    rw [if_neg, ih hd.tail hc]
    intro he
    exact (nodup_cons.1 hd.types).1 (mem_map.2 ⟨c, hc, he.symm⟩)

theorem view_cons_self (c : Chain) (cs : List Chain) : view v (c :: cs) c.top.type = (see v c.headers).bind Header.bind := by
  rw [view, findChain_cons, if_pos rfl]
  rfl

theorem view_cons_ne {t : RdType} {c : Chain} (cs : List Chain) (h : c.top.type ≠ t) : view v (c :: cs) t = view v cs t := by
  rw [view, findChain_cons, if_neg h]
  rfl

theorem view_none {t : RdType} {data : List Chain} (h : t ∉ data.map (fun c => c.top.type)) : view v data t = none := by
  rw [view, findChain_none h]
  rfl

theorem findLoop_eq (v : ℕ) (t s : RdType) (hts : t ≠ s) : ∀ (data : List Chain) (found foundsig : Option Header),
    DataOk data → (found.isSome → foundsig.isNone) →
    (found.isSome → t ∉ data.map (fun c => c.top.type)) →
    (foundsig.isSome → s ∉ data.map (fun c => c.top.type)) →
    ((findLoop v t s data found foundsig).1.bind Header.bind =
        if found.isSome then found.bind Header.bind else view v data t) ∧
      ((findLoop v t s data found foundsig).2.bind Header.bind =
        if foundsig.isSome then foundsig.bind Header.bind else view v data s)
  | [], found, foundsig, _, _, _, _ => by
    cases found <;> cases foundsig <;> simp [findLoop, view, findChain]
  | c :: cs, found, foundsig, hd, hfs, hf, hs => by
    have hnot := (nodup_cons.1 hd.types).1
    have hf' : found.isSome → t ∉ cs.map (fun c => c.top.type) := fun h hm => hf h (mem_cons_of_mem _ hm)
    have hs' : foundsig.isSome → s ∉ cs.map (fun c => c.top.type) :=
      fun h hm => hs h (mem_cons_of_mem _ hm)
    have ih := findLoop_eq v t s hts cs
    rw [findLoop]
    cases ha : active v c.headers with
    | none =>
      have hv : (see v c.headers).bind Header.bind = none := by rw [← active_bind, ha]; rfl
      have hskip : ∀ u, view v (c :: cs) u = view v cs u := by
        intro u
        by_cases hu : c.top.type = u
        · rw [← hu, view_cons_self, hv, view_none hnot]
        · exact view_cons_ne cs hu
      rw [hskip, hskip]
      exact ih found foundsig hd.tail hfs hf' hs'
    | some h =>
      have hmem := active_mem ha
      have htype : h.type = c.top.type := (hd.chains c mem_cons_self).typed h hmem.1
      have hbind : (see v c.headers).bind Header.bind = h.bind := by rw [← active_bind, ha]; rfl
      simp only
      by_cases ht : h.type = t
      · have hct : c.top.type = t := by rw [← htype, ht]
        have hnf : found.isSome = false := by
          rw [eq_false_iff]
          exact fun hx => hf hx (by simp [hct])
        have hcs : c.top.type ≠ s := by rw [hct]; exact hts
        rw [if_pos ht, hnf, view_cons_ne cs hcs]
        have hview : view v (c :: cs) t = h.bind := by rw [← hct, view_cons_self, hbind]
        rw [hview]
        by_cases hsig : foundsig.isSome
        · rw [if_pos hsig, if_pos hsig]
          exact ⟨rfl, rfl⟩
        rw [if_neg hsig, if_neg hsig]
        have := ih (some h) foundsig hd.tail (fun _ => by simpa using hsig) (fun _ => hct ▸ hnot) hs'
        rw [if_neg hsig] at this
        exact this
      rw [if_neg ht]
      have hct : c.top.type ≠ t := by rw [← htype]; exact ht
      by_cases hsg : h.type = s
      · have hcs : c.top.type = s := by rw [← htype, hsg]
        have hns : foundsig.isSome = false := by
          rw [eq_false_iff]
          exact fun hx => hs hx (by simp [hcs])
        have hview : view v (c :: cs) s = h.bind := by rw [← hcs, view_cons_self, hbind]
        rw [if_pos hsg, hns, view_cons_ne cs hct, hview]
        by_cases hfd : found.isSome
        · rw [if_pos hfd, if_pos hfd]
          exact ⟨rfl, rfl⟩
        rw [if_neg hfd, if_neg hfd]
        have := ih found (some h) hd.tail (fun hx => absurd hx hfd) hf' (fun _ => hcs ▸ hnot)
        rw [if_neg hfd] at this
        exact this
      have hcs : c.top.type ≠ s := by rw [← htype]; exact hsg
      rw [if_neg hsg, view_cons_ne cs hct, view_cons_ne cs hcs]
      exact ih found foundsig hd.tail hfs hf' hs'

/-- The reading of an rdataset and its signatures from the content of a node. -/
def NodeView.findrdataset (w : NodeView) (t : RdType) : Option (Rdataset × Option Rdataset) :=
  (w t).map (fun r => (r, w t.sigmatch))

theorem RdType.ne_sigmatch (t : RdType) : t ≠ t.sigmatch := by
  unfold RdType.sigmatch
  split
  · next h =>
      intro he
      have hb := congrArg RdType.base he
      have hc := congrArg RdType.covers he
      simp only at hb hc
      rw [h, hb] at hc
      exact absurd hc (by decide)
  next h =>
    intro he
    exact h (congrArg RdType.covers he)

variable {node : Node}

theorem zoneFindrdataset_eq (hd : DataOk node.data) (v : ℕ) (t : RdType) :
    zoneFindrdataset node v t = NodeView.findrdataset (view v node.data) t := by
  have h := findLoop_eq v t t.sigmatch t.ne_sigmatch node.data none none hd (by simp) (by simp) (by simp)
  simp only [isSome_none, false_eq_true, if_false] at h
  rw [NodeView.findrdataset, ← h.1, ← h.2]
  rfl

/-! ### Cleaning -/

theorem ok_bind {α β : Type} (a : α) (f : α → Except Failure β) : (Except.ok a >>= f) = f a := rfl

theorem insist_true {b : Bool} (h : b = true) : insist b = .ok () := by
  rw [insist, h]
  rfl

/-- The second list is made from the first by dropping headers and chains. -/
def Trimmed (data data' : List Chain) : Prop :=
  ∀ c' ∈ data', ∃ c ∈ data, c'.headers.Sublist c.headers

theorem dropLast_sublist_dropLast {α : Type} {l l' : List α} (h : l'.Sublist l) : l'.dropLast.Sublist l.dropLast := by
  have ht := (h.reverse.tail).reverse
  rwa [← dropLast_reverse, ← dropLast_reverse, reverse_reverse, reverse_reverse] at ht

theorem Trimmed.stands {data data' : List Chain} (ht : Trimmed data data') (hs : Stands data' h) : Stands data h := by
  obtain ⟨c', hc', hh⟩ := hs
  obtain ⟨c, hc, hsub⟩ := ht c' hc'
  exact ⟨c, hc, hsub.mem hh⟩

theorem Trimmed.above {data data' : List Chain} (ht : Trimmed data data') (ha : Above data' h) : Above data h := by
  obtain ⟨c', hc', hh⟩ := ha
  obtain ⟨c, hc, hsub⟩ := ht c' hc'
  exact ⟨c, hc, (dropLast_sublist_dropLast hsub).mem hh⟩

theorem pruneDown_eq : ∀ (ds : List Header) (p : Header), (p :: ds).Pairwise (fun a b => b.serial ≤ a.serial) →
    pruneDown p ds = .ok (prune Header.serial Header.ignore p ds)
  | [], _, _ => rfl
  | d :: ds, p, hf => by
    have hdp : d.serial ≤ p.serial := (pairwise_cons.1 hf).1 d mem_cons_self
    rw [pruneDown, insist_true (by simpa using hdp), ok_bind, prune]
    by_cases hd : d.serial = p.serial ∨ d.ignore = true
    · rw [if_pos hd, if_pos hd]
      exact pruneDown_eq ds p (hf.sublist ((sublist_cons_self d ds).cons_cons p))
    · rw [if_neg hd, if_neg hd, pruneDown_eq ds d (pairwise_cons.1 hf).2]
      rfl

theorem freeDown_ok (least : ℕ) : ∀ ds : List Header, (∀ d ∈ ds, d.serial ≤ least) → freeDown least ds = .ok ()
  | [], _ => rfl
  | d :: ds, h => by
    rw [freeDown, insist_true (by simpa using h d mem_cons_self), ok_bind]
    exact freeDown_ok least ds (fun x hx => h x (mem_cons_of_mem _ hx))
/-- Behind the first header below the least serial all are below it. -/
theorem dropWhile_le : ∀ ds : List Header, ds.Pairwise (fun a b => b.serial ≤ a.serial) →
    ∀ d ∈ ds.dropWhile (fun d => decide (least ≤ d.serial)), d.serial ≤ least
  | d :: ds, hp, x, hx => by
    obtain ⟨hd, hds⟩ := pairwise_cons.1 hp
    by_cases hl : least ≤ d.serial
    · rw [dropWhile_cons_of_pos (by simpa using hl)] at hx
      exact dropWhile_le ds hds x hx
    rw [dropWhile_cons_of_neg (by simpa using hl)] at hx
    obtain rfl | hx := mem_cons.1 hx
    · omega
    · have := hd x hx
      omega

theorem cutDown_eq {ds : List Header} (hp : ds.Pairwise (fun a b => b.serial ≤ a.serial)) :
    cutDown least ds = .ok (ds.takeWhile (fun d => decide (least ≤ d.serial))) := by
  rw [cutDown, freeDown_ok least _ (dropWhile_le ds hp), ok_bind]
  rfl

/-- What `clean_zone_node` makes of one chain. -/
structure Cleaned (least : ℕ) (hs : List Header) (t : RdType) (r : Option Chain) : Prop where
  sublist : ∀ c' ∈ r, c'.headers.Sublist hs ∧ c'.top.type = t
  seen : ∀ v, least ≤ v → r.bind (fun c' => (see v c'.headers).bind Header.bind) = (see v hs).bind Header.bind

theorem cleanCurrent_spec (least : ℕ) {current : Header} {down : List Header}
    (ho : Ordered Header.serial Header.ignore (current :: down)) (hi : current.ignore = false)
    (hold : down ≠ [] → current.serial ≤ least) :
    ∃ r, cleanCurrent least current down = .ok r ∧ Cleaned least (current :: down) current.type r := by
  have hp := (pairwise_cons.1 ho.falls).2
  rw [cleanCurrent, cutDown_eq hp, ok_bind]
  -- with older headers below it, `current` is seen by every open version
  have hsee : ∀ v, least ≤ v → see v (current :: down.takeWhile (fun d => decide (least ≤ d.serial))) =
      see v (current :: down) := by
    intro v hv
    by_cases hdown : down = []
    · rw [hdown]
      rfl
    · have := hold hdown
      rw [see, seen_of_head (by omega) hi, see, seen_of_head (by omega) hi]
  by_cases hnx : down.takeWhile (fun d => decide (least ≤ d.serial)) = [] ∧ current.rdata.isNone = true
  · rw [if_pos hnx]
    refine ⟨none, rfl, by simp, fun v hv => ?_⟩
    rw [← hsee v hv, hnx.1, see]
    have hbind : current.bind = none := by
      rw [Header.bind, isNone_iff_eq_none.1 hnx.2]
      rfl
    by_cases hcv : current.serial ≤ v
    · rw [seen_of_head hcv hi]
      exact hbind.symm
    · rw [seen_cons_of_lt (by omega)]
      rfl
  rw [if_neg hnx]
  refine ⟨some ⟨current, _⟩, rfl, ?_, ?_⟩
  · intro c' hc'
    obtain rfl := mem_some_iff.1 hc'
    exact ⟨(takeWhile_sublist _).cons_cons current, rfl⟩
  · intro v hv
    exact congrArg (fun o => Option.bind o Header.bind) (hsee v hv)

theorem cleanChain_spec (least : ℕ) {c : Chain} (hc : ChainOk c)
    (hold : ∀ h ∈ c.headers.dropLast, h.ignore = false → h.serial ≤ least) :
    ∃ r, cleanChain least c = .ok r ∧ Cleaned least c.headers c.top.type r := by
  rw [cleanChain, pruneDown_eq c.down c.top hc.ordered.falls, ok_bind]
  have hsub := (prune_sublist Header.serial Header.ignore c.down c.top).cons_cons c.top
  have hseen : ∀ v, see v (c.top :: prune Header.serial Header.ignore c.top c.down) = see v c.headers :=
    fun v => seen_prune c.down c.top hc.ordered
  -- a header of the pruned chain with older ones below it stood above another one before
  have habove : ∀ {h : Header} {hs : List Header}, (h :: hs).Sublist c.headers → h.ignore = false → hs ≠ [] →
      h.serial ≤ least := by
    intro h hs hsub hi hne
    refine hold h ((dropLast_sublist_dropLast hsub).mem ?_) hi
    rw [dropLast_cons_of_ne_nil hne]
    exact mem_cons_self
  cases hi : c.top.ignore with
  | false =>
    simp only [false_eq_true, if_false]
    obtain ⟨r, hr, hcl⟩ := cleanCurrent_spec least (hc.ordered.of_sublist hsub) hi (habove hsub hi)
    refine ⟨r, hr, fun c' hc' => ⟨(hcl.sublist c' hc').1.trans hsub, (hcl.sublist c' hc').2⟩, fun v hv => ?_⟩
    rw [hcl.seen v hv, hseen]
  | true =>
    simp only [if_true]
    have hskip : ∀ v, see v (prune Header.serial Header.ignore c.top c.down) = see v c.headers := by
      intro v
      rw [← hseen, see, see, seen_cons_of_ignored hi]
    have hsub' : (prune Header.serial Header.ignore c.top c.down).Sublist c.headers :=
      (sublist_cons_self c.top _).trans hsub
    cases hpr : prune Header.serial Header.ignore c.top c.down with
    | nil =>
      rw [hpr] at hskip
      refine ⟨none, rfl, by simp, fun v _ => ?_⟩
      rw [← hskip v]
      rfl
    | cons d ds =>
      have hdi : d.ignore = false := by
        refine prune_not_ignored Header.serial Header.ignore c.down c.top d ?_
        rw [hpr]
        exact mem_cons_self
      rw [hpr] at hskip hsub'
      obtain ⟨r, hr, hcl⟩ := cleanCurrent_spec least (hc.ordered.of_sublist hsub') hdi
        (habove hsub' hdi)
      refine ⟨r, hr, fun c' hc' => ⟨(hcl.sublist c' hc').1.trans hsub', ?_⟩, fun v hv => ?_⟩
      · rw [(hcl.sublist c' hc').2]
        exact hc.typed d (hsub'.mem mem_cons_self)
      · rw [hcl.seen v hv, hskip]

theorem cleanChains_spec : ∀ data : List Chain, DataOk data →
    (∀ h, Above data h → h.ignore = false → h.serial ≤ least) →
    ∃ data', cleanChains least data = .ok data' ∧ DataOk data' ∧ Trimmed data data' ∧
      (∀ t ∈ data'.map (fun c => c.top.type), t ∈ data.map (fun c => c.top.type)) ∧
      ∀ v, least ≤ v → view v data' = view v data
  | [], hd, _ => ⟨[], rfl, hd, fun c hc => absurd hc not_mem_nil, fun _ h => h, fun _ _ => rfl⟩
  | c :: cs, hd, hold => by
    have hc := hd.chains c mem_cons_self
    have hnot : c.top.type ∉ cs.map (fun c => c.top.type) := (nodup_cons.1 hd.types).1
    obtain ⟨r, hr, hcl⟩ := cleanChain_spec least hc
      (fun h hh hi => hold h ⟨c, mem_cons_self, hh⟩ hi)
    obtain ⟨cs', hcs', hd', htr, htypes, hview⟩ := cleanChains_spec cs hd.tail (by
      rintro h ⟨d, hdm, hh⟩ hi
      exact hold h ⟨d, mem_cons_of_mem _ hdm, hh⟩ hi)
    have hrun : cleanChains least (c :: cs) = .ok (r.toList ++ cs') := by
      rw [cleanChains, hr, ok_bind, hcs', ok_bind]
      rfl
    refine ⟨r.toList ++ cs', hrun, ?_, ?_, ?_, ?_⟩
    · cases r with
      | none => exact hd'
      | some c' =>
        obtain ⟨hsub, htype⟩ := hcl.sublist c' rfl
        refine ⟨fun d hdm => ?_, nodup_cons.2 ⟨fun hm => hnot ?_, hd'.types⟩⟩
        · obtain rfl | hdm := mem_cons.1 hdm
          · exact ⟨hc.ordered.of_sublist hsub, fun h hh => by rw [hc.typed h (hsub.mem hh), htype]⟩
          · exact hd'.chains d hdm
        · rw [← htype]
          exact htypes _ hm
    · intro c' hc'
      obtain hc' | hc' := mem_append.1 hc'
      · exact ⟨c, mem_cons_self, (hcl.sublist c' (mem_toList.1 hc')).1⟩
      · obtain ⟨d, hdm, hsub⟩ := htr c' hc'
        exact ⟨d, mem_cons_of_mem _ hdm, hsub⟩
    · intro t ht
      rw [map_append] at ht
      obtain ht | ht := mem_append.1 ht
      · obtain ⟨c', hc', rfl⟩ := mem_map.1 ht
        rw [(hcl.sublist c' (mem_toList.1 hc')).2]
        exact mem_cons_self
      · exact mem_cons_of_mem _ (htypes t ht)
    · intro v hv
      funext t
      have hsv := hcl.seen v hv
      by_cases ht : c.top.type = t
      · have hgone : view v cs' t = none := view_none (fun hm => hnot (ht.symm ▸ htypes t hm))
        subst ht
        rw [view_cons_self, ← hsv]
        cases r with
        | none => exact hgone
        | some c' =>
          have := view_cons_self (v := v) c' cs'
          rw [(hcl.sublist c' rfl).2] at this
          exact this
      rw [view_cons_ne cs ht, ← congrFun (hview v hv) t]
      cases r with
      | none => rfl
      | some c' => exact view_cons_ne cs' (by rw [(hcl.sublist c' rfl).2]; exact ht)

theorem clean_spec (hd : DataOk node.data) (hold : ∀ h, Above node.data h → h.ignore = false → h.serial ≤ least) :
    ∃ node', cleanZoneNode least node = .ok node' ∧ DataOk node'.data ∧ Trimmed node.data node'.data ∧
      node'.references = node.references ∧ ∀ v, least ≤ v → view v node'.data = view v node.data := by
  obtain ⟨data', hrun, hd', htr, -, hview⟩ := cleanChains_spec node.data hd hold
  rw [cleanZoneNode, hrun, ok_bind]
  exact ⟨_, rfl, hd', htr, rfl, hview⟩

/-! ### Rolling back -/

theorem Chain.headers_giveUp (s : ℕ) (c : Chain) : (c.giveUp s).headers = c.headers.map (Header.giveUp s) := rfl

theorem Header.giveUp_of_ne (hs : h.serial ≠ s) : h.giveUp s = h := if_neg hs

@[simp] theorem Header.giveUp_serial (s : ℕ) (h : Header) : (h.giveUp s).serial = h.serial := by
  unfold Header.giveUp
  split <;> rfl

@[simp] theorem Header.giveUp_type (s : ℕ) (h : Header) : (h.giveUp s).type = h.type := by
  unfold Header.giveUp
  split <;> rfl

theorem Header.giveUp_ignore (hi : (h.giveUp s).ignore = false) : h.serial ≠ s ∧ h.giveUp s = h := by
  by_cases hs : h.serial = s
  · rw [Header.giveUp, if_pos hs] at hi
    exact absurd hi (by simp)
  · exact ⟨hs, giveUp_of_ne hs⟩

theorem ordered_giveUp (s : ℕ) {hs : List Header} (ho : Ordered Header.serial Header.ignore hs) :
    Ordered Header.serial Header.ignore (hs.map (Header.giveUp s)) := by
  refine ⟨pairwise_map.2 (ho.falls.imp (fun h => by simpa using h)), ?_⟩
  intro a' ha' b' hb' hab
  obtain ⟨a, ha, rfl⟩ := mem_map.1 ha'
  obtain ⟨b, hb, rfl⟩ := mem_map.1 hb'
  simp only [Header.giveUp_serial] at hab
  by_cases hs : b.serial = s
  · rw [Header.giveUp, if_pos (hab.trans hs), Header.giveUp, if_pos hs]
  · rw [Header.giveUp_of_ne (by rw [hab]; exact hs), Header.giveUp_of_ne hs]
    exact ho.together a ha b hb hab

theorem findChain_giveUp (s : ℕ) (t : RdType) (data : List Chain) :
    findChain t (data.map (Chain.giveUp s)) = (findChain t data).map (Chain.giveUp s) := by
  rw [findChain, findChain, find?_map]
  refine congrArg _ (congrArg (fun p => List.find? p data) ?_)
  funext c
  simp [Chain.giveUp]

theorem dataOk_rollbackNode (s : ℕ) (hd : DataOk node.data) : DataOk (rollbackNode s node).data := by
  refine ⟨fun c' hc' => ?_, ?_⟩
  · obtain ⟨c, hc, rfl⟩ := mem_map.1 hc'
    have hok := hd.chains c hc
    refine ⟨ordered_giveUp s hok.ordered, fun h' hh' => ?_⟩
    rw [Chain.headers_giveUp] at hh'
    obtain ⟨h, hh, rfl⟩ := mem_map.1 hh'
    simpa [Chain.giveUp] using hok.typed h hh
  · have : (rollbackNode s node).data.map (fun c => c.top.type) = node.data.map (fun c => c.top.type) := by
      simp [rollbackNode, Chain.giveUp]
    rw [this]
    exact hd.types

theorem view_rollbackNode (hv : v < s) (node : Node) : view v (rollbackNode s node).data = view v node.data := by
  funext t
  have hmap : (rollbackNode s node).data = node.data.map (Chain.giveUp s) := rfl
  rw [view, hmap, findChain_giveUp, bind_map, view]
  refine congrArg _ (funext fun c => ?_)
  rw [comp_apply, Chain.headers_giveUp, see, seen_map_mark (s := s)]
  · exact fun h hs => Header.giveUp_of_ne hs
  · exact Header.giveUp_serial s
  · exact hv

theorem stands_rollbackNode (hs : Stands (rollbackNode s node).data h) : ∃ h0, Stands node.data h0 ∧ h = h0.giveUp s := by
  obtain ⟨c', hc', hh'⟩ := hs
  obtain ⟨c, hc, rfl⟩ := mem_map.1 hc'
  rw [Chain.headers_giveUp] at hh'
  obtain ⟨h0, hh, rfl⟩ := mem_map.1 hh'
  exact ⟨h0, ⟨c, hc, hh⟩, rfl⟩

theorem above_rollbackNode (ha : Above (rollbackNode s node).data h) : ∃ h0, Above node.data h0 ∧ h = h0.giveUp s := by
  obtain ⟨c', hc', hh'⟩ := ha
  obtain ⟨c, hc, rfl⟩ := mem_map.1 hc'
  rw [Chain.headers_giveUp, ← map_dropLast] at hh'
  obtain ⟨h0, hh, rfl⟩ := mem_map.1 hh'
  exact ⟨h0, ⟨c, hc, hh⟩, rfl⟩

/-! ### Writing -/

/-- CNAME and other data. -/
def NodeView.Clash (w : NodeView) : Prop :=
  (w .cname).isSome = true ∧ ∃ t : RdType, t ≠ .cname ∧ t.isOther = true ∧ (w t).isSome = true

theorem cnameAndOtherData_iff {data : List Chain} (hd : DataOk data) (v : ℕ) :
    cnameAndOtherData data v = true ↔ NodeView.Clash (view v data) := by
  have hact : ∀ c ∈ data, (active v c.headers).isSome = (view v data c.top.type).isSome := by
    intro c hc
    rw [active_isSome, view, findChain_of_mem hd hc]
    rfl
  have hsome : ∀ t, (view v data t).isSome = true → ∃ c ∈ data, c.top.type = t := by
    intro t ht
    rw [view] at ht
    cases hf : findChain t data with
    | none => simp [hf] at ht
    | some c => exact ⟨c, findChain_some hf⟩
  simp only [cnameAndOtherData, and_eq_true, any_eq_true, decide_eq_true_eq, NodeView.Clash]
  constructor
  · rintro ⟨⟨c, hc, hct, hca⟩, d, hdm, ⟨hdt, hdo⟩, hda⟩
    rw [hact c hc, hct] at hca
    rw [hact d hdm] at hda
    exact ⟨hca, d.top.type, hdt, hdo, hda⟩
  · rintro ⟨hca, t, ht, hto, hta⟩
    obtain ⟨c, hc, hct⟩ := hsome _ hca
    obtain ⟨d, hdm, rfl⟩ := hsome _ hta
    refine ⟨⟨c, hc, hct, ?_⟩, d, hdm, ⟨ht, hto⟩, ?_⟩
    · rw [hact c hc, hct]
      exact hca
    · rw [hact d hdm]
      exact hta

open Classical in
/-- Put an rdataset, or nothing, in the place of a type; the result tells of a clash. -/
noncomputable def NodeView.put (w : NodeView) (t : RdType) (x : Option Rdataset) : NodeView × Result :=
  (update w t x, if NodeView.Clash (update w t x) then .cnameandother else .success)

noncomputable def NodeView.add (ops : RdataOps) (mem : Bool) (o : AddOptions) (w : NodeView) (t : RdType) (ttl : ℕ)
    (new : Option Slab) : NodeView × Result :=
  match w t, new with
  | none, none => (w, .unchanged)
  | some old, some s =>
    if o.merge then
      match mergeRdata ops mem o t old.ttl ttl old.rdata s with
      | .error r => (w, r)
      | .ok merged => w.put t (some ⟨ttl, merged⟩)
    else w.put t (some ⟨ttl, s⟩)
  | some _, none => w.put t none
  | none, some s => w.put t (some ⟨ttl, s⟩)

def NodeView.subtract (ops : RdataOps) (mem : Bool) (w : NodeView) (t : RdType) (ttl : ℕ) (sub : Slab)
    (exact : Bool) : NodeView × Result :=
  match w t with
  | none => (w, if exact then .notexact else .unchanged)
  | some old =>
    if exact ∧ ttl ≠ old.ttl then (w, .notexact)
    else
      match Slab.subtract ops t.base mem old.rdata sub exact with
      | .ok rest => (update w t (some ⟨old.ttl, rest⟩), .success)
      | .error .nxrrset => if mem = false then (w, .nomemory) else (update w t none, .nxrrset)
      | .error r => (w, r)

/-- The node as the writer of serial `w` finds it. -/
structure WriterOk (w : ℕ) (data : List Chain) : Prop where
  ok : DataOk data
  le : ∀ h, Stands data h → h.serial ≤ w
  own : ∀ h, Stands data h → h.serial = w → h.ignore = false

/-- What a write of the version `w` does to a node. -/
structure Written (w : ℕ) (dirty : Bool) (data data' : List Chain) : Prop where
  ok : DataOk data'
  stands : ∀ h, Stands data' h → Stands data h ∨ (h.serial = w ∧ h.ignore = false)
  above : ∀ h, Above data' h → Above data h ∨ (h.serial = w ∧ dirty = true)
  older : ∀ v, v < w → view v data' = view v data

theorem Written.refl {w : ℕ} {data : List Chain} (hd : DataOk data) (dirty : Bool) : Written w dirty data data :=
  ⟨hd, fun _ h => .inl h, fun _ h => .inl h, fun _ _ => rfl⟩

theorem header_eq {w : ℕ} {c : Chain} (hle : ∀ h ∈ c.headers, h.serial ≤ w) : c.header = see w c.headers := by
  rw [Chain.header, see, seen]
  refine find?_congr (fun h hh => ?_)
  simp [hle h hh]

theorem mem_replaceChain {t : RdType} {c d : Chain} : ∀ {data : List Chain}, d ∈ replaceChain t c data →
    d = c ∨ (d ∈ data ∧ (d.top.type = t → (data.map (fun c => c.top.type)).Nodup → False))
  | e :: es, h => by
    rw [replaceChain] at h
    by_cases he : e.top.type = t
    · rw [if_pos he] at h
      obtain rfl | h := mem_cons.1 h
      · exact .inl rfl
      · refine .inr ⟨mem_cons_of_mem _ h, fun hdt hn => ?_⟩
        exact (nodup_cons.1 hn).1 (mem_map.2 ⟨d, h, hdt.trans he.symm⟩)
    rw [if_neg he] at h
    obtain rfl | h := mem_cons.1 h
    · exact .inr ⟨mem_cons_self, fun hdt _ => he hdt⟩
    obtain rfl | ⟨hm, hne⟩ := mem_replaceChain h
    · exact .inl rfl
    · exact .inr ⟨mem_cons_of_mem _ hm, fun hdt hn => hne hdt (nodup_cons.1 hn).2⟩

theorem types_replaceChain {t : RdType} {c : Chain} (hc : c.top.type = t) : ∀ data : List Chain,
    (replaceChain t c data).map (fun c => c.top.type) = data.map (fun c => c.top.type)
  | [] => rfl
  | d :: ds => by
    rw [replaceChain]
    by_cases hd : d.top.type = t
    · rw [if_pos hd, map_cons, map_cons, hc, hd]
    · rw [if_neg hd, map_cons, map_cons, types_replaceChain hc ds]
theorem findChain_replaceChain {t : RdType} {c c0 : Chain} (hc : c.top.type = t) (u : RdType) :
    ∀ data : List Chain, findChain t data = some c0 →
      findChain u (replaceChain t c data) = if u = t then some c else findChain u data
  | [], h => nomatch h
  | d :: ds, h => by
    rw [replaceChain]
    rw [findChain_cons] at h
    by_cases hd : d.top.type = t
    · rw [if_pos hd, findChain_cons, findChain_cons, hc, hd]
      by_cases hu : u = t
      · rw [if_pos hu.symm, if_pos hu]
      · rw [if_neg (Ne.symm hu), if_neg hu, if_neg (Ne.symm hu)]
    rw [if_neg hd] at h
    rw [if_neg hd, findChain_cons, findChain_cons, findChain_replaceChain hc u ds h]
    by_cases hu : u = t
    · rw [if_neg (by rw [hu]; exact hd), if_pos hu, if_pos hu]
    · rw [if_neg hu, if_neg hu]
section writes
variable {w : ℕ} {t : RdType} {data : List Chain} {c : Chain} {new : Header}

theorem see_cons_of_lt (hv : v < new.serial) (hs : List Header) : see v (new :: hs) = see v hs :=
  seen_cons_of_lt hv

theorem see_cons_self (hv : new.serial ≤ v) (hi : new.ignore = false) (hs : List Header) :
    see v (new :: hs) = some new := seen_of_head hv hi

/-- A new header on top of its chain. -/
theorem written_push (new : Header) (hw : WriterOk w data) (hc : findChain t data = some c) (hs : new.serial = w)
    (hi : new.ignore = false) (ht : new.type = t) : Written w true data (replaceChain t ⟨new, c.headers⟩ data) := by
  obtain ⟨hmem, hct⟩ := findChain_some hc
  have hok := hw.ok.chains c hmem
  have hstands : ∀ h ∈ c.headers, Stands data h := fun h hh => ⟨c, hmem, hh⟩
  have hnew : ChainOk ⟨new, c.headers⟩ := by
    refine ⟨⟨pairwise_cons.2 ⟨fun h hh => ?_, hok.ordered.falls⟩, ?_⟩, ?_⟩
    · rw [hs]
      exact hw.le h (hstands h hh)
    · intro a ha b hb hab
      obtain rfl | ha := mem_cons.1 ha
      · obtain rfl | hb := mem_cons.1 hb
        · rfl
        · rw [hi, hw.own b (hstands b hb) (hab.symm.trans hs)]
      obtain rfl | hb := mem_cons.1 hb
      · rw [hi, hw.own a (hstands a ha) (hab.trans hs)]
      · exact hok.ordered.together a ha b hb hab
    · intro h hh
      obtain rfl | hh := mem_cons.1 hh
      · rfl
      · rw [hok.typed h hh, hct]
        exact ht.symm
  refine ⟨⟨fun d hd => ?_, ?_⟩, ?_, ?_, ?_⟩
  · obtain rfl | ⟨hd, -⟩ := mem_replaceChain hd
    · exact hnew
    · exact hw.ok.chains d hd
  · rw [types_replaceChain ht]
    exact hw.ok.types
  · rintro h ⟨d, hd, hh⟩
    obtain rfl | ⟨hd, -⟩ := mem_replaceChain hd
    · obtain rfl | hh := mem_cons.1 hh
      · exact .inr ⟨hs, hi⟩
      · exact .inl (hstands h hh)
    · exact .inl ⟨d, hd, hh⟩
  · rintro h ⟨d, hd, hh⟩
    obtain rfl | ⟨hd, -⟩ := mem_replaceChain hd
    · have hh : h ∈ new :: c.headers.dropLast := hh
      obtain rfl | hh := mem_cons.1 hh
      · exact .inr ⟨hs, rfl⟩
      · exact .inl ⟨c, hmem, hh⟩
    · exact .inl ⟨d, hd, hh⟩
  · intro v hv
    funext u
    rw [view, view, findChain_replaceChain ht u data hc]
    by_cases hu : u = t
    · rw [if_pos hu, hu, hc]
      exact congrArg (fun o => Option.bind o Header.bind) (see_cons_of_lt (hs.symm ▸ hv) c.headers)
    · rw [if_neg hu]

/-- The writer sees the header it put on top. -/
theorem view_push (data : List Chain) (new : Header) (hc : findChain t data = some c) (hs : new.serial = w) (hi : new.ignore = false)
    (ht : new.type = t) : view w (replaceChain t ⟨new, c.headers⟩ data) = update (view w data) t new.bind := by
  funext u
  rw [view, findChain_replaceChain ht u data hc, update_apply]
  by_cases hu : u = t
  · rw [if_pos hu, if_pos hu]
    exact congrArg (fun o => Option.bind o Header.bind) (see_cons_self (by omega) hi c.headers)
  · rw [if_neg hu, if_neg hu]
    rfl

/-- A new chain. -/
theorem written_cons (new : Header) (hw : WriterOk w data) (hc : findChain t data = none) (hs : new.serial = w)
    (hi : new.ignore = false) (ht : new.type = t) (dirty : Bool) : Written w dirty data (⟨new, []⟩ :: data) := by
  have hnot : t ∉ data.map (fun c => c.top.type) := by
    intro hm
    obtain ⟨d, hd, hdt⟩ := mem_map.1 hm
    exact find?_eq_none.1 hc d hd (by simpa using hdt)
  refine ⟨⟨fun d hd => ?_, ?_⟩, ?_, ?_, ?_⟩
  · obtain rfl | hd := mem_cons.1 hd
    · refine ⟨⟨pairwise_singleton _ _, fun a ha b hb _ => ?_⟩, fun h hh => ?_⟩
      · rw [mem_singleton.1 ha, mem_singleton.1 hb]
      · rw [mem_singleton.1 hh]
    · exact hw.ok.chains d hd
  · refine nodup_cons.2 ⟨?_, hw.ok.types⟩
    simp only [ht]
    exact hnot
  · rintro h ⟨d, hd, hh⟩
    obtain rfl | hd := mem_cons.1 hd
    · obtain rfl := mem_singleton.1 hh
      exact .inr ⟨hs, hi⟩
    · exact .inl ⟨d, hd, hh⟩
  · rintro h ⟨d, hd, hh⟩
    obtain rfl | hd := mem_cons.1 hd
    · exact absurd hh not_mem_nil
    · exact .inl ⟨d, hd, hh⟩
  · intro v hv
    funext u
    by_cases hu : u = t
    · rw [hu, view_none hnot, ← ht, view_cons_self]
      exact congrArg (fun o => Option.bind o Header.bind) (see_cons_of_lt (hs.symm ▸ hv) [])
    · exact view_cons_ne data (by rw [ht]; exact Ne.symm hu)

theorem view_cons (data : List Chain) (new : Header) (hs : new.serial = w) (hi : new.ignore = false) (ht : new.type = t) :
    view w (⟨new, []⟩ :: data) = update (view w data) t new.bind := by
  funext u
  rw [update_apply]
  by_cases hu : u = t
  · rw [if_pos hu, hu, ← ht, view_cons_self]
    exact congrArg (fun o => Option.bind o Header.bind) (see_cons_self (by omega) hi [])
  · rw [if_neg hu]
    exact view_cons_ne data (by rw [ht]; exact Ne.symm hu)

/-- `add` and `subtractrdataset` look at the rdataset that the writer sees. -/
theorem view_header (hw : WriterOk w data) (hc : findChain t data = some c) : view w data t = c.header.bind Header.bind := by
  rw [view, hc, header_eq (w := w) (fun h hh => hw.le h ⟨c, (findChain_some hc).1, hh⟩)]
  rfl

end writes

theorem finish_spec (node : Node) {serial : ℕ} (hd : DataOk node.data) (dirty : Bool) {w : NodeView} {t : RdType}
    {x : Option Rdataset} (hv : view serial node.data = update w t x) :
    node.finish serial dirty = (node, dirty, (w.put t x).2) := by
  have hiff := cnameAndOtherData_iff hd serial
  rw [hv] at hiff
  rw [Node.finish, NodeView.put]
  by_cases hclash : NodeView.Clash (update w t x)
  · rw [if_pos (hiff.2 hclash), if_pos hclash]
  · rw [if_neg (fun h => hclash (hiff.1 h)), if_neg hclash]

/-- What a write of version `w` returns: the node, its new content in `w`, and the result. -/
structure Wrote (w : ℕ) (node : Node) (out : NodeView × Result) (run : Except Failure (Node × Bool × Result)) :
    Prop where
  runs : ∃ node' dirty, run = .ok (node', dirty, out.2) ∧ Written w dirty node.data node'.data ∧
    node'.references = node.references ∧ view w node'.data = out.1

theorem Wrote.unchanged {w : ℕ} (hw : WriterOk w node.data) (r : Result) :
    Wrote w node (view w node.data, r) (.ok (node, false, r)) :=
  ⟨node, false, rfl, Written.refl hw.ok false, rfl, rfl⟩

theorem wrote_addTo {w : ℕ} {t : RdType} {c : Chain} {new : Header} (hw : WriterOk w node.data)
    (hc : findChain t node.data = some c) (hs : new.serial = w) (hi : new.ignore = false) (ht : new.type = t) :
    Wrote w node (NodeView.put (view w node.data) t new.bind) (node.addTo w c new false) := by
  obtain ⟨hmem, hct⟩ := findChain_some hc
  have hwr := written_push new hw hc hs hi ht
  have hview := view_push node.data new hc hs hi ht
  rw [← hct] at hwr hview
  refine ⟨node.push c new, true, ?_, hwr, rfl, by rw [← hct]; exact hview⟩
  have hle : c.top.serial ≤ w := hw.le _ ⟨c, hmem, c.top_mem⟩
  rw [Node.addTo, insist_true (by simpa using hle), ok_bind, ← hct]
  exact congrArg Except.ok (finish_spec (node.push c new) hwr.ok true hview)

theorem add_spec (ops : RdataOps) (mem : Bool) (o : AddOptions) {w : ℕ} (hw : WriterOk w node.data)
    (t : RdType) (ttl : ℕ) (new : Option Slab) : Wrote w node (NodeView.add ops mem o (view w node.data) t ttl new)
      (node.add ops mem w ⟨w, ttl, t, false, new⟩ o false) := by
  have hput : ∀ c x, findChain t node.data = some c →
      Wrote w node (NodeView.put (view w node.data) t (Header.bind ⟨w, ttl, t, false, x⟩))
        (node.addTo w c ⟨w, ttl, t, false, x⟩ false) := fun c x hc => wrote_addTo hw hc rfl rfl rfl
  rw [Node.add]
  cases hc : findChain t node.data with
  | none =>
    have hv : view w node.data t = none := by
      rw [view, hc]
      rfl
    rw [NodeView.add.eq_def, hv]
    obtain _ | s := new
    · exact Wrote.unchanged hw _
    have hwr := written_cons ⟨w, ttl, t, false, some s⟩ hw hc rfl rfl rfl false
    have hview := view_cons node.data ⟨w, ttl, t, false, some s⟩ rfl rfl rfl
    exact ⟨_, false, congrArg Except.ok (finish_spec ⟨_, node.dirty, node.references⟩ hwr.ok false hview), hwr,
      rfl, hview⟩
  | some c =>
    have hv := view_header hw hc
    simp only
    cases hh : c.header with
    | none =>
      rw [hh] at hv
      rw [NodeView.add.eq_def, hv]
      cases new with
      | none => exact Wrote.unchanged hw _
      | some s => exact hput c (some s) hc
    | some header =>
      rw [hh] at hv
      have hmem : header ∈ c.headers := mem_of_find?_eq_some hh
      have htype : header.type = t := by
        rw [(hw.ok.chains c (findChain_some hc).1).typed header hmem, (findChain_some hc).2]
      have hle : header.serial ≤ w := hw.le header ⟨c, (findChain_some hc).1, hmem⟩
      simp only
      cases hr : header.rdata with
      | none =>
        have hvn : view w node.data t = none := by simp [hv, Header.bind, hr]
        rw [NodeView.add.eq_def, hvn]
        cases new with
        | none => exact Wrote.unchanged hw _
        | some s => exact hput c (some s) hc
      | some old =>
        have hvs : view w node.data t = some ⟨header.ttl, old⟩ := by simp [hv, Header.bind, hr]
        rw [NodeView.add.eq_def, hvs]
        obtain _ | s := new
        · exact hput c none hc
        simp only
        by_cases hm : o.merge = true
        · rw [if_pos hm, if_pos hm, insist_true (by simpa using hle), ok_bind, htype]
          cases mergeRdata ops mem o t header.ttl ttl old s with
          | error r => exact Wrote.unchanged hw r
          | ok merged => exact hput c (some merged) hc
        · rw [if_neg hm, if_neg hm]
          exact hput c (some s) hc

theorem subtract_spec (ops : RdataOps) (mem : Bool) {w : ℕ} (hw : WriterOk w node.data)
    (t : RdType) (ttl : ℕ) (sub : Slab) (exact : Bool) :
    Wrote w node (NodeView.subtract ops mem (view w node.data) t ttl sub exact)
      (node.subtract ops mem w t ttl sub exact) := by
  rw [Node.subtract, NodeView.subtract]
  cases hc : findChain t node.data with
  | none =>
    have hv : view w node.data t = none := by
      rw [view, hc]
      rfl
    rw [hv]
    exact Wrote.unchanged hw _
  | some c =>
    obtain ⟨hcm, hct⟩ := findChain_some hc
    have hv := view_header hw hc
    simp only
    cases hh : c.header with
    | none =>
      rw [hh] at hv
      rw [hv]
      exact Wrote.unchanged hw _
    | some header =>
      rw [hh] at hv
      have hmem : header ∈ c.headers := mem_of_find?_eq_some hh
      have hlive : header.ignore = false := by simpa using find?_some hh
      have htype : header.type = t := by
        rw [(hw.ok.chains c hcm).typed header hmem, hct]
      have hle : c.top.serial ≤ w := hw.le _ ⟨c, hcm, c.top_mem⟩
      simp only
      cases hr : header.rdata with
      | none =>
        have hvn : view w node.data t = none := by simp [hv, Header.bind, hr]
        rw [hvn]
        exact Wrote.unchanged hw _
      | some old =>
        have hvs : view w node.data t = some ⟨header.ttl, old⟩ := by simp [hv, Header.bind, hr]
        rw [hvs]
        simp only
        by_cases hex : exact = true ∧ ttl ≠ header.ttl
        · rw [if_pos hex, if_pos hex]
          exact Wrote.unchanged hw _
        rw [if_neg hex, if_neg hex]
        cases Slab.subtract ops t.base mem old sub exact with
        | ok rest =>
          rw [insist_true (by simpa using hle), ok_bind]
          have hwr := written_push { header with serial := w, rdata := some rest } hw hc rfl hlive htype
          have hview := view_push node.data { header with serial := w, rdata := some rest } hc rfl hlive
            htype
          rw [← hct] at hwr hview
          exact ⟨_, true, rfl, hwr, rfl, by rw [← hct]; exact hview⟩
        | error r =>
          cases r with
          | nxrrset =>
            by_cases hm : mem = false
            · rw [if_pos hm, if_pos hm]
              exact Wrote.unchanged hw _
            rw [if_neg hm, if_neg hm, insist_true (by simpa using hle), ok_bind]
            have hwr := written_push ⟨w, 0, c.top.type, false, none⟩ hw hc rfl rfl hct
            have hview := view_push node.data ⟨w, 0, c.top.type, false, none⟩ hc rfl rfl hct
            rw [← hct] at hwr hview
            exact ⟨_, true, rfl, hwr, rfl, by rw [← hct]; exact hview⟩
          | _ => exact Wrote.unchanged hw _

end Bind9.Rbtdb
