import Bind9.SlabWrite
import Bind9.Lib.MergeJoin

/-! # The merge of two slabs

`dns_rdataslab_merge` reads the new slab twice: to count what is new and to write it.  Its loop is a sequence of copies, of the
records that `List.merge` lists; the copies are what `Writing` is about. -/

namespace Bind9.RawSlab

open List

/-! ### Records of one slab that another lacks -/

section Without

variable (l : Layout)

/-- The records that `ss` does not have. -/
def without (ss rs : List Stored) : List Stored := rs.filter (fun s => !Has l ss s.rr.data)

/-- DNSSEC order. -/
def compareStored (a b : Stored) : Ordering := l.ops.compare l.type a.rr.data b.rr.data

variable {l}

theorem without_cons (ss : List Stored) (s : Stored) (rs : List Stored) :
    without l ss (s :: rs) = if Has l ss s.rr.data then without l ss rs else s :: without l ss rs := by
  unfold without
  rw [filter_cons]
  cases Has l ss s.rr.data <;> rfl

theorem without_sublist (ss rs : List Stored) : (without l ss rs).Sublist rs := filter_sublist

theorem has_eq_any (ss : List Stored) (s : Stored) : Has l ss s.rr.data = ss.any (fun x => compareStored l s x == .eq) := rfl

instance transCmp_stored [Std.TransCmp (l.ops.compare l.type)] : Std.TransCmp (compareStored l) where
  eq_swap {a b} := @Std.OrientedCmp.eq_swap _ (l.ops.compare l.type) _ a.rr.data b.rr.data
  isLE_trans {a b c} := @Std.TransCmp.isLE_trans _ (l.ops.compare l.type) _ a.rr.data b.rr.data c.rr.data

end Without

section Reading

variable {l : Layout} {reservelen : ℕ} {oslab nslab slab : Bytes} {cur : ℕ} {os ns : List Stored}

theorem WellFormed.order_lt (h : WellFormed l reservelen slab ns) (hfixed : l.fixed = true) : ∀ s ∈ ns, s.order < ns.length := by
  intro s hs
  have hmem := (h.orders hfixed).mem_iff.1 (mem_map_of_mem hs)
  exact mem_range.1 hmem

variable {s : Stored} {count : ℕ}

theorem At.orderAt {rest : Bytes} (h : At l slab cur s.draft rest) (hcount : count ≤ 0xffff)
    (horder : l.fixed = true → s.order < count) : orderAt l slab cur count = .ok (if l.fixed then s.order else 0) := by
  unfold RawSlab.orderAt
  cases hfixed : l.fixed with
  | false => rfl
  | true =>
    have hlt := horder hfixed
    have hdrop : slab.drop (cur + 2) = uint16Bytes s.order ++ ((s.rr.body l) ++ rest) := by
      have hat := h.drop
      unfold bytesOf at hat
      rw [if_pos hfixed] at hat
      rw [← drop_drop, hat]
      rfl
    rw [if_pos rfl, peek16_drop (by omega) hdrop, ok_then, require_true (decide_eq_true hlt)]
    rfl

/-- A record of a slab that is held in a `dns_rdata_t`, with its order. -/
structure Held (l : Layout) (slab : Bytes) (r : SlabRdata) (order : ℕ) (s : Stored) : Prop where
  at_slab : ∃ cur rest offline, At l slab cur s.draft rest ∧ r = ⟨cur + headerSize l + metaSize l, s.rr.data.length, offline⟩
  order : l.fixed = true → order = s.order

theorem Held.dataOf {r : SlabRdata} {order : ℕ} (h : Held l slab r order s) : dataOf slab r = .ok s.rr.data := by
  obtain ⟨cur, rest, offline, hat, rfl⟩ := h.at_slab
  exact hat.dataOf offline

theorem Run.read {rs : List Stored} (h : Run l slab cur ((s :: rs).map Stored.draft)) (hcount : count ≤ 0xffff)
    (horder : l.fixed = true → s.order < count) : ∃ order r, orderAt l slab cur count = .ok order ∧
      rdataFromSlab l slab cur = .ok (r, cur + recordSize l s.rr) ∧ Held l slab r order s := by
  have hhead : At l slab cur s.draft _ := h.head
  refine ⟨_, _, hhead.orderAt hcount horder, hhead.rdataFromSlab, ⟨cur, _, _, hhead, rfl⟩, fun hfixed => ?_⟩
  rw [if_pos hfixed]

variable [Std.TransCmp (l.ops.compare l.type)]

/-- What the first pass finds. -/
theorem Run.newLoop (ho : WellFormed l reservelen oslab os) (h : Run l nslab cur (ns.map Stored.draft)) :
    newLoop l oslab nslab reservelen ns.length cur =
      .ok (storageSize l ((without l os ns).map Stored.rr), (without l os ns).length) := by
  induction ns generalizing cur with
  | nil => rfl
  | cons s ns ih =>
    have hhead : At l nslab cur s.draft _ := h.head
    rw [length_cons, RawSlab.newLoop, hhead.rdataFromSlab, ok_then]
    simp only [hhead.dataOf, ok_then, ho.rdataInSlab]
    rw [ih h.tail, ok_then, without_cons]
    show (if Has l os s.rr.data = true then _ else _) = _
    cases hhas : Has l os s.rr.data with
    | true => rfl
    | false =>
      unfold storageSize
      rfl

theorem Run.nextNew (ho : WellFormed l reservelen oslab os) (h : Run l nslab cur (ns.map Stored.draft)) (hcount : count ≤ 0xffff)
    (horder : l.fixed = true → ∀ s ∈ ns, s.order < count) {x : Stored} {xs : List Stored} (hnew : without l os ns = x :: xs) {n : ℕ}
    (hn : ns.length ≤ n) : ∃ order r cur' ns', nextNew l oslab nslab reservelen count n cur = .ok (order, r, cur') ∧
      Held l nslab r order x ∧ Run l nslab cur' (ns'.map Stored.draft) ∧ ns' ⊆ ns ∧ ns'.length ≤ ns.length ∧ without l os ns' = xs := by
  induction ns generalizing cur n with
  | nil => cases hnew
  | cons s ns ih =>
    cases n with
    | zero => exact absurd hn (by simp)
    | succ n =>
      obtain ⟨order, r, hread, hslab, hheld⟩ := h.read hcount (fun hfixed => horder hfixed s mem_cons_self)
      rw [RawSlab.nextNew, hread, ok_then, hslab]
      simp only [ok_then, hheld.dataOf, ho.rdataInSlab]
      rw [without_cons] at hnew
      cases hhas : Has l os s.rr.data with
      | true =>
        rw [hhas, if_pos rfl] at hnew
        obtain ⟨order', r', cur', ns', hnext, hheld', hrun, hsub, hlen, hwithout⟩ :=
          ih h.tail (fun hfixed y hy => horder hfixed y (mem_cons_of_mem _ hy)) hnew (by simpa using hn)
        exact ⟨order', r', cur', ns', hnext, hheld', hrun, fun y hy => mem_cons_of_mem _ (hsub hy),
          by rw [length_cons]; omega, hwithout⟩
      | false =>
        rw [hhas, if_neg (by decide)] at hnew
        obtain ⟨rfl, rfl⟩ := cons.inj hnew
        exact ⟨order, r, _, ns, rfl, hheld, h.tail, fun y hy => mem_cons_of_mem _ hy, by rw [length_cons]; omega, rfl⟩

end Reading

/-! ### Copies -/

section Copying

/-- A record to copy: the slab, the rdata in it, and the index in the offset table. -/
structure Source where
  slab : Bytes
  r : SlabRdata
  index : ℕ

variable {l : Layout}

/-- Records copied one after the other. -/
def copyAll (l : Layout) (offsetbase : ℕ) : List Source → Writer → Exec Writer
  | [], w => .ok w
  | c :: cs, w => do
    let w ← copyRdata l offsetbase c.slab c.r c.index w
    copyAll l offsetbase cs w

/-- The record that is copied, with its key. -/
structure Copies (l : Layout) (c : Source) (e : Stored) : Prop where
  at_slab : ∃ cur g rest offline, At l c.slab cur g rest ∧ g.rr = e.rr ∧
    c.r = ⟨cur + headerSize l + metaSize l, g.rr.data.length, offline⟩
  index : l.fixed = true → c.index = e.order

variable {reserve : Bytes} {n keys : ℕ}

/-- All records fit. -/
theorem copyAll_ok {cs : List Source} {es : List Stored} (h : Forall₂ (Copies l) cs es) {gs : List Draft} {back : Bytes}
    {w : Writer} (hw : Writing l reserve n keys gs back w)
    (hkeys : l.fixed = true → (∀ e ∈ es, e.order < keys) ∧ ((gs.map Draft.stored ++ es).map Stored.order).Nodup)
    (hroom : recordsSize l (es.map Stored.rr) ≤ back.length) : ∃ w' gs', copyAll l reserve.length cs w = .ok w' ∧
      Writing l reserve n keys gs' (back.drop (recordsSize l (es.map Stored.rr))) w' ∧
      gs'.map Draft.stored = gs.map Draft.stored ++ es := by
  induction h generalizing gs back w with
  | nil => exact ⟨w, gs, rfl, hw, (append_nil _).symm⟩
  | @cons c e cs es hc hcs ih =>
    obtain ⟨cur, g, rest, offline, hat, hrr, hr⟩ := hc.at_slab
    rw [map_cons, recordsSize_cons, ← hrr] at hroom ⊢
    have hkey : l.fixed = true → c.index = e.order ∧ e.order < keys ∧ ∀ x ∈ gs, x.key ≠ e.order := by
      intro hfixed
      obtain ⟨hlt, hnodup⟩ := hkeys hfixed
      refine ⟨hc.index hfixed, hlt e mem_cons_self, fun x hx => ?_⟩
      rw [map_append, map_map] at hnodup
      have hmem : x.key ∈ gs.map (Stored.order ∘ Draft.stored) := mem_map_of_mem (f := Stored.order ∘ Draft.stored) hx
      exact (nodup_append.1 hnodup).2.2 x.key hmem e.order (mem_map_of_mem mem_cons_self)
    obtain ⟨w₁, ord, hcopy, hw1⟩ := copyRdata_ok hw hat offline (by omega) hkey
    have hkeys1 : l.fixed = true → (∀ e ∈ es, e.order < keys) ∧
        (((gs ++ [(⟨e.order, ord, g.rr⟩ : Draft)]).map Draft.stored ++ es).map Stored.order).Nodup := by
      intro hfixed
      obtain ⟨hlt, hnodup⟩ := hkeys hfixed
      refine ⟨fun x hx => hlt x (mem_cons_of_mem _ hx), ?_⟩
      simpa [Draft.stored] using hnodup
    obtain ⟨w', gs', hall, hw', hgs'⟩ := ih hw1 hkeys1 (by rw [length_drop]; omega)
    refine ⟨w', gs', ?_, ?_, ?_⟩
    · rw [copyAll, hr, hcopy, ok_then]
      exact hall
    · rw [drop_drop] at hw'
      exact hw'
    · rw [hgs', hrr]
      simp [Draft.stored]

/-- The copies never go beyond the memory. -/
theorem copyAll_bounds {cs : List Source} {es : List Stored} (h : Forall₂ (Copies l) cs es) {offsetbase : ℕ} {w w' : Writer}
    (hall : copyAll l offsetbase cs w = .ok w') : w'.mem.length = w.mem.length ∧
      w'.cur = w.cur + recordsSize l (es.map Stored.rr) ∧ (es ≠ [] → w'.cur ≤ w'.mem.length) := by
  induction h generalizing w with
  | nil =>
    cases hall
    exact ⟨rfl, rfl, fun hne => absurd rfl hne⟩
  | @cons c e cs es hc hcs ih =>
    obtain ⟨cur, g, rest, offline, hat, hrr, hr⟩ := hc.at_slab
    obtain ⟨w₁, hcopy, hrest⟩ := bind_eq_ok hall
    obtain ⟨hmem1, hcur1, hle1⟩ := copyRdata_bounds hcopy
    obtain ⟨hmem, hcur, hle⟩ := ih hrest
    have hsize : recordSize l e.rr = headerSize l + (c.r.length + metaSize l) := by
      unfold recordSize
      rw [length_body, ← hrr, hr]
    refine ⟨hmem.trans hmem1, ?_, fun _ => ?_⟩
    · rw [hcur, hcur1, map_cons, recordsSize_cons, hsize]
      omega
    · cases es with
      | nil =>
        cases hcs
        cases hrest
        exact hle1
      | cons e' es => exact hle (cons_ne_nil _ _)

end Copying

/-! ### The loop -/

section Merging

variable (l : Layout)

/-- New records, with their keys behind those of `ocount` old ones. -/
def shifted (ocount : ℕ) (ns : List Stored) : List Stored := ns.map (fun s => ⟨ocount + s.order, s.rr⟩)

/-- The records in the order in which the loop writes them. -/
def union (os ns : List Stored) : List Stored := os.merge ns (fun a b => compareStored l a b == .lt)

/-- The variables of the loop, with the old records `rs` and the new ones `xs` still to be written. -/
structure Pending (oslab nslab : Bytes) (os : List Stored) (ocount oncount ncount : ℕ) (v : Merge) (rs xs : List Stored) : Prop where
  oadded : v.oadded + rs.length = ocount
  nadded : v.nadded + xs.length = ncount
  old : ∀ s t, rs = s :: t → Held l oslab v.ordata v.oorder s ∧ Run l oslab v.ocurrent (t.map Stored.draft) ∧
    (l.fixed = true → ∀ y ∈ t, y.order < ocount)
  new : ∀ x t, xs = x :: t → Held l nslab v.nrdata v.norder x ∧ ∃ ns, Run l nslab v.ncurrent (ns.map Stored.draft) ∧
    (l.fixed = true → ∀ y ∈ ns, y.order < oncount) ∧ ns.length ≤ nslab.length ∧ without l os ns = t

variable {l} {oslab nslab : Bytes} {os rs xs : List Stored} {reservelen ocount oncount ncount : ℕ} {v : Merge}

theorem Held.copies {slab : Bytes} {r : SlabRdata} {order : ℕ} {s : Stored} (h : Held l slab r order s) (n : ℕ) :
    Copies l ⟨slab, r, n + order⟩ ⟨n + s.order, s.rr⟩ := by
  obtain ⟨cur, rest, offline, hat, hr⟩ := h.at_slab
  refine ⟨⟨cur, s.draft, rest, offline, hat, rfl, hr⟩, fun hfixed => ?_⟩
  rw [h.order hfixed]

/-- Which slab the next record is from. -/
theorem Pending.fromold (h : Pending l oslab nslab os ocount oncount ncount v rs xs) :
    (∃ s t, rs = s :: t ∧ fromold l oslab nslab ocount ncount v = .ok true ∧
      union l rs (shifted ocount xs) = s :: union l t (shifted ocount xs)) ∨
    (∃ x t, xs = x :: t ∧ fromold l oslab nslab ocount ncount v = .ok false ∧
      union l rs (shifted ocount xs) = ⟨ocount + x.order, x.rr⟩ :: union l rs (shifted ocount t)) ∨ rs = [] ∧ xs = [] := by
  have ho := h.oadded
  have hn := h.nadded
  unfold RawSlab.fromold
  cases rs with
  | nil =>
    cases xs with
    | nil => exact .inr (.inr ⟨rfl, rfl⟩)
    | cons x t =>
      refine .inr (.inl ⟨x, t, rfl, if_pos (by simpa using ho), ?_⟩)
      unfold union
      rw [nil_merge, nil_merge]
      rfl
  | cons s t =>
    have hne : ¬v.oadded = ocount := by
      rw [length_cons] at ho
      omega
    cases xs with
    | nil =>
      refine .inl ⟨s, t, rfl, ?_, ?_⟩
      · rw [if_neg hne, if_pos (by simpa using hn)]
      · unfold union shifted
        rw [map_nil, merge_right, merge_right]
    | cons x u =>
      have hne' : ¬v.nadded = ncount := by
        rw [length_cons] at hn
        omega
      have hmerge : union l (s :: t) (shifted ocount (x :: u)) =
          if (compareStored l s ⟨ocount + x.order, x.rr⟩ == .lt) = true then s :: union l t (shifted ocount (x :: u))
          else ⟨ocount + x.order, x.rr⟩ :: union l (s :: t) (shifted ocount u) := cons_merge_cons _ _ _ _ _
      have hcompare : compareStored l s ⟨ocount + x.order, x.rr⟩ = l.ops.compare l.type s.rr.data x.rr.data := rfl
      rw [if_neg hne, if_neg hne', (h.old s t rfl).1.dataOf, ok_then, (h.new x u rfl).1.dataOf, ok_then, hmerge, hcompare]
      cases hlt : l.ops.compare l.type s.rr.data x.rr.data == Ordering.lt with
      | true => exact .inl ⟨s, t, rfl, rfl, rfl⟩
      | false => exact .inr (.inl ⟨x, u, rfl, rfl, rfl⟩)

theorem Pending.old_turn (reservelen : ℕ) {s : Stored} (h : Pending l oslab nslab os ocount oncount ncount v (s :: rs) xs) (hocount : ocount ≤ 0xffff)
    (hfrom : RawSlab.fromold l oslab nslab ocount ncount v = .ok true) :
    ∃ v', Pending l oslab nslab os ocount oncount ncount v' rs xs ∧ ∀ w, mergeTurn l oslab nslab reservelen ocount oncount ncount { v with w := w } =
      (copyRdata l reservelen oslab v.ordata v.oorder w >>= fun w => .ok { v' with w := w }) := by
  have ho := h.oadded
  obtain ⟨-, hrun, horder⟩ := h.old s rs rfl
  rw [length_cons] at ho
  have hturn : ∀ w, mergeTurn l oslab nslab reservelen ocount oncount ncount { v with w := w } =
      (copyRdata l reservelen oslab v.ordata v.oorder w >>= fun w =>
        if v.oadded + 1 < ocount then do
          let oorder ← orderAt l oslab v.ocurrent ocount
          let next ← rdataFromSlab l oslab v.ocurrent
          pure { v with w := w, oadded := v.oadded + 1, oorder := oorder, ordata := next.1, ocurrent := next.2 }
        else pure { v with w := w, oadded := v.oadded + 1 }) := by
    intro w
    have hfrom' : RawSlab.fromold l oslab nslab ocount ncount { v with w := w } = .ok true := hfrom
    unfold mergeTurn
    rw [hfrom', ok_then, if_pos rfl]
  cases rs with
  | nil =>
    have hlast : ¬v.oadded + 1 < ocount := by
      rw [length_nil] at ho
      omega
    refine ⟨{ v with oadded := v.oadded + 1 }, ⟨by simpa using ho, h.nadded, nofun, h.new⟩, fun w => ?_⟩
    rw [hturn]
    simp only [if_neg hlast]
    rfl
  | cons s' rs =>
    have hmore : v.oadded + 1 < ocount := by
      rw [length_cons] at ho
      omega
    obtain ⟨order, r, hread, hslab, hheld⟩ := hrun.read hocount (fun hfixed => horder hfixed s' mem_cons_self)
    refine ⟨{ v with oadded := v.oadded + 1, oorder := order, ordata := r, ocurrent := v.ocurrent + recordSize l s'.rr },
      ⟨?_, h.nadded, fun a b hab => ?_, h.new⟩, fun w => ?_⟩
    · show v.oadded + 1 + (s' :: rs).length = ocount
      omega
    · obtain ⟨rfl, rfl⟩ := cons.inj hab
      exact ⟨hheld, hrun.tail, fun hfixed y hy => horder hfixed y (mem_cons_of_mem _ hy)⟩
    · rw [hturn]
      simp only [if_pos hmore, hread, hslab, ok_then]
      rfl

variable [Std.TransCmp (l.ops.compare l.type)]

theorem Pending.new_turn (hold : WellFormed l reservelen oslab os) {x : Stored} (h : Pending l oslab nslab os ocount oncount ncount v rs (x :: xs))
    (honcount : oncount ≤ 0xffff) (hfrom : RawSlab.fromold l oslab nslab ocount ncount v = .ok false) :
    ∃ v', Pending l oslab nslab os ocount oncount ncount v' rs xs ∧ ∀ w, mergeTurn l oslab nslab reservelen ocount oncount ncount { v with w := w } =
      (copyRdata l reservelen nslab v.nrdata (ocount + v.norder) w >>= fun w => .ok { v' with w := w }) := by
  have hn := h.nadded
  obtain ⟨-, ns, hrun, horder, hlen, hwithout⟩ := h.new x xs rfl
  rw [length_cons] at hn
  have hturn : ∀ w, mergeTurn l oslab nslab reservelen ocount oncount ncount { v with w := w } =
      (copyRdata l reservelen nslab v.nrdata (ocount + v.norder) w >>= fun w =>
        if v.nadded + 1 < ncount then do
          let next ← nextNew l oslab nslab reservelen oncount nslab.length v.ncurrent
          pure { v with w := w, nadded := v.nadded + 1, norder := next.1, nrdata := next.2.1, ncurrent := next.2.2 }
        else pure { v with w := w, nadded := v.nadded + 1 }) := by
    intro w
    have hfrom' : RawSlab.fromold l oslab nslab ocount ncount { v with w := w } = .ok false := hfrom
    unfold mergeTurn
    rw [hfrom', ok_then, if_neg (by decide)]
  cases xs with
  | nil =>
    have hlast : ¬v.nadded + 1 < ncount := by
      rw [length_nil] at hn
      omega
    refine ⟨{ v with nadded := v.nadded + 1 }, ⟨h.oadded, by simpa using hn, h.old, nofun⟩, fun w => ?_⟩
    rw [hturn]
    simp only [if_neg hlast]
    rfl
  | cons x' xs =>
    have hmore : v.nadded + 1 < ncount := by
      rw [length_cons] at hn
      omega
    obtain ⟨order, r, cur', ns', hnext, hheld, hrun', hsub, hlen', hwithout'⟩ := hrun.nextNew hold honcount horder hwithout hlen
    refine ⟨{ v with nadded := v.nadded + 1, norder := order, nrdata := r, ncurrent := cur' },
      ⟨h.oadded, ?_, h.old, fun a b hab => ?_⟩, fun w => ?_⟩
    · show v.nadded + 1 + (x' :: xs).length = ncount
      omega
    · obtain ⟨rfl, rfl⟩ := cons.inj hab
      exact ⟨hheld, ns', hrun', fun hfixed y hy => horder hfixed y (hsub hy), hlen'.trans hlen, hwithout'⟩
    · rw [hturn]
      simp only [if_pos hmore, hnext, ok_then]
      rfl

theorem Pending.mergeLoop (hold : WellFormed l reservelen oslab os) (hocount : ocount ≤ 0xffff) (honcount : oncount ≤ 0xffff) {n : ℕ}
    (h : Pending l oslab nslab os ocount oncount ncount v rs xs) (hn : rs.length + xs.length = n) :
    ∃ (cs : List Source) (v' : Merge), Forall₂ (Copies l) cs (union l rs (shifted ocount xs)) ∧
      ∀ w, mergeLoop l oslab nslab reservelen ocount oncount ncount n { v with w := w } =
        (copyAll l reservelen cs w >>= fun w => .ok { v' with w := w }) := by
  induction n generalizing v rs xs with
  | zero =>
    obtain rfl : rs = [] := length_eq_zero_iff.1 (by omega)
    obtain rfl : xs = [] := length_eq_zero_iff.1 (by omega)
    refine ⟨[], v, ?_, fun w => rfl⟩
    unfold union shifted
    rw [map_nil, merge_right]
    exact .nil
  | succ n ih =>
    obtain ⟨s, t, rfl, hfrom, hunion⟩ | ⟨x, t, rfl, hfrom, hunion⟩ | ⟨rfl, rfl⟩ := h.fromold
    · obtain ⟨v1, h1, hturn⟩ := h.old_turn reservelen hocount hfrom
      obtain ⟨cs, v', hcs, hloop⟩ := ih h1 (by rw [length_cons] at hn; omega)
      have hcopies := (h.old s t rfl).1.copies 0
      rw [Nat.zero_add, Nat.zero_add] at hcopies
      refine ⟨⟨oslab, v.ordata, v.oorder⟩ :: cs, v', ?_, fun w => ?_⟩
      · rw [hunion]
        exact .cons hcopies hcs
      · rw [RawSlab.mergeLoop, hturn, copyAll]
        cases copyRdata l reservelen oslab v.ordata v.oorder w with
        | error e => rfl
        | ok w₁ => exact hloop w₁
    · obtain ⟨v1, h1, hturn⟩ := h.new_turn hold honcount hfrom
      obtain ⟨cs, v', hcs, hloop⟩ := ih h1 (by rw [length_cons] at hn; omega)
      refine ⟨⟨nslab, v.nrdata, ocount + v.norder⟩ :: cs, v', ?_, fun w => ?_⟩
      · rw [hunion]
        exact .cons ((h.new x t rfl).1.copies ocount) hcs
      · rw [RawSlab.mergeLoop, hturn, copyAll]
        cases copyRdata l reservelen nslab v.nrdata (ocount + v.norder) w with
        | error e => rfl
        | ok w₁ => exact hloop w₁
    · simp at hn

end Merging

/-! ### The slab that is written -/

section Written

variable {l : Layout} {reservelen : ℕ} {oslab nslab slab : Bytes} {os ns rs : List Stored}

theorem length_le_storageSize (rs : List Record) : rs.length ≤ storageSize l rs := by
  unfold storageSize
  induction rs with
  | nil => exact Nat.le_refl 0
  | cons r rs ih =>
    have hone : 1 ≤ storage l r.data.length := by
      unfold storage
      split <;> omega
    rw [map_cons, sum_cons, length_cons]
    omega

theorem WellFormed.length_le (h : WellFormed l reservelen slab rs) : rs.length ≤ slab.length := by
  have hle := length_le_storageSize (l := l) (rs.map Stored.rr)
  rw [length_map] at hle
  have hlen := h.length
  omega

theorem WellFormed.reserve (h : WellFormed l reservelen slab rs) :
    bytesAt slab reservelen = .ok (slab.take reservelen) ∧ (slab.take reservelen).length = reservelen := by
  have hle : reservelen ≤ slab.length := by
    have hlen := h.length
    omega
  exact ⟨if_pos hle, by rw [length_take, Nat.min_eq_left hle]⟩

variable [Std.TransCmp (l.ops.compare l.type)]

theorem firstNew_ok (hold : WellFormed l reservelen oslab os) (hnew : WellFormed l reservelen nslab ns) :
    ∃ norder nrdata ncurrent, firstNew l oslab nslab reservelen ns.length (without l os ns).length
      (reservelen + 2 + tableSize l ns.length) = .ok (norder, nrdata, ncurrent) ∧
      ∀ x t, without l os ns = x :: t → Held l nslab nrdata norder x ∧ ∃ ns', Run l nslab ncurrent (ns'.map Stored.draft) ∧
        (l.fixed = true → ∀ y ∈ ns', y.order < ns.length) ∧ ns'.length ≤ nslab.length ∧ without l os ns' = t := by
  unfold firstNew
  cases hw : without l os ns with
  | nil => exact ⟨_, _, _, rfl, nofun⟩
  | cons x t =>
    obtain ⟨order, r, cur', ns', hnext, hheld, hrun, hsub, hlen, hwithout⟩ :=
      hnew.run.nextNew hold hnew.count_le hnew.order_lt hw hnew.length_le
    refine ⟨order, r, cur', ?_, fun a b hab => ?_⟩
    · rw [if_pos (by simp), hnext]
    · obtain ⟨rfl, rfl⟩ := cons.inj hab
      exact ⟨hheld, ns', hrun, fun hfixed y hy => hnew.order_lt hfixed y (hsub hy), hlen.trans hnew.length_le, hwithout⟩

theorem writeMerged_eq (heap : Heap) (hold : WellFormed l reservelen oslab os) (hnew : WellFormed l reservelen nslab ns) (tcount tlength : ℕ) :
    ∃ cs, Forall₂ (Copies l) cs (union l os (shifted os.length (without l os ns))) ∧
      writeMerged l heap oslab nslab reservelen os.length ns.length (without l os ns).length tcount tlength = (do
        let mem ← poke (heap.get (tlength % 2 ^ 32)) 0 (nslab.take reservelen)
        let mem ← poke mem reservelen (uint16Bytes tcount)
        let w ← copyAll l reservelen cs ⟨mem, reservelen + 2 + tableSize l tcount, replicate (os.length + ns.length) 0⟩
        let mem ← fillIn l reservelen w
        require (decide (w.cur = tlength % 2 ^ 32))
        pure mem) := by
  obtain ⟨s, t, hst⟩ := exists_cons_of_ne_nil hold.ne
  have hrun := hold.run
  conv at hrun => arg 4; rw [hst]
  obtain ⟨oorder, ordata, hread, hslab, hheld⟩ := hrun.read hold.count_le (fun hfixed => hold.order_lt hfixed s (by rw [hst]; simp))
  obtain ⟨norder, nrdata, ncurrent, hfirst, hrest⟩ := firstNew_ok hold hnew
  have hpending : ∀ w, Pending l oslab nslab os os.length ns.length (without l os ns).length
      ⟨w, 0, reservelen + 2 + tableSize l os.length + recordSize l s.rr, ordata, oorder, 0, ncurrent, nrdata, norder⟩ os (without l os ns) := by
    intro w
    refine ⟨Nat.zero_add _, Nat.zero_add _, fun a b hab => ?_, hrest⟩
    rw [hst] at hab
    obtain ⟨rfl, rfl⟩ := cons.inj hab
    exact ⟨hheld, hrun.tail, fun hfixed y hy => hold.order_lt hfixed y (by rw [hst]; exact mem_cons_of_mem _ hy)⟩
  obtain ⟨cs, v', hcs, hloop⟩ := (hpending ⟨[], 0, []⟩).mergeLoop hold hold.count_le hnew.count_le rfl
  refine ⟨cs, hcs, ?_⟩
  have hne : os.length ≠ 0 := by
    rw [hst, length_cons]
    omega
  unfold writeMerged
  simp only [hnew.reserve.1, ok_then, require_true (decide_eq_true hne), hread, hslab, hfirst, hloop]
  cases poke (heap.get (tlength % 2 ^ 32)) 0 (nslab.take reservelen) with
  | error e => rfl
  | ok mem =>
    simp only [ok_then]
    cases poke mem reservelen (uint16Bytes tcount) with
    | error e => rfl
    | ok mem =>
      simp only [ok_then]
      cases copyAll l reservelen cs ⟨mem, reservelen + 2 + tableSize l tcount, replicate (os.length + ns.length) 0⟩ with
      | error e => rfl
      | ok w => rfl

end Written

end Bind9.RawSlab
