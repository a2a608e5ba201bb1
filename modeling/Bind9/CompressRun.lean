import Bind9.CompressTable
import Bind9.FromWire

/-! # Compressed names over a whole message

A message is built by writing names with `dns_name_towire`, by appending other bytes, and by
going back to an earlier boundary (the buffer is cut there and `dns_compress_rollback` called
with it).  `Msg.run` is such a run from an empty buffer and a fresh context; it keeps, next to
what the code keeps, the boundaries of the present contents (`marks`) and the names written
that are still wholly in the buffer (`written`).

`Msg.Inv` says that at every boundary the bytes before it are enough to read every table node
and every written name that lies before it; so cutting at a boundary keeps it, and appending
keeps it because `Encodes` does not look behind its end.  `fromwire_towire_run` reads off the
round trip. -/

namespace Bind9

open List

/-- A name written by a successful `dns_name_towire`: where, how many bytes, which name. -/
structure Written where
  offset : ℕ
  size : ℕ
  name : AbsName
deriving DecidableEq

/-- The operations on a message under construction. -/
inductive MsgOp where
  | towire (name : AbsName) (methods : UInt32) (nocompress : Bool) (mem : ℕ → Bool)
  | raw (bs : Bytes)
  | truncate (i : ℕ)

structure Msg where
  cctx : Compress
  target : Buffer
  marks : List ℕ
  written : List Written

namespace Msg

/-- An empty buffer of `cap` bytes and a fresh context. -/
def init (cap : ℕ) (sensitive : Bool) : Msg where
  cctx := Compress.init.setsensitive sensitive
  target := ⟨[], cap⟩
  marks := [0]
  written := []

/-- `dns_name_towire` under the methods given, with the name recorded on success. -/
def towire (m : Msg) (name : AbsName) (methods : UInt32) (nocompress : Bool) (mem : ℕ → Bool) :
    Msg :=
  let r := name.name.towire mem nocompress (m.cctx.setmethods methods) m.target
  { cctx := r.2.1
    target := r.2.2
    marks := r.2.2.used :: m.marks
    written := if r.1 = .success then
      ⟨m.target.used, r.2.2.used - m.target.used, name⟩ :: m.written else m.written }

/-- Other bytes, when they fit. -/
def raw (m : Msg) (bs : Bytes) : Msg :=
  if m.target.length - m.target.used < bs.length then m
  else { m with target := m.target.put bs, marks := (m.target.put bs).used :: m.marks }

/-- Back to the boundary `i` steps ago. -/
def truncate (m : Msg) (i : ℕ) : Msg :=
  match m.marks[i]? with
  | none => m
  | some u =>
    { cctx := m.cctx.rollback (u % 65536)
      target := { m.target with data := m.target.data.take u }
      marks := m.marks.drop i
      written := m.written.filter (fun w => decide (w.offset + w.size ≤ u)) }

def step (m : Msg) : MsgOp → Msg
  | .towire name methods nocompress mem => m.towire name methods nocompress mem
  | .raw bs => m.raw bs
  | .truncate i => m.truncate i

def run (cap : ℕ) (sensitive : Bool) (ops : List MsgOp) : Msg := ops.foldl step (init cap sensitive)

end Msg

/-! ### Writing labels -/

/-- Equal labels, or equal up to case when the context is not case sensitive. -/
def SameLabels (sensitive : Bool) (xs ys : List Label) : Prop :=
  if sensitive then xs = ys else xs.map Label.lower = ys.map Label.lower

namespace SameLabels

variable {b : Bool} {xs ys zs : List Label}

theorem refl (b : Bool) (xs : List Label) : SameLabels b xs xs := by
  cases b <;> simp [SameLabels]

theorem trans (h : SameLabels b xs ys) (h' : SameLabels b ys zs) : SameLabels b xs zs := by
  cases b <;> simp only [SameLabels, Bool.false_eq_true, if_true, if_false] at * <;> rw [h, h']

theorem append_left (ws : List Label) (h : SameLabels b xs ys) : SameLabels b (ws ++ xs) (ws ++ ys) := by
  cases b <;> simp only [SameLabels, Bool.false_eq_true, if_true, if_false] at *
  · simp [h]
  · rw [h]

theorem lower_eq (h : SameLabels b xs ys) : Name.lower ⟨xs⟩ = Name.lower ⟨ys⟩ := by
  cases b <;> simp only [SameLabels, Bool.false_eq_true, if_true, if_false] at h
  · simp [Name.lower, h]
  · rw [h]

theorem length_eq (h : SameLabels b xs ys) : Name.length ⟨xs⟩ = Name.length ⟨ys⟩ := by
  rw [← Name.length_lower, ← Name.length_lower ⟨ys⟩, h.lower_eq]

end SameLabels

theorem Compress.sameLabels_of_matchesName {c : Compress} {a b : Name}
    (ha : ∀ l ∈ a.labels, l.length ≤ 63) (hb : ∀ l ∈ b.labels, l.length ≤ 63)
    (h : c.matchesName a b = true) : SameLabels c.getsensitive a.labels b.labels := by
  unfold matchesName at h
  unfold SameLabels
  split_ifs at h ⊢ with hs
  · exact congrArg Name.labels ((Name.caseequal_iff ha hb).1 h)
  · exact congrArg Name.labels ((Name.equal_iff a b).1 h)

theorem Encodes.labels_append {buf : Bytes} {s e : ℕ} {ls : List Label} :
    ∀ {xs : List Label} {p : ℕ}, (∀ l ∈ xs, l ≠ [] ∧ l.length ≤ 63) →
      Name.ndata ⟨xs⟩ <+: buf.drop p → Encodes buf s (p + Name.length ⟨xs⟩) e ls →
      Encodes buf s p e (xs ++ ls)
  | [], p, _, _, h => by simpa [Name.length, Name.ndata] using h
  | x :: xs, p, hx, hp, h => by
    have hx0 := hx x (by simp)
    have hwire : x.wire <+: buf.drop p := by
      simp only [Name.ndata, flatMap_cons] at hp
      exact (prefix_append _ _).trans hp
    have hrest : Name.ndata ⟨xs⟩ <+: buf.drop (p + x.length + 1) := by
      simp only [Name.ndata, flatMap_cons] at hp
      have := hp.drop x.wire.length
      rw [drop_left, drop_drop, Label.wire_length] at this
      simpa [Name.ndata, Nat.add_assoc] using this
    rw [Name.length_cons] at h
    refine .label hx0.1 hx0.2 hwire (labels_append (fun l hl => hx l (by simp [hl])) hrest ?_)
    rw [show p + x.length + 1 + Name.length ⟨xs⟩ = p + (x.length + 1 + Name.length ⟨xs⟩) by omega]
    exact h

/-- What stands behind the uncompressed labels: the root label, or a pointer. -/
theorem Encodes.suffixes {buf : Bytes} {s e : ℕ} {xs ls : List Label}
    (hx : ∀ l ∈ xs, l ≠ [] ∧ l.length ≤ 63) (hp : Name.ndata ⟨xs⟩ <+: buf.drop s)
    (h : Encodes buf s (s + Name.length ⟨xs⟩) e ls) (k : ℕ) :
    Encodes buf s (s + Name.length ⟨xs.take k⟩) e (xs.drop k ++ ls) := by
  have hlen := Name.length_append (xs.take k) (xs.drop k)
  rw [take_append_drop] at hlen
  refine labels_append (fun l hl => hx l (mem_of_mem_drop hl)) ?_ ?_
  · have hnd : Name.ndata ⟨xs⟩ = Name.ndata ⟨xs.take k⟩ ++ Name.ndata ⟨xs.drop k⟩ := by
      simp only [Name.ndata]
      rw [← flatMap_append, take_append_drop]
    rw [hnd] at hp
    have := hp.drop (Name.ndata ⟨xs.take k⟩).length
    rwa [drop_left, drop_drop] at this
  · rw [show s + Name.length ⟨xs.take k⟩ + Name.length ⟨xs.drop k⟩ = s + Name.length ⟨xs⟩ by omega]
    exact h

/-! ### One call of `dns_name_towire` -/

/-- What a successful `dns_name_towire` wrote: some labels, then the root label or a pointer to
a node that matches the labels left out. -/
structure WireWrite (name : AbsName) (mem : ℕ → Bool) (c c' : Compress) (log : List NodeRef)
    (target target' : Buffer) where
  xs : List Label
  rest : List Label
  tail : Bytes
  split : name.name.labels = xs ++ rest
  rest_ne : rest ≠ []
  data : target' = target.put (Name.ndata ⟨xs⟩ ++ tail)
  fits : target'.used ≤ target'.length
  tail_ok : (tail = [0] ∧ rest = [[]]) ∨ ∃ r ∈ log, (c.node r).offset < 0x4000 ∧
    tail = uint16Bytes ((c.node r).offset ||| 0xc000) ∧
    c.matchesName (c.node r).name ⟨rest⟩ = true
  added : c' = c.addLoop mem name.name (target.used % 65536) xs.length 0 name.name.countlabels

theorem AbsName.labels_split (n : AbsName) {xs rest : List Label}
    (h : n.name.labels = xs ++ rest) (hr : rest ≠ []) : ∀ l ∈ xs, l ≠ [] ∧ l.length ≤ 63 := by
  intro l hl
  refine ⟨n.valid.inner_ne l ?_, n.valid.label_le l (by rw [h]; simp [hl])⟩
  rw [h, dropLast_append_of_ne_nil hr]
  exact mem_append_left _ hl

theorem not_isabsolute_of_ne {xs : List Label} (h : ∀ l ∈ xs, l ≠ []) : Name.isabsolute ⟨xs⟩ = false := by
  simp only [Name.isabsolute, beq_eq_false_iff_ne]
  exact fun he => h [] (mem_of_getLast? he) rfl

theorem add_of_labels {xs : List Label} (hxs : ∀ l ∈ xs, l ≠ []) (mem : ℕ → Bool) (c : Compress) (name : Name) (offset : ℕ) :
    (if Name.length ⟨xs⟩ ≠ 0 then c.add mem name ⟨xs⟩ offset else c) =
      c.addLoop mem name offset xs.length 0 name.countlabels := by
  cases xs with
  | nil => rfl
  | cons x xs =>
    rw [if_pos (by rw [Name.length_cons]; omega)]
    simp only [Compress.add, not_isabsolute_of_ne hxs]
    rfl

theorem ndata_length (xs : List Label) : (Name.ndata ⟨xs⟩).length = Name.length ⟨xs⟩ := rfl

variable {log : List NodeRef}

theorem towire_cases (name : AbsName) (mem : ℕ → Bool) (nocompress : Bool) {c : Compress} (h : c.Inv log) (target : Buffer)
    (hfit : target.used ≤ target.length) {res : Result} {c' : Compress} {target' : Buffer}
    (hr : name.name.towire mem nocompress c target = (res, c', target')) :
    (res ≠ .success ∧ c' = c ∧ ∃ ext, target' = target.put ext ∧ target'.used ≤ target'.length) ∨
      (res = .success ∧ Nonempty (WireWrite name mem c c' log target target')) := by
  unfold Name.towire at hr
  dsimp only at hr
  generalize hgf : Option.filter (fun g : Name × ℕ => decide (g.1.length + 2 < name.name.length))
    (Option.filter (fun g : Name × ℕ => decide (g.2 < 0x4000))
      (if (!nocompress && c.getmethods &&& DNS_COMPRESS_GLOBAL14 != 0) = true
        then c.findglobal name.name else none)) = gf at hr
  cases gf with
  | none =>
    split_ifs at hr with hsp
    · cases hr
      exact .inl ⟨by simp, rfl, [], by simp [Buffer.put], hfit⟩
    · cases hr
      have heq := name.labels_eq
      refine .inr ⟨rfl, ⟨name.name.labels.dropLast, [[]], [0], heq, by simp, ?_, ?_,
          .inl ⟨rfl, rfl⟩, ?_⟩⟩
      · have : name.name.ndata = Name.ndata ⟨name.name.labels.dropLast⟩ ++ [0] := by
          unfold Name.ndata
          conv_lhs => rw [heq]
          simp [Label.wire]
        rw [this]
      · have : name.name.ndata.length = name.name.length := rfl
        simp only [Buffer.put_used, Buffer.put_length]
        omega
      · simp only [Compress.add, name.absolute, if_true, length_dropLast]
        rfl
  | some g =>
    obtain ⟨gp, go⟩ := g
    obtain ⟨hgf, hlt⟩ := Option.filter_eq_some_iff.1 hgf
    obtain ⟨hgf, hgo⟩ := Option.filter_eq_some_iff.1 hgf
    split_ifs at hgf
    obtain ⟨m, hm, rfl, r0, hr0, rfl, hmatch⟩ := Compress.findglobal_some h hgf
    have hsplit : name.name.labels = name.name.labels.take m ++ name.name.labels.drop m :=
      (take_append_drop _ _).symm
    have hne : name.name.labels.drop m ≠ [] := by
      have : m < name.name.labels.length := by unfold Name.countlabels at hm; omega
      simpa using this
    have hxs := name.labels_split hsplit hne
    have hlen := ndata_length (name.name.labels.take m)
    dsimp only at hr
    rw [add_of_labels (fun l hl => (hxs l hl).1)] at hr
    split_ifs at hr with h1 h2
    · cases hr
      exact .inl ⟨by simp, rfl, [], by simp [Buffer.put], hfit⟩
    · cases hr
      refine .inl ⟨by simp, rfl, _, rfl, ?_⟩
      simp only [Buffer.put_used, Buffer.put_length]
      omega
    · cases hr
      refine .inr ⟨rfl, ⟨_, _, uint16Bytes ((c.node r0).offset ||| 0xc000), hsplit, hne, ?_, ?_,
          .inr ⟨r0, hr0, by simpa using hgo, rfl, hmatch⟩, rfl⟩⟩
      · simp [Buffer.put]
      · simp only [Buffer.put_used, Buffer.put_length] at h2 ⊢
        simp only [uint16Bytes, length_cons, length_nil]
        omega

variable {sensitive : Bool}

theorem WireWrite.encodes {name : AbsName} {mem : ℕ → Bool} {c c' : Compress} {target target' : Buffer}
    (w : WireWrite name mem c c' log target target') (hsens : c.getsensitive = sensitive)
    (hlt : ∀ r ∈ log, (c.node r).offset < target.used) (hlab : ∀ r ∈ log, ∀ l ∈ (c.node r).name.labels, l.length ≤ 63)
    (henc : ∀ r ∈ log, ∃ e ls, Encodes target.data (c.node r).offset (c.node r).offset e ls ∧
      SameLabels sensitive ls (c.node r).name.labels) : ∃ ls, SameLabels sensitive ls w.rest ∧ ∀ k,
      Encodes target'.data target.used (target.used + Name.length ⟨w.xs.take k⟩) target'.used (w.xs.drop k ++ ls) := by
  have hdata : target'.data = target.data ++ (Name.ndata ⟨w.xs⟩ ++ w.tail) :=
    congrArg Buffer.data w.data
  have hused : target'.used = target.used + Name.length ⟨w.xs⟩ + w.tail.length := by
    have := congrArg Buffer.used w.data
    rwa [Buffer.put_used, length_append, ndata_length, ← Nat.add_assoc] at this
  have hdrop : target'.data.drop target.used = Name.ndata ⟨w.xs⟩ ++ w.tail := by
    rw [hdata]; exact drop_left
  have htail : target'.data.drop (target.used + Name.length ⟨w.xs⟩) = w.tail := by
    rw [← drop_drop, hdrop, ← ndata_length, drop_left]
  have hxs := name.labels_split w.split w.rest_ne
  have hpre : Name.ndata ⟨w.xs⟩ <+: target'.data.drop target.used := by
    rw [hdrop]; exact prefix_append _ _
  rcases w.tail_ok with ⟨ht, hrest⟩ | ⟨r, hr, h14, ht, hmatch⟩
  · refine ⟨[[]], hrest ▸ SameLabels.refl _ _, fun k => Encodes.suffixes hxs hpre ?_ k⟩
    rw [hused, ht]
    exact .root (by rw [htail, ht])
  obtain ⟨e, ls, hls, hsame⟩ := henc r hr
  have hrl : ∀ l ∈ w.rest, l.length ≤ 63 :=
    fun l hl => name.valid.label_le l (by rw [w.split]; simp [hl])
  have hm := Compress.sameLabels_of_matchesName (b := ⟨w.rest⟩) (hlab r hr) hrl hmatch
  rw [hsens] at hm
  refine ⟨ls, hsame.trans hm, fun k => Encodes.suffixes hxs hpre ?_ k⟩
  rw [hused, ht]
  refine .pointer (hlt r hr) h14 (by rw [htail, ht]) (e := e) ?_
  rw [hdata]
  exact hls.append _

/-! ### The invariant of a message -/

namespace Msg

/-- The invariant: table and buffer agree at every boundary of the contents. -/
structure Inv (cap : ℕ) (sensitive : Bool) (m : Msg) (log : List NodeRef) : Prop where
  table : m.cctx.Inv log
  sens : m.cctx.getsensitive = sensitive
  length : m.target.length = cap
  fits : m.target.used ≤ cap
  used_mem : m.target.used ∈ m.marks
  mark_le : ∀ u ∈ m.marks, u ≤ m.target.used
  falling : m.marks.Pairwise (fun u u' => u' ≤ u)
  node_lt : ∀ r ∈ log, (m.cctx.node r).offset < m.target.used
  node_label : ∀ r ∈ log, ∀ l ∈ (m.cctx.node r).name.labels, l.length ≤ 63
  node_ok : ∀ u ∈ m.marks, ∀ r ∈ log, (m.cctx.node r).offset < u → ∃ e ls,
    Encodes (m.target.data.take u) (m.cctx.node r).offset (m.cctx.node r).offset e ls ∧
      SameLabels sensitive ls (m.cctx.node r).name.labels
  written_le : ∀ w ∈ m.written, w.offset + w.size ≤ m.target.used
  written_ok : ∀ u ∈ m.marks, ∀ w ∈ m.written, w.offset + w.size ≤ u → ∃ ls,
    Encodes (m.target.data.take u) w.offset w.offset (w.offset + w.size) ls ∧
      SameLabels sensitive ls w.name.name.labels

theorem getsensitive_init (b : Bool) : (Compress.init.setsensitive b).getsensitive = b := by
  cases b <;> decide

theorem init_inv (cap : ℕ) (sensitive : Bool) : Inv cap sensitive (init cap sensitive) [] := by
  constructor <;> try simp [init, Buffer.used]
  · cases sensitive <;> exact ⟨Compress.init_inv.chain, rfl, nodup_nil, .nil, by simp, by simp⟩
  · exact getsensitive_init _

/-- A message grown by some bytes, nodes and names, all beyond the old end. -/
structure Grown (sensitive : Bool) (m m' : Msg) (log new : List NodeRef) : Prop where
  length : m'.target.length = m.target.length
  fits : m'.target.used ≤ m.target.length
  data : ∃ ext, m'.target.data = m.target.data ++ ext
  marks : m'.marks = m'.target.used :: m.marks
  table : m'.cctx.Inv (new ++ log)
  sens : m'.cctx.getsensitive = m.cctx.getsensitive
  old : ∀ r ∈ log, m'.cctx.node r = m.cctx.node r
  node_ge : ∀ r ∈ new, m.target.used ≤ (m'.cctx.node r).offset
  node_lt : ∀ r ∈ new, (m'.cctx.node r).offset < m'.target.used
  node_label : ∀ r ∈ new, ∀ l ∈ (m'.cctx.node r).name.labels, l.length ≤ 63
  node_ok : ∀ r ∈ new, ∃ e ls,
    Encodes m'.target.data (m'.cctx.node r).offset (m'.cctx.node r).offset e ls ∧
      SameLabels sensitive ls (m'.cctx.node r).name.labels
  written : ∀ w ∈ m'.written, w ∈ m.written ∨ (m.target.used < w.offset + w.size ∧
    w.offset + w.size ≤ m'.target.used ∧ ∃ ls,
      Encodes m'.target.data w.offset w.offset (w.offset + w.size) ls ∧
        SameLabels sensitive ls w.name.name.labels)

variable {cap : ℕ}

theorem Inv.grown {m m' : Msg} (h : Inv cap sensitive m log) (new : List NodeRef) (g : Grown sensitive m m' log new) :
    Inv cap sensitive m' (new ++ log) := by
  obtain ⟨ext, hext⟩ := g.data
  have hle : m.target.used ≤ m'.target.used := by
    unfold Buffer.used; rw [hext]; simp
  have htake : ∀ u ≤ m.target.used, m'.target.data.take u = m.target.data.take u := by
    intro u hu
    rw [hext]
    exact take_append_of_le_length hu
  have hall : m'.target.data.take m'.target.used = m'.target.data := take_length
  have hallm : m.target.data.take m.target.used = m.target.data := take_length
  constructor
  · exact g.table
  · rw [g.sens, h.sens]
  · rw [g.length, h.length]
  · exact h.length ▸ g.fits
  · rw [g.marks]; exact mem_cons_self
  · intro u hu
    rw [g.marks] at hu
    rcases mem_cons.1 hu with rfl | hu
    · exact le_rfl
    · exact (h.mark_le u hu).trans hle
  · rw [g.marks]
    exact pairwise_cons.2 ⟨fun u hu => (h.mark_le u hu).trans hle, h.falling⟩
  · intro r hr
    rcases mem_append.1 hr with hr | hr
    · exact g.node_lt r hr
    · rw [g.old r hr]; exact (h.node_lt r hr).trans_le hle
  · intro r hr
    rcases mem_append.1 hr with hr | hr
    · exact g.node_label r hr
    · rw [g.old r hr]; exact h.node_label r hr
  · intro u hu r hr hru
    rw [g.marks] at hu
    rcases mem_append.1 hr with hr | hr
    · rcases mem_cons.1 hu with rfl | hu
      · rw [hall]; exact g.node_ok r hr
      · -- an old boundary lies before every new node
        have := h.mark_le u hu
        have := g.node_ge r hr
        omega
    rw [g.old r hr] at hru ⊢
    rcases mem_cons.1 hu with rfl | hu
    · obtain ⟨e, ls, henc, hs⟩ := h.node_ok _ h.used_mem r hr (h.node_lt r hr)
      rw [hallm] at henc
      rw [hall, hext]
      exact ⟨e, ls, henc.append ext, hs⟩
    · rw [htake u (h.mark_le u hu)]
      exact h.node_ok u hu r hr hru
  · intro w hw
    rcases g.written w hw with hw | ⟨-, hle', -⟩
    · exact (h.written_le w hw).trans hle
    · exact hle'
  · intro u hu w hw hwu
    rw [g.marks] at hu
    rcases g.written w hw with hw | ⟨hgt, -, hok⟩
    · rcases mem_cons.1 hu with rfl | hu
      · obtain ⟨ls, henc, hs⟩ := h.written_ok _ h.used_mem w hw (h.written_le w hw)
        rw [hallm] at henc
        rw [hall, hext]
        exact ⟨ls, henc.append ext, hs⟩
      · rw [htake u (h.mark_le u hu)]
        exact h.written_ok u hu w hw hwu
    rcases mem_cons.1 hu with rfl | hu
    · rw [hall]; exact hok
    · have := h.mark_le u hu
      omega

theorem getsensitive_setmethods (c : Compress) (methods : UInt32) : (c.setmethods methods).getsensitive = c.getsensitive := by
  have hbits : (c.allowed &&& ~~~DNS_COMPRESS_ALL ||| methods &&& DNS_COMPRESS_ALL) &&&
      DNS_COMPRESS_CASESENSITIVE = c.allowed &&& DNS_COMPRESS_CASESENSITIVE := by
    have h1 : ~~~DNS_COMPRESS_ALL &&& DNS_COMPRESS_CASESENSITIVE = DNS_COMPRESS_CASESENSITIVE := by
      decide
    have h2 : DNS_COMPRESS_ALL &&& DNS_COMPRESS_CASESENSITIVE = 0 := by decide
    have hdist : ∀ a b d : UInt32, (a ||| b) &&& d = (a &&& d) ||| (b &&& d) :=
      fun _ _ _ => UInt32.toBitVec_inj.1 BitVec.and_or_distrib_right
    rw [hdist, UInt32.and_assoc, UInt32.and_assoc, h1, h2]
    simp
  unfold Compress.getsensitive Compress.setmethods
  simp only [hbits]

theorem setmethods_inv {c : Compress} (h : c.Inv log) (methods : UInt32) : (c.setmethods methods).Inv log :=
  ⟨h.chain, h.count, h.nodup, h.sorted, h.bound, h.slot⟩

variable {m : Msg}

theorem towire_inv (hcap : cap ≤ 65535) (h : Inv cap sensitive m log) (name : AbsName) (methods : UInt32)
    (nocompress : Bool) (mem : ℕ → Bool) : ∃ log', Inv cap sensitive (m.towire name methods nocompress mem) log' := by
  obtain ⟨res, c', target', hr⟩ : ∃ res c' t',
      name.name.towire mem nocompress (m.cctx.setmethods methods) m.target = (res, c', t') :=
    ⟨_, _, _, rfl⟩
  have htable := setmethods_inv h.table methods
  have hfit : m.target.used ≤ m.target.length := h.length ▸ h.fits
  have hall : m.target.data.take m.target.used = m.target.data := take_length
  have hm : m.towire name methods nocompress mem = Msg.mk c' target' (target'.used :: m.marks)
      (if res = .success then
        ⟨m.target.used, target'.used - m.target.used, name⟩ :: m.written else m.written) := by
    unfold towire
    rw [hr]
  rw [hm]
  rcases towire_cases name mem nocompress htable m.target hfit hr with
    ⟨hres, rfl, ext, rfl, hfit'⟩ | ⟨rfl, ⟨w⟩⟩
  · refine ⟨_, h.grown [] ⟨rfl, hfit', ⟨ext, rfl⟩, rfl, htable,
      getsensitive_setmethods _ _, fun _ _ => rfl, by simp, by simp, by simp, by simp, ?_⟩⟩
    intro w hw
    rw [if_neg hres] at hw
    exact .inl hw
  obtain ⟨ls, hsame, henc⟩ := w.encodes ((getsensitive_setmethods _ _).trans h.sens) h.node_lt
    h.node_label (fun r hr => by
      have := h.node_ok _ h.used_mem r hr (h.node_lt r hr)
      rwa [hall] at this)
  have hcount : w.xs.length ≤ name.name.countlabels := by
    unfold Name.countlabels
    rw [w.split]
    simp
  have hmod : m.target.used % 65536 = m.target.used := Nat.mod_eq_of_lt (by have := h.fits; omega)
  obtain ⟨new, hadd⟩ := Compress.addLoop_added mem m.target.used
    name.valid.length_le w.xs.length 0 _ log htable (by simpa using hcount) (fun r hr => by
      have : Name.length ⟨name.name.labels.take 0⟩ = 0 := rfl
      rw [this]
      exact h.node_lt r hr)
  rw [Nat.sub_zero, ← hmod, ← w.added, hmod, Nat.zero_add] at hadd
  have htaken : ∀ k < w.xs.length, name.name.labels.take k = w.xs.take k := fun k hk => by
    rw [w.split, take_append_of_le_length hk.le]
  have hdropped : ∀ k < w.xs.length, name.name.labels.drop k = w.xs.drop k ++ w.rest :=
    fun k hk => by rw [w.split, drop_append_of_le_length hk.le]
  have hlt : m.target.used < target'.used := by
    simpa [Name.length, Name.ndata] using (henc 0).lt
  have hdata := congrArg Buffer.data w.data
  have hlength := congrArg Buffer.length w.data
  refine ⟨_, h.grown new ⟨hlength, hlength ▸ w.fits, ⟨_, hdata⟩, rfl, hadd.inv, ?_, hadd.old,
    ?_, ?_, ?_, ?_, ?_⟩⟩
  · have : c'.getsensitive = (m.cctx.setmethods methods).getsensitive := by
      unfold Compress.getsensitive; rw [hadd.allowed]
    exact this.trans (getsensitive_setmethods _ _)
  · intro r hr
    obtain ⟨k, -, -, hoff⟩ := hadd.node r hr
    dsimp only
    omega
  · intro r hr
    obtain ⟨k, hk, -, hoff⟩ := hadd.node r hr
    have := (henc k).lt
    rw [hoff, htaken k hk]
    exact this
  · intro r hr
    obtain ⟨k, hk, hname, -⟩ := hadd.node r hr
    rw [hname]
    exact fun l hl => name.valid.label_le l (mem_of_mem_drop hl)
  · intro r hr
    obtain ⟨k, hk, hname, hoff⟩ := hadd.node r hr
    rw [hname, hoff, htaken k hk, hdropped k hk]
    exact ⟨_, _, (henc k).mono (Nat.le_add_right _ _), hsame.append_left _⟩
  · intro x hx
    rw [if_pos rfl] at hx
    rcases mem_cons.1 hx with rfl | hx
    · have hend : m.target.used + (target'.used - m.target.used) = target'.used := by omega
      refine .inr ⟨by dsimp only; omega, by dsimp only; omega, w.xs ++ ls, ?_, ?_⟩
      · rw [hend]
        simpa [Name.length, Name.ndata] using henc 0
      · rw [w.split]
        exact hsame.append_left _
    · exact .inl hx

theorem raw_inv (h : Inv cap sensitive m log) (bs : Bytes) : ∃ log', Inv cap sensitive (m.raw bs) log' := by
  unfold raw
  split_ifs with hsp
  · exact ⟨log, h⟩
  · have hfit := h.fits
    have hlen := h.length
    refine ⟨_, h.grown [] ⟨rfl, ?_, ⟨bs, rfl⟩, rfl, h.table, rfl, fun _ _ => rfl,
      by simp, by simp, by simp, by simp, fun w hw => .inl hw⟩⟩
    rw [Buffer.put_used]
    omega

/-- Going back to a boundary of the contents keeps the invariant. -/
theorem truncate_inv (hcap : cap ≤ 65535) (h : Inv cap sensitive m log) (i : ℕ) :
    ∃ log', Inv cap sensitive (m.truncate i) log' := by
  unfold truncate
  cases hi : m.marks[i]? with
  | none => exact ⟨log, h⟩
  | some u =>
    have hu : u ∈ m.marks := mem_of_getElem? hi
    have hle := h.mark_le u hu
    have hfits := h.fits
    have hmod : u % 65536 = u := Nat.mod_eq_of_lt (by omega)
    have hdrop : m.marks.drop i = u :: m.marks.drop (i + 1) := by
      obtain ⟨hlt, he⟩ := List.getElem?_eq_some_iff.1 hi
      rw [drop_eq_getElem_cons hlt, he]
    have hused : (m.target.data.take u).length = u := by
      rw [length_take]; exact Nat.min_eq_left hle
    have hfall : (u :: m.marks.drop (i + 1)).Pairwise (fun u u' => u' ≤ u) := by
      rw [← hdrop]; exact h.falling.drop
    have hmarks : ∀ v ∈ m.marks.drop i, v ∈ m.marks ∧ v ≤ u := by
      intro v hv
      refine ⟨mem_of_mem_drop hv, ?_⟩
      rw [hdrop] at hv
      rcases mem_cons.1 hv with rfl | hv
      · exact le_rfl
      · exact (pairwise_cons.1 hfall).1 v hv
    have htake : ∀ v ≤ u, (m.target.data.take u).take v = m.target.data.take v := by
      intro v hv
      rw [take_take, Nat.min_eq_left hv]
    obtain ⟨htable, hnode, hall⟩ := h.table.rollback u
    dsimp only
    rw [hmod]
    refine ⟨_, htable, ?_, h.length, ?_, ?_, ?_, h.falling.drop, ?_, ?_, ?_, ?_, ?_⟩
    · rw [← h.sens]; unfold Compress.getsensitive; rw [hall]
    · simp only [Buffer.used, hused]; omega
    · simp only [Buffer.used, hused, hdrop]; exact mem_cons_self
    · simp only [Buffer.used, hused]; exact fun v hv => (hmarks v hv).2
    · simp only [Buffer.used, hused, hnode]
      exact fun r hr => by simpa using (mem_filter.1 hr).2
    · rw [hnode]
      exact fun r hr => h.node_label r (mem_of_mem_filter hr)
    · rw [hnode]
      intro v hv r hr hrv
      obtain ⟨hv, hvu⟩ := hmarks v hv
      rw [htake v hvu]
      exact h.node_ok v hv r (mem_of_mem_filter hr) hrv
    · simp only [Buffer.used, hused]
      exact fun w hw => by simpa using (mem_filter.1 hw).2
    · intro v hv w hw hwv
      obtain ⟨hv, hvu⟩ := hmarks v hv
      rw [htake v hvu]
      exact h.written_ok v hv w (mem_of_mem_filter hw) hwv

theorem step_inv (hcap : cap ≤ 65535) (h : Inv cap sensitive m log) (op : MsgOp) :
    ∃ log', Inv cap sensitive (m.step op) log' := by
  cases op with
  | towire name methods nocompress mem => exact towire_inv hcap h name methods nocompress mem
  | raw bs => exact raw_inv h bs
  | truncate i => exact truncate_inv hcap h i

theorem run_inv (hcap : cap ≤ 65535) (sensitive : Bool) (ops : List MsgOp) :
    ∃ log, Inv cap sensitive (run cap sensitive ops) log := by
  unfold run
  induction ops using reverseRecOn with
  | nil => exact ⟨[], init_inv cap sensitive⟩
  | append_singleton ops op ih =>
    obtain ⟨log, h⟩ := ih
    rw [foldl_append]
    exact step_inv hcap h op

/-- **Compression is undone by decoding.**  After any run, `dns_name_fromwire` at the offset of
a name that is still in the buffer returns that name, up to case unless the context is case
sensitive, and consumes the bytes that were appended for it. -/
theorem fromwire_towire_run {cap : ℕ} (hcap : cap ≤ 65535) (sensitive : Bool) (ops : List MsgOp)
    {w : Written} (hw : w ∈ (run cap sensitive ops).written) {avail : ℕ}
    (havail : w.name.name.length ≤ avail) (downcase : Bool) {allowed : UInt32} (hg : allowed &&& DNS_COMPRESS_GLOBAL14 ≠ 0) :
    ∃ n : Name, fromwire (run cap sensitive ops).target.data w.offset avail downcase allowed =
        .ok ⟨n.ndata, n.countlabels, n.offsets, w.size⟩ ∧ n.lower = w.name.name.lower ∧
      (sensitive = true → downcase = false → n = w.name.name) := by
  obtain ⟨log, h⟩ := run_inv hcap sensitive ops
  obtain ⟨ls, henc, hsame⟩ := h.written_ok _ h.used_mem w hw (h.written_le w hw)
  have hall : (run cap sensitive ops).target.data.take (run cap sensitive ops).target.used =
    (run cap sensitive ops).target.data := take_length
  rw [hall] at henc
  have hlen : Name.length ⟨ls⟩ = w.name.name.length := hsame.length_eq
  have hfw := fromwire_of_encodes avail downcase henc le_rfl
    (by rw [hlen]; exact w.name.valid.length_le) (by rw [hlen]; exact havail) (.inl hg)
  rw [Nat.add_sub_cancel_left] at hfw
  cases downcase with
  | false =>
    refine ⟨⟨ls⟩, hfw, hsame.lower_eq, fun hs _ => ?_⟩
    subst hs
    exact congrArg Name.mk hsame
  | true =>
    refine ⟨Name.lower ⟨ls⟩, ?_, ?_, by simp⟩
    · rw [hfw]
      simp [Name.lower, Name.countlabels, Name.offsets, Name.offsetsFrom_map_lower]
    · rw [Name.lower_lower, hsame.lower_eq]

/-- The name `x.a.bc`, written behind `A.bc` and one more byte, takes two bytes and a pointer. -/
def pointerOps : List MsgOp :=
  [.towire ⟨⟨[[65], [98, 99], []]⟩, by decide, by decide⟩ 1 false (fun _ => true), .raw [7],
    .towire ⟨⟨[[120], [97], [98, 99], []]⟩, by decide, by decide⟩ 1 false (fun _ => true)]

def pointerWritten : Written := ⟨7, 4, ⟨⟨[[120], [97], [98, 99], []]⟩, by decide, by decide⟩⟩

theorem fromwire_towire_pointerOps : pointerWritten ∈ (run 512 false pointerOps).written ∧
      ∃ n : Name, fromwire (run 512 false pointerOps).target.data pointerWritten.offset 255 false
          DNS_COMPRESS_GLOBAL14 = .ok ⟨n.ndata, n.countlabels, n.offsets, pointerWritten.size⟩ ∧
        n.lower = pointerWritten.name.name.lower ∧ (false = true → false = false → n = pointerWritten.name.name) :=
  ⟨by decide +kernel, fromwire_towire_run (by decide) false pointerOps (by decide +kernel)
    (by decide) false (by decide)⟩

end Msg
end Bind9
