import Bind9.NameTextSafe

/-! # The machine on the text of labels

The other direction: on the text of labels the state machine of `dns_name_fromtext` reads these labels, unless it goes out of
range.  With `ftLoop_stepped` this says exactly when `dns_name_fromtext` stays in its tables. -/

namespace Bind9

open List

/-- On the text, with `post` behind it, the loop goes out of range or comes to a state with `P`. -/
def Feeds (env : FtEnv) (v : FtLocals) (text post : Bytes) (P : FtLocals → Prop) : Prop :=
  env.downcase = true ∧ ftLoop env v (text ++ post) = .error .overrun ∨
    ∃ v', ftLoop env v (text ++ post) = ftLoop env v' post ∧ P v'

section feeds

variable {env : FtEnv} {v : FtLocals} {post : Bytes} {ls : List Label} {l : Label} {P Q : FtLocals → Prop}

theorem Feeds.nil (h : P v) : Feeds env v [] post P := Or.inr ⟨v, rfl, h⟩

variable {t u p : Bytes}

theorem Feeds.append (h : Feeds env v t (u ++ post) P) (h' : ∀ v', P v' → Feeds env v' u post Q) :
    Feeds env v (t ++ u) post Q := by
  unfold Feeds
  rw [append_assoc]
  obtain hover | ⟨v1, h1, hp⟩ := h
  · exact .inl hover
  · rw [h1]
    exact h' v1 hp

theorem Feeds.mono (h : Feeds env v t post P) (h' : ∀ v', P v' → Q v') : Feeds env v t post Q :=
  h.imp id (fun ⟨v1, h1, hp⟩ => ⟨v1, h1, h' v1 hp⟩)

theorem ftLoop_cons {c : UInt8} {rest : Bytes} (hrem : 0 < v.nrem) (hd : v.done = false) :
    ftLoop env v (c :: rest) = (ftStep env v c rest.length >>= fun v => ftLoop env v rest) := by
  rw [ftLoop, if_pos ⟨hrem, hd⟩]

/-- A byte that a turn reads. -/
theorem Feeds.step {c : UInt8} {text : Bytes} {v' : FtLocals} (hrem : 0 < v.nrem) (hd : v.done = false)
    (hstep : ftStep env v c (text ++ post).length = .ok v') (h : Feeds env v' text post P) : Feeds env v (c :: text) post P := by
  have hloop : ftLoop env v (c :: text ++ post) = ftLoop env v' (text ++ post) := by
    rw [cons_append, ftLoop_cons hrem hd, hstep, ok_then]
  unfold Feeds
  rw [hloop]
  exact h

/-- A byte of a label that is not given by its number. -/
theorem feeds_char {c : UInt8} (hw : v.Within env ls l) (hlt : l.length < 63) (hrem : 0 < v.nrem) (hmax : env.nmax ≤ 255)
    (hstep : ftStep env v c post.length = ftChar env v c) :
    Feeds env v [c] post (fun v' => v'.state = .ordinary ∧ v'.Within env ls (l ++ [env.copy c]) ∧
      (env.downcase = true → c.toNat < 128)) := by
  obtain ⟨-, hlow, v', hv', hw', hs'⟩ | ⟨hge, -⟩ | ⟨-, herr, hdown, -⟩ := hw.char hrem hmax c
  · exact Feeds.step hrem hw.done (hstep.trans hv') (Feeds.nil ⟨hs', hw', hlow⟩)
  · omega
  · refine .inl ⟨hdown, ?_⟩
    rw [singleton_append, ftLoop_cons hrem hw.done, hstep, herr]
    rfl

variable {b : UInt8}

/-- What follows a backslash. -/
theorem feeds_escape {q : Bytes} (hw : v.Within env ls l) (hlt : l.length < 63) (hrem : 0 < v.nrem)
    (hmax : env.nmax ≤ 255) (hb : ByteText (92 :: q) b) (hstep : ∀ c tlen, q.head? = some c → ftStep env v c tlen = ftEscape env v c) :
    Feeds env v q post (fun v' => v'.state = .ordinary ∧ v'.Within env ls (l ++ [env.copy b]) ∧
      (env.downcase = true → q = [b] → b.toNat < 128)) := by
  generalize hp : 92 :: q = p at hb
  cases hb with
  | plain _ hback =>
    cases hp
    exact absurd rfl hback
  | @escaped c hc =>
    cases hp
    have hesc : ftStep env v b post.length = ftChar env v b := by
      rw [hstep b post.length rfl, ftEscape, if_pos hc]
    exact (feeds_char hw hlt hrem hmax hesc).mono (fun v' hv' => ⟨hv'.1, hv'.2.1, fun hdown _ => hv'.2.2 hdown⟩)
  | @decimal d1 d2 d3 h1 h2 h3 hle =>
    cases hp
    obtain ⟨hv1, -⟩ := digitvalue_eq h1
    obtain ⟨hv2, -⟩ := digitvalue_eq h2
    obtain ⟨hv3, -⟩ := digitvalue_eq h3
    have hstep1 : ftStep env v d1 ([d2, d3] ++ post).length =
        .ok { v with digits := 1, value := d1.toNat - 48, state := .escdecimal } := by
      rw [hstep d1 _ rfl, ftEscape, if_neg (by simp [h1]), ftEscdecimal, if_neg (by simp [h1]), hv1, ok_then]
      simp [pure, Except.pure]
    have hstep2 : ftStep env { v with digits := 1, value := d1.toNat - 48, state := .escdecimal } d2 ([d3] ++ post).length =
        .ok { v with digits := 2, value := (d1.toNat - 48) * 10 + (d2.toNat - 48), state := .escdecimal } := by
      simp only [ftStep]
      rw [ftEscdecimal, if_neg (by simp [h2]), hv2, ok_then]
      rfl
    have hw3 : FtLocals.Within env ls l { v with digits := 3, value := decimalValue d1 d2 d3, state := .escdecimal } :=
      ⟨hw.inner, hw.label_le, hw.count, hw.ndata, hw.label, hw.nused, hw.nrem, hw.labels, hw.offsets, hw.done⟩
    obtain ⟨v', hput, hw', hs'⟩ := hw3.put hlt hrem hmax (env.copy (UInt8.ofNat (decimalValue d1 d2 d3)))
    have hstep3 : ftStep env { v with digits := 2, value := (d1.toNat - 48) * 10 + (d2.toNat - 48), state := .escdecimal } d3
        ([] ++ post).length = .ok v' := by
      have hcount := hw.count
      simp only [ftStep]
      rw [ftEscdecimal, if_neg (by simp [h3]), hv3, ok_then]
      simp only
      have hvalue : ((d1.toNat - 48) * 10 + (d2.toNat - 48)) * 10 + (d3.toNat - 48) = decimalValue d1 d2 d3 := rfl
      rw [if_neg (by decide), hvalue, if_neg (not_lt.2 hle), if_neg (by omega), ftLowerValue_eq env hle, ok_then]
      exact hput
    refine Feeds.step hrem hw.done hstep1 (Feeds.step hrem hw.done hstep2 (Feeds.step hrem hw.done hstep3 (Feeds.nil ?_)))
    exact ⟨hs', hw', fun _ heq => by simp at heq⟩

theorem feeds_byte (hw : v.Within env ls l) (hs : v.state = .ordinary) (hlt : l.length < 63)
    (hrem : 0 < v.nrem) (hmax : env.nmax ≤ 255) (hb : ByteText p b) :
    Feeds env v p post (fun v' => v'.state = .ordinary ∧ v'.Within env ls (l ++ [env.copy b]) ∧
      (env.downcase = true → p = [b] ∨ p = [92, b] → b.toNat < 128)) := by
  have hescape : ∀ {q}, ByteText (92 :: q) b → Feeds env v (92 :: q) post (fun v' => v'.state = .ordinary ∧
      v'.Within env ls (l ++ [env.copy b]) ∧ (env.downcase = true → 92 :: q = [b] ∨ 92 :: q = [92, b] → b.toNat < 128)) := by
    intro q hb
    have hstep : ftStep env v 92 (q ++ post).length = .ok { v with state := .escape } := by
      unfold ftStep
      rw [hs]
      rfl
    have hw' : FtLocals.Within env ls l { v with state := .escape } :=
      ⟨hw.inner, hw.label_le, hw.count, hw.ndata, hw.label, hw.nused, hw.nrem, hw.labels, hw.offsets, hw.done⟩
    refine Feeds.step hrem hw.done hstep ((feeds_escape hw' hlt hrem hmax hb (fun c tlen _ => rfl)).mono (fun v' hv' => ?_))
    refine ⟨hv'.1, hv'.2.1, fun hdown hq => hv'.2.2 hdown ?_⟩
    obtain hq | hq := hq
    · cases hq
      cases hb with
      | plain _ hback => exact absurd rfl hback
    · exact (cons.inj hq).2
  cases hb with
  | plain hdot hback =>
    have hstep : ftStep env v b post.length = ftChar env v b := by
      unfold ftStep
      rw [hs]
      simp only [ftOrdinary, if_neg hdot, if_neg hback]
    exact (feeds_char hw hlt hrem hmax hstep).mono (fun v' hv' => ⟨hv'.1, hv'.2.1, fun hdown _ => hv'.2.2 hdown⟩)
  | escaped hc => exact hescape (.escaped hc)
  | decimal h1 h2 h3 hle => exact hescape (.decimal h1 h2 h3 hle)

theorem feeds_first (hb : v.Between env ls) (hs : v.state = .start ∨ v.state = .init ∧ p ++ post ≠ [64])
    (hrem : 1 < v.nrem) (hmax : env.nmax ≤ 255) (hp : ByteText p b) (hbit : p ≠ [92, 91]) :
    Feeds env v p post (fun v' => v'.state = .ordinary ∧ v'.Within env ls [env.copy b] ∧
      (env.downcase = true → p = [b] ∨ p = [92, b] → b.toNat < 128)) := by
  have hrem' : 0 < v.nrem := Nat.lt_of_succ_lt hrem
  have hnrem := hb.nrem
  have hdecr : decr v.nrem = v.nrem - 1 := decr_eq hrem' (by omega)
  have hstart : ∀ {c : UInt8} {rest : Bytes}, p ++ post = c :: rest → c ≠ 46 →
      ftStep env v c rest.length = ftStart env v c rest.length := by
    intro c rest hcons hdot
    unfold ftStep
    obtain hs | ⟨hs, hat⟩ := hs
    · rw [hs]
    rw [hs]
    simp only [ftInit, if_neg hdot]
    rw [if_neg]
    rintro ⟨rfl, hlen⟩
    rw [length_eq_zero_iff.1 hlen] at hcons
    exact hat hcons
  have hescape : ∀ {q}, p = 92 :: q → ByteText (92 :: q) b → 92 :: q ≠ [92, 91] → Feeds env v (92 :: q) post (fun v' =>
      v'.state = .ordinary ∧ v'.Within env ls [env.copy b] ∧
      (env.downcase = true → 92 :: q = [b] ∨ 92 :: q = [92, b] → b.toNat < 128)) := by
    intro q hpq hb' hbit'
    have hw := hb.begin hrem' hmax .initialescape
    have hstep : ftStep env v 92 (q ++ post).length = .ok { v with
        label := v.ndata.length, ndata := v.ndata ++ [0], nrem := decr v.nrem, nused := v.nused + 1, count := 0,
        state := .initialescape } := by
      rw [hstart (by rw [hpq]; rfl) (by decide)]
      rfl
    refine Feeds.step hrem' hb.done hstep ((feeds_escape hw (by decide) (show 0 < decr v.nrem by omega) hmax hb' (fun c tlen hc => ?_)).mono
      (fun v' hv' => ?_))
    · have hne : c ≠ 91 := by
        rintro rfl
        cases hb' with
        | plain _ hback => exact absurd rfl hback
        | escaped _ =>
          cases hc
          exact hbit' rfl
        | decimal h1 _ _ _ =>
          cases hc
          cases h1
      simp only [ftStep, if_neg hne]
    · refine ⟨hv'.1, hv'.2.1, fun hdown hq => hv'.2.2 hdown ?_⟩
      obtain hq | hq := hq
      · cases hq
        cases hb' with
        | plain _ hback => exact absurd rfl hback
      · exact (cons.inj hq).2
  cases hp with
  | plain hdot hback =>
    have hw := hb.begin hrem' hmax .ordinary
    have hstep : ftStep env v b post.length = ftChar env { v with
        label := v.ndata.length, ndata := v.ndata ++ [0], nrem := decr v.nrem, nused := v.nused + 1, count := 0,
        state := .ordinary } b := by
      rw [hstart (singleton_append) hdot]
      simp only [ftStart, if_neg hback]
      rw [if_neg (by omega)]
      simp only [ftOrdinary, if_neg hdot, if_neg hback]
    obtain ⟨-, hlow, v', hv', hw', hs'⟩ | ⟨hge, -⟩ | ⟨-, herr, hdown, -⟩ := hw.char (show 0 < decr v.nrem by omega) hmax b
    · exact Feeds.step hrem' hb.done (hstep.trans hv') (Feeds.nil ⟨hs', hw', fun hdown _ => hlow hdown⟩)
    · cases hge
    · refine .inl ⟨hdown, ?_⟩
      rw [singleton_append, ftLoop_cons hrem' hb.done, hstep, herr]
      rfl
  | escaped hc => exact hescape rfl (.escaped hc) hbit
  | decimal h1 h2 h3 hle => exact hescape rfl (.decimal h1 h2 h3 hle) hbit

theorem LabelText.nil_of_nil (h : LabelText u l) (hl : l = []) : u = [] := by
  cases h with
  | nil => rfl
  | snoc _ _ _ => exact absurd hl (append_ne_nil_of_right_ne_nil _ (cons_ne_nil _ _))

theorem ByteText.ne_nil (h : ByteText p b) : p ≠ [] := by
  cases h <;> exact cons_ne_nil _ _

theorem LabelText.ne_nil (h : LabelText u l) (hl : l ≠ []) : u ≠ [] := by
  cases h with
  | nil => exact absurd rfl hl
  | snoc _ hp _ => exact append_ne_nil_of_right_ne_nil _ hp.ne_nil

theorem feeds_label (hb : v.Between env ls) (hmax : env.nmax ≤ 255) (hu : LabelText u l) (hne : l ≠ [])
    (hle : l.length ≤ 63) (hfits : Name.length ⟨ls⟩ + l.length < env.nmax) : ∀ post : Bytes,
    v.state = .start ∨ v.state = .init ∧ u ++ post ≠ [64] →
    Feeds env v u post (fun v' => v'.state = .ordinary ∧ v'.Within env ls (l.map env.copy)) := by
  have hnrem := hb.nrem
  have hnused := hb.nused
  induction hu with
  | nil => exact absurd rfl hne
  | @snoc u p l b hu hp hbit ih =>
    intro post hs
    rw [length_append, length_singleton] at hle hfits
    by_cases hnil : l = []
    · obtain rfl := hu.nil_of_nil hnil
      subst hnil
      rw [nil_append] at hs ⊢
      exact (feeds_first hb hs (by omega) hmax hp (hbit rfl)).mono (fun v' hv' => ⟨hv'.1, hv'.2.1⟩)
    rw [append_assoc] at hs
    refine Feeds.append (ih hnil (by omega) (by omega) (p ++ post) hs) (fun v' hv' => ?_)
    have hw := hv'.2
    have hused := hw.nused
    have hleft := hw.nrem
    rw [length_map] at hused
    refine (feeds_byte hw hv'.1 (by rw [length_map]; omega) (by omega) hmax hp).mono (fun v'' hv'' => ⟨hv''.1, ?_⟩)
    rw [map_append]
    exact hv''.2.1

theorem feeds_labels {ls : List Label} (hmax : env.nmax ≤ 255) (ht : LabelsText t ls)
    (hfits : Name.length ⟨ls⟩ < env.nmax) (hb : v.Between env []) (hs : v.state = .init) : ∀ post : Bytes, post ≠ [] →
    Feeds env v t post (fun v' => v'.Between env (env.copied ls) ∧ (v'.state = .start ∨ v'.state = .init ∧ t = [])) := by
  induction ht with
  | nil =>
    intro post _
    exact Feeds.nil ⟨hb, Or.inr ⟨hs, rfl⟩⟩
  | @snoc t u ls l ht hu hne hle ih =>
    intro post hpost
    have hlen : Name.length ⟨ls ++ [l]⟩ = Name.length ⟨ls⟩ + 1 + l.length := by
      rw [Name.length_append, Name.length_cons]
      have hnil : Name.length ⟨[]⟩ = 0 := rfl
      omega
    have hu0 := hu.ne_nil hne
    have htu : Feeds env v (t ++ u) ([46] ++ post) (fun v' => v'.state = .ordinary ∧
        v'.Within env (env.copied ls) (l.map env.copy)) := by
      refine Feeds.append (ih (by omega) (u ++ ([46] ++ post)) (append_ne_nil_of_left_ne_nil hu0 _)) (fun v1 hv1 => ?_)
      have hlen1 := length_copied env ls
      refine feeds_label hv1.1 hmax hu hne hle (by omega) _ (hv1.2.imp id (fun hinit => ⟨hinit.1, fun heq => ?_⟩))
      have hlen' := congrArg List.length heq
      have hpos := length_pos_iff.2 hu0
      simp at hlen'
      omega
    refine Feeds.append htu (fun v2 hv2 => ?_)
    have hw := hv2.2
    have hused := hw.nused
    have hleft := hw.nrem
    rw [length_map, length_copied] at hused
    obtain ⟨v3, hdot, hresult⟩ := hw.dot (fun h => hne (map_eq_nil_iff.1 h)) (by omega) hmax post.length
    rw [if_neg (fun h => hpost (length_eq_zero_iff.1 h))] at hresult
    have hstep : ftStep env v2 46 ([] ++ post).length = .ok v3 := by
      unfold ftStep
      rw [hv2.1]
      exact hdot
    refine Feeds.step (by omega) hw.done hstep (Feeds.nil ⟨?_, Or.inl hresult.1⟩)
    have hcopied : env.copied ls ++ [l.map env.copy] = env.copied (ls ++ [l]) := (copied_append env ls [l]).symm
    rw [hcopied] at hresult
    exact hresult.2

/-- Labels, and the start of a last one. -/
theorem feeds_relative {ls : List Label} (hmax : env.nmax ≤ 255) (ht : LabelsText t ls) (hu : LabelText u l)
    (hne : l ≠ []) (hle : l.length ≤ 63) (hfits : Name.length ⟨ls⟩ + l.length < env.nmax) (hb : v.Between env [])
    (hs : v.state = .init) (post : Bytes) (h64 : t ++ u ++ post ≠ [64]) :
    Feeds env v (t ++ u) post (fun v' => v'.state = .ordinary ∧ v'.Within env (env.copied ls) (l.map env.copy)) := by
  have hu0 := hu.ne_nil hne
  refine Feeds.append (feeds_labels hmax ht (by omega) hb hs (u ++ post) (append_ne_nil_of_left_ne_nil hu0 _))
    (fun v1 hv1 => ?_)
  have hlen1 := length_copied env ls
  refine feeds_label hv1.1 hmax hu hne hle (by omega) post (hv1.2.imp id (fun hinit => ⟨hinit.1, ?_⟩))
  rw [hinit.2] at h64
  exact h64

theorem overrun_of_highInText {text : Bytes} (hmax : env.nmax ≤ 255) (hdown : env.downcase = true) (hb : v.Between env [])
    (hs : v.state = .init) (h : HighInText env.nmax text) : ftLoop env v text = .error .overrun := by
  obtain ⟨t, u, p, post, ls, l, b, rfl, ht, hu, hlt, hp, hhigh, hfits⟩ := h
  have hdot : b ≠ 46 ∧ b ≠ 92 ∧ b ≠ 64 ∧ b ≠ 91 ∧ isDigit b = false := by
    refine ⟨?_, ?_, ?_, ?_, ?_⟩
    · rintro rfl
      exact absurd hhigh (by decide)
    · rintro rfl
      exact absurd hhigh (by decide)
    · rintro rfl
      exact absurd hhigh (by decide)
    · rintro rfl
      exact absurd hhigh (by decide)
    · unfold isDigit
      rw [Bool.and_eq_false_iff, decide_eq_false_iff_not, decide_eq_false_iff_not]
      exact .inr (by omega)
  have hbyte : ByteText p b := by
    obtain rfl | rfl := hp
    · exact .plain hdot.1 hdot.2.1
    · exact .escaped hdot.2.2.2.2
  have hfeeds : Feeds env v (t ++ u ++ p) post (fun _ => False) := by
    by_cases hne : l = []
    · obtain rfl := hu.nil_of_nil hne
      subst hne
      rw [append_nil]
      refine Feeds.append (feeds_labels hmax ht (by omega) hb hs (p ++ post) (append_ne_nil_of_left_ne_nil hbyte.ne_nil _))
        (fun v1 hv1 => ?_)
      have hnrem := hv1.1.nrem
      have hnused := hv1.1.nused
      have hlen := length_copied env ls
      rw [length_nil] at hfits
      refine (feeds_first hv1.1 (hv1.2.imp id (fun hinit => ⟨hinit.1, fun heq => ?_⟩)) (by omega) hmax hbyte (fun heq => ?_)).mono
        (fun v2 hv2 => ?_)
      · obtain rfl | rfl := hp
        · exact hdot.2.2.1 (cons.inj heq).1
        · exact absurd (cons.inj heq).1 (by decide)
      · obtain rfl | rfl := hp
        · cases heq
        · exact hdot.2.2.2.1 (cons.inj (cons.inj heq).2).1
      · have hlow := hv2.2.2 hdown hp
        omega
    have h64 : t ++ u ++ (p ++ post) ≠ [64] := by
      intro heq
      have hlen := congrArg List.length heq
      have hpos := length_pos_iff.2 (hu.ne_nil hne)
      have hpos' := length_pos_iff.2 hbyte.ne_nil
      simp at hlen
      omega
    refine Feeds.append (feeds_relative hmax ht hu hne (by omega) (by omega) hb hs (p ++ post) h64) (fun v1 hv1 => ?_)
    have hw := hv1.2
    have hused := hw.nused
    have hleft := hw.nrem
    rw [length_map, length_copied] at hused
    refine (feeds_byte hw hv1.1 (by rw [length_map]; omega) (by omega) hmax hbyte).mono (fun v2 hv2 => ?_)
    have hlow := hv2.2.2 hdown hp
    omega
  obtain ⟨-, hover⟩ | ⟨_, -, hfalse⟩ := hfeeds
  · exact hover
  · exact hfalse.elim

end feeds

/-! ### The end of the text -/

def OriginIs (origin : Option DnsName) (name : Option Name) : Prop :=
  match origin, name with
  | none, none => True
  | some o, some n => o.Is n
  | _, _ => False

section finish

variable {env : FtEnv} {v : FtLocals} {ls : List Label} {origin : Option DnsName} {name : Option Name}

/-- The local variables when the text is at its end and has the labels `ls`. -/
def FtLocals.Read (env : FtEnv) (ls : List Label) (v : FtLocals) : Prop :=
  v.state = .at ∧ ls = [] ∧ v.Between env [] ∨
  v.state = .ordinary ∧ ∃ ls' l, ls = ls' ++ [l] ∧ l ≠ [] ∧ v.Within env ls' l

theorem FtLocals.Read.last (h : v.Read env ls) (hrem : 0 < v.nrem) (hmax : env.nmax ≤ 255) :
    ∃ v', ftLast env v = .ok v' ∧ v'.Between env ls ∧ v'.nrem = v.nrem := by
  unfold ftLast
  obtain ⟨hs, rfl, hb⟩ | ⟨hs, ls', l, rfl, hne, hw⟩ := h
  · rw [if_neg (by rw [hs]; exact FtState.noConfusion)]
    exact ⟨v, rfl, hb, rfl⟩
  obtain ⟨v', hclose, hb, hnrem, -⟩ := hw.close hne hrem hmax
  have hcount : (v.count != 0) = true := by
    rw [hw.count, bne_iff_ne]
    exact fun hz => hne (length_eq_zero_iff.1 hz)
  rw [if_pos hs, require_true hcount, ok_then]
  exact ⟨v', hclose, hb, hnrem⟩

/-- The labels of a name that is read relative to an origin. -/
def withOrigin (env : FtEnv) (ls : List Label) (name : Option Name) : List Label :=
  match name with
  | none => ls
  | some n => ls ++ env.copied n.labels

/-- `dns_name_fromtext` behind a relative text. -/
theorem FtLocals.Read.finish (h : v.Read env ls) (hd : v.done = false) (hrem : 0 < v.nrem) (hmax : env.nmax ≤ 255)
    (horigin : OriginIs origin name) :
    (∃ v' absolute, ftEnd env v [] origin = .ok (v', absolute) ∧ v'.Named (withOrigin env ls name) ∧ v'.nused ≤ env.nmax ∧
      (absolute = true ↔ ∃ n, name = some n ∧ n.isabsolute = true) ∧
      (env.downcase = true → ∀ n, name = some n → Name.length ⟨ls⟩ + n.length ≤ env.nmax →
        ∀ l ∈ n.labels, ∀ b ∈ l, b.toNat < 128)) ∨
    (∃ n, name = some n ∧ env.nmax < Name.length ⟨ls⟩ + n.length ∧ ftEnd env v [] origin = .error (.result .nospace)) ∨
    (ftEnd env v [] origin = .error .overrun ∧ env.downcase = true ∧
      ∃ n, name = some n ∧ Name.length ⟨ls⟩ + n.length ≤ env.nmax ∧ ∃ l ∈ n.labels, ∃ b ∈ l, 128 ≤ b.toNat) := by
  obtain ⟨v1, hlast, hb, hnrem⟩ := h.last hrem hmax
  have hstate : ¬ (v.state ≠ .ordinary ∧ v.state ≠ .at) := by
    obtain ⟨hs, -⟩ | ⟨hs, -⟩ := h
    · exact fun hno => hno.2 hs
    · exact fun hno => hno.1 hs
  have hleft := hb.nrem
  have hused := hb.nused
  have hend : ftEnd env v [] origin = ftAppend env v1 origin := by
    unfold ftEnd
    rw [if_neg (by simp [hd]), if_neg (by omega), require_true (beq_iff_eq.2 length_nil), ok_then, if_neg hstate, hlast,
      ok_then]
  have hbetween : v1.Named ls := by
    refine ⟨hb.ndata, hb.nused, hb.labels, ?_⟩
    rw [hb.offsets]
    exact prefix_append _ _
  rw [hend]
  cases origin with
  | none =>
    cases name with
    | some n => exact horigin.elim
    | none =>
      refine .inl ⟨v1, false, rfl, hbetween, by omega, ⟨(by intro h; cases h), ?_⟩, ?_⟩
      · rintro ⟨n, hn, -⟩
        cases hn
      · intro _ n hn
        cases hn
  | some o =>
    obtain _ | n := name
    · exact horigin.elim
    have hn : o.Is n := horigin
    have hlen : o.ndata.length = n.length := by
      rw [hn.ndata]
      rfl
    rw [ftAppend]
    by_cases hfits : v1.nrem < o.ndata.length
    · rw [if_pos hfits]
      exact .inr (.inl ⟨n, rfl, by omega, rfl⟩)
    rw [if_neg hfits, hn.ndata]
    have hjoined : v1.Joined ls := ⟨hb.inner, hb.ndata, hb.nused, hb.labels, hb.offsets⟩
    by_cases hnil : n.labels = []
    · have hempty : n.ndata = [] := by
        unfold Name.ndata
        rw [hnil]
        rfl
      rw [hempty]
      refine .inl ⟨v1, o.absolute, rfl, ?_, by omega, ?_, ?_⟩
      · have hsame : withOrigin env ls (some n) = ls := by
          show ls ++ env.copied n.labels = ls
          rw [hnil]
          exact append_nil ls
        rw [hsame]
        exact hbetween
      · rw [hn.absolute]
        exact ⟨fun habs => ⟨n, rfl, habs⟩, fun ⟨n', hn', habs⟩ => by cases hn'; exact habs⟩
      · intro _ n' hn' _ l hl
        cases hn'
        rw [hnil] at hl
        cases hl
    obtain ⟨v', hcopy, hnamed, hlow⟩ | ⟨hcopy, hdown, hhigh⟩ := ftOrigin_cases hmax n.labels n.ndata.length ls v1
      hn.valid.label_le hn.valid.inner_ne hnil (le_refl _) hjoined (show _ + n.length ≤ _ by omega)
    · have hcopy : ftOrigin env n.ndata.length v1 n.ndata = .ok v' := hcopy
      rw [hcopy]
      refine .inl ⟨v', o.absolute, rfl, hnamed, ?_, ?_, ?_⟩
      · rw [hnamed.nused, Name.length_append, length_copied]
        show Name.length ⟨ls⟩ + n.length ≤ env.nmax
        omega
      · rw [hn.absolute]
        exact ⟨fun habs => ⟨n, rfl, habs⟩, fun ⟨n', hn', habs⟩ => by cases hn'; exact habs⟩
      · intro hdown n' hn' _
        cases hn'
        exact hlow hdown
    have hcopy : ftOrigin env n.ndata.length v1 n.ndata = .error .overrun := hcopy
    rw [hcopy]
    exact .inr (.inr ⟨rfl, hdown, n, rfl, by omega, hhigh⟩)

/-- The text is relative, with these labels. -/
theorem FtLocals.Inv.read {text : Bytes} (hinv : v.Inv env text 0) (hd : v.done = false)
    (hs : v.state = .ordinary ∨ v.state = .at) : ∃ ls, RelativeText text ls ∧ v.Read env (env.copied ls) := by
  unfold FtLocals.Inv at hinv
  simp only [hd, Bool.false_eq_true, if_false] at hinv
  obtain hs | hs := hs
  · simp only [hs] at hinv
    obtain ⟨h64, t, u, ls, l, rfl, ht, hu, hne, hw⟩ := hinv
    have hle := hw.label_le
    rw [length_map] at hle
    refine ⟨ls ++ [l], Or.inr ⟨h64 trivial, t, u, ls, l, rfl, ht, hu, hne, hle, rfl⟩, Or.inr ⟨hs, env.copied ls, l.map env.copy, ?_,
      fun h => hne (map_eq_nil_iff.1 h), hw⟩⟩
    exact copied_append env ls [l]
  · simp only [hs] at hinv
    exact ⟨[], Or.inl ⟨hinv.1, rfl⟩, Or.inl ⟨hs, rfl, hinv.2.2⟩⟩

end finish

/-! ### The whole function -/

section run

variable {env : FtEnv} {text : Bytes} {origin : Option DnsName} {name : Option Name}

theorem ftInitial_between (env : FtEnv) : (ftInitial env.nmax).Between env [] :=
  ⟨nofun, rfl, rfl, rfl, rfl, rfl, rfl⟩

theorem ftInitial_inv (env : FtEnv) (tlen : ℕ) : (ftInitial env.nmax).Inv env [] tlen := by
  unfold FtLocals.Inv
  simp only [ftInitial, Bool.false_eq_true, if_false]
  exact ⟨trivial, ftInitial_between env⟩

theorem HighAt.inText {read post : Bytes} (h : HighAt env read) : HighInText env.nmax (read ++ post) := by
  obtain ⟨-, t, u, p, ls, l, b, rfl, ht, hu, hlt, hp, hhigh, hfits⟩ := h
  exact ⟨t, u, p, post, ls, l, b, rfl, ht, hu, hlt, hp, hhigh, hfits⟩

/-- What `dns_name_fromtext` can do. -/
theorem ftRun_cases (hmax : env.nmax ≤ 255) (horigin : OriginIs origin name) (text : Bytes) :
    (∃ v absolute, ftRun env text origin = .ok (v, absolute, []) ∧ v.ndata.length = v.nused ∧ v.nused ≤ env.nmax) ∨
    (∃ r, ftRun env text origin = .error (.result r) ∧ r ≠ .success) ∨
    (ftRun env text origin = .error .overrun ∧ env.downcase = true ∧
      (HighInText env.nmax text ∨ HighInOrigin env.nmax text name)) := by
  unfold ftRun
  obtain ⟨v, read, rest, rfl, hloop, hinv, hend⟩ | ⟨r, hloop, hr⟩ | ⟨hloop, read, post, rfl, hhigh⟩ :=
    ftLoop_stepped hmax text [] (ftInitial env.nmax) (ftInitial_inv env text.length)
  · rw [hloop, ok_then]
    simp only
    rw [nil_append] at hinv
    cases hd : v.done with
    | true =>
      have hfinish : ftEnd env v rest origin = .ok (v, true) := by
        unfold ftEnd
        rw [if_pos hd]
      unfold FtLocals.Inv at hinv
      rw [hd, if_pos rfl] at hinv
      have hnil := length_eq_zero_iff.1 hinv.1
      have hended : v.ndata.length = v.nused ∧ v.nused ≤ env.nmax := by
        obtain ⟨-, hended⟩ | ⟨ls, -, -, hended⟩ := hinv.2
        · rw [hended.ndata]
          exact ⟨hended.nused.symm, hended.fits⟩
        · rw [hended.ndata]
          exact ⟨hended.nused.symm, hended.fits⟩
      rw [hfinish, hnil]
      exact .inl ⟨v, true, rfl, hended⟩
    | false =>
      by_cases hrem : v.nrem = 0
      · have hfinish : ftEnd env v rest origin = stop .nospace := by
          unfold ftEnd
          rw [if_neg (by simp [hd]), if_pos hrem]
        rw [hfinish]
        exact .inr (.inl ⟨.nospace, rfl, Result.noConfusion⟩)
      have hnil : rest = [] := by
        rw [hd] at hend
        exact (hend.resolve_left Bool.noConfusion).resolve_left hrem
      subst hnil
      by_cases hs : v.state = .ordinary ∨ v.state = .at
      · obtain ⟨ls, htext, hread⟩ := hinv.read hd hs
        rw [append_nil]
        obtain ⟨v', absolute, hfinish, hnamed, hfits, -⟩ | ⟨n, -, -, hfinish⟩ | ⟨hfinish, hdown, n, hn, hfits, hhigh⟩ :=
          hread.finish hd (Nat.pos_of_ne_zero hrem) hmax horigin
        · rw [hfinish]
          refine .inl ⟨v', absolute, rfl, ?_, hfits⟩
          rw [hnamed.ndata]
          exact hnamed.nused.symm
        · rw [hfinish]
          exact .inr (.inl ⟨.nospace, rfl, Result.noConfusion⟩)
        · rw [hfinish]
          have hlen := length_copied env ls
          have hused : Name.length ⟨ls⟩ < env.nmax := by
            obtain ⟨-, hempty, hb⟩ | ⟨-, ls', l, heq, -, hw⟩ := hread
            · have hleft := hb.nrem
              rw [hempty] at hlen
              have hzero : Name.length ⟨[]⟩ = 0 := rfl
              omega
            have hleft := hw.nrem
            have hnused := hw.nused
            rw [heq, Name.length_append, Name.length_cons] at hlen
            have hzero : Name.length ⟨[]⟩ = 0 := rfl
            omega
          exact .inr (.inr ⟨rfl, hdown, Or.inr ⟨n, ls, hn, htext, hused, by omega, hhigh⟩⟩)
      have hfinish : ftEnd env v [] origin = stop .unexpectedend := by
        unfold ftEnd
        rw [if_neg (by simp [hd]), if_neg hrem, require_true (beq_iff_eq.2 length_nil), ok_then,
          if_pos (not_or.1 hs)]
      rw [hfinish]
      exact .inr (.inl ⟨.unexpectedend, rfl, Result.noConfusion⟩)
  · rw [hloop]
    exact .inr (.inl ⟨r, rfl, hr⟩)
  · rw [hloop]
    exact .inr (.inr ⟨rfl, hhigh.1, Or.inl hhigh.inText⟩)

theorem ftLoop_relative {ls : List Label} (hmax : env.nmax ≤ 255) (ht : RelativeText text ls) (hfits : Name.length ⟨ls⟩ < env.nmax) :
    env.downcase = true ∧ ftLoop env (ftInitial env.nmax) text = .error .overrun ∨
    ∃ v, ftLoop env (ftInitial env.nmax) text = .ok (v, []) ∧ v.Read env (env.copied ls) ∧ v.done = false ∧ 0 < v.nrem := by
  obtain ⟨rfl, rfl⟩ | ⟨h64, t, u, ls', l, rfl, ht, hu, hne, hle, rfl⟩ := ht
  · have hb := ftInitial_between env
    have hpos : 0 < env.nmax := by omega
    have hloop : ftLoop env (ftInitial env.nmax) [64] = .ok ({ ftInitial env.nmax with state := .at }, []) := by
      rw [ftLoop_cons (show 0 < (ftInitial env.nmax).nrem from hpos) rfl]
      rfl
    refine .inr ⟨_, hloop, Or.inl ⟨rfl, rfl, ?_⟩, rfl, hpos⟩
    exact ⟨hb.inner, hb.ndata, hb.nused, hb.nrem, hb.labels, hb.offsets, rfl⟩
  have hlen : Name.length ⟨ls' ++ [l]⟩ = Name.length ⟨ls'⟩ + 1 + l.length := by
    rw [Name.length_append, Name.length_cons]
    have hnil : Name.length ⟨[]⟩ = 0 := rfl
    omega
  have hfeeds := feeds_relative hmax ht hu hne hle (by omega) (ftInitial_between env) rfl [] (by rw [append_nil]; exact h64)
  unfold Feeds at hfeeds
  rw [append_nil] at hfeeds
  refine hfeeds.imp id (fun hreach => ?_)
  obtain ⟨v, hloop, hs, hw⟩ := hreach
  have hused := hw.nused
  have hleft := hw.nrem
  rw [length_map, length_copied] at hused
  refine ⟨v, hloop, Or.inr ⟨hs, env.copied ls', l.map env.copy, copied_append env ls' [l],
    fun h => hne (map_eq_nil_iff.1 h), hw⟩, hw.done, by omega⟩

/-- A byte from 0x80 on that is downcased is out of range. -/
theorem ftRun_overrun (hmax : env.nmax ≤ 255) (horigin : OriginIs origin name) (hdown : env.downcase = true)
    (h : HighInText env.nmax text ∨ HighInOrigin env.nmax text name) : ftRun env text origin = .error .overrun := by
  unfold ftRun
  obtain h | ⟨n, ls, hn, ht, hlt, hfits, l, hl, b, hb, hhigh⟩ := h
  · rw [overrun_of_highInText hmax hdown (ftInitial_between env) rfl h]
    rfl
  obtain ⟨-, hloop⟩ | ⟨v, hloop, hread, hd, hrem⟩ := ftLoop_relative hmax ht hlt
  · rw [hloop]
    rfl
  rw [hloop, ok_then]
  simp only
  have hlen := length_copied env ls
  obtain ⟨v', absolute, -, -, -, -, hlow⟩ | ⟨n', hn', hspace, -⟩ | ⟨hfinish, -⟩ := hread.finish hd hrem hmax horigin
  · have hlow := hlow hdown n hn (by omega) l hl b hb
    omega
  · rw [hn] at hn'
    cases hn'
    omega
  · rw [hfinish]
    rfl

end run

/-- The call stays in its tables and its target and trips no assertion; a failure leaves the name empty and the buffers as they
were. -/
def Safe (current : ℕ) (target : Buffer) (table : Bool) (call : Exec NameResult) : Prop :=
  ∃ out, call = .ok out ∧ out.name.ndata.length ≤ min 255 target.available ∧
    (out.result ≠ .success → out.name = .empty table ∧ out.current = current ∧ out.target = target)

/-- `dns_name_fromtext` is safe exactly when it does not downcase a byte from 0x80 on: one of the text that it comes to read as
a byte of a label, or one of the origin that it puts behind a relative name. -/
theorem fromtext_safe_iff (source : Bytes) (current : ℕ) {origin : Option DnsName} {name : Option Name} (downcase : Bool)
    (target : Buffer) (table : Bool) (horigin : OriginIs origin name) :
    Safe current target table (dnsNameFromtext source current origin downcase target table) ↔
      ¬ (downcase = true ∧ (HighInText (min target.available 255) (source.drop current) ∨
        HighInOrigin (min target.available 255) (source.drop current) name)) := by
  have hmax : (⟨min target.available 255, downcase⟩ : FtEnv).nmax ≤ 255 := Nat.min_le_right _ _
  unfold dnsNameFromtext
  constructor
  · rintro ⟨out, hout, -⟩ ⟨hdown, hhigh⟩
    rw [ftRun_overrun hmax horigin hdown hhigh] at hout
    cases hout
  · intro hsafe
    obtain ⟨v, absolute, hrun, hlen, hfits⟩ | ⟨r, hrun, hr⟩ | ⟨hrun, hhigh⟩ :=
      ftRun_cases hmax horigin (source.drop current)
    · rw [hrun]
      refine ⟨_, rfl, ?_, fun hne => absurd rfl hne⟩
      have hfits : v.nused ≤ min target.available 255 := hfits
      rw [length_take]
      omega
    · rw [hrun]
      exact ⟨_, rfl, Nat.zero_le _, fun _ => ⟨rfl, rfl, rfl⟩⟩
    · exact absurd hhigh hsafe

/-- The text `a` with an origin, downcased. -/
theorem fromtext_safe_iff_origin : Safe 0 ⟨[], 255⟩ true (dnsNameFromtext [65] 0 (some ⟨[1, 66, 0], 2, true, none⟩) true ⟨[], 255⟩ true) := by
  have horigin : OriginIs (some ⟨[1, 66, 0], 2, true, none⟩) (some ⟨[[66], []]⟩) := ⟨by decide, rfl, rfl, rfl, nofun⟩
  rw [fromtext_safe_iff [65] 0 true ⟨[], 255⟩ true horigin]
  rintro ⟨-, hhigh | hhigh⟩
  · obtain ⟨t, u, p, post, ls, l, b, heq, -, -, -, hp, hb, -⟩ := hhigh
    have hmem : b ∈ List.drop 0 [(65 : UInt8)] := by
      rw [heq]
      obtain rfl | rfl := hp
      · simp
      · simp
    rw [mem_singleton.1 hmem] at hb
    exact absurd hb (by decide)
  · obtain ⟨o, ls, ho, -, -, -, l, hl, b, hb, hhigh⟩ := hhigh
    cases ho
    have hall : ∀ l ∈ [[66], ([] : Label)], ∀ b ∈ l, b.toNat < 128 := by simp
    exact absurd (hall l hl b hb) (by omega)

/-- The byte 0xff, downcased. -/
theorem fromtext_overrun : dnsNameFromtext [255] 0 none true ⟨[], 255⟩ false = .error .overrun ∧
    ¬ Safe 0 ⟨[], 255⟩ false (dnsNameFromtext [255] 0 none true ⟨[], 255⟩ false) := by
  have hover : dnsNameFromtext [255] 0 none true ⟨[], 255⟩ false = .error .overrun := by decide
  refine ⟨hover, ?_⟩
  rintro ⟨out, hout, -⟩
  rw [hover] at hout
  cases hout

end Bind9
