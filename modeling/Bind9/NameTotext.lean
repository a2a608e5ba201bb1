import Bind9.NameFromtext

/-! # Writing names as text

`dns_name_totext2` of `lib/dns/name.c`, with no filter installed, and the way back through `dns_name_fromtext`. -/

namespace Bind9

open List

/-- The local variables of `dns_name_totext2`; `ndata` are the bytes that are left of the name, and `text` those that have been
written. -/
structure TtLocals where
  ndata : Bytes
  trem : ℕ
  text : Bytes
deriving DecidableEq, Repr

/-- What is written for the byte `c` of a label. -/
def ttByte (masterfile : Bool) (c : UInt8) : Bytes :=
  if (c = 0x40 ∨ c = 0x24) ∧ masterfile = true ∨
      c = 0x22 ∨ c = 0x28 ∨ c = 0x29 ∨ c = 0x2E ∨ c = 0x3B ∨ c = 0x5C then [0x5C, c]
  else if 0x20 < c.toNat ∧ c.toNat < 0x7f then [c]
  else [0x5C, UInt8.ofNat (0x30 + c.toNat / 100 % 10), UInt8.ofNat (0x30 + c.toNat / 10 % 10), UInt8.ofNat (0x30 + c.toNat % 10)]

/-- Bytes are written if there is space for them. -/
def ttPut (v : TtLocals) (bs : Bytes) : Exec TtLocals :=
  if v.trem < bs.length then stop .nospace
  else .ok { v with trem := v.trem - bs.length, text := v.text ++ bs }

/-- The loop over the bytes of a label. -/
def ttLabel (masterfile : Bool) : ℕ → TtLocals → Exec TtLocals
  | 0, v => .ok v
  | count + 1, v =>
    match v.ndata with
    | [] => .error .overrun
    | c :: rest => do
      let v ← ttPut { v with ndata := rest } (ttByte masterfile c)
      ttLabel masterfile count v

/-- The loop over the labels, and whether it has seen the root. -/
def ttLoop (masterfile : Bool) : ℕ → TtLocals → Exec (TtLocals × Bool)
  | 0, v => .ok (v, false)
  | labels + 1, v =>
    match v.ndata with
    | [] => .ok (v, false)
    | count :: rest =>
      if v.trem = 0 then .ok (v, false)
      else if count = 0 then .ok ({ v with ndata := rest }, true)
      else if count.toNat < 64 then do
        require (count.toNat ≤ rest.length)
        let v ← ttLabel masterfile count.toNat { v with ndata := rest }
        let v ← ttPut v [46]
        ttLoop masterfile labels v
      else .error .assertion

/-- Behind the loop: the last dot is dropped if the name is not absolute, or if it is not wanted. -/
def ttEnd (omitFinalDot : Bool) (tlen : ℕ) (v : TtLocals) (sawRoot : Bool) : Exec Bytes :=
  if v.ndata.length ≠ 0 ∧ v.trem = 0 then stop .nospace
  else do
    let trem := if sawRoot = false ∨ omitFinalDot = true then v.trem + 1 else v.trem
    inRange (trem ≤ tlen)
    return v.text.take (tlen - trem)

/-- The text that `dns_name_totext2` puts into `tlen` bytes. -/
def ttRun (x : DnsName) (masterfile omitFinalDot : Bool) (tlen : ℕ) : Exec Bytes :=
  if x.labels = 0 ∧ x.ndata.length = 0 then do
    let v ← ttPut ⟨[], tlen, []⟩ [64]
    ttEnd false tlen v true
  else if x.ndata = [0] ∧ x.labels = 1 then do
    let v ← ttPut ⟨[], tlen, []⟩ [46]
    ttEnd false tlen v true
  else do
    let (v, sawRoot) ← ttLoop masterfile x.labels ⟨x.ndata, tlen, []⟩
    ttEnd omitFinalDot tlen v sawRoot

/-- `dns_name_totext2` with the options `DNS_NAME_MASTERFILE` and `DNS_NAME_OMITFINALDOT`. -/
def dnsNameTotext2 (x : DnsName) (masterfile omitFinalDot : Bool) (target : Buffer) : Exec (Buffer × Result) :=
  match ttRun x masterfile omitFinalDot target.available with
  | .error (.result r) => .ok (target, r)
  | .error e => .error e
  | .ok text => .ok (target.put text, .success)

def dnsNameTotext (x : DnsName) (omitFinalDot : Bool) (target : Buffer) : Exec (Buffer × Result) :=
  dnsNameTotext2 x true omitFinalDot target

def dnsRootname : DnsName := ⟨[0], 1, true, some [0]⟩

/-! ### The text of a name -/

def Label.text (l : Label) : Bytes := l.flatMap (ttByte true)

/-- The text of labels, with a dot behind each. -/
def Name.text (n : Name) : Bytes := n.labels.flatMap (fun l => l.text ++ [46])

theorem isDigit_ofNat {d : ℕ} (h : d ≤ 9) : isDigit (UInt8.ofNat (48 + d)) = true ∧ (UInt8.ofNat (48 + d)).toNat = 48 + d := by
  have hval : (UInt8.ofNat (48 + d)).toNat = 48 + d := by
    rw [UInt8.toNat_ofNat']
    exact Nat.mod_eq_of_lt (by omega)
  refine ⟨?_, hval⟩
  unfold isDigit
  rw [hval, Bool.and_eq_true, decide_eq_true_eq, decide_eq_true_eq]
  omega

theorem byteText_ttByte (c : UInt8) : ByteText (ttByte true c) c := by
  unfold ttByte
  split
  next hesc =>
    refine ByteText.escaped ?_
    obtain ⟨rfl | rfl, -⟩ | rfl | rfl | rfl | rfl | rfl | rfl := hesc <;> rfl
  next hesc =>
    split
    · refine ByteText.plain (fun h => hesc ?_) (fun h => hesc ?_)
      · simp [h]
      · simp [h]
    have hc := c.toNat_lt
    obtain ⟨h1, hv1⟩ := isDigit_ofNat (show c.toNat / 100 % 10 ≤ 9 by omega)
    obtain ⟨h2, hv2⟩ := isDigit_ofNat (show c.toNat / 10 % 10 ≤ 9 by omega)
    obtain ⟨h3, hv3⟩ := isDigit_ofNat (show c.toNat % 10 ≤ 9 by omega)
    have hvalue : decimalValue (UInt8.ofNat (48 + c.toNat / 100 % 10)) (UInt8.ofNat (48 + c.toNat / 10 % 10))
        (UInt8.ofNat (48 + c.toNat % 10)) = c.toNat := by
      unfold decimalValue
      rw [hv1, hv2, hv3]
      omega
    have hbyte := ByteText.decimal h1 h2 h3 (by omega)
    rw [hvalue, UInt8.ofNat_toNat] at hbyte
    exact hbyte

theorem ttByte_ne (c : UInt8) : ttByte true c ≠ [92, 91] ∧ (ttByte true c).head? ≠ some 64 := by
  unfold ttByte
  split
  next hesc =>
    constructor
    · rintro ⟨⟩
      simp at hesc
    · exact fun h => absurd (Option.some.inj h) (by decide)
  next hesc =>
    split
    · refine ⟨fun h => by simp at h, fun h => hesc ?_⟩
      have hc : c = 64 := Option.some.inj h
      simp [hc]
    · exact ⟨fun h => by simp at h, fun h => absurd (Option.some.inj h) (by decide)⟩

theorem labelText_text (l : Label) : LabelText l.text l := by
  induction l using reverseRecOn with
  | nil => exact .nil
  | append_singleton l b ih =>
    have htext : Label.text (l ++ [b]) = Label.text l ++ ttByte true b := by
      simp [Label.text]
    rw [htext]
    exact .snoc ih (byteText_ttByte b) (fun _ => (ttByte_ne b).1)

theorem text_append (xs ys : List Label) : Name.text ⟨xs ++ ys⟩ = Name.text ⟨xs⟩ ++ Name.text ⟨ys⟩ := flatMap_append

theorem text_singleton (l : Label) : Name.text ⟨[l]⟩ = l.text ++ [46] := by simp [Name.text]

theorem labelsText_text (ls : List Label) (h : Inner ls) : LabelsText (Name.text ⟨ls⟩) ls := by
  induction ls using reverseRecOn with
  | nil => exact .nil
  | append_singleton ls l ih =>
    have hl := h l (mem_append_right _ (mem_singleton_self l))
    rw [text_append, text_singleton, ← append_assoc]
    exact .snoc (ih (fun x hx => h x (mem_append_left _ hx))) (labelText_text l) hl.2 hl.1

theorem text_ne_at {ls : List Label} {l : Label} (h : Inner (ls ++ [l])) : Name.text ⟨ls⟩ ++ l.text ≠ [64] := by
  have hhead : ∀ {l : Label} (post : Bytes), l ≠ [] → (l.text ++ post).head? ≠ some 64 := by
    intro l post hne
    obtain ⟨c, rest, rfl⟩ := exists_cons_of_ne_nil hne
    have hbyte : ttByte true c ≠ [] := (byteText_ttByte c).ne_nil
    have htext : Label.text (c :: rest) ++ post = ttByte true c ++ (Label.text rest ++ post) := by
      simp [Label.text]
    rw [htext, head?_append_of_ne_nil _ hbyte]
    exact (ttByte_ne c).2
  intro heq
  have heq := congrArg head? heq
  cases ls with
  | nil =>
    have hempty : Name.text ⟨[]⟩ = [] := rfl
    rw [hempty, nil_append, ← append_nil l.text] at heq
    exact hhead [] (h l (by simp)).2 heq
  | cons l' ls =>
    have htext : Name.text ⟨l' :: ls⟩ ++ l.text = l'.text ++ ([46] ++ Name.text ⟨ls⟩ ++ l.text) := by
      simp [Name.text]
    rw [htext] at heq
    exact hhead _ (h l' (by simp)).2 heq

/-! ### What `dns_name_totext2` writes -/

theorem ttPut_eq {v : TtLocals} {bs : Bytes} (h : bs.length ≤ v.trem) :
    ttPut v bs = .ok { v with trem := v.trem - bs.length, text := v.text ++ bs } := if_neg (not_lt.2 h)

theorem ttLabel_eq (rest : Bytes) : ∀ (l : Label) (trem : ℕ) (text : Bytes), l.text.length ≤ trem →
    ttLabel true l.length ⟨l ++ rest, trem, text⟩ = .ok ⟨rest, trem - l.text.length, text ++ l.text⟩
  | [], trem, text, _ => by
    rw [show Label.text [] = [] from rfl, append_nil]
    rfl
  | c :: l, trem, text, h => by
    have htext : Label.text (c :: l) = ttByte true c ++ Label.text l := flatMap_cons
    rw [htext, List.length_append] at h ⊢
    have ih := ttLabel_eq rest l (trem - (ttByte true c).length) (text ++ ttByte true c) (by omega)
    have hput := ttPut_eq (v := ⟨l ++ rest, trem, text⟩) (show (ttByte true c).length ≤ trem by omega)
    show (ttPut ⟨l ++ rest, trem, text⟩ (ttByte true c) >>= fun v => ttLabel true l.length v) = _
    rw [hput, ok_then, ih, Nat.sub_sub, append_assoc]

theorem ttLoop_inner (rest : Bytes) (k : ℕ) : ∀ (ls : List Label) (trem : ℕ) (text : Bytes), Inner ls →
    (Name.text ⟨ls⟩).length ≤ trem → ttLoop true (ls.length + k) ⟨Name.ndata ⟨ls⟩ ++ rest, trem, text⟩ =
      ttLoop true k ⟨rest, trem - (Name.text ⟨ls⟩).length, text ++ Name.text ⟨ls⟩⟩
  | [], trem, text, _, _ => by
    rw [show Name.text ⟨[]⟩ = [] from rfl, append_nil, length_nil, Nat.zero_add]
    rfl
  | l :: ls, trem, text, hinner, h => by
    obtain ⟨hle, hne⟩ := hinner l mem_cons_self
    have htext : Name.text ⟨l :: ls⟩ = l.text ++ ([46] ++ Name.text ⟨ls⟩) := by simp [Name.text]
    rw [htext, List.length_append, List.length_append, length_singleton] at h ⊢
    have ih := ttLoop_inner rest k ls (trem - l.text.length - 1) (text ++ l.text ++ [46])
      (fun x hx => hinner x (mem_cons_of_mem _ hx)) (by omega)
    have hpos := length_pos_iff.2 hne
    have hcount := toNat_ofNat_length hle
    have hndata : Name.ndata ⟨l :: ls⟩ ++ rest = UInt8.ofNat l.length :: (l ++ (Name.ndata ⟨ls⟩ ++ rest)) := by
      rw [ndata_cons]
      simp
    have hzero : UInt8.ofNat l.length ≠ 0 := by
      intro hz
      rw [hz] at hcount
      exact absurd hcount (by show 0 ≠ _; omega)
    have hput : ttPut ⟨Name.ndata ⟨ls⟩ ++ rest, trem - l.text.length, text ++ l.text⟩ [46] = _ :=
      ttPut_eq (show 1 ≤ trem - l.text.length by omega)
    rw [List.length_cons, Nat.add_right_comm, hndata, ttLoop]
    simp only
    rw [if_neg (by omega), if_neg hzero, hcount, if_pos (by omega),
      require_true (decide_eq_true (by rw [List.length_append]; omega)), ok_then,
      ttLabel_eq _ l trem text (by omega), ok_then, hput, ok_then]
    simp only [length_singleton]
    rw [ih]
    simp [Nat.sub_sub, Nat.add_assoc]

/-- Behind the loop. -/
theorem ttEnd_eq {ls : List Label} (hne : ls ≠ []) (omitFinalDot root : Bool) {tlen : ℕ} (hroom : (Name.text ⟨ls⟩).length ≤ tlen) :
    ttEnd omitFinalDot tlen ⟨[], tlen - (Name.text ⟨ls⟩).length, Name.text ⟨ls⟩⟩ root =
      .ok (if root = false ∨ omitFinalDot = true then (Name.text ⟨ls⟩).dropLast else Name.text ⟨ls⟩) := by
  have hpos : 0 < (Name.text ⟨ls⟩).length := by
    obtain ⟨l, ls, rfl⟩ := exists_cons_of_ne_nil hne
    simp [Name.text]
  unfold ttEnd
  rw [if_neg (fun h => h.1 rfl)]
  simp only
  by_cases hdrop : root = false ∨ omitFinalDot = true
  · rw [if_pos hdrop, if_pos hdrop, inRange_true (decide_eq_true (by omega)), ok_then, dropLast_eq_take]
    congr 2
    omega
  rw [if_neg hdrop, if_neg hdrop, inRange_true (decide_eq_true (by omega)), ok_then]
  refine congrArg Except.ok (take_of_length_le ?_)
  omega

/-- The text that is added for labels that are not the root, with or without the last dot. -/
theorem ttRun_eq {x : DnsName} {n : Name} (hx : x.Is n) {ls : List Label} (hinner : Inner ls) (hne : ls ≠ []) (root : Bool)
    (hlabels : n.labels = ls ++ if root then [[]] else []) (omitFinalDot : Bool) {tlen : ℕ} (hroom : n.text.length ≤ tlen) :
    ttRun x true omitFinalDot tlen =
      .ok (if root = false ∨ omitFinalDot = true then (Name.text ⟨ls⟩).dropLast else Name.text ⟨ls⟩) := by
  obtain ⟨l, ls', hls⟩ := exists_cons_of_ne_nil hne
  have hcount : x.labels = ls.length + if root then 1 else 0 := by
    rw [hx.labels, Name.countlabels, hlabels, List.length_append]
    cases root <;> rfl
  have hn : n = ⟨ls ++ if root then [[]] else []⟩ := by
    rw [← hlabels]
  have hndata : x.ndata = Name.ndata ⟨ls⟩ ++ if root then [0] else [] := by
    rw [hx.ndata, hn, Name.ndata_append]
    cases root <;> rfl
  have hroom : (Name.text ⟨ls⟩).length + (if root then 1 else 0) ≤ tlen := by
    rw [hn, text_append, List.length_append] at hroom
    cases root <;> exact hroom
  have hlen : 2 ≤ x.ndata.length := by
    have hl := (hinner l (by rw [hls]; exact mem_cons_self)).2
    have hpos := length_pos_iff.2 hl
    rw [hndata, hls, ndata_cons]
    simp
    omega
  unfold ttRun
  rw [if_neg (by omega), if_neg (fun h => by rw [h.1] at hlen; simp at hlen), hcount, hndata,
    ttLoop_inner _ _ ls tlen [] hinner (Nat.le_of_add_right_le hroom), nil_append]
  cases root with
  | false => exact ttEnd_eq hne omitFinalDot false hroom
  | true =>
    have hloop : ttLoop true 1 ⟨[0], tlen - (Name.text ⟨ls⟩).length, Name.text ⟨ls⟩⟩ =
        .ok (⟨[], tlen - (Name.text ⟨ls⟩).length, Name.text ⟨ls⟩⟩, true) := by
      rw [if_pos rfl] at hroom
      rw [ttLoop]
      simp only
      rw [if_neg (by omega), if_pos trivial]
    simp only [if_true]
    rw [hloop, ok_then]
    exact ttEnd_eq hne omitFinalDot true (Nat.le_of_add_right_le hroom)

/-! ### There and back -/

/-- `dns_name_fromtext` reads the name `n` from all of the text. -/
def ReadsBack (source : Bytes) (current : ℕ) (origin : Option DnsName) (space : Buffer) (table : Bool) (n : Name) : Prop :=
  ∃ y, dnsNameFromtext source current origin false space table = .ok ⟨y, source.length, space.put n.ndata, .success⟩ ∧
    y.Is n ∧ (y.offsets.isSome = table)

section back

variable {env : FtEnv} {ls : List Label} {l : Label}

theorem copied_eq (hdown : env.downcase = false) (ls : List Label) : env.copied ls = ls := by
  have hcopy : ∀ l : Label, l.map env.copy = l := by
    intro l
    refine (map_congr_left fun b _ => ?_).trans (map_id l)
    unfold FtEnv.copy
    rw [hdown]
    rfl
  exact (map_congr_left fun l _ => hcopy l).trans (map_id ls)

/-- Text with a dot at its end. -/
theorem ftRun_absolute (hmax : env.nmax ≤ 255) (hdown : env.downcase = false) (hinner : Inner ls) (hne : ls ≠ [])
    (hfits : Name.length ⟨ls ++ [[]]⟩ ≤ env.nmax) (origin : Option DnsName) :
    ∃ v, ftRun env (Name.text ⟨ls⟩) origin = .ok (v, true, []) ∧ v.Named (ls ++ [[]]) ∧ v.nused ≤ env.nmax := by
  obtain hnil | ⟨ls', l, rfl⟩ := eq_nil_or_concat' ls
  · exact absurd hnil hne
  obtain ⟨hle, hl⟩ := hinner l (mem_append_right _ (mem_singleton_self l))
  have hinner' : Inner ls' := fun x hx => hinner x (mem_append_left _ hx)
  have hlen : Name.length ⟨ls' ++ [l] ++ [[]]⟩ = Name.length ⟨ls'⟩ + l.length + 2 := by
    rw [Name.length_append, Name.length_append, Name.length_cons]
    have hnil : Name.length ⟨[]⟩ = 0 := rfl
    have hroot : Name.length ⟨[[]]⟩ = 1 := rfl
    omega
  have htext : Name.text ⟨ls' ++ [l]⟩ = Name.text ⟨ls'⟩ ++ l.text ++ [46] := by
    rw [text_append, text_singleton, append_assoc]
  have hdot : Name.text ⟨ls'⟩ ++ l.text ++ [46] ≠ [64] := by
    intro heq
    have hlast := congrArg getLast? heq
    rw [getLast?_append] at hlast
    exact absurd (Option.some.inj hlast) (by decide)
  obtain ⟨hdown', -⟩ | ⟨v, hloop, hs, hw⟩ := feeds_relative hmax (labelsText_text ls' hinner') (labelText_text l) hl hle (by omega)
    (ftInitial_between env) rfl [46] hdot
  · rw [hdown] at hdown'
    cases hdown'
  have hlast : env.copied ls' ++ [l.map env.copy] = ls' ++ [l] := by
    have happend : env.copied ls' ++ [l.map env.copy] = env.copied (ls' ++ [l]) := (copied_append env ls' [l]).symm
    rw [happend, copied_eq hdown]
  have hused := hw.nused
  have hleft := hw.nrem
  rw [length_map, length_copied] at hused
  obtain ⟨v', hstep, hdone, hended⟩ := hw.dot (fun h => hl (map_eq_nil_iff.1 h)) (by omega) hmax 0
  rw [hlast] at hended
  have hturn : ftStep env v 46 ([] : Bytes).length = .ok v' := by
    unfold ftStep
    rw [hs]
    exact hstep
  refine ⟨v', ?_, ⟨hended.ndata, hended.nused, ?_, ?_⟩, hended.fits⟩
  · unfold ftRun
    rw [htext, hloop, ftLoop_cons (by omega) hw.done, hturn, ok_then, ftLoop, ok_then]
    simp only [ftEnd]
    rw [if_pos hdone]
    rfl
  · rw [hended.labels]
    simp
  · rw [hended.offsets]

theorem ftRun_root (hpos : 0 < env.nmax) (origin : Option DnsName) :
    ∃ v, ftRun env [46] origin = .ok (v, true, []) ∧ v.Named [[]] := by
  obtain ⟨v, hroot, hended, hdone⟩ := (ftInitial_between env).root (show 0 < (ftInitial env.nmax).nrem from hpos)
  have hturn : ftStep env (ftInitial env.nmax) 46 ([] : Bytes).length = .ok v := hroot
  refine ⟨v, ?_, hended.ndata, hended.nused, hended.labels, ?_⟩
  · unfold ftRun
    rw [ftLoop_cons (show 0 < (ftInitial env.nmax).nrem from hpos) rfl, hturn, ok_then, ftLoop, ok_then]
    simp only [ftEnd]
    rw [if_pos hdone]
    rfl
  · rw [hended.offsets]
    exact prefix_refl _

/-- Text without a dot at its end. -/
theorem ftRun_relative (hmax : env.nmax ≤ 255) (hdown : env.downcase = false) (hinner : Inner ls) (hne : ls ≠ [])
    (hfits : Name.length ⟨ls⟩ < env.nmax) {origin : Option DnsName} {name : Option Name} (horigin : OriginIs origin name)
    (hspace : ∀ n, name = some n → Name.length ⟨ls⟩ + n.length ≤ env.nmax) :
    ∃ v absolute, ftRun env (Name.text ⟨ls⟩).dropLast origin = .ok (v, absolute, []) ∧ v.Named (withOrigin env ls name) ∧
      v.nused ≤ env.nmax ∧ (absolute = true ↔ ∃ n, name = some n ∧ n.isabsolute = true) := by
  obtain hnil | ⟨ls', l, rfl⟩ := eq_nil_or_concat' ls
  · exact absurd hnil hne
  obtain ⟨hle, hl⟩ := hinner l (mem_append_right _ (mem_singleton_self l))
  have hinner' : Inner ls' := fun x hx => hinner x (mem_append_left _ hx)
  have htext : (Name.text ⟨ls' ++ [l]⟩).dropLast = Name.text ⟨ls'⟩ ++ l.text := by
    rw [text_append, text_singleton, ← append_assoc, dropLast_concat]
  have hrelative : RelativeText (Name.text ⟨ls'⟩ ++ l.text) (ls' ++ [l]) :=
    Or.inr ⟨text_ne_at hinner, _, _, ls', l, rfl, labelsText_text ls' hinner', labelText_text l, hl, hle, rfl⟩
  rw [htext]
  unfold ftRun
  obtain ⟨hdown', -⟩ | ⟨v, hloop, hread, hd, hrem⟩ := ftLoop_relative hmax hrelative hfits
  · rw [hdown] at hdown'
    cases hdown'
  rw [copied_eq hdown] at hread
  rw [hloop, ok_then]
  simp only
  obtain ⟨v', absolute, hfinish, hnamed, hused, habsolute, -⟩ | ⟨n, hn, hnospace, -⟩ | ⟨-, hdown', -⟩ :=
    hread.finish hd hrem hmax horigin
  · rw [hfinish]
    exact ⟨v', absolute, rfl, hnamed, hused, habsolute⟩
  · exact absurd (hspace n hn) (not_le.2 hnospace)
  · rw [hdown] at hdown'
    cases hdown'

theorem readsBack_of_run {source : Bytes} {current : ℕ} {origin : Option DnsName} {space : Buffer} {n : Name} {v : FtLocals}
    (hcurrent : current ≤ source.length) (hvalid : n.Valid) (hnamed : v.Named n.labels)
    (hrun : ftRun ⟨min space.available 255, false⟩ (source.drop current) origin = .ok (v, n.isabsolute, [])) (table : Bool) :
    ReadsBack source current origin space table n := by
  have hndata : v.ndata.take v.nused = n.ndata := by
    rw [hnamed.ndata, hnamed.nused]
    exact take_length
  refine ⟨⟨n.ndata, v.labels, n.isabsolute, if table then some v.offsets else none⟩, ?_, ⟨hvalid, rfl, hnamed.labels, rfl, ?_⟩, ?_⟩
  · unfold dnsNameFromtext
    rw [hrun]
    simp only [hndata, length_drop, length_nil, Nat.sub_zero]
    rw [Nat.add_sub_cancel' hcurrent]
  · intro offsets htable
    cases table with
    | false => cases htable
    | true =>
      cases htable
      exact hnamed.offsets
  · cases table <;> rfl

theorem Name.Valid.split {n : Name} (h : n.Valid) (hne : n.labels ≠ []) :
    (n.isabsolute = false ∧ Inner n.labels) ∨ n.isabsolute = true ∧ ∃ ls, Inner ls ∧ n = ⟨ls ++ [[]]⟩ := by
  obtain ⟨labels⟩ := n
  obtain hnil | ⟨ls, l, rfl⟩ := eq_nil_or_concat' labels
  · exact absurd hnil hne
  have hinner : Inner ls := by
    intro x hx
    refine ⟨h.label_le x (mem_append_left _ hx), h.inner_ne x ?_⟩
    rw [dropLast_concat]
    exact hx
  have hlast : (ls ++ [l]).getLast? = some l := getLast?_concat
  unfold Name.isabsolute
  rw [hlast]
  by_cases hl : l = []
  · subst hl
    exact .inr ⟨rfl, ls, hinner, rfl⟩
  · refine .inl ⟨beq_eq_false_iff_ne.2 (fun heq => hl (Option.some.inj heq)), ?_⟩
    exact hinner.snoc (h.label_le l (mem_append_right _ (mem_singleton_self l))) hl

end back

section roundtrip

variable {x : DnsName} {n : Name} {ls : List Label} {target space : Buffer}

theorem dnsNameTotext_eq {omitFinalDot : Bool} {text : Bytes} (h : ttRun x true omitFinalDot target.available = .ok text) :
    dnsNameTotext x omitFinalDot target = .ok (target.put text, .success) := by
  unfold dnsNameTotext dnsNameTotext2
  rw [h]

theorem put_drop (target : Buffer) (text : Bytes) : List.drop target.used (target.put text).data = text := drop_left

theorem used_le_put (target : Buffer) (text : Bytes) : target.used ≤ (target.put text).data.length := by
  show target.data.length ≤ (target.data ++ text).length
  rw [List.length_append]
  omega

theorem totext_root (hx : x.Is ⟨[[]]⟩) (hroom : 1 ≤ target.available) (hspace : 1 ≤ space.available) (omitFinalDot table : Bool)
    (origin : Option DnsName) : dnsNameTotext x omitFinalDot target = .ok (target.put [46], .success) ∧
      ReadsBack (target.put [46]).data target.used origin space table ⟨[[]]⟩ := by
  have hndata : x.ndata = [0] := hx.ndata
  have hlabels : x.labels = 1 := hx.labels
  have hput : ttPut ⟨[], target.available, []⟩ [46] = .ok ⟨[], target.available - 1, [46]⟩ := ttPut_eq hroom
  constructor
  · refine dnsNameTotext_eq ?_
    unfold ttRun
    rw [if_neg (by omega), if_pos ⟨hndata, hlabels⟩, hput, ok_then]
    unfold ttEnd
    rw [if_neg (fun h => h.1 rfl)]
    simp only [Bool.true_eq_false, Bool.false_eq_true, or_self, if_false]
    rw [inRange_true (decide_eq_true (by omega)), ok_then]
    refine congrArg Except.ok (take_of_length_le ?_)
    rw [length_singleton]
    omega
  · obtain ⟨v, hrun, hnamed⟩ := ftRun_root (show 0 < (⟨min space.available 255, false⟩ : FtEnv).nmax by show 0 < min _ _; omega) origin
    refine readsBack_of_run (used_le_put _ _) hx.valid hnamed ?_ table
    rw [put_drop]
    exact hrun

theorem totext_relative (hx : x.Is n) (hinner : Inner ls) (hne : ls ≠ []) (root omitFinalDot : Bool)
    (hlabels : n.labels = ls ++ if root then [[]] else []) (hdrop : root = false ∨ omitFinalDot = true)
    (hroom : n.text.length ≤ target.available) (hfits : Name.length ⟨ls⟩ + 1 ≤ min space.available 255) (table : Bool)
    {origin : Option DnsName} {name : Option Name} (horigin : OriginIs origin name)
    (hname : name = if root then some ⟨[[]]⟩ else none) :
    ∃ text, dnsNameTotext x omitFinalDot target = .ok (target.put text, .success) ∧
      ReadsBack (target.put text).data target.used origin space table n := by
  have hmax : (⟨min space.available 255, false⟩ : FtEnv).nmax ≤ 255 := Nat.min_le_right _ _
  have hrun := ttRun_eq hx hinner hne root hlabels omitFinalDot hroom
  rw [if_pos hdrop] at hrun
  refine ⟨_, dnsNameTotext_eq hrun, ?_⟩
  have hspace : ∀ o, name = some o → Name.length ⟨ls⟩ + o.length ≤ min space.available 255 := by
    intro o ho
    cases root with
    | false =>
      rw [hname] at ho
      cases ho
    | true =>
      rw [hname] at ho
      cases ho
      exact hfits
  obtain ⟨v, absolute, hback, hnamed, -, habsolute⟩ := ftRun_relative hmax rfl hinner hne hfits horigin hspace
  have hn : withOrigin ⟨min space.available 255, false⟩ ls name = n.labels := by
    rw [hlabels, hname]
    cases root with
    | false => exact (append_nil ls).symm
    | true => rfl
  have habs : absolute = n.isabsolute := by
    rw [Bool.eq_iff_iff, habsolute]
    unfold Name.isabsolute
    rw [hname, hlabels]
    cases root with
    | false =>
      rw [if_neg Bool.false_ne_true, if_neg Bool.false_ne_true, append_nil, beq_iff_eq]
      refine ⟨?_, fun hlast => ?_⟩
      · rintro ⟨_, hnone, _⟩
        cases hnone
      · exact absurd rfl (hinner [] (mem_of_getLast? hlast)).2
    | true =>
      rw [if_pos rfl, if_pos rfl, getLast?_concat]
      exact ⟨fun _ => rfl, fun _ => ⟨_, rfl, rfl⟩⟩
  rw [hn] at hnamed
  refine readsBack_of_run (used_le_put _ _) hx.valid hnamed ?_ table
  rw [put_drop, hback, habs]

theorem totext_absolute (hx : x.Is ⟨ls ++ [[]]⟩) (hinner : Inner ls) (hne : ls ≠ [])
    (hroom : (Name.text ⟨ls ++ [[]]⟩).length ≤ target.available) (hfits : Name.length ⟨ls ++ [[]]⟩ ≤ space.available) (table : Bool) :
    ∃ text, dnsNameTotext x false target = .ok (target.put text, .success) ∧
      ∀ origin, ReadsBack (target.put text).data target.used origin space table ⟨ls ++ [[]]⟩ := by
  have hmax : (⟨min space.available 255, false⟩ : FtEnv).nmax ≤ 255 := Nat.min_le_right _ _
  have hrun := ttRun_eq hx hinner hne true rfl false hroom
  rw [if_neg (by simp)] at hrun
  refine ⟨_, dnsNameTotext_eq hrun, fun origin => ?_⟩
  obtain ⟨v, hback, hnamed, -⟩ := ftRun_absolute hmax rfl hinner hne (Nat.le_min.2 ⟨hfits, hx.valid.length_le⟩) origin
  have habs : Name.isabsolute ⟨ls ++ [[]]⟩ = true := by
    unfold Name.isabsolute
    rw [getLast?_concat]
    rfl
  refine readsBack_of_run (used_le_put _ _) hx.valid hnamed ?_ table
  rw [put_drop, hback, habs]

end roundtrip

/-- The text that `dns_name_totext` writes for a name reads back as that name. -/
theorem totext_fromtext {x : DnsName} {n : Name} (hx : x.Is n) (hpos : 0 < n.length) (hlength : n.isabsolute = false → n.length ≤ 254)
    (target : Buffer) (hroom : n.text.length ≤ target.available) (space : Buffer)
    (hspace : n.length + (if n.isabsolute then 0 else 1) ≤ space.available) (table : Bool) :
    (∃ text, dnsNameTotext x false target = .ok (target.put text, .success) ∧
      ∀ origin, (n.isabsolute = false → origin = none) → ReadsBack (target.put text).data target.used origin space table n) ∧
    (n.isabsolute = true → ∃ text, dnsNameTotext x true target = .ok (target.put text, .success) ∧
      ReadsBack (target.put text).data target.used (some dnsRootname) space table n) := by
  have hfits := hx.valid.length_le
  have hne : n.labels ≠ [] := by
    intro hnil
    unfold Name.length Name.ndata at hpos
    rw [hnil] at hpos
    cases hpos
  obtain ⟨hrelative, hinner⟩ | ⟨habsolute, ls, hinner, rfl⟩ := hx.valid.split hne
  · rw [hrelative, if_neg Bool.false_ne_true] at hspace
    have hlength := hlength hrelative
    obtain ⟨text, htext, hback⟩ := totext_relative hx hinner hne false false (append_nil _).symm
      (Or.inl rfl) hroom (Nat.le_min.2 ⟨hspace, Nat.succ_le_succ hlength⟩) table (show OriginIs none none from trivial) rfl
    refine ⟨⟨text, htext, fun origin hnone => ?_⟩, fun habsolute => ?_⟩
    · rw [hnone hrelative]
      exact hback
    · rw [hrelative] at habsolute
      cases habsolute
  rw [habsolute, if_pos rfl] at hspace
  have hroot : dnsRootname.Is ⟨[[]]⟩ := ⟨by decide, rfl, rfl, rfl, by rintro table ⟨⟩; exact prefix_refl _⟩
  by_cases hnil : ls = []
  · subst hnil
    have hroot := fun omitFinalDot origin => totext_root hx hroom hspace omitFinalDot table origin
    exact ⟨⟨[46], (hroot false none).1, fun origin _ => (hroot false origin).2⟩, fun _ => ⟨[46], hroot true (some dnsRootname)⟩⟩
  have hlen : Name.length ⟨ls ++ [[]]⟩ = Name.length ⟨ls⟩ + 1 := Name.length_append ls [[]]
  obtain ⟨text, htext, hback⟩ := totext_absolute hx hinner hnil hroom hspace table
  refine ⟨⟨text, htext, fun origin _ => hback origin⟩, fun _ => ?_⟩
  exact totext_relative hx hinner hnil true true rfl (Or.inr rfl) hroom
    (Nat.le_min.2 ⟨hlen ▸ hspace, hlen ▸ hfits⟩) table (show OriginIs (some dnsRootname) (some ⟨[[]]⟩) from hroot) rfl

/-- A name with a dot, an at sign and the byte 0xff in its labels. -/
theorem totext_fromtext_escapes :
    (∃ text, dnsNameTotext ⟨[1, 46, 2, 64, 255, 0], 3, true, none⟩ false ⟨[], 255⟩ = .ok (Buffer.put ⟨[], 255⟩ text, .success) ∧
      ∀ origin, (Name.isabsolute ⟨[[46], [64, 255], []]⟩ = false → origin = none) →
        ReadsBack (Buffer.put ⟨[], 255⟩ text).data 0 origin ⟨[], 255⟩ true ⟨[[46], [64, 255], []]⟩) ∧
    (Name.isabsolute ⟨[[46], [64, 255], []]⟩ = true →
      ∃ text, dnsNameTotext ⟨[1, 46, 2, 64, 255, 0], 3, true, none⟩ true ⟨[], 255⟩ = .ok (Buffer.put ⟨[], 255⟩ text, .success) ∧
        ReadsBack (Buffer.put ⟨[], 255⟩ text).data 0 (some dnsRootname) ⟨[], 255⟩ true ⟨[[46], [64, 255], []]⟩) := by
  have hx : DnsName.Is ⟨[1, 46, 2, 64, 255, 0], 3, true, none⟩ ⟨[[46], [64, 255], []]⟩ := ⟨by decide, rfl, rfl, rfl, nofun⟩
  exact totext_fromtext hx (by decide) (by decide) ⟨[], 255⟩ (by decide) ⟨[], 255⟩ (by decide) true

end Bind9
