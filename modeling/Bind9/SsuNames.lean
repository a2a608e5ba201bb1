import Bind9.RpzName
import Bind9.Ssu

/-! # The names of client addresses

`reverse_from_address`, `stf_from_address` and `dns_byaddr_createptrname2` write an address as text and read it as a name.
`reverseName_names` and `stfName_names` say that the names are those of the rules, `names_right_iff` for which clients they
are right. -/

namespace Bind9.Ssu

open List hiding Vector

open Radix (NetAddr)

/-! ### Texts -/

/-- The fields of a format, with a dot behind each. -/
def dotted (base : ℕ) (fields : List ℕ) : Bytes := fields.flatMap (fun f => digits base f ++ [46])

/-- `IN-ADDR.ARPA.` and `IP6.ARPA.` -/
def inAddrText : Bytes := [73, 78, 45, 65, 68, 68, 82, 46, 65, 82, 80, 65, 46]

def ip6Text : Bytes := [73, 80, 54, 46, 65, 82, 80, 65, 46]

/-- `ntohl(s_addr)`. -/
def hostLong (bytes : Vector (BitVec 8) 4) : ℕ := bytes.toList.foldl (fun l b => l * 256 + b.toNat) 0

def reverseText : NetAddr → Bytes
  | .inet bytes =>
    let l := hostLong bytes
    dotted 10 [l % 256, l / 2 ^ 8 % 256, l / 2 ^ 16 % 256, l / 2 ^ 24 % 256] ++ inAddrText
  | .inet6 ap => dotted 16 (ap.toList.reverse.flatMap nibbles) ++ ip6Text

def stfText : NetAddr → Bytes
  | .inet bytes =>
    let l := hostLong bytes
    -- no dot behind the last field
    dotted 16 [l % 16, l / 2 ^ 4 % 16, l / 2 ^ 8 % 16, l / 2 ^ 12 % 16, l / 2 ^ 16 % 16, l / 2 ^ 20 % 16, l / 2 ^ 24 % 16] ++
      digits 16 (l / 2 ^ 28 % 16) ++ dotted 10 [2, 0, 0, 2] ++ ip6Text
  | .inet6 ap => dotted 16 ((ap.toList.take 6).reverse.flatMap nibbles) ++ ip6Text

/-- `dns_name_fromtext` into a `dns_fixedname_t`, relative to the root. -/
def fixedFromtext (text : Bytes) : Exec NameResult :=
  dnsNameFromtext text 0 (some dnsRootname) false ⟨[], 255⟩ true

/-- `isc_string_printf` into a buffer and `dns_name_fromtext`, each with its `RUNTIME_CHECK`. -/
def checkedName (size : ℕ) (text : Bytes) : Exec NameResult := do
  require (decide (text.length < size))
  let r ← fixedFromtext text
  require (decide (r.result = .success))
  return r

/-- `reverse_from_address`, with the size of its buffer. -/
def reverseName (addr : NetAddr) : Exec NameResult := checkedName (16 * 4 + 10) (reverseText addr)

/-- `stf_from_address`, with the size of its buffer. -/
def stfName (addr : NetAddr) : Exec NameResult := checkedName 34 (stfText addr)

/-- `hex_digits` of `lib/dns/byaddr.c`. -/
def hexDigits : Bytes := [48, 49, 50, 51, 52, 53, 54, 55, 56, 57, 97, 98, 99, 100, 101, 102]

/-- `dns_byaddr_createptrname2`; `textname` has 128 bytes. -/
def createptrname2 (addr : NetAddr) (ipv6int : Bool) : Exec NameResult :=
  match addr with
  | .inet bytes =>
    fixedFromtext ((dotted 10 (bytes.toList.reverse.map BitVec.toNat) ++ inAddrText.map maptolower).take 127)
  | .inet6 bytes =>
    let text := bytes.toList.reverse.flatMap (fun b =>
      [hexDigits.getD (b.toNat % 16) 0, 46, hexDigits.getD (b.toNat / 16) 0, 46]) ++
        if ipv6int then [105, 112, 54, 46, 105, 110, 116, 46] else ip6Text.map maptolower
    if text.length < 128 then fixedFromtext text else .error .overrun

/-! ### Reading them -/

def Names (call : Exec NameResult) (n : Name) : Prop := ∃ r, call = .ok r ∧ r.result = .success ∧ r.name.Is n

theorem Names.unique {call : Exec NameResult} {n m : Name} (hn : Names call n) (hm : Names call m) : n = m := by
  obtain ⟨r, hr, -, hn⟩ := hn
  obtain ⟨r', hr', -, hm⟩ := hm
  cases hr.symm.trans hr'
  exact congrArg Name.mk (Name.ndata_inj hn.valid.label_le hm.valid.label_le (hn.ndata.symm.trans hm.ndata))

/-- Labels whose text is themselves. -/
structure Plain (ls : List Label) : Prop where
  inner : Inner ls
  text : ∀ l ∈ ls, l.text = l

theorem Plain.append {xs ys : List Label} (hx : Plain xs) (hy : Plain ys) : Plain (xs ++ ys) :=
  ⟨fun l hl => (mem_append.1 hl).elim (hx.inner l) (hy.inner l),
    fun l hl => (mem_append.1 hl).elim (hx.text l) (hy.text l)⟩

theorem Plain.text_eq {ls : List Label} (h : Plain ls) : Name.text ⟨ls⟩ = ls.flatMap (fun l => l ++ [46]) :=
  flatMap_congr (fun l hl => by rw [h.text l hl])

theorem length_flatMap_dot (ls : List Label) : (ls.flatMap (fun l => l ++ [46])).length = Name.length ⟨ls⟩ := by
  induction ls with
  | nil => rfl
  | cons l ls ih =>
    rw [flatMap_cons, length_append, ih, Name.length_cons, length_append]
    rfl

theorem Plain.names {ls : List Label} (h : Plain ls) (hne : ls ≠ []) (hfits : Name.length ⟨ls⟩ ≤ 254) :
    Names (fixedFromtext (ls.flatMap (fun l => l ++ [46]))) ⟨ls ++ [[]]⟩ := by
  have hlen : Name.length ⟨ls ++ [[]]⟩ ≤ 255 := by
    rw [Name.length_append]
    exact Nat.succ_le_succ hfits
  have habs : Name.isabsolute ⟨ls ++ [[]]⟩ = true := by simp [Name.isabsolute]
  obtain ⟨v, hrun, hnamed, -⟩ := @ftRun_absolute ⟨255, false⟩ ls (le_refl 255) rfl h.inner hne hlen (some dnsRootname)
  have hvalid : Name.Valid ⟨ls ++ [[]]⟩ := by
    refine ⟨fun l hl => ?_, fun l hl => ?_, hlen⟩
    · obtain hl | hl := mem_append.1 hl
      · exact (h.inner l hl).1
      · simp_all
    · rw [dropLast_concat] at hl
      exact (h.inner l hl).2
  rw [h.text_eq, ← habs] at hrun
  obtain ⟨y, hy, his, -⟩ := @readsBack_of_run (ls.flatMap (fun l => l ++ [46])) 0 (some dnsRootname) ⟨[], 255⟩ _ v (Nat.zero_le _) hvalid
    hnamed hrun true
  exact ⟨_, hy, rfl, his⟩

theorem Names.checked {text : Bytes} {n : Name} {size : ℕ} (h : Names (fixedFromtext text) n) (hlen : text.length < size) :
    Names (checkedName size text) n := by
  obtain ⟨r, hr, hres, his⟩ := h
  refine ⟨r, ?_, hres, his⟩
  rw [checkedName, require_true (decide_eq_true hlen), ok_then, hr, ok_then, require_true (decide_eq_true hres)]
  rfl

/-! ### Fields -/

variable {fields : List ℕ}

theorem plain_digits {base : ℕ} (hbase : 1 < base ∧ base ≤ 16) (h : ∀ f ∈ fields, (digits base f).length ≤ 63) :
    Plain (fields.map (digits base)) := by
  have hplain : ∀ c, Rpz.isDigit 16 c = true → ttByte true c = [c] := by
    have hall : ∀ n : Fin 256, Rpz.isDigit 16 (UInt8.ofNat n.val) = true → ttByte true (UInt8.ofNat n.val) = [UInt8.ofNat n.val] := by
      decide +kernel
    intro c hc
    have h := hall ⟨c.toNat, c.toNat_lt⟩
    simp only [UInt8.ofNat_toNat] at h
    exact h hc
  refine ⟨fun l hl => ?_, fun l hl => ?_⟩
  · obtain ⟨f, hf, rfl⟩ := mem_map.1 hl
    exact ⟨h f hf, (Rpz.numText_digits hbase.1 hbase.2 f).ne⟩
  · obtain ⟨f, hf, rfl⟩ := mem_map.1 hl
    refine (flatMap_congr (fun c hc => hplain c ?_)).trans (flatMap_singleton' _)
    exact Rpz.isDigit_mono hbase.2 ((Rpz.numText_digits hbase.1 hbase.2 f).digits c hc)

theorem length_digits : (∀ f < 256, (digits 10 f).length ≤ 3) ∧ ∀ f < 16, (digits 16 f).length ≤ 1 := by decide +kernel

theorem length_fields {base k : ℕ} (h : ∀ f ∈ fields, (digits base f).length ≤ k) :
    Name.length ⟨fields.map (digits base)⟩ ≤ (k + 1) * fields.length := by
  induction fields with
  | nil => exact Nat.le_refl _
  | cons f fields ih =>
    have hf := h f mem_cons_self
    have hrest := ih (fun g hg => h g (mem_cons_of_mem _ hg))
    rw [map_cons, Name.length_cons, length_cons, Nat.mul_succ]
    omega

theorem dotted_eq (base : ℕ) (fields : List ℕ) : dotted base fields = (fields.map (digits base)).flatMap (fun l => l ++ [46]) :=
  (flatMap_map (digits base) (fun l => l ++ [46]) fields).symm

theorem fields_names {base k size : ℕ} {tail : List Label} (hbase : 1 < base ∧ base ≤ 16)
    (h : ∀ f ∈ fields, (digits base f).length ≤ k) (htail : Plain tail) (hne : tail ≠ [])
    (hfits : (k + 1) * fields.length + Name.length ⟨tail⟩ ≤ size) (hsize : k ≤ 63 ∧ size ≤ 254) :
    (dotted base fields ++ tail.flatMap (fun l => l ++ [46])).length ≤ size ∧
    Names (fixedFromtext (dotted base fields ++ tail.flatMap (fun l => l ++ [46]))) ⟨fields.map (digits base) ++ tail ++ [[]]⟩ := by
  have hplain := (plain_digits hbase (fun f hf => (h f hf).trans hsize.1)).append htail
  have hlen : Name.length ⟨fields.map (digits base) ++ tail⟩ ≤ size := by
    rw [Name.length_append]
    exact (Nat.add_le_add_right (length_fields h) _).trans hfits
  rw [dotted_eq, ← flatMap_append, length_flatMap_dot]
  exact ⟨hlen, hplain.names (append_ne_nil_of_right_ne_nil _ hne) (hlen.trans hsize.2)⟩

theorem plain_arpa : Plain [[73, 80, 54], [65, 82, 80, 65]] ∧ Plain [[73, 78, 45, 65, 68, 68, 82], [65, 82, 80, 65]] ∧
    Plain [[105, 112, 54], [97, 114, 112, 97]] ∧ Plain [[105, 110, 45, 97, 100, 100, 114], [97, 114, 112, 97]] := by
  refine ⟨⟨?_, by decide⟩, ⟨?_, by decide⟩, ⟨?_, by decide⟩, ⟨?_, by decide⟩⟩ <;> unfold Inner <;> decide

theorem nibble_lt {bs : List (BitVec 8)} : ∀ f ∈ bs.flatMap nibbles, f < 16 := by
  intro f hf
  obtain ⟨b, -, hb⟩ := mem_flatMap.1 hf
  have := b.isLt
  simp only [nibbles, mem_cons, not_mem_nil, or_false] at hb
  omega

@[simp] theorem length_nibbles (b : BitVec 8) : (nibbles b).length = 2 := rfl

theorem short_nibbles (bs : List (BitVec 8)) : ∀ f ∈ bs.flatMap nibbles, (digits 16 f).length ≤ 1 :=
  fun f hf => length_digits.2 f (nibble_lt f hf)

theorem short_bytes (bs : List (BitVec 8)) : ∀ f ∈ bs.map BitVec.toNat, (digits 10 f).length ≤ 3 := by
  intro f hf
  obtain ⟨b, -, rfl⟩ := mem_map.1 hf
  exact length_digits.1 _ b.isLt

theorem exists_bytes (bytes : Vector (BitVec 8) 4) : ∃ a b c d, bytes.toList = [a, b, c, d] := by
  obtain ⟨⟨l⟩, hl⟩ := bytes
  match l, hl with
  | [a, b, c, d], _ => exact ⟨a, b, c, d, rfl⟩

theorem hostLong_fields (bytes : Vector (BitVec 8) 4) {a b c d : BitVec 8} (h : bytes.toList = [a, b, c, d]) :
    hostLong bytes = ((a.toNat * 256 + b.toNat) * 256 + c.toNat) * 256 + d.toNat := by
  simp [hostLong, h]

/-! ### The names -/

variable (addr : NetAddr)

theorem reverseName_names : Names (reverseName addr) (reverseFromAddress addr) := by
  cases addr with
  | inet bytes =>
    have hlen : 4 * (bytes.toList.reverse.map BitVec.toNat).length + 13 ≤ 73 := by simp
    obtain ⟨hshort, hnames⟩ := fields_names (by decide) (short_bytes bytes.toList.reverse) plain_arpa.2.1 (by decide) hlen (by decide)
    have hrun := @Names.checked _ _ 74 hnames (Nat.lt_succ_of_le hshort)
    obtain ⟨a, b, c, d, h⟩ := exists_bytes bytes
    have hl := hostLong_fields bytes h
    have ha := a.isLt
    have hb := b.isLt
    have hc := c.isLt
    have hd := d.isLt
    refine Eq.mp (congrArg₂ Names (congrArg (fun fields => checkedName 74 (dotted 10 fields ++ inAddrText)) ?_) ?_) hrun
    · rw [h, hl]
      simp only [reverse_cons, reverse_nil, nil_append, cons_append, map_cons, map_nil, cons.injEq,
        and_true]
      omega
    · rw [reverseFromAddress, map_map, append_assoc]
      rfl
  | inet6 bytes =>
    have hlen : 2 * (bytes.toList.reverse.flatMap nibbles).length + 9 ≤ 73 := by simp
    obtain ⟨hshort, hnames⟩ := fields_names (by decide) (short_nibbles bytes.toList.reverse) plain_arpa.1 (by decide) hlen (by decide)
    refine Eq.mp (congrArg₂ Names rfl ?_) (hnames.checked (Nat.lt_succ_of_le hshort))
    rw [reverseFromAddress, map_flatMap, append_assoc]
    rfl

theorem stfName_names : Names (stfName addr) (stfFromAddress addr) := by
  cases addr with
  | inet bytes =>
    obtain ⟨a, b, c, d, h⟩ := exists_bytes bytes
    have hl := hostLong_fields bytes h
    have ha := a.isLt
    have hb := b.isLt
    have hc := c.isLt
    have hd := d.isLt
    have hlast : Plain [digits 16 (a.toNat / 16) ++ [50]] := by
      have hall : ∀ n < 16, (digits 16 n ++ [50]).length ≤ 63 ∧ digits 16 n ++ [50] ≠ [] ∧
          Label.text (digits 16 n ++ [50]) = digits 16 n ++ [50] := by decide +kernel
      obtain ⟨h63, hne, htext⟩ := hall (a.toNat / 16) (by omega)
      exact ⟨fun l hl => mem_singleton.1 hl ▸ ⟨h63, hne⟩, fun l hl => mem_singleton.1 hl ▸ htext⟩
    have hrest : Plain ([[48], [48], [50]] ++ [[73, 80, 54], [65, 82, 80, 65]]) := by
      refine Plain.append ⟨?_, by decide⟩ plain_arpa.1
      unfold Inner
      decide
    have hshort : (digits 16 (a.toNat / 16)).length ≤ 1 := length_digits.2 _ (by omega)
    have hfields : ∀ f ∈ [d.toNat % 16, d.toNat / 16, c.toNat % 16, c.toNat / 16, b.toNat % 16, b.toNat / 16, a.toNat % 16],
        (digits 16 f).length ≤ 1 := by
      intro f hf
      apply length_digits.2
      simp only [mem_cons, not_mem_nil, or_false] at hf
      omega
    have hlen : 2 * 7 + Name.length ⟨[digits 16 (a.toNat / 16) ++ [50]] ++ ([[48], [48], [50]] ++ [[73, 80, 54], [65, 82, 80, 65]])⟩ ≤ 33 := by
      rw [Name.length_append, Name.length_cons, length_append]
      have hrest' : Name.length ⟨[[48], [48], [50]] ++ [[73, 80, 54], [65, 82, 80, 65]]⟩ = 15 := by decide
      have hnil : Name.length ⟨[]⟩ = 0 := rfl
      simp only [length_cons, length_nil]
      omega
    obtain ⟨hlen', hnames⟩ := fields_names (by decide) hfields (hlast.append hrest) (by simp) hlen (by decide)
    have hrun := @Names.checked _ _ 34 hnames (Nat.lt_succ_of_le hlen')
    refine Eq.mp (congrArg₂ Names (congrArg (checkedName 34) ?_) ?_) hrun
    · have htwo : dotted 10 [2, 0, 0, 2] = [50, 46, 48, 46, 48, 46, 50, 46] := by decide
      have h1 : [hostLong bytes % 16, hostLong bytes / 2 ^ 4 % 16, hostLong bytes / 2 ^ 8 % 16, hostLong bytes / 2 ^ 12 % 16,
          hostLong bytes / 2 ^ 16 % 16, hostLong bytes / 2 ^ 20 % 16, hostLong bytes / 2 ^ 24 % 16] =
          [d.toNat % 16, d.toNat / 16, c.toNat % 16, c.toNat / 16, b.toNat % 16, b.toNat / 16, a.toNat % 16] := by
        rw [hl]
        simp only [cons.injEq, and_true]
        omega
      have h2 : hostLong bytes / 2 ^ 28 % 16 = a.toNat / 16 := by omega
      simp only [stfText, h1, h2, htwo, ip6Text]
      simp
    · simp only [stfFromAddress, h, ip6Arpa]
      simp [nibbles, show digits 10 2 = [50] by decide, show digits 10 0 = [48] by decide]
  | inet6 bytes =>
    have hlen : 2 * ((bytes.toList.take 6).reverse.flatMap nibbles).length + 9 ≤ 33 := by simp
    obtain ⟨hshort, hnames⟩ := fields_names (by decide) (short_nibbles (bytes.toList.take 6).reverse) plain_arpa.1 (by decide) hlen
      (by decide)
    refine Eq.mp (congrArg₂ Names rfl ?_) (hnames.checked (Nat.lt_succ_of_le hshort))
    rw [stfFromAddress, map_flatMap, append_assoc]
    rfl

theorem createptrname2_names : ∃ n, Names (createptrname2 addr false) n ∧ (reverseFromAddress addr).equal n = true := by
  cases addr with
  | inet bytes =>
    have hlen : 4 * (bytes.toList.reverse.map BitVec.toNat).length + 13 ≤ 100 := by simp
    obtain ⟨hshort, hnames⟩ := fields_names (by decide) (short_bytes bytes.toList.reverse) plain_arpa.2.2.2 (by decide) hlen (by decide)
    have hrun : createptrname2 (.inet bytes) false = _ := congrArg fixedFromtext (take_of_length_le (hshort.trans (by decide)))
    refine ⟨_, hrun ▸ hnames, (Name.equal_iff _ _).2 ?_⟩
    simp only [Name.lower, reverseFromAddress, map_append, map_map, append_assoc]
    rfl
  | inet6 bytes =>
    have hlen : 2 * (bytes.toList.reverse.flatMap nibbles).length + 9 ≤ 100 := by simp
    obtain ⟨hshort, hnames⟩ := fields_names (by decide) (short_nibbles bytes.toList.reverse) plain_arpa.2.2.1 (by decide) hlen (by decide)
    have hhex : ∀ n < 16, digits 16 n = [hexDigits.getD n 0] := by decide
    have htext : bytes.toList.reverse.flatMap (fun b => [hexDigits.getD (b.toNat % 16) 0, 46, hexDigits.getD (b.toNat / 16) 0, 46]) =
        dotted 16 (bytes.toList.reverse.flatMap nibbles) := by
      rw [dotted, flatMap_assoc]
      refine flatMap_congr (fun b _ => ?_)
      have hb := b.isLt
      simp [nibbles, hhex (b.toNat % 16) (by omega), hhex (b.toNat / 16) (by omega)]
    have hrun : createptrname2 (.inet6 bytes) false = _ := (congrArg (fun text => if (text ++ ip6Text.map maptolower).length < 128 then
      fixedFromtext (text ++ ip6Text.map maptolower) else .error .overrun) htext).trans (if_pos (lt_of_le_of_lt hshort (by decide)))
    refine ⟨_, hrun ▸ hnames, (Name.equal_iff _ _).2 ?_⟩
    simp only [Name.lower, reverseFromAddress, map_append, map_flatMap, map_map, append_assoc]
    rfl

/-! ### Different addresses -/

theorem digits_inj {base m n : ℕ} (hbase : 1 < base ∧ base ≤ 16) (h : (digits base m).lower = (digits base n).lower) : m = n :=
  (Rpz.numText_digits hbase.1 hbase.2 m).value.symm.trans ((Rpz.numText_digits hbase.1 hbase.2 n).of_lower h).value

theorem fields_inj {base : ℕ} (hbase : 1 < base ∧ base ≤ 16) {xs ys : List ℕ} {tail : List Label}
    (h : Name.equal ⟨xs.map (digits base) ++ tail⟩ ⟨ys.map (digits base) ++ tail⟩ = true) : xs = ys := by
  have hlower := congrArg Name.labels ((Name.equal_iff _ _).1 h)
  simp only [Name.lower, map_append, append_cancel_right_eq, map_map] at hlower
  exact map_injective_iff.2 (fun m n hmn => digits_inj hbase hmn) hlower

theorem nibbles_inj : ∀ {xs ys : List (BitVec 8)}, xs.flatMap nibbles = ys.flatMap nibbles → xs = ys
  | [], [], _ => rfl
  | [], y :: ys, h => by simp [nibbles] at h
  | x :: xs, [], h => by simp [nibbles] at h
  | x :: xs, y :: ys, h => by
    simp only [flatMap_cons, nibbles, cons_append, nil_append, cons.injEq] at h
    obtain ⟨hlow, hhigh, hrest⟩ := h
    rw [nibbles_inj hrest, BitVec.eq_of_toNat_eq (show x.toNat = y.toNat by omega)]

theorem countlabels_of_equal {n m : Name} (h : n.equal m = true) : n.labels.length = m.labels.length := by
  have hlower := congrArg (fun x => x.labels.length) ((Name.equal_iff n m).1 h)
  simpa [Name.lower] using hlower

variable (bytes : Vector (BitVec 8) 4)

theorem reverse_inet :
    reverseFromAddress (.inet bytes) = ⟨(bytes.toList.reverse.map BitVec.toNat).map (digits 10) ++ inAddrArpa⟩ := by
  rw [map_map]
  rfl

theorem reverse_inet6 (bytes : Vector (BitVec 8) 16) :
    reverseFromAddress (.inet6 bytes) = ⟨(bytes.toList.reverse.flatMap nibbles).map (digits 16) ++ ip6Arpa⟩ := by
  rw [map_flatMap]
  rfl

theorem stf_inet6 (bytes : Vector (BitVec 8) 16) :
    stfFromAddress (.inet6 bytes) = ⟨((bytes.toList.take 6).reverse.flatMap nibbles).map (digits 16) ++ ip6Arpa⟩ := by
  rw [map_flatMap]
  rfl

theorem reverse_injective {x y : NetAddr} (h : (reverseFromAddress x).equal (reverseFromAddress y) = true) : x = y := by
  have hcount := countlabels_of_equal h
  cases x with
  | inet x =>
    cases y with
    | inet y =>
      rw [reverse_inet, reverse_inet] at h
      have hrev := map_injective_iff.2 (fun _ _ => BitVec.eq_of_toNat_eq) (fields_inj (by decide) h)
      rw [Vector.toList_inj.1 (reverse_inj.1 hrev)]
    | inet6 y => simp [reverse_inet, reverse_inet6, inAddrArpa, ip6Arpa] at hcount
  | inet6 x =>
    cases y with
    | inet y => simp [reverse_inet, reverse_inet6, inAddrArpa, ip6Arpa] at hcount
    | inet6 y =>
      rw [reverse_inet6, reverse_inet6] at h
      rw [Vector.toList_inj.1 (reverse_inj.1 (nibbles_inj (fields_inj (by decide) h)))]

theorem stf_inet_length : (stfFromAddress (.inet bytes)).labels.length = 14 := by
  simp [stfFromAddress, ip6Arpa]

/-! ### The right names -/

/-- The first 48 bits of the addresses that a client has, or of those of its 6to4 prefix. -/
def prefix48 : NetAddr → List (BitVec 8)
  | .inet bytes => 0x20 :: 0x02 :: bytes.toList
  | .inet6 bytes => bytes.toList.take 6

/-- What the rules rely on: the names are made, `reverse_from_address` makes the name of the reverse zones, and
`stf_from_address` the part of it for the first 48 bits, each for no other address or prefix. -/
structure NamesRight : Prop where
  reverse : ∃ n m, Names (reverseName addr) n ∧ Names (createptrname2 addr false) m ∧ n.equal m = true
  reverse_unique : ∀ addr' n n', Names (reverseName addr) n → Names (reverseName addr') n' → n.equal n' = true → addr = addr'
  stf : ∃ s, Names (stfName addr) s ∧ ∀ bytes n, prefix48 (.inet6 bytes) = prefix48 addr → Names (reverseName (.inet6 bytes)) n →
    s.equal ⟨n.labels.drop 20⟩ = true
  stf_unique : ∀ addr' s s', Names (stfName addr) s → Names (stfName addr') s' → s.equal s' = true → prefix48 addr = prefix48 addr'
  grants : ∀ oracle rule who name type bytes, rule.matchtype = .sixToFourSelf → who.tcpaddr = some addr →
    prefix48 (.inet6 bytes) = prefix48 addr → nameMatches oracle rule who name type =
      addressMatches rule name ⟨(reverseFromAddress (.inet6 bytes)).labels.drop 20⟩

/-- The labels of the first 48 bits. -/
theorem stf_eq_drop {x y : Vector (BitVec 8) 16} (h : y.toList.take 6 = x.toList.take 6) :
    stfFromAddress (.inet6 x) = ⟨(reverseFromAddress (.inet6 y)).labels.drop 20⟩ := by
  have hsplit : y.toList.reverse = (y.toList.drop 6).reverse ++ (y.toList.take 6).reverse := by
    rw [← reverse_append, take_append_drop]
  have hlen : (((y.toList.drop 6).reverse.flatMap nibbles).map (digits 16)).length = 20 := by simp
  rw [stf_inet6, reverse_inet6, hsplit, flatMap_append, map_append, append_assoc, drop_left' hlen, h]

/-- A dot is missing, so that there is a label less. -/
theorem not_right_inet : ¬NamesRight (.inet bytes) := by
  intro h
  obtain ⟨s, hs, hall⟩ := h.stf
  obtain ⟨a, b, c, d, hbytes⟩ := exists_bytes bytes
  have hequal := hall #v[0x20, 0x02, a, b, c, d, 0, 0, 0, 0, 0, 0, 0, 0, 0, 0] _ (by simp [prefix48, hbytes]) (reverseName_names _)
  have hcount := countlabels_of_equal hequal
  rw [hs.unique (stfName_names _), stf_inet_length] at hcount
  simp [reverse_inet6, ip6Arpa] at hcount

/-- The names are right for clients with an IPv6 address, and only for them. -/
theorem names_right_iff : NamesRight addr ↔ ∃ bytes, addr = .inet6 bytes := by
  constructor
  · intro h
    cases addr with
    | inet6 bytes => exact ⟨bytes, rfl⟩
    | inet bytes => exact absurd h (not_right_inet bytes)
  · rintro ⟨bytes, rfl⟩
    obtain ⟨m, hm, heq⟩ := createptrname2_names (.inet6 bytes)
    refine ⟨⟨_, m, reverseName_names _, hm, heq⟩, fun addr' n n' hn hn' hnn => ?_, ⟨_, stfName_names _, fun y n hy hn => ?_⟩,
      fun addr' s s' hs hs' hss => ?_, fun oracle rule who name type y hrule hwho hy => ?_⟩
    · rw [hn.unique (reverseName_names _), hn'.unique (reverseName_names _)] at hnn
      exact reverse_injective hnn
    · rw [hn.unique (reverseName_names _), stf_eq_drop hy]
      exact (Name.equal_iff _ _).2 rfl
    · rw [hs.unique (stfName_names _), hs'.unique (stfName_names _)] at hss
      have hcount := countlabels_of_equal hss
      cases addr' with
      | inet y => simp [stf_inet_length, stf_inet6, ip6Arpa] at hcount
      | inet6 y =>
        rw [stf_inet6, stf_inet6] at hss
        exact reverse_inj.1 (nibbles_inj (fields_inj (by decide) hss))
    · rw [nameMatches, hrule, hwho, ← stf_eq_drop hy]
      rfl

/-- The client 192.0.2.1. -/
theorem stf_of_ipv4 : ¬NamesRight (.inet #v[192, 0, 2, 1]) := not_right_inet _

end Bind9.Ssu
