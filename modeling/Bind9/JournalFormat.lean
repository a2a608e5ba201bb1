import Bind9.Journal

/-! # The journal file is read back as it was written

The header, the index, the transaction headers and the records: each decoder returns what the encoder was given, as
long as the numbers fit in their fields. -/

namespace Bind9.Journal

open List

open Diff

/-! ### Numbers -/

@[simp] theorem uint32Bytes_length (n : ℕ) : (uint32Bytes n).length = 4 := rfl

@[simp] theorem uint16Bytes_length (n : ℕ) : (uint16Bytes n).length = 2 := rfl

theorem decodeUint32_append (n : ℕ) (r : Bytes) : decodeUint32 (uint32Bytes n ++ r) = UInt32.ofNat n := by
  simp only [uint32Bytes, cons_append, decodeUint32]
  apply UInt32.toNat_inj.1
  simp only [UInt32.toNat_ofNat', UInt8.toNat_ofNat']
  omega

theorem decodeUint32_serial (s : UInt32) (r : Bytes) : decodeUint32 (uint32Bytes s.toNat ++ r) = s := by
  rw [decodeUint32_append, UInt32.ofNat_toNat]

variable {n : ℕ}

theorem decodeUint32_nat (h : n < 2 ^ 32) (r : Bytes) : (decodeUint32 (uint32Bytes n ++ r)).toNat = n := by
  rw [decodeUint32_append, UInt32.toNat_ofNat']
  exact Nat.mod_eq_of_lt h

/-! ### Header and index -/

@[simp] theorem Pos.encode_length (p : Pos) : p.encode.length = 8 := rfl

theorem Pos.decode_encode {p : Pos} (h : p.offset < 2 ^ 32) (r : Bytes) : Pos.decode (p.encode ++ r) = p := by
  have hdrop : (p.encode ++ r).drop 4 = uint32Bytes p.offset ++ r := rfl
  have happ : p.encode ++ r = uint32Bytes p.serial.toNat ++ (uint32Bytes p.offset ++ r) := rfl
  rw [Pos.decode, hdrop, happ, decodeUint32_serial, decodeUint32_nat h]

@[simp] theorem Header.encode_length (h : Header) : h.encode.length = rawheaderSize := by
  simp only [Header.encode, length_append, length_cons, length_replicate, Pos.encode_length,
    uint32Bytes_length, format, length_nil, rawheaderSize]

theorem Header.encode_format (h : Header) : h.encode.take 16 = format := rfl

theorem Header.decode_encode {h : Header} (hb : h.begin_.offset < 2 ^ 32) (he : h.end_.offset < 2 ^ 32)
    (hi : h.indexSize < 2 ^ 32) : Header.decode h.encode = h := by
  have h16 : h.encode.drop 16 = h.begin_.encode ++ (h.encode.drop 24) := rfl
  have h24 : h.encode.drop 24 = h.end_.encode ++ (h.encode.drop 32) := rfl
  have h32 : h.encode.drop 32 = uint32Bytes h.indexSize ++ h.encode.drop 36 := rfl
  have h36 : h.encode.drop 36 = uint32Bytes h.sourceserial.toNat ++ h.encode.drop 40 := rfl
  have h40 : h.encode.getD 40 0 = if h.serialset then 1 else 0 := rfl
  rw [Header.decode, h16, Pos.decode_encode hb, h24, Pos.decode_encode he, h32, decodeUint32_nat hi, h36,
    decodeUint32_serial, h40]
  cases h with
  | mk b e i s set =>
    cases set with
    | true => rfl
    | false => rfl

@[simp] theorem encodeIndex_length (index : List Pos) : (encodeIndex index).length = index.length * rawposSize := by
  induction index with
  | nil => rfl
  | cons p ps ih =>
    rw [encodeIndex, flatMap_cons, length_append, Pos.encode_length]
    rw [encodeIndex] at ih
    rw [ih, length_cons, rawposSize]
    omega

theorem decodeIndex_encode : ∀ {index : List Pos}, (∀ p ∈ index, p.offset < 2 ^ 32) →
    decodeIndex index.length (encodeIndex index) = index
  | [], _ => rfl
  | p :: ps, h => by
    have ih := decodeIndex_encode (fun x hx => h x (mem_cons_of_mem p hx))
    have hcons : encodeIndex (p :: ps) = p.encode ++ encodeIndex ps := rfl
    have hdrop : (p.encode ++ encodeIndex ps).drop rawposSize = encodeIndex ps := rfl
    rw [length_cons, decodeIndex, hcons, Pos.decode_encode (h p mem_cons_self), hdrop, ih]

structure OnDisk (file : Bytes) (header : Header) (index : List Pos) (rest : Bytes) : Prop where
  file_eq : file = header.encode ++ (encodeIndex index ++ rest)
  size : header.indexSize = index.length
  length_lt : file.length < 2 ^ 32
  begin_lt : header.begin_.offset < 2 ^ 32
  end_lt : header.end_.offset < 2 ^ 32
  index_lt : ∀ p ∈ index, p.offset < 2 ^ 32

theorem DnsJournal.read_append {j : DnsJournal} {a b rest : Bytes} (hf : j.file = a ++ (b ++ rest))
    (ho : j.offset = a.length) (hn : n = b.length) :
    j.read n = .ok (b, { j with offset := j.offset + n }) := by
  rw [DnsJournal.read, hf, FileImage.readAt_append rest ho hn]

theorem read_ok {j j' : DnsJournal} {bytes : Bytes} (h : j.read n = .ok (bytes, j')) :
    bytes = (j.file.drop j.offset).take n ∧ j' = j.moved (j.offset + n) ∧ j.offset + n ≤ j.file.length := by
  unfold DnsJournal.read at h
  split at h
  next bs hbs =>
    cases h
    have hlen := FileImage.readAt_length hbs
    rw [FileImage.readAt, if_pos hlen] at hbs
    exact ⟨(Option.some.inj hbs).symm, rfl, hlen⟩
  next => cases h

theorem OnDisk.journalOpen {file rest : Bytes} {header : Header} {index : List Pos}
    (h : OnDisk file header index rest) (write : Bool) : ∃ j, journalOpen file write = .ok j ∧ j.file = file ∧
      j.header = header ∧ j.index = index ∧ j.state = if write then .write else .read := by
  have hraw : header.indexSize * rawposSize < 2 ^ 32 := by
    have hlen := congrArg List.length h.file_eq
    have hlt := h.length_lt
    rw [length_append, length_append, encodeIndex_length] at hlen
    rw [h.size]
    omega
  have hsize : header.indexSize < 2 ^ 32 := by
    simp only [rawposSize] at hraw
    omega
  have hrawbytes : header.indexSize * rawposSize % 2 ^ 32 = header.indexSize * rawposSize := Nat.mod_eq_of_lt hraw
  have hdec := Header.decode_encode h.begin_lt h.end_lt hsize
  -- the journal before anything is read
  let j0 : DnsJournal := ⟨file, 0, ⟨⟨0, 0⟩, ⟨0, 0⟩, 0, 0, false⟩, [], if write then .write else .read, 0, ⟨0, 0⟩, ⟨0, 0⟩,
    ⟨⟨0, 0⟩, ⟨0, 0⟩, 0, 0, 0, 0⟩⟩
  have hheader : j0.read rawheaderSize = .ok (header.encode, { j0 with offset := rawheaderSize }) := by
    have hr := DnsJournal.read_append (j := j0) (a := []) (b := header.encode) (n := rawheaderSize) h.file_eq rfl
      header.encode_length.symm
    rwa [show j0.offset + rawheaderSize = rawheaderSize from Nat.zero_add _] at hr
  have hindex : DnsJournal.read { j0 with offset := rawheaderSize } (header.indexSize * rawposSize) =
      .ok (encodeIndex index, { j0 with offset := rawheaderSize + header.indexSize * rawposSize }) :=
    DnsJournal.read_append (a := header.encode) (b := encodeIndex index) h.file_eq header.encode_length.symm
      (by rw [encodeIndex_length, h.size])
  refine ⟨{ j0 with offset := rawheaderSize + header.indexSize * rawposSize, header := header, index := index }, ?_,
    rfl, rfl, rfl, rfl⟩
  have hcook : decodeIndex header.indexSize (encodeIndex index) = index := by
    rw [h.size]
    exact decodeIndex_encode h.index_lt
  show (j0.read rawheaderSize >>= fun p => if p.1.take 16 ≠ format then stop .unexpected
    else p.2.read ((Header.decode p.1).indexSize * rawposSize % 2 ^ 32) >>= fun q =>
      require ((Header.decode p.1).indexSize * rawposSize == (Header.decode p.1).indexSize * rawposSize % 2 ^ 32) >>=
        fun _ => pure { q.2 with header := Header.decode p.1, index := decodeIndex (Header.decode p.1).indexSize q.1 }) = _
  rw [hheader]
  simp only [ok_then, Header.encode_format, ne_eq, not_true_eq_false, if_false, hdec, hrawbytes]
  rw [hindex]
  simp only [ok_then, beq_self_eq_true, require_true, hcook]
  rfl

/-! ### Transaction headers and records -/

@[simp] theorem Xhdr.encode_length (x : Xhdr) : x.encode.length = rawxhdrSize := rfl

theorem DnsJournal.readXhdr_append {j : DnsJournal} {a rest : Bytes} {x : Xhdr}
    (hf : j.file = a ++ (x.encode ++ rest)) (ho : j.offset = a.length) (hx : x.size < 2 ^ 32) :
    j.readXhdr = .ok (x, { j with offset := j.offset + rawxhdrSize }) := by
  have h4 : x.encode.drop 4 = uint32Bytes x.serial0.toNat ++ x.encode.drop 8 := rfl
  have h8 : x.encode.drop 8 = uint32Bytes x.serial1.toNat ++ [] := rfl
  have h0 : x.encode = uint32Bytes x.size ++ x.encode.drop 4 := rfl
  have hsize : (decodeUint32 x.encode).toNat = x.size := by
    rw [h0]
    exact decodeUint32_nat hx _
  rw [DnsJournal.readXhdr, DnsJournal.read_append hf ho x.encode_length.symm]
  simp only [ok_then, hsize]
  rw [h4, decodeUint32_serial, h8, decodeUint32_serial]
  rfl

/-- What the journal can hold: an absolute owner, a TTL of 32 bits, rdata of less than 65536 bytes that
`dns_rdata_fromwire` takes as it is, and the five numbers of a SOA record. -/
structure Storable (codec : RdataCodec) (t : DiffTuple) : Prop where
  owner : ∃ n : AbsName, n.name = t.name
  ttl_lt : t.ttl < 2 ^ 32
  rdata_lt : t.rdata.length < 65536
  read : ∀ room, t.rdata.length ≤ room → codec.fromwire t.rdclass t.type room t.rdata = .ok t.rdata
  soa_le : t.type = soa → 20 ≤ t.rdata.length

/-- What `dns_journal_writediff` needs of a tuple: rdata of less than 65536 bytes, and the five numbers of a SOA record. -/
structure Encodable (t : DiffTuple) : Prop where
  rdata_lt : t.rdata.length < 65536
  soa_le : t.type = soa → 20 ≤ t.rdata.length

variable {codec : RdataCodec} {t : DiffTuple}

theorem Storable.encodable (h : Storable codec t) : Encodable t :=
  ⟨h.rdata_lt, h.soa_le⟩

theorem rrData_length (t : DiffTuple) : (rrData t).length = t.name.length + 10 + t.rdata.length := by
  simp only [rrData, length_append, uint16Bytes_length, uint32Bytes_length, Name.length]
  omega

theorem rrBytes_length (t : DiffTuple) : (rrBytes t).length = 4 + (rrData t).length := by
  rw [rrBytes, length_append, uint32Bytes_length]

theorem AbsName.length_pos (n : AbsName) : 0 < n.name.length := by
  rw [Name.length, Name.ndata, n.labels_eq, flatMap_append, length_append]
  exact Nat.lt_add_left _ Nat.one_pos

theorem Storable.size_bounds (h : Storable codec t) : 11 ≤ (rrData t).length ∧ (rrData t).length ≤ 70000 := by
  obtain ⟨n, hn⟩ := h.owner
  have hpos := AbsName.length_pos n
  have hle := n.valid.length_le
  have hlt := h.rdata_lt
  rw [hn] at hpos hle
  rw [rrData_length]
  omega

theorem Storable.parseRr (h : Storable codec t) {room : ℕ}
    (hroom : (rrData t).length ≤ room) : parseRr codec room (rrData t) = .ok (rrOf t) := by
  obtain ⟨n, hn⟩ := h.owner
  rw [rrData_length, ← hn] at hroom
  let fields := uint16Bytes t.type.toNat ++ (uint16Bytes t.rdclass.toNat ++ (uint32Bytes t.ttl ++
    (uint16Bytes t.rdata.length ++ t.rdata)))
  have hdata : rrData t = n.name.ndata ++ fields := by rw [hn]; rfl
  have hprefix : n.name.ndata <+: (rrData t).drop 0 := by
    rw [drop_zero, hdata]
    exact prefix_append _ _
  obtain ⟨labels, offsets, hname⟩ := fromwire_of_ndata 0 n hprefix (show n.name.length ≤ room by omega)
  have hdrop : (rrData t).drop n.name.length = fields := by
    rw [hdata]
    exact drop_left
  have hlen : fields.length = 10 + t.rdata.length := by
    simp only [fields, length_append, uint16Bytes_length, uint32Bytes_length]
    omega
  have hregion : nameFromregion n.name.ndata = .ok n.name := by
    have hr := nameFromregion_append n []
    rwa [append_nil] at hr
  have h2 : fields.drop 2 = uint16Bytes t.rdclass.toNat ++ fields.drop 4 := rfl
  have h4 : fields.drop 4 = uint32Bytes t.ttl ++ fields.drop 8 := rfl
  have h8 : fields.drop 8 = uint16Bytes t.rdata.length ++ fields.drop 10 := rfl
  have h10 : fields.drop 10 = t.rdata := rfl
  have htype : uint16Fromregion fields = .ok t.type.toNat := uint16Fromregion_append t.type.toNat_lt _
  have hclass : uint16Fromregion (fields.drop 2) = .ok t.rdclass.toNat := by
    rw [h2]
    exact uint16Fromregion_append t.rdclass.toNat_lt _
  have httl : uint32Fromregion (fields.drop 4) = .ok t.ttl := by
    rw [h4]
    exact uint32Fromregion_append h.ttl_lt _
  have hrdlen : uint16Fromregion (fields.drop 8) = .ok t.rdata.length := by
    rw [h8]
    exact uint16Fromregion_append h.rdata_lt _
  have hread := h.read (room - n.name.ndata.length) (by rw [Name.length] at hroom; omega)
  rw [Journal.parseRr, hname]
  simp only [hdrop]
  rw [if_neg (by omega), hregion, htype, hclass, httl, hrdlen, h10]
  simp only [ok_then, ne_eq, not_true_eq_false, if_false, UInt16.ofNat_toNat, hread]
  rw [hn]
  rfl

end Bind9.Journal
