import PacketTrust.Proofs.Packet.Interest
import PacketTrust.Proofs.Packet.SignatureInfo
import PacketTrust.Proofs.Packet.SignedPortion

/-! Packets that are written and read back. A packet whose fields can be written is laid out by
its own encoding, and the fields of a packet that was read can be written, whatever octets it
came in. -/

namespace PacketTrust

open Tlv

/-- The meta information that is left out is that of packets that have none. -/
theorem MetaInfo.eq_of_isDefault {m : MetaInfo} (h : m.isDefault) : m = {} := by
  obtain ⟨type, freshness⟩ := m
  unfold isDefault at h
  simp only [Bool.and_eq_true, decide_eq_true_eq, Option.isNone_iff_eq_none] at h
  obtain ⟨rfl, rfl⟩ := h
  rfl

namespace Data

structure WellFormed (d : Data) : Prop where
  name : d.name.WellFormed
  metaInfo : d.metaInfo.WellFormed
  info : d.signature.info.WellFormed

variable {d : Data} {wire : Bytes}

theorem exists_metaInfo (hm : d.metaInfo.WellFormed) (q : Nat) : ∃ elements,
    SpellsAll q (if d.metaInfo.isDefault then [] else d.metaInfo.encode) elements ∧
      (∀ e ∈ elements, e.type = Types.metaInfo) ∧
      elements.foldlM Parts.take {} = .ok { metaInfo := d.metaInfo } := by
  by_cases hdefault : d.metaInfo.isDefault
  · rw [if_pos hdefault, MetaInfo.eq_of_isDefault hdefault]
    exact ⟨[], .nil q, by simp, rfl⟩
  · have hvalue : d.metaInfo.encodeValue.length < 2 ^ 64 := by
      have := Spells.length_le_encode Types.metaInfo d.metaInfo.encodeValue
      have := MetaInfo.length_encode_le d.metaInfo
      unfold MetaInfo.encode at this
      omega
    rw [if_neg hdefault]
    refine ⟨_, .single (.encode Types.metaInfo hvalue) q, by simp, ?_⟩
    rw [List.foldlM_cons, Parts.take_metaInfo rfl (MetaInfo.decodeValue_encodeValue hm)]
    rfl

theorem exists_content (h : d.content.length < 2 ^ 64) (q : Nat) (m : MetaInfo) : ∃ elements,
    SpellsAll q (if d.content.isEmpty then [] else Tlv.encode Types.content d.content) elements ∧
      (∀ e ∈ elements, e.type = Types.content) ∧
      elements.foldlM Parts.take { metaInfo := m } =
        .ok { metaInfo := m, content := d.content } := by
  by_cases hempty : d.content.isEmpty
  · rw [if_pos hempty, List.isEmpty_iff.1 hempty]
    exact ⟨[], .nil q, by simp, rfl⟩
  · rw [if_neg hempty]
    refine ⟨_, .single (.encode Types.content h) q, by simp, ?_⟩
    rw [List.foldlM_cons, Parts.take_content rfl]
    rfl

def encodeFront (d : Data) : Bytes :=
  (if d.metaInfo.isDefault then [] else d.metaInfo.encode) ++
    (if d.content.isEmpty then [] else Tlv.encode Types.content d.content)

theorem encodeSigned_eq (d : Data) :
    d.encodeSigned = d.name.encode ++ (d.encodeFront ++ d.signature.info.encode) := by
  simp only [encodeSigned, encodeFront, List.append_assoc]

theorem exists_front (hm : d.metaInfo.WellFormed) (h : d.content.length < 2 ^ 64) (q : Nat) :
    ∃ elements, SpellsAll q d.encodeFront elements ∧
      (∀ e ∈ elements, e.type ≠ Types.signatureValue) ∧
      elements.foldlM Parts.take {} = .ok { metaInfo := d.metaInfo, content := d.content } := by
  obtain ⟨metaElements, hmeta, hmetaType, hmetaTold⟩ := exists_metaInfo hm q
  obtain ⟨contentElements, hcontent, hcontentType, hcontentTold⟩ := exists_content h
    (q + (if d.metaInfo.isDefault then [] else d.metaInfo.encode).length) d.metaInfo
  refine ⟨metaElements ++ contentElements, hmeta.append hcontent, ?_, ?_⟩
  · intro e he
    rcases List.mem_append.1 he with he | he
    · rw [hmetaType e he]
      decide
    · rw [hcontentType e he]
      decide
  · rw [List.foldlM_append, hmetaTold]
    exact hcontentTold

theorem Parts.take_info {p : Parts} {e : Element} (ht : e.type = Types.signatureInfo) :
    p.take e = (do
      let s ← SignatureInfo.decodeValue e.value
      pure { p with info := some s, signedStop := some e.stop }) := by
  have hmetaInfo : ¬ e.type = Types.metaInfo := by
    rw [ht]
    decide
  have hcontent : ¬ e.type = Types.content := by
    rw [ht]
    decide
  rw [take, if_neg hmetaInfo, if_neg hcontent, if_pos ht]

theorem exists_info (hd : d.WellFormed) (h : d.signature.info.encodeValue.length < 2 ^ 64) (q : Nat)
    (p : Parts) : ∃ e, SpellsAll q d.signature.info.encode [e] ∧ e.type = Types.signatureInfo ∧
      p.take e = .ok { p with info := some d.signature.info, signedStop := some e.stop } := by
  refine ⟨_, .single (.encode Types.signatureInfo h) q, rfl, ?_⟩
  rw [Parts.take_info rfl, SignatureInfo.decodeValue_encodeValue hd.info h]
  rfl

/-- A packet with a wire of its own is encoded as that wire. -/
theorem Layout.encode (l : Layout wire d) : d.encode = wire := by
  unfold Data.encode
  rw [l.received]

/-- A length that the whole encoding can be given is enough for each of its parts. -/
structure Short (d : Data) : Prop where
  body : (d.encodeSigned ++ d.signature.encodeValue).length < 2 ^ 64
  name : d.name.encodeComponents.length < 2 ^ 64
  content : d.content.length < 2 ^ 64
  info : d.signature.info.encodeValue.length < 2 ^ 64
  value : d.signature.value.length < 2 ^ 64

theorem encode_of_fresh (hr : d.received = none) :
    d.encode = Tlv.encode Types.data (d.encodeSigned ++ d.signature.encodeValue) := by
  unfold Data.encode
  rw [hr]

theorem short_of_length_encode (hr : d.received = none) (h : d.encode.length < 2 ^ 64) :
    d.Short := by
  rw [encode_of_fresh hr] at h
  have hbody := Nat.lt_of_le_of_lt (Spells.length_le_encode Types.data _) h
  have hall : (d.encodeSigned ++ d.signature.encodeValue).length = d.name.encode.length +
      ((if d.metaInfo.isDefault then [] else d.metaInfo.encode).length +
        ((if d.content.isEmpty then [] else Tlv.encode Types.content d.content).length +
          d.signature.info.encode.length)) + d.signature.encodeValue.length := by
    simp only [encodeSigned, List.length_append]
  have hname : d.name.encodeComponents.length ≤ d.name.encode.length :=
    Spells.length_le_encode _ _
  have hinfo : d.signature.info.encodeValue.length ≤ d.signature.info.encode.length :=
    Spells.length_le_encode _ _
  have hvalue : d.signature.value.length ≤ d.signature.encodeValue.length :=
    Spells.length_le_encode _ _
  have hcontent : d.content.length ≤
      (if d.content.isEmpty then [] else Tlv.encode Types.content d.content).length := by
    split
    · rename_i hempty
      rw [List.isEmpty_iff.1 hempty]
    · exact Spells.length_le_encode _ _
  constructor
  · exact hbody
  all_goals omega

theorem spells_encode (hr : d.received = none) (h : d.encode.length < 2 ^ 64) :
    Spells d.encode Types.data (d.encodeSigned ++ d.signature.encodeValue) := by
  have hbody := (short_of_length_encode hr h).body
  rw [encode_of_fresh hr]
  exact .encode _ hbody

theorem exists_layout (hd : d.WellFormed) (hr : d.received = none)
    (hlen : d.encode.length < 2 ^ 64) :
    ∃ received, ∃ l : Layout d.encode { d with received := some received },
      l.nameWire ++ l.signed = d.encodeSigned := by
  obtain ⟨-, hname, hcontent, hinfo, hvalue⟩ := short_of_length_encode hr hlen
  have hspells := spells_encode hr hlen
  obtain ⟨frontElements, hfront, hfrontType, hfrontTold⟩ :=
    exists_front hd.metaInfo hcontent d.name.encode.length
  obtain ⟨info, hinfoLast, hinfoType, hinfoTold⟩ := exists_info hd hinfo
    (d.name.encode.length + d.encodeFront.length) { metaInfo := d.metaInfo, content := d.content }
  have htold : (frontElements ++ [info]).foldlM Parts.take {} =
      .ok ⟨d.metaInfo, d.content, some d.signature.info, some info.stop⟩ := by
    rw [List.foldlM_append, hfrontTold]
    show List.foldlM _ _ _ = _
    rw [List.foldlM_cons, hinfoTold]
    rfl
  have hno : ∀ e ∈ (frontElements ++ [info]) ++ [], e.type ≠ Types.signatureValue := by
    intro e he
    simp only [List.append_nil, List.mem_append, List.mem_singleton] at he
    rcases he with he | rfl
    · exact hfrontType e he
    · rw [hinfoType]
      decide
  obtain ⟨header, hheader⟩ := hspells.suffix
  have hcut : d.encodeSigned ++ d.signature.encodeValue = d.name.encode ++
      ((d.encodeFront ++ d.signature.info.encode) ++ ([] ++ (d.signature.encodeValue ++ []))) := by
    simp only [encodeSigned_eq, List.append_assoc, List.append_nil, List.nil_append]
  rw [hcut] at hspells hheader
  exact ⟨_, {
    header, info
    nameWire := d.name.encode
    nameValue := d.name.encodeComponents
    signed := _
    loose := []
    valueWire := d.signature.encodeValue
    ignored := []
    signedElements := frontElements
    looseElements := []
    told := _
    toldLast := _
    wire_eq := hheader
    spells := hspells
    spells_name := .encode _ hname
    decode_name := Name.decodeValue_encodeComponents hd.name hname
    spells_signed := hfront.append hinfoLast
    spells_loose := .nil _
    spells_value := .encode _ hvalue
    not_value := hno
    info_type := hinfoType
    loose_type := nofun
    take_signed := htold
    take_loose := rfl
    metaInfo := rfl
    content := rfl
    signatureInfo := rfl
    received := rfl }, d.encodeSigned_eq.symm⟩

/-- What is written for a packet is read back as the packet, which covers the same octets. -/
theorem exists_decode_encode (hd : d.WellFormed) (hr : d.received = none)
    (hlen : d.encode.length < 2 ^ 64) : ∃ received,
      decode d.encode = .ok { d with received := some received } ∧ received.wire = d.encode ∧
        received.signedPortion = d.encodeSigned := by
  obtain ⟨received, l, hsigned⟩ := exists_layout hd hr hlen
  refine ⟨received, l.decode, l.encode, ?_⟩
  rw [← hsigned]
  exact l.signedPortion

/-- Decoding undoes encoding: all fields, the octets that the signature covers and the wire are the
same. -/
theorem decode_undoes_encode (hd : d.WellFormed) (hr : d.received = none)
    (hlen : d.encode.length < 2 ^ 64) : ∃ d', decode d.encode = .ok d' ∧
      (d'.name = d.name ∧ d'.metaInfo = d.metaInfo ∧ d'.content = d.content ∧
        d'.signature = d.signature) ∧
      d'.signedPortion = d.signedPortion ∧ d'.encode = d.encode := by
  obtain ⟨received, hdecode, hwire, hsigned⟩ := exists_decode_encode hd hr hlen
  have hcovered : d.signedPortion = d.encodeSigned := by
    unfold Data.signedPortion
    rw [hr]
  refine ⟨_, hdecode, ⟨rfl, rfl, rfl, rfl⟩, ?_, hwire⟩
  rw [hcovered]
  exact hsigned

/-- A packet whose signature information is not read back is not read back either. -/
theorem decode_encode_error {problem : Error} (hn : d.name.WellFormed) (hm : d.metaInfo.WellFormed)
    (hr : d.received = none) (hlen : d.encode.length < 2 ^ 64)
    (hfails : SignatureInfo.decodeValue d.signature.info.encodeValue = .error problem) :
    decode d.encode = .error problem := by
  obtain ⟨-, hname, hcontent, hinfo, -⟩ := short_of_length_encode hr hlen
  obtain ⟨frontElements, hfront, hfrontType, hfrontTold⟩ :=
    exists_front hm hcontent d.name.encode.length
  have htake : Parts.takeAll {} (.read ⟨d.encodeFront ++ (d.signature.info.encode ++
      d.signature.encodeValue), d.name.encode.length⟩) = .error problem := by
    have helement := (Spells.encode Types.signatureInfo hinfo).read d.signature.encodeValue
      (d.name.encode.length + d.encodeFront.length)
    have hne : ¬ Types.signatureInfo = Types.signatureValue := by decide
    unfold SignatureInfo.encode
    rw [hfront.elements_read, Parts.takeAll_foldr hfrontType hfrontTold,
      Elements.read_of_element helement, Parts.takeAll, if_neg hne, Parts.take_info rfl, hfails]
    rfl
  have hcut : d.encodeSigned ++ d.signature.encodeValue = d.name.encode ++
      (d.encodeFront ++ (d.signature.info.encode ++ d.signature.encodeValue)) := by
    simp only [encodeSigned_eq, List.append_assoc]
  have hspellsName : Spells d.name.encode Types.name d.name.encodeComponents := .encode _ hname
  have hfirst := Read.expected_of_spells hspellsName
    (d.encodeFront ++ (d.signature.info.encode ++ d.signature.encodeValue)) 0
  rw [Nat.zero_add] at hfirst
  unfold Data.decode
  rw [single_of_spells (spells_encode hr hlen)]
  dsimp only [bind, Except.bind, Cursor.start]
  rw [hcut, hfirst]
  dsimp only
  rw [Name.decodeValue_encodeComponents hn hname]
  dsimp only
  rw [htake]

/-- A packet of fields that are not the defaults: a key that is fresh for an hour, signed by a named
key for the last second of a year and the leap second behind it. -/
def Sample.fresh : Data :=
  (((({ name := ⟨[.generic [97], ⟨0x36, [1]⟩]⟩ } : Data).setMetaInfo
    ⟨ContentType.key, some (.ofMillis 3600000)⟩).setContent [104, 105]).setSignatureInfo
      (.sha256WithRsa (some (.name ⟨[.generic [98]]⟩))
        (some ⟨⟨1483228799, 0⟩, ⟨1483228799, 1000000000⟩⟩))).setSignatureValue [1, 2, 3]

theorem decode_undoes_encode_sample : Sample.fresh.WellFormed ∧ Sample.fresh.received = none ∧
    Sample.fresh.encode.length < 2 ^ 64 ∧ ∃ d', decode Sample.fresh.encode = .ok d' ∧
      (d'.name = Sample.fresh.name ∧ d'.metaInfo = Sample.fresh.metaInfo ∧
        d'.content = Sample.fresh.content ∧ d'.signature = Sample.fresh.signature) ∧
      d'.signedPortion = Sample.fresh.signedPortion ∧ d'.encode = Sample.fresh.encode := by
  have hname : Sample.fresh.name.WellFormed := by
    intro c hc
    simp only [Sample.fresh, setMetaInfo, setContent, setSignatureInfo, setSignatureValue,
      List.mem_cons, List.not_mem_nil, or_false] at hc
    rcases hc with rfl | rfl <;> exact Component.check_eq_ok_iff.1 rfl
  have hmeta : Sample.fresh.metaInfo.WellFormed := by
    rintro d ⟨⟩
    exact ⟨3600000, by decide, rfl⟩
  have hinfo : Sample.fresh.signature.info.WellFormed := by
    refine ⟨nofun, ?_, ?_⟩
    · rintro k ⟨⟩ c hc
      rw [List.mem_singleton] at hc
      subst hc
      exact Component.check_eq_ok_iff.1 rfl
    · rintro v ⟨⟩
      exact ⟨⟨.inl rfl, by decide⟩, ⟨.inr ⟨rfl, rfl⟩, by decide⟩⟩
  have hd : Sample.fresh.WellFormed := ⟨hname, hmeta, hinfo⟩
  have hlen : Sample.fresh.encode.length < 2 ^ 64 := by decide +kernel
  exact ⟨hd, rfl, hlen, decode_undoes_encode hd rfl hlen⟩

/-- The packet that is built anew of the fields, one after the other. -/
def rebuilt (d : Data) : Data :=
  (((({ name := d.name } : Data).setMetaInfo d.metaInfo).setContent d.content).setSignatureInfo
    d.signature.info).setSignatureValue d.signature.value

namespace Layout

variable (l : Layout wire d)

theorem decode_info : SignatureInfo.decodeValue l.info.value = .ok d.signature.info := by
  obtain ⟨⟨s, hs, htold⟩, -⟩ := Parts.foldlM_take_info_last l.take_signed l.info_type
  cases l.signatureInfo.symm.trans htold
  exact hs

theorem tells : Tells Parts.take l.nameWire.length (l.signed ++ l.loose) {} l.toldLast :=
  ⟨_, l.spells_all, l.take_all⟩

include l

theorem wellFormed (hyears : ∀ v, d.signature.info.validity? = some v → v.FourDigitYears) :
    d.WellFormed := by
  have hmeta : l.toldLast.metaInfo.WellFormed := by
    refine l.tells.invariant (P := fun p => p.metaInfo.WellFormed) nofun ?_
    intro p e p' _ htake hp
    have htold := (Parts.take_ok htake).metaInfo
    split at htold
    · exact MetaInfo.wellFormed_of_decodeValue htold
    · rw [htold]
      exact hp
  refine ⟨(Name.decodeValue_ok l.decode_name).1, ?_, ?_⟩
  · rw [l.metaInfo]
    exact hmeta
  · exact (SignatureInfo.decodeValue_ok l.decode_info hyears).1

/-- Content and signature information share no octets of the wire. -/
theorem length_content_add_info :
    (if d.content.isEmpty then [] else Tlv.encode Types.content d.content).length +
      l.info.value.length ≤ l.signed.length + l.loose.length := by
  have hmem : l.info ∈ (l.signedElements ++ [l.info]) ++ l.looseElements := by simp
  have hinfo := Spells.length_le_encode l.info.type l.info.value
  have hlength : (l.signed ++ l.loose).length = l.signed.length + l.loose.length :=
    List.length_append
  cases hlast : lastOf Types.content ((l.signedElements ++ [l.info]) ++ l.looseElements) with
  | none =>
    have hnone : d.content = [] := by
      rw [l.content]
      exact Parts.foldlM_take_content l.take_all (lastOf_eq_none.1 hlast)
    have := l.spells_all.length_of_mem hmem
    simp only [hnone, List.isEmpty_nil, if_true, List.length_nil]
    omega
  | some e =>
    obtain ⟨htype, front, back, hsplit, -⟩ := lastOf_eq_some hlast
    have hvalue : e.value = d.content := by
      rw [l.content]
      exact Parts.foldlM_take_lastContent l.take_all hlast
    have hcontent : e ∈ (l.signedElements ++ [l.info]) ++ l.looseElements := by
      rw [hsplit]
      simp
    have hne : e.type ≠ l.info.type := by
      rw [htype, l.info_type]
      decide
    have hboth := l.spells_all.length_of_mem_of_mem hcontent hmem hne
    rw [htype, hvalue] at hboth
    split
    · rw [List.length_nil]
      omega
    · omega

/-- What is built anew is written in not many more octets than were read. -/
theorem length_encode_rebuilt_le
    (hyears : ∀ v, d.signature.info.validity? = some v → v.FourDigitYears) :
    d.rebuilt.encode.length ≤ wire.length + 400 := by
  have hname := (Name.decodeValue_ok l.decode_name).2
  have hinfo := (SignatureInfo.decodeValue_ok l.decode_info hyears).2
  have hboth := l.length_content_add_info
  obtain ⟨nameHeader, hnameWire⟩ := l.spells_name.suffix
  obtain ⟨valueHeader, hvalueWire⟩ := l.spells_value.suffix
  have hwire : wire.length = l.header.length + (l.nameWire.length + (l.signed.length +
      (l.loose.length + (l.valueWire.length + l.ignored.length)))) := by
    have := congrArg List.length l.wire_eq
    simpa only [List.length_append] using this
  have hnameLength := congrArg List.length hnameWire
  have hvalueLength := congrArg List.length hvalueWire
  rw [List.length_append] at hnameLength hvalueLength
  have hmetaEncode : (if d.metaInfo.isDefault then [] else d.metaInfo.encode).length ≤ 70 := by
    split
    · simp
    · exact MetaInfo.length_encode_le _
  have hnameEncode := Tlv.length_encode_le Types.name d.name.encodeComponents
  have hinfoEncode := Tlv.length_encode_le Types.signatureInfo d.signature.info.encodeValue
  have hvalueEncode := Tlv.length_encode_le Types.signatureValue d.signature.value
  have hbody := Tlv.length_encode_le Types.data
    (d.rebuilt.encodeSigned ++ d.rebuilt.signature.encodeValue)
  have hlength : (d.rebuilt.encodeSigned ++ d.rebuilt.signature.encodeValue).length =
      d.name.encode.length + ((if d.metaInfo.isDefault then [] else d.metaInfo.encode).length +
        ((if d.content.isEmpty then [] else Tlv.encode Types.content d.content).length +
          d.signature.info.encode.length)) + d.signature.encodeValue.length := by
    simp only [encodeSigned, List.length_append]
    rfl
  rw [encode_of_fresh rfl]
  unfold Name.encode SignatureInfo.encode Signature.encodeValue at hlength
  unfold Signature.encodeValue at hbody ⊢
  omega

end Layout

end Data

/-- Whatever octets a packet, an Interest with its nonce or a signature information was read from:
written anew from its fields, it is read back as it was. -/
theorem reencode_of_decode (wire : Bytes) (hlen : wire.length < 2 ^ 63) :
    (∀ d, Data.decode wire = .ok d →
      (∀ v, d.signature.info.validity? = some v → v.FourDigitYears) →
      ∃ d', Data.decode d.rebuilt.encode = .ok d' ∧ d'.name = d.name ∧ d'.metaInfo = d.metaInfo ∧
        d'.content = d.content ∧ d'.signature = d.signature) ∧
      (∀ i fresh, Interest.decode wire = .ok i → i.nonce ≠ none →
        Interest.decode (i.encode fresh) = .ok i) ∧
      ∀ s, SignatureInfo.decodeValue wire = .ok s → (∀ v, s.validity? = some v → v.FourDigitYears) →
        ∃ e, single Types.signatureInfo s.encode = .ok e ∧
          SignatureInfo.decodeValue e.value = .ok s := by
  refine ⟨?_, ?_, ?_⟩
  · intro d hd hyears
    obtain ⟨l⟩ := Data.layout_of_decode hd
    have hwf := l.wellFormed hyears
    have hshort := l.length_encode_rebuilt_le hyears
    have hrebuilt : d.rebuilt.WellFormed := ⟨hwf.name, hwf.metaInfo, hwf.info⟩
    obtain ⟨received, hdecode, -⟩ := Data.exists_decode_encode hrebuilt rfl (by omega)
    exact ⟨_, hdecode, rfl, rfl, rfl, rfl⟩
  · intro i fresh hi hnonce
    obtain ⟨hwf, hname⟩ := Interest.decode_ok hi
    have hshort := Interest.length_encode_le i fresh
    obtain ⟨n, hn⟩ := Option.ne_none_iff_exists'.1 hnonce
    have hsame : { i with nonce := some (i.nonce.getD fresh) } = i := by
      rw [hn, Option.getD_some, ← hn]
    rw [Interest.decode_encode hwf (by omega), hsame]
  · intro s hs hyears
    obtain ⟨hwf, hvalue⟩ := SignatureInfo.decodeValue_ok hs hyears
    have hshort : s.encodeValue.length < 2 ^ 64 := by omega
    exact ⟨_, single_of_spells (.encode _ hshort), SignatureInfo.decodeValue_encodeValue hwf hshort⟩

/-- A signature information in unusual octets: a long type, a key locator given twice, an unknown
element, and a period from a leap second on, with blanks in the time at its end. -/
def Sample.laxInfo : Bytes :=
  [27, 2, 0, 1, 28, 4, 29, 1, 5, 255, 28, 4, 29, 1, 5, 255, 224, 1, 7, 253, 0, 253, 39,
    253, 0, 254, 15, 50, 48, 49, 54, 49, 50, 51, 49, 84, 50, 51, 53, 57, 54, 48,
    253, 0, 255, 15, 50, 48, 49, 55, 32, 49, 32, 49, 84, 32, 48, 32, 48, 32, 48, 9]

def Sample.laxData : Bytes :=
  [6, 93, 7, 253, 0, 3, 8, 1, 97, 20, 8, 24, 2, 0, 0, 25, 2, 0, 9, 21, 1, 1, 21, 1, 2, 240,
    0, 22, 62] ++ Sample.laxInfo ++ [23, 1, 7, 99]

/-- An Interest with the default lifetime, a flag given twice, once with a value, and an unknown
element. -/
def Sample.laxInterest : Bytes :=
  [5, 253, 0, 24, 7, 253, 0, 3, 8, 1, 97, 33, 0, 33, 1, 9, 10, 4, 1, 2, 3, 4, 240, 0,
    12, 2, 15, 160]

theorem reencode_of_decode_sample :
    (∃ s d, SignatureInfo.decodeValue Sample.laxInfo = .ok s ∧ Data.decode Sample.laxData = .ok d ∧
      d.signature.info = s ∧ (∀ v, s.validity? = some v → v.FourDigitYears) ∧
      (∃ e, single Types.signatureInfo s.encode = .ok e ∧
        SignatureInfo.decodeValue e.value = .ok s) ∧
      ∃ d', Data.decode d.rebuilt.encode = .ok d' ∧ d'.name = d.name ∧ d'.metaInfo = d.metaInfo ∧
        d'.content = d.content ∧ d'.signature = d.signature) ∧
      ∃ i, Interest.decode Sample.laxInterest = .ok i ∧ i.nonce ≠ none ∧
        Interest.decode (i.encode 0) = .ok i := by
  let s : SignatureInfo := .sha256WithRsa (some (.digest [5]))
    (some ⟨⟨1483228799, 1000000000⟩, ⟨1483228800, 0⟩⟩)
  let d : Data := ⟨⟨[.generic [97]]⟩, ⟨ContentType.blob, some (.ofMillis 9)⟩, [2], ⟨s, [7]⟩,
    some ⟨Sample.laxData, 2, 91⟩⟩
  let i : Interest := { name := ⟨[.generic [97]]⟩, canBePrefix := true, nonce := some 0x01020304 }
  have hs : SignatureInfo.decodeValue Sample.laxInfo = .ok s := by decide +kernel
  have hd : Data.decode Sample.laxData = .ok d := by decide +kernel
  have hi : Interest.decode Sample.laxInterest = .ok i := by decide +kernel
  have hyears : ∀ v, s.validity? = some v → v.FourDigitYears := by
    rintro v ⟨⟩
    exact ⟨by decide, by decide⟩
  obtain ⟨-, -, hinfo⟩ := reencode_of_decode Sample.laxInfo (by decide)
  obtain ⟨hdata, -, -⟩ := reencode_of_decode Sample.laxData (by decide)
  obtain ⟨-, hinterest, -⟩ := reencode_of_decode Sample.laxInterest (by decide)
  refine ⟨⟨s, d, hs, hd, rfl, hyears, hinfo s hs hyears, hdata d hd hyears⟩, i, hi, ?_, ?_⟩
  · exact nofun
  · exact hinterest i 0 hi nofun

end PacketTrust
