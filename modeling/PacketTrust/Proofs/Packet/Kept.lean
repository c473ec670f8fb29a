import PacketTrust.Proofs.Packet.RoundTrip
import PacketTrust.Signer

/-! Packets that are made or read and then changed, in any order. Every change drops the wire that
was kept, so that a packet that keeps one was read from it as it is. The signed octets are the same
part of the wire either way. -/

namespace PacketTrust

namespace Tlv

variable {type : UInt64} {value : Bytes} {e : Element} {front back : List Element}

theorem lastOf_append_cons (he : e.type = type) (hback : ∀ e ∈ back, e.type ≠ type) :
    lastOf type (front ++ e :: back) = some e := by
  have hnone : back.reverse.find? (·.type = type) = none := by
    simpa using hback
  rw [lastOf, List.findRev?_eq_find?_reverse]
  simp [hnone, he]

theorem SpellsAll.unless (type : UInt64) (skip : Bool) (h : value.length < 2 ^ 64) (q : Nat) :
    ∃ elements, SpellsAll q (if skip then [] else encode type value) elements ∧
      ∀ e ∈ elements, e.type = type := by
  cases skip with
  | true => exact ⟨[], .nil q, by simp⟩
  | false => exact ⟨_, .single (.encode type h) q, by simp⟩

end Tlv

namespace Data

open Tlv

inductive Change where
  | name (name : Name)
  | metaInfo (metaInfo : MetaInfo)
  | content (content : Bytes)
  | signatureInfo (info : SignatureInfo)
  | signatureValue (value : Bytes)
  | sign (signer : Signer)

def Change.apply (d : Data) : Change → Data
  | .name n => d.setName n
  | .metaInfo m => d.setMetaInfo m
  | .content x => d.setContent x
  | .signatureInfo s => d.setSignatureInfo s
  | .signatureValue v => d.setSignatureValue v
  | .sign s => s.signData d

theorem Change.received_apply (d : Data) (c : Change) : (c.apply d).received = none := by
  cases c <;> rfl

/-- The packets that are made of a name or decoded, and then changed. -/
inductive Reached : Data → Prop
  | made (name : Name) : Reached { name }
  | decoded {wire : Bytes} {d : Data} : decode wire = .ok d → Reached d
  | changed {d : Data} (c : Change) : Reached d → Reached (c.apply d)

variable {d : Data} {wire : Bytes}

/-- A wire is kept only as long as nothing was changed since it was decoded. -/
theorem Reached.decode_received (h : Reached d) {r : Received} (hr : d.received = some r) :
    decode r.wire = .ok d := by
  cases h with
  | made name => cases hr
  | decoded hdecode =>
    obtain ⟨l⟩ := layout_of_decode hdecode
    cases l.received.symm.trans hr
    exact hdecode
  | changed c _ =>
    rw [Change.received_apply] at hr
    cases hr

/-- A range of a wire goes from the first octet of the name to the last one of the last signature
information before the signature value, as they are found by reading. -/
def SignedRange (wire : Bytes) (start stop : Nat) : Prop :=
  ∃ outer name elements last value rest, single Types.data wire = .ok outer ∧
    Elements.ofBytes outer.value = .next name (elements.foldr .next (.next value rest)) ∧
    name.type = Types.name ∧ value.type = Types.signatureValue ∧
    (∀ e ∈ elements, e.type ≠ Types.signatureValue) ∧
    lastOf Types.signatureInfo elements = some last ∧
    start = outer.stop - outer.value.length + name.start ∧
    stop = outer.stop - outer.value.length + last.stop

/-- The range is told by the octets that a wire is cut into, whatever its elements say. -/
theorem signedRange_of_spells
    {header nameWire nameValue signed loose valueWire value ignored : Bytes}
    {front back : List Element} {info : Element}
    (hwire : wire = header ++ (nameWire ++ (signed ++ (loose ++ (valueWire ++ ignored)))))
    (houter : Spells wire Types.data (nameWire ++ (signed ++ (loose ++ (valueWire ++ ignored)))))
    (hname : Spells nameWire Types.name nameValue)
    (hsigned : SpellsAll nameWire.length signed (front ++ [info]))
    (hloose : SpellsAll (nameWire.length + signed.length) loose back)
    (hvalue : Spells valueWire Types.signatureValue value)
    (hno : ∀ e ∈ (front ++ [info]) ++ back, e.type ≠ Types.signatureValue)
    (hinfo : info.type = Types.signatureInfo) (hback : ∀ e ∈ back, e.type ≠ Types.signatureInfo) :
    SignedRange wire header.length (header.length + (nameWire ++ signed).length) := by
  have helements : Elements.ofBytes (nameWire ++ (signed ++ (loose ++ (valueWire ++ ignored)))) =
      .next ⟨Types.name, nameValue, 0, nameWire.length⟩
        (((front ++ [info]) ++ back).foldr .next (.read ⟨valueWire ++ ignored,
          nameWire.length + (signed ++ loose).length⟩)) := by
    have hfirst := hname.read (signed ++ (loose ++ (valueWire ++ ignored))) 0
    rw [Nat.zero_add, ← List.append_assoc signed] at hfirst
    rw [← List.append_assoc signed]
    show Elements.read ⟨_, 0⟩ = _
    rw [Elements.read_of_element hfirst, (hsigned.append hloose).elements_read]
  rw [Elements.read_of_element (hvalue.read ignored _)] at helements
  have hlast : lastOf Types.signatureInfo ((front ++ [info]) ++ back) = some info := by
    rw [List.append_assoc]
    exact lastOf_append_cons hinfo hback
  have hoffset : wire.length -
      (nameWire ++ (signed ++ (loose ++ (valueWire ++ ignored)))).length = header.length := by
    have hlength := congrArg List.length hwire
    rw [List.length_append] at hlength
    omega
  refine ⟨_, _, _, info, _, _, single_of_spells houter, helements, rfl, rfl, hno, hlast, ?_, ?_⟩
  · rw [hoffset, Nat.add_zero]
  · rw [hoffset, hsigned.stop_last, List.length_append]

theorem Layout.signedRange (l : Layout wire d) :
    SignedRange wire l.header.length (l.header.length + (l.nameWire ++ l.signed).length) :=
  signedRange_of_spells l.wire_eq l.spells l.spells_name l.spells_signed l.spells_loose
    l.spells_value l.not_value l.info_type l.loose_type

/-- What is written between the name and the signature information are at most two elements. -/
theorem Short.exists_front (hd : d.Short) (q : Nat) : ∃ elements,
    SpellsAll q d.encodeFront elements ∧
      ∀ e ∈ elements, e.type = Types.metaInfo ∨ e.type = Types.content := by
  have hmeta : d.metaInfo.encodeValue.length < 2 ^ 64 := by
    have hle := Spells.length_le_encode Types.metaInfo d.metaInfo.encodeValue
    have hlength := MetaInfo.length_encode_le d.metaInfo
    unfold MetaInfo.encode at hlength
    omega
  obtain ⟨metaElements, hmetaAll, hmetaType⟩ :=
    SpellsAll.unless Types.metaInfo d.metaInfo.isDefault hmeta q
  obtain ⟨contentElements, hcontentAll, hcontentType⟩ :=
    SpellsAll.unless Types.content d.content.isEmpty hd.content
      (q + (if d.metaInfo.isDefault then [] else d.metaInfo.encode).length)
  refine ⟨metaElements ++ contentElements, hmetaAll.append hcontentAll, ?_⟩
  intro e he
  rcases List.mem_append.1 he with he | he
  · exact .inl (hmetaType e he)
  · exact .inr (hcontentType e he)

/-- The signed fields of a packet that keeps no wire are written where a reader looks for them, even
if it could not make out what they say. -/
theorem exists_signedRange_encode (hr : d.received = none) (hlen : d.encode.length < 2 ^ 64) :
    ∃ header, d.encode = header ++ (d.encodeSigned ++ d.signature.encodeValue) ∧
      SignedRange d.encode header.length (header.length + d.encodeSigned.length) := by
  have hshort := short_of_length_encode hr hlen
  have hspells := spells_encode hr hlen
  obtain ⟨header, hheader⟩ := hspells.suffix
  obtain ⟨front, hfront, htypes⟩ := hshort.exists_front d.name.encode.length
  have hinfo := SpellsAll.single (.encode Types.signatureInfo hshort.info)
    (d.name.encode.length + d.encodeFront.length)
  have hcut : d.encodeSigned ++ d.signature.encodeValue = d.name.encode ++
      ((d.encodeFront ++ d.signature.info.encode) ++ ([] ++ (d.signature.encodeValue ++ []))) := by
    simp only [encodeSigned_eq, List.append_assoc, List.append_nil, List.nil_append]
  refine ⟨header, hheader, ?_⟩
  rw [hcut] at hspells hheader
  rw [encodeSigned_eq]
  refine signedRange_of_spells hheader hspells (.encode Types.name hshort.name)
    (hfront.append hinfo) (.nil _) (.encode Types.signatureValue hshort.value) ?_ rfl nofun
  intro e he
  simp only [List.append_nil, List.mem_append, List.mem_singleton] at he
  rcases he with he | rfl
  · rcases htypes e he with htype | htype <;> rw [htype] <;> decide
  · show Types.signatureInfo ≠ Types.signatureValue
    decide

theorem take_drop_middle (header middle rest : Bytes) :
    ((header ++ (middle ++ rest)).take (header.length + middle.length)).drop header.length =
      middle := by
  rw [List.take_length_add_append, List.take_left, List.drop_left]

/-- A wire that is kept is laid out for the packet, and its range is that of the signed octets. -/
theorem Reached.exists_layout (h : Reached d) {r : Received} (hr : d.received = some r) :
    ∃ l : Layout r.wire d, r.signedStart = l.header.length ∧
      r.signedStop = l.header.length + (l.nameWire ++ l.signed).length := by
  obtain ⟨l⟩ := layout_of_decode (h.decode_received hr)
  have hrange := Option.some.inj (hr.symm.trans l.received)
  rw [← List.length_append] at hrange
  exact ⟨l, congrArg Received.signedStart hrange, congrArg Received.signedStop hrange⟩

theorem Reached.signedStart_lt (h : Reached d) {r : Received} (hr : d.received = some r) :
    r.signedStart < r.signedStop ∧ r.signedStop ≤ r.wire.length := by
  obtain ⟨l, hstart, hstop⟩ := h.exists_layout hr
  have hpos := l.spells_name.length_pos
  have hlength := congrArg List.length l.wire_eq
  simp only [List.length_append] at hlength hstop
  omega

theorem Reached.signedRange_received (h : Reached d) {r : Received} (hr : d.received = some r) :
    d.encode = r.wire ∧ SignedRange r.wire r.signedStart r.signedStop ∧
      d.signedPortion = (r.wire.take r.signedStop).drop r.signedStart := by
  obtain ⟨l, hstart, hstop⟩ := h.exists_layout hr
  refine ⟨l.encode, ?_, ?_⟩
  · rw [hstart, hstop]
    exact l.signedRange
  · unfold signedPortion
    rw [hr]
    rfl

theorem signedRange_of_fresh (hr : d.received = none) (hlen : d.encode.length < 2 ^ 64) :
    ∃ start stop, SignedRange d.encode start stop ∧ start < stop ∧ stop ≤ d.encode.length ∧
      d.signedPortion = (d.encode.take stop).drop start := by
  obtain ⟨header, hheader, hrange⟩ := exists_signedRange_encode hr hlen
  have hpos : 0 < d.encodeSigned.length := by
    have hname := (Spells.encode Types.name (short_of_length_encode hr hlen).name).length_pos
    have hsplit := congrArg List.length d.encodeSigned_eq
    unfold Name.encode at hsplit
    rw [List.length_append] at hsplit
    omega
  have hlength := congrArg List.length hheader
  simp only [List.length_append] at hlength
  refine ⟨_, _, hrange, by omega, by omega, ?_⟩
  have hsigned : d.signedPortion = d.encodeSigned := by
    unfold signedPortion
    rw [hr]
  rw [hsigned, hheader, take_drop_middle]

/-- The wire that a packet keeps is decoded as the packet, and its signed range stands in it; else
the fields are written. Either way the signed octets go from the name to the last signature
information before the signature value. -/
theorem received_never_stale (h : Reached d) :
    (∀ r, d.received = some r →
      r.signedStart < r.signedStop ∧ r.signedStop ≤ r.wire.length ∧ decode r.wire = .ok d) ∧
      (d.received = none →
        d.encode = Tlv.encode Types.data (d.encodeSigned ++ d.signature.encodeValue)) ∧
      (d.encode.length < 2 ^ 64 → ∃ start stop, SignedRange d.encode start stop ∧
        start < stop ∧ stop ≤ d.encode.length ∧
        d.signedPortion = (d.encode.take stop).drop start ∧
        ∀ r, d.received = some r → start = r.signedStart ∧ stop = r.signedStop) := by
  refine ⟨fun r hr => ?_, encode_of_fresh, fun hlen => ?_⟩
  · obtain ⟨hlt, hle⟩ := h.signedStart_lt hr
    exact ⟨hlt, hle, h.decode_received hr⟩
  -- A packet with a wire of its own is encoded as that wire, any other one anew.
  cases hr : d.received with
  | some r =>
    obtain ⟨hlt, hle⟩ := h.signedStart_lt hr
    obtain ⟨hencode, hrange, hsigned⟩ := h.signedRange_received hr
    rw [hencode]
    refine ⟨r.signedStart, r.signedStop, hrange, hlt, hle, hsigned, ?_⟩
    rintro r' ⟨⟩
    exact ⟨rfl, rfl⟩
  | none =>
    obtain ⟨start, stop, hrange, hlt, hle, hsigned⟩ := signedRange_of_fresh hr hlen
    exact ⟨start, stop, hrange, hlt, hle, hsigned, nofun⟩

def Sample.laxWire : Bytes := [6, 253, 0, 93] ++ Sample.laxData.drop 2

def Sample.lax : Data where
  name := ⟨[.generic [97]]⟩
  metaInfo := ⟨ContentType.blob, some (.ofMillis 9)⟩
  content := [2]
  signature :=
    ⟨.sha256WithRsa (some (.digest [5])) (some ⟨⟨1483228799, 1000000000⟩, ⟨1483228800, 0⟩⟩), [7]⟩
  received := some ⟨Sample.laxWire, 4, 93⟩

def Sample.revised : Data :=
  Change.apply (Change.apply Sample.lax (.sign ⟨⟨[.generic [107]]⟩, 1⟩)) (.signatureValue [1, 2])

theorem received_never_stale_sample : Reached Sample.lax ∧ Reached Sample.revised ∧
    Sample.lax.encode.length < 2 ^ 64 ∧ Sample.revised.encode.length < 2 ^ 64 ∧
      (decode Sample.laxWire = .ok Sample.lax ∧ SignedRange Sample.lax.encode 4 93) ∧
      Sample.revised.received = none ∧ ∃ start stop, SignedRange Sample.revised.encode start stop ∧
        start < stop ∧ Sample.revised.signedPortion =
          (Sample.revised.encode.take stop).drop start := by
  have hdecode : decode Sample.laxWire = .ok Sample.lax := by decide +kernel
  have hlax : Reached Sample.lax := .decoded hdecode
  have hrevised : Reached Sample.revised := .changed _ (.changed _ hlax)
  have hlaxLength : Sample.lax.encode.length < 2 ^ 64 := by decide +kernel
  have hrevisedLength : Sample.revised.encode.length < 2 ^ 64 := by decide +kernel
  obtain ⟨hkept, -, hlaxRange⟩ := received_never_stale hlax
  obtain ⟨-, -, hkeptDecode⟩ := hkept _ rfl
  obtain ⟨start, stop, hrange, -, -, -, hsame⟩ := hlaxRange hlaxLength
  obtain ⟨rfl, rfl⟩ := hsame _ rfl
  obtain ⟨-, -, hrevisedRange⟩ := received_never_stale hrevised
  obtain ⟨start', stop', hrange', hlt, -, hsigned, -⟩ := hrevisedRange hrevisedLength
  exact ⟨hlax, hrevised, hlaxLength, hrevisedLength, ⟨hkeptDecode, hrange⟩, rfl, start',
    stop', hrange', hlt, hsigned⟩

end Data

end PacketTrust
