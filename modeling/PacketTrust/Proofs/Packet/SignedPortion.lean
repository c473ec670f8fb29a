import PacketTrust.Proofs.Packet.Layout

/-! What the signed octets of a Data packet bind. The elements between them and the signature value
are loose: they are read into the packet, but no signature covers them. -/

namespace PacketTrust

open Tlv

def Tlv.Elements.before (type : UInt64) : Elements → List Element
  | .next e rest => if e.type = type then [] else e :: before type rest
  | _ => []

theorem Tlv.Elements.before_foldr {type : UInt64} {elements : List Element}
    (h : ∀ e ∈ elements, e.type ≠ type) (rest : Elements) :
    (elements.foldr .next rest).before type = elements ++ rest.before type := by
  induction elements with
  | nil => rfl
  | cons e elements ih =>
    obtain ⟨hfirst, hmore⟩ := List.forall_mem_cons.1 h
    rw [List.foldr_cons, before, if_neg hfirst, ih hmore]
    rfl

/-- The elements between what is signed and the signature value. -/
def Received.loose (r : Received) : List Element :=
  (Elements.read ⟨r.wire.drop r.signedStop, r.signedStop - r.signedStart⟩).before
    Types.signatureValue

namespace Data

def loose (d : Data) : List Element := d.received.elim [] Received.loose

variable {wire : Bytes} {d : Data}

namespace Layout

theorem received_eq (l : Layout wire d) :
    d.received = some
      ⟨l.header ++ ((l.nameWire ++ l.signed) ++ (l.loose ++ (l.valueWire ++ l.ignored))),
        l.header.length, l.header.length + (l.nameWire ++ l.signed).length⟩ := by
  rw [l.received, List.length_append, List.append_assoc l.nameWire, ← l.wire_eq]

theorem signedPortion (l : Layout wire d) : d.signedPortion = l.nameWire ++ l.signed := by
  rw [Data.signedPortion, l.received_eq]
  show List.drop _ (List.take _ _) = _
  rw [List.take_length_add_append, List.take_left, List.drop_left]

theorem loose_eq (l : Layout wire d) : d.loose = l.looseElements := by
  have hno : ∀ e ∈ l.looseElements, e.type ≠ Types.signatureValue := fun e he =>
    l.not_value e (List.mem_append_right _ he)
  rw [Data.loose, l.received_eq, Option.elim_some, Received.loose, List.drop_length_add_append,
    List.drop_left, Nat.add_sub_cancel_left, List.length_append,
    l.spells_loose.elements_read, Elements.before_foldr hno,
    Elements.read_of_element (l.spells_value.read l.ignored _), Elements.before, if_pos rfl,
    List.append_nil]

/-- The signed octets alone tell the name and everything up to the signature information. -/
theorem same_signed {w₁ w₂ : Bytes} {d₁ d₂ : Data} (l₁ : Layout w₁ d₁) (l₂ : Layout w₂ d₂)
    (h : d₁.signedPortion = d₂.signedPortion) : d₁.name = d₂.name ∧ l₁.told = l₂.told := by
  rw [l₁.signedPortion, l₂.signedPortion] at h
  have hread₁ := l₁.spells_name.read l₁.signed 0
  have hread₂ := l₂.spells_name.read l₂.signed 0
  rw [← h, hread₁] at hread₂
  injection hread₂ with helement hcursor
  injection helement with _ hvalue _ hstop
  injection hcursor with hsigned
  constructor
  · have hname := l₁.decode_name
    rw [hvalue, l₂.decode_name] at hname
    injection hname with hname
    exact hname.symm
  · have hlength : l₁.nameWire.length = l₂.nameWire.length := by omega
    have hspells := l₁.spells_signed
    rw [hsigned, hlength] at hspells
    have htold := l₁.take_signed
    rw [hspells.unique l₂.spells_signed, l₂.take_signed] at htold
    injection htold with htold
    exact htold.symm

theorem content_eq (l : Layout wire d) :
    (lastOf Types.content d.loose = none → d.content = l.told.content) ∧
      ∀ e ∈ lastOf Types.content d.loose, e.value = d.content := by
  rw [l.content, l.loose_eq]
  refine ⟨fun hnone => ?_, fun e he => ?_⟩
  · exact Parts.foldlM_take_content l.take_loose (lastOf_eq_none.1 hnone)
  · exact Parts.foldlM_take_lastContent l.take_loose he

theorem metaInfo_eq (l : Layout wire d) :
    (lastOf Types.metaInfo d.loose = none → d.metaInfo = l.told.metaInfo) ∧
      ∀ e ∈ lastOf Types.metaInfo d.loose, MetaInfo.decodeValue e.value = .ok d.metaInfo := by
  rw [l.metaInfo, l.loose_eq]
  refine ⟨fun hnone => ?_, fun e he => ?_⟩
  · exact Parts.foldlM_take_metaInfo l.take_loose (lastOf_eq_none.1 hnone)
  · exact Parts.foldlM_take_lastMetaInfo l.take_loose he

end Layout

theorem eq_iff_last {α : Type} (tells : Element → α → Prop)
    (htells : ∀ e a b, tells e a → tells e b → a = b) {o₁ o₂ : Option Element} {a a₁ a₂ : α}
    (h₁ : (o₁ = none → a₁ = a) ∧ ∀ e ∈ o₁, tells e a₁)
    (h₂ : (o₂ = none → a₂ = a) ∧ ∀ e ∈ o₂, tells e a₂) :
    a₁ = a₂ ↔ (∀ e ∈ o₁, tells e a₂) ∧ ∀ e ∈ o₂, tells e a₁ := by
  constructor
  · rintro rfl
    exact ⟨h₁.2, h₂.2⟩
  rintro ⟨htells₁, htells₂⟩
  cases o₁ with
  | some e => exact htells e _ _ (h₁.2 e rfl) (htells₁ e rfl)
  | none =>
    cases o₂ with
    | some e => exact htells e _ _ (htells₂ e rfl) (h₂.2 e rfl)
    | none => exact (h₁.1 rfl).trans (h₂.1 rfl).symm

/-- Packets with the same signed octets agree on name and signature information, and on content and
meta information exactly if no loose element says otherwise. -/
theorem signedPortion_binds {w₁ w₂ : Bytes} {d₁ d₂ : Data} (h₁ : decode w₁ = .ok d₁)
    (h₂ : decode w₂ = .ok d₂) (hsigned : d₁.signedPortion = d₂.signedPortion) :
    d₁.name = d₂.name ∧ d₁.signature.info = d₂.signature.info ∧
      (d₁.metaInfo = d₂.metaInfo ↔
        (∀ e ∈ lastOf Types.metaInfo d₁.loose, MetaInfo.decodeValue e.value = .ok d₂.metaInfo) ∧
        ∀ e ∈ lastOf Types.metaInfo d₂.loose, MetaInfo.decodeValue e.value = .ok d₁.metaInfo) ∧
      (d₁.content = d₂.content ↔
        (∀ e ∈ lastOf Types.content d₁.loose, e.value = d₂.content) ∧
        ∀ e ∈ lastOf Types.content d₂.loose, e.value = d₁.content) := by
  obtain ⟨l₁⟩ := layout_of_decode h₁
  obtain ⟨l₂⟩ := layout_of_decode h₂
  obtain ⟨hname, htold⟩ := l₁.same_signed l₂ hsigned
  refine ⟨hname, ?_, ?_, ?_⟩
  · have hinfo := l₁.signatureInfo
    rw [htold, l₂.signatureInfo] at hinfo
    injection hinfo with hinfo
    exact hinfo.symm
  · have hmeta₁ := l₁.metaInfo_eq
    rw [htold] at hmeta₁
    refine eq_iff_last (fun e m => MetaInfo.decodeValue e.value = .ok m) (fun e a b ha hb => ?_)
      hmeta₁ l₂.metaInfo_eq
    injection ha.symm.trans hb
  · have hcontent₁ := l₁.content_eq
    rw [htold] at hcontent₁
    exact eq_iff_last (fun e x => e.value = x) (fun e a b ha hb => ha.symm.trans hb)
      hcontent₁ l₂.content_eq

/-- A packet with its content among the signed octets, and one with another content behind them. -/
def Sample.plain : Data where
  name := ⟨[.generic [97]]⟩
  content := [104, 101, 108, 108, 111]
  received := some
    ⟨[6, 19, 7, 3, 8, 1, 97, 21, 5, 104, 101, 108, 108, 111, 22, 3, 27, 1, 0, 23, 0], 2, 19⟩

@[inherit_doc Sample.plain]
def Sample.stuffed : Data where
  name := ⟨[.generic [97]]⟩
  content := [101, 118, 105, 108]
  received := some
    ⟨[6, 25, 7, 3, 8, 1, 97, 21, 5, 104, 101, 108, 108, 111, 22, 3, 27, 1, 0, 21, 4, 101, 118, 105,
      108, 23, 0], 2, 19⟩

theorem signedPortion_binds_sample :
    decode Sample.plain.encode = .ok Sample.plain ∧
      decode Sample.stuffed.encode = .ok Sample.stuffed ∧
      Sample.plain.signedPortion = Sample.stuffed.signedPortion ∧
      Sample.plain.metaInfo = Sample.stuffed.metaInfo ∧
      Sample.plain.content ≠ Sample.stuffed.content := by
  have h₁ : decode Sample.plain.encode = .ok Sample.plain := by decide +kernel
  have h₂ : decode Sample.stuffed.encode = .ok Sample.stuffed := by decide +kernel
  have hsigned : Sample.plain.signedPortion = Sample.stuffed.signedPortion := by decide
  have hloose₁ : Sample.plain.loose = [] := by decide +kernel
  have hloose₂ : Sample.stuffed.loose = [⟨Types.content, [101, 118, 105, 108], 17, 23⟩] := by
    decide +kernel
  obtain ⟨-, -, hmeta, hcontent⟩ := signedPortion_binds h₁ h₂ hsigned
  rw [hloose₁, hloose₂] at hmeta hcontent
  refine ⟨h₁, h₂, hsigned, hmeta.2 ⟨?_, ?_⟩, fun h => ?_⟩
  · rintro e ⟨⟩
  · rintro e ⟨⟩
  · cases (hcontent.1 h).2 _ rfl

/-- What the signature covers and its value, with a meta information and a content in between. -/
def overruled (d : Data) (m x : Bytes) : Bytes :=
  d.signedPortion ++
    (Tlv.encode Types.metaInfo m ++ (Tlv.encode Types.content x ++ d.signature.encodeValue))

/-- What is put behind the signed octets of a packet is decoded in place of what they tell. -/
theorem decode_overruled {m x : Bytes} {metaInfo : MetaInfo} (h : decode wire = .ok d)
    (hm : MetaInfo.decodeValue m = .ok metaInfo) (hsize : (d.overruled m x).length < 2 ^ 64) :
    ∃ d', decode (Tlv.encode Types.data (d.overruled m x)) = .ok d' ∧
      d'.signedPortion = d.signedPortion ∧ d'.signature = d.signature ∧ d'.name = d.name ∧
      d'.metaInfo = metaInfo ∧ d'.content = x := by
  obtain ⟨l⟩ := layout_of_decode h
  have hmLength := Spells.length_le_encode Types.metaInfo m
  have hxLength := Spells.length_le_encode Types.content x
  have hvLength := Spells.length_le_encode Types.signatureValue d.signature.value
  have hlength : (d.overruled m x).length = d.signedPortion.length +
      ((Tlv.encode Types.metaInfo m).length + ((Tlv.encode Types.content x).length +
        (Tlv.encode Types.signatureValue d.signature.value).length)) := by
    simp only [overruled, Signature.encodeValue, List.length_append]
  have hmSpells : Spells _ Types.metaInfo m := Spells.encode _ (by omega)
  have hxSpells : Spells _ Types.content x := Spells.encode _ (by omega)
  have hvSpells : Spells _ Types.signatureValue d.signature.value := Spells.encode _ (by omega)
  have hbody : d.overruled m x = l.nameWire ++ (l.signed ++
      ((Tlv.encode Types.metaInfo m ++ Tlv.encode Types.content x) ++
        (d.signature.encodeValue ++ []))) := by
    rw [overruled, l.signedPortion]
    simp only [List.append_assoc, List.append_nil]
  have hspells := Spells.encode Types.data hsize
  obtain ⟨header, hheader⟩ := hspells.suffix
  generalize Tlv.encode Types.data (d.overruled m x) = wire' at hspells hheader ⊢
  rw [hbody] at hspells hheader
  let l' : Layout wire' ⟨d.name, metaInfo, x, d.signature,
      some ⟨wire', header.length, header.length + (l.nameWire.length + l.signed.length)⟩⟩ :=
    { l with
      header
      loose := _
      valueWire := _
      ignored := []
      looseElements := _
      toldLast := { l.told with metaInfo, content := x }
      wire_eq := hheader
      spells := hspells
      spells_loose := .cons hmSpells (.single hxSpells _)
      spells_value := hvSpells
      not_value := by
        have hsigned := fun e he => l.not_value e (List.mem_append_left _ he)
        rw [List.forall_mem_append]
        refine ⟨hsigned, ?_⟩
        simp only [List.forall_mem_cons]
        decide
      loose_type := by
        simp only [List.forall_mem_cons]
        decide
      take_loose := by
        rw [List.foldlM_cons, Parts.take_metaInfo rfl hm]
        show List.foldlM _ _ _ = _
        rw [List.foldlM_cons, Parts.take_content rfl]
        rfl
      metaInfo := rfl
      content := rfl
      received := rfl }
  exact ⟨_, l'.decode, l'.signedPortion.trans l.signedPortion.symm, rfl, rfl, rfl, rfl⟩

end Data

end PacketTrust
