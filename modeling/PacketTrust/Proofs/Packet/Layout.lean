import PacketTrust.Packet.Data
import PacketTrust.Proofs.Tlv.Spelling

/-! How the wire of a Data packet is laid out: the signed elements from the name to the last
signature information, the loose elements behind it, the signature value, and what no one reads.
Main statement: a wire is decoded as a packet exactly if it is laid out for it. -/

namespace PacketTrust

namespace Tlv

variable {type : UInt64} {elements : List Element} {e : Element}

def lastOf (type : UInt64) (elements : List Element) : Option Element :=
  elements.findRev? (·.type = type)

theorem lastOf_eq_none : lastOf type elements = none ↔ ∀ e ∈ elements, e.type ≠ type := by
  simp [lastOf]

theorem lastOf_eq_some (h : lastOf type elements = some e) :
    e.type = type ∧ ∃ front back, elements = front ++ e :: back ∧ ∀ e ∈ back, e.type ≠ type := by
  rw [lastOf, List.findRev?_eq_find?_reverse, List.find?_eq_some_iff_append] at h
  obtain ⟨htype, back, front, hrev, hback⟩ := h
  refine ⟨by simpa using htype, front.reverse, back.reverse, ?_, by simpa using hback⟩
  have hall := congrArg List.reverse hrev
  simpa using hall

end Tlv

namespace Data

open Tlv

namespace Parts

variable {p p' : Parts} {e : Element} {elements : List Element}

/-- What one element tells of each part. -/
structure Takes (p : Parts) (e : Element) (p' : Parts) : Prop where
  metaInfo : if e.type = Types.metaInfo then MetaInfo.decodeValue e.value = .ok p'.metaInfo
    else p'.metaInfo = p.metaInfo
  content : if e.type = Types.content then e.value = p'.content else p'.content = p.content
  info : if e.type = Types.signatureInfo then
      (∃ s, SignatureInfo.decodeValue e.value = .ok s ∧ p'.info = some s) ∧
        p'.signedStop = some e.stop
    else p'.info = p.info ∧ p'.signedStop = p.signedStop

theorem take_metaInfo {m : MetaInfo} (ht : e.type = Types.metaInfo)
    (hm : MetaInfo.decodeValue e.value = .ok m) : p.take e = .ok { p with metaInfo := m } := by
  rw [take, if_pos ht, hm]
  rfl

theorem take_content (ht : e.type = Types.content) :
    p.take e = .ok { p with content := e.value } := by
  have hne : e.type ≠ Types.metaInfo := by
    rw [ht]
    decide
  rw [take, if_neg hne, if_pos ht]
  rfl

theorem take_ok (h : p.take e = .ok p') : Takes p e p' := by
  have hmetaContent : Types.metaInfo ≠ Types.content := by decide
  have hmetaInfo : Types.metaInfo ≠ Types.signatureInfo := by decide
  have hcontentInfo : Types.content ≠ Types.signatureInfo := by decide
  unfold take at h
  split at h
  · rename_i ht
    cases hm : MetaInfo.decodeValue e.value with
    | error err => rw [hm] at h; cases h
    | ok m =>
      rw [hm] at h
      cases h
      constructor <;> simp [ht, hm, hmetaContent, hmetaInfo]
  rename_i hmeta
  split at h
  · rename_i ht
    cases h
    constructor <;> simp [ht, hmetaContent.symm, hcontentInfo]
  rename_i hcontent
  split at h
  · rename_i ht
    cases hs : SignatureInfo.decodeValue e.value with
    | error err => rw [hs] at h; cases h
    | ok s =>
      rw [hs] at h
      cases h
      constructor <;> simp [ht, hs, hmetaInfo.symm, hcontentInfo.symm]
  rename_i hinfo
  split at h
  · cases h
  · cases h
    constructor <;> simp [hmeta, hcontent, hinfo]

theorem foldlM_take_cons (h : (e :: elements).foldlM take p = .ok p') :
    ∃ q, p.take e = .ok q ∧ elements.foldlM take q = .ok p' := by
  rw [List.foldlM_cons] at h
  cases hq : p.take e with
  | error err => rw [hq] at h; cases h
  | ok q =>
    rw [hq] at h
    exact ⟨q, rfl, h⟩

theorem foldlM_take_append {more : List Element} (h : (elements ++ more).foldlM take p = .ok p') :
    ∃ q, elements.foldlM take p = .ok q ∧ more.foldlM take q = .ok p' := by
  rw [List.foldlM_append] at h
  cases hq : elements.foldlM take p with
  | error err => rw [hq] at h; cases h
  | ok q =>
    rw [hq] at h
    exact ⟨q, rfl, h⟩

theorem foldlM_take_keeps {β : Type} (f : Parts → β) (h : elements.foldlM take p = .ok p')
    (hkeep : ∀ e ∈ elements, ∀ p p', Takes p e p' → f p' = f p) : f p' = f p := by
  induction elements generalizing p with
  | nil =>
    cases h
    rfl
  | cons e rest ih =>
    obtain ⟨hfirst, hrest⟩ := List.forall_mem_cons.1 hkeep
    obtain ⟨q, hq, h⟩ := foldlM_take_cons h
    exact (ih h hrest).trans (hfirst p q (take_ok hq))

theorem foldlM_take_info (h : elements.foldlM take p = .ok p')
    (hno : ∀ e ∈ elements, e.type ≠ Types.signatureInfo) :
    p'.info = p.info ∧ p'.signedStop = p.signedStop := by
  have hboth := foldlM_take_keeps (fun p => (p.info, p.signedStop)) h fun e he p p' ht => by
    have hinfo := ht.info
    rw [if_neg (hno e he)] at hinfo
    rw [hinfo.1, hinfo.2]
  injection hboth with hinfo hstop
  exact ⟨hinfo, hstop⟩

theorem foldlM_take_metaInfo (h : elements.foldlM take p = .ok p')
    (hno : ∀ e ∈ elements, e.type ≠ Types.metaInfo) : p'.metaInfo = p.metaInfo := by
  apply foldlM_take_keeps (·.metaInfo) h
  intro e he p p' ht
  simpa only [if_neg (hno e he)] using ht.metaInfo

theorem foldlM_take_content (h : elements.foldlM take p = .ok p')
    (hno : ∀ e ∈ elements, e.type ≠ Types.content) : p'.content = p.content := by
  apply foldlM_take_keeps (·.content) h
  intro e he p p' ht
  simpa only [if_neg (hno e he)] using ht.content

/-- A signature information at the end is told, and ends what is signed. -/
theorem foldlM_take_info_last (h : (elements ++ [e]).foldlM take p = .ok p')
    (ht : e.type = Types.signatureInfo) :
    (∃ s, SignatureInfo.decodeValue e.value = .ok s ∧ p'.info = some s) ∧
      p'.signedStop = some e.stop := by
  obtain ⟨q, -, hlast⟩ := foldlM_take_append h
  obtain ⟨r, hr, hnil⟩ := foldlM_take_cons hlast
  cases hnil
  simpa only [if_pos ht] using (take_ok hr).info

theorem foldlM_take_lastContent (h : elements.foldlM take p = .ok p')
    (hlast : lastOf Types.content elements = some e) : e.value = p'.content := by
  obtain ⟨ht, front, back, rfl, hno⟩ := lastOf_eq_some hlast
  obtain ⟨q, -, h⟩ := foldlM_take_append h
  obtain ⟨r, hr, h⟩ := foldlM_take_cons h
  rw [foldlM_take_content h hno]
  simpa only [if_pos ht] using (take_ok hr).content

theorem foldlM_take_lastMetaInfo (h : elements.foldlM take p = .ok p')
    (hlast : lastOf Types.metaInfo elements = some e) :
    MetaInfo.decodeValue e.value = .ok p'.metaInfo := by
  obtain ⟨ht, front, back, rfl, hno⟩ := lastOf_eq_some hlast
  obtain ⟨q, -, h⟩ := foldlM_take_append h
  obtain ⟨r, hr, h⟩ := foldlM_take_cons h
  rw [foldlM_take_metaInfo h hno]
  simpa only [if_pos ht] using (take_ok hr).metaInfo

theorem takeAll_foldr (hno : ∀ e ∈ elements, e.type ≠ Types.signatureValue)
    (h : elements.foldlM take p = .ok p') (rest : Elements) :
    takeAll p (elements.foldr .next rest) = takeAll p' rest := by
  induction elements generalizing p with
  | nil =>
    cases h
    rfl
  | cons e more ih =>
    obtain ⟨hfirst, hmore⟩ := List.forall_mem_cons.1 hno
    obtain ⟨q, hq, h⟩ := foldlM_take_cons h
    rw [List.foldr_cons, takeAll, if_neg hfirst, hq]
    exact ih hmore h

/-- What is read up to the signature value. -/
theorem takeAll_ok {c : Cursor} {value : Bytes} (h : takeAll p (.read c) = .ok (p', some value)) :
    ∃ bytes elements wire more, c.rest = bytes ++ (wire ++ more) ∧
      SpellsAll c.position bytes elements ∧
      (∀ e ∈ elements, e.type ≠ Types.signatureValue) ∧ elements.foldlM take p = .ok p' ∧
      Spells wire Types.signatureValue value := by
  -- Along the recursion of the reader: the signature value ends it, and other elements are told.
  induction c using Elements.read.induct generalizing p with
  | case1 c he =>
    rw [Elements.read, if_pos he] at h
    cases h
  | case2 c he e d hd ih =>
    rw [Elements.read_of_element hd, takeAll] at h
    obtain ⟨wire, hrest, hs, hstart, hstop⟩ := spells_of_element hd
    obtain ⟨-, -, hnext, -⟩ := Read.element_ok hd
    split at h
    · rename_i ht
      cases h
      exact ⟨[], [], wire, d.rest, hrest, .nil _, by simp, rfl, ht ▸ hs⟩
    · rename_i ht
      cases hp : p.take e with
      | error err => rw [hp] at h; cases h
      | ok q =>
        rw [hp] at h
        obtain ⟨bytes, elements, valueWire, more, hd', hall, hno, hfold, hvalue⟩ := ih h
        refine ⟨wire ++ bytes, e :: elements, valueWire, more, ?_, ?_, ?_, ?_, hvalue⟩
        · rw [hrest, hd', List.append_assoc]
        · rw [← hnext] at hall
          obtain ⟨type, value, start, stop⟩ := e
          obtain rfl : start = c.position := hstart
          obtain rfl : stop = c.position + wire.length := hstop
          exact .cons hs hall
        · exact List.forall_mem_cons.2 ⟨ht, hno⟩
        · rw [List.foldlM_cons, hp]
          exact hfold
  | case3 c he e d hd =>
    rw [Elements.read, if_neg he] at h
    split at h
    · rename_i h'
      cases hd.symm.trans h'
    · cases h

end Parts

/-- The octets of a wire, cut where they make up a packet, and the elements between the cuts. -/
structure Layout (wire : Bytes) (d : Data) where
  header : Bytes
  nameWire : Bytes
  nameValue : Bytes
  /-- From the name on, up to the end of the last signature information. -/
  signed : Bytes
  /-- From there on, up to the signature value. -/
  loose : Bytes
  valueWire : Bytes
  ignored : Bytes
  signedElements : List Element
  info : Element
  looseElements : List Element
  told : Parts
  toldLast : Parts
  wire_eq : wire = header ++ (nameWire ++ (signed ++ (loose ++ (valueWire ++ ignored))))
  spells : Spells wire Types.data (nameWire ++ (signed ++ (loose ++ (valueWire ++ ignored))))
  spells_name : Spells nameWire Types.name nameValue
  decode_name : Name.decodeValue nameValue = .ok d.name
  spells_signed : SpellsAll nameWire.length signed (signedElements ++ [info])
  spells_loose : SpellsAll (nameWire.length + signed.length) loose looseElements
  spells_value : Spells valueWire Types.signatureValue d.signature.value
  not_value : ∀ e ∈ (signedElements ++ [info]) ++ looseElements, e.type ≠ Types.signatureValue
  info_type : info.type = Types.signatureInfo
  loose_type : ∀ e ∈ looseElements, e.type ≠ Types.signatureInfo
  take_signed : (signedElements ++ [info]).foldlM Parts.take {} = .ok told
  take_loose : looseElements.foldlM Parts.take told = .ok toldLast
  metaInfo : d.metaInfo = toldLast.metaInfo
  content : d.content = toldLast.content
  signatureInfo : told.info = some d.signature.info
  received : d.received =
    some ⟨wire, header.length, header.length + (nameWire.length + signed.length)⟩

theorem decode_ok {wire : Bytes} {d : Data} (h : decode wire = .ok d) :
    ∃ outer first c parts stop, single Types.data wire = .ok outer ∧
      Read.expected Types.name (.start outer.value) = .ok first c ∧
      Name.decodeValue first.value = .ok d.name ∧
      Parts.takeAll {} (.read c) = .ok (parts, some d.signature.value) ∧
      parts.info = some d.signature.info ∧ parts.signedStop = some stop ∧
      d.metaInfo = parts.metaInfo ∧ d.content = parts.content ∧
      d.received = some ⟨wire, outer.stop - outer.value.length + first.start,
        outer.stop - outer.value.length + stop⟩ := by
  unfold decode at h
  cases houter : single Types.data wire with
  | error e => rw [houter] at h; cases h
  | ok outer =>
  rw [houter] at h
  dsimp only [bind, Except.bind] at h
  split at h
  · cases h
  rename_i first c hfirst
  cases hname : Name.decodeValue first.value with
  | error e => rw [hname] at h; cases h
  | ok name =>
  rw [hname] at h
  dsimp only at h
  cases htake : Parts.takeAll {} (.read c) with
  | error e => rw [htake] at h; cases h
  | ok told =>
  obtain ⟨parts, value⟩ := told
  rw [htake] at h
  dsimp only at h
  split at h
  · rename_i info stop value hinfo hstop
    cases h
    exact ⟨outer, first, c, parts, stop, rfl, hfirst, hname, htake, hinfo, hstop, rfl, rfl, rfl⟩
  · cases h
  · cases h

/-- What is decoded as a packet is laid out for it. -/
theorem layout_of_decode {wire : Bytes} {d : Data} (h : decode wire = .ok d) :
    Nonempty (Layout wire d) := by
  obtain ⟨outer, first, c, parts, stop, houter, hfirst, hname, htake, hinfo, hstop, hmeta, hcontent,
    hreceived⟩ := decode_ok h
  obtain ⟨hspells, -, hend⟩ := single_ok houter
  obtain ⟨hfirst, hfirstType⟩ := Read.expected_ok hfirst
  obtain ⟨nameWire, hbody, hspellsName, hstart, hnameStop⟩ := spells_of_element hfirst
  obtain ⟨-, -, hnext, -⟩ := Read.element_ok hfirst
  obtain ⟨bytes, elements, valueWire, ignored, hrest, hall, hvalue, hfold, hspellsValue⟩ :=
    Parts.takeAll_ok htake
  obtain ⟨header, hheader⟩ := hspells.suffix
  have hsome : lastOf Types.signatureInfo elements ≠ none := by
    intro hnone
    obtain ⟨hkept, -⟩ := Parts.foldlM_take_info hfold (lastOf_eq_none.1 hnone)
    cases hinfo.symm.trans hkept
  obtain ⟨last, hlast⟩ := Option.ne_none_iff_exists'.1 hsome
  obtain ⟨hlastType, signedElements, looseElements, hsplit, hno⟩ := lastOf_eq_some hlast
  rw [List.append_cons] at hsplit
  subst hsplit
  obtain ⟨told, htold, hloose⟩ := Parts.foldlM_take_append hfold
  obtain ⟨⟨s, -, htoldInfo⟩, htoldStop⟩ := Parts.foldlM_take_info_last htold hlastType
  obtain ⟨hkeptInfo, hkeptStop⟩ := Parts.foldlM_take_info hloose hno
  obtain ⟨signed, loose, rfl, hsigned, hlooseAll⟩ := hall.split
  have hposition : c.position = nameWire.length := by
    rw [← hnext, hnameStop]
    exact Nat.zero_add _
  rw [hposition] at hsigned hlooseAll
  have houterValue : outer.value =
      nameWire ++ (signed ++ (loose ++ (valueWire ++ ignored))) := by
    rw [← List.append_assoc signed, ← hrest]
    exact hbody
  have hoffset : outer.stop - outer.value.length = header.length := by
    rw [hend, hheader, List.length_append]
    omega
  have hstopEq : stop = nameWire.length + signed.length := by
    have hboth := hstop.symm.trans (hkeptStop.trans htoldStop)
    injection hboth with hboth
    exact hboth.trans hsigned.stop_last
  rw [houterValue] at hspells hheader
  have hrange : d.received =
      some ⟨wire, header.length, header.length + (nameWire.length + signed.length)⟩ := by
    rw [hreceived, hoffset, hstart, hstopEq]
    rfl
  exact ⟨{
    header, nameWire, signed, loose, valueWire, ignored, signedElements, looseElements, told
    nameValue := first.value
    info := last
    toldLast := parts
    wire_eq := hheader
    spells := hspells
    spells_name := hfirstType ▸ hspellsName
    decode_name := hname
    spells_signed := hsigned
    spells_loose := hlooseAll
    spells_value := hspellsValue
    not_value := hvalue
    info_type := hlastType
    loose_type := hno
    take_signed := htold
    take_loose := hloose
    metaInfo := hmeta
    content := hcontent
    signatureInfo := hkeptInfo.symm.trans hinfo
    received := hrange }⟩

theorem Layout.spells_all {wire : Bytes} {d : Data} (l : Layout wire d) :
    SpellsAll l.nameWire.length (l.signed ++ l.loose)
      ((l.signedElements ++ [l.info]) ++ l.looseElements) :=
  l.spells_signed.append l.spells_loose

theorem Layout.take_all {wire : Bytes} {d : Data} (l : Layout wire d) :
    ((l.signedElements ++ [l.info]) ++ l.looseElements).foldlM Parts.take {} = .ok l.toldLast := by
  rw [List.foldlM_append, l.take_signed]
  exact l.take_loose

theorem Layout.decode {wire : Bytes} {d : Data} (l : Layout wire d) : decode wire = .ok d := by
  obtain ⟨-, htoldStop⟩ := Parts.foldlM_take_info_last l.take_signed l.info_type
  obtain ⟨hkeptInfo, hkeptStop⟩ := Parts.foldlM_take_info l.take_loose l.loose_type
  have hread := l.spells_all.elements_read (l.valueWire ++ l.ignored)
  rw [Elements.read_of_element (l.spells_value.read l.ignored _), List.append_assoc] at hread
  have htake : Parts.takeAll {}
      (.read ⟨l.signed ++ (l.loose ++ (l.valueWire ++ l.ignored)), l.nameWire.length⟩) =
      .ok (l.toldLast, some d.signature.value) := by
    rw [hread, Parts.takeAll_foldr l.not_value l.take_all, Parts.takeAll, if_pos rfl]
  have hfirst :=
    Read.expected_of_spells l.spells_name (l.signed ++ (l.loose ++ (l.valueWire ++ l.ignored))) 0
  rw [Nat.zero_add] at hfirst
  have hoffset : wire.length -
      (l.nameWire ++ (l.signed ++ (l.loose ++ (l.valueWire ++ l.ignored)))).length =
      l.header.length := by
    have hlength := congrArg List.length l.wire_eq
    rw [List.length_append] at hlength
    omega
  unfold Data.decode
  rw [single_of_spells l.spells]
  dsimp only [bind, Except.bind, Cursor.start]
  rw [hfirst]
  dsimp only
  rw [l.decode_name]
  dsimp only
  rw [htake]
  dsimp only
  rw [hkeptInfo, l.signatureInfo, hkeptStop, htoldStop, l.spells_signed.stop_last]
  dsimp only
  rw [hoffset, ← l.metaInfo, ← l.content, Nat.add_zero, ← l.received]
  rfl

end Data

end PacketTrust
