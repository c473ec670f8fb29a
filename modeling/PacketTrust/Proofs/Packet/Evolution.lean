import PacketTrust.Proofs.Packet.Interest
import PacketTrust.Proofs.Packet.Layout
import PacketTrust.Proofs.Packet.SignatureInfo
import PacketTrust.Proofs.Tlv.Insertion

/-! Packets of a later format. The decoders of Data packets, Interests and signature information
pass over the elements that they do not know, if these are not critical. -/

namespace PacketTrust

open Tlv

variable {wire first rest value : Bytes} {e e' : Element} {elements elements' : Elements}

namespace SignatureInfo

def knownTypes : List UInt64 := [Types.keyLocator, Types.validityPeriod]

theorem Parts.tolerant : Tolerant take takeAll (fun _ => False) knownTypes Eq := by
  apply reads.tolerant
  · intro p e e' htype hvalue
    rw [take, take, htype, hvalue]
  · intro p e hnew
    simp only [knownTypes, List.mem_cons, List.not_mem_nil, or_false, not_or] at hnew
    rw [take, if_neg hnew.1, if_neg hnew.2]
    rfl

theorem decodeValue_of_spells (hfirst : Spells first Types.signatureType value) :
    decodeValue (first ++ rest) = decodeNumber value >>= fun type =>
      Parts.takeAll {} (.read ⟨rest, first.length⟩) >>= fun parts =>
        pure (ofParts type parts.keyLocator parts.validity) := by
  unfold decodeValue Cursor.start
  rw [Read.expected_of_spells hfirst, Nat.zero_add]

theorem evolves : Evolves decodeValue Eq Types.signatureType (fun _ => False) knownTypes Eq := by
  apply Parts.tolerant.evolves decodeNumber (fun _ => {}) fun _ _ type parts =>
    pure (ofParts type parts.keyLocator parts.validity)
  · rintro wire first value rest rfl hfirst
    exact decodeValue_of_spells hfirst
  · rintro wire wire' body body' type parts parts' info rfl hinfo
    exact ⟨info, hinfo, rfl⟩

end SignatureInfo

namespace Interest

/-- The types of the elements that are read behind the name; a forwarding hint counts for
nothing. -/
def knownTypes : List UInt64 :=
  [Types.canBePrefix, Types.mustBeFresh, Types.nonce, Types.interestLifetime, Types.forwardingHint]

theorem tolerant : Tolerant takeElement takeAll (fun _ => False) knownTypes Eq := by
  apply reads.tolerant
  · intro i e e' htype hvalue
    rw [takeElement, takeElement, htype, hvalue]
  · intro i e hnew
    simp only [knownTypes, List.mem_cons, List.not_mem_nil, or_false, not_or] at hnew
    obtain ⟨hcan, hfresh, hnonce, hlifetime, hhint⟩ := hnew
    rw [takeElement, if_neg hcan, if_neg hfresh, if_neg hnonce, if_neg hlifetime, if_neg hhint]
    rfl

theorem decode_of_spells (h : Spells wire Types.interest (first ++ rest))
    (hfirst : Spells first Types.name value) :
    decode wire = Name.decodeValue value >>= fun name =>
      takeAll { name } (.read ⟨rest, first.length⟩) := by
  unfold decode Cursor.start
  rw [single_of_spells h]
  dsimp only [bind, Except.bind]
  rw [Read.expected_of_spells hfirst, Nat.zero_add]

theorem evolves :
    Evolves decode (Spells · Types.interest ·) Types.name (fun _ => False) knownTypes Eq := by
  apply tolerant.evolves Name.decodeValue (fun name => { name }) fun _ _ _ i => pure i
  · intro wire first value rest h hfirst
    rw [decode_of_spells h hfirst]
    simp only [bind_pure]
  · rintro wire wire' body body' name i i' decoded rfl hdecoded
    exact ⟨decoded, hdecoded, rfl⟩

end Interest

namespace Data

def knownTypes : List UInt64 :=
  [Types.metaInfo, Types.content, Types.signatureInfo, Types.signatureValue]

structure SameFields (d d' : Data) : Prop where
  name : d'.name = d.name
  metaInfo : d'.metaInfo = d.metaInfo
  content : d'.content = d.content
  signature : d'.signature = d.signature

namespace Parts

/-- The same was told, though the last signature information may end elsewhere. -/
structure Agree (p q : Parts) : Prop where
  metaInfo : q.metaInfo = p.metaInfo
  content : q.content = p.content
  info : q.info = p.info
  stop : q.signedStop.isSome = p.signedStop.isSome

variable {p p' q : Parts} {last : Option Bytes}

theorem Agree.take (h : Agree p q) (htype : e'.type = e.type) (hvalue : e'.value = e.value)
    (hp : p.take e = .ok p') : ∃ q', q.take e' = .ok q' ∧ Agree p' q' := by
  unfold Parts.take at hp ⊢
  rw [htype, hvalue]
  split at hp
  · rename_i hmeta
    rw [if_pos hmeta]
    obtain ⟨m, hm, hp⟩ := ok_of_bind hp
    cases hp
    rw [hm]
    exact ⟨_, rfl, { h with metaInfo := rfl }⟩
  rename_i hmeta
  rw [if_neg hmeta]
  split at hp
  · rename_i hcontent
    rw [if_pos hcontent]
    cases hp
    exact ⟨_, rfl, { h with content := rfl }⟩
  rename_i hcontent
  rw [if_neg hcontent]
  split at hp
  · rename_i hinfo
    rw [if_pos hinfo]
    obtain ⟨s, hs, hp⟩ := ok_of_bind hp
    cases hp
    rw [hs]
    exact ⟨_, rfl, { h with info := rfl, stop := rfl }⟩
  rename_i hinfo
  rw [if_neg hinfo]
  split at hp
  · cases hp
  · rename_i hcritical
    rw [if_neg hcritical]
    cases hp
    exact ⟨q, rfl, h⟩

theorem Agree.takeAll (h : Agree p q) (halike : Elements.Alike elements elements')
    (hp : takeAll p elements = .ok (p', last)) :
    ∃ q', Parts.takeAll q elements' = .ok (q', last) ∧ Agree p' q' := by
  induction halike generalizing p q with
  | done =>
    cases hp
    exact ⟨q, rfl, h⟩
  | broken error error' => cases hp
  | @next e e' rest rest' htype hvalue _ ih =>
    rw [Parts.takeAll] at hp ⊢
    rw [htype]
    split at hp
    · rename_i hends
      rw [if_pos hends, hvalue]
      cases hp
      exact ⟨q, rfl, h⟩
    · rename_i hgoes
      obtain ⟨next, hnext, hp⟩ := ok_of_bind hp
      obtain ⟨next', hnext', hagree⟩ := h.take htype hvalue hnext
      rw [if_neg hgoes, hnext']
      exact ih hagree hp

theorem tolerant : Tolerant take takeAll (· = Types.signatureValue) knownTypes
    fun told told' => Agree told.1 told'.1 ∧ told'.2 = told.2 := by
  constructor
  case next =>
    intro p e rest hgoes
    rw [Parts.takeAll, if_neg hgoes]
  case unknown =>
    intro p e hnew
    simp only [knownTypes, List.mem_cons, List.not_mem_nil, or_false, not_or] at hnew
    obtain ⟨hmeta, hcontent, hinfo, -⟩ := hnew
    rw [Parts.take, if_neg hmeta, if_neg hcontent, if_neg hinfo]
    rfl
  case known_of_ends =>
    rintro type rfl
    decide
  case alike =>
    rintro p elements elements' ⟨p', last⟩ halike hp
    have hself : Agree p p := ⟨rfl, rfl, rfl, rfl⟩
    obtain ⟨q', hq', hagree⟩ := hself.takeAll halike hp
    exact ⟨(q', last), hq', hagree, rfl⟩

end Parts

/-- The packet of what was told, if it has a signature. -/
def finish (wire body : Bytes) (name : Name) (told : Parts × Option Bytes) : Except Error Data :=
  match told.1.info, told.1.signedStop, told.2 with
  | some info, some stop, some value =>
    pure { name, metaInfo := told.1.metaInfo, content := told.1.content, signature := ⟨info, value⟩
           received := some ⟨wire, wire.length - body.length, wire.length - body.length + stop⟩ }
  | some _, some _, none => throw (.missing Types.signatureValue)
  | _, _, _ => throw (.missing Types.signatureInfo)

theorem decode_of_spells (h : Spells wire Types.data (first ++ rest))
    (hfirst : Spells first Types.name value) :
    decode wire = Name.decodeValue value >>= fun name =>
      Parts.takeAll {} (.read ⟨rest, first.length⟩) >>= finish wire (first ++ rest) name := by
  unfold decode Cursor.start
  rw [single_of_spells h]
  dsimp only [bind, Except.bind]
  rw [Read.expected_of_spells hfirst, Nat.zero_add]
  rfl

theorem finish_ok {body : Bytes} {name : Name} {told : Parts × Option Bytes} {d : Data}
    (h : finish wire body name told = .ok d) : ∃ info stop value, told.1.info = some info ∧
      told.1.signedStop = some stop ∧ told.2 = some value ∧ d.name = name ∧
      d.metaInfo = told.1.metaInfo ∧ d.content = told.1.content ∧ d.signature = ⟨info, value⟩ := by
  unfold finish at h
  split at h
  · rename_i info stop value hinfo hstop hvalue
    cases h
    exact ⟨info, stop, value, hinfo, hstop, hvalue, rfl, rfl, rfl, rfl⟩
  · cases h
  · cases h

theorem evolves : Evolves decode (Spells · Types.data ·) Types.name (· = Types.signatureValue)
    knownTypes SameFields := by
  apply Parts.tolerant.evolves Name.decodeValue (fun _ => {}) finish
  · intro wire first value rest h hfirst
    exact decode_of_spells h hfirst
  · rintro wire wire' body body' name ⟨p, last⟩ ⟨p', last'⟩ d ⟨hagree, hlast⟩ hd
    obtain ⟨info, stop, value, hinfo, hstop, hvalue, hname, hmeta, hcontent, hsignature⟩ :=
      finish_ok hd
    obtain ⟨stop', hstop'⟩ : ∃ stop', p'.signedStop = some stop' := by
      rw [← Option.isSome_iff_exists, hagree.stop, hstop]
      rfl
    have hinfo' : p'.info = some info := hagree.info.trans hinfo
    have hvalue' : last' = some value := hlast.trans hvalue
    refine ⟨⟨name, p'.metaInfo, p'.content, ⟨info, value⟩, some ⟨wire', wire'.length - body'.length,
      wire'.length - body'.length + stop'⟩⟩, ?_, hname.symm, ?_, ?_, hsignature.symm⟩
    · simp only [finish, hinfo', hstop', hvalue']
      rfl
    · exact hagree.metaInfo.trans hmeta.symm
    · exact hagree.content.trans hcontent.symm

end Data

/-- An element that is unknown and not critical changes no field of what is accepted, at any
boundary behind the first element and, in Data, before the signature value. A critical one is
refused for its type. -/
theorem decoders_evolve :
    Evolves Data.decode (Spells · Types.data ·) Types.name
      (· = Types.signatureValue) Data.knownTypes Data.SameFields ∧
      Evolves Interest.decode (Spells · Types.interest ·) Types.name (fun _ => False)
        Interest.knownTypes Eq ∧
      Evolves SignatureInfo.decodeValue Eq Types.signatureType (fun _ => False)
        SignatureInfo.knownTypes Eq :=
  ⟨Data.evolves, Interest.evolves, SignatureInfo.evolves⟩

/-- A packet with an element of type 36 before its signature value, an Interest with one of type 37
behind its name, and signature information with a second signature type. -/
theorem decoders_evolve_sample :
    let name := Tlv.encode Types.name [8, 1, 0x61]
    let type := encodeNumberElement Types.signatureType 0
    let info := Tlv.encode Types.signatureInfo type
    let packet (extra : Bytes) :=
      Tlv.encode Types.data (name ++ (info ++ (extra ++ Tlv.encode Types.signatureValue [])))
    (∃ d d', Data.decode (packet []) = .ok d ∧ Data.decode (packet (Tlv.encode 36 [])) = .ok d' ∧
        Data.SameFields d d') ∧
      Interest.decode (Tlv.encode Types.interest (name ++ Tlv.encode 37 [])) =
        .error (.unrecognizedCritical 37) ∧
      SignatureInfo.decodeValue (type ++ type) =
        .error (.unrecognizedCritical Types.signatureType) := by
  intro name type info packet
  have hname : Spells name Types.name [8, 1, 0x61] := .encode _ (by decide)
  have hinfo : SpellsAll name.length info [⟨Types.signatureInfo, type, 5, 10⟩] :=
    .single (.encode _ (by decide)) _
  have hspells : ∀ (type : UInt64), Spells (Tlv.encode type []) type [] := fun type =>
    .encode _ (by decide)
  obtain ⟨hdata, hinterest, hsignature⟩ := decoders_evolve
  refine ⟨?_, ?_, ?_⟩
  · have hd : Data.decode (packet []) =
        .ok { name := ⟨[.generic [0x61]]⟩, received := some ⟨packet [], 2, 12⟩ } := by
      decide +kernel
    have hins : Inserted Types.name (· = Types.signatureValue) 36
        (name ++ (info ++ Tlv.encode Types.signatureValue []))
        (name ++ (info ++ (Tlv.encode 36 [] ++ Tlv.encode Types.signatureValue []))) :=
      .mk hname hinfo (by decide) (hspells 36)
    obtain ⟨haccept, -⟩ := hdata _ _ _ _ 36 _ hd (.encode Types.data (by decide +kernel))
      (.encode Types.data (by decide +kernel)) hins (by decide)
    obtain ⟨d', hd', hsame⟩ := haccept (by decide)
    exact ⟨_, d', hd, hd', hsame⟩
  · have hi : Interest.decode (Tlv.encode Types.interest name) =
        .ok { name := ⟨[.generic [0x61]]⟩ } := by
      decide +kernel
    have hins : Inserted Types.name (fun _ => False) 37 (name ++ ([] ++ []))
        (name ++ ([] ++ (Tlv.encode 37 [] ++ []))) :=
      .mk hname (.nil _) (by simp) (hspells 37)
    exact (hinterest _ _ _ _ 37 _ hi (.encode Types.interest (by decide +kernel))
      (.encode Types.interest (by decide +kernel)) hins (by decide)).2 (by decide)
  · have htype : Spells type Types.signatureType [0] := .encode _ (by decide)
    have hins :
        Inserted Types.signatureType (fun _ => False) Types.signatureType (type ++ ([] ++ []))
        (type ++ ([] ++ (type ++ []))) :=
      .mk htype (.nil _) (by simp) htype
    have hs : SignatureInfo.decodeValue type = .ok .digestSha256 := by decide +kernel
    exact (hsignature _ _ _ _ Types.signatureType _ hs rfl rfl hins (by decide)).2 (by decide)

end PacketTrust
