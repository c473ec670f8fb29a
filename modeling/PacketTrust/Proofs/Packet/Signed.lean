import PacketTrust.Proofs.Packet.Covered
import PacketTrust.Proofs.Packet.Issued
import PacketTrust.Proofs.Packet.Kept
import PacketTrust.Verifier

/-! Signed packets on their way from the signer to a receiver that verifies them. The signer takes
the octets that it signs from the fields, the receiver from the wire. Main statement: they are the
same octets. -/

namespace PacketTrust

open Tlv

namespace Name

variable (n : Name) (c : Component)

theorem length_push : (n.push c).length = n.length + 1 := by
  unfold length push
  simp

theorem take_push : (n.push c).take (-1) = n := by
  have hneg : ¬ (0 : Int) ≤ -1 := by omega
  have hlength : (n.push c).length - 1 = n.components.length := by
    rw [length_push, Nat.add_sub_cancel]
    rfl
  unfold take
  rw [if_neg hneg]
  show (⟨(n.components ++ [c]).take ((n.push c).length - 1)⟩ : Name) = n
  rw [hlength, List.take_left]

theorem take_push_succ {k : Nat} (hk : 0 < k) : (n.push c).take (-(k + 1 : Nat)) = n.take (-k) := by
  have hneg : ¬ (0 : Int) ≤ -(k + 1 : Nat) := by omega
  have hneg' : ¬ (0 : Int) ≤ -k := by omega
  unfold take
  rw [if_neg hneg, if_neg hneg', Int.natAbs_neg, Int.natAbs_neg, Int.natAbs_natCast,
    Int.natAbs_natCast, length_push, Nat.add_sub_add_right]
  have hle : n.length - k ≤ n.components.length := Nat.sub_le _ _
  show (⟨(n.components ++ [c]).take (n.length - k)⟩ : Name) = _
  rw [List.take_append_of_le_length hle]

theorem get?_push : (n.push c).get? (-1) = some c := by
  have hget := (n.push c).get?_neg (k := 1) Nat.one_pos
  rw [length_push, if_pos (Nat.le_add_left 1 _), Nat.add_sub_cancel] at hget
  rw [show (-1 : Int) = -(1 : Nat) from rfl, hget]
  simp [push, length]

theorem encodeComponents_push : (n.push c).encodeComponents = n.encodeComponents ++ c.encode := by
  unfold encodeComponents push
  simp

theorem get?_push_succ {k : Nat} (hk : 0 < k) : (n.push c).get? (-(k + 1 : Nat)) = n.get? (-k) := by
  rw [get?_neg_succ _ hk, take_push]

end Name

/-- Both ends of the period can be written: they lie in years of four digits, and the nanoseconds of
a moment are fewer than two thousand million. -/
structure Validity.Writable (v : Validity) : Prop where
  years : v.FourDigitYears
  notBefore : v.notBefore.nano < 2000000000
  notAfter : v.notAfter.nano < 2000000000

/-- What is written of a period is also written of one that is read back. -/
theorem Validity.Writable.exists_wellFormed {v : Validity} (h : v.Writable) :
    ∃ v' : Validity, v'.WellFormed ∧ v'.encode = v.encode := by
  obtain ⟨before, hbefore, hbeforeText⟩ := Stamp.exists_printable h.notBefore h.years.1
  obtain ⟨after, hafter, hafterText⟩ := Stamp.exists_printable h.notAfter h.years.2
  refine ⟨⟨before, after⟩, ⟨hbefore, hafter⟩, ?_⟩
  simp only [encode, encodeValue, hbeforeText, hafterText]

/-- Of the signed octets, only the last element depends on the signature information. -/
theorem Data.encodeSigned_setSignatureInfo (d : Data) (info : SignatureInfo) :
    (d.setSignatureInfo info).encodeSigned = d.name.encode ++ (d.encodeFront ++ info.encode) :=
  encodeSigned_eq _

namespace Interest

variable {i : Interest} {n : Name} {c : Component}

/-- Whatever component stands last, it is not covered. -/
theorem signedPortion_push (h : i.name = n.push c) : i.signedPortion = n.encodeComponents := by
  unfold signedPortion
  rw [h, Name.take_push]

end Interest

theorem Signature.decode_of_single {infoWire valueWire : Bytes} {e v : Element}
    {info : SignatureInfo} (he : single Types.signatureInfo infoWire = .ok e)
    (hread : SignatureInfo.decodeValue e.value = .ok info)
    (hv : single Types.signatureValue valueWire = .ok v) :
    Signature.decode infoWire valueWire = .ok ⟨info, v.value⟩ := by
  unfold Signature.decode
  rw [he, hv]
  show SignatureInfo.decodeValue e.value >>= _ = _
  rw [hread]
  rfl

theorem Verifier.checkInterest_standard {i : Interest} {p : Signature} (h : i.signature = .ok p)
    (calls : Nat) (c : Certificate) :
    (standard.checkInterest calls i c).1 = acceptsStandard i.signedPortion p c.publicKey := by
  unfold checkInterest
  rw [h]
  rfl

namespace Signer

variable {s : Signer} {message : Bytes}

/-- What the key signs fits under its public key. -/
def Fits (s : Signer) (message : Bytes) : Prop :=
  Ecdsa.verify message (s.sign message) s.publicKey = true

instance (s : Signer) (message : Bytes) : Decidable (s.Fits message) :=
  inferInstanceAs (Decidable (_ = _))

theorem accepts_of_fits {p : Signature} {v : Option Validity} (hinfo : p.info = s.info v)
    (hvalue : p.value = s.sign message) (h : s.Fits message) :
    Verifier.acceptsStandard message p s.publicKey = true := by
  unfold Verifier.acceptsStandard
  rw [hinfo, hvalue]
  exact h

theorem wellFormed_info (hs : s.keyName.WellFormed) {v : Option Validity}
    (hv : ∀ v', v = some v' → v'.WellFormed) : (s.info v).WellFormed := by
  refine ⟨nofun, ?_, hv⟩
  rintro k ⟨⟩
  exact hs

/-- What is written of the information for a period is also written of information that is read
back. -/
theorem exists_info (hs : s.keyName.WellFormed) {v : Option Validity}
    (hv : ∀ v', v = some v' → v'.Writable) :
    ∃ v', (s.info v').WellFormed ∧ (s.info v').encode = (s.info v).encode := by
  cases v with
  | none => exact ⟨none, wellFormed_info hs nofun, rfl⟩
  | some v =>
    obtain ⟨v', hwf, hsame⟩ := (hv v rfl).exists_wellFormed
    refine ⟨some v', wellFormed_info hs ?_, ?_⟩
    · rintro w ⟨⟩
      exact hwf
    · unfold SignatureInfo.encode SignatureInfo.encodeValue
      show Tlv.encode _ (_ ++ (_ ++ v'.encode)) = Tlv.encode _ (_ ++ (_ ++ v.encode))
      rw [hsame]
      rfl

theorem signedPortion_signData (s : Signer) (d : Data) : (s.signData d).signedPortion =
    (d.setSignatureInfo (s.info d.signature.info.validity?)).encodeSigned := rfl

/-- A signed packet is read back, with the octets that were signed and their signature. -/
theorem exists_decode_signData (hs : s.keyName.WellFormed) {d : Data} (hname : d.name.WellFormed)
    (hmeta : d.metaInfo.WellFormed) (hv : ∀ v, d.signature.info.validity? = some v → v.Writable)
    (hlen : (s.signData d).encode.length < 2 ^ 64) :
    ∃ r, Data.decode (s.signData d).encode = .ok r ∧
      (r.name = d.name ∧ r.content = d.content ∧ r.metaInfo = d.metaInfo) ∧
      r.signedPortion = (s.signData d).signedPortion ∧
      r.signature.value = s.sign r.signedPortion ∧ ∃ v, r.signature.info = s.info v := by
  obtain ⟨v, hinfo, hsame⟩ := exists_info hs hv
  obtain ⟨e, he⟩ : ∃ e, e = (s.signData d).setSignatureInfo (s.info v) := ⟨_, rfl⟩
  have hreceived : e.received = none := by
    rw [he]
    rfl
  have hsigned : e.encodeSigned = (s.signData d).signedPortion := by
    rw [he, signedPortion_signData, Data.encodeSigned_setSignatureInfo,
      Data.encodeSigned_setSignatureInfo, hsame]
    rfl
  have hvalue : e.signature.value = s.sign (s.signData d).signedPortion := by
    rw [he]
    rfl
  have hencode : e.encode = (s.signData d).encode := by
    rw [Data.encode_of_fresh hreceived, hsigned, he]
    rfl
  have hwf : e.WellFormed := by
    rw [he]
    exact ⟨hname, hmeta, hinfo⟩
  rw [← hencode] at hlen ⊢
  obtain ⟨received, hdecode, -, hportion⟩ := Data.exists_decode_encode hwf hreceived hlen
  have hcovered : ({ e with received := some received } : Data).signedPortion =
      (s.signData d).signedPortion := hportion.trans hsigned
  refine ⟨_, hdecode, ?_, hcovered, ?_, v, ?_⟩
  · rw [he]
    exact ⟨rfl, rfl, rfl⟩
  · rw [hcovered]
    exact hvalue
  · rw [he]
    rfl

def named (s : Signer) (i : Interest) : Name := i.name.push (.generic (s.info none).encode)

def valueComponent (s : Signer) (i : Interest) : Component :=
  .generic (Tlv.encode Types.signatureValue (s.sign (s.named i).encodeComponents))

theorem signInterest_name (s : Signer) (i : Interest) :
    (s.signInterest i).name = (s.named i).push (s.valueComponent i) := rfl

/-- What is signed is what the signed Interest covers. -/
theorem signedPortion_signInterest (s : Signer) (i : Interest) :
    (s.signInterest i).signedPortion = (s.named i).encodeComponents :=
  Interest.signedPortion_push (s.signInterest_name i)

theorem length_encode_signInterest_le (s : Signer) (i : Interest) (fresh : UInt32) :
    ((s.signInterest i).encode fresh).length ≤ (s.named i).encodeComponents.length + 228 := by
  have hencode := Interest.length_encode_le (s.signInterest i) fresh
  have hsign := Ecdsa.length_sign_le s.secret (s.named i).encodeComponents
  have hvalue := Tlv.length_encode_le Types.signatureValue (s.sign (s.named i).encodeComponents)
  have hcomponent := Tlv.length_encode_le Types.generic (s.valueComponent i).value
  rw [signInterest_name, Name.encodeComponents_push, List.length_append] at hencode
  unfold Component.encode valueComponent Component.generic at hencode
  unfold valueComponent Component.generic at hcomponent
  unfold sign at hvalue hcomponent hencode
  dsimp only at hcomponent hencode
  omega

theorem signature_signInterest (hs : s.keyName.WellFormed)
    (hinfoLength : (s.info none).encodeValue.length < 2 ^ 64) (i : Interest) :
    (s.signInterest i).signature = .ok ⟨s.info none, s.sign (s.signInterest i).signedPortion⟩ := by
  have hvalueLength : (s.sign (s.named i).encodeComponents).length < 2 ^ 64 := by
    have hsign := Ecdsa.length_sign_le s.secret (s.named i).encodeComponents
    unfold sign
    omega
  have hlast : (s.signInterest i).name.get? (-1) = some (s.valueComponent i) := Name.get?_push _ _
  have hinfo : (s.signInterest i).name.get? (-2) = some (.generic (s.info none).encode) :=
    (Name.get?_push_succ _ _ Nat.one_pos).trans (Name.get?_push _ _)
  have hread : SignatureInfo.decodeValue (s.info none).encodeValue = .ok (s.info none) :=
    SignatureInfo.decodeValue_encodeValue (wellFormed_info hs nofun) hinfoLength
  unfold Interest.signature
  rw [hlast, hinfo, signedPortion_signInterest]
  exact Signature.decode_of_single (single_of_spells (.encode _ hinfoLength)) hread
    (single_of_spells (.encode _ hvalueLength))

theorem length_info_le (s : Signer) (i : Interest) :
    (s.info none).encodeValue.length ≤ (s.signInterest i).name.encodeComponents.length := by
  have hvalue := Spells.length_le_encode Types.signatureInfo (s.info none).encodeValue
  have hcomponent := Spells.length_le_encode Types.generic (s.info none).encode
  rw [signInterest_name, Name.encodeComponents_push, named, Name.encodeComponents_push]
  simp only [List.length_append]
  unfold Component.encode Component.generic
  unfold SignatureInfo.encode at hcomponent ⊢
  dsimp only
  omega

/-- A packet or an Interest that was signed is read back with the octets that were signed, and
verified under the public key of the signer if signatures on the curve fit. But for the signature
nothing changes. -/
theorem signed_verified (s : Signer) (hs : s.keyName.WellFormed) :
    (∀ d : Data,
      ((s.signData d).name = d.name ∧ (s.signData d).content = d.content ∧
        (s.signData d).metaInfo = d.metaInfo ∧
        (s.signData d).signature.info.validity? = d.signature.info.validity?) ∧
      (d.name.WellFormed → d.metaInfo.WellFormed →
        (∀ v, d.signature.info.validity? = some v → v.Writable) →
        (s.signData d).encode.length < 2 ^ 64 →
        ∃ r, Data.decode (s.signData d).encode = .ok r ∧
          (r.name = d.name ∧ r.content = d.content ∧ r.metaInfo = d.metaInfo) ∧
          r.signedPortion = (s.signData d).signedPortion ∧
          (s.Fits r.signedPortion → ∀ (calls : Nat) (c : Certificate), c.publicKey = s.publicKey →
            (Verifier.standard.checkData calls r c).1 = true))) ∧
    ∀ (i : Interest) (fresh : UInt32),
      ((s.signInterest i).name.length = i.name.length + 2 ∧
        (s.signInterest i).name.take (-2) = i.name) ∧
      (i.name.WellFormed → ((s.signInterest i).encode fresh).length < 2 ^ 64 →
        (s.signInterest i).signature =
          .ok ⟨s.info none, s.sign (s.signInterest i).signedPortion⟩ ∧
        ∃ r, Interest.decode ((s.signInterest i).encode fresh) = .ok r ∧
          r.name = (s.signInterest i).name ∧
          r.signedPortion = (s.signInterest i).signedPortion ∧
          (s.Fits r.signedPortion → ∀ (calls : Nat) (c : Certificate), c.publicKey = s.publicKey →
            (Verifier.standard.checkInterest calls r c).1 = true)) := by
  constructor
  · intro d
    refine ⟨⟨rfl, rfl, rfl, rfl⟩, ?_⟩
    intro hname hmeta hv hlen
    obtain ⟨r, hdecode, hfields, hsigned, hvalue, v, hinfo⟩ :=
      exists_decode_signData hs hname hmeta hv hlen
    refine ⟨r, hdecode, hfields, hsigned, ?_⟩
    intro hfits calls c hkey
    show Verifier.acceptsStandard r.signedPortion r.signature c.publicKey = true
    rw [hkey]
    exact accepts_of_fits hinfo hvalue hfits
  · intro i fresh
    refine ⟨⟨?_, ?_⟩, ?_⟩
    · rw [signInterest_name, Name.length_push, named, Name.length_push]
    · rw [signInterest_name]
      exact (Name.take_push_succ _ _ Nat.one_pos).trans (Name.take_push _ _)
    intro hname hlen
    have hcomponents := (Interest.decode_encode_eq hlen).1
    have hinfoLength := Nat.lt_of_le_of_lt (s.length_info_le i) hcomponents
    have hsignature := signature_signInterest hs hinfoLength i
    have hgeneric : ∀ value, (Component.generic value).WellFormed :=
      fun value => Component.check_eq_ok_iff.1 rfl
    have hnamed : (s.signInterest i).name.WellFormed :=
      (hname.push (hgeneric _)).push (hgeneric _)
    have hdecode := Interest.decode_encode_received hnamed hlen
    refine ⟨hsignature, _, hdecode, rfl, rfl, ?_⟩
    intro hfits calls c hkey
    have hreceived : ((s.signInterest i).received fresh).signature =
        .ok ⟨s.info none, s.sign (s.signInterest i).signedPortion⟩ := hsignature
    have hsigned : ((s.signInterest i).received fresh).signedPortion =
        (s.signInterest i).signedPortion := rfl
    rw [hsigned] at hfits
    rw [Verifier.checkInterest_standard hreceived, hkey, hsigned]
    exact accepts_of_fits rfl rfl hfits

def Sample.keyed : Signer := ⟨⟨[.generic [107]]⟩, 1⟩

def Sample.question : Interest := { name := ⟨[.generic [97]]⟩, lifetime := ⟨1500000⟩ }

/-- A packet that still has its wire is signed anew, and the Interest is signed. -/
theorem signed_verified_sample :
    (∃ r, Data.decode (Sample.keyed.signData Data.Sample.lax).encode = .ok r ∧
      (r.name = Data.Sample.lax.name ∧ r.content = [2]) ∧
      ∀ (calls : Nat) (c : Certificate), c.publicKey = Sample.keyed.publicKey →
        (Verifier.standard.checkData calls r c).1 = true) ∧
    ∃ r, Interest.decode ((Sample.keyed.signInterest Sample.question).encode 7) = .ok r ∧
      r.name.length = 3 ∧
      ∀ (calls : Nat) (c : Certificate), c.publicKey = Sample.keyed.publicKey →
        (Verifier.standard.checkInterest calls r c).1 = true := by
  have hgeneric : ∀ value, (⟨[.generic value]⟩ : Name).WellFormed := by
    intro value c hc
    rw [List.mem_singleton.1 hc]
    exact Component.check_eq_ok_iff.1 rfl
  obtain ⟨hdata, hinterest⟩ := signed_verified Sample.keyed (hgeneric _)
  constructor
  · have hmeta : Data.Sample.lax.metaInfo.WellFormed := by
      rintro d ⟨⟩
      exact ⟨9, by decide, rfl⟩
    have hperiod : ∀ v, Data.Sample.lax.signature.info.validity? = some v → v.Writable := by
      rintro v ⟨⟩
      exact ⟨by decide +kernel, by decide, by decide⟩
    have hshort : (Sample.keyed.signData Data.Sample.lax).encodeSigned.length < 1000 := by
      decide +kernel
    have hlen : (Sample.keyed.signData Data.Sample.lax).encode.length ≤
        (Sample.keyed.signData Data.Sample.lax).encodeSigned.length + 108 :=
      Data.length_encode_le rfl (Ecdsa.length_sign_le _ _)
    have hfits : Sample.keyed.Fits (Sample.keyed.signData Data.Sample.lax).signedPortion := by
      decide +kernel
    obtain ⟨r, hdecode, ⟨hname, hcontent, -⟩, hsigned, hverified⟩ :=
      (hdata Data.Sample.lax).2 (hgeneric _) hmeta hperiod (by omega)
    rw [hsigned] at hverified
    exact ⟨r, hdecode, ⟨hname, hcontent⟩, hverified hfits⟩
  · have hshort : (Sample.keyed.named Sample.question).encodeComponents.length < 1000 := by
      decide +kernel
    have hlen := length_encode_signInterest_le Sample.keyed Sample.question 7
    have hfits : Sample.keyed.Fits (Sample.keyed.signInterest Sample.question).signedPortion := by
      decide +kernel
    obtain ⟨⟨hlength, -⟩, hreceived⟩ := hinterest Sample.question 7
    obtain ⟨-, r, hdecode, hname, hsigned, hverified⟩ := hreceived (hgeneric _) (by omega)
    rw [hsigned] at hverified
    refine ⟨r, hdecode, ?_, hverified hfits⟩
    rw [hname, hlength]
    rfl

end Signer

end PacketTrust
