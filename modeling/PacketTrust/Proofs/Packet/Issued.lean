import PacketTrust.Proofs.Bytes.Base64
import PacketTrust.Proofs.Packet.RoundTrip
import PacketTrust.Signer

/-! Certificates on their way from the signer to a reader. A year that has not four digits is
written with a sign in front, and then year, month and day are read as one number, so that nothing
is read back. -/

namespace PacketTrust

open Tlv

theorem Name.WellFormed.push {n : Name} {c : Component} (hn : n.WellFormed) (hc : c.WellFormed) :
    (n.push c).WellFormed := by
  intro c' hc'
  rcases List.mem_append.1 hc' with hc' | hc'
  · exact hn c' hc'
  · rw [List.mem_singleton.1 hc']
    exact hc

theorem Name.mem_of_get? {n : Name} {index : Int} {c : Component} (h : n.get? index = some c) :
    c ∈ n.components := by
  unfold get? at h
  split at h
  · exact List.mem_of_getElem? h
  split at h
  · exact List.mem_of_getElem? h
  · cases h

namespace Der

variable {n width : Nat}

theorem length_octets_le (h : n < 256 ^ width) : (octets n).length ≤ width := by
  induction width generalizing n with
  | zero =>
    have hzero : n = 0 := by omega
    rw [octets, if_pos hzero]
    exact Nat.le_refl 0
  | succ width ih =>
    rw [octets]
    split
    · exact Nat.zero_le _
    · have hrest : n / 256 < 256 ^ width := by
        rw [Nat.div_lt_iff_lt_mul (by omega), ← Nat.pow_succ]
        exact h
      have := ih hrest
      rw [List.length_append, List.length_singleton]
      omega

theorem length_encode_short (tag : UInt8) {value : Bytes} (h : value.length < 128) :
    (encode tag value).length = value.length + 2 := by
  unfold encode encodeLength
  rw [if_pos h, List.length_append]
  simp only [List.length_cons, List.length_nil]
  omega

theorem length_encodeNatural_le (h : n < 256 ^ width) (hw : 0 < width ∧ width < 127) :
    (encodeNatural n).length ≤ width + 3 := by
  have hoctets := length_octets_le h
  unfold encodeNatural
  split
  · rw [length_encode_short _ (by simp)]
    simp only [List.length_singleton]
    omega
  · rename_i b rest hn
    rw [hn, List.length_cons] at hoctets
    split
    · rw [length_encode_short _ (by rw [List.length_cons]; omega), List.length_cons]
      omega
    · rw [length_encode_short _ (by rw [List.length_cons, List.length_cons]; omega),
        List.length_cons, List.length_cons]
      omega

end Der

theorem Ecdsa.length_sign_le (secret : Nat) (message : Bytes) :
    (sign secret message).length ≤ 72 := by
  have hnumber : ∀ n, (Der.encodeNatural (n % P256.order)).length ≤ 35 := by
    intro n
    have horder : P256.order < 256 ^ 32 := by decide
    have hn : n % P256.order < P256.order := Nat.mod_lt _ (by decide)
    exact Der.length_encodeNatural_le (Nat.lt_trans hn horder) (by decide)
  obtain ⟨r, t, hpair⟩ : ∃ r t, signPair secret message = (r % P256.order, t % P256.order) :=
    ⟨_, _, rfl⟩
  have hboth :
      (Der.encodeNatural (r % P256.order) ++ Der.encodeNatural (t % P256.order)).length ≤ 70 := by
    have := hnumber r
    have := hnumber t
    rw [List.length_append]
    omega
  unfold sign
  rw [hpair]
  dsimp only
  rw [Der.length_encode_short _ (by omega)]
  omega

/-- Around what is signed there is not much more than the signature value. -/
theorem Data.length_encode_le {d : Data} (hr : d.received = none)
    (h : d.signature.value.length ≤ 72) :
    d.encode.length ≤ d.encodeSigned.length + 108 := by
  have hvalue := Tlv.length_encode_le Types.signatureValue d.signature.value
  have hbody := Tlv.length_encode_le Types.data (d.encodeSigned ++ d.signature.encodeValue)
  rw [Data.encode_of_fresh hr]
  unfold Signature.encodeValue at hbody ⊢
  rw [List.length_append] at hbody
  omega

namespace Certificate

variable {d : Data} {c c' : Certificate}

theorem ofData_eq_ok_iff : ofData d = .ok c ↔ isName d.name ∧
    d.metaInfo.contentType = ContentType.key ∧ ¬ d.content.isEmpty ∧
      d.signature.info.validity? = some c.validity ∧ c.data = d := by
  obtain ⟨data, validity⟩ := c
  unfold ofData
  by_cases hname : isName d.name
  case neg => simp [hname]
  by_cases htype : d.metaInfo.contentType = ContentType.key
  case neg => simp [htype, hname]
  by_cases hcontent : d.content.isEmpty
  case pos => simp [hcontent, htype, hname]
  rw [if_neg (by rw [hname]; exact Bool.false_ne_true), if_neg (not_not_intro htype),
    if_neg hcontent]
  cases d.signature.info.validity? with
  | none => simp
  | some v =>
    constructor
    · rintro ⟨⟩
      exact ⟨hname, htype, hcontent, rfl, rfl⟩
    · rintro ⟨-, -, -, ⟨⟩, rfl⟩
      rfl

theorem ofBase64_toBase64 (c : Certificate) : ofBase64 c.toBase64 = decode c.encode := by
  unfold ofBase64 toBase64
  rw [String.toList_ofList, Base64.withoutBlanks_encode, Base64.decode?_encode]

structure Same (c c' : Certificate) : Prop where
  name : c'.name = c.name
  publicKey : c'.publicKey = c.publicKey
  validity : c'.validity = c.validity
  signature : c'.data.signature = c.data.signature
  signedPortion : c'.data.signedPortion = c.data.signedPortion

theorem exists_decode_encode (hc : ofData c.data = .ok c) (hd : c.data.WellFormed)
    (hr : c.data.received = none) (hlen : c.encode.length < 2 ^ 64) :
    ∃ c', decode c.encode = .ok c' ∧ c.Same c' := by
  obtain ⟨received, hdecode, -, hsigned⟩ := Data.exists_decode_encode hd hr hlen
  obtain ⟨hname, htype, hcontent, hvalidity, -⟩ := ofData_eq_ok_iff.1 hc
  have hread : ofData { c.data with received := some received } =
      .ok ⟨{ c.data with received := some received }, c.validity⟩ :=
    ofData_eq_ok_iff.2 ⟨hname, htype, hcontent, hvalidity, rfl⟩
  refine ⟨⟨{ c.data with received := some received }, c.validity⟩, ?_, rfl, rfl, rfl, rfl, ?_⟩
  · unfold decode encode
    rw [hdecode]
    exact hread
  · unfold Data.signedPortion
    rw [hr]
    exact hsigned

/-- A certificate with an end in a year that has no four digits is not read back. -/
theorem decode_encode_of_far {c : Certificate} (hc : ofData c.data = .ok c)
    (hname : c.name.WellFormed) (hmeta : c.data.metaInfo.WellFormed)
    (hlocator : ∀ k, c.data.signature.info.keyLocator? = some k → k.WellFormed)
    (hwhole : c.validity.notBefore.WholeSecond) (hr : c.data.received = none)
    (hlen : c.encode.length < 2 ^ 64) (hyears : ¬ c.validity.FourDigitYears) :
    ∃ text problem, decode c.encode = .error (.decode (.malformed (.time text problem))) := by
  obtain ⟨-, -, -, hvalidity, -⟩ := ofData_eq_ok_iff.1 hc
  have hinfo := (Data.short_of_length_encode hr hlen).info
  obtain ⟨text, problem, hperiod⟩ := Validity.decodeValue_encodeValue_of_far hwhole
    (SignatureInfo.length_encodeValue_validity hinfo hvalidity) hyears
  have hfails :=
    SignatureInfo.decodeValue_encodeValue_error hlocator hinfo hvalidity hperiod
  refine ⟨text, problem, ?_⟩
  unfold decode encode
  rw [Data.decode_encode_error hname hmeta hr hlen hfails]

end Certificate

namespace Signer

variable {s : Signer} {subject : Name} {issuer : Component} {publicKey : Bytes}
  {notBefore notAfter : Instant} {version : UInt64} {c : Certificate}

/-- The certificate is one that the signer writes for a period: it is accepted before it is sent,
and signed by the key. -/
structure Wrote (s : Signer) (validity : Validity) (c : Certificate) : Prop where
  accepted : Certificate.ofData c.data = .ok c
  name : c.name.WellFormed
  metaInfo : c.data.metaInfo.WellFormed
  info : c.data.signature.info = s.info (some validity)
  value : c.data.signature.value = s.sign c.data.encodeSigned
  received : c.data.received = none

theorem wrote_of_certify {validity : Validity} (hsubject : subject.WellFormed)
    (hissuer : issuer.WellFormed)
    (hc : s.certify subject issuer publicKey validity version = .ok c) : s.Wrote validity c := by
  have hdata := (Certificate.ofData_eq_ok_iff.1 hc).2.2.2.2
  constructor
  case accepted =>
    rw [hdata]
    exact hc
  case name =>
    unfold Certificate.name
    rw [hdata]
    exact (hsubject.push hissuer).push (Component.check_eq_ok_iff.1 rfl)
  case metaInfo =>
    rw [hdata]
    rintro d ⟨⟩
    exact ⟨3600000, by decide, rfl⟩
  case info =>
    rw [hdata]
    rfl
  case value =>
    rw [hdata]
    rfl
  case received =>
    rw [hdata]
    rfl

theorem wrote_of_issue {validity : Validity} (hs : s.keyName.WellFormed)
    (hsubject : subject.WellFormed) (hc : s.issue subject publicKey validity version = .ok c ∨
      s.selfSign validity version = .ok c) : s.Wrote validity c := by
  have hself : selfIssuer.WellFormed := Component.check_eq_ok_iff.1 rfl
  rcases hc with hc | hc
  · refine wrote_of_certify hsubject ?_ hc
    cases hlast : s.keyName.get? (-1) with
    | none => exact hself
    | some last => exact hs last (Name.mem_of_get? hlast)
  · exact wrote_of_certify hs hself hc

theorem Wrote.validity {validity : Validity} (h : s.Wrote validity c) : c.validity = validity := by
  have hvalidity := (Certificate.ofData_eq_ok_iff.1 h.accepted).2.2.2.1
  rw [h.info] at hvalidity
  exact (Option.some.inj hvalidity).symm

theorem Wrote.keyLocator {validity : Validity} (h : s.Wrote validity c) (hs : s.keyName.WellFormed)
    (k : KeyLocator) (hk : c.data.signature.info.keyLocator? = some k) : k.WellFormed := by
  rw [h.info] at hk
  cases hk
  exact hs

theorem Wrote.length_encode_le {validity : Validity} (h : s.Wrote validity c) :
    c.encode.length ≤ c.data.encodeSigned.length + 108 := by
  apply Data.length_encode_le h.received
  rw [h.value]
  exact Ecdsa.length_sign_le s.secret _

/-- Whatever a signer issued, for another key or for its own, is read back from its wire and
from its text if both ends of its period lie in years of four digits, and from neither if one
does not. -/
theorem issued_read_back (hs : s.keyName.WellFormed) (hsubject : subject.WellFormed)
    (hc : s.issue subject publicKey (.ofInstants notBefore notAfter) version = .ok c ∨
      s.selfSign (.ofInstants notBefore notAfter) version = .ok c)
    (hlen : c.encode.length < 2 ^ 64) :
    ((Validity.ofInstants notBefore notAfter).FourDigitYears →
      ∃ c', Certificate.decode c.encode = .ok c' ∧ Certificate.ofBase64 c.toBase64 = .ok c' ∧
        c.Same c') ∧
    (¬ (Validity.ofInstants notBefore notAfter).FourDigitYears →
      ∃ text problem, Certificate.decode c.encode =
        .error (.decode (.malformed (.time text problem))) ∧
        Certificate.ofBase64 c.toBase64 = .error (.decode (.malformed (.time text problem)))) := by
  have hwrote := wrote_of_issue hs hsubject hc
  rw [Certificate.ofBase64_toBase64, ← hwrote.validity]
  constructor
  · intro hyears
    have hinfo : c.data.signature.info.WellFormed := by
      refine ⟨?_, hwrote.keyLocator hs, ?_⟩
      · rw [hwrote.info]
        exact nofun
      · intro v hv
        rw [hwrote.info] at hv
        cases hv
        rw [hwrote.validity] at hyears
        exact ⟨⟨.inl rfl, hyears.1⟩, ⟨.inl rfl, hyears.2⟩⟩
    obtain ⟨c', hdecode, hsame⟩ := Certificate.exists_decode_encode hwrote.accepted
      ⟨hwrote.name, hwrote.metaInfo, hinfo⟩ hwrote.received hlen
    exact ⟨c', hdecode, hdecode, hsame⟩
  · intro hyears
    have hwhole : c.validity.notBefore.WholeSecond := by
      rw [hwrote.validity]
      exact .inl rfl
    obtain ⟨text, problem, hdecode⟩ := Certificate.decode_encode_of_far hwrote.accepted hwrote.name
      hwrote.metaInfo (hwrote.keyLocator hs) hwhole hwrote.received hlen hyears
    exact ⟨text, problem, hdecode, hdecode⟩

def Sample.issuing : Signer := ⟨⟨[.generic [97], Certificate.keyMark, .generic [107]]⟩, 1⟩
def Sample.otherKey : Name := ⟨[.generic [98], Certificate.keyMark, .generic [108]]⟩

/-- The last nanosecond of the year 9999 can be reached, the first second behind it cannot. -/
theorem issued_read_back_sample :
    (∃ c c',
      Sample.issuing.issue Sample.otherKey [1, 2]
        (.ofInstants ⟨0, 0⟩ ⟨253402300799, 999999999⟩) 1 = .ok c ∧
      Certificate.decode c.encode = .ok c' ∧ Certificate.ofBase64 c.toBase64 = .ok c' ∧ c.Same c') ∧
    ∃ c text problem,
      Sample.issuing.issue Sample.otherKey [1, 2] (.ofInstants ⟨0, 0⟩ ⟨253402300800, 0⟩) 1 = .ok c ∧
        Certificate.decode c.encode = .error (.decode (.malformed (.time text problem))) ∧
        Certificate.ofBase64 c.toBase64 = .error (.decode (.malformed (.time text problem))) := by
  have hs : Sample.issuing.keyName.WellFormed := by
    intro c hc
    simp only [Sample.issuing, List.mem_cons, List.not_mem_nil, or_false] at hc
    rcases hc with rfl | rfl | rfl <;> exact Component.check_eq_ok_iff.1 rfl
  have hsubject : Sample.otherKey.WellFormed := by
    intro c hc
    simp only [Sample.otherKey, List.mem_cons, List.not_mem_nil, or_false] at hc
    rcases hc with rfl | rfl | rfl <;> exact Component.check_eq_ok_iff.1 rfl
  constructor
  · obtain ⟨c, hc, hsigned⟩ : ∃ c, Sample.issuing.issue Sample.otherKey [1, 2]
        (.ofInstants ⟨0, 0⟩ ⟨253402300799, 999999999⟩) 1 = .ok c ∧
          c.data.encodeSigned.length < 1000 :=
      ⟨_, rfl, by decide +kernel⟩
    have hlen := (wrote_of_issue hs hsubject (.inl hc)).length_encode_le
    obtain ⟨c', hdecode, hbase64, hsame⟩ :=
      (issued_read_back hs hsubject (.inl hc) (by omega)).1 (by decide +kernel)
    exact ⟨c, c', hc, hdecode, hbase64, hsame⟩
  · obtain ⟨c, hc, hsigned⟩ : ∃ c, Sample.issuing.issue Sample.otherKey [1, 2]
        (.ofInstants ⟨0, 0⟩ ⟨253402300800, 0⟩) 1 = .ok c ∧ c.data.encodeSigned.length < 1000 :=
      ⟨_, rfl, by decide +kernel⟩
    have hlen := (wrote_of_issue hs hsubject (.inl hc)).length_encode_le
    obtain ⟨text, problem, hdecode, hbase64⟩ :=
      (issued_read_back hs hsubject (.inl hc) (by omega)).2 (by decide +kernel)
    exact ⟨c, text, problem, hc, hdecode, hbase64⟩

end Signer

end PacketTrust
