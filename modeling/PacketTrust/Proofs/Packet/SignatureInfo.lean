import PacketTrust.Proofs.Packet.Fields

/-! The wire form of signature information. Main statements: what is well formed is read back as it
was written, and what is read is well formed, if its period lies in years of four digits. -/

namespace PacketTrust

open Tlv

def Validity.FourDigitYears (v : Validity) : Prop :=
  (0 ≤ v.notBefore.year ∧ v.notBefore.year ≤ 9999) ∧ 0 ≤ v.notAfter.year ∧ v.notAfter.year ≤ 9999

instance (v : Validity) : Decidable v.FourDigitYears := inferInstanceAs (Decidable (_ ∧ _))

namespace Validity

theorem decodeTime_render_of_far {t : Instant} (h : ¬ (0 ≤ t.year ∧ t.year ≤ 9999)) :
    ∃ text problem, decodeTime (Utf8.encode (Stamp.render t)) =
      .error (.malformed (.time text problem)) := by
  obtain ⟨problem, hparse⟩ := Stamp.parse_render_of_far h
  refine ⟨String.ofList (Stamp.render t), problem, ?_⟩
  unfold decodeTime
  rw [Stamp.decode?_encode_render t]
  dsimp only
  rw [hparse]

/-- A period of whole seconds with an end in a year that has no four digits is not read back. -/
theorem decodeValue_encodeValue_of_far {v : Validity} (hbefore : v.notBefore.WholeSecond)
    (h : v.encodeValue.length < 2 ^ 64) (hyears : ¬ v.FourDigitYears) :
    ∃ text problem, decodeValue v.encodeValue = .error (.malformed (.time text problem)) := by
  have hlengths : (Utf8.encode (Stamp.render v.notBefore)).length < 2 ^ 64 ∧
      (Utf8.encode (Stamp.render v.notAfter)).length < 2 ^ 64 := by
    have := Spells.length_le_encode Types.notBefore (Utf8.encode (Stamp.render v.notBefore))
    have := Spells.length_le_encode Types.notAfter (Utf8.encode (Stamp.render v.notAfter))
    unfold encodeValue at h
    rw [List.length_append] at h
    omega
  unfold decodeValue encodeValue Cursor.start
  rw [Read.expected_of_spells (.encode _ hlengths.1)]
  dsimp only
  by_cases hyear : 0 ≤ v.notBefore.year ∧ v.notBefore.year ≤ 9999
  · obtain ⟨text, problem, hfails⟩ := decodeTime_render_of_far fun h => hyears ⟨hyear, h⟩
    have hread := Read.expected_of_spells (.encode Types.notAfter hlengths.2) []
    rw [List.append_nil] at hread
    refine ⟨text, problem, ?_⟩
    rw [decodeTime_render ⟨hbefore, hyear⟩]
    simp only [bind, Except.bind, Read.result, hread, hfails]
  · obtain ⟨text, problem, hfails⟩ := decodeTime_render_of_far hyear
    refine ⟨text, problem, ?_⟩
    rw [hfails]
    rfl

end Validity

namespace SignatureInfo

/-- The signature types that have a form of their own. -/
def ownTypes : List UInt64 :=
  [SignatureType.digestSha256, SignatureType.sha256WithRsa, SignatureType.sha256WithEcdsa,
    SignatureType.hmacWithSha256]

/-- The information is held in the form that its type has, and what it holds can be written. -/
structure WellFormed (s : SignatureInfo) : Prop where
  form : ∀ type k v, s = .generic type k v → type ∉ ownTypes
  keyLocator : ∀ k, s.keyLocator? = some k → k.WellFormed
  validity : ∀ v, s.validity? = some v → v.WellFormed

theorem ofParts_generic {type : UInt64} (h : type ∉ ownTypes) (k : Option KeyLocator)
    (v : Option Validity) : ofParts type k v = .generic type k v := by
  simp only [ownTypes, List.mem_cons, List.not_mem_nil, or_false, not_or] at h
  obtain ⟨hdigest, hrsa, hecdsa, hhmac⟩ := h
  rw [ofParts, if_neg hdigest, if_neg hrsa, if_neg hecdsa, if_neg hhmac]

theorem ofParts_parts {s : SignatureInfo}
    (h : ∀ type k v, s = .generic type k v → type ∉ ownTypes) :
    ofParts s.type s.keyLocator? s.validity? = s := by
  cases s with
  | generic type k v => exact ofParts_generic (h type k v rfl) k v
  | _ => rfl

theorem ofParts_holds (type : UInt64) (k : Option KeyLocator) (v : Option Validity) :
    (∀ type' k' v', ofParts type k v = .generic type' k' v' → type' ∉ ownTypes) ∧
      (∀ k', (ofParts type k v).keyLocator? = some k' → k = some k') ∧
      ∀ v', (ofParts type k v).validity? = some v' → v = some v' := by
  by_cases hown : type ∈ ownTypes
  · simp only [ownTypes, List.mem_cons, List.not_mem_nil, or_false] at hown
    rcases hown with rfl | rfl | rfl | rfl
    · exact ⟨nofun, nofun, nofun⟩
    · exact ⟨nofun, fun _ h => h, fun _ h => h⟩
    · exact ⟨nofun, fun _ h => h, fun _ h => h⟩
    · exact ⟨nofun, fun _ h => h, nofun⟩
  · rw [ofParts_generic hown]
    refine ⟨?_, fun _ h => h, fun _ h => h⟩
    intro type' k' v' h
    cases h
    exact hown

namespace Parts

theorem reads : Reads take takeAll := ⟨fun _ => rfl, fun _ _ => rfl, fun _ _ _ => rfl⟩

theorem take_keyLocator (p : Parts) {k : KeyLocator} (hk : k.WellFormed)
    (h : k.encodeValue.length < 2 ^ 64) (start stop : Nat) :
    p.take ⟨Types.keyLocator, k.encodeValue, start, stop⟩ =
      .ok { p with keyLocator := some k } := by
  rw [take, if_pos rfl, KeyLocator.decodeValue_encodeValue hk h]
  rfl

theorem take_validity (p : Parts) {v : Validity} (hv : v.WellFormed) (start stop : Nat) :
    p.take ⟨Types.validityPeriod, v.encodeValue, start, stop⟩ =
      .ok { p with validity := some v } := by
  have hne : ¬ Types.validityPeriod = Types.keyLocator := by decide
  rw [take, if_neg hne, if_pos rfl, Validity.decodeValue_encodeValue hv]
  rfl

/-- What has been told so far was written in no more octets than these, and some for the frame. -/
structure Bounded (octets : Nat) (p : Parts) : Prop where
  keyLocator : ∀ k, p.keyLocator = some k → k.WellFormed ∧ k.encode.length ≤ octets + 36
  validity : ∀ v, p.validity = some v → v.notBefore.WholeSecond ∧ v.notAfter.WholeSecond

theorem Bounded.take {octets : Nat} {p p' : Parts} {e : Element} (hp : p.Bounded octets)
    (he : (Tlv.encode e.type e.value).length ≤ octets) (h : p.take e = .ok p') :
    p'.Bounded octets := by
  unfold Parts.take at h
  split at h
  · obtain ⟨k, hk, h⟩ := ok_of_bind h
    cases h
    refine ⟨?_, hp.validity⟩
    intro k' hk'
    cases hk'
    obtain ⟨hwf, hvalue⟩ := KeyLocator.decodeValue_ok hk
    have hbody := Spells.length_le_encode e.type e.value
    have := Tlv.length_encode_le Types.keyLocator k.encodeValue
    refine ⟨hwf, ?_⟩
    unfold KeyLocator.encode
    omega
  split at h
  · obtain ⟨v, hv, h⟩ := ok_of_bind h
    cases h
    refine ⟨hp.keyLocator, ?_⟩
    intro v' hv'
    cases hv'
    exact Validity.decodeValue_ok hv
  split at h
  · cases h
  · cases h
    exact hp

end Parts

variable {s : SignatureInfo} {value : Bytes}

/-- Behind the type stand the parts. -/
theorem decodeValue_encodeValue_eq (s : SignatureInfo) : decodeValue s.encodeValue = (do
    let parts ← Parts.takeAll {} (.read
      ⟨s.keyLocator?.elim [] KeyLocator.encode ++ s.validity?.elim [] Validity.encode,
        (encodeNumberElement Types.signatureType s.type).length⟩)
    pure (ofParts s.type parts.keyLocator parts.validity)) := by
  have hfirst : Spells (encodeNumberElement Types.signatureType s.type) Types.signatureType
      (encodeNumber s.type) := by
    apply Spells.encode
    have := length_encodeNumber_le s.type
    omega
  unfold decodeValue encodeValue Cursor.start
  rw [Read.expected_of_spells hfirst, Nat.zero_add]
  dsimp only
  rw [decodeNumber_encodeNumber]
  rfl

theorem tells_keyLocator (hk : ∀ k, s.keyLocator? = some k → k.WellFormed)
    (h : s.encodeValue.length < 2 ^ 64) (q : Nat) :
    Tells Parts.take q (s.keyLocator?.elim [] KeyLocator.encode) {}
      { keyLocator := s.keyLocator? } := by
  have hlocator : (s.keyLocator?.elim [] KeyLocator.encode).length < 2 ^ 64 := by
    unfold encodeValue at h
    simp only [List.length_append] at h
    omega
  cases hs : s.keyLocator? with
  | none => exact .nil _ _ _
  | some k =>
    rw [hs] at hlocator
    have hbody : k.encodeValue.length < 2 ^ 64 :=
      Nat.lt_of_le_of_lt (Spells.length_le_encode Types.keyLocator _) hlocator
    exact .encode hbody fun start stop => Parts.take_keyLocator {} (hk k hs) hbody _ _

theorem length_encodeValue_validity {v : Validity} (h : s.encodeValue.length < 2 ^ 64)
    (hv : s.validity? = some v) : v.encodeValue.length < 2 ^ 64 := by
  have := Spells.length_le_encode Types.validityPeriod v.encodeValue
  unfold encodeValue Validity.encode at h
  simp only [hv, Option.elim_some, List.length_append] at h
  omega

theorem decodeValue_encodeValue (hs : s.WellFormed) (h : s.encodeValue.length < 2 ^ 64) :
    decodeValue s.encodeValue = .ok s := by
  have hperiod : ∀ q, Tells Parts.take q (s.validity?.elim [] Validity.encode)
      { keyLocator := s.keyLocator? } ⟨s.keyLocator?, s.validity?⟩ := by
    intro q
    cases hv : s.validity? with
    | none => exact .nil _ _ _
    | some v =>
      have hwf := hs.validity v hv
      exact .encode (length_encodeValue_validity h hv) fun start stop =>
        Parts.take_validity _ hwf _ _
  have htold : Parts.takeAll {} (.read
      ⟨s.keyLocator?.elim [] KeyLocator.encode ++ s.validity?.elim [] Validity.encode,
        (encodeNumberElement Types.signatureType s.type).length⟩) =
      .ok ⟨s.keyLocator?, s.validity?⟩ :=
    Parts.reads.read_eq_ok_iff.2 ((tells_keyLocator hs.keyLocator h _).append (hperiod _))
  rw [decodeValue_encodeValue_eq, htold]
  exact congrArg Except.ok (ofParts_parts hs.form)

/-- Information about a period that is not read back is not read back either. -/
theorem decodeValue_encodeValue_error {v : Validity} {problem : Error}
    (hk : ∀ k, s.keyLocator? = some k → k.WellFormed) (h : s.encodeValue.length < 2 ^ 64)
    (hv : s.validity? = some v) (hfails : Validity.decodeValue v.encodeValue = .error problem) :
    decodeValue s.encodeValue = .error problem := by
  have hbody := length_encodeValue_validity h hv
  have htake : ∀ start stop, Parts.take { keyLocator := s.keyLocator? }
      ⟨Types.validityPeriod, v.encodeValue, start, stop⟩ = .error problem := by
    intro start stop
    have hne : ¬ Types.validityPeriod = Types.keyLocator := by decide
    rw [Parts.take, if_neg hne, if_pos rfl, hfails]
    rfl
  have htold := Parts.reads.read_error (tells_keyLocator hk h
    (encodeNumberElement Types.signatureType s.type).length) hbody htake []
  rw [List.append_nil] at htold
  rw [decodeValue_encodeValue_eq, hv, Option.elim_some]
  unfold Validity.encode
  rw [htold]
  rfl

theorem decodeValue_ok (h : decodeValue value = .ok s)
    (hyears : ∀ v, s.validity? = some v → v.FourDigitYears) :
    s.WellFormed ∧ s.encodeValue.length ≤ value.length + 236 := by
  unfold decodeValue at h
  split at h
  · cases h
  rename_i first c hfirst
  obtain ⟨type, -, h⟩ := ok_of_bind h
  obtain ⟨parts, hparts, h⟩ := ok_of_bind h
  cases h
  obtain ⟨hform, hlocator, hperiod⟩ := ofParts_holds type parts.keyLocator parts.validity
  obtain ⟨wire, hrest, -⟩ := spells_of_element (Read.expected_ok hfirst).1
  have hlen : c.rest.length ≤ value.length := by
    have hvalue : value = wire ++ c.rest := hrest
    rw [hvalue, List.length_append]
    omega
  have hbounded : parts.Bounded c.rest.length :=
    (Parts.reads.read_eq_ok_iff.1 hparts).invariant ⟨nofun, nofun⟩
      fun p e p' he htake hp => hp.take he htake
  have hwf : (ofParts type parts.keyLocator parts.validity).WellFormed := by
    refine ⟨hform, fun k hk => (hbounded.keyLocator k (hlocator k hk)).1, fun v hv => ?_⟩
    obtain ⟨hbefore, hafter⟩ := hbounded.validity v (hperiod v hv)
    obtain ⟨hyear, hyear'⟩ := hyears v hv
    exact ⟨⟨hbefore, hyear⟩, ⟨hafter, hyear'⟩⟩
  refine ⟨hwf, ?_⟩
  generalize hs : ofParts type parts.keyLocator parts.validity = s at *
  have htype := length_encodeNumberElement_le Types.signatureType s.type
  have hkey : (s.keyLocator?.elim [] KeyLocator.encode).length ≤ c.rest.length + 36 := by
    cases hk : s.keyLocator? with
    | none => simp
    | some k => exact (hbounded.keyLocator k (hlocator k hk)).2
  have hvalidity : (s.validity?.elim [] Validity.encode).length ≤ 174 := by
    cases hv : s.validity? with
    | none => simp
    | some v => exact Validity.length_encode_le (hwf.validity v hv)
  unfold encodeValue
  simp only [List.length_append]
  omega

end SignatureInfo

end PacketTrust
