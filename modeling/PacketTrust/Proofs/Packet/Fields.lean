import PacketTrust.Packet.MetaInfo
import PacketTrust.Packet.Signature
import PacketTrust.Proofs.Name.Wire
import PacketTrust.Proofs.Time.Stamp

/-! The wire forms of what packets hold: meta information, key locators, validity periods and
signature information. Main statements, for each of them: what is well formed is read back as it
was written, and what is read is well formed and written in not many more octets than it was
read from. -/

namespace PacketTrust

open Tlv

theorem Utf8.length_encode_le (text : List Char) : (encode text).length ≤ 4 * text.length := by
  induction text with
  | nil => exact Nat.le_refl 0
  | cons c rest ih =>
    have hc : (String.utf8EncodeChar c).length ≤ 4 := by
      rw [String.length_utf8EncodeChar]
      exact c.utf8Size_le_four
    unfold encode at ih ⊢
    rw [List.flatMap_cons, List.length_append, List.length_cons]
    omega

/-- Whole milliseconds, no more of them than 64 bits hold. -/
def Duration.WholeMillis (d : Duration) : Prop := ∃ ms < 2 ^ 64, d = .ofMillis ms

theorem Duration.wholeMillis_ofMillis (n : UInt64) : (ofMillis n.toNat).WholeMillis :=
  ⟨n.toNat, n.toNat_lt, rfl⟩

/-- The milliseconds that are written are all that there is to the duration. -/
theorem Duration.WholeMillis.ofMillis_millis {d : Duration} (h : d.WholeMillis) :
    ofMillis (UInt64.ofNat d.millis).toNat = d := by
  obtain ⟨ms, hms, rfl⟩ := h
  rw [millis_ofMillis, UInt64.toNat_ofNat', Nat.mod_eq_of_lt hms]

namespace MetaInfo

def WellFormed (m : MetaInfo) : Prop := ∀ d, m.freshness = some d → d.WholeMillis

theorem reads : Reads take takeAll := ⟨fun _ => rfl, fun _ _ => rfl, fun _ _ _ => rfl⟩

variable {m m' : MetaInfo} {e : Element} {value : Bytes}

theorem take_contentType (m : MetaInfo) (n : UInt64) (start stop : Nat) :
    m.take ⟨Types.contentType, encodeNumber n, start, stop⟩ = .ok { m with contentType := n } := by
  rw [take, if_pos rfl, decodeNumber_encodeNumber]
  rfl

theorem take_freshness (m : MetaInfo) (n : UInt64) (start stop : Nat) :
    m.take ⟨Types.freshnessPeriod, encodeNumber n, start, stop⟩ =
      .ok { m with freshness := some (.ofMillis n.toNat) } := by
  have hne : ¬ Types.freshnessPeriod = Types.contentType := by decide
  rw [take, if_neg hne, if_pos rfl, decodeNumber_encodeNumber]
  rfl

theorem WellFormed.take (hm : m.WellFormed) (h : m.take e = .ok m') : m'.WellFormed := by
  unfold MetaInfo.take at h
  split at h
  · obtain ⟨n, -, h⟩ := ok_of_bind h
    cases h
    exact hm
  split at h
  · obtain ⟨n, -, h⟩ := ok_of_bind h
    cases h
    intro d hd
    cases hd
    exact Duration.wholeMillis_ofMillis n
  · cases h
    exact hm

theorem decodeValue_encodeValue (hm : m.WellFormed) : decodeValue m.encodeValue = .ok m := by
  have hnumber : ∀ n, (encodeNumber n).length < 2 ^ 64 := by
    intro n
    have := length_encodeNumber_le n
    omega
  have hcontent : Tells MetaInfo.take 0
      (if m.contentType = ContentType.blob then []
        else encodeNumberElement Types.contentType m.contentType)
      {} { contentType := m.contentType } := by
    split
    · rename_i hblob
      rw [hblob]
      exact .nil _ _ _
    · exact .encode (hnumber _) fun start stop => take_contentType _ _ start stop
  refine reads.read_eq_ok_iff.2 (hcontent.append ?_)
  obtain ⟨type, freshness⟩ := m
  cases freshness with
  | none => exact .nil _ _ _
  | some d =>
    refine .encode (hnumber _) fun start stop => ?_
    rw [take_freshness, (hm d rfl).ofMillis_millis]

theorem wellFormed_of_decodeValue (h : decodeValue value = .ok m) : m.WellFormed := by
  have htold : Tells MetaInfo.take 0 value {} m := reads.read_eq_ok_iff.1 h
  refine htold.invariant (P := WellFormed) nofun fun p e p' _ htake hp => hp.take htake

theorem length_encode_le (m : MetaInfo) : m.encode.length ≤ 70 := by
  have hcontent : (if m.contentType = ContentType.blob then []
      else encodeNumberElement Types.contentType m.contentType).length ≤ 26 := by
    split
    · simp
    · exact length_encodeNumberElement_le _ _
  have hvalue : m.encodeValue.length ≤ 52 := by
    unfold encodeValue
    rw [List.length_append]
    refine Nat.add_le_add (b := 26) (d := 26) hcontent ?_
    split
    · simp
    · exact length_encodeNumberElement_le _ _
  have := Tlv.length_encode_le Types.metaInfo m.encodeValue
  unfold encode
  omega

end MetaInfo

namespace KeyLocator

def WellFormed : KeyLocator → Prop
  | name n => n.WellFormed
  | digest _ => True

variable {k : KeyLocator} {value : Bytes}

theorem decodeValue_encodeValue (hk : k.WellFormed) (h : k.encodeValue.length < 2 ^ 64) :
    decodeValue k.encodeValue = .ok k := by
  have hread : ∀ type body, (Tlv.encode type body).length < 2 ^ 64 →
      Read.element.result (.start (Tlv.encode type body)) =
        .ok ⟨type, body, 0, (Tlv.encode type body).length⟩ := by
    intro type body hlen
    have hbody : body.length < 2 ^ 64 := Nat.lt_of_le_of_lt (Spells.length_le_encode type body) hlen
    have helement := (Spells.encode type hbody).read [] 0
    rw [List.append_nil, Nat.zero_add] at helement
    unfold Read.result Cursor.start
    rw [helement]
  cases k with
  | name n =>
    have hcomponents : n.encodeComponents.length < 2 ^ 64 :=
      Nat.lt_of_le_of_lt (Spells.length_le_encode Types.name _) h
    have hname := Name.decodeValue_encodeComponents hk hcomponents
    unfold decodeValue encodeValue Name.encode
    rw [hread _ _ h]
    simp only [bind, Except.bind, if_pos, hname]
    rfl
  | digest d =>
    have hne : ¬ Types.keyDigest = Types.name := by decide
    unfold decodeValue encodeValue
    rw [hread _ _ h]
    simp only [bind, Except.bind, if_neg hne, if_pos]
    rfl

theorem decodeValue_ok (h : decodeValue value = .ok k) :
    k.WellFormed ∧ k.encodeValue.length ≤ value.length + 18 := by
  obtain ⟨e, he, hk⟩ := ok_of_bind h
  have hlen : e.value.length ≤ value.length := by
    unfold Read.result at he
    split at he
    · rename_i e' c helement
      cases he
      obtain ⟨wire, hrest, hs, -⟩ := spells_of_element helement
      obtain ⟨header, hheader⟩ := hs.suffix
      have hvalue : value = wire ++ c.rest := hrest
      rw [hvalue, hheader]
      simp only [List.length_append]
      omega
    · cases he
  split at hk
  · obtain ⟨n, hn, hk⟩ := ok_of_bind hk
    cases hk
    obtain ⟨hwf, hcomponents⟩ := Name.decodeValue_ok hn
    have := Tlv.length_encode_le Types.name n.encodeComponents
    refine ⟨hwf, ?_⟩
    show (Tlv.encode Types.name n.encodeComponents).length ≤ _
    omega
  split at hk
  · cases hk
    have := Tlv.length_encode_le Types.keyDigest e.value
    refine ⟨trivial, ?_⟩
    show (Tlv.encode Types.keyDigest e.value).length ≤ _
    omega
  · cases hk

end KeyLocator

namespace Validity

structure WellFormed (v : Validity) : Prop where
  notBefore : v.notBefore.Printable
  notAfter : v.notAfter.Printable

variable {v : Validity} {value : Bytes} {t : Instant}

theorem decodeTime_render (h : t.Printable) :
    decodeTime (Utf8.encode (Stamp.render t)) = .ok t := by
  unfold decodeTime
  rw [Stamp.decode?_encode_render t]
  dsimp only
  rw [Stamp.parse_render h]

theorem wholeSecond_of_decodeTime (h : decodeTime value = .ok t) : t.WholeSecond := by
  unfold decodeTime at h
  split at h
  · cases h
  split at h
  · rename_i hparse
    cases h
    exact Stamp.wholeSecond_of_parse hparse
  · cases h

theorem length_encode_render_le (h : t.Printable) :
    (Utf8.encode (Stamp.render t)).length ≤ 60 := by
  have := Utf8.length_encode_le (Stamp.render t)
  rw [Stamp.length_render h] at this
  omega

theorem decodeValue_encodeValue (h : v.WellFormed) : decodeValue v.encodeValue = .ok v := by
  obtain ⟨hbefore, hafter⟩ := h
  have hfirst : Spells (Tlv.encode Types.notBefore (Utf8.encode (Stamp.render v.notBefore)))
      Types.notBefore (Utf8.encode (Stamp.render v.notBefore)) :=
    .encode _ (Nat.lt_of_le_of_lt (length_encode_render_le hbefore) (by omega))
  have hsecond : Spells (Tlv.encode Types.notAfter (Utf8.encode (Stamp.render v.notAfter)))
      Types.notAfter (Utf8.encode (Stamp.render v.notAfter)) :=
    .encode _ (Nat.lt_of_le_of_lt (length_encode_render_le hafter) (by omega))
  unfold decodeValue encodeValue Cursor.start
  rw [Read.expected_of_spells hfirst]
  dsimp only
  rw [decodeTime_render hbefore]
  have hread := Read.expected_of_spells hsecond []
  simp only [List.append_nil] at hread
  simp only [bind, Except.bind, Read.result, hread, decodeTime_render hafter]
  rfl

theorem decodeValue_ok (h : decodeValue value = .ok v) :
    v.notBefore.WholeSecond ∧ v.notAfter.WholeSecond := by
  unfold decodeValue at h
  split at h
  · cases h
  · obtain ⟨notBefore, hbefore, h⟩ := ok_of_bind h
    obtain ⟨second, -, h⟩ := ok_of_bind h
    obtain ⟨notAfter, hafter, h⟩ := ok_of_bind h
    cases h
    exact ⟨wholeSecond_of_decodeTime hbefore, wholeSecond_of_decodeTime hafter⟩

theorem length_encode_le (h : v.WellFormed) : v.encode.length ≤ 174 := by
  have hbefore := length_encode_render_le h.notBefore
  have hafter := length_encode_render_le h.notAfter
  have := Tlv.length_encode_le Types.notBefore (Utf8.encode (Stamp.render v.notBefore))
  have := Tlv.length_encode_le Types.notAfter (Utf8.encode (Stamp.render v.notAfter))
  have := Tlv.length_encode_le Types.validityPeriod v.encodeValue
  unfold encode
  unfold encodeValue at this ⊢
  rw [List.length_append] at this
  omega

end Validity

end PacketTrust
