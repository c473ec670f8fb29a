import PacketTrust.Packet.Interest
import PacketTrust.Proofs.Packet.Fields

/-! The wire form of Interests. Main statements: a well-formed Interest is read back as it was
written, and its receiver finds the signature and what that covers as they were sent. What is read
is written in not many more octets than it was read from. -/

namespace PacketTrust.Interest

open Tlv

structure WellFormed (i : Interest) : Prop where
  name : i.name.WellFormed
  lifetime : i.lifetime.WholeMillis

theorem reads : Reads takeElement takeAll := ⟨fun _ => rfl, fun _ _ => rfl, fun _ _ _ => rfl⟩

variable {i i' : Interest} {e : Element} {wire : Bytes} {fresh : UInt32}

theorem takeElement_canBePrefix (i : Interest) (start stop : Nat) :
    i.takeElement ⟨Types.canBePrefix, [], start, stop⟩ = .ok { i with canBePrefix := true } := by
  rw [takeElement, if_pos rfl]
  rfl

theorem takeElement_mustBeFresh (i : Interest) (start stop : Nat) :
    i.takeElement ⟨Types.mustBeFresh, [], start, stop⟩ = .ok { i with mustBeFresh := true } := by
  have hcan : ¬ Types.mustBeFresh = Types.canBePrefix := by decide
  rw [takeElement, if_neg hcan, if_pos rfl]
  rfl

theorem takeElement_nonce (i : Interest) (n : UInt32) (start stop : Nat) :
    i.takeElement ⟨Types.nonce, Bytes.bigEndian 4 n.toNat, start, stop⟩ =
      .ok { i with nonce := some n } := by
  have hcan : ¬ Types.nonce = Types.canBePrefix := by decide
  have hfresh : ¬ Types.nonce = Types.mustBeFresh := by decide
  have hlength : (Bytes.bigEndian 4 n.toNat).length = 4 := Bytes.length_bigEndian _ _
  have hvalue : UInt32.ofNat (Bytes.toNat (Bytes.bigEndian 4 n.toNat)) = n := by
    have hlt : n.toNat < 256 ^ 4 := n.toNat_lt
    rw [Bytes.toNat_bigEndian, Nat.mod_eq_of_lt hlt, UInt32.ofNat_toNat]
  rw [takeElement, if_neg hcan, if_neg hfresh, if_pos rfl, if_pos hlength, hvalue]
  rfl

theorem takeElement_lifetime (i : Interest) (n : UInt64) (start stop : Nat) :
    i.takeElement ⟨Types.interestLifetime, encodeNumber n, start, stop⟩ =
      .ok { i with lifetime := .ofMillis n.toNat } := by
  have hcan : ¬ Types.interestLifetime = Types.canBePrefix := by decide
  have hfresh : ¬ Types.interestLifetime = Types.mustBeFresh := by decide
  have hnonce : ¬ Types.interestLifetime = Types.nonce := by decide
  rw [takeElement, if_neg hcan, if_neg hfresh, if_neg hnonce, if_pos rfl,
    decodeNumber_encodeNumber]
  rfl

/-- What a receiver makes of an Interest: it has the nonce that was written, and the milliseconds of
the lifetime that 64 bits hold. -/
def received (i : Interest) (fresh : UInt32) : Interest :=
  { i with
    nonce := some (i.nonce.getD fresh)
    lifetime := .ofMillis (UInt64.ofNat i.lifetime.millis).toNat }

theorem received_of_wholeMillis (h : i.lifetime.WholeMillis) :
    i.received fresh = { i with nonce := some (i.nonce.getD fresh) } := by
  unfold received
  rw [h.ofMillis_millis]

theorem tells_encodeRest (i : Interest) (fresh : UInt32) (q : Nat) :
    Tells takeElement q (i.encodeRest fresh) { name := i.name } (i.received fresh) := by
  have hempty : ([] : Bytes).length < 2 ^ 64 := by simp
  have hnonceLength : (Bytes.bigEndian 4 (i.nonce.getD fresh).toNat).length < 2 ^ 64 := by
    rw [Bytes.length_bigEndian]
    omega
  have hcan : ∀ q, Tells takeElement q
      (if i.canBePrefix then Tlv.encode Types.canBePrefix [] else [])
      { name := i.name } { name := i.name, canBePrefix := i.canBePrefix } := by
    intro q
    cases i.canBePrefix with
    | false => exact .nil _ _ _
    | true => exact .encode hempty fun _ _ => takeElement_canBePrefix _ _ _
  have hfresh : ∀ q, Tells takeElement q
      (if i.mustBeFresh then Tlv.encode Types.mustBeFresh [] else [])
      { name := i.name, canBePrefix := i.canBePrefix }
      { name := i.name, canBePrefix := i.canBePrefix, mustBeFresh := i.mustBeFresh } := by
    intro q
    cases i.mustBeFresh with
    | false => exact .nil _ _ _
    | true => exact .encode hempty fun _ _ => takeElement_mustBeFresh _ _ _
  have hnonce : ∀ q, Tells takeElement q
      (Tlv.encode Types.nonce (Bytes.bigEndian 4 (i.nonce.getD fresh).toNat))
      { name := i.name, canBePrefix := i.canBePrefix, mustBeFresh := i.mustBeFresh }
      { i with nonce := some (i.nonce.getD fresh), lifetime := defaultLifetime } :=
    fun q => .encode hnonceLength fun _ _ => takeElement_nonce _ _ _ _
  have hlifetime : ∀ q, Tells takeElement q
      (if i.lifetime = defaultLifetime then []
        else encodeNumberElement Types.interestLifetime (UInt64.ofNat i.lifetime.millis))
      { i with nonce := some (i.nonce.getD fresh), lifetime := defaultLifetime }
      (i.received fresh) := by
    intro q
    split
    · rename_i hdefault
      have hlife : i.lifetime.WholeMillis := hdefault ▸ Duration.wholeMillis_ofMillis 4000
      rw [received_of_wholeMillis hlife, ← hdefault]
      exact .nil _ _ _
    · have hlen : (encodeNumber (UInt64.ofNat i.lifetime.millis)).length < 2 ^ 64 := by
        have := length_encodeNumber_le (UInt64.ofNat i.lifetime.millis)
        omega
      exact .encode hlen fun _ _ => takeElement_lifetime _ _ _ _
  exact (hcan _).append ((hfresh _).append ((hnonce _).append (hlifetime _)))

theorem length_encode_le (i : Interest) (fresh : UInt32) :
    (i.encode fresh).length ≤ i.name.encodeComponents.length + 120 := by
  have hflag : ∀ (type : UInt64) (flag : Bool),
      (if flag then Tlv.encode type [] else []).length ≤ 18 := by
    intro type flag
    cases flag with
    | false => simp
    | true => exact Tlv.length_encode_le type []
  have hcan := hflag Types.canBePrefix i.canBePrefix
  have hfresh := hflag Types.mustBeFresh i.mustBeFresh
  have hnonce := Tlv.length_encode_le Types.nonce
    (Bytes.bigEndian 4 (i.nonce.getD fresh).toNat)
  rw [Bytes.length_bigEndian] at hnonce
  have hlifetime : (if i.lifetime = defaultLifetime then []
      else encodeNumberElement Types.interestLifetime (UInt64.ofNat i.lifetime.millis)).length ≤
        26 := by
    split
    · simp
    · exact length_encodeNumberElement_le _ _
  have hname := Tlv.length_encode_le Types.name i.name.encodeComponents
  have hall := Tlv.length_encode_le Types.interest (i.name.encode ++ i.encodeRest fresh)
  unfold encode
  unfold encodeRest Name.encode at hall ⊢
  simp only [List.length_append] at hall
  omega

/-- What is written is read from the name on: first the name, then the elements behind it. -/
theorem decode_encode_eq (h : (i.encode fresh).length < 2 ^ 64) :
    i.name.encodeComponents.length < 2 ^ 64 ∧
      decode (i.encode fresh) = Name.decodeValue i.name.encodeComponents >>= fun name =>
        takeAll { name } (.read ⟨i.encodeRest fresh, i.name.encode.length⟩) := by
  have hbody : (i.name.encode ++ i.encodeRest fresh).length < 2 ^ 64 :=
    Nat.lt_of_le_of_lt (Spells.length_le_encode Types.interest _) h
  have hcomponents : i.name.encodeComponents.length < 2 ^ 64 := by
    have : i.name.encodeComponents.length ≤ i.name.encode.length := Spells.length_le_encode _ _
    rw [List.length_append] at hbody
    omega
  have hname : Spells i.name.encode Types.name i.name.encodeComponents := .encode _ hcomponents
  refine ⟨hcomponents, ?_⟩
  unfold decode encode Cursor.start
  rw [single_of_spells (.encode Types.interest hbody)]
  dsimp only [bind, Except.bind]
  rw [Read.expected_of_spells hname, Nat.zero_add]

/-- An Interest whose name may stand on the wire is received, whatever its lifetime. -/
theorem decode_encode_received (hn : i.name.WellFormed) (h : (i.encode fresh).length < 2 ^ 64) :
    decode (i.encode fresh) = .ok (i.received fresh) := by
  obtain ⟨hcomponents, heq⟩ := decode_encode_eq h
  have hrest : takeAll { name := i.name } (.read ⟨i.encodeRest fresh, i.name.encode.length⟩) =
      .ok (i.received fresh) :=
    reads.read_eq_ok_iff.2 (tells_encodeRest i fresh _)
  rw [heq, Name.decodeValue_encodeComponents hn hcomponents]
  exact hrest

theorem decode_encode (hi : i.WellFormed) (h : (i.encode fresh).length < 2 ^ 64) :
    decode (i.encode fresh) = .ok { i with nonce := some (i.nonce.getD fresh) } := by
  rw [decode_encode_received hi.name h, received_of_wholeMillis hi.lifetime]

/-- An element behind the name changes no name, and a lifetime only to one that can be written. -/
theorem takeElement_ok (h : i.takeElement e = .ok i') : i'.name = i.name ∧
    (i'.lifetime = i.lifetime ∨ ∃ n : UInt64, i'.lifetime = .ofMillis n.toNat) := by
  unfold takeElement at h
  split at h
  · cases h
    exact ⟨rfl, .inl rfl⟩
  split at h
  · cases h
    exact ⟨rfl, .inl rfl⟩
  split at h
  · split at h
    · cases h
      exact ⟨rfl, .inl rfl⟩
    · cases h
  split at h
  · obtain ⟨n, -, h⟩ := ok_of_bind h
    cases h
    exact ⟨rfl, .inr ⟨n, rfl⟩⟩
  split at h
  · cases h
    exact ⟨rfl, .inl rfl⟩
  split at h
  · cases h
  · cases h
    exact ⟨rfl, .inl rfl⟩

theorem WellFormed.takeElement (hi : i.WellFormed) (h : i.takeElement e = .ok i') :
    i'.WellFormed := by
  obtain ⟨hname, hlifetime⟩ := takeElement_ok h
  constructor
  case name =>
    rw [hname]
    exact hi.name
  case lifetime =>
    rcases hlifetime with hlifetime | ⟨n, hlifetime⟩
    · rw [hlifetime]
      exact hi.lifetime
    · rw [hlifetime]
      exact Duration.wholeMillis_ofMillis n

/-- What is read is well formed, and its name is not longer than what it was read from. -/
theorem decode_ok (h : decode wire = .ok i) :
    i.WellFormed ∧ i.name.encodeComponents.length ≤ wire.length := by
  obtain ⟨outer, houter, h⟩ := ok_of_bind h
  split at h
  · cases h
  rename_i first c hfirst
  obtain ⟨name, hname, h⟩ := ok_of_bind h
  obtain ⟨hwf, hlen⟩ := Name.decodeValue_ok hname
  obtain ⟨hspells, -, -⟩ := single_ok houter
  obtain ⟨header, hheader⟩ := hspells.suffix
  obtain ⟨nameWire, hbody, hspellsName, -, -⟩ := spells_of_element (Read.expected_ok hfirst).1
  obtain ⟨nameHeader, hnameHeader⟩ := hspellsName.suffix
  have hdefault : defaultLifetime.WholeMillis := Duration.wholeMillis_ofMillis 4000
  have hrest : i.WellFormed ∧ i.name = name :=
    (reads.read_eq_ok_iff.1 h).invariant (P := fun i => i.WellFormed ∧ i.name = name)
      ⟨⟨hwf, hdefault⟩, rfl⟩ fun p e p' _ htake ⟨hp, hkept⟩ =>
        ⟨hp.takeElement htake, (takeElement_ok htake).1.trans hkept⟩
  refine ⟨hrest.1, ?_⟩
  have hvalue : outer.value = nameWire ++ c.rest := hbody
  rw [hrest.2, hheader, hvalue, hnameHeader]
  simp only [List.length_append]
  omega

/-- The name that is read is the one that was written, whatever stands behind it. -/
theorem name_of_decode_encode (h : (i.encode fresh).length < 2 ^ 64)
    (hi' : decode (i.encode fresh) = .ok i') : i'.name = i.name := by
  obtain ⟨hcomponents, heq⟩ := decode_encode_eq h
  rw [heq] at hi'
  obtain ⟨name, hname, htake⟩ := ok_of_bind hi'
  obtain ⟨rfl, -⟩ := (Name.decodeValue_encodeComponents_eq_ok_iff hcomponents).1 hname
  exact (reads.read_eq_ok_iff.1 htake).invariant (P := fun p => p.name = i.name) rfl
    fun p e p' _ he hp => (takeElement_ok he).1.trans hp

/-- An Interest is received as it was sent just if it has a nonce, and its name and its lifetime may
stand on the wire. Whatever is received, its signature and what that covers are those of what was
sent. -/
theorem received_as_sent (h : (i.encode fresh).length < 2 ^ 64) :
    (decode (i.encode fresh) = .ok i ↔ i.WellFormed ∧ i.nonce ≠ none) ∧
      ∀ i', decode (i.encode fresh) = .ok i' →
        i'.signedPortion = i.signedPortion ∧ i'.signature = i.signature := by
  constructor
  case left =>
    constructor
    · intro hi
      have hwf : i.WellFormed := (decode_ok hi).1
      rw [decode_encode hwf h] at hi
      have hnonce : some (i.nonce.getD fresh) = i.nonce := congrArg nonce (Except.ok.inj hi)
      refine ⟨hwf, fun hnone => ?_⟩
      rw [hnone] at hnonce
      cases hnonce
    · rintro ⟨hwf, hnonce⟩
      obtain ⟨n, hn⟩ := Option.ne_none_iff_exists'.1 hnonce
      have hsame : { i with nonce := some (i.nonce.getD fresh) } = i := by
        rw [hn, Option.getD_some, ← hn]
      rw [decode_encode hwf h, hsame]
  case right =>
    intro i' hi'
    have hname := name_of_decode_encode h hi'
    simp only [signedPortion, signature, hname, and_self]

/-- A command with a signature in its name, for two seconds and a half, that may be answered under
the name by what is fresh. -/
def Sample.command : Interest where
  name := ⟨[.generic [99], .ofNumber 1717200000000,
    .generic (SignatureInfo.sha256WithEcdsa (some (.name ⟨[.generic [107]]⟩)) none).encode,
    .generic (Tlv.encode Types.signatureValue [1, 2, 3])]⟩
  canBePrefix := true
  mustBeFresh := true
  nonce := some 0x01020304
  lifetime := .ofMillis 2500

theorem received_as_sent_sample : (Sample.command.encode 0).length < 2 ^ 64 ∧
    decode (Sample.command.encode 0) = .ok Sample.command ∧
      Sample.command.signature =
        .ok ⟨.sha256WithEcdsa (some (.name ⟨[.generic [107]]⟩)) none, [1, 2, 3]⟩ := by
  have hlen : (Sample.command.encode 0).length < 2 ^ 64 := by decide +kernel
  have hname : Sample.command.name.WellFormed := by
    intro c hc
    simp only [Sample.command, List.mem_cons, List.not_mem_nil, or_false] at hc
    rcases hc with rfl | rfl | rfl | rfl <;> exact Component.check_eq_ok_iff.1 rfl
  have hlifetime : Sample.command.lifetime.WholeMillis := ⟨2500, by decide, rfl⟩
  have hsent := (received_as_sent hlen).1.2 ⟨⟨hname, hlifetime⟩, nofun⟩
  exact ⟨hlen, hsent, by decide +kernel⟩

end PacketTrust.Interest
