import PacketTrust.Bytes.Lemmas
import PacketTrust.Proofs.Action
import PacketTrust.Tlv.Elements

/-! What octets spell, whatever follows them: numbers, elements and runs of elements. Main
statements: what is read was spelled by the octets that were taken, and what is written spells what
was meant. -/

namespace PacketTrust.Tlv

namespace Read

theorem octets_append {bytes : Bytes} {width : Nat} (h : bytes.length = width) (more : Bytes)
    (q : Nat) : octets width ⟨bytes ++ more, q⟩ = .ok bytes ⟨more, q + width⟩ := by
  subst h
  simp [octets]

theorem bigEndian_append {bytes : Bytes} {width : Nat} (h : bytes.length = width) (more : Bytes)
    (q : Nat) : bigEndian width ⟨bytes ++ more, q⟩ =
      .ok (UInt64.ofNat (Bytes.toNat bytes)) ⟨more, q + width⟩ :=
  Act.bind_of_ok (octets_append h more q)

theorem ofNat_octet_eq {b : UInt8} {m : Nat} (hm : m < 256) :
    UInt64.ofNat b.toNat = UInt64.ofNat m ↔ b = UInt8.ofNat m := by
  have hb := b.toNat_lt
  rw [← UInt64.toNat_inj, ← UInt8.toNat_inj, UInt64.toNat_ofNat', UInt64.toNat_ofNat',
    UInt8.toNat_ofNat']
  omega

theorem var_cons (b : UInt8) (rest : Bytes) (q : Nat) :
    var ⟨b :: rest, q⟩ =
      (if b = 253 then bigEndian 2 else if b = 254 then bigEndian 4
        else if b = 255 then bigEndian 8 else pure (UInt64.ofNat b.toNat)) ⟨rest, q + 1⟩ := by
  have hfirst : bigEndian 1 ⟨b :: rest, q⟩ = .ok (UInt64.ofNat b.toNat) ⟨rest, q + 1⟩ := by
    have hone := bigEndian_append (show [b].length = 1 from rfl) rest q
    simpa [Bytes.toNat] using hone
  have h253 : UInt64.ofNat b.toNat = 253 ↔ b = 253 := ofNat_octet_eq (m := 253) (by omega)
  have h254 : UInt64.ofNat b.toNat = 254 ↔ b = 254 := ofNat_octet_eq (m := 254) (by omega)
  have h255 : UInt64.ofNat b.toNat = 255 ↔ b = 255 := ofNat_octet_eq (m := 255) (by omega)
  refine (Act.bind_of_ok hfirst).trans ?_
  simp only [h253, h254, h255]

end Read

def SpellsVar (bytes : Bytes) (n : UInt64) : Prop :=
  ∀ more q, Read.var ⟨bytes ++ more, q⟩ = .ok n ⟨more, q + bytes.length⟩

theorem spellsVar_short {b : UInt8} (h : b.toNat < 253) : SpellsVar [b] (UInt64.ofNat b.toNat) := by
  intro more q
  obtain ⟨h253, h254, h255⟩ : b ≠ 253 ∧ b ≠ 254 ∧ b ≠ 255 := by
    refine ⟨?_, ?_, ?_⟩ <;> rintro rfl <;> exact absurd h (by decide)
  change Read.var ⟨b :: more, q⟩ = _
  rw [Read.var_cons, if_neg h253, if_neg h254, if_neg h255]
  rfl

/-- The marker octets, each with the number of octets behind it. -/
def Marks (marker : UInt8) (width : Nat) : Prop :=
  marker = 253 ∧ width = 2 ∨ marker = 254 ∧ width = 4 ∨ marker = 255 ∧ width = 8

theorem spellsVar_wide {marker : UInt8} {bytes : Bytes} (h : Marks marker bytes.length) :
    SpellsVar (marker :: bytes) (UInt64.ofNat (Bytes.toNat bytes)) := by
  intro more q
  have hend : q + (marker :: bytes).length = q + 1 + bytes.length := by
    rw [List.length_cons]
    omega
  rw [List.cons_append, Read.var_cons, hend]
  rcases h with ⟨rfl, hw⟩ | ⟨rfl, hw⟩ | ⟨rfl, hw⟩ <;> exact hw ▸
      Read.bigEndian_append rfl more (q + 1)

/-- The octets of a type or length: one that is no marker, or a marker with the octets that it
announces. -/
inductive Numeral : Bytes → UInt64 → Prop
  | short {b : UInt8} (h : b.toNat < 253) : Numeral [b] (UInt64.ofNat b.toNat)
  | wide {marker : UInt8} {bytes : Bytes} (h : Marks marker bytes.length) :
      Numeral (marker :: bytes) (UInt64.ofNat (Bytes.toNat bytes))

theorem Numeral.spells {bytes : Bytes} {n : UInt64} (h : Numeral bytes n) : SpellsVar bytes n := by
  cases h with
  | short h => exact spellsVar_short h
  | wide h => exact spellsVar_wide h

theorem numeral_of_var {c d : Cursor} {n : UInt64} (h : Read.var c = .ok n d) :
    ∃ bytes, c.rest = bytes ++ d.rest ∧ Numeral bytes n ∧
      d.position = c.position + bytes.length := by
  obtain ⟨rest, q⟩ := c
  cases rest with
  | nil => cases h
  | cons b rest =>
    rw [Read.var_cons] at h
    have wide : ∀ width, Marks b width → Read.bigEndian width ⟨rest, q + 1⟩ = .ok n d →
        ∃ bytes, b :: rest = bytes ++ d.rest ∧ Numeral bytes n ∧
          d.position = q + bytes.length := by
      intro width hm hb
      obtain ⟨hn, rfl, rfl⟩ := Read.bigEndian_ok hb
      dsimp only at hn ⊢
      have hlen : (rest.take width).length = width := by
        rw [List.length_take]
        omega
      refine ⟨b :: rest.take width, by simp, .wide (by rwa [hlen]), ?_⟩
      rw [List.length_cons, hlen]
      omega
    split at h
    · exact wide 2 (.inl ⟨‹_›, rfl⟩) h
    split at h
    · exact wide 4 (.inr (.inl ⟨‹_›, rfl⟩)) h
    split at h
    · exact wide 8 (.inr (.inr ⟨‹_›, rfl⟩)) h
    rename_i h253 h254 h255
    have hb : b.toNat < 253 := by
      have := b.toNat_lt
      rw [← UInt8.toNat_inj] at h253 h254 h255
      simp only [UInt8.reduceToNat] at h253 h254 h255
      omega
    injection h with h₁ h₂
    subst h₁ h₂
    exact ⟨[b], rfl, .short hb, rfl⟩

theorem spellsVar_of_var {c d : Cursor} {n : UInt64} (h : Read.var c = .ok n d) :
    ∃ bytes, c.rest = bytes ++ d.rest ∧ SpellsVar bytes n ∧
      d.position = c.position + bytes.length := by
  obtain ⟨bytes, hrest, hn, hposition⟩ := numeral_of_var h
  exact ⟨bytes, hrest, hn.spells, hposition⟩

/-- Nothing else is read as a type or length. -/
theorem SpellsVar.numeral {bytes : Bytes} {n : UInt64} (h : SpellsVar bytes n) :
    Numeral bytes n := by
  obtain ⟨bytes', hrest, hn, -⟩ := numeral_of_var (h [] 0)
  rw [List.append_nil, List.append_nil] at hrest
  obtain rfl : bytes = bytes' := hrest
  exact hn

theorem spellsVar_encodeVar (n : UInt64) : SpellsVar (encodeVar n) n := by
  have wide : ∀ marker width, Marks marker width → n.toNat < 256 ^ width →
      SpellsVar (marker :: Bytes.bigEndian width n.toNat) n := by
    intro marker width hm hn
    have hs : SpellsVar (marker :: Bytes.bigEndian width n.toNat) _ := spellsVar_wide (by
      rwa [Bytes.length_bigEndian])
    rwa [Bytes.toNat_bigEndian, Nat.mod_eq_of_lt hn, UInt64.ofNat_toNat] at hs
  unfold encodeVar
  split
  · rename_i hn
    have hlt : n.toNat < 253 := hn
    have hoctet : n.toUInt8.toNat = n.toNat := by
      rw [UInt64.toNat_toUInt8]
      omega
    have hs := spellsVar_short (b := n.toUInt8) (by rwa [hoctet])
    rwa [hoctet, UInt64.ofNat_toNat] at hs
  split
  · rename_i hn
    have hle : n.toNat ≤ 65535 := hn
    exact wide 253 2 (.inl ⟨rfl, rfl⟩) (by omega)
  split
  · rename_i hn
    have hle : n.toNat ≤ 4294967295 := hn
    exact wide 254 4 (.inr (.inl ⟨rfl, rfl⟩)) (by omega)
  · exact wide 255 8 (.inr (.inr ⟨rfl, rfl⟩)) n.toNat_lt

/-- An element of a type with a value: the octets of the type, of the length and of the value. -/
def Spells (wire : Bytes) (type : UInt64) (value : Bytes) : Prop :=
  ∃ head tail length, wire = head ++ (tail ++ value) ∧ SpellsVar head type ∧
    SpellsVar tail length ∧ length.toNat = value.length

namespace Spells

variable {wire value : Bytes} {type : UInt64}

theorem read (h : Spells wire type value) (more : Bytes) (q : Nat) :
    Read.element ⟨wire ++ more, q⟩ =
      .ok ⟨type, value, q, q + wire.length⟩ ⟨more, q + wire.length⟩ := by
  obtain ⟨head, tail, length, rfl, hhead, htail, hlength⟩ := h
  have h₁ := hhead (tail ++ (value ++ more)) q
  have h₂ := htail (value ++ more) (q + head.length)
  have h₃ := Read.octets_append hlength.symm more (q + head.length + tail.length)
  have hrest : head ++ (tail ++ value) ++ more = head ++ (tail ++ (value ++ more)) := by
    simp only [List.append_assoc]
  have hlen : q + (head ++ (tail ++ value)).length =
      q + head.length + tail.length + length.toNat := by
    simp only [List.length_append, hlength]
    omega
  rw [hrest, hlen]
  exact (Act.bind_of_ok h₁).trans ((Act.bind_of_ok h₂).trans (Act.bind_of_ok h₃))

theorem length_pos (h : Spells wire type value) : 0 < wire.length := by
  have hlt := (Read.element_ok (h.read [] 0)).1
  simpa using hlt

theorem length_le_encode (type : UInt64) (value : Bytes) :
    value.length ≤ (Tlv.encode type value).length := by
  unfold Tlv.encode
  rw [List.length_append]
  omega

theorem suffix (h : Spells wire type value) : ∃ header, wire = header ++ value := by
  obtain ⟨head, tail, length, rfl, -⟩ := h
  exact ⟨head ++ tail, (List.append_assoc ..).symm⟩

theorem encode (type : UInt64) (h : value.length < 2 ^ 64) :
    Spells (encode type value) type value := by
  refine ⟨_, _, _, List.append_assoc .., spellsVar_encodeVar type, spellsVar_encodeVar _, ?_⟩
  rw [UInt64.toNat_ofNat', Nat.mod_eq_of_lt h]

end Spells

theorem spells_of_element {c d : Cursor} {e : Element} (h : Read.element c = .ok e d) :
    ∃ wire, c.rest = wire ++ d.rest ∧ Spells wire e.type e.value ∧ e.start = c.position ∧
      e.stop = c.position + wire.length := by
  obtain ⟨type, c₁, h₁, h⟩ := Read.bind_ok h
  obtain ⟨length, c₂, h₂, h⟩ := Read.bind_ok h
  obtain ⟨value, c₃, h₃, h⟩ := Read.bind_ok h
  obtain ⟨hn, rfl, rfl⟩ := Read.octets_ok h₃
  cases h
  obtain ⟨head, hhead, hs, hp⟩ := spellsVar_of_var h₁
  obtain ⟨tail, htail, hs', hp'⟩ := spellsVar_of_var h₂
  have hvalue : (c₂.rest.take length.toNat).length = length.toNat := by
    rw [List.length_take]
    omega
  refine ⟨head ++ (tail ++ c₂.rest.take length.toNat), ?_, ?_, rfl, ?_⟩
  · simp only [List.append_assoc, List.take_append_drop, hhead, htail]
  · exact ⟨head, tail, length, rfl, hs, hs', hvalue.symm⟩
  · simp only [List.length_append, hvalue]
    omega

namespace Read

variable {type : UInt64} {wire value more : Bytes} {c d : Cursor} {e : Element}

theorem element_type {n : UInt64} {d' : Cursor} (h : element c = .ok e d) (hv : var c = .ok n d') :
    e.type = n := by
  obtain ⟨type, c₁, h₁, h⟩ := bind_ok h
  obtain ⟨length, c₂, -, h⟩ := bind_ok h
  obtain ⟨value, c₃, -, h⟩ := bind_ok h
  cases h
  rw [hv] at h₁
  injection h₁ with h₁
  exact h₁.symm

theorem expected_ok (h : expected type c = .ok e d) : element c = .ok e d ∧ e.type = type := by
  obtain ⟨found, c', hp, h⟩ := bind_ok h
  unfold peekType at hp
  split at hp
  · cases hp
    cases h
  split at hp
  · rename_i n _ hv
    cases hp
    dsimp only at h
    split at h
    · rename_i hn
      exact ⟨h, (element_type h hv).trans hn⟩
    · cases h
  · cases hp

theorem expected_of_spells (h : Spells wire type value) (more : Bytes) (q : Nat) :
    expected type ⟨wire ++ more, q⟩ =
      .ok ⟨type, value, q, q + wire.length⟩ ⟨more, q + wire.length⟩ := by
  have hpeek : peekType ⟨wire ++ more, q⟩ = .ok (some type) ⟨wire ++ more, q⟩ := by
    have hne : (⟨wire ++ more, q⟩ : Cursor).isEmpty = false := by
      have := h.length_pos
      simp only [Cursor.isEmpty, List.isEmpty_eq_false_iff, ne_eq, List.append_eq_nil_iff]
      rintro ⟨rfl, -⟩
      simp at this
    obtain ⟨head, tail, length, rfl, hhead, -, -⟩ := h
    have hv := hhead (tail ++ value ++ more) q
    rw [peekType, hne, if_neg Bool.false_ne_true, List.append_assoc, hv]
  refine (Act.bind_of_ok hpeek).trans ?_
  dsimp only
  rw [if_pos rfl]
  exact h.read more q

end Read

theorem single_ok {type : UInt64} {bytes : Bytes} {e : Element} (h : single type bytes = .ok e) :
    Spells bytes type e.value ∧ e.start = 0 ∧ e.stop = bytes.length := by
  unfold single at h
  split at h
  · rename_i e' c hx
    split at h
    · rename_i hempty
      cases h
      obtain ⟨hel, rfl⟩ := Read.expected_ok hx
      obtain ⟨wire, hwire, hs, hstart, hstop⟩ := spells_of_element hel
      have hrest : c.rest = [] := List.isEmpty_iff.1 hempty
      rw [hrest, List.append_nil] at hwire
      obtain rfl : bytes = wire := hwire
      exact ⟨hs, hstart, by simpa [Cursor.start] using hstop⟩
    · cases h
  · cases h

theorem single_of_spells {wire value : Bytes} {type : UInt64} (h : Spells wire type value) :
    single type wire = .ok ⟨type, value, 0, wire.length⟩ := by
  have hx := Read.expected_of_spells h [] 0
  rw [List.append_nil, Nat.zero_add] at hx
  unfold single Cursor.start
  rw [hx]
  rfl

theorem Elements.read_nil (q : Nat) : read ⟨[], q⟩ = done := by
  rw [read]
  exact if_pos rfl

theorem Elements.read_of_element {c d : Cursor} {e : Element} (h : Read.element c = .ok e d) :
    read c = next e (read d) := by
  have hne : ¬ c.isEmpty := by
    intro he
    have hlt := (Read.element_ok h).1
    rw [List.isEmpty_iff.1 he] at hlt
    cases hlt
  rw [read, if_neg hne]
  split
  · rename_i h'
    cases h.symm.trans h'
    rfl
  · rename_i h'
    cases h.symm.trans h'

inductive SpellsAll : Nat → Bytes → List Element → Prop
  | nil (q : Nat) : SpellsAll q [] []
  | cons {q : Nat} {wire value rest : Bytes} {type : UInt64} {elements : List Element} :
      Spells wire type value → SpellsAll (q + wire.length) rest elements →
      SpellsAll q (wire ++ rest) (⟨type, value, q, q + wire.length⟩ :: elements)

namespace SpellsAll

variable {q : Nat} {bytes wire value : Bytes} {type : UInt64} {elements more : List Element}

theorem elements_read (h : SpellsAll q bytes elements) (rest : Bytes) :
    Elements.read ⟨bytes ++ rest, q⟩ =
      elements.foldr .next (.read ⟨rest, q + bytes.length⟩) := by
  induction h with
  | nil q => rfl
  | cons hs _ ih =>
    rw [List.append_assoc, Elements.read_of_element (hs.read _ _), ih, List.length_append,
      Nat.add_assoc]
    rfl

theorem single (h : Spells wire type value) (q : Nat) :
    SpellsAll q wire [⟨type, value, q, q + wire.length⟩] := by
  have hone := cons h (nil (q + wire.length))
  rwa [List.append_nil] at hone

theorem append {rest : Bytes} (h : SpellsAll q bytes elements)
    (hrest : SpellsAll (q + bytes.length) rest more) :
    SpellsAll q (bytes ++ rest) (elements ++ more) := by
  induction h with
  | nil q => simpa using hrest
  | cons hs _ ih =>
    rw [List.append_assoc]
    refine cons hs (ih ?_)
    rwa [List.length_append, ← Nat.add_assoc] at hrest

theorem split (h : SpellsAll q bytes (elements ++ more)) :
    ∃ front rest, bytes = front ++ rest ∧ SpellsAll q front elements ∧
      SpellsAll (q + front.length) rest more := by
  induction elements generalizing q bytes with
  | nil => exact ⟨[], bytes, rfl, nil q, h⟩
  | cons e elements ih =>
    cases h with
    | cons hs h =>
      obtain ⟨front, rest, rfl, hfront, hrest⟩ := ih h
      refine ⟨_ ++ front, rest, (List.append_assoc ..).symm, cons hs hfront, ?_⟩
      rwa [List.length_append, ← Nat.add_assoc]

/-- The last element ends where the octets do. -/
theorem stop_last {e : Element} (h : SpellsAll q bytes (elements ++ [e])) :
    e.stop = q + bytes.length := by
  obtain ⟨front, rest, rfl, -, hrest⟩ := h.split
  cases hrest with
  | cons hs hnil =>
    cases hnil
    simp only [List.append_nil, List.length_append, Nat.add_assoc]

theorem unique {others : List Element} (h : SpellsAll q bytes elements)
    (ho : SpellsAll q bytes others) : elements = others := by
  have hread : elements.foldr Elements.next (.read ⟨[], q + bytes.length⟩) =
      others.foldr .next (.read ⟨[], q + bytes.length⟩) :=
    (h.elements_read []).symm.trans (ho.elements_read [])
  rw [Elements.read_nil] at hread
  clear h ho
  induction elements generalizing others with
  | nil =>
    cases others with
    | nil => rfl
    | cons => cases hread
  | cons e elements ih =>
    cases others with
    | nil => cases hread
    | cons e' others =>
      injection hread with he hrest
      rw [he, ih hrest]

end SpellsAll

end PacketTrust.Tlv
