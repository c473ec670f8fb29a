import PacketTrust.Name.Basic
import PacketTrust.Proofs.Tlv.Runs

/-! The wire form of names. Main statements: a name whose components may stand on the wire is read
back as it was written, and what is read from a wire is such a name, written in no more octets than
it was read from. -/

namespace PacketTrust

open Tlv

/-- A component that may stand on the wire: its type has 16 bits and is not 0, and a digest has 32
octets. -/
structure Component.WellFormed (c : Component) : Prop where
  type_ne : c.type ≠ 0
  type_le : c.type ≤ 0xffff
  digest : c.type = Types.implicitDigest → c.value.length = 32

theorem Component.check_eq_ok_iff {c : Component} : c.check = .ok () ↔ c.WellFormed := by
  unfold check
  constructor
  · intro h
    split at h
    · cases h
    split at h
    · cases h
    rename_i htype hdigest
    rw [not_or, gt_iff_lt, UInt64.not_lt] at htype
    rw [not_and, Decidable.not_not] at hdigest
    exact ⟨htype.1, htype.2, hdigest⟩
  · rintro ⟨hne, hle, hdigest⟩
    have htype : ¬ (c.type = 0 ∨ c.type > 0xffff) := by
      rw [not_or, gt_iff_lt, UInt64.not_lt]
      exact ⟨hne, hle⟩
    have hlength : ¬ (c.type = Types.implicitDigest ∧ c.value.length ≠ 32) := by
      rw [not_and, Decidable.not_not]
      exact hdigest
    rw [if_neg htype, if_neg hlength]

def Tlv.Element.component (e : Element) : Component := ⟨e.type, e.value⟩

namespace Name

def WellFormed (n : Name) : Prop := ∀ c ∈ n.components, c.WellFormed

variable {q : Nat} {bytes value : Bytes} {elements : List Element} {components : List Component}
  {n : Name}

theorem ofElements_eq_ok_iff :
    ofElements (elements.foldr .next .done) = .ok components ↔
      components = elements.map Element.component ∧ ∀ c ∈ components, c.WellFormed := by
  induction elements generalizing components with
  | nil =>
    constructor
    · intro h
      cases h
      simp
    · rintro ⟨rfl, -⟩
      rfl
  | cons e rest ih =>
    constructor
    · intro h
      obtain ⟨_, hcheck, h⟩ := ok_of_bind h
      obtain ⟨more, hmore, h⟩ := ok_of_bind h
      cases h
      obtain ⟨rfl, hall⟩ := ih.1 hmore
      exact ⟨rfl, List.forall_mem_cons.2 ⟨Component.check_eq_ok_iff.1 hcheck, hall⟩⟩
    · rintro ⟨rfl, hall⟩
      obtain ⟨hfirst, hrest⟩ := List.forall_mem_cons.1 hall
      have hcheck : Component.check ⟨e.type, e.value⟩ = .ok () := Component.check_eq_ok_iff.2 hfirst
      have hmore : ofElements (rest.foldr .next .done) = .ok (rest.map Element.component) :=
        ih.2 ⟨rfl, hrest⟩
      rw [List.foldr_cons, ofElements, hcheck, hmore]
      rfl

/-- Where an element is cut short, no name is read. -/
theorem ofElements_broken (elements : List Element) (e : Error) :
    ofElements (elements.foldr .next (.broken e)) ≠ .ok components := by
  induction elements generalizing components with
  | nil => exact nofun
  | cons first rest ih =>
    intro h
    obtain ⟨_, -, h⟩ := ok_of_bind h
    obtain ⟨more, hmore, -⟩ := ok_of_bind h
    exact ih hmore

theorem exists_spellsAll (components : List Component) (q : Nat)
    (h : (components.flatMap Component.encode).length < 2 ^ 64) :
    ∃ elements, SpellsAll q (components.flatMap Component.encode) elements ∧
      components = elements.map Element.component := by
  induction components generalizing q with
  | nil => exact ⟨[], .nil q, rfl⟩
  | cons c rest ih =>
    rw [List.flatMap_cons, List.length_append] at h
    have hvalue : c.value.length < 2 ^ 64 := by
      have := Spells.length_le_encode c.type c.value
      rw [Component.encode] at h
      omega
    obtain ⟨elements, hall, hrest⟩ := ih (q + c.encode.length) (by omega)
    refine ⟨_, .cons (.encode c.type hvalue) hall, ?_⟩
    rw [List.map_cons, ← hrest]
    rfl

theorem length_encode_of_spellsAll (h : SpellsAll q bytes elements) :
    ((elements.map Element.component).flatMap Component.encode).length ≤ bytes.length := by
  induction h with
  | nil => simp
  | cons hs _ ih =>
    have hfirst := hs.length_encode_le
    rw [List.map_cons, List.flatMap_cons, List.length_append, List.length_append]
    exact Nat.add_le_add hfirst ih

/-- A name is read back where its components may stand on the wire, and nowhere else is anything
read. -/
theorem decodeValue_encodeComponents_eq_ok_iff {m : Name} (h : n.encodeComponents.length < 2 ^ 64) :
    decodeValue n.encodeComponents = .ok m ↔ m = n ∧ n.WellFormed := by
  obtain ⟨elements, hall, hcomponents⟩ := exists_spellsAll n.components 0 h
  have hread : Elements.ofBytes n.encodeComponents = elements.foldr .next .done := hall.read
  rw [decodeValue, hread]
  constructor
  · intro hm
    obtain ⟨components, hof, hm⟩ := ok_of_bind hm
    cases hm
    obtain ⟨rfl, hwf⟩ := ofElements_eq_ok_iff.1 hof
    rw [← hcomponents] at hwf ⊢
    exact ⟨rfl, hwf⟩
  · rintro ⟨rfl, hwf⟩
    have hok : ofElements (elements.foldr .next .done) = .ok m.components :=
      ofElements_eq_ok_iff.2 ⟨hcomponents, hwf⟩
    rw [hok]
    rfl

theorem decodeValue_encodeComponents (hn : n.WellFormed) (h : n.encodeComponents.length < 2 ^ 64) :
    decodeValue n.encodeComponents = .ok n :=
  (decodeValue_encodeComponents_eq_ok_iff h).2 ⟨rfl, hn⟩

theorem decodeValue_ok (h : decodeValue value = .ok n) :
    n.WellFormed ∧ n.encodeComponents.length ≤ value.length := by
  obtain ⟨components, hof, hn⟩ := ok_of_bind h
  cases hn
  unfold Elements.ofBytes at hof
  rcases Elements.exists_read (.start value) with ⟨elements, hall, hread⟩ | ⟨elements, e, hread⟩
  · rw [hread, ofElements_eq_ok_iff] at hof
    obtain ⟨rfl, hwf⟩ := hof
    exact ⟨hwf, length_encode_of_spellsAll hall⟩
  · rw [hread] at hof
    exact absurd hof (ofElements_broken elements e)

end Name

end PacketTrust
