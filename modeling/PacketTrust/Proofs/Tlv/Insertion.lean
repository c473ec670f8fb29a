import PacketTrust.Proofs.Tlv.Runs

/-! Octets with one element more between their elements. What stands behind it is read as before,
only at other positions. A decoder whose loop passes over unknown elements decodes the same with one
more, and fails for the type of a critical one. -/

namespace PacketTrust.Tlv

theorem isCritical_eq_false_iff {type : UInt64} :
    isCritical type = false ↔ 31 < type ∧ type % 2 = 0 := by
  have hmod : type % 2 = 1 ∨ type % 2 = 0 := by
    simp only [← UInt64.toNat_inj, UInt64.toNat_mod, UInt64.reduceToNat]
    omega
  have hne : ¬ type % 2 = 1 ↔ type % 2 = 0 := by
    constructor
    · exact hmod.resolve_left
    · intro heven hodd
      cases heven.symm.trans hodd
  simp only [isCritical, Bool.or_eq_false_iff, decide_eq_false_iff_not, UInt64.not_le, hne]

theorem Read.element_moved {c d : Cursor} {e : Element} (h : Read.element c = .ok e d) (q : Nat) :
    ∃ e' d', Read.element ⟨c.rest, q⟩ = .ok e' d' ∧ e'.type = e.type ∧ e'.value = e.value ∧
      d'.rest = d.rest := by
  obtain ⟨wire, hrest, hspells, -, -⟩ := spells_of_element h
  rw [hrest]
  exact ⟨_, _, hspells.read d.rest q, rfl, rfl, rfl⟩

namespace Elements

/-- The same types with the same values to the same end, at whatever positions. -/
inductive Alike : Elements → Elements → Prop
  | done : Alike done done
  | broken (error error' : Error) : Alike (broken error) (broken error')
  | next {e e' : Element} {rest rest' : Elements} (type : e'.type = e.type)
    (value : e'.value = e.value) (behind : Alike rest rest') : Alike (next e rest) (next e' rest')

theorem read_of_error {c d : Cursor} {error : Error} (hempty : ¬ c.isEmpty)
    (h : Read.element c = .error error d) : read c = broken error := by
  rw [read, if_neg hempty]
  split
  · rename_i hok
    cases h.symm.trans hok
  · rename_i herror
    cases h.symm.trans herror
    rfl

/-- What is read does not depend on where it starts. -/
theorem alike_read (c : Cursor) (q : Nat) : Alike (read c) (read ⟨c.rest, q⟩) := by
  induction c using Elements.read.induct generalizing q with
  | case1 c hempty =>
    have hmoved : (⟨c.rest, q⟩ : Cursor).isEmpty := hempty
    rw [read, if_pos hempty, read, if_pos hmoved]
    exact .done
  | case2 c hempty e d hd ih =>
    obtain ⟨e', ⟨rest, position⟩, hmoved, htype, hvalue, hrest⟩ := Read.element_moved hd q
    obtain rfl : rest = d.rest := hrest
    rw [read_of_element hd, read_of_element hmoved]
    exact .next htype hvalue (ih position)
  | case3 c hempty error d hd =>
    have hstuck : ∃ error' d', Read.element ⟨c.rest, q⟩ = .error error' d' := by
      -- What can be read at one place can be read at the other.
      cases hmoved : Read.element ⟨c.rest, q⟩ with
      | error error' d' => exact ⟨error', d', rfl⟩
      | ok e' d' =>
        obtain ⟨_, _, hback, -⟩ := Read.element_moved hmoved c.position
        cases hd.symm.trans hback
    obtain ⟨error', d', hmoved⟩ := hstuck
    have hfull : ¬ (⟨c.rest, q⟩ : Cursor).isEmpty := hempty
    rw [read_of_error hempty hd, read_of_error hfull hmoved]
    exact .broken error error'

end Elements

/-- One element of a type stands more in the octets, at a boundary behind the first element, which
is mandatory, and not behind one that ends the reading. -/
inductive Inserted (mandatory : UInt64) (ends : UInt64 → Prop) (type : UInt64) :
    Bytes → Bytes → Prop
  | mk {first firstValue front extra value back : Bytes} {elements : List Element}
    (hfirst : Spells first mandatory firstValue) (hfront : SpellsAll first.length front elements)
    (hbefore : ∀ e ∈ elements, ¬ ends e.type) (hextra : Spells extra type value) :
    Inserted mandatory ends type (first ++ (front ++ back)) (first ++ (front ++ (extra ++ back)))

/-- A decoder goes on decoding the same if an element is inserted whose type it does not know and
need not know, and refuses one that it would have to know. -/
def Evolves {γ : Type} (decode : Bytes → Except Error γ) (framed : Bytes → Bytes → Prop)
    (mandatory : UInt64) (ends : UInt64 → Prop) (known : List UInt64)
    (same : γ → γ → Prop) : Prop :=
  ∀ wire wire' body body' type decoded, decode wire = .ok decoded → framed wire body →
    framed wire' body' → Inserted mandatory ends type body body' → type ∉ known →
      (31 < type ∧ type % 2 = 0 → ∃ decoded', decode wire' = .ok decoded' ∧ same decoded decoded') ∧
        (¬ (31 < type ∧ type % 2 = 0) → decode wire' = .error (.unrecognizedCritical type))

section

variable {α β : Type} {take : α → Element → Except Error α}
  {takeAll : α → Elements → Except Error β}
  {ends : UInt64 → Prop} {known : List UInt64} {same : β → β → Prop} {p : α} {b : β} {q : Nat}
  {front extra value back : Bytes} {type : UInt64} {elements : List Element}

/-- A loop over elements, up to one that ends it, that passes over those it does not know, or fails
if they are critical. What it comes to does not depend on positions, but for what does not count. -/
structure Tolerant (take : α → Element → Except Error α) (takeAll : α → Elements → Except Error β)
    (ends : UInt64 → Prop) (known : List UInt64) (same : β → β → Prop) : Prop where
  next : ∀ p e rest, ¬ ends e.type → takeAll p (.next e rest) = take p e >>= (takeAll · rest)
  unknown : ∀ p e, e.type ∉ known → take p e =
    if isCritical e.type then .error (.unrecognizedCritical e.type) else .ok p
  known_of_ends : ∀ type, ends type → type ∈ known
  alike : ∀ p rest rest' b, Elements.Alike rest rest' → takeAll p rest = .ok b →
    ∃ b', takeAll p rest' = .ok b' ∧ same b b'

namespace Tolerant

theorem foldr (h : Tolerant take takeAll ends known same) (hbefore : ∀ e ∈ elements, ¬ ends e.type)
    (rest : Elements) (p : α) :
    takeAll p (elements.foldr .next rest) = elements.foldlM take p >>= (takeAll · rest) := by
  induction elements generalizing p with
  | nil => rfl
  | cons e more ih =>
    obtain ⟨hfirst, hmore⟩ := List.forall_mem_cons.1 hbefore
    rw [List.foldr_cons, h.next p e _ hfirst, List.foldlM_cons, bind_assoc]
    simp only [ih hmore]

/-- Up to the inserted element the loop runs as before, and from there on too, if it is not
critical. -/
theorem inserted (h : Tolerant take takeAll ends known same) (hfront : SpellsAll q front elements)
    (hbefore : ∀ e ∈ elements, ¬ ends e.type) (hextra : Spells extra type value)
    (hnew : type ∉ known)
    (hok : takeAll p (.read ⟨front ++ back, q⟩) = .ok b) :
    (isCritical type = false →
        ∃ b', takeAll p (.read ⟨front ++ (extra ++ back), q⟩) = .ok b' ∧ same b b') ∧
      (isCritical type = true →
        takeAll p (.read ⟨front ++ (extra ++ back), q⟩) = .error (.unrecognizedCritical type)) := by
  have hnoEnd : ¬ ends type := fun hends => hnew (h.known_of_ends type hends)
  have helement := hextra.read back (q + front.length)
  rw [hfront.elements_read, h.foldr hbefore] at hok
  -- Both readings come to the same up to the inserted element, and go on from there.
  obtain ⟨mid, hmid, hback⟩ := ok_of_bind hok
  have hmoved : ∀ position, ∃ b', takeAll mid (.read ⟨back, position⟩) = .ok b' ∧ same b b' :=
    fun position => h.alike mid _ _ b (Elements.alike_read _ position) hback
  have hread : takeAll p (.read ⟨front ++ (extra ++ back), q⟩) =
      (if isCritical type then .error (.unrecognizedCritical type)
        else .ok mid : Except Error α) >>=
        (takeAll · (.read ⟨back, q + front.length + extra.length⟩)) := by
    rw [hfront.elements_read, h.foldr hbefore, hmid, Elements.read_of_element helement]
    show takeAll mid _ = _
    rw [h.next mid _ _ hnoEnd, h.unknown mid _ hnew]
  rw [hread]
  constructor
  · intro hcritical
    rw [hcritical]
    exact hmoved _
  · intro hcritical
    rw [hcritical]
    rfl

/-- A decoder that reads a mandatory element and then runs such a loop. -/
theorem evolves {γ δ : Type} {decode : Bytes → Except Error γ} {framed : Bytes → Bytes → Prop}
    {mandatory : UInt64} {sameDecoded : γ → γ → Prop} (h : Tolerant take takeAll ends known same)
    (head : Bytes → Except Error δ) (init : δ → α) (finish : Bytes → Bytes → δ → β → Except Error γ)
    (hdecode : ∀ wire first value rest, framed wire (first ++ rest) → Spells first mandatory value →
      decode wire = head value >>= fun a =>
        takeAll (init a) (.read ⟨rest, first.length⟩) >>= finish wire (first ++ rest) a)
    (hfinish : ∀ wire wire' body body' a b b' decoded, same b b' →
      finish wire body a b = .ok decoded →
        ∃ decoded', finish wire' body' a b' = .ok decoded' ∧ sameDecoded decoded decoded') :
    Evolves decode framed mandatory ends known sameDecoded := by
  intro wire wire' body body' type decoded hok hframed hframed' hins hnew
  cases hins with
  | @mk first firstValue front extra value back elements hfirst hfront hbefore hextra =>
    rw [hdecode wire _ _ _ hframed hfirst] at hok
    obtain ⟨a, ha, hok⟩ := ok_of_bind hok
    obtain ⟨b, hb, hok⟩ := ok_of_bind hok
    obtain ⟨haccept, hrefuse⟩ := h.inserted hfront hbefore hextra hnew hb
    rw [hdecode wire' _ _ _ hframed' hfirst, ha, ← isCritical_eq_false_iff]
    constructor
    · intro hcritical
      obtain ⟨b', hb', hsame⟩ := haccept hcritical
      obtain ⟨decoded', hfinish', hfields⟩ := hfinish wire wire' _ _ a b b' decoded hsame hok
      refine ⟨decoded', ?_, hfields⟩
      show takeAll (init a) _ >>= _ = _
      rw [hb']
      exact hfinish'
    · intro hcritical
      show takeAll (init a) _ >>= _ = _
      rw [hrefuse (Bool.not_eq_false _ ▸ hcritical)]
      rfl

end Tolerant

/-- A loop that runs to the end of the octets, and of which each step depends on types and values
alone. -/
theorem Reads.tolerant {takeAll : α → Elements → Except Error α} (h : Reads take takeAll)
    (hmoved : ∀ p e e', e'.type = e.type → e'.value = e.value → take p e' = take p e)
    (hunknown : ∀ p e, e.type ∉ known → take p e =
      if isCritical e.type then .error (.unrecognizedCritical e.type) else .ok p) :
    Tolerant take takeAll (fun _ => False) known Eq := by
  constructor
  case next => exact fun p e rest _ => h.next p e rest
  case unknown => exact hunknown
  case known_of_ends => exact fun _ hends => hends.elim
  case alike =>
    intro p rest rest' b halike hb
    refine ⟨b, ?_, rfl⟩
    induction halike generalizing p with
    | done => exact hb
    | broken error error' =>
      rw [h.broken] at hb
      cases hb
    | next htype hvalue _ ih =>
      rw [h.next] at hb ⊢
      rw [hmoved p _ _ htype hvalue]
      obtain ⟨p', hp', hb⟩ := ok_of_bind hb
      rw [hp']
      exact ih p' hb

end

end PacketTrust.Tlv
