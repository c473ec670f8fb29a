import PacketTrust.Proofs.Action
import PacketTrust.Proofs.Tlv.Writing

/-! Readers that take in the elements of a value one after the other, in a loop that ends where
nothing is left or an element is cut short. What such a reader comes to is told by the elements that
the octets spell. Main statement: it comes to a result exactly if the octets tell it. -/

namespace PacketTrust.Tlv

/-- Reading element after element, as long as anything is left, leads from one cursor to another. -/
inductive Loop : Cursor → List Element → Cursor → Prop
  | nil (c : Cursor) : Loop c [] c
  | cons {c d last : Cursor} {e : Element} {elements : List Element} (more : ¬ c.isEmpty)
      (element : Read.element c = .ok e d) (rest : Loop d elements last) :
        Loop c (e :: elements) last

/-- Where the loop ends, and with what: nothing is left, or the next element is cut short. -/
def Cursor.Ends (c : Cursor) : Elements → Prop
  | .done => c.isEmpty
  | .broken error => ¬ c.isEmpty ∧ ∃ d, Read.element c = .error error d ∧
      error = .truncated d.position
  | .next _ _ => False

namespace Read

/-- The read fails only where octets are missing, and tells where. -/
def FailsShort {α : Type} (r : Read α) : Prop :=
  ∀ c e d, r c = .error e d → e = .truncated d.position

variable {α β : Type} {r : Read α} {k : α → Read β}

theorem FailsShort.bind (hr : r.FailsShort) (hk : ∀ a, (k a).FailsShort) :
    (r >>= k).FailsShort := by
  intro c e d h
  rcases Act.bind_error h with h | ⟨a, b, -, h⟩
  · exact hr c e d h
  · exact hk a b e d h

theorem failsShort_pure (a : α) : (pure a : Read α).FailsShort := by
  intro c e d h
  cases h

theorem failsShort_octets (n : Nat) : (octets n).FailsShort := by
  intro c e d h
  unfold octets at h
  dsimp only at h
  split at h
  · cases h
  · cases h
    rfl

theorem failsShort_bigEndian (n : Nat) : (bigEndian n).FailsShort :=
  (failsShort_octets n).bind fun _ => failsShort_pure _

theorem failsShort_var : var.FailsShort := by
  apply (failsShort_bigEndian 1).bind
  intro first
  split
  · exact failsShort_bigEndian 2
  split
  · exact failsShort_bigEndian 4
  split
  · exact failsShort_bigEndian 8
  · exact failsShort_pure first

theorem failsShort_element : element.FailsShort := by
  intro c e d h
  rcases Act.bind_error h with h | ⟨type, c₁, -, h⟩
  · exact failsShort_var c e d h
  rcases Act.bind_error h with h | ⟨length, c₂, -, h⟩
  · exact failsShort_var c₁ e d h
  rcases Act.bind_error h with h | ⟨value, c₃, -, h⟩
  · exact failsShort_octets length.toNat c₂ e d h
  · cases h

theorem octets_of_lt {n : Nat} {c : Cursor} (h : c.rest.length < n) :
    octets n c = .error (.truncated c.position) c := by
  have hshort : ¬ (c.rest.take n).length = n := by
    rw [List.length_take]
    omega
  unfold octets
  exact if_neg hshort

end Read

variable {c d : Cursor} {elements : List Element}

namespace Loop

theorem read (h : Loop c elements d) : Elements.read c = elements.foldr .next (.read d) := by
  induction h with
  | nil c => rfl
  | cons _ hread _ ih =>
    rw [Elements.read_of_element hread, ih]
    rfl

theorem spellsAll (h : Loop c elements d) (hd : d.isEmpty) :
    SpellsAll c.position c.rest elements := by
  induction h with
  | nil c =>
    rw [List.isEmpty_iff.1 hd]
    exact .nil _
  | @cons c d last e elements _ hread _ ih =>
    obtain ⟨wire, hrest, hs, hstart, hstop⟩ := spells_of_element hread
    obtain ⟨-, -, hnext, -⟩ := Read.element_ok hread
    obtain ⟨type, value, start, stop⟩ := e
    obtain rfl : start = c.position := hstart
    obtain rfl : stop = c.position + wire.length := hstop
    have hall := ih hd
    rw [← hnext] at hall
    rw [hrest]
    exact .cons hs hall

end Loop

/-- The loop goes on until it ends, and its elements are those that a decoder is given. -/
theorem exists_loop (c : Cursor) : ∃ elements d ending, Loop c elements d ∧ d.Ends ending ∧
    Elements.read c = elements.foldr .next ending := by
  induction c using Elements.read.induct with
  | case1 c hempty =>
    refine ⟨[], c, .done, .nil c, hempty, ?_⟩
    rw [Elements.read, if_pos hempty]
    rfl
  | case2 c hmore e d hread ih =>
    obtain ⟨elements, last, ending, hloop, hends, hrest⟩ := ih
    refine ⟨e :: elements, last, ending, .cons hmore hread hloop, hends, ?_⟩
    rw [Elements.read_of_element hread, hrest]
    rfl
  | case3 c hmore error d hread =>
    have hshort := Read.failsShort_element c error d hread
    refine ⟨[], c, .broken error, .nil c, ⟨hmore, d, hread, hshort⟩, ?_⟩
    rw [Elements.read, if_neg hmore]
    split
    · rename_i h
      cases hread.symm.trans h
    · rename_i h
      cases hread.symm.trans h
      rfl

/-- The octets are elements to their end, or there are elements up to one that is cut short. -/
theorem Elements.exists_read (c : Cursor) :
    (∃ elements, SpellsAll c.position c.rest elements ∧ read c = elements.foldr .next .done) ∨
      ∃ (elements : List Element) (e : Error), read c = elements.foldr .next (.broken e) := by
  obtain ⟨elements, d, ending, hloop, hends, hread⟩ := exists_loop c
  cases ending with
  | done => exact .inl ⟨elements, hloop.spellsAll hends, hread⟩
  | broken e => exact .inr ⟨elements, e, hread⟩
  | next e rest => exact hends.elim

namespace SpellsAll

variable {q : Nat} {bytes : Bytes} {elements : List Element} {e e' : Element}

theorem read (h : SpellsAll q bytes elements) :
    Elements.read ⟨bytes, q⟩ = elements.foldr .next .done := by
  have hread := h.elements_read []
  rwa [List.append_nil, Elements.read_nil] at hread

theorem length_of_mem (h : SpellsAll q bytes elements) (he : e ∈ elements) :
    (encode e.type e.value).length ≤ bytes.length := by
  induction h with
  | nil => cases he
  | cons hs _ ih =>
    rw [List.length_append]
    rcases List.mem_cons.1 he with rfl | he
    · have := hs.length_encode_le
      dsimp only
      omega
    · have := ih he
      omega

/-- Two elements do not share octets. -/
theorem length_of_mem_of_mem (h : SpellsAll q bytes elements) (he : e ∈ elements)
    (he' : e' ∈ elements) (hne : e.type ≠ e'.type) :
    (encode e.type e.value).length + (encode e'.type e'.value).length ≤ bytes.length := by
  induction h with
  | nil => cases he
  | cons hs hrest ih =>
    have hfirst := hs.length_encode_le
    rw [List.length_append]
    rcases List.mem_cons.1 he with rfl | he
    · rcases List.mem_cons.1 he' with rfl | he'
      · exact absurd rfl hne
      · have := hrest.length_of_mem he'
        dsimp only
        omega
    · rcases List.mem_cons.1 he' with rfl | he'
      · have := hrest.length_of_mem he
        dsimp only
        omega
      · have := ih he he'
        omega

end SpellsAll

section

variable {α : Type} {take : α → Element → Except Error α} {takeAll : α → Elements → Except Error α}
  {q : Nat} {bytes more value : Bytes} {p p' p'' : α}

/-- The elements that octets spell from a position on, taken in one after the other, lead from one
state to another. -/
def Tells (take : α → Element → Except Error α) (q : Nat) (bytes : Bytes) (p p' : α) : Prop :=
  ∃ elements, SpellsAll q bytes elements ∧ elements.foldlM take p = .ok p'

/-- A reader takes in elements until the octets end. -/
structure Reads (take : α → Element → Except Error α)
    (takeAll : α → Elements → Except Error α) : Prop where
  done : ∀ p, takeAll p .done = .ok p
  broken : ∀ p e, takeAll p (.broken e) = .error e
  next : ∀ p e rest, takeAll p (.next e rest) = take p e >>= (takeAll · rest)

theorem Reads.foldr (h : Reads take takeAll) (elements : List Element) (rest : Elements) (p : α) :
    takeAll p (elements.foldr .next rest) = elements.foldlM take p >>= (takeAll · rest) := by
  induction elements generalizing p with
  | nil => rfl
  | cons e more ih =>
    rw [List.foldr_cons, h.next, List.foldlM_cons, bind_assoc]
    simp only [ih]

/-- A reader comes to what the octets tell, and to nothing else. -/
theorem Reads.read_eq_ok_iff (h : Reads take takeAll) {c : Cursor} :
    takeAll p (.read c) = .ok p' ↔ Tells take c.position c.rest p p' := by
  constructor
  · intro hok
    rcases Elements.exists_read c with ⟨elements, hall, hread⟩ | ⟨elements, e, hread⟩
    · rw [hread, h.foldr] at hok
      obtain ⟨last, hlast, hdone⟩ := ok_of_bind hok
      rw [h.done] at hdone
      cases hdone
      exact ⟨elements, hall, hlast⟩
    · rw [hread, h.foldr] at hok
      obtain ⟨last, -, hbroken⟩ := ok_of_bind hok
      rw [h.broken] at hbroken
      cases hbroken
  · rintro ⟨elements, hall, hlast⟩
    have hread : Elements.read c = elements.foldr .next .done := hall.read
    rw [hread, h.foldr, hlast]
    exact h.done p'

/-- Where a reader does not take in an element, it fails with that, whatever follows. -/
theorem Reads.read_error (h : Reads take takeAll) (htold : Tells take q bytes p p') {type : UInt64}
    {problem : Error} (hv : value.length < 2 ^ 64)
    (hfails : ∀ start stop, take p' ⟨type, value, start, stop⟩ = .error problem) (rest : Bytes) :
    takeAll p (.read ⟨bytes ++ (encode type value ++ rest), q⟩) = .error problem := by
  obtain ⟨elements, hall, hlast⟩ := htold
  have helement := (Spells.encode type hv).read rest (q + bytes.length)
  rw [hall.elements_read, Elements.read_of_element helement, h.foldr, hlast]
  change takeAll p' _ = _
  rw [h.next, hfails]
  rfl

namespace Tells

theorem nil (take : α → Element → Except Error α) (q : Nat) (p : α) : Tells take q [] p p :=
  ⟨[], .nil q, rfl⟩

theorem append (h : Tells take q bytes p p') (hmore : Tells take (q + bytes.length) more p' p'') :
    Tells take q (bytes ++ more) p p'' := by
  obtain ⟨elements, hall, hfold⟩ := h
  obtain ⟨others, hothers, hfold'⟩ := hmore
  refine ⟨elements ++ others, hall.append hothers, ?_⟩
  rw [List.foldlM_append, hfold]
  exact hfold'

theorem encode {type : UInt64} (hv : value.length < 2 ^ 64)
    (h : ∀ start stop, take p ⟨type, value, start, stop⟩ = .ok p') :
    Tells take q (encode type value) p p' := by
  refine ⟨_, .single (.encode type hv) q, ?_⟩
  rw [List.foldlM_cons, h]
  rfl

/-- What each element of the octets keeps true, all of them keep true. -/
theorem invariant (h : Tells take q bytes p p') {P : α → Prop} (hp : P p)
    (hstep : ∀ p e p', (Tlv.encode e.type e.value).length ≤ bytes.length → take p e = .ok p' →
      P p → P p') : P p' := by
  obtain ⟨elements, hall, hfold⟩ := h
  have hlen : ∀ e ∈ elements, (Tlv.encode e.type e.value).length ≤ bytes.length :=
    fun e he => hall.length_of_mem he
  clear hall
  induction elements generalizing p with
  | nil =>
    cases hfold
    exact hp
  | cons e rest ih =>
    obtain ⟨hfirst, hrest⟩ := List.forall_mem_cons.1 hlen
    rw [List.foldlM_cons] at hfold
    obtain ⟨next, htake, hfold⟩ := ok_of_bind hfold
    exact ih (hstep p e next hfirst htake hp) hfold hrest

end Tells

end

end PacketTrust.Tlv
