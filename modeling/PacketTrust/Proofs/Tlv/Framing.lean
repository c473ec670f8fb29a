import PacketTrust.Proofs.Tlv.Runs

/-! Elements in a buffer, and the loop that reads one after the other. An element is read just where
a header stands in the buffer with as many octets behind it as it says, and where they are fewer the
read says so. -/

namespace PacketTrust.Tlv

/-- The header of an element: its type and the length of its value, each in any of its forms. -/
def Header (header : Bytes) (type length : UInt64) : Prop :=
  ∃ head tail, header = head ++ tail ∧ Numeral head type ∧ Numeral tail length

/-- The element lies in a buffer: its range is not empty, ends within the buffer, and holds a header
and the value that it announces, nothing else. -/
structure Element.LiesIn (e : Element) (bytes : Bytes) : Prop where
  forward : e.start < e.stop
  inside : e.stop ≤ bytes.length
  framed : ∃ header length, Header header e.type length ∧ length.toNat = e.value.length ∧
    bytes.extract e.start e.stop = header ++ e.value

/-- Ranges that follow one another from one offset to another, without gap or overlap. -/
def Tiles : Nat → Nat → List Element → Prop
  | first, last, [] => first = last
  | first, last, e :: rest => e.start = first ∧ first < e.stop ∧ Tiles e.stop last rest

def encodeAll (fields : List (UInt64 × Bytes)) : Bytes := fields.flatMap fun f => encode f.1 f.2

variable {bytes header value front more : Bytes} {type type' length : UInt64} {position : Nat}
  {c d : Cursor} {e e' : Element} {elements : List Element} {fields : List (UInt64 × Bytes)}

theorem Numeral.length_pos {n : UInt64} (h : Numeral bytes n) : 0 < bytes.length := by
  cases h <;> simp

theorem Header.two_le (h : Header header type length) : 2 ≤ header.length := by
  obtain ⟨head, tail, rfl, hhead, htail⟩ := h
  have hfirst := hhead.length_pos
  have hsecond := htail.length_pos
  rw [List.length_append]
  omega

/-- Behind a header, the length that it announces is all that is left to be read. -/
theorem Header.read (h : Header header type length) (rest : Bytes) (q : Nat) :
    Read.element ⟨header ++ rest, q⟩ =
      (do
        let value ← Read.octets length.toNat
        pure ⟨type, value, q, (← get).position⟩ : Read Element) ⟨rest, q + header.length⟩ := by
  obtain ⟨head, tail, rfl, hhead, htail⟩ := h
  have hfirst := hhead.spells (tail ++ rest) q
  have hsecond := htail.spells rest (q + head.length)
  rw [List.append_assoc, List.length_append, ← Nat.add_assoc]
  exact (Act.bind_of_ok hfirst).trans (Act.bind_of_ok hsecond)

theorem spells_iff {wire : Bytes} : Spells wire type value ↔
    ∃ header length, Header header type length ∧ length.toNat = value.length ∧
      wire = header ++ value := by
  constructor
  · rintro ⟨head, tail, length, rfl, hhead, htail, hlength⟩
    have hheader : Header (head ++ tail) type length :=
      ⟨head, tail, rfl, hhead.numeral, htail.numeral⟩
    exact ⟨_, length, hheader, hlength, (List.append_assoc ..).symm⟩
  · rintro ⟨_, length, ⟨head, tail, rfl, hhead, htail⟩, hlength, rfl⟩
    exact ⟨head, tail, length, List.append_assoc .., hhead.spells, htail.spells, hlength⟩

/-- An element is read at a position just if one lies in the buffer that starts there. -/
theorem element_seek_iff : Read.element (.seek bytes position) = .ok e d ↔
    e.start = position ∧ d = .seek bytes e.stop ∧ e.LiesIn bytes := by
  constructor
  · intro h
    obtain ⟨wire, hrest, hspells, hstart, hstop⟩ := spells_of_element h
    obtain ⟨-, -, hnext, -⟩ := Read.element_ok h
    change bytes.drop position = wire ++ d.rest at hrest
    change e.start = position at hstart
    change e.stop = position + wire.length at hstop
    have hpos := hspells.length_pos
    have hlength := congrArg List.length hrest
    rw [List.length_drop, List.length_append] at hlength
    have hbehind : bytes.drop e.stop = d.rest := by
      rw [hstop, ← List.drop_drop, hrest, List.drop_left]
    have hrange : bytes.extract e.start e.stop = wire := by
      rw [List.extract_eq_take_drop, hstart, hrest, hstop, Nat.add_sub_cancel_left, List.take_left]
    obtain ⟨header, length, hheader, hvalue, hwire⟩ := spells_iff.1 hspells
    refine ⟨hstart, ?_, by omega, by omega, header, length, hheader, hvalue, hrange.trans hwire⟩
    rw [Cursor.seek, hbehind, hnext]
  · rintro ⟨rfl, rfl, hforward, hinside, header, length, hheader, hvalue, hrange⟩
    have hspells : Spells (header ++ e.value) e.type e.value :=
      spells_iff.2 ⟨header, length, hheader, hvalue, rfl⟩
    rw [List.extract_eq_take_drop] at hrange
    have hrest : bytes.drop e.start = header ++ e.value ++ bytes.drop e.stop := by
      have hsplit := List.take_append_drop (e.stop - e.start) (bytes.drop e.start)
      rwa [hrange, List.drop_drop, Nat.add_sub_cancel' hforward.le, eq_comm] at hsplit
    have hlength : e.start + (header ++ e.value).length = e.stop := by
      rw [← hrange, List.length_take, List.length_drop]
      omega
    have hread := hspells.read (bytes.drop e.stop) e.start
    rwa [← hrest, hlength] at hread

/-- A length that does not fit is refused, whatever it is. -/
theorem element_seek_of_lt (h : Header header type length)
    (hstands : header <+: bytes.drop position)
    (hlong : bytes.length < position + header.length + length.toNat) :
    Read.element (.seek bytes position) = .error (.truncated (position + header.length))
      (.seek bytes (position + header.length)) := by
  obtain ⟨rest, hrest⟩ := hstands
  have hbehind : bytes.drop (position + header.length) = rest := by
    rw [← List.drop_drop, ← hrest, List.drop_left]
  have hshort : rest.length < length.toNat := by
    have hlength := congrArg List.length hrest
    have htwo := h.two_le
    rw [List.length_drop, List.length_append] at hlength
    omega
  have hread := h.read rest position
  rw [hrest] at hread
  rw [Cursor.seek, Cursor.seek, hread, hbehind]
  exact Act.bind_of_error (Read.octets_of_lt hshort)

namespace Loop

/-- The elements of the loop tile the part of the buffer that it has passed, two octets or more for
each. -/
theorem tiles (h : Loop c elements d) (hc : c = .seek bytes position) :
    d = .seek bytes d.position ∧ Tiles position d.position elements ∧
      (∀ e ∈ elements, e.LiesIn bytes) ∧ position + 2 * elements.length ≤ d.position ∧
      d.position ≤ max position bytes.length := by
  induction h generalizing position with
  | nil c =>
    subst hc
    exact ⟨rfl, rfl, by simp, Nat.le_refl _, Nat.le_max_left ..⟩
  | @cons c d last e elements _ hread _ ih =>
    subst hc
    obtain ⟨hstart, hnext, hlies⟩ := element_seek_iff.1 hread
    obtain ⟨hlast, htiles, hall, hcount, hend⟩ := ih hnext
    have htwo : e.start + 2 ≤ e.stop := by
      obtain ⟨header, length, hheader, -, hrange⟩ := hlies.framed
      have hlength := congrArg List.length hrange
      have hinside := hlies.inside
      have hheader := hheader.two_le
      rw [List.extract_eq_take_drop, List.length_take, List.length_drop,
        List.length_append] at hlength
      omega
    have hinside := hlies.inside
    refine ⟨hlast, ⟨hstart, by omega, htiles⟩, List.forall_mem_cons.2 ⟨hlies, hall⟩, ?_, by omega⟩
    rw [List.length_cons]
    omega

end Loop

theorem exists_loop_encodeAll (h : ∀ f ∈ fields, f.2.length < 2 ^ 64) (q : Nat) :
    ∃ elements, Loop ⟨encodeAll fields, q⟩ elements ⟨[], q + (encodeAll fields).length⟩ ∧
      elements.map (fun e => (e.type, e.value)) = fields := by
  induction fields generalizing q with
  | nil => exact ⟨[], .nil _, rfl⟩
  | cons f rest ih =>
    obtain ⟨hf, hrest⟩ := List.forall_mem_cons.1 h
    have hspells : Spells (encode f.1 f.2) f.1 f.2 := .encode f.1 hf
    have hread := hspells.read (encodeAll rest) q
    have hmore : ¬ (⟨encodeAll (f :: rest), q⟩ : Cursor).isEmpty := by
      have hpos := hspells.length_pos
      simp only [encodeAll, Cursor.isEmpty, List.flatMap_cons, List.isEmpty_iff,
        List.append_eq_nil_iff]
      rintro ⟨hnil, -⟩
      simp [hnil] at hpos
    obtain ⟨elements, hloop, hsame⟩ := ih hrest (q + (encode f.1 f.2).length)
    have hlength : q + (encodeAll (f :: rest)).length =
        q + (encode f.1 f.2).length + (encodeAll rest).length := by
      simp [encodeAll, Nat.add_assoc]
    rw [hlength]
    exact ⟨_ :: elements, .cons hmore hread hloop, by rw [List.map_cons, hsame]⟩

theorem single_eq_ok_iff : single type bytes = .ok e ↔
    e.LiesIn bytes ∧ e.type = type ∧ e.start = 0 ∧ e.stop = bytes.length := by
  constructor
  · intro h
    obtain ⟨hspells, hstart, hstop⟩ := single_ok h
    obtain ⟨t, v, start, stop⟩ := e
    obtain rfl : start = 0 := hstart
    obtain rfl : stop = bytes.length := hstop
    have htype : t = type := by
      have hsame := single_of_spells hspells
      rw [h] at hsame
      exact congrArg Element.type (Except.ok.inj hsame)
    have hread := hspells.read [] 0
    have hstart : (⟨bytes, 0⟩ : Cursor) = .seek bytes 0 := rfl
    rw [List.append_nil, Nat.zero_add, hstart] at hread
    subst htype
    obtain ⟨-, -, hlies⟩ := element_seek_iff.1 hread
    exact ⟨hlies, rfl, rfl, rfl⟩
  · rintro ⟨hlies, rfl, hstart, hstop⟩
    obtain ⟨header, length, hheader, hvalue, hrange⟩ := hlies.framed
    have hwhole : bytes = header ++ e.value := by
      rwa [hstart, hstop, List.extract_eq_take_drop, List.drop_zero, Nat.sub_zero,
        List.take_length] at hrange
    have hspells : Spells bytes e.type e.value :=
      spells_iff.2 ⟨header, length, hheader, hvalue, hwhole⟩
    rw [single_of_spells hspells, ← hstart, ← hstop]

/-- Octets that are one element are no beginning of others that are. -/
theorem eq_nil_of_single (h : single type front = .ok e)
    (h' : single type' (front ++ more) = .ok e') : more = [] := by
  have hfront := (single_ok h).1.read more 0
  have hwhole := (single_ok h').1.read [] 0
  rw [List.append_nil] at hwhole
  injection hfront.symm.trans hwhole with _ hend
  exact congrArg Cursor.rest hend

/-- Written elements are read back with ranges that tile the buffer. In any buffer an element is
read just if one lies at the position, the loop comes to its end, and a buffer that is one element
neither begins nor continues another one that is. -/
theorem elements_framed :
    (∀ fields : List (UInt64 × Bytes), (∀ f ∈ fields, f.2.length < 2 ^ 64) →
      ∃ elements, elements.map (fun e => (e.type, e.value)) = fields ∧
        Loop (.start (encodeAll fields)) elements
          (.seek (encodeAll fields) (encodeAll fields).length) ∧
        Elements.ofBytes (encodeAll fields) = elements.foldr .next .done ∧
        Tiles 0 (encodeAll fields).length elements ∧ ∀ e ∈ elements, e.LiesIn (encodeAll fields)) ∧
    (∀ bytes position e d, Read.element (.seek bytes position) = .ok e d ↔
      e.start = position ∧ d = .seek bytes e.stop ∧ e.LiesIn bytes) ∧
    (∀ bytes position header type length, Header header type length →
      header <+: bytes.drop position →
      bytes.length < position + header.length + length.toNat →
        Read.element (.seek bytes position) = .error (.truncated (position + header.length))
          (.seek bytes (position + header.length))) ∧
    (∀ c e d, Read.element c = .error e d → e = .truncated d.position) ∧
    (∀ bytes position, (∀ elements d, Loop (.seek bytes position) elements d →
        Tiles position d.position elements ∧ position + 2 * elements.length ≤ d.position ∧
          d.position ≤ max position bytes.length) ∧
      ∃ elements d ending, Loop (.seek bytes position) elements d ∧ d.Ends ending ∧
        Elements.read (.seek bytes position) = elements.foldr .next ending) ∧
    (∀ type bytes e, single type bytes = .ok e ↔
      e.LiesIn bytes ∧ e.type = type ∧ e.start = 0 ∧ e.stop = bytes.length) ∧
    ∀ type type' front more e e', single type front = .ok e →
      single type' (front ++ more) = .ok e' → more = [] := by
  refine ⟨fun fields h => ?_, fun _ _ _ _ => element_seek_iff, fun _ _ _ _ _ => element_seek_of_lt,
    Read.failsShort_element, fun bytes position => ⟨fun elements d h => ?_, exists_loop _⟩,
    fun _ _ _ => single_eq_ok_iff, fun _ _ _ _ _ _ => eq_nil_of_single⟩
  · obtain ⟨elements, hloop, hfields⟩ := exists_loop_encodeAll h 0
    have hend : (⟨[], 0 + (encodeAll fields).length⟩ : Cursor) =
        .seek (encodeAll fields) (encodeAll fields).length := by
      simp [Cursor.seek]
    rw [hend] at hloop
    obtain ⟨-, htiles, hall, -⟩ := hloop.tiles (rfl : _ = Cursor.seek _ 0)
    have hread := hloop.read
    rw [← hend, Elements.read_nil] at hread
    exact ⟨elements, hfields, hloop, hread, htiles, hall⟩
  · obtain ⟨-, htiles, -, hcount, hend⟩ := h.tiles rfl
    exact ⟨htiles, hcount, hend⟩

namespace Sample

def written : List (UInt64 × Bytes) := [(6, []), (300, [1, 2, 3])]

def endless : Bytes := 8 :: 255 :: List.replicate 8 255

theorem header_endless : Header endless 8 0xffffffffffffffff := by
  have hvalue : UInt64.ofNat (Bytes.toNat (List.replicate 8 255)) = 0xffffffffffffffff := by decide
  have hlength : Numeral (255 :: List.replicate 8 255) _ := .wide (.inr (.inr ⟨rfl, rfl⟩))
  rw [hvalue] at hlength
  exact ⟨[8], _, rfl, .short (by decide), hlength⟩

end Sample

theorem elements_framed_sample :
    (∀ f ∈ Sample.written, f.2.length < 2 ^ 64) ∧
      (∃ elements, elements.map (fun e => (e.type, e.value)) = Sample.written ∧
        Tiles 0 9 elements) ∧
      Read.element (.seek (Sample.endless ++ [1, 2]) 0) =
        .error (.truncated 10) (.seek (Sample.endless ++ [1, 2]) 10) ∧
      single 6 [6, 1, 7] = .ok ⟨6, [7], 0, 3⟩ ∧
      ∀ more e, single 6 ([6, 1, 7] ++ more) = .ok e → more = [] := by
  obtain ⟨hwritten, -, hlong, -, -, -, hsingle⟩ := elements_framed
  have hfields : ∀ f ∈ Sample.written, f.2.length < 2 ^ 64 := by decide
  obtain ⟨elements, hsame, -, -, htiles, -⟩ := hwritten Sample.written hfields
  have hlength : (encodeAll Sample.written).length = 9 := by decide
  have hone : single 6 [6, 1, 7] = .ok ⟨6, [7], 0, 3⟩ := by decide
  have hrefused :=
    hlong (Sample.endless ++ [1, 2]) 0 _ _ _ Sample.header_endless (List.prefix_append _ _)
    (by decide)
  exact ⟨hfields, ⟨elements, hsame, hlength ▸ htiles⟩, hrefused, hone,
    fun more e => hsingle _ _ _ _ _ _ hone⟩

end PacketTrust.Tlv
