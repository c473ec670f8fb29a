import Mathlib.Algebra.Order.BigOperators.Group.List
import PacketTrust.Proofs.Name.Uri

/-! Names that are read from texts, on the wire. A text is read piece by piece, in one of four ways,
and what is read takes at most twice as many octets on the wire, and one more, as the piece has. -/

namespace PacketTrust

open Tlv

namespace Hex

/-- An octet is read from two digits. -/
theorem length_of_decode? {text : List Char} {bytes : Bytes} (h : decode? text = some bytes) :
    text.length = 2 * bytes.length := by
  fun_induction decode? text generalizing bytes with
  | case1 =>
    cases h
    rfl
  | case2 => cases h
  | case3 hi lo rest ih =>
    simp only [Option.bind_eq_bind, Option.bind_eq_some_iff] at h
    obtain ⟨_, _, _, _, more, hmore, h⟩ := h
    cases h
    have hrest := ih hmore
    simp only [List.length_cons, hrest]
    omega

end Hex

namespace Utf8

variable {text rest : List Char} {c : Char}

theorem length_encode_cons (c : Char) (rest : List Char) :
    (encode (c :: rest)).length = (String.utf8EncodeChar c).length + (encode rest).length := by
  simp [encode]

theorem length_encode_append (text rest : List Char) :
    (encode (text ++ rest)).length = (encode text).length + (encode rest).length := by
  simp [encode]

theorem length_encodeChar_pos (c : Char) : 0 < (String.utf8EncodeChar c).length := by
  rw [String.length_utf8EncodeChar]
  exact c.utf8Size_pos

theorem length_le_encode (text : List Char) : text.length ≤ (encode text).length := by
  induction text with
  | nil => simp
  | cons c rest ih =>
    have hc := length_encodeChar_pos c
    rw [length_encode_cons, List.length_cons]
    omega

theorem length_encode_le_of_suffix (h : rest <:+ text) :
    (encode rest).length ≤ (encode text).length := by
  obtain ⟨front, rfl⟩ := h
  rw [length_encode_append]
  omega

theorem length_encode_trim_le (text : List Char) :
    (encode (Text.trim text)).length ≤ (encode text).length := by
  obtain ⟨front, back, htext, -, -⟩ := (Text.trimmed_iff.2 (rfl : Text.trim text = _)).around
  have hlength := congrArg (fun t => (encode t).length) htext
  simp only [length_encode_append] at hlength
  omega

end Utf8

namespace Decimal

variable {text : List Char} {n : ℕ} {word : UInt64}

/-- So many digits hold numbers below that power of ten. -/
theorem ofDigitChars_lt (h : ∀ c ∈ text, c.isDigit) :
    Nat.ofDigitChars 10 text 0 < 10 ^ text.length := by
  have hfold : ∀ init, Nat.ofDigitChars 10 text init < (init + 1) * 10 ^ text.length := by
    induction text with
    | nil => simp
    | cons c rest ih =>
      intro init
      obtain ⟨hc, hrest⟩ := List.forall_mem_cons.1 h
      have hdigit := Text.toNat_of_isDigit hc
      have hlt := ih hrest (10 * init + (c.toNat - 48))
      have hinit : 10 * init + (c.toNat - 48) + 1 ≤ (init + 1) * 10 := by omega
      have hpow : (init + 1) * 10 * 10 ^ rest.length = (init + 1) * 10 ^ (c :: rest).length := by
        rw [List.length_cons, Nat.pow_succ', Nat.mul_assoc]
      exact hpow ▸ Nat.lt_of_lt_of_le hlt (Nat.mul_le_mul_right _ hinit)
  simpa using hfold 0

/-- A numeral has digits, and what they can hold is not exceeded. -/
theorem word?_some (h : word? text = some word) :
    0 < text.length ∧ word.toNat < 10 ^ text.length := by
  obtain ⟨n, hn, hword⟩ := Option.map_eq_some_iff.1 h
  obtain ⟨⟨digits, htext, hne, hdigits, hvalue⟩, hle⟩ := natural?_eq_some_iff.1 hn
  have hlength : digits.length ≤ text.length := by
    rcases htext with rfl | rfl <;> simp
  have hpos := List.length_pos_iff.2 hne
  have hlt := ofDigitChars_lt hdigits
  have hpow : 10 ^ digits.length ≤ 10 ^ text.length := Nat.pow_le_pow_right (by omega) hlength
  have hsize : n < 2 ^ 64 := by
    rw [UInt64.size] at hle
    omega
  have hsame : word.toNat = n := by
    rw [← hword, UInt64.toNat_ofNat', Nat.mod_eq_of_lt hsize]
  omega

end Decimal

namespace Component

variable {c : Component} {text rest : List Char} {value : Bytes} {type : UInt64}

theorem length_octets?_le (h : octets? text = some value) :
    value.length ≤ (Utf8.encode text).length := by
  fun_induction octets? text generalizing value with
  | case1 =>
    cases h
    simp
  | case2 hi lo rest ih =>
    simp only [Option.bind_eq_bind, Option.bind_eq_some_iff, Option.map_eq_some_iff] at h
    obtain ⟨_, _, more, hmore, rfl⟩ := h
    have hrest := ih hmore
    have hpercent := Utf8.length_encodeChar_pos '%'
    simp only [Utf8.length_encode_cons, List.length_cons]
    omega
  | case3 => cases h
  | case4 c rest _ _ ih =>
    obtain ⟨more, hmore, rfl⟩ := Option.map_eq_some_iff.1 h
    have hrest := ih hmore
    rw [Utf8.length_encode_cons, List.length_append]
    omega

theorem length_unescape_le (h : unescape text = .ok value) :
    value.length ≤ (Utf8.encode text).length := by
  unfold unescape at h
  split at h
  · cases h
  rename_i octets hoctets
  have hle := length_octets?_le hoctets
  split at h
  · split at h
    · cases h
    · cases h
      rw [List.length_take]
      omega
  · cases h
    exact hle

theorem typed?_eq_none (front : List Char) (hequals : '=' ∉ front)
    (hword : Decimal.word? front = none) : typed? (front ++ '=' :: rest) = none := by
  rw [typed?, splitType?_append hequals]
  simp [hword]

theorem splitType?_some {front : List Char} (h : splitType? text = some (front, rest)) :
    text = front ++ '=' :: rest := by
  have hwhole := text.takeWhile_append_dropWhile (p := (· != '='))
  unfold splitType? at h
  split at h
  · cases h
  · rename_i x behind hdrop
    cases h
    have hx : x = '=' := by
      have hhead := List.head_dropWhile_not (· != '=') (l := text) (by simp [hdrop])
      simpa [hdrop] using hhead
    rw [hdrop, hx] at hwhole
    exact hwhole.symm

theorem typed?_some (h : typed? text = some (type, rest)) :
    ∃ numeral, text = numeral ++ '=' :: rest ∧ numeral ≠ [] := by
  simp only [typed?, Option.bind_eq_bind, Option.bind_eq_some_iff] at h
  obtain ⟨⟨numeral, behind⟩, hsplit, word, hword, h⟩ := h
  cases h
  have hpos := (Decimal.word?_some hword).1
  exact ⟨numeral, splitType?_some hsplit, List.length_pos_iff.1 hpos⟩

theorem behind?_some {mark : List Char} (h : behind? mark text = some rest) :
    text = mark ++ rest := by
  unfold behind? at h
  split at h
  · rename_i hprefix
    cases h
    exact (List.prefix_iff_eq_append.1 (List.isPrefixOf_iff_prefix.1 hprefix)).symm
  · cases h

/-- How a piece of text is read as a component. -/
inductive ReadAs : List Char → Component → Prop
  | digest {digits : List Char} {value : Bytes} (h : Hex.decode? digits = some value)
      (hlength : value.length = 32) : ReadAs (digestMark ++ digits) (implicitDigest value)
  | version {digits : List Char} {n : UInt64} (h : Decimal.word? digits = some n) :
      ReadAs (versionMark ++ digits) (version n)
  | typed {text rest : List Char} {c : Component} (h : typed? text = some (c.type, rest))
      (hne : c.type ≠ 0) (hle : c.type ≤ 0xffff) (hvalue : unescape rest = .ok c.value) :
        ReadAs text c
  | generic {text : List Char} {value : Bytes} (h : typed? text = none)
      (hvalue : unescape text = .ok value) : ReadAs text (generic value)

theorem readAs_of_ofChars (h : ofChars text = .ok c) : ReadAs text c := by
  unfold ofChars at h
  dsimp only at h
  split at h
  · rename_i hdigest
    split at h
    · rename_i value hvalue
      split at h
      · rename_i hlength
        cases h
        rw [behind?_some hdigest]
        exact .digest hvalue hlength
      · cases h
    · cases h
  · rename_i hversion _
    split at h
    · rename_i n hn
      cases h
      rw [behind?_some hversion]
      exact .version hn
    · cases h
  · rename_i htyped _ _
    split at h
    · cases h
    · rename_i hbounds
      rw [not_or, gt_iff_lt, UInt64.not_lt] at hbounds
      obtain ⟨value, hvalue, h⟩ := ok_of_bind h
      cases h
      exact .typed htyped hbounds.1 hbounds.2 hvalue
  · rename_i htyped _ _
    obtain ⟨value, hvalue, h⟩ := ok_of_bind h
    cases h
    exact .generic htyped hvalue

/-- The piece gives the type of digests by its number, and its value is no digest. -/
def Misnumbered (text : List Char) : Prop :=
  ∃ rest value, typed? text = some (Types.implicitDigest, rest) ∧ unescape rest = .ok value ∧
    value.length ≠ 32

theorem ReadAs.type_bounds (h : ReadAs text c) : c.type ≠ 0 ∧ c.type ≤ 0xffff := by
  cases h with
  | digest =>
    show Types.implicitDigest ≠ 0 ∧ Types.implicitDigest ≤ 0xffff
    decide
  | version =>
    show Types.version ≠ 0 ∧ Types.version ≤ 0xffff
    decide
  | typed _ hne hle _ => exact ⟨hne, hle⟩
  | generic =>
    show Types.generic ≠ 0 ∧ Types.generic ≤ 0xffff
    decide

/-- What is read may stand on the wire, unless it was given the type of digests by number. -/
theorem ReadAs.wellFormed_iff (h : ReadAs text c) : c.WellFormed ↔ ¬ Misnumbered text := by
  obtain ⟨hne, hle⟩ := h.type_bounds
  have hwf : c.WellFormed ↔ (c.type = Types.implicitDigest → c.value.length = 32) :=
    ⟨fun hc => hc.digest, fun hc => ⟨hne, hle, hc⟩⟩
  have huntyped : typed? text = none → ¬ Misnumbered text := by
    rintro hnone ⟨rest, value, htyped, -⟩
    cases hnone.symm.trans htyped
  rw [hwf]
  cases h with
  | digest _ hlength =>
    have hnone := huntyped (typed?_eq_none "sha256digest".toList (by decide) (by decide))
    exact ⟨fun _ => hnone, fun _ _ => hlength⟩
  | version =>
    have hnone := huntyped (typed?_eq_none "v".toList (by decide) (by decide))
    have hother : Types.version ≠ Types.implicitDigest := by decide
    exact ⟨fun _ => hnone, fun _ htype => absurd htype hother⟩
  | generic hnone =>
    have hother : Types.generic ≠ Types.implicitDigest := by decide
    exact ⟨fun _ => huntyped hnone, fun _ htype => absurd htype hother⟩
  | typed htyped _ _ hvalue =>
    constructor
    · rintro hlength ⟨rest, value, htyped', hvalue', hne⟩
      have hsame := htyped.symm.trans htyped'
      rw [Option.some.injEq, Prod.mk.injEq] at hsame
      obtain ⟨htype, rfl⟩ := hsame
      cases hvalue.symm.trans hvalue'
      exact hne (hlength htype)
    · intro hmis htype
      by_contra hne
      exact hmis ⟨_, _, htype ▸ htyped, hvalue, hne⟩

theorem length_encode_eq (htype : c.type ≤ 0xffff) (hvalue : c.value.length < 2 ^ 64) :
    c.encode.length = (if c.type.toNat < 253 then 1 else 3) +
      (if c.value.length < 253 then 1 else if c.value.length ≤ 65535 then 3
        else if c.value.length ≤ 4294967295 then 5 else 9) + c.value.length := by
  have hle : c.type.toNat ≤ 65535 := htype
  have hlength : (UInt64.ofNat c.value.length).toNat = c.value.length := by
    rw [UInt64.toNat_ofNat', Nat.mod_eq_of_lt hvalue]
  simp only [encode, Tlv.encode, List.length_append, length_encodeVar, hlength, if_pos hle]

/-- On the wire a component takes at most twice the octets of its text, and one more. -/
theorem ReadAs.length_encode_le (h : ReadAs text c) (hne : text ≠ [])
    (hsize : (Utf8.encode text).length < 2 ^ 63) :
    c.encode.length ≤ 2 * (Utf8.encode text).length + 1 := by
  obtain ⟨-, htype⟩ := h.type_bounds
  have htext := Utf8.length_le_encode text
  have hpos := List.length_pos_iff.2 hne
  cases h with
  | @digest digits value hdigits hlength =>
    have hmark : digestMark.length = 13 := by decide
    have hcount := Hex.length_of_decode? hdigits
    have hvalue : (implicitDigest value).value.length = 32 := hlength
    rw [length_encode_eq htype (by omega), hvalue]
    rw [List.length_append] at htext
    split_ifs <;> omega
  | @version digits n hn =>
    have hmark : versionMark.length = 2 := by decide
    obtain ⟨hdigits, hlt⟩ := Decimal.word?_some hn
    have hvalue : (Component.version n).value.length = _ := length_encodeNumber n
    have hsmall : (Component.version n).type.toNat < 253 := by
      show Types.version.toNat < 253
      decide
    -- A number of two digits fits in one octet, and three digits make up for eight.
    have hshort : digits.length ≤ 2 → n.toNat < 256 := by
      intro hle
      have hpow : 10 ^ digits.length ≤ 10 ^ 2 := Nat.pow_le_pow_right (by omega) hle
      omega
    rw [List.length_append] at htext
    rw [length_encode_eq htype (by rw [hvalue]; split_ifs <;> omega), hvalue]
    split_ifs <;> omega
  | typed htyped _ _ hvalue =>
    obtain ⟨numeral, rfl, hnumeral⟩ := typed?_some htyped
    have hle := length_unescape_le hvalue
    have hfront := Utf8.length_le_encode numeral
    have hfrontPos := List.length_pos_iff.2 hnumeral
    have hequals := Utf8.length_encodeChar_pos '='
    rw [Utf8.length_encode_append, Utf8.length_encode_cons] at *
    rw [length_encode_eq htype (by omega)]
    split_ifs <;> omega
  | @generic _ value _ hvalue =>
    have hle : (Component.generic value).value.length ≤ _ := length_unescape_le hvalue
    have hsmall : (Component.generic value).type.toNat < 253 := by
      show Types.generic.toNat < 253
      decide
    rw [length_encode_eq htype (by omega), if_pos hsmall]
    split_ifs <;> omega

end Component

namespace Name

variable {n : Name} {text path : List Char} {components : List Component} {elements : List Element}

def pieces (text : List Char) : List (List Char) :=
  (Text.segments ((Component.behind? schemeMark (Text.trim text)).getD (Text.trim text))).filter
    (!·.isEmpty)

/-- Each component is read from a piece of its own. -/
theorem readAs_of_mapM {pieces : List (List Char)}
    (h : pieces.mapM Component.ofChars = .ok components) :
    List.Forall₂ Component.ReadAs pieces components := by
  induction pieces generalizing components with
  | nil =>
    cases h
    exact .nil
  | cons piece rest ih =>
    rw [List.mapM_cons] at h
    obtain ⟨c, hc, h⟩ := ok_of_bind h
    obtain ⟨more, hmore, h⟩ := ok_of_bind h
    cases h
    exact .cons (Component.readAs_of_ofChars hc) (ih hmore)

theorem readAs_of_ofChars (h : ofChars text = .ok n) :
    List.Forall₂ Component.ReadAs (pieces text) n.components := by
  obtain ⟨components, hread, h⟩ := ok_of_bind h
  cases h
  exact readAs_of_mapM hread

/-- A slash makes up for the octet more that a piece may take on the wire. -/
theorem sum_segments_le (path : List Char) :
    ((Text.segments path).map fun p => 2 * (Utf8.encode p).length + 1).sum ≤
      2 * (Utf8.encode path).length + 1 := by
  fun_induction Text.segments path with
  | case1 => simp
  | case2 rest ih =>
    have hslash := Utf8.length_encodeChar_pos '/'
    have hnil : (Utf8.encode []).length = 0 := rfl
    rw [List.map_cons, List.sum_cons, Utf8.length_encode_cons, hnil]
    omega
  | case3 c rest _ hsegments ih =>
    rw [Utf8.length_encode_cons]
    simp [Utf8.encode]
  | case4 c rest _ segment others hsegments ih =>
    rw [hsegments, List.map_cons, List.sum_cons] at ih
    rw [List.map_cons, List.sum_cons, Utf8.length_encode_cons, Utf8.length_encode_cons]
    omega

/-- The pieces have no more octets than the text, with one more for each that a slash or an end
made. -/
theorem sum_pieces_le (text : List Char) :
    ((pieces text).map fun p => 2 * (Utf8.encode p).length + 1).sum ≤
      2 * (Utf8.encode text).length + 1 := by
  have hpath : ∀ trimmed : List Char,
      (Utf8.encode ((Component.behind? schemeMark trimmed).getD trimmed)).length ≤
        (Utf8.encode trimmed).length := by
    intro trimmed
    apply Utf8.length_encode_le_of_suffix
    unfold Component.behind?
    split
    · exact List.drop_suffix _ _
    · exact List.suffix_refl _
  have htrim := (hpath (Text.trim text)).trans (Utf8.length_encode_trim_le text)
  have hsegments :=
    sum_segments_le ((Component.behind? schemeMark (Text.trim text)).getD (Text.trim text))
  have hkept := (List.filter_sublist (l := Text.segments
    ((Component.behind? schemeMark (Text.trim text)).getD (Text.trim text)))
      (p := (!·.isEmpty))).map fun p => 2 * (Utf8.encode p).length + 1
  have hsum := hkept.sum_le_sum fun _ _ => Nat.zero_le _
  unfold pieces
  omega

theorem length_encodeComponents_le {pieces : List (List Char)}
    (h : List.Forall₂ Component.ReadAs pieces components) (hne : ∀ p ∈ pieces, p ≠ [])
    (hsize : ∀ p ∈ pieces, (Utf8.encode p).length < 2 ^ 63) :
    (components.flatMap Component.encode).length ≤
      (pieces.map fun p => 2 * (Utf8.encode p).length + 1).sum := by
  induction h with
  | nil => simp
  | @cons piece c rest more hread _ ih =>
    obtain ⟨hneFirst, hneRest⟩ := List.forall_mem_cons.1 hne
    obtain ⟨hsizeFirst, hsizeRest⟩ := List.forall_mem_cons.1 hsize
    have hfirst := hread.length_encode_le hneFirst hsizeFirst
    have hrest := ih hneRest hsizeRest
    rw [List.flatMap_cons, List.length_append, List.map_cons, List.sum_cons]
    omega

/-- A text that is no longer than memory allows gives a name that can be written. -/
theorem length_encodeComponents_of_ofChars (h : ofChars text = .ok n)
    (hsize : (Utf8.encode text).length < 2 ^ 63) : n.encodeComponents.length < 2 ^ 64 := by
  have hread := readAs_of_ofChars h
  have hsum := sum_pieces_le text
  have hne : ∀ p ∈ pieces text, p ≠ [] := by
    intro p hp
    have hkept := (List.mem_filter.1 hp).2
    simpa using hkept
  have hpiece : ∀ p ∈ pieces text, (Utf8.encode p).length < 2 ^ 63 := by
    intro p hp
    have hle :=
      List.le_sum_of_mem (List.mem_map_of_mem (f := fun p => 2 * (Utf8.encode p).length + 1) hp)
    omega
  have hlength := length_encodeComponents_le hread hne hpiece
  unfold encodeComponents
  omega

theorem decode_encode_eq (h : n.encodeComponents.length < 2 ^ 64) :
    decode n.encode = decodeValue n.encodeComponents := by
  have hsingle := single_of_spells (Spells.encode Types.name h)
  unfold decode encode
  rw [hsingle]
  rfl

/-- If the types may stand on the wire, a name is read or else a digest has not its length. -/
theorem ofElements_of_types (h : ∀ e ∈ elements, e.type ≠ 0 ∧ e.type ≤ 0xffff) :
    (∃ components, ofElements (elements.foldr .next .done) = .ok components) ∨
      ofElements (elements.foldr .next .done) = .error (.malformed .digestLength) := by
  induction elements with
  | nil => exact .inl ⟨[], rfl⟩
  | cons e rest ih =>
    obtain ⟨⟨hne, hle⟩, hrest⟩ := List.forall_mem_cons.1 h
    have htype : ¬ (e.type = 0 ∨ e.type > 0xffff) := by
      rw [not_or, gt_iff_lt, UInt64.not_lt]
      exact ⟨hne, hle⟩
    rw [List.foldr_cons, ofElements]
    by_cases hdigest : e.type = Types.implicitDigest ∧ e.value.length ≠ 32
    · have hcheck : Component.check ⟨e.type, e.value⟩ = .error (.malformed .digestLength) := by
        rw [Component.check, if_neg htype, if_pos hdigest]
      right
      rw [hcheck]
      rfl
    · have hcheck : Component.check ⟨e.type, e.value⟩ = .ok () := by
        rw [Component.check, if_neg htype, if_neg hdigest]
      rw [hcheck]
      rcases ih hrest with ⟨components, hok⟩ | herror
      · left
        rw [hok]
        exact ⟨_, rfl⟩
      · right
        rw [herror]
        rfl

/-- A name with types of 16 bits is carried by the wire, or a digest in it has not its length. -/
theorem decode_encode_of_types (htypes : ∀ c ∈ n.components, c.type ≠ 0 ∧ c.type ≤ 0xffff)
    (h : n.encodeComponents.length < 2 ^ 64) :
    (n.WellFormed → decode n.encode = .ok n) ∧
      (¬ n.WellFormed → decode n.encode = .error (.malformed .digestLength)) := by
  have hiff := fun m => decodeValue_encodeComponents_eq_ok_iff (m := m) h
  rw [decode_encode_eq h]
  refine ⟨fun hn => (hiff n).2 ⟨rfl, hn⟩, fun hn => ?_⟩
  obtain ⟨elements, hall, hcomponents⟩ := exists_spellsAll n.components 0 h
  have hread : Elements.ofBytes n.encodeComponents = elements.foldr .next .done := hall.read
  have hshort : ∀ e ∈ elements, e.type ≠ 0 ∧ e.type ≤ 0xffff := by
    intro e he
    apply htypes e.component
    rw [hcomponents]
    exact List.mem_map_of_mem he
  have hvalue : decodeValue n.encodeComponents =
      (do pure ⟨← ofElements (elements.foldr .next .done)⟩) := by
    rw [decodeValue, hread]
  rcases ofElements_of_types hshort with ⟨components, hok⟩ | herror
  · have hdecode : decodeValue n.encodeComponents = .ok ⟨components⟩ := by
      rw [hvalue, hok]
      rfl
    exact absurd ((hiff _).1 hdecode).2 hn
  · rw [hvalue, herror]
    rfl

theorem type_bounds_of_readAs {pieces : List (List Char)}
    (h : List.Forall₂ Component.ReadAs pieces components) :
    ∀ c ∈ components, c.type ≠ 0 ∧ c.type ≤ 0xffff := by
  induction h with
  | nil => simp
  | cons hread _ ih => exact List.forall_mem_cons.2 ⟨hread.type_bounds, ih⟩

theorem wellFormed_iff_of_readAs {pieces : List (List Char)}
    (h : List.Forall₂ Component.ReadAs pieces components) :
    (∀ c ∈ components, c.WellFormed) ↔ ∀ piece ∈ pieces, ¬ Component.Misnumbered piece := by
  induction h with
  | nil => simp
  | cons hread _ ih => rw [List.forall_mem_cons, List.forall_mem_cons, hread.wellFormed_iff, ih]

/-- The wire carries a name read from a text just if no piece of the text gives the type of digests
by its number to a value that is no digest; else the name is refused. A text of 2 ^ 63 octets fits
in no memory. -/
theorem carried_as_read {text : String} (h : ofUri text = .ok n)
    (hsize : (Utf8.encode text.toList).length < 2 ^ 63) :
    (decode n.encode = .ok n ↔ ∀ piece ∈ pieces text.toList, ¬ Component.Misnumbered piece) ∧
      ∀ piece ∈ pieces text.toList, Component.Misnumbered piece →
        decode n.encode = .error (.malformed .digestLength) := by
  have hread := readAs_of_ofChars h
  have hwf : n.WellFormed ↔ ∀ piece ∈ pieces text.toList, ¬ Component.Misnumbered piece :=
    wellFormed_iff_of_readAs hread
  have hlength := length_encodeComponents_of_ofChars h hsize
  obtain ⟨hcarried, hrefused⟩ := decode_encode_of_types (type_bounds_of_readAs hread) hlength
  rw [← hwf]
  refine ⟨⟨fun hdecode => ?_, hcarried⟩, fun piece hpiece hmis => ?_⟩
  · by_contra hn
    cases hdecode.symm.trans (hrefused hn)
  · have hn : ¬ n.WellFormed := fun hn => hwf.1 hn piece hpiece hmis
    exact hrefused hn

/-- Three octets are no digest, though their type says so. -/
theorem carried_as_read_misnumbered :
    ofUri "ndn:/a/1=abc" = .ok ⟨[.generic [0x61], ⟨Types.implicitDigest, [0x61, 0x62, 0x63]⟩]⟩ ∧
      decode (encode ⟨[.generic [0x61], ⟨Types.implicitDigest, [0x61, 0x62, 0x63]⟩]⟩) =
        .error (.malformed .digestLength) := by
  have hread : ofUri "ndn:/a/1=abc" =
      .ok ⟨[.generic [0x61], ⟨Types.implicitDigest, [0x61, 0x62, 0x63]⟩]⟩ := by
    decide +kernel
  have hpiece : "1=abc".toList ∈ pieces "ndn:/a/1=abc".toList := by decide +kernel
  have hmis : Component.Misnumbered "1=abc".toList :=
    ⟨"abc".toList, [0x61, 0x62, 0x63], by decide +kernel, by decide +kernel, by decide⟩
  exact ⟨hread, (carried_as_read hread (by decide +kernel)).2 _ hpiece hmis⟩

end Name

end PacketTrust
