import Mathlib.Data.Bool.AllAny
import Mathlib.Data.List.TakeWhile
import PacketTrust.Proofs.Name.Escape
import PacketTrust.Proofs.Name.Wire
import PacketTrust.Proofs.Text.Blank
import PacketTrust.Proofs.Text.Numeral
import PacketTrust.Proofs.Tlv.Numbers

/-! Names as text. What a component is written as tells which of the four ways of writing was taken,
and neither a slash nor a blank is in it, so a name falls apart where it was put together. -/

namespace PacketTrust

open Tlv

namespace Text

variable {text piece rest : List Char} {pieces others : List (List Char)}

theorem segments_append (hpiece : '/' ∉ piece) (h : segments rest = [] :: others) :
    segments (piece ++ rest) = piece :: others := by
  induction piece with
  | nil => exact h
  | cons c piece ih =>
    obtain ⟨hc, hpiece⟩ := not_or.1 (List.mem_cons.not.1 hpiece)
    rw [List.cons_append, segments.eq_3 _ _ fun h => hc h.symm, ih hpiece]

/-- A text falls apart into the pieces that slashes were put before. -/
theorem segments_flatMap (h : ∀ p ∈ pieces, '/' ∉ p) :
    segments (pieces.flatMap ('/' :: ·)) = [] :: pieces := by
  induction pieces with
  | nil => rfl
  | cons p rest ih =>
    obtain ⟨hp, hrest⟩ := List.forall_mem_cons.1 h
    rw [List.flatMap_cons, List.cons_append, segments, segments_append hp (ih hrest)]

end Text

namespace Decimal

theorem padded_zero (n : ℕ) : padded 0 n = Nat.toDigits 10 n := by simp [padded]

theorem exists_toDigits (n : ℕ) : ∃ c rest, Nat.toDigits 10 n = c :: rest ∧ c.isDigit := by
  rw [← padded_zero]
  exact exists_padded 0 n

/-- A number is read back as it was written. -/
theorem word?_toDigits (n : UInt64) : word? (Nat.toDigits 10 n.toNat) = some n := by
  have hn := n.toNat_lt
  have hle : n.toNat ≤ UInt64.size - 1 := by
    rw [UInt64.size]
    omega
  have hnumeral : Numeral (Nat.toDigits 10 n.toNat) n.toNat := by
    refine ⟨_, .inl rfl, Nat.toDigits_ne_nil, fun c hc => ?_, ?_⟩
    · exact Nat.isDigit_of_mem_toDigits (by omega) (by omega) hc
    · rw [Nat.ofDigitChars_toDigits (by omega) (by omega)]
  rw [word?, natural?_eq_some_iff.2 ⟨hnumeral, hle⟩, Option.map_some, UInt64.ofNat_toNat]

end Decimal

namespace Component

variable {c : Component} {mark text type rest : List Char} {x y : Char}

theorem inner_of_isDigit (h : x.isDigit) : Inner x := by
  refine ⟨?_, Text.isBlank_of_isDigit h⟩
  rintro rfl
  cases h

theorem behind?_append (mark rest : List Char) : behind? mark (mark ++ rest) = some rest := by
  simp [behind?]

theorem behind?_cons (h : x ≠ y) : behind? (x :: mark) (y :: text) = none := by
  simp [behind?, List.isPrefixOf, h]

theorem behind?_eq_none (hmark : x ∈ mark) (htext : x ∉ text) : behind? mark text = none := by
  rw [behind?, if_neg]
  intro h
  exact htext ((List.isPrefixOf_iff_prefix.1 h).subset hmark)

theorem bne_of_not_mem (h : y ∉ text) : ∀ x ∈ text, (x != y) = true := by
  intro x hx
  rw [bne_iff_ne]
  rintro rfl
  exact h hx

theorem splitType?_append (h : '=' ∉ type) :
    splitType? (type ++ '=' :: rest) = some (type, rest) := by
  have hall := bne_of_not_mem h
  rw [splitType?, List.dropWhile_append_of_pos hall, List.takeWhile_append_of_pos hall]
  simp

theorem splitType?_eq_none (h : '=' ∉ text) : splitType? text = none := by
  have hall : text.dropWhile (· != '=') = [] := List.dropWhile_eq_nil_iff.2 (bne_of_not_mem h)
  rw [splitType?, hall]

/-- What is written without a type in front is read as generic: no value can imitate one of the
three marks, all of which have an equals sign. -/
theorem ofChars_escape (value : Bytes) : ofChars (escape value) = .ok (generic value) := by
  have hequals : '=' ∉ escape value := fun h => (mem_escape h).1 rfl
  have hdigest : behind? digestMark (escape value) = none := behind?_eq_none (by decide) hequals
  have hversion : behind? versionMark (escape value) = none := behind?_eq_none (by decide) hequals
  have htype : typed? (escape value) = none := by
    rw [typed?, splitType?_eq_none hequals]
    rfl
  rw [ofChars, hdigest, hversion, htype, unescape_escape]
  rfl

/-- What is written with a type in front begins with a digit, so it has no other mark. -/
theorem ofChars_typedChars (hne : c.type ≠ 0) (hle : c.type ≤ 0xffff) :
    ofChars c.typedChars = .ok c := by
  obtain ⟨x, rest, hdigits, hx⟩ := Decimal.exists_toDigits c.type.toNat
  have hnone : ∀ m (mark : List Char), m.isDigit = false →
      behind? (m :: mark) c.typedChars = none := by
    intro m mark hm
    rw [typedChars, hdigits]
    refine behind?_cons ?_
    rintro rfl
    cases hx.symm.trans hm
  have hdigest : behind? digestMark c.typedChars = none := hnone _ _ (by decide)
  have hversion : behind? versionMark c.typedChars = none := hnone _ _ (by decide)
  have hequals : '=' ∉ Nat.toDigits 10 c.type.toNat := by
    intro hmem
    cases Nat.isDigit_of_mem_toDigits (by omega) (by omega) hmem
  have htype : typed? c.typedChars = some (c.type, escape c.value) := by
    rw [typed?, typedChars, splitType?_append hequals]
    simp only [Option.bind_eq_bind, Option.bind_some, Decimal.word?_toDigits]
    rfl
  have hbounds : ¬ (c.type = 0 ∨ c.type > 0xffff) := by
    rw [not_or, gt_iff_lt, UInt64.not_lt]
    exact ⟨hne, hle⟩
  rw [ofChars, hdigest, hversion, htype]
  simp only [if_neg hbounds, unescape_escape]
  rfl

theorem ofChars_digest {digest : Bytes} (h : digest.length = 32) :
    ofChars (digestMark ++ Hex.encode digest) = .ok (implicitDigest digest) := by
  rw [ofChars, behind?_append]
  simp only [Hex.decode?_encode, if_pos h]

theorem ofChars_version (n : UInt64) :
    ofChars (versionMark ++ Nat.toDigits 10 n.toNat) = .ok (version n) := by
  have hdigest : behind? digestMark (versionMark ++ Nat.toDigits 10 n.toNat) = none :=
    behind?_cons (by decide)
  rw [ofChars, hdigest, behind?_append]
  simp only [Decimal.word?_toDigits]

/-- A version that holds a number becomes the version that is written for it; nothing else
changes. -/
def shortest (c : Component) : Component :=
  match c.number with
  | .ok n => if c.type = Types.version then version n else c
  | .error _ => c

theorem ofChars_toChars (h : c.WellFormed) : ofChars c.toChars = .ok c.shortest := by
  have htyped := ofChars_typedChars h.type_ne h.type_le
  have hother : c.type ≠ Types.version → c.shortest = c := by
    intro hversion
    unfold shortest
    simp only [if_neg hversion]
    cases c.number <;> rfl
  unfold toChars
  split
  · rename_i hgeneric
    have hself : generic c.value = c := by
      rw [generic, ← hgeneric]
    rw [ofChars_escape, hself, hother (by rw [hgeneric]; decide)]
  split
  · rename_i hdigest
    have hself : implicitDigest c.value = c := by
      rw [implicitDigest, ← hdigest]
    rw [ofChars_digest (h.digest hdigest), hself, hother (by rw [hdigest]; decide)]
  split
  · rename_i hversion
    cases hn : c.number with
    | ok n =>
      have hshortest : c.shortest = version n := by
        rw [shortest, hn]
        exact if_pos hversion
      rw [hshortest]
      exact ofChars_version n
    | error e =>
      have hshortest : c.shortest = c := by rw [shortest, hn]
      rw [hshortest]
      exact htyped
  · rename_i hversion
    rw [htyped, hother hversion]

/-- No component is written with a slash or a blank. -/
theorem inner_toChars (c : Component) : ∀ x ∈ c.toChars, Inner x := by
  have hescape : ∀ x ∈ escape c.value, Inner x := fun x hx => (mem_escape hx).2
  have hdigits : ∀ n, ∀ x ∈ Nat.toDigits 10 n, Inner x := fun n x hx =>
    inner_of_isDigit (Nat.isDigit_of_mem_toDigits (by omega) (by omega) hx)
  have htyped : ∀ x ∈ c.typedChars, Inner x :=
    List.forall_mem_append.2 ⟨hdigits _, List.forall_mem_cons.2 ⟨by decide, hescape⟩⟩
  unfold toChars
  split
  · exact hescape
  split
  · have hmark : ∀ x ∈ digestMark, Inner x := List.all_iff_forall_prop.1 (by decide)
    have hhex : ∀ x ∈ Hex.encode c.value, Inner x := Hex.forall_mem_encode (by decide) c.value
    exact List.forall_mem_append.2 ⟨hmark, hhex⟩
  split
  · have hmark : ∀ x ∈ versionMark, Inner x := List.all_iff_forall_prop.1 (by decide)
    cases c.number with
    | ok n => exact List.forall_mem_append.2 ⟨hmark, hdigits _⟩
    | error e => exact htyped
  · exact htyped

theorem toChars_ne_nil (c : Component) : c.toChars ≠ [] := by
  have htyped : c.typedChars ≠ [] := by simp [typedChars]
  unfold toChars
  split
  · exact escape_ne_nil c.value
  split
  · exact List.append_ne_nil_of_left_ne_nil (by decide) _
  split
  · cases c.number with
    | ok n => exact List.append_ne_nil_of_left_ne_nil (by decide) _
    | error e => exact htyped
  · exact htyped

/-- A version that holds its number in more octets than needed. -/
def Padded (c : Component) : Prop :=
  c.type = Types.version ∧ c.value.length ∈ [1, 2, 4, 8] ∧
    ∃ fewer : Bytes, fewer.length < c.value.length ∧ decodeNumber fewer = decodeNumber c.value

theorem padded_version_iff {n : UInt64} (htype : c.type = Types.version) (hn : c.number = .ok n) :
    c.Padded ↔ c.value ≠ encodeNumber n := by
  have hlength : c.value.length ∈ [1, 2, 4, 8] := (decodeNumber_eq_ok_iff.1 hn).1
  constructor
  · rintro ⟨-, -, fewer, hfewer, hsame⟩ heq
    have hle := length_encodeNumber_le_of_decodeNumber (hsame.trans hn)
    rw [← heq] at hle
    omega
  · intro hne
    have hlt : (encodeNumber n).length < c.value.length := by
      by_contra hle
      exact hne (eq_encodeNumber hn (Nat.le_of_not_lt hle))
    exact ⟨htype, hlength, encodeNumber n, hlt, (decodeNumber_encodeNumber n).trans hn.symm⟩

theorem shortest_eq_self_iff : c.shortest = c ↔ ¬ c.Padded := by
  unfold shortest
  split
  · rename_i n hn
    by_cases htype : c.type = Types.version
    · have hself : version n = c ↔ c.value = encodeNumber n := by
        rw [version, ← htype]
        constructor
        · intro heq
          rw [← heq]
        · intro heq
          rw [← heq]
      rw [if_pos htype, hself, padded_version_iff htype hn, not_not]
    · have hnot : ¬ c.Padded := fun h => htype h.1
      simp [if_neg htype, hnot]
  · rename_i e hn
    have hnot : ¬ c.Padded := by
      rintro ⟨-, hlength, -⟩
      obtain ⟨n, hok⟩ := exists_decodeNumber hlength
      cases hok.symm.trans hn
    simp [hnot]

/-- A padded version becomes the one with the same number that is not. -/
theorem shortest_of_padded (h : c.Padded) :
    c.shortest.type = Types.version ∧ c.shortest.number = c.number ∧ ¬ c.shortest.Padded := by
  obtain ⟨htype, hlength, -⟩ := h
  obtain ⟨n, hn⟩ : ∃ n, c.number = .ok n := exists_decodeNumber hlength
  have hshortest : c.shortest = version n := by
    rw [shortest, hn]
    exact if_pos htype
  have hsame : (version n).number = .ok n := decodeNumber_encodeNumber n
  rw [hshortest, hn, padded_version_iff rfl hsame]
  exact ⟨rfl, hsame, fun hne => hne rfl⟩

end Component

namespace Name

variable {n : Name} {value : Bytes} {components : List Component}

theorem toChars_eq (h : n.components ≠ []) :
    n.toChars = (n.components.map Component.toChars).flatMap ('/' :: ·) := by
  rw [toChars, if_neg (by simpa using h), List.flatMap_map]

theorem exists_toChars (n : Name) : ∃ rest, n.toChars = '/' :: rest := by
  unfold toChars
  cases n.components with
  | nil => exact ⟨[], rfl⟩
  | cons c rest => exact ⟨_, rfl⟩

theorem isBlank_of_mem_toChars : ∀ x ∈ n.toChars, Text.isBlank x = false := by
  intro x hx
  unfold toChars at hx
  split at hx
  · rw [List.mem_singleton.1 hx]
    rfl
  · obtain ⟨c, -, hc⟩ := List.mem_flatMap.1 hx
    rcases List.mem_cons.1 hc with rfl | hc
    · rfl
    · exact (c.inner_toChars x hc).2

theorem segments_toChars (n : Name) :
    (Text.segments n.toChars).filter (!·.isEmpty) = n.components.map Component.toChars := by
  by_cases hempty : n.components = []
  · rw [toChars, hempty]
    rfl
  · have hslash : ∀ p ∈ n.components.map Component.toChars, '/' ∉ p := by
      intro p hp hmem
      obtain ⟨c, -, rfl⟩ := List.mem_map.1 hp
      exact (c.inner_toChars _ hmem).1 rfl
    have hkept : ∀ p ∈ n.components.map Component.toChars, (!p.isEmpty) = true := by
      intro p hp
      obtain ⟨c, -, rfl⟩ := List.mem_map.1 hp
      simp [c.toChars_ne_nil]
    rw [toChars_eq hempty, Text.segments_flatMap hslash, List.filter_cons_of_neg (by simp),
      List.filter_eq_self.2 hkept]

theorem mapM_ofChars (h : ∀ c ∈ components, c.WellFormed) :
    (components.map Component.toChars).mapM Component.ofChars =
      .ok (components.map Component.shortest) := by
  induction components with
  | nil => rfl
  | cons c rest ih =>
    obtain ⟨hc, hrest⟩ := List.forall_mem_cons.1 h
    rw [List.map_cons, List.mapM_cons, Component.ofChars_toChars hc, ih hrest]
    rfl

theorem ofUri_uri (h : n.WellFormed) : ofUri n.uri = .ok ⟨n.components.map Component.shortest⟩ := by
  have hscheme : Component.behind? schemeMark n.toChars = none := by
    obtain ⟨rest, hrest⟩ := n.exists_toChars
    rw [hrest]
    exact Component.behind?_cons (by decide)
  rw [ofUri, uri, String.toList_ofList, ofChars]
  simp only [Text.trim_eq_self isBlank_of_mem_toChars, hscheme, Option.getD_none, segments_toChars,
    mapM_ofChars h]
  rfl

/-- Neither of these values may be taken for a step in a path. -/
example :
    (⟨[.generic [], .generic [Component.period]]⟩ : Name).uri = "/.../...." := by decide +kernel

/-- Every name that a wire holds is read back from its text. Just the padded versions are replaced,
each by the one version with its number that is not padded. -/
theorem read_as_written (h : decodeValue value = .ok n) :
    ofUri n.uri = .ok ⟨n.components.map Component.shortest⟩ ∧
      (ofUri n.uri = .ok n ↔ ∀ c ∈ n.components, ¬ c.Padded) ∧
      ∀ c : Component, (¬ c.Padded → c.shortest = c) ∧
        (c.Padded → c.shortest.type = Types.version ∧ c.shortest.number = c.number ∧
          ¬ c.shortest.Padded) := by
  have hread := ofUri_uri (decodeValue_ok h).1
  refine ⟨hread, ?_, fun c => ⟨Component.shortest_eq_self_iff.2, Component.shortest_of_padded⟩⟩
  have hsame : (⟨n.components.map Component.shortest⟩ : Name) = n ↔
      ∀ c ∈ n.components, c.shortest = c := by
    constructor
    · intro heq
      have hmap := congrArg Name.components heq
      exact List.map_inj_left.1 (hmap.trans n.components.map_id.symm)
    · intro hall
      have hmap := (List.map_congr_left hall).trans n.components.map_id
      exact congrArg Name.mk hmap
  rw [hread, Except.ok.injEq, hsame]
  exact forall₂_congr fun c _ => Component.shortest_eq_self_iff

/-- The number 7 in two octets comes back in one; the equals sign before it does not make a type. -/
theorem read_as_written_padded :
    decodeValue [8, 2, 0x61, 0x3d, 0x36, 2, 0, 7] =
        .ok ⟨[.generic [0x61, 0x3d], ⟨Types.version, [0, 7]⟩]⟩ ∧
      ofUri (uri ⟨[.generic [0x61, 0x3d], ⟨Types.version, [0, 7]⟩]⟩) =
        .ok ⟨[.generic [0x61, 0x3d], .version 7]⟩ := by
  have hdecode : decodeValue [8, 2, 0x61, 0x3d, 0x36, 2, 0, 7] =
      .ok ⟨[.generic [0x61, 0x3d], ⟨Types.version, [0, 7]⟩]⟩ := by
    decide +kernel
  exact ⟨hdecode, (read_as_written hdecode).1⟩

end Name

end PacketTrust
