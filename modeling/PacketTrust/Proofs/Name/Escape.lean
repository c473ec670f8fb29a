import Mathlib.Data.Nat.Notation
import PacketTrust.Name.Uri

/-! Octets as text, by their hexadecimal digits or by percent escapes. Main statements: both are
read back as they were written, and what escapes consist of neither separates components nor stands
around a name. -/

namespace PacketTrust

namespace Hex

theorem value?_digit : ∀ n < 16, value? (digit n) = some n := by decide

theorem value?_upperDigit : ∀ n < 16, value? (upperDigit n) = some n := by decide

theorem ofNat_digits (b : UInt8) : UInt8.ofNat (16 * (b.toNat / 16) + b.toNat % 16) = b := by
  rw [Nat.div_add_mod, UInt8.ofNat_toNat]

theorem decode?_encode (bytes : Bytes) : decode? (encode bytes) = some bytes := by
  induction bytes with
  | nil => rfl
  | cons b rest ih =>
    have hb := b.toNat_lt
    have hhigh := value?_digit (b.toNat / 16) (by omega)
    have hlow := value?_digit (b.toNat % 16) (by omega)
    simp only [encode, decode?, hhigh, hlow, ih, Option.bind_eq_bind, Option.bind_some,
      ofNat_digits]
    rfl

theorem forall_mem_encode {p : Char → Prop} (h : ∀ n < 16, p (digit n)) (bytes : Bytes) :
    ∀ c ∈ encode bytes, p c := by
  induction bytes with
  | nil => simp [encode]
  | cons b rest ih =>
    have hb := b.toNat_lt
    have hhigh := h (b.toNat / 16) (by omega)
    have hlow := h (b.toNat % 16) (by omega)
    exact List.forall_mem_cons.2 ⟨hhigh, List.forall_mem_cons.2 ⟨hlow, ih⟩⟩

end Hex

namespace Component

variable {b : UInt8} {value : Bytes}

/-- A character that components may be written with: no slash, and no blank. -/
def Inner (c : Char) : Prop := c ≠ '/' ∧ Text.isBlank c = false

instance (c : Char) : Decidable (Inner c) := inferInstanceAs (Decidable (_ ∧ _))

/-- What stands for itself is an octet in UTF-8, and none of the characters with a meaning of their
own. -/
theorem char_of_isPlain (h : isPlain b) :
    String.utf8EncodeChar (Char.ofNat b.toNat) = [b] ∧ Char.ofNat b.toNat ≠ '%' ∧
      Char.ofNat b.toNat ≠ '=' ∧ Inner (Char.ofNat b.toNat) := by
  have hall : ∀ n < 256, isPlain (UInt8.ofNat n) →
      String.utf8EncodeChar (Char.ofNat n) = [UInt8.ofNat n] ∧ Char.ofNat n ≠ '%' ∧
        Char.ofNat n ≠ '=' ∧ Inner (Char.ofNat n) := by
    decide +kernel
  have hb := hall b.toNat b.toNat_lt
  rw [UInt8.ofNat_toNat] at hb
  exact hb h

theorem octets?_cons {c : Char} (hc : c ≠ '%') (rest : List Char) :
    octets? (c :: rest) = (octets? rest).map (String.utf8EncodeChar c ++ ·) := by
  rw [octets?]
  all_goals
    intros
    contradiction

theorem octets?_escapeOctet (b : UInt8) (rest : List Char) :
    octets? (escapeOctet b ++ rest) = (octets? rest).map (b :: ·) := by
  unfold escapeOctet
  by_cases hplain : isPlain b
  · obtain ⟨hutf8, hpercent, -⟩ := char_of_isPlain hplain
    rw [if_pos hplain, List.singleton_append, octets?_cons hpercent, hutf8]
    rfl
  · have hb := b.toNat_lt
    have hhigh := Hex.value?_upperDigit (b.toNat / 16) (by omega)
    have hlow := Hex.value?_upperDigit (b.toNat % 16) (by omega)
    have hplus : ∀ n < 16, Hex.upperDigit n ≠ '+' := by decide
    have hescaped : escaped? (Hex.upperDigit (b.toNat / 16)) (Hex.upperDigit (b.toNat % 16)) =
        some b := by
      have hne := hplus (b.toNat / 16) (by omega)
      rw [escaped?, hhigh, hlow, Option.bind_eq_bind, Option.bind_some, if_neg hne]
      exact congrArg some (Hex.ofNat_digits b)
    rw [if_neg hplain]
    change octets? ('%' :: _ :: _ :: rest) = _
    rw [octets?, hescaped]
    rfl

theorem octets?_flatMap (value : Bytes) : octets? (value.flatMap escapeOctet) = some value := by
  induction value with
  | nil => rfl
  | cons b rest ih => rw [List.flatMap_cons, octets?_escapeOctet, ih, Option.map_some]

theorem octets?_periods (n : ℕ) :
    octets? (List.replicate n '.') = some (List.replicate n period) := by
  induction n with
  | zero => rfl
  | succ n ih =>
    rw [List.replicate_succ, octets?_cons (by decide), ih]
    rfl

/-- Every value is read back as it was escaped. -/
theorem unescape_escape (value : Bytes) : unescape (escape value) = .ok value := by
  unfold escape
  by_cases hperiods : value.all (· == period)
  · obtain ⟨n, rfl⟩ : ∃ n, value = List.replicate n period := by
      refine ⟨value.length, List.eq_replicate_iff.2 ⟨rfl, fun b hb => ?_⟩⟩
      exact beq_iff_eq.1 (List.all_eq_true.1 hperiods b hb)
    rw [if_pos hperiods, List.length_replicate, unescape, octets?_periods]
    simp
  · -- So the value is not empty either.
    have hall : (!value.isEmpty && value.all (· == period)) = false := by simp [hperiods]
    rw [if_neg hperiods, unescape, octets?_flatMap]
    simp only [hall, Bool.false_eq_true, if_false]

theorem escape_ne_nil (value : Bytes) : escape value ≠ [] := by
  unfold escape
  split
  · simp
  · rename_i hperiods
    intro hnil
    obtain ⟨b, hb, -⟩ : ∃ b ∈ value, ¬ b == period := by simpa using hperiods
    have hb' : escapeOctet b = [] := List.flatMap_eq_nil_iff.1 hnil b hb
    unfold escapeOctet at hb'
    split at hb' <;> cases hb'

theorem mem_escapeOctet {c : Char} (h : c ∈ escapeOctet b) : c ≠ '=' ∧ Inner c := by
  unfold escapeOctet at h
  split at h
  · rename_i hplain
    rw [List.mem_singleton.1 h]
    exact (char_of_isPlain hplain).2.2
  · have hdigits : ∀ n < 16, Hex.upperDigit n ≠ '=' ∧ Inner (Hex.upperDigit n) := by decide
    have hb := b.toNat_lt
    simp only [List.mem_cons, List.not_mem_nil, or_false] at h
    rcases h with rfl | rfl | rfl
    · decide
    · exact hdigits _ (by omega)
    · exact hdigits _ (by omega)

/-- No escape has an equals sign, a slash or a blank in it. -/
theorem mem_escape {c : Char} (h : c ∈ escape value) : c ≠ '=' ∧ Inner c := by
  unfold escape at h
  split at h
  · rw [List.eq_of_mem_replicate h]
    decide
  · obtain ⟨b, -, hb⟩ := List.mem_flatMap.1 h
    exact mem_escapeOctet hb

end Component

end PacketTrust
