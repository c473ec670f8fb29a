import Mathlib.Algebra.Group.Nat.Defs
import PacketTrust.Text.Blank
import PacketTrust.Text.Decimal
import PacketTrust.Text.Utf8

/-! Numerals as they are written. Padded numerals consist of digits, have the width that was asked
for, and are read back as the numbers that they were written for; their octets are those of plain
characters. -/

namespace PacketTrust

namespace Decimal

variable {width n : Nat} {text : List Char}

theorem digits?_of_isDigit (h : ∀ c ∈ text, c.isDigit) :
    digits? text = some (Nat.ofDigitChars 10 text 0) := by
  have hvalue : ∀ init, text.foldlM
      (fun n c => if c.isDigit then some (n * 10 + (c.toNat - 48)) else none) init =
        some (Nat.ofDigitChars 10 text init) := by
    induction text with
    | nil => exact fun init => rfl
    | cons c rest ih =>
      intro init
      obtain ⟨hc, hrest⟩ := List.forall_mem_cons.1 h
      rw [List.foldlM_cons, if_pos hc, Nat.mul_comm init 10]
      exact ih hrest _
  exact hvalue 0

/-- Only digits have a value. -/
theorem digits?_eq_some_iff :
    digits? text = some n ↔ (∀ c ∈ text, c.isDigit) ∧ n = Nat.ofDigitChars 10 text 0 := by
  constructor
  · intro h
    have hdigits : ∀ init, text.foldlM
        (fun n c => if c.isDigit then some (n * 10 + (c.toNat - 48)) else none) init = some n →
          ∀ c ∈ text, c.isDigit := by
      clear h
      induction text with
      | nil => simp
      | cons c rest ih =>
        intro init h
        rw [List.foldlM_cons] at h
        split at h
        · rename_i hc
          exact List.forall_mem_cons.2 ⟨hc, ih _ h⟩
        · cases h
    have hall := hdigits 0 h
    rw [digits?_of_isDigit hall] at h
    exact ⟨hall, (Option.some.inj h).symm⟩
  · rintro ⟨hdigits, rfl⟩
    exact digits?_of_isDigit hdigits

/-- A numeral of a number: its digits, behind one plus sign or none. -/
def Numeral (text : List Char) (n : Nat) : Prop :=
  ∃ digits, (text = digits ∨ text = '+' :: digits) ∧ digits ≠ [] ∧ (∀ c ∈ digits, c.isDigit) ∧
    n = Nat.ofDigitChars 10 digits 0

/-- Just the numerals of numbers up to the limit are read. -/
theorem natural?_eq_some_iff {limit : Nat} :
    natural? limit text = some n ↔ Numeral text n ∧ n ≤ limit := by
  have hbody : ∀ body : List Char,
      (if body.isEmpty then none else (digits? body).filter (· ≤ limit)) = some n ↔
        (body ≠ [] ∧ (∀ c ∈ body, c.isDigit) ∧ n = Nat.ofDigitChars 10 body 0) ∧ n ≤ limit := by
    intro body
    by_cases hempty : body = []
    · simp [hempty]
    · rw [if_neg (by simpa using hempty), Option.filter_eq_some_iff, digits?_eq_some_iff,
        decide_eq_true_iff]
      simp [hempty]
  unfold natural? Numeral
  split
  · rename_i rest
    have hsign : ∀ digits : List Char, (∀ c ∈ digits, c.isDigit) → '+' :: rest ≠ digits := by
      rintro _ hdigits rfl
      exact absurd (hdigits '+' List.mem_cons_self) (by decide)
    rw [hbody]
    refine and_congr_left fun _ => ⟨fun h => ⟨rest, .inr rfl, h⟩, ?_⟩
    rintro ⟨digits, heq | heq, hne, hdigits, hn⟩
    · exact absurd heq (hsign digits hdigits)
    · obtain rfl : rest = digits := (List.cons.inj heq).2
      exact ⟨hne, hdigits, hn⟩
  · rename_i hplus
    rw [hbody]
    refine and_congr_left fun _ => ⟨fun h => ⟨text, .inl rfl, h⟩, ?_⟩
    rintro ⟨digits, rfl | heq, h⟩
    · exact h
    · exact absurd heq (hplus digits)

theorem isDigit_of_mem_padded {c : Char} (h : c ∈ padded width n) : c.isDigit := by
  rcases List.mem_append.1 h with h | h
  · rw [List.eq_of_mem_replicate h]
    rfl
  · exact Nat.isDigit_of_mem_toDigits (by omega) (by omega) h

theorem exists_padded (width n : Nat) : ∃ c rest, padded width n = c :: rest ∧ c.isDigit := by
  cases h : padded width n with
  | nil => exact absurd (List.append_eq_nil_iff.1 h).2 Nat.toDigits_ne_nil
  | cons c rest => exact ⟨c, rest, rfl, isDigit_of_mem_padded (h ▸ List.mem_cons_self)⟩

theorem length_padded (hw : 0 < width) (h : n < 10 ^ width) : (padded width n).length = width := by
  have hle : (Nat.toDigits 10 n).length ≤ width := (Nat.length_toDigits_le_iff (by omega) hw).2 h
  simp only [padded, List.length_append, List.length_replicate]
  omega

theorem digits?_padded (width n : Nat) : digits? (padded width n) = some n := by
  rw [digits?_of_isDigit fun c hc => isDigit_of_mem_padded hc, padded, Nat.ofDigitChars_append,
    Nat.ofDigitChars_replicate_zero, Nat.mul_zero, Nat.ofDigitChars_toDigits (by omega) (by omega)]

end Decimal

theorem Text.toNat_of_isDigit {c : Char} (h : c.isDigit) : 48 ≤ c.toNat ∧ c.toNat ≤ 57 := by
  simp only [Char.isDigit, Bool.and_eq_true, decide_eq_true_eq, ge_iff_le,
    UInt32.le_iff_toNat_le] at h
  exact h

theorem Text.isBlank_of_isDigit {c : Char} (h : c.isDigit) : isBlank c = false := by
  obtain ⟨hlow, hhigh⟩ := toNat_of_isDigit h
  simp only [isBlank, Bool.or_eq_false_iff, Bool.and_eq_false_imp, decide_eq_true_eq,
    decide_eq_false_iff_not, beq_eq_false_iff_ne]
  omega

namespace Utf8

theorem decode?_cons_of_lt {a : UInt8} (h : a < 0x80) (rest : Bytes) :
    decode? (a :: rest) = (decode? rest).map (Char.ofNat a.toNat :: ·) := by
  rw [decode?.eq_def]
  exact if_pos h

theorem decode?_encode {text : List Char} (h : ∀ c ∈ text, c.toNat < 0x80) :
    decode? (encode text) = some text := by
  induction text with
  | nil => rfl
  | cons c rest ih =>
    obtain ⟨hc, hrest⟩ := List.forall_mem_cons.1 h
    have hvalue : c.val.toNat = c.toNat := rfl
    have hone : c.utf8Size = 1 := by
      rw [Char.utf8Size_eq_one_iff, UInt32.le_iff_toNat_le, hvalue]
      exact Nat.le_of_lt_succ hc
    have hoctet : c.val.toUInt8.toNat = c.toNat := by
      rw [UInt32.toNat_toUInt8, hvalue]
      omega
    have hsmall : c.val.toUInt8 < 0x80 := by
      rw [UInt8.lt_iff_toNat_lt, hoctet]
      exact hc
    have hencode : encode (c :: rest) = c.val.toUInt8 :: encode rest := by
      rw [encode, List.flatMap_cons, String.utf8EncodeChar_eq_singleton hone]
      rfl
    rw [hencode, decode?_cons_of_lt hsmall, ih hrest, hoctet, Char.ofNat_toNat]
    rfl

end Utf8

end PacketTrust
