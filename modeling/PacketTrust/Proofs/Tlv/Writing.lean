import Mathlib.Tactic.SplitIfs
import PacketTrust.Proofs.Action
import PacketTrust.Proofs.Tlv.Spelling

/-! What is written of numbers, elements and runs of fields. Main statements: numbers and runs of
fields are read back as they were written, and no octets that spell an element are fewer than those
written for it. -/

namespace PacketTrust.Tlv

theorem decodeNumber_encodeNumber (n : UInt64) : decodeNumber (encodeNumber n) = .ok n := by
  have hlt := n.toNat_lt
  have hread : ∀ width, n.toNat < 256 ^ width → width ∈ [1, 2, 4, 8] →
      decodeNumber (Bytes.bigEndian width n.toNat) = .ok n := by
    intro width hn hwidth
    have hvalue : UInt64.ofNat (Bytes.toNat (Bytes.bigEndian width n.toNat)) = n := by
      rw [Bytes.toNat_bigEndian, Nat.mod_eq_of_lt hn, UInt64.ofNat_toNat]
    unfold decodeNumber
    rw [Bytes.length_bigEndian, hvalue]
    simp only [List.mem_cons, List.not_mem_nil, or_false] at hwidth
    rcases hwidth with rfl | rfl | rfl | rfl <;> rfl
  unfold encodeNumber
  simp only [UInt64.le_iff_toNat_le, UInt64.reduceToNat]
  split_ifs <;> apply hread <;> first | omega | simp

theorem length_encodeNumber_le (n : UInt64) : (encodeNumber n).length ≤ 8 := by
  unfold encodeNumber
  split_ifs <;> simp only [Bytes.length_bigEndian] <;> omega

theorem length_encodeVar (n : UInt64) : (encodeVar n).length =
    if n.toNat < 253 then 1 else if n.toNat ≤ 65535 then 3 else if n.toNat ≤ 4294967295 then 5
      else 9 := by
  unfold encodeVar
  simp only [UInt64.lt_iff_toNat_lt, UInt64.le_iff_toNat_le, UInt64.reduceToNat]
  split_ifs <;> simp

theorem length_encodeVar_le (n : UInt64) : (encodeVar n).length ≤ 9 := by
  rw [length_encodeVar]
  split_ifs <;> omega

theorem length_encode_le (type : UInt64) (value : Bytes) :
    (encode type value).length ≤ value.length + 18 := by
  have htype := length_encodeVar_le type
  have hlength := length_encodeVar_le (UInt64.ofNat value.length)
  simp only [encode, List.length_append]
  omega

theorem length_encodeNumberElement_le (type n : UInt64) :
    (encodeNumberElement type n).length ≤ 26 := by
  have hnumber := length_encodeNumber_le n
  have helement := length_encode_le type (encodeNumber n)
  unfold encodeNumberElement
  omega

/-- The written form of a type or length is the shortest. -/
theorem SpellsVar.length_encodeVar_le {bytes : Bytes} {n : UInt64} (h : SpellsVar bytes n) :
    (encodeVar n).length ≤ bytes.length := by
  have hlow : ∀ m, (UInt64.ofNat m).toNat ≤ m := fun m => by
    rw [UInt64.toNat_ofNat']
    exact Nat.mod_le _ _
  rw [length_encodeVar]
  cases h.numeral with
  | @short b hb =>
    have hvalue := hlow b.toNat
    rw [if_pos (by omega)]
    simp
  | @wide marker octets hmarks =>
    have hvalue := hlow (Bytes.toNat octets)
    have hlt := Bytes.toNat_lt octets
    rw [List.length_cons]
    rcases hmarks with ⟨-, hw⟩ | ⟨-, hw⟩ | ⟨-, hw⟩ <;> rw [hw] at hlt <;> split_ifs <;> omega

/-- The written form of an element is the shortest. -/
theorem Spells.length_encode_le {wire value : Bytes} {type : UInt64} (h : Spells wire type value) :
    (Tlv.encode type value).length ≤ wire.length := by
  obtain ⟨head, tail, length, rfl, hhead, htail, hlength⟩ := h
  have htype := hhead.length_encodeVar_le
  have hlen := htail.length_encodeVar_le
  have hsame : UInt64.ofNat value.length = length := by rw [← hlength, UInt64.ofNat_toNat]
  simp only [Tlv.encode, List.length_append, hsame]
  omega

end PacketTrust.Tlv
