import Mathlib.Data.List.Induction
import PacketTrust.Proofs.Tlv.Writing

/-! Numbers in values. Main statement: of all octets that hold a number, the written ones are the
fewest, and no others are as few. -/

namespace PacketTrust

theorem Bytes.bigEndian_toNat (bytes : Bytes) : bigEndian bytes.length (toNat bytes) = bytes := by
  induction bytes using List.reverseRecOn with
  | nil => rfl
  | append_singleton bytes b ih =>
    have hb := b.toNat_lt
    have hhigh : (toNat bytes * 256 + b.toNat) / 256 = toNat bytes := by omega
    have hlow : UInt8.ofNat (toNat bytes * 256 + b.toNat) = b := by
      rw [← UInt8.toNat_inj, UInt8.toNat_ofNat']
      omega
    rw [List.length_append, List.length_singleton, toNat_concat, bigEndian, hhigh, hlow, ih]

namespace Tlv

variable {bytes : Bytes} {n : UInt64}

/-- A value holds a number in 1, 2, 4 or 8 octets. -/
theorem decodeNumber_eq_ok_iff :
    decodeNumber bytes = .ok n ↔ bytes.length ∈ [1, 2, 4, 8] ∧ Bytes.toNat bytes = n.toNat := by
  have hlt := Bytes.toNat_lt bytes
  have hvalue : bytes.length ∈ [1, 2, 4, 8] →
      (UInt64.ofNat (Bytes.toNat bytes) = n ↔ Bytes.toNat bytes = n.toNat) := by
    intro hlength
    have hsmall : Bytes.toNat bytes < 2 ^ 64 := by
      simp only [List.mem_cons, List.not_mem_nil, or_false] at hlength
      rcases hlength with h | h | h | h <;> rw [h] at hlt <;> omega
    rw [← UInt64.toNat_inj, UInt64.toNat_ofNat', Nat.mod_eq_of_lt hsmall]
  unfold decodeNumber
  split
  case h_5 =>
    rename_i h1 h2 h4 h8
    constructor
    · exact nofun
    · rintro ⟨hlength, -⟩
      simp only [List.mem_cons, List.not_mem_nil, or_false] at hlength
      rcases hlength with h | h | h | h
      exacts [(h1 h).elim, (h2 h).elim, (h4 h).elim, (h8 h).elim]
  all_goals
    rename_i hlength
    rw [Except.ok.injEq, hvalue (by simp [hlength])]
    simp [hlength]

theorem exists_decodeNumber (h : bytes.length ∈ [1, 2, 4, 8]) :
    ∃ n, decodeNumber bytes = .ok n := by
  unfold decodeNumber
  simp only [List.mem_cons, List.not_mem_nil, or_false] at h
  rcases h with h | h | h | h <;> rw [h] <;> exact ⟨_, rfl⟩

theorem length_encodeNumber (n : UInt64) : (encodeNumber n).length =
    if n.toNat < 256 then 1 else if n.toNat < 65536 then 2 else if n.toNat < 4294967296 then 4
      else 8 := by
  unfold encodeNumber
  simp only [UInt64.le_iff_toNat_le, UInt64.reduceToNat]
  split_ifs <;> first | omega | simp

/-- The written form of a number is the shortest. -/
theorem length_encodeNumber_le_of_decodeNumber (h : decodeNumber bytes = .ok n) :
    (encodeNumber n).length ≤ bytes.length := by
  obtain ⟨hlength, hn⟩ := decodeNumber_eq_ok_iff.1 h
  have hlt := Bytes.toNat_lt bytes
  rw [length_encodeNumber, ← hn]
  simp only [List.mem_cons, List.not_mem_nil, or_false] at hlength
  rcases hlength with h | h | h | h <;> rw [h] at hlt ⊢ <;> split_ifs <;> omega

theorem eq_encodeNumber (h : decodeNumber bytes = .ok n)
    (hshort : bytes.length ≤ (encodeNumber n).length) : bytes = encodeNumber n := by
  have hlength : bytes.length = (encodeNumber n).length :=
    Nat.le_antisymm hshort (length_encodeNumber_le_of_decodeNumber h)
  have hsame : Bytes.toNat bytes = Bytes.toNat (encodeNumber n) :=
    (decodeNumber_eq_ok_iff.1 h).2.trans
      (decodeNumber_eq_ok_iff.1 (decodeNumber_encodeNumber n)).2.symm
  rw [← Bytes.bigEndian_toNat bytes, hlength, hsame, Bytes.bigEndian_toNat]

end Tlv

end PacketTrust
