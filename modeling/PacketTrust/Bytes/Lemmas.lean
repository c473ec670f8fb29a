import Mathlib.Tactic.Ring
import PacketTrust.Bytes

/-! Numbers and their big-endian octets: what is written and read back is the low part of the
number. -/

namespace PacketTrust.Bytes

theorem toNat_bigEndian (width n : Nat) : toNat (bigEndian width n) = n % 256 ^ width := by
  induction width generalizing n with
  | zero => simp [bigEndian, Nat.mod_one]
  | succ w ih =>
    rw [bigEndian, toNat_concat, ih, Nat.pow_succ', Nat.mod_mul, UInt8.toNat_ofNat']
    omega

theorem toNat_lt (bytes : Bytes) : toNat bytes < 256 ^ bytes.length := by
  induction h : bytes.length generalizing bytes with
  | zero => simp [List.length_eq_zero_iff.1 h]
  | succ n ih =>
    obtain ⟨init, last, rfl⟩ : ∃ init last, bytes = init ++ [last] :=
      ⟨bytes.dropLast, bytes.getLast (by intro he; simp [he] at h),
        (List.dropLast_concat_getLast _).symm⟩
    have hinit := ih init (by simpa using h)
    have hlast := last.toNat_lt
    rw [toNat_concat, Nat.pow_succ]
    omega

end PacketTrust.Bytes
