import Mathlib.Data.List.Infix
import PacketTrust.Bytes.Lemmas
import PacketTrust.Proofs.Name.Beginning

/-! Canonical order and the order of octets. Numbers, elements and names are compared as their wires
are, octet by octet, whatever stands behind the wires. -/

namespace PacketTrust

namespace Bytes

variable {u v : Bytes} {width m n : Nat}

/-- Octets are compared from the front: beginnings of one length come first. -/
theorem compare_append (h : u.length = v.length) (x y : Bytes) :
    compare (u ++ x) (v ++ y) = (compare u v).then (compare x y) := by
  induction u generalizing v with
  | nil =>
    obtain rfl : v = [] := List.length_eq_zero_iff.1 h.symm
    rfl
  | cons a u ih =>
    obtain ⟨b, v, rfl⟩ := List.exists_cons_of_length_eq_add_one h.symm
    have hrest : u.length = v.length := Nat.succ.inj h
    rw [List.cons_append, List.cons_append, List.compare_cons_cons,
      List.compare_cons_cons, ih hrest, Ordering.then_assoc]

/-- Numbers are compared by their last digit only where the digits before it are the same. -/
theorem compare_div_then_mod (k m n : Nat) :
    (compare (m / k) (n / k)).then (compare (m % k) (n % k)) = compare m n := by
  have hm := Nat.div_add_mod m k
  have hn := Nat.div_add_mod n k
  rcases Nat.lt_trichotomy (m / k) (n / k) with hlt | heq | hgt
  · have hmn : m < n := Nat.lt_of_div_lt_div hlt
    rw [Nat.compare_eq_lt.2 hlt, Nat.compare_eq_lt.2 hmn]
    rfl
  · rw [Nat.compare_eq_eq.2 heq, Ordering.eq_then]
    rw [heq] at hm
    simp only [Nat.compare_eq_ite_lt]
    split_ifs <;> first | rfl | omega
  · have hmn : n < m := Nat.lt_of_div_lt_div hgt
    rw [Nat.compare_eq_gt.2 hgt, Nat.compare_eq_gt.2 hmn]
    rfl

/-- Numbers of one width are compared as their octets are, the most significant first. -/
theorem compare_bigEndian (hm : m < 256 ^ width) (hn : n < 256 ^ width) :
    compare (bigEndian width m) (bigEndian width n) = compare m n := by
  induction width generalizing m n with
  | zero =>
    obtain rfl : m = 0 := by simpa using hm
    obtain rfl : n = 0 := by simpa using hn
    rfl
  | succ width ih =>
    -- The octets in front are those of the quotient, and the last one is the remainder.
    rw [Nat.pow_succ] at hm hn
    have hlast : compare [UInt8.ofNat m] [UInt8.ofNat n] = compare (m % 256) (n % 256) := by
      rw [List.compare_cons_cons, UInt8.compare_eq_toNat_compare_toNat, UInt8.toNat_ofNat',
        UInt8.toNat_ofNat']
      exact Ordering.then_eq
    rw [bigEndian, bigEndian, compare_append (by simp), ih (by omega) (by omega), hlast]
    exact compare_div_then_mod 256 m n

end Bytes

namespace Tlv

open Bytes

/-- A number below 253 is its own and only octet; else the first octet tells how many hold the
number. -/
theorem exists_encodeVar (n : UInt64) : ∃ lead width,
    encodeVar n = lead :: bigEndian width n.toNat ∧ (width ≠ 0 → n.toNat < 256 ^ width) ∧
      (n.toNat < 253 ∧ lead.toNat = n.toNat ∧ width = 0 ∨
        253 ≤ n.toNat ∧ n.toNat < 256 ^ 2 ∧ lead.toNat = 253 ∧ width = 2 ∨
        256 ^ 2 ≤ n.toNat ∧ n.toNat < 256 ^ 4 ∧ lead.toNat = 254 ∧ width = 4 ∨
        256 ^ 4 ≤ n.toNat ∧ lead.toNat = 255 ∧ width = 8) := by
  have hn := n.toNat_lt
  unfold encodeVar
  simp only [UInt64.lt_iff_toNat_lt, UInt64.le_iff_toNat_le, UInt64.reduceToNat]
  split
  · rename_i hshort
    have hlead : n.toUInt8.toNat = n.toNat := by
      rw [UInt64.toNat_toUInt8]
      omega
    exact ⟨n.toUInt8, 0, rfl, absurd rfl, .inl ⟨hshort, hlead, rfl⟩⟩
  split
  · exact ⟨253, 2, rfl, fun _ => by omega, .inr (.inl ⟨by omega, by omega, rfl, rfl⟩)⟩
  split
  · exact ⟨254, 4, rfl, fun _ => by omega, .inr (.inr (.inl ⟨by omega, by omega, rfl, rfl⟩))⟩
  · exact ⟨255, 8, rfl, fun _ => by omega, .inr (.inr (.inr ⟨by omega, rfl, rfl⟩))⟩

/-- Written types and lengths are compared as the numbers are, whatever stands behind them. -/
theorem compare_encodeVar_append (m n : UInt64) (x y : Bytes) :
    compare (encodeVar m ++ x) (encodeVar n ++ y) = (compare m n).then (compare x y) := by
  obtain ⟨a, i, hencode, hfits, hm⟩ := exists_encodeVar m
  obtain ⟨b, j, hencode', hfits', hn⟩ := exists_encodeVar n
  rw [hencode, hencode', List.cons_append, List.cons_append, List.compare_cons_cons,
    UInt8.compare_eq_toNat_compare_toNat, UInt64.compare_eq_toNat_compare_toNat]
  rcases Nat.lt_trichotomy a.toNat b.toNat with hlt | heq | hgt
  · have hmn : m.toNat < n.toNat := by omega
    rw [Nat.compare_eq_lt.2 hlt, Nat.compare_eq_lt.2 hmn]
    rfl
  · -- One first octet stands for numbers of one width, or for one number alone.
    have hwidth : i = j := by omega
    subst hwidth
    have hnumbers : compare (bigEndian i m.toNat) (bigEndian i n.toNat) =
        compare m.toNat n.toNat := by
      by_cases hmn : m.toNat = n.toNat
      · rw [hmn, Std.ReflOrd.compare_self, Std.ReflOrd.compare_self]
      · have hwide : i ≠ 0 := by omega
        exact compare_bigEndian (hfits hwide) (hfits' hwide)
    rw [Nat.compare_eq_eq.2 heq, Ordering.eq_then, compare_append (by simp), hnumbers]
  · have hmn : n.toNat < m.toNat := by omega
    rw [Nat.compare_eq_gt.2 hgt, Nat.compare_eq_gt.2 hmn]
    rfl

end Tlv

namespace Component

variable {c d : Component}

/-- Components are compared as their wires are, whatever stands behind them. -/
theorem compare_encode_append (hc : c.value.length < 2 ^ 64) (hd : d.value.length < 2 ^ 64)
    (x y : Bytes) : compare (c.encode ++ x) (d.encode ++ y) = (cmp c d).then (compare x y) := by
  have hlengths : compare (UInt64.ofNat c.value.length) (UInt64.ofNat d.value.length) =
      compare c.value.length d.value.length := by
    rw [UInt64.compare_eq_toNat_compare_toNat, UInt64.toNat_ofNat_of_lt' hc,
      UInt64.toNat_ofNat_of_lt' hd]
  unfold encode Tlv.encode
  rw [List.append_assoc, List.append_assoc, List.append_assoc, List.append_assoc,
    Tlv.compare_encodeVar_append, Tlv.compare_encodeVar_append, hlengths]
  unfold cmp compareLex compareOn
  rw [Ordering.then_assoc, Ordering.then_assoc]
  by_cases hsame : c.value.length = d.value.length
  · rw [Bytes.compare_append hsame]
  · -- Lengths that differ decide before the values are reached.
    rcases Nat.lt_or_gt_of_ne hsame with hlt | hgt
    · rw [Nat.compare_eq_lt.2 hlt]
      rfl
    · rw [Nat.compare_eq_gt.2 hgt]
      rfl

theorem exists_encode_cons (c : Component) : ∃ first rest, c.encode = first :: rest := by
  obtain ⟨lead, width, hencode, -⟩ := Tlv.exists_encodeVar c.type
  unfold encode Tlv.encode
  rw [hencode]
  exact ⟨_, _, rfl⟩

theorem encode_append_inj (hc : c.value.length < 2 ^ 64) (hd : d.value.length < 2 ^ 64)
    {x y : Bytes} (h : c.encode ++ x = d.encode ++ y) : c = d ∧ x = y := by
  have hcompare := compare_encode_append hc hd x y
  rw [h, Std.ReflOrd.compare_self, eq_comm, Ordering.then_eq_eq] at hcompare
  exact ⟨Std.LawfulEqCmp.eq_of_compare hcompare.1, Std.LawfulEqOrd.eq_of_compare hcompare.2⟩

end Component

namespace Name

variable {a b : Name}

/-- Each value has a length that can be written. -/
def Sized (n : Name) : Prop := ∀ c ∈ n.components, c.value.length < 2 ^ 64

theorem cmp_eq_compare (ha : a.Sized) (hb : b.Sized) :
    cmp a b = compare a.encodeComponents b.encodeComponents := by
  obtain ⟨components⟩ := a
  obtain ⟨components'⟩ := b
  unfold cmp encodeComponents Sized at *
  dsimp only at *
  induction components generalizing components' with
  | nil =>
    cases components' with
    | nil => rfl
    | cons d rest =>
      obtain ⟨first, more, hfirst⟩ := d.exists_encode_cons
      rw [List.flatMap_cons, hfirst]
      rfl
  | cons c rest ih =>
    cases components' with
    | nil =>
      obtain ⟨first, more, hfirst⟩ := c.exists_encode_cons
      rw [List.flatMap_cons, hfirst]
      rfl
    | cons d rest' =>
      obtain ⟨hc, hrest⟩ := List.forall_mem_cons.1 ha
      obtain ⟨hd, hrest'⟩ := List.forall_mem_cons.1 hb
      -- Equal components have equal wires, so the first two that differ decide both comparisons.
      rw [List.compareLex_cons_cons, ih hrest rest' hrest', List.flatMap_cons, List.flatMap_cons,
        Component.compare_encode_append hc hd]

theorem startsWith_iff_encodeComponents (ha : a.Sized) (hb : b.Sized) :
    b.startsWith a ↔ a.encodeComponents <+: b.encodeComponents := by
  rw [startsWith_iff]
  obtain ⟨components⟩ := a
  obtain ⟨components'⟩ := b
  unfold encodeComponents Sized at *
  dsimp only at *
  induction components generalizing components' with
  | nil => exact ⟨fun _ => List.nil_prefix, fun _ => List.nil_prefix⟩
  | cons c rest ih =>
    obtain ⟨hc, hrest⟩ := List.forall_mem_cons.1 ha
    cases components' with
    | nil =>
      obtain ⟨first, more, hfirst⟩ := c.exists_encode_cons
      rw [List.flatMap_cons, hfirst]
      simp
    | cons d rest' =>
      obtain ⟨hd, hrest'⟩ := List.forall_mem_cons.1 hb
      rw [List.cons_prefix_cons, ih hrest rest' hrest', List.flatMap_cons, List.flatMap_cons]
      constructor
      · rintro ⟨rfl, h⟩
        exact (List.prefix_append_right_inj _).2 h
      · rintro ⟨more, h⟩
        rw [List.append_assoc] at h
        -- The wire of a component tells where it ends, so the components in front are the same.
        obtain ⟨hcd, hmore⟩ := Component.encode_append_inj hc hd h
        exact ⟨hcd, more, hmore⟩

/-- Canonical order is the lexicographic order of the wires: a total order that agrees with
equality. One name begins with another exactly if its wire begins with the other wire. -/
theorem canonical_order_of_wires (ha : a.Sized) (hb : b.Sized) :
    cmp a b = compare a.encodeComponents b.encodeComponents ∧
      (cmp b a = (cmp a b).swap ∧
        ∀ c, (cmp a b).isLE → (cmp b c).isLE → (cmp a c).isLE) ∧
      (cmp a b = .eq ↔ a = b) ∧
      (b.startsWith a ↔ a.encodeComponents <+: b.encodeComponents) := by
  refine ⟨cmp_eq_compare ha hb, ⟨Std.OrientedCmp.eq_swap, fun c => Std.TransCmp.isLE_trans⟩, ?_,
    startsWith_iff_encodeComponents ha hb⟩
  exact Std.LawfulEqCmp.compare_eq_iff_eq

/-- A value of 253 octets, all zero: its length is the first to be written in three octets. -/
def Sample.zeros : Name := ⟨[.generic (List.replicate 253 0)]⟩

/-- A value one octet shorter, each octet being the greatest there is, and a component of a type
that is written in five octets. -/
def Sample.ones : Name := ⟨[.generic (List.replicate 252 255), ⟨0x10000, []⟩]⟩

theorem canonical_order_of_wires_sample : Sample.ones.Sized ∧ Sample.zeros.Sized ∧
    cmp Sample.ones Sample.zeros = .lt ∧
    compare Sample.ones.encodeComponents Sample.zeros.encodeComponents = .lt ∧
    cmp Sample.zeros Sample.ones = .gt ∧
    ¬ Sample.ones.encodeComponents <+: Sample.zeros.encodeComponents := by
  have hones : ∀ c ∈ Sample.ones.components, c.value.length < 2 ^ 64 := by decide +kernel
  have hzeros : ∀ c ∈ Sample.zeros.components, c.value.length < 2 ^ 64 := by decide +kernel
  have hlt : cmp Sample.ones Sample.zeros = .lt := by decide +kernel
  obtain ⟨hwires, ⟨hswap, -⟩, -, hbegins⟩ := canonical_order_of_wires hones hzeros
  refine ⟨hones, hzeros, hlt, hwires.symm.trans hlt, ?_, ?_⟩
  · rw [hswap, hlt]
    rfl
  · rw [← hbegins]
    decide +kernel

end Name

end PacketTrust
