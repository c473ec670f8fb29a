import PacketTrust.Proofs.Action
import PacketTrust.Proofs.Name.Order
import PacketTrust.Validation.Policy

/-! What the signature of an Interest covers: every component of its name but the last, as octets
without marks between them, which tell the components all the same. -/

namespace PacketTrust

namespace Name

variable {a b n : Name}

/-- The encodings of the components can be told apart, though nothing is written between them. -/
theorem encodeComponents_inj (ha : a.Sized) (hb : b.Sized)
    (h : a.encodeComponents = b.encodeComponents) : a = b := by
  have hcmp : cmp a b = .eq := by
    rw [cmp_eq_compare ha hb, h]
    exact Std.ReflOrd.compare_self
  exact Std.LawfulEqCmp.eq_of_compare hcmp

theorem Sized.take (h : n.Sized) (count : Int) : (n.take count).Sized := by
  have hprefix := startsWith_iff.1 (startsWith_take n count)
  intro c hc
  apply h
  exact hprefix.subset hc

theorem get?_neg (n : Name) {k : Nat} (hk : 0 < k) :
    n.get? (-k) = if k ≤ n.length then n.components[n.length - k]? else none := by
  have hneg : ¬ (0 : Int) ≤ -k := by omega
  unfold get?
  rw [if_neg hneg, Int.natAbs_neg, Int.natAbs_natCast]

/-- Counted from the end, what stands before the last component is what the name without it ends
in. -/
theorem get?_neg_succ (n : Name) {k : Nat} (hk : 0 < k) :
    n.get? (-(k + 1 : Nat)) = (n.take (-1)).get? (-k) := by
  have htake : (n.take (-1)).components = n.components.take (n.length - 1) := rfl
  have hlength : (n.take (-1)).length = n.length - 1 := by
    show (n.take (-1)).components.length = _
    rw [htake, List.length_take]
    show min (n.length - 1) n.length = _
    omega
  rw [get?_neg n (Nat.succ_pos k), get?_neg _ hk, hlength, htake]
  by_cases hle : k + 1 ≤ n.length
  · have hindex : n.length - (k + 1) = n.length - 1 - k := by omega
    have hlt : n.length - 1 - k < n.length - 1 := by omega
    rw [if_pos hle, if_pos (by omega), hindex, List.getElem?_take_of_lt hlt]
  · rw [if_neg hle, if_neg (by omega)]

end Name

namespace Interest

variable {i j : Interest} {p q : Signature}

theorem signature_ok (h : i.signature = .ok p) : ∃ c e, i.name.get? (-2) = some c ∧
    Tlv.single Tlv.Types.signatureInfo c.value = .ok e ∧
      SignatureInfo.decodeValue e.value = .ok p.info := by
  unfold signature at h
  split at h
  · rename_i info value hinfo hvalue
    obtain ⟨e, he, h⟩ := ok_of_bind h
    obtain ⟨e', -, h⟩ := ok_of_bind h
    obtain ⟨s, hs, h⟩ := ok_of_bind h
    cases h
    exact ⟨info, e, hinfo, he, hs⟩
  · cases h

end Interest

/-- What the policy on commands goes by: a number four components from the end, and the key that the
signature tells. -/
theorem Policy.commandParts_eq_ok_iff {i : Interest} {k : Name} {t : UInt64} :
    commandParts i = .ok (k, t) ↔
      (∃ c, i.name.get? (-4) = some c ∧ c.number = .ok t) ∧
        ∃ s, i.signature = .ok s ∧ s.info.keyName = .ok k := by
  have hnone : i.name.length < 4 → i.name.get? (-4) = none := by
    intro hshort
    have hget := i.name.get?_neg (k := 4) (by omega)
    rwa [if_neg (by omega)] at hget
  have hkey : ¬ i.name.length < 4 → ∀ k, i.keyName = .ok k ↔
      ∃ s, i.signature = .ok s ∧ s.info.keyName = .ok k := by
    intro hlong k
    unfold Interest.keyName
    rw [if_neg (by omega)]
    cases i.signature <;> simp
  unfold commandParts
  by_cases hshort : i.name.length < 4
  · rw [if_pos hshort, hnone hshort]
    simp
  rw [if_neg hshort, ← hkey hshort k]
  cases hget : i.name.get? (-4) with
  | none => simp
  | some c =>
    cases hnumber : c.number with
    | error e => simp [hnumber]
    | ok t' =>
      cases i.keyName <;> simp [hnumber, bind, Except.bind, pure, Except.pure, and_comm]

namespace Interest

/-- Interests with the same signed octets have the same components up to the last one: name,
timestamp, nonce and key of a command are bound by its signature, and so is all that the policy on
commands reads. -/
theorem covers_all_but_last {i j : Interest} (hi : i.name.Sized) (hj : j.name.Sized)
    (h : i.signedPortion = j.signedPortion) :
    i.name.take (-1) = j.name.take (-1) ∧
      (∀ k : Nat, 2 ≤ k → i.name.get? (-k) = j.name.get? (-k)) ∧
      (∀ p q, i.signature = .ok p → j.signature = .ok q → p.info = q.info) ∧
      ∀ p q, Policy.commandParts i = .ok p → Policy.commandParts j = .ok q → p = q := by
  have hname : i.name.take (-1) = j.name.take (-1) :=
    Name.encodeComponents_inj (hi.take (-1)) (hj.take (-1)) h
  have hget : ∀ k : Nat, 2 ≤ k → i.name.get? (-k) = j.name.get? (-k) := by
    intro k hk
    obtain ⟨k, rfl⟩ : ∃ m, k = m + 1 := ⟨k - 1, by omega⟩
    have hpos : 0 < k := by omega
    rw [Name.get?_neg_succ _ hpos, Name.get?_neg_succ _ hpos, hname]
  have hinfo : ∀ p q, i.signature = .ok p → j.signature = .ok q → p.info = q.info := by
    intro p q hp hq
    obtain ⟨c, e, hc, he, hs⟩ := signature_ok hp
    obtain ⟨c', e', hc', he', hs'⟩ := signature_ok hq
    cases (hc.symm.trans (hget 2 (by omega))).trans hc'
    cases he.symm.trans he'
    exact Except.ok.inj (hs.symm.trans hs')
  refine ⟨hname, hget, hinfo, ?_⟩
  rintro ⟨k, t⟩ ⟨k', t'⟩ hp hq
  obtain ⟨⟨c, hc, ht⟩, s, hs, hk⟩ := Policy.commandParts_eq_ok_iff.1 hp
  obtain ⟨⟨c', hc', ht'⟩, s', hs', hk'⟩ := Policy.commandParts_eq_ok_iff.1 hq
  cases (hc.symm.trans (hget 4 (by omega))).trans hc'
  rw [hinfo s s' hs hs'] at hk
  cases ht.symm.trans ht'
  cases hk.symm.trans hk'
  rfl

def Sample.valued (value : Bytes) : Interest :=
  { name := ⟨[.generic [99], .ofNumber 1717200000000, .generic [7],
      .generic (SignatureInfo.sha256WithEcdsa (some (.name ⟨[.generic [107]]⟩)) none).encode,
      .generic (Tlv.encode Tlv.Types.signatureValue value)]⟩ }

/-- Two components and a last one, and the octets of the two in one component. -/
def Sample.apart : Interest := { name := ⟨[.generic [97], ⟨0x10000, []⟩, .generic [1]]⟩ }

@[inherit_doc Sample.apart]
def Sample.grouped : Interest :=
  { name := ⟨[.generic ((Component.generic [97]).encode ++ Component.encode ⟨0x10000, []⟩),
      .generic [1]]⟩ }

/-- Another value of the signature changes nothing that it covers; to put octets of several
components into one does. -/
theorem covers_all_but_last_sample :
    ((Sample.valued [1]).signedPortion = (Sample.valued [2, 3]).signedPortion ∧
      (Sample.valued [1]).name ≠ (Sample.valued [2, 3]).name ∧
      (Sample.valued [1]).name.get? (-4) = (Sample.valued [2, 3]).name.get? (-4)) ∧
      Sample.apart.signedPortion ≠ Sample.grouped.signedPortion := by
  have hfirst : ∀ c ∈ (Sample.valued [1]).name.components, c.value.length < 2 ^ 64 := by
    decide +kernel
  have hsecond : ∀ c ∈ (Sample.valued [2, 3]).name.components, c.value.length < 2 ^ 64 := by
    decide +kernel
  have hapart : ∀ c ∈ Sample.apart.name.components, c.value.length < 2 ^ 64 := by decide +kernel
  have hgrouped : ∀ c ∈ Sample.grouped.name.components, c.value.length < 2 ^ 64 := by decide +kernel
  have hsame : (Sample.valued [1]).signedPortion = (Sample.valued [2, 3]).signedPortion := rfl
  obtain ⟨-, hget, -⟩ := covers_all_but_last hfirst hsecond hsame
  refine ⟨⟨hsame, by decide +kernel, hget 4 (by omega)⟩, fun h => ?_⟩
  obtain ⟨hname, -⟩ := covers_all_but_last hapart hgrouped h
  exact absurd hname (by decide +kernel)

end Interest

end PacketTrust
