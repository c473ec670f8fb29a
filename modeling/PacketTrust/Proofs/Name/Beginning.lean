import PacketTrust.Name.Basic

/-! Beginnings of names, and where they stand in canonical order. -/

namespace PacketTrust.Name

variable {n a b : Name}

theorem startsWith_iff : n.startsWith a ↔ a.components <+: n.components :=
  List.isPrefixOf_iff_prefix

theorem startsWith_trans (ha : n.startsWith a) (hb : a.startsWith b) : n.startsWith b :=
  startsWith_iff.2 ((startsWith_iff.1 hb).trans (startsWith_iff.1 ha))

theorem startsWith_length (h : n.startsWith a) : a.length ≤ n.length :=
  (startsWith_iff.1 h).length_le

theorem startsWith_take (n : Name) (count : Int) : n.startsWith (n.take count) := by
  unfold take
  split <;> exact startsWith_iff.2 (List.take_prefix _ _)

/-- Of two beginnings of a name, the longer begins with the shorter. -/
theorem startsWith_of_length_le (ha : n.startsWith a) (hb : n.startsWith b)
    (h : b.length ≤ a.length) : a.startsWith b :=
  startsWith_iff.2 (List.prefix_of_prefix_length_le (startsWith_iff.1 hb) (startsWith_iff.1 ha) h)

theorem length_take_two (n : Name) : (n.take (-2)).length = n.length - 2 := by
  change (List.take (n.length - 2) n.components).length = _
  rw [List.length_take, length]
  omega

theorem cmp_ne_lt_of_startsWith (h : n.startsWith a) : cmp n a ≠ .lt := by
  obtain ⟨rest, hr⟩ := startsWith_iff.1 h
  rw [cmp, ← hr]
  induction a.components with
  | nil => cases rest <;> simp [List.compareLex]
  | cons c cs ih =>
    have hc : Component.cmp c c = .eq := Std.ReflCmp.compare_self
    rw [List.cons_append, List.compareLex_cons_cons, hc]
    exact ih

/-- All names from a name up to one that begins with it begin with it. -/
theorem startsWith_of_between {e f : Name} (he : e.startsWith n) (hn : cmp f n ≠ .lt)
    (hf : cmp f e = .lt) : f.startsWith n := by
  obtain ⟨rest, hrest⟩ := startsWith_iff.1 he
  rw [startsWith_iff]
  unfold cmp at hn hf
  rw [← hrest] at hf
  clear he hrest
  generalize n.components = prior at *
  generalize f.components = found at *
  induction prior generalizing found with
  | nil => exact List.nil_prefix
  | cons c prior ih =>
    cases found with
    | nil => exact absurd rfl hn
    | cons d found =>
      rw [List.cons_append, List.compareLex_cons_cons] at hf
      rw [List.compareLex_cons_cons] at hn
      cases hc : Component.cmp d c with
      | lt =>
        rw [hc] at hn
        exact absurd rfl hn
      | gt =>
        rw [hc] at hf
        cases hf
      | eq =>
        rw [hc] at hn hf
        obtain rfl : d = c := Std.LawfulEqCmp.eq_of_compare hc
        obtain ⟨more, hmore⟩ := ih found hn hf
        exact ⟨more, by rw [List.cons_append, hmore]⟩

end PacketTrust.Name
