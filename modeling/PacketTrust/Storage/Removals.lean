import PacketTrust.Name.Basic
import PacketTrust.Time.Instant

/-! When the entries of a cache have to go: pairs of a moment and a name, the earliest moment first,
so that those whose time has passed stand at the beginning. -/

namespace PacketTrust

namespace Removals

/-- Order by moment, then by name. -/
def cmp : Instant × Name → Instant × Name → Ordering :=
  compareLex (compareOn (·.1)) (compareOn (·.2))

instance : Std.TransCmp cmp := inferInstanceAs (Std.TransCmp (compareLex _ _))

instance : Std.LawfulEqCmp cmp where
  eq_of_compare {a b} h := by
    simp only [cmp, compareLex, compareOn, Ordering.then_eq_eq, Std.compare_eq_iff_eq] at h
    exact Prod.ext h.1 h.2

/-- Of two pairs in their order, the second one's moment is not earlier. -/
theorem not_lt_of_cmp {a b : Instant × Name} (h : cmp a b = .lt) : ¬ b.1 < a.1 := by
  simp only [cmp, compareLex, compareOn, Ordering.then_eq_lt, Std.compare_eq_iff_eq] at h
  rcases h with h | ⟨h, -⟩
  · have hlt := Instant.cmp_eq_lt_iff.1 h
    rw [Instant.lt_def] at hlt ⊢
    omega
  · rw [h, Instant.lt_def]
    omega

end Removals

/-- A set of pairs of a moment and a name, in their order. -/
structure Removals where
  rows : List (Instant × Name)
  rising : rows.Pairwise fun a b => Removals.cmp a b = .lt

namespace Removals

variable {m : Removals} {r s : Instant × Name} {l : List (Instant × Name)} {now : Instant}

def empty : Removals := ⟨[], .nil⟩

/-- Puts a pair in its place. -/
def insertRow (r : Instant × Name) : List (Instant × Name) → List (Instant × Name)
  | [] => [r]
  | s :: rest =>
    match cmp r s with
    | .lt => r :: s :: rest
    | .eq => s :: rest
    | .gt => s :: insertRow r rest

theorem mem_insertRow : s ∈ insertRow r l ↔ s = r ∨ s ∈ l := by
  induction l with
  | nil => simp [insertRow]
  | cons first rest ih =>
    rw [insertRow]
    split
    · simp
    · rename_i heq
      have hr : r = first := Std.LawfulEqCmp.eq_of_compare heq
      simp [hr]
    · rw [List.mem_cons, ih, List.mem_cons, or_left_comm]

theorem rising_insertRow (h : l.Pairwise fun a b => cmp a b = .lt) :
    (insertRow r l).Pairwise fun a b => cmp a b = .lt := by
  induction l with
  | nil => simp [insertRow]
  | cons first rest ih =>
    obtain ⟨hfirst, hrest⟩ := List.pairwise_cons.1 h
    rw [insertRow]
    split
    · rename_i hlt
      refine List.pairwise_cons.2 ⟨fun s hs => ?_, h⟩
      rcases List.mem_cons.1 hs with rfl | hs
      · exact hlt
      · exact Std.TransCmp.lt_trans hlt (hfirst s hs)
    · exact h
    · rename_i hgt
      refine List.pairwise_cons.2 ⟨fun s hs => ?_, ih hrest⟩
      rcases mem_insertRow.1 hs with rfl | hs
      · exact Std.OrientedCmp.lt_of_gt hgt
      · exact hfirst s hs

def insert (m : Removals) (r : Instant × Name) : Removals :=
  ⟨insertRow r m.rows, rising_insertRow m.rising⟩

def erase (m : Removals) (r : Instant × Name) : Removals :=
  ⟨m.rows.filter (· ≠ r), m.rising.filter _⟩

/-- The pairs whose moment has passed. -/
def due (m : Removals) (now : Instant) : List (Instant × Name) := m.rows.takeWhile (·.1 < now)

/-- The pairs from the first one on whose moment has not passed. -/
def later (m : Removals) (now : Instant) : Removals :=
  ⟨m.rows.dropWhile (·.1 < now), m.rising.sublist (List.dropWhile_sublist _)⟩

theorem mem_insert : s ∈ (m.insert r).rows ↔ s = r ∨ s ∈ m.rows := mem_insertRow

theorem mem_erase : s ∈ (m.erase r).rows ↔ s ∈ m.rows ∧ s ≠ r := by
  simp [erase]

/-- A pair is due or later. -/
theorem mem_due_or_later (m : Removals) (now : Instant) (s : Instant × Name) :
    s ∈ m.rows ↔ s ∈ m.due now ∨ s ∈ (m.later now).rows := by
  rw [due, later, ← List.mem_append, List.takeWhile_append_dropWhile]

/-- Where none is due, all are later. -/
theorem later_of_due (h : m.due now = []) : m.later now = m := by
  obtain ⟨rows, rising⟩ := m
  have hall : rows.takeWhile (·.1 < now) ++ rows.dropWhile (·.1 < now) = rows :=
    List.takeWhile_append_dropWhile
  rw [show rows.takeWhile (·.1 < now) = [] from h, List.nil_append] at hall
  simpa only [later, mk.injEq] using hall

theorem lt_of_mem_due (h : s ∈ m.due now) : s.1 < now :=
  of_decide_eq_true (List.all_eq_true.1 List.all_takeWhile s h)

/-- The first pair whose moment has not passed stands before none whose moment has. -/
theorem not_lt_of_mem_later (h : s ∈ (m.later now).rows) : ¬ s.1 < now := by
  obtain ⟨rows, rising⟩ := m
  change s ∈ rows.dropWhile (·.1 < now) at h
  induction rows with
  | nil => cases h
  | cons first rest ih =>
    obtain ⟨hfirst, hrest⟩ := List.pairwise_cons.1 rising
    by_cases hlt : first.1 < now
    · rw [List.dropWhile_cons_of_pos (by simpa using hlt)] at h
      exact ih hrest h
    · rw [List.dropWhile_cons_of_neg (by simpa using hlt)] at h
      rcases List.mem_cons.1 h with rfl | h
      · exact hlt
      · have hle := not_lt_of_cmp (hfirst s h)
        rw [Instant.lt_def] at hlt hle ⊢
        omega

end Removals

end PacketTrust
