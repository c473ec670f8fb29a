import PacketTrust.Name.Basic

/-! Maps from names, kept in canonical order. The names that begin with a given one stand in a row
that starts at the first name not before it, so a search for them looks nowhere else. -/

namespace PacketTrust

/-- A map whose keys rise strictly in canonical order. -/
structure NameMap (α : Type) where
  entries : List (Name × α)
  rising : entries.Pairwise fun a b => Name.cmp a.1 b.1 = .lt

namespace NameMap

variable {α : Type}

def empty : NameMap α := ⟨[], .nil⟩

instance : Inhabited (NameMap α) := ⟨empty⟩

def size (m : NameMap α) : Nat := m.entries.length

def isEmpty (m : NameMap α) : Bool := m.entries.isEmpty

def keys (m : NameMap α) : List Name := m.entries.map (·.1)

def get? (m : NameMap α) (n : Name) : Option α := (m.entries.find? (·.1 = n)).map (·.2)

def contains (m : NameMap α) (n : Name) : Bool := m.entries.any (·.1 = n)

/-- Puts an entry in its place, over the one of the same name. -/
def insertEntry (n : Name) (a : α) : List (Name × α) → List (Name × α)
  | [] => [(n, a)]
  | e :: rest =>
    match Name.cmp n e.1 with
    | .lt => (n, a) :: e :: rest
    | .eq => (n, a) :: rest
    | .gt => e :: insertEntry n a rest

theorem mem_insertEntry {n : Name} {a : α} {l : List (Name × α)} {e : Name × α}
    (h : e ∈ insertEntry n a l) : e = (n, a) ∨ e ∈ l := by
  induction l with
  | nil => simpa [insertEntry] using h
  | cons f rest ih =>
    rw [insertEntry] at h
    split at h
    · simpa using h
    · simp only [List.mem_cons] at h ⊢
      exact h.imp_right .inr
    · simp only [List.mem_cons] at h ⊢
      rcases h with h | h
      · exact .inr (.inl h)
      · exact (ih h).imp_right .inr

theorem rising_insertEntry {n : Name} {a : α} {l : List (Name × α)}
    (h : l.Pairwise fun a b => Name.cmp a.1 b.1 = .lt) :
    (insertEntry n a l).Pairwise fun a b => Name.cmp a.1 b.1 = .lt := by
  induction l with
  | nil => simp [insertEntry]
  | cons e rest ih =>
    obtain ⟨he, hrest⟩ := List.pairwise_cons.1 h
    rw [insertEntry]
    split
    · rename_i hlt
      refine List.pairwise_cons.2 ⟨fun f hf => ?_, h⟩
      rcases List.mem_cons.1 hf with rfl | hf
      · exact hlt
      · exact Std.TransCmp.lt_trans hlt (he f hf)
    · rename_i heq
      have hn : n = e.1 := Std.LawfulEqCmp.eq_of_compare heq
      exact List.pairwise_cons.2 ⟨fun f hf => hn ▸ he f hf, hrest⟩
    · rename_i hgt
      refine List.pairwise_cons.2 ⟨fun f hf => ?_, ih hrest⟩
      rcases mem_insertEntry hf with rfl | hf
      · exact Std.OrientedCmp.lt_of_gt hgt
      · exact he f hf

def insert (m : NameMap α) (n : Name) (a : α) : NameMap α :=
  ⟨insertEntry n a m.entries, rising_insertEntry m.rising⟩

/-- Keeps the entries that pass a test. -/
def filter (m : NameMap α) (p : Name → α → Bool) : NameMap α :=
  ⟨m.entries.filter fun e => p e.1 e.2, m.rising.filter _⟩

def erase (m : NameMap α) (n : Name) : NameMap α := m.filter fun k _ => k ≠ n

section

variable {m : NameMap α} {n k : Name} {a : α} {l : List (Name × α)}

theorem find?_insertEntry (l : List (Name × α)) :
    (insertEntry n a l).find? (·.1 = k) =
      if n = k then some (n, a) else l.find? (·.1 = k) := by
  induction l with
  | nil => by_cases h : n = k <;> simp [insertEntry, h]
  | cons e rest ih =>
    rw [insertEntry]
    split
    · by_cases h : n = k <;> simp [h]
    · rename_i heq
      obtain rfl : n = e.1 := Std.LawfulEqCmp.eq_of_compare heq
      by_cases h : e.1 = k <;> simp [h]
    · rename_i hgt
      rw [List.find?_cons, ih, List.find?_cons]
      by_cases h : e.1 = k
      · have hne : n ≠ k := by
          rintro rfl
          rw [h] at hgt
          cases hgt.symm.trans (Std.ReflCmp.compare_self : Name.cmp n n = .eq)
        simp [h, hne]
      · simp [h]

theorem get?_insert : (m.insert n a).get? k = if n = k then some a else m.get? k := by
  rw [get?, get?]
  change ((insertEntry n a m.entries).find? (·.1 = k)).map (·.2) = _
  rw [find?_insertEntry]
  split <;> rfl

theorem find?_of_rising (h : l.Pairwise fun a b => Name.cmp a.1 b.1 = .lt) (ha : (n, a) ∈ l) :
    l.find? (·.1 = n) = some (n, a) := by
  induction l with
  | nil => cases ha
  | cons e rest ih =>
    obtain ⟨he, hrest⟩ := List.pairwise_cons.1 h
    rcases List.mem_cons.1 ha with rfl | ha
    · simp
    · have hne : e.1 ≠ n := by
        intro heq
        have hlt := he (n, a) ha
        rw [heq] at hlt
        cases hlt.symm.trans (Std.ReflCmp.compare_self : Name.cmp n n = .eq)
      rw [List.find?_cons_of_neg (by simpa using hne)]
      exact ih hrest ha

theorem get?_eq_some_iff : m.get? n = some a ↔ (n, a) ∈ m.entries := by
  rw [get?, Option.map_eq_some_iff]
  constructor
  · rintro ⟨⟨k, b⟩, hfind, rfl⟩
    have hk : k = n := by simpa using List.find?_some hfind
    rw [← hk]
    exact List.mem_of_find?_eq_some hfind
  · intro ha
    exact ⟨(n, a), find?_of_rising m.rising ha, rfl⟩

theorem get?_filter (p : Name → α → Bool) : (m.filter p).get? n = (m.get? n).filter (p n) := by
  apply Option.ext
  intro a
  rw [get?_eq_some_iff, Option.filter_eq_some_iff, get?_eq_some_iff]
  exact List.mem_filter

theorem filter_filter (p q : Name → α → Bool) :
    (m.filter p).filter q = m.filter fun k a => p k a && q k a := by
  simp only [filter, List.filter_filter, Bool.and_comm]

theorem filter_eq_self {p : Name → α → Bool} (h : ∀ e ∈ m.entries, p e.1 e.2) :
    m.filter p = m := by
  obtain ⟨entries, rising⟩ := m
  simp only [filter, mk.injEq]
  exact List.filter_eq_self.2 h

theorem filter_congr {p q : Name → α → Bool} (h : ∀ e ∈ m.entries, p e.1 e.2 = q e.1 e.2) :
    m.filter p = m.filter q := by
  simp only [filter, mk.injEq]
  exact List.filter_congr h

theorem get?_erase : (m.erase n).get? k = if k = n then none else m.get? k := by
  rw [erase, get?_filter]
  by_cases h : k = n
  · simp [h]
  · cases m.get? k <;> simp [h]

end

def ofList (l : List (Name × α)) : NameMap α := l.foldl (fun m e => m.insert e.1 e.2) empty

/-- The entries from a name on. -/
def startingAt (m : NameMap α) (n : Name) : List (Name × α) :=
  m.entries.dropWhile fun e => Name.cmp e.1 n = .lt

/-- The value of the first name that begins with `n`. -/
def findUnder (m : NameMap α) (n : Name) : Option α :=
  ((m.startingAt n).head?.filter fun e => e.1.startsWith n).map (·.2)

/-- The first value under `n` that passes a test. -/
def findUnderWith (m : NameMap α) (n : Name) (p : α → Bool) : Option α :=
  (((m.startingAt n).takeWhile fun e => e.1.startsWith n).find? fun e => p e.2).map (·.2)

end NameMap

end PacketTrust
