import Mathlib.Data.List.Induction
import PacketTrust.Name.Map
import PacketTrust.Proofs.Name.Beginning

/-! What maps from names hold after an insertion or after many of them, where the last one under a
name counts; and what a search in them comes to. -/

namespace PacketTrust

section

variable {α κ : Type} {key : α → κ} {l before after : List α} {k : κ} {a b : α}

/-- A list with one more element is split at that one, or at one before it. -/
theorem concat_eq_split_iff : l ++ [b] = before ++ a :: after ↔
    (l = before ∧ b = a ∧ after = []) ∨ ∃ rest, after = rest ++ [b] ∧ l = before ++ a :: rest := by
  constructor
  · intro h
    rcases List.eq_nil_or_concat after with rfl | ⟨rest, last, rfl⟩
    · obtain ⟨hl, hlast⟩ := List.append_inj' h rfl
      exact .inl ⟨hl, List.singleton_inj.1 hlast, rfl⟩
    · have hsplit : l ++ [b] = (before ++ a :: rest) ++ [last] := by simpa using h
      obtain ⟨hl, hlast⟩ := List.append_inj' hsplit rfl
      obtain rfl : b = last := List.singleton_inj.1 hlast
      exact .inr ⟨rest, List.concat_eq_append, hl⟩
  · rintro (⟨rfl, rfl, rfl⟩ | ⟨rest, rfl, rfl⟩)
    · rfl
    · simp

def Last (key : α → κ) (l : List α) (k : κ) (a : α) : Prop :=
  ∃ before after, l = before ++ a :: after ∧ key a = k ∧ ∀ b ∈ after, key b ≠ k

theorem last_concat :
    Last key (l ++ [b]) k a ↔ (b = a ∧ key a = k) ∨ (key b ≠ k ∧ Last key l k a) := by
  constructor
  · rintro ⟨before, after, hsplit, hk, hafter⟩
    rcases concat_eq_split_iff.1 hsplit with ⟨-, hba, -⟩ | ⟨rest, rfl, rfl⟩
    · exact .inl ⟨hba, hk⟩
    · obtain ⟨hrest, hb⟩ := List.forall_mem_append.1 hafter
      exact .inr ⟨hb b List.mem_cons_self, before, rest, rfl, hk, hrest⟩
  · rintro (⟨rfl, hk⟩ | ⟨hb, before, after, rfl, hk, hafter⟩)
    · exact ⟨l, [], rfl, hk, by simp⟩
    · refine ⟨before, after ++ [b], by simp, hk, List.forall_mem_append.2 ⟨hafter, ?_⟩⟩
      simpa using hb

theorem exists_last_iff : (∃ a, Last key l k a) ↔ ∃ a ∈ l, key a = k := by
  induction l using List.reverseRecOn with
  | nil => simp [Last]
  | append_singleton l b ih =>
    simp only [last_concat, exists_or, exists_and_left, ih, List.mem_append, List.mem_singleton,
      or_and_right]
    by_cases hb : key b = k <;> simp [hb, or_comm]

theorem Last.mem (h : Last key l k a) : a ∈ l := by
  obtain ⟨before, after, rfl, -⟩ := h
  simp

theorem Last.key_eq (h : Last key l k a) : key a = k := by
  obtain ⟨-, -, -, hk, -⟩ := h
  exact hk

end

namespace NameMap

variable {α : Type} {m : NameMap α} {n k : Name} {a : α} {p : α → Bool}

theorem contains_iff : m.contains k ↔ ∃ e ∈ m.entries, e.1 = k := by
  simp [contains]

theorem contains_eq_isSome : m.contains n = (m.get? n).isSome := by
  simp [contains, get?, List.isSome_find?]

theorem mem_keys : n ∈ m.keys ↔ m.contains n := by
  simp [keys, contains]

theorem nodup_keys (m : NameMap α) : m.keys.Nodup := by
  rw [keys, List.Nodup, List.pairwise_map]
  refine m.rising.imp fun hlt heq => ?_
  rw [heq, (Std.ReflCmp.compare_self : Name.cmp _ _ = .eq)] at hlt
  cases hlt

theorem contains_filter {q : Name → Bool} :
    (m.filter fun k _ => q k).contains n = (m.contains n && q n) := by
  rw [contains_eq_isSome, contains_eq_isSome, get?_filter]
  cases q n <;> cases m.get? n <;> simp [Option.filter]

theorem mem_insert {e : Name × α} (h : e ∈ (m.insert n a).entries) : e = (n, a) ∨ e ∈ m.entries :=
  mem_insertEntry h

theorem any_insertEntry (l : List (Name × α)) :
    (insertEntry n a l).any (·.1 = k) = (decide (n = k) || l.any (·.1 = k)) := by
  induction l with
  | nil => simp [insertEntry]
  | cons e rest ih =>
    rw [insertEntry]
    split
    · simp
    · rename_i heq
      obtain rfl : n = e.1 := Std.LawfulEqCmp.eq_of_compare heq
      simp
    · rw [List.any_cons, ih, List.any_cons, Bool.or_left_comm]

theorem contains_insert : (m.insert n a).contains k ↔ n = k ∨ m.contains k := by
  change (insertEntry n a m.entries).any (·.1 = k) ↔ _
  simp [any_insertEntry, contains]

theorem get?_ofList {l : List (Name × α)} :
    (ofList l).get? n = some a ↔ Last Prod.fst l n (n, a) := by
  induction l using List.reverseRecOn with
  | nil => simp [ofList, Last, get?, empty]
  | append_singleton l e ih =>
    have hlast : ofList (l ++ [e]) = (ofList l).insert e.1 e.2 := by simp [ofList]
    rw [hlast, get?_insert, last_concat, ← ih]
    by_cases he : e.1 = n
    · subst he
      simp [Prod.ext_iff]
    · have hne : e ≠ (n, a) := fun heq => he (congrArg Prod.fst heq)
      simp [he, hne]

theorem mem_insert_self (m : NameMap α) (n : Name) (a : α) : (n, a) ∈ (m.insert n a).entries := by
  have hfind : (insertEntry n a m.entries).find? (·.1 = n) = some (n, a) := by
    rw [find?_insertEntry, if_pos rfl]
  exact List.mem_of_find?_eq_some hfind

/-- What a search finds is held under a name that begins as asked, and passes the test. -/
theorem findUnderWith_some (h : m.findUnderWith n p = some a) :
    ∃ e ∈ m.entries, e.2 = a ∧ e.1.startsWith n ∧ p a := by
  obtain ⟨e, he, rfl⟩ := Option.map_eq_some_iff.1 h
  have hrow := List.mem_of_find?_eq_some he
  have hmem := (List.dropWhile_suffix _).subset ((List.takeWhile_prefix _).subset hrow)
  have hn := List.all_eq_true.1 List.all_takeWhile e hrow
  exact ⟨e, hmem, rfl, hn, List.find?_some (p := fun e : Name × α => p e.2) he⟩

theorem findUnderWith_eq_none (h : ∀ e ∈ m.entries, e.1.startsWith n = false) :
    m.findUnderWith n p = none := by
  cases hf : m.findUnderWith n p with
  | none => rfl
  | some a =>
    obtain ⟨e, he, -, hn, -⟩ := findUnderWith_some hf
    rw [h e he] at hn
    cases hn

/-- Of rising names that are not before `n`, those that begin with it come first. -/
theorem mem_takeWhile_startsWith {l : List (Name × α)} {e : Name × α}
    (hl : l.Pairwise fun a b => Name.cmp a.1 b.1 = .lt) (hrow : ∀ f ∈ l, Name.cmp f.1 n ≠ .lt)
    (he : e ∈ l) (hn : e.1.startsWith n) : e ∈ l.takeWhile fun e => e.1.startsWith n := by
  induction l with
  | nil => cases he
  | cons first rest ih =>
    obtain ⟨hfirst, hrest⟩ := List.pairwise_cons.1 hl
    obtain ⟨hfirstRow, hrestRow⟩ := List.forall_mem_cons.1 hrow
    rcases List.mem_cons.1 he with rfl | he
    · rw [List.takeWhile_cons, if_pos hn]
      exact List.mem_cons_self
    · rw [List.takeWhile_cons, if_pos (Name.startsWith_of_between hn hfirstRow (hfirst e he))]
      exact List.mem_cons_of_mem first (ih hrest hrestRow he)

/-- The row of a name holds all names that begin with it. -/
theorem mem_row {e : Name × α} (he : e ∈ m.entries) (hn : e.1.startsWith n) :
    e ∈ (m.startingAt n).takeWhile fun e => e.1.startsWith n := by
  have hstart := Name.cmp_ne_lt_of_startsWith hn
  obtain ⟨entries, rising⟩ := m
  unfold startingAt
  induction entries with
  | nil => cases he
  | cons first rest ih =>
    obtain ⟨hfirst, hrest⟩ := List.pairwise_cons.1 rising
    by_cases hlt : Name.cmp first.1 n = .lt
    · rw [List.dropWhile_cons_of_pos (by simpa using hlt)]
      rcases List.mem_cons.1 he with rfl | he
      · exact absurd hlt hstart
      · exact ih hrest he
    · rw [List.dropWhile_cons_of_neg (by simpa using hlt)]
      refine mem_takeWhile_startsWith rising ?_ he hn
      intro f hf hflt
      rcases List.mem_cons.1 hf with rfl | hf
      · exact hlt hflt
      · exact hlt (Std.TransCmp.lt_trans (hfirst f hf) hflt)

/-- A search finds something if a name begins as asked and its value passes the test. -/
theorem exists_findUnderWith {e : Name × α} (he : e ∈ m.entries) (hn : e.1.startsWith n)
    (hp : p e.2) : ∃ a, m.findUnderWith n p = some a := by
  have hfind :
      ((m.startingAt n).takeWhile fun e => e.1.startsWith n).find? (fun e => p e.2) |>.isSome :=
    List.find?_isSome.2 ⟨e, mem_row he hn, hp⟩
  obtain ⟨found, hfound⟩ := Option.isSome_iff_exists.1 hfind
  exact ⟨found.2, by rw [findUnderWith, hfound]; rfl⟩

theorem exists_startingAt (h : m.get? n = some a) : ∃ rest, m.startingAt n = (n, a) :: rest := by
  have ha : (n, a) ∈ m.entries := get?_eq_some_iff.1 h
  obtain ⟨entries, rising⟩ := m
  unfold startingAt
  clear h
  induction entries with
  | nil => cases ha
  | cons first rest ih =>
    obtain ⟨hfirst, hrest⟩ := List.pairwise_cons.1 rising
    rcases List.mem_cons.1 ha with rfl | ha
    · have hself : Name.cmp n n = .eq := Std.ReflCmp.compare_self
      exact ⟨rest, List.dropWhile_cons_of_neg (by simp [hself])⟩
    · rw [List.dropWhile_cons_of_pos (by simpa using hfirst _ ha)]
      exact ih hrest ha

theorem findUnder_of_get? (h : m.get? n = some a) : m.findUnder n = some a := by
  obtain ⟨rest, hrow⟩ := exists_startingAt h
  have hself : n.startsWith n := Name.startsWith_iff.2 List.prefix_rfl
  simp [findUnder, hrow, hself]

theorem findUnderWith_of_get? (h : m.get? n = some a) (ha : p a) :
    m.findUnderWith n p = some a := by
  obtain ⟨rest, hrow⟩ := exists_startingAt h
  have hself : n.startsWith n := Name.startsWith_iff.2 List.prefix_rfl
  simp [findUnderWith, hrow, hself, ha]

theorem findUnder_some (h : m.findUnder n = some a) :
    ∃ e ∈ m.entries, e.2 = a ∧ e.1.startsWith n := by
  obtain ⟨e, he, rfl⟩ := Option.map_eq_some_iff.1 h
  obtain ⟨hhead, hn⟩ := Option.filter_eq_some_iff.1 he
  have hrow : e ∈ m.startingAt n := List.mem_of_head? hhead
  exact ⟨e, (List.dropWhile_suffix _).subset hrow, rfl, hn⟩

section

variable {β : Type} {f : α → β} {q : β → Bool} {b : β}

/-- What a search for parts of the values finds is part of a value held under a name that begins as
asked. -/
theorem map_findUnderWith_some (h : (m.findUnderWith n fun a => q (f a)).map f = some b) :
    ∃ e ∈ m.entries, e.1.startsWith n ∧ f e.2 = b ∧ q b := by
  obtain ⟨a, ha, rfl⟩ := Option.map_eq_some_iff.1 h
  obtain ⟨e, he, rfl, hn, hq⟩ := findUnderWith_some ha
  exact ⟨e, he, hn, rfl, hq⟩

theorem exists_map_findUnderWith {e : Name × α} (he : e ∈ m.entries) (hn : e.1.startsWith n)
    (hq : q (f e.2)) : ∃ b, (m.findUnderWith n fun a => q (f a)).map f = some b := by
  obtain ⟨a, ha⟩ := exists_findUnderWith (p := fun a => q (f a)) he hn hq
  exact ⟨f a, by rw [ha]; rfl⟩

end

end NameMap

end PacketTrust
