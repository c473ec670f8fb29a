import PacketTrust.Certificate
import PacketTrust.Name.Map
import PacketTrust.Packet.Interest
import PacketTrust.Storage.Removals

/-! A cache of certificates by name. An entry stays until the certificate expires or the longest
lifetime has passed since it came in, whichever is first. The times at which the entries have to go
stand in order beside them, and entries past their time are dropped before a search. -/

namespace PacketTrust

structure CacheEntry where
  certificate : Certificate
  /-- The last moment at which the entry may be found. -/
  removal : Instant
deriving DecidableEq, Repr

namespace Removals

variable {m : Removals} {entries : NameMap CacheEntry} {t now : Instant} {n k : Name}

/-- The pairs are the removal times of the entries with their names. -/
def Indexes (m : Removals) (entries : NameMap CacheEntry) : Prop :=
  ∀ t n, (t, n) ∈ m.rows ↔ ∃ e, entries.get? n = some e ∧ e.removal = t

/-- Leaves out the pair of the entry that stands under a name. -/
def without (m : Removals) (entries : NameMap CacheEntry) (n : Name) : Removals :=
  match entries.get? n with
  | some e => m.erase (e.removal, n)
  | none => m

theorem indexes_empty : empty.Indexes .empty := by
  simp [Indexes, empty, NameMap.empty, NameMap.get?]

theorem Indexes.mem_without (h : m.Indexes entries) :
    (t, k) ∈ (m.without entries n).rows ↔ (t, k) ∈ m.rows ∧ k ≠ n := by
  unfold without
  split
  · rename_i e he
    rw [mem_erase]
    refine and_congr_right fun hrow => not_congr ?_
    constructor
    · intro heq
      exact congrArg Prod.snd heq
    · rintro rfl
      obtain ⟨e', he', rfl⟩ := (h t k).1 hrow
      obtain rfl : e = e' := Option.some.inj (he.symm.trans he')
      rfl
  · rename_i hnone
    refine ⟨fun hrow => ⟨hrow, ?_⟩, And.left⟩
    rintro rfl
    obtain ⟨e, he, -⟩ := (h t k).1 hrow
    cases hnone.symm.trans he

theorem Indexes.erase (h : m.Indexes entries) (n : Name) :
    (m.without entries n).Indexes (entries.erase n) := by
  intro t k
  rw [h.mem_without, h t k, NameMap.get?_erase]
  by_cases hk : k = n <;> simp [hk]

/-- An entry comes in over the one of its name. -/
theorem Indexes.insert (h : m.Indexes entries) (n : Name) (e : CacheEntry) :
    ((m.without entries n).insert (e.removal, n)).Indexes (entries.insert n e) := by
  intro t k
  rw [mem_insert, h.mem_without, h t k, NameMap.get?_insert]
  by_cases hk : n = k
  · subst hk
    simp [eq_comm]
  · have hk' : k ≠ n := Ne.symm hk
    simp [hk, hk']

theorem foldl_erase (rows : List (Instant × Name)) (entries : NameMap CacheEntry) :
    rows.foldl (fun m r => m.erase r.2) entries = entries.filter fun n _ => rows.all (·.2 ≠ n) := by
  induction rows generalizing entries with
  | nil => exact (NameMap.filter_eq_self fun _ _ => rfl).symm
  | cons r rest ih =>
    rw [List.foldl_cons, ih, NameMap.erase, NameMap.filter_filter]
    apply NameMap.filter_congr
    intro e _
    simp [eq_comm]

/-- The names whose time has passed are those of the entries whose time has passed. -/
theorem Indexes.filter_due (h : m.Indexes entries) (now : Instant) :
    (entries.filter fun n _ => (m.due now).all (·.2 ≠ n)) =
      entries.filter fun _ e => now ≤ e.removal := by
  apply NameMap.filter_congr
  intro e he
  have hget : entries.get? e.1 = some e.2 := NameMap.get?_eq_some_iff.2 he
  have hrow : (e.2.removal, e.1) ∈ m.rows := (h _ _).2 ⟨e.2, hget, rfl⟩
  rw [Bool.eq_iff_iff, List.all_eq_true, decide_eq_true_iff]
  constructor
  · intro hall
    rcases (mem_due_or_later m now _).1 hrow with hdue | hlater
    · exact absurd rfl (of_decide_eq_true (hall _ hdue))
    · exact Instant.not_lt.1 (not_lt_of_mem_later hlater)
  · intro hle r hr
    apply decide_eq_true
    intro heq
    have hr' : (r.1, e.1) ∈ m.rows := heq ▸ (mem_due_or_later m now r).2 (.inl hr)
    obtain ⟨e', he', hremoval⟩ := (h _ _).1 hr'
    obtain rfl : e.2 = e' := Option.some.inj (hget.symm.trans he')
    rw [hremoval] at hle
    exact Instant.not_lt.2 hle (lt_of_mem_due hr)

theorem Indexes.later (h : m.Indexes entries) (now : Instant) :
    (m.later now).Indexes ((m.due now).foldl (fun m r => m.erase r.2) entries) := by
  intro t n
  rw [foldl_erase, h.filter_due, NameMap.get?_filter]
  constructor
  · intro hlater
    obtain ⟨e, he, rfl⟩ := (h t n).1 ((mem_due_or_later m now _).2 (.inr hlater))
    have hle : now ≤ e.removal := Instant.not_lt.1 (not_lt_of_mem_later hlater)
    exact ⟨e, by simp [he, hle], rfl⟩
  · rintro ⟨e, he, rfl⟩
    obtain ⟨he, hle⟩ := Option.filter_eq_some_iff.1 he
    have hrow : (e.removal, n) ∈ m.rows := (h _ _).2 ⟨e, he, rfl⟩
    rcases (mem_due_or_later m now _).1 hrow with hdue | hlater
    · exact absurd (lt_of_mem_due hdue) (Instant.not_lt.2 (of_decide_eq_true hle))
    · exact hlater

end Removals

structure Cache where
  /-- The longest lifetime. -/
  lifetime : Span
  entries : NameMap CacheEntry := .empty
  /-- When the entries have to go. -/
  removals : Removals := .empty
  indexed : removals.Indexes entries := by exact Removals.indexes_empty

namespace Cache

def size (c : Cache) : Nat := c.entries.size

/-- When a certificate that comes in now has to go. -/
def removalTime (lifetime : Span) (now : Instant) (certificate : Certificate) : Instant :=
  match now.add? lifetime with
  | some limit => limit.min certificate.validity.notAfter
  | none => certificate.validity.notAfter

/-- Takes in a certificate that has not expired, over one of the same name. -/
def insert (c : Cache) (now : Instant) (certificate : Certificate) : Cache :=
  if certificate.validity.notAfter < now then c
  else
    let n := certificate.name
    let e := ⟨certificate, removalTime c.lifetime now certificate⟩
    { c with
      entries := c.entries.insert n e
      removals := (c.removals.without c.entries n).insert (e.removal, n)
      indexed := c.indexed.insert n e }

theorem lifetime_insert (c : Cache) (now : Instant) (certificate : Certificate) :
    (c.insert now certificate).lifetime = c.lifetime := by
  unfold insert
  split <;> rfl

def erase (c : Cache) (n : Name) : Cache :=
  { c with
    entries := c.entries.erase n
    removals := c.removals.without c.entries n
    indexed := c.indexed.erase n }

def clear (c : Cache) : Cache := { lifetime := c.lifetime }

/-- Drops the entries whose time has passed, from the earliest one on. -/
def refresh (c : Cache) (now : Instant) : Cache :=
  { c with
    entries := (c.removals.due now).foldl (fun m r => m.erase r.2) c.entries
    removals := c.removals.later now
    indexed := c.indexed.later now }

/-- What is left are the entries whose time has not passed. -/
theorem entries_refresh (c : Cache) (now : Instant) :
    (c.refresh now).entries = c.entries.filter fun _ e => now ≤ e.removal :=
  (Removals.foldl_erase _ _).trans (c.indexed.filter_due now)

/-- The first certificate whose name begins with the given one. -/
def find (c : Cache) (now : Instant) (name : Name) : Option Certificate × Cache :=
  let c := c.refresh now
  ((c.entries.findUnder name).map (·.certificate), c)

/-- The first certificate that answers an Interest. -/
def findInterest (c : Cache) (now : Instant) (i : Interest) : Option Certificate × Cache :=
  let c := c.refresh now
  ((c.entries.findUnderWith i.name fun e => i.matchesData e.certificate.data).map (·.certificate),
    c)

end Cache

/-- What may be done with a cache. -/
inductive CacheOperation where
  | insert (certificate : Certificate)
  | erase (name : Name)
  | clear
  | refresh
  | find (name : Name)
  | findInterest (interest : Interest)
deriving DecidableEq, Repr

/-- Carries an operation out; a search also tells what it found. -/
def CacheOperation.run (now : Instant) (c : Cache) : CacheOperation → Option Certificate × Cache
  | insert certificate => (none, c.insert now certificate)
  | erase name => (none, c.erase name)
  | clear => (none, c.clear)
  | refresh => (none, c.refresh now)
  | find name => c.find now name
  | findInterest interest => c.findInterest now interest

end PacketTrust
