import Mathlib.Data.List.DropRight
import PacketTrust.Proofs.Validation.Timestamps

/-! The order of the records of timestamps. Records are made at the back, at moments that do not go
back, so the oldest stands at the front, and a look at the front drops just the records that are too
old or too many. -/

namespace PacketTrust

namespace Records

inductive Call
  | insert (keyName : Name) (timestamp : UInt64)
  | cleanUp (o : CommandOptions)
deriving DecidableEq

def Call.apply (l : Records) (now : Instant) : Call → Records
  | .insert k t => l.insert k t now
  | .cleanUp o => l.cleanUp o now

def after (calls : List (Instant × Call)) : Records :=
  calls.foldl (fun l call => call.2.apply l call.1) []

/-- The records that are younger than records live; all of them, if the years do not reach back so
far. -/
def recent (o : CommandOptions) (now : Instant) (l : Records) : Records :=
  match now.add? (-.ofMillis o.recordMillis) with
  | some t => l.filter (t < ·.recorded)
  | none => l

def last (o : CommandOptions) (l : Records) : Records :=
  match o.maxRecords with
  | some limit => l.rtake limit
  | none => l

/-- Each key has one record, and the records stand in the order in which they were made. -/
structure Ordered (l : Records) (now : Instant) : Prop where
  distinct : (l.map (·.keyName)).Nodup
  sorted : l.Pairwise (·.recorded ≤ ·.recorded)
  past : ∀ r ∈ l, r.recorded ≤ now

variable {o : CommandOptions} {l : Records} {now now' : Instant} {k k' : Name} {t : UInt64}
  {r r' : TimestampRecord} {call : Call} {calls first more : List (Instant × Call)}

theorem recent_eq_filter (o : CommandOptions) (now : Instant) (l : Records) :
    recent o now l = l.filter (!tooOld o now ·) := by
  unfold recent tooOld
  cases now.add? (-.ofMillis o.recordMillis) with
  | none => simp
  | some t =>
    have hlt : ∀ a : Instant, decide (t < a) = !decide (a ≤ t) := by
      intro a
      rw [← decide_not, decide_eq_decide, ← Instant.not_lt, not_not]
    simp only [Option.any_some, hlt]

theorem tooOld_of_le (h : tooOld o now r') (hle : r.recorded ≤ r'.recorded) : tooOld o now r := by
  unfold tooOld at *
  cases ht : now.add? (-.ofMillis o.recordMillis) with
  | none => simp [ht] at h
  | some t =>
    simp only [ht, Option.any_some, decide_eq_true_eq] at h ⊢
    exact Instant.le_trans hle h

theorem last_cons (o : CommandOptions) (r : TimestampRecord) (l : Records) :
    last o (r :: l) = if tooMany o (l.length + 1) then last o l else r :: l := by
  unfold last tooMany
  cases o.maxRecords with
  | none => rfl
  | some limit =>
    simp only [List.rtake, List.length_cons, Option.any_some, decide_eq_true_eq]
    split
    · have hcount : l.length + 1 - limit = l.length - limit + 1 := by omega
      rw [hcount, List.drop_succ_cons]
    · have hcount : l.length + 1 - limit = 0 := by omega
      rw [hcount, List.drop_zero]

/-- The front is the oldest, so no record behind one that lives on is too old. -/
theorem cleanUp_eq (h : l.Pairwise (·.recorded ≤ ·.recorded)) (o : CommandOptions) (now : Instant) :
    l.cleanUp o now = last o (recent o now l) := by
  induction l with
  | nil =>
    rw [recent_eq_filter, List.filter_nil, cleanUp, last]
    cases o.maxRecords with
    | none => rfl
    | some limit => simp [List.rtake]
  | cons r rest ih =>
    obtain ⟨hfront, hrest⟩ := List.pairwise_cons.1 h
    have hback := ih hrest
    rw [recent_eq_filter] at hback ⊢
    rw [cleanUp]
    by_cases hold : tooOld o now r = true
    · simp only [hold, Bool.true_or, if_true, Bool.not_true, List.filter_cons_of_neg,
        Bool.false_eq_true, not_false_eq_true]
      exact hback
    · have hyoung : ∀ s ∈ rest, (!tooOld o now s) = true := by
        intro s hs
        have hnot : ¬ tooOld o now s = true := fun hs' => hold (tooOld_of_le hs' (hfront s hs))
        simpa using hnot
      have hsame : rest.filter (!tooOld o now ·) = rest := List.filter_eq_self.2 hyoung
      rw [hsame] at hback
      rw [Bool.not_eq_true] at hold
      rw [List.filter_cons_of_pos (by simp [hold]), hsame, last_cons, hold, Bool.false_or, hback]

/-- These records may stay: the one in front was made after a moment, and they are not too many. -/
structure MayStay (o : CommandOptions) (oldest : Instant) (l : Records) : Prop where
  young : ∀ s, l.head? = some s → oldest < s.recorded
  few : ∀ limit, o.maxRecords = some limit → l.length ≤ limit

theorem mayStay_nil (o : CommandOptions) (oldest : Instant) : MayStay o oldest [] := by
  constructor <;> simp

theorem mayStay_cons_iff {oldest : Instant}
    (ht : now.add? (-.ofMillis o.recordMillis) = some oldest) :
    MayStay o oldest (r :: l) ↔ ¬ (tooOld o now r || tooMany o (l.length + 1)) = true := by
  have hold : tooOld o now r = true ↔ ¬ oldest < r.recorded := by
    rw [tooOld, ht, Option.any_some, decide_eq_true_iff, Instant.not_lt]
  have hmany : tooMany o (l.length + 1) = true ↔
      ¬ ∀ limit, o.maxRecords = some limit → (r :: l).length ≤ limit := by
    unfold tooMany
    cases o.maxRecords <;> simp
  rw [Bool.or_eq_true, hold, hmany, ← not_and_or, not_not]
  constructor
  · intro h
    exact ⟨h.young r rfl, h.few⟩
  · rintro ⟨hyoung, hfew⟩
    refine ⟨fun s hs => ?_, hfew⟩
    cases hs
    exact hyoung

/-- Whatever their order: as many of the last records are left as may stay. -/
theorem cleanUp_longest {oldest : Instant} (ht : now.add? (-.ofMillis o.recordMillis) = some oldest)
    (l : Records) :
    MayStay o oldest (l.cleanUp o now) ∧
      ∀ tail, tail <:+ l → MayStay o oldest tail → tail <:+ l.cleanUp o now := by
  induction l with
  | nil => exact ⟨mayStay_nil o oldest, fun tail htail _ => htail⟩
  | cons r rest ih =>
    rw [cleanUp]
    split
    · rename_i hdropped
      refine ⟨ih.1, fun tail htail hstays => ?_⟩
      rcases List.suffix_cons_iff.1 htail with rfl | htail
      · exact absurd hdropped ((mayStay_cons_iff ht).1 hstays)
      · exact ih.2 tail htail hstays
    · rename_i hkept
      exact ⟨(mayStay_cons_iff ht).2 hkept, fun tail htail _ => htail⟩

namespace Ordered

theorem nil (now : Instant) : Ordered [] now := by
  constructor <;> simp

theorem later (h : Ordered l now) (hle : now ≤ now') : Ordered l now' :=
  { h with past := fun r hr => Instant.le_trans (h.past r hr) hle }

theorem cleanUp (h : Ordered l now) (o : CommandOptions) : Ordered (l.cleanUp o now) now := by
  have hsuffix := cleanUp_suffix o now l
  constructor
  case distinct => exact nodup_cleanUp h.distinct o now
  case sorted => exact h.sorted.sublist hsuffix.sublist
  case past => exact fun r hr => h.past r (hsuffix.subset hr)

theorem insert (h : Ordered l now) (k : Name) (t : UInt64) : Ordered (l.insert k t now) now := by
  constructor
  case distinct => exact nodup_insert h.distinct k t now
  case sorted =>
    rcases insert_cases l k t now with ⟨-, -, -, hsame⟩ | ⟨-, hnew⟩
    · rw [hsame]
      exact h.sorted
    · rw [hnew, List.pairwise_append]
      refine ⟨h.sorted.sublist List.filter_sublist, List.pairwise_singleton _ _, ?_⟩
      intro r hr s hs
      rw [List.mem_singleton.1 hs]
      exact h.past r (List.mem_of_mem_filter hr)
  case past =>
    intro r hr
    rcases mem_insert hr with hr | rfl
    · exact h.past r hr
    · exact Instant.le_refl now

theorem apply (h : Ordered l now) (call : Call) : Ordered (call.apply l now) now := by
  cases call with
  | insert k t => exact h.insert k t
  | cleanUp o => exact h.cleanUp o

/-- A call leaves the record of a key, or it puts a later timestamp in its place. -/
theorem grows (h : Ordered l now) (hr : l.find? k = some r)
    (hr' : (call.apply l now').find? k = some r') : r' = r ∨ r.timestamp < r'.timestamp := by
  obtain ⟨hmem, hkey⟩ := find?_some hr'
  have hsame : r' ∈ l → r' = r := by
    intro hmem
    have hfound := find?_of_mem h.distinct hmem
    rw [hkey, hr] at hfound
    exact (Option.some.inj hfound).symm
  cases call with
  | cleanUp o => exact .inl (hsame ((cleanUp_suffix o now' l).subset hmem))
  | insert k' t =>
    have hins : r' ∈ l.insert k' t now' := hmem
    rcases insert_cases l k' t now' with ⟨-, -, -, heq⟩ | ⟨hlow, heq⟩
    · exact .inl (hsame (heq ▸ hins))
    · rw [heq, List.mem_append, List.mem_filter, List.mem_singleton] at hins
      rcases hins with ⟨hmem, -⟩ | rfl
      · exact .inl (hsame hmem)
      · right
        apply hlow
        rw [show k' = k from hkey]
        exact hr

end Ordered

theorem after_concat (calls : List (Instant × Call)) (now : Instant) (call : Call) :
    after (calls ++ [(now, call)]) = call.apply (after calls) now := by
  simp [after]

theorem ordered_after (h : calls.Pairwise (·.1 ≤ ·.1)) (hnow : ∀ c ∈ calls, c.1 ≤ now) :
    Ordered (after calls) now := by
  induction calls using List.reverseRecOn generalizing now with
  | nil => exact .nil now
  | append_singleton calls c ih =>
    obtain ⟨hcalls, -, hlast⟩ := List.pairwise_append.1 h
    have hbefore : Ordered (after calls) c.1 := ih hcalls fun d hd => hlast d hd c (by simp)
    rw [after_concat]
    exact (hbefore.apply c.2).later (hnow c (by simp))

theorem exists_ordered_after (h : calls.Pairwise (·.1 ≤ ·.1)) :
    ∃ now, Ordered (after calls) now := by
  induction calls using List.reverseRecOn with
  | nil => exact ⟨default, .nil _⟩
  | append_singleton calls c _ =>
    refine ⟨c.1, ordered_after h fun d hd => ?_⟩
    obtain ⟨-, -, hlast⟩ := List.pairwise_append.1 h
    rcases List.mem_append.1 hd with hd | hd
    · exact hlast d hd c (by simp)
    · rw [List.mem_singleton.1 hd]
      exact Instant.le_refl _

/-- As long as a key has a record, its timestamp only grows. -/
theorem grows_while_kept (h : (first ++ more).Pairwise (·.1 ≤ ·.1))
    (hr : (after first).find? k = some r)
    (hkept : ∀ part, part <+: more → ((after (first ++ part)).find? k).isSome)
    (hr' : (after (first ++ more)).find? k = some r') : r' = r ∨ r.timestamp < r'.timestamp := by
  induction more using List.reverseRecOn generalizing r' with
  | nil =>
    rw [List.append_nil, hr] at hr'
    exact .inl (Option.some.inj hr').symm
  | append_singleton more c ih =>
    -- Before the last call the key still has a record, by what is assumed of all beginnings.
    rw [← List.append_assoc] at h hr'
    have hbefore := (List.pairwise_append.1 h).1
    obtain ⟨s, hs⟩ := Option.isSome_iff_exists.1 (hkept more (List.prefix_append _ _))
    have hgrown :=
      ih hbefore (fun part hpart => hkept part (hpart.trans (List.prefix_append _ _))) hs
    obtain ⟨now, hordered⟩ := exists_ordered_after hbefore
    rw [after_concat] at hr'
    rcases hordered.grows hs hr' with rfl | hlt
    · exact hgrown
    · right
      rcases hgrown with rfl | hgrown
      · exact hlt
      · exact UInt64.lt_trans hgrown hlt

/-- At moments that do not go back each key has one record, and the oldest stands first; while a key
has a record, its timestamp only grows; and what a cleaning leaves are the last records that are not
too old. -/
theorem after_nodup_sorted_cleanUp (h : calls.Pairwise (·.1 ≤ ·.1)) :
    ((after calls).map (·.keyName)).Nodup ∧
      (after calls).Pairwise (·.recorded ≤ ·.recorded) ∧
      (∀ first more k r r', calls = first ++ more → (after first).find? k = some r →
        (∀ part, part <+: more → ((after (first ++ part)).find? k).isSome) →
          (after calls).find? k = some r' → r' = r ∨ r.timestamp < r'.timestamp) ∧
      ∀ o now, (after calls).cleanUp o now = last o (recent o now (after calls)) := by
  obtain ⟨now, hordered⟩ := exists_ordered_after h
  refine ⟨hordered.distinct, hordered.sorted, ?_, cleanUp_eq hordered.sorted⟩
  intro first more k r r' heq hr hkept hr'
  subst heq
  exact grows_while_kept h hr hkept hr'

/-- Two keys, of which one is recorded again: it goes to the back, and is the one that stays. -/
def sampleCalls : List (Instant × Call) :=
  [(⟨0, 0⟩, .insert ⟨[.generic [1]]⟩ 5), (⟨0, 0⟩, .insert ⟨[.generic [2]]⟩ 5),
    (⟨9, 0⟩, .insert ⟨[.generic [1]]⟩ 6), (⟨9, 0⟩, .insert ⟨[.generic [2]]⟩ 4)]

theorem after_nodup_sorted_cleanUp_sample :
    sampleCalls.Pairwise (·.1 ≤ ·.1) ∧
      after sampleCalls = [⟨⟨[.generic [2]]⟩, 5, ⟨0, 0⟩⟩, ⟨⟨[.generic [1]]⟩, 6, ⟨9, 0⟩⟩] ∧
      ((after sampleCalls).map (·.keyName)).Nodup ∧
      (after sampleCalls).cleanUp { maxRecords := some 1 } ⟨10, 0⟩ =
        last { maxRecords := some 1 } (recent { maxRecords := some 1 } ⟨10, 0⟩
          (after sampleCalls)) := by
  have hsteady : sampleCalls.Pairwise (·.1 ≤ ·.1) := by decide
  obtain ⟨hdistinct, -, -, hleft⟩ := after_nodup_sorted_cleanUp hsteady
  exact ⟨hsteady, by decide, hdistinct, hleft _ _⟩

end Records

end PacketTrust
