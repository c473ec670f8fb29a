import Mathlib.Data.Finset.Card
import Mathlib.Data.List.Dedup
import PacketTrust.Proofs.Time.Clock
import PacketTrust.Proofs.Validation.Verdicts

/-! What the records of timestamps keep. A timestamp that was recorded is kept under a record at
least as great, or it lies too far back to pass again. Main statement: a timestamp that passes is
later than all that were recorded for its key. -/

namespace PacketTrust

namespace Records

variable {o : CommandOptions} {l : Records} {now : Instant} {k : Name} {t : UInt64}

theorem find?_some {r : TimestampRecord} (h : l.find? k = some r) : r ∈ l ∧ r.keyName = k :=
  ⟨List.mem_of_find?_eq_some h, by simpa using List.find?_some h⟩

theorem find?_of_mem {r : TimestampRecord} (hd : (l.map (·.keyName)).Nodup) (h : r ∈ l) :
    l.find? r.keyName = some r := by
  cases hfound : l.find? r.keyName with
  | none =>
    have hall : ∀ s ∈ l, s.keyName ≠ r.keyName := by simpa [find?] using hfound
    exact absurd rfl (hall r h)
  | some s =>
    obtain ⟨hs, hkey⟩ := find?_some hfound
    rw [List.inj_on_of_nodup_map hd hs h hkey]

theorem cleanUp_suffix (o : CommandOptions) (now : Instant) (l : Records) :
    l.cleanUp o now <:+ l := by
  induction l with
  | nil => exact List.suffix_refl _
  | cons r rest ih =>
    rw [cleanUp]
    split
    · exact ih.trans (List.suffix_cons _ _)
    · exact List.suffix_refl _

theorem nodup_cleanUp (hd : (l.map (·.keyName)).Nodup) (o : CommandOptions) (now : Instant) :
    ((l.cleanUp o now).map (·.keyName)).Nodup :=
  hd.sublist ((cleanUp_suffix o now l).sublist.map _)

/-- Of few enough records only those are dropped that are too old. -/
theorem mem_cleanUp_or_tooOld {r : TimestampRecord} (now : Instant)
    (hfew : ∀ limit, o.maxRecords = some limit → l.length ≤ limit) (h : r ∈ l) :
    r ∈ l.cleanUp o now ∨ tooOld o now r := by
  induction l with
  | nil => cases h
  | cons s rest ih =>
    have hmany : tooMany o (rest.length + 1) = false := by
      cases hm : o.maxRecords with
      | none => simp [tooMany, hm]
      | some limit => simpa [tooMany, hm] using hfew limit hm
    rw [cleanUp, hmany, Bool.or_false]
    split
    · rename_i hold
      rcases List.mem_cons.1 h with rfl | h
      · exact .inr hold
      · exact ih (fun limit hlimit => Nat.le_of_succ_le (hfew limit hlimit)) h
    · exact .inl h

theorem tooOld_recorded {r : TimestampRecord} (hr : ¬ r.recorded.Leap) (hnow : ¬ now.Leap)
    (h : tooOld o now r) : r.recorded.toMillis ≤ now.toMillis - o.recordMillis := by
  unfold tooOld at h
  cases ht : now.add? (-.ofMillis o.recordMillis) with
  | none => simp [ht] at h
  | some t =>
    have hle : r.recorded.toMillis ≤ t.toMillis := by
      simp only [ht, Option.any_some, decide_eq_true_eq] at h
      exact Instant.toMillis_le hr h
    rw [Instant.toMillis_of_add? hnow ht (Int.neg_mul _ _).symm] at hle
    omega

/-- A timestamp that is recorded replaces a lower one of its key, and is not recorded over a
higher. -/
theorem insert_cases (l : Records) (k : Name) (t : UInt64) (now : Instant) :
    (∃ r, l.find? k = some r ∧ t ≤ r.timestamp ∧ l.insert k t now = l) ∨
      ((∀ r, l.find? k = some r → r.timestamp < t) ∧
        l.insert k t now = l.filter (·.keyName ≠ k) ++ [⟨k, t, now⟩]) := by
  unfold insert
  cases hr : l.find? k with
  | none =>
    refine .inr ⟨by simp, ?_⟩
    have hall : ∀ r ∈ l, decide (r.keyName ≠ k) := by
      simpa [find?] using hr
    rw [List.filter_eq_self.2 hall]
  | some r =>
    dsimp only
    split
    · rename_i hle
      exact .inl ⟨r, rfl, hle, rfl⟩
    · rename_i hlt
      exact .inr ⟨fun r' hr' => Option.some.inj hr' ▸ UInt64.not_le.1 hlt, rfl⟩

theorem mem_insert {r : TimestampRecord} (h : r ∈ l.insert k t now) : r ∈ l ∨ r = ⟨k, t, now⟩ := by
  rcases insert_cases l k t now with ⟨-, -, -, hsame⟩ | ⟨-, hnew⟩
  · rw [hsame] at h
    exact .inl h
  · rw [hnew, List.mem_append, List.mem_singleton] at h
    exact h.imp_left List.mem_of_mem_filter

theorem nodup_insert (hd : (l.map (·.keyName)).Nodup) (k : Name) (t : UInt64) (now : Instant) :
    ((l.insert k t now).map (·.keyName)).Nodup := by
  rcases insert_cases l k t now with ⟨-, -, -, hsame⟩ | ⟨-, hnew⟩
  · rw [hsame]
    exact hd
  · rw [hnew, List.map_append]
    exact (hd.sublist (List.filter_sublist.map _)).append (List.nodup_singleton _) (by simp)

theorem exists_insert_le (l : Records) (k : Name) (t : UInt64) (now : Instant) :
    ∃ r ∈ l.insert k t now, r.keyName = k ∧ t ≤ r.timestamp := by
  rcases insert_cases l k t now with ⟨r, hr, hle, hsame⟩ | ⟨-, hnew⟩
  · obtain ⟨hmem, hkey⟩ := find?_some hr
    exact ⟨r, hsame.symm ▸ hmem, hkey, hle⟩
  · exact ⟨⟨k, t, now⟩, by simp [hnew], rfl, UInt64.le_refl _⟩

/-- A timestamp that is covered by a record of its key stays covered, whatever is recorded. -/
theorem exists_insert_le_of_exists {k' : Name} {t' : UInt64} (hd : (l.map (·.keyName)).Nodup)
    (h : ∃ r ∈ l, r.keyName = k' ∧ t' ≤ r.timestamp) :
    ∃ r ∈ l.insert k t now, r.keyName = k' ∧ t' ≤ r.timestamp := by
  obtain ⟨r, hr, rfl, ht⟩ := h
  rcases insert_cases l k t now with ⟨-, -, -, hsame⟩ | ⟨hlow, hnew⟩
  · exact ⟨r, hsame.symm ▸ hr, rfl, ht⟩
  · by_cases hk : r.keyName = k
    · -- the record of the key gives way to a later one
      have hlt := hlow r (hk ▸ find?_of_mem hd hr)
      exact ⟨⟨k, t, now⟩, by simp [hnew], hk.symm, UInt64.le_trans ht (UInt64.le_of_lt hlt)⟩
    · exact ⟨r, by simp [hnew, hr, hk], rfl, ht⟩

end Records

/-- The timestamps of keys that passed, and those that were recorded, against what the records
keep. -/
structure Kept (o : CommandOptions) (records : Records) (clock : Clock)
    (passed recorded : List (Name × UInt64)) : Prop where
  distinct : (records.map (·.keyName)).Nodup
  known : ∀ r ∈ records, ∃ e ∈ recorded, e.1 = r.keyName
  near : ∀ r ∈ records, r.timestamp.toNat ≤ r.recorded.toMillis + o.graceMillis
  plain : ∀ r ∈ records, ¬ r.recorded.Leap
  due : ∀ e ∈ passed, e.2.toNat ≤ clock.now.toMillis + o.graceMillis
  /-- What was recorded is still covered by a record, or it is too old to pass. -/
  covered : ∀ e ∈ recorded, (∃ r ∈ records, r.keyName = e.1 ∧ e.2 ≤ r.timestamp) ∨
    e.2.toNat < clock.now.toMillis - o.graceMillis

namespace Kept

variable {o : CommandOptions} {records : Records} {clock clock' : Clock}
  {passed recorded : List (Name × UInt64)}

theorem start (o : CommandOptions) (clock : Clock) : Kept o [] clock [] [] := by
  constructor <;> simp

theorem later (h : Kept o records clock passed recorded) (hs : clock.Steady)
    (hleap : clock.Leapless)
    (hc : clock'.Follows clock) : Kept o records clock' passed recorded := by
  have hle := hs.toMillis_now_le hleap hc
  refine { h with due := fun e he => ?_, covered := fun e he => ?_ }
  · have := h.due e he
    omega
  · exact (h.covered e he).imp id fun hold => by omega

/-- Each record is of a key of its own, so there are no more of them than keys. -/
theorem length_le (h : Kept o records clock passed recorded) :
    records.length ≤ (recorded.map Prod.fst).toFinset.card := by
  rw [← List.length_map (·.keyName), ← List.toFinset_card_of_nodup h.distinct]
  apply Finset.card_le_card
  intro k hk
  simp only [List.mem_toFinset, List.mem_map] at hk ⊢
  obtain ⟨r, hr, rfl⟩ := hk
  exact h.known r hr

theorem cleanUp (h : Kept o records clock passed recorded) (hleap : clock.Leapless)
    (hlong : 2 * o.graceMillis < o.recordMillis)
    (hfew : ∀ limit, o.maxRecords = some limit → records.length ≤ limit) :
    Kept o (records.cleanUp o clock.now) clock passed recorded := by
  have hsub : ∀ r ∈ records.cleanUp o clock.now, r ∈ records := fun r hr =>
    (Records.cleanUp_suffix o clock.now records).subset hr
  refine { h with
    distinct := Records.nodup_cleanUp h.distinct o clock.now
    known := fun r hr => h.known r (hsub r hr)
    near := fun r hr => h.near r (hsub r hr)
    plain := fun r hr => h.plain r (hsub r hr)
    covered := fun e he => ?_ }
  rcases h.covered e he with ⟨r, hr, hk, ht⟩ | hold
  · rcases Records.mem_cleanUp_or_tooOld clock.now hfew hr with hkept | hold
    · exact .inl ⟨r, hkept, hk, ht⟩
    · -- It is older than two periods of grace, and its timestamp was one ahead of it at most.
      have hrecorded : r.recorded.toMillis ≤ clock.now.toMillis - o.recordMillis :=
        Records.tooOld_recorded (h.plain r hr) (hleap _) hold
      have hnear := h.near r hr
      have hle : e.2.toNat ≤ r.timestamp.toNat := ht
      right
      omega
  · exact .inr hold

/-- A timestamp that passes is later than all that were recorded for its key. -/
theorem lt_of_pass (h : Kept o records clock passed recorded) {place : Nat} {k : Name}
    {t t' : UInt64} {hooks : List Hook}
    (hp : Policy.checkTimestamp o records clock.now place k t = (.pass, hooks))
    (he : (k, t') ∈ recorded) : t' < t := by
  rcases Policy.checkTimestamp_cases o records clock.now place k t with
    ⟨e, hr⟩ | ⟨-, hfrom, -, habove⟩
  · rw [hr] at hp
    cases hp
  · rcases h.covered _ he with ⟨r, hr, rfl, hle⟩ | hold
    · have hlt := habove r (Records.find?_of_mem h.distinct hr)
      exact UInt64.lt_of_le_of_lt hle hlt
    · rw [UInt64.lt_iff_toNat_lt]
      have hold' : (t'.toNat : Int) < clock.now.toMillis - o.graceMillis := hold
      omega

theorem pass (h : Kept o records clock passed recorded) {place : Nat} {k : Name} {t : UInt64}
    {hooks : List Hook}
    (hp : Policy.checkTimestamp o records clock.now place k t = (.pass, hooks)) :
    Kept o records clock ((k, t) :: passed) recorded := by
  rcases Policy.checkTimestamp_cases o records clock.now place k t with
    ⟨e, hr⟩ | ⟨-, -, hto, -⟩
  · rw [hr] at hp
    cases hp
  · exact { h with due := List.forall_mem_cons.2 ⟨hto, h.due⟩ }

/-- The policy is asked about a subject: either a command passes that is later than all that were
recorded for its key, or nothing is left to be recorded. -/
theorem check (h : Kept o records clock passed recorded) (hs : clock.Steady)
    (hleap : clock.Leapless) (hlong : 2 * o.graceMillis < o.recordMillis)
    (hfew : ∀ limit, o.maxRecords = some limit → records.length ≤ limit) (place : Nat)
    (s : Subject) :
    ∃ verdict hooks records' clock', (Policy.command o records).check clock place s =
        ((verdict, hooks), .command o records', clock') ∧
      ((∃ i k t, s = .interest i ∧ Policy.commandParts i = .ok (k, t) ∧ verdict = .pass ∧
          hooks = [.record place k t] ∧ Kept o records' clock' ((k, t) :: passed) recorded ∧
          ∀ t', (k, t') ∈ recorded → t' < t) ∨
        (∀ i k t, s = .interest i → Policy.commandParts i = .ok (k, t) → verdict ≠ .pass) ∧
          hooks = [] ∧ Kept o records' clock' passed recorded) := by
  cases s with
  | data d => exact ⟨_, _, _, _, rfl, .inr ⟨fun _ _ _ => Subject.noConfusion, rfl, h⟩⟩
  | certificate c => exact ⟨_, _, _, _, rfl, .inr ⟨fun _ _ _ => Subject.noConfusion, rfl, h⟩⟩
  | interest i =>
    cases hi : Policy.commandParts i with
    | error e =>
      refine ⟨_, _, _, _, Policy.check_unreadable hi, .inr ⟨fun _ _ _ hsame hparts => ?_, rfl, h⟩⟩
      cases hsame
      rw [hi] at hparts
      cases hparts
    | ok parts =>
      obtain ⟨k, t⟩ := parts
      have hnext := (Clock.Follows.refl clock).next
      have hclean := (h.cleanUp hleap hlong hfew).later hs hleap hnext
      have hs' := hs.of_follows hnext
      have hleap' := hleap.of_follows hnext
      rw [Policy.check_readable hi]
      rcases Policy.checkTimestamp_cases o (records.cleanUp o clock.now) clock.next.now place k t
        with ⟨e, hr⟩ | ⟨hr, -⟩
      · refine ⟨.reject e, [], _, _, by rw [hr], .inr ⟨by simp, rfl, ?_⟩⟩
        exact hclean.later hs' hleap' (Clock.Follows.refl _).next
      · refine ⟨.pass, _, _, _, by rw [hr], .inl ⟨i, k, t, rfl, hi, rfl, rfl, ?_, fun t' ht' => ?_⟩⟩
        · exact (hclean.pass hr).later hs' hleap' (Clock.Follows.refl _).next
        · exact hclean.lt_of_pass hr ht'

theorem record (h : Kept o records clock passed recorded) (hleap : clock.Leapless) {k : Name}
    {t : UInt64} (hp : (k, t) ∈ passed) :
    Kept o (records.insert k t clock.now) clock passed ((k, t) :: recorded) := by
  constructor
  case distinct => exact Records.nodup_insert h.distinct k t clock.now
  case known =>
    intro r hr
    rcases Records.mem_insert hr with hr | rfl
    · obtain ⟨e, he, hek⟩ := h.known r hr
      exact ⟨e, List.mem_cons_of_mem _ he, hek⟩
    · exact ⟨(k, t), List.mem_cons_self, rfl⟩
  case near =>
    intro r hr
    rcases Records.mem_insert hr with hr | rfl
    · exact h.near r hr
    · exact h.due (k, t) hp
  case plain =>
    intro r hr
    rcases Records.mem_insert hr with hr | rfl
    · exact h.plain r hr
    · exact hleap clock.readings
  case due => exact h.due
  case covered =>
    refine List.forall_mem_cons.2 ⟨.inl (Records.exists_insert_le records k t clock.now), ?_⟩
    exact fun e he => (h.covered e he).imp_left (Records.exists_insert_le_of_exists h.distinct)

end Kept

end PacketTrust
