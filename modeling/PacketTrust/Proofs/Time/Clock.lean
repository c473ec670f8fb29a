import PacketTrust.Time.Clock

/-! Clocks that never go back, and the order of what they show. -/

namespace PacketTrust

namespace Instant

variable {a b t u : Instant} {ns : Int} {span : Span}

theorem le_of_toNanos_le (ha : ¬ a.Leap) (hb : ¬ b.Leap) (h : a.toNanos ≤ b.toNanos) : a ≤ b := by
  rw [le_def]
  simp only [Leap, toNanos] at *
  omega

/-- Out of leap seconds, moments are ordered by their milliseconds. -/
theorem toMillis_le (ha : ¬ a.Leap) (h : a ≤ b) : a.toMillis ≤ b.toMillis := by
  rw [le_def] at h
  simp only [Leap, toMillis] at *
  omega

theorem ofNanos?_some (h : ofNanos? ns = some t) : t = ofNanos ns := by
  unfold ofNanos? at h
  split at h
  · injection h with h
    exact h.symm
  · cases h

/-- A moment some nanoseconds after a moment out of leap seconds. -/
theorem add?_of_not_leap (h : ¬ t.Leap) :
    t.add? span = ofNanos? (t.toNanos + span.nanoseconds) := if_pos h

theorem toMillis_of_add? {ms : Int} (ht : ¬ t.Leap) (h : t.add? span = some u)
    (hspan : span.nanoseconds = ms * 1000000) : u.toMillis = t.toMillis + ms := by
  rw [add?_of_not_leap ht] at h
  rw [ofNanos?_some h, toMillis_eq, toMillis_eq, toNanos_ofNanos]
  omega

/-- A moment that much later is not earlier. -/
theorem le_of_add? (h : t.add? span = some u) (hspan : 0 ≤ span.nanoseconds) : t ≤ u := by
  have hlater : ∀ ns, ofNanos? ns = some u → t.second < ns / 1000000000 ∨ ¬ t.Leap ∧
      t.toNanos ≤ ns → t ≤ u := by
    rintro ns hu (hlt | ⟨hleap, hle⟩)
    · obtain rfl := ofNanos?_some hu
      exact .inl hlt
    · obtain rfl := ofNanos?_some hu
      apply le_of_toNanos_le hleap (not_leap_ofNanos ns)
      rwa [toNanos_ofNanos]
  unfold Instant.add? at h
  dsimp only at h
  by_cases hleap : ¬ t.Leap
  · rw [if_pos hleap] at h
    exact hlater _ h (.inr ⟨hleap, by omega⟩)
  rw [if_neg hleap] at h
  split at h
  · -- The way leads on out of the leap second, so at least to the beginning of the next second.
    refine hlater _ h (.inl ?_)
    simp only [toNanos]
    omega
  · rw [if_neg (by omega)] at h
    injection h with h
    subst h
    rw [le_def]
    dsimp only
    omega

end Instant

namespace Clock

variable {c c' c'' : Clock}

/-- The readings never go back. -/
def Steady (c : Clock) : Prop := ∀ n, c.shows n ≤ c.shows (n + 1)

/-- No reading falls into a leap second. -/
def Leapless (c : Clock) : Prop := ∀ n, ¬ (c.shows n).Leap

/-- This clock is the other one, read some times more. -/
def Follows (c' c : Clock) : Prop :=
  ∃ n, c' = { c with readings := c.readings + n }

theorem Follows.refl (c : Clock) : c.Follows c := ⟨0, rfl⟩

theorem Follows.next (h : c'.Follows c) : c'.next.Follows c := by
  obtain ⟨n, rfl⟩ := h
  exact ⟨n + 1, rfl⟩

theorem Follows.trans (h : c''.Follows c') (h' : c'.Follows c) : c''.Follows c := by
  obtain ⟨n, rfl⟩ := h'
  obtain ⟨m, rfl⟩ := h
  exact ⟨n + m, by rw [Nat.add_assoc]⟩

theorem Steady.of_follows (h : c.Steady) (hc : c'.Follows c) : c'.Steady := by
  obtain ⟨n, rfl⟩ := hc
  exact h

theorem Leapless.of_follows (h : c.Leapless) (hc : c'.Follows c) : c'.Leapless := by
  obtain ⟨n, rfl⟩ := hc
  exact h

theorem Steady.now_le (h : c.Steady) (hc : c'.Follows c) : c.now ≤ c'.now := by
  obtain ⟨n, rfl⟩ := hc
  induction n with
  | zero => exact Instant.le_refl _
  | succ n ih => exact Instant.le_trans ih (h (c.readings + n))

theorem Steady.toMillis_now_le (h : c.Steady) (hleap : c.Leapless) (hc : c'.Follows c) :
    c.now.toMillis ≤ c'.now.toMillis := Instant.toMillis_le (hleap c.readings) (h.now_le hc)

theorem leapless_running (t : Instant) : (running t).Leapless := fun _ => Instant.not_leap_ofNanos _

theorem steady_running (t : Instant) : (running t).Steady := by
  intro n
  refine Instant.le_of_toNanos_le (leapless_running t n) (leapless_running t (n + 1)) ?_
  simp only [running, Instant.ofMillis, Instant.toNanos_ofNanos]
  omega

end Clock

end PacketTrust
