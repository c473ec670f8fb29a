import PacketTrust.Proofs.Time.Clock
import PacketTrust.Proofs.Validation.Verdicts

/-! The policy at a place of a chain. When the chain is asked, the policy there is asked once or not
at all, at some later reading of the clock, and no other policy speaks for it. -/

namespace PacketTrust

namespace Policy

/-- A policy of an application leaves callbacks only; what other policies record is not in its
reach. -/
def Discreet : Policy → Prop
  | custom rule _ => ∀ calls s place k t, .record place k t ∉ (rule calls s).2
  | _ => True

variable {p : Policy} {clock : Clock} {place : Nat} {s : Subject}

theorem check_clock (p : Policy) (clock : Clock) (place : Nat) (s : Subject) :
    (p.check clock place s).2.2.Follows clock := by
  cases p with
  | command o records =>
    cases s with
    | interest i =>
      cases hi : commandParts i with
      | error e => rw [check_unreadable hi]; exact .refl _
      | ok parts => rw [check_readable hi]; exact (Clock.Follows.refl _).next.next
    | _ => exact .refl _
  | _ => exact .refl _

theorem check_discreet (h : p.Discreet) : (p.check clock place s).2.1.Discreet := by
  cases p with
  | command o records =>
    cases s with
    | interest i =>
      cases hi : commandParts i with
      | error e => rw [check_unreadable hi]; trivial
      | ok parts => rw [check_readable hi]; trivial
    | _ => trivial
  | custom rule calls => exact h
  | _ => trivial

/-- What a policy leaves to be recorded is left for its own place. -/
theorem check_hooks (h : p.Discreet) {q : Nat} {k : Name} {t : UInt64}
    (hq : .record q k t ∈ (p.check clock place s).1.2) : q = place := by
  cases p with
  | command o records =>
    cases s with
    | interest i =>
      cases hi : commandParts i with
      | error e => rw [check_unreadable hi] at hq; cases hq
      | ok parts =>
        rw [check_readable hi] at hq
        rcases checkTimestamp_cases o (records.cleanUp o clock.now) clock.next.now place _ _
          with ⟨e, hr⟩ | ⟨hr, -⟩
        · rw [hr] at hq
          cases hq
        · rw [hr] at hq
          injection List.mem_singleton.1 hq
    | _ => cases hq
  | custom rule calls => exact absurd hq (h calls s q k t)
  | _ => cases hq

theorem record_discreet {k : Name} {t : UInt64} {now : Instant} (h : p.Discreet) :
    (p.record k t now).Discreet := by
  cases p <;> exact h

theorem cleanUp_discreet {now : Instant} (h : p.Discreet) : (p.cleanUp now).Discreet := by
  cases p <;> exact h

end Policy

namespace PolicyChain

/-- The verdict of the policy so many places ahead, if the chain asks it. -/
def answerAt (s : Subject) : (clock : Clock) → (place ahead : Nat) → PolicyChain → Option Verdict
  | _, _, _, [] => none
  | clock, place, 0, p :: _ => some (p.check clock place s).1.1
  | clock, place, ahead + 1, p :: rest =>
    match p.check clock place s with
    | ((.pass, _), _, clock) => answerAt s clock (place + 1) ahead rest
    | _ => none

section

variable {p : Policy} {rest chain : PolicyChain} {clock : Clock} {place : Nat} {s : Subject}

theorem modify_discreet {f : Policy → Policy} (h : ∀ p ∈ chain, p.Discreet)
    (hf : ∀ p, p.Discreet → (f p).Discreet) (n : Nat) : ∀ p ∈ chain.modify n f, p.Discreet := by
  intro p hp
  obtain ⟨i, hi⟩ := List.mem_iff_getElem?.1 hp
  rw [List.getElem?_modify] at hi
  obtain ⟨q, hq, rfl⟩ := Option.map_eq_some_iff.1 hi
  have hqd := h q (List.mem_iff_getElem?.2 ⟨i, hq⟩)
  split
  · exact hf q hqd
  · exact hqd

theorem checkFrom_of_pass (h : (p.check clock place s).1.1 = .pass) :
    checkFrom s clock place (p :: rest) =
      (((checkFrom s (p.check clock place s).2.2 (place + 1) rest).1.1,
        (p.check clock place s).1.2 ++
          (checkFrom s (p.check clock place s).2.2 (place + 1) rest).1.2),
        (p.check clock place s).2.1 ::
          (checkFrom s (p.check clock place s).2.2 (place + 1) rest).2.1,
        (checkFrom s (p.check clock place s).2.2 (place + 1) rest).2.2) := by
  rw [checkFrom]
  generalize p.check clock place s = answer at h
  obtain ⟨⟨verdict, hooks⟩, p', clock'⟩ := answer
  cases h
  rfl

theorem checkFrom_of_ne_pass (h : (p.check clock place s).1.1 ≠ .pass) :
    checkFrom s clock place (p :: rest) =
      ((p.check clock place s).1, (p.check clock place s).2.1 :: rest,
        (p.check clock place s).2.2) := by
  rw [checkFrom]
  generalize p.check clock place s = answer at h
  obtain ⟨⟨verdict, hooks⟩, p', clock'⟩ := answer
  cases verdict with
  | pass => exact absurd rfl h
  | _ => rfl

theorem answerAt_of_pass {ahead : Nat} (h : (p.check clock place s).1.1 = .pass) :
    answerAt s clock place (ahead + 1) (p :: rest) =
      answerAt s (p.check clock place s).2.2 (place + 1) ahead rest := by
  rw [answerAt]
  generalize p.check clock place s = answer at h
  obtain ⟨⟨verdict, hooks⟩, p', clock'⟩ := answer
  cases h
  rfl

theorem answerAt_of_ne_pass {ahead : Nat} (h : (p.check clock place s).1.1 ≠ .pass) :
    answerAt s clock place (ahead + 1) (p :: rest) = none := by
  rw [answerAt]
  generalize p.check clock place s = answer at h
  obtain ⟨⟨verdict, hooks⟩, p', clock'⟩ := answer
  cases verdict with
  | pass => exact absurd rfl h
  | _ => rfl

theorem checkFrom_clock (s : Subject) (clock : Clock) (place : Nat) (chain : PolicyChain) :
    (checkFrom s clock place chain).2.2.Follows clock := by
  induction chain generalizing clock place with
  | nil => exact .refl _
  | cons p rest ih =>
    by_cases hp : (p.check clock place s).1.1 = .pass
    · rw [checkFrom_of_pass hp]
      exact (ih _ _).trans (Policy.check_clock ..)
    · rw [checkFrom_of_ne_pass hp]
      exact Policy.check_clock ..

theorem checkFrom_discreet (h : ∀ p ∈ chain, p.Discreet) :
    ∀ p ∈ (checkFrom s clock place chain).2.1, p.Discreet := by
  induction chain generalizing clock place with
  | nil => simp [checkFrom]
  | cons p rest ih =>
    obtain ⟨hp, hrest⟩ := List.forall_mem_cons.1 h
    by_cases hpass : (p.check clock place s).1.1 = .pass
    · rw [checkFrom_of_pass hpass]
      exact List.forall_mem_cons.2 ⟨Policy.check_discreet hp, ih hrest⟩
    · rw [checkFrom_of_ne_pass hpass]
      exact List.forall_mem_cons.2 ⟨Policy.check_discreet hp, hrest⟩

theorem checkFrom_hooks (h : ∀ p ∈ chain, p.Discreet) {q : Nat} {k : Name} {t : UInt64}
    (hq : .record q k t ∈ (checkFrom s clock place chain).1.2) : place ≤ q := by
  induction chain generalizing clock place with
  | nil => cases hq
  | cons p rest ih =>
    obtain ⟨hp, hrest⟩ := List.forall_mem_cons.1 h
    by_cases hpass : (p.check clock place s).1.1 = .pass
    · rw [checkFrom_of_pass hpass, List.mem_append] at hq
      rcases hq with hq | hq
      · exact Nat.le_of_eq (Policy.check_hooks hp hq).symm
      · exact Nat.le_of_succ_le (ih hrest hq)
    · rw [checkFrom_of_ne_pass hpass] at hq
      exact Nat.le_of_eq (Policy.check_hooks hp hq).symm

/-- The policy ahead is left alone, or asked at a later reading; nothing else is left for its
place. -/
theorem checkFrom_at (s : Subject) (clock : Clock) (place : Nat) {ahead : Nat}
    (h : ∀ p ∈ chain, p.Discreet) (hp : chain[ahead]? = some p) :
    (answerAt s clock place ahead chain = none ∧
      (checkFrom s clock place chain).2.1[ahead]? = some p ∧
      ∀ k t, .record (place + ahead) k t ∉ (checkFrom s clock place chain).1.2) ∨
    ∃ clock' : Clock, clock'.Follows clock ∧
      answerAt s clock place ahead chain = some (p.check clock' (place + ahead) s).1.1 ∧
      (checkFrom s clock place chain).2.1[ahead]? =
        some (p.check clock' (place + ahead) s).2.1 ∧
      (checkFrom s clock place chain).2.2.Follows (p.check clock' (place + ahead) s).2.2 ∧
      ∀ k t, .record (place + ahead) k t ∈ (checkFrom s clock place chain).1.2 ↔
        .record (place + ahead) k t ∈ (p.check clock' (place + ahead) s).1.2 := by
  induction chain generalizing clock place ahead with
  | nil => cases hp
  | cons first rest ih =>
    obtain ⟨hfirst, hrest⟩ := List.forall_mem_cons.1 h
    cases ahead with
    | zero =>
      obtain rfl : first = p := by simpa using hp
      refine .inr ⟨clock, .refl _, rfl, ?_⟩
      by_cases hpass : (first.check clock place s).1.1 = .pass
      · rw [checkFrom_of_pass hpass]
        refine ⟨rfl, checkFrom_clock .., fun k t => ?_⟩
        rw [List.mem_append]
        refine ⟨fun hk => hk.elim id fun hk => ?_, .inl⟩
        -- The policies behind this one record for places behind its own.
        have := checkFrom_hooks hrest hk
        omega
      · rw [checkFrom_of_ne_pass hpass]
        exact ⟨rfl, .refl _, fun k t => Iff.rfl⟩
    | succ ahead =>
      have hplace : place + (ahead + 1) = place + 1 + ahead := by omega
      have hother : ∀ k t, .record (place + (ahead + 1)) k t ∉ (first.check clock place s).1.2 := by
        intro k t hk
        -- The policy in front records for its own place only.
        have := Policy.check_hooks hfirst hk
        omega
      by_cases hpass : (first.check clock place s).1.1 = .pass
      · rw [checkFrom_of_pass hpass, answerAt_of_pass hpass]
        rw [hplace] at hother ⊢
        rcases ih (first.check clock place s).2.2 (place + 1) hrest (by simpa using hp) with
          ⟨hnone, hsame, hhooks⟩ | ⟨clock', hlater, hanswer, hnew, hclock, hhooks⟩
        · refine .inl ⟨hnone, hsame, fun k t hk => ?_⟩
          exact (List.mem_append.1 hk).elim (hother k t) (hhooks k t)
        · refine .inr ⟨clock', hlater.trans (Policy.check_clock ..), hanswer, hnew, hclock, ?_⟩
          intro k t
          rw [List.mem_append, ← hhooks k t]
          exact ⟨fun hk => hk.elim (absurd · (hother k t)) id, .inr⟩
      · rw [checkFrom_of_ne_pass hpass, answerAt_of_ne_pass hpass]
        exact .inl ⟨rfl, by simpa using hp, hother⟩

end

end PolicyChain

end PacketTrust
