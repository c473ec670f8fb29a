import PacketTrust.Validation.Policy

/-! What the verdicts of the policies rest on: the timestamps that the policy on command Interests
lets pass, and the certificates that the hierarchy asks for. -/

namespace PacketTrust

def Subject.keyName : Subject → Except ValidationError Name
  | data d => d.signature.info.keyName
  | interest i => i.keyName
  | certificate c => c.data.signature.info.keyName

def Subject.kind : Subject → String
  | data _ | certificate _ => "Data"
  | interest _ => "Interest"

def Subject.Asks (s : Subject) (r : CertificateRequest) : Prop :=
  ∃ k, s.keyName = .ok k ∧ s.name.startsWith (k.take (-2)) ∧ r = .ofName k

namespace Policy

/-- The hierarchy asks for a certificate of the key that was told, if this key may sign. -/
theorem checkHierarchy_cases (kind : String) (n : Name) (keyName : Except ValidationError Name) :
    (∃ k, keyName = .ok k ∧ n.startsWith (k.take (-2)) ∧
      checkHierarchy kind n keyName = .request (.ofName k)) ∨
    ∃ e, checkHierarchy kind n keyName = .reject e := by
  unfold checkHierarchy
  cases keyName with
  | error e => exact .inr ⟨e, rfl⟩
  | ok k =>
    by_cases h : n.startsWith (k.take (-2))
    · exact .inl ⟨k, rfl, h, if_pos h⟩
    · exact .inr ⟨_, if_neg h⟩

theorem checkHierarchy_asks (kind : String) (s : Subject) :
    checkHierarchy kind s.name s.keyName ≠ .accept ∧
      ∀ r, checkHierarchy kind s.name s.keyName = .request r → s.Asks r := by
  rcases checkHierarchy_cases kind s.name s.keyName with ⟨k, hk, hn, h⟩ | ⟨e, h⟩
  · rw [h]
    refine ⟨nofun, fun r hr => ⟨k, hk, hn, ?_⟩⟩
    injection hr with hr
    exact hr.symm
  · rw [h]
    exact ⟨nofun, nofun⟩

theorem check_hierarchy (clock : Clock) (place : Nat) (s : Subject) :
    hierarchy.check clock place s =
      ((checkHierarchy s.kind s.name s.keyName, []), hierarchy, clock) := by
  cases s <;> rfl

/-- A timestamp passes if it is near the clock and above what is recorded; then it is to be
recorded. -/
theorem checkTimestamp_cases (o : CommandOptions) (records : Records) (now : Instant)
    (place : Nat) (k : Name) (t : UInt64) :
    (∃ e, checkTimestamp o records now place k t = (.reject e, [])) ∨
      checkTimestamp o records now place k t = (.pass, [.record place k t]) ∧
        now.toMillis - o.graceMillis ≤ t.toNat ∧ t.toNat ≤ now.toMillis + o.graceMillis ∧
        ∀ r, records.find? k = some r → r.timestamp < t := by
  unfold checkTimestamp
  dsimp only
  split
  · exact .inl ⟨_, rfl⟩
  rename_i hnear
  split
  · exact .inl ⟨_, rfl⟩
  rename_i habove
  refine .inr ⟨rfl, by omega, by omega, fun r hr => ?_⟩
  rw [hr, Option.any_some, decide_eq_true_eq] at habove
  exact UInt64.not_le.1 habove

section

variable {o : CommandOptions} {records : Records} {clock : Clock} {place : Nat} {i : Interest}

theorem check_unreadable {e : ValidationError} (h : commandParts i = .error e) :
    (command o records).check clock place (.interest i) =
      ((.reject e, []), command o records, clock) := by
  simp only [check, h]

theorem check_readable {k : Name} {t : UInt64} (h : commandParts i = .ok (k, t)) :
    (command o records).check clock place (.interest i) =
      (checkTimestamp o (records.cleanUp o clock.now) clock.next.now place k t,
        command o (records.cleanUp o clock.now), clock.next.next) := by
  simp only [check, h]

end

/-- The policy on command Interests decides nothing but to reject. -/
theorem check_command (o : CommandOptions) (records : Records) (clock : Clock) (place : Nat)
    (s : Subject) :
    ∃ verdict hooks records' clock', (command o records).check clock place s =
      ((verdict, hooks), command o records', clock') ∧
      (verdict = .pass ∨ ∃ e, verdict = .reject e) := by
  cases s with
  | data d => exact ⟨_, _, _, _, rfl, .inl rfl⟩
  | certificate c => exact ⟨_, _, _, _, rfl, .inl rfl⟩
  | interest i =>
    cases hi : commandParts i with
    | error e => exact ⟨_, _, _, _, check_unreadable hi, .inr ⟨e, rfl⟩⟩
    | ok parts =>
      rw [check_readable hi]
      rcases checkTimestamp_cases o (records.cleanUp o clock.now) clock.next.now place _ _
        with ⟨e, h⟩ | ⟨h, -⟩
      · exact ⟨_, _, _, _, by rw [h], .inr ⟨e, rfl⟩⟩
      · exact ⟨_, _, _, _, by rw [h], .inl rfl⟩

end Policy

namespace PolicyChain

/-- The hierarchy decides, behind the policy on command Interests if there is one. -/
inductive Hierarchical : PolicyChain → Prop
  | alone : Hierarchical [.hierarchy]
  | command (o : CommandOptions) (records : Records) :
      Hierarchical [.command o records, .hierarchy]

theorem checkFrom_hierarchy (s : Subject) (clock : Clock) (place : Nat) :
    ∃ verdict, checkFrom s clock place [.hierarchy] = ((verdict, []), [.hierarchy], clock) ∧
      verdict ≠ .accept ∧ ∀ r, verdict = .request r → s.Asks r := by
  obtain ⟨haccept, hasks⟩ := Policy.checkHierarchy_asks s.kind s
  unfold checkFrom
  rw [Policy.check_hierarchy]
  cases hv : Policy.checkHierarchy s.kind s.name s.keyName with
  | pass => exact ⟨_, rfl, by simp, by simp⟩
  | _ =>
    rw [hv] at haccept hasks
    exact ⟨_, rfl, haccept, hasks⟩

theorem Hierarchical.check {chain : PolicyChain} (h : chain.Hierarchical) (clock : Clock)
    (s : Subject) :
    (chain.check clock s).2.1.Hierarchical ∧ (chain.check clock s).1.1 ≠ .accept ∧
      ∀ r, (chain.check clock s).1.1 = .request r → s.Asks r := by
  cases h with
  | alone =>
    obtain ⟨verdict, hv, haccept, hasks⟩ := checkFrom_hierarchy s clock 0
    rw [PolicyChain.check, hv]
    exact ⟨.alone, haccept, hasks⟩
  | command o records =>
    obtain ⟨first, hooks, records', clock', hf, hfirst⟩ :=
      Policy.check_command o records clock 0 s
    obtain ⟨verdict, hv, haccept, hasks⟩ := checkFrom_hierarchy s clock' 1
    rw [PolicyChain.check, checkFrom, hf]
    rcases hfirst with rfl | ⟨e, rfl⟩
    · dsimp only
      rw [hv]
      exact ⟨.command _ _, haccept, hasks⟩
    · exact ⟨.command _ _, by simp, by simp⟩

end PolicyChain

end PacketTrust
