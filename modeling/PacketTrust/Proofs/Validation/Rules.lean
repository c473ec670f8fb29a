import Mathlib.Algebra.Group.Nat.Defs
import PacketTrust.Proofs.Validation.Places

/-! The rules of applications among the policies. All other policies leave hooks with Interests
only, and ask for certificates in the standard way; so what holds of the rules of a chain holds of
its answers. -/

namespace PacketTrust

namespace Duration

theorem inRange_mono {d e : Duration} (h : d.nanoseconds ≤ e.nanoseconds) (he : e.inRange) :
    d.inRange := by
  have hd : d.seconds ≤ e.seconds := Nat.div_le_div_right h
  exact decide_eq_true (Nat.lt_of_le_of_lt hd (of_decide_eq_true he))

end Duration

/-- The pause of a request can double with each attempt that is left. -/
def CertificateRequest.Patient (r : CertificateRequest) : Prop :=
  (Duration.mk (r.pause.nanoseconds * 2 ^ r.retriesLeft.toNat)).inRange

theorem CertificateRequest.patient_ofName (n : Name) : (ofName n).Patient := by
  change Duration.inRange ⟨(Duration.ofMillis 500).nanoseconds * 2 ^ (3 : Int).toNat⟩
  decide

namespace Policy

def rule? : Policy → Option ((call : Nat) → Subject → Verdict × List Hook)
  | custom rule _ => some rule
  | _ => none

variable {p : Policy} {clock : Clock} {place : Nat} {s : Subject}

theorem check_rule? (p : Policy) (clock : Clock) (place : Nat) (s : Subject) :
    (p.check clock place s).2.1.rule? = p.rule? := by
  cases p with
  | command o records =>
    obtain ⟨verdict, hooks, records', clock', h, -⟩ := check_command o records clock place s
    rw [h]
    rfl
  | _ => rfl

theorem check_hooks_eq_nil (hs : ∀ i, s ≠ .interest i)
    (h : ∀ rule, p.rule? = some rule → ∀ call, (rule call s).2 = []) :
    (p.check clock place s).1.2 = [] := by
  cases p with
  | command o records =>
    cases s with
    | interest i => exact absurd rfl (hs i)
    | _ => rfl
  | custom rule calls => exact h rule rfl calls
  | _ => rfl

theorem check_request {r : CertificateRequest} (h : (p.check clock place s).1.1 = .request r) :
    (∃ k, r = .ofName k) ∨
      ∃ rule call, p.rule? = some rule ∧ (rule call s).1 = .request r := by
  cases p with
  | acceptAll => cases h
  | hierarchy =>
    rw [check_hierarchy] at h
    obtain ⟨k, -, -, rfl⟩ := (checkHierarchy_asks s.kind s).2 r h
    exact .inl ⟨k, rfl⟩
  | command o records =>
    obtain ⟨verdict, hooks, records', clock', hc, hv⟩ := check_command o records clock place s
    rw [hc] at h
    rcases hv with rfl | ⟨e, rfl⟩ <;> cases h
  | custom rule calls => exact .inr ⟨rule, calls, rfl, h⟩

end Policy

namespace PolicyChain

def rules (chain : PolicyChain) : List ((call : Nat) → Subject → Verdict × List Hook) :=
  chain.filterMap Policy.rule?

def HooksInterests (chain : PolicyChain) : Prop :=
  ∀ rule ∈ chain.rules, ∀ call s, (∀ i, s ≠ .interest i) → (rule call s).2 = []

/-- The pauses of what the rules ask for can double with each attempt. -/
def Patient (chain : PolicyChain) : Prop :=
  ∀ rule ∈ chain.rules, ∀ call s r, (rule call s).1 = .request r → r.Patient

variable {chain : PolicyChain} {clock : Clock} {place : Nat} {s : Subject}

theorem rules_checkFrom (s : Subject) (clock : Clock) (place : Nat) (chain : PolicyChain) :
    (checkFrom s clock place chain).2.1.rules = chain.rules := by
  induction chain generalizing clock place with
  | nil => rfl
  | cons p rest ih =>
    have hp := Policy.check_rule? p clock place s
    unfold rules at ih ⊢
    by_cases hpass : (p.check clock place s).1.1 = .pass
    · rw [checkFrom_of_pass hpass, List.filterMap_cons, List.filterMap_cons, hp, ih]
    · rw [checkFrom_of_ne_pass hpass, List.filterMap_cons, List.filterMap_cons, hp]

theorem checkFrom_hooks_eq_nil (hs : ∀ i, s ≠ .interest i) (h : chain.HooksInterests) :
    (checkFrom s clock place chain).1.2 = [] := by
  induction chain generalizing clock place with
  | nil => rfl
  | cons p rest ih =>
    have hp : (p.check clock place s).1.2 = [] := Policy.check_hooks_eq_nil hs fun rule hr call =>
      h rule (List.mem_filterMap.2 ⟨p, List.mem_cons_self, hr⟩) call s hs
    have hrest : HooksInterests rest := fun rule hr => by
      obtain ⟨q, hq, hr⟩ := List.mem_filterMap.1 hr
      exact h rule (List.mem_filterMap.2 ⟨q, List.mem_cons_of_mem _ hq, hr⟩)
    by_cases hpass : (p.check clock place s).1.1 = .pass
    · rw [checkFrom_of_pass hpass, hp, ih hrest]
      rfl
    · rw [checkFrom_of_ne_pass hpass, hp]

theorem checkFrom_patient {r : CertificateRequest} (h : chain.Patient)
    (hr : (checkFrom s clock place chain).1.1 = .request r) : r.Patient := by
  induction chain generalizing clock place with
  | nil => cases hr
  | cons p rest ih =>
    have hrest : Patient rest := fun rule hr => by
      obtain ⟨q, hq, hr⟩ := List.mem_filterMap.1 hr
      exact h rule (List.mem_filterMap.2 ⟨q, List.mem_cons_of_mem _ hq, hr⟩)
    by_cases hpass : (p.check clock place s).1.1 = .pass
    · rw [checkFrom_of_pass hpass] at hr
      exact ih hrest hr
    · rw [checkFrom_of_ne_pass hpass] at hr
      rcases Policy.check_request hr with ⟨k, rfl⟩ | ⟨rule, call, hp, hrule⟩
      · exact CertificateRequest.patient_ofName k
      · exact h rule (List.mem_filterMap.2 ⟨p, List.mem_cons_self, hp⟩) call s r hrule

end PolicyChain

end PacketTrust
