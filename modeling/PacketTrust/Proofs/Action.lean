import PacketTrust.Fault

/-! Taking actions apart: what the parts of an action did, given what the whole of it came to. So
too for computations that have no state, and for those that fail in other ways. -/

namespace PacketTrust

/-- A computation that came to a result ran both of its parts. -/
theorem ok_of_bind {ε α β : Type} {x : Except ε α} {next : α → Except ε β} {b : β}
    (h : (x >>= next) = .ok b) : ∃ a, x = .ok a ∧ next a = .ok b := by
  cases x with
  | error e => cases h
  | ok a => exact ⟨a, rfl, h⟩

theorem bind_eq_ok_iff {ε α β : Type} {x : Except ε α} {next : α → Except ε β} {b : β} :
    (x >>= next) = .ok b ↔ ∃ a, x = .ok a ∧ next a = .ok b := by
  constructor
  · exact ok_of_bind
  · rintro ⟨a, rfl, h⟩
    exact h

theorem error_of_bind {ε α β : Type} {x : Except ε α} {next : α → Except ε β} {e : ε}
    (h : (x >>= next) = .error e) : x = .error e ∨ ∃ a, x = .ok a ∧ next a = .error e := by
  cases x with
  | error e' =>
    cases h
    exact .inl rfl
  | ok a => exact .inr ⟨a, rfl, h⟩

end PacketTrust

namespace PacketTrust.Act

section

variable {ε σ α β : Type} {act : EStateM ε σ α} {next : α → EStateM ε σ β} {s s' t : σ}

theorem bind_ok {b : β} (h : (act >>= next) s = .ok b s') :
    ∃ a t, act s = .ok a t ∧ next a t = .ok b s' := by
  change EStateM.bind act next s = _ at h
  unfold EStateM.bind at h
  split at h
  · exact ⟨_, _, ‹_›, h⟩
  · cases h

theorem bind_error {e : ε} (h : (act >>= next) s = .error e s') :
    act s = .error e s' ∨ ∃ a t, act s = .ok a t ∧ next a t = .error e s' := by
  change EStateM.bind act next s = _ at h
  unfold EStateM.bind at h
  split at h
  · exact .inr ⟨_, _, ‹_›, h⟩
  · injection h with h₁ h₂
    subst h₁ h₂
    exact .inl ‹_›

theorem bind_of_ok {a : α} (h : act s = .ok a t) : (act >>= next) s = next a t := by
  change EStateM.bind act next s = _
  rw [EStateM.bind, h]

theorem bind_of_error {e : ε} (h : act s = .error e t) : (act >>= next) s = .error e t := by
  change EStateM.bind act next s = _
  rw [EStateM.bind, h]

end

variable {σ τ α β : Type}

theorem get_bind (next : σ → Act σ β) (s : σ) : ((get : Act σ σ) >>= next) s = next s s := rfl

/-- An action on a part of a state leaves the rest as it was. -/
theorem within_ok {part : σ → τ} {put : σ → τ → σ} {act : Act τ α} {s s' : σ} {a : α}
    (h : act.within part put s = .ok a s') : ∃ t, act (part s) = .ok a t ∧ s' = put s t := by
  unfold within at h
  split at h
  · injection h with h₁ h₂
    subst h₁
    exact ⟨_, ‹_›, h₂.symm⟩
  · cases h

theorem within_of_ok {part : σ → τ} {put : σ → τ → σ} {act : Act τ α} {s : σ} {t : τ} {a : α}
    (h : act (part s) = .ok a t) : act.within part put s = .ok a (put s t) := by
  rw [within, h]

theorem within_of_error {part : σ → τ} {put : σ → τ → σ} {act : Act τ α} {s : σ} {t : τ}
    {e : Fault} (h : act (part s) = .error e t) :
    act.within part put s = .error e (put s t) := by
  rw [within, h]

theorem within_error {part : σ → τ} {put : σ → τ → σ} {act : Act τ α} {s s' : σ} {e : Fault}
    (h : act.within part put s = .error e s') :
    ∃ t, act (part s) = .error e t ∧ s' = put s t := by
  unfold within at h
  split at h
  · cases h
  · injection h with h₁ h₂
    subst h₁
    exact ⟨_, ‹_›, h₂.symm⟩

/-- The state that an action leaves, whether or not it met a fault. -/
def left (act : Act σ α) (s : σ) : σ :=
  match act s with
  | .ok _ t => t
  | .error _ t => t

theorem left_of_ok {act : Act σ α} {s t : σ} {a : α} (h : act s = .ok a t) : act.left s = t := by
  rw [left, h]

theorem left_of_error {act : Act σ α} {s t : σ} {e : Fault} (h : act s = .error e t) :
    act.left s = t := by
  rw [left, h]

theorem left_within (part : σ → τ) (put : σ → τ → σ) (act : Act τ α) (s : σ) :
    (act.within part put).left s = put s (act.left (part s)) := by
  cases h : act (part s) <;> simp only [left, within, h]

/-- What comes after an action may leave its state alone. -/
theorem left_bind {act : Act σ α} {next : α → Act σ β} {s : σ}
    (h : ∀ a t, (next a).left t = t) : (act >>= next).left s = act.left s := by
  cases hs : act s with
  | ok a t => rw [left_of_ok hs, left, bind_of_ok hs, ← left, h]
  | error e t =>
    rw [left_of_error hs]
    exact left_of_error (bind_of_error hs)

end PacketTrust.Act
