import Mathlib.Logic.Function.Basic
import PacketTrust.Proofs.Validation.Outcome
import PacketTrust.Proofs.Validation.Places
import PacketTrust.Proofs.Validation.Timestamps

/-! Replay of command Interests. Sessions share one policy on command Interests: it is asked
about their packets and records the timestamps of those that succeed, in any order of turns.
Main statement: a command that passes after another one of its key has succeeded is later than
that one. -/

namespace PacketTrust.Replay

/-- What the policy has let pass and what it has recorded, for the policy at a place of the
chain. -/
structure Watch (o : CommandOptions) (place : Nat) (w : World)
    (passed recorded : List (Name × UInt64)) : Prop where
  kept : ∃ records, w.chain[place]? = some (.command o records) ∧
    Kept o records w.clock passed recorded
  discreet : ∀ p ∈ w.chain, p.Discreet
  steady : w.clock.Steady
  leapless : w.clock.Leapless
  subset : recorded ⊆ passed

/-- The records may be as many as there are keys of what passed. -/
def Roomy (o : CommandOptions) (keys : List Name) : Prop :=
  ∀ limit, o.maxRecords = some limit → keys.toFinset.card ≤ limit

theorem Roomy.of_subset {o : CommandOptions} {keys fewer : List Name} (h : Roomy o keys)
    (hsub : fewer ⊆ keys) : Roomy o fewer := fun limit hlimit =>
  (Finset.card_le_card fun _ hk => List.mem_toFinset.2 (hsub (List.mem_toFinset.1 hk))).trans
    (h limit hlimit)

namespace Watch

variable {o : CommandOptions} {place : Nat} {w w' : World} {passed recorded : List (Name × UInt64)}

theorem later (h : Watch o place w passed recorded) (hp : w'.chain[place]? = w.chain[place]?)
    (hd : ∀ p ∈ w'.chain, p.Discreet) (hc : w'.clock.Follows w.clock) :
    Watch o place w' passed recorded := by
  obtain ⟨records, hpolicy, hkept⟩ := h.kept
  exact ⟨⟨records, hp.trans hpolicy, hkept.later h.steady h.leapless hc⟩, hd,
    h.steady.of_follows hc, h.leapless.of_follows hc, h.subset⟩

theorem few {records : Records} (h : Watch o place w passed recorded)
    (hkept : Kept o records w.clock passed recorded) (hroom : Roomy o (passed.map Prod.fst)) :
    ∀ limit, o.maxRecords = some limit → records.length ≤ limit := fun limit hlimit =>
  hkept.length_le.trans (hroom.of_subset (List.map_subset _ h.subset) limit hlimit)

theorem cleanUp (h : Watch o place w passed recorded) (hlong : 2 * o.graceMillis < o.recordMillis)
    (hroom : Roomy o (passed.map Prod.fst)) :
    Watch o place { w with chain := w.chain.modify place (·.cleanUp w.now), clock := w.clock.next }
      passed recorded := by
  obtain ⟨records, hpolicy, hkept⟩ := h.kept
  have hnext := (Clock.Follows.refl w.clock).next
  have hclean :=
    (hkept.cleanUp h.leapless hlong (h.few hkept hroom)).later h.steady h.leapless hnext
  constructor
  case kept => exact ⟨_, by rw [List.getElem?_modify_eq, hpolicy]; rfl, hclean⟩
  case discreet => exact PolicyChain.modify_discreet h.discreet (fun _ => Policy.cleanUp_discreet) _
  case steady => exact h.steady.of_follows hnext
  case leapless => exact h.leapless.of_follows hnext
  case subset => exact h.subset

theorem record (h : Watch o place w passed recorded) {q : Nat} {k : Name} {t : UInt64}
    (hp : q = place → (k, t) ∈ passed) :
    ∃ recorded', Watch o place (w.record q k t) passed recorded' ∧ recorded ⊆ recorded' ∧
      (q = place → (k, t) ∈ recorded') := by
  obtain ⟨records, hpolicy, hkept⟩ := h.kept
  have hnext := (Clock.Follows.refl w.clock).next
  have hdiscreet : ∀ p ∈ (w.record q k t).chain, p.Discreet :=
    PolicyChain.modify_discreet h.discreet (fun _ => Policy.record_discreet) _
  by_cases hq : q = place
  · subst hq
    have hrecord := (hkept.record h.leapless (hp rfl)).later h.steady h.leapless hnext
    refine ⟨(k, t) :: recorded, ⟨⟨_, ?_, hrecord⟩, hdiscreet, h.steady.of_follows hnext,
      h.leapless.of_follows hnext, ?_⟩, ?_⟩
    · change (w.chain.modify q _)[q]? = _
      rw [List.getElem?_modify_eq, hpolicy]
      rfl
    · exact List.cons_subset.2 ⟨hp rfl, h.subset⟩
    · exact ⟨List.subset_cons_self _ _, fun _ => List.mem_cons_self⟩
  · have hsame : (w.record q k t).chain[place]? = w.chain[place]? :=
      List.getElem?_modify_ne _ _ hq
    exact ⟨recorded, h.later hsame hdiscreet hnext, List.Subset.refl _, fun hk => absurd hk hq⟩

theorem hooks (h : Watch o place w passed recorded) (n : Name) {hooks : List Hook}
    (hp : ∀ k t, .record place k t ∈ hooks → (k, t) ∈ passed) :
    ∃ recorded', Watch o place (hooks.foldl (Scene.afterHook n) w) passed recorded' ∧
      recorded ⊆ recorded' ∧ ∀ k t, .record place k t ∈ hooks → (k, t) ∈ recorded' := by
  induction hooks generalizing w recorded with
  | nil => exact ⟨recorded, h, List.Subset.refl _, by simp⟩
  | cons hook rest ih =>
    have hrest : ∀ k t, .record place k t ∈ rest → (k, t) ∈ passed := fun k t hk =>
      hp k t (List.mem_cons_of_mem _ hk)
    cases hook with
    | call label fails =>
      have hemit : Watch o place (w.emit (.hook label n)) passed recorded :=
        h.later rfl h.discreet (.refl _)
      obtain ⟨recorded', h', hsub, hall⟩ := ih hemit hrest
      exact ⟨recorded', h', hsub, fun k t hk => hall k t (by simpa using hk)⟩
    | record q k t =>
      obtain ⟨more, hmore, hsub, hthis⟩ := h.record (q := q) (k := k) (t := t) (by
        rintro rfl
        exact hp k t List.mem_cons_self)
      obtain ⟨recorded', h', hsub', hall⟩ := ih hmore hrest
      refine ⟨recorded', h', List.Subset.trans hsub hsub', fun k' t' hk => ?_⟩
      rcases List.mem_cons.1 hk with hk | hk
      · injection hk with hq hk ht
        subst hk ht
        exact hsub' (hthis hq.symm)
      · exact hall k' t' hk

/-- The chain was asked: either a command passed the policy, which is later than all that were
recorded for its key, or nothing is left for the policy to record. -/
theorem checkPolicy (h : Watch o place w passed recorded)
    (hlong : 2 * o.graceMillis < o.recordMillis) (hroom : Roomy o (passed.map Prod.fst))
    (s : Subject) :
    (∃ i k t, s = .interest i ∧ Policy.commandParts i = .ok (k, t) ∧
      w.chain.answerAt s w.clock 0 place = some .pass ∧
      Watch o place (w.checkPolicy s).2 ((k, t) :: passed) recorded ∧
      (∀ k' t', .record place k' t' ∈ (w.checkPolicy s).1.2 ↔ k' = k ∧ t' = t) ∧
      ∀ t', (k, t') ∈ recorded → t' < t) ∨
    (∀ i k t, s = .interest i → Policy.commandParts i = .ok (k, t) →
      w.chain.answerAt s w.clock 0 place ≠ some .pass) ∧
    Watch o place (w.checkPolicy s).2 passed recorded ∧
    ∀ k t, .record place k t ∉ (w.checkPolicy s).1.2 := by
  obtain ⟨records, hpolicy, hkept⟩ := h.kept
  have hdiscreet : ∀ p ∈ (w.checkPolicy s).2.chain, p.Discreet :=
    PolicyChain.checkFrom_discreet h.discreet
  have hclock : (w.checkPolicy s).2.clock.Follows w.clock := PolicyChain.checkFrom_clock ..
  have hsteady := h.steady.of_follows hclock
  have hleap := h.leapless.of_follows hclock
  have hat := PolicyChain.checkFrom_at s w.clock 0 h.discreet hpolicy
  rw [Nat.zero_add] at hat
  rcases hat with ⟨hnone, hsame, hhooks⟩ | ⟨clock, hlater, hanswer, hnew, hafter, hhooks⟩
  · refine .inr ⟨fun _ _ _ _ _ => by simp [hnone], ?_, hhooks⟩
    exact h.later (hsame.trans hpolicy.symm) hdiscreet hclock
  · have hsteady' := h.steady.of_follows hlater
    have hleap' := h.leapless.of_follows hlater
    obtain ⟨verdict, hooks, records', clock', hcheck, hcases⟩ :=
      (hkept.later h.steady h.leapless hlater).check hsteady' hleap' hlong (h.few hkept hroom)
        place s
    have hclock' : clock'.Follows clock := by
      simpa only [hcheck] using Policy.check_clock (.command o records) clock place s
    rw [hcheck] at hanswer hnew hafter hhooks
    have hlast : ∀ {passed'}, Kept o records' clock' passed' recorded →
        Kept o records' (w.checkPolicy s).2.clock passed' recorded := fun hkept' =>
      hkept'.later (hsteady'.of_follows hclock') (hleap'.of_follows hclock') hafter
    rcases hcases with ⟨i, k, t, rfl, hi, rfl, rfl, hkept', habove⟩ | ⟨hno, rfl, hkept'⟩
    · refine .inl ⟨i, k, t, rfl, hi, hanswer, ?_, fun k' t' => ?_, habove⟩
      · exact ⟨⟨records', hnew, hlast hkept'⟩, hdiscreet, hsteady, hleap,
          List.subset_cons_of_subset _ h.subset⟩
      · exact (hhooks k' t').trans (by simp)
    · refine .inr ⟨fun i k t hs hi => ?_, ?_, fun k t hk => ?_⟩
      · rw [hanswer]
        exact fun he => hno i k t hs hi (Option.some.inj he)
      · exact ⟨⟨records', hnew, hlast hkept'⟩, hdiscreet, hsteady, hleap, h.subset⟩
      · exact List.not_mem_nil ((hhooks k t).1 hk)

end Watch

inductive Event where
  /-- The chain was asked for a session; the policy gave an answer if it was reached. -/
  | asked (id : Nat) (subject : Subject) (answer : Option Verdict)
  | succeeded (id : Nat)

/-- A turn of a session, or of what shares the world with the sessions. -/
inductive Turn (place : Nat) :
    World → (Nat → Session) → Option Event → World → (Nat → Session) → Prop
  | ask {w w' : World} {sessions : Nat → Session} {id : Nat} {subject : Subject}
      {verdict : Verdict} {s' : Session}
      (own : subject = (sessions id).packet.subject ∨ ∃ c, subject = .certificate c)
      (asked : Validator.ask subject ⟨sessions id, w⟩ = .ok verdict ⟨s', w'⟩) :
      Turn place w sessions
        (some (.asked id subject (w.chain.answerAt subject w.clock 0 place)))
        w' (Function.update sessions id s')
  | fault {w w' : World} {sessions : Nat → Session} {id : Nat} {subject : Subject}
      {fault : Fault} {s' : Session}
      (own : subject = (sessions id).packet.subject ∨ ∃ c, subject = .certificate c)
      (asked : Validator.ask subject ⟨sessions id, w⟩ = .error fault ⟨s', w'⟩) :
      Turn place w sessions
        (some (.asked id subject (w.chain.answerAt subject w.clock 0 place)))
        w' (Function.update sessions id s')
  | succeed {w w' : World} {sessions : Nat → Session} {id : Nat} {s' : Session}
      (done : Scene.succeed ⟨sessions id, w⟩ = .ok () ⟨s', w'⟩) :
      Turn place w sessions (some (.succeeded id)) w' (Function.update sessions id s')
  | cleanUp {w : World} {sessions : Nat → Session} :
      Turn place w sessions none
        { w with chain := w.chain.modify place (·.cleanUp w.now), clock := w.clock.next } sessions
  /-- Whatever leaves the policy alone, and the hooks with the sessions. -/
  | other {w w' : World} {sessions sessions' : Nat → Session}
      (hooks : ∀ id, (sessions' id).hooks = (sessions id).hooks)
      (policy : w'.chain[place]? = w.chain[place]?)
      (discreet : (∀ p ∈ w.chain, p.Discreet) → ∀ p ∈ w'.chain, p.Discreet)
      (clock : w'.clock.Follows w.clock) : Turn place w sessions none w' sessions'

inductive Run (place : Nat) (w₀ : World) (sessions₀ : Nat → Session) :
    List Event → World → (Nat → Session) → Prop
  | start : Run place w₀ sessions₀ [] w₀ sessions₀
  | turn {history : List Event} {event : Option Event} {w w' : World}
      {sessions sessions' : Nat → Session} :
      Run place w₀ sessions₀ history w sessions → Turn place w sessions event w' sessions' →
      Run place w₀ sessions₀ (history ++ event.toList) w' sessions'

def Event.key? : Event → Option Name
  | asked _ (.interest i) (some .pass) => (Policy.commandParts i).toOption.map Prod.fst
  | _ => none

def keysUsed (history : List Event) : List Name := history.filterMap Event.key?

/-- A command that passes is later than each one of its key that passed before and has succeeded. -/
def Rising (history : List Event) : Prop :=
  ∀ id₁ i₁ id₂ i₂ k t₁ t₂,
    [.asked id₁ (.interest i₁) (some .pass), .succeeded id₁,
      .asked id₂ (.interest i₂) (some .pass)].Sublist history →
    Policy.commandParts i₁ = .ok (k, t₁) → Policy.commandParts i₂ = .ok (k, t₂) → t₁ < t₂

/-- What has passed and what was recorded, against the history and the hooks of the sessions. -/
structure Accounted (o : CommandOptions) (place : Nat) (history : List Event) (w : World)
    (sessions : Nat → Session) (passed recorded : List (Name × UInt64)) : Prop where
  watch : Watch o place w passed recorded
  used : ∀ e ∈ passed, e.1 ∈ keysUsed history
  left : ∀ id k t, .record place k t ∈ (sessions id).hooks → (k, t) ∈ passed
  asked : ∀ id i k t, .asked id (.interest i) (some .pass) ∈ history →
    Policy.commandParts i = .ok (k, t) →
    .record place k t ∈ (sessions id).hooks ∨ (k, t) ∈ recorded
  succeeded : ∀ id i k t,
    [.asked id (.interest i) (some .pass), .succeeded id].Sublist history →
    Policy.commandParts i = .ok (k, t) → (k, t) ∈ recorded

theorem sublist_concat_cases {α : Type} {l h : List α} {a e : α}
    (hsub : (l ++ [a]).Sublist (h ++ [e])) : (l ++ [a]).Sublist h ∨ a = e ∧ l.Sublist h := by
  obtain ⟨l₁, l₂, hl, h₁, h₂⟩ := List.sublist_append_iff.1 hsub
  rcases List.sublist_singleton.1 h₂ with rfl | rfl
  · rw [List.append_nil] at hl
    exact .inl (hl ▸ h₁)
  · obtain ⟨rfl, ha⟩ := List.append_inj' hl rfl
    injection ha with ha
    exact .inr ⟨ha, h₁⟩

namespace Accounted

variable {o : CommandOptions} {place : Nat} {history : List Event} {w w' : World}
  {sessions sessions' : Nat → Session} {passed recorded : List (Name × UInt64)}

theorem roomy (h : Accounted o place history w sessions passed recorded)
    (hroom : Roomy o (keysUsed history)) : Roomy o (passed.map Prod.fst) := by
  refine hroom.of_subset fun k hk => ?_
  obtain ⟨e, he, rfl⟩ := List.mem_map.1 hk
  exact h.used e he

theorem quiet (h : Accounted o place history w sessions passed recorded)
    (hw : Watch o place w' passed recorded)
    (hhooks : ∀ id, (sessions' id).hooks = (sessions id).hooks) :
    Accounted o place history w' sessions' passed recorded :=
  { h with
    watch := hw
    left := fun id => hhooks id ▸ h.left id
    asked := fun id => hhooks id ▸ h.asked id }

theorem unpassed (h : Accounted o place history w sessions passed recorded) {id : Nat}
    {s : Subject} {answer : Option Verdict}
    (hno : ∀ i k t, s = .interest i → Policy.commandParts i = .ok (k, t) → answer ≠ some .pass)
    (hw : Watch o place w' passed recorded)
    (hhooks : ∀ id k t, .record place k t ∈ (sessions' id).hooks ↔
      .record place k t ∈ (sessions id).hooks) :
    Accounted o place (history ++ [.asked id s answer]) w' sessions' passed recorded := by
  constructor
  case watch => exact hw
  case used =>
    intro e he
    rw [keysUsed, List.filterMap_append]
    exact List.mem_append_left _ (h.used e he)
  case left => exact fun id' k t hk => h.left id' k t ((hhooks id' k t).1 hk)
  case asked =>
    intro id' i k t hi hp
    rcases List.mem_append.1 hi with hi | hi
    · exact (h.asked id' i k t hi hp).imp_left (hhooks id' k t).2
    · injection List.mem_singleton.1 hi with _ hs ha
      exact absurd ha.symm (hno i k t hs.symm hp)
  case succeeded =>
    intro id' i k t hsub hp
    rcases sublist_concat_cases (l := [_]) hsub with hsub | ⟨he, -⟩
    · exact h.succeeded id' i k t hsub hp
    · cases he

/-- A command passed, and its timestamp is left with its session. -/
theorem pass (h : Accounted o place history w sessions passed recorded) {id : Nat} {i : Interest}
    {k : Name} {t : UInt64} (hi : Policy.commandParts i = .ok (k, t))
    (hw : Watch o place w' ((k, t) :: passed) recorded)
    (hhooks : ∀ id' k' t', .record place k' t' ∈ (sessions' id').hooks ↔
      .record place k' t' ∈ (sessions id').hooks ∨ id' = id ∧ k' = k ∧ t' = t) :
    Accounted o place (history ++ [.asked id (.interest i) (some .pass)]) w' sessions'
      ((k, t) :: passed) recorded := by
  have hkeys : keysUsed (history ++ [.asked id (.interest i) (some .pass)]) =
      keysUsed history ++ [k] := by
    simp [keysUsed, List.filterMap_append, Event.key?, hi, Except.toOption]
  constructor
  case watch => exact hw
  case used =>
    rw [hkeys]
    refine List.forall_mem_cons.2 ⟨by simp, fun e he => List.mem_append_left _ (h.used e he)⟩
  case left =>
    intro id' k' t' hk
    rcases (hhooks id' k' t').1 hk with hk | ⟨-, rfl, rfl⟩
    · exact List.mem_cons_of_mem _ (h.left id' k' t' hk)
    · exact List.mem_cons_self
  case asked =>
    intro id' i' k' t' hi' hp
    rcases List.mem_append.1 hi' with hi' | hi'
    · exact (h.asked id' i' k' t' hi' hp).imp_left fun hk => (hhooks id' k' t').2 (.inl hk)
    · injection List.mem_singleton.1 hi' with hid hs
      injection hs with hs
      subst hid hs
      rw [hi] at hp
      injection hp with hp
      injection hp with hk ht
      exact .inl ((hhooks id' k' t').2 (.inr ⟨rfl, hk.symm, ht.symm⟩))
  case succeeded =>
    intro id' i' k' t' hsub hp
    rcases sublist_concat_cases (l := [_]) hsub with hsub | ⟨he, -⟩
    · exact h.succeeded id' i' k' t' hsub hp
    · cases he

/-- A session succeeded, and what it had to be recorded was recorded. -/
theorem succeed (h : Accounted o place history w sessions passed recorded) {id : Nat}
    {recorded' : List (Name × UInt64)} (hw : Watch o place w' passed recorded')
    (hsub : recorded ⊆ recorded')
    (hall : ∀ k t, .record place k t ∈ (sessions id).hooks → (k, t) ∈ recorded')
    (hhooks : ∀ id', (sessions' id').hooks = if id' = id then [] else (sessions id').hooks) :
    Accounted o place (history ++ [.succeeded id]) w' sessions' passed recorded' := by
  have hkept : ∀ id' k t, .record place k t ∈ (sessions id').hooks →
      .record place k t ∈ (sessions' id').hooks ∨ (k, t) ∈ recorded' := by
    intro id' k t hk
    rw [hhooks id']
    by_cases hid : id' = id
    · subst hid
      exact .inr (hall k t hk)
    · rw [if_neg hid]
      exact .inl hk
  constructor
  case watch => exact hw
  case used =>
    intro e he
    rw [keysUsed, List.filterMap_append]
    exact List.mem_append_left _ (h.used e he)
  case left =>
    intro id' k t hk
    rw [hhooks id'] at hk
    split at hk
    · cases hk
    · exact h.left id' k t hk
  case asked =>
    intro id' i k t hi hp
    rcases List.mem_append.1 hi with hi | hi
    · exact (h.asked id' i k t hi hp).elim (hkept id' k t) fun hr => .inr (hsub hr)
    · cases List.mem_singleton.1 hi
  case succeeded =>
    intro id' i k t hs hp
    rcases sublist_concat_cases (l := [_]) hs with hs | ⟨he, hi⟩
    · exact hsub (h.succeeded id' i k t hs hp)
    · injection he with he
      subst he
      have hasked := h.asked id' i k t (List.singleton_sublist.1 hi) hp
      exact hasked.elim (hall k t) fun hr => hsub hr

/-- The chain was asked and answered; what passes is later than what was recorded before. -/
theorem ask (h : Accounted o place history w sessions passed recorded)
    (hlong : 2 * o.graceMillis < o.recordMillis) (hroom : Roomy o (keysUsed history)) {id : Nat}
    {s : Subject} {verdict : Verdict} {s' : Session}
    (asked : Validator.ask s ⟨sessions id, w⟩ = .ok verdict ⟨s', w'⟩) :
    ∃ passed', Accounted o place (history ++ [.asked id s (w.chain.answerAt s w.clock 0 place)]) w'
        (Function.update sessions id s') passed' recorded ∧
      ∀ i k t t', s = .interest i → w.chain.answerAt s w.clock 0 place = some .pass →
        Policy.commandParts i = .ok (k, t) → (k, t') ∈ recorded → t' < t := by
  obtain ⟨-, hw, hs⟩ := Validator.ask_ok asked
  dsimp only at hw hs
  rcases h.watch.checkPolicy hlong (h.roomy hroom) s with
    ⟨i, k, t, rfl, hi, hanswer, hwatch, hhooks, hlater⟩ | ⟨hno, hwatch, hhooks⟩
  · rw [← hw] at hwatch
    rw [hanswer]
    refine ⟨_, h.pass hi hwatch fun id' k' t' => ?_, fun i' k' t₂ t₁ he _ hi' hr => ?_⟩
    · by_cases hid : id' = id
      · subst hid
        simp [hs, hhooks]
      · simp [hid]
    · cases he
      cases hi.symm.trans hi'
      exact hlater t₁ hr
  · rw [← hw] at hwatch
    refine ⟨_, h.unpassed hno hwatch fun id' k t => ?_, fun i k t t' he ha hi => ?_⟩
    · by_cases hid : id' = id
      · subst hid
        simp [hs, hhooks]
      · simp [Function.update_of_ne hid]
    · exact absurd ha (hno i k t he hi)

theorem askFault (h : Accounted o place history w sessions passed recorded)
    (hlong : 2 * o.graceMillis < o.recordMillis) (hroom : Roomy o (keysUsed history)) {id : Nat}
    {s : Subject} {fault : Fault} {s' : Session}
    (own : s = (sessions id).packet.subject ∨ ∃ c, s = .certificate c)
    (asked : Validator.ask s ⟨sessions id, w⟩ = .error fault ⟨s', w'⟩) :
    Accounted o place (history ++ [.asked id s (w.chain.answerAt s w.clock 0 place)]) w'
        (Function.update sessions id s') passed recorded ∧ ∀ i, s ≠ .interest i := by
  obtain ⟨hw, hs, -, d, hd, -⟩ := Validator.ask_error asked
  dsimp only at hw hs hd
  have hno : ∀ i, s ≠ .interest i := by
    rintro i rfl
    rcases own with hown | ⟨c, hown⟩
    · rw [hd] at hown
      cases hown
    · cases hown
  refine ⟨?_, hno⟩
  rcases h.watch.checkPolicy hlong (h.roomy hroom) s with ⟨i, k, t, rfl, -⟩ | ⟨-, hwatch, -⟩
  · exact absurd rfl (hno i)
  · rw [← hw] at hwatch
    refine h.unpassed (fun i _ _ hi => absurd hi (hno i)) hwatch fun id' k t => ?_
    by_cases hid : id' = id
    · subst hid
      simp [hs]
    · simp [Function.update_of_ne hid]

theorem finish (h : Accounted o place history w sessions passed recorded) {id : Nat} {s' : Session}
    (done : Scene.succeed ⟨sessions id, w⟩ = .ok () ⟨s', w'⟩) :
    ∃ recorded', Accounted o place (history ++ [.succeeded id]) w' (Function.update sessions id s')
      passed recorded' := by
  obtain ⟨-, hs, events, hw⟩ := Scene.succeed_ok done
  dsimp only at hw hs
  have hwatch : Watch o place { w with events } passed recorded :=
    h.watch.later rfl h.watch.discreet (.refl _)
  obtain ⟨recorded', hwatch', hsub, hall⟩ := hwatch.hooks (sessions id).name (h.left id)
  rw [← hw] at hwatch'
  refine ⟨_, h.succeed hwatch' hsub hall fun id' => ?_⟩
  by_cases hid : id' = id
  · subst hid
    simp [hs]
  · simp [hid]

end Accounted

section

variable {o : CommandOptions} {place : Nat} {history : List Event} {w w' : World}
  {sessions sessions' : Nat → Session} {passed recorded : List (Name × UInt64)}

/-- A turn keeps the account, and what passes in it is later than what was recorded before. -/
theorem Turn.accounted {event : Option Event}
    (hturn : Turn place w sessions event w' sessions')
    (h : Accounted o place history w sessions passed recorded)
    (hlong : 2 * o.graceMillis < o.recordMillis) (hroom : Roomy o (keysUsed history)) :
    ∃ passed' recorded',
      Accounted o place (history ++ event.toList) w' sessions' passed' recorded' ∧
      ∀ id i k t t', event = some (.asked id (.interest i) (some .pass)) →
        Policy.commandParts i = .ok (k, t) → (k, t') ∈ recorded → t' < t := by
  cases hturn with
  | ask own asked =>
    obtain ⟨passed', hacc, hlater⟩ := h.ask hlong hroom asked
    refine ⟨_, _, hacc, fun _ i k t t' he hi => ?_⟩
    injection he with he
    injection he with _ hs ha
    exact hlater i k t t' hs ha hi
  | fault own asked =>
    obtain ⟨hacc, hno⟩ := h.askFault hlong hroom own asked
    refine ⟨_, _, hacc, fun _ i k t t' he => ?_⟩
    injection he with he
    injection he with _ hs
    exact absurd hs (hno i)
  | succeed done =>
    obtain ⟨recorded', hacc⟩ := h.finish done
    exact ⟨_, _, hacc, by simp⟩
  | cleanUp =>
    have hwatch := h.watch.cleanUp hlong (h.roomy hroom)
    exact ⟨_, _, by simpa using h.quiet hwatch fun _ => rfl, by simp⟩
  | other hooks policy discreet clock =>
    have hwatch := h.watch.later policy (discreet h.watch.discreet) clock
    exact ⟨_, _, by simpa using h.quiet hwatch hooks, by simp⟩

theorem keysUsed_subset (history : List Event) (event : Option Event) :
    keysUsed history ⊆ keysUsed (history ++ event.toList) := by
  rw [keysUsed, keysUsed, List.filterMap_append]
  exact List.subset_append_left _ _

theorem Rising.turn {event : Option Event} (h : Rising history)
    (hacc : Accounted o place history w sessions passed recorded)
    (hlater : ∀ id i k t t', event = some (.asked id (.interest i) (some .pass)) →
      Policy.commandParts i = .ok (k, t) → (k, t') ∈ recorded → t' < t) :
    Rising (history ++ event.toList) := by
  intro id₁ i₁ id₂ i₂ k t₁ t₂ hsub h₁ h₂
  cases event with
  | none =>
    rw [Option.toList_none, List.append_nil] at hsub
    exact h id₁ i₁ id₂ i₂ k t₁ t₂ hsub h₁ h₂
  | some event =>
    rcases sublist_concat_cases (l := [_, _]) hsub with hsub | ⟨rfl, hearlier⟩
    · exact h id₁ i₁ id₂ i₂ k t₁ t₂ hsub h₁ h₂
    · exact hlater id₂ i₂ k t₂ t₁ rfl h₂ (hacc.succeeded id₁ i₁ k t₁ hearlier h₁)

theorem Run.accounted {w₀ : World} {sessions₀ : Nat → Session}
    (hrun : Run place w₀ sessions₀ history w sessions)
    (hpolicy : w₀.chain[place]? = some (.command o []))
    (hfresh : ∀ id, (sessions₀ id).hooks = []) (hdiscreet : ∀ p ∈ w₀.chain, p.Discreet)
    (hclock : w₀.clock.Steady) (hleap : w₀.clock.Leapless)
    (hlong : 2 * o.graceMillis < o.recordMillis) (hroom : Roomy o (keysUsed history)) :
    Rising history ∧
      ∃ passed recorded, Accounted o place history w sessions passed recorded := by
  -- Room for the keys of all turns is room for those of the first ones.
  induction hrun with
  | start =>
    refine ⟨by simp [Rising], [], [],
      ⟨⟨⟨[], hpolicy, Kept.start o _⟩, hdiscreet, hclock, hleap, ?_⟩,
      ?_, ?_, ?_, ?_⟩⟩ <;> simp [hfresh]
  | turn hrun hturn ih =>
    have hroom' := hroom.of_subset (keysUsed_subset _ _)
    obtain ⟨hrising, passed, recorded, hacc⟩ := ih hroom'
    obtain ⟨passed', recorded', hacc', hlater⟩ := hturn.accounted hacc hlong hroom'
    exact ⟨hrising.turn hacc hlater, passed', recorded', hacc'⟩

/-- A command that passes after another one of its key has succeeded is later, if records live
longer than two periods of grace, there is room for all keys, and the clock never goes back and
shows no leap second. -/
theorem Run.later_than_succeeded {w₀ : World} {sessions₀ : Nat → Session}
    (hrun : Run place w₀ sessions₀ history w sessions)
    (hpolicy : w₀.chain[place]? = some (.command o []))
    (hfresh : ∀ id, (sessions₀ id).hooks = []) (hdiscreet : ∀ p ∈ w₀.chain, p.Discreet)
    (hclock : w₀.clock.Steady) (hleap : ∀ n, ¬ (w₀.clock.shows n).Leap)
    (hlong : 2 * o.graceMillis < o.recordMillis)
    (hroom : ∀ limit, o.maxRecords = some limit → (keysUsed history).toFinset.card ≤ limit)
    {id₁ id₂ : Nat} {i₁ i₂ : Interest} {k : Name} {t₁ t₂ : UInt64}
    (hsub : [.asked id₁ (.interest i₁) (some .pass), .succeeded id₁,
      .asked id₂ (.interest i₂) (some .pass)].Sublist history)
    (h₁ : Policy.commandParts i₁ = .ok (k, t₁)) (h₂ : Policy.commandParts i₂ = .ok (k, t₂)) :
    t₁ < t₂ :=
  (hrun.accounted hpolicy hfresh hdiscreet hclock hleap hlong hroom).1 id₁ i₁ id₂ i₂ k t₁
    t₂ hsub h₁ h₂

theorem Turn.ask_of_interest (id : Nat) {i : Interest} {answer : Option Verdict}
    (hi : (sessions id).packet = .interest i)
    (ha : w.chain.answerAt (.interest i) w.clock 0 place = answer) :
    Turn place w sessions (some (.asked id (.interest i) answer)) (w.checkPolicy (.interest i)).2
      (Function.update sessions id { sessions id with
        hooks := (sessions id).hooks ++ (w.checkPolicy (.interest i)).1.2 }) :=
  ha ▸ .ask (.inl (by rw [hi]; rfl)) (Validator.ask_of_interest _ hi)

theorem Turn.succeed_of_none (id : Nat) (hn : (sessions id).outcome = none) :
    Turn place w sessions (some (.succeeded id))
      ((sessions id).hooks.foldl (Scene.afterHook (sessions id).name)
        { w with events := w.events ++
          ((sessions id).onSuccess.map fun _ => .success (sessions id).name).toList })
      (Function.update sessions id
        { sessions id with outcome := some true, onSuccess := none, hooks := [] }) :=
  .succeed (Scene.succeed_of_none (s := ⟨sessions id, w⟩) hn)

theorem Turn.wait (n : Nat) :
    Turn place w sessions none
      { w with clock := { w.clock with readings := w.clock.readings + n } } sessions :=
  .other (fun _ => rfl) rfl id ⟨n, rfl⟩

end

namespace Sample

def key : Name := ⟨[Certificate.keyMark, .generic [1]]⟩

def command (t : UInt64) : Interest :=
  { name := ⟨[.ofNumber t, .generic [7],
      .generic (SignatureInfo.encode (.sha256WithEcdsa (some (.name key)) none)),
      .generic (Signature.encodeValue ⟨.digestSha256, [9]⟩)]⟩ }

/-- Records live a second, and a tenth of it is the grace. -/
def options : CommandOptions := { gracePeriod := 100, maxRecords := some 1, recordLifetime := 1 }

def world (o : CommandOptions) (clock : Clock) : World :=
  { clock, chain := [.command o [], .hierarchy] }

def sessions (first second : UInt64) : Nat → Session
  | 0 => { packet := .interest (command first) }
  | _ => { packet := .interest (command second) }

theorem sessions_hooks (first second : UInt64) (id : Nat) :
    (sessions first second id).hooks = [] := by
  cases id <;> rfl

theorem world_discreet (o : CommandOptions) (clock : Clock) :
    ∀ p ∈ (world o clock).chain, p.Discreet := by
  simp [world, Policy.Discreet]

/-- The first command passes and succeeds before the second one passes. -/
def history (first second : UInt64) : List Event :=
  [.asked 0 (.interest (command first)) (some .pass), .succeeded 0,
    .asked 1 (.interest (command second)) (some .pass)]

/-- A clock that jumps, once it was read for the first command. -/
def jumping (before after : Instant) : Clock :=
  { shows := fun n => if n < 3 then before else after }

theorem steady_jumping {before after : Instant} (h : before ≤ after) :
    (jumping before after).Steady := by
  intro n
  unfold jumping
  dsimp only
  by_cases hn : n + 1 < 3
  · rw [if_pos hn, if_pos (Nat.lt_of_succ_lt hn)]
    exact Instant.le_refl _
  · rw [if_neg hn]
    split
    · exact h
    · exact Instant.le_refl _

/-- The end of the year 2016 came with a leap second, which is about to end. -/
def leap : Clock := jumping ⟨1483228799, 1999000000⟩ ⟨1483228801, 0⟩

/-- Set to live four hundred years, where a hundred and fifty are the grace. -/
def lasting : CommandOptions :=
  { gracePeriod := 4730400000000, maxRecords := some 1, recordLifetime := 12614400000 }

def century : Clock := jumping (.ofMillis 1717200000000) (.ofMillis 4870800000000)

/-- The command of a timestamp is replayed, though the clock never goes back and there is room for
its key. -/
def Replayed (o : CommandOptions) (clock : Clock) (t : UInt64) : Prop :=
  (∃ w after, Run 0 (world o clock) (sessions t t) (history t t) w after) ∧
    Policy.commandParts (command t) = .ok (key, t) ∧ clock.Steady ∧
    ∀ limit, o.maxRecords = some limit → (keysUsed (history t t)).toFinset.card ≤ limit

end Sample

/-- The record of the first command is dropped for its age before the second command, which is
later. -/
theorem later_than_succeeded_sample :
    ∃ w sessions, Run 0 (Sample.world Sample.options (.running (.ofMillis 10000)))
        (Sample.sessions 10050 11200) (Sample.history 10050 11200) w sessions ∧
      w.chain.map Policy.recordCount? = [some 0, none] ∧
      2 * Sample.options.graceMillis < Sample.options.recordMillis ∧
      (∀ limit, Sample.options.maxRecords = some limit →
        (keysUsed (Sample.history 10050 11200)).toFinset.card ≤ limit) ∧
      (10050 : UInt64) < 11200 := by
  have h₁ : Run 0 (Sample.world Sample.options (.running (.ofMillis 10000)))
      (Sample.sessions 10050 11200)
      [.asked 0 (.interest (Sample.command 10050)) (some .pass)] _ _ :=
    Run.start.turn (Turn.ask_of_interest 0 rfl (by decide +kernel))
  have h₂ := ((h₁.turn (Turn.succeed_of_none 0 rfl)).turn (Turn.wait 1150)).turn .cleanUp
  have h₃ : Run 0 (Sample.world Sample.options (.running (.ofMillis 10000)))
      (Sample.sessions 10050 11200) (Sample.history 10050 11200) _ _ :=
    h₂.turn (Turn.ask_of_interest 1 rfl (by decide +kernel))
  have hlong : 2 * Sample.options.graceMillis < Sample.options.recordMillis := by decide
  have hroom : ∀ limit, Sample.options.maxRecords = some limit →
      (keysUsed (Sample.history 10050 11200)).toFinset.card ≤ limit := by
    rintro limit ⟨⟩
    decide +kernel
  have hfirst : Policy.commandParts (Sample.command 10050) = .ok (Sample.key, 10050) := by
    decide +kernel
  have hsecond : Policy.commandParts (Sample.command 11200) = .ok (Sample.key, 11200) := by
    decide +kernel
  refine ⟨_, _, h₃, by decide +kernel, hlong, hroom, ?_⟩
  exact h₃.later_than_succeeded rfl (Sample.sessions_hooks _ _) (Sample.world_discreet _ _)
    (Clock.steady_running _) (Clock.leapless_running _) hlong hroom
    (List.Sublist.refl _) hfirst hsecond

/-- Replays get through to a clock that shows a leap second, and under settings that are cut off. -/
theorem replayed_by_leap_or_cap :
    (Sample.Replayed Sample.options Sample.leap 1483228801000 ∧
      2 * Sample.options.graceMillis < Sample.options.recordMillis) ∧
    Sample.Replayed Sample.lasting Sample.century 1717200000000 ∧
      2 * Sample.lasting.gracePeriod < 1000 * Sample.lasting.recordLifetime := by
  refine ⟨⟨⟨?_, by decide +kernel, Sample.steady_jumping (by decide), ?_⟩, by decide⟩,
    ⟨?_, by decide +kernel, Sample.steady_jumping (by decide +kernel), ?_⟩, by decide⟩
  · have hasked : Run 0 (Sample.world Sample.options Sample.leap)
        (Sample.sessions 1483228801000 1483228801000)
        [.asked 0 (.interest (Sample.command 1483228801000)) (some .pass)] _ _ :=
      Run.start.turn (Turn.ask_of_interest 0 rfl (by decide +kernel))
    have hsucceeded := hasked.turn (Turn.succeed_of_none 0 rfl)
    exact ⟨_, _, hsucceeded.turn (Turn.ask_of_interest 1 rfl (by decide +kernel))⟩
  · rintro limit ⟨⟩
    decide +kernel
  · have hasked : Run 0 (Sample.world Sample.lasting Sample.century)
        (Sample.sessions 1717200000000 1717200000000)
        [.asked 0 (.interest (Sample.command 1717200000000)) (some .pass)] _ _ :=
      Run.start.turn (Turn.ask_of_interest 0 rfl (by decide +kernel))
    have hsucceeded := hasked.turn (Turn.succeed_of_none 0 rfl)
    exact ⟨_, _, hsucceeded.turn (Turn.ask_of_interest 1 rfl (by decide +kernel))⟩
  · rintro limit ⟨⟩
    decide +kernel

end PacketTrust.Replay
