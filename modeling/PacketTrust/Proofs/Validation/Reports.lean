import PacketTrust.Proofs.Validation.Alone
import PacketTrust.Proofs.Validation.Rules
import PacketTrust.Proofs.Validation.Soundness

/-! What a session reports. Its last step decides the outcome and runs one of the two callbacks, and
no step before does either. Sessions whose policies leave hooks with Interests only are stopped by
nothing but the pause of a retrieval. -/

namespace PacketTrust

namespace Scene

variable {s s' : Scene}

/-- What is told at the end of a session: the callback for its outcome, and after a success its
hooks. -/
inductive Told (p : Packet) : Bool → List Event → Prop
  | success (hooks : List Event) (h : ∀ e ∈ hooks, ∃ label, e = .hook label p.name) :
      Told p true (.success p.name :: hooks)
  | failure (e : ValidationError) : Told p false [.failure p.name e]

/-- The session of a packet has no outcome, and has run none of its callbacks. -/
structure Undecided (p : Packet) (c c' : Callback) (s : Scene) : Prop where
  packet : s.session.packet = p
  outcome : s.session.outcome = none
  onSuccess : s.session.onSuccess = some c
  onFailure : s.session.onFailure = some c'

def Decided (p : Packet) (s s' : Scene) : Prop :=
  ∃ b told, s'.session.outcome = some b ∧ s'.world.events = s.world.events ++ told ∧ Told p b told

variable {p : Packet} {c c' : Callback}

theorem events_runHooks (n : Name) (hooks : List Hook) (w : World) :
    ∃ told, (hooks.foldl (afterHook n) w).events = w.events ++ told ∧
      ∀ e ∈ told, ∃ label, e = .hook label n := by
  induction hooks generalizing w with
  | nil => exact ⟨[], (List.append_nil _).symm, by simp⟩
  | cons hook rest ih =>
    obtain ⟨told, htold, hhooks⟩ := ih (afterHook n w hook)
    cases hook with
    | record place keyName timestamp => exact ⟨told, htold, hhooks⟩
    | call label fails =>
      refine ⟨.hook label n :: told, ?_, List.forall_mem_cons.2 ⟨⟨label, rfl⟩, hhooks⟩⟩
      rw [List.foldl_cons, htold]
      exact List.append_assoc w.events [_] told

theorem Undecided.fail (hs : Undecided p c c' s) {e : ValidationError}
    (h : fail e s = .ok () s') : Decided p s s' := by
  rw [fail_of_none e hs.outcome, hs.onFailure] at h
  cases h
  refine ⟨false, _, rfl, rfl, ?_⟩
  rw [← hs.packet]
  exact .failure e

theorem Undecided.succeed (hs : Undecided p c c' s) (h : succeed s = .ok () s') :
    Decided p s s' := by
  rw [succeed_of_none hs.outcome, hs.onSuccess] at h
  cases h
  obtain ⟨told, htold, hhooks⟩ := events_runHooks s.session.name s.session.hooks
    { s.world with events := s.world.events ++ [.success s.session.name] }
  refine ⟨true, .success s.session.name :: told, rfl, ?_, ?_⟩
  · exact htold.trans (List.append_assoc s.world.events [_] told)
  · rw [← hs.packet]
    exact .success told hhooks

theorem Decided.after {t : Scene} (h : Decided p t s')
    (ht : t.world.events = s.world.events) : Decided p s s' := by
  obtain ⟨b, told, ho, htold, hb⟩ := h
  exact ⟨b, told, ho, ht ▸ htold, hb⟩

theorem events_cacheVerified (chain : List Certificate) (w : World) :
    (chain.foldl World.cacheVerified w).events = w.events := by
  induction chain generalizing w with
  | nil => rfl
  | cons c rest ih => exact ih _

theorem Undecided.conclude (hs : Undecided p c c' s) {v : Validator} {trusted : Certificate}
    (h : v.conclude trusted s = .ok () s') : Decided p s s' := by
  obtain ⟨b, calls, t, part, -, -, -, ht, rfl⟩ := Validator.concluded h
  have hu : Undecided p c c' ⟨{ s.session with chain := part }, { s.world with calls }⟩ :=
    ⟨hs.packet, hs.outcome, hs.onSuccess, hs.onFailure⟩
  obtain ⟨b', told, ho, htold, hb⟩ : Decided p s t := by
    cases ht with
    | success ht => exact hu.succeed ht
    | failure ht => exact hu.fail ht
  exact ⟨b', told, ho, (events_cacheVerified part t.world).trans htold, hb⟩

end Scene

namespace World

/-- The rules of the policies and what the clock shows are the same, and the sources of the anchors
can be read whenever they could be. -/
structure Later (w w' : World) : Prop where
  rules : w'.chain.rules = w.chain.rules
  shows : w'.clock.shows = w.clock.shows
  renewable : ∀ t, w.storage.anchors.RenewableAt t → w'.storage.anchors.RenewableAt t

variable {w w' w'' : World}

theorem Later.trans (h : w.Later w') (h' : w'.Later w'') : w.Later w'' :=
  ⟨h'.rules.trans h.rules, h'.shows.trans h.shows, fun t ht => h'.renewable t (h.renewable t ht)⟩

theorem later_checkPolicy (w : World) (s : Subject) : w.Later (w.checkPolicy s).2 := by
  obtain ⟨n, hclock⟩ := PolicyChain.checkFrom_clock s w.clock 0 w.chain
  constructor
  case rules => exact PolicyChain.rules_checkFrom s w.clock 0 w.chain
  case shows =>
    change (w.chain.check w.clock s).2.2.shows = _
    rw [PolicyChain.check, hclock]
  case renewable => exact fun _ ht => ht

theorem later_findTrusted {i : Interest} {found : Option Certificate}
    (h : findTrusted i w = .ok found w') : w.Later w' := by
  obtain ⟨_, _, -, hleft⟩ := left_findTrusted i w
  rw [← Act.left_of_ok h, hleft]
  exact ⟨rfl, rfl, fun _ ht => Anchors.left_refresh_renewableAt ht⟩

theorem Restocked.later (h : w.Restocked w') : w.Later w' := by
  obtain ⟨_, _, rfl⟩ := h
  exact ⟨rfl, rfl, fun _ ht => ht⟩

theorem Restocked.events (h : w.Restocked w') : w'.events = w.events := by
  obtain ⟨_, _, rfl⟩ := h
  rfl

end World

/-- Policies leave hooks with nothing but Interests if the packet is Data, and whenever the clock is
read, the sources of the anchors can be read. -/
structure World.Fit (p : Packet) (w : World) : Prop where
  hooks : ∀ d, p = .data d → w.chain.HooksInterests
  renewable : ∀ n, w.storage.anchors.RenewableAt (w.clock.shows n)

theorem World.Later.patient {w w' : World} (hw : w.Later w') (h : w.chain.Patient) :
    w'.chain.Patient := by
  unfold PolicyChain.Patient
  rw [hw.rules]
  exact h

theorem World.Later.fit {p : Packet} {w w' : World} (hw : w.Later w') (h : w.Fit p) : w'.Fit p := by
  constructor
  case hooks =>
    intro d hd
    unfold PolicyChain.HooksInterests
    rw [hw.rules]
    exact h.hooks d hd
  case renewable =>
    intro n
    rw [hw.shows]
    exact hw.renewable _ (h.renewable n)

/-- The pause of a retrieval can double with each attempt that is left. -/
def Pending.Patient : Pending → Prop
  | answer a => a.request.Patient
  | pause a => (Duration.mk
      (a.request.pause.nanoseconds * 2 ^ (a.request.retriesLeft.toNat + 1))).inRange

namespace Fetcher

variable {f : Fetcher} {a : Attempt} {p : Pending} {w w' : World}

theorem receive_patient {response : Response} (h : f.receive a response w = .ok (.pending p) w')
    (ha : a.request.Patient) : p.Patient := by
  obtain ⟨hleft, hp⟩ := receive_pending h
  have hsucc : (a.request.retriesLeft - 1).toNat + 1 = a.request.retriesLeft.toNat := by omega
  cases p with
  | answer b =>
    have hb : b.request = _ := hp
    rw [Pending.Patient, hb]
    refine Duration.inRange_mono (Nat.mul_le_mul_left _ ?_) ha
    exact Nat.pow_le_pow_right (Nat.succ_pos 1) (Nat.le_of_succ_le (Nat.le_of_eq hsucc))
  | pause b =>
    have hb : b.request = _ := hp
    rw [Pending.Patient, hb, hsucc]
    exact ha

theorem wake_patient (h : f.wake a w = .ok (.pending p) w') (ha : (Pending.pause a).Patient) :
    p.Patient := by
  have htwice : a.request.pause.twice.nanoseconds * 2 ^ a.request.retriesLeft.toNat =
      a.request.pause.nanoseconds * 2 ^ (a.request.retriesLeft.toNat + 1) := by
    rw [Nat.pow_succ', ← Nat.mul_assoc]
    rfl
  rw [wake_pending h]
  change (Duration.mk (a.request.pause.twice.nanoseconds * 2 ^ a.request.retriesLeft.toNat)).inRange
  rw [htwice]
  exact ha

end Fetcher

theorem Pending.Patient.inRange {a : Attempt} (h : (pause a).Patient) :
    a.request.pause.twice.inRange := by
  refine Duration.inRange_mono (Nat.mul_le_mul_left _ ?_) h
  exact Nat.pow_le_pow_right (Nat.succ_pos 1) (Nat.le_add_left 1 _)

namespace Course

open Scene Validator

structure Environment.Silent (env : Environment) : Prop where
  begins : ∀ {r w progress w'}, env.begins r w progress w' → w'.events = w.events
  resumes : ∀ {r w progress w'}, env.resumes r w progress w' → w'.events = w.events

/-- Neither retrieval nor anyone else spoils what holds of the world. -/
structure Environment.Keeps (env : Environment) (good : World → Prop) : Prop where
  begins : ∀ {r w progress w'}, env.begins r w progress w' → good w → good w'
  resumes : ∀ {r w progress w'}, env.resumes r w progress w' → good w → good w'
  disturbs : ∀ {w w'}, env.disturbs w w' → good w → good w'

def Move.Silent (m : Move) : Prop :=
  m.after.session.outcome = none ∧ m.after.world.events = m.before.world.events

/-- The outcome was set and told in the last step, and in no step before. -/
def Reported (p : Packet) (moves : List Move) (s : Scene) : Prop :=
  ∃ earlier m, moves = earlier ++ [m] ∧ (∀ m' ∈ earlier, m'.Silent) ∧
    m.before.session.outcome = none ∧ Decided p m.before m.after ∧ s.session = m.after.session

/-- A session reports once, and is stopped by nothing but the pause of its retrieval. It goes on
until it ends, and takes no more steps than the depth allows for, besides those after its waits. -/
structure ReportsOnce (v : Validator) (env : Environment) (p : Packet) (moves : List Move)
    (stage : Stage) (s : Scene) : Prop where
  before : stage ≠ .ended → s.session.outcome = none ∧ ∀ m ∈ moves, m.Silent
  after : stage = .ended → Reported p moves s
  unstopped : ∀ fault s', Breaks v stage s fault s' → fault = .durationRange ∧
    ∃ r a, stage = .retrieving r (.pending (.pause a)) ∧ ¬ a.request.pause.twice.inRange
  goesOn : (∀ r w, ∃ progress w', env.begins r w progress w') → stage = .ended ∨
    (∃ r p, stage = .retrieving r (.pending p)) ∨
    ∃ notices stage' s', Step v env stage s notices stage' s'
  bounded : moves.countP (!·.isWait) ≤ 2 * v.maxDepth + 2

/-- How a session of a packet comes to its end against a network: it tells its outcome, or its pause
outgrows its range before it has told anything. -/
inductive Closes (v : Validator) (p : Packet) (start : Scene) : Task → World → Prop
  | reported {session : Session} {w : World} {b : Bool} {told : List Event}
      (outcome : session.outcome = some b) (events : w.events = start.world.events ++ told)
      (tells : Told p b told) : Closes v p start (.ended session) w
  | overrun {moves : List Move} {r : CertificateRequest} {a : Attempt} {s : Scene}
      (trail : Trail v (solitary v) start moves (.retrieving r (.pending (.pause a))) s)
      (range : ¬ a.request.pause.twice.inRange) (silent : s.world.events = start.world.events) :
      Closes v p start (.faulted .durationRange) s.world

/-- What a check of a packet comes to, by what its session tells. -/
inductive Agrees (p : Packet) : List Event → Except Fault Finding → Prop
  | valid (hooks : List Event) : Agrees p (.success p.name :: hooks) (.ok (.valid p))
  | invalid (e : ValidationError) : Agrees p [.failure p.name e] (.ok (.invalid e))
  | overrun : Agrees p [] (.error .durationRange)

section

variable {v : Validator} {env : Environment} {start s s' : Scene} {notices : List Notice}
  {moves : List Move} {stage stage' : Stage} {p : Packet} {c c' : Callback} {w : World}

theorem undecided_of_ask {subject : Subject} {verdict : Verdict}
    (hs : Undecided p c c' s) (h : ask subject s = .ok verdict s') :
    Undecided p c c' s' ∧ s'.world.events = s.world.events := by
  obtain ⟨-, hw, hsession⟩ := ask_ok h
  obtain ⟨hp, ho, hsuccess, hfailure⟩ := hs
  refine ⟨?_, by rw [hw]; rfl⟩
  constructor <;> rw [hsession] <;> assumption

theorem undecided_addSeen (hs : Undecided p c c' s) (n : Name) (w : World) :
    Undecided p c c' ⟨s.session.addSeen n, w⟩ := by
  obtain ⟨seen, h⟩ := addSeen_eq s.session n
  rw [h]
  exact ⟨hs.packet, hs.outcome, hs.onSuccess, hs.onFailure⟩

theorem undecided_addCertificate (hs : Undecided p c c' s) (d : Certificate) :
    Undecided p c c' { s with session := s.session.addCertificate d } := by
  obtain ⟨hp, ho, hsuccess, hfailure⟩ := undecided_addSeen hs d.name s.world
  exact ⟨hp, ho, hsuccess, hfailure⟩

theorem undecided_tick (hs : Undecided p c c' s) : Undecided p c c' (tick s) :=
  ⟨hs.packet, hs.outcome, hs.onSuccess, hs.onFailure⟩

theorem events_findTrusted {i : Interest} {found : Option Certificate} {w w' : World}
    (h : World.findTrusted i w = .ok found w') : w'.events = w.events := by
  obtain ⟨_, _, -, hleft⟩ := World.left_findTrusted i w
  rw [← Act.left_of_ok h, hleft]

/-- A step either leaves the session undecided or decides it and ends it. -/
theorem Step.reports (h : Step v env stage s notices stage' s') (henv : env.Silent)
    (hs : Undecided p c c' s) :
    stage' ≠ .ended ∧ Undecided p c c' s' ∧ s'.world.events = s.world.events ∨
      stage' = .ended ∧ Decided p s s' := by
  cases h with
  | bypass asked done =>
    obtain ⟨ht, he⟩ := undecided_of_ask hs asked
    exact .inr ⟨rfl, (ht.succeed done).after he⟩
  | refuse asked against done =>
    obtain ⟨ht, he⟩ := undecided_of_ask hs asked
    exact .inr ⟨rfl, (ht.fail done).after he⟩
  | require asked => exact .inl ⟨Stage.noConfusion, undecided_of_ask hs asked⟩
  | stop limit done => exact .inr ⟨rfl, hs.fail done⟩
  | conclude room new found done =>
    obtain ⟨w, hw, rfl⟩ := Act.within_ok found
    exact .inr ⟨rfl, ((undecided_addSeen hs _ w).conclude done).after (events_findTrusted hw)⟩
  | fetch room new missing begun =>
    obtain ⟨w, hw, rfl⟩ := Act.within_ok missing
    have he := henv.begins begun
    exact .inl ⟨Stage.noConfusion, undecided_addSeen hs _ _, he.trans (events_findTrusted hw)⟩
  | resume resumed =>
    have he := henv.resumes resumed
    exact .inl ⟨Stage.noConfusion, ⟨hs.packet, hs.outcome, hs.onSuccess, hs.onFailure⟩, he⟩
  | give done => exact .inr ⟨rfl, hs.fail done⟩
  | expire invalid done => exact .inr ⟨rfl, (undecided_tick hs).fail done⟩
  | takeIn valid asked =>
    obtain ⟨ht, he⟩ := undecided_of_ask (undecided_tick hs) asked
    exact .inl ⟨Stage.noConfusion, undecided_addCertificate ht _, he⟩
  | dismiss valid asked against done =>
    obtain ⟨ht, he⟩ := undecided_of_ask (undecided_tick hs) asked
    exact .inr ⟨rfl, (ht.fail done).after he⟩

/-- Until its end a session is undecided and silent; its last step decides it. -/
theorem Trail.reports (h : Trail v env start moves stage s) (henv : env.Silent)
    (hstart : Undecided p c c' start) :
    (stage ≠ .ended → Undecided p c c' s ∧ ∀ m ∈ moves, m.Silent) ∧
      (stage = .ended → Reported p moves s) := by
  induction h with
  | start => exact ⟨fun _ => ⟨hstart, by simp⟩, Stage.noConfusion⟩
  | @step moves notices stage stage' s s' _ hstep ih =>
    obtain ⟨hu, hsilent⟩ := ih.1 hstep.source_ne_ended
    rcases hstep.reports henv hu with ⟨hs, hu', he⟩ | ⟨rfl, hd⟩
    · refine ⟨fun _ => ⟨hu', fun m hm => ?_⟩, fun hend => absurd hend hs⟩
      rcases List.mem_append.1 hm with hm | hm
      · exact hsilent m hm
      · rw [List.mem_singleton.1 hm]
        exact ⟨hu'.outcome, he⟩
    · exact ⟨fun hs => absurd rfl hs, fun _ => ⟨moves, _, rfl, hsilent, hu.outcome, hd, rfl⟩⟩
  | disturb _ hw ih =>
    refine ⟨fun hs => ?_, ih.2⟩
    obtain ⟨⟨hp, ho, hsuccess, hfailure⟩, hsilent⟩ := ih.1 hs
    exact ⟨⟨hp, ho, hsuccess, hfailure⟩, hsilent⟩

theorem later_of_ask {subject : Subject} {verdict : Verdict}
    (h : ask subject s = .ok verdict s') : s.world.Later s'.world := by
  rw [(ask_ok h).2.1]
  exact World.later_checkPolicy s.world subject

theorem later_tick (s : Scene) : s.world.Later (tick s).world := ⟨rfl, rfl, fun _ ht => ht⟩

theorem Step.keeps {good : World → Prop} (h : Step v env stage s notices stage' s')
    (henv : env.Keeps good) (hlasts : ∀ w w', World.Later w w' → good w → good w')
    (hs : stage' ≠ .ended) (hg : good s.world) : good s'.world := by
  cases h with
  | require asked => exact hlasts _ _ (later_of_ask asked) hg
  | fetch room new missing begun =>
    obtain ⟨w, hw, rfl⟩ := Act.within_ok missing
    exact henv.begins begun (hlasts _ _ (World.later_findTrusted hw) hg)
  | resume resumed => exact henv.resumes resumed hg
  | takeIn valid asked =>
    have hw := (later_tick s).trans (later_of_ask asked)
    exact hlasts _ _ hw hg
  | _ => exact absurd rfl hs

/-- What lasts while the policies are asked and anchors searched holds until a session ends. -/
theorem Trail.keeps {good : World → Prop} (h : Trail v env start moves stage s)
    (henv : env.Keeps good) (hlasts : ∀ w w', World.Later w w' → good w → good w')
    (hstart : good start.world) (hs : stage ≠ .ended) : good s.world := by
  induction h with
  | start => exact hstart
  | @step _ _ stage _ _ _ _ hstep ih => exact hstep.keeps henv hlasts hs (ih hstep.source_ne_ended)
  | disturb _ hw ih => exact henv.disturbs hw (ih hs)

/-- Policies that leave hooks with Interests only do not stop a session. -/
theorem not_ask_error {subject : Subject} {fault : Fault} (hu : Undecided p c c' s)
    (hf : s.world.Fit p) (hsubject : (∃ d, p = .data d) → ∀ i, subject ≠ .interest i)
    (h : ask subject s = .error fault s') : False := by
  obtain ⟨-, -, hhooks, d, hd, -⟩ := ask_error h
  have hp : p = .data d := hu.packet.symm.trans hd
  exact hhooks (PolicyChain.checkFrom_hooks_eq_nil (hsubject ⟨d, hp⟩) (hf.hooks d hp))

/-- Nothing but the pause of a retrieval stops an undecided session in a world that is fit for
it. -/
theorem Breaks.of_fit {fault : Fault} (h : Breaks v stage s fault s') (hu : Undecided p c c' s)
    (hf : s.world.Fit p) : fault = .durationRange ∧
    ∃ r a, stage = .retrieving r (.pending (.pause a)) ∧ ¬ a.request.pause.twice.inRange := by
  cases h with
  | ask asked =>
    refine (not_ask_error hu hf (fun ⟨d, hd⟩ i hi => ?_) asked).elim
    rw [hu.packet, hd] at hi
    cases hi
  | search missing =>
    obtain ⟨w, hw, -⟩ := Act.within_error missing
    exact absurd (hf.renewable s.world.clock.readings) (World.findTrusted_error hw).2
  | wake woken =>
    obtain ⟨hfault, -, hrange⟩ := Fetcher.wake_error rfl woken
    exact ⟨hfault, _, _, rfl, hrange⟩
  | examine asked =>
    have hfit := (later_tick s).fit hf
    exact (not_ask_error (undecided_tick hu) hfit (fun _ _ => Subject.noConfusion) asked).elim
  | settled going h => exact absurd hu.outcome h

theorem silent_solitary (v : Validator) : (solitary v).Silent :=
  ⟨fun h => (Fetcher.fetch_ok h).2.events, fun h => (restocked_of_resumes h).events⟩

/-- The fetcher spoils nothing that hangs neither on the clock nor on the unverified
certificates. -/
theorem keeps_of_restocked {good : World → Prop} {answers : Interest → Response → Prop}
    {disturbs : World → World → Prop} (hgood : ∀ w w', World.Restocked w w' → good w → good w')
    (hdisturbs : ∀ w w', disturbs w w' → good w → good w') :
    (environment v answers disturbs).Keeps good :=
  ⟨fun h => hgood _ _ (Fetcher.fetch_ok h).2, fun h => hgood _ _ (restocked_of_resumes h),
    fun h => hdisturbs _ _ h⟩

theorem keeps_solitary (v : Validator) {good : World → Prop}
    (hlasts : ∀ w w', World.Later w w' → good w → good w') : (solitary v).Keeps good :=
  keeps_of_restocked (fun _ _ h => hlasts _ _ h.later) fun _ _ h => h.elim

def Stage.Patient : Stage → Prop
  | requesting r => r.Patient
  | retrieving _ (.pending p) => p.Patient
  | _ => True

theorem patient_of_ask {subject : Subject} {r : CertificateRequest} (hp : s.world.chain.Patient)
    (h : ask subject s = .ok (.request r) s') : r.Patient :=
  PolicyChain.checkFrom_patient hp (ask_ok h).1.symm

theorem Step.patient (h : Step v (solitary v) stage s notices stage' s')
    (hc : s.world.chain.Patient) (hp : stage.Patient) : stage'.Patient := by
  cases h with
  | require asked => exact patient_of_ask hc asked
  | @fetch _ _ r progress _ room new missing begun =>
    cases progress with
    | pending q =>
      obtain rfl := Fetcher.fetch_pending begun
      exact hp
    | _ => trivial
  | @resume _ r q progress _ resumed =>
    cases progress with
    | pending q' =>
      cases q with
      | answer a =>
        obtain ⟨response, -, hw⟩ := resumed
        exact Fetcher.receive_patient hw hp
      | pause a => exact Fetcher.wake_patient resumed hp
    | _ => trivial
  | takeIn valid asked => exact patient_of_ask ((later_tick s).patient hc) asked
  | _ => trivial

theorem Trail.patient (h : Trail v (solitary v) start moves stage s)
    (hstart : start.world.chain.Patient) : stage.Patient := by
  have hlasts : ∀ w w', World.Later w w' → w.chain.Patient → w'.chain.Patient :=
    fun _ _ hw => hw.patient
  induction h with
  | start => trivial
  | step ht hstep ih =>
    exact hstep.patient (ht.keeps (keeps_solitary v hlasts) hlasts hstart hstep.source_ne_ended) ih
  | disturb _ hw => exact hw.elim

theorem Trail.decided (h : Trail v (solitary v) start moves stage s)
    (hstart : Undecided p c c' start) :
    (stage ≠ .ended → s.world.events = start.world.events) ∧
      (stage = .ended → Decided p start s) := by
  induction h with
  | start => exact ⟨fun _ => rfl, Stage.noConfusion⟩
  | step ht hstep ih =>
    have hopen := hstep.source_ne_ended
    have hu := ((ht.reports (silent_solitary v) hstart).1 hopen).1
    rcases hstep.reports (silent_solitary v) hu with ⟨hs, -, he⟩ | ⟨rfl, hd⟩
    · exact ⟨fun _ => he.trans (ih.1 hopen), fun hend => absurd hend hs⟩
    · exact ⟨fun hs => absurd rfl hs, fun _ => hd.after (ih.1 hopen)⟩
  | disturb _ hw => exact hw.elim

theorem Ends.closes {task : Task} (h : Ends v start task w) (hstart : Undecided p c c' start)
    (hf : start.world.Fit p) : Closes v p start task w := by
  have hlasts : ∀ w w', World.Later w w' → w.Fit p → w'.Fit p := fun _ _ hw => hw.fit
  cases h with
  | ended trail =>
    obtain ⟨b, told, ho, htold, hb⟩ := (trail.decided hstart).2 rfl
    exact .reported ho htold hb
  | broken trail breaks =>
    have hopen := breaks.stage_ne_ended
    obtain ⟨hu, -⟩ := (trail.reports (silent_solitary v) hstart).1 hopen
    obtain ⟨rfl, r, a, rfl, hrange⟩ :=
      breaks.of_fit hu (trail.keeps (keeps_solitary v hlasts) hlasts hf hopen)
    have hsilent := (trail.decided hstart).1 hopen
    cases breaks with
    | wake woken =>
      obtain ⟨-, rfl, -⟩ := Fetcher.wake_error rfl woken
      exact .overrun trail hrange hsilent
    | settled going h => exact absurd hu.outcome h

theorem Closes.of_patient {task : Task} (h : Closes v p start task w)
    (hp : start.world.chain.Patient) : ∃ session, task = .ended session := by
  cases h with
  | reported => exact ⟨_, rfl⟩
  | @overrun _ _ a _ trail range _ =>
    exact absurd (trail.patient hp : (Pending.pause a).Patient).inRange range

theorem alone_closes (v : Validator) (c c' : Callback) (hf : World.Fit p w) (n : Network) :
    ∃ N task final, (∀ fuel ≥ N, Run.alone v fuel
        { packet := p, onSuccess := some c, onFailure := some c' } ⟨w, n⟩ = (task, final)) ∧
      Closes v p ⟨{ packet := p, onSuccess := some c, onFailure := some c' }, w⟩ task
        final.world := by
  obtain ⟨N, task, final, hN, hends⟩ :=
    exists_alone v { packet := p, onSuccess := some c, onFailure := some c' } rfl w n
  exact ⟨N, task, final, hN, hends.closes ⟨rfl, rfl, rfl, rfl⟩ hf⟩

theorem Trail.reportsOnce
    (h : Trail v env ⟨{ packet := p, onSuccess := some c, onFailure := some c' }, w⟩ moves stage s)
    (hsilent : env.Silent) (hkeeps : env.Keeps (World.Fit p)) (hf : w.Fit p) :
    ReportsOnce v env p moves stage s := by
  obtain ⟨hbefore, hafter⟩ := h.reports hsilent ⟨rfl, rfl, rfl, rfl⟩
  have hunstopped : ∀ fault s', Breaks v stage s fault s' → fault = .durationRange ∧
      ∃ r a, stage = .retrieving r (.pending (.pause a)) ∧ ¬ a.request.pause.twice.inRange := by
    intro fault s' hb
    have hs := hb.stage_ne_ended
    exact hb.of_fit (hbefore hs).1 (h.keeps hkeeps (fun _ _ hw => hw.fit) hf hs)
  have hbounded := (h.limited rfl).1.steps
  refine ⟨fun hs => ⟨(hbefore hs).1.outcome, (hbefore hs).2⟩, hafter, hunstopped, fun hbegins => ?_,
    hbounded⟩
  rcases step_or_breaks hbegins stage s with hs | hs | hs | ⟨fault, s', hb⟩
  · exact .inl hs
  · exact .inr (.inl hs)
  · exact .inr (.inr hs)
  · obtain ⟨-, r, a, rfl, -⟩ := hunstopped fault s' hb
    exact .inr (.inl ⟨r, _, rfl⟩)

def checked (p : Packet) (events : List Event) : Task → Except Fault Finding
  | .faulted fault => .error fault
  | _ => .ok (.ofEvents p events)

theorem Closes.agrees {task : Task} (h : Closes v p start task w)
    (hquiet : start.world.events = []) :
    Agrees p w.events (checked p w.events task) := by
  cases h with
  | reported outcome events tells =>
    rw [hquiet, List.nil_append] at events
    rw [events]
    cases tells with
    | success hooks _ => exact .valid hooks
    | failure e => exact .invalid e
  | overrun trail range silent =>
    rw [silent, hquiet]
    exact .overrun

/-- A check of a packet finds what its session tells. -/
theorem check_agrees (v : Validator) (hf : World.Fit p w) (n : Network) :
    ∃ N told result final,
      (∀ fuel ≥ N, (Run.alone v fuel { packet := p } ⟨{ w with events := [] }, n⟩).2.world.events =
        told ∧
        Run.check v fuel p ⟨w, n⟩ = (result, final)) ∧
      Agrees p told result ∧ (w.chain.Patient → ∃ f, result = .ok f) := by
  have hquiet : World.Fit p { w with events := [] } := ⟨hf.hooks, hf.renewable⟩
  obtain ⟨N, task, final, hN, hcloses⟩ := alone_closes v {} {} hquiet n
  refine ⟨N, final.world.events, checked p final.world.events task,
    { final with world := { final.world with events := w.events } }, fun fuel hfuel => ⟨?_, ?_⟩,
    hcloses.agrees rfl, fun hp => ?_⟩
  · rw [hN fuel hfuel]
  · rw [Run.check]
    dsimp only
    rw [hN fuel hfuel]
    cases task <;> rfl
  · obtain ⟨session, rfl⟩ := hcloses.of_patient hp
    exact ⟨_, rfl⟩

/-- A session of a packet has one outcome and reports it once, whatever retrieval comes to. Against
a network it does so unless a pause outgrows its range, and a check of the packet tells what it
reports. -/
theorem reports_once (v : Validator) (c c' : Callback) (hf : World.Fit p w) :
    (∀ env moves stage s, env.Silent → env.Keeps (World.Fit p) →
      Trail v env ⟨{ packet := p, onSuccess := some c, onFailure := some c' }, w⟩ moves stage s →
      ReportsOnce v env p moves stage s) ∧
    ∀ n,
      (∃ N task final, (∀ fuel ≥ N, Run.alone v fuel
          { packet := p, onSuccess := some c, onFailure := some c' } ⟨w, n⟩ = (task, final)) ∧
        Closes v p ⟨{ packet := p, onSuccess := some c, onFailure := some c' }, w⟩ task
          final.world ∧
        (w.chain.Patient → ∃ session, task = .ended session)) ∧
      ∃ N told result final,
        (∀ fuel ≥ N,
          (Run.alone v fuel { packet := p } ⟨{ w with events := [] }, n⟩).2.world.events = told ∧
          Run.check v fuel p ⟨w, n⟩ = (result, final)) ∧
        Agrees p told result ∧ (w.chain.Patient → ∃ f, result = .ok f) := by
  constructor
  case left => exact fun _ _ _ _ hsilent hkeeps h => h.reportsOnce hsilent hkeeps hf
  case right =>
    intro n
    obtain ⟨N, task, final, hN, hcloses⟩ := alone_closes v c c' hf n
    exact ⟨⟨N, task, final, hN, hcloses, hcloses.of_patient⟩, check_agrees v hf n⟩

end

def Sample.published : Network := { published := [leaf.data] }

theorem Sample.fit_world : World.Fit packet world := by
  constructor
  case hooks => exact fun _ _ _ hrule => absurd hrule List.not_mem_nil
  case renewable => exact fun _ _ hgroup => absurd hgroup List.not_mem_nil

/-- A packet that is found valid: success was told, and nothing else. -/
theorem reports_once_sample :
    World.Fit Sample.packet Sample.world ∧ Sample.world.chain.Patient ∧
      ∃ N told final, (∀ fuel ≥ N,
        (Run.alone Sample.validator fuel { packet := Sample.packet }
          ⟨{ Sample.world with events := [] }, Sample.published⟩).2.world.events = told ∧
        Run.check Sample.validator fuel Sample.packet ⟨Sample.world, Sample.published⟩ =
          (.ok (.valid Sample.packet), final)) ∧
        told = [.success Sample.packet.name] := by
  have hpatient : Sample.world.chain.Patient := fun _ hrule => absurd hrule List.not_mem_nil
  obtain ⟨-, N, told, result, final, hrun, hagrees, -⟩ :=
    (reports_once Sample.validator {} {} Sample.fit_world).2 Sample.published
  obtain ⟨hevents, hcheck⟩ := hrun (N + 3) (Nat.le_add_right N 3)
  have htold : told = [.success Sample.packet.name] := by
    rw [← hevents]
    rfl
  subst htold
  cases hagrees with
  | valid => exact ⟨Sample.fit_world, hpatient, N, _, final, hrun, rfl⟩

end Course

end PacketTrust
