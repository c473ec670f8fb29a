import PacketTrust.Proofs.Validation.Outcome
import PacketTrust.Proofs.Validation.Retrieval

/-! The course of a session, step by step. Each step is one action of the validator, and between two
steps others may act on the world. What a session learns on its way is noted. Main statement:
whatever a validator does for a session is such a course. -/

namespace PacketTrust.Course

open Scene Validator

/-- Where a session stands between two of its steps. -/
inductive Stage where
  /-- The policies have not been asked about the packet. -/
  | opening
  | requesting (request : CertificateRequest)
  /-- The retrieval for a request has got so far. -/
  | retrieving (request : CertificateRequest) (progress : Progress)
  | ended

inductive Notice where
  /-- What the policies say of the packet. -/
  | judged (verdict : Verdict)
  /-- The anchors or the verified certificates answer a request, after so many calls of the
  verifier. -/
  | trusted (request : CertificateRequest) (certificate : Certificate) (calls : Nat)
  /-- A request was answered by retrieval. -/
  | retrieved (request : CertificateRequest) (certificate : Certificate)
  /-- What the policies say of a certificate that is valid at the reading of the clock. -/
  | examined (certificate : Certificate) (time : Instant) (verdict : Verdict)

/-- All that is not the session: retrieval, and those who share the world. -/
structure Environment where
  /-- What a retrieval may come to when it begins. -/
  begins : CertificateRequest → World → Progress → World → Prop
  /-- What it may come to when it goes on after a wait. -/
  resumes : Pending → World → Progress → World → Prop
  /-- What others may make of the world. -/
  disturbs : World → World → Prop

def tick (s : Scene) : Scene := { s with world.clock := s.world.clock.next }

inductive Step (v : Validator) (env : Environment) :
    Stage → Scene → List Notice → Stage → Scene → Prop
  | bypass {s t s' : Scene} (asked : ask s.session.packet.subject s = .ok .accept t)
      (done : succeed t = .ok () s') : Step v env .opening s [.judged .accept] .ended s'
  | refuse {s t s' : Scene} {verdict : Verdict} {e : ValidationError}
      (asked : ask s.session.packet.subject s = .ok verdict t)
      (against : verdict ≠ .accept ∧ ∀ r, verdict ≠ .request r)
      (done : fail e t = .ok () s') : Step v env .opening s [.judged verdict] .ended s'
  | require {s s' : Scene} {r : CertificateRequest}
      (asked : ask s.session.packet.subject s = .ok (.request r) s') :
      Step v env .opening s [.judged (.request r)] (.requesting r) s'
  | stop {s s' : Scene} {r : CertificateRequest} {e : ValidationError}
      (limit : v.maxDepth ≤ s.session.depth ∨ s.session.hasSeen r.name)
      (done : fail e s = .ok () s') : Step v env (.requesting r) s [] .ended s'
  | conclude {s t s' : Scene} {r : CertificateRequest} {c : Certificate}
      (room : s.session.depth < v.maxDepth) (new : s.session.hasSeen r.name = false)
      (found : onWorld (World.findTrusted r.interest)
        { s with session := s.session.addSeen r.name } = .ok (some c) t)
      (done : v.conclude c t = .ok () s') :
      Step v env (.requesting r) s [.trusted r c t.world.calls] .ended s'
  | fetch {s t : Scene} {r : CertificateRequest} {progress : Progress} {w : World}
      (room : s.session.depth < v.maxDepth) (new : s.session.hasSeen r.name = false)
      (missing : onWorld (World.findTrusted r.interest)
        { s with session := s.session.addSeen r.name } = .ok none t)
      (begun : env.begins r t.world progress w) :
      Step v env (.requesting r) s [] (.retrieving r progress) { t with world := w }
  | resume {s : Scene} {r : CertificateRequest} {p : Pending} {progress : Progress} {w : World}
      (resumed : env.resumes p s.world progress w) :
      Step v env (.retrieving r (.pending p)) s [] (.retrieving r progress) { s with world := w }
  | give {s s' : Scene} {r : CertificateRequest} {e : ValidationError}
      (done : fail e s = .ok () s') : Step v env (.retrieving r (.failed e)) s [] .ended s'
  | expire {s s' : Scene} {r : CertificateRequest} {c : Certificate} {e : ValidationError}
      (invalid : ¬ c.ValidAt s.world.now) (done : fail e (tick s) = .ok () s') :
      Step v env (.retrieving r (.found c)) s [.retrieved r c] .ended s'
  | takeIn {s t : Scene} {r next : CertificateRequest} {c : Certificate}
      (valid : c.ValidAt s.world.now)
      (asked : ask (.certificate c) (tick s) = .ok (.request next) t) :
      Step v env (.retrieving r (.found c)) s
        [.retrieved r c, .examined c s.world.now (.request next)] (.requesting next)
        { t with session := t.session.addCertificate c }
  | dismiss {s t s' : Scene} {r : CertificateRequest} {c : Certificate} {verdict : Verdict}
      {e : ValidationError} (valid : c.ValidAt s.world.now)
      (asked : ask (.certificate c) (tick s) = .ok verdict t)
      (against : ∀ next, verdict ≠ .request next) (done : fail e t = .ok () s') :
      Step v env (.retrieving r (.found c)) s
        [.retrieved r c, .examined c s.world.now verdict] .ended s'

/-- Where a session may be that began in a scene, and what it learnt up to there. -/
inductive Reaches (v : Validator) (env : Environment) (start : Scene) :
    List Notice → Stage → Scene → Prop
  | start : Reaches v env start [] .opening start
  | step {notices more : List Notice} {stage stage' : Stage} {s s' : Scene} :
      Reaches v env start notices stage s → Step v env stage s more stage' s' →
      Reaches v env start (notices ++ more) stage' s'
  | disturb {notices : List Notice} {stage : Stage} {s : Scene} {w : World} :
      Reaches v env start notices stage s → env.disturbs s.world w →
      Reaches v env start notices stage { s with world := w }

def Stage.Shows : Stage → Status → Prop
  | ended, .ended => True
  | retrieving _ (.pending p), .waiting q => p = q
  | _, _ => False

/-- The fetcher of the validator, on a network whose answers are the given ones. -/
def environment (v : Validator) (answers : Interest → Response → Prop)
    (disturbs : World → World → Prop) : Environment where
  begins r w progress w' := v.fetcher.fetch r w = .ok progress w'
  resumes
    | .answer a, w, progress, w' => ∃ response, answers a.request.interest response ∧
        v.fetcher.receive a response w = .ok progress w'
    | .pause a, w, progress, w' => v.fetcher.wake a w = .ok progress w'
  disturbs := disturbs

/-- What a validator makes of a session: it starts it, and resumes it when its wait is over. -/
inductive Drives (v : Validator) (answers : Interest → Response → Prop)
    (disturbs : World → World → Prop) (start : Scene) : Status → Scene → Prop
  | start {status : Status} {s : Scene} :
      v.start start = .ok status s → Drives v answers disturbs start status s
  | receive {status : Status} {s s' : Scene} {a : Attempt} {response : Response} :
      Drives v answers disturbs start (.waiting (.answer a)) s →
      answers a.request.interest response → v.receive a response s = .ok status s' →
      Drives v answers disturbs start status s'
  | wake {status : Status} {s s' : Scene} {a : Attempt} :
      Drives v answers disturbs start (.waiting (.pause a)) s → v.wake a s = .ok status s' →
      Drives v answers disturbs start status s'
  | disturb {status : Status} {s : Scene} {w : World} :
      Drives v answers disturbs start status s → disturbs s.world w →
      Drives v answers disturbs start status { s with world := w }

structure Move where
  source : Stage
  before : Scene
  notices : List Notice
  target : Stage
  after : Scene

inductive Steps (v : Validator) (env : Environment) :
    Stage → Scene → List Move → Stage → Scene → Prop
  | refl {stage : Stage} {s : Scene} : Steps v env stage s [] stage s
  | head {stage stage' stage'' : Stage} {s s' s'' : Scene} {notices : List Notice}
      {moves : List Move} :
      Step v env stage s notices stage' s' → Steps v env stage' s' moves stage'' s'' →
      Steps v env stage s (⟨stage, s, notices, stage', s'⟩ :: moves) stage'' s''

/-- Where a session may be that began in a scene, and the steps that it took there. -/
inductive Trail (v : Validator) (env : Environment) (start : Scene) :
    List Move → Stage → Scene → Prop
  | start : Trail v env start [] .opening start
  | step {moves : List Move} {notices : List Notice} {stage stage' : Stage} {s s' : Scene} :
      Trail v env start moves stage s → Step v env stage s notices stage' s' →
      Trail v env start (moves ++ [⟨stage, s, notices, stage', s'⟩]) stage' s'
  | disturb {moves : List Move} {stage : Stage} {s : Scene} {w : World} :
      Trail v env start moves stage s → env.disturbs s.world w →
      Trail v env start moves stage { s with world := w }

/-- Where a session is stopped by a fault in the middle of its next step. -/
inductive Breaks (v : Validator) : Stage → Scene → Fault → Scene → Prop
  | ask {s s' : Scene} {fault : Fault}
      (asked : Validator.ask s.session.packet.subject s = .error fault s') :
      Breaks v .opening s fault s'
  | search {s s' : Scene} {r : CertificateRequest} {fault : Fault}
      (missing : onWorld (World.findTrusted r.interest)
        { s with session := s.session.addSeen r.name } = .error fault s') :
      Breaks v (.requesting r) s fault s'
  | wake {s : Scene} {r : CertificateRequest} {a : Attempt} {w : World} {fault : Fault}
      (woken : v.fetcher.wake a s.world = .error fault w) :
      Breaks v (.retrieving r (.pending (.pause a))) s fault { s with world := w }
  | examine {s s' : Scene} {r : CertificateRequest} {c : Certificate} {fault : Fault}
      (asked : Validator.ask (.certificate c) (tick s) = .error fault s') :
      Breaks v (.retrieving r (.found c)) s fault s'
  /-- The session has its outcome already. -/
  | settled {stage : Stage} {s s' : Scene} {fault : Fault} (going : stage ≠ .ended)
      (h : s.session.outcome ≠ none) : Breaks v stage s fault s'

/-- An action takes a session along its course, to where it ends or waits or is stopped. -/
def InSteps (v : Validator) (env : Environment) (stage : Stage) (s : Scene) :
    EStateM.Result Fault Scene Status → Prop
  | .ok status s' => ∃ moves stage', Steps v env stage s moves stage' s' ∧ stage'.Shows status
  | .error fault s' => ∃ moves stage' t, Steps v env stage s moves stage' t ∧
      Breaks v stage' t fault s'

section

variable {v : Validator} {env : Environment} {start s s' : Scene} {notices : List Notice}
  {moves more : List Move} {stage stage' : Stage}

theorem Step.source_ne_ended (h : Step v env stage s notices stage' s') : stage ≠ .ended := by
  cases h <;> exact Stage.noConfusion

theorem Breaks.stage_ne_ended {fault : Fault} (h : Breaks v stage s fault s') : stage ≠ .ended := by
  cases h with
  | settled going h => exact going
  | _ => exact Stage.noConfusion

theorem Trail.reaches (h : Trail v env start moves stage s) :
    Reaches v env start (moves.flatMap (·.notices)) stage s := by
  induction h with
  | start => exact .start
  | step _ hstep ih =>
    rw [List.flatMap_append, List.flatMap_singleton]
    exact ih.step hstep
  | disturb _ hw ih => exact ih.disturb hw

theorem Trail.steps (h : Trail v env start moves stage s)
    (hs : Steps v env stage s more stage' s') : Trail v env start (moves ++ more) stage' s' := by
  induction hs generalizing moves with
  | refl => rwa [List.append_nil]
  | head hstep _ ih =>
    rw [List.append_cons]
    exact ih (h.step hstep)

theorem Trail.step_of_mem (h : Trail v env start moves stage s) :
    ∀ m ∈ moves, Step v env m.source m.before m.notices m.target m.after := by
  induction h with
  | start => simp
  | step _ hstep ih =>
    intro m hm
    rcases List.mem_append.1 hm with hm | hm
    · exact ih m hm
    · rwa [List.mem_singleton.1 hm]
  | disturb _ _ ih => exact ih

theorem addCertificate_depth (session : Session) (c : Certificate) :
    (session.addCertificate c).depth = session.depth + 1 := by
  rfl

theorem addSeen_eq (session : Session) (n : Name) :
    ∃ seen, session.addSeen n = { session with seen } := by
  unfold Session.addSeen
  split <;> exact ⟨_, rfl⟩

theorem addSeen_depth (session : Session) (n : Name) :
    (session.addSeen n).depth = session.depth := by
  obtain ⟨seen, h⟩ := addSeen_eq session n
  rw [h]
  rfl

theorem Stage.Shows.waiting {p : Pending} (h : stage.Shows (.waiting p)) :
    ∃ r, stage = .retrieving r (.pending p) := by
  cases stage with
  | retrieving r progress =>
    cases progress with
    | pending q => exact ⟨r, congrArg _ (congrArg _ h)⟩
    | _ => cases h
  | _ => cases h

theorem Stage.Shows.ended (h : stage.Shows .ended) : stage = .ended := by
  cases stage with
  | ended => rfl
  | retrieving r progress => cases progress <;> cases h
  | _ => cases h

theorem InSteps.head {result : EStateM.Result Fault Scene Status}
    (hstep : Step v env stage s notices stage' s') (h : InSteps v env stage' s' result) :
    InSteps v env stage s result := by
  cases result with
  | ok status t =>
    obtain ⟨moves, stage'', hs, hshows⟩ := h
    exact ⟨_, _, .head hstep hs, hshows⟩
  | error fault t =>
    obtain ⟨moves, stage'', t', hs, hb⟩ := h
    exact ⟨_, _, _, .head hstep hs, hb⟩

theorem InSteps.of_breaks {fault : Fault} (h : Breaks v stage s fault s') :
    InSteps v env stage s (.error fault s') := ⟨_, _, _, .refl, h⟩

/-- An action that ends the session is its last step. -/
theorem InSteps.of_end {act : Act Scene Unit} {t : Scene} (hs : stage ≠ .ended)
    (hstep : ∀ s', act t = .ok () s' → Step v env stage s notices .ended s')
    (herror : ∀ fault s', act t = .error fault s' → s.session.outcome ≠ none) :
    InSteps v env stage s ((act >>= fun _ => pure .ended) t) := by
  cases h : act t with
  | ok _ t =>
    rw [Act.bind_of_ok h]
    exact ⟨_, _, .head (hstep t h) .refl, trivial⟩
  | error fault t =>
    rw [Act.bind_of_error h]
    exact .of_breaks (.settled hs (herror fault t h))

theorem step_of_accept {r : CertificateRequest} {c : Certificate}
    {answer : Option CertificateRequest} (h : accept c s = .ok answer s') :
    ∃ notices, Step v env (.retrieving r (.found c)) s notices (answer.elim .ended .requesting) s' ∧
      (answer.isSome → s'.session.depth = s.session.depth + 1) := by
  obtain ⟨now, t, h₁, h⟩ := Act.bind_ok h
  cases h₁
  split at h
  · rename_i hv
    obtain ⟨_, t, h₂, h⟩ := Act.bind_ok h
    cases h
    exact ⟨_, .expire hv h₂, by simp⟩
  · rename_i hv
    have hv := Decidable.not_not.1 hv
    obtain ⟨verdict, t, h₂, h⟩ := Act.bind_ok h
    split at h
    · cases h
      refine ⟨_, .takeIn hv h₂, fun _ => ?_⟩
      obtain ⟨-, -, hs⟩ := ask_ok h₂
      rw [addCertificate_depth, Session.depth, hs]
      rfl
    all_goals
      obtain ⟨_, t, h₃, h⟩ := Act.bind_ok h
      cases h
      exact ⟨_, .dismiss hv h₂ (by simp) h₃, by simp⟩

theorem breaks_of_accept {r : CertificateRequest} {c : Certificate} {fault : Fault}
    (h : accept c s = .error fault s') : Breaks v (.retrieving r (.found c)) s fault s' := by
  rcases Act.bind_error h with h₁ | ⟨now, t, h₁, h⟩
  · cases h₁
  cases h₁
  split at h
  · rcases Act.bind_error h with h | ⟨_, _, -, h⟩
    · exact .settled Stage.noConfusion (fail_error (s := tick s) h)
    · cases h
  · rcases Act.bind_error h with h | ⟨verdict, t, h₂, h⟩
    · exact .examine h
    obtain ⟨-, -, hs⟩ := ask_ok h₂
    have ho : t.session.outcome = s.session.outcome := by rw [hs]
    split at h
    · cases h
    all_goals
      rcases Act.bind_error h with h | ⟨_, _, -, h⟩
      · exact .settled Stage.noConfusion (ho ▸ fail_error h)
      · cases h

variable {answers : Interest → Response → Prop} {disturbs : World → World → Prop} {status : Status}

/-- What a retrieval has come to is a step, and a request that follows is left to what comes
next. -/
theorem inSteps_settle {r : CertificateRequest} {progress : Progress}
    {next : CertificateRequest → Act Scene Status}
    (hn : ∀ r t, t.session.depth = s.session.depth + 1 →
      InSteps v env (.requesting r) t (next r t)) :
    InSteps v env (.retrieving r progress) s (settle next progress s) := by
  cases progress with
  | found c =>
    rw [settle]
    cases h : accept c s with
    | ok answer t =>
      rw [Act.bind_of_ok h]
      obtain ⟨notices, hstep, hd⟩ := step_of_accept (v := v) (r := r) h
      cases answer with
      | none => exact ⟨_, _, .head hstep .refl, trivial⟩
      | some r => exact .head hstep (hn r t (hd rfl))
    | error fault t =>
      rw [Act.bind_of_error h]
      exact .of_breaks (breaks_of_accept h)
  | failed e => exact .of_end Stage.noConfusion (fun _ h => .give h) fun _ _ h => fail_error h
  | pending p => exact ⟨_, _, .refl, rfl⟩

/-- In the environment, retrieval begins as the fetcher of the validator begins it. -/
def Environment.Fetches (env : Environment) (v : Validator) : Prop :=
  ∀ r w progress w', v.fetcher.fetch r w = .ok progress w' → env.begins r w progress w'

theorem inSteps_pursue (henv : env.Fetches v) {r : CertificateRequest} {room : Nat}
    (hroom : room = v.maxDepth - s.session.depth) :
    InSteps v env (.requesting r) s (v.pursue room r s) := by
  induction room generalizing r s with
  | zero =>
    have hlimit : v.maxDepth ≤ s.session.depth := by omega
    exact .of_end Stage.noConfusion (fun _ h => .stop (.inl hlimit) h) fun _ _ h => fail_error h
  | succ room ih =>
    rw [pursue, Act.get_bind]
    split
    · rename_i hseen
      exact .of_end Stage.noConfusion (fun _ h => .stop (.inr hseen) h) fun _ _ h => fail_error h
    · rename_i hseen
      have hnew : s.session.hasSeen r.name = false := by simpa using hseen
      have hdepth : s.session.depth < v.maxDepth := by omega
      rw [updateSession_bind]
      cases h : onWorld (World.findTrusted r.interest)
        { s with session := s.session.addSeen r.name } with
      | error fault t =>
        rw [Act.bind_of_error h]
        exact .of_breaks (.search h)
      | ok found t =>
        rw [Act.bind_of_ok h]
        obtain ⟨w, -, rfl⟩ := Act.within_ok h
        cases found with
        | some trusted =>
          refine .of_end Stage.noConfusion (fun _ hc => .conclude hdepth hnew h hc) fun _ _ hc => ?_
          obtain ⟨seen, hs⟩ := addSeen_eq s.session r.name
          have ho := conclude_error hc
          rwa [hs] at ho
        | none =>
          have hfetch := Fetcher.fetch_eq (f := v.fetcher) rfl r w
          dsimp only
          rw [Act.bind_of_ok (onWorld_of_ok (s := ⟨s.session.addSeen r.name, w⟩) hfetch)]
          refine .head (.fetch hdepth hnew h (henv _ _ _ _ hfetch))
            (inSteps_settle fun r t ht => ih ?_)
          change _ = (s.session.addSeen _).depth + 1 at ht
          rw [addSeen_depth] at ht
          omega

theorem inSteps_proceed (henv : env.Fetches v) (r : CertificateRequest) (progress : Progress)
    (s : Scene) : InSteps v env (.retrieving r progress) s (v.proceed progress s) :=
  inSteps_settle fun _ _ _ => inSteps_pursue henv rfl

theorem inSteps_start (henv : env.Fetches v) (s : Scene) :
    InSteps v env .opening s (v.start s) := by
  rw [Validator.start, Act.get_bind]
  cases h : ask s.session.packet.subject s with
  | error fault t =>
    rw [Act.bind_of_error h]
    exact .of_breaks (.ask h)
  | ok verdict t =>
    rw [Act.bind_of_ok h]
    obtain ⟨-, -, hs⟩ := ask_ok h
    have ho : t.session.outcome = s.session.outcome := by rw [hs]
    cases verdict with
    | request r => exact .head (.require h) (inSteps_pursue henv rfl)
    | accept =>
      exact .of_end Stage.noConfusion (fun _ hd => .bypass h hd) fun _ _ hd => ho ▸ succeed_error hd
    | reject e =>
      exact .of_end Stage.noConfusion (fun _ hd => .refuse h (by simp) hd) fun _ _ hd =>
        ho ▸ fail_error hd
    | pass =>
      exact .of_end Stage.noConfusion (fun _ hd => .refuse h (by simp) hd) fun _ _ hd =>
        ho ▸ fail_error hd

theorem fetches_environment (v : Validator) (answers : Interest → Response → Prop)
    (disturbs : World → World → Prop) : (environment v answers disturbs).Fetches v :=
  fun _ _ _ _ h => h

theorem inSteps_receive (answers : Interest → Response → Prop) (disturbs : World → World → Prop)
    (r : CertificateRequest) (a : Attempt) (response : Response) (s : Scene)
    (ha : answers a.request.interest response) :
    InSteps v (environment v answers disturbs) (.retrieving r (.pending (.answer a))) s
      (v.receive a response s) := by
  obtain ⟨progress, w, h⟩ := Fetcher.receive_of_wired (f := v.fetcher) rfl a response s.world
  rw [Validator.receive, Act.bind_of_ok (onWorld_of_ok h)]
  exact .head (.resume ⟨response, ha, h⟩) (inSteps_proceed (fetches_environment v _ _) r progress _)

theorem inSteps_wake (answers : Interest → Response → Prop) (disturbs : World → World → Prop)
    (r : CertificateRequest) (a : Attempt) (s : Scene) :
    InSteps v (environment v answers disturbs) (.retrieving r (.pending (.pause a))) s
      (v.wake a s) := by
  rw [Validator.wake]
  cases h : v.fetcher.wake a s.world with
  | ok progress w =>
    rw [Act.bind_of_ok (onWorld_of_ok h)]
    exact .head (.resume h) (inSteps_proceed (fetches_environment v _ _) r progress _)
  | error fault w =>
    rw [Act.bind_of_error (onWorld_of_error h)]
    exact .of_breaks (.wake h)

/-- An action that ends the session is a step, unless a fault of a session that has its outcome
stops it. -/
theorem step_or_breaks_of_end {act : Act Scene Unit} {t : Scene} (hs : stage ≠ .ended)
    (hstep : ∀ s', act t = .ok () s' → Step v env stage s notices .ended s')
    (herror : ∀ fault s', act t = .error fault s' → s.session.outcome ≠ none) :
    (∃ notices stage' s', Step v env stage s notices stage' s') ∨
      ∃ fault s', Breaks v stage s fault s' := by
  cases h : act t with
  | ok _ s' => exact .inl ⟨_, _, _, hstep s' h⟩
  | error fault s' => exact .inr ⟨fault, s', .settled hs (herror fault s' h)⟩

theorem step_or_breaks_opening (s : Scene) :
    (∃ notices stage' s', Step v env .opening s notices stage' s') ∨
      ∃ fault s', Breaks v .opening s fault s' := by
  cases h : ask s.session.packet.subject s with
  | error fault t => exact .inr ⟨_, _, .ask h⟩
  | ok verdict t =>
    have ho : t.session.outcome = s.session.outcome := by rw [(ask_ok h).2.2]
    cases verdict with
    | request r => exact .inl ⟨_, _, _, .require h⟩
    | accept =>
      exact step_or_breaks_of_end Stage.noConfusion (fun _ hd => .bypass h hd)
        fun _ _ hd => ho ▸ succeed_error hd
    | reject e =>
      exact step_or_breaks_of_end Stage.noConfusion (fun _ hd => .refuse (e := e) h (by simp) hd)
        fun _ _ hd => ho ▸ fail_error hd
    | pass =>
      exact step_or_breaks_of_end Stage.noConfusion
        (fun _ hd => .refuse (e := ⟨.implementation, ""⟩) h (by simp) hd)
        fun _ _ hd => ho ▸ fail_error hd

theorem step_or_breaks_requesting (hbegins : ∀ r w, ∃ progress w', env.begins r w progress w')
    (r : CertificateRequest) (s : Scene) :
    (∃ notices stage' s', Step v env (.requesting r) s notices stage' s') ∨
      ∃ fault s', Breaks v (.requesting r) s fault s' := by
  by_cases hlimit : v.maxDepth ≤ s.session.depth ∨ s.session.hasSeen r.name
  · exact step_or_breaks_of_end Stage.noConfusion
      (fun _ hd => .stop (e := ⟨.loop, ""⟩) hlimit hd) fun _ _ hd => fail_error hd
  rw [not_or, Nat.not_le, Bool.not_eq_true] at hlimit
  obtain ⟨hroom, hnew⟩ := hlimit
  cases h : onWorld (World.findTrusted r.interest)
    { s with session := s.session.addSeen r.name } with
  | error fault t => exact .inr ⟨_, _, .search h⟩
  | ok found t =>
    cases found with
    | none =>
      obtain ⟨progress, w, hw⟩ := hbegins r t.world
      exact .inl ⟨_, _, _, .fetch hroom hnew h hw⟩
    | some trusted =>
      obtain ⟨w, -, rfl⟩ := Act.within_ok h
      refine step_or_breaks_of_end Stage.noConfusion
        (fun _ hd => .conclude hroom hnew h hd) fun _ _ hd => ?_
      obtain ⟨seen, hs⟩ := addSeen_eq s.session r.name
      have ho := conclude_error hd
      rwa [hs] at ho

/-- A session that has not ended and does not wait can go on, unless a fault stops it. -/
theorem step_or_breaks (hbegins : ∀ r w, ∃ progress w', env.begins r w progress w')
    (stage : Stage) (s : Scene) :
    stage = .ended ∨ (∃ r p, stage = .retrieving r (.pending p)) ∨
      (∃ notices stage' s', Step v env stage s notices stage' s') ∨
      ∃ fault s', Breaks v stage s fault s' := by
  cases stage with
  | ended => exact .inl rfl
  | opening => exact .inr (.inr (step_or_breaks_opening s))
  | requesting r => exact .inr (.inr (step_or_breaks_requesting hbegins r s))
  | retrieving r progress =>
    cases progress with
    | pending p => exact .inr (.inl ⟨r, p, rfl⟩)
    | failed e =>
      exact .inr (.inr (step_or_breaks_of_end Stage.noConfusion (fun _ hd => .give hd)
        fun _ _ hd => fail_error hd))
    | found c =>
      refine .inr (.inr ?_)
      cases h : accept c s with
      | ok answer t =>
        obtain ⟨notices, hstep, -⟩ := step_of_accept (v := v) (r := r) h
        exact .inl ⟨_, _, _, hstep⟩
      | error fault t => exact .inr ⟨_, _, breaks_of_accept h⟩

/-- The start of a session takes at least one step, before anybody else acts. -/
theorem exists_first_of_start {moves : List Move} (h : Steps v env .opening s moves stage s')
    (hshows : stage.Shows status) : ∃ first more, moves = first :: more ∧ first.before = s := by
  cases h with
  | refl => cases hshows
  | head hstep hsteps => exact ⟨_, _, rfl, rfl⟩

/-- Whatever a validator makes of a session is a course of it, from where the session started. -/
theorem Drives.trail_from_start (h : Drives v answers disturbs start status s) :
    ∃ first moves stage, Trail v (environment v answers disturbs) start (first :: moves) stage s ∧
      first.before = start ∧ stage.Shows status := by
  induction h with
  | start hs =>
    have hinSteps := inSteps_start (fetches_environment v answers disturbs) start
    rw [hs] at hinSteps
    obtain ⟨_, stage, hsteps, hshows⟩ := hinSteps
    obtain ⟨first, moves, rfl, hfirst⟩ := exists_first_of_start hsteps hshows
    exact ⟨first, moves, stage, Trail.start.steps hsteps, hfirst, hshows⟩
  | @receive status s _ a _ _ ha hr ih =>
    obtain ⟨first, moves, _, h, hfirst, hshows⟩ := ih
    obtain ⟨r, rfl⟩ := hshows.waiting
    have hinSteps := inSteps_receive (v := v) answers disturbs r a _ s ha
    rw [hr] at hinSteps
    obtain ⟨more, stage, hsteps, hshows⟩ := hinSteps
    exact ⟨first, moves ++ more, stage, h.steps hsteps, hfirst, hshows⟩
  | @wake status s _ a _ hr ih =>
    obtain ⟨first, moves, _, h, hfirst, hshows⟩ := ih
    obtain ⟨r, rfl⟩ := hshows.waiting
    have hinSteps := inSteps_wake (v := v) answers disturbs r a s
    rw [hr] at hinSteps
    obtain ⟨more, stage, hsteps, hshows⟩ := hinSteps
    exact ⟨first, moves ++ more, stage, h.steps hsteps, hfirst, hshows⟩
  | disturb _ hw ih =>
    obtain ⟨first, moves, stage, h, hfirst, hshows⟩ := ih
    exact ⟨first, moves, stage, h.disturb hw, hfirst, hshows⟩

theorem Drives.trail (h : Drives v answers disturbs start status s) :
    ∃ moves stage, Trail v (environment v answers disturbs) start moves stage s ∧
      stage.Shows status := by
  obtain ⟨first, moves, stage, h, -, hshows⟩ := h.trail_from_start
  exact ⟨_, stage, h, hshows⟩

theorem Drives.reaches (h : Drives v answers disturbs start status s) :
    ∃ notices stage, Reaches v (environment v answers disturbs) start notices stage s ∧
      stage.Shows status := by
  obtain ⟨moves, stage, h, hshows⟩ := h.trail
  exact ⟨_, stage, h.reaches, hshows⟩

end

end PacketTrust.Course
