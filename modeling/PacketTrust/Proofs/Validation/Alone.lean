import PacketTrust.Proofs.Validation.Limits
import PacketTrust.Validation.Run

/-! A session that runs alone against a network. However the network answers, the run comes to its
end, and it is a course of the session. Main statement: with enough fuel a run ends, or meets a
fault. -/

namespace PacketTrust

open Course

/-- How far a retrieval is from its end: it waits for each attempt that is left, and for the pause
before it. -/
def Pending.rank : Pending → Nat
  | answer a => 2 * a.request.retriesLeft.toNat
  | pause a => 2 * a.request.retriesLeft.toNat + 1

namespace Fetcher

variable {f : Fetcher} {w w' : World} {a : Attempt} {p : Pending}

theorem receive_rank {response : Response} (h : f.receive a response w = .ok (.pending p) w') :
    p.rank < (Pending.answer a).rank := by
  obtain ⟨hleft, hp⟩ := receive_pending h
  have hr : p.attempt.request.retriesLeft = a.request.retriesLeft - 1 := by rw [hp]
  cases p with
  | answer b =>
    rw [Pending.rank, Pending.rank]
    change b.request.retriesLeft = _ at hr
    omega
  | pause b =>
    rw [Pending.rank, Pending.rank]
    change b.request.retriesLeft = _ at hr
    omega

theorem wake_rank (h : f.wake a w = .ok (.pending p) w') : p.rank < (Pending.pause a).rank := by
  rw [wake_pending h]
  exact Nat.lt_succ_self _

end Fetcher

namespace Course

variable {v : Validator} {env : Environment} {start s s' : Scene} {notices : List Notice}
  {moves : List Move} {stage stage' : Stage}

/-- The network may answer anything, and nobody else acts. -/
def solitary (v : Validator) : Environment :=
  environment v (fun _ _ => True) fun _ _ => False

theorem restocked_of_resumes {v : Validator} {answers : Interest → Response → Prop}
    {disturbs : World → World → Prop} {q : Pending} {w w' : World} {progress : Progress}
    (h : (environment v answers disturbs).resumes q w progress w') : w.Restocked w' := by
  cases q with
  | answer a =>
    obtain ⟨response, -, h⟩ := h
    exact (Fetcher.receive_ok h).2
  | pause a => exact (Fetcher.wake_ok h).2

def unbroken (v : Validator) : Environment where
  begins r w progress w' := v.fetcher.fetch r w = .ok progress w'
  resumes _ _ _ _ := False
  disturbs _ _ := False

theorem Step.depth_le (h : Step v env stage s notices stage' s') (hs : stage' ≠ .ended) :
    s.session.depth ≤ s'.session.depth := by
  cases h with
  | require asked => exact Nat.le_of_eq (depth_of_ask asked).symm
  | fetch room new missing begun =>
    obtain ⟨w, -, rfl⟩ := Act.within_ok missing
    exact Nat.le_of_eq (addSeen_depth _ _).symm
  | resume resumed => exact Nat.le_refl _
  | takeIn valid asked =>
    have hd := depth_of_ask (s := tick s) asked
    exact Nat.le_succ_of_le (Nat.le_of_eq hd.symm)
  | _ => exact absurd rfl hs

theorem Steps.depth_le (h : Steps v env stage s moves stage' s') (hs : stage' ≠ .ended) :
    s.session.depth ≤ s'.session.depth := by
  induction h with
  | refl => exact Nat.le_refl _
  | @head stage₁ stage₂ _ _ _ _ _ _ hstep hsteps ih =>
    refine Nat.le_trans (hstep.depth_le fun he => ?_) (ih hs)
    subst he
    cases hsteps with
    | refl => exact hs rfl
    | head hstep => cases hstep

theorem waiting_of_proceed {progress : Progress} {p : Pending}
    (h : v.proceed progress s = .ok (.waiting p) s') :
    progress = .pending p ∧ s' = s ∨ s.session.depth < s'.session.depth := by
  have henv : (unbroken v).Fetches v := fun _ _ _ _ h => h
  have hinSteps := inSteps_proceed henv (.ofName ⟨[]⟩) progress s
  rw [h] at hinSteps
  obtain ⟨moves, stage, hsteps, hshows⟩ := hinSteps
  obtain ⟨r, rfl⟩ := hshows.waiting
  cases hsteps with
  | refl => exact .inl ⟨rfl, rfl⟩
  | head hstep hsteps =>
    right
    have hopen := hsteps.depth_le Stage.noConfusion
    cases hstep with
    | takeIn valid asked =>
      have hd := depth_of_ask (s := tick s) asked
      exact Nat.lt_of_lt_of_le (Nat.lt_succ_of_le (Nat.le_of_eq hd.symm)) hopen
    | resume resumed => cases resumed
    | _ =>
      cases hsteps with
      | head hstep => cases hstep

theorem waiting_of_receive {a : Attempt} {response : Response} {p : Pending}
    (h : v.receive a response s = .ok (.waiting p) s') :
    p.rank < (Pending.answer a).rank ∧ s'.session.depth = s.session.depth ∨
      s.session.depth < s'.session.depth := by
  obtain ⟨progress, t, h₁, h⟩ := Act.bind_ok h
  obtain ⟨w, hw, rfl⟩ := Act.within_ok h₁
  refine (waiting_of_proceed h).imp_left fun ⟨hp, hs⟩ => ⟨Fetcher.receive_rank (hp ▸ hw), ?_⟩
  rw [hs]

theorem waiting_of_wake {a : Attempt} {p : Pending} (h : v.wake a s = .ok (.waiting p) s') :
    p.rank < (Pending.pause a).rank ∧ s'.session.depth = s.session.depth ∨
      s.session.depth < s'.session.depth := by
  obtain ⟨progress, t, h₁, h⟩ := Act.bind_ok h
  obtain ⟨w, hw, rfl⟩ := Act.within_ok h₁
  refine (waiting_of_proceed h).imp_left fun ⟨hp, hs⟩ => ⟨Fetcher.wake_rank (hp ▸ hw), ?_⟩
  rw [hs]

inductive Ends (v : Validator) (start : Scene) : Task → World → Prop
  | ended {moves : List Move} {s : Scene} (trail : Trail v (solitary v) start moves .ended s) :
      Ends v start (.ended s.session) s.world
  | broken {moves : List Move} {stage : Stage} {s s' : Scene} {fault : Fault}
      (trail : Trail v (solitary v) start moves stage s) (breaks : Breaks v stage s fault s') :
      Ends v start (.faulted fault) s'.world

end Course

/-- What a session comes to from where it stands: it ends, meets a fault, or goes on with the answer
of the network or after its pause. -/
inductive Finishes (v : Validator) :
    EStateM.Result Fault Scene Status → Network → Task → Surroundings → Prop
  | ended {s : Scene} {n : Network} :
      Finishes v (.ok .ended s) n (.ended s.session) ⟨s.world, n⟩
  | faulted {fault : Fault} {s : Scene} {n : Network} :
      Finishes v (.error fault s) n (.faulted fault) ⟨s.world, n⟩
  | answer {a : Attempt} {s : Scene} {n n' : Network} {response : Response} {task : Task}
      {final : Surroundings} (responds : n.respond a.request.interest = (response, n')) :
      Finishes v (v.receive a response s) n' task final →
      Finishes v (.ok (.waiting (.answer a)) s) n task final
  | pause {a : Attempt} {s : Scene} {n : Network} {task : Task} {final : Surroundings} :
      Finishes v (v.wake a s) (n.wait (n.time + n.sleep a.request.pause)) task final →
      Finishes v (.ok (.waiting (.pause a)) s) n task final

namespace Run

variable {v : Validator} {n n' : Network} {act : Act Scene Status} {session : Session} {w : World}
  {s : Scene} {a : Attempt}

theorem untilPause_answer {response : Response} (fuel : Nat)
    (h : act ⟨session, w⟩ = .ok (.waiting (.answer a)) s)
    (hr : n.respond a.request.interest = (response, n')) :
    untilPause v (fuel + 1) act session ⟨w, n⟩ =
      untilPause v fuel (v.receive a response) s.session ⟨s.world, n'⟩ := by
  rw [untilPause, h]
  dsimp only
  rw [hr]

theorem untilPause_pause (fuel : Nat) (h : act ⟨session, w⟩ = .ok (.waiting (.pause a)) s)
    (hzero : n.sleep a.request.pause = 0) :
    untilPause v (fuel + 1) act session ⟨w, n⟩ =
      untilPause v fuel (v.wake a) s.session ⟨s.world, n⟩ := by
  rw [untilPause, h]
  exact if_pos hzero

theorem untilPause_asleep (fuel : Nat) (h : act ⟨session, w⟩ = .ok (.waiting (.pause a)) s)
    (hzero : n.sleep a.request.pause ≠ 0) :
    untilPause v (fuel + 1) act session ⟨w, n⟩ =
      (.asleep s.session a (n.time + n.sleep a.request.pause), ⟨s.world, n⟩) := by
  rw [untilPause, h]
  exact if_neg hzero

theorem untilEnd_asleep (v : Validator) (fuel : Nat) (session : Session) (a : Attempt) (time : Nat)
    (w : World) (n : Network) :
    untilEnd v (fuel + 1) [.asleep session a time] ⟨w, n⟩ =
      untilEnd v fuel [(untilPause v fuel (v.wake a) session ⟨w, n.wait time⟩).1]
        (untilPause v fuel (v.wake a) session ⟨w, n.wait time⟩).2 := by
  simp [untilEnd, firstWake, wakeFirst]

end Run

namespace Finishes

open Run

variable {v : Validator} {n : Network} {task : Task} {final : Surroundings}
  {result : EStateM.Result Fault Scene Status}

/-- The runs with enough fuel find what a session comes to. -/
theorem untilEnd (h : Finishes v result n task final) :
    ∃ N, ∀ act session w, act ⟨session, w⟩ = result → ∀ fuel ≥ N, ∀ fuel' ≥ N,
      Run.untilEnd v fuel' [(untilPause v fuel act session ⟨w, n⟩).1]
        (untilPause v fuel act session ⟨w, n⟩).2 = ([task], final) := by
  -- Each wait takes one unit of fuel, of the loop that runs the session or of the one that wakes
  -- it.
  induction h with
  | ended =>
    refine ⟨0, fun act session w hact fuel _ fuel' _ => ?_⟩
    rw [untilPause, hact]
    cases fuel' <;> rfl
  | faulted =>
    refine ⟨0, fun act session w hact fuel _ fuel' _ => ?_⟩
    rw [untilPause, hact]
    cases fuel' <;> rfl
  | @answer a s n n' response task final responds _ ih =>
    obtain ⟨N, hN⟩ := ih
    refine ⟨N + 1, fun act session w hact fuel hfuel fuel' hfuel' => ?_⟩
    obtain ⟨fuel, rfl⟩ : ∃ k, fuel = k + 1 := ⟨fuel - 1, by omega⟩
    rw [untilPause_answer fuel hact responds]
    exact hN _ _ _ rfl fuel (by omega) fuel' (by omega)
  | @pause a s n task final _ ih =>
    obtain ⟨N, hN⟩ := ih
    refine ⟨N + 1, fun act session w hact fuel hfuel fuel' hfuel' => ?_⟩
    obtain ⟨fuel, rfl⟩ : ∃ k, fuel = k + 1 := ⟨fuel - 1, by omega⟩
    obtain ⟨fuel', rfl⟩ : ∃ k, fuel' = k + 1 := ⟨fuel' - 1, by omega⟩
    by_cases hwait : n.sleep a.request.pause = 0
    · have hn : n.wait (n.time + n.sleep a.request.pause) = n := by
        rw [hwait, Network.wait, Nat.add_zero, Nat.max_self]
      rw [untilPause_pause fuel hact hwait, ← hn]
      exact hN _ _ _ rfl fuel (by omega) (fuel' + 1) (by omega)
    · rw [untilPause_asleep fuel hact hwait, untilEnd_asleep]
      exact hN _ _ _ rfl fuel' (by omega) fuel' (by omega)

theorem unique {task' : Task} {final' : Surroundings} (h : Finishes v result n task final)
    (h' : Finishes v result n task' final') : task' = task ∧ final' = final := by
  induction h with
  | ended =>
    cases h'
    exact ⟨rfl, rfl⟩
  | faulted =>
    cases h'
    exact ⟨rfl, rfl⟩
  | answer responds _ ih =>
    cases h' with
    | answer responds' hnext =>
      cases responds.symm.trans responds'
      exact ih hnext
  | pause _ ih =>
    cases h' with
    | pause hnext => exact ih hnext

theorem alone {session : Session} {w : World}
    (h : Finishes v (v.start ⟨session, w⟩) n task final) :
    ∃ N, ∀ fuel ≥ N, Run.alone v fuel session ⟨w, n⟩ = (task, final) := by
  obtain ⟨N, hN⟩ := h.untilEnd
  refine ⟨N, fun fuel hfuel => ?_⟩
  have hend := hN v.start session w rfl fuel hfuel fuel hfuel
  have htogether : Run.together v fuel [session] ⟨w, n⟩ = ([task], final) := hend
  rw [Run.alone, htogether]

end Finishes

namespace Course

variable {v : Validator} {start s : Scene} {moves : List Move} {stage : Stage}
  {result : EStateM.Result Fault Scene Status}

/-- A course that goes on by an action comes to its end, if it does from every wait that follows. -/
theorem InSteps.finishes (h : InSteps v (solitary v) stage s result)
    (ht : Trail v (solitary v) start moves stage s) (n : Network)
    (hwait : ∀ p t, result = .ok (.waiting p) t → ∀ more r,
      Trail v (solitary v) start more (.retrieving r (.pending p)) t →
      ∃ task final, Finishes v (.ok (.waiting p) t) n task final ∧ Ends v start task final.world) :
    ∃ task final, Finishes v result n task final ∧ Ends v start task final.world := by
  cases result with
  | error fault t =>
    obtain ⟨more, stage', t', hsteps, hbreaks⟩ := h
    exact ⟨_, _, .faulted, .broken (ht.steps hsteps) hbreaks⟩
  | ok status t =>
    obtain ⟨more, stage', hsteps, hshows⟩ := h
    cases status with
    | ended =>
      obtain rfl := hshows.ended
      exact ⟨_, _, .ended, .ended (ht.steps hsteps)⟩
    | waiting p =>
      obtain ⟨r, rfl⟩ := hshows.waiting
      exact hwait p t rfl _ r (ht.steps hsteps)

/-- From every wait a session comes to its end: each goes on with fewer attempts left, or with a
longer chain. -/
theorem Trail.finishes {moves : List Move} {s : Scene} {r : CertificateRequest} {p : Pending}
    (hstart : start.session.chain = [])
    (h : Trail v (solitary v) start moves (.retrieving r (.pending p)) s) (n : Network) :
    ∃ task final, Finishes v (.ok (.waiting p) s) n task final ∧
      Ends v start task final.world := by
  have hdepth : s.session.depth < v.maxDepth := (h.tallied hstart).1
  cases hp : p with
  | answer a =>
    rw [hp] at h
    obtain ⟨⟨response, n'⟩, hr⟩ : ∃ answer, answer = n.respond a.request.interest := ⟨_, rfl⟩
    obtain ⟨task, final, hf, he⟩ :=
      (inSteps_receive (v := v) (fun _ _ => True) (fun _ _ => False) r a
        response s trivial).finishes h n' fun q t hq more r' ht => by
        have hless := waiting_of_receive hq
        exact Trail.finishes hstart ht n'
    exact ⟨task, final, .answer hr.symm hf, he⟩
  | pause a =>
    rw [hp] at h
    obtain ⟨task, final, hf, he⟩ := (inSteps_wake (v := v) (fun _ _ => True) (fun _ _ => False) r a
      s).finishes h (n.wait (n.time + n.sleep a.request.pause)) fun q t hq more r' ht => by
        have hless := waiting_of_wake hq
        exact Trail.finishes hstart ht _
    exact ⟨task, final, .pause hf, he⟩
termination_by (v.maxDepth - s.session.depth, p.rank)
decreasing_by
  all_goals
    rcases hless with ⟨hless, hd⟩ | hless
    · rw [hd, hp]
      exact Prod.Lex.right _ hless
    · exact Prod.Lex.left _ _ (by omega)

/-- From its beginning a session comes to the end of its course. -/
theorem exists_finishes (v : Validator) (session : Session) (h : session.chain = []) (w : World)
    (n : Network) :
    ∃ task final, Finishes v (v.start ⟨session, w⟩) n task final ∧
      Ends v ⟨session, w⟩ task final.world :=
  (inSteps_start (fetches_environment v (fun _ _ => True) fun _ _ => False) ⟨session, w⟩).finishes
    .start n fun _ _ _ _ _ ht => Trail.finishes h ht n

/-- A session that runs alone comes to the end of its course, given enough fuel. -/
theorem exists_alone (v : Validator) (session : Session) (h : session.chain = []) (w : World)
    (n : Network) :
    ∃ N task final, (∀ fuel ≥ N, Run.alone v fuel session ⟨w, n⟩ = (task, final)) ∧
      Ends v ⟨session, w⟩ task final.world := by
  obtain ⟨task, final, hf, he⟩ := exists_finishes v session h w n
  obtain ⟨N, hN⟩ := hf.alone
  exact ⟨N, task, final, hN, he⟩

/-- A session keeps its limits, whatever retrieval comes to and whatever others do meanwhile, and
can go on until it ends, unless a fault stops it. A session that runs alone against a network does
end. -/
theorem steps_limited_alone_ends (v : Validator) (p : Packet)
    (onSuccess onFailure : Option Callback) (w : World) :
    (∀ env moves stage s, Trail v env ⟨{ packet := p, onSuccess, onFailure }, w⟩ moves stage s →
      Limited v moves ∧ s.session.chain.length ≤ v.maxDepth ∧
      ((∀ r w, ∃ progress w', env.begins r w progress w') →
        stage = .ended ∨ (∃ r p, stage = .retrieving r (.pending p)) ∨
        (∃ notices stage' s', Step v env stage s notices stage' s') ∨
        ∃ fault s', Breaks v stage s fault s')) ∧
    ∀ n, ∃ N task final,
      (∀ fuel ≥ N, Run.alone v fuel { packet := p, onSuccess, onFailure } ⟨w, n⟩ = (task, final)) ∧
      Ends v ⟨{ packet := p, onSuccess, onFailure }, w⟩ task final.world := by
  constructor
  case left =>
    intro env moves stage s h
    obtain ⟨hlimited, hchain⟩ := h.limited rfl
    exact ⟨hlimited, hchain, fun hbegins => step_or_breaks hbegins stage s⟩
  case right => exact fun n => exists_alone v _ rfl w n

end Course

end PacketTrust
