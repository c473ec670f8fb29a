import PacketTrust.Proofs.Validation.Alone

/-! What a session does to trust. On its way it takes nothing in among the trusted certificates;
where it ends, it may remember certificates that the verifier accepted along a chain from a trusted
one. -/

namespace PacketTrust

namespace World

variable {w w' w'' : World} {v : Verifier} {c : Certificate}

structure Aside (w w' : World) : Prop where
  storage : w'.storage = w.storage
  calls : w'.calls = w.calls

/-- No anchors came in but by the groups that there are, and none at all where nothing was
trusted. -/
structure Guards (w w' : World) : Prop where
  calls : w.calls ≤ w'.calls
  grouped : w.storage.anchors.Grouped → w'.storage.anchors.Grouped
  trustless : w.storage.Trustless → w'.storage.Trustless

/-- Moreover no certificate came to be verified. -/
structure TrustsNoMore (w w' : World) : Prop extends Guards w w' where
  verified : ∀ c, w'.storage.verified.Holds c → w.storage.verified.Holds c

/-- From an anchor, or from a certificate that was verified, the verifier accepted a chain that
leads to a certificate. -/
def Links (v : Verifier) (w w' : World) (c : Certificate) : Prop :=
  ∃ trusted call chain, (w'.storage.anchors.Holds trusted ∨ w.storage.verified.Holds trusted) ∧
    w.calls ≤ call ∧ call + chain.length ≤ w'.calls ∧ v.AcceptsChain call trusted chain ∧ c ∈ chain

/-- Certificates that came to be verified stand in such a chain. -/
structure Advances (v : Verifier) (w w' : World) : Prop extends Guards w w' where
  verified : ∀ c, w'.storage.verified.Holds c → w.storage.verified.Holds c ∨ w.Links v w' c

theorem Guards.trans (h : w.Guards w') (h' : w'.Guards w'') : w.Guards w'' :=
  ⟨Nat.le_trans h.calls h'.calls, fun hg => h'.grouped (h.grouped hg),
    fun ht => h'.trustless (h.trustless ht)⟩

theorem TrustsNoMore.trans (h : w.TrustsNoMore w') (h' : w'.TrustsNoMore w'') :
    w.TrustsNoMore w'' :=
  ⟨h.toGuards.trans h'.toGuards, fun c hc => h.verified c (h'.verified c hc)⟩

theorem TrustsNoMore.advances (h : w.TrustsNoMore w') : w.Advances v w' :=
  ⟨h.toGuards, fun c hc => .inl (h.verified c hc)⟩

theorem TrustsNoMore.trans_advances (h : w.TrustsNoMore w') (h' : w'.Advances v w'') :
    w.Advances v w'' := by
  refine ⟨h.toGuards.trans h'.toGuards, fun c hc => ?_⟩
  rcases h'.verified c hc with hc | ⟨trusted, call, chain, htrusted, hle, hbound, hchain, hmem⟩
  · exact .inl (h.verified c hc)
  · have hstart := Nat.le_trans h.calls hle
    have htrusted := htrusted.imp_right (h.verified trusted)
    exact .inr ⟨trusted, call, chain, htrusted, hstart, hbound, hchain, hmem⟩

theorem Aside.trans (h : w.Aside w') (h' : w'.Aside w'') : w.Aside w'' :=
  ⟨h'.storage.trans h.storage, h'.calls.trans h.calls⟩

theorem Aside.trustsNoMore (h : w.Aside w') : w.TrustsNoMore w' := by
  obtain ⟨hs, hc⟩ := h
  constructor
  case toGuards =>
    refine ⟨Nat.le_of_eq hc.symm, fun hg => ?_, fun ht => ?_⟩ <;> rwa [hs]
  case verified =>
    intro c hc
    rwa [hs] at hc

theorem Restocked.trustsNoMore (h : w.Restocked w') : w.TrustsNoMore w' := by
  obtain ⟨readings, unverified, rfl⟩ := h
  constructor
  case toGuards => exact ⟨Nat.le_refl _, fun hg => hg,
    fun ht => ⟨ht.groups, ht.anchors, ht.verified⟩⟩
  case verified => exact fun _ hc => hc

theorem trustsNoMore_left_findTrusted (i : Interest) (w : World) :
    w.TrustsNoMore ((findTrusted i).left w) := by
  obtain ⟨readings, verified, hsub, hleft⟩ := left_findTrusted i w
  rw [hleft]
  constructor
  case toGuards =>
    refine ⟨Nat.le_refl _, Anchors.left_refresh_grouped, fun ht => ?_⟩
    constructor
    case groups => exact Anchors.left_refresh_groups.2 ht.groups
    case anchors =>
      dsimp only
      rw [Anchors.left_refresh_of_nil ht.groups]
      exact ht.anchors
    case verified =>
      have hnone := Cache.size_eq_zero_iff.1 ht.verified
      exact Cache.size_eq_zero_iff.2 fun c hc => hnone c (hsub c hc)
  case verified => exact hsub

theorem trustsNoMore_of_findTrusted {i : Interest} {found : Option Certificate}
    (h : findTrusted i w = .ok found w') : w.TrustsNoMore w' := by
  have hw := trustsNoMore_left_findTrusted i w
  rwa [Act.left_of_ok h] at hw

theorem findTrusted_of_trustless {i : Interest} {found : Option Certificate}
    (h : findTrusted i w = .ok found w') (ht : w.storage.Trustless) : found = none := by
  cases found with
  | none => rfl
  | some c =>
    obtain ⟨-, hheld⟩ := (findTrusted_ok h).1 c rfl
    rcases hheld with hheld | hheld
    · have ht' := (trustsNoMore_of_findTrusted h).trustless ht
      exact absurd hheld (Anchors.not_holds_of_size ht'.anchors)
    · exact absurd hheld (Cache.size_eq_zero_iff.1 ht.verified c)

theorem aside_runHooks (n : Name) (hooks : List Hook) (w : World) :
    w.Aside (hooks.foldl (Scene.afterHook n) w) := by
  induction hooks generalizing w with
  | nil => exact ⟨rfl, rfl⟩
  | cons hook rest ih =>
    have hthis : w.Aside (Scene.afterHook n w hook) := by
      cases hook <;> exact ⟨rfl, rfl⟩
    exact hthis.trans (ih _)

/-- Remembering certificates as verified changes nothing else of trust. -/
theorem cacheVerified_fold (chain : List Certificate) (w : World) :
    (chain.foldl cacheVerified w).storage.anchors = w.storage.anchors ∧
      (chain.foldl cacheVerified w).calls = w.calls ∧
      ∀ c, (chain.foldl cacheVerified w).storage.verified.Holds c →
        c ∈ chain ∨ w.storage.verified.Holds c := by
  induction chain generalizing w with
  | nil => exact ⟨rfl, rfl, fun c hc => .inr hc⟩
  | cons d rest ih =>
    obtain ⟨hanchors, hcalls, hheld⟩ := ih (w.cacheVerified d)
    refine ⟨hanchors, hcalls, fun c hc => ?_⟩
    rcases hheld c hc with hc | hc
    · exact .inl (List.mem_cons_of_mem d hc)
    · rcases Cache.holds_of_insert hc with rfl | hc
      · exact .inl List.mem_cons_self
      · exact .inr hc

end World

namespace Course

open Scene Validator

variable {v : Validator} {s s' : Scene} {notices : List Notice} {moves : List Move}
  {stage stage' : Stage}

theorem aside_of_fail {e : ValidationError} (h : fail e s = .ok () s') :
    s.world.Aside s'.world := by
  rw [fail_of_none e (fail_ok h).1] at h
  cases h
  exact ⟨rfl, rfl⟩

theorem aside_of_succeed (h : succeed s = .ok () s') : s.world.Aside s'.world := by
  obtain ⟨-, -, events, hw⟩ := succeed_ok h
  have htold : s.world.Aside { s.world with events } := ⟨rfl, rfl⟩
  rw [hw]
  exact htold.trans (World.aside_runHooks _ _ _)

theorem aside_of_ask {subject : Subject} {verdict : Verdict} (h : ask subject s = .ok verdict s') :
    s.world.Aside s'.world := by
  rw [(ask_ok h).2.1]
  exact ⟨rfl, rfl⟩

theorem aside_tick (s : Scene) : s.world.Aside (tick s).world := ⟨rfl, rfl⟩

/-- What is remembered at the end of a session was accepted along its chain. -/
theorem advances_of_conclude {i : Interest} {trusted : Certificate} {w : World}
    (found : World.findTrusted i w = .ok (some trusted) s.world)
    (done : v.conclude trusted s = .ok () s') : w.Advances v.verifier s'.world := by
  have hw := World.trustsNoMore_of_findTrusted found
  obtain ⟨b, calls, t, part, hpart, hcalls, -, ht, rfl⟩ := concluded done
  have haside : World.Aside { s.world with calls } t.world := by
    cases ht with
    | success ht => exact aside_of_succeed ht
    | failure ht => exact aside_of_fail ht
  obtain ⟨hanchors, hkept, hheld⟩ := World.cacheVerified_fold part t.world
  have hanchors : (part.foldl World.cacheVerified t.world).storage.anchors =
      s.world.storage.anchors :=
    hanchors.trans (congrArg (·.anchors) haside.storage)
  have hbound : s.world.calls + part.length ≤ (part.foldl World.cacheVerified t.world).calls := by
    rw [hkept, haside.calls]
    exact hcalls
  constructor
  case toGuards =>
    refine ⟨?_, fun hg => ?_, fun htrust => ?_⟩
    · exact Nat.le_trans hw.calls (Nat.le_trans (Nat.le_add_right _ _) hbound)
    · rw [hanchors]
      exact hw.grouped hg
    · cases World.findTrusted_of_trustless found htrust
  case verified =>
    intro c hc
    rcases hheld c hc with hc | hc
    · refine .inr ⟨trusted, s.world.calls, part, ?_, hw.calls, hbound, ?_, hc⟩
      · rw [hanchors]
        exact ((World.findTrusted_ok found).1 trusted rfl).2
      · rw [hpart]
        exact v.verifier.acceptsChain_acceptedPart _ _ _
    · rw [haside.storage] at hc
      exact .inl (hw.verified c hc)

theorem Step.trustsNoMore (h : Step v (solitary v) stage s notices stage' s')
    (hs : stage' ≠ .ended) :
    s.world.TrustsNoMore s'.world := by
  cases h with
  | require asked => exact (aside_of_ask asked).trustsNoMore
  | fetch room new missing begun =>
    obtain ⟨w, hw, rfl⟩ := Act.within_ok missing
    have hfetched := (Fetcher.fetch_ok begun).2.trustsNoMore
    exact (World.trustsNoMore_of_findTrusted hw).trans hfetched
  | resume resumed => exact (restocked_of_resumes resumed).trustsNoMore
  | takeIn valid asked => exact ((aside_tick s).trans (aside_of_ask asked)).trustsNoMore
  | _ => exact absurd rfl hs

theorem Step.advances (h : Step v (solitary v) stage s notices stage' s') :
    s.world.Advances v.verifier s'.world := by
  by_cases hs : stage' = .ended
  · subst hs
    cases h with
    | bypass asked done => exact ((aside_of_ask asked).trans
        (aside_of_succeed done)).trustsNoMore.advances
    | refuse asked against done =>
      exact ((aside_of_ask asked).trans (aside_of_fail done)).trustsNoMore.advances
    | stop limit done => exact (aside_of_fail done).trustsNoMore.advances
    | conclude room new found done =>
      obtain ⟨w, hw, rfl⟩ := Act.within_ok found
      exact advances_of_conclude hw done
    | give done => exact (aside_of_fail done).trustsNoMore.advances
    | expire invalid done => exact ((aside_tick s).trans (aside_of_fail done)).trustsNoMore.advances
    | dismiss valid asked against done =>
      have hasked := (aside_tick s).trans (aside_of_ask asked)
      exact (hasked.trans (aside_of_fail done)).trustsNoMore.advances
  · exact (h.trustsNoMore hs).advances

/-- A session that has not ended has no more of an outcome than before. -/
theorem Step.outcome (h : Step v (solitary v) stage s notices stage' s') (hs : stage' ≠ .ended) :
    s'.session.outcome = s.session.outcome := by
  cases h with
  | require asked => rw [(ask_ok asked).2.2]
  | fetch room new missing begun =>
    obtain ⟨w, -, rfl⟩ := Act.within_ok missing
    obtain ⟨seen, hseen⟩ := addSeen_eq s.session _
    rw [hseen]
  | resume resumed => rfl
  | @takeIn _ t _ _ c valid asked =>
    obtain ⟨seen, hseen⟩ := addSeen_eq t.session c.name
    rw [Session.addCertificate, hseen, (ask_ok asked).2.2]
    rfl
  | _ => exact absurd rfl hs

/-- Where nothing is trusted, a session that comes to its end fails, unless its packet is
accepted. -/
theorem Step.outcome_of_trustless (h : Step v (solitary v) stage s notices .ended s')
    (ht : s.world.storage.Trustless) (ho : s'.session.outcome = some true) :
    stage = .opening ∧ (s.world.checkPolicy s.session.packet.subject).1.1 = .accept := by
  have hfailed {e : ValidationError} {t : Scene} (hf : fail e t = .ok () s') : False := by
    rw [(fail_ok hf).2] at ho
    cases ho
  cases h with
  | bypass asked done => exact ⟨rfl, (ask_ok asked).1.symm⟩
  | conclude room new found done =>
    obtain ⟨w, hw, rfl⟩ := Act.within_ok found
    cases World.findTrusted_of_trustless hw ht
  | refuse asked against done => exact (hfailed done).elim
  | stop limit done => exact (hfailed done).elim
  | give done => exact (hfailed done).elim
  | expire invalid done => exact (hfailed done).elim
  | dismiss valid asked against done => exact (hfailed done).elim

theorem Step.target_ne_opening (h : Step v (solitary v) stage s notices stage' s') :
    stage' ≠ .opening := by
  cases h <;> exact Stage.noConfusion

theorem Steps.of_ended {env : Environment} (h : Steps v env .ended s moves stage' s') :
    stage' = .ended ∧ s' = s := by
  cases h with
  | refl => exact ⟨rfl, rfl⟩
  | head hstep => cases hstep

theorem Steps.trustsNoMore (h : Steps v (solitary v) stage s moves stage' s')
    (hs : stage' ≠ .ended) :
    s.world.TrustsNoMore s'.world ∧ s'.session.outcome = s.session.outcome := by
  induction h with
  | refl => exact ⟨World.Aside.trustsNoMore ⟨rfl, rfl⟩, rfl⟩
  | @head _ stage _ _ _ _ _ _ hstep hsteps ih =>
    have hopen : stage ≠ .ended := by
      rintro rfl
      exact hs hsteps.of_ended.1
    obtain ⟨hw, ho⟩ := ih hs
    exact ⟨(hstep.trustsNoMore hopen).trans hw, ho.trans (hstep.outcome hopen)⟩

theorem Steps.advances (h : Steps v (solitary v) stage s moves stage' s') :
    s.world.Advances v.verifier s'.world := by
  induction h with
  | refl => exact (World.Aside.trustsNoMore ⟨rfl, rfl⟩).advances
  | @head _ stage _ _ _ _ _ _ hstep hsteps ih =>
    by_cases hs : stage = .ended
    · subst hs
      obtain ⟨-, rfl⟩ := hsteps.of_ended
      exact hstep.advances
    · exact (hstep.trustsNoMore hs).trans_advances ih

theorem Steps.outcome_of_trustless (h : Steps v (solitary v) stage s moves .ended s')
    (hs : stage ≠ .ended) (ht : s.world.storage.Trustless) (ho : s'.session.outcome = some true) :
    stage = .opening ∧ (s.world.checkPolicy s.session.packet.subject).1.1 = .accept := by
  generalize hend : Stage.ended = target at h
  induction h with
  | refl => exact absurd hend.symm hs
  | @head _ stage _ _ _ _ _ _ hstep hsteps ih =>
    by_cases hopen : stage = .ended
    · subst hopen
      obtain ⟨-, rfl⟩ := hsteps.of_ended
      exact hstep.outcome_of_trustless ht ho
    · have ht' := (hstep.trustsNoMore hopen).trustless ht
      exact absurd (ih hopen ht' ho hend).1 hstep.target_ne_opening

theorem Breaks.trustsNoMore {fault : Fault} (h : Breaks v stage s fault s')
    (hn : s.session.outcome = none) : s.world.TrustsNoMore s'.world := by
  cases h with
  | ask asked =>
    have hw : s.world.Aside s'.world := by
      rw [(ask_error asked).1]
      exact ⟨rfl, rfl⟩
    exact hw.trustsNoMore
  | @search _ _ r _ missing =>
    obtain ⟨w, hw, rfl⟩ := Act.within_error missing
    have hleft := World.trustsNoMore_left_findTrusted r.interest s.world
    rwa [Act.left_of_error hw] at hleft
  | wake woken =>
    obtain ⟨-, rfl, -⟩ := Fetcher.wake_error rfl woken
    exact World.Aside.trustsNoMore ⟨rfl, rfl⟩
  | examine asked =>
    have hw : (tick s).world.Aside s'.world := by
      rw [(ask_error asked).1]
      exact ⟨rfl, rfl⟩
    exact ((aside_tick s).trans hw).trustsNoMore
  | settled going h => exact absurd hn h

/-- What an action of the validator does to trust, for a session without an outcome. -/
structure Careful (v : Validator) (stage : Stage) (s : Scene) (act : Act Scene Status) : Prop where
  advances : s.world.Advances v.verifier (act.left s).world
  undecided : ∀ p t, act s = .ok (.waiting p) t → t.session.outcome = none
  /-- Where nothing is trusted, success is for what the policies accept. -/
  success : s.world.storage.Trustless → ∀ t, act s = .ok .ended t → t.session.outcome = some true →
    stage = .opening ∧ (s.world.checkPolicy s.session.packet.subject).1.1 = .accept

theorem InSteps.careful {act : Act Scene Status} (h : InSteps v (solitary v) stage s (act s))
    (hs : stage ≠ .ended) (hn : s.session.outcome = none) : Careful v stage s act := by
  cases hact : act s with
  | ok status t =>
    rw [hact] at h
    obtain ⟨moves, stage', hsteps, hshows⟩ := h
    constructor
    case advances =>
      rw [Act.left_of_ok hact]
      exact hsteps.advances
    case undecided =>
      intro p t' ht
      cases hact.symm.trans ht
      obtain ⟨r, rfl⟩ := hshows.waiting
      exact (hsteps.trustsNoMore Stage.noConfusion).2.trans hn
    case success =>
      intro htrust t' ht ho
      cases hact.symm.trans ht
      obtain rfl := hshows.ended
      exact hsteps.outcome_of_trustless hs htrust ho
  | error fault t =>
    rw [hact] at h
    obtain ⟨moves, stage', t', hsteps, hbreaks⟩ := h
    constructor
    case advances =>
      obtain ⟨hw, ho⟩ := hsteps.trustsNoMore hbreaks.stage_ne_ended
      rw [Act.left_of_error hact]
      exact (hw.trans (hbreaks.trustsNoMore (ho.trans hn))).advances
    case undecided =>
      intro p t' ht
      cases hact.symm.trans ht
    case success =>
      intro _ t' ht
      cases hact.symm.trans ht

end Course

end PacketTrust
