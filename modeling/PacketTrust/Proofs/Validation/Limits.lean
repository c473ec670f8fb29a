import PacketTrust.Proofs.Validation.Course

/-! How long a session may go on. Each request but the last is followed by a certificate that makes
the chain longer, so that requests, retrievals and certificates looked at are limited by the depth,
and no name is asked for twice. -/

namespace PacketTrust.Course

open Scene Validator

namespace Move

def isRequest (m : Move) : Bool :=
  match m.source with
  | .requesting _ => true
  | _ => false

def isExamination (m : Move) : Bool :=
  match m.source with
  | .retrieving _ (.found _) => true
  | _ => false

def isFetch (m : Move) : Bool :=
  match m.source, m.target with
  | .requesting _, .retrieving .. => true
  | _, _ => false

def isWait (m : Move) : Bool :=
  match m.source with
  | .retrieving _ (.pending _) => true
  | _ => false

/-- The name of a request that got as far as storage: the chain had room, and the name was new. -/
def sought? (v : Validator) (m : Move) : Option Name :=
  match m.source with
  | .requesting r =>
    if v.maxDepth ≤ m.before.session.depth ∨ m.before.session.hasSeen r.name then none
    else some r.name
  | _ => none

end Move

/-- How many of the steps of a session were of each kind, and how many were no wait. -/
structure Tally (moves : List Move) (requests examinations fetches steps : Nat) : Prop where
  requests : moves.countP (·.isRequest) = requests
  examinations : moves.countP (·.isExamination) = examinations
  fetches : moves.countP (·.isFetch) = fetches
  steps : moves.countP (!·.isWait) = steps

/-- What the steps up to each stage come to: the chain is as long as certificates were looked at. -/
def Tallied (v : Validator) (moves : List Move) : Stage → Scene → Prop
  | .opening, s => s.session.depth = 0 ∧ Tally moves 0 0 0 0
  | .requesting _, s => s.session.depth ≤ v.maxDepth ∧
      Tally moves s.session.depth s.session.depth s.session.depth (2 * s.session.depth + 1)
  | .retrieving .., s => s.session.depth < v.maxDepth ∧
      Tally moves (s.session.depth + 1) s.session.depth (s.session.depth + 1)
        (2 * s.session.depth + 2)
  | .ended, s => s.session.depth ≤ v.maxDepth ∧ ∃ requests examinations fetches steps,
      requests ≤ v.maxDepth + 1 ∧ examinations ≤ v.maxDepth ∧ fetches ≤ v.maxDepth ∧
      steps ≤ 2 * v.maxDepth + 2 ∧ Tally moves requests examinations fetches steps

section

variable {v : Validator} {env : Environment} {s s' : Scene} {notices : List Notice}
  {moves : List Move} {stage stage' : Stage} {a b c d : Nat}

namespace Tally

variable {m : Move}

theorem countP_concat (p : Move → Bool) (moves : List Move) (m : Move) :
    (moves ++ [m]).countP p = moves.countP p + (p m).toNat := by
  rw [List.countP_append, List.countP_singleton]
  cases p m <;> rfl

theorem concat (h : Tally moves a b c d) (m : Move) :
    Tally (moves ++ [m]) (a + m.isRequest.toNat) (b + m.isExamination.toNat)
      (c + m.isFetch.toNat) (d + (!m.isWait).toNat) := by
  obtain ⟨rfl, rfl, rfl, rfl⟩ := h
  exact ⟨countP_concat .., countP_concat .., countP_concat .., countP_concat ..⟩

theorem request (h : Tally moves a b c d) (hr : m.isRequest = true) (he : m.isExamination = false)
    (hf : m.isFetch = false) (hw : m.isWait = false) :
    Tally (moves ++ [m]) (a + 1) b c (d + 1) := by
  simpa [hr, he, hf, hw] using h.concat m

theorem fetch (h : Tally moves a b c d) (hr : m.isRequest = true) (he : m.isExamination = false)
    (hf : m.isFetch = true) (hw : m.isWait = false) :
    Tally (moves ++ [m]) (a + 1) b (c + 1) (d + 1) := by
  simpa [hr, he, hf, hw] using h.concat m

theorem examine (h : Tally moves a b c d) (hr : m.isRequest = false)
    (he : m.isExamination = true) (hf : m.isFetch = false) (hw : m.isWait = false) :
    Tally (moves ++ [m]) a (b + 1) c (d + 1) := by
  simpa [hr, he, hf, hw] using h.concat m

theorem other (h : Tally moves a b c d) (hr : m.isRequest = false) (he : m.isExamination = false)
    (hf : m.isFetch = false) (hw : m.isWait = false) : Tally (moves ++ [m]) a b c (d + 1) := by
  simpa [hr, he, hf, hw] using h.concat m

theorem wait (h : Tally moves a b c d) (hr : m.isRequest = false) (he : m.isExamination = false)
    (hf : m.isFetch = false) (hw : m.isWait = true) : Tally (moves ++ [m]) a b c d := by
  simpa [hr, he, hf, hw] using h.concat m

end Tally

theorem depth_of_fail {e : ValidationError} (h : fail e s = .ok () s') :
    s'.session.depth = s.session.depth := by
  rw [(fail_ok h).2]
  rfl

theorem depth_of_ask {subject : Subject} {verdict : Verdict} (h : ask subject s = .ok verdict s') :
    s'.session.depth = s.session.depth := by
  rw [(ask_ok h).2.2]
  rfl

/-- The steps of a session that has come to its end are within the limits. -/
theorem Tallied.of_end (hs : s.session.depth ≤ v.maxDepth) (h : Tally moves a b c d)
    (ha : a ≤ v.maxDepth + 1) (hb : b ≤ v.maxDepth) (hc : c ≤ v.maxDepth)
    (hd : d ≤ 2 * v.maxDepth + 2) : Tallied v moves .ended s :=
  ⟨hs, a, b, c, d, ha, hb, hc, hd, h⟩

theorem Step.tallied (h : Step v env stage s notices stage' s') (hi : Tallied v moves stage s) :
    Tallied v (moves ++ [⟨stage, s, notices, stage', s'⟩]) stage' s' := by
  cases h with
  | bypass asked done =>
    obtain ⟨hd, ht⟩ := hi
    have hs : s'.session.depth = s.session.depth := by
      rw [(succeed_ok done).2.1]
      exact depth_of_ask asked
    exact .of_end (by omega) (ht.other rfl rfl rfl rfl) (by omega) (by omega) (by omega)
      (by omega)
  | refuse asked against done =>
    obtain ⟨hd, ht⟩ := hi
    have hs := (depth_of_fail done).trans (depth_of_ask asked)
    exact .of_end (by omega) (ht.other rfl rfl rfl rfl) (by omega) (by omega) (by omega)
      (by omega)
  | require asked =>
    obtain ⟨hd, ht⟩ := hi
    have hs := depth_of_ask asked
    rw [Tallied, hs, hd]
    exact ⟨Nat.zero_le _, ht.other rfl rfl rfl rfl⟩
  | stop limit done =>
    obtain ⟨hd, ht⟩ := hi
    have hs := depth_of_fail done
    exact .of_end (by omega) (ht.request rfl rfl rfl rfl) (by omega) (by omega) (by omega)
      (by omega)
  | conclude room new found done =>
    obtain ⟨hd, ht⟩ := hi
    obtain ⟨_, _, _, _, -, -, -, -, rfl⟩ := concluded done
    exact .of_end (Nat.zero_le _) (ht.request rfl rfl rfl rfl) (by omega) (by omega) (by omega)
      (by omega)
  | fetch room new missing begun =>
    obtain ⟨hd, ht⟩ := hi
    obtain ⟨w, -, rfl⟩ := Act.within_ok missing
    rw [Tallied]
    dsimp only
    rw [addSeen_depth]
    exact ⟨room, ht.fetch rfl rfl rfl rfl⟩
  | resume resumed =>
    obtain ⟨hd, ht⟩ := hi
    exact ⟨hd, ht.wait rfl rfl rfl rfl⟩
  | give done =>
    obtain ⟨hd, ht⟩ := hi
    have hs := depth_of_fail done
    exact .of_end (by omega) (ht.other rfl rfl rfl rfl) (by omega) (by omega) (by omega)
      (by omega)
  | expire invalid done =>
    obtain ⟨hd, ht⟩ := hi
    have hs : s'.session.depth = s.session.depth := depth_of_fail (s := tick s) done
    exact .of_end (by omega) (ht.examine rfl rfl rfl rfl) (by omega) (by omega) (by omega)
      (by omega)
  | takeIn valid asked =>
    obtain ⟨hd, ht⟩ := hi
    have hs : _ = s.session.depth := depth_of_ask (s := tick s) asked
    rw [Tallied]
    dsimp only
    rw [addCertificate_depth, hs]
    exact ⟨hd, ht.examine rfl rfl rfl rfl⟩
  | dismiss valid asked against done =>
    obtain ⟨hd, ht⟩ := hi
    have hs : s'.session.depth = s.session.depth :=
      (depth_of_fail done).trans (depth_of_ask (s := tick s) asked)
    exact .of_end (by omega) (ht.examine rfl rfl rfl rfl) (by omega) (by omega) (by omega)
      (by omega)

theorem Trail.tallied {start : Scene} (h : Trail v env start moves stage s)
    (hstart : start.session.chain = []) : Tallied v moves stage s := by
  induction h with
  | start => exact ⟨congrArg List.length hstart, rfl, rfl, rfl, rfl⟩
  | step _ hstep ih => exact hstep.tallied ih
  | @disturb _ stage _ _ _ _ ih => cases stage <;> exact ih

/-- What a session has noted of the names on its way. -/
structure Noted (v : Validator) (moves : List Move) (stage : Stage) (s : Scene) : Prop where
  asked : stage ≠ .ended → ∀ n ∈ moves.filterMap (·.sought? v), s.session.hasSeen n
  collected : stage ≠ .ended → ∀ c ∈ s.session.chain, s.session.hasSeen c.name
  distinct : (moves.filterMap (·.sought? v)).Nodup
  apart : ∀ m ∈ moves, ∀ n, m.sought? v = some n → ∀ c ∈ m.before.session.chain, c.name ≠ n

theorem hasSeen_addSeen (session : Session) (n m : Name) :
    (session.addSeen n).hasSeen m ↔ m = n ∨ session.hasSeen m := by
  unfold Session.addSeen
  split
  · rename_i h
    exact ⟨.inr, fun hm => hm.elim (fun he => he ▸ h) fun hm => hm⟩
  · simp [Session.hasSeen, or_comm]

theorem Noted.quiet (h : Noted v moves stage s) {m : Move} (hm : m.sought? v = none)
    (hseen : stage' ≠ .ended → stage ≠ .ended ∧
      (∀ n, s.session.hasSeen n → s'.session.hasSeen n) ∧
      ∀ c ∈ s'.session.chain, c ∈ s.session.chain ∨ s'.session.hasSeen c.name) :
    Noted v (moves ++ [m]) stage' s' := by
  have hmore : (moves ++ [m]).filterMap (·.sought? v) = moves.filterMap (·.sought? v) := by
    rw [List.filterMap_append, List.filterMap_cons_none hm, List.filterMap_nil, List.append_nil]
  constructor
  case asked =>
    intro hs n hn
    obtain ⟨hopen, hkept, -⟩ := hseen hs
    exact hkept n (h.asked hopen n (hmore ▸ hn))
  case collected =>
    intro hs c hc
    obtain ⟨hopen, hkept, hchain⟩ := hseen hs
    exact (hchain c hc).elim (fun hc => hkept _ (h.collected hopen c hc)) fun hc => hc
  case distinct => exact hmore ▸ h.distinct
  case apart =>
    intro m' hm' n hn
    rcases List.mem_append.1 hm' with hm' | hm'
    · exact h.apart m' hm' n hn
    · rw [List.mem_singleton.1 hm', hm] at hn
      cases hn

/-- A request that gets as far as storage is for a new name. -/
theorem Noted.seek {r : CertificateRequest} {m : Move} (h : Noted v moves (.requesting r) s)
    (hm : m.sought? v = some r.name) (hb : m.before = s) (hnew : s.session.hasSeen r.name = false)
    (hseen : stage' ≠ .ended → s'.session = s.session.addSeen r.name) :
    Noted v (moves ++ [m]) stage' s' := by
  have hmore : (moves ++ [m]).filterMap (·.sought? v) =
      moves.filterMap (·.sought? v) ++ [r.name] := by
    rw [List.filterMap_append, List.filterMap_cons_some hm, List.filterMap_nil]
  have hopen : Stage.requesting r ≠ .ended := Stage.noConfusion
  constructor
  case asked =>
    intro hs n hn
    rw [hseen hs, hasSeen_addSeen]
    rw [hmore, List.mem_append, List.mem_singleton] at hn
    exact hn.symm.imp_right fun hn => h.asked hopen n hn
  case collected =>
    intro hs c hc
    rw [hseen hs] at hc ⊢
    obtain ⟨seen, hchain⟩ := addSeen_eq s.session r.name
    rw [hasSeen_addSeen]
    rw [hchain] at hc
    exact .inr (h.collected hopen c hc)
  case distinct =>
    rw [hmore]
    refine List.nodup_append.2 ⟨h.distinct, List.pairwise_singleton _ _, fun n hn m hm he => ?_⟩
    obtain rfl := he.trans (List.mem_singleton.1 hm)
    rw [h.asked hopen _ hn] at hnew
    cases hnew
  case apart =>
    intro m' hm' n hn c hc
    rcases List.mem_append.1 hm' with hm' | hm'
    · exact h.apart m' hm' n hn c hc
    · obtain rfl := List.mem_singleton.1 hm'
      obtain rfl := Option.some.inj (hm.symm.trans hn)
      rintro hname
      rw [hb] at hc
      rw [← hname, h.collected hopen c hc] at hnew
      cases hnew

theorem Step.noted (h : Step v env stage s notices stage' s') (hi : Noted v moves stage s) :
    Noted v (moves ++ [⟨stage, s, notices, stage', s'⟩]) stage' s' := by
  cases h with
  | require asked =>
    refine hi.quiet rfl fun _ => ⟨by simp, ?_, ?_⟩ <;> rw [(ask_ok asked).2.2]
    · exact fun _ hn => hn
    · exact fun _ hc => .inl hc
  | stop limit done =>
    refine hi.quiet ?_ fun hs => absurd rfl hs
    exact if_pos limit
  | conclude room new found done =>
    refine hi.seek ?_ rfl new fun hs => absurd rfl hs
    exact if_neg (by simp [room, new])
  | fetch room new missing begun =>
    obtain ⟨w, -, rfl⟩ := Act.within_ok missing
    refine hi.seek ?_ rfl new fun _ => rfl
    exact if_neg (by simp [room, new])
  | resume resumed => exact hi.quiet rfl fun _ => ⟨by simp, fun _ hn => hn, fun _ hc => .inl hc⟩
  | takeIn valid asked =>
    rename_i t r next c
    have hseen : ∀ n, s.session.hasSeen n → t.session.hasSeen n := by
      rw [(ask_ok asked).2.2]
      exact fun _ hn => hn
    have hchain : t.session.chain = s.session.chain := by rw [(ask_ok asked).2.2]; rfl
    refine hi.quiet rfl fun _ => ⟨by simp, fun n hn => ?_, fun d hd => ?_⟩
    · exact (hasSeen_addSeen _ _ _).2 (.inr (hseen n hn))
    · rcases List.mem_cons.1 hd with rfl | hd
      · exact .inr ((hasSeen_addSeen _ _ _).2 (.inl rfl))
      · exact .inl (hchain ▸ hd)
  | _ => exact hi.quiet rfl fun hs => absurd rfl hs

theorem Trail.noted {start : Scene} (h : Trail v env start moves stage s)
    (hstart : start.session.chain = []) : Noted v moves stage s := by
  induction h with
  | start =>
    refine ⟨fun _ => by simp, fun _ c hc => ?_, by simp, by simp⟩
    rw [hstart] at hc
    cases hc
  | step _ hstep ih => exact hstep.noted ih
  | disturb _ _ ih => exact ⟨ih.asked, ih.collected, ih.distinct, ih.apart⟩

/-- The limits that the steps of a session keep. A request that does not get as far as storage ends
the session, and leaves storage alone. -/
structure Limited (v : Validator) (moves : List Move) : Prop where
  requests : moves.countP (·.isRequest) ≤ v.maxDepth + 1
  examinations : moves.countP (·.isExamination) ≤ v.maxDepth
  fetches : moves.countP (·.isFetch) ≤ v.maxDepth
  steps : moves.countP (!·.isWait) ≤ 2 * v.maxDepth + 2
  distinct : (moves.filterMap (·.sought? v)).Nodup
  apart : ∀ m ∈ moves, ∀ n, m.sought? v = some n → ∀ c ∈ m.before.session.chain, c.name ≠ n
  refused : ∀ m ∈ moves, m.isRequest → m.sought? v = none →
    m.target = .ended ∧ m.isFetch = false ∧ m.after.world.storage = m.before.world.storage

theorem Tallied.limits (h : Tallied v moves stage s) :
    s.session.depth ≤ v.maxDepth ∧ ∃ a b c d, a ≤ v.maxDepth + 1 ∧ b ≤ v.maxDepth ∧
      c ≤ v.maxDepth ∧ d ≤ 2 * v.maxDepth + 2 ∧ Tally moves a b c d := by
  cases stage with
  | opening =>
    obtain ⟨hd, ht⟩ := h
    exact ⟨by omega, _, _, _, _, by omega, by omega, by omega, by omega, ht⟩
  | requesting r =>
    obtain ⟨hd, ht⟩ := h
    exact ⟨hd, _, _, _, _, by omega, by omega, by omega, by omega, ht⟩
  | retrieving r progress =>
    obtain ⟨hd, ht⟩ := h
    exact ⟨by omega, _, _, _, _, by omega, by omega, by omega, by omega, ht⟩
  | ended => exact h

theorem Step.refused {r : CertificateRequest} (h : Step v env (.requesting r) s notices stage' s')
    (hs : Move.sought? v ⟨.requesting r, s, notices, stage', s'⟩ = none) :
    stage' = .ended ∧ s'.world.storage = s.world.storage := by
  have hlimit : v.maxDepth ≤ s.session.depth ∨ s.session.hasSeen r.name := by
    refine Decidable.byContradiction fun hn => ?_
    rw [Move.sought?] at hs
    dsimp only at hs
    rw [if_neg hn] at hs
    cases hs
  cases h with
  | stop limit done =>
    rename_i e
    rw [fail_of_none e (fail_ok done).1] at done
    cases done
    exact ⟨rfl, rfl⟩
  | conclude room new found done => simp [new, Nat.not_le.2 room] at hlimit
  | fetch room new missing begun => simp [new, Nat.not_le.2 room] at hlimit

theorem Trail.limited {start : Scene} (h : Trail v env start moves stage s)
    (hstart : start.session.chain = []) :
    Limited v moves ∧ s.session.chain.length ≤ v.maxDepth := by
  obtain ⟨hd, a, b, c, d, ha, hb, hc, hd', ht⟩ := (h.tallied hstart).limits
  have hnoted := h.noted hstart
  refine ⟨?_, hd⟩
  constructor
  case requests => rwa [ht.requests]
  case examinations => rwa [ht.examinations]
  case fetches => rwa [ht.fetches]
  case steps => rwa [ht.steps]
  case distinct => exact hnoted.distinct
  case apart => exact hnoted.apart
  case refused =>
    rintro ⟨source, before, notices, target, after⟩ hm hr hs
    have hstep := h.step_of_mem _ hm
    cases source with
    | requesting r =>
      obtain ⟨rfl, hstorage⟩ := hstep.refused hs
      exact ⟨rfl, rfl, hstorage⟩
    | _ => cases hr

end

end PacketTrust.Course
