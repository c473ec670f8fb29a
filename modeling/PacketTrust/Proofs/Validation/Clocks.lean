import PacketTrust.Proofs.Validation.Places
import PacketTrust.Proofs.Validation.Reports

/-! What sessions do to the clock. Main statement: no step of a session on its own does anything to
the clock but read it. -/

namespace PacketTrust

namespace Act

variable {α β : Type}

/-- Whatever an action comes to, it does nothing to the clock but read it. -/
def Reads (act : Act World α) : Prop := ∀ w, (act.left w).clock.Follows w.clock

theorem reads_pure (a : α) : (pure a : Act World α).Reads := fun w => .refl w.clock

theorem Reads.bind {act : Act World α} {next : α → Act World β} (h : act.Reads)
    (hnext : ∀ a, (next a).Reads) : (act >>= next).Reads := by
  intro w
  have hw := h w
  cases hact : act w with
  | ok a t =>
    rw [left_of_ok hact] at hw
    have ht := hnext a t
    rw [left, bind_of_ok hact]
    exact ht.trans hw
  | error fault t =>
    rw [left_of_error hact] at hw
    rwa [left_of_error (bind_of_error hact)]

end Act

namespace World

theorem reads_onStorage {α : Type} (act : Disk → Instant → Act Storage α) :
    (onStorage act).Reads := by
  intro w
  rw [left_onStorage]
  exact (Clock.Follows.refl w.clock).next

theorem reads_findTrusted (i : Interest) : (findTrusted i).Reads := by
  refine (reads_onStorage _).bind fun found => ?_
  cases found with
  | some c => exact Act.reads_pure _
  | none => exact reads_onStorage _

theorem reads_foldl_cacheVerified (chain : List Certificate) (w : World) :
    (chain.foldl cacheVerified w).clock.Follows w.clock := by
  induction chain generalizing w with
  | nil => exact .refl w.clock
  | cons c rest ih => exact (ih (w.cacheVerified c)).trans (Clock.Follows.refl w.clock).next

theorem reads_stock (c : Certificate) (times : Nat) (w : World) :
    (stock c times w).clock.Follows w.clock := by
  induction times generalizing w with
  | zero => exact .refl w.clock
  | succ times ih => exact (ih (w.cacheUnverified c)).trans (Clock.Follows.refl w.clock).next

theorem reads_foldl_afterHook (n : Name) (hooks : List Hook) (w : World) :
    (hooks.foldl (Scene.afterHook n) w).clock.Follows w.clock := by
  induction hooks generalizing w with
  | nil => exact .refl w.clock
  | cons hook rest ih =>
    have hrest := ih (Scene.afterHook n w hook)
    cases hook with
    | record place k t => exact hrest.trans (Clock.Follows.refl w.clock).next
    | call label fails => exact hrest

end World

namespace Fetcher

variable {f : Fetcher}

theorem reads_lookup (r : CertificateRequest) : (f.lookup r).Reads := by
  intro w
  unfold lookup
  split
  · exact World.reads_onStorage _ w
  · exact .refl w.clock

theorem reads_keep (a : Attempt) (c : Certificate) : (keep a c).Reads :=
  World.reads_stock c a.levels

theorem reads_fetch (r : CertificateRequest) : (f.fetch r).Reads := by
  refine (reads_lookup r).bind fun found => ?_
  cases found <;> exact Act.reads_pure _

theorem reads_again (a : Attempt) : (f.again a).Reads := by
  refine (reads_lookup a.request).bind fun found => ?_
  cases found with
  | some c => exact reads_keep a c
  | none => exact Act.reads_pure _

theorem reads_receive (a : Attempt) (response : Response) : (f.receive a response).Reads := by
  cases response with
  | data d =>
    simp only [receive]
    split
    · exact reads_keep a _
    · exact Act.reads_pure _
  | timeout =>
    simp only [receive]
    split
    · exact reads_again _
    · exact Act.reads_pure _
  | refused =>
    simp only [receive]
    split <;> exact Act.reads_pure _

theorem reads_wake (a : Attempt) : (f.wake a).Reads := by
  unfold wake
  dsimp only
  split
  · exact reads_again _
  · exact fun w => .refl w.clock

end Fetcher

namespace Course

open Scene Validator

variable {s s' : Scene} {v : Validator} {env : Environment} {notices : List Notice}
  {stage stage' : Stage}

theorem reads_fail {e : ValidationError} (h : fail e s = .ok () s') :
    s'.world.clock.Follows s.world.clock := by
  rw [fail_of_none e (fail_ok h).1] at h
  cases h
  exact .refl _

theorem reads_succeed (h : succeed s = .ok () s') : s'.world.clock.Follows s.world.clock := by
  obtain ⟨-, -, events, hw⟩ := succeed_ok h
  rw [hw]
  exact World.reads_foldl_afterHook ..

theorem reads_conclude {trusted : Certificate} (h : v.conclude trusted s = .ok () s') :
    s'.world.clock.Follows s.world.clock := by
  obtain ⟨b, calls, t, part, -, -, -, ht, rfl⟩ := Validator.concluded h
  refine (World.reads_foldl_cacheVerified part t.world).trans ?_
  cases ht with
  | success ht =>
    have hread := reads_succeed ht
    exact hread
  | failure ht =>
    have hread := reads_fail ht
    exact hread

theorem reads_ask {subject : Subject} {verdict : Verdict} (h : ask subject s = .ok verdict s') :
    s'.world.clock.Follows s.world.clock := by
  rw [(ask_ok h).2.1]
  exact PolicyChain.checkFrom_clock ..

/-- No step does anything to the clock but read it, if retrieval does not. -/
theorem Step.reads (h : Step v env stage s notices stage' s')
    (henv : env.Keeps (·.clock.Follows s.world.clock)) :
    s'.world.clock.Follows s.world.clock := by
  have htick : (tick s).world.clock.Follows s.world.clock := (Clock.Follows.refl _).next
  have hsearch {i : Interest} {session : Session} {found : Option Certificate} {t : Scene}
      (hfound : onWorld (World.findTrusted i) ⟨session, s.world⟩ = .ok found t) :
      t.world.clock.Follows s.world.clock := by
    obtain ⟨w, hw, rfl⟩ := Act.within_ok hfound
    rw [← Act.left_of_ok hw]
    exact World.reads_findTrusted i s.world
  cases h with
  | bypass asked done => exact (reads_succeed done).trans (reads_ask asked)
  | refuse asked against done => exact (reads_fail done).trans (reads_ask asked)
  | require asked => exact reads_ask asked
  | stop limit done => exact reads_fail done
  | conclude room new found done => exact (reads_conclude done).trans (hsearch found)
  | fetch room new missing begun => exact henv.begins begun (hsearch missing)
  | resume resumed => exact henv.resumes resumed (.refl _)
  | give done => exact reads_fail done
  | expire invalid done => exact (reads_fail done).trans htick
  | takeIn valid asked => exact (reads_ask asked).trans htick
  | dismiss valid asked against done =>
    exact ((reads_fail done).trans (reads_ask asked)).trans htick

theorem keeps_clock_solitary (v : Validator) (clock : Clock) :
    (solitary v).Keeps (·.clock.Follows clock) := by
  constructor
  case begins =>
    intro r w progress w' h hw
    have hread := Fetcher.reads_fetch (f := v.fetcher) r w
    rw [Act.left_of_ok h] at hread
    exact hread.trans hw
  case resumes =>
    intro q w progress w' h hw
    cases q with
    | answer a =>
      obtain ⟨response, -, h⟩ := h
      have hread := Fetcher.reads_receive (f := v.fetcher) a response w
      rw [Act.left_of_ok h] at hread
      exact hread.trans hw
    | pause a =>
      have hread := Fetcher.reads_wake (f := v.fetcher) a w
      rw [Act.left_of_ok h] at hread
      exact hread.trans hw
  case disturbs => exact fun h => h.elim

end Course

end PacketTrust
