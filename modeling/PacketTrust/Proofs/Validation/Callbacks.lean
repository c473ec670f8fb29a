import PacketTrust.Proofs.Validation.Chains
import PacketTrust.Proofs.Validation.Reports

/-! The callbacks and hooks of a session, under any calls that its owner makes. Some calls decide
the session: they set its outcome, or would if it were not set. Callbacks and hooks that go wrong
change nothing of that. -/

namespace PacketTrust

namespace Scene

inductive Call
  | fail (e : ValidationError)
  | bypass
  | verifyPacket (signer : Certificate)
  | verifyChain (trusted : Certificate)
  | addCertificate (c : Certificate)
  | addSeen (n : Name)
  | takeChain
  | addHook (hook : Hook)

def Call.run (v : Verifier) : Call → Act Scene Unit
  | .fail e => Scene.fail e
  | .bypass => succeed
  | .verifyPacket signer => Scene.verifyPacket v signer
  | .verifyChain trusted => do
    let _ ← Scene.verifyChain v trusted
    return ()
  | .addCertificate c => updateSession (·.addCertificate c)
  | .addSeen n => updateSession (·.addSeen n)
  | .takeChain => updateSession fun s => { s with chain := [] }
  | .addHook hook => addHooks [hook]

def runCalls (v : Verifier) (calls : List Call) (s : Scene) : Scene :=
  calls.foldl (fun s call => (call.run v).left s) s

inductive Ending
  | success
  | failure (e : ValidationError)

namespace Ending

def outcome : Ending → Bool
  | success => true
  | failure _ => false

/-- One callback is told, and after success the hooks run in their order. -/
def tell (n : Name) (hooks : List Hook) (w : World) : Ending → World
  | success => hooks.foldl (afterHook n) (w.emit (.success n))
  | failure e => w.emit (.failure n e)

end Ending

/-- The call sets the outcome of the session, or would if it were not set. -/
inductive Decides (v : Verifier) (s : Scene) : Call → Ending → Prop
  | fail (e : ValidationError) : Decides v s (.fail e) (.failure e)
  | bypass : Decides v s .bypass .success
  | accepted {signer : Certificate} (h : v.Accepts s.world.calls s.session.packet signer) :
    Decides v s (.verifyPacket signer) .success
  | refused {signer : Certificate} (h : ¬ v.Accepts s.world.calls s.session.packet signer) :
    Decides v s (.verifyPacket signer) (.failure (invalidPacket s.session.packet))
  | broken {trusted c : Certificate} {front later : List Certificate}
    (hchain : s.session.chain = front ++ c :: later)
    (haccepts : v.AcceptsChain s.world.calls trusted front)
    (hrefuses : ¬ v.Accepts (s.world.calls + front.length) (.data c.data)
      (front.getLastD trusted)) :
    Decides v s (.verifyChain trusted) (.failure (invalidCertificate c))

def Undeciding (v : Verifier) : Scene → List Call → Prop
  | _, [] => True
  | s, call :: rest =>
    (∀ ending, ¬ Decides v s call ending) ∧ Undeciding v ((call.run v).left s) rest

/-- The hooks that calls leave with the session of a packet. Data takes none. -/
def registered (p : Packet) (calls : List Call) : List Hook :=
  match p with
  | .data _ => []
  | .interest _ => calls.filterMap fun
    | .addHook hook => some hook
    | _ => none

structure Quiet (s t : Scene) : Prop where
  packet : t.session.packet = s.session.packet
  outcome : t.session.outcome = s.session.outcome
  world : ∃ n, t.world = { s.world with calls := n }

inductive Misuse (s : Session) : Call → Fault → Prop
  | outcomeSet {call : Call} {b : Bool} (h : s.outcome = some b) :
      Misuse s call (.outcomeSet s.name b)
  | hooksOnData {d : Data} {hook : Hook} (h : s.packet = .data d) :
    Misuse s (.addHook hook) (.hooksOnData d.name)

/-- The session ended, and told so. -/
structure ToldBy (p : Packet) (hooks : List Hook) (ending : Ending) (s t : Scene) : Prop where
  packet : t.session.packet = p
  outcome : t.session.outcome = some ending.outcome
  world : ∃ n, t.world = ending.tell p.name hooks { s.world with calls := n }

structure DecidedBy (v : Verifier) (start : Scene) (before : List Call) (call : Call)
    (ending : Ending) (t : Scene) : Prop where
  undecided : Undeciding v start before
  quiet : Quiet start (runCalls v before start)
  decides : Decides v (runCalls v before start) call ending
  /-- The call meets no fault, whatever goes wrong in the callback and in the hooks. -/
  run : call.run v (runCalls v before start) = .ok () t
  told : ToldBy start.session.packet (registered start.session.packet before) ending start t
  /-- Nothing runs any more, and who would decide is told that the outcome is set. -/
  closed : ∀ later, Quiet t (runCalls v later t) ∧
    ∀ next ending', Decides v (runCalls v later t) next ending' →
      ∃ t', next.run v (runCalls v later t) =
        .error (.outcomeSet start.session.name ending.outcome) t' ∧ Quiet t t'

variable {v : Verifier} {p : Packet} {onSuccess onFailure : Callback} {hooks : List Hook}
  {s t : Scene}
  {call : Call} {ending : Ending} {calls before : List Call} {b : Bool} {fault : Fault}
  {signer trusted c : Certificate} {checked chain front later : List Certificate}

theorem Quiet.refl (s : Scene) : Quiet s s := ⟨rfl, rfl, s.world.calls, rfl⟩

theorem Quiet.trans {u : Scene} (h : Quiet s t) (h' : Quiet t u) : Quiet s u := by
  obtain ⟨n, hn⟩ := h.world
  obtain ⟨n', hn'⟩ := h'.world
  refine ⟨h'.packet.trans h.packet, h'.outcome.trans h.outcome, n', ?_⟩
  rw [hn', hn]

theorem registered_append (p : Packet) (before after : List Call) :
    registered p (before ++ after) = registered p before ++ registered p after := by
  cases p with
  | data d => rfl
  | interest i => exact List.filterMap_append

theorem registered_of_ne (p : Packet) (h : ∀ hook, call ≠ .addHook hook) :
    registered p [call] = [] := by
  cases p with
  | data d => rfl
  | interest i =>
    cases call with
    | addHook hook => exact absurd rfl (h hook)
    | _ => rfl

theorem runCalls_append (v : Verifier) (before after : List Call) (s : Scene) :
    runCalls v (before ++ after) s = runCalls v after (runCalls v before s) := List.foldl_append

theorem fail_of_some (e : ValidationError) (h : s.session.outcome = some b) :
    fail e s = .error (.outcomeSet s.session.name b) s :=
  Act.bind_of_error (setOutcome_of_some h)

theorem succeed_of_some (h : s.session.outcome = some b) :
    succeed s = .error (.outcomeSet s.session.name b) s :=
  Act.bind_of_error (setOutcome_of_some h)

theorem verifyPacket_eq (v : Verifier) (signer : Certificate) (s : Scene) :
    ∃ n, (v.Accepts s.world.calls s.session.packet signer →
        verifyPacket v signer s = succeed { s with world.calls := n }) ∧
      (¬ v.Accepts s.world.calls s.session.packet signer →
        verifyPacket v signer s = fail (invalidPacket s.session.packet)
          { s with world.calls := n }) := by
  obtain ⟨verified, n, hp, -⟩ := packetVerified_eq v signer s
  obtain ⟨-, haccepts⟩ := packetVerified_ok hp
  refine ⟨n, fun h => ?_, fun h => ?_⟩
  · obtain rfl := haccepts.2 h
    exact Act.bind_of_ok hp
  · obtain rfl : verified = false := Bool.eq_false_iff.2 fun hv => h (haccepts.1 hv)
    exact Act.bind_of_ok hp

theorem verifyFrom_of_accepts (h : v.AcceptsChain s.world.calls signer chain) :
    verifyFrom v signer checked chain s =
      .ok (some (chain.getLastD signer))
        { s with world.calls := s.world.calls + chain.length } := by
  induction chain generalizing s signer checked with
  | nil => rfl
  | cons c rest ih =>
    obtain ⟨hc, hrest⟩ := h
    have hc : (v.checkData s.world.calls c.data signer).1 = true := hc
    have hcalls : s.world.calls + (rest.length + 1) = s.world.calls + 1 + rest.length := by omega
    rw [verifyFrom, Act.bind_of_ok (certificateVerified_eq v c signer s), if_pos hc,
      ih (s := { s with world.calls := s.world.calls + 1 }) hrest, List.getLastD_cons,
      List.length_cons, hcalls]

/-- After its outcome the session cannot fail at a certificate, but its chain is cut off there. -/
theorem verifyFrom_of_some (ho : s.session.outcome = some b)
    (haccepts : v.AcceptsChain s.world.calls signer front)
    (hrefuses : ¬ v.Accepts (s.world.calls + front.length) (.data c.data) (front.getLastD signer)) :
    verifyFrom v signer checked (front ++ c :: later) s = .error (.outcomeSet s.session.name b)
      ⟨{ s.session with chain := checked ++ front },
        { s.world with calls := s.world.calls + front.length + 1 }⟩ := by
  rw [verifyFrom_stops haccepts hrefuses]
  exact Act.bind_of_error (fail_of_some (invalidCertificate c) ho)

theorem verifyChain_eq (v : Verifier) (trusted : Certificate) (h : s.session.chain = chain) :
    verifyChain v trusted s = verifyFrom v trusted [] chain s := by
  rw [verifyChain, Act.get_bind, h]

theorem Undecided.asked (hs : Undecided p onSuccess onFailure s) (n : Nat) :
    Undecided p onSuccess onFailure { s with world.calls := n } :=
  ⟨hs.packet, hs.outcome, hs.onSuccess, hs.onFailure⟩

theorem ToldBy.asked {n : Nat} (h : ToldBy p hooks ending { s with world.calls := n } t) :
    ToldBy p hooks ending s t := ⟨h.packet, h.outcome, h.world⟩

theorem exists_succeed (hs : Undecided p onSuccess onFailure s) (hhooks : s.session.hooks = hooks) :
    ∃ t, succeed s = .ok () t ∧ ToldBy p hooks .success s t := by
  have hname : s.session.name = p.name := congrArg Packet.name hs.packet
  have htold : (s.session.onSuccess.map fun _ => Event.success s.session.name).toList =
      [.success p.name] := by
    rw [hs.onSuccess, hname]
    rfl
  refine ⟨_, succeed_of_none hs.outcome, hs.packet, rfl, s.world.calls, ?_⟩
  rw [htold, hhooks, hname]
  rfl

theorem exists_fail (hs : Undecided p onSuccess onFailure s) (e : ValidationError)
    (hooks : List Hook) : ∃ t, fail e s = .ok () t ∧ ToldBy p hooks (.failure e) s t := by
  have hname : s.session.name = p.name := congrArg Packet.name hs.packet
  refine ⟨_, fail_of_none e hs.outcome, hs.packet, rfl, s.world.calls, ?_⟩
  rw [hs.onFailure, hname]
  rfl

/-- The first call that decides does what it ends the session with. -/
theorem run_of_decides (hs : Undecided p onSuccess onFailure s) (h : Decides v s call ending)
    (hhooks : s.session.hooks = hooks) :
    ∃ t, call.run v s = .ok () t ∧ ToldBy p hooks ending s t := by
  cases h with
  | fail e => exact exists_fail hs e hooks
  | bypass => exact exists_succeed hs hhooks
  | @accepted signer h =>
    obtain ⟨n, hthen, -⟩ := verifyPacket_eq v signer s
    obtain ⟨t, hok, ht⟩ := exists_succeed (hs.asked n) hhooks
    exact ⟨t, (hthen h).trans hok, ht.asked⟩
  | @refused signer h =>
    obtain ⟨n, -, hthen⟩ := verifyPacket_eq v signer s
    obtain ⟨t, hok, ht⟩ := exists_fail (hs.asked n) (invalidPacket s.session.packet) hooks
    exact ⟨t, (hthen h).trans hok, ht.asked⟩
  | @broken trusted c front later hchain haccepts hrefuses =>
    have hrun := (verifyChain_eq v trusted hchain).trans
      (verifyFrom_of_refused hs.outcome haccepts hrefuses)
    have hname : s.session.name = p.name := congrArg Packet.name hs.packet
    refine ⟨_, Act.bind_of_ok hrun, hs.packet, rfl, s.world.calls + front.length + 1, ?_⟩
    rw [Session.failures, hs.onFailure, hname]
    rfl

/-- Other calls that do not decide, or come too late to, change the chain and the seen names at
most. -/
theorem left_run_of_ne (h : s.session.outcome = some b ∨ ∀ ending, ¬ Decides v s call ending)
    (hcall : ∀ hook, call ≠ .addHook hook) :
    ∃ chain seen n,
      (call.run v).left s = ⟨{ s.session with chain, seen }, { s.world with calls := n }⟩ := by
  have hlate : ∀ ending, Decides v s call ending → s.session.outcome = some b := by
    intro ending hending
    exact h.resolve_right fun hnone => hnone ending hending
  cases call with
  | fail e =>
    have hrun := fail_of_some e (hlate _ (.fail e))
    exact ⟨_, _, _, Act.left_of_error hrun⟩
  | bypass =>
    have hrun := succeed_of_some (hlate _ .bypass)
    exact ⟨_, _, _, Act.left_of_error hrun⟩
  | verifyPacket signer =>
    obtain ⟨n, haccepted, hrefused⟩ := verifyPacket_eq v signer s
    refine ⟨s.session.chain, s.session.seen, n, ?_⟩
    by_cases haccepts : v.Accepts s.world.calls s.session.packet signer
    · have hrun := succeed_of_some (s := { s with world.calls := n }) (hlate _ (.accepted haccepts))
      exact Act.left_of_error ((haccepted haccepts).trans hrun)
    · have hrun := fail_of_some (s := { s with world.calls := n }) (invalidPacket s.session.packet)
        (hlate _ (.refused haccepts))
      exact Act.left_of_error ((hrefused haccepts).trans hrun)
  | verifyChain trusted =>
    rcases v.acceptsChain_or_refused s.world.calls trusted s.session.chain with
      hall | ⟨front, c, later, hchain, haccepts, hrefuses⟩
    · have hrun := (verifyChain_eq v trusted rfl).trans (verifyFrom_of_accepts hall)
      exact ⟨_, _, _, Act.left_of_ok (Act.bind_of_ok hrun)⟩
    · have ho := hlate _ (.broken hchain haccepts hrefuses)
      have hrun := (verifyChain_eq v trusted hchain).trans (verifyFrom_of_some ho haccepts hrefuses)
      exact ⟨_, _, _, Act.left_of_error (Act.bind_of_error hrun)⟩
  | addCertificate c =>
    obtain ⟨seen, hseen⟩ := Course.addSeen_eq s.session c.name
    refine ⟨c :: s.session.chain, seen, s.world.calls, ?_⟩
    show (⟨{ s.session.addSeen c.name with chain := c :: s.session.chain }, s.world⟩ : Scene) = _
    rw [hseen]
  | addSeen n =>
    obtain ⟨seen, hseen⟩ := Course.addSeen_eq s.session n
    refine ⟨s.session.chain, seen, s.world.calls, ?_⟩
    show (⟨s.session.addSeen n, s.world⟩ : Scene) = _
    rw [hseen]
  | takeChain => exact ⟨[], s.session.seen, s.world.calls, rfl⟩
  | addHook hook => exact absurd rfl (hcall hook)

theorem left_addHook (hook : Hook) (s : Scene) : ((Call.addHook hook).run v).left s =
    { s with session.hooks := s.session.hooks ++ registered s.session.packet [.addHook hook] } := by
  obtain ⟨⟨packet⟩, w⟩ := s
  cases packet with
  | data d =>
    unfold registered
    simp only [List.append_nil]
    rfl
  | interest i => rfl

/-- A call that does not decide, or comes too late to, runs nothing and may leave a hook. -/
theorem left_run (h : s.session.outcome = some b ∨ ∀ ending, ¬ Decides v s call ending) :
    ∃ chain seen n, (call.run v).left s =
      ⟨{ s.session with
          chain, seen, hooks := s.session.hooks ++ registered s.session.packet [call] },
        { s.world with calls := n }⟩ := by
  by_cases hcall : ∃ hook, call = .addHook hook
  · obtain ⟨hook, rfl⟩ := hcall
    exact ⟨_, _, _, left_addHook hook s⟩
  · have hcall : ∀ hook, call ≠ .addHook hook := not_exists.1 hcall
    obtain ⟨chain, seen, n, hleft⟩ := left_run_of_ne h hcall
    refine ⟨chain, seen, n, ?_⟩
    rw [hleft, registered_of_ne _ hcall, List.append_nil]

theorem quiet_run (h : s.session.outcome = some b ∨ ∀ ending, ¬ Decides v s call ending) :
    Quiet s ((call.run v).left s) := by
  obtain ⟨chain, seen, n, hleft⟩ := left_run h
  rw [hleft]
  exact ⟨rfl, rfl, n, rfl⟩

theorem quiet_runCalls (h : s.session.outcome = some b) (calls : List Call) :
    Quiet s (runCalls v calls s) := by
  induction calls generalizing s with
  | nil => exact .refl s
  | cons call rest ih =>
    have hfirst : Quiet s ((call.run v).left s) := quiet_run (.inl h)
    have hrest := ih (hfirst.outcome.trans h)
    exact hfirst.trans hrest

/-- Calls that do not decide leave their hooks, and nothing else happens. -/
theorem Undecided.runCalls (hs : Undecided p onSuccess onFailure s) (h : Undeciding v s calls) :
    Undecided p onSuccess onFailure (runCalls v calls s) ∧ Quiet s (runCalls v calls s) ∧
      (Scene.runCalls v calls s).session.hooks = s.session.hooks ++ registered p calls := by
  induction calls generalizing s with
  | nil =>
    have hnone : registered p [] = [] := by cases p <;> rfl
    rw [hnone, List.append_nil]
    exact ⟨hs, .refl s, rfl⟩
  | cons call rest ih =>
    obtain ⟨hcall, hrest⟩ := h
    obtain ⟨chain, seen, n, hleft⟩ := left_run (b := true) (.inr hcall)
    have hquiet : Quiet s ((call.run v).left s) := quiet_run (b := true) (.inr hcall)
    have hnext : Undecided p onSuccess onFailure ((call.run v).left s) := by
      rw [hleft]
      exact ⟨hs.packet, hs.outcome, hs.onSuccess, hs.onFailure⟩
    have hhooks : ((call.run v).left s).session.hooks = s.session.hooks ++ registered p [call] := by
      rw [hleft, ← hs.packet]
    obtain ⟨hend, hrestQuiet, hrestHooks⟩ := ih hnext hrest
    refine ⟨hend, hquiet.trans hrestQuiet, hrestHooks.trans ?_⟩
    rw [hhooks, List.append_assoc, ← registered_append]
    rfl

theorem error_of_decides (ho : s.session.outcome = some b) (h : Decides v s call ending) :
    ∃ t, call.run v s = .error (.outcomeSet s.session.name b) t := by
  cases h with
  | fail e => exact ⟨s, fail_of_some e ho⟩
  | bypass => exact ⟨s, succeed_of_some ho⟩
  | @accepted signer h =>
    obtain ⟨n, hthen, -⟩ := verifyPacket_eq v signer s
    exact ⟨_, (hthen h).trans (succeed_of_some (s := { s with world.calls := n }) ho)⟩
  | @refused signer h =>
    obtain ⟨n, -, hthen⟩ := verifyPacket_eq v signer s
    exact ⟨_, (hthen h).trans (fail_of_some (s := { s with world.calls := n }) _ ho)⟩
  | @broken trusted c front later hchain haccepts hrefuses =>
    have hrun := (verifyChain_eq v trusted hchain).trans (verifyFrom_of_some ho haccepts hrefuses)
    exact ⟨_, Act.bind_of_error hrun⟩

/-- Some call is the first that decides, or none decides. -/
theorem undeciding_or_decides (v : Verifier) (s : Scene) (calls : List Call) :
    Undeciding v s calls ∨ ∃ before call after ending, calls = before ++ call :: after ∧
      Undeciding v s before ∧ Decides v (runCalls v before s) call ending := by
  induction calls generalizing s with
  | nil => exact .inl trivial
  | cons call rest ih =>
    by_cases hcall : ∃ ending, Decides v s call ending
    · obtain ⟨ending, hending⟩ := hcall
      exact .inr ⟨[], call, rest, ending, rfl, trivial, hending⟩
    · have hnone : ∀ ending, ¬ Decides v s call ending := not_exists.1 hcall
      rcases ih ((call.run v).left s) with hrest | ⟨before, next, after, ending, rfl,
          hbefore, hnext⟩
      · exact .inl ⟨hnone, hrest⟩
      · exact .inr ⟨call :: before, next, after, ending, rfl, ⟨hnone, hbefore⟩, hnext⟩

theorem closed_of_outcome (ho : s.session.outcome = some b) (calls : List Call) :
    Quiet s (runCalls v calls s) ∧ ∀ next ending, Decides v (runCalls v calls s) next ending →
      ∃ t, next.run v (runCalls v calls s) = .error (.outcomeSet s.session.name b) t ∧
        Quiet s t := by
  have hlater : Quiet s (runCalls v calls s) := quiet_runCalls ho calls
  have ho' := hlater.outcome.trans ho
  have hname : (runCalls v calls s).session.name = s.session.name :=
    congrArg Packet.name hlater.packet
  refine ⟨hlater, fun next ending hnext => ?_⟩
  obtain ⟨t, herror⟩ := error_of_decides ho' hnext
  have hquiet : Quiet (runCalls v calls s) t := Act.left_of_error herror ▸ quiet_run (.inl ho')
  exact ⟨t, hname ▸ herror, hlater.trans hquiet⟩

theorem decidedBy_of_decides (hs : Undecided p onSuccess onFailure s) (hnone : s.session.hooks = [])
    (hbefore : Undeciding v s before) (h : Decides v (runCalls v before s) call ending) :
    ∃ t, DecidedBy v s before call ending t := by
  obtain rfl : s.session.packet = p := hs.packet
  obtain ⟨hstage, hquiet, hhooks⟩ := hs.runCalls hbefore
  rw [hnone, List.nil_append] at hhooks
  obtain ⟨t, hrun, hpacket, houtcome, n, hworld⟩ := run_of_decides hstage h hhooks
  obtain ⟨n', hn'⟩ := hquiet.world
  have hname : t.session.name = s.session.name := congrArg Packet.name hpacket
  refine ⟨t, hbefore, hquiet, h, hrun, ⟨hpacket, houtcome, n, ?_⟩, ?_⟩
  · rw [hworld, hn']
  · rw [← hname]
    exact closed_of_outcome houtcome

theorem misuse_of_fail {e : ValidationError} (h : fail e s = .error fault t) :
    Misuse s.session call fault := by
  cases ho : s.session.outcome with
  | none =>
    rw [fail_of_none e ho] at h
    cases h
  | some b =>
    rw [fail_of_some e ho] at h
    cases h
    exact .outcomeSet ho

theorem misuse_of_succeed (h : succeed s = .error fault t) : Misuse s.session call fault := by
  cases ho : s.session.outcome with
  | none =>
    rw [succeed_of_none ho] at h
    cases h
  | some b =>
    rw [succeed_of_some ho] at h
    cases h
    exact .outcomeSet ho

/-- A fault is the caller's, and never that of a callback or a hook. -/
theorem misuse_of_error (h : call.run v s = .error fault t) : Misuse s.session call fault := by
  cases call with
  | fail e => exact misuse_of_fail h
  | bypass => exact misuse_of_succeed h
  | verifyPacket signer =>
    have h : verifyPacket v signer s = .error fault t := h
    obtain ⟨n, haccepted, hrefused⟩ := verifyPacket_eq v signer s
    by_cases haccepts : v.Accepts s.world.calls s.session.packet signer
    · rw [haccepted haccepts] at h
      exact misuse_of_succeed (s := { s with world.calls := n }) h
    · rw [hrefused haccepts] at h
      exact misuse_of_fail (s := { s with world.calls := n }) h
  | verifyChain trusted =>
    rcases Act.bind_error h with h | ⟨_, _, -, h⟩
    · rcases v.acceptsChain_or_refused s.world.calls trusted s.session.chain with
        hall | ⟨front, c, later, hchain, haccepts, hrefuses⟩
      · rw [verifyChain_eq v trusted rfl, verifyFrom_of_accepts hall] at h
        cases h
      · rw [verifyChain_eq v trusted hchain] at h
        cases ho : s.session.outcome with
        | none =>
          rw [verifyFrom_of_refused ho haccepts hrefuses] at h
          cases h
        | some b =>
          rw [verifyFrom_of_some ho haccepts hrefuses] at h
          cases h
          exact .outcomeSet ho
    · cases h
  | addCertificate c => cases h
  | addSeen n => cases h
  | takeChain => cases h
  | addHook hook =>
    cases hp : s.session.packet with
    | interest i =>
      have hrun : addHooks [hook] s = .error fault t := h
      rw [addHooks_of_interest [hook] hp] at hrun
      cases hrun
    | data d =>
      have hrun : addHooks [hook] s = .error fault t := h
      rw [addHooks, Act.get_bind] at hrun
      simp only [hp] at hrun
      cases hrun
      exact .hooksOnData hp

/-- Whatever is done with a session: the first call that decides runs one callback and, after the
success of an Interest, the hooks that were left before it, each once and in order. Later calls that
would decide are refused, and run nothing. -/
theorem callbacks_once (v : Verifier) (p : Packet) (onSuccess onFailure : Callback) (w : World)
    (calls : List Call) :
    let start : Scene :=
      ⟨{ packet := p, onSuccess := some onSuccess, onFailure := some onFailure }, w⟩
    (Undeciding v start calls ∧ (runCalls v calls start).session.outcome = none ∧
        Quiet start (runCalls v calls start) ∨
      ∃ before call after ending t, calls = before ++ call :: after ∧
        DecidedBy v start before call ending t ∧ runCalls v calls start = runCalls v after t) ∧
    ∀ s call fault t, call.run v s = .error fault t → Misuse s.session call fault := by
  intro start
  have hstart : Undecided p onSuccess onFailure start := ⟨rfl, rfl, rfl, rfl⟩
  refine ⟨?_, fun _ _ _ _ => misuse_of_error⟩
  rcases undeciding_or_decides v start calls with
    hnone | ⟨before, call, after, ending, rfl, hbefore, hdecides⟩
  · obtain ⟨hend, hquiet, -⟩ := hstart.runCalls hnone
    exact .inl ⟨hnone, hend.outcome, hquiet⟩
  · obtain ⟨t, hdecided⟩ := decidedBy_of_decides hstart rfl hbefore hdecides
    refine .inr ⟨before, call, after, ending, t, rfl, hdecided, ?_⟩
    rw [runCalls_append]
    exact congrArg (runCalls v after) (Act.left_of_ok hdecided.run)

/-- The callback and the first hook go wrong; the second hook runs, and one that comes later does
not. -/
theorem callbacks_once_sample :
    let p : Packet := .interest { name := ⟨[.generic [1]]⟩ }
    let start : Scene := ⟨{ packet := p, onSuccess := some ⟨true⟩ }, { clock := .still ⟨0, 0⟩ }⟩
    let calls : List Call := [.addHook (.call "a" true), .addHook (.call "b" false), .bypass,
      .addHook (.call "c" false), .fail ⟨.policy, ""⟩]
    let t := runCalls .standard calls start
    t.session.outcome = some true ∧
      t.world.events = [.success p.name, .hook "a" p.name, .hook "b" p.name] ∧
      Misuse t.session .bypass (.outcomeSet p.name true) := by
  intro p start calls t
  have hlate : Call.bypass.run .standard t = .error (.outcomeSet p.name true) t := rfl
  exact ⟨rfl, rfl, (callbacks_once .standard p ⟨true⟩ {} start.world calls).2 _ _ _ _ hlate⟩

end Scene

end PacketTrust
