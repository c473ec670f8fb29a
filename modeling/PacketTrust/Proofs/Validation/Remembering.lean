import PacketTrust.Proofs.Validation.Clocks
import PacketTrust.Proofs.Validation.Replay
import PacketTrust.Proofs.Validation.Reports
import PacketTrust.Proofs.Validation.Reuse

/-! What the first policy of a chain remembers of a session, where that policy is on command
Interests. Being asked about a command drops old records; the command itself is recorded only in the
step that makes the session a success. -/

namespace PacketTrust

def Subject.command? : Subject → Option (Name × UInt64)
  | interest i => (Policy.commandParts i).toOption
  | _ => none

/-- An Interest is a command; to other packets this does not apply. -/
def Subject.Readable (s : Subject) : Prop := ∀ i, s = .interest i → s.command?.isSome

def Records.afterCheck (o : CommandOptions) (now : Instant) (s : Subject) (l : Records) : Records :=
  if s.command?.isSome then l.cleanUp o now else l

section

variable {o : CommandOptions} {l : Records} {now : Instant} {i : Interest}

theorem Subject.command?_of_error {e : ValidationError} (h : Policy.commandParts i = .error e) :
    (interest i).command? = none := by
  simp [command?, h, Except.toOption]

theorem Subject.command?_of_ok {parts : Name × UInt64} (h : Policy.commandParts i = .ok parts) :
    (interest i).command? = some parts := by
  simp [command?, h, Except.toOption]

theorem Records.afterCheck_of_error {e : ValidationError} (h : Policy.commandParts i = .error e) :
    l.afterCheck o now (.interest i) = l := by
  simp [afterCheck, Subject.command?_of_error h]

theorem Records.afterCheck_of_ok {parts : Name × UInt64} (h : Policy.commandParts i = .ok parts) :
    l.afterCheck o now (.interest i) = l.cleanUp o now := by
  simp [afterCheck, Subject.command?_of_ok h]

end

/-- What a hook records with the first policy of the chain. -/
def Hook.forFirst? : Hook → Option (Name × UInt64)
  | record 0 keyName timestamp => some (keyName, timestamp)
  | _ => none

/-- The first policy is on command Interests and has these records; no other one records for it. -/
def World.LedBy (o : CommandOptions) (l : Records) (w : World) : Prop :=
  ∃ rest, w.chain = .command o l :: rest ∧ ∀ p ∈ rest, p.Discreet

def Task.outcome? : Task → Option Bool
  | ended s => s.outcome
  | _ => none

def Status.outcome? : EStateM.Result Fault Scene Status → Option Bool
  | .ok .ended s => s.session.outcome
  | _ => none

theorem Status.ended_of_outcome? {result : EStateM.Result Fault Scene Status} {decided : Bool}
    (h : Status.outcome? result = some decided) :
    ∃ s, result = .ok .ended s ∧ s.session.outcome = some decided := by
  cases result with
  | error fault s => cases h
  | ok status s =>
    cases status with
    | ended => exact ⟨s, rfl, h⟩
    | waiting p => cases h

section

variable {o : CommandOptions} {l : Records} {clock : Clock} {s : Subject} {w w' : World}

theorem Hook.filterMap_eq_nil {hooks : List Hook} (h : ∀ k t, .record 0 k t ∉ hooks) :
    hooks.filterMap Hook.forFirst? = [] := by
  rw [List.filterMap_eq_nil_iff]
  intro hook hhook
  rcases hook with ⟨_ | place, k, t⟩ | ⟨label, fails⟩
  · exact absurd hhook (h k t)
  · rfl
  · rfl

/-- The policy on command Interests rejects a subject, or lets it pass and has all of it recorded
that it read off it. -/
theorem Policy.check_first (o : CommandOptions) (l : Records) (clock : Clock) (s : Subject) :
    ∃ verdict hooks clock', (command o l).check clock 0 s =
        ((verdict, hooks), command o (l.afterCheck o clock.now s), clock') ∧
      ((∃ e, verdict = .reject e) ∨ verdict = .pass ∧ s.Readable ∧
        hooks.filterMap Hook.forFirst? = s.command?.toList) := by
  cases s with
  | data d => exact ⟨_, _, _, rfl, .inr ⟨rfl, nofun, rfl⟩⟩
  | certificate c => exact ⟨_, _, _, rfl, .inr ⟨rfl, nofun, rfl⟩⟩
  | interest i =>
    cases hi : commandParts i with
    | error e =>
      rw [check_unreadable hi, Records.afterCheck_of_error hi]
      exact ⟨_, _, _, rfl, .inl ⟨e, rfl⟩⟩
    | ok parts =>
      have hsome := Subject.command?_of_ok hi
      have hreadable : (Subject.interest i).Readable := by
        intro j hj
        rw [hsome]
        rfl
      rw [check_readable hi, Records.afterCheck_of_ok hi, hsome]
      rcases checkTimestamp_cases o (l.cleanUp o clock.now) clock.next.now 0 parts.1 parts.2
        with ⟨e, hr⟩ | ⟨hr, -⟩
      · rw [hr]
        exact ⟨_, _, _, rfl, .inl ⟨e, rfl⟩⟩
      · rw [hr]
        exact ⟨_, _, _, rfl, .inr ⟨rfl, hreadable, rfl⟩⟩

namespace World

theorem LedBy.of_chain (h : w.LedBy o l) (hc : w'.chain = w.chain) : w'.LedBy o l := by
  obtain ⟨rest, hchain, hrest⟩ := h
  exact ⟨rest, hc.trans hchain, hrest⟩

theorem chain_foldl_cacheVerified (chain : List Certificate) (w : World) :
    (chain.foldl cacheVerified w).chain = w.chain := by
  obtain ⟨_, _, -, h⟩ := fold_cacheVerified chain w
  rw [h]

/-- Of all the policies, only the first one has something recorded with it. -/
theorem LedBy.checkPolicy (h : w.LedBy o l) (s : Subject) :
    (w.checkPolicy s).2.LedBy o (l.afterCheck o w.now s) ∧
      ((∃ e, (w.checkPolicy s).1.1 = .reject e) ∨ s.Readable ∧
        (w.checkPolicy s).1.2.filterMap Hook.forFirst? = s.command?.toList) := by
  obtain ⟨rest, hchain, hrest⟩ := h
  obtain ⟨verdict, hooks, clock, hfirst, hverdict⟩ := Policy.check_first o l w.clock s
  have hall : w.checkPolicy s = ((PolicyChain.checkFrom s w.clock 0 (.command o l :: rest)).1,
      { w with
        chain := (PolicyChain.checkFrom s w.clock 0 (.command o l :: rest)).2.1
        clock := (PolicyChain.checkFrom s w.clock 0 (.command o l :: rest)).2.2 }) := by
    rw [World.checkPolicy, hchain]
    rfl
  rw [hall]
  rcases hverdict with ⟨e, rfl⟩ | ⟨rfl, hreadable, hhooks⟩
  · have hstops : ((Policy.command o l).check w.clock 0 s).1.1 ≠ .pass := by simp [hfirst]
    rw [PolicyChain.checkFrom_of_ne_pass hstops, hfirst]
    exact ⟨⟨rest, rfl, hrest⟩, .inl ⟨e, rfl⟩⟩
  · have hpasses : ((Policy.command o l).check w.clock 0 s).1.1 = .pass := by rw [hfirst]
    rw [PolicyChain.checkFrom_of_pass hpasses, hfirst]
    refine ⟨⟨_, rfl, PolicyChain.checkFrom_discreet hrest⟩, .inr ⟨hreadable, ?_⟩⟩
    have hothers : (PolicyChain.checkFrom s clock 1 rest).1.2.filterMap Hook.forFirst? = [] :=
      Hook.filterMap_eq_nil fun k t hk => by
        have hplace := PolicyChain.checkFrom_hooks hrest hk
        omega
    change (hooks ++ (PolicyChain.checkFrom s clock 1 rest).1.2).filterMap Hook.forFirst? = _
    rw [List.filterMap_append, hhooks, hothers, List.append_nil]

theorem LedBy.record (h : w.LedBy o l) (place : Nat) (k : Name) (t : UInt64) :
    (w.record (place + 1) k t).LedBy o l := by
  obtain ⟨rest, hchain, hrest⟩ := h
  refine ⟨rest.modify place fun p => p.record k t w.now, ?_, ?_⟩
  · rw [World.record, hchain]
    rfl
  · exact PolicyChain.modify_discreet hrest (fun _ => Policy.record_discreet) place

theorem LedBy.record_first (h : w.LedBy o l) (k : Name) (t : UInt64) :
    (w.record 0 k t).LedBy o (l.insert k t w.now) := by
  obtain ⟨rest, hchain, hrest⟩ := h
  refine ⟨rest, ?_, hrest⟩
  rw [World.record, hchain]
  rfl

/-- Hooks record with the first policy what they have for it, and that once. -/
theorem LedBy.hooks (h : w.LedBy o l) (n : Name) {hooks : List Hook}
    {due : Option (Name × UInt64)} (hdue : hooks.filterMap Hook.forFirst? = due.toList) :
    ∃ clock : Clock, clock.Follows w.clock ∧
      (hooks.foldl (Scene.afterHook n) w).clock.Follows clock ∧
      (hooks.foldl (Scene.afterHook n) w).LedBy o
        (due.elim l fun command => l.insert command.1 command.2 clock.now) := by
  induction hooks generalizing w l due with
  | nil =>
    cases due with
    | none => exact ⟨w.clock, .refl _, .refl _, h⟩
    | some command => cases hdue
  | cons hook rest ih =>
    rcases hook with ⟨_ | place, k, t⟩ | ⟨label, fails⟩
    · cases due with
      | none => cases hdue
      | some command =>
        obtain ⟨rfl, hrest⟩ : (k, t) = command ∧ rest.filterMap Hook.forFirst? = [] := by
          simpa [Hook.forFirst?] using hdue
        have hnone : rest.filterMap Hook.forFirst? = (none : Option (Name × UInt64)).toList := hrest
        obtain ⟨clock, -, -, hled⟩ := ih (h.record_first k t) hnone
        exact ⟨w.clock, .refl _, reads_foldl_afterHook n _ w, hled⟩
    · have hrest : rest.filterMap Hook.forFirst? = due.toList := hdue
      obtain ⟨clock, hlater, hend, hled⟩ := ih (h.record place k t) hrest
      have hnext := (Clock.Follows.refl w.clock).next
      exact ⟨clock, hlater.trans hnext, hend, hled⟩
    · exact ih (h.of_chain rfl : (w.emit (.hook label n)).LedBy o l) hdue

end World

end

namespace Course

open Scene Validator

section

variable {o : CommandOptions} {l : Records} {p : Packet} {due : Option (Name × UInt64)}
  {s s' t : Scene} {v : Validator} {env : Environment} {start : Scene} {notices : List Notice}
  {moves : List Move} {stage stage' : Stage}

/-- The session of a packet has no outcome, and these are the records of the first policy. -/
structure Unsettled (o : CommandOptions) (l : Records) (p : Packet) (s : Scene) : Prop where
  packet : s.session.packet = p
  outcome : s.session.outcome = none
  led : s.world.LedBy o l

/-- What the session has to record with the first policy if it succeeds. -/
def Due (due : Option (Name × UInt64)) (s : Scene) : Prop :=
  s.session.hooks.filterMap Hook.forFirst? = due.toList

/-- The session has its outcome: after a failure the records are as before, and after a success what
was due has been recorded, at a reading of the clock on the way. -/
def Settled (o : CommandOptions) (l : Records) (due : Option (Name × UInt64)) (s s' : Scene) :
    Prop :=
  s'.session.outcome = some false ∧ s'.world.LedBy o l ∨
    s'.session.outcome = some true ∧ ∃ clock : Clock, clock.Follows s.world.clock ∧
      s'.world.clock.Follows clock ∧
      s'.world.LedBy o (due.elim l fun command => l.insert command.1 command.2 clock.now)

theorem Settled.after (h : Settled o l due t s') (ht : t.world.clock.Follows s.world.clock) :
    Settled o l due s s' := by
  rcases h with h | ⟨ho, clock, hlater, hend, hled⟩
  · exact .inl h
  · exact .inr ⟨ho, clock, hlater.trans ht, hend, hled⟩

theorem Unsettled.fail (hs : Unsettled o l p s) {e : ValidationError}
    (h : fail e s = .ok () s') : Settled o l due s s' := by
  rw [fail_of_none e hs.outcome] at h
  cases h
  exact .inl ⟨rfl, hs.led.of_chain rfl⟩

theorem Unsettled.succeed (hs : Unsettled o l p s) (hd : Due due s)
    (h : succeed s = .ok () s') : Settled o l due s s' := by
  obtain ⟨-, hsession, events, hw⟩ := succeed_ok h
  have hled : World.LedBy o l { s.world with events } := hs.led.of_chain rfl
  obtain ⟨clock, hlater, hend, hrecorded⟩ := hled.hooks s.session.name hd
  rw [← hw] at hend hrecorded
  exact .inr ⟨by rw [hsession], clock, hlater, hend, hrecorded⟩

theorem Unsettled.conclude (hs : Unsettled o l p s) (hd : Due due s) {trusted : Certificate}
    (h : v.conclude trusted s = .ok () s') : Settled o l due s s' := by
  obtain ⟨b, calls, t, part, -, -, -, ht, rfl⟩ := Validator.concluded h
  have hu : Unsettled o l p ⟨{ s.session with chain := part }, { s.world with calls }⟩ :=
    ⟨hs.packet, hs.outcome, hs.led.of_chain rfl⟩
  have hsettled : Settled o l due ⟨{ s.session with chain := part }, { s.world with calls }⟩ t := by
    cases ht with
    | success ht => exact hu.succeed hd ht
    | failure ht => exact hu.fail ht
  have hchain := World.chain_foldl_cacheVerified part t.world
  rcases hsettled with ⟨ho, hled⟩ | ⟨ho, clock, hlater, hend, hled⟩
  · exact .inl ⟨ho, hled.of_chain hchain⟩
  · have hcached := World.reads_foldl_cacheVerified part t.world
    exact .inr ⟨ho, clock, hlater, hcached.trans hend, hled.of_chain hchain⟩

/-- The policies are asked: the first one may drop records, and has no more recorded than what it
read off the subject. -/
theorem Unsettled.ask (hs : Unsettled o l p s) {subject : Subject} {verdict : Verdict}
    (h : ask subject s = .ok verdict s') :
    Unsettled o (l.afterCheck o s.world.now subject) p s' ∧
      s'.world.clock.Follows s.world.clock ∧
      ((∃ e, verdict = .reject e) ∨ subject.Readable ∧ ∀ due, Due due s →
        s'.session.hooks.filterMap Hook.forFirst? = due.toList ++ subject.command?.toList) := by
  obtain ⟨hverdict, hw, hsession⟩ := ask_ok h
  obtain ⟨hled, hanswer⟩ := hs.led.checkPolicy subject
  refine ⟨⟨?_, ?_, hw ▸ hled⟩, ?_, ?_⟩
  · rw [hsession, ← hs.packet]
  · rw [hsession, ← hs.outcome]
  · rw [hw]
    exact PolicyChain.checkFrom_clock ..
  · rw [hverdict, hsession]
    refine hanswer.imp_right fun ⟨hreadable, hhooks⟩ => ⟨hreadable, fun due hd => ?_⟩
    rw [List.filterMap_append, hd, hhooks]

theorem Unsettled.addSeen (hs : Unsettled o l p s) (n : Name) {w : World} (hw : w.LedBy o l) :
    Unsettled o l p ⟨s.session.addSeen n, w⟩ := by
  obtain ⟨seen, h⟩ := addSeen_eq s.session n
  rw [h]
  exact ⟨hs.packet, hs.outcome, hw⟩

theorem Due.addSeen (hd : Due due s) (n : Name) {w : World} :
    Due due ⟨s.session.addSeen n, w⟩ := by
  obtain ⟨seen, h⟩ := addSeen_eq s.session n
  rw [h]
  exact hd

/-- Past its opening a step leaves the records alone, unless it makes the session a success. -/
theorem Step.settles (h : Step v env stage s notices stage' s') (hstage : stage ≠ .opening)
    (henv : env.Keeps (World.LedBy o l)) (hs : Unsettled o l p s) (hd : Due due s) :
    stage' ≠ .opening ∧ stage' ≠ .ended ∧ Unsettled o l p s' ∧ Due due s' ∨
      stage' = .ended ∧ Settled o l due s s' := by
  have htick : Unsettled o l p (tick s) := ⟨hs.packet, hs.outcome, hs.led.of_chain rfl⟩
  have hreads : (tick s).world.clock.Follows s.world.clock := (Clock.Follows.refl _).next
  cases h with
  | stop limit done => exact .inr ⟨rfl, hs.fail done⟩
  | conclude room new found done =>
    obtain ⟨w, hw, rfl⟩ := Act.within_ok found
    have hled : w.LedBy o l := hs.led.of_chain (World.findTrusted_ok hw).2
    have hread : w.clock.Follows s.world.clock := by
      rw [← Act.left_of_ok hw]
      exact World.reads_findTrusted _ s.world
    exact .inr ⟨rfl, ((hs.addSeen _ hled).conclude (hd.addSeen _) done).after hread⟩
  | fetch room new missing begun =>
    obtain ⟨w, hw, rfl⟩ := Act.within_ok missing
    have hled : w.LedBy o l := hs.led.of_chain (World.findTrusted_ok hw).2
    have hled' := henv.begins begun hled
    exact .inl ⟨nofun, nofun, hs.addSeen _ hled', hd.addSeen _⟩
  | resume resumed =>
    have hled := henv.resumes resumed hs.led
    exact .inl ⟨nofun, nofun, ⟨hs.packet, hs.outcome, hled⟩, hd⟩
  | give done => exact .inr ⟨rfl, hs.fail done⟩
  | expire invalid done => exact .inr ⟨rfl, (htick.fail done).after hreads⟩
  | @takeIn _ t r next c valid asked =>
    obtain ⟨hu, -, ⟨e, he⟩ | ⟨-, hhooks⟩⟩ := htick.ask asked
    · cases he
    have hdue : Due due t := (hhooks due hd).trans (List.append_nil _)
    obtain ⟨hpacket, houtcome, hled⟩ := hu.addSeen c.name hu.led
    exact .inl ⟨nofun, nofun, ⟨hpacket, houtcome, hled⟩, hdue.addSeen c.name (w := t.world)⟩
  | dismiss valid asked against done =>
    obtain ⟨hu, hread, -⟩ := htick.ask asked
    exact .inr ⟨rfl, (hu.fail done).after (hread.trans hreads)⟩
  | _ => exact absurd rfl hstage

/-- In its opening a session drops old records, if its packet is a command that can be read. -/
theorem Step.opens (h : Step v env .opening s notices stage' s') (hs : Unsettled o l p s)
    (hd : Due none s) :
    (stage' ≠ .opening ∧ stage' ≠ .ended ∧ p.subject.Readable ∧
        Unsettled o (l.afterCheck o s.world.now p.subject) p s' ∧ Due p.subject.command? s') ∨
      stage' = .ended ∧
        Settled o (l.afterCheck o s.world.now p.subject) p.subject.command? s s' ∧
        (s'.session.outcome = some true → p.subject.Readable) := by
  cases h with
  | bypass asked done =>
    rw [hs.packet] at asked
    obtain ⟨hu, hread, ⟨e, he⟩ | ⟨hreadable, hhooks⟩⟩ := hs.ask asked
    · cases he
    exact .inr ⟨rfl, (hu.succeed (hhooks none hd) done).after hread, fun _ => hreadable⟩
  | refuse asked against done =>
    rw [hs.packet] at asked
    obtain ⟨hu, hread, -⟩ := hs.ask asked
    have hfails := (fail_ok done).2
    exact .inr ⟨rfl, (hu.fail done).after hread, fun ho => by simp [hfails] at ho⟩
  | require asked =>
    rw [hs.packet] at asked
    obtain ⟨hu, -, ⟨e, he⟩ | ⟨hreadable, hhooks⟩⟩ := hs.ask asked
    · cases he
    exact .inl ⟨nofun, nofun, hreadable, hu, hhooks none hd⟩

/-- What a session of a packet leaves of the records of the first policy, whose clock was at one
reading when it was asked, and at others before and after the last step. -/
inductive Leaves (o : CommandOptions) (l : Records) (asked before after : Clock) :
    Packet → (outcome : Option Bool) → Records → Prop
  | data {d : Data} {outcome : Option Bool} : Leaves o l asked before after (.data d) outcome l
  | unreadable {i : Interest} {e : ValidationError} {outcome : Option Bool}
      (command : Policy.commandParts i = .error e) (unaccepted : outcome ≠ some true) :
      Leaves o l asked before after (.interest i) outcome l
  | unaccepted {i : Interest} {k : Name} {t : UInt64} {outcome : Option Bool}
      (command : Policy.commandParts i = .ok (k, t)) (unaccepted : outcome ≠ some true) :
      Leaves o l asked before after (.interest i) outcome (l.cleanUp o asked.now)
  | accepted {i : Interest} {k : Name} {t : UInt64} {done : Clock}
      (command : Policy.commandParts i = .ok (k, t)) (later : done.Follows before)
      (ended : after.Follows done) :
      Leaves o l asked before after (.interest i) (some true)
        ((l.cleanUp o asked.now).insert k t done.now)

section

variable {asked before after : Clock} {outcome : Option Bool}

theorem leaves_afterCheck (h : outcome ≠ some true) :
    Leaves o l asked before after p outcome (l.afterCheck o asked.now p.subject) := by
  cases p with
  | data d => exact .data
  | interest i =>
    rw [Packet.subject]
    cases hi : Policy.commandParts i with
    | error e =>
      rw [Records.afterCheck_of_error hi]
      exact .unreadable hi h
    | ok parts =>
      rw [Records.afterCheck_of_ok hi]
      exact .unaccepted hi h

theorem leaves_recorded {done : Clock} (hr : p.subject.Readable) (hlater : done.Follows before)
    (hend : after.Follows done) :
    Leaves o l asked before after p (some true) (p.subject.command?.elim
      (l.afterCheck o asked.now p.subject) fun command =>
        (l.afterCheck o asked.now p.subject).insert command.1 command.2 done.now) := by
  cases p with
  | data d => exact .data
  | interest i =>
    rw [Packet.subject] at hr ⊢
    cases hi : Policy.commandParts i with
    | error e =>
      have hsome := hr i rfl
      rw [Subject.command?_of_error hi] at hsome
      cases hsome
    | ok parts =>
      rw [Subject.command?_of_ok hi, Records.afterCheck_of_ok hi]
      exact .accepted hi hlater hend

theorem Leaves.of_follows {earlier : Clock} {left : Records}
    (h : Leaves o l asked before after p outcome left) (hb : before.Follows earlier) :
    Leaves o l asked earlier after p outcome left := by
  cases h with
  | data => exact .data
  | unreadable command unaccepted => exact .unreadable command unaccepted
  | unaccepted command unaccepted => exact .unaccepted command unaccepted
  | accepted command later ended => exact .accepted command (later.trans hb) ended

theorem Settled.leaves
    (h : Settled o (l.afterCheck o asked.now p.subject) p.subject.command? s s')
    (hr : s'.session.outcome = some true → p.subject.Readable) :
    ∃ left, Leaves o l asked s.world.clock s'.world.clock p s'.session.outcome left ∧
      s'.world.LedBy o left := by
  rcases h with ⟨ho, hled⟩ | ⟨ho, done, hlater, hend, hled⟩
  · exact ⟨_, leaves_afterCheck (by simp [ho]), hled⟩
  · have hrecorded : Leaves o l asked s.world.clock s'.world.clock p (some true) _ :=
      leaves_recorded (hr ho) hlater hend
    rw [ho]
    exact ⟨_, hrecorded, hled⟩

end

/-- How a session stands with the first policy: it has not been asked yet, or it was asked in the
first of the steps, or with the last of them the session has ended. -/
def Account (o : CommandOptions) (l : Records) (p : Packet) (moves : List Move) :
    Stage → Scene → Prop
  | .opening, s => moves = [] ∧ Unsettled o l p s ∧ Due none s
  | .ended, s => ∃ first last left, moves.head? = some first ∧ moves.getLast? = some last ∧
      Leaves o l first.before.world.clock last.before.world.clock last.after.world.clock p
        s.session.outcome left ∧ s.world.LedBy o left
  | _, s => ∃ first, moves.head? = some first ∧ p.subject.Readable ∧
      Unsettled o (l.afterCheck o first.before.world.now p.subject) p s ∧
      Due p.subject.command? s

theorem Account.asked {first : Move} (hfirst : moves.head? = some first)
    (hr : p.subject.Readable)
    (hs : Unsettled o (l.afterCheck o first.before.world.now p.subject) p s)
    (hd : Due p.subject.command? s) (hopening : stage ≠ .opening) (hended : stage ≠ .ended) :
    Account o l p moves stage s := by
  cases stage with
  | opening => exact absurd rfl hopening
  | ended => exact absurd rfl hended
  | _ => exact ⟨first, hfirst, hr, hs, hd⟩

theorem Account.of_asked (h : Account o l p moves stage s) (hopening : stage ≠ .opening)
    (hended : stage ≠ .ended) : ∃ first, moves.head? = some first ∧ p.subject.Readable ∧
      Unsettled o (l.afterCheck o first.before.world.now p.subject) p s ∧
      Due p.subject.command? s := by
  cases stage with
  | opening => exact absurd rfl hopening
  | ended => exact absurd rfl hended
  | _ => exact h

theorem Account.step (h : Account o l p moves stage s)
    (hstep : Step v env stage s notices stage' s') (henv : ∀ l, env.Keeps (World.LedBy o l)) :
    Account o l p (moves ++ [⟨stage, s, notices, stage', s'⟩]) stage' s' := by
  by_cases hopening : stage = .opening
  · subst hopening
    obtain ⟨rfl, hs, hd⟩ := h
    rcases hstep.opens hs hd with ⟨hopening, hended, hr, hs', hd'⟩ | ⟨rfl, hsettled, hr⟩
    · exact .asked rfl hr hs' hd' hopening hended
    · obtain ⟨left, hleaves, hled⟩ := hsettled.leaves hr
      exact ⟨_, _, left, rfl, rfl, hleaves, hled⟩
  · obtain ⟨first, hfirst, hr, hs, hd⟩ := h.of_asked hopening hstep.source_ne_ended
    have hhead (m : Move) : (moves ++ [m]).head? = some first := by simp [hfirst]
    rcases hstep.settles hopening (henv _) hs hd with
      ⟨hopening', hended', hs', hd'⟩ | ⟨rfl, hsettled⟩
    · exact .asked (hhead _) hr hs' hd' hopening' hended'
    · obtain ⟨left, hleaves, hled⟩ := hsettled.leaves fun _ => hr
      exact ⟨first, _, left, hhead _, List.getLast?_concat, hleaves, hled⟩

theorem Account.disturb (h : Account o l p moves stage s)
    (henv : ∀ l, env.Keeps (World.LedBy o l)) {w : World} (hw : env.disturbs s.world w) :
    Account o l p moves stage { s with world := w } := by
  cases stage with
  | opening =>
    obtain ⟨hmoves, hs, hd⟩ := h
    exact ⟨hmoves, ⟨hs.packet, hs.outcome, (henv l).disturbs hw hs.led⟩, hd⟩
  | ended =>
    obtain ⟨first, last, left, hfirst, hlast, hleaves, hled⟩ := h
    exact ⟨first, last, left, hfirst, hlast, hleaves, (henv left).disturbs hw hled⟩
  | _ =>
    obtain ⟨first, hfirst, hr, hs, hd⟩ := h
    exact ⟨first, hfirst, hr, ⟨hs.packet, hs.outcome, (henv _).disturbs hw hs.led⟩, hd⟩

theorem Trail.account (h : Trail v env start moves stage s)
    (henv : ∀ l, env.Keeps (World.LedBy o l)) (hs : Unsettled o l p start)
    (hd : Due none start) : Account o l p moves stage s := by
  induction h with
  | start => exact ⟨rfl, hs, hd⟩
  | step _ hstep ih => exact ih.step hstep henv
  | disturb _ hw ih => exact ih.disturb henv hw

/-- A fault in a step leaves the records as that step found them. -/
theorem Account.breaks (h : Account o l p moves stage s) {fault : Fault}
    (hb : Breaks v stage s fault s') :
    ((∃ d, p = .data d) ∧ moves = []) ∧ s'.world.LedBy o l ∨ ∃ first, moves.head? = some first ∧
      s'.world.LedBy o (l.afterCheck o first.before.world.now p.subject) := by
  cases hb with
  | ask asked =>
    obtain ⟨hmoves, hs, -⟩ := h
    obtain ⟨hw, -, -, d, hd, -⟩ := ask_error asked
    have hled := (hs.led.checkPolicy (.data d)).1
    rw [hd] at hw
    exact .inl ⟨⟨⟨d, hs.packet.symm.trans hd⟩, hmoves⟩, hw ▸ hled⟩
  | search missing =>
    obtain ⟨first, hfirst, -, hs, -⟩ := h
    obtain ⟨w, hw, rfl⟩ := Act.within_error missing
    obtain ⟨_, _, -, hleft⟩ := World.left_findTrusted (CertificateRequest.interest _) s.world
    rw [Act.left_of_error hw] at hleft
    exact .inr ⟨first, hfirst, hs.led.of_chain (by rw [hleft])⟩
  | wake woken =>
    obtain ⟨first, hfirst, -, hs, -⟩ := h
    obtain ⟨-, rfl, -⟩ := Fetcher.wake_error rfl woken
    exact .inr ⟨first, hfirst, hs.led⟩
  | examine asked =>
    obtain ⟨first, hfirst, -, hs, -⟩ := h
    obtain ⟨hw, -⟩ := ask_error asked
    have hled : (tick s).world.LedBy o _ := hs.led.of_chain rfl
    exact .inr ⟨first, hfirst, hw ▸ (hled.checkPolicy (.certificate _)).1⟩
  | settled going ho =>
    by_cases hopening : stage = .opening
    · subst hopening
      exact absurd h.2.1.outcome ho
    · obtain ⟨_, _, _, hs, _⟩ := h.of_asked hopening going
      exact absurd hs.outcome ho

theorem keeps_ledBy_solitary (v : Validator) (o : CommandOptions) (l : Records) :
    (solitary v).Keeps (World.LedBy o l) :=
  keeps_of_restocked (fun _ _ h hled => hled.of_chain h.chain) fun _ _ h => h.elim

theorem Trail.spans (h : Trail v (solitary v) start moves stage s) :
    s.world.clock.Follows start.world.clock ∧
      (∀ first, moves.head? = some first → first.before = start) ∧
      (moves = [] → s = start) ∧
      ∀ last, moves.getLast? = some last →
        last.after = s ∧ last.before.world.clock.Follows start.world.clock := by
  induction h with
  | start => exact ⟨.refl _, by simp, fun _ => rfl, by simp⟩
  | @step moves notices stage stage' s s' ht hstep ih =>
    obtain ⟨hclock, hfirst, hnone, -⟩ := ih
    have hread := hstep.reads (keeps_clock_solitary v _)
    refine ⟨hread.trans hclock, ?_, by simp, ?_⟩
    · intro first hhead
      cases moves with
      | nil =>
        injection hhead with hm
        rw [← hm]
        exact hnone rfl
      | cons m more => exact hfirst first hhead
    · intro last hlast
      rw [List.getLast?_concat] at hlast
      injection hlast with hm
      rw [← hm]
      exact ⟨rfl, hclock⟩
  | disturb _ hw => exact hw.elim

theorem Ends.leaves {task : Task} {w : World} (h : Ends v start task w)
    (hs : Unsettled o l p start) (hd : Due none start) :
    ∃ left, Leaves o l start.world.clock start.world.clock w.clock p task.outcome? left ∧
      w.LedBy o left := by
  have henv := keeps_ledBy_solitary v o
  cases h with
  | @ended moves s trail =>
    obtain ⟨first, last, left, hfirst, hlast, hleaves, hled⟩ := trail.account henv hs hd
    obtain ⟨-, hstart, -, hend⟩ := trail.spans
    obtain ⟨hafter, hbefore⟩ := hend last hlast
    rw [hstart first hfirst, hafter] at hleaves
    exact ⟨left, hleaves.of_follows hbefore, hled⟩
  | @broken moves stage s s' fault trail breaks =>
    obtain ⟨-, hstart, -, -⟩ := trail.spans
    rcases (trail.account henv hs hd).breaks breaks with
      ⟨⟨⟨d, rfl⟩, -⟩, hled⟩ | ⟨first, hfirst, hled⟩
    · exact ⟨l, .data, hled⟩
    · rw [hstart first hfirst] at hled
      exact ⟨_, leaves_afterCheck nofun, hled⟩

/-- What the steps of a session have made of the records of the first policy so far. -/
def Remembered (o : CommandOptions) (l : Records) (p : Packet) (moves : List Move)
    (outcome : Option Bool) (w : World) : Prop :=
  (moves = [] → w.LedBy o l) ∧
    ∀ first last, moves.head? = some first → moves.getLast? = some last → ∃ left,
      Leaves o l first.before.world.clock last.before.world.clock last.after.world.clock p outcome
        left ∧ w.LedBy o left

theorem Remembered.of_refused {w : World} {first : Move} (hfirst : moves.head? = some first)
    (hled : w.LedBy o (l.afterCheck o first.before.world.now p.subject)) :
    Remembered o l p moves none w := by
  constructor
  case left =>
    rintro rfl
    cases hfirst
  case right =>
    intro first' last hfirst' _
    cases hfirst.symm.trans hfirst'
    exact ⟨_, leaves_afterCheck nofun, hled⟩

theorem Account.remembered (h : Account o l p moves stage s) :
    Remembered o l p moves s.session.outcome s.world := by
  by_cases hopening : stage = .opening
  · subst hopening
    obtain ⟨rfl, hs, -⟩ := h
    exact ⟨fun _ => hs.led, by simp⟩
  by_cases hended : stage = .ended
  · subst hended
    obtain ⟨first, last, left, hfirst, hlast, hleaves, hled⟩ := h
    constructor
    case left =>
      rintro rfl
      cases hfirst
    case right =>
      intro first' last' hfirst' hlast'
      cases hfirst.symm.trans hfirst'
      cases hlast.symm.trans hlast'
      exact ⟨left, hleaves, hled⟩
  · obtain ⟨first, hfirst, -, hs, -⟩ := h.of_asked hopening hended
    rw [hs.outcome]
    exact .of_refused hfirst hs.led

/-- A policy on command Interests that stands first remembers just the commands that were accepted,
each once, in the last step of its session, whether or not the success callback goes wrong. Other
sessions leave its records, or clean them. -/
theorem remembers_accepted_only (v : Validator) (p : Packet) (onSuccess onFailure : Option Callback)
    {w : World} {o : CommandOptions} {l : Records} {rest : PolicyChain}
    (hchain : w.chain = .command o l :: rest) (hrest : ∀ q ∈ rest, q.Discreet) :
    (∀ env moves stage s, (∀ l, env.Keeps (World.LedBy o l)) →
      Trail v env ⟨{ packet := p, onSuccess, onFailure }, w⟩ moves stage s →
      Remembered o l p moves s.session.outcome s.world ∧
      ∀ fault s', Breaks v stage s fault s' → Remembered o l p moves none s'.world) ∧
    ∀ n, ∃ N task final,
      (∀ fuel ≥ N, Run.alone v fuel { packet := p, onSuccess, onFailure } ⟨w, n⟩ = (task, final)) ∧
      ∃ left, Leaves o l w.clock w.clock final.world.clock p task.outcome? left ∧
        final.world.LedBy o left := by
  have hled : w.LedBy o l := ⟨rest, hchain, hrest⟩
  have hs : Unsettled o l p ⟨{ packet := p, onSuccess, onFailure }, w⟩ := ⟨rfl, rfl, hled⟩
  have hd : Due none ⟨{ packet := p, onSuccess, onFailure }, w⟩ := rfl
  constructor
  case left =>
    intro env moves stage s henv h
    have haccount := h.account henv hs hd
    refine ⟨haccount.remembered, fun fault s' hb => ?_⟩
    rcases haccount.breaks hb with ⟨⟨-, hmoves⟩, hled'⟩ | ⟨first, hfirst, hled'⟩
    · exact ⟨fun _ => hled', fun first _ hfirst => by simp [hmoves] at hfirst⟩
    · exact .of_refused hfirst hled'
  case right =>
    intro n
    obtain ⟨N, task, final, hN, hends⟩ :=
      exists_alone v { packet := p, onSuccess, onFailure } rfl w n
    exact ⟨N, task, final, hN, hends.leaves hs hd⟩

theorem outcome_of_start {session : Session} {w : World} {n : Network} {N : Nat} {task : Task}
    {final : Surroundings} (h : v.start ⟨session, w⟩ = .ok .ended s)
    (hN : ∀ fuel ≥ N, Run.alone v fuel session ⟨w, n⟩ = (task, final)) :
    task = .ended s.session := by
  have hf : Finishes v (v.start ⟨session, w⟩) n (.ended s.session) ⟨s.world, n⟩ := by
    rw [h]
    exact .ended
  obtain ⟨M, hM⟩ := hf.alone
  have hboth := (hN (max N M) (Nat.le_max_left N M)).symm.trans
    (hM (max N M) (Nat.le_max_right N M))
  exact congrArg Prod.fst hboth

end

namespace Sample

def commander : Certificate := certificate [] 1 Replay.Sample.key [9] [9]

def commanded : World :=
  { clock := .running (.ofMillis 10000)
    storage := { anchors := { index := NameMap.empty.insert commander.name ⟨commander, 1⟩ } }
    chain := [.command Replay.Sample.options [], .hierarchy] }

/-- The session of a command whose success callback goes wrong. -/
def careless : Session :=
  { packet := .interest (Replay.Sample.command 10050), onSuccess := some { fails := true } }

end Sample

/-- A command is recorded though the success callback of its session goes wrong. -/
theorem remembers_accepted_only_sample :
    Sample.commanded.chain = .command Replay.Sample.options [] :: [.hierarchy] ∧
      (∀ q ∈ [Policy.hierarchy], q.Discreet) ∧
      ∃ N task final done,
        (∀ fuel ≥ N, Run.alone Sample.validator fuel Sample.careless ⟨Sample.commanded, {}⟩ =
          (task, final)) ∧ task.outcome? = some true ∧
        final.world.LedBy Replay.Sample.options [⟨Replay.Sample.key, 10050, done⟩] := by
  have hrest : ∀ q ∈ [Policy.hierarchy], q.Discreet := by simp [Policy.Discreet]
  obtain ⟨-, hruns⟩ := remembers_accepted_only Sample.validator
    (.interest (Replay.Sample.command 10050)) (some { fails := true }) (some {})
    (w := Sample.commanded) rfl hrest
  obtain ⟨N, task, final, hN, left, hleaves, hled⟩ := hruns {}
  have hends : ∃ s, Sample.validator.start ⟨Sample.careless, Sample.commanded⟩ = .ok .ended s ∧
      s.session.outcome = some true := Status.ended_of_outcome? (by decide +kernel)
  obtain ⟨s, hs, ho⟩ := hends
  have htask : task.outcome? = some true := by
    rw [outcome_of_start hs hN]
    exact ho
  have hparts : Policy.commandParts (Replay.Sample.command 10050) =
      .ok (Replay.Sample.key, 10050) := by decide +kernel
  refine ⟨rfl, hrest, N, task, final, ?_⟩
  rw [htask] at hleaves
  cases hleaves with
  | unreadable command unaccepted => exact absurd rfl unaccepted
  | unaccepted command unaccepted => exact absurd rfl unaccepted
  | @accepted _ _ _ done command later ended =>
    cases hparts.symm.trans command
    exact ⟨done.now, hN, htask, hled⟩

end Course

end PacketTrust
