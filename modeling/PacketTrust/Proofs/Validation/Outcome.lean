import PacketTrust.Proofs.Action
import PacketTrust.Validation.Validator

/-! How the outcome of a session comes about: what success and failure do to the session, and what
an accepted chain of signatures is. Main statement: a session that is concluded with success was
accepted by the verifier link by link, from the trusted certificate to the packet. -/

namespace PacketTrust

namespace Verifier

def Accepts (v : Verifier) (call : Nat) (p : Packet) (signer : Certificate) : Prop :=
  match p with
  | .data d => (v.checkData call d signer).1
  | .interest i => (v.checkInterest call i signer).1

/-- From a call on, each certificate of a chain is accepted under the one before it. -/
def AcceptsChain (v : Verifier) : (call : Nat) → (signer : Certificate) → List Certificate → Prop
  | _, _, [] => True
  | call, signer, c :: rest =>
    v.Accepts call (.data c.data) signer ∧ AcceptsChain v (call + 1) c rest

variable {v : Verifier} {call : Nat} {signer : Certificate} {chain : List Certificate}

/-- The certificates of a chain up to the first that is not accepted under the one before it. -/
def acceptedPart (v : Verifier) : (call : Nat) → (signer : Certificate) → List Certificate →
    List Certificate
  | _, _, [] => []
  | call, signer, c :: rest =>
    if (v.checkData call c.data signer).1 then c :: acceptedPart v (call + 1) c rest else []

theorem acceptsChain_acceptedPart (v : Verifier) (call : Nat) (signer : Certificate)
    (chain : List Certificate) : v.AcceptsChain call signer (v.acceptedPart call signer chain) := by
  induction chain generalizing call signer with
  | nil => trivial
  | cons c rest ih =>
    rw [acceptedPart]
    split
    · rename_i hc
      exact ⟨hc, ih _ _⟩
    · trivial

theorem acceptedPart_of_acceptsChain (h : v.AcceptsChain call signer chain) :
    v.acceptedPart call signer chain = chain := by
  induction chain generalizing call signer with
  | nil => rfl
  | cons c rest ih =>
    have hc : (v.checkData call c.data signer).1 = true := h.1
    rw [acceptedPart, if_pos hc, ih h.2]

theorem calls_le_checkInterest (v : Verifier) (call : Nat) (i : Interest) (signer : Certificate) :
    call ≤ (v.checkInterest call i signer).2 := by
  unfold checkInterest
  split
  · exact Nat.le_succ call
  · exact Nat.le_refl call

end Verifier

namespace Scene

variable {s s' : Scene}

theorem updateSession_bind {β : Type} (f : Session → Session) (next : Unit → Act Scene β)
    (s : Scene) : (updateSession f >>= next) s = next () { s with session := f s.session } := rfl

theorem onWorld_of_ok {α : Type} {act : Act World α} {a : α} {w : World}
    (h : act s.world = .ok a w) : onWorld act s = .ok a { s with world := w } :=
  Act.within_of_ok h

theorem onWorld_of_error {α : Type} {act : Act World α} {fault : Fault} {w : World}
    (h : act s.world = .error fault w) : onWorld act s = .error fault { s with world := w } :=
  Act.within_of_error h

theorem setOutcome_of_none (b : Bool) (h : s.session.outcome = none) :
    setOutcome b s = .ok () { s with session.outcome := some b } := by
  rw [setOutcome, Act.get_bind]
  simp only [h]
  rfl

theorem setOutcome_of_some {b previous : Bool} (h : s.session.outcome = some previous) :
    setOutcome b s = .error (.outcomeSet s.session.name previous) s := by
  rw [setOutcome, Act.get_bind]
  simp only [h]
  rfl

theorem setOutcome_ok {b : Bool} {u : Unit} (h : setOutcome b s = .ok u s') :
    s.session.outcome = none := by
  cases ho : s.session.outcome with
  | none => rfl
  | some previous => rw [setOutcome_of_some ho] at h; cases h

theorem call_eq (c : Option Callback) (e : Event) (s : Scene) :
    call c e s =
      .ok () { s with world.events := s.world.events ++ (c.map fun _ => e).toList } := by
  cases c with
  | none =>
    rw [Option.map_none, Option.toList_none, List.append_nil]
    rfl
  | some c =>
    unfold call guarded
    rcases c with ⟨_ | _⟩ <;> rfl

def afterHook (n : Name) (w : World) : Hook → World
  | .record place keyName timestamp => w.record place keyName timestamp
  | .call label _ => w.emit (.hook label n)

theorem runHooks_eq (n : Name) (hooks : List Hook) (s : Scene) :
    runHooks n hooks s = .ok () { s with world := hooks.foldl (afterHook n) s.world } := by
  induction hooks generalizing s with
  | nil => rfl
  | cons hook rest ih =>
    have hrun : guarded (runHook n hook) s =
        .ok () { s with world := afterHook n s.world hook } := by
      rcases hook with ⟨place, keyName, timestamp⟩ | ⟨label, _ | _⟩ <;> rfl
    rw [runHooks, Act.bind_of_ok hrun, ih]
    rfl

theorem fail_of_none (e : ValidationError) (h : s.session.outcome = none) :
    fail e s = .ok () ⟨{ s.session with outcome := some false, onFailure := none },
      { s.world with events := s.world.events ++
          (s.session.onFailure.map fun _ => .failure s.session.name e).toList }⟩ := by
  rw [fail, Act.bind_of_ok (setOutcome_of_none false h), Act.get_bind]
  dsimp only
  rw [updateSession_bind, call_eq]
  rfl

theorem fail_ok {e : ValidationError} {u : Unit} (h : fail e s = .ok u s') :
    s.session.outcome = none ∧
      s'.session = { s.session with outcome := some false, onFailure := none } := by
  have hn : s.session.outcome = none := by
    obtain ⟨_, _, h₁, -⟩ := Act.bind_ok h
    exact setOutcome_ok h₁
  rw [fail_of_none e hn] at h
  cases h
  exact ⟨hn, rfl⟩

theorem fail_error {e : ValidationError} {fault : Fault} (h : fail e s = .error fault s') :
    s.session.outcome ≠ none := fun hn => by
  rw [fail_of_none e hn] at h
  cases h

theorem succeed_of_none (h : s.session.outcome = none) :
    succeed s = .ok () ⟨{ s.session with outcome := some true, onSuccess := none, hooks := [] },
      s.session.hooks.foldl (afterHook s.session.name)
        { s.world with events := s.world.events ++
            (s.session.onSuccess.map fun _ => .success s.session.name).toList }⟩ := by
  rw [succeed, Act.bind_of_ok (setOutcome_of_none true h), Act.get_bind]
  dsimp only
  rw [updateSession_bind, Act.bind_of_ok (call_eq _ _ _), runHooks_eq]
  rfl

theorem succeed_ok {u : Unit} (h : succeed s = .ok u s') :
    s.session.outcome = none ∧
      s'.session = { s.session with outcome := some true, onSuccess := none, hooks := [] } ∧
      ∃ events, s'.world =
        s.session.hooks.foldl (afterHook s.session.name) { s.world with events } := by
  have hn : s.session.outcome = none := by
    obtain ⟨_, _, h₁, -⟩ := Act.bind_ok h
    exact setOutcome_ok h₁
  rw [succeed_of_none hn] at h
  cases h
  exact ⟨hn, rfl, _, rfl⟩

theorem succeed_error {fault : Fault} (h : succeed s = .error fault s') :
    s.session.outcome ≠ none := fun hn => by
  rw [succeed_of_none hn] at h
  cases h

inductive Reports : Bool → Scene → Scene → Prop
  | success {s t : Scene} (h : succeed s = .ok () t) : Reports true s t
  | failure {s t : Scene} {e : ValidationError} (h : fail e s = .ok () t) : Reports false s t

theorem Reports.chain {b : Bool} {t : Scene} (h : Reports b s t) :
    t.session.chain = s.session.chain := by
  cases h with
  | success h => rw [(succeed_ok h).2.1]
  | failure h => rw [(fail_ok h).2]

theorem addHooks_ok {hooks : List Hook} {u : Unit} (h : addHooks hooks s = .ok u s') :
    s' = { s with session.hooks := s.session.hooks ++ hooks } := by
  rw [addHooks, Act.get_bind] at h
  cases hooks with
  | nil =>
    cases h
    rw [List.append_nil]
  | cons hook rest =>
    cases hp : s.session.packet <;> simp only [hp] at h <;> cases h
    rfl

theorem addHooks_of_interest {i : Interest} (hooks : List Hook)
    (h : s.session.packet = .interest i) :
    addHooks hooks s = .ok () { s with session.hooks := s.session.hooks ++ hooks } := by
  obtain ⟨⟨packet⟩, w⟩ := s
  obtain rfl : packet = .interest i := h
  cases hooks with
  | nil =>
    rw [List.append_nil]
    rfl
  | cons hook rest => rfl

/-- The packet is asked about once, unless its signature cannot be read. -/
theorem packetVerified_ok {v : Verifier} {signer : Certificate} {verified : Bool}
    (h : packetVerified v signer s = .ok verified s') :
    s'.session = s.session ∧
      (verified = true ↔ v.Accepts s.world.calls s.session.packet signer) := by
  rw [packetVerified, Act.get_bind] at h
  cases hp : s.session.packet <;> simp only [hp] at h <;> cases h <;> exact ⟨rfl, Iff.rfl⟩

theorem packetVerified_eq (v : Verifier) (signer : Certificate) (s : Scene) :
    ∃ verified calls, packetVerified v signer s = .ok verified { s with world.calls := calls } ∧
      s.world.calls ≤ calls := by
  rw [packetVerified, Act.get_bind]
  cases hp : s.session.packet with
  | data d => exact ⟨_, _, rfl, Nat.le_succ _⟩
  | interest i => exact ⟨_, _, rfl, v.calls_le_checkInterest _ i signer⟩

theorem certificateVerified_eq (v : Verifier) (c signer : Certificate) (s : Scene) :
    certificateVerified v c signer s =
      .ok (v.checkData s.world.calls c.data signer).1
        { s with world.calls := s.world.calls + 1 } := rfl

theorem verifyPacket_ok {v : Verifier} {signer : Certificate} {u : Unit}
    (h : verifyPacket v signer s = .ok u s') :
    s.session.outcome = none ∧ s'.session.chain = s.session.chain ∧
      (s'.session.outcome = some true → v.Accepts s.world.calls s.session.packet signer) := by
  obtain ⟨verified, t, h₁, h⟩ := Act.bind_ok h
  obtain ⟨ht, haccepts⟩ := packetVerified_ok h₁
  cases verified with
  | true =>
    obtain ⟨hn, hs, -⟩ := succeed_ok h
    exact ⟨ht ▸ hn, by rw [hs, ht], fun _ => haccepts.1 rfl⟩
  | false =>
    rw [if_neg Bool.false_ne_true, Act.get_bind] at h
    obtain ⟨hn, hs⟩ := fail_ok h
    exact ⟨ht ▸ hn, by rw [hs, ht], fun ho => by rw [hs] at ho; cases ho⟩

theorem verifyFrom_ok {v : Verifier} {signer : Certificate} {checked rest : List Certificate}
    {last : Option Certificate} (h : verifyFrom v signer checked rest s = .ok last s') :
    (v.AcceptsChain s.world.calls signer rest ∧ last = some (rest.getLastD signer) ∧
      s' = { s with world.calls := s.world.calls + rest.length }) ∨
    (last = none ∧ s.session.outcome = none ∧ s'.session.outcome = some false) := by
  induction rest generalizing s signer checked with
  | nil =>
    cases h
    exact .inl ⟨trivial, rfl, rfl⟩
  | cons c rest ih =>
    rw [verifyFrom, Act.bind_of_ok (certificateVerified_eq v c signer s)] at h
    split at h
    · rename_i hc
      refine (ih h).imp (fun ⟨hchain, hlast, hs⟩ => ⟨⟨hc, hchain⟩, ?_, ?_⟩) id
      · rw [hlast, List.getLastD_cons]
      · rw [hs]
        simp only [List.length_cons, Nat.add_assoc, Nat.add_comm 1]
    · rw [updateSession_bind] at h
      obtain ⟨_, t, h₁, h⟩ := Act.bind_ok h
      obtain ⟨hn, ht⟩ := fail_ok h₁
      cases h
      exact .inr ⟨rfl, hn, by rw [ht]⟩

/-- Following a chain accepts all of it, or ends the session before the first that is not
accepted. -/
theorem verifyFrom_of_none (v : Verifier) (signer : Certificate) (checked rest : List Certificate)
    (hn : s.session.outcome = none) :
    (v.AcceptsChain s.world.calls signer rest ∧ verifyFrom v signer checked rest s =
      .ok (some (rest.getLastD signer)) { s with world.calls := s.world.calls + rest.length }) ∨
    (¬ v.AcceptsChain s.world.calls signer rest ∧ ∃ e calls t,
      s.world.calls + (v.acceptedPart s.world.calls signer rest).length ≤ calls ∧
      fail e ⟨{ s.session with chain := checked ++ v.acceptedPart s.world.calls signer rest },
        { s.world with calls }⟩ = .ok () t ∧
      verifyFrom v signer checked rest s = .ok none t) := by
  induction rest generalizing s signer checked with
  | nil => exact .inl ⟨trivial, rfl⟩
  | cons c rest ih =>
    rw [verifyFrom, Act.bind_of_ok (certificateVerified_eq v c signer s), Verifier.acceptedPart]
    by_cases hc : (v.checkData s.world.calls c.data signer).1 = true
    · rw [if_pos hc, if_pos hc]
      rcases ih (s := { s with world.calls := s.world.calls + 1 }) c (checked ++ [c]) hn with
        ⟨hchain, h⟩ | ⟨hchain, e, calls, t, hcalls, hfail, h⟩
      · refine .inl ⟨⟨hc, hchain⟩, h.trans ?_⟩
        rw [List.getLastD_cons, List.length_cons, Nat.add_assoc, Nat.add_comm 1]
      · refine .inr ⟨fun hall => hchain hall.2, e, calls, t, ?_, by simpa using hfail, h⟩
        rw [List.length_cons]
        dsimp only at hcalls
        omega
    · rw [if_neg hc, if_neg hc, updateSession_bind]
      obtain ⟨e, he⟩ : ∃ e : ValidationError,
          e = ⟨.invalidSignature, s!"Invalid signature of certificate `{c.name.uri}`"⟩ := ⟨_, rfl⟩
      obtain ⟨t, hfail⟩ : ∃ t, fail e ⟨{ s.session with chain := checked },
        { s.world with calls := s.world.calls + 1 }⟩ = .ok () t := ⟨_, fail_of_none e hn⟩
      refine .inr ⟨fun hall => hc hall.1, e, s.world.calls + 1, t, Nat.le_succ _, ?_, ?_⟩
      · rw [List.append_nil]
        exact hfail
      · rw [← he]
        exact Act.bind_of_ok hfail

end Scene

namespace Validator

open Scene

variable {s s' : Scene}

/-- The policies were asked, and their hooks are left with the session. -/
theorem ask_ok {subject : Subject} {verdict : Verdict} (h : ask subject s = .ok verdict s') :
    verdict = (s.world.checkPolicy subject).1.1 ∧ s'.world = (s.world.checkPolicy subject).2 ∧
      s'.session = { s.session with
        hooks := s.session.hooks ++ (s.world.checkPolicy subject).1.2 } := by
  obtain ⟨answer, t, h₁, h⟩ := Act.bind_ok h
  obtain ⟨w, hw, rfl⟩ := Act.within_ok h₁
  injection hw with h₂ h₃
  subst h₂ h₃
  obtain ⟨_, t, h₂, h⟩ := Act.bind_ok h
  obtain rfl := addHooks_ok h₂
  cases h
  exact ⟨rfl, rfl, rfl⟩

theorem ask_of_interest {i : Interest} (subject : Subject) (h : s.session.packet = .interest i) :
    ask subject s = .ok (s.world.checkPolicy subject).1.1
      ⟨{ s.session with hooks := s.session.hooks ++ (s.world.checkPolicy subject).1.2 },
        (s.world.checkPolicy subject).2⟩ := by
  have hasked : onWorld (Act.ofFunction (·.checkPolicy subject)) s =
      .ok (s.world.checkPolicy subject).1 { s with world := (s.world.checkPolicy subject).2 } := rfl
  exact (Act.bind_of_ok hasked).trans (Act.bind_of_ok (addHooks_of_interest _ h))

/-- The policies were asked all the same if their hooks cannot be left, the packet being Data. -/
theorem ask_error {subject : Subject} {fault : Fault} (h : ask subject s = .error fault s') :
    s'.world = (s.world.checkPolicy subject).2 ∧ s'.session = s.session ∧
      (s.world.checkPolicy subject).1.2 ≠ [] ∧
      ∃ d, s.session.packet = .data d ∧ fault = .hooksOnData d.name := by
  have hasked : onWorld (Act.ofFunction (·.checkPolicy subject)) s =
      .ok (s.world.checkPolicy subject).1 { s with world := (s.world.checkPolicy subject).2 } := rfl
  rw [ask, Act.bind_of_ok hasked] at h
  rcases Act.bind_error h with h | ⟨_, _, -, h⟩
  · rw [addHooks, Act.get_bind] at h
    cases hp : s.session.packet with
    | data d =>
      cases hh : (s.world.checkPolicy subject).1.2 with
      | nil => simp only [hp, hh] at h; cases h
      | cons hook rest =>
        simp only [hp, hh] at h
        cases h
        exact ⟨rfl, rfl, List.cons_ne_nil _ _, d, rfl, rfl⟩
    | interest i =>
      cases hh : (s.world.checkPolicy subject).1.2 with
      | nil => simp only [hp, hh] at h; cases h
      | cons hook rest => simp only [hp, hh] at h; cases h
  · cases h

/-- A session concluded with success was accepted link by link from the trusted certificate on. -/
theorem conclude_ok {v : Validator} {trusted : Certificate} {u : Unit}
    (h : v.conclude trusted s = .ok u s') :
    s.session.outcome = none ∧
      (s'.session.outcome = some true →
        v.verifier.AcceptsChain s.world.calls trusted s.session.chain ∧
          v.verifier.Accepts (s.world.calls + s.session.chain.length) s.session.packet
            (s.session.chain.getLastD trusted)) := by
  obtain ⟨last, t, h₁, h⟩ := Act.bind_ok h
  rw [verifyChain, Act.get_bind] at h₁
  rcases verifyFrom_ok h₁ with ⟨hchain, rfl, rfl⟩ | ⟨rfl, hn, ht⟩
  · obtain ⟨_, t, h₂, h⟩ := Act.bind_ok h
    obtain ⟨hn, -, haccepts⟩ := verifyPacket_ok h₂
    cases h
    exact ⟨hn, fun ho => ⟨hchain, haccepts ho⟩⟩
  · cases h
    refine ⟨hn, fun ho => ?_⟩
    rw [ht] at ho
    cases ho

/-- A trusted certificate vouches for the packet of a session along its chain. -/
def Vouches (v : Validator) (trusted : Certificate) (s : Scene) : Prop :=
  v.verifier.AcceptsChain s.world.calls trusted s.session.chain ∧
    v.verifier.Accepts (s.world.calls + s.session.chain.length) s.session.packet
      (s.session.chain.getLastD trusted)

/-- From a trusted certificate an open session always comes to its end, which remembers the part of
its chain that was accepted. -/
theorem conclude_of_none (v : Validator) (trusted : Certificate) {s : Scene}
    (hn : s.session.outcome = none) :
    ∃ b calls t part, part = v.verifier.acceptedPart s.world.calls trusted s.session.chain ∧
      s.world.calls + part.length ≤ calls ∧ (b = true ↔ v.Vouches trusted s) ∧
      Reports b ⟨{ s.session with chain := part }, { s.world with calls }⟩ t ∧
      v.conclude trusted s =
        .ok () ⟨{ t.session with chain := [] }, part.foldl World.cacheVerified t.world⟩ := by
  have hverify : verifyChain v.verifier trusted s =
      verifyFrom v.verifier trusted [] s.session.chain s := by
    rw [verifyChain, Act.get_bind]
  rcases verifyFrom_of_none v.verifier trusted [] s.session.chain hn with
    ⟨hchain, h⟩ | ⟨hchain, e, calls, t, hcalls, hfail, h⟩
  · have hpart := Verifier.acceptedPart_of_acceptsChain hchain
    obtain ⟨b, calls, hp, hcalls⟩ := packetVerified_eq v.verifier
      (s.session.chain.getLastD trusted)
      { s with world.calls := s.world.calls + s.session.chain.length }
    obtain ⟨-, hb⟩ := packetVerified_ok hp
    obtain ⟨t, ht, hpacket⟩ : ∃ t, Reports b ⟨s.session, { s.world with calls }⟩ t ∧
        verifyPacket v.verifier (s.session.chain.getLastD trusted)
          { s with world.calls := s.world.calls + s.session.chain.length } = .ok () t := by
      cases b with
      | true =>
        have hs := succeed_of_none (s := ⟨s.session, { s.world with calls }⟩) hn
        exact ⟨_, .success hs, (Act.bind_of_ok hp).trans hs⟩
      | false =>
        have hs := fail_of_none (s := ⟨s.session, { s.world with calls }⟩) ⟨.invalidSignature,
          s!"Invalid signature of {s.session.packet.kind} `{s.session.name.uri}`"⟩ hn
        exact ⟨_, .failure hs, (Act.bind_of_ok hp).trans hs⟩
    refine ⟨b, calls, t, _, hpart.symm, hcalls, ?_, ht, ?_⟩
    · exact hb.trans ⟨fun ha => ⟨hchain, ha⟩, And.right⟩
    · rw [conclude, Act.bind_of_ok (hverify.trans h)]
      dsimp only
      rw [Act.bind_of_ok hpacket, Act.get_bind, ht.chain]
      rfl
  · refine ⟨false, calls, t, _, rfl, hcalls, ?_, .failure hfail, ?_⟩
    · exact ⟨by simp, fun ha => absurd ha.1 hchain⟩
    · rw [conclude, Act.bind_of_ok (hverify.trans h)]
      dsimp only
      rw [Act.get_bind, (Reports.failure hfail).chain]
      rfl

theorem concluded {v : Validator} {trusted : Certificate} {u : Unit}
    (h : v.conclude trusted s = .ok u s') :
    ∃ b calls t part, part = v.verifier.acceptedPart s.world.calls trusted s.session.chain ∧
      s.world.calls + part.length ≤ calls ∧ (b = true ↔ v.Vouches trusted s) ∧
      Reports b ⟨{ s.session with chain := part }, { s.world with calls }⟩ t ∧
      s' = ⟨{ t.session with chain := [] }, part.foldl World.cacheVerified t.world⟩ := by
  obtain ⟨b, calls, t, part, hpart, hcalls, hb, ht, hok⟩ :=
    conclude_of_none v trusted (conclude_ok h).1
  rw [h] at hok
  injection hok with _ hs
  exact ⟨b, calls, t, part, hpart, hcalls, hb, ht, hs⟩

theorem conclude_error {v : Validator} {trusted : Certificate} {fault : Fault}
    (h : v.conclude trusted s = .error fault s') : s.session.outcome ≠ none := fun hn => by
  obtain ⟨_, _, _, _, -, -, -, -, hok⟩ := conclude_of_none v trusted hn
  rw [hok] at h
  cases h

end Validator

end PacketTrust
