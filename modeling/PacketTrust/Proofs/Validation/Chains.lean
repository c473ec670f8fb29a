import Mathlib.Order.Bounds.Defs
import PacketTrust.Proofs.Validation.Clocks
import PacketTrust.Proofs.Validation.Soundness
import PacketTrust.Proofs.Validation.Trust

/-! What a session makes of the chain that it collected, once it has a trusted certificate. The
chain is checked from there on, up to the first certificate that does not verify, and those that
verified are remembered in their order. -/

namespace PacketTrust

def Cache.insertAll (shows : Nat → Instant) : Cache → (reading : Nat) → List Certificate → Cache
  | m, _, [] => m
  | m, reading, c :: rest => insertAll shows (m.insert (shows reading) c) (reading + 1) rest

theorem World.foldl_cacheVerified (chain : List Certificate) (w : World) :
    chain.foldl cacheVerified w = { w with
      clock.readings := w.clock.readings + chain.length
      storage.verified := w.storage.verified.insertAll w.clock.shows w.clock.readings chain } := by
  induction chain generalizing w with
  | nil => rfl
  | cons c rest ih =>
    rw [List.foldl_cons, ih, List.length_cons, Nat.add_comm rest.length, ← Nat.add_assoc]
    rfl

namespace Verifier

variable {u v : Verifier} {call : Nat} {signer c d : Certificate}
  {front later chain : List Certificate}

theorem acceptsChain_append : v.AcceptsChain call signer (front ++ later) ↔
    v.AcceptsChain call signer front ∧
      v.AcceptsChain (call + front.length) (front.getLastD signer) later := by
  induction front generalizing call signer with
  | nil => exact ⟨fun h => ⟨trivial, h⟩, And.right⟩
  | cons c rest ih =>
    rw [List.cons_append, AcceptsChain, ih, AcceptsChain, and_assoc, List.getLastD_cons,
      List.length_cons, Nat.add_comm rest.length, Nat.add_assoc]

def AcceptsAt (v : Verifier) (call : Nat) (signer : Certificate)
    (chain : List Certificate) (i : Nat) (c : Certificate) : Prop :=
  v.Accepts (call + i) (.data c.data) ((chain.take i).getLastD signer)

theorem acceptsAt_succ {i : Nat} : v.AcceptsAt call signer (c :: chain) (i + 1) d ↔
    v.AcceptsAt (call + 1) c chain i d := by
  rw [AcceptsAt, AcceptsAt, Nat.add_right_comm, List.take_succ_cons, List.getLastD_cons,
    ← Nat.add_assoc]

theorem acceptsChain_iff_acceptsAt : v.AcceptsChain call signer chain ↔
    ∀ i c, chain[i]? = some c → v.AcceptsAt call signer chain i c := by
  induction chain generalizing call signer with
  | nil => simp [AcceptsChain]
  | cons d rest ih =>
    rw [AcceptsChain, ih]
    constructor
    · rintro ⟨hd, hrest⟩ (_ | i) c hc
      · cases hc
        exact hd
      · exact acceptsAt_succ.2 (hrest i c hc)
    · exact fun h => ⟨h 0 d rfl, fun i c hc => acceptsAt_succ.1 (h (i + 1) c hc)⟩

/-- So many certificates at the front of a chain verify, each under the one before it, and not
more. -/
def Verifies (v : Verifier) (call : Nat) (signer : Certificate)
    (chain : List Certificate) (k : Nat) : Prop :=
  IsGreatest {n | n ≤ chain.length ∧ v.AcceptsChain call signer (chain.take n)} k

theorem verifies_length (h : v.AcceptsChain call signer chain) :
    v.Verifies call signer chain chain.length := by
  refine ⟨⟨Nat.le_refl _, ?_⟩, fun n hn => hn.1⟩
  rwa [List.take_length]

theorem verifies_of_refused (haccepts : v.AcceptsChain call signer front)
    (hrefuses : ¬ v.Accepts (call + front.length) (.data c.data) (front.getLastD signer)) :
    v.Verifies call signer (front ++ c :: later) front.length := by
  constructor
  case left =>
    refine ⟨by simp, ?_⟩
    rwa [List.take_left]
  case right =>
    rintro n ⟨-, hn⟩
    by_contra hlt
    obtain ⟨m, rfl⟩ := Nat.exists_eq_add_of_lt (Nat.not_le.1 hlt)
    rw [Nat.add_assoc, List.take_append, Nat.add_sub_cancel_left, List.take_succ_cons,
      List.take_of_length_le (Nat.le_add_right _ _), acceptsChain_append] at hn
    exact hrefuses hn.2.1

/-- A chain verifies to its end, or up to a certificate that does not. -/
theorem acceptsChain_or_refused (v : Verifier) (call : Nat) (signer : Certificate)
    (chain : List Certificate) : v.AcceptsChain call signer chain ∨
      ∃ front c later, chain = front ++ c :: later ∧ v.AcceptsChain call signer front ∧
        ¬ v.Accepts (call + front.length) (.data c.data) (front.getLastD signer) := by
  induction chain generalizing call signer with
  | nil => exact .inl trivial
  | cons d rest ih =>
    by_cases hd : v.Accepts call (.data d.data) signer
    · rcases ih (call + 1) d with h | ⟨front, c, later, rfl, haccepts, hrefuses⟩
      · exact .inl ⟨hd, h⟩
      · refine .inr ⟨d :: front, c, later, rfl, ⟨hd, haccepts⟩, ?_⟩
        rwa [List.getLastD_cons, List.length_cons, Nat.add_comm front.length, ← Nat.add_assoc]
    · exact .inr ⟨[], d, rest, rfl, trivial, hd⟩

theorem acceptsAt_append {i : Nat} (hi : i ≤ front.length) :
    v.AcceptsAt call signer (front ++ later) i d ↔ v.AcceptsAt call signer front i d := by
  rw [AcceptsAt, AcceptsAt, List.take_append_of_le_length hi]

/-- Another verifier that answers alike up to the first refusal refuses the same certificate. -/
theorem refused_of_alike (haccepts : v.AcceptsChain call signer front)
    (hrefuses : ¬ v.Accepts (call + front.length) (.data c.data) (front.getLastD signer))
    (halike : ∀ i ≤ front.length, ∀ d, (front ++ c :: later)[i]? = some d →
      (u.AcceptsAt call signer (front ++ c :: later) i d ↔
        v.AcceptsAt call signer (front ++ c :: later) i d)) :
    u.AcceptsChain call signer front ∧
      ¬ u.Accepts (call + front.length) (.data c.data) (front.getLastD signer) := by
  constructor
  case left =>
    rw [acceptsChain_iff_acceptsAt] at haccepts ⊢
    intro i d hd
    obtain ⟨hi, -⟩ := List.getElem?_eq_some_iff.1 hd
    have hi := Nat.le_of_lt hi
    have hiff := halike i hi d (by rw [List.getElem?_append_left (by omega), hd])
    rw [acceptsAt_append hi, acceptsAt_append hi] at hiff
    exact hiff.2 (haccepts i d hd)
  case right =>
    have hiff := halike front.length (Nat.le_refl _) c (by simp)
    rw [acceptsAt_append (Nat.le_refl _), acceptsAt_append (Nat.le_refl _), AcceptsAt, AcceptsAt,
      List.take_length] at hiff
    rwa [hiff]

end Verifier

def Session.failures (s : Session) (e : ValidationError) : List Event :=
  (s.onFailure.map fun _ => .failure s.name e).toList

namespace Scene

def invalidCertificate (c : Certificate) : ValidationError :=
  ⟨.invalidSignature, s!"Invalid signature of certificate `{c.name.uri}`"⟩

def invalidPacket (p : Packet) : ValidationError :=
  ⟨.invalidSignature, s!"Invalid signature of {p.kind} `{p.name.uri}`"⟩

variable {s : Scene} {v : Verifier} {signer c : Certificate}
  {checked front later : List Certificate}

/-- At the first certificate that is not accepted the session is to fail, with those before it as
its chain. -/
theorem verifyFrom_stops (haccepts : v.AcceptsChain s.world.calls signer front)
    (hrefuses : ¬ v.Accepts (s.world.calls + front.length) (.data c.data) (front.getLastD signer)) :
    verifyFrom v signer checked (front ++ c :: later) s =
      (do
        fail (invalidCertificate c)
        return none : Act Scene (Option Certificate))
      ⟨{ s.session with chain := checked ++ front },
        { s.world with calls := s.world.calls + front.length + 1 }⟩ := by
  induction front generalizing s signer checked with
  | nil =>
    have hc : ¬ (v.checkData s.world.calls c.data signer).1 = true := hrefuses
    rw [List.nil_append, verifyFrom,
      Act.bind_of_ok (certificateVerified_eq v c signer s), if_neg hc,
      updateSession_bind, List.append_nil]
    rfl
  | cons d rest ih =>
    have hd : (v.checkData s.world.calls d.data signer).1 = true := haccepts.1
    have hcalls : s.world.calls + (rest.length + 1) = s.world.calls + 1 + rest.length := by omega
    rw [List.getLastD_cons, List.length_cons, hcalls] at hrefuses
    have hrest : verifyFrom v d (checked ++ [d]) (rest ++ c :: later)
        { s with world.calls := s.world.calls + 1 } = _ := ih haccepts.2 hrefuses
    rw [List.cons_append, verifyFrom,
      Act.bind_of_ok (certificateVerified_eq v d signer s), if_pos hd,
      hrest, List.append_assoc, List.length_cons, hcalls]
    rfl

theorem verifyFrom_of_refused (hn : s.session.outcome = none)
    (haccepts : v.AcceptsChain s.world.calls signer front)
    (hrefuses : ¬ v.Accepts (s.world.calls + front.length) (.data c.data) (front.getLastD signer)) :
    verifyFrom v signer checked (front ++ c :: later) s = .ok none
      ⟨{ s.session with outcome := some false, onFailure := none, chain := checked ++ front },
        { s.world with
          calls := s.world.calls + front.length + 1
          events := s.world.events ++ s.session.failures (invalidCertificate c) }⟩ := by
  rw [verifyFrom_stops haccepts hrefuses]
  exact Act.bind_of_ok (fail_of_none (invalidCertificate c) hn)

/-- An open session ended as the signature of its packet has it, with its chain and the storage
untouched. -/
structure EndsBy (accepted : Prop) (s t : Scene) : Prop where
  chain : t.session.chain = s.session.chain
  storage : t.world.storage = s.world.storage
  clock : t.world.clock.Follows s.world.clock
  succeeds : accepted → t.session.outcome = some true
  fails : ¬ accepted → t.session.outcome = some false ∧
    t.world.events = s.world.events ++ s.session.failures (invalidPacket s.session.packet)

theorem exists_verifyPacket (v : Verifier) (signer : Certificate) (hn : s.session.outcome = none) :
    ∃ t, verifyPacket v signer s = .ok () t ∧
      EndsBy (v.Accepts s.world.calls s.session.packet signer) s t := by
  obtain ⟨verified, calls, hp, -⟩ := packetVerified_eq v signer s
  obtain ⟨-, haccepts⟩ := packetVerified_ok hp
  have hthen : verifyPacket v signer s = if verified then succeed { s with world.calls := calls }
      else fail (invalidPacket s.session.packet) { s with world.calls := calls } := by
    rw [verifyPacket, Act.bind_of_ok hp]
    cases verified <;> rfl
  cases verified with
  | true =>
    have hs := succeed_of_none (s := { s with world.calls := calls }) hn
    refine ⟨_, hthen.trans hs, rfl, ?_, ?_, fun _ => rfl, fun h => absurd (haccepts.1 rfl) h⟩
    · exact (World.aside_runHooks _ _ _).storage
    · exact World.reads_foldl_afterHook _ _ _
  | false =>
    have hs :=
      fail_of_none (s := { s with world.calls := calls }) (invalidPacket s.session.packet) hn
    have hrefused : ¬ v.Accepts s.world.calls s.session.packet signer :=
      fun h => Bool.false_ne_true (haccepts.2 h)
    exact ⟨_, hthen.trans hs, rfl, rfl, .refl _, fun h => absurd h hrefused, fun _ => ⟨rfl, rfl⟩⟩

end Scene

/-- Of storage, only the verified certificates changed: these came in, one after another, each at a
reading of the clock. -/
def World.TakesIn (w w' : World) (chain : List Certificate) : Prop :=
  ∃ reading, w.clock.readings ≤ reading ∧
    w'.clock = { w.clock with readings := reading + chain.length } ∧
    w'.storage = { w.storage with
      verified := w.storage.verified.insertAll w.clock.shows reading chain }

theorem World.takesIn_foldl {w w' : World} (hs : w'.storage = w.storage)
    (hc : w'.clock.Follows w.clock) (chain : List Certificate) :
    w.TakesIn (chain.foldl cacheVerified w') chain := by
  obtain ⟨n, hn⟩ := hc
  refine ⟨w'.clock.readings, ?_, ?_, ?_⟩
  · rw [hn]
    exact Nat.le_add_right _ _
  · rw [foldl_cacheVerified, hn]
  · rw [foldl_cacheVerified, hs, hn]

namespace Validator

open Scene

variable {v : Validator} {trusted c : Certificate} {front later : List Certificate} {s : Scene}
  {r : CertificateRequest} {w : World}

theorem conclude_of_refused (hn : s.session.outcome = none)
    (hchain : s.session.chain = front ++ c :: later)
    (haccepts : v.verifier.AcceptsChain s.world.calls trusted front)
    (hrefuses : ¬ v.verifier.Accepts (s.world.calls + front.length) (.data c.data)
      (front.getLastD trusted)) :
    v.conclude trusted s = .ok ()
      ⟨{ s.session with outcome := some false, onFailure := none, chain := [] },
        front.foldl World.cacheVerified { s.world with
          calls := s.world.calls + front.length + 1
          events := s.world.events ++ s.session.failures (invalidCertificate c) }⟩ := by
  have hverify : verifyChain v.verifier trusted s = verifyFrom v.verifier trusted []
      (front ++ c :: later) s := by
    rw [verifyChain, Act.get_bind, hchain]
  rw [conclude, Act.bind_of_ok (hverify.trans (verifyFrom_of_refused hn haccepts hrefuses))]
  rfl

/-- Where the whole chain is accepted, the session ends by the signature of its packet. -/
theorem conclude_of_accepted (hn : s.session.outcome = none)
    (haccepts : v.verifier.AcceptsChain s.world.calls trusted s.session.chain) :
    ∃ t, EndsBy (v.verifier.Accepts (s.world.calls + s.session.chain.length) s.session.packet
        (s.session.chain.getLastD trusted)) s t ∧ v.conclude trusted s = .ok ()
      ⟨{ t.session with chain := [] }, s.session.chain.foldl World.cacheVerified t.world⟩ := by
  have hverify : verifyChain v.verifier trusted s = .ok (some (s.session.chain.getLastD trusted))
      { s with world.calls := s.world.calls + s.session.chain.length } := by
    rw [verifyChain, Act.get_bind]
    rcases verifyFrom_of_none v.verifier trusted [] s.session.chain hn with ⟨-, h⟩ | ⟨hrefused, -⟩
    · exact h
    · exact absurd haccepts hrefused
  obtain ⟨t, ht, hends⟩ := exists_verifyPacket v.verifier (s.session.chain.getLastD trusted)
    (s := { s with world.calls := s.world.calls + s.session.chain.length }) hn
  refine ⟨t, ⟨hends.chain, hends.storage, hends.clock, hends.succeeds, hends.fails⟩, ?_⟩
  rw [conclude, Act.bind_of_ok hverify]
  dsimp only
  rw [Act.bind_of_ok ht, Act.get_bind, hends.chain]
  rfl

theorem pursue_of_trusted {t : Scene} (room : Nat) (hnew : s.session.hasSeen r.name = false)
    (hfound : World.findTrusted r.interest s.world = .ok (some trusted) w)
    (h : v.conclude trusted ⟨{ s.session with seen := s.session.seen ++ [r.name] }, w⟩ = .ok () t) :
    v.pursue (room + 1) r s = .ok .ended t := by
  have hseen : s.session.addSeen r.name =
      { s.session with seen := s.session.seen ++ [r.name] } := by
    rw [Session.addSeen, if_neg (by simp [hnew])]
  rw [pursue, Act.get_bind, if_neg (by simp [hnew]), updateSession_bind, hseen]
  have hlookup : onWorld (World.findTrusted r.interest)
      ⟨{ s.session with seen := s.session.seen ++ [r.name] }, s.world⟩ = .ok (some trusted)
        ⟨{ s.session with seen := s.session.seen ++ [r.name] }, w⟩ := onWorld_of_ok hfound
  rw [Act.bind_of_ok hlookup]
  exact Act.bind_of_ok h

/-- A lookup may drop verified certificates whose time has passed, and takes none in. -/
theorem verified_of_findTrusted {i : Interest} {found : Option Certificate} {w w' : World}
    (h : World.findTrusted i w = .ok found w') :
    w'.storage.verified = w.storage.verified ∨
      w'.storage.verified = w.storage.verified.refresh w.clock.next.now := by
  rcases Anchors.refresh_cases w.disk w.now w.storage.anchors with
    ⟨anchors, hr, -⟩ | ⟨⟨anchors, hr⟩, -⟩
  · rw [World.findTrusted_of_refresh hr] at h
    split at h <;> cases h
    · exact .inl rfl
    · exact .inr rfl
  · rw [World.findTrusted_of_fault hr] at h
    cases h

/-- A trusted certificate ends the session that asked for it with the certificates of its chain that
verify from there on. If one is left, it is named and nothing behind it is asked about; else the
signature of the packet decides. -/
theorem remembers_verified_beginning (v : Validator) (room : Nat)
    (hn : s.session.outcome = none) (hnew : s.session.hasSeen r.name = false)
    (hfound : World.findTrusted r.interest s.world = .ok (some trusted) w) :
    ∃ k s', v.pursue (room + 1) r s = .ok .ended s' ∧
      v.verifier.Verifies w.calls trusted s.session.chain k ∧
      (∀ c, s.session.chain[k]? = some c →
        s'.session.outcome = some false ∧
        s'.world.events = w.events ++ s.session.failures (invalidCertificate c) ∧
        s'.world.calls = w.calls + k + 1 ∧
        ∀ u : Verifier, (∀ i ≤ k, ∀ d, s.session.chain[i]? = some d →
            (u.AcceptsAt w.calls trusted s.session.chain i d ↔
              v.verifier.AcceptsAt w.calls trusted s.session.chain i d)) →
          { v with verifier := u }.pursue (room + 1) r s = .ok .ended s') ∧
      (k = s.session.chain.length →
        (s'.session.outcome = some true ↔ v.verifier.Accepts (w.calls + k) s.session.packet
          (s.session.chain.getLastD trusted)) ∧
        (s'.session.outcome ≠ some true → s'.session.outcome = some false ∧
          s'.world.events = w.events ++ s.session.failures (invalidPacket s.session.packet))) ∧
      (w.storage.verified = s.world.storage.verified ∨
        w.storage.verified = s.world.storage.verified.refresh s.world.clock.next.now) ∧
      w.TakesIn s'.world (s.session.chain.take k) := by
  have hlookup := verified_of_findTrusted hfound
  rcases v.verifier.acceptsChain_or_refused w.calls trusted s.session.chain with
    haccepts | ⟨front, c, later, hchain, haccepts, hrefuses⟩
  · obtain ⟨t, hends, hok⟩ := conclude_of_accepted (v := v)
      (s := ⟨{ s.session with seen := s.session.seen ++ [r.name] }, w⟩) hn haccepts
    refine ⟨_, _, pursue_of_trusted room hnew hfound hok, Verifier.verifies_length haccepts, ?_, ?_,
      hlookup, ?_⟩
    · intro c hc
      simp at hc
    · intro _
      rw [World.foldl_cacheVerified]
      by_cases h : v.verifier.Accepts (w.calls + s.session.chain.length) s.session.packet
        (s.session.chain.getLastD trusted)
      · have ho := hends.succeeds h
        exact ⟨iff_of_true ho h, fun hne => absurd ho hne⟩
      · obtain ⟨ho, htold⟩ := hends.fails h
        have hne : t.session.outcome ≠ some true := by simp [ho]
        exact ⟨iff_of_false hne h, fun _ => ⟨ho, htold⟩⟩
    · rw [List.take_length]
      exact World.takesIn_foldl hends.storage hends.clock _
  · have hends (u : Verifier) (hu : u.AcceptsChain w.calls trusted front ∧
        ¬ u.Accepts (w.calls + front.length) (.data c.data) (front.getLastD trusted)) :=
      pursue_of_trusted (v := { v with verifier := u }) room hnew hfound
        (conclude_of_refused (v := { v with verifier := u })
          (s := ⟨{ s.session with seen := s.session.seen ++ [r.name] }, w⟩) hn hchain hu.1 hu.2)
    refine ⟨front.length, _, hends v.verifier ⟨haccepts, hrefuses⟩, ?_, ?_, ?_, hlookup, ?_⟩
    · rw [hchain]
      exact Verifier.verifies_of_refused haccepts hrefuses
    · intro d hd
      obtain rfl : c = d := by simpa [hchain] using hd
      rw [World.foldl_cacheVerified]
      refine ⟨rfl, rfl, rfl, fun u halike => ?_⟩
      rw [hchain] at halike
      rw [hends u (Verifier.refused_of_alike haccepts hrefuses halike), World.foldl_cacheVerified]
    · intro hlength
      rw [hchain] at hlength
      simp at hlength
    · rw [hchain, List.take_left]
      refine World.takesIn_foldl ?_ ?_ front
      · rfl
      · exact .refl _

namespace Sample

/-- A certificate that claims to be issued by the leaf, and is not. -/
def stray : Certificate :=
  Course.Sample.certificate [2] 3 (Course.Sample.keyName [2] 2) [33] [44]

def collected : Scene :=
  ⟨{ packet := Course.Sample.packet, chain := [Course.Sample.leaf, stray] }, Course.Sample.world⟩

def request : CertificateRequest := .ofName (Course.Sample.keyName [] 1)

end Sample

/-- The root is an anchor; the leaf verifies under it, and the stray certificate not under the
leaf. -/
theorem remembers_verified_beginning_sample :
    ∃ w s', Sample.collected.session.outcome = none ∧
      Sample.collected.session.hasSeen Sample.request.name = false ∧
      World.findTrusted Sample.request.interest Sample.collected.world =
        .ok (some Course.Sample.root) w ∧
      Course.Sample.validator.pursue 1 Sample.request Sample.collected = .ok .ended s' ∧
      Course.Sample.verifier.Verifies w.calls Course.Sample.root
        [Course.Sample.leaf, Sample.stray] 1 ∧
      s'.session.outcome = some false ∧
      s'.world.events = [.failure Course.Sample.packet.name (invalidCertificate Sample.stray)] ∧
      s'.world.calls = 2 ∧ w.TakesIn s'.world [Course.Sample.leaf] := by
  obtain ⟨w, hfound, hcalls, hevents⟩ : ∃ w, World.findTrusted Sample.request.interest
      Sample.collected.world = .ok (some Course.Sample.root) w ∧ w.calls = 0 ∧ w.events = [] :=
    ⟨_, rfl, rfl, rfl⟩
  obtain ⟨k, s', hok, hverifies, hrefused, -, -, htakes⟩ := remembers_verified_beginning
    Course.Sample.validator 0 (s := Sample.collected) (r := Sample.request) rfl rfl hfound
  have hone : Course.Sample.verifier.Verifies w.calls Course.Sample.root
      [Course.Sample.leaf, Sample.stray] 1 :=
    @Verifier.verifies_of_refused Course.Sample.verifier w.calls Course.Sample.root Sample.stray
      [Course.Sample.leaf] [] ⟨rfl, trivial⟩ Bool.false_ne_true
  obtain rfl : k = 1 := Nat.le_antisymm (hone.2 hverifies.1) (hverifies.2 hone.1)
  obtain ⟨ho, htold, hasked, -⟩ := hrefused Sample.stray rfl
  rw [hevents] at htold
  rw [hcalls] at hasked
  exact ⟨w, s', rfl, rfl, hfound, hok, hone, ho, htold, hasked, htakes⟩

end Validator

end PacketTrust
