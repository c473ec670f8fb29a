import PacketTrust.Proofs.Name.Beginning
import PacketTrust.Proofs.Validation.Retrieval
import PacketTrust.Proofs.Validation.Soundness
import PacketTrust.Proofs.Validation.Verdicts

/-! What the hierarchy binds. It reads the name of the key that a packet tells, while the signer is
whatever certificate that name finds. -/

namespace PacketTrust

/-- A certificate that the name of a key finds begins with it, its last two components apart. -/
theorem CertificateRequest.startsWith_of_matches {k : Name} {c : Certificate}
    (h : (ofName k).interest.matchesData c.data) : c.name.startsWith (k.take (-2)) := by
  unfold Interest.matchesData at h
  split at h
  · have hk : k = c.data.fullName := of_decide_eq_true h
    have hlen : (k.take (-2)).length ≤ c.name.length := by
      rw [Name.length_take_two, hk]
      simp [Data.fullName, Name.push, Name.length, Certificate.name]
    have hfull : k.startsWith c.name := by
      rw [Name.startsWith_iff, hk]
      exact List.prefix_append _ _
    exact Name.startsWith_of_length_le hfull (Name.startsWith_take k (-2)) hlen
  · exact Name.startsWith_trans h (Name.startsWith_take k (-2))

theorem CertificateRequest.matches_of_startsWith {k : Name} {c : Certificate}
    (h : c.name.startsWith k) : (ofName k).interest.matchesData c.data := by
  have hlen : ¬ k.length = c.data.name.length + 1 := by
    have := Name.startsWith_length h
    change k.length ≤ c.data.name.length at this
    omega
  unfold Interest.matchesData
  rw [if_neg (by simp [ofName, hlen])]
  exact h

namespace World

theorem checkPolicy_of_hierarchy {w : World} (h : w.chain = [.hierarchy]) (s : Subject) :
    w.checkPolicy s = ((Policy.checkHierarchy s.kind s.name s.keyName, []), w) := by
  have hsame : ({ w with chain := [.hierarchy] } : World) = w := by rw [← h]
  rw [checkPolicy, h, PolicyChain.check, PolicyChain.checkFrom, Policy.check_hierarchy]
  rcases Policy.checkHierarchy_cases s.kind s.name s.keyName with ⟨k, -, -, hv⟩ | ⟨e, hv⟩
  · rw [hv]
    exact congrArg _ hsame
  · rw [hv]
    exact congrArg _ hsame

def trusting (clock : Clock) (c : Certificate) : World :=
  { clock, chain := [.hierarchy]
    storage := { anchors := { index := NameMap.empty.insert c.name ⟨c, 1⟩ } } }

theorem findTrusted_trusting {k : Name} {c : Certificate} (clock : Clock)
    (h : c.name.startsWith k) :
    findTrusted (CertificateRequest.ofName k).interest (trusting clock c) =
      .ok (some c) { trusting clock c with clock := clock.next } := by
  have hindex : (NameMap.empty.insert c.name (⟨c, 1⟩ : Anchor)).findUnderWith k
      (fun a => (CertificateRequest.ofName k).interest.matchesData a.certificate.data) =
      some ⟨c, 1⟩ := by
    have hmatches := CertificateRequest.matches_of_startsWith h
    have horder := Name.cmp_ne_lt_of_startsWith h
    simp [NameMap.findUnderWith, NameMap.startingAt, NameMap.insert, NameMap.empty,
      NameMap.insertEntry, h, hmatches, horder]
  have hanchors :
      Anchors.findInterest (fun _ => {}) clock.now (CertificateRequest.ofName k).interest
      (trusting clock c).storage.anchors =
      .ok (some c) (trusting clock c).storage.anchors := by
    have hrefresh : Anchors.refresh (fun _ => {}) clock.now (trusting clock c).storage.anchors =
      .ok () (trusting clock c).storage.anchors := rfl
    rw [Anchors.findInterest, Act.bind_of_ok hrefresh, Act.get_bind]
    exact congrArg (fun a : Option Anchor => EStateM.Result.ok (a.map (·.certificate)) _) hindex
  have hfound : onStorage (fun disk now => Storage.onAnchors
      (Anchors.findInterest disk now (CertificateRequest.ofName k).interest)) (trusting clock c) =
      .ok (some c) { trusting clock c with clock := clock.next } :=
    onStorage_of_ok (Act.within_of_ok hanchors)
  exact Act.bind_of_ok hfound

end World

namespace Validator

open Scene

theorem ask_of_checkPolicy {s : Scene} {subject : Subject} {verdict : Verdict} {w : World}
    (h : s.world.checkPolicy subject = ((verdict, []), w)) :
    ask subject s = .ok verdict { s with world := w } := by
  have hasked : onWorld (Act.ofFunction (·.checkPolicy subject)) s =
      .ok (verdict, []) { s with world := w } :=
    Act.within_of_ok (by rw [Act.ofFunction, h])
  rw [ask, Act.bind_of_ok hasked]
  obtain ⟨⟨packet⟩, _⟩ := s
  cases packet <;> rfl

section

variable {w : World} {k : Name}

theorem ask_of_permitted (h : w.chain = [.hierarchy]) (subject : Subject)
    (hk : subject.keyName = .ok k)
    (hn : subject.name.startsWith (k.take (-2))) (session : Session) :
    ask subject ⟨session, w⟩ = .ok (.request (.ofName k)) ⟨session, w⟩ := by
  have hverdict : Policy.checkHierarchy subject.kind subject.name subject.keyName =
      .request (.ofName k) := by
    rw [hk]
    exact if_pos hn
  have hcheck := World.checkPolicy_of_hierarchy h subject
  rw [hverdict] at hcheck
  exact ask_of_checkPolicy hcheck

/-- Under the hierarchy a valid certificate is taken in, if its key may sign it, and the certificate
of the key is asked for. -/
theorem accept_of_permitted {c : Certificate} (h : w.chain = [.hierarchy])
    (hvalid : c.ValidAt w.now)
    (hk : c.data.signature.info.keyName = .ok k) (hn : c.name.startsWith (k.take (-2)))
    (session : Session) : accept c ⟨session, w⟩ =
      .ok (some (.ofName k)) ⟨session.addCertificate c, { w with clock := w.clock.next }⟩ := by
  have hread : onWorld World.readClock ⟨session, w⟩ =
      .ok w.now ⟨session, { w with clock := w.clock.next }⟩ := rfl
  have hask :=
    ask_of_permitted (w := { w with clock := w.clock.next }) h (.certificate c) hk hn session
  rw [accept, Act.bind_of_ok hread, if_neg (not_not_intro hvalid), Act.bind_of_ok hask]
  exact updateSession_bind ..

end

theorem conclude_of_accepts {v : Validator} {c : Certificate} {s : Scene}
    (hchain : s.session.chain = []) (hn : s.session.outcome = none)
    (hv : v.verifier.Accepts s.world.calls s.session.packet c) :
    ∃ s', v.conclude c s = .ok () s' ∧ s'.session.outcome = some true := by
  have hc : verifyChain v.verifier c s = .ok (some c) s := by
    rw [verifyChain, Act.get_bind, hchain]
    rfl
  obtain ⟨t, hpacket, ht⟩ : ∃ t, packetVerified v.verifier c s = .ok true t ∧
      t.session = s.session := by
    unfold Verifier.Accepts at hv
    rw [packetVerified, Act.get_bind]
    cases hp : s.session.packet with
    | data d =>
      simp only [hp] at hv
      exact ⟨_, congrArg (EStateM.Result.ok · _) hv, rfl⟩
    | interest i =>
      simp only [hp] at hv
      exact ⟨_, congrArg (EStateM.Result.ok · _) hv, rfl⟩
  have hw := succeed_of_none (ht ▸ hn)
  have hverified : verifyPacket v.verifier c s = succeed t := Act.bind_of_ok hpacket
  rw [conclude, Act.bind_of_ok hc]
  dsimp only
  rw [Act.bind_of_ok (hverified.trans hw), Act.get_bind]
  exact ⟨_, rfl, rfl⟩

/-- A packet that tells the key `k` may be signed by any certificate whose name begins so. -/
theorem start_trusting {v : Validator} {c : Certificate} {k : Name} {d : Data} (clock : Clock)
    (hc : c.name.startsWith k) (hk : d.signature.info.keyName = .ok k)
    (hd : d.name.startsWith (k.take (-2))) (hroom : 0 < v.maxDepth)
    (hv : v.verifier.Accepts 0 (.data d) c) :
    ∃ s, v.start ⟨{ packet := .data d }, World.trusting clock c⟩ = .ok .ended s ∧
      s.session.outcome = some true := by
  have hask := ask_of_permitted (w := World.trusting clock c) rfl (.data d) hk hd
    { packet := .data d }
  have htrusted : onWorld (World.findTrusted (CertificateRequest.ofName k).interest)
      ⟨{ packet := .data d, seen := [k] }, World.trusting clock c⟩ = .ok (some c) _ :=
    Act.within_of_ok (World.findTrusted_trusting clock hc)
  obtain ⟨s, hs, ho⟩ := conclude_of_accepts (v := v) (c := c)
    (s := ⟨{ packet := .data d, seen := [k] }, { World.trusting clock c with clock := clock.next }⟩)
    rfl rfl hv
  refine ⟨s, ?_, ho⟩
  obtain ⟨more, hn⟩ := Nat.exists_eq_add_one.2 hroom
  have hpursue : v.pursue (more + 1) (.ofName k) ⟨{ packet := .data d }, World.trusting clock c⟩ =
      .ok .ended s := by
    rw [pursue, Act.get_bind, if_neg (by simp [Session.hasSeen]), updateSession_bind]
    refine (Act.bind_of_ok htrusted).trans ?_
    exact Act.bind_of_ok hs
  rw [start, Act.get_bind]
  refine (Act.bind_of_ok hask).trans ?_
  dsimp only
  rw [room, bind_assoc, Act.get_bind, pure_bind]
  exact hn ▸ hpursue

end Validator

namespace Course

open Scene Validator

/-- The hierarchy lets a certificate sign for a subject, which tells the name of its key. -/
def Permits (s : Subject) (signer : Certificate) : Prop :=
  ∃ k, s.keyName = .ok k ∧ s.name.startsWith (k.take (-2)) ∧
    (CertificateRequest.ofName k).interest.matchesData signer.data

/-- A law holds of each signer of a chain and of what it signed, up to the packet. -/
def Throughout (law : Subject → Certificate → Prop) (p : Packet) :
    Certificate → List Link → Prop
  | signer, [] => law p.subject signer
  | signer, l :: rest =>
    law (.certificate l.certificate) signer ∧ Throughout law p l.certificate rest

theorem Throughout.imp {law weaker : Subject → Certificate → Prop} {p : Packet}
    (himp : ∀ s c, law s c → weaker s c) {signer : Certificate} {links : List Link}
    (h : Throughout law p signer links) : Throughout weaker p signer links := by
  induction links generalizing signer with
  | nil => exact himp _ _ h
  | cons l rest ih => exact ⟨himp _ _ h.1, ih h.2⟩

/-- A key that is told in full tells its owner. -/
theorem startsWith_identity {c : Certificate} {k : Name} (h : c.name.startsWith (k.take (-2)))
    (hfull : c.identity.length ≤ k.length - 2) : (k.take (-2)).startsWith c.identity := by
  have hlen : c.identity.length ≤ (k.take (-2)).length := by
    rwa [Name.length_take_two]
  exact Name.startsWith_of_length_le h (Name.startsWith_take _ _) hlen

theorem Permits.owned {s : Subject} {signer : Certificate} {k : Name} (h : Permits s signer)
    (hk : s.keyName = .ok k) (hfull : signer.identity.length ≤ k.length - 2) :
    s.name.startsWith signer.identity := by
  obtain ⟨k', hk', hname, hmatches⟩ := h
  obtain rfl : k = k' := Except.ok.inj (hk.symm.trans hk')
  have hkey := CertificateRequest.startsWith_of_matches hmatches
  exact Name.startsWith_trans hname (startsWith_identity hkey hfull)

def Notice.Lawful (p : Packet) : Notice → Prop
  | .judged verdict => verdict ≠ .accept ∧ ∀ r, verdict = .request r → p.subject.Asks r
  | .trusted r c _ => r.interest.matchesData c.data
  | .retrieved r c => r.interest.matchesData c.data
  | .examined c _ verdict => ∀ r, verdict = .request r → (Subject.certificate c).Asks r

structure Governed (p : Packet) (notices : List Notice) (stage : Stage) (s : Scene) : Prop where
  lawful : ∀ n ∈ notices, n.Lawful p
  chain : stage ≠ .ended → s.world.chain.Hierarchical
  answers : ∀ r progress, stage = .retrieving r progress → progress.Answers r.interest

theorem Vouched.throughout {v : Verifier} {notices : List Notice} {p : Packet} {call : Nat}
    {signer : Certificate} {r : CertificateRequest} {links : List Link}
    (h : Vouched v notices p call signer r links) (hl : ∀ n ∈ notices, n.Lawful p)
    (hr : r.interest.matchesData signer.data) : Throughout Permits p signer links := by
  induction h with
  | packet judged verified =>
    obtain ⟨k, hk, hname, rfl⟩ := (hl _ judged).2 _ rfl
    exact ⟨k, hk, hname, hr⟩
  | certificate retrieved examined valid verified next ih =>
    obtain ⟨k, hk, hname, rfl⟩ := hl _ examined _ rfl
    exact ⟨⟨k, hk, hname, hr⟩, ih (hl _ retrieved)⟩

section

variable {v : Validator} {answers : Interest → Response → Prop} {disturbs : World → World → Prop}

theorem ask_lawful {s s' : Scene} {subject : Subject} {verdict : Verdict}
    (h : ask subject s = .ok verdict s') (hc : s.world.chain.Hierarchical) :
    s'.world.chain.Hierarchical ∧ verdict ≠ .accept ∧
      ∀ r, verdict = .request r → subject.Asks r := by
  obtain ⟨hv, hw, -⟩ := ask_ok h
  rw [hw, hv]
  exact hc.check _ _

theorem Step.governed {p : Packet} {notices more : List Notice} {stage stage' : Stage}
    {s s' : Scene} (h : Step v (environment v answers disturbs) stage s more stage' s')
    (hanswers : ∀ i d, answers i (.data d) → i.matchesData d)
    (hp : stage = .opening → s.session.packet = p) (hi : Governed p notices stage s) :
    Governed p (notices ++ more) stage' s' := by
  obtain ⟨hlawful, hchain, hprogress⟩ := hi
  have hall : (∀ n ∈ more, n.Lawful p) → ∀ n ∈ notices ++ more, n.Lawful p := fun hmore n hn =>
    (List.mem_append.1 hn).elim (hlawful n) (hmore n)
  cases h with
  | bypass asked done =>
    obtain ⟨-, haccept, -⟩ := ask_lawful asked (hchain (by simp))
    exact absurd rfl haccept
  | refuse asked against done =>
    refine ⟨hall (List.forall_mem_singleton.2 ⟨against.1, ?_⟩), by simp, by simp⟩
    exact fun r hr => absurd hr (against.2 r)
  | require asked =>
    obtain ⟨hc, haccept, hasks⟩ := ask_lawful asked (hchain (by simp))
    rw [hp rfl] at hasks
    exact ⟨hall (List.forall_mem_singleton.2 ⟨haccept, hasks⟩), fun _ => hc, by simp⟩
  | stop limit done => exact ⟨hall (by simp), by simp, by simp⟩
  | conclude room new found done =>
    obtain ⟨w, hw, rfl⟩ := Act.within_ok found
    have hmatches := ((World.findTrusted_ok hw).1 _ rfl).1
    exact ⟨hall (List.forall_mem_singleton.2 hmatches), by simp, by simp⟩
  | fetch room new missing begun =>
    obtain ⟨w, hw, rfl⟩ := Act.within_ok missing
    obtain ⟨hanswered, hc⟩ := Fetcher.fetch_ok begun
    have hc' := (World.findTrusted_ok hw).2
    refine ⟨hall (by simp), fun _ => ?_, fun r progress hr => ?_⟩
    · exact (hc.chain.trans hc') ▸ hchain (by simp)
    · cases hr
      exact hanswered
  | resume resumed =>
    rename_i r pending progress w
    have hasked : pending.attempt.request.interest = r.interest := hprogress _ _ rfl
    have hboth : progress.Answers r.interest ∧ s.world.Restocked w := by
      rw [← hasked]
      cases pending with
      | answer a =>
        obtain ⟨response, hresponse, hw⟩ := resumed
        exact (Fetcher.receive_ok hw).imp_left fun h => h fun d hd => hanswers _ _ (hd ▸ hresponse)
      | pause a => exact Fetcher.wake_ok resumed
    refine ⟨hall (by simp), fun _ => ?_, fun r progress hr => ?_⟩
    · exact hboth.2.chain ▸ hchain (by simp)
    · cases hr
      exact hboth.1
  | give done => exact ⟨hall (by simp), by simp, by simp⟩
  | expire invalid done =>
    have hmatches := hprogress _ _ rfl
    exact ⟨hall (List.forall_mem_singleton.2 hmatches), by simp, by simp⟩
  | takeIn valid asked =>
    obtain ⟨hc, -, hasks⟩ := ask_lawful asked (hchain (by simp))
    refine ⟨hall (List.forall_mem_cons.2 ⟨hprogress _ _ rfl, ?_⟩), fun _ => hc, by simp⟩
    exact List.forall_mem_singleton.2 hasks
  | dismiss valid asked against done =>
    refine ⟨hall (List.forall_mem_cons.2 ⟨hprogress _ _ rfl, ?_⟩), by simp, by simp⟩
    exact List.forall_mem_singleton.2 fun r hr => absurd hr (against r)

theorem Reaches.governed {p : Packet} {onSuccess onFailure : Option Callback} {w : World}
    {notices : List Notice} {stage : Stage} {s : Scene}
    (h : Reaches v (environment v answers disturbs) ⟨{ packet := p, onSuccess, onFailure }, w⟩
      notices stage s)
    (hanswers : ∀ i d, answers i (.data d) → i.matchesData d)
    (hdisturbs : ∀ w w', disturbs w w' → w.chain.Hierarchical → w'.chain.Hierarchical)
    (hw : w.chain.Hierarchical) : Governed p notices stage s := by
  induction h with
  | start => exact ⟨by simp, fun _ => hw, by simp⟩
  | step hr hstep ih =>
    refine hstep.governed hanswers (fun ho => ?_) ih
    subst ho
    exact hr.invariant.1
  | disturb _ hd ih => exact ⟨ih.lawful, fun hs => hdisturbs _ _ hd (ih.chain hs), ih.answers⟩

theorem Throughout.packet {law : Subject → Certificate → Prop} {p : Packet}
    {signer : Certificate} {links : List Link} (h : Throughout law p signer links) :
    ∃ c, law p.subject c := by
  induction links generalizing signer with
  | nil => exact ⟨signer, h⟩
  | cons l rest ih => exact ih h.2

theorem Reaches.permitted {p : Packet} {onSuccess onFailure : Option Callback} {w : World}
    {notices : List Notice} {s : Scene}
    (h : Reaches v (environment v answers disturbs) ⟨{ packet := p, onSuccess, onFailure }, w⟩
      notices .ended s)
    (hanswers : ∀ i d, answers i (.data d) → i.matchesData d)
    (hdisturbs : ∀ w w', disturbs w w' → w.chain.Hierarchical → w'.chain.Hierarchical)
    (hw : w.chain.Hierarchical) (ho : s.session.outcome = some true) :
    ∃ r c calls links, links.length < v.maxDepth ∧
      notices.getLast? = some (.trusted r c calls) ∧
      Vouched v.verifier notices p calls c r links ∧ Throughout Permits p c links := by
  have hlawful := (h.governed hanswers hdisturbs hw).lawful
  rcases h.invariant ho with haccept | ⟨r, c, calls, links, hlen, hlast, hv⟩
  · exact absurd rfl (hlawful _ haccept).1
  · have hmatches := hlawful _ (List.mem_of_getLast? hlast)
    exact ⟨r, c, calls, links, hlen, hlast, hv, hv.throughout hlawful hmatches⟩

/-- A key that is told in full binds what it signs: a packet that succeeds begins with its
identity. -/
theorem start_trusting_binds {c : Certificate} {k : Name} (hc : c.name.startsWith k)
    (hfull : c.identity.length ≤ k.length - 2) {clock : Clock} {d : Data} {s : Scene}
    (hk : d.signature.info.keyName = .ok k)
    (h : v.start ⟨{ packet := .data d }, World.trusting clock c⟩ = .ok .ended s)
    (ho : s.session.outcome = some true) : d.name.startsWith c.identity := by
  obtain ⟨notices, stage, hr, hstage⟩ : ∃ notices stage, Reaches v
      (environment v (fun _ _ => False) fun _ _ => False)
      ⟨{ packet := .data d }, World.trusting clock c⟩ notices stage s ∧ stage.Shows .ended :=
    (Drives.start h).reaches
  obtain rfl := hstage.ended
  obtain ⟨_, _, _, _, -, -, -, hpermits⟩ := hr.permitted (by simp) (by simp) .alone ho
  obtain ⟨_, k', hk', hname, -⟩ := hpermits.packet
  obtain rfl : k = k' := Except.ok.inj (hk.symm.trans hk')
  have hkey := Name.startsWith_trans hc (Name.startsWith_take k (-2))
  exact Name.startsWith_trans hname (startsWith_identity hkey hfull)

/-- A key that is cut short binds nothing: it signs for a name that its identity does not begin. -/
theorem start_trusting_loose {c : Certificate} {k : Name} (hc : c.name.startsWith k)
    (hshort : k.length - 2 < c.identity.length) :
    ∃ (v : Validator) (clock : Clock) (d : Data) (s : Scene),
      d.signature.info.keyName = .ok k ∧
      v.start ⟨{ packet := .data d }, World.trusting clock c⟩ = .ok .ended s ∧
      s.session.outcome = some true ∧ ¬ d.name.startsWith c.identity := by
  let d : Data := { name := k.take (-2), signature := ⟨.sha256WithEcdsa (some (.name k)) none, []⟩ }
  obtain ⟨s, hs, ho⟩ := start_trusting (v := ⟨⟨fun _ _ _ _ => true⟩, .offline, 1⟩) (d := d)
    (.still (.ofMillis 0)) hc rfl (Name.startsWith_iff.2 (List.prefix_refl _)) Nat.one_pos rfl
  refine ⟨_, _, d, s, rfl, hs, ho, fun hd => ?_⟩
  have hlen := Name.startsWith_length hd
  have hk : d.name.length = k.length - 2 := Name.length_take_two k
  omega

/-- Under the hierarchy each signer of a successful session answers the key that the signed name is
permitted to. It owns a beginning of that name if the key is told in full, and a key that is cut
short binds nothing. -/
theorem Reaches.owned_if_told_in_full {p : Packet} {onSuccess onFailure : Option Callback}
    {w : World} {notices : List Notice} {s : Scene}
    (h : Reaches v (environment v answers disturbs) ⟨{ packet := p, onSuccess, onFailure }, w⟩
      notices .ended s)
    (hanswers : ∀ i d, answers i (.data d) → i.matchesData d)
    (hdisturbs : ∀ w w', disturbs w w' → w.chain.Hierarchical → w'.chain.Hierarchical)
    (hw : w.chain.Hierarchical) (ho : s.session.outcome = some true) :
    (∃ r c calls links, links.length < v.maxDepth ∧
      notices.getLast? = some (.trusted r c calls) ∧
      Vouched v.verifier notices p calls c r links ∧
      Throughout (fun s signer => Permits s signer ∧
        ∀ k, s.keyName = .ok k → signer.identity.length ≤ k.length - 2 →
          s.name.startsWith signer.identity) p c links) ∧
    ∀ (c : Certificate) (k : Name), c.name.startsWith k →
      (c.identity.length ≤ k.length - 2 ↔
        ∀ (v : Validator) (clock : Clock) (d : Data) (s : Scene),
          d.signature.info.keyName = .ok k →
          v.start ⟨{ packet := .data d }, World.trusting clock c⟩ = .ok .ended s →
          s.session.outcome = some true → d.name.startsWith c.identity) := by
  constructor
  · obtain ⟨r, c, calls, links, hlen, hlast, hv, hpermits⟩ :=
      h.permitted hanswers hdisturbs hw ho
    refine ⟨r, c, calls, links, hlen, hlast, hv, hpermits.imp fun s signer hs => ⟨hs, ?_⟩⟩
    exact fun k hk hfull => hs.owned hk hfull
  · intro c k hc
    constructor
    · intro hfull v clock d s hk hs ho
      exact start_trusting_binds hc hfull hk hs ho
    · intro hbinds
      by_cases hfull : c.identity.length ≤ k.length - 2
      · exact hfull
      · obtain ⟨v, clock, d, s, hk, hs, ho, hloose⟩ :=
          start_trusting_loose hc (Nat.lt_of_not_le hfull)
        exact absurd (hbinds v clock d s hk hs ho) hloose

end

def Sample.network (i : Interest) (response : Response) : Prop :=
  response = .data leaf.data ∧ i.matchesData leaf.data

/-- The packet was signed by a key that is told in full; one that is told as its first component
alone signs for others as well. -/
theorem owned_if_told_in_full_sample :
    ∃ notices s, Reaches Sample.validator
        (environment Sample.validator Sample.network fun _ _ => False)
        ⟨{ packet := Sample.packet }, Sample.world⟩ notices .ended s ∧
      (∀ i d, Sample.network i (.data d) → i.matchesData d) ∧
      Sample.world.chain.Hierarchical ∧ s.session.outcome = some true ∧
      (∃ c links, Throughout (fun s signer => Permits s signer ∧
        ∀ k, s.keyName = .ok k → signer.identity.length ≤ k.length - 2 →
          s.name.startsWith signer.identity) Sample.packet c links) ∧
      ¬ ∀ (v : Validator) (clock : Clock) (d : Data) (s : Scene),
        d.signature.info.keyName = .ok ⟨[.generic [2]]⟩ →
        v.start ⟨{ packet := .data d }, World.trusting clock Sample.leaf⟩ = .ok .ended s →
        s.session.outcome = some true → d.name.startsWith Sample.leaf.identity := by
  obtain ⟨s, hs, ho⟩ : ∃ s, Drives Sample.validator Sample.network (fun _ _ => False)
      ⟨{ packet := Sample.packet }, Sample.world⟩ .ended s ∧ s.session.outcome = some true :=
    ⟨_, .receive (.start rfl) ⟨rfl, rfl⟩ rfl, rfl⟩
  obtain ⟨notices, stage, h, hstage⟩ := hs.reaches
  obtain rfl := hstage.ended
  have hanswers : ∀ i d, Sample.network i (.data d) → i.matchesData d := by
    rintro i d ⟨hd, hm⟩
    injection hd with hd
    exact hd ▸ hm
  obtain ⟨⟨r, c, calls, links, -, -, -, hall⟩, hexact⟩ :=
    h.owned_if_told_in_full hanswers (by simp) .alone ho
  refine ⟨notices, s, h, hanswers, .alone, ho, ⟨c, links, hall⟩, fun hbinds => ?_⟩
  exact absurd ((hexact Sample.leaf ⟨[.generic [2]]⟩ rfl).2 hbinds) (by decide)

end Course

end PacketTrust
