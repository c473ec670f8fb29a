import PacketTrust.Proofs.Validation.Course

/-! What the success of a session rests on: the policies accept its packet outright, or a chain of
signatures leads to it from a trusted certificate, along certificates that were asked for,
retrieved, and valid when they were looked at. -/

namespace PacketTrust.Course

open Scene Validator

/-- A certificate of a chain, with the request that it answers. -/
structure Link where
  certificate : Certificate
  request : CertificateRequest

/-- What a session has learnt vouches for its packet: a certificate that answers a request is the
first of a chain, in which each verifies the next from a call of the verifier on, and the last the
packet. -/
inductive Vouched (v : Verifier) (notices : List Notice) (p : Packet) :
    (call : Nat) → Certificate → CertificateRequest → List Link → Prop
  | packet {call : Nat} {signer : Certificate} {answered : CertificateRequest}
      (judged : .judged (.request answered) ∈ notices) (verified : v.Accepts call p signer) :
      Vouched v notices p call signer answered []
  | certificate {call : Nat} {signer : Certificate} {answered : CertificateRequest} {l : Link}
      {rest : List Link} {time : Instant}
      (retrieved : .retrieved l.request l.certificate ∈ notices)
      (examined : .examined l.certificate time (.request answered) ∈ notices)
      (valid : l.certificate.ValidAt time)
      (verified : v.Accepts call (.data l.certificate.data) signer)
      (next : Vouched v notices p (call + 1) l.certificate l.request rest) :
      Vouched v notices p call signer answered (l :: rest)

/-- The certificates of a chain were retrieved for the requests that lead to a request. -/
def Pursued (notices : List Notice) : CertificateRequest → List Link → Prop
  | answered, [] => .judged (.request answered) ∈ notices
  | answered, l :: rest =>
    .retrieved l.request l.certificate ∈ notices ∧
      (∃ time, .examined l.certificate time (.request answered) ∈ notices ∧
        l.certificate.ValidAt time) ∧
      Pursued notices l.request rest

theorem Pursued.mono {notices more : List Notice} (hsub : notices ⊆ more)
    {r : CertificateRequest} {links : List Link} (h : Pursued notices r links) :
    Pursued more r links := by
  induction links generalizing r with
  | nil => exact hsub h
  | cons l rest ih =>
    obtain ⟨hretrieved, ⟨time, hexamined, hvalid⟩, hrest⟩ := h
    exact ⟨hsub hretrieved, ⟨time, hsub hexamined, hvalid⟩, ih hrest⟩

/-- A chain that was pursued vouches for the packet once its signatures are accepted. -/
theorem Pursued.vouched {v : Verifier} {notices : List Notice} {p : Packet} {call : Nat}
    {signer : Certificate} {r : CertificateRequest} {links : List Link}
    (h : Pursued notices r links) (hchain : v.AcceptsChain call signer (links.map (·.certificate)))
    (hp : v.Accepts (call + links.length) p
      ((links.map (·.certificate)).getLastD signer)) :
    Vouched v notices p call signer r links := by
  induction links generalizing call signer r with
  | nil => exact .packet h hp
  | cons l rest ih =>
    obtain ⟨hretrieved, ⟨time, hexamined, hvalid⟩, hrest⟩ := h
    rw [List.map_cons, List.getLastD_cons, List.length_cons, Nat.add_left_comm, Nat.add_comm] at hp
    exact .certificate hretrieved hexamined hvalid hchain.1 (ih hrest hchain.2 (by simpa using hp))

structure Open (p : Packet) (notices : List Notice) (r : CertificateRequest) (s : Scene) :
    Prop where
  packet : s.session.packet = p
  undecided : s.session.outcome = none
  pursued : ∃ links, Pursued notices r links ∧ s.session.chain = links.map (·.certificate)

def Invariant (v : Validator) (p : Packet) (notices : List Notice) : Stage → Scene → Prop
  | .opening, s => s.session.packet = p ∧ s.session.outcome = none ∧ s.session.chain = []
  | .requesting r, s => Open p notices r s
  | .retrieving r _, s => Open p notices r s
  | .ended, s => s.session.outcome = some true →
      .judged .accept ∈ notices ∨ ∃ r c calls links, links.length < v.maxDepth ∧
        notices.getLast? = some (.trusted r c calls) ∧
        Vouched v.verifier notices p calls c r links

theorem Invariant.of_fail {v : Validator} {p : Packet} {notices : List Notice} {s s' : Scene}
    {e : ValidationError} {u : Unit} (h : fail e s = .ok u s') :
    Invariant v p notices .ended s' := by
  intro ho
  obtain ⟨-, hs⟩ := fail_ok h
  rw [hs] at ho
  cases ho

theorem Step.invariant {v : Validator} {env : Environment} {p : Packet}
    {notices more : List Notice} {stage stage' : Stage} {s s' : Scene}
    (h : Step v env stage s more stage' s') (hi : Invariant v p notices stage s) :
    Invariant v p (notices ++ more) stage' s' := by
  cases h with
  | bypass asked done => exact fun _ => .inl (by simp)
  | refuse asked against done => exact .of_fail done
  | require asked =>
    obtain ⟨hp, hn, hc⟩ := hi
    obtain ⟨-, -, hs⟩ := ask_ok asked
    rename_i r
    refine ⟨by rw [hs, ← hp], by rw [hs, ← hn], [], ?_, by rw [hs]; exact hc⟩
    simp [Pursued]
  | stop limit done => exact .of_fail done
  | conclude room new found done =>
    rename_i t r c
    obtain ⟨hp, hn, links, hlinks, hchain⟩ := hi
    obtain ⟨w, -, rfl⟩ := Act.within_ok found
    obtain ⟨seen, hseen⟩ := addSeen_eq s.session r.name
    obtain ⟨-, hverified⟩ := conclude_ok done
    intro ho
    obtain ⟨hcertificates, hpacket⟩ := hverified ho
    simp only [hseen, hchain, hp, List.length_map] at hcertificates hpacket
    rw [Session.depth, hchain, List.length_map] at room
    refine .inr ⟨r, c, w.calls, links, room, by simp, ?_⟩
    exact (hlinks.mono (List.subset_append_left _ _)).vouched hcertificates hpacket
  | fetch room new missing begun =>
    obtain ⟨hp, hn, links, hlinks, hchain⟩ := hi
    obtain ⟨w, -, rfl⟩ := Act.within_ok missing
    rename_i r progress w'
    obtain ⟨seen, hseen⟩ := addSeen_eq s.session r.name
    rw [List.append_nil]
    exact ⟨by rw [hseen, ← hp], by rw [hseen, ← hn], links, hlinks, by rw [hseen, ← hchain]⟩
  | resume resumed =>
    rw [List.append_nil]
    exact ⟨hi.packet, hi.undecided, hi.pursued⟩
  | give done => exact .of_fail done
  | expire invalid done => exact .of_fail done
  | takeIn valid asked =>
    obtain ⟨hp, hn, links, hlinks, hchain⟩ := hi
    obtain ⟨-, -, hs⟩ := ask_ok asked
    rename_i t r next c
    obtain ⟨seen, hseen⟩ := addSeen_eq t.session c.name
    refine ⟨?_, ?_, ⟨c, r⟩ :: links, ?_, ?_⟩
    · rw [Session.addCertificate, hseen, hs, ← hp]
      rfl
    · rw [Session.addCertificate, hseen, hs, ← hn]
      rfl
    · exact ⟨by simp, ⟨_, by simp, valid⟩, hlinks.mono (List.subset_append_left _ _)⟩
    · rw [Session.addCertificate, hseen, hs]
      exact congrArg _ hchain
  | dismiss valid asked against done => exact .of_fail done

theorem Reaches.invariant {v : Validator} {env : Environment} {p : Packet}
    {onSuccess onFailure : Option Callback} {w : World} {notices : List Notice} {stage : Stage}
    {s : Scene} (h : Reaches v env ⟨{ packet := p, onSuccess, onFailure }, w⟩ notices stage s) :
    Invariant v p notices stage s := by
  induction h with
  | start => exact ⟨rfl, rfl, rfl⟩
  | step _ hstep ih => exact hstep.invariant ih
  | disturb _ _ ih =>
    -- Only the world was disturbed, and of that nothing is said while a session waits.
    rename_i stage _ _ _ _
    cases stage with
    | opening => exact ih
    | requesting r => exact ⟨ih.packet, ih.undecided, ih.pursued⟩
    | retrieving r progress => exact ⟨ih.packet, ih.undecided, ih.pursued⟩
    | ended => exact ih

/-- A session that ends well was accepted outright, or certificates vouch for its packet: fewer than
the longest chain allows, of which the first is led to from a trusted one found for the last
request. -/
theorem Reaches.accepted_or_vouched {v : Validator} {env : Environment} {p : Packet}
    {onSuccess onFailure : Option Callback} {w : World} {notices : List Notice} {s : Scene}
    (h : Reaches v env ⟨{ packet := p, onSuccess, onFailure }, w⟩ notices .ended s)
    (ho : s.session.outcome = some true) :
    .judged .accept ∈ notices ∨ ∃ r c calls links, links.length < v.maxDepth ∧
      notices.getLast? = some (.trusted r c calls) ∧
      Vouched v.verifier notices p calls c r links :=
  h.invariant ho

/-- The same of what the validator makes of a session by starting and resuming it. -/
theorem Drives.vouched_of_succeeded {v : Validator} {answers : Interest → Response → Prop}
    {disturbs : World → World → Prop} {p : Packet}
    {onSuccess onFailure : Option Callback} {w : World}
    {s : Scene}
    (h : Drives v answers disturbs ⟨{ packet := p, onSuccess, onFailure }, w⟩ .ended s)
    (ho : s.session.outcome = some true) :
    ∃ notices, Reaches v (environment v answers disturbs)
        ⟨{ packet := p, onSuccess, onFailure }, w⟩ notices .ended s ∧
      (.judged .accept ∈ notices ∨ ∃ r c calls links, links.length < v.maxDepth ∧
        notices.getLast? = some (.trusted r c calls) ∧
        Vouched v.verifier notices p calls c r links) := by
  obtain ⟨notices, stage, hreaches, hstage⟩ := h.reaches
  obtain rfl := hstage.ended
  exact ⟨notices, hreaches, hreaches.invariant ho⟩

namespace Sample

def keyName (owner : List UInt8) (id : UInt8) : Name :=
  ⟨owner.map (fun b => .generic [b]) ++ [Certificate.keyMark, .generic [id]]⟩

/-- A packet whose signature value is the public key itself. -/
def signed (name signer : Name) (key content : Bytes) : Data :=
  { name, content, metaInfo := { contentType := Tlv.ContentType.key }
    signature :=
      ⟨.sha256WithEcdsa (some (.name signer)) (some ⟨.ofMillis 0, .ofMillis 9000⟩), key⟩ }

def certificate (owner : List UInt8) (id : UInt8) (signer : Name) (key content : Bytes) :
    Certificate :=
  ⟨signed (((keyName owner id).push (.generic [0])).push (.generic [0])) signer key content,
    ⟨.ofMillis 0, .ofMillis 9000⟩⟩

def verifier : Verifier := ⟨fun _ _ s key => s.value == key⟩

def root : Certificate := certificate [] 1 (keyName [] 1) [11] [11]

def leaf : Certificate := certificate [2] 2 (keyName [] 1) [11] [22]

def packet : Packet :=
  .data (signed ⟨[.generic [2], .generic [3]]⟩ (keyName [2] 2) [22] [])

def validator : Validator := ⟨verifier, .network, 2⟩

def world : World :=
  { clock := .still (.ofMillis 5000)
    storage := { anchors := { index := NameMap.empty.insert root.name ⟨root, 1⟩ } }
    chain := [.hierarchy] }

end Sample

/-- A packet signed by a certificate from the network, which the root signed. -/
theorem accepted_or_vouched_sample :
    ∃ notices s, Reaches Sample.validator
        (environment Sample.validator (fun _ response => response = .data Sample.leaf.data)
          fun _ _ => False)
        ⟨{ packet := Sample.packet }, Sample.world⟩ notices .ended s ∧
      s.session.outcome = some true ∧
      (.judged .accept ∈ notices ∨ ∃ r c calls links, links.length < Sample.validator.maxDepth ∧
        notices.getLast? = some (.trusted r c calls) ∧
        Vouched Sample.verifier notices Sample.packet calls c r links) := by
  obtain ⟨s, hs, ho⟩ : ∃ s, Drives Sample.validator
      (fun _ response => response = .data Sample.leaf.data) (fun _ _ => False)
      ⟨{ packet := Sample.packet }, Sample.world⟩ .ended s ∧ s.session.outcome = some true :=
    ⟨_, .receive (.start rfl) rfl rfl, rfl⟩
  obtain ⟨notices, stage, h, hstage⟩ := hs.reaches
  obtain rfl := hstage.ended
  exact ⟨notices, s, h, ho, h.accepted_or_vouched ho⟩

end PacketTrust.Course
