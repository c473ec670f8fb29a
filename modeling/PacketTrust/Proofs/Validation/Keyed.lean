import Mathlib.Tactic.SplitIfs
import PacketTrust.Proofs.Action
import PacketTrust.Proofs.Validation.Reports
import PacketTrust.Proofs.Validation.Trust

/-! Which kinds of signature come to be trusted. The verifier takes a plain digest for a signature
under any key, but a digest tells no key name, and under the hierarchy nothing is followed that
tells none. -/

namespace PacketTrust

namespace SignatureInfo

/-- The signature was made with a private key, of a kind that can be verified. -/
def Keyed : SignatureInfo → Prop
  | sha256WithRsa .. | sha256WithEcdsa .. => True
  | _ => False

def Written (value : Bytes) (type : UInt64) : Prop :=
  ∃ first c, Tlv.Read.expected Tlv.Types.signatureType (.start value) = .ok first c ∧
    Tlv.decodeNumber first.value = .ok type

theorem type_ofParts (type : UInt64) (k : Option KeyLocator) (v : Option Validity) :
    (ofParts type k v).type = type := by
  unfold ofParts
  split_ifs with hdigest hrsa hecdsa hhmac
  · exact hdigest.symm
  · exact hrsa.symm
  · exact hecdsa.symm
  · exact hhmac.symm
  · rfl

theorem keyed_ofParts (type : UInt64) (k : Option KeyLocator) (v : Option Validity) :
    (ofParts type k v).Keyed ↔
      type = Tlv.SignatureType.sha256WithRsa ∨ type = Tlv.SignatureType.sha256WithEcdsa := by
  unfold ofParts
  split_ifs with hdigest hrsa hecdsa hhmac
  · subst hdigest
    exact ⟨False.elim, fun h => absurd h (by decide)⟩
  · exact ⟨fun _ => .inl hrsa, fun _ => trivial⟩
  · exact ⟨fun _ => .inr hecdsa, fun _ => trivial⟩
  · exact ⟨False.elim, fun h => h.elim hrsa hecdsa⟩
  · exact ⟨False.elim, fun h => h.elim hrsa hecdsa⟩

/-- Whatever else the octets tell, their first element decides whether there is a key. -/
theorem keyed_of_decodeValue {value : Bytes} {s : SignatureInfo} (h : decodeValue value = .ok s) :
    Written value s.type ∧ (s.Keyed ↔
      s.type = Tlv.SignatureType.sha256WithRsa ∨ s.type = Tlv.SignatureType.sha256WithEcdsa) := by
  unfold decodeValue at h
  cases hfirst : Tlv.Read.expected Tlv.Types.signatureType (.start value) with
  | error e c =>
    rw [hfirst] at h
    cases h
  | ok first c =>
    rw [hfirst] at h
    obtain ⟨type, htype, h⟩ := ok_of_bind h
    obtain ⟨parts, -, h⟩ := ok_of_bind h
    cases h
    rw [type_ofParts]
    exact ⟨⟨first, c, hfirst, htype⟩, keyed_ofParts type _ _⟩

theorem ne_digest_of_keyName {s : SignatureInfo} {k : Name} (h : s.keyName = .ok k) :
    s ≠ .digestSha256 := by
  rintro rfl
  cases h

end SignatureInfo

def Packet.Keyed : Packet → Prop
  | data d => d.signature.info.Keyed
  | interest i => ∃ s, i.signature = .ok s ∧ s.info.Keyed

def Subject.Named (s : Subject) : Prop := ∃ k, s.keyName = .ok k

namespace Verifier

theorem acceptsStandard_kinds {signed publicKey : Bytes} {s : Signature}
    (h : acceptsStandard signed s publicKey) : s.info.Keyed ∨ s.info = .digestSha256 := by
  unfold acceptsStandard at h
  cases hs : s.info with
  | digestSha256 => exact .inr rfl
  | sha256WithRsa k v => exact .inl trivial
  | sha256WithEcdsa k v => exact .inl trivial
  | hmacWithSha256 k => simp [hs] at h
  | generic type k v => simp [hs] at h

/-- A packet that the standard verifier accepts was signed with a key, if it tells a key name. -/
theorem Accepts.keyed {call : Nat} {p : Packet} {signer : Certificate}
    (h : standard.Accepts call p signer) (hn : p.subject.Named) : p.Keyed := by
  obtain ⟨k, hk⟩ := hn
  cases p with
  | data d =>
    rcases acceptsStandard_kinds h with hkeyed | hdigest
    · exact hkeyed
    · exact absurd hdigest (SignatureInfo.ne_digest_of_keyName hk)
  | interest i =>
    have hk : i.keyName = .ok k := hk
    unfold Interest.keyName at hk
    split at hk
    · cases hk
    cases hs : i.signature with
    | error e =>
      rw [hs] at hk
      cases hk
    | ok s =>
      rw [hs] at hk
      have haccepts : acceptsStandard i.signedPortion s signer.publicKey := by
        simpa only [Accepts, checkInterest, hs, standard] using h
      rcases acceptsStandard_kinds haccepts with hkeyed | hdigest
      · exact ⟨s, hs, hkeyed⟩
      · exact absurd hdigest (SignatureInfo.ne_digest_of_keyName hk)

theorem mem_acceptedPart {v : Verifier} {call : Nat} {signer c : Certificate}
    {chain : List Certificate} (h : c ∈ v.acceptedPart call signer chain) :
    c ∈ chain ∧ ∃ call signer, v.Accepts call (.data c.data) signer := by
  induction chain generalizing call signer with
  | nil => cases h
  | cons d rest ih =>
    rw [acceptedPart] at h
    split at h
    · rename_i hd
      rcases List.mem_cons.1 h with rfl | h
      · exact ⟨List.mem_cons_self, call, signer, hd⟩
      · obtain ⟨hmem, haccepts⟩ := ih h
        exact ⟨List.mem_cons_of_mem d hmem, haccepts⟩
    · cases h

end Verifier

namespace Course

open Scene Validator

variable {v : Validator} {env : Environment} {p : Packet} {start s s' : Scene}
  {notices : List Notice} {moves : List Move} {stage stage' : Stage}

/-- A session under the hierarchy has no outcome, and all that it collected tells the name of a key;
so does its packet, once the policies were asked about it. -/
structure Grounded (p : Packet) (stage : Stage) (s : Scene) : Prop where
  packet : s.session.packet = p
  undecided : s.session.outcome = none
  chain : s.world.chain.Hierarchical
  collected : ∀ c ∈ s.session.chain, (Subject.certificate c).Named
  asked : stage ≠ .opening → p.subject.Named

theorem Grounded.addSeen (hg : Grounded p stage s) (hstage : stage ≠ .opening)
    (n : Name) {w : World}
    (hw : w.chain.Hierarchical) (next : Stage) : Grounded p next ⟨s.session.addSeen n, w⟩ := by
  obtain ⟨seen, hseen⟩ := addSeen_eq s.session n
  have hnamed := hg.asked hstage
  rw [hseen]
  exact ⟨hg.packet, hg.undecided, hw, hg.collected, fun _ => hnamed⟩

theorem hierarchical_of_ask {subject : Subject} {verdict : Verdict}
    (hc : s.world.chain.Hierarchical) (h : ask subject s = .ok verdict s') :
    s'.world.chain.Hierarchical ∧ verdict ≠ .accept ∧
      ∀ r, verdict = .request r → subject.Named := by
  obtain ⟨hverdict, hw, -⟩ := ask_ok h
  obtain ⟨hchain, haccept, hasks⟩ := hc.check s.world.clock subject
  rw [hw, hverdict]
  refine ⟨hchain, haccept, fun r hr => ?_⟩
  obtain ⟨k, hk, -⟩ := hasks r hr
  exact ⟨k, hk⟩

/-- Until it ends, a session collects only what tells the name of a key. -/
theorem Step.grounded (h : Step v env stage s notices stage' s')
    (henv : env.Keeps (·.chain.Hierarchical)) (hg : Grounded p stage s) (hs : stage' ≠ .ended) :
    Grounded p stage' s' := by
  have ⟨hpacket, hnone, hchain, hcollected, hasked⟩ := hg
  cases h with
  | require asked =>
    rw [hpacket] at asked
    obtain ⟨hchain', -, hnamed⟩ := hierarchical_of_ask hchain asked
    obtain ⟨-, -, hsession⟩ := ask_ok asked
    refine ⟨?_, ?_, hchain', ?_, fun _ => hnamed _ rfl⟩ <;> rw [hsession] <;> assumption
  | fetch room new missing begun =>
    obtain ⟨w, hw, rfl⟩ := Act.within_ok missing
    have hfound : w.chain.Hierarchical := by
      rw [(World.findTrusted_ok hw).2]
      exact hchain
    exact hg.addSeen Stage.noConfusion _ (henv.begins begun hfound) _
  | resume resumed =>
    have hnamed := hasked Stage.noConfusion
    exact ⟨hpacket, hnone, henv.resumes resumed hchain, hcollected, fun _ => hnamed⟩
  | @takeIn _ t r next c valid asked =>
    have hticked : (tick s).world.chain.Hierarchical := hchain
    obtain ⟨hchain', -, hnamed⟩ := hierarchical_of_ask hticked asked
    obtain ⟨-, -, hsession⟩ := ask_ok asked
    obtain ⟨seen, hseen⟩ := addSeen_eq t.session c.name
    have hadded : t.session.addCertificate c =
        { s.session with
          hooks := t.session.hooks
          seen := seen
          chain := c :: s.session.chain } := by
      rw [Session.addCertificate, hseen, hsession]
      rfl
    constructor
    case packet => rw [hadded, ← hpacket]
    case undecided => rw [hadded, ← hnone]
    case chain => exact hchain'
    case collected =>
      rw [hadded]
      exact List.forall_mem_cons.2 ⟨hnamed next rfl, hcollected⟩
    case asked => exact fun _ => hasked Stage.noConfusion
  | _ => exact absurd rfl hs

/-- What a session comes to, and what it remembers, was signed with keys. -/
def Sound (p : Packet) (s s' : Scene) : Prop :=
  (s'.session.outcome = some true → p.Keyed) ∧ ∀ c, s'.world.storage.verified.Holds c →
    s.world.storage.verified.Holds c ∨ c.data.signature.info.Keyed

theorem Sound.of_trustsNoMore (hw : s.world.TrustsNoMore s'.world)
    (ho : s'.session.outcome ≠ some true) :
    Sound p s s' :=
  ⟨fun h => absurd h ho, fun c hc => .inl (hw.verified c hc)⟩

theorem Sound.of_fail {t : Scene} {e : ValidationError} (hw : s.world.Aside t.world)
    (h : fail e t = .ok () s') : Sound p s s' := by
  refine .of_trustsNoMore (hw.trans (aside_of_fail h)).trustsNoMore ?_
  rw [(fail_ok h).2]
  simp

/-- The end of a session from a trusted certificate. -/
theorem sound_of_conclude {trusted : Certificate} (hv : v.verifier = .standard)
    (hg : Grounded p stage s) (hstage : stage ≠ .opening)
    (h : v.conclude trusted s = .ok () s') : Sound p s s' := by
  constructor
  case left =>
    intro ho
    obtain ⟨-, haccepts⟩ := (conclude_ok h).2 ho
    rw [hv, hg.packet] at haccepts
    exact haccepts.keyed (hg.asked hstage)
  case right =>
    intro c hc
    obtain ⟨b, calls, t, part, hpart, -, -, ht, rfl⟩ := concluded h
    have haside : World.Aside { s.world with calls } t.world := by
      cases ht with
      | success ht => exact aside_of_succeed ht
      | failure ht => exact aside_of_fail ht
    obtain ⟨-, -, hheld⟩ := World.cacheVerified_fold part t.world
    rcases hheld c hc with hmem | hold
    · rw [hpart] at hmem
      obtain ⟨hcollected, call, signer, haccepts⟩ := Verifier.mem_acceptedPart hmem
      rw [hv] at haccepts
      have hkeyed := haccepts.keyed (hg.collected c hcollected)
      exact .inr hkeyed
    · rw [haside.storage] at hold
      exact .inl hold

theorem Step.sound (h : Step v (solitary v) stage s notices stage' s')
    (hv : v.verifier = .standard) (hg : Grounded p stage s) : Sound p s s' := by
  by_cases hs : stage' = .ended
  · subst hs
    cases h with
    | bypass asked done => exact absurd rfl (hierarchical_of_ask hg.chain asked).2.1
    | refuse asked against done => exact .of_fail (aside_of_ask asked) done
    | stop limit done => exact .of_fail ⟨rfl, rfl⟩ done
    | @conclude _ _ _ r c room new found done =>
      obtain ⟨w, hw, rfl⟩ := Act.within_ok found
      have hchain : w.chain.Hierarchical := by
        rw [(World.findTrusted_ok hw).2]
        exact hg.chain
      have hg' := hg.addSeen Stage.noConfusion r.name hchain (.requesting r)
      obtain ⟨hsuccess, hverified⟩ := sound_of_conclude hv hg' Stage.noConfusion done
      have htrust := World.trustsNoMore_of_findTrusted hw
      exact ⟨hsuccess, fun c hc => (hverified c hc).imp_left (htrust.verified c)⟩
    | give done => exact .of_fail ⟨rfl, rfl⟩ done
    | expire invalid done => exact .of_fail (aside_tick s) done
    | dismiss valid asked against done =>
      exact .of_fail ((aside_tick s).trans (aside_of_ask asked)) done
  · refine .of_trustsNoMore (h.trustsNoMore hs) ?_
    rw [h.outcome hs, hg.undecided]
    simp

/-- What may happen with some answers of the network may happen with any. -/
theorem Step.of_answers {answers : Interest → Response → Prop} {disturbs : World → World → Prop}
    (h : Step v (environment v answers disturbs) stage s notices stage' s') :
    Step v (solitary v) stage s notices stage' s' := by
  cases h with
  | bypass asked done => exact .bypass asked done
  | refuse asked against done => exact .refuse asked against done
  | require asked => exact .require asked
  | stop limit done => exact .stop limit done
  | conclude room new found done => exact .conclude room new found done
  | fetch room new missing begun => exact .fetch room new missing begun
  | @resume _ r q progress w resumed =>
    cases q with
    | answer a =>
      obtain ⟨response, -, hreceived⟩ := resumed
      exact .resume ⟨response, trivial, hreceived⟩
    | pause a => exact .resume resumed
  | give done => exact .give done
  | expire invalid done => exact .expire invalid done
  | takeIn valid asked => exact .takeIn valid asked
  | dismiss valid asked against done => exact .dismiss valid asked against done

variable {answers : Interest → Response → Prop} {disturbs : World → World → Prop}

theorem keeps_hierarchical
    (hdisturbs : ∀ w w', disturbs w w' → w.chain.Hierarchical → w'.chain.Hierarchical) :
    (environment v answers disturbs).Keeps (·.chain.Hierarchical) := by
  refine keeps_of_restocked (fun w w' h hw => ?_) hdisturbs
  rw [h.chain]
  exact hw

/-- Along its course a session stays grounded, and each of its steps is sound. -/
theorem Trail.sound (h : Trail v (environment v answers disturbs) start moves stage s)
    (hv : v.verifier = .standard)
    (hdisturbs : ∀ w w', disturbs w w' → w.chain.Hierarchical → w'.chain.Hierarchical)
    (hstart : Grounded p .opening start) :
    (stage ≠ .ended → Grounded p stage s) ∧ (s.session.outcome = some true → p.Keyed) ∧
      ∀ m ∈ moves, Sound p m.before m.after := by
  induction h with
  | start =>
    refine ⟨fun _ => hstart, fun ho => ?_, by simp⟩
    rw [hstart.undecided] at ho
    cases ho
  | step _ hstep ih =>
    obtain ⟨hg, -, hsound⟩ := ih
    have hgrounded := hg hstep.source_ne_ended
    have hthis := hstep.of_answers.sound hv hgrounded
    refine ⟨hstep.grounded (keeps_hierarchical hdisturbs) hgrounded, hthis.1, fun m hm => ?_⟩
    rcases List.mem_append.1 hm with hm | hm
    · exact hsound m hm
    · rw [List.mem_singleton.1 hm]
      exact hthis
  | disturb _ hw ih =>
    -- Others leave the session as it is and the policies in place.
    obtain ⟨hg, hsuccess, hsound⟩ := ih
    refine ⟨fun hs => ?_, hsuccess, hsound⟩
    obtain ⟨hpacket, hnone, hchain, hcollected, hasked⟩ := hg hs
    exact ⟨hpacket, hnone, hdisturbs _ _ hw hchain, hcollected, hasked⟩

/-- Under the standard verifier and the hierarchy no session succeeds for a packet, or remembers a
certificate, without a signature by RSA or by elliptic curve. The first element of its information
tells what kind a signature is of. -/
theorem only_keyed_trusted {w : World} (onSuccess onFailure : Option Callback)
    (hv : v.verifier = .standard) (hw : w.chain.Hierarchical)
    (hdisturbs : ∀ w w', disturbs w w' → w.chain.Hierarchical → w'.chain.Hierarchical)
    (h : Trail v (environment v answers disturbs) ⟨{ packet := p, onSuccess, onFailure }, w⟩ moves
      stage s) :
    (s.session.outcome = some true → p.Keyed) ∧
    (∀ m ∈ moves, ∀ c, m.after.world.storage.verified.Holds c →
      m.before.world.storage.verified.Holds c ∨ c.data.signature.info.Keyed) ∧
    (∀ fault s', Breaks v stage s fault s' →
      ∀ c, s'.world.storage.verified.Holds c → s.world.storage.verified.Holds c) ∧
    ∀ value info, SignatureInfo.decodeValue value = .ok info →
      SignatureInfo.Written value info.type ∧ (info.Keyed ↔
        info.type = Tlv.SignatureType.sha256WithRsa ∨
          info.type = Tlv.SignatureType.sha256WithEcdsa) := by
  have hstart : Grounded p .opening ⟨{ packet := p, onSuccess, onFailure }, w⟩ :=
    ⟨rfl, rfl, hw, by simp, fun hs => absurd rfl hs⟩
  obtain ⟨hgrounded, hsuccess, hsound⟩ := h.sound hv hdisturbs hstart
  refine ⟨hsuccess, fun m hm => (hsound m hm).2, fun fault s' hb => ?_, ?_⟩
  · have hnone := (hgrounded hb.stage_ne_ended).undecided
    exact (hb.trustsNoMore hnone).verified
  · exact fun value info => SignatureInfo.keyed_of_decodeValue

/-- The same of what the validator makes of a session by starting and resuming it. -/
theorem Drives.keyed_of_succeeded {w : World} {onSuccess onFailure : Option Callback}
    {status : Status} (hv : v.verifier = .standard) (hw : w.chain.Hierarchical)
    (hdisturbs : ∀ w w', disturbs w w' → w.chain.Hierarchical → w'.chain.Hierarchical)
    (h : Drives v answers disturbs ⟨{ packet := p, onSuccess, onFailure }, w⟩ status s) :
    ∃ moves stage, Trail v (environment v answers disturbs)
        ⟨{ packet := p, onSuccess, onFailure }, w⟩ moves stage s ∧ stage.Shows status ∧
      (s.session.outcome = some true → p.Keyed) ∧
      ∀ m ∈ moves, ∀ c, m.after.world.storage.verified.Holds c →
        m.before.world.storage.verified.Holds c ∨ c.data.signature.info.Keyed := by
  obtain ⟨moves, stage, htrail, hstage⟩ := h.trail
  obtain ⟨-, hsuccess, hsound⟩ :=
    htrail.sound hv hdisturbs ⟨rfl, rfl, hw, by simp, fun hs => absurd rfl hs⟩
  exact ⟨moves, stage, htrail, hstage, hsuccess, fun m hm => (hsound m hm).2⟩

namespace Sample

def strict : Validator := { validator with verifier := .standard }

/-- A packet with a keyed digest under the name of the key of the root. -/
def hashed : Data :=
  { name := ⟨[.generic [3]]⟩
    signature := ⟨.hmacWithSha256 (some (.name (keyName [] 1))), [11]⟩ }

/-- The information of a plain digest that yet tells a key and a period. -/
def overtold : Bytes :=
  Tlv.encodeNumberElement Tlv.Types.signatureType Tlv.SignatureType.digestSha256 ++
    ((KeyLocator.name (keyName [] 1)).encode ++
      (Validity.mk (.ofMillis 0) (.ofMillis 9000)).encode)

end Sample

/-- A keyed digest fails though its key is that of an anchor, and a plain one tells no key. -/
theorem only_keyed_trusted_sample :
    Sample.strict.verifier = .standard ∧ Sample.world.chain.Hierarchical ∧
      SignatureInfo.decodeValue Sample.overtold = .ok .digestSha256 ∧
      SignatureInfo.Written Sample.overtold Tlv.SignatureType.digestSha256 ∧
      ∃ moves s, Trail Sample.strict (environment Sample.strict (fun _ _ => True) fun _ _ => False)
          ⟨{ packet := .data Sample.hashed }, Sample.world⟩ moves .ended s ∧
        s.session.outcome ≠ none ∧ s.session.outcome ≠ some true := by
  obtain ⟨s, hs, ho⟩ : ∃ s, Drives Sample.strict (fun _ _ => True) (fun _ _ => False)
      ⟨{ packet := .data Sample.hashed }, Sample.world⟩ .ended s ∧
        s.session.outcome = some false := ⟨_, .start rfl, rfl⟩
  obtain ⟨moves, stage, h, hstage⟩ := hs.trail
  obtain rfl := hstage.ended
  obtain ⟨hsuccess, -, -, hwires⟩ :=
    only_keyed_trusted (some {}) (some {}) rfl .alone (fun _ _ hw => hw.elim) h
  have hdecoded : SignatureInfo.decodeValue Sample.overtold = .ok .digestSha256 := by
    decide +kernel
  refine ⟨rfl, .alone, hdecoded, (hwires _ _ hdecoded).1, moves, s, h, ?_, hsuccess⟩
  simp [ho]

end Course

end PacketTrust
