import PacketTrust.Proofs.Packet.Signed
import PacketTrust.Proofs.Validation.RecordOrder
import PacketTrust.Proofs.Validation.Remembering

/-! The signer of commands and the policy on commands, which have no state in common. The signer
puts each timestamp above the last one, so that no record of an earlier command stands against a
later one. -/

namespace PacketTrust

/-- What is told of the key costs little more than its name. -/
theorem Signer.length_info_lt (s : Signer) (h : s.keyName.encode.length < 2 ^ 63) :
    (s.info none).encodeValue.length < 2 ^ 64 := by
  have htype := Tlv.length_encodeNumberElement_le Tlv.Types.signatureType (s.info none).type
  have hlocator := Tlv.length_encode_le Tlv.Types.keyLocator s.keyName.encode
  have hvalue : (s.info none).encodeValue.length =
      (Tlv.encodeNumberElement Tlv.Types.signatureType (s.info none).type).length +
        ((Tlv.encode Tlv.Types.keyLocator s.keyName.encode).length + 0) := by
    unfold SignatureInfo.encodeValue
    rw [List.length_append, List.length_append]
    rfl
  omega

namespace CommandSigner

structure Occasion where
  now : Instant
  name : Name
  nonce : Bytes
  packetNonce : UInt32

def makeAll (s : CommandSigner) : List Occasion → List (Instant × Interest)
  | [] => []
  | c :: rest =>
    let (i, s) := s.make c.now c.name c.nonce c.packetNonce
    (c.now, i) :: s.makeAll rest

variable {s : CommandSigner} {now : Instant} {count : Nat}

/-- So many commands at most have been made: the last timestamp is no further ahead of all
clocks. -/
def Ahead (s : CommandSigner) (count : Nat) : Prop :=
  ∀ last, s.last = some last → last.toNat < 2 ^ 63 + count

/-- The next timestamp is that of the clock at least, and later than the last one. -/
theorem nextTimestamp_spec (hs : s.Ahead count) (hcount : count < 2 ^ 63)
    (hnow : now.toMillis < 2 ^ 63) :
    now.toMillis ≤ (s.nextTimestamp now).toNat ∧
      (∀ last, s.last = some last → last < s.nextTimestamp now) ∧
      (s.nextTimestamp now).toNat < 2 ^ 63 + (count + 1) := by
  have hms : (UInt64.ofNat now.toMillis.toNat).toNat = now.toMillis.toNat := by
    rw [UInt64.toNat_ofNat', Nat.mod_eq_of_lt (by omega)]
  unfold nextTimestamp
  generalize UInt64.ofNat now.toMillis.toNat = ms at hms ⊢
  cases hlast : s.last with
  | none =>
    dsimp only
    refine ⟨by omega, nofun, by omega⟩
  | some last =>
    have hbound := hs last hlast
    dsimp only
    split
    · rename_i hle
      rw [UInt64.le_iff_toNat_le] at hle
      have hnext : (last + 1).toNat = last.toNat + 1 := by
        rw [UInt64.toNat_add]
        show (last.toNat + 1) % _ = _
        omega
      refine ⟨by omega, ?_, by omega⟩
      rintro _ ⟨⟩
      rw [UInt64.lt_iff_toNat_lt]
      omega
    · rename_i hgt
      refine ⟨by omega, ?_, by omega⟩
      rintro _ ⟨⟩
      exact UInt64.not_le.1 hgt

theorem commandParts_makeAt (hs : s.signer.keyName.WellFormed)
    (hinfo : (s.signer.info none).encodeValue.length < 2 ^ 64) (name : Name) (t : UInt64)
    (nonce : Bytes) (packetNonce : UInt32) :
    Policy.commandParts (s.makeAt name t nonce packetNonce) = .ok (s.signer.keyName, t) := by
  let i : Interest :=
    { name := (name.push (.ofNumber t)).push (.generic nonce), nonce := some packetNonce }
  have hget : (s.signer.signInterest i).name.get? (-4) = some (.ofNumber t) := by
    calc (s.signer.signInterest i).name.get? (-4)
      _ = (s.signer.named i).get? (-3) := Name.get?_push_succ _ _ (k := 3) (by omega)
      _ = i.name.get? (-2) := Name.get?_push_succ _ _ (k := 2) (by omega)
      _ = (name.push (.ofNumber t)).get? (-1) := Name.get?_push_succ _ _ (k := 1) (by omega)
      _ = some (.ofNumber t) := Name.get?_push _ _
  change Policy.commandParts (s.signer.signInterest i) = _
  rw [Policy.commandParts_eq_ok_iff]
  exact ⟨⟨.ofNumber t, hget, Tlv.decodeNumber_encodeNumber t⟩, _,
    s.signer.signature_signInterest hs hinfo i, rfl⟩

/-- Whatever the clock shows, the policy reads the key of the signer off each command, and
timestamps that are not before the clock and rise from one command to the next. -/
theorem makeAll_rises {occasions : List Occasion} (hkey : s.signer.keyName.WellFormed)
    (hinfo : (s.signer.info none).encodeValue.length < 2 ^ 64) (hs : s.Ahead count)
    (hcount : count + occasions.length < 2 ^ 63) (hnow : ∀ c ∈ occasions, c.now.toMillis < 2 ^ 63) :
    (∀ x ∈ s.makeAll occasions, ∃ t, Policy.commandParts x.2 = .ok (s.signer.keyName, t) ∧
      x.1.toMillis ≤ t.toNat ∧ ∀ last, s.last = some last → last < t) ∧
      (s.makeAll occasions).Pairwise fun x y => ∀ k t u, Policy.commandParts x.2 = .ok (k, t) →
        Policy.commandParts y.2 = .ok (k, u) → t < u := by
  -- The bound on the last timestamp grows with the commands made, so the signer may not run over.
  induction occasions generalizing s count with
  | nil => exact ⟨nofun, .nil⟩
  | cons c rest ih =>
    obtain ⟨hfirst, hrest⟩ := List.forall_mem_cons.1 hnow
    rw [List.length_cons] at hcount
    obtain ⟨hclock, hlater, hahead⟩ := nextTimestamp_spec hs (by omega) hfirst
    let next : CommandSigner := { s with last := some (s.nextTimestamp c.now) }
    have hmade : s.makeAll (c :: rest) =
        (c.now, s.makeAt c.name (s.nextTimestamp c.now) c.nonce c.packetNonce) ::
          next.makeAll rest := rfl
    have hparts :=
      commandParts_makeAt hkey hinfo c.name (s.nextTimestamp c.now) c.nonce c.packetNonce
    have hnextAhead : next.Ahead (count + 1) := by
      rintro _ ⟨⟩
      exact hahead
    have hlast : next.last = some (s.nextTimestamp c.now) := rfl
    obtain ⟨hmore, hpairs⟩ := ih (s := next) hkey hinfo hnextAhead (by omega) hrest
    rw [hmade, List.forall_mem_cons, List.pairwise_cons]
    refine ⟨⟨⟨_, hparts, hclock, hlater⟩, ?_⟩, ?_, hpairs⟩
    · intro x hx
      obtain ⟨t, ht, hxclock, habove⟩ := hmore x hx
      refine ⟨t, ht, hxclock, fun last hs' => ?_⟩
      exact UInt64.lt_trans (hlater last hs') (habove _ hlast)
    · intro y hy k t u ht hu
      obtain ⟨u', hu', -, habove⟩ := hmore y hy
      cases hparts.symm.trans ht
      cases hu'.symm.trans hu
      exact habove _ hlast

end CommandSigner

def Policy.outside (k : Name) : Verdict :=
  .reject ⟨.policy, s!"Timestamp is outside the grace period for key `{k.uri}`"⟩

/-- A timestamp that is not before the clock and later than the record of its key can only be too
far ahead. -/
theorem Policy.checkTimestamp_of_later {o : CommandOptions} {records : Records} {now : Instant}
    {k : Name} {t : UInt64} (hnow : now.toMillis ≤ t.toNat)
    (hlater : ∀ r, records.find? k = some r → r.timestamp < t) (place : Nat) :
    (checkTimestamp o records now place k t).1 =
      if now.toMillis + o.graceMillis < t.toNat then outside k else .pass := by
  have hgrace : 0 ≤ o.graceMillis := by
    unfold CommandOptions.graceMillis
    omega
  have hreordered : ¬ (records.find? k).any fun r => t ≤ r.timestamp := by
    cases hr : records.find? k with
    | none => simp
    | some r =>
      rw [Option.any_some, decide_eq_true_eq, UInt64.not_le]
      exact hlater r hr
  unfold checkTimestamp
  dsimp only
  by_cases hfar : now.toMillis + o.graceMillis < t.toNat
  · rw [if_pos (.inr hfar), if_pos hfar]
    rfl
  · rw [if_neg (by omega), if_neg hreordered, if_neg hfar]

theorem Records.of_mem_insert {l : Records} {k : Name} {t : UInt64} {now : Instant}
    {r : TimestampRecord} (h : r ∈ l.insert k t now) : r ∈ l ∨ r = ⟨k, t, now⟩ := by
  rcases insert_cases l k t now with ⟨-, -, -, hsame⟩ | ⟨-, hnew⟩
  · rw [hsame] at h
    exact .inl h
  · rw [hnew, List.mem_append, List.mem_singleton] at h
    exact h.imp_left List.mem_of_mem_filter

theorem Subject.commandParts_of_command? {i : Interest} {parts : Name × UInt64}
    (h : (interest i).command? = some parts) : Policy.commandParts i = .ok parts := by
  cases hi : Policy.commandParts i with
  | error e =>
    rw [command?_of_error hi] at h
    cases h
  | ok parts' =>
    rw [command?_of_ok hi] at h
    cases h
    rfl

/-- To be asked costs the policy on commands none but old records, and what it leaves to be recorded
was read off the subject. -/
theorem Policy.check_command_read (o : CommandOptions) (l : Records) (clock : Clock) (place : Nat)
    (s : Subject) :
    ∃ l', ((command o l).check clock place s).2.1 = command o l' ∧ l' <:+ l ∧
      ∀ k t, .record place k t ∈ ((command o l).check clock place s).1.2 →
        s.command? = some (k, t) := by
  cases s with
  | data d => exact ⟨l, rfl, List.suffix_refl l, nofun⟩
  | certificate c => exact ⟨l, rfl, List.suffix_refl l, nofun⟩
  | interest i =>
    cases hi : commandParts i with
    | error e =>
      rw [check_unreadable hi]
      exact ⟨l, rfl, List.suffix_refl l, nofun⟩
    | ok parts =>
      rw [check_readable hi, Subject.command?_of_ok hi]
      refine ⟨_, rfl, Records.cleanUp_suffix o clock.now l, fun k t hk => ?_⟩
      rcases checkTimestamp_cases o (l.cleanUp o clock.now) clock.next.now place parts.1 parts.2
        with ⟨e, hr⟩ | ⟨hr, -⟩
      · rw [hr] at hk
        cases hk
      · rw [hr] at hk
        cases List.mem_singleton.1 hk
        rfl

namespace World

variable {place : Nat} {o : CommandOptions} {known known' : Name → UInt64 → Prop} {w w' : World}

/-- The policy at a place is on commands and has only timestamps that are known; no other policy
records with it. -/
structure Holds (place : Nat) (o : CommandOptions) (known : Name → UInt64 → Prop) (w : World) :
    Prop where
  policy : ∃ l, w.chain[place]? = some (.command o l) ∧ ∀ r ∈ l, known r.keyName r.timestamp
  discreet : ∀ p ∈ w.chain, p.Discreet

namespace Holds

theorem of_chain (h : w.Holds place o known) (hc : w'.chain = w.chain) :
    w'.Holds place o known := by
  obtain ⟨⟨l, hpolicy, hl⟩, hdiscreet⟩ := h
  exact ⟨⟨l, hc ▸ hpolicy, hl⟩, hc ▸ hdiscreet⟩

theorem mono (h : w.Holds place o known) (hk : ∀ k t, known k t → known' k t) :
    w.Holds place o known' := by
  obtain ⟨⟨l, hpolicy, hl⟩, hdiscreet⟩ := h
  exact ⟨⟨l, hpolicy, fun r hr => hk _ _ (hl r hr)⟩, hdiscreet⟩

theorem checkPolicy (h : w.Holds place o known) (s : Subject) :
    (w.checkPolicy s).2.Holds place o known ∧
      ∀ k t, .record place k t ∈ (w.checkPolicy s).1.2 → s.command? = some (k, t) := by
  obtain ⟨⟨l, hpolicy, hl⟩, hdiscreet⟩ := h
  have hdiscreet' : ∀ p ∈ (w.checkPolicy s).2.chain, p.Discreet :=
    PolicyChain.checkFrom_discreet hdiscreet
  have hat := PolicyChain.checkFrom_at s w.clock 0 hdiscreet hpolicy
  rw [Nat.zero_add] at hat
  rcases hat with ⟨-, hsame, hhooks⟩ | ⟨clock, -, -, hnew, -, hhooks⟩
  · exact ⟨⟨⟨l, hsame, hl⟩, hdiscreet'⟩, fun k t hk => absurd hk (hhooks k t)⟩
  obtain ⟨l', hleft, hsuffix, hread⟩ := Policy.check_command_read o l clock place s
  have hl' : ∀ r ∈ l', known r.keyName r.timestamp := fun r hr => hl r (hsuffix.subset hr)
  exact ⟨⟨⟨l', hnew.trans (congrArg some hleft), hl'⟩, hdiscreet'⟩,
    fun k t hk => hread k t ((hhooks k t).1 hk)⟩

/-- A command that is not before the clock and later than all that is known of its key is refused
only if it is too far ahead. The first policy of a chain is always asked. -/
theorem answer (h : w.Holds place o known) {now : Instant} (hclock : w.clock = .still now)
    {i : Interest} {k : Name} {t : UInt64} (hi : Policy.commandParts i = .ok (k, t))
    (hnow : now.toMillis ≤ t.toNat) (hlater : ∀ u, known k u → u < t) :
    (place ≠ 0 ∧ w.chain.answerAt (.interest i) w.clock 0 place = none) ∨
      w.chain.answerAt (.interest i) w.clock 0 place =
        some (if now.toMillis + o.graceMillis < t.toNat then Policy.outside k else .pass) := by
  obtain ⟨⟨l, hpolicy, hl⟩, hdiscreet⟩ := h
  have hfirst : place = 0 → w.chain.answerAt (.interest i) w.clock 0 place ≠ none := by
    rintro rfl
    cases hchain : w.chain with
    | nil =>
      rw [hchain] at hpolicy
      cases hpolicy
    | cons p rest => exact nofun
  rcases PolicyChain.checkFrom_at (.interest i) w.clock 0 hdiscreet hpolicy with
    ⟨hnone, -⟩ | ⟨clock, hread, hanswer, -⟩
  · exact .inl ⟨fun hplace => hfirst hplace hnone, hnone⟩
  right
  have hshows : ∀ n, clock.shows n = now := by
    obtain ⟨n, rfl⟩ := hread
    rw [hclock]
    exact fun _ => rfl
  have hrecords : ∀ r, (l.cleanUp o clock.now).find? k = some r → r.timestamp < t := by
    intro r hr
    obtain ⟨hmem, rfl⟩ := Records.find?_some hr
    exact hlater _ (hl r ((Records.cleanUp_suffix o clock.now l).subset hmem))
  have hnext : clock.next.now = now := hshows _
  rw [hanswer, Policy.check_readable hi, hnext]
  exact congrArg some (Policy.checkTimestamp_of_later hnow hrecords _)

theorem record (h : w.Holds place o known) {q : Nat} {k : Name} {t : UInt64}
    (hk : q = place → known k t) : (w.record q k t).Holds place o known := by
  obtain ⟨⟨l, hpolicy, hl⟩, hdiscreet⟩ := h
  have hdiscreet' : ∀ p ∈ (w.record q k t).chain, p.Discreet :=
    PolicyChain.modify_discreet hdiscreet (fun _ => Policy.record_discreet) _
  refine ⟨?_, hdiscreet'⟩
  by_cases hq : q = place
  · subst hq
    refine ⟨l.insert k t w.now, ?_, ?_⟩
    · show (w.chain.modify q _)[q]? = _
      rw [List.getElem?_modify_eq, hpolicy]
      rfl
    · intro r hr
      rcases Records.of_mem_insert hr with hr | rfl
      · exact hl r hr
      · exact hk rfl
  · refine ⟨l, ?_, hl⟩
    rw [← hpolicy]
    exact List.getElem?_modify_ne _ _ hq

theorem hooks (h : w.Holds place o known) (n : Name) {hooks : List Hook}
    (hk : ∀ k t, .record place k t ∈ hooks → known k t) :
    (hooks.foldl (Scene.afterHook n) w).Holds place o known := by
  induction hooks generalizing w with
  | nil => exact h
  | cons hook rest ih =>
    have hrest : ∀ k t, .record place k t ∈ rest → known k t := fun k t hmem =>
      hk k t (List.mem_cons_of_mem _ hmem)
    cases hook with
    | call label fails => exact ih (h.of_chain rfl) hrest
    | record q k t =>
      refine ih (h.record ?_) hrest
      rintro rfl
      exact hk k t List.mem_cons_self

end Holds

end World

namespace Course

open Scene Validator

variable {place : Nat} {o : CommandOptions} {known : Name → UInt64 → Prop} {v : Validator}
  {env : Environment} {p : Packet} {start s s' : Scene} {moves : List Move} {notices : List Notice}
  {stage stage' : Stage}

/-- What a session of a packet has to record with the policy is known. -/
structure Guarded (place : Nat) (o : CommandOptions) (known : Name → UInt64 → Prop) (p : Packet)
    (s : Scene) : Prop where
  packet : s.session.packet = p
  holds : s.world.Holds place o known
  left : ∀ k t, .record place k t ∈ s.session.hooks → known k t

namespace Guarded

theorem ask (h : Guarded place o known p s)
    (hp : ∀ k t, p.subject.command? = some (k, t) → known k t) {subject : Subject}
    (hsubject : subject = p.subject ∨ ∃ c, subject = .certificate c) {verdict : Verdict}
    (ha : ask subject s = .ok verdict s') : Guarded place o known p s' := by
  obtain ⟨-, hw, hs⟩ := ask_ok ha
  obtain ⟨hholds, hhooks⟩ := h.holds.checkPolicy subject
  refine ⟨?_, hw ▸ hholds, ?_⟩
  · rw [hs]
    exact h.packet
  · intro k t hk
    rw [hs] at hk
    rcases List.mem_append.1 hk with hk | hk
    · exact h.left k t hk
    · have hread := hhooks k t hk
      rcases hsubject with rfl | ⟨c, rfl⟩
      · exact hp k t hread
      · cases hread

theorem fail (h : Guarded place o known p s) {e : ValidationError} (hf : fail e s = .ok () s') :
    Guarded place o known p s' := by
  rw [fail_of_none e (fail_ok hf).1] at hf
  cases hf
  exact ⟨h.packet, h.holds.of_chain rfl, h.left⟩

theorem succeed (h : Guarded place o known p s) (hd : succeed s = .ok () s') :
    Guarded place o known p s' := by
  obtain ⟨-, hs, events, hw⟩ := succeed_ok hd
  have hholds : World.Holds place o known { s.world with events } := h.holds.of_chain rfl
  refine ⟨?_, hw ▸ hholds.hooks _ h.left, ?_⟩
  · rw [hs]
    exact h.packet
  · rw [hs]
    exact nofun

theorem conclude (h : Guarded place o known p s) {trusted : Certificate}
    (hc : v.conclude trusted s = .ok () s') : Guarded place o known p s' := by
  obtain ⟨b, calls, t, part, -, -, -, ht, rfl⟩ := Validator.concluded hc
  have hbegun :
      Guarded place o known p ⟨{ s.session with chain := part }, { s.world with calls }⟩ :=
    ⟨h.packet, h.holds.of_chain rfl, h.left⟩
  have hreported : Guarded place o known p t := by
    cases ht with
    | success ht => exact hbegun.succeed ht
    | failure ht => exact hbegun.fail ht
  obtain ⟨hpacket, hholds, hleft⟩ := hreported
  exact ⟨hpacket, hholds.of_chain (World.chain_foldl_cacheVerified part t.world), hleft⟩

theorem of_world (h : Guarded place o known p s) {session : Session} {w : World}
    (hpacket : session.packet = s.session.packet) (hhooks : session.hooks = s.session.hooks)
    (hw : w.Holds place o known) : Guarded place o known p ⟨session, w⟩ :=
  ⟨hpacket.trans h.packet, hw, fun k t hk => h.left k t (hhooks ▸ hk)⟩

end Guarded

/-- In no step a session leaves anything to be recorded, or records it, but what was read off its
packet. -/
theorem Step.guarded (h : Step v env stage s notices stage' s')
    (henv : env.Keeps (World.Holds place o known))
    (hp : ∀ k t, p.subject.command? = some (k, t) → known k t) (hs : Guarded place o known p s) :
    Guarded place o known p s' := by
  have htick : Guarded place o known p (tick s) := ⟨hs.packet, hs.holds.of_chain rfl, hs.left⟩
  have hown : s.session.packet.subject = p.subject := congrArg Packet.subject hs.packet
  cases h with
  | bypass asked done => exact (hs.ask hp (.inl hown) asked).succeed done
  | refuse asked against done => exact (hs.ask hp (.inl hown) asked).fail done
  | require asked => exact hs.ask hp (.inl hown) asked
  | stop limit done => exact hs.fail done
  | @conclude _ _ _ r c room new found done =>
    obtain ⟨w, hw, rfl⟩ := Act.within_ok found
    obtain ⟨seen, hseen⟩ := addSeen_eq s.session r.name
    have hholds := hs.holds.of_chain (World.findTrusted_ok hw).2
    refine Guarded.conclude (hs.of_world ?_ ?_ hholds) done <;> rw [hseen]
  | @fetch _ _ r progress w' room new missing begun =>
    obtain ⟨w, hw, rfl⟩ := Act.within_ok missing
    obtain ⟨seen, hseen⟩ := addSeen_eq s.session r.name
    have hholds := henv.begins begun (hs.holds.of_chain (World.findTrusted_ok hw).2)
    refine hs.of_world ?_ ?_ hholds <;> rw [hseen]
  | resume resumed => exact hs.of_world rfl rfl (henv.resumes resumed hs.holds)
  | give done => exact hs.fail done
  | expire invalid done => exact htick.fail done
  | @takeIn _ t _ _ c valid asked =>
    have hasked := htick.ask hp (.inr ⟨c, rfl⟩) asked
    obtain ⟨seen, hseen⟩ := addSeen_eq t.session c.name
    refine hasked.of_world ?_ ?_ hasked.holds <;>
    · unfold Session.addCertificate
      rw [hseen]
  | dismiss valid asked against done => exact (htick.ask hp (.inr ⟨_, rfl⟩) asked).fail done

theorem Trail.guarded (h : Trail v env start moves stage s)
    (henv : env.Keeps (World.Holds place o known))
    (hp : ∀ k t, p.subject.command? = some (k, t) → known k t)
    (hs : Guarded place o known p start) : Guarded place o known p s := by
  induction h with
  | start => exact hs
  | step _ hstep ih => exact hstep.guarded henv hp ih
  | disturb _ hw ih => exact ih.of_world rfl rfl (henv.disturbs hw ih.holds)

theorem Trail.first_keeps {good : World → Prop} (h : Trail v env start moves stage s)
    (henv : env.Keeps good) (hs : good start.world) :
    (moves = [] → good s.world) ∧ ∀ first, moves.head? = some first → good first.before.world := by
  induction h with
  | start => exact ⟨fun _ => hs, by simp⟩
  | @step moves notices stage stage' s s' _ _ ih =>
    obtain ⟨hnone, hfirst⟩ := ih
    refine ⟨by simp, fun first hhead => ?_⟩
    cases moves with
    | nil =>
      cases hhead
      exact hnone rfl
    | cons m more => exact hfirst first hhead
  | disturb _ hw ih => exact ⟨fun hnil => henv.disturbs hw (ih.1 hnil), ih.2⟩

theorem keeps_holds {answers : Interest → Response → Prop} {disturbs : World → World → Prop}
    (hdisturbs : ∀ w w', disturbs w w' → w.Holds place o known → w'.Holds place o known) :
    (environment v answers disturbs).Keeps (World.Holds place o known) :=
  keeps_of_restocked (fun _ _ h hholds => hholds.of_chain h.chain) hdisturbs

end Course

namespace Commands

open Course

/-- A command that a policy saw, and what the policy answered, if it was asked. -/
structure Sighting where
  now : Instant
  interest : Interest
  answer : Option Verdict

/-- Of all Interests, the policy at a place of the chain sees these commands alone, one after the
other, each validated to its end. It is asked about each while the clock stands; before and after
that, the clock may show anything. -/
inductive Sees (place : Nat) (w₀ : World) : List Sighting → World → Prop
  | start : Sees place w₀ [] w₀
  | session {seen : List Sighting} {w : World} {v : Validator} {env : Environment}
      {onSuccess onFailure : Option Callback} {i : Interest} {now : Instant} {first : Move}
      {moves : List Move} {s : Scene} :
      Sees place w₀ seen w →
      Trail v env ⟨{ packet := .interest i, onSuccess, onFailure }, w⟩ (first :: moves) .ended s →
      (∀ o known, env.Keeps (World.Holds place o known)) →
      first.before.world.clock = .still now →
      Sees place w₀ (seen ++ [⟨now, i, first.before.world.chain.answerAt (.interest i)
        first.before.world.clock 0 place⟩]) s.world
  /-- Between two sessions others act, and may have old records dropped. -/
  | between {seen : List Sighting} {w w' : World} : Sees place w₀ seen w →
      (∀ o known, w.Holds place o known → w'.Holds place o known) → Sees place w₀ seen w'

/-- The same, where a validator starts a session for each command and resumes it to its end. -/
inductive Validates (place : Nat) (w₀ : World) : List Sighting → World → Prop
  | start : Validates place w₀ [] w₀
  | session {seen : List Sighting} {w : World} {v : Validator}
      {answers : Interest → Response → Prop}
      {disturbs : World → World → Prop} {onSuccess onFailure : Option Callback} {i : Interest}
      {now : Instant} {s : Scene} :
      Validates place w₀ seen w → w.clock = .still now →
      Drives v answers disturbs ⟨{ packet := .interest i, onSuccess, onFailure }, w⟩ .ended s →
      (∀ o known w w', disturbs w w' → w.Holds place o known → w'.Holds place o known) →
      Validates place w₀ (seen ++ [⟨now, i, w.chain.answerAt (.interest i) w.clock 0 place⟩])
        s.world
  | between {seen : List Sighting} {w w' : World} : Validates place w₀ seen w →
      (∀ o known, w.Holds place o known → w'.Holds place o known) → Validates place w₀ seen w'

variable {place : Nat} {o : CommandOptions} {w₀ w : World} {seen : List Sighting} {key : Name}

theorem Validates.sees (h : Validates place w₀ seen w) : Sees place w₀ seen w := by
  induction h with
  | start => exact .start
  | session _ hclock hdrives hdisturbs ih =>
    obtain ⟨first, moves, stage, htrail, hfirst, hstage⟩ := hdrives.trail_from_start
    obtain rfl := hstage.ended
    have hnext := ih.session htrail (fun o known => keeps_holds (hdisturbs o known))
      (by rw [hfirst]; exact hclock)
    rwa [hfirst] at hnext
  | between _ hkeeps ih => exact ih.between hkeeps

def Seen (seen : List Sighting) (k : Name) (t : UInt64) : Prop :=
  ∃ x ∈ seen, Policy.commandParts x.interest = .ok (k, t)

/-- Of the commands that it saw, the policy records the timestamps and nothing else. -/
theorem Sees.holds (h : Sees place w₀ seen w) (h₀ : w₀.Holds place o fun _ _ => False) :
    w.Holds place o (Seen seen) := by
  induction h with
  | start => exact h₀.mono nofun
  | @session seen w v env onSuccess onFailure i now first moves s _ trail henv hclock ih =>
    have hseen : ∀ k t, Seen seen k t → Seen (seen ++ [⟨now, i, first.before.world.chain.answerAt
        (.interest i) first.before.world.clock 0 place⟩]) k t := by
      rintro k t ⟨x, hx, ht⟩
      exact ⟨x, List.mem_append_left _ hx, ht⟩
    refine (trail.guarded (p := .interest i) (henv o _) ?_ ⟨rfl, ih.mono hseen, nofun⟩).holds
    intro k t ht
    exact ⟨_, List.mem_append_right _ List.mem_cons_self, Subject.commandParts_of_command? ht⟩
  | between _ hkeeps ih => exact hkeeps o _ ih

/-- The answer to a command is that of the grace period alone. The first policy of a chain always
answers. -/
def Sighting.Graced (place : Nat) (o : CommandOptions) (x : Sighting) : Prop :=
  ∀ k t, Policy.commandParts x.interest = .ok (k, t) → (place ≠ 0 ∧ x.answer = none) ∨
    x.answer = some (if x.now.toMillis + o.graceMillis < t.toNat then Policy.outside k else .pass)

/-- If timestamps rise and are not before the clock, none is out of order. -/
theorem Sees.graced (h : Sees place w₀ seen w) (h₀ : w₀.Holds place o fun _ _ => False)
    (hclock : ∀ x ∈ seen, ∀ k t, Policy.commandParts x.interest = .ok (k, t) →
      x.now.toMillis ≤ t.toNat)
    (hrise : seen.Pairwise fun x y => ∀ k t u, Policy.commandParts x.interest = .ok (k, t) →
      Policy.commandParts y.interest = .ok (k, u) → t < u) :
    ∀ x ∈ seen, x.Graced place o := by
  induction h with
  | start => exact List.forall_mem_nil _
  | @session seen w v env onSuccess onFailure i now first moves s hsees trail henv hstill ih =>
    obtain ⟨hclock, hnow⟩ := List.forall_mem_append.1 hclock
    obtain ⟨hrise, -, hlater⟩ := List.pairwise_append.1 hrise
    rw [List.forall_mem_append, List.forall_mem_singleton]
    refine ⟨ih hclock hrise, ?_⟩
    intro k t ht
    -- What the policy knows was read off the commands seen before, and all of them are earlier.
    have hfirst : first.before.world.Holds place o (Seen seen) :=
      (trail.first_keeps (henv o _) (hsees.holds h₀)).2 first rfl
    refine hfirst.answer hstill ht (hnow _ List.mem_cons_self k t ht) ?_
    rintro u ⟨x, hx, hu⟩
    exact hlater x hx _ List.mem_cons_self k u t hu ht
  | between _ _ ih => exact ih hclock hrise

section

variable {l : Records}

/-- The policy on commands refuses a command, or the next policy accepts it. -/
theorem checkPolicy_of_trusting (hchain : w.chain = [.command o l, .acceptAll]) (i : Interest) :
    (∃ l', (w.checkPolicy (.interest i)).2.chain = [.command o l', .acceptAll]) ∧
      ((w.checkPolicy (.interest i)).1.1 = .accept ∨
        ∃ e, (w.checkPolicy (.interest i)).1.1 = .reject e) := by
  obtain ⟨verdict, hooks, l', clock, hcheck, hverdict⟩ :=
    Policy.check_command o l w.clock 0 (.interest i)
  unfold World.checkPolicy PolicyChain.check
  rw [hchain]
  rcases hverdict with rfl | ⟨e, rfl⟩
  · rw [PolicyChain.checkFrom_of_pass (congrArg (·.1.1) hcheck), hcheck]
    exact ⟨⟨l', rfl⟩, .inl rfl⟩
  · rw [PolicyChain.checkFrom_of_ne_pass (by rw [hcheck]; exact nofun), hcheck]
    exact ⟨⟨l', rfl⟩, .inr ⟨e, rfl⟩⟩

theorem hooks_of_trusting (hchain : w.chain = [.command o l, .acceptAll]) (n : Name)
    (hooks : List Hook) :
    ∃ l', (hooks.foldl (Scene.afterHook n) w).chain = [.command o l', .acceptAll] := by
  induction hooks generalizing w l with
  | nil => exact ⟨l, hchain⟩
  | cons hook rest ih =>
    cases hook with
    | call label fails => exact ih (w := w.emit (.hook label n)) hchain
    | record q k t =>
      have hrecorded : (w.record q k t).chain =
          [Policy.command o l, .acceptAll].modify q fun p => p.record k t w.now := by
        rw [← hchain]
        rfl
      match q with
      | 0 => exact ih (l := l.insert k t w.now) hrecorded
      | 1 => exact ih (l := l) hrecorded
      | q + 2 =>
        have hbeyond : [Policy.command o l, .acceptAll].length ≤ q + 2 := Nat.le_add_left 2 q
        rw [List.modify_eq_self hbeyond] at hrecorded
        exact ih hrecorded

theorem step_of_trusting (v : Validator) (env : Environment) {s : Scene} {i : Interest}
    (hpacket : s.session.packet = .interest i) (hpending : s.session.outcome = none)
    (hchain : s.world.chain = [.command o l, .acceptAll]) :
    ∃ notices s' l', Step v env .opening s notices .ended s' ∧
      s'.world.chain = [.command o l', .acceptAll] := by
  obtain ⟨⟨l', hleft⟩, hverdict⟩ := checkPolicy_of_trusting hchain i
  obtain ⟨t, ht, htpending, htchain⟩ : ∃ t : Scene,
      Validator.ask s.session.packet.subject s =
        .ok (s.world.checkPolicy (.interest i)).1.1 t ∧
      t.session.outcome = none ∧ t.world.chain = [.command o l', .acceptAll] := by
    rw [hpacket]
    exact ⟨_, Validator.ask_of_interest (.interest i) hpacket, hpending, hleft⟩
  rcases hverdict with haccept | ⟨e, hreject⟩
  · rw [haccept] at ht
    have hdone := Scene.succeed_of_none htpending
    obtain ⟨-, -, events, hworld⟩ := Scene.succeed_ok hdone
    obtain ⟨l'', hended⟩ := hooks_of_trusting (w := { t.world with events }) htchain
      t.session.name t.session.hooks
    exact ⟨_, _, l'', .bypass ht hdone, (congrArg World.chain hworld).trans hended⟩
  · rw [hreject] at ht
    exact ⟨_, _, l', .refuse ht ⟨nofun, nofun⟩ (Scene.fail_of_none e htpending), htchain⟩

theorem exists_sees (v : Validator) (made : List (Instant × Interest)) (h : Sees 0 w₀ seen w)
    (hchain : w.chain = [.command o l, .acceptAll]) :
    ∃ more w', Sees 0 w₀ (seen ++ more) w' ∧
      more.map (fun x => (x.now, x.interest)) = made := by
  induction made generalizing seen w l with
  | nil => exact ⟨[], w, by rwa [List.append_nil], rfl⟩
  | cons x rest ih =>
    have hset : Sees 0 w₀ seen (w.setTime x.1) := h.between fun _ _ hholds => hholds.of_chain rfl
    obtain ⟨notices, s, l', hstep, hleft⟩ := step_of_trusting v (solitary v)
      (s := ⟨{ packet := .interest x.2 }, w.setTime x.1⟩) rfl rfl hchain
    have hnext := hset.session (Trail.start.step hstep)
      (fun _ _ => keeps_holds fun _ _ h => h.elim) rfl
    obtain ⟨more, w', hsees, hmore⟩ := ih hnext hleft
    rw [List.append_assoc] at hsees
    exact ⟨_, w', hsees, congrArg (x :: ·) hmore⟩

end

/-- The first policy of a chain is always asked, and answers by the timestamp that the signer put
in. -/
theorem Sighting.Graced.answer_makeAt {x : Sighting} (h : x.Graced 0 o) {s : CommandSigner}
    {name : Name} {t : UInt64} {nonce : Bytes} {packetNonce : UInt32}
    (hx : x.interest = s.makeAt name t nonce packetNonce) (hkey : s.signer.keyName.WellFormed)
    (hinfo : (s.signer.info none).encodeValue.length < 2 ^ 64) :
    x.answer = some (if x.now.toMillis + o.graceMillis < t.toNat then
      Policy.outside s.signer.keyName else .pass) := by
  have hparts : Policy.commandParts x.interest = .ok (s.signer.keyName, t) := by
    rw [hx]
    exact CommandSigner.commandParts_makeAt hkey hinfo name t nonce packetNonce
  exact (h _ t hparts).resolve_left fun hunasked => hunasked.1 rfl

/-- What a new signer makes is read as commands of its key, whose timestamps rise and are not before
the clock. -/
theorem makeAll_of_new {s : Signer} (hkey : s.keyName.WellFormed)
    (hlen : s.keyName.encode.length < 2 ^ 63) {occasions : List CommandSigner.Occasion}
    (hfew : occasions.length < 2 ^ 63) (hnow : ∀ c ∈ occasions, c.now.toMillis < 2 ^ 63) :
    (∀ x ∈ CommandSigner.makeAll ⟨s, none⟩ occasions,
      ∃ t, Policy.commandParts x.2 = .ok (s.keyName, t) ∧ x.1.toMillis ≤ t.toNat) ∧
    (CommandSigner.makeAll ⟨s, none⟩ occasions).Pairwise fun x y => ∀ k t u,
      Policy.commandParts x.2 = .ok (k, t) → Policy.commandParts y.2 = .ok (k, u) → t < u := by
  have hahead : CommandSigner.Ahead ⟨s, none⟩ 0 := by
    intro last hlast
    cases hlast
  have hcount : 0 + occasions.length < 2 ^ 63 := by rwa [Nat.zero_add]
  obtain ⟨hmade, hrise⟩ :=
    CommandSigner.makeAll_rises (s := ⟨s, none⟩) hkey (s.length_info_lt hlen) hahead hcount hnow
  refine ⟨fun x hx => ?_, hrise⟩
  obtain ⟨t, ht, hclock, -⟩ := hmade x hx
  exact ⟨t, ht, hclock⟩

theorem Sees.graced_of_made {made : List (Instant × Interest)} (h : Sees place w₀ seen w)
    (hpolicy : w₀.chain[place]? = some (.command o [])) (hdiscreet : ∀ p ∈ w₀.chain, p.Discreet)
    (hseen : seen.map (fun x => (x.now, x.interest)) = made)
    (hmade : ∀ x ∈ made, ∃ t, Policy.commandParts x.2 = .ok (key, t) ∧ x.1.toMillis ≤ t.toNat)
    (hrise : made.Pairwise fun x y => ∀ k t u, Policy.commandParts x.2 = .ok (k, t) →
      Policy.commandParts y.2 = .ok (k, u) → t < u) : ∀ x ∈ seen, x.Graced place o := by
  have hholds : w₀.Holds place o fun _ _ => False := ⟨⟨[], hpolicy, by simp⟩, hdiscreet⟩
  refine h.graced hholds ?_ ?_
  · intro x hx k t ht
    obtain ⟨t', ht', hclock⟩ := hmade (x.now, x.interest) (hseen ▸ List.mem_map_of_mem hx)
    cases ht.symm.trans ht'
    exact hclock
  · rw [← hseen, List.pairwise_map] at hrise
    exact hrise

/-- Whatever the clock shows when a signer makes its commands, their timestamps rise and are not
before it. A policy that sees these commands alone refuses just those whose timestamp is too far
ahead of the clock. -/
theorem commands_fit (s : Signer) (hkey : s.keyName.WellFormed)
    (hlen : s.keyName.encode.length < 2 ^ 63) {occasions : List CommandSigner.Occasion}
    (hfew : occasions.length < 2 ^ 63) (hnow : ∀ c ∈ occasions, c.now.toMillis < 2 ^ 63) :
    (∀ x ∈ CommandSigner.makeAll ⟨s, none⟩ occasions,
      ∃ t, Policy.commandParts x.2 = .ok (s.keyName, t) ∧ x.1.toMillis ≤ t.toNat) ∧
    ((CommandSigner.makeAll ⟨s, none⟩ occasions).Pairwise fun x y => ∀ k t u,
      Policy.commandParts x.2 = .ok (k, t) → Policy.commandParts y.2 = .ok (k, u) → t < u) ∧
    ∀ place o w₀ w seen, w₀.chain[place]? = some (.command o []) →
      (∀ p ∈ w₀.chain, p.Discreet) → Sees place w₀ seen w →
      seen.map (fun x => (x.now, x.interest)) = CommandSigner.makeAll ⟨s, none⟩ occasions →
      ∀ x ∈ seen, x.Graced place o := by
  obtain ⟨hmade, hrise⟩ := makeAll_of_new hkey hlen hfew hnow
  refine ⟨hmade, hrise, ?_⟩
  intro place o w₀ w seen hpolicy hdiscreet hsees hseen
  exact hsees.graced_of_made hpolicy hdiscreet hseen hmade hrise

/-- The same of sessions that a validator starts and resumes. -/
theorem Validates.graced_of_makeAll (h : Validates place w₀ seen w) {s : Signer}
    (hkey : s.keyName.WellFormed) (hlen : s.keyName.encode.length < 2 ^ 63)
    {occasions : List CommandSigner.Occasion} (hfew : occasions.length < 2 ^ 63)
    (hnow : ∀ c ∈ occasions, c.now.toMillis < 2 ^ 63)
    (hpolicy : w₀.chain[place]? = some (.command o [])) (hdiscreet : ∀ p ∈ w₀.chain, p.Discreet)
    (hseen : seen.map (fun x => (x.now, x.interest)) = CommandSigner.makeAll ⟨s, none⟩ occasions) :
    ∀ x ∈ seen, x.Graced place o := by
  obtain ⟨hmade, hrise⟩ := makeAll_of_new hkey hlen hfew hnow
  exact h.sees.graced_of_made hpolicy hdiscreet hseen hmade hrise

namespace Sample

def target : Name := ⟨[.generic [97]]⟩

/-- A second before 1970, then at its beginning, and then back by half a second. -/
def occasions : List CommandSigner.Occasion :=
  [⟨⟨-1, 0⟩, target, [1], 1⟩, ⟨⟨0, 0⟩, target, [2], 2⟩, ⟨⟨-1, 500000000⟩, target, [3], 3⟩]

def made : List (Instant × Interest) :=
  CommandSigner.makeAll ⟨Signer.Sample.keyed, none⟩ occasions

/-- No record outlives the next command, and nine tenths of a second are the grace. -/
def options : CommandOptions := { gracePeriod := 900, maxRecords := some 0 }

def world : World := { clock := .still ⟨0, 0⟩, chain := [.command options [], .acceptAll] }

theorem made_eq : made =
    [(⟨-1, 0⟩, CommandSigner.makeAt ⟨Signer.Sample.keyed, none⟩ target 0 [1] 1),
      (⟨0, 0⟩, CommandSigner.makeAt ⟨Signer.Sample.keyed, some 0⟩ target 1 [2] 2),
      (⟨-1, 500000000⟩, CommandSigner.makeAt ⟨Signer.Sample.keyed, some 1⟩ target 2 [3] 3)] := by
  rfl

end Sample

/-- The timestamps are 0, 1 and 2, and only the first is too far ahead of the clock. -/
theorem commands_fit_sample :
    Signer.Sample.keyed.keyName.WellFormed ∧ Signer.Sample.keyed.keyName.encode.length < 2 ^ 63 ∧
      Sample.occasions.length < 2 ^ 63 ∧ (∀ c ∈ Sample.occasions, c.now.toMillis < 2 ^ 63) ∧
      ∃ x y z w, Sees 0 Sample.world [x, y, z] w ∧
        [x, y, z].map (fun x => (x.now, x.interest)) = Sample.made ∧
        x.answer = some (Policy.outside Signer.Sample.keyed.keyName) ∧
        y.answer = some .pass ∧ z.answer = some .pass := by
  have hkey : Signer.Sample.keyed.keyName.WellFormed := by
    intro c hc
    rw [List.mem_singleton.1 hc]
    exact Component.check_eq_ok_iff.1 rfl
  have hlen : Signer.Sample.keyed.keyName.encode.length < 2 ^ 63 := by decide
  have hfew : Sample.occasions.length < 2 ^ 63 := by decide
  have hnow : ∀ c ∈ Sample.occasions, c.now.toMillis < 2 ^ 63 := by decide
  obtain ⟨-, -, hgraced⟩ := commands_fit Signer.Sample.keyed hkey hlen hfew hnow
  have hdiscreet : ∀ p ∈ Sample.world.chain, p.Discreet := by
    simp [Sample.world, Policy.Discreet]
  have hstart : Sees 0 Sample.world [] Sample.world := .start
  obtain ⟨seen, w, hsees, hseen⟩ :=
    exists_sees (o := Sample.options) Sample.validator Sample.made hstart rfl
  have hanswers := hgraced 0 Sample.options Sample.world w seen rfl hdiscreet hsees hseen
  have hlist := hseen.trans Sample.made_eq
  obtain ⟨x, rest, rfl, hx, hrest⟩ := List.map_eq_cons_iff.1 hlist
  obtain ⟨y, rest, rfl, hy, hrest⟩ := List.map_eq_cons_iff.1 hrest
  obtain ⟨z, rest, rfl, hz, hrest⟩ := List.map_eq_cons_iff.1 hrest
  obtain rfl := List.map_eq_nil_iff.1 hrest
  obtain ⟨hxnow, hxmade⟩ := Prod.mk.inj hx
  obtain ⟨hynow, hymade⟩ := Prod.mk.inj hy
  obtain ⟨hznow, hzmade⟩ := Prod.mk.inj hz
  have hinfo := Signer.Sample.keyed.length_info_lt hlen
  have hxanswer := (hanswers x (by simp)).answer_makeAt hxmade hkey hinfo
  have hyanswer := (hanswers y (by simp)).answer_makeAt hymade hkey hinfo
  have hzanswer := (hanswers z (by simp)).answer_makeAt hzmade hkey hinfo
  rw [hxnow, if_pos (by decide)] at hxanswer
  rw [hynow, if_neg (by decide)] at hyanswer
  rw [hznow, if_neg (by decide)] at hzanswer
  exact ⟨hkey, hlen, hfew, hnow, x, y, z, w, hsees, hseen, hxanswer, hyanswer, hzanswer⟩

end Commands

end PacketTrust
