import PacketTrust.Proofs.Time.Clock
import PacketTrust.Proofs.Validation.Alike

/-! Verified certificates are used again. A packet that was found valid leaves the certificate
of its key among the verified ones, and from then on packets with this key are checked by it at
once. -/

namespace PacketTrust

open Completeness Course Validator Scene

/-- At a moment the certificate stands among the anchors or the verified ones, under a name that
begins with a key. -/
def World.Trusts (t : Instant) (k : Name) (w : World) (c : Certificate) : Prop :=
  (∃ e ∈ ((Anchors.refresh w.disk t).left w.storage.anchors).index.entries,
    e.1.startsWith k ∧ e.2.certificate = c) ∨
  ∃ e ∈ (w.storage.verified.refresh t).entries.entries, e.1.startsWith k ∧ e.2.certificate = c

namespace World

variable {t : Instant} {k : Name} {w w' : World} {c : Certificate} {chain : List Certificate}

/-- What a search for a key finds is trusted. -/
theorem trusts_of_findTrusted (hshows : ∀ n, w.clock.shows n = t)
    (h : findTrusted (CertificateRequest.ofName k).interest w = .ok (some c) w') :
    w.Trusts t k c := by
  have hnow : w.now = t := hshows _
  have hnext : w.clock.next.now = t := hshows _
  rcases Anchors.refresh_cases w.disk w.now w.storage.anchors with
    ⟨anchors, hrefresh, -⟩ | ⟨⟨anchors, hfault⟩, -⟩
  · rw [findTrusted_of_refresh hrefresh, hnext] at h
    rw [hnow] at hrefresh
    cases hanswer : anchors.answer (CertificateRequest.ofName k).interest with
    | some d =>
      rw [hanswer] at h
      cases h
      obtain ⟨e, he, hk, rfl, -⟩ := Anchors.answer_under hanswer
      left
      rw [Act.left_of_ok hrefresh]
      exact ⟨e, he, hk, rfl⟩
    | none =>
      rw [hanswer] at h
      injection h with hanswer
      obtain ⟨e, he, hk, rfl, -⟩ := Cache.answer_under hanswer
      exact .inr ⟨e, he, hk, rfl⟩
  · rw [findTrusted_of_fault hfault] at h
    cases h

theorem exists_findTrusted (hshows : ∀ n, w.clock.shows n = t) (hfresh : w.Fresh t)
    (h : w.Trusts t k c) (hk : c.name.startsWith k) :
    ∃ c' w', findTrusted (CertificateRequest.ofName k).interest w = .ok (some c') w' := by
  have hnow : w.now = t := hshows _
  have hnext : w.clock.next.now = t := hshows _
  have hmatches : (CertificateRequest.ofName k).interest.matchesData c.data :=
    CertificateRequest.matches_of_startsWith hk
  unfold Fresh at hfresh
  rw [Trusts, Act.left_of_ok hfresh] at h
  rw [← hnow] at hfresh
  rw [findTrusted_of_refresh hfresh, hnext]
  cases hanswer : w.storage.anchors.answer (CertificateRequest.ofName k).interest with
  | some d => exact ⟨d, _, rfl⟩
  | none =>
    rcases h with ⟨e, he, hstarts, rfl⟩ | ⟨e, he, hstarts, rfl⟩
    · obtain ⟨d, hsome⟩ := Anchors.exists_answer
        (i := (CertificateRequest.ofName k).interest) he hstarts hmatches
      cases hsome.symm.trans hanswer
    · obtain ⟨d, hsome⟩ := Cache.exists_answer
        (i := (CertificateRequest.ofName k).interest) he hstarts hmatches
      rw [hsome]
      exact ⟨_, _, rfl⟩

theorem fold_cacheVerified (chain : List Certificate) (w : World) : ∃ readings verified,
    verified.lifetime = w.storage.verified.lifetime ∧ chain.foldl cacheVerified w =
      { w with clock.readings := readings, storage.verified := verified } := by
  induction chain generalizing w with
  | nil => exact ⟨_, _, rfl, rfl⟩
  | cons c rest ih =>
    obtain ⟨readings, verified, hlifetime, hrest⟩ := ih (w.cacheVerified c)
    have hinsert := Cache.lifetime_insert w.storage.verified w.now c
    rw [List.foldl_cons, hrest]
    exact ⟨readings, verified, hlifetime.trans hinsert, rfl⟩

/-- A valid certificate that was just verified is trusted, unless the span that it is kept for is
over already. -/
theorem trusts_cacheVerified (hnow : w.now = t)
    (hspan : 0 ≤ w.storage.verified.lifetime.nanoseconds)
    (hvalid : c.ValidAt t) (hk : c.name.startsWith k) : (w.cacheVerified c).Trusts t k c := by
  let removal := Cache.removalTime w.storage.verified.lifetime t c
  have hstays : t ≤ removal := by
    unfold removal Cache.removalTime
    split
    · rename_i limit hlimit
      unfold Instant.min
      split
      · exact Instant.le_of_add? hlimit hspan
      · exact hvalid.2
    · exact hvalid.2
  refine .inr ⟨(c.name, ⟨c, removal⟩), ?_, hk, rfl⟩
  rw [Cache.entries_refresh, entries_cacheVerified hnow hvalid]
  exact List.mem_filter.2 ⟨NameMap.mem_insert_self _ _ _, decide_eq_true hstays⟩

end World

namespace Reuse

def told (v : Verifier) (call : Nat) (d : Data) (signer : Certificate) : Event :=
  if (v.checkData call d signer).1 then .success d.name
  else .failure d.name
    ⟨.invalidSignature, s!"Invalid signature of {(Packet.data d).kind} `{d.name.uri}`"⟩

theorem told_of_steady {v : Verifier} {call call' : Nat} {d : Data} {signer : Certificate}
    (h : (v.checkData call d signer).1 = (v.checkData call' d signer).1) :
    told v call d signer = told v call' d signer := by
  rw [told, told, h]

/-- A check that needs a certificate of a key finds none at first, and retrieves this one. -/
def Fetched (v : Validator) (k : Name) (around : Surroundings) (c : Certificate) : Prop :=
  ∃ w, World.findTrusted (CertificateRequest.ofName k).interest { around.world with events := [] } =
      .ok none w ∧
    (Run.fetch v.fetcher (v.fetcher.fetch (.ofName k)) ⟨w, around.network⟩).1 = .ok (.ok c)

/-- Given enough fuel, a check of a packet tells a finding and leaves these surroundings. -/
def Checks (v : Validator) (d : Data) (around : Surroundings) (finding : Finding)
    (after : Surroundings) : Prop :=
  ∃ N, ∀ fuel ≥ N, Run.check v fuel (.data d) around = (.ok finding, after)

section

variable {v : Validator} {t : Instant} {span : Span} {k : Name} {p d : Data} {w : World}
  {n : Network} {task : Task} {final after : Surroundings} {c : Certificate} {g : Verge} {s : Scene}

theorem verifyPacket_told (v : Verifier) (signer : Certificate) (d : Data) (got : List Certificate)
    (seen : List Name) (w : World) : ∃ s,
      verifyPacket v signer ⟨collecting d got seen, w⟩ = .ok () s ∧
      s.session.chain = got ∧
      s.world = { w with calls := w.calls + 1, events := w.events ++
        [told v w.calls d signer] } := by
  have hpacket : packetVerified v signer ⟨collecting d got seen, w⟩ =
      .ok (v.checkData w.calls d signer).1
        ⟨collecting d got seen, { w with calls := w.calls + 1 }⟩ := rfl
  rw [verifyPacket, Act.bind_of_ok hpacket, told]
  split
  · exact ⟨_, succeed_of_none rfl, rfl, rfl⟩
  · rw [Act.get_bind]
    exact ⟨_, fail_of_none _ rfl, rfl, rfl⟩

/-- Behind a chain that is accepted it is told what the signature of the packet tells. -/
theorem conclude_told (h : v.verifier.AcceptsChain g.world.calls g.trusted g.got) (d : Data) :
    ∃ s, v.conclude g.trusted (g.scene d) = .ok () s ∧
      s.world = g.got.foldl World.cacheVerified { g.world with
        calls := g.world.calls + g.got.length + 1
        events := g.world.events ++
          [told v.verifier (g.world.calls + g.got.length) d (g.got.getLastD g.trusted)] } := by
  have hverify : verifyChain v.verifier g.trusted (g.scene d) =
      .ok (some (g.got.getLastD g.trusted))
        { g.scene d with world.calls := g.world.calls + g.got.length } := by
    rw [verifyChain, Act.get_bind]
    rcases verifyFrom_of_none v.verifier g.trusted [] g.got (s := g.scene d) rfl with
      ⟨-, hok⟩ | ⟨hrefused, -⟩
    · exact hok
    · exact absurd h hrefused
  obtain ⟨s, hs, hchain, hworld⟩ := verifyPacket_told v.verifier (g.got.getLastD g.trusted) d g.got
    g.seen { g.world with calls := g.world.calls + g.got.length }
  refine ⟨⟨{ s.session with chain := [] }, g.got.foldl World.cacheVerified s.world⟩, ?_, ?_⟩
  · rw [conclude, Act.bind_of_ok hverify]
    dsimp only
    have hpacket : verifyPacket v.verifier (g.got.getLastD g.trusted)
        { g.scene d with world.calls := g.world.calls + g.got.length } = .ok () s := hs
    rw [Act.bind_of_ok hpacket, Act.get_bind, hchain]
    rfl
  · rw [hworld]

/-- Where the session of a packet does not fail, the verifier has accepted the whole chain. -/
theorem acceptsChain_of_conclude (hready : g.Ready t span)
    (h : v.conclude g.trusted (g.scene p) = .ok () s)
    (hkept : ∀ e, s.world.events ≠ [.failure p.name e]) :
    v.verifier.AcceptsChain g.world.calls g.trusted g.got := by
  obtain ⟨b, calls, s', part, -, -, hb, hreports, rfl⟩ := concluded h
  cases hreports with
  | success hs => exact (hb.1 rfl).1
  | @failure _ _ e hfail =>
    rw [fail_of_none e rfl] at hfail
    cases hfail
    refine absurd ?_ (hkept e)
    refine (events_cacheVerified part _).trans ?_
    change g.world.events ++ [.failure p.name e] = _
    rw [hready.quiet.events]
    rfl

/-- A packet whose key may sign it leads to the search for a certificate of the key. -/
theorem start_of_permitted (hw : w.Quiet t span) (hk : d.signature.info.keyName = .ok k)
    (hd : d.name.startsWith (k.take (-2))) :
    v.start ⟨{ packet := .data d }, w⟩ =
      v.pursue v.maxDepth (.ofName k) ⟨collecting d [] [], w⟩ := by
  have hask := ask_of_permitted hw.policies (.data d) hk hd (collecting d [] [])
  rw [Validator.start, Act.get_bind]
  exact Act.bind_of_ok hask

theorem start_of_refused (t : Instant) (span : Span) (v : Validator)
    (hk : d.signature.info.keyName = .ok k) (hd : ¬ d.name.startsWith (k.take (-2))) :
    ∃ e, ∀ w : World, w.Quiet t span → ∃ s, v.start ⟨{ packet := .data d }, w⟩ = .ok .ended s ∧
      s.world.events = [.failure d.name e] := by
  obtain ⟨e, hverdict⟩ : ∃ e, Policy.checkHierarchy (Subject.data d).kind (Subject.data d).name
      (Subject.data d).keyName = .reject e := by
    change ∃ e, Policy.checkHierarchy _ d.name d.signature.info.keyName = _
    rw [hk]
    exact ⟨_, if_neg hd⟩
  refine ⟨e, fun w hw => ?_⟩
  have hask := hw.ask (.data d) (collecting d [] [])
  rw [hverdict] at hask
  obtain ⟨s, hs, hevents⟩ := hw.fail e d [] []
  refine ⟨s, ?_, hevents⟩
  rw [Validator.start, Act.get_bind]
  exact (Act.bind_of_ok hask).trans (Act.bind_of_ok hs)

theorem Checks.unique {after' : Surroundings} {finding finding' : Finding}
    (h : Checks v d ⟨w, n⟩ finding after) (h' : Checks v d ⟨w, n⟩ finding' after') :
    finding' = finding ∧ after' = after := by
  obtain ⟨N, hN⟩ := h
  obtain ⟨M, hM⟩ := h'
  have hrun := hN (N + M) (Nat.le_add_right N M)
  rw [hM (N + M) (Nat.le_add_left M N)] at hrun
  cases hrun
  exact ⟨rfl, rfl⟩

/-- A session that ends on its way is what the check of its packet tells. -/
theorem checks_of_finishes
    (h : Finishes v (v.start ⟨{ packet := .data d }, { w with events := [] }⟩) n task final)
    (hfault : task.fault? = none) :
    Checks v d ⟨w, n⟩ (.ofEvents (.data d) final.world.events)
      { final with world.events := w.events } := by
  obtain ⟨N, hN⟩ := h.alone
  refine ⟨N, fun fuel hfuel => ?_⟩
  rw [Run.check]
  dsimp only
  rw [hN fuel hfuel]
  cases task with
  | faulted fault => cases hfault
  | _ => rfl

theorem agree_of_finishes {w' s s' : World} {ended ended' : Session} {m n' : Network}
    (hwarm : Finishes v (v.start ⟨{ packet := .data d }, { w' with events := [] }⟩) m
      (.ended ended') ⟨s', m⟩)
    (hcold : Finishes v (v.start ⟨{ packet := .data d }, { w with events := [] }⟩) n (.ended ended)
      ⟨s, n'⟩)
    (h : s.events = s'.events) : ∃ finding warm cold, Checks v d ⟨w', m⟩ finding warm ∧
      warm.network = m ∧ Checks v d ⟨w, n⟩ finding cold := by
  have hfirst := checks_of_finishes hcold rfl
  dsimp only at hfirst
  rw [h] at hfirst
  exact ⟨_, _, _, checks_of_finishes hwarm rfl, rfl, hfirst⟩

theorem Checks.kept (h : Checks v p ⟨w, n⟩ (.valid (.data p)) after) : ∃ task final,
    Finishes v (v.start ⟨{ packet := .data p }, { w with events := [] }⟩) n task final ∧
      Kept p task final ∧ after = { final with world.events := w.events } := by
  obtain ⟨task, final, hf, -⟩ :=
    Course.exists_finishes v { packet := .data p } rfl { w with events := [] } n
  obtain ⟨N, hN⟩ := h
  obtain ⟨M, hM⟩ := hf.alone
  have hcheck := hN (N + M) (Nat.le_add_right N M)
  rw [Run.check] at hcheck
  dsimp only at hcheck
  rw [hM (N + M) (Nat.le_add_left M N)] at hcheck
  refine ⟨task, final, hf, ?_⟩
  cases task with
  | faulted fault => cases hcheck
  | _ =>
    dsimp only at hcheck
    injection hcheck with hfinding hafter
    injection hfinding with hfinding
    refine ⟨⟨rfl, fun e he => ?_⟩, hafter.symm⟩
    rw [he] at hfinding
    cases hfinding

/-- From the request for a certificate that has to be retrieved, the sessions of all packets come to
a trusted certificate behind the one that is retrieved, if one of them is kept. -/
theorem exists_conclusion {w' : World} (hw : w.Quiet t span)
    (hmissing : World.findTrusted (CertificateRequest.ofName k).interest w = .ok none w')
    (hfetched : (Run.fetch v.fetcher (v.fetcher.fetch (.ofName k)) ⟨w', n⟩).1 = .ok (.ok c))
    (hf : Finishes v (v.pursue v.maxDepth (.ofName k) ⟨collecting p [] [], w⟩) n task final)
    (hkept : Kept p task final) : ∃ (g : Verge) (n' : Network), 0 < v.maxDepth ∧ c.ValidAt t ∧
      [c] <:+ g.got ∧ g.Ready t span ∧
      ∀ (d : Data) (s : Scene), v.conclude g.trusted (g.scene d) = .ok () s →
        Finishes v (v.pursue v.maxDepth (.ofName k) ⟨collecting d [] [], w⟩) n (.ended s.session)
          ⟨s.world, n'⟩ := by
  cases hroom : v.maxDepth with
  | zero =>
    obtain ⟨s, hs, hevents⟩ := hw.fail ⟨.depthLimit, toString v.maxDepth⟩ p [] []
    have hend : v.pursue v.maxDepth (.ofName k) ⟨collecting p [] [], w⟩ = .ok .ended s := by
      rw [hroom]
      exact Act.bind_of_ok hs
    rw [hend] at hf
    have hlost : Lost p (.ok .ended s) := ⟨_, hevents⟩
    exact absurd hkept (hlost.not_kept hf)
  | succ room =>
    rw [hroom] at hf
    obtain ⟨progress, w'', hfetch, hw'', hpursue⟩ := exists_fetched v room []
      (hw.findTrusted hmissing).1 (List.not_mem_nil : k ∉ []) hmissing
    have hproceed : ∀ d, v.pursue (room + 1) (.ofName k) ⟨collecting d [] [], w⟩ =
        v.proceed progress ⟨collecting d [] ([] ++ [k]), w''⟩ := by
      intro d
      refine (hpursue d).trans (settle_pursue hw'' ?_ progress d)
      rw [hroom]
      rfl
    rw [hproceed] at hf
    obtain ⟨c', g, n', htoward⟩ := exists_toward hw'' hf hkept
    have hretrieved : (Run.fetch v.fetcher (v.fetcher.fetch (.ofName k)) ⟨w', n⟩).1 =
        .ok (.ok c') := by
      rw [Run.fetch, hfetch]
      apply htoward.retrieved
      rintro q rfl
      cases q <;> simp only [Pending.rank, Progress.waits, Pending.attempt] <;> omega
    cases hfetched.symm.trans hretrieved
    refine ⟨g, n', Nat.succ_pos room, htoward.valid, htoward.behind, htoward.ready,
      fun d s hs => ?_⟩
    rw [hproceed]
    exact htoward.finishes d s hs

/-- Where a certificate was remembered that is the only one of its key, packets of the key are told
what its signature tells, and the network is left alone. -/
theorem finishes_of_trusts (hw : w.Quiet t span) (hfresh : w.Fresh t) (hdepth : 0 < v.maxDepth)
    (hk : d.signature.info.keyName = .ok k) (hd : d.name.startsWith (k.take (-2)))
    (hc : c.name.startsWith k) (htrusts : w.Trusts t k c) (honly : ∀ c', w.Trusts t k c' → c' = c)
    (n : Network) :
    ∃ (s : Scene) (call : Nat),
      Finishes v (v.start ⟨{ packet := .data d }, w⟩) n (.ended s.session) ⟨s.world, n⟩ ∧
      s.world.events = [told v.verifier call d c] := by
  obtain ⟨room, hroom⟩ := Nat.exists_eq_add_one.2 hdepth
  obtain ⟨c', w', hfound⟩ := World.exists_findTrusted hw.shows hfresh htrusts hc
  obtain rfl := honly c' (World.trusts_of_findTrusted hw.shows hfound)
  obtain ⟨hw', -⟩ := hw.findTrusted hfound
  obtain ⟨s, hs, hworld⟩ := conclude_told (v := v) (g := ⟨c', [], [] ++ [k], w'⟩) trivial d
  have hend : v.start ⟨{ packet := .data d }, w⟩ = .ok .ended s := by
    rw [start_of_permitted hw hk hd, hroom, pursue_succ List.not_mem_nil hfound]
    exact Act.bind_of_ok hs
  refine ⟨s, w'.calls, ?_, ?_⟩
  · rw [hend]
    exact .ended
  · rw [hworld]
    change w'.events ++ _ = _
    rw [hw'.events]
    rfl

/-- What a check has gone through that found a packet valid by a certificate that it had
retrieved. -/
structure Proven (v : Validator) (t : Instant) (span : Span) (k : Name) (c : Certificate)
    (around after : Surroundings) (g : Verge) (n' : Network) : Prop where
  room : 0 < v.maxDepth
  valid : c.ValidAt t
  behind : [c] <:+ g.got
  ready : g.Ready t span
  accepts : v.verifier.AcceptsChain g.world.calls g.trusted g.got
  left : ∃ calls events, after.world =
    { g.got.foldl World.cacheVerified { g.world with calls, events }
      with events := around.world.events }
  finishes : ∀ d s, d.signature.info.keyName = .ok k → d.name.startsWith (k.take (-2)) →
    v.conclude g.trusted (g.scene d) = .ok () s →
    Finishes v (v.start ⟨{ packet := .data d }, { around.world with events := [] }⟩) around.network
      (.ended s.session) ⟨s.world, n'⟩

theorem exists_proven (hw : World.Quiet t span { w with events := [] })
    (hp : p.signature.info.keyName = .ok k) (hc : Fetched v k ⟨w, n⟩ c)
    (hrun : Checks v p ⟨w, n⟩ (.valid (.data p)) after) :
    ∃ g n', Proven v t span k c ⟨w, n⟩ after g n' := by
  obtain ⟨task, final, hf, hkept, rfl⟩ := hrun.kept
  obtain ⟨w', hmissing, hfetched⟩ := hc
  by_cases hmay : p.name.startsWith (k.take (-2))
  · rw [start_of_permitted hw hp hmay] at hf
    obtain ⟨g, n', hroom, hvalid, hbehind, hready, hends⟩ :=
      exists_conclusion hw hmissing hfetched hf hkept
    obtain ⟨s, hs⟩ : ∃ s, v.conclude g.trusted (g.scene p) = .ok () s := by
      obtain ⟨_, _, _, _, -, -, -, -, hs⟩ := conclude_of_none v g.trusted (s := g.scene p) rfl
      exact ⟨_, hs⟩
    obtain ⟨-, rfl⟩ := hf.unique (hends p s hs)
    have haccepts := acceptsChain_of_conclude hready hs hkept.2
    obtain ⟨s', hs', hworld⟩ := conclude_told haccepts p
    cases hs.symm.trans hs'
    refine ⟨g, n', hroom, hvalid, hbehind, hready, haccepts, ?_, ?_⟩
    · dsimp only
      rw [hworld]
      exact ⟨_, _, rfl⟩
    · intro d s hk hd hs
      rw [start_of_permitted hw hk hd]
      exact hends d s hs
  · obtain ⟨e, hrefused⟩ := start_of_refused t span v hp hmay
    obtain ⟨s, hs, hevents⟩ := hrefused _ hw
    rw [hs] at hf
    have hlost : Lost p (.ok .ended s) := ⟨e, hevents⟩
    exact absurd hkept (hlost.not_kept hf)

namespace Proven

variable {around : Surroundings} {n' : Network}

theorem trusts (h : Proven v t span k c around after g n') (hspan : 0 ≤ span.nanoseconds)
    (hk : c.name.startsWith k) : after.world.Trusts t k c := by
  obtain ⟨rest, hgot⟩ := h.behind
  obtain ⟨calls, events, hleft⟩ := h.left
  obtain ⟨readings, verified, hlifetime, hrest⟩ :=
    World.fold_cacheVerified rest { g.world with calls, events }
  rw [← hgot, List.foldl_append, hrest] at hleft
  rw [hleft]
  have hspan' : 0 ≤ verified.lifetime.nanoseconds := by
    rw [hlifetime]
    exact h.ready.quiet.lifetime ▸ hspan
  exact World.trusts_cacheVerified (w := { g.world with
    calls, events, clock.readings := readings, storage.verified := verified })
    (h.ready.quiet.shows _) hspan' h.valid hk

theorem quiet (h : Proven v t span k c around after g n') :
    World.Quiet t span { after.world with events := [] } ∧
      World.Fresh t { after.world with events := [] } := by
  obtain ⟨calls, events, hleft⟩ := h.left
  obtain ⟨readings, verified, hlifetime, hfold⟩ :=
    World.fold_cacheVerified g.got { g.world with calls, events }
  rw [hleft, hfold]
  obtain ⟨hquiet, hfresh⟩ := h.ready
  exact ⟨⟨hquiet.shows, hquiet.policies, rfl, hlifetime.trans hquiet.lifetime⟩, hfresh⟩

end Proven

/-- A certificate that was retrieved for a valid packet stays. While it is the only one of its key,
packets of the key are found by it at once what they would have been found at first, and nothing is
sent. -/
theorem warm_agrees_with_cold {q : Data} (hshows : ∀ i, w.clock.shows i = t)
    (hpolicies : w.chain = [.hierarchy]) (hp : p.signature.info.keyName = .ok k)
    (hfetched : Fetched v k ⟨w, n⟩ c) (hrun : Checks v p ⟨w, n⟩ (.valid (.data p)) after)
    (hc : c.name.startsWith k)
    (hstays : 0 ≤ w.storage.verified.lifetime.nanoseconds ∨ after.world.Trusts t k c)
    (honly : ∀ c', after.world.Trusts t k c' → c' = c) (hq : q.signature.info.keyName = .ok k)
    (hsteady : ∀ call call', (v.verifier.checkData call q c).1 = (v.verifier.checkData call' q c).1)
    (m : Network) : ∃ finding warm cold, Checks v q ⟨after.world, m⟩ finding warm ∧
      warm.network = m ∧ Checks v q ⟨w, n⟩ finding cold := by
  have hw : World.Quiet t w.storage.verified.lifetime { w with events := [] } :=
    ⟨hshows, hpolicies, rfl, rfl⟩
  obtain ⟨g, n', hproven⟩ := exists_proven hw hp hfetched hrun
  obtain ⟨hafter, hfresh⟩ := hproven.quiet
  by_cases hmay : q.name.startsWith (k.take (-2))
  -- Both sessions end with the signature of the packet, checked by the same certificate.
  · have hlast : g.got.getLastD g.trusted = c := by
      obtain ⟨rest, hgot⟩ := hproven.behind
      rw [← hgot]
      simp
    obtain ⟨s, hs, hworld⟩ := conclude_told hproven.accepts q
    have hcold := hproven.finishes q s hq hmay hs
    have htrusts : after.world.Trusts t k c := hstays.elim (fun hspan => hproven.trusts hspan hc) id
    obtain ⟨s', call, hwarm, hevents⟩ :=
      finishes_of_trusts hafter hfresh hproven.room hq hmay hc htrusts honly m
    have hagree : s.world.events = s'.world.events := by
      rw [hevents, hworld, hlast, told_of_steady (hsteady _ call)]
      refine (events_cacheVerified g.got _).trans ?_
      change g.world.events ++ [_] = _
      rw [hproven.ready.quiet.events]
      rfl
    exact agree_of_finishes hwarm hcold hagree
  -- Both sessions end with the verdict of the hierarchy, before a certificate is looked for.
  · obtain ⟨e, hrefused⟩ := start_of_refused t w.storage.verified.lifetime v hq hmay
    obtain ⟨s, hs, hevents⟩ := hrefused _ hw
    obtain ⟨s', hs', hevents'⟩ := hrefused _ hafter
    have hwarm : Finishes v (v.start ⟨{ packet := .data q }, { after.world with events := [] }⟩) m
        (.ended s'.session) ⟨s'.world, m⟩ := by
      rw [hs']
      exact .ended
    have hcold : Finishes v (v.start ⟨{ packet := .data q }, { w with events := [] }⟩) n
        (.ended s.session) ⟨s.world, n⟩ := by
      rw [hs]
      exact .ended
    exact agree_of_finishes hwarm hcold (hevents.trans hevents'.symm)

end

namespace Sample

def forged : Data :=
  Course.Sample.signed ⟨[.generic [2], .generic [4]]⟩ (Course.Sample.keyName [2] 2) [23] []

def network : Network := { published := [Course.Sample.leaf.data] }

end Sample

/-- The leaf is retrieved for a packet, and a forged packet is then found out by it. -/
theorem warm_agrees_with_cold_sample :
    ∃ after, Checks Sample.validator Completeness.Sample.data ⟨Sample.anchored, Sample.network⟩
        (.valid (.data Completeness.Sample.data)) after ∧
      Fetched Sample.validator (Sample.keyName [2] 2)
        ⟨Sample.anchored, Sample.network⟩ Sample.leaf ∧
      (∀ c, after.world.Trusts (.ofMillis 5000) (Sample.keyName [2] 2) c → c = Sample.leaf) ∧
      ∃ info warm cold, Checks Sample.validator Sample.forged ⟨after.world, {}⟩
          (.invalid ⟨.invalidSignature, info⟩) warm ∧
        warm.network = {} ∧
        Checks Sample.validator Sample.forged ⟨Sample.anchored, Sample.network⟩
          (.invalid ⟨.invalidSignature, info⟩) cold := by
  obtain ⟨after, hrun, honly⟩ : ∃ after : Surroundings,
      Checks Sample.validator Completeness.Sample.data ⟨Sample.anchored, Sample.network⟩
        (.valid (.data Completeness.Sample.data)) after ∧
      ∀ c, after.world.Trusts (.ofMillis 5000) (Sample.keyName [2] 2) c → c = Sample.leaf := by
    have hrun := checks_of_finishes (v := Sample.validator) (d := Completeness.Sample.data)
      (w := Sample.anchored) (n := Sample.network) (.answer rfl .ended) rfl
    refine ⟨_, hrun, ?_⟩
    rintro c (⟨e, he, hk, rfl⟩ | ⟨e, he, hk, rfl⟩)
    · obtain rfl := List.mem_singleton.1 he
      exact absurd hk (by decide)
    · obtain rfl := List.mem_singleton.1 he
      rfl
  have hfetched : Fetched Sample.validator (Sample.keyName [2] 2) ⟨Sample.anchored, Sample.network⟩
      Sample.leaf := ⟨_, rfl, rfl⟩
  obtain ⟨finding, warm, cold, hwarm, hnetwork, hcold⟩ := warm_agrees_with_cold (q := Sample.forged)
    (fun _ => rfl) rfl rfl hfetched hrun rfl (.inl (by decide)) honly rfl (fun _ _ => rfl) {}
  have hforged := checks_of_finishes (v := Sample.validator) (d := Sample.forged)
    (w := Sample.anchored) (n := Sample.network) (.answer rfl .ended) rfl
  obtain ⟨rfl, -⟩ := hforged.unique hcold
  exact ⟨after, hrun, hfetched, honly, _, warm, cold, hwarm, hnetwork, hcold⟩

end Reuse

end PacketTrust
