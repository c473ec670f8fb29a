import PacketTrust.Proofs.Validation.Completeness

/-! Sessions that go alike. Under the hierarchy, while the clock stands still, it does not hang on
the packet of a session how it gets from the request for a certificate to a trusted one, and along
which chain. -/

namespace PacketTrust

open Completeness Validator Scene

/-- The clock stands still at a moment, the hierarchy decides alone, and nothing was told yet.
Verified certificates are kept for a span of time. -/
structure World.Quiet (t : Instant) (span : Span) (w : World) : Prop where
  shows : ∀ n, w.clock.shows n = t
  policies : w.chain = [.hierarchy]
  events : w.events = []
  lifetime : w.storage.verified.lifetime = span

def World.Fresh (t : Instant) (w : World) : Prop :=
  Anchors.refresh w.disk t w.storage.anchors = .ok () w.storage.anchors

namespace World.Quiet

variable {t : Instant} {span : Span} {w w' : World} {i : Interest}

theorem now (h : w.Quiet t span) : w.now = t := h.shows _

theorem tick (h : w.Quiet t span) : World.Quiet t span { w with clock := w.clock.next } :=
  ⟨h.shows, h.policies, h.events, h.lifetime⟩

theorem restocked (h : w.Quiet t span) (hw : w.Restocked w') : w'.Quiet t span := by
  obtain ⟨_, _, rfl⟩ := hw
  exact ⟨h.shows, h.policies, h.events, h.lifetime⟩

theorem findTrusted {found : Option Certificate} (h : w.Quiet t span)
    (hfound : World.findTrusted i w = .ok found w') : w'.Quiet t span ∧ w'.Fresh t := by
  rcases Anchors.refresh_cases w.disk w.now w.storage.anchors with
    ⟨anchors, hrefresh, hagain⟩ | ⟨⟨anchors, hfault⟩, -⟩
  · rw [findTrusted_of_refresh hrefresh] at hfound
    rw [h.now] at hagain
    split at hfound <;> cases hfound <;> exact ⟨⟨h.shows, h.policies, h.events, h.lifetime⟩, hagain⟩
  · rw [findTrusted_of_fault hfault] at hfound
    cases hfound

theorem ask (h : w.Quiet t span) (subject : Subject) (session : Session) :
    Validator.ask subject ⟨session, w⟩ =
      .ok (Policy.checkHierarchy subject.kind subject.name subject.keyName) ⟨session, w⟩ :=
  ask_of_checkPolicy (World.checkPolicy_of_hierarchy h.policies subject)

theorem fail (h : w.Quiet t span) (e : ValidationError) (d : Data) (got : List Certificate)
    (seen : List Name) : ∃ s, Scene.fail e ⟨collecting d got seen, w⟩ = .ok () s ∧
      s.world.events = [.failure d.name e] := by
  refine ⟨_, fail_of_none e rfl, ?_⟩
  change w.events ++ [.failure d.name e] = _
  rw [h.events]
  rfl

theorem accept (h : w.Quiet t span) (c : Certificate) (got : List Certificate) (seen : List Name) :
    (∃ k seen', c.ValidAt t ∧ ∀ d, Validator.accept c ⟨collecting d got seen, w⟩ =
      .ok (some (.ofName k)) ⟨collecting d (c :: got) seen', { w with clock := w.clock.next }⟩) ∨
    ∃ e, ∀ d, ∃ s, Validator.accept c ⟨collecting d got seen, w⟩ = .ok none s ∧
      s.world.events = [.failure d.name e] := by
  have hread : ∀ session, Scene.onWorld readClock ⟨session, w⟩ =
      .ok t ⟨session, { w with clock := w.clock.next }⟩ := by
    intro session
    rw [← h.now]
    rfl
  by_cases hvalid : c.ValidAt t
  · have hask := h.tick.ask (.certificate c)
    rcases Policy.checkHierarchy_cases (Subject.certificate c).kind (Subject.certificate c).name
      (Subject.certificate c).keyName with ⟨k, hk, hn, -⟩ | ⟨e, hverdict⟩
    · obtain ⟨seen', -, hadd⟩ := collecting_addCertificate got seen c
      refine .inl ⟨k, seen', hvalid, fun d => ?_⟩
      rw [← hadd d]
      exact accept_of_permitted h.policies (h.now.symm ▸ hvalid) hk hn _
    · refine .inr ⟨e, fun d => ?_⟩
      obtain ⟨s, hs, hevents⟩ := h.tick.fail e d got seen
      refine ⟨s, ?_, hevents⟩
      rw [Validator.accept, Act.bind_of_ok (hread _), if_neg (not_not_intro hvalid),
        Act.bind_of_ok (hask _), hverdict]
      exact Act.bind_of_ok hs
  · refine .inr ⟨⟨.expired,
      s!"Retrieved certificate is not yet valid or expired `{c.name.uri}`"⟩, fun d => ?_⟩
    obtain ⟨s, hs, hevents⟩ := h.tick.fail _ d got seen
    refine ⟨s, ?_, hevents⟩
    rw [Validator.accept, Act.bind_of_ok (hread _), if_pos hvalid]
    exact Act.bind_of_ok hs

end World.Quiet

namespace Reuse

/-- The session of a packet was ended by a failure, or a fault stopped it. -/
def Lost (d : Data) : EStateM.Result Fault Scene Status → Prop
  | .ok .ended s => ∃ e, s.world.events = [.failure d.name e]
  | .ok (.waiting _) _ => False
  | .error .. => True

/-- Where a session has found a trusted certificate, behind those that it has collected. -/
structure Verge where
  trusted : Certificate
  got : List Certificate
  seen : List Name
  world : World

namespace Verge

def scene (g : Verge) (d : Data) : Scene := ⟨collecting d g.got g.seen, g.world⟩

structure Ready (t : Instant) (span : Span) (g : Verge) : Prop where
  quiet : g.world.Quiet t span
  fresh : g.world.Fresh t

end Verge

/-- What the sessions of all packets come to in one go, from where some certificates were
collected. -/
inductive Alike (v : Validator) (t : Instant) (span : Span) (base : List Certificate)
    (result : Data → EStateM.Result Fault Scene Status) : Prop
  | waiting {p : Pending} {got : List Certificate} {seen : List Name} {w : World}
      (base_got : base <:+ got) (quiet : w.Quiet t span)
      (eq : ∀ d, result d = .ok (.waiting p) ⟨collecting d got seen, w⟩)
  | concluded {g : Verge} (base_got : base <:+ g.got) (ready : g.Ready t span)
      (eq : ∀ d s, v.conclude g.trusted (g.scene d) = .ok () s → result d = .ok .ended s)
  | lost (all : ∀ d, Lost d (result d))

section

variable {v : Validator} {t : Instant} {span : Span} {base got : List Certificate}
  {seen : List Name} {w : World}

/-- A failure of the session is a loss, whatever the packet. -/
theorem Alike.of_fail {result : Data → EStateM.Result Fault Scene Status}
    (h : ∀ d, ∃ e s, result d = .ok .ended s ∧ s.world.events = [.failure d.name e]) :
    Alike v t span base result := by
  refine .lost fun d => ?_
  obtain ⟨e, s, hs, hevents⟩ := h d
  rw [hs]
  exact ⟨e, hevents⟩

theorem alike_settle_found (next : CertificateRequest → Act Scene Status) (seen : List Name)
    (h : w.Quiet t span) (c : Certificate)
    (hnext : ∀ k seen' w', w'.Quiet t span →
      Alike v t span (c :: got) fun d => next (.ofName k) ⟨collecting d (c :: got) seen', w'⟩) :
    (∀ d, Lost d (settle next (.found c) ⟨collecting d got seen, w⟩)) ∨ c.ValidAt t ∧
      Alike v t span (c :: got) fun d => settle next (.found c) ⟨collecting d got seen, w⟩ := by
  rcases h.accept c got seen with ⟨k, seen', hvalid, haccept⟩ | ⟨e, haccept⟩
  · have hsettle : (fun d => settle next (.found c) ⟨collecting d got seen, w⟩) = fun d =>
        next (.ofName k) ⟨collecting d (c :: got) seen', { w with clock := w.clock.next }⟩ := by
      funext d
      rw [settle, Act.bind_of_ok (haccept d)]
    right
    rw [hsettle]
    exact ⟨hvalid, hnext k seen' _ h.tick⟩
  · left
    intro d
    obtain ⟨s, hs, hevents⟩ := haccept d
    have hsettle : settle next (.found c) ⟨collecting d got seen, w⟩ = .ok .ended s := by
      rw [settle, Act.bind_of_ok hs]
      rfl
    rw [hsettle]
    exact ⟨e, hevents⟩

theorem lost_settle_failed (h : w.Quiet t span) (next : CertificateRequest → Act Scene Status)
    (e : ValidationError) (d : Data) : Lost d
    (settle next (.failed e) ⟨collecting d got seen, w⟩) := by
  obtain ⟨s, hs, hevents⟩ := h.fail e d got seen
  have hsettle : settle next (.failed e) ⟨collecting d got seen, w⟩ = .ok .ended s :=
    Act.bind_of_ok hs
  rw [hsettle]
  exact ⟨e, hevents⟩

theorem alike_settle {next : CertificateRequest → Act Scene Status} (h : w.Quiet t span)
    (progress : Progress)
    (hnext : ∀ k c seen' w', w'.Quiet t span →
      Alike v t span (c :: got) fun d => next (.ofName k) ⟨collecting d (c :: got) seen', w'⟩) :
    Alike v t span got fun d => settle next progress ⟨collecting d got seen, w⟩ := by
  cases progress with
  | pending p => exact .waiting (List.suffix_refl got) h fun d => rfl
  | failed e => exact .lost fun d => lost_settle_failed h next e d
  | found c =>
    rcases alike_settle_found next seen h c fun k => hnext k c with hlost | ⟨-, halike⟩
    · exact .lost hlost
    · cases halike with
      | waiting hgot hquiet heq => exact .waiting ((List.suffix_cons c got).trans hgot) hquiet heq
      | concluded hgot hready heq =>
        exact .concluded ((List.suffix_cons c got).trans hgot) hready heq
      | lost hall => exact .lost hall

theorem exists_fetched {r : CertificateRequest} {w' : World} (v : Validator) (room : Nat)
    (got : List Certificate) (h : w'.Quiet t span) (hnew : r.name ∉ seen)
    (hfound : World.findTrusted r.interest w = .ok none w') :
    ∃ progress w'', v.fetcher.fetch r w' = .ok progress w'' ∧ w''.Quiet t span ∧ ∀ d,
      v.pursue (room + 1) r ⟨collecting d got seen, w⟩ =
        settle (v.pursue room) progress ⟨collecting d got (seen ++ [r.name]), w''⟩ := by
  have hfetch := Fetcher.fetch_eq (f := v.fetcher) rfl r w'
  refine ⟨_, _, hfetch, ⟨h.shows, h.policies, h.events, h.lifetime⟩, fun d => ?_⟩
  rw [pursue_succ hnew hfound]
  exact Act.bind_of_ok (onWorld_of_ok (s := ⟨collecting d got (seen ++ [r.name]), w'⟩) hfetch)

/-- From a request on, the sessions of all packets go alike. -/
theorem alike_pursue (room : Nat) (r : CertificateRequest) (got : List Certificate)
    (seen : List Name) (h : w.Quiet t span) :
    Alike v t span got fun d => v.pursue room r ⟨collecting d got seen, w⟩ := by
  induction room generalizing r got seen w with
  | zero =>
    refine .of_fail fun d => ?_
    obtain ⟨s, hs, hevents⟩ := h.fail ⟨.depthLimit, toString v.maxDepth⟩ d got seen
    exact ⟨_, s, Act.bind_of_ok hs, hevents⟩
  | succ room ih =>
    by_cases hseen : r.name ∈ seen
    · refine .of_fail fun d => ?_
      obtain ⟨s, hs, hevents⟩ := h.fail ⟨.loop, s!"`{r.name.uri}`"⟩ d got seen
      have hsaw : (collecting d got seen).hasSeen r.name = true := by
        simpa [collecting, Session.hasSeen] using hseen
      refine ⟨_, s, ?_, hevents⟩
      rw [pursue, Act.get_bind, if_pos hsaw]
      exact Act.bind_of_ok hs
    · cases hfound : World.findTrusted r.interest w with
      | error fault w' =>
        refine .lost fun d => ?_
        rw [pursue_new hseen, Act.bind_of_error (onWorld_of_error hfound)]
        trivial
      | ok found w' =>
        obtain ⟨hquiet, hfresh⟩ := h.findTrusted hfound
        cases found with
        | some trusted =>
          refine .concluded (g := ⟨trusted, got, seen ++ [r.name], w'⟩) (List.suffix_refl got)
            ⟨hquiet, hfresh⟩ fun d s hs => ?_
          rw [pursue_succ hseen hfound]
          exact Act.bind_of_ok hs
        | none =>
          obtain ⟨progress, w'', -, hw'', hpursue⟩ := exists_fetched v room got hquiet
            hseen hfound
          rw [funext hpursue]
          exact alike_settle hw'' progress
            fun k c seen' w' hw' => ih (.ofName k) (c :: got) seen' hw'

/-- The session of a packet came to its end otherwise than by a failure. -/
def Kept (d : Data) (task : Task) (final : Surroundings) : Prop :=
  task.fault? = none ∧ ∀ e, final.world.events ≠ [.failure d.name e]

theorem Lost.not_kept {d : Data} {result : EStateM.Result Fault Scene Status} {n : Network}
    {task : Task} {final : Surroundings} (h : Lost d result) (hf : Finishes v result n task final) :
    ¬ Kept d task final := by
  rintro ⟨hfault, hevents⟩
  cases hf with
  | ended =>
    obtain ⟨e, he⟩ := h
    exact hevents e he
  | faulted => cases hfault
  | answer => exact h
  | pause => exact h

/-- From where a retrieval has got to, the sessions of all packets come to a trusted certificate
behind the one that was retrieved. -/
structure Toward (v : Validator) (t : Instant) (span : Span) (progress : Progress)
    (got : List Certificate)
    (seen : List Name) (around : Surroundings) (c : Certificate) (g : Verge)
    (n : Network) : Prop where
  retrieved : ∀ waits, (∀ p, progress = .pending p → p.rank < waits) →
    (Run.retrieve v.fetcher waits progress around).1 = .ok (.ok c)
  valid : c.ValidAt t
  behind : c :: got <:+ g.got
  ready : g.Ready t span
  finishes : ∀ d s, v.conclude g.trusted (g.scene d) = .ok () s →
    Finishes v (v.proceed progress ⟨collecting d got seen, around.world⟩) around.network
      (.ended s.session) ⟨s.world, n⟩

variable {p : Data} {n : Network} {task : Task} {final : Surroundings} {progress : Progress}

/-- Once there is something to go on with, a session that is not lost comes to a trusted
certificate, if it does so from the next wait on. -/
theorem exists_toward_of_waiting (hw : w.Quiet t span)
    (hf : Finishes v (v.proceed progress ⟨collecting p got seen, w⟩) n task final)
    (hkept : Kept p task final)
    (hwait : ∀ q got' seen' w', w'.Quiet t span →
      v.proceed progress ⟨collecting p got seen, w⟩ =
        .ok (.waiting q) ⟨collecting p got' seen', w'⟩ →
      ∃ c g n', Toward v t span (.pending q) got' seen' ⟨w', n⟩ c g n') :
    ∃ c g n', Toward v t span progress got seen ⟨w, n⟩ c g n' := by
  cases progress with
  | pending q => exact hwait q got seen w hw rfl
  | failed e => exact absurd hkept ((lost_settle_failed hw _ e p).not_kept hf)
  | found c =>
    have hretrieved : ∀ waits, (Run.retrieve v.fetcher waits (.found c) ⟨w, n⟩).1 =
        .ok (.ok c) := by
      intro waits
      cases waits <;> rfl
    rcases alike_settle_found (fun r => do v.pursue (← v.room) r) seen hw c fun k seen' w' hw' =>
        alike_pursue (v.maxDepth - (c :: got).length) (.ofName k) (c :: got) seen' hw' with
      hlost | ⟨hvalid, halike⟩
    · exact absurd hkept ((hlost p).not_kept hf)
    · cases halike with
      | @waiting q got' seen' w' hgot hquiet heq =>
        obtain ⟨c', g, n', htoward⟩ := hwait q got' seen' w' hquiet (heq p)
        refine ⟨c, g, n', fun waits _ => hretrieved waits, hvalid, ?_, htoward.ready,
          fun d s hs => ?_⟩
        · exact hgot.trans ((List.suffix_cons c' got').trans htoward.behind)
        · have hgoes : Finishes v (.ok (.waiting q) ⟨collecting d got' seen', w'⟩) n
              (.ended s.session) ⟨s.world, n'⟩ := htoward.finishes d s hs
          have hproceed : v.proceed (.found c) ⟨collecting d got seen, w⟩ = _ := heq d
          exact hproceed ▸ hgoes
      | @concluded g hgot hready heq =>
        refine ⟨c, g, n, fun waits _ => hretrieved waits, hvalid, hgot, hready, fun d s hs => ?_⟩
        have hend : v.proceed (.found c) ⟨collecting d got seen, w⟩ = .ok .ended s := heq d s hs
        rw [hend]
        exact .ended
      | lost hall => exact absurd hkept ((hall p).not_kept hf)

/-- What a retrieval comes to after a wait, it comes to from the wait on. -/
theorem Toward.resume {q : Pending} {act : Act World Progress} {w' : World} {m n' : Network}
    {c : Certificate} {g : Verge} (h : Toward v t span progress got seen ⟨w', m⟩ c g n')
    (hresume : Run.resume v.fetcher n q = (act, m)) (hact : act w = .ok progress w')
    (hrank : ∀ p, progress = .pending p → p.rank < q.rank)
    (hback : ∀ d task final,
      Finishes v (v.proceed progress ⟨collecting d got seen, w'⟩) m task final →
        Finishes v (.ok (.waiting q) ⟨collecting d got seen, w⟩) n task final) :
    Toward v t span (.pending q) got seen ⟨w, n⟩ c g n' := by
  refine ⟨fun waits hwaits => ?_, h.valid, h.behind, h.ready, fun d s hs => ?_⟩
  · have hless := hwaits q rfl
    obtain ⟨waits, rfl⟩ : ∃ k, waits = k + 1 := ⟨waits - 1, by omega⟩
    have hgoes : Run.retrieve v.fetcher (waits + 1) (.pending q) ⟨w, n⟩ =
        Run.retrieve v.fetcher waits progress ⟨w', m⟩ := by
      simp only [Run.retrieve, hresume, hact]
    rw [hgoes]
    apply h.retrieved
    intro p hp
    have := hrank p hp
    omega
  · exact hback d _ _ (h.finishes d s hs)

/-- After a wait the sessions of all packets go on alike, and come to a trusted certificate, if one
of them is kept. -/
theorem exists_toward_of_resumed {q : Pending} {act : Act World Progress} {m : Network}
    (hw : w.Quiet t span) (hresume : Run.resume v.fetcher n q = (act, m))
    (hact : ∀ progress w', act w = .ok progress w' →
      w.Restocked w' ∧ ∀ p, progress = .pending p → p.rank < q.rank)
    (hback : ∀ d task final,
      Finishes v ((do v.proceed (← onWorld act)) ⟨collecting d got seen, w⟩) m task final →
        Finishes v (.ok (.waiting q) ⟨collecting d got seen, w⟩) n task final)
    (hnext : Finishes v ((do v.proceed (← onWorld act)) ⟨collecting p got seen, w⟩) m task final)
    (hkept : Kept p task final)
    (hwait : ∀ q' got' seen' w', w'.Quiet t span →
      (do v.proceed (← onWorld act)) ⟨collecting p got seen, w⟩ =
        EStateM.Result.ok (.waiting q') ⟨collecting p got' seen', w'⟩ →
      ∃ c g n', Toward v t span (.pending q') got' seen' ⟨w', m⟩ c g n') :
    ∃ c g n', Toward v t span (.pending q) got seen ⟨w, n⟩ c g n' := by
  cases hprogress : act w with
  | error fault w' =>
    have hfault : (do v.proceed (← onWorld act)) ⟨collecting p got seen, w⟩ =
        EStateM.Result.error fault ⟨collecting p got seen, w'⟩ :=
      Act.bind_of_error (onWorld_of_error (s := ⟨collecting p got seen, w⟩) hprogress)
    have hlost : Lost p (.error fault ⟨collecting p got seen, w'⟩) := trivial
    rw [hfault] at hnext
    exact absurd hkept (hlost.not_kept hnext)
  | ok progress w' =>
    obtain ⟨hstock, hrank⟩ := hact progress w' hprogress
    have hproceed : ∀ d, (do v.proceed (← onWorld act)) ⟨collecting d got seen, w⟩ =
        v.proceed progress ⟨collecting d got seen, w'⟩ :=
      fun d => Act.bind_of_ok (onWorld_of_ok (s := ⟨collecting d got seen, w⟩) hprogress)
    rw [hproceed] at hnext hwait
    obtain ⟨c, g, n', htoward⟩ := exists_toward_of_waiting (hw.restocked hstock) hnext hkept hwait
    refine ⟨c, g, n', htoward.resume hresume hprogress hrank fun d task final hf =>
      hback d task final ?_⟩
    rwa [hproceed]

/-- From a wait on, the sessions of all packets come to a trusted certificate, if one of them is
kept. -/
theorem exists_toward_of_finishes {result : EStateM.Result Fault Scene Status}
    (h : Finishes v result n task final) (hkept : Kept p task final) :
    ∀ {q : Pending} {got : List Certificate} {seen : List Name} {w : World}, w.Quiet t span →
      result = .ok (.waiting q) ⟨collecting p got seen, w⟩ →
      ∃ c g n', Toward v t span (.pending q) got seen ⟨w, n⟩ c g n' := by
  -- Each wait is one step of the induction; what was collected before it does not bear on the rest.
  induction h with
  | ended => exact nofun
  | faulted => exact nofun
  | @answer a s n m response task final responds hnext ih =>
    intro q got seen w hw heq
    cases heq
    have hresume : Run.resume v.fetcher n (.answer a) = (v.fetcher.receive a response, m) := by
      simp only [Run.resume, responds]
    refine exists_toward_of_resumed hw hresume (fun progress w' hreceive => ⟨?_, ?_⟩)
      (fun d task final => .answer responds) hnext hkept fun q' got' seen' w' hw' => ih hkept hw'
    · exact (Fetcher.receive_ok hreceive).2
    · rintro p rfl
      exact Fetcher.receive_rank hreceive
  | @pause a s n task final hnext ih =>
    intro q got seen w hw heq
    cases heq
    refine exists_toward_of_resumed hw rfl (fun progress w' hwake => ⟨?_, ?_⟩)
      (fun d task final => .pause) hnext hkept fun q' got' seen' w' hw' => ih hkept hw'
    · exact (Fetcher.wake_ok hwake).2
    · rintro p rfl
      exact Fetcher.wake_rank hwake

/-- From where a retrieval has got to, the sessions of all packets come to a trusted certificate, if
one of them is kept. -/
theorem exists_toward (hw : w.Quiet t span)
    (hf : Finishes v (v.proceed progress ⟨collecting p got seen, w⟩) n task final)
    (hkept : Kept p task final) : ∃ c g n', Toward v t span progress got seen ⟨w, n⟩ c g n' :=
  exists_toward_of_waiting hw hf hkept fun _ _ _ _ hw' heq =>
    exists_toward_of_finishes hf hkept hw' heq

/-- The room that a search was given is the room that the chain has. -/
theorem settle_pursue (h : w.Quiet t span) {room : Nat}
    (hroom : v.maxDepth - (got.length + 1) = room) (progress : Progress) (d : Data) :
    settle (v.pursue room) progress ⟨collecting d got seen, w⟩ =
      v.proceed progress ⟨collecting d got seen, w⟩ := by
  subst hroom
  cases progress with
  | pending q => rfl
  | failed e => rfl
  | found c =>
    rcases h.accept c got seen with ⟨k, seen', -, haccept⟩ | ⟨e, haccept⟩
    · rw [proceed, settle, settle, Act.bind_of_ok (haccept d), Act.bind_of_ok (haccept d)]
      rfl
    · obtain ⟨s, hs, -⟩ := haccept d
      rw [proceed, settle, settle, Act.bind_of_ok hs, Act.bind_of_ok hs]

end

end Reuse

end PacketTrust
