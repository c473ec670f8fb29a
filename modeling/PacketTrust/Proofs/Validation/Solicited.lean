import PacketTrust.Proofs.Validation.Hierarchy

/-! What a retrieval may come to, for every request, every storage and every network. Storage is
searched for what matches the Interest, while the answer of the network is taken as it comes. -/

namespace PacketTrust

/-- An Interest for the certificate of a key finds names that begin with that of the key, or the
packet whose full name was taken for it. -/
theorem CertificateRequest.matches_ofName {k : Name} {d : Data}
    (h : (ofName k).interest.matchesData d) : d.name.startsWith k ∨ k = d.fullName := by
  unfold Interest.matchesData at h
  split at h
  · exact .inr (of_decide_eq_true h)
  · exact .inl h

namespace Course

/-- A retrieval from its beginning on: what it has come to, and the world by then. -/
inductive Retrieves (env : Environment) (r : CertificateRequest) : Progress → World → Prop
  | begin {w w' : World} {progress : Progress} :
      env.begins r w progress w' → Retrieves env r progress w'
  | resume {p : Pending} {w w' : World} {progress : Progress} :
      Retrieves env r (.pending p) w → env.resumes p w progress w' → Retrieves env r progress w'
  | disturb {progress : Progress} {w w' : World} :
      Retrieves env r progress w → env.disturbs w w' → Retrieves env r progress w'

/-- The network answers an Interest with no certificate that does not match it. -/
def Solicited (answers : Interest → Response → Prop) (i : Interest) : Prop :=
  ∀ c, Certificate.ofData c.data = .ok c → answers i (.data c.data) → i.matchesData c.data

/-- Retrieval has found what matches its Interest or what the network answered to it, or it still
asks for that Interest. -/
def Obtained (answers : Interest → Response → Prop) (i : Interest) : Progress → Prop
  | .found c => i.matchesData c.data ∨
      Certificate.ofData c.data = .ok c ∧ answers i (.data c.data)
  | .failed _ => True
  | .pending p => p.attempt.request.interest = i

variable {v : Validator} {env : Environment} {answers : Interest → Response → Prop}
  {disturbs : World → World → Prop} {start s s' : Scene} {notices : List Notice}
  {stage stage' : Stage} {r : CertificateRequest} {c : Certificate} {progress : Progress}
  {w w' : World}

theorem Obtained.of_answers {i : Interest} (h : progress.Answers i) :
    Obtained answers i progress := by
  cases progress with
  | found c => exact .inl h
  | failed e => trivial
  | pending p => exact h

theorem Obtained.of_receive {f : Fetcher} {a : Attempt} {response : Response}
    (ha : answers a.request.interest response) (h : f.receive a response w = .ok progress w') :
    Obtained answers a.request.interest progress := by
  cases response with
  | data d =>
    rcases f.receive_data a d w with ⟨c, hc, hr⟩ | ⟨e, hr⟩
    · cases hr.symm.trans h
      have hd : c.data = d := Certificate.ofData_ok hc
      subst hd
      exact .inr ⟨hc, ha⟩
    · obtain ⟨rfl, -⟩ : .failed e = progress ∧ w = w' := by simpa [hr] using h
      trivial
  | timeout => exact .of_answers ((Fetcher.receive_ok h).1 (by simp))
  | refused => exact .of_answers ((Fetcher.receive_ok h).1 (by simp))

theorem Obtained.of_resumes {p : Pending}
    (h : (environment v answers disturbs).resumes p w progress w') :
    Obtained answers p.attempt.request.interest progress := by
  cases p with
  | answer a =>
    obtain ⟨response, ha, hr⟩ := h
    exact .of_receive ha hr
  | pause a => exact .of_answers (Fetcher.wake_ok h).1

theorem Retrieves.obtained (h : Retrieves (environment v answers disturbs) r progress w) :
    Obtained answers r.interest progress := by
  induction h with
  | begin hb => exact .of_answers (Fetcher.fetch_ok hb).1
  | resume _ hr ih =>
    have hi := Obtained.of_resumes hr
    rwa [show _ = r.interest from ih] at hi
  | disturb _ _ ih => exact ih

theorem Retrieves.matches (h : Retrieves (environment v answers disturbs) r (.found c) w)
    (hs : Solicited answers r.interest) : r.interest.matchesData c.data := by
  rcases h.obtained with hm | ⟨hc, ha⟩
  · exact hm
  · exact hs c hc ha

/-- A network that is asked has the last word: where storage holds nothing, whatever certificate it
answers is what the retrieval comes to. -/
theorem retrieves_of_answers (disturbs : World → World → Prop) (hv : v.reach = .network)
    (hc : Certificate.ofData c.data = .ok c) (ha : answers r.interest (.data c.data)) :
    ∃ w, Retrieves (environment v answers disturbs) r (.found c) w := by
  obtain ⟨w, hempty⟩ : ∃ w : World, w.storage.unverified.entries = .empty :=
    ⟨{ clock := .still (.ofMillis 0) }, rfl⟩
  have hmiss : (w.storage.unverified.refresh w.now).answer r.interest = none := by
    rw [Cache.answer, Cache.entries_refresh, hempty]
    rfl
  have hsend : v.fetcher.send { request := r } = .pending (.answer { request := r }) := by
    simp [Fetcher.send, Validator.fetcher, hv]
  have hfetch := Fetcher.fetch_eq (f := v.fetcher) rfl r w
  rw [hmiss, Option.elim_none, hsend] at hfetch
  rcases v.fetcher.receive_data { request := r } c.data { w with
      clock := w.clock.next
      storage.unverified := w.storage.unverified.refresh w.now } with
    ⟨c', hc', hr⟩ | ⟨e, hr⟩
  · obtain rfl : c = c' := by simpa [hc] using hc'
    exact ⟨_, .resume (.begin hfetch) ⟨_, ha, hr⟩⟩
  · simp only [Fetcher.receive, hc, Fetcher.keep_eq] at hr
    cases hr

theorem Step.retrieves (h : Step v env stage s notices stage' s')
    (hs : stage' = .retrieving r progress) :
    Retrieves env r progress s'.world ∨
      ∃ p, stage = .retrieving r (.pending p) ∧ env.resumes p s.world progress s'.world := by
  cases h with
  | fetch room new missing begun =>
    obtain ⟨rfl, rfl⟩ : _ = r ∧ _ = progress := by simpa using hs
    exact .inl (.begin begun)
  | resume resumed =>
    obtain ⟨rfl, rfl⟩ : _ = r ∧ _ = progress := by simpa using hs
    exact .inr ⟨_, rfl, resumed⟩
  | _ => cases hs

theorem Reaches.retrieves (h : Reaches v env start notices stage s)
    (hs : stage = .retrieving r progress) : Retrieves env r progress s.world := by
  induction h generalizing r progress with
  | start => cases hs
  | step _ hstep ih =>
    rcases hstep.retrieves hs with hr | ⟨p, hp, hresumes⟩
    · exact hr
    · exact .resume (ih hp) hresumes
  | disturb _ hw ih => exact .disturb (ih hs) hw

theorem Step.stage_of_retrieved (h : Step v env stage s notices stage' s')
    (hn : .retrieved r c ∈ notices) : stage = .retrieving r (.found c) := by
  cases h <;> simp_all

/-- What a session notes as retrieved is what the retrieval of its request came to. -/
theorem Reaches.retrieves_of_retrieved (h : Reaches v env start notices stage s)
    (hn : .retrieved r c ∈ notices) : ∃ w, Retrieves env r (.found c) w := by
  induction h with
  | start => simp at hn
  | step hbefore hstep ih =>
    rcases List.mem_append.1 hn with hn | hn
    · exact ih hn
    · exact ⟨_, hbefore.retrieves (hstep.stage_of_retrieved hn)⟩
  | disturb _ _ ih => exact ih hn

theorem Retrieves.matches_or_answered
    (h : Retrieves (environment v answers disturbs) r (.found c) w) :
    r.interest.matchesData c.data ∨ answers r.interest (.data c.data) := h.obtained.imp_right (·.2)

/-- What a session notes as retrieved is as good as the answers of the network. -/
theorem Reaches.matches_of_retrieved
    (h : Reaches v (environment v answers disturbs) start notices stage s)
    (hn : .retrieved r c ∈ notices) :
    (r.interest.matchesData c.data ∨ answers r.interest (.data c.data)) ∧
      (Solicited answers r.interest → r.interest.matchesData c.data ∧
        ∀ k, r = .ofName k → c.name.startsWith k ∨ k = c.data.fullName) := by
  obtain ⟨w, hw⟩ := h.retrieves_of_retrieved hn
  refine ⟨hw.matches_or_answered, fun hs => ⟨hw.matches hs, fun k hk => ?_⟩⟩
  have hm := hw.matches hs
  rw [hk] at hm
  exact CertificateRequest.matches_ofName hm

/-- The same of what the validator makes of a session by starting and resuming it. -/
theorem Drives.matches_of_retrieved {status : Status}
    (h : Drives v answers disturbs start status s) :
    ∃ notices stage, Reaches v (environment v answers disturbs) start notices stage s ∧
      stage.Shows status ∧ ∀ r c, .retrieved r c ∈ notices →
        (r.interest.matchesData c.data ∨ answers r.interest (.data c.data)) ∧
        (Solicited answers r.interest → r.interest.matchesData c.data ∧
          ∀ k, r = .ofName k → c.name.startsWith k ∨ k = c.data.fullName) := by
  obtain ⟨notices, stage, hreaches, hstage⟩ := h.reaches
  exact ⟨notices, stage, hreaches, hstage, fun r c hn => hreaches.matches_of_retrieved hn⟩

/-- What a retrieval comes to matches its Interest or is the answer of the network to it. It always
matches exactly if the network is solicited, and a session then goes on with nothing but
certificates of the keys that it asked for. -/
theorem retrieved_or_unsolicited (hv : v.reach = .network)
    (answers : Interest → Response → Prop) (disturbs : World → World → Prop)
    (r : CertificateRequest) :
    (∀ c w, Retrieves (environment v answers disturbs) r (.found c) w →
      r.interest.matchesData c.data ∨ answers r.interest (.data c.data)) ∧
    ((∀ c w, Retrieves (environment v answers disturbs) r (.found c) w →
      r.interest.matchesData c.data) ↔ Solicited answers r.interest) ∧
    ∀ start notices stage s, Reaches v (environment v answers disturbs) start notices stage s →
      ∀ c, .retrieved r c ∈ notices →
        (r.interest.matchesData c.data ∨ answers r.interest (.data c.data)) ∧
        (Solicited answers r.interest → r.interest.matchesData c.data ∧
          ∀ k, r = .ofName k → c.name.startsWith k ∨ k = c.data.fullName) := by
  refine ⟨fun c w h => h.matches_or_answered,
    ⟨fun hall c hc ha => ?_, fun hs c w h => h.matches hs⟩,
    fun start notices stage s h c hn => h.matches_of_retrieved hn⟩
  obtain ⟨w, hw⟩ := retrieves_of_answers disturbs hv hc ha
  exact hall c w hw

/-- Asked for the certificate of one key, a network may answer with that of another, and it is
taken. -/
theorem retrieved_or_unsolicited_sample :
    Sample.validator.reach = .network ∧
      ∃ c w, Retrieves (environment Sample.validator
          (fun _ response => response = .data Sample.root.data) fun _ _ => False)
          (.ofName (Sample.keyName [2] 2)) (.found c) w ∧
        ¬ (CertificateRequest.ofName (Sample.keyName [2] 2)).interest.matchesData c.data := by
  refine ⟨rfl, ?_⟩
  have hexact := (retrieved_or_unsolicited (v := Sample.validator) rfl
    (fun _ response => response = .data Sample.root.data) (fun _ _ => False)
    (.ofName (Sample.keyName [2] 2))).2.1
  have hunsolicited : ¬ Solicited (fun _ response => response = .data Sample.root.data)
      (CertificateRequest.ofName (Sample.keyName [2] 2)).interest :=
    fun hs => absurd (hs Sample.root rfl rfl) (by decide)
  rw [← hexact] at hunsolicited
  simpa using hunsolicited

end Course

end PacketTrust
