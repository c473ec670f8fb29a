import PacketTrust.Proofs.Validation.Hierarchy
import PacketTrust.Proofs.Validation.Reports

/-! Sessions that nobody disturbs, while the clock stands still. What is trusted then stays as it
was at first, and of the unverified certificates there are only those that were retrieved. Main
statement: a retrieval that fails no more often than it is repeated goes on until the network
answers. -/

namespace PacketTrust

namespace Network

variable {n m : Network} {asked : List Interest}

def replies (n : Network) : List Interest → List Response
  | [] => []
  | i :: rest => (n.respond i).1 :: (n.respond i).2.replies rest

theorem replies_congr (hs : n.script = m.script) (hp : n.published = m.published) :
    n.replies asked = m.replies asked := by
  induction asked generalizing n m with
  | nil => rfl
  | cons i rest ih =>
    obtain ⟨script, published, expressed, time⟩ := n
    obtain ⟨script', published', expressed', time'⟩ := m
    obtain rfl : script = script' := hs
    obtain rfl : published = published' := hp
    rw [replies, replies]
    unfold respond
    dsimp only
    cases script with
    | cons response script => exact congrArg _ (ih rfl rfl)
    | nil => cases published.find? i.matchesData <;> exact congrArg _ (ih rfl rfl)

theorem length_replies (n : Network) (asked : List Interest) :
    (n.replies asked).length = asked.length := by
  induction asked generalizing n with
  | nil => rfl
  | cons i rest ih => rw [replies, List.length_cons, List.length_cons, ih]

theorem expressed_respond (n : Network) (i : Interest) :
    (n.respond i).2.expressed.map (·.interest) = n.expressed.map (·.interest) ++ [i] := by
  unfold respond
  dsimp only
  cases n.script with
  | cons response script => simp
  | nil => cases n.published.find? i.matchesData <;> simp

/-- What a network has become after Interests were sent, in whatever time. -/
structure After (n : Network) (sent : List Interest) (m : Network) : Prop where
  replies : ∀ later, n.replies (sent ++ later) = n.replies sent ++ m.replies later
  expressed : m.expressed.map (·.interest) = n.expressed.map (·.interest) ++ sent

theorem After.refl (n : Network) : n.After [] n := ⟨fun _ => rfl, (List.append_nil _).symm⟩

theorem After.trans {l : Network} {sent more : List Interest} (h : n.After sent m)
    (h' : m.After more l) : n.After (sent ++ more) l := by
  constructor
  case replies =>
    intro later
    rw [List.append_assoc, h.replies, h'.replies, h.replies, List.append_assoc]
  case expressed => rw [h'.expressed, h.expressed, List.append_assoc]

theorem after_respond (n : Network) (i : Interest) : n.After [i] (n.respond i).2 :=
  ⟨fun _ => rfl, n.expressed_respond i⟩

/-- What a network answers at first tells what it answers after that. -/
theorem After.split {sent later : List Interest} {first rest : List Response} (h : n.After sent m)
    (hn : n.replies (sent ++ later) = first ++ rest) (hlen : sent.length = first.length) :
    n.replies sent = first ∧ m.replies later = rest := by
  rw [h.replies] at hn
  exact List.append_inj hn ((n.length_replies sent).trans hlen)

theorem exists_after (n : Network) (sent : List Interest) : ∃ m, n.After sent m := by
  induction sent generalizing n with
  | nil => exact ⟨n, .refl n⟩
  | cons i rest ih =>
    obtain ⟨m, hm⟩ := ih (n.respond i).2
    exact ⟨m, (n.after_respond i).trans hm⟩

theorem After.wait {sent : List Interest} (h : n.After sent m) (time : Nat) :
    n.After sent (m.wait time) := by
  refine ⟨fun later => ?_, h.expressed⟩
  rw [h.replies, m.replies_congr rfl rfl (m := m.wait time)]

end Network

structure Trusted where
  anchors : Anchors
  verified : Cache

/-- The certificate that answers an Interest, an anchor if possible. -/
def Trusted.answer (known : Trusted) (i : Interest) : Option Certificate :=
  match known.anchors.answer i with
  | some c => some c
  | none => known.verified.answer i

/-- The clock stands still at a moment; what is trusted is known, certificates were retrieved, and
some events are all that was told. -/
structure World.Stands (t : Instant) (known : Trusted) (got : List Certificate)
    (told : List Event) (w : World) : Prop where
  shows : ∀ n, w.clock.shows n = t
  policies : w.chain = [.hierarchy]
  refreshed : Anchors.refresh w.disk t w.storage.anchors = .ok () known.anchors
  verified : w.storage.verified.refresh t = known.verified
  unverified : ∀ e ∈ w.storage.unverified.entries.entries, ∃ c ∈ got, e.1 = c.name
  events : w.events = told

namespace World.Stands

variable {t : Instant} {known : Trusted} {got : List Certificate} {told : List Event} {w : World}
  {i : Interest} {f : Fetcher} {a : Attempt} {c : Certificate}

theorem now (h : w.Stands t known got told) : w.now = t := h.shows _

theorem findTrusted (h : w.Stands t known got told) (i : Interest) :
    ∃ w', World.findTrusted i w = .ok (known.answer i) w' ∧ w'.Stands t known got told := by
  have hrefresh : Anchors.refresh w.disk w.now w.storage.anchors = .ok () known.anchors := by
    rw [h.now]
    exact h.refreshed
  have hagain := Anchors.refresh_again h.refreshed
  have hnext : w.clock.next.now = t := h.shows _
  rw [findTrusted_of_refresh hrefresh, Trusted.answer, hnext, h.verified]
  cases known.anchors.answer i with
  | some c =>
    exact ⟨_, rfl, h.shows, h.policies, hagain, h.verified, h.unverified, h.events⟩
  | none =>
    have hverified : known.verified.refresh t = known.verified := by
      rw [← h.verified, Cache.refresh_refresh]
    exact ⟨_, rfl, h.shows, h.policies, hagain, hverified, h.unverified, h.events⟩

/-- A look among the unverified certificates finds none but those that were retrieved. -/
theorem lookup (h : w.Stands t known got told)
    (hnone : ∀ c ∈ got, c.name.startsWith i.name = false) :
    (w.storage.unverified.refresh w.now).answer i = none ∧
      World.Stands t known got told { w with
        clock := w.clock.next
        storage.unverified := w.storage.unverified.refresh w.now } := by
  have hkept : ∀ e ∈ (w.storage.unverified.refresh w.now).entries.entries,
      ∃ c ∈ got, e.1 = c.name := by
    intro e he
    rw [Cache.entries_refresh] at he
    exact h.unverified e (List.mem_filter.1 he).1
  constructor
  case left =>
    unfold Cache.answer
    rw [NameMap.findUnderWith_eq_none fun e he => ?_]
    · rfl
    · obtain ⟨c, hc, hname⟩ := hkept e he
      rw [hname]
      exact hnone c hc
  case right => exact ⟨h.shows, h.policies, h.refreshed, h.verified, hkept, h.events⟩

theorem fetch (h : w.Stands t known got told) (hf : f.wired) (hreach : f.reach = .network)
    {r : CertificateRequest} (hnone : ∀ c ∈ got, c.name.startsWith r.name = false) :
    ∃ w', f.fetch r w = .ok (.pending (.answer { request := r })) w' ∧
      w'.Stands t known got told := by
  obtain ⟨hanswer, hw⟩ := h.lookup hnone
  refine ⟨_, ?_, hw⟩
  rw [Fetcher.fetch_eq hf, hanswer, Option.elim_none, Fetcher.send, hreach]

theorem again (h : w.Stands t known got told) (hf : f.wired) (hreach : f.reach = .network)
    (hnone : ∀ c ∈ got, c.name.startsWith a.request.name = false) :
    ∃ w', f.again a w = .ok (.pending (.answer { a with levels := a.levels + 1 })) w' ∧
      w'.Stands t known got told := by
  obtain ⟨hanswer, hw⟩ := h.lookup hnone
  refine ⟨_, ?_, hw⟩
  rw [Fetcher.again, Act.bind_of_ok (Fetcher.lookup_of_wired hf _ w)]
  dsimp only
  rw [hanswer]
  dsimp only
  rw [Fetcher.send, hreach]
  rfl

theorem cacheUnverified (h : w.Stands t known got told) (hc : c ∈ got) :
    (w.cacheUnverified c).Stands t known got told := by
  have hunverified : ∀ e ∈ (w.storage.unverified.insert w.now c).entries.entries,
      ∃ d ∈ got, e.1 = d.name := by
    intro e he
    unfold Cache.insert at he
    split at he
    · exact h.unverified e he
    · rcases NameMap.mem_insert he with rfl | he
      · exact ⟨c, hc, rfl⟩
      · exact h.unverified e he
  exact ⟨h.shows, h.policies, h.refreshed, h.verified, hunverified, h.events⟩

theorem stock (h : w.Stands t known got told) (hc : c ∈ got) (times : Nat) :
    (World.stock c times w).Stands t known got told := by
  induction times generalizing w with
  | zero => exact h
  | succ times ih => exact ih (h.cacheUnverified hc)

theorem receive_data (h : w.Stands t known got told) (a : Attempt)
    (hc : Certificate.ofData c.data = .ok c) :
    ∃ w', f.receive a (.data c.data) w = .ok (.found c) w' ∧ w'.Stands t known (c :: got) told := by
  have hgot : w.Stands t known (c :: got) told := by
    refine ⟨h.shows, h.policies, h.refreshed, h.verified, fun e he => ?_, h.events⟩
    obtain ⟨d, hd, hname⟩ := h.unverified e he
    exact ⟨d, List.mem_cons_of_mem c hd, hname⟩
  refine ⟨World.stock c a.levels w, ?_, hgot.stock List.mem_cons_self a.levels⟩
  simp only [Fetcher.receive, hc]
  exact Fetcher.keep_eq a c w

theorem ask (h : w.Stands t known got told) (subject : Subject) {k : Name}
    (hk : subject.keyName = .ok k) (hn : subject.name.startsWith (k.take (-2)))
    (session : Session) :
    ∃ w', Validator.ask subject ⟨session, w⟩ = .ok (.request (.ofName k)) ⟨session, w'⟩ ∧
      w'.Stands t known got told := by
  exact ⟨w, Validator.ask_of_permitted h.policies subject hk hn session, h⟩

theorem accept (h : w.Stands t known got told) (hvalid : c.ValidAt t) {k : Name}
    (hk : c.data.signature.info.keyName = .ok k) (hn : c.name.startsWith (k.take (-2)))
    (session : Session) :
    ∃ w', Validator.accept c ⟨session, w⟩ =
        .ok (some (.ofName k)) ⟨session.addCertificate c, w'⟩ ∧ w'.Stands t known got told := by
  have htick : ({ w with clock := w.clock.next } : World).Stands t known got told :=
    ⟨h.shows, h.policies, h.refreshed, h.verified, h.unverified, h.events⟩
  have hopen : c.ValidAt w.now := by
    rw [h.now]
    exact hvalid
  exact ⟨_, Validator.accept_of_permitted h.policies hopen hk hn session, htick⟩

end World.Stands

structure Attempt.Repeats (a : Attempt) (i : Interest) (left : Nat) : Prop where
  interest : a.request.interest = i
  left : left ≤ a.request.retriesLeft
  patient : a.request.Patient

namespace World.Stands

open Validator

variable {v : Validator} {t : Instant} {known : Trusted} {got : List Certificate}
  {told : List Event} {w : World} {i : Interest} {a : Attempt} {c : Certificate} {n : Network}

theorem timeout (h : w.Stands t known got told) (hv : v.reach = .network) {left : Nat}
    (ha : a.Repeats i (left + 1)) (hnone : ∀ c ∈ got, c.name.startsWith i.name = false)
    (hr : (n.respond i).1 = .timeout) (session : Session) :
    ∃ b w' n', b.Repeats i left ∧ w'.Stands t known got told ∧ n.After [i] n' ∧
      ∀ task final, Finishes v (.ok (.waiting (.answer b)) ⟨session, w'⟩) n' task final →
        Finishes v (.ok (.waiting (.answer a)) ⟨session, w⟩) n task final := by
  obtain ⟨rfl, hleft, hpatient⟩ := ha
  have hnext := Fetcher.next?_of_left (a := a) (by omega)
  have hrespond : n.respond a.request.interest =
      (.timeout, (n.respond a.request.interest).2) := by
    rw [← hr]
  obtain ⟨w', hagain, hw'⟩ := h.again (f := v.fetcher)
    (a := { a with request.retriesLeft := a.request.retriesLeft - 1 }) rfl hv hnone
  have hreceive : v.fetcher.receive a .timeout w = .ok (.pending (.answer
      ⟨{ a.request with retriesLeft := a.request.retriesLeft - 1 }, a.levels + 1⟩)) w' := by
    simp only [Fetcher.receive, hnext]
    exact hagain
  refine ⟨⟨{ a.request with retriesLeft := a.request.retriesLeft - 1 }, a.levels + 1⟩, w', _, ?_,
    hw', n.after_respond a.request.interest, fun task final hf => .answer hrespond ?_⟩
  · refine ⟨rfl, ?_, Fetcher.receive_patient hreceive hpatient⟩
    change (left : Int) ≤ a.request.retriesLeft - 1
    omega
  · rw [Validator.receive, Act.bind_of_ok (Scene.onWorld_of_ok hreceive)]
    exact hf

theorem refusal (h : w.Stands t known got told) (hv : v.reach = .network) {left : Nat}
    (ha : a.Repeats i (left + 1)) (hnone : ∀ c ∈ got, c.name.startsWith i.name = false)
    (hr : (n.respond i).1 = .refused) (session : Session) :
    ∃ b w' n', b.Repeats i left ∧ w'.Stands t known got told ∧ n.After [i] n' ∧
      ∀ task final, Finishes v (.ok (.waiting (.answer b)) ⟨session, w'⟩) n' task final →
        Finishes v (.ok (.waiting (.answer a)) ⟨session, w⟩) n task final := by
  obtain ⟨rfl, hleft, hpatient⟩ := ha
  have hnext := Fetcher.next?_of_left (a := a) (by omega)
  have hrespond : n.respond a.request.interest =
      (.refused, (n.respond a.request.interest).2) := by
    rw [← hr]
  have hreceive : v.fetcher.receive a .refused w = .ok (.pending (.pause
      { a with request.retriesLeft := a.request.retriesLeft - 1 })) w := by
    simp only [Fetcher.receive, hnext]
    rfl
  have hpause := Fetcher.receive_patient hreceive hpatient
  obtain ⟨w', hagain, hw'⟩ := h.again (f := v.fetcher)
    (a := ⟨{ a.request with
      retriesLeft := a.request.retriesLeft - 1
      pause := a.request.pause.twice }, a.levels⟩) rfl hv hnone
  have hwake := (Fetcher.wake_of_inRange hpause.inRange w).trans hagain
  refine ⟨⟨{ a.request with
      retriesLeft := a.request.retriesLeft - 1
      pause := a.request.pause.twice }, a.levels + 1⟩, w', _, ?_, hw',
    (n.after_respond a.request.interest).wait ((n.respond a.request.interest).2.time +
      (n.respond a.request.interest).2.sleep a.request.pause),
    fun task final hf => .answer hrespond ?_⟩
  · refine ⟨rfl, ?_, Fetcher.wake_patient hwake hpause⟩
    change (left : Int) ≤ a.request.retriesLeft - 1
    omega
  · rw [Validator.receive, Act.bind_of_ok (Scene.onWorld_of_ok hreceive)]
    refine .pause ?_
    rw [Validator.wake, Act.bind_of_ok (Scene.onWorld_of_ok hwake)]
    exact hf

/-- A retrieval goes on as long as it may be repeated. -/
theorem failures (h : w.Stands t known got told) (hv : v.reach = .network)
    {failed : List Response} (hfailed : ∀ r ∈ failed, r = .timeout ∨ r = .refused)
    (ha : a.Repeats i failed.length) (hnone : ∀ c ∈ got, c.name.startsWith i.name = false)
    (hn : n.replies (List.replicate failed.length i) = failed) (session : Session) :
    ∃ b w' n', b.Repeats i 0 ∧ w'.Stands t known got told ∧
      n.After (List.replicate failed.length i) n' ∧
      ∀ task final, Finishes v (.ok (.waiting (.answer b)) ⟨session, w'⟩) n' task final →
        Finishes v (.ok (.waiting (.answer a)) ⟨session, w⟩) n task final := by
  induction failed generalizing a w n with
  | nil => exact ⟨a, w, n, ha, h, .refl n, fun _ _ hf => hf⟩
  | cons r rest ih =>
    obtain ⟨hr, hrest⟩ := List.forall_mem_cons.1 hfailed
    obtain ⟨hfirst, -⟩ := List.cons.inj hn
    rw [← hfirst] at hr
    obtain ⟨b, w₁, n₁, hb, hw₁, hn₁, hback⟩ :=
      hr.elim (h.timeout hv ha hnone · session) (h.refusal hv ha hnone · session)
    have hsplit : n.replies ([i] ++ List.replicate rest.length i) = [r] ++ rest := hn
    obtain ⟨-, hlater⟩ := hn₁.split hsplit rfl
    obtain ⟨b', w', n', hb', hw', hn', hback'⟩ := ih hw₁ hrest hb hlater
    exact ⟨b', w', n', hb', hw', hn₁.trans hn', fun task final hf => hback _ _ (hback' _ _ hf)⟩

theorem retrieved (h : w.Stands t known got told) (hv : v.reach = .network)
    {failed : List Response} (hfailed : ∀ r ∈ failed, r = .timeout ∨ r = .refused)
    (ha : a.Repeats i failed.length) (hnone : ∀ c ∈ got, c.name.startsWith i.name = false)
    (hc : Certificate.ofData c.data = .ok c)
    (hn : n.replies (List.replicate (failed.length + 1) i) = failed ++ [.data c.data])
    (session : Session) :
    ∃ w' n', w'.Stands t known (c :: got) told ∧
      n.After (List.replicate (failed.length + 1) i) n' ∧
      ∀ task final, Finishes v (v.proceed (.found c) ⟨session, w'⟩) n' task final →
        Finishes v (.ok (.waiting (.answer a)) ⟨session, w⟩) n task final := by
  rw [List.replicate_succ'] at hn ⊢
  obtain ⟨m, hm⟩ := n.exists_after (List.replicate failed.length i)
  obtain ⟨hfirst, -⟩ := hm.split hn List.length_replicate
  obtain ⟨b, w₁, n₁, hb, hw₁, hn₁, hback⟩ := h.failures hv hfailed ha hnone hfirst session
  obtain ⟨-, hlast⟩ := hn₁.split hn List.length_replicate
  obtain ⟨w', hreceive, hw'⟩ := hw₁.receive_data (f := v.fetcher) b hc
  refine ⟨w', _, hw', hn₁.trans (n₁.after_respond i), fun task final hf => hback _ _ ?_⟩
  have hrespond : n₁.respond b.request.interest = (.data c.data, (n₁.respond i).2) := by
    rw [hb.interest, ← (List.cons.inj hlast).1]
  refine .answer hrespond ?_
  rw [Validator.receive, Act.bind_of_ok (Scene.onWorld_of_ok hreceive)]
  exact hf

end World.Stands

end PacketTrust
