import PacketTrust.Proofs.Validation.Soundness
import PacketTrust.Proofs.Validation.Undisturbed

/-! How often a retrieval asks the network, and how long it pauses in between. After a timeout the
request is repeated at once, after a refusal when a pause is over, which is twice as long each time,
unless storage holds an answer by then. -/

namespace PacketTrust

def World.cached (w : World) (i : Interest) : Option Certificate :=
  (w.storage.unverified.refresh w.now).answer i

/-- Storage was looked into, or not even that. -/
def World.Looked (w w' : World) : Prop :=
  w' = w ∨ w' = { w with
    clock := w.clock.next
    storage.unverified := w.storage.unverified.refresh w.now }

theorem World.Looked.cached_eq_none {w w' : World} {i : Interest} (h : w.Looked w')
    (hnone : w.cached i = none) : w'.cached i = none := by
  rcases h with rfl | rfl
  · exact hnone
  · cases hc : (((w.storage.unverified.refresh w.now).refresh w.clock.next.now).answer i) with
    | none => exact hc
    | some c =>
      obtain ⟨e, he, hstarts, rfl, hmatches⟩ := Cache.answer_under hc
      rw [Cache.entries_refresh] at he
      obtain ⟨d, hd⟩ := Cache.exists_answer (List.mem_filter.1 he).1 hstarts hmatches
      cases hnone.symm.trans hd

def Response.Fails (response : Response) : Prop := response = .timeout ∨ response = .refused

namespace CertificateRequest

variable {r : CertificateRequest} {n : Network} {failed answers : List Response}

/-- How long the pause takes after a refusal that so many others went before. -/
def waitAfter (r : CertificateRequest) (n : Network) (refusals : Nat) : Nat :=
  n.sleep ⟨r.pause.nanoseconds * 2 ^ refusals⟩

def waited (r : CertificateRequest) (n : Network) : (refusals : Nat) → Nat
  | 0 => 0
  | refusals + 1 => r.waited n refusals + r.waitAfter n refusals

/-- How long was waited for before the attempt that follows on these answers. -/
def delay (r : CertificateRequest) (n : Network) (answers : List Response) : Nat :=
  r.waited n (answers.count .refused)

/-- The Interests that these were the answers to, the first of them sent at once. -/
def sendings (r : CertificateRequest) (n : Network) (answers : List Response) : List Expressed :=
  (List.range answers.length).map fun k => ⟨r.interest, n.time + r.delay n (answers.take k)⟩

def after (r : CertificateRequest) (failed : List Response) : CertificateRequest :=
  { r with
    retriesLeft := r.retriesLeft - failed.length
    pause := ⟨r.pause.nanoseconds * 2 ^ failed.count .refused⟩ }

def spent (r : CertificateRequest) (failed : List Response) : CertificateRequest :=
  { r.after failed with retriesLeft := (r.after failed).retriesLeft - 1 }

theorem delay_concat_timeout : r.delay n (failed ++ [.timeout]) = r.delay n failed := by
  simp [delay, List.count_append]

theorem delay_concat_refused :
    r.delay n (failed ++ [.refused]) =
      r.delay n failed + r.waitAfter n (failed.count .refused) := by
  simp [delay, List.count_append, waited]

theorem sendings_concat (answers : List Response) (a : Response) :
    r.sendings n (answers ++ [a]) =
      r.sendings n answers ++ [⟨r.interest, n.time + r.delay n answers⟩] := by
  have hbefore : ∀ k ∈ List.range answers.length, (answers ++ [a]).take k = answers.take k := by
    intro k hk
    exact List.take_append_of_le_length (Nat.le_of_lt (List.mem_range.1 hk))
  rw [sendings, List.length_append, List.length_singleton, List.range_succ, List.map_append,
    List.map_singleton, List.take_left, sendings]
  congr 1
  refine List.map_congr_left fun k hk => ?_
  rw [hbefore k hk]

theorem length_sendings (answers : List Response) :
    (r.sendings n answers).length = answers.length := by
  simp [sendings]

theorem after_nil : r.after [] = r := by
  simp [after]

theorem after_concat_timeout : r.after (failed ++ [.timeout]) = r.spent failed := by
  simp [after, spent, List.count_append, Int.sub_sub]

theorem after_concat_refused : r.after (failed ++ [.refused]) =
    { r.spent failed with pause := (r.spent failed).pause.twice } := by
  simp [after, spent, List.count_append, Int.sub_sub, Duration.twice, Nat.pow_succ, Nat.mul_assoc]

theorem Patient.inRange (h : r.Patient) (hlen : failed.length < r.retriesLeft.toNat) :
    (r.spent failed).pause.twice.inRange := by
  have hcount : failed.count .refused + 1 ≤ r.retriesLeft.toNat :=
    Nat.le_trans (Nat.succ_le_succ List.count_le_length) hlen
  refine Duration.inRange_mono ?_ h
  change r.pause.nanoseconds * 2 ^ failed.count .refused * 2 ≤ _
  rw [Nat.mul_assoc, ← Nat.pow_succ]
  exact Nat.mul_le_mul_left _ (Nat.pow_le_pow_right (Nat.succ_pos 1) hcount)

end CertificateRequest

namespace Network

variable {n n' : Network} {r : CertificateRequest} {answers : List Response}

/-- A network after it was asked for a request so often, and answered so; no time has passed since
the last pause. -/
structure Asked (n : Network) (r : CertificateRequest) (answers : List Response) (n' : Network) :
    Prop where
  after : n.After (List.replicate answers.length r.interest) n'
  replies : n.replies (List.replicate answers.length r.interest) = answers
  expressed : n'.expressed = n.expressed ++ r.sendings n answers
  longestSleep : n'.longestSleep = n.longestSleep

theorem time_respond (n : Network) (i : Interest) : (n.respond i).2.time = n.time := by
  unfold respond
  dsimp only
  cases n.script with
  | cons response script => rfl
  | nil => cases n.published.find? i.matchesData <;> rfl

theorem longestSleep_respond (n : Network) (i : Interest) :
    (n.respond i).2.longestSleep = n.longestSleep := by
  unfold respond
  dsimp only
  cases n.script with
  | cons response script => rfl
  | nil => cases n.published.find? i.matchesData <;> rfl

theorem expressed_respond_eq (n : Network) (i : Interest) :
    (n.respond i).2.expressed = n.expressed ++ [⟨i, n.time⟩] := by
  unfold respond
  dsimp only
  cases n.script with
  | cons response script => rfl
  | nil => cases n.published.find? i.matchesData <;> rfl

theorem asked_nil (n : Network) (r : CertificateRequest) : n.Asked r [] n :=
  ⟨.refl n, rfl, (List.append_nil _).symm, rfl⟩

/-- One more answer, to an Interest that is sent when the pauses before it are over. -/
theorem Asked.respond (h : n.Asked r answers n') (htime : n'.time = n.time + r.delay n answers) :
    n.Asked r (answers ++ [(n'.respond r.interest).1]) (n'.respond r.interest).2 := by
  have hafter := h.after.trans (n'.after_respond r.interest)
  constructor
  case after =>
    rw [List.length_append, List.length_singleton, List.replicate_succ']
    exact hafter
  case replies =>
    rw [List.length_append, List.length_singleton, List.replicate_succ', h.after.replies, h.replies]
    rfl
  case expressed =>
    rw [expressed_respond_eq, h.expressed, htime, r.sendings_concat, List.append_assoc]
  case longestSleep => exact (n'.longestSleep_respond _).trans h.longestSleep

theorem Asked.prefix_replies {k : Nat} (h : n.Asked r answers n') (hk : answers.length ≤ k) :
    answers <+: n.replies (List.replicate k r.interest) := by
  obtain ⟨more, rfl⟩ := Nat.exists_eq_add_of_le hk
  rw [← List.replicate_append_replicate, h.after.replies, h.replies]
  exact List.prefix_append _ _

theorem Asked.wait (h : n.Asked r answers n') (time : Nat) : n.Asked r answers (n'.wait time) :=
  ⟨h.after.wait time, h.replies, h.expressed, h.longestSleep⟩

end Network

namespace Fetcher

variable {f : Fetcher}

theorem send_of_network (hreach : f.reach = .network) (a : Attempt) :
    f.send a = .pending (.answer a) := by
  rw [send, hreach]

/-- An attempt looks into storage first, and asks the network if that does not hold what it is
for. -/
theorem fetch_of_network (hf : f.wired) (hreach : f.reach = .network) (r : CertificateRequest)
    (w : World) : ∃ w', f.fetch r w =
      .ok ((w.cached r.interest).elim (.pending (.answer { request := r })) .found) w' := by
  rw [fetch_eq hf, send_of_network hreach]
  exact ⟨_, rfl⟩

theorem again_of_network (hf : f.wired) (hreach : f.reach = .network) (a : Attempt) (w : World) :
    ∃ w', f.again a w = .ok ((w.cached a.request.interest).elim
      (.pending (.answer { a with levels := a.levels + 1 })) .found) w' := by
  rw [again, Act.bind_of_ok (lookup_of_wired hf a.request w), World.cached]
  cases (w.storage.unverified.refresh w.now).answer a.request.interest with
  | some c => exact ⟨_, keep_eq a c _⟩
  | none =>
    dsimp only
    rw [send_of_network hreach]
    exact ⟨_, rfl⟩

/-- A retrieval that waits has done no more to the world than to look into storage. -/
theorem looked_of_again (hf : f.wired) {a : Attempt} {p : Pending} {w w' : World}
    (h : f.again a w = .ok (.pending p) w') : w.Looked w' := by
  rw [again, Act.bind_of_ok (lookup_of_wired hf a.request w)] at h
  cases hc : (w.storage.unverified.refresh w.now).answer a.request.interest with
  | some c =>
    rw [hc] at h
    cases (keep_eq a c _).symm.trans h
  | none =>
    rw [hc] at h
    injection h with _ h
    exact .inr h.symm

theorem looked_of_fetch (hf : f.wired) {r : CertificateRequest} {progress : Progress} {w w' : World}
    (h : f.fetch r w = .ok progress w') : w.Looked w' := by
  rw [fetch_eq hf] at h
  injection h with _ h
  exact .inr h.symm

theorem looked_of_receive (hf : f.wired) {a : Attempt} {response : Response} {p : Pending}
    {w w' : World} (h : f.receive a response w = .ok (.pending p) w') : w.Looked w' := by
  cases response with
  | data d => rcases f.receive_data a d w with ⟨c, -, hr⟩ | ⟨e, hr⟩ <;> simp [hr] at h
  | timeout =>
    cases hb : next? a with
    | some b =>
      simp only [receive, hb] at h
      exact looked_of_again hf h
    | none =>
      simp only [receive, hb] at h
      cases h
  | refused =>
    cases hb : next? a <;> simp only [receive, hb] at h <;> cases h
    exact .inl rfl

theorem looked_of_wake (hf : f.wired) {a : Attempt} {p : Pending} {w w' : World}
    (h : f.wake a w = .ok (.pending p) w') : w.Looked w' := by
  by_cases hp : a.request.pause.twice.inRange
  · rw [wake_of_inRange hp] at h
    exact looked_of_again hf h
  · rw [wake, if_neg hp] at h
    cases h

end Fetcher

/-- An unverified certificate came in a number of times, unless it had expired by then. -/
structure World.Stocks (w w' : World) (c : Certificate) (times : Nat) : Prop where
  world : w' = World.stock c times w
  held : (∃ k < times, ¬ c.validity.notAfter < w.clock.shows (w.clock.readings + k)) →
    w'.storage.unverified.Holds c
  expired : (∀ k < times, c.validity.notAfter < w.clock.shows (w.clock.readings + k)) →
    w'.storage.unverified = w.storage.unverified

namespace World

variable {w : World} {c : Certificate}

theorem holds_cacheUnverified
    (h : ¬ c.validity.notAfter < w.now ∨ w.storage.unverified.Holds c) :
    (w.cacheUnverified c).storage.unverified.Holds c := by
  change (w.storage.unverified.insert w.now c).Holds c
  unfold Cache.insert
  split
  · rename_i hexpired
    exact h.resolve_left (not_not_intro hexpired)
  · exact ⟨_, NameMap.mem_insert_self _ _ _, rfl⟩

theorem unverified_cacheUnverified (h : c.validity.notAfter < w.now) :
    (w.cacheUnverified c).storage.unverified = w.storage.unverified := if_pos h

theorem holds_stock (h : w.storage.unverified.Holds c) (times : Nat) :
    (stock c times w).storage.unverified.Holds c := by
  induction times generalizing w with
  | zero => exact h
  | succ times ih => exact ih (holds_cacheUnverified (.inr h))

theorem stocks_stock (w : World) (c : Certificate) (times : Nat) :
    w.Stocks (stock c times w) c times := by
  induction times generalizing w with
  | zero =>
    refine ⟨rfl, fun h => ?_, fun _ => rfl⟩
    obtain ⟨k, hk, -⟩ := h
    exact absurd hk (Nat.not_lt_zero k)
  | succ times ih =>
    have hrest := ih (w.cacheUnverified c)
    have hshows :
        ∀ k, (w.cacheUnverified c).clock.shows ((w.cacheUnverified c).clock.readings + k) =
        w.clock.shows (w.clock.readings + (k + 1)) := by
      intro k
      rw [Nat.add_comm k, ← Nat.add_assoc]
      rfl
    constructor
    case world => rfl
    case held =>
      rintro ⟨k, hk, hvalid⟩
      cases k with
      | zero => exact holds_stock (holds_cacheUnverified (.inl hvalid)) times
      | succ k =>
        rw [← hshows] at hvalid
        exact hrest.held ⟨k, Nat.lt_of_succ_lt_succ hk, hvalid⟩
    case expired =>
      intro h
      have hfirst := unverified_cacheUnverified (h 0 (Nat.succ_pos times))
      refine (hrest.expired fun k hk => ?_).trans hfirst
      rw [hshows]
      exact h (k + 1) (Nat.succ_lt_succ hk)

end World

/-- A retrieval for a request that has waited so often: what it has come to, the world and the
network. Before each of its steps others may have acted on the world, and left it as one among
these. -/
inductive Retrieval (f : Fetcher) (r : CertificateRequest) (among : World → Prop) (n : Network) :
    (waits : Nat) → Progress → World → Network → Prop
  | begin {w w' : World} {progress : Progress} :
      among w → f.fetch r w = .ok progress w' → Retrieval f r among n 0 progress w' n
  | goOn {waits : Nat} {p : Pending} {n' : Network} {before w w' : World} {progress : Progress} :
      Retrieval f r among n waits (.pending p) before n' → among w →
      (Run.resume f n' p).1 w = .ok progress w' →
      Retrieval f r among n (waits + 1) progress w' (Run.resume f n' p).2

namespace Retrieval

/-- All attempts so far failed, and no time passed but that of the pauses between them. -/
structure Failed (r : CertificateRequest) (n : Network) (failed : List Response) (n' : Network) :
    Prop where
  fails : ∀ a ∈ failed, a.Fails
  limit : failed.length ≤ r.retriesLeft.toNat
  time : n'.time = n.time + r.delay n failed

/-- How a retrieval may end after failed attempts: with what it finds in storage, or else with the
answer to one more Interest. -/
inductive Ends (r : CertificateRequest) (among : World → Prop) (n : Network)
    (failed : List Response) : Progress → World → Network → Prop
  | cached {c : Certificate} {w w' : World} {n' : Network} (around : among w)
      (found : w.cached r.interest = some c) (asked : n.Asked r failed n') :
      Ends r among n failed (.found c) w' n'
  | certificate {d : Data} {c : Certificate} {w w' : World} {n' : Network} (around : among w)
      (asked : n.Asked r (failed ++ [.data d]) n') (read : Certificate.ofData d = .ok c)
      (stored : w.Stocks w' c (failed.length + 1)) : Ends r among n failed (.found c) w' n'
  | malformed {d : Data} {e : CertificateError} {w : World} {n' : Network}
      (asked : n.Asked r (failed ++ [.data d]) n') (unread : Certificate.ofData d = .error e) :
      Ends r among n failed (.failed ⟨.malformedCertificate,
        s!"Fetched a malformed certificate `{d.name.uri}` ({e.message})"⟩) w n'
  | exhausted {a : Response} {w : World} {n' : Network} (fails : a.Fails)
      (last : failed.length = r.retriesLeft.toNat) (asked : n.Asked r (failed ++ [a]) n') :
      Ends r among n failed (.failed (Fetcher.exhausted r)) w n'

/-- Where a retrieval stands after so many waits. -/
def Stands (r : CertificateRequest) (among : World → Prop) (n : Network) (waits : Nat) :
    Progress → World → Network → Prop
  | .pending (.answer a), _, n' => ∃ failed, Failed r n failed n' ∧ n.Asked r failed n' ∧
      a = ⟨r.after failed, failed.length + 1⟩ ∧ waits = failed.length + failed.count .refused
  | .pending (.pause a), _, n' => ∃ failed, Failed r n failed n' ∧
      n.Asked r (failed ++ [.refused]) n' ∧ failed.length < r.retriesLeft.toNat ∧
      a = ⟨r.spent failed, failed.length + 1⟩ ∧
      waits = failed.length + failed.count .refused + 1
  | progress, w, n' => ∃ failed, Failed r n failed n' ∧ Ends r among n failed progress w n'

/-- What goes on after a wait is another attempt: after a pause, or after a timeout if any attempt
is left. -/
def Repeats (n : Network) : Pending → Prop
  | .answer a => (n.respond a.request.interest).1 = .timeout ∧ 1 ≤ a.request.retriesLeft
  | .pause _ => True

section

variable {f : Fetcher} {r : CertificateRequest} {among : World → Prop} {n n' : Network}
  {waits levels : Nat}
  {progress : Progress} {before w w' : World} {failed : List Response} {p : Pending}

theorem failed_nil : Failed r n [] n := ⟨by simp, Nat.zero_le _, rfl⟩

theorem Failed.concat {a : Response} (h : Failed r n failed n') (ha : a.Fails)
    (hlimit : failed.length < r.retriesLeft.toNat) {m : Network}
    (htime : m.time = n.time + r.delay n (failed ++ [a])) : Failed r n (failed ++ [a]) m := by
  constructor
  case fails =>
    intro b hb
    rcases List.mem_append.1 hb with hb | hb
    · exact h.fails b hb
    · rwa [List.mem_singleton.1 hb]
  case limit =>
    rw [List.length_append, List.length_singleton]
    exact hlimit
  case time => exact htime

/-- An attempt ends the retrieval if storage holds what it is for, and else waits for an answer. -/
theorem stands_attempt (hfailed : Failed r n failed n') (hasked : n.Asked r failed n')
    (hw : among w) (hwaits : waits = failed.length + failed.count .refused)
    (hp : progress = (w.cached r.interest).elim
      (.pending (.answer ⟨r.after failed, failed.length + 1⟩)) .found) :
    Stands r among n waits progress w' n' := by
  cases hc : w.cached r.interest with
  | some c =>
    rw [hc] at hp
    subst hp
    exact ⟨failed, hfailed, .cached hw hc hasked⟩
  | none =>
    rw [hc] at hp
    subst hp
    exact ⟨failed, hfailed, hasked, rfl, hwaits⟩

theorem stands_fetch (hf : f.wired) (hreach : f.reach = .network) (hw : among w)
    (h : f.fetch r w = .ok progress w') : Stands r among n 0 progress w' n := by
  obtain ⟨w₁, hfetch⟩ := Fetcher.fetch_of_network hf hreach r w
  rw [h] at hfetch
  injection hfetch with hp
  rw [← CertificateRequest.after_nil (r := r)] at hp
  exact stands_attempt failed_nil (n.asked_nil r) hw rfl hp

theorem next?_of_lt (hr : 0 ≤ r.retriesLeft) (hlt : failed.length < r.retriesLeft.toNat) :
    Fetcher.next? ⟨r.after failed, levels⟩ = some ⟨r.spent failed, levels⟩ := by
  refine Fetcher.next?_of_left ?_
  change 1 ≤ r.retriesLeft - failed.length
  omega

theorem next?_of_eq (hr : 0 ≤ r.retriesLeft) (heq : failed.length = r.retriesLeft.toNat) :
    Fetcher.next? ⟨r.after failed, levels⟩ = none := by
  refine if_neg ?_
  change ¬ 0 ≤ r.retriesLeft - failed.length - 1
  omega

theorem stands_data (hfailed : Failed r n failed n') (hasked : n.Asked r failed n') (hw : among w)
    {d : Data} (hd : (n'.respond r.interest).1 = .data d) :
    ∃ progress w', f.receive ⟨r.after failed, failed.length + 1⟩ (.data d) w = .ok progress w' ∧
      Stands r among n waits progress w' (n'.respond r.interest).2 := by
  have hanswered := hasked.respond hfailed.time
  rw [hd] at hanswered
  have htime : Failed r n failed (n'.respond r.interest).2 :=
    ⟨hfailed.fails, hfailed.limit, (n'.time_respond _).trans hfailed.time⟩
  cases hc : Certificate.ofData d with
  | ok c =>
    have hreceive : f.receive ⟨r.after failed, failed.length + 1⟩ (.data d) w =
        .ok (.found c) (World.stock c (failed.length + 1) w) := by
      simp only [Fetcher.receive, hc]
      exact Fetcher.keep_eq _ c w
    have hstored := w.stocks_stock c (failed.length + 1)
    exact ⟨_, _, hreceive, failed, htime, .certificate hw hanswered hc hstored⟩
  | error e =>
    have hreceive : f.receive ⟨r.after failed, failed.length + 1⟩ (.data d) w =
        .ok (.failed ⟨.malformedCertificate,
          s!"Fetched a malformed certificate `{d.name.uri}` ({e.message})"⟩) w := by
      simp only [Fetcher.receive, hc]
      rfl
    exact ⟨_, _, hreceive, failed, htime, .malformed hanswered hc⟩

theorem stands_exhausted (hfailed : Failed r n failed n') (hasked : n.Asked r failed n')
    (heq : failed.length = r.retriesLeft.toNat) (ha : (n'.respond r.interest).1.Fails) (w : World) :
    Stands r among n waits (.failed (Fetcher.exhausted r)) w (n'.respond r.interest).2 :=
  ⟨failed, ⟨hfailed.fails, hfailed.limit, (n'.time_respond _).trans hfailed.time⟩,
    .exhausted ha heq (hasked.respond hfailed.time)⟩

/-- After a timeout another attempt follows at once, if there is one left. -/
theorem stands_timeout (hf : f.wired) (hreach : f.reach = .network) (hr : 0 ≤ r.retriesLeft)
    (hfailed : Failed r n failed n') (hasked : n.Asked r failed n') (hw : among w)
    (ha : (n'.respond r.interest).1 = .timeout) :
    ∃ progress w', f.receive ⟨r.after failed, failed.length + 1⟩ .timeout w = .ok progress w' ∧
      Stands r among n (failed.length + failed.count .refused + 1) progress w'
        (n'.respond r.interest).2 ∧
      (failed.length < r.retriesLeft.toNat → ∀ c, w.cached r.interest = some c →
        progress = .found c) := by
  rcases Nat.lt_or_eq_of_le hfailed.limit with hlt | heq
  · obtain ⟨w', hagain⟩ := Fetcher.again_of_network hf hreach
      ⟨r.spent failed, failed.length + 1⟩ w
    have hreceive : f.receive ⟨r.after failed, failed.length + 1⟩ .timeout w =
        f.again ⟨r.spent failed, failed.length + 1⟩ w := by
      simp only [Fetcher.receive, next?_of_lt hr hlt]
    have hanswered := hasked.respond hfailed.time
    have htime := (n'.time_respond r.interest).trans hfailed.time
    rw [ha] at hanswered
    rw [← CertificateRequest.delay_concat_timeout] at htime
    refine ⟨_, w', hreceive.trans hagain, ?_, fun _ c hc => ?_⟩
    · refine stands_attempt (hfailed.concat (.inl rfl) hlt htime) hanswered hw ?_ ?_
      · simp [List.count_append, Nat.add_right_comm]
      · rw [CertificateRequest.after_concat_timeout, List.length_append, List.length_singleton]
        rfl
    · change (w.cached r.interest).elim _ _ = _
      rw [hc, Option.elim_some]
  · have hreceive : f.receive ⟨r.after failed, failed.length + 1⟩ .timeout w =
        .ok (.failed (Fetcher.exhausted r)) w := by
      simp only [Fetcher.receive, next?_of_eq hr heq]
      rfl
    exact ⟨_, w, hreceive, stands_exhausted hfailed hasked heq (.inl ha) w,
      fun hlt => absurd hlt (by omega)⟩

/-- After a refusal a pause comes before the next attempt, and none if that was the last. -/
theorem stands_refused (hr : 0 ≤ r.retriesLeft) (hfailed : Failed r n failed n')
    (hasked : n.Asked r failed n') (ha : (n'.respond r.interest).1 = .refused) (w : World) :
    ∃ progress w', f.receive ⟨r.after failed, failed.length + 1⟩ .refused w = .ok progress w' ∧
      Stands r among n (failed.length + failed.count .refused + 1) progress w'
        (n'.respond r.interest).2 := by
  rcases Nat.lt_or_eq_of_le hfailed.limit with hlt | heq
  · have hanswered := hasked.respond hfailed.time
    have htime := (n'.time_respond r.interest).trans hfailed.time
    rw [ha] at hanswered
    have hreceive : f.receive ⟨r.after failed, failed.length + 1⟩ .refused w =
        .ok (.pending (.pause ⟨r.spent failed, failed.length + 1⟩)) w := by
      simp only [Fetcher.receive, next?_of_lt hr hlt]
      rfl
    exact ⟨_, w, hreceive, failed, ⟨hfailed.fails, hfailed.limit, htime⟩, hanswered, hlt, rfl, rfl⟩
  · have hreceive : f.receive ⟨r.after failed, failed.length + 1⟩ .refused w =
        .ok (.failed (Fetcher.exhausted r)) w := by
      simp only [Fetcher.receive, next?_of_eq hr heq]
      rfl
    exact ⟨_, w, hreceive, stands_exhausted hfailed hasked heq (.inr ha) w⟩

theorem stands_wake (hf : f.wired) (hreach : f.reach = .network) (hpatient : r.Patient)
    (hfailed : Failed r n failed n') (hasked : n.Asked r (failed ++ [.refused]) n')
    (hlt : failed.length < r.retriesLeft.toNat) (hw : among w) :
    ∃ progress w', f.wake ⟨r.spent failed, failed.length + 1⟩ w = .ok progress w' ∧
      Stands r among n (failed.length + failed.count .refused + 2) progress w'
        (n'.wait (n'.time + n'.sleep (r.spent failed).pause)) ∧
      ∀ c, w.cached r.interest = some c → progress = .found c := by
  obtain ⟨w', hagain⟩ := Fetcher.again_of_network hf hreach
    ⟨r.after (failed ++ [.refused]), failed.length + 1⟩ w
  rw [CertificateRequest.after_concat_refused] at hagain
  have hwake := (Fetcher.wake_of_inRange (f := f) (a := ⟨r.spent failed, failed.length + 1⟩)
    (hpatient.inRange hlt) w).trans hagain
  have hsleep : n'.sleep (r.spent failed).pause = r.waitAfter n (failed.count .refused) := by
    rw [Network.sleep, hasked.longestSleep]
    rfl
  have htime : (n'.wait (n'.time + n'.sleep (r.spent failed).pause)).time =
      n.time + r.delay n (failed ++ [.refused]) := by
    rw [CertificateRequest.delay_concat_refused, ← Nat.add_assoc, ← hfailed.time, ← hsleep]
    exact Nat.max_eq_right (Nat.le_add_right _ _)
  refine ⟨_, w', hwake, ?_, fun c hc => ?_⟩
  · refine stands_attempt (hfailed.concat (.inr rfl) hlt htime) (hasked.wait _) hw ?_ ?_
    · simp [List.count_append]
      omega
    · rw [CertificateRequest.after_concat_refused, List.length_append, List.length_singleton]
      rfl
  · change (w.cached r.interest).elim _ _ = _
    rw [hc, Option.elim_some]

theorem Stands.goOn (hf : f.wired) (hreach : f.reach = .network) (hr : 0 ≤ r.retriesLeft)
    (hpatient : r.Patient) (h : Stands r among n waits (.pending p) before n') (hw : among w) :
    ∃ progress w', (Run.resume f n' p).1 w = .ok progress w' ∧
      Stands r among n (waits + 1) progress w' (Run.resume f n' p).2 ∧
      (Repeats n' p → ∀ c, w.cached r.interest = some c → progress = .found c) := by
  cases p with
  | answer a =>
    obtain ⟨failed, hfailed, hasked, rfl, rfl⟩ := h
    have hresume : Run.resume f n' (.answer ⟨r.after failed, failed.length + 1⟩) =
        (f.receive ⟨r.after failed, failed.length + 1⟩ (n'.respond r.interest).1,
          (n'.respond r.interest).2) := rfl
    rw [hresume]
    cases ha : (n'.respond r.interest).1 with
    | data d =>
      obtain ⟨progress, w', hok, hstands⟩ := stands_data (f := f) hfailed hasked hw ha
      exact ⟨progress, w', hok, hstands, fun hrepeats => by cases ha.symm.trans hrepeats.1⟩
    | timeout =>
      obtain ⟨progress, w', hok, hstands, hfound⟩ :=
        stands_timeout hf hreach hr hfailed hasked hw ha
      refine ⟨progress, w', hok, hstands, fun hrepeats => hfound ?_⟩
      have hleft : 1 ≤ r.retriesLeft - failed.length := hrepeats.2
      omega
    | refused =>
      obtain ⟨progress, w', hok, hstands⟩ := stands_refused (f := f) hr hfailed hasked ha w
      exact ⟨progress, w', hok, hstands, fun hrepeats => by cases ha.symm.trans hrepeats.1⟩
  | pause a =>
    obtain ⟨failed, hfailed, hasked, hlt, rfl, rfl⟩ := h
    obtain ⟨progress, w', hok, hstands, hfound⟩ :=
      stands_wake hf hreach hpatient hfailed hasked hlt hw
    exact ⟨progress, w', hok, hstands, fun _ => hfound⟩

theorem Stands.waits_le (h : Stands r among n waits (.pending p) before n') :
    waits ≤ 2 * r.retriesLeft.toNat := by
  cases p with
  | answer a =>
    obtain ⟨failed, hfailed, -, -, rfl⟩ := h
    have hlimit := hfailed.limit
    have hcount := failed.count_le_length (a := .refused)
    omega
  | pause a =>
    obtain ⟨failed, -, -, hlt, -, rfl⟩ := h
    have hcount := failed.count_le_length (a := .refused)
    omega

theorem stands (hf : f.wired) (hreach : f.reach = .network) (hr : 0 ≤ r.retriesLeft)
    (hpatient : r.Patient) (h : Retrieval f r among n waits progress w n') :
    Stands r among n waits progress w n' := by
  induction h with
  | begin hw hfetch => exact stands_fetch hf hreach hw hfetch
  | goOn _ hw hresume ih =>
    obtain ⟨progress, w', hok, hstands, -⟩ := ih.goOn hf hreach hr hpatient hw
    rw [hresume] at hok
    injection hok with hp hw'
    subst hp hw'
    exact hstands

theorem Stands.ends (h : Stands r among n waits progress w n') (hp : ∀ p, progress ≠ .pending p) :
    ∃ failed, Failed r n failed n' ∧ Ends r among n failed progress w n' := by
  cases progress with
  | found c => exact h
  | failed e => exact h
  | pending p => exact absurd rfl (hp p)

end

def result? : Progress → Option (Except ValidationError Certificate)
  | .found c => some (.ok c)
  | .failed e => some (.error e)
  | .pending _ => none

section

variable {f : Fetcher} {r : CertificateRequest} {among : World → Prop} {n : Network} {waits : Nat}
  {progress : Progress} {around : Surroundings}

variable (around) in
/-- A retrieval that nobody disturbs is run to its end, if it is let wait as often as there may be
need. -/
theorem exists_retrieve (hf : f.wired) (hreach : f.reach = .network) (hr : 0 ≤ r.retriesLeft)
    (hpatient : r.Patient) (hamong : ∀ w w', World.Looked w w' → among w → among w') (left : Nat)
    (hp : ∀ p, progress = .pending p →
      2 * r.retriesLeft.toNat < waits + left ∧ among around.world)
    (h : Retrieval f r among n waits progress around.world around.network) :
    ∃ waits' progress' result after, result? progress' = some result ∧
      Retrieval f r among n waits' progress' after.world after.network ∧
      Run.retrieve f left progress around = (.ok result, after) := by
  induction left generalizing waits progress around with
  | zero =>
    cases progress with
    | pending p =>
      -- A retrieval waits at most twice for each attempt, so one that still waits has waits left.
      have hle := (h.stands hf hreach hr hpatient).waits_le
      have hlt := (hp p rfl).1
      omega
    | _ => exact ⟨_, _, _, around, rfl, h, rfl⟩
  | succ left ih =>
    cases progress with
    | pending p =>
      obtain ⟨hlt, hw⟩ := hp p rfl
      obtain ⟨progress, w', hok, -, -⟩ :=
        (h.stands hf hreach hr hpatient).goOn hf hreach hr hpatient hw
      have hgoes : Run.retrieve f (left + 1) (.pending p) around =
          Run.retrieve f left progress ⟨w', (Run.resume f around.network p).2⟩ := by
        rw [Run.retrieve]
        simp only [hok]
      rw [hgoes]
      refine ih _ (fun q hq => ⟨by omega, ?_⟩) (.goOn h hw hok)
      subst hq
      refine hamong _ _ ?_ hw
      cases p with
      | answer a => exact Fetcher.looked_of_receive hf hok
      | pause a => exact Fetcher.looked_of_wake hf hok
    | _ => exact ⟨_, _, _, around, rfl, h, rfl⟩

variable (around) in
theorem exists_fetch (hf : f.wired) (hreach : f.reach = .network) (hr : 0 ≤ r.retriesLeft)
    (hpatient : r.Patient) (hamong : ∀ w w', World.Looked w w' → among w → among w')
    (hw : among around.world) : ∃ waits progress result after, result? progress = some result ∧
      Retrieval f r among around.network waits progress after.world after.network ∧
      Run.fetch f (f.fetch r) around = (.ok result, after) := by
  obtain ⟨w', hok⟩ := Fetcher.fetch_of_network hf hreach r around.world
  have hbegun := Retrieval.begin (n := around.network) hw hok
  rw [Run.fetch, hok]
  refine exists_retrieve ⟨w', around.network⟩ hf hreach hr hpatient hamong _
    (fun p hp => ⟨?_, ?_⟩) hbegun
  · rw [hp] at hok ⊢
    rw [Fetcher.fetch_pending hok, Progress.waits, Pending.attempt]
    dsimp only
    omega
  · exact hamong _ _ (Fetcher.looked_of_fetch hf hok) hw

theorem Ends.asked {failed : List Response} {w : World} {n' : Network}
    (h : Ends r among n failed progress w n') :
    ∃ answers, answers.length ≤ failed.length + 1 ∧ n.Asked r answers n' := by
  cases h with
  | cached _ _ asked => exact ⟨failed, Nat.le_succ _, asked⟩
  | certificate _ asked => exact ⟨_, by simp, asked⟩
  | malformed asked => exact ⟨_, by simp, asked⟩
  | exhausted _ _ asked => exact ⟨_, by simp, asked⟩

theorem not_forall_fails {d : Data} {failed : List Response} {n' : Network}
    (hfailed : Failed r n failed n') (hasked : n.Asked r (failed ++ [.data d]) n') :
    ¬ ∀ a ∈ n.replies (List.replicate (r.retriesLeft.toNat + 1) r.interest), a.Fails := by
  intro hall
  have hlimit := hfailed.limit
  have hbeginning := hasked.prefix_replies (k := r.retriesLeft.toNat + 1) (by simpa using hlimit)
  rcases hall (.data d) (hbeginning.subset (by simp)) with h | h <;> cases h

/-- Where storage never holds an answer, a retrieval is given up just if all its attempts failed. -/
theorem Ends.exhausted_iff {failed : List Response} {w : World} {n' : Network}
    (h : Ends r among n failed progress w n') (hfailed : Failed r n failed n')
    (hmissing : ∀ w, among w → w.cached r.interest = none) :
    progress = .failed (Fetcher.exhausted r) ↔
      ∀ a ∈ n.replies (List.replicate (r.retriesLeft.toNat + 1) r.interest), a.Fails := by
  cases h with
  | cached around found _ => cases (hmissing _ around).symm.trans found
  | certificate _ asked _ _ =>
    exact iff_of_false (by simp) (not_forall_fails hfailed asked)
  | malformed asked _ =>
    exact iff_of_false (by simp [Fetcher.exhausted]) (not_forall_fails hfailed asked)
  | exhausted fails last asked =>
    refine iff_of_true rfl ?_
    have hanswers := asked.replies
    rw [List.length_append, List.length_singleton, last] at hanswers
    rw [hanswers]
    intro a ha
    rcases List.mem_append.1 ha with ha | ha
    · exact hfailed.fails a ha
    · rwa [List.mem_singleton.1 ha]

/-- A retrieval comes to its end: with the first Data, or with the failure of its last attempt. An
attempt follows a timeout at once, and a refusal after a pause that lasts twice as long as the one
before it, up to the longest wait. -/
theorem repeats_with_doubled_pauses (hf : f.wired) (hreach : f.reach = .network)
    (hr : 0 ≤ r.retriesLeft) (hpatient : r.Patient) (among : World → Prop) (n : Network) :
    (∀ w, ∃ progress w', f.fetch r w = .ok progress w' ∧
      ∀ c, w.cached r.interest = some c → progress = .found c) ∧
    (∀ waits p before n', Retrieval f r among n waits (.pending p) before n' →
      waits ≤ 2 * r.retriesLeft.toNat ∧
      ∀ w, among w → ∃ progress w', (Run.resume f n' p).1 w = .ok progress w' ∧
        (Repeats n' p → ∀ c, w.cached r.interest = some c → progress = .found c)) ∧
    (∀ waits progress w n', Retrieval f r among n waits progress w n' →
      (∀ p, progress ≠ .pending p) →
        (∃ failed, Failed r n failed n' ∧ Ends r among n failed progress w n') ∧
        n'.expressed.length ≤ n.expressed.length + (r.retriesLeft.toNat + 1) ∧
        ((∀ w, among w → w.cached r.interest = none) →
          (progress = .failed (Fetcher.exhausted r) ↔
            ∀ a ∈ n.replies (List.replicate (r.retriesLeft.toNat + 1) r.interest), a.Fails))) ∧
    ∀ start : World, start.cached r.interest = none →
      ∃ waits progress result after, result? progress = some result ∧
        Retrieval f r (·.cached r.interest = none) n waits progress after.world after.network ∧
        Run.fetch f (f.fetch r) ⟨start, n⟩ = (.ok result, after) := by
  refine ⟨fun w => ?_, fun waits p before n' h => ⟨?_, fun w hw => ?_⟩,
    fun waits progress w n' h hp => ?_, fun start hstart => ?_⟩
  · obtain ⟨w', hok⟩ := Fetcher.fetch_of_network hf hreach r w
    exact ⟨_, w', hok, fun c hc => by rw [hc, Option.elim_some]⟩
  · exact (h.stands hf hreach hr hpatient).waits_le
  · obtain ⟨progress, w', hok, -, hfound⟩ :=
      (h.stands hf hreach hr hpatient).goOn hf hreach hr hpatient hw
    exact ⟨progress, w', hok, hfound⟩
  · obtain ⟨failed, hfailed, hends⟩ := (h.stands hf hreach hr hpatient).ends hp
    obtain ⟨answers, hlength, hasked⟩ := hends.asked
    have hlimit := hfailed.limit
    refine ⟨⟨failed, hfailed, hends⟩, ?_, hends.exhausted_iff hfailed⟩
    rw [hasked.expressed, List.length_append, CertificateRequest.length_sendings]
    omega
  · exact exists_fetch ⟨start, n⟩ hf hreach hr hpatient
      (fun w w' hlook => hlook.cached_eq_none) hstart

end

namespace Sample

def fetcher : Fetcher := { reach := .network }

def request : CertificateRequest := .ofName (Course.Sample.keyName [2] 2)

/-- A request with one repetition, after a pause of more than thirty thousand years. -/
def patient : CertificateRequest :=
  { request with retriesLeft := 1, pause := .ofMillis 1000000000000000 }

def network : Network := { script := [.timeout, .refused, .refused, .data Course.Sample.leaf.data] }

end Sample

/-- After a timeout and two refusals the network answers with a certificate. -/
theorem repeats_with_doubled_pauses_sample :
    Sample.fetcher.wired ∧ Sample.fetcher.reach = .network ∧ 0 ≤ Sample.request.retriesLeft ∧
      Sample.request.Patient ∧
      ∃ failed progress after, Failed Sample.request Sample.network failed after.network ∧
        Ends Sample.request (·.cached Sample.request.interest = none) Sample.network failed progress
          after.world after.network ∧
        after.network.expressed.map (·.time) = [0, 0, 500000000, 1500000000] ∧
        Run.fetch Sample.fetcher (Sample.fetcher.fetch Sample.request)
            ⟨Course.Sample.world, Sample.network⟩ = (.ok (.ok Course.Sample.leaf), after) := by
  have hpatient : Sample.request.Patient := CertificateRequest.patient_ofName _
  obtain ⟨-, -, hends, hrun⟩ := repeats_with_doubled_pauses (f := Sample.fetcher)
    (r := Sample.request) rfl rfl (by decide) hpatient (·.cached Sample.request.interest = none)
    Sample.network
  obtain ⟨waits, progress, result, after, hresult, hretrieval, hfetch⟩ :=
    hrun Course.Sample.world rfl
  have hended : ∀ p, progress ≠ .pending p := by
    rintro p rfl
    cases hresult
  obtain ⟨⟨failed, hfailed, hend⟩, -⟩ := hends _ _ _ _ hretrieval hended
  obtain ⟨after', hfound, htimes⟩ : ∃ after', Run.fetch Sample.fetcher
      (Sample.fetcher.fetch Sample.request) ⟨Course.Sample.world, Sample.network⟩ =
        (.ok (.ok Course.Sample.leaf), after') ∧
      after'.network.expressed.map (·.time) = [0, 0, 500000000, 1500000000] := ⟨_, rfl, rfl⟩
  obtain rfl : after = after' := congrArg Prod.snd (hfetch.symm.trans hfound)
  exact ⟨rfl, rfl, by decide, hpatient, failed, progress, after, hfailed, hend, htimes, hfound⟩

/-- A pause of more than thirty years of 365 days is not waited for to its end. -/
theorem longest_wait_ends_pause :
    0 ≤ Sample.patient.retriesLeft ∧ Sample.patient.Patient ∧
      Course.Sample.world.cached Sample.patient.interest = none ∧
      ∃ result after, Run.fetch Sample.fetcher (Sample.fetcher.fetch Sample.patient)
          ⟨Course.Sample.world, { script := [.refused, .timeout] }⟩ = (.ok result, after) ∧
        after.network.expressed.map (·.time) = [0, 946080000000000000] ∧
        946080000000000000 < Sample.patient.pause.nanoseconds * 2 ^ 0 := by
  have hpatient : Sample.patient.Patient := by
    change Duration.inRange _
    decide
  exact ⟨by decide, hpatient, rfl, _, _, rfl, rfl, by decide⟩

end Retrieval

end PacketTrust
