import PacketTrust.Proofs.Storage.Contents
import PacketTrust.Validation.Fetch

/-! What searches and retrieval come to. A search answers the Interest that it is for, with a
certificate that is held. So does retrieval, as far as the network answers what it was asked, and
all that it changes of the world is the clock and the unverified certificates. -/

namespace PacketTrust

theorem Certificate.ofData_ok {d : Data} {c : Certificate} (h : Certificate.ofData d = .ok c) :
    c.data = d := by
  unfold Certificate.ofData at h
  split at h
  · cases h
  split at h
  · cases h
  split at h
  · cases h
  split at h
  · cases h
    rfl
  · cases h

namespace World

variable {w w' : World} {i : Interest}

theorem onStorage_of_ok {α : Type} {act : Disk → Instant → Act Storage α} {a : α}
    {storage : Storage} (h : act w.disk w.now w.storage = .ok a storage) :
    onStorage act w = .ok a { w with clock := w.clock.next, storage } := by
  have hread : readClock w = .ok w.now { w with clock := w.clock.next } := rfl
  rw [onStorage, Act.bind_of_ok hread, Act.get_bind]
  exact Act.within_of_ok h

theorem onStorage_of_error {α : Type} {act : Disk → Instant → Act Storage α} {fault : Fault}
    {storage : Storage} (h : act w.disk w.now w.storage = .error fault storage) :
    onStorage act w = .error fault { w with clock := w.clock.next, storage } := by
  have hread : readClock w = .ok w.now { w with clock := w.clock.next } := rfl
  rw [onStorage, Act.bind_of_ok hread, Act.get_bind]
  exact Act.within_of_error h

theorem left_onStorage {α : Type} (act : Disk → Instant → Act Storage α) (w : World) :
    (onStorage act).left w =
      { w with clock := w.clock.next, storage := (act w.disk w.now).left w.storage } := by
  cases h : act w.disk w.now w.storage with
  | ok a storage => rw [Act.left_of_ok (onStorage_of_ok h), Act.left_of_ok h]
  | error fault storage => rw [Act.left_of_error (onStorage_of_error h), Act.left_of_error h]

/-- A search reads the sources of the anchors again, and goes on among the verified certificates if
no anchor answers. -/
theorem findTrusted_of_refresh {anchors : Anchors}
    (h : Anchors.refresh w.disk w.now w.storage.anchors = .ok () anchors) :
    findTrusted i w = match anchors.answer i with
      | some c => .ok (some c) { w with clock := w.clock.next, storage.anchors := anchors }
      | none => .ok ((w.storage.verified.refresh w.clock.next.now).answer i)
          { w with
            clock := w.clock.next.next
            storage.anchors := anchors
            storage.verified := w.storage.verified.refresh w.clock.next.now } := by
  have hanchors :
      onStorage (fun disk now => Storage.onAnchors (Anchors.findInterest disk now i)) w =
      .ok (anchors.answer i) { w with clock := w.clock.next, storage.anchors := anchors } :=
    onStorage_of_ok (Act.within_of_ok (Anchors.findInterest_of_refresh i h))
  rw [findTrusted, Act.bind_of_ok hanchors]
  cases anchors.answer i <;> rfl

theorem findTrusted_of_fault {fault : Fault} {anchors : Anchors}
    (h : Anchors.refresh w.disk w.now w.storage.anchors = .error fault anchors) :
    findTrusted i w =
      .error fault { w with clock := w.clock.next, storage.anchors := anchors } := by
  have hanchors : Anchors.findInterest w.disk w.now i w.storage.anchors = .error fault anchors :=
    Act.bind_of_error h
  have hsearch : onStorage (fun disk now => Storage.onAnchors (Anchors.findInterest disk now i)) w =
      .error fault { w with clock := w.clock.next, storage.anchors := anchors } :=
    onStorage_of_error (Act.within_of_error hanchors)
  exact Act.bind_of_error hsearch

/-- A search changes no more than the clock, the anchors by their sources, and the verified
certificates by those whose time has passed. -/
theorem left_findTrusted (i : Interest) (w : World) : ∃ readings verified,
    (∀ c, verified.Holds c → w.storage.verified.Holds c) ∧
      (findTrusted i).left w =
        { w with
          clock.readings := readings
          storage.anchors := (Anchors.refresh w.disk w.now).left w.storage.anchors
          storage.verified := verified } := by
  rcases Anchors.refresh_cases w.disk w.now w.storage.anchors with
    ⟨anchors, h, -⟩ | ⟨⟨anchors, h⟩, -⟩
  · rw [Act.left_of_ok h, Act.left, findTrusted_of_refresh h]
    cases anchors.answer i with
    | some c => exact ⟨_, w.storage.verified, fun _ hc => hc, rfl⟩
    | none => exact ⟨_, _, fun _ hc => Cache.holds_of_refresh hc, rfl⟩
  · rw [Act.left_of_error h, Act.left, findTrusted_of_fault h]
    exact ⟨_, w.storage.verified, fun _ hc => hc, rfl⟩

/-- What a search finds is an anchor from then on, or was verified. -/
theorem findTrusted_ok {found : Option Certificate} (h : findTrusted i w = .ok found w') :
    (∀ c, found = some c → i.matchesData c.data ∧
      (w'.storage.anchors.Holds c ∨ w.storage.verified.Holds c)) ∧ w'.chain = w.chain := by
  constructor
  case left =>
    rintro c rfl
    rcases Anchors.refresh_cases w.disk w.now w.storage.anchors with
      ⟨anchors, hr, -⟩ | ⟨⟨anchors, hr⟩, -⟩
    · rw [findTrusted_of_refresh hr] at h
      cases ha : anchors.answer i with
      | some d =>
        rw [ha] at h
        cases h
        obtain ⟨hheld, hm⟩ := Anchors.answer_some ha
        exact ⟨hm, .inl hheld⟩
      | none =>
        rw [ha] at h
        injection h with hfound
        obtain ⟨hheld, hm⟩ := Cache.answer_some hfound
        exact ⟨hm, .inr (Cache.holds_of_refresh hheld)⟩
    · rw [findTrusted_of_fault hr] at h
      cases h
  case right =>
    obtain ⟨_, _, -, hleft⟩ := left_findTrusted i w
    rw [← Act.left_of_ok h, hleft]

/-- A search goes wrong only where the source of some anchors cannot be read. -/
theorem findTrusted_error {fault : Fault} (h : findTrusted i w = .error fault w') :
    fault = .dateRange ∧ ¬ w.storage.anchors.RenewableAt w.now := by
  rcases Anchors.refresh_cases w.disk w.now w.storage.anchors with
    ⟨anchors, hr, -⟩ | ⟨⟨anchors, hr⟩, hn⟩
  · rw [findTrusted_of_refresh hr] at h
    split at h <;> cases h
  · rw [findTrusted_of_fault hr] at h
    cases h
    exact ⟨rfl, Anchors.not_renewableAt hn⟩

/-- Of the world, only the clock and the unverified certificates may differ. -/
def Restocked (w w' : World) : Prop :=
  ∃ readings unverified, w' = { w with
    clock.readings := readings
    storage.unverified := unverified }

theorem Restocked.refl (w : World) : w.Restocked w := ⟨_, _, rfl⟩

theorem Restocked.trans {w'' : World} (h : w.Restocked w') (h' : w'.Restocked w'') :
    w.Restocked w'' := by
  obtain ⟨_, _, rfl⟩ := h
  obtain ⟨_, _, rfl⟩ := h'
  exact ⟨_, _, rfl⟩

theorem restocked_stock (c : Certificate) (times : Nat) (w : World) :
    w.Restocked (stock c times w) := by
  induction times generalizing w with
  | zero => exact .refl w
  | succ times ih =>
    have hfirst : w.Restocked (w.cacheUnverified c) := ⟨_, _, rfl⟩
    exact hfirst.trans (ih (w.cacheUnverified c))

theorem Restocked.chain (h : w.Restocked w') : w'.chain = w.chain := by
  obtain ⟨_, _, rfl⟩ := h
  rfl

end World

/-- Retrieval for an Interest has found an answer to it, or still asks for one. -/
def Progress.Answers (i : Interest) : Progress → Prop
  | found c => i.matchesData c.data
  | failed _ => True
  | pending p => p.attempt.request.interest = i

namespace Fetcher

variable {f : Fetcher} {w w' : World} {progress : Progress}

theorem lookup_of_wired (hf : f.wired) (r : CertificateRequest) (w : World) :
    f.lookup r w = .ok ((w.storage.unverified.refresh w.now).answer r.interest)
      { w with
        clock := w.clock.next
        storage.unverified := w.storage.unverified.refresh w.now } := by
  rw [lookup, if_pos hf]
  rfl

theorem lookup_ok {r : CertificateRequest} {found : Option Certificate}
    (h : f.lookup r w = .ok found w') :
    (∀ c, found = some c → r.interest.matchesData c.data) ∧ w.Restocked w' := by
  by_cases hf : f.wired
  · rw [lookup_of_wired hf] at h
    injection h with hfound hw
    subst hfound hw
    exact ⟨fun c hc => (Cache.answer_some hc).2, _, _, rfl⟩
  · rw [lookup, if_neg hf] at h
    cases h

theorem send_answers (f : Fetcher) (a : Attempt) : (f.send a).Answers a.request.interest := by
  unfold send
  split
  · rfl
  · trivial

theorem send_pending {a : Attempt} {p : Pending} (h : f.send a = .pending p) : p = .answer a := by
  unfold send at h
  split at h
  · injection h with h
    exact h.symm
  · cases h

theorem keep_eq (a : Attempt) (c : Certificate) (w : World) :
    keep a c w = .ok (.found c) (World.stock c a.levels w) := rfl

theorem fetch_eq (hf : f.wired) (r : CertificateRequest) (w : World) :
    f.fetch r w = .ok
      (((w.storage.unverified.refresh w.now).answer r.interest).elim (f.send { request := r })
        .found)
      { w with
        clock := w.clock.next
        storage.unverified := w.storage.unverified.refresh w.now } := by
  rw [fetch, Act.bind_of_ok (lookup_of_wired hf r w)]
  cases (w.storage.unverified.refresh w.now).answer r.interest <;> rfl

theorem fetch_pending {r : CertificateRequest} {p : Pending}
    (h : f.fetch r w = .ok (.pending p) w') : p = .answer { request := r } := by
  obtain ⟨found, t, -, h⟩ := Act.bind_ok h
  cases found with
  | some c => cases h
  | none =>
    injection h with h
    exact send_pending h

theorem fetch_ok {r : CertificateRequest} (h : f.fetch r w = .ok progress w') :
    progress.Answers r.interest ∧ w.Restocked w' := by
  obtain ⟨found, t, h₁, h⟩ := Act.bind_ok h
  obtain ⟨hmatches, ht⟩ := lookup_ok h₁
  cases found with
  | some c =>
    cases h
    exact ⟨hmatches c rfl, ht⟩
  | none =>
    cases h
    exact ⟨send_answers f _, ht⟩

theorem again_of_wired (hf : f.wired) (a : Attempt) (w : World) :
    ∃ progress w', f.again a w = .ok progress w' := by
  rw [again, Act.bind_of_ok (lookup_of_wired hf a.request w)]
  cases (w.storage.unverified.refresh w.now).answer a.request.interest with
  | some c => exact ⟨_, _, keep_eq a c _⟩
  | none => exact ⟨_, _, rfl⟩

theorem again_pending {a : Attempt} {p : Pending} (h : f.again a w = .ok (.pending p) w') :
    p = .answer { a with levels := a.levels + 1 } := by
  obtain ⟨found, t, -, h⟩ := Act.bind_ok h
  cases found with
  | some c => cases (keep_eq a c t).symm.trans h
  | none =>
    injection h with h
    exact send_pending h

theorem again_ok {a : Attempt} (h : f.again a w = .ok progress w') :
    progress.Answers a.request.interest ∧ w.Restocked w' := by
  obtain ⟨found, t, h₁, h⟩ := Act.bind_ok h
  obtain ⟨hmatches, ht⟩ := lookup_ok h₁
  cases found with
  | some c =>
    cases (keep_eq a c t).symm.trans h
    exact ⟨hmatches c rfl, ht.trans (World.restocked_stock c a.levels t)⟩
  | none =>
    cases h
    exact ⟨send_answers f _, ht⟩

theorem next?_some {a b : Attempt} (h : next? a = some b) :
    1 ≤ a.request.retriesLeft ∧
      b = { a with request.retriesLeft := a.request.retriesLeft - 1 } := by
  unfold next? at h
  dsimp only at h
  split at h
  · rename_i hleft
    cases h
    exact ⟨by omega, rfl⟩
  · cases h

theorem next?_of_left {a : Attempt} (h : 1 ≤ a.request.retriesLeft) :
    next? a = some { a with request.retriesLeft := a.request.retriesLeft - 1 } :=
  if_pos (by omega)

theorem next?_interest {a b : Attempt} (h : next? a = some b) :
    b.request.interest = a.request.interest := by
  rw [(next?_some h).2]

/-- An answer from the network is taken in, or is no certificate. -/
theorem receive_data (a : Attempt) (d : Data) (w : World) :
    (∃ c, Certificate.ofData d = .ok c ∧
        f.receive a (.data d) w = .ok (.found c) (World.stock c a.levels w)) ∨
      ∃ e, f.receive a (.data d) w = .ok (.failed e) w := by
  cases hc : Certificate.ofData d with
  | ok c => exact .inl ⟨c, rfl, by simp only [receive, hc, keep_eq]⟩
  | error e => exact .inr ⟨_, by simp only [receive, hc]; rfl⟩

theorem receive_of_wired (hf : f.wired) (a : Attempt) (response : Response) (w : World) :
    ∃ progress w', f.receive a response w = .ok progress w' := by
  cases response with
  | data d =>
    rcases f.receive_data a d w with ⟨c, -, h⟩ | ⟨e, h⟩ <;> exact ⟨_, _, h⟩
  | timeout =>
    cases hb : next? a with
    | some b => simpa only [receive, hb] using again_of_wired hf b w
    | none => exact ⟨_, w, by simp only [receive, hb]; rfl⟩
  | refused => cases hb : next? a <;> exact ⟨_, w, by simp only [receive, hb]; rfl⟩

theorem receive_ok {a : Attempt} {response : Response}
    (h : f.receive a response w = .ok progress w') :
    ((∀ d, response = .data d → a.request.interest.matchesData d) →
      progress.Answers a.request.interest) ∧ w.Restocked w' := by
  cases response with
  | data d =>
    rcases f.receive_data a d w with ⟨c, hc, hr⟩ | ⟨e, hr⟩
    · cases hr.symm.trans h
      obtain rfl := Certificate.ofData_ok hc
      exact ⟨fun hd => hd _ rfl, World.restocked_stock c a.levels w⟩
    · obtain ⟨rfl, rfl⟩ : .failed e = progress ∧ w = w' := by simpa [hr] using h
      exact ⟨fun _ => trivial, .refl w⟩
  | timeout =>
    cases hb : next? a with
    | some b =>
      simp only [receive, hb] at h
      obtain ⟨hanswers, hw⟩ := again_ok h
      exact ⟨fun _ => next?_interest hb ▸ hanswers, hw⟩
    | none =>
      simp only [receive, hb] at h
      cases h
      exact ⟨fun _ => trivial, .refl w⟩
  | refused =>
    cases hb : next? a with
    | some b =>
      simp only [receive, hb] at h
      cases h
      exact ⟨fun _ => next?_interest hb, .refl w⟩
    | none =>
      simp only [receive, hb] at h
      cases h
      exact ⟨fun _ => trivial, .refl w⟩

theorem wake_of_inRange {a : Attempt} (h : a.request.pause.twice.inRange) (w : World) :
    f.wake a w = f.again { a with request.pause := a.request.pause.twice } w := by
  rw [wake, if_pos h]

theorem wake_ok {a : Attempt} (h : f.wake a w = .ok progress w') :
    progress.Answers a.request.interest ∧ w.Restocked w' := by
  by_cases hp : a.request.pause.twice.inRange
  · rw [wake_of_inRange hp] at h
    exact again_ok (a := { a with request.pause := a.request.pause.twice }) h
  · rw [wake, if_neg hp] at h
    cases h

/-- What is waited for after an answer is another answer or a pause, with one attempt fewer left. -/
theorem receive_pending {a : Attempt} {response : Response} {p : Pending}
    (h : f.receive a response w = .ok (.pending p) w') :
    1 ≤ a.request.retriesLeft ∧
      p.attempt.request = { a.request with retriesLeft := a.request.retriesLeft - 1 } := by
  cases response with
  | data d =>
    rcases f.receive_data a d w with ⟨c, -, hr⟩ | ⟨e, hr⟩ <;> simp [hr] at h
  | timeout =>
    cases hb : next? a with
    | some b =>
      simp only [receive, hb] at h
      obtain ⟨hleft, rfl⟩ := next?_some hb
      exact ⟨hleft, by rw [again_pending h]; rfl⟩
    | none =>
      simp only [receive, hb] at h
      cases h
  | refused =>
    cases hb : next? a with
    | some b =>
      simp only [receive, hb] at h
      obtain ⟨hleft, rfl⟩ := next?_some hb
      cases h
      exact ⟨hleft, rfl⟩
    | none =>
      simp only [receive, hb] at h
      cases h

theorem wake_pending {a : Attempt} {p : Pending} (h : f.wake a w = .ok (.pending p) w') :
    p = .answer { a with request.pause := a.request.pause.twice, levels := a.levels + 1 } := by
  by_cases hp : a.request.pause.twice.inRange
  · rw [wake_of_inRange hp] at h
    exact again_pending h
  · rw [wake, if_neg hp] at h
    cases h

/-- A fetcher that has its storage goes wrong only where a pause outgrows its range. -/
theorem wake_error {a : Attempt} {fault : Fault} (hf : f.wired)
    (h : f.wake a w = .error fault w') :
    fault = .durationRange ∧ w' = w ∧ ¬ a.request.pause.twice.inRange := by
  by_cases hp : a.request.pause.twice.inRange
  · obtain ⟨progress, t, ht⟩ :=
      again_of_wired hf { a with request.pause := a.request.pause.twice } w
    rw [wake_of_inRange hp, ht] at h
    cases h
  · rw [wake, if_neg hp] at h
    cases h
    exact ⟨rfl, rfl, hp⟩

end Fetcher

end PacketTrust
