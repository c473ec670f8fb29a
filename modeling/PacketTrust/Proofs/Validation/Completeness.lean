import PacketTrust.Proofs.Validation.Undisturbed

/-! Honest chains. Certificates lead from a packet to a trusted one, each told by the packet before
it, and the network answers the request for each after a few failures at most. -/

namespace PacketTrust.Completeness

open Course Scene Validator

/-- The trusted certificate that a search for a key comes to. -/
def Finds (w : World) (k : Name) (found : Option Certificate) : Prop :=
  ∃ w', World.findTrusted (CertificateRequest.ofName k).interest w = .ok found w'

/-- The signature of a packet is accepted under the key of a certificate. The key begins the name of
this certificate, and of no other one of a chain. -/
structure SignedBy (v : Verifier) (key : Data → Name) (chain : List Certificate) (s : Data)
    (signer : Certificate) : Prop where
  accepted : ∀ call, v.Accepts call (.data s) signer
  located : signer.name.startsWith (key s)
  alone : ∀ c ∈ chain, c.name.startsWith (key s) → c = signer

/-- A packet is signed by the first of some certificates, each of those by the next one, and the
last by the anchor. Of all these only the anchor is trusted. -/
def Leads (v : Verifier) (w : World) (key : Data → Name) (chain : List Certificate)
    (anchor : Certificate) : Data → List Certificate → Prop
  | s, [] => SignedBy v key chain s anchor ∧ Finds w (key s) (some anchor)
  | s, c :: rest =>
    SignedBy v key chain s c ∧ Finds w (key s) none ∧ Leads v w key chain anchor c.data rest

structure Honest (t : Instant) (key : Data → Name) (failures : Certificate → List Response)
    (d : Data) (certificates : List Certificate) : Prop where
  told : ∀ s ∈ d :: certificates.map (·.data), s.signature.info.keyName = .ok (key s)
  permitted : ∀ s ∈ d :: certificates.map (·.data), s.name.startsWith ((key s).take (-2))
  formed : ∀ c ∈ certificates, Certificate.ofData c.data = .ok c
  valid : ∀ c ∈ certificates, c.ValidAt t
  distinct : ((d :: certificates.map (·.data)).map key).Nodup
  apart : ∀ s ∈ d :: certificates.map (·.data), ∀ c ∈ certificates, key s ≠ c.name
  patient : ∀ c ∈ certificates,
    (failures c).length ≤ 3 ∧ ∀ r ∈ failures c, r = .timeout ∨ r = .refused

section

variable (key : Data → Name) (failures : Certificate → List Response)

/-- The Interests that are sent for a chain: one for each failure and one more for each
certificate. -/
def asked : Data → List Certificate → List Interest
  | _, [] => []
  | s, c :: rest =>
    List.replicate ((failures c).length + 1) (CertificateRequest.ofName (key s)).interest ++
      asked c.data rest

def answered (certificates : List Certificate) : List Response :=
  certificates.flatMap fun c => failures c ++ [.data c.data]

end

def Remembers (w : World) (c : Certificate) : Prop :=
  (w.storage.verified.entries.get? c.name).map (·.certificate) = some c

def collecting (d : Data) (got : List Certificate) (seen : List Name) : Session :=
  { packet := .data d, chain := got, seen }

structure Collected (v : Verifier) (t : Instant) (chain : List Certificate) (d : Data)
    (got : List Certificate) (s : Data) (certificates : List Certificate) : Prop where
  known : ∀ c ∈ got, c ∈ chain
  valid : ∀ c ∈ got, c.ValidAt t
  unique : ∀ c ∈ got, ∀ c' ∈ chain, c'.name = c.name → c' = c
  gone : ∀ c ∈ got, c ∉ certificates
  vouches : ∀ signer, (∀ call, v.Accepts call (.data s) signer) → ∀ call,
    v.AcceptsChain call signer got ∧ v.Accepts (call + got.length) (.data d) (got.getLastD signer)

/-- How it ends with a session that has collected some certificates of a chain, and has some to
go. -/
structure Completes (v : Validator) (d : Data) (told : List Event)
    (got certificates : List Certificate) (w : World) : Prop where
  valid : certificates.length < v.maxDepth - got.length →
    w.events = told ++ [.success d.name] ∧ ∀ c, c ∈ got ∨ c ∈ certificates → Remembers w c
  tooDeep : v.maxDepth - got.length ≤ certificates.length →
    w.events = told ++ [.failure d.name ⟨.depthLimit, toString v.maxDepth⟩]

section

variable {v : Validator} {t : Instant} {known : Trusted} {key : Data → Name}
  {failures : Certificate → List Response} {chain got certificates : List Certificate}
  {anchor c : Certificate} {d s : Data} {told : List Event} {w : World} {seen : List Name}

theorem Honest.tail (h : Honest t key failures s (c :: certificates)) :
    Honest t key failures c.data certificates := by
  constructor
  case told => exact fun s hs => h.told s (List.mem_cons_of_mem _ hs)
  case permitted => exact fun s hs => h.permitted s (List.mem_cons_of_mem _ hs)
  case formed => exact fun c hc => h.formed c (List.mem_cons_of_mem _ hc)
  case valid => exact fun c hc => h.valid c (List.mem_cons_of_mem _ hc)
  case distinct => exact (List.nodup_cons.1 h.distinct).2
  case apart =>
    exact fun s hs c hc => h.apart s (List.mem_cons_of_mem _ hs) c (List.mem_cons_of_mem _ hc)
  case patient => exact fun c hc => h.patient c (List.mem_cons_of_mem _ hc)

/-- A certificate does not come twice, for its key would. -/
theorem Honest.head_not_mem (h : Honest t key failures s (c :: certificates)) :
    c ∉ certificates := by
  intro hc
  have hkeys : (key c.data :: (certificates.map (·.data)).map key).Nodup :=
    (List.nodup_cons.1 h.distinct).2
  have hkey : key c.data ∈ (certificates.map (·.data)).map key :=
    List.mem_map_of_mem (List.mem_map_of_mem hc)
  exact (List.nodup_cons.1 hkeys).1 hkey

theorem Collected.start (v : Verifier) (t : Instant) (chain : List Certificate) (d : Data)
    (certificates : List Certificate) : Collected v t chain d [] d certificates := by
  constructor
  case vouches => exact fun signer hs call => ⟨trivial, hs call⟩
  all_goals simp

theorem Collected.cons {v : Verifier} (h : Collected v t chain d got s (c :: certificates))
    (hh : Honest t key failures s (c :: certificates)) (hs : SignedBy v key chain s c)
    (hc : c ∈ chain) : Collected v t chain d (c :: got) c.data certificates := by
  constructor
  case known => exact List.forall_mem_cons.2 ⟨hc, h.known⟩
  case valid => exact List.forall_mem_cons.2 ⟨hh.valid c List.mem_cons_self, h.valid⟩
  case unique =>
    refine List.forall_mem_cons.2 ⟨fun c' hc' hname => ?_, h.unique⟩
    have hstarts := hs.located
    rw [← hname] at hstarts
    exact hs.alone c' hc' hstarts
  case gone =>
    refine List.forall_mem_cons.2 ⟨hh.head_not_mem, fun c' hc' hmem => ?_⟩
    exact h.gone c' hc' (List.mem_cons_of_mem c hmem)
  case vouches =>
    intro signer hsigner call
    obtain ⟨hchain, hpacket⟩ := h.vouches c hs.accepted (call + 1)
    rw [List.length_cons, List.getLastD_cons]
    refine ⟨⟨hsigner call, hchain⟩, ?_⟩
    rwa [Nat.add_comm got.length, ← Nat.add_assoc]

/-- None that was collected has a name that begins with the next key. -/
theorem Collected.not_startsWith {v : Verifier}
    (h : Collected v t chain d got s (c :: certificates))
    (hs : SignedBy v key chain s c) : ∀ c' ∈ got, c'.name.startsWith (key s) = false := by
  intro c' hc'
  refine Bool.eq_false_iff.2 fun hstarts => ?_
  obtain rfl := hs.alone c' (h.known c' hc') hstarts
  exact h.gone c' hc' List.mem_cons_self

theorem entries_cacheVerified (hnow : w.now = t) (hvalid : c.ValidAt t) :
    (w.cacheVerified c).storage.verified.entries = w.storage.verified.entries.insert c.name
      ⟨c, Cache.removalTime w.storage.verified.lifetime t c⟩ := by
  have hopen : ¬ c.validity.notAfter < t := by
    have := hvalid.2
    rw [Instant.lt_def]
    rw [Instant.le_def] at this
    omega
  change (w.storage.verified.insert w.now c).entries = _
  rw [Cache.insert, hnow, if_neg hopen]

theorem remembers_cacheVerified (hnow : w.now = t) (hvalid : c.ValidAt t) :
    Remembers (w.cacheVerified c) c := by
  rw [Remembers, entries_cacheVerified hnow hvalid, NameMap.get?_insert, if_pos rfl]
  rfl

theorem Remembers.cacheVerified {c' : Certificate} (h : Remembers w c)
    (hname : c'.name = c.name → c' = c) : Remembers (w.cacheVerified c') c := by
  change ((w.storage.verified.insert w.now c').entries.get? c.name).map (·.certificate) = some c
  unfold Cache.insert
  split
  · exact h
  · dsimp only
    rw [NameMap.get?_insert]
    split
    · rename_i heq
      rw [hname heq]
      rfl
    · exact h

theorem remembers_fold (hshows : ∀ n, w.clock.shows n = t) (hvalid : c.ValidAt t)
    (hunique : ∀ c' ∈ got, c'.name = c.name → c' = c) (hc : c ∈ got ∨ Remembers w c) :
    Remembers (got.foldl World.cacheVerified w) c := by
  induction got generalizing w with
  | nil => exact hc.resolve_left List.not_mem_nil
  | cons c' rest ih =>
    obtain ⟨hname, hrest⟩ := List.forall_mem_cons.1 hunique
    refine ih (w := w.cacheVerified c') hshows hrest ?_
    rcases hc with hc | hc
    · rcases List.mem_cons.1 hc with rfl | hc
      · exact .inr (remembers_cacheVerified (hshows _) hvalid)
      · exact .inl hc
    · exact .inr (hc.cacheVerified hname)

/-- A session that has collected a chain from a trusted certificate on is found valid. -/
theorem conclude_collected (h : w.Stands t known got told) (seen : List Name) {signer : Certificate}
    (hv : v.Vouches signer ⟨collecting d got seen, w⟩) (hvalid : ∀ c ∈ got, c.ValidAt t)
    (hunique : ∀ c ∈ got, ∀ c' ∈ got, c'.name = c.name → c' = c) :
    ∃ s', v.conclude signer ⟨collecting d got seen, w⟩ = .ok () s' ∧
      s'.world.events = told ++ [.success d.name] ∧ ∀ c ∈ got, Remembers s'.world c := by
  obtain ⟨b, calls, s, part, hpart, -, hb, hs, hconclude⟩ := conclude_of_none v signer
    (s := ⟨collecting d got seen, w⟩) rfl
  obtain rfl : b = true := hb.2 hv
  obtain rfl : part = got := hpart.trans (Verifier.acceptedPart_of_acceptsChain hv.1)
  cases hs with
  | success hs =>
    rw [succeed_of_none rfl] at hs
    cases hs
    refine ⟨_, hconclude, ?_, fun c hc => ?_⟩
    · refine (events_cacheVerified part _).trans ?_
      change w.events ++ [.success d.name] = _
      rw [h.events]
    · exact remembers_fold h.shows (hvalid c hc) (hunique c hc) (.inl hc)

variable {n : Network} {room : Nat} {r : CertificateRequest}

/-- Without room for another certificate the depth is what is wrong, and the network is not
asked. -/
theorem exists_finishes_of_full (hroom : v.maxDepth - got.length = 0)
    (hw : w.Stands t known got told) (n : Network) :
    ∃ session final, Finishes v (v.pursue (v.maxDepth - got.length) (.ofName (key s))
        ⟨collecting d got seen, w⟩) n (.ended session) final ∧
      n.After (asked key failures s (certificates.take (v.maxDepth - got.length))) final.network ∧
      Completes v d told got certificates final.world := by
  have hfail :=
    fail_of_none (s := ⟨collecting d got seen, w⟩) ⟨.depthLimit, toString v.maxDepth⟩ rfl
  have hend : v.pursue 0 (.ofName (key s)) ⟨collecting d got seen, w⟩ = .ok .ended _ :=
    Act.bind_of_ok hfail
  rw [hroom, hend]
  refine ⟨_, _, .ended, .refl n, fun hlt => ?_, fun _ => ?_⟩
  · omega
  · rw [← hw.events]
    rfl

theorem pursue_new (hnew : r.name ∉ seen) :
    v.pursue (room + 1) r ⟨collecting d got seen, w⟩ =
      (onWorld (World.findTrusted r.interest) >>= fun found => match found with
        | some signer => v.conclude signer >>= fun _ => pure .ended
        | none => onWorld (v.fetcher.fetch r) >>= settle (v.pursue room))
          ⟨collecting d got (seen ++ [r.name]), w⟩ := by
  have hunseen : ¬ (collecting d got seen).hasSeen r.name = true := by
    simpa [collecting, Session.hasSeen] using hnew
  have hscene : (⟨(collecting d got seen).addSeen r.name, w⟩ : Scene) =
      ⟨collecting d got (seen ++ [r.name]), w⟩ := congrArg (Scene.mk · w) (if_neg hunseen)
  rw [← hscene, pursue, Act.get_bind, if_neg hunseen]
  exact updateSession_bind ..

theorem pursue_succ {found : Option Certificate} {w' : World} (hnew : r.name ∉ seen)
    (h : World.findTrusted r.interest w = .ok found w') :
    v.pursue (room + 1) r ⟨collecting d got seen, w⟩ = match found with
      | some signer => (v.conclude signer >>= fun _ => pure .ended)
          ⟨collecting d got (seen ++ [r.name]), w'⟩
      | none => (onWorld (v.fetcher.fetch r) >>= settle (v.pursue room))
          ⟨collecting d got (seen ++ [r.name]), w'⟩ := by
  have hfound : onWorld (World.findTrusted r.interest)
      ⟨collecting d got (seen ++ [r.name]), w⟩ =
        .ok found ⟨collecting d got (seen ++ [r.name]), w'⟩ := onWorld_of_ok h
  rw [pursue_new hnew, Act.bind_of_ok hfound]
  cases found <;> rfl

theorem collecting_addCertificate (got : List Certificate) (seen : List Name) (c : Certificate) :
    ∃ seen', (∀ k ∈ seen', k ∈ seen ∨ k = c.name) ∧
      ∀ d, (collecting d got seen).addCertificate c = collecting d (c :: got) seen' := by
  by_cases hc : seen.contains c.name = true
  · refine ⟨seen, fun k hk => .inl hk, fun d => ?_⟩
    have hseen : (collecting d got seen).hasSeen c.name = true := hc
    rw [Session.addCertificate, Session.addSeen, if_pos hseen]
    rfl
  · refine ⟨seen ++ [c.name], fun k hk => by simpa using hk, fun d => ?_⟩
    have hseen : ¬ (collecting d got seen).hasSeen c.name = true := hc
    rw [Session.addCertificate, Session.addSeen, if_neg hseen]
    rfl

theorem proceed_found (h : w.Stands t known got told) (hvalid : c.ValidAt t) {k : Name}
    (hk : c.data.signature.info.keyName = .ok k) (hn : c.name.startsWith (k.take (-2)))
    (d : Data) (collected : List Certificate) (seen : List Name) :
    ∃ seen' w', (∀ n ∈ seen', n ∈ seen ∨ n = c.name) ∧ w'.Stands t known got told ∧
      v.proceed (.found c) ⟨collecting d collected seen, w⟩ =
        v.pursue (v.maxDepth - (c :: collected).length) (.ofName k)
          ⟨collecting d (c :: collected) seen', w'⟩ := by
  obtain ⟨w', haccept, hw'⟩ := h.accept hvalid hk hn (collecting d collected seen)
  obtain ⟨seen', hseen', hadd⟩ := collecting_addCertificate collected seen c
  rw [hadd] at haccept
  refine ⟨seen', w', hseen', hw', ?_⟩
  rw [proceed, settle, Act.bind_of_ok haccept]
  rfl

/-- A certificate that nobody knows is retrieved from the network, and the one of its signer is
asked for. -/
theorem exists_retrieved (hv : v.reach = .network)
    (hroom : v.maxDepth - got.length = room + 1)
    (hh : Honest t key failures s (c :: certificates)) (hs : SignedBy v.verifier key chain s c)
    (hc : Collected v.verifier t chain d got s (c :: certificates)) (hseen : key s ∉ seen)
    (hw : w.Stands t known got told)
    (hnone : known.answer (CertificateRequest.ofName (key s)).interest = none)
    (hn : n.replies (List.replicate ((failures c).length + 1)
      (CertificateRequest.ofName (key s)).interest) = failures c ++ [Response.data c.data]) :
    ∃ seen' w' n', (∀ k ∈ seen', k ∈ seen ∨ k = key s ∨ k = c.name) ∧
      w'.Stands t known (c :: got) told ∧
      n.After (List.replicate ((failures c).length + 1)
        (CertificateRequest.ofName (key s)).interest) n' ∧
      ∀ task final, Finishes v (v.pursue room (.ofName (key c.data))
          ⟨collecting d (c :: got) seen', w'⟩) n' task final →
        Finishes v (v.pursue (room + 1) (.ofName (key s)) ⟨collecting d got seen, w⟩) n
          task final := by
  have hcmem : c ∈ c :: certificates := List.mem_cons_self
  have hnext : c.data ∈ s :: (c :: certificates).map (·.data) :=
    List.mem_cons_of_mem _ List.mem_cons_self
  have hapart := hc.not_startsWith hs
  obtain ⟨hleft, hfailed⟩ := hh.patient c hcmem
  -- The network is asked, as no certificate that is trusted or was retrieved answers.
  obtain ⟨w₁, hfound, hw₁⟩ := hw.findTrusted (CertificateRequest.ofName (key s)).interest
  rw [hnone] at hfound
  obtain ⟨w₂, hfetch, hw₂⟩ := hw₁.fetch (f := v.fetcher) (r := .ofName (key s)) rfl hv hapart
  have hwait : v.pursue (room + 1) (.ofName (key s)) ⟨collecting d got seen, w⟩ =
      .ok (.waiting (.answer { request := .ofName (key s) }))
        ⟨collecting d got (seen ++ [key s]), w₂⟩ := by
    rw [pursue_succ hseen hfound]
    exact Act.bind_of_ok (onWorld_of_ok (s := ⟨collecting d got (seen ++ [key s]), w₁⟩) hfetch)
  -- It answers after the failures.
  have ha : Attempt.Repeats { request := .ofName (key s) }
      (CertificateRequest.ofName (key s)).interest (failures c).length := by
    refine ⟨rfl, ?_, CertificateRequest.patient_ofName _⟩
    change ((failures c).length : Int) ≤ 3
    omega
  obtain ⟨w₃, n', hw₃, hn', hback⟩ := hw₂.retrieved hv hfailed ha hapart (hh.formed c hcmem) hn
    (collecting d got (seen ++ [key s]))
  obtain ⟨seen', w₄, hseen', hw₄, hproceed⟩ := proceed_found (v := v) hw₃ (hh.valid c hcmem)
    (hh.told c.data hnext) (hh.permitted c.data hnext) d got (seen ++ [key s])
  have hless : v.maxDepth - (c :: got).length = room := by
    rw [List.length_cons]
    omega
  rw [hless] at hproceed
  refine ⟨seen', w₄, n', fun k hk => ?_, hw₄, hn', fun task final hf => ?_⟩
  · simpa [or_assoc] using hseen' k hk
  · rw [hwait]
    exact hback task final (hproceed ▸ hf)

/-- The certificate of the last key is trusted, and the chain is judged with it. -/
theorem exists_concluded {w₀ : World}
    (hknown : ∀ k found, Finds w₀ k found →
      known.answer (CertificateRequest.ofName k).interest = found)
    (hroom : v.maxDepth - got.length = room + 1)
    (hl : Leads v.verifier w₀ key chain anchor s [])
    (hc : Collected v.verifier t chain d got s []) (hseen : key s ∉ seen)
    (hw : w.Stands t known got told) :
    ∃ s', v.pursue (room + 1) (.ofName (key s)) ⟨collecting d got seen, w⟩ = .ok .ended s' ∧
      Completes v d told got [] s'.world := by
  obtain ⟨hsigned, hfinds⟩ := hl
  obtain ⟨w', hfound, hw'⟩ := hw.findTrusted (CertificateRequest.ofName (key s)).interest
  rw [hknown _ _ hfinds] at hfound
  obtain ⟨s', hconclude, hevents, hverified⟩ := conclude_collected hw' (seen ++ [key s])
    (hc.vouches anchor hsigned.accepted w'.calls) hc.valid fun c h c' h' =>
      hc.unique c h c' (hc.known c' h')
  refine ⟨s', ?_, ⟨fun _ => ⟨hevents, fun c hc => ?_⟩, fun hle => ?_⟩⟩
  · rw [pursue_succ hseen hfound]
    exact Act.bind_of_ok hconclude
  · exact hverified c (hc.resolve_right List.not_mem_nil)
  · rw [hroom] at hle
    exact absurd hle (Nat.not_succ_le_zero room)

/-- The keys that are still to come were not seen, if none was before a certificate was taken in. -/
theorem Honest.unseen {seen' : List Name} (hh : Honest t key failures s (c :: certificates))
    (hseen : ∀ s' ∈ s :: (c :: certificates).map (·.data), key s' ∉ seen)
    (hseen' : ∀ k ∈ seen', k ∈ seen ∨ k = key s ∨ k = c.name) :
    ∀ s' ∈ c.data :: certificates.map (·.data), key s' ∉ seen' := by
  intro s' hs' hmem
  have hs : s' ∈ s :: (c :: certificates).map (·.data) := List.mem_cons_of_mem s hs'
  rcases hseen' _ hmem with hmem | hkey | hname
  · exact hseen s' hs hmem
  · have hkeys := (List.nodup_cons.1 hh.distinct).1
    rw [← hkey] at hkeys
    exact hkeys (List.mem_map_of_mem hs')
  · exact hh.apart s' hs c List.mem_cons_self hname

theorem Completes.of_cons (h : Completes v d told (c :: got) certificates w) :
    Completes v d told got (c :: certificates) w := by
  constructor
  case valid =>
    intro hlt
    obtain ⟨hevents, hverified⟩ := h.valid (by
      rw [List.length_cons] at hlt ⊢
      omega)
    refine ⟨hevents, fun c' hc' => hverified c' ?_⟩
    simpa [or_assoc, or_left_comm] using hc'
  case tooDeep =>
    intro hle
    refine h.tooDeep ?_
    rw [List.length_cons] at hle ⊢
    omega

/-- From the request for a certificate on, a session comes to the end of an honest chain. -/
theorem exists_finishes {w₀ : World} (hv : v.reach = .network)
    (hknown : ∀ k found, Finds w₀ k found →
      known.answer (CertificateRequest.ofName k).interest = found)
    (hsub : certificates ⊆ chain) (hh : Honest t key failures s certificates)
    (hl : Leads v.verifier w₀ key chain anchor s certificates)
    (hc : Collected v.verifier t chain d got s certificates)
    (hseen : ∀ s' ∈ s :: certificates.map (·.data), key s' ∉ seen)
    (hw : w.Stands t known got told)
    (hn : n.replies (asked key failures s certificates) = answered failures certificates) :
    ∃ session final, Finishes v (v.pursue (v.maxDepth - got.length) (.ofName (key s))
        ⟨collecting d got seen, w⟩) n (.ended session) final ∧
      n.After (asked key failures s (certificates.take (v.maxDepth - got.length))) final.network ∧
      Completes v d told got certificates final.world := by
  induction certificates generalizing s got seen w n with
  | nil =>
    cases hroom : v.maxDepth - got.length with
    | zero => exact hroom ▸ exists_finishes_of_full hroom hw n
    | succ room =>
      obtain ⟨s', hend, hcompletes⟩ :=
        exists_concluded hknown hroom hl hc (hseen s List.mem_cons_self) hw
      rw [hend]
      exact ⟨s'.session, ⟨s'.world, n⟩, .ended, .refl n, hcompletes⟩
  | cons c rest ih =>
    cases hroom : v.maxDepth - got.length with
    | zero => exact hroom ▸ exists_finishes_of_full hroom hw n
    | succ room =>
      obtain ⟨hsigned, hfinds, hrest⟩ := hl
      obtain ⟨m, hm⟩ := n.exists_after (List.replicate ((failures c).length + 1)
        (CertificateRequest.ofName (key s)).interest)
      have hlen : (List.replicate ((failures c).length + 1)
          (CertificateRequest.ofName (key s)).interest).length =
            (failures c ++ [Response.data c.data]).length := by simp
      obtain ⟨seen', w', n', hseen', hw', hn', hback⟩ := exists_retrieved hv hroom hh hsigned hc
        (hseen s List.mem_cons_self) hw (hknown _ _ hfinds) (hm.split hn hlen).1
      obtain ⟨session, final, hf, hafter, hcompletes⟩ := ih
        (fun c hc => hsub (List.mem_cons_of_mem _ hc)) hh.tail hrest
        (hc.cons hh hsigned (hsub List.mem_cons_self)) (hh.unseen hseen hseen') hw'
        (hn'.split hn hlen).2
      have hless : v.maxDepth - (c :: got).length = room := by
        rw [List.length_cons]
        omega
      rw [hless] at hf hafter
      exact ⟨session, final, hback _ _ hf, hn'.trans hafter, hcompletes.of_cons⟩

/-- What a search finds at first is known from then on. -/
theorem exists_known (hshows : ∀ i, w.clock.shows i = t) {k : Name} {found : Option Certificate}
    (h : Finds w k found) :
    ∃ known : Trusted, Anchors.refresh w.disk t w.storage.anchors = .ok () known.anchors ∧
      w.storage.verified.refresh t = known.verified ∧
      ∀ k found, Finds w k found → known.answer (CertificateRequest.ofName k).interest = found := by
  have hnow : w.now = t := hshows _
  have hnext : w.clock.next.now = t := hshows _
  obtain ⟨w', h⟩ := h
  rcases Anchors.refresh_cases w.disk w.now w.storage.anchors with
    ⟨anchors, hrefresh, -⟩ | ⟨⟨anchors, hfault⟩, -⟩
  · refine ⟨⟨anchors, w.storage.verified.refresh t⟩, hnow ▸ hrefresh, rfl, fun k found hk => ?_⟩
    obtain ⟨w'', hk⟩ := hk
    rw [World.findTrusted_of_refresh hrefresh, hnext] at hk
    unfold Trusted.answer
    dsimp only
    cases ha : anchors.answer (CertificateRequest.ofName k).interest with
    | some c =>
      rw [ha] at hk
      injection hk
    | none =>
      rw [ha] at hk
      injection hk
  · rw [World.findTrusted_of_fault hfault] at h
    cases h

theorem Leads.finds {v : Verifier} (h : Leads v w key chain anchor s certificates) :
    ∃ found, Finds w (key s) found := by
  cases certificates with
  | nil => exact ⟨_, h.2⟩
  | cons c rest => exact ⟨_, h.2.1⟩

/-- A packet behind an honest chain is found valid, and its certificates verified from then on, if
the depth allows for them; else it is too deep. The network is asked for each certificate, as often
as that fails and once more, and for nothing else. -/
theorem honest_chain_found_valid (hv : v.reach = .network) (hpolicies : w.chain = [.hierarchy])
    (hshows : ∀ i, w.clock.shows i = t) (hunverified : w.storage.unverified.size = 0)
    (hh : Honest t key failures d certificates)
    (hl : Leads v.verifier w key certificates anchor d certificates)
    (hn : n.replies (asked key failures d certificates) = answered failures certificates) :
    ∃ N finding final,
      (∀ fuel ≥ N, Run.check v fuel (.data d) ⟨w, n⟩ = (.ok finding, final)) ∧
      (certificates.length < v.maxDepth → finding = .valid (.data d) ∧
        final.network.expressed.map (·.interest) =
          n.expressed.map (·.interest) ++ asked key failures d certificates ∧
        ∀ c ∈ certificates, Remembers final.world c) ∧
      (v.maxDepth ≤ certificates.length →
        finding = .invalid ⟨.depthLimit, toString v.maxDepth⟩ ∧
        final.network.expressed.map (·.interest) = n.expressed.map (·.interest) ++
          asked key failures d (certificates.take v.maxDepth)) := by
  obtain ⟨found, hfound⟩ := hl.finds
  obtain ⟨known, hrefreshed, hverified, hknown⟩ := exists_known hshows hfound
  have hquiet : World.Stands t known [] [] { w with events := [] } := by
    refine ⟨hshows, hpolicies, hrefreshed, hverified, fun e he => ?_, rfl⟩
    rw [List.length_eq_zero_iff.1 hunverified] at he
    cases he
  have hfirst : d ∈ d :: certificates.map (·.data) := List.mem_cons_self
  obtain ⟨w₁, hask, hw₁⟩ := hquiet.ask (.data d) (hh.told d hfirst) (hh.permitted d hfirst)
    (collecting d [] [])
  have hunseen : ∀ s ∈ d :: certificates.map (·.data), key s ∉ ([] : List Name) :=
    fun _ _ => List.not_mem_nil
  obtain ⟨session, final, hf, hafter, hcompletes⟩ := exists_finishes hv hknown
    (List.Subset.refl _) hh hl (.start v.verifier t certificates d certificates) hunseen hw₁ hn
  rw [List.length_nil, Nat.sub_zero] at hf hafter
  have hstart : v.start ⟨{ packet := .data d }, { w with events := [] }⟩ =
      v.pursue v.maxDepth (.ofName (key d)) ⟨collecting d [] [], w₁⟩ := by
    rw [Validator.start, Act.get_bind]
    exact Act.bind_of_ok hask
  have hends : Finishes v (v.start ⟨{ packet := .data d }, { w with events := [] }⟩) n
      (.ended session) final := hstart ▸ hf
  obtain ⟨N, hN⟩ := hends.alone
  refine ⟨N, .ofEvents (.data d) final.world.events,
    { final with world := { final.world with events := w.events } }, fun fuel hfuel => ?_, ?_, ?_⟩
  · rw [Run.check]
    dsimp only
    rw [hN fuel hfuel]
  · intro hlt
    obtain ⟨hevents, hall⟩ := hcompletes.valid hlt
    rw [List.take_of_length_le (Nat.le_of_lt hlt)] at hafter
    refine ⟨?_, hafter.expressed, fun c hc => hall c (.inr hc)⟩
    rw [hevents]
    rfl
  · intro hle
    refine ⟨?_, hafter.expressed⟩
    rw [hcompletes.tooDeep hle]
    rfl

end

namespace Sample

def data : Data := Sample.signed ⟨[.generic [2], .generic [3]]⟩ (Sample.keyName [2] 2) [22] []

def keyOf (s : Data) : Name :=
  match s.signature.info.keyName with
  | .ok k => k
  | .error _ => ⟨[]⟩

def anchored : World :=
  { Sample.world with
    storage.anchors.groups :=
      [{ id := "root", source := none, names := NameMap.empty.insert Sample.root.name () }] }

/-- Two requests fail, and then a packet is published that answers. -/
def unsteady : Network := { script := [.timeout, .refused], published := [Sample.leaf.data] }

end Sample

/-- The leaf is retrieved at the third attempt; where chains are shorter than two, that is too
deep. -/
theorem honest_chain_found_valid_sample :
    Honest (.ofMillis 5000) Sample.keyOf (fun _ => [.timeout, .refused]) Sample.data [Sample.leaf] ∧
      Leads Sample.verifier Sample.anchored Sample.keyOf [Sample.leaf] Sample.root Sample.data
        [Sample.leaf] ∧
      (∃ N final, (∀ fuel ≥ N, Run.check Sample.validator fuel (.data Sample.data)
          ⟨Sample.anchored, Sample.unsteady⟩ = (.ok (.valid (.data Sample.data)), final)) ∧
        final.network.expressed.map (·.interest.name) =
          List.replicate 3 (Sample.keyName [2] 2) ∧ Remembers final.world Sample.leaf) ∧
      ∃ N final, ∀ fuel ≥ N, Run.check { Sample.validator with maxDepth := 1 } fuel
          (.data Sample.data) ⟨Sample.anchored, Sample.unsteady⟩ =
            (.ok (.invalid ⟨.depthLimit, "1"⟩), final) := by
  have hhonest : Honest (.ofMillis 5000) Sample.keyOf (fun _ => [.timeout, .refused]) Sample.data
      [Sample.leaf] := by
    constructor
    case told => exact List.forall_mem_cons.2 ⟨rfl, List.forall_mem_singleton.2 rfl⟩
    case formed => exact List.forall_mem_singleton.2 rfl
    all_goals decide
  have hleads :
      Leads Sample.verifier Sample.anchored Sample.keyOf [Sample.leaf] Sample.root Sample.data
      [Sample.leaf] := by
    refine ⟨⟨fun _ => rfl, by decide, by decide⟩, ⟨_, rfl⟩,
      ⟨fun _ => rfl, by decide, by decide⟩, _, rfl⟩
  refine ⟨hhonest, hleads, ?_, ?_⟩
  · obtain ⟨N, finding, final, hrun, hvalid, -⟩ := honest_chain_found_valid (v := Sample.validator)
      (n := Sample.unsteady) rfl rfl (fun _ => rfl) rfl hhonest hleads rfl
    obtain ⟨rfl, hasked, hall⟩ := hvalid (by decide)
    refine ⟨N, final, hrun, ?_, hall _ List.mem_cons_self⟩
    rw [← Function.comp_def Interest.name, ← List.map_map, hasked]
    rfl
  · obtain ⟨N, finding, final, hrun, -, hdeep⟩ := honest_chain_found_valid
      (v := { Sample.validator with maxDepth := 1 })
      (n := Sample.unsteady) rfl rfl (fun _ => rfl) rfl hhonest hleads rfl
    obtain ⟨rfl, -⟩ := hdeep (by decide)
    exact ⟨N, final, hrun⟩

end PacketTrust.Completeness
