import Mathlib.Logic.Function.Basic
import PacketTrust.Proofs.Validation.Soundness
import PacketTrust.Proofs.Validation.Trust

/-! Where verified certificates come from. Sessions take turns with one another and with those who
work on storage; a turn of a session lasts until it ends or waits. -/

namespace PacketTrust.Provenance

open Course

inductive Phase where
  | idle
  | waiting (session : Session) (pending : Pending)
  | ended (session : Session)
  | stopped (fault : Fault)

def Phase.ofResult : EStateM.Result Fault Scene Status → Phase
  | .ok .ended s => ended s.session
  | .ok (.waiting p) s => waiting s.session p
  | .error fault _ => stopped fault

structure System where
  world : World
  phases : Nat → Phase := fun _ => .idle

def System.take (y : System) (id : Nat) (act : Act Scene Status) (session : Session) : System where
  world := (act.left ⟨session, y.world⟩).world
  phases := Function.update y.phases id (.ofResult (act ⟨session, y.world⟩))

def System.operate (y : System) (op : StorageOperation) : System :=
  { y with world := (World.onStorage fun disk now => op.run disk now).left y.world }

inductive Deed where
  | start (id : Nat) (packet : Packet)
  | resume (id : Nat)
  | operate (operation : StorageOperation)
  | others

/-- How a session goes on after a wait: by the answer of the network, or after its pause, or by
whatever another way of retrieval comes to. -/
inductive Resumes (v : Validator) : Pending → Act Scene Status → Prop
  | receive (a : Attempt) (response : Response) : Resumes v (.answer a) (v.receive a response)
  | wake (a : Attempt) : Resumes v (.pause a) (v.wake a)
  | deliver (p : Pending) (progress : Progress) : Resumes v p (v.proceed progress)

/-- What may happen in a turn. Others leave storage alone, but may change files, the policies and
the clock, and ask the verifier. -/
inductive Happens (v : Validator) : System → Deed → System → Prop
  | start {y : System} {id : Nat} {p : Packet} {onSuccess onFailure : Option Callback}
      (idle : y.phases id = .idle) :
      Happens v y (.start id p) (y.take id v.start { packet := p, onSuccess, onFailure })
  | resume {y : System} (id : Nat) {session : Session} {p : Pending} {act : Act Scene Status}
      (waiting : y.phases id = .waiting session p) (resumed : Resumes v p act) :
      Happens v y (.resume id) (y.take id act session)
  | operate {y : System} (op : StorageOperation) : Happens v y (.operate op) (y.operate op)
  | others {y : System} {w : World} (storage : w.storage = y.world.storage)
      (calls : y.world.calls ≤ w.calls) : Happens v y .others { y with world := w }

structure Turn where
  before : System
  deed : Deed
  after : System

/-- What happened from one state of the system to another, turn by turn. -/
inductive Run (v : Validator) (first : System) : List Turn → System → Prop
  | start : Run v first [] first
  | turn {turns : List Turn} {y y' : System} {deed : Deed} : Run v first turns y →
      Happens v y deed y' → Run v first (turns ++ [⟨y, deed, y'⟩]) y'

def Handed (turns : List Turn) (c : Certificate) : Prop :=
  ∃ t ∈ turns, t.deed = .operate (.verified (.insert c))

def WasAnchor (turns : List Turn) (c : Certificate) : Prop :=
  ∃ t ∈ turns, t.after.world.storage.anchors.Holds c

/-- In some turn the verifier accepted a certificate under the key of another. -/
def Signed (v : Verifier) (turns : List Turn) (c signer : Certificate) : Prop :=
  ∃ t ∈ turns, ∃ call, t.before.world.calls ≤ call ∧ call < t.after.world.calls ∧
    v.Accepts call (.data c.data) signer

/-- Signatures lead to a certificate from an anchor, or from one that was handed in. -/
inductive Rooted (v : Verifier) (turns : List Turn) : Certificate → Prop
  | anchor {c : Certificate} (h : WasAnchor turns c) : Rooted v turns c
  | handed {c : Certificate} (h : Handed turns c) : Rooted v turns c
  | signed {c signer : Certificate} (h : Signed v turns c signer) (hs : Rooted v turns signer) :
      Rooted v turns c

/-- A certificate was handed in, or signed with a key that signatures lead to. -/
def Vetted (v : Verifier) (turns : List Turn) (c : Certificate) : Prop :=
  Handed turns c ∨ ∃ signer, Signed v turns c signer ∧ Rooted v turns signer

structure System.Kept (y : System) : Prop where
  undecided : ∀ id session p, y.phases id = .waiting session p → session.outcome = none
  grouped : y.world.storage.anchors.Grouped

section

variable {v : Validator} {y y' first : System} {turns more : List Turn} {deed : Deed} {id k : Nat}
  {session : Session} {act : Act Scene Status} {stage : Stage} {c : Certificate} {p : Pending}

theorem Phase.ofResult_waiting {result : EStateM.Result Fault Scene Status}
    (h : Phase.ofResult result = .waiting session p) :
    ∃ t, result = .ok (.waiting p) t ∧ t.session = session := by
  cases result with
  | error fault t => cases h
  | ok status t =>
    cases status with
    | ended => cases h
    | waiting q =>
      cases h
      exact ⟨t, rfl, rfl⟩

theorem Phase.ofResult_ended {result : EStateM.Result Fault Scene Status}
    (h : Phase.ofResult result = .ended session) :
    ∃ t, result = .ok .ended t ∧ t.session = session := by
  cases result with
  | error fault t => cases h
  | ok status t =>
    cases status with
    | waiting q => cases h
    | ended =>
      cases h
      exact ⟨t, rfl, rfl⟩

theorem System.phases_take {phase : Phase} (h : (y.take id act session).phases k = phase) :
    k = id ∧ Phase.ofResult (act ⟨session, y.world⟩) = phase ∨ y.phases k = phase := by
  unfold System.take at h
  dsimp only at h
  by_cases hk : k = id
  · subst hk
    rw [Function.update_self] at h
    exact .inl ⟨rfl, h⟩
  · rw [Function.update_of_ne hk] at h
    exact .inr h

theorem careful_start (v : Validator) {s : Scene} (hn : s.session.outcome = none) :
    Careful v .opening s v.start := by
  have hinSteps : InSteps v (solitary v) .opening s (v.start s) :=
    inSteps_start (fetches_environment v (fun _ _ => True) fun _ _ => False) s
  exact hinSteps.careful Stage.noConfusion hn

theorem careful_of_resumes (h : Resumes v p act) (hn : session.outcome = none) (w : World) :
    ∃ stage, stage ≠ .opening ∧ Careful v stage ⟨session, w⟩ act := by
  have hinSteps : ∃ r progress,
      InSteps v (solitary v) (.retrieving r progress) ⟨session, w⟩ (act ⟨session, w⟩) := by
    cases h with
    | receive a response => exact ⟨.ofName ⟨[]⟩, _, inSteps_receive _ _ _ a response _ trivial⟩
    | wake a => exact ⟨.ofName ⟨[]⟩, _, inSteps_wake _ _ _ a _⟩
    | deliver p progress =>
      exact ⟨.ofName ⟨[]⟩, progress, inSteps_proceed (fetches_environment v _ _) _ progress _⟩
  obtain ⟨r, progress, hinSteps⟩ := hinSteps
  exact ⟨_, Stage.noConfusion, hinSteps.careful Stage.noConfusion hn⟩

theorem kept_take (h : Careful v stage ⟨session, y.world⟩ act) (hk : y.Kept) :
    (y.take id act session).Kept := by
  constructor
  case undecided =>
    intro k session' p hp
    rcases System.phases_take hp with ⟨-, hp⟩ | hp
    · obtain ⟨t, ht, rfl⟩ := Phase.ofResult_waiting hp
      exact h.undecided p t ht
    · exact hk.undecided k session' p hp
  case grouped => exact h.advances.grouped hk.grouped

theorem Happens.kept (h : Happens v y deed y') (hk : y.Kept) : y'.Kept := by
  cases h with
  | start idle => exact kept_take (careful_start v rfl) hk
  | resume id waiting resumed =>
    obtain ⟨stage, -, hcareful⟩ := careful_of_resumes resumed (hk.undecided _ _ _ waiting) y.world
    exact kept_take hcareful hk
  | operate op =>
    refine ⟨hk.undecided, ?_⟩
    rw [System.operate, World.left_onStorage]
    exact op.left_run_grouped hk.grouped
  | others storage calls =>
    refine ⟨hk.undecided, ?_⟩
    rw [storage]
    exact hk.grouped

/-- A certificate comes to be verified in a turn if it is handed in, or by a chain of signatures. -/
theorem Happens.verified (h : Happens v y deed y') (hk : y.Kept)
    (hc : y'.world.storage.verified.Holds c) :
    deed = .operate (.verified (.insert c)) ∨ y.world.storage.verified.Holds c ∨
      y.world.Links v.verifier y'.world c := by
  cases h with
  | start idle => exact .inr ((careful_start v rfl).advances.verified c hc)
  | resume id waiting resumed =>
    obtain ⟨stage, -, hcareful⟩ := careful_of_resumes resumed (hk.undecided _ _ _ waiting) y.world
    exact .inr (hcareful.advances.verified c hc)
  | operate op =>
    rw [System.operate, World.left_onStorage] at hc
    rcases StorageOperation.holds_of_left_run hc with rfl | hc
    · exact .inl rfl
    · exact .inr (.inl hc)
  | others storage calls =>
    rw [storage] at hc
    exact .inr (.inl hc)

theorem Handed.mono (hsub : turns ⊆ more) (h : Handed turns c) : Handed more c := by
  obtain ⟨t, ht, hc⟩ := h
  exact ⟨t, hsub ht, hc⟩

theorem Signed.mono {v : Verifier} {signer : Certificate} (hsub : turns ⊆ more)
    (h : Signed v turns c signer) : Signed v more c signer := by
  obtain ⟨t, ht, hc⟩ := h
  exact ⟨t, hsub ht, hc⟩

theorem Rooted.mono {v : Verifier} (hsub : turns ⊆ more) (h : Rooted v turns c) :
    Rooted v more c := by
  induction h with
  | anchor h =>
    obtain ⟨t, ht, hc⟩ := h
    exact .anchor ⟨t, hsub ht, hc⟩
  | handed h => exact .handed (h.mono hsub)
  | signed h _ ih => exact .signed (h.mono hsub) ih

theorem Vetted.mono {v : Verifier} (hsub : turns ⊆ more) (h : Vetted v turns c) :
    Vetted v more c := by
  rcases h with h | ⟨signer, hsigned, hroot⟩
  · exact .inl (h.mono hsub)
  · exact .inr ⟨signer, hsigned.mono hsub, hroot.mono hsub⟩

theorem Vetted.rooted {v : Verifier} (h : Vetted v turns c) : Rooted v turns c := by
  rcases h with h | ⟨signer, hsigned, hroot⟩
  · exact .handed h
  · exact .signed hsigned hroot

/-- All of a chain is vetted if its signatures were accepted in a turn, from a root on. -/
theorem vetted_of_chain {v : Verifier} {t : Turn} (ht : t ∈ turns) {call : Nat}
    {signer : Certificate} {chain : List Certificate} (hroot : Rooted v turns signer)
    (hle : t.before.world.calls ≤ call) (hbound : call + chain.length ≤ t.after.world.calls)
    (hchain : v.AcceptsChain call signer chain) : ∀ c ∈ chain, Vetted v turns c := by
  induction chain generalizing call signer with
  | nil => simp
  | cons c rest ih =>
    obtain ⟨hc, hrest⟩ := hchain
    rw [List.length_cons] at hbound
    have hsigned : Signed v turns c signer := ⟨t, ht, call, hle, by omega, hc⟩
    have hnext := ih (.signed hsigned hroot) (Nat.le_succ_of_le hle) (by omega) hrest
    exact List.forall_mem_cons.2 ⟨.inr ⟨signer, hsigned, hroot⟩, hnext⟩

theorem Run.kept (h : Run v first turns y) (hfirst : first.Kept) : y.Kept := by
  induction h with
  | start => exact hfirst
  | turn _ hturn ih => exact hturn.kept ih

theorem Run.vetted (h : Run v first turns y) (hfirst : first.Kept)
    (hempty : first.world.storage.verified.size = 0) :
    ∀ c, y.world.storage.verified.Holds c → Vetted v.verifier turns c := by
  induction h with
  | start => exact fun c hc => absurd hc (Cache.size_eq_zero_iff.1 hempty c)
  | @turn turns y y' deed hrun hturn ih =>
    intro c hc
    have hlast : (⟨y, deed, y'⟩ : Turn) ∈ turns ++ [⟨y, deed, y'⟩] :=
      List.mem_append_right _ (List.mem_singleton.2 rfl)
    have hsub : turns ⊆ turns ++ [⟨y, deed, y'⟩] := List.subset_append_left _ _
    -- A certificate that comes in by signatures has a root that was vetted in the turns before.
    rcases hturn.verified (hrun.kept hfirst) hc with rfl | hc | hlinks
    · exact .inl ⟨_, hlast, rfl⟩
    · exact (ih c hc).mono hsub
    · obtain ⟨trusted, call, chain, htrusted, hle, hbound, hchain, hmem⟩ := hlinks
      have hroot : Rooted v.verifier (turns ++ [⟨y, deed, y'⟩]) trusted := by
        rcases htrusted with ha | hv
        · exact .anchor ⟨_, hlast, ha⟩
        · exact ((ih trusted hv).mono hsub).rooted
      exact vetted_of_chain hlast hroot hle hbound hchain c hmem

/-- Where nothing is trusted, turns that load nothing bring no trust in. -/
theorem Happens.trustless (h : Happens v y deed y') (hk : y.Kept) (ht : y.world.storage.Trustless)
    (hloads : ∀ op, deed = .operate op → ¬ op.Loads) : y'.world.storage.Trustless := by
  cases h with
  | start idle => exact (careful_start v rfl).advances.trustless ht
  | resume id waiting resumed =>
    obtain ⟨stage, -, hcareful⟩ := careful_of_resumes resumed (hk.undecided _ _ _ waiting) y.world
    exact hcareful.advances.trustless ht
  | operate op =>
    rw [System.operate, World.left_onStorage]
    exact op.left_run_trustless (hloads op rfl) ht
  | others storage calls =>
    rw [storage]
    exact ht

def Turn.Accepts (t : Turn) (id : Nat) : Prop :=
  ∃ p, t.deed = .start id p ∧ (t.before.world.checkPolicy p.subject).1.1 = .accept

/-- Where nothing is trusted, no session succeeds but by the policies alone. -/
theorem Happens.succeeds (h : Happens v y deed y') (hk : y.Kept) (ht : y.world.storage.Trustless)
    (hended : y'.phases id = .ended session) (ho : session.outcome = some true) :
    y.phases id = .ended session ∨ Turn.Accepts ⟨y, deed, y'⟩ id := by
  cases h with
  | start idle =>
    rcases System.phases_take hended with ⟨rfl, hresult⟩ | hended
    · obtain ⟨t, hend, rfl⟩ := Phase.ofResult_ended hresult
      exact .inr ⟨_, rfl, ((careful_start v rfl).success ht t hend ho).2⟩
    · exact .inl hended
  | resume id waiting resumed =>
    obtain ⟨stage, hs, hcareful⟩ := careful_of_resumes resumed (hk.undecided _ _ _ waiting) y.world
    rcases System.phases_take hended with ⟨rfl, hresult⟩ | hended
    · obtain ⟨t, hend, rfl⟩ := Phase.ofResult_ended hresult
      exact absurd (hcareful.success ht t hend ho).1 hs
    · exact .inl hended
  | operate op => exact .inl hended
  | others storage calls => exact .inl hended

theorem Run.trustless (h : Run v y more y') (hk : y.Kept) (ht : y.world.storage.Trustless)
    (hloads : ∀ t ∈ more, ∀ op, t.deed = .operate op → ¬ op.Loads) :
    y'.world.storage.Trustless ∧ ∀ id session, y'.phases id = .ended session →
      session.outcome = some true → y.phases id = .ended session ∨ ∃ t ∈ more, t.Accepts id := by
  induction h with
  | start => exact ⟨ht, fun _ _ hended _ => .inl hended⟩
  | @turn more y₁ y₂ deed hrun hturn ih =>
    have hlast : (⟨y₁, deed, y₂⟩ : Turn) ∈ more ++ [⟨y₁, deed, y₂⟩] :=
      List.mem_append_right _ (List.mem_singleton.2 rfl)
    obtain ⟨ht₁, hended₁⟩ := ih fun t htm => hloads t (List.mem_append_left _ htm)
    -- Nothing was trusted before the last turn either, so only the policies can let a packet
    -- through.
    have hk₁ := hrun.kept hk
    refine ⟨hturn.trustless hk₁ ht₁ (hloads _ hlast), fun id session hended ho => ?_⟩
    rcases hturn.succeeds hk₁ ht₁ hended ho with hended | haccepts
    · rcases hended₁ id session hended ho with hended | ⟨t, htm, haccepts⟩
      · exact .inl hended
      · exact .inr ⟨t, List.mem_append_left _ htm, haccepts⟩
    · exact .inr ⟨_, hlast, haccepts⟩

/-- Each verified certificate was handed in, or signatures lead to it from an anchor or from one
that was handed in. Where nothing is trusted, nothing comes to be until something is loaded, and
sessions succeed by the policies alone. -/
theorem Run.verified_cache_vetted (h : Run v first turns y) (hidle : ∀ id, first.phases id = .idle)
    (hgrouped : first.world.storage.anchors.Grouped)
    (hempty : first.world.storage.verified.size = 0) :
    (∀ c, y.world.storage.verified.Holds c → Vetted v.verifier turns c) ∧
    (y.world.storage.anchors.groups = [] → y.world.storage.verified.size = 0 →
      ∀ more y', Run v y more y' →
        (∀ t ∈ more, ∀ op, t.deed = .operate op → ¬ op.Loads) →
        y'.world.storage.Trustless ∧ ∀ id session, y'.phases id = .ended session →
          session.outcome = some true → y.phases id = .ended session ∨
            ∃ t ∈ more, t.Accepts id) := by
  have hfirst : first.Kept := by
    refine ⟨fun id session p hp => ?_, hgrouped⟩
    rw [hidle id] at hp
    cases hp
  constructor
  case left => exact h.vetted hfirst hempty
  case right =>
    intro hgroups hverified more y' hmore hloads
    have hk := h.kept hfirst
    exact hmore.trustless hk ⟨hgroups, hk.grouped hgroups, hverified⟩ hloads

end

def Sample.fresh : System := { world := { Sample.world with storage := {} } }

def Sample.suspended : System :=
  (fresh.operate (.anchors (.insert "root" Sample.root))).take 0 Sample.validator.start
    { packet := Sample.packet }

def Sample.keyAttempt (owner : List UInt8) (id : UInt8) : Attempt :=
  { request := .ofName (Sample.keyName owner id) }

def Sample.atLeaf : Session :=
  { packet := Sample.packet, seen := [Sample.keyName [2] 2] }

def Sample.atRoot : Session :=
  { packet := Sample.packet
    seen := [Sample.keyName [2] 2, Sample.leaf.name, Sample.keyName [] 1]
    chain := [Sample.leaf] }

/-- The session verifies the leaf. If the anchors are cleared before, it asks for the root instead,
gets it, and fails for the length of its chain. -/
theorem verified_cache_vetted_sample :
    (∃ turns y, Run Sample.validator Sample.fresh turns y ∧
      y.world.storage.verified.Holds Sample.leaf ∧ Vetted Sample.verifier turns Sample.leaf) ∧
    ∃ turns more y', Run Sample.validator Sample.fresh turns
        (Sample.suspended.operate (.anchors .clear)) ∧
      Run Sample.validator (Sample.suspended.operate (.anchors .clear)) more y' ∧
      y'.world.storage.Trustless ∧
      ∃ session, y'.phases 0 = .ended session ∧ session.outcome = some false := by
  have hgrouped : Sample.fresh.world.storage.anchors.Grouped := fun _ => rfl
  have hstart : Run Sample.validator Sample.fresh _ Sample.suspended :=
    (Run.start.turn (.operate _)).turn (.start rfl)
  have hleaf : Resumes Sample.validator (.answer (Sample.keyAttempt [2] 2)) _ :=
    .receive _ (.data Sample.leaf.data)
  have hroot : Resumes Sample.validator (.answer (Sample.keyAttempt [] 1)) _ :=
    .receive _ (.data Sample.root.data)
  constructor
  case left =>
    have h := hstart.turn (@Happens.resume _ _ 0 Sample.atLeaf _ _ rfl hleaf)
    have hvetted := (h.verified_cache_vetted (fun _ => rfl) hgrouped rfl).1 Sample.leaf
    exact ⟨_, _, h, (and_iff_left_of_imp hvetted).2 ⟨_, List.mem_singleton.2 rfl, rfl⟩⟩
  case right =>
    have h := hstart.turn (.operate (.anchors .clear))
    have hmore := (Run.start.turn (@Happens.resume Sample.validator
      (Sample.suspended.operate (.anchors .clear)) 0 Sample.atLeaf _ _ rfl hleaf)).turn
        (@Happens.resume _ _ 0 Sample.atRoot _ _ rfl hroot)
    have hend := (h.verified_cache_vetted (fun _ => rfl) hgrouped rfl).2 rfl rfl _ _ hmore
    refine ⟨_, _, _, h, hmore, (hend fun t ht op hop => ?_).1, _, rfl, rfl⟩
    rcases List.mem_append.1 ht with ht | ht <;>
      · obtain rfl := List.mem_singleton.1 ht
        cases hop

end PacketTrust.Provenance
