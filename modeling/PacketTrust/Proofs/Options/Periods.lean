import PacketTrust.Options.Document
import PacketTrust.Proofs.Options.Variables
import PacketTrust.Proofs.Storage.Pacing
import PacketTrust.Proofs.Validation.Commands

/-! The periods of settings, and the moments that they lead to. Far enough from both ends of the
supported years no cache, no trust anchors and no policy on commands meets a moment outside them
because of a period that was read. -/

namespace PacketTrust

namespace Instant

variable {t : Instant} {span : Span}

/-- The longest period lies between the moment and either end of the supported years. -/
def Central (t : Instant) : Prop :=
  leastMillis + maxPeriodMillis ≤ t.toMillis ∧ t.toMillis + maxPeriodMillis ≤ greatestMillis

instance (t : Instant) : Decidable t.Central := inferInstanceAs (Decidable (_ ∧ _))

theorem Central.exists_add? (h : t.Central)
    (hspan : span.nanoseconds.natAbs ≤ maxPeriodMillis * 1000000) :
    ∃ u, t.add? span = some u := by
  obtain ⟨hleast, hgreatest⟩ := h
  rw [toMillis_eq] at hleast hgreatest
  have hsupported : ∀ ns, leastMillis * 1000000 ≤ ns → ns < (greatestMillis + 1) * 1000000 →
      ∃ u, ofNanos? ns = some u := by
    intro ns hlow hhigh
    exact ⟨_, if_pos (by omega)⟩
  unfold Instant.add?
  unfold maxPeriodMillis maxPeriodSeconds at *
  dsimp only
  split
  · exact hsupported _ (by omega) (by omega)
  split
  · exact hsupported _ (by omega) (by omega)
  split
  · exact hsupported _ (by omega) (by omega)
  · exact ⟨_, rfl⟩

end Instant

theorem Cache.entries_insert (cache : Cache) (now : Instant) (c : Certificate) :
    (cache.insert now c).entries = if c.validity.notAfter < now then cache.entries
      else cache.entries.insert c.name ⟨c, removalTime cache.lifetime now c⟩ := by
  unfold Cache.insert
  split <;> rfl

/-- What the policy on commands answers to a timestamp that is not later than the record of its
key. -/
def Policy.reordered (k : Name) : Verdict :=
  .reject ⟨.policy, s!"Timestamp is reordered for key `{k.uri}`"⟩

namespace Options

variable {o : Options} {vars : Variables} {text : String}

structure Bounded (o : Options) : Prop where
  verifiedLifetime : o.verifiedLifetime ≤ maxPeriodSeconds
  unverifiedLifetime : o.unverifiedLifetime ≤ maxPeriodSeconds
  anchorRefresh : o.anchorRefresh ≤ maxPeriodSeconds
  gracePeriod : o.command.gracePeriod ≤ maxPeriodMillis
  recordLifetime : o.command.recordLifetime ≤ maxPeriodSeconds

structure Uncapped (o : Options) : Prop where
  verifiedMillis : o.verifiedMillis = o.verifiedLifetime * 1000
  unverifiedMillis : o.unverifiedMillis = o.unverifiedLifetime * 1000
  anchorRefreshPeriod : o.anchorRefreshPeriod = .ofMillis (o.anchorRefresh * 1000)
  graceMillis : o.command.graceMillis = o.command.gracePeriod
  recordMillis : o.command.recordMillis = o.command.recordLifetime * 1000

/-- The settings were read from variables or from a document. -/
inductive Accepted (o : Options) : Prop
  | fromVariables (vars : Variables) (h : ofVariables vars = .ok o)
  | fromDocument (text : String) (h : ofDocument text = .ok o)

theorem check_eq_ok_iff : o.check = .ok () ↔ o.Bounded := by
  unfold check
  simp only [bind_eq_ok_iff, checkPeriod_eq_ok_iff]
  constructor
  · rintro ⟨_, ⟨-, hverified⟩, _, ⟨-, hunverified⟩, _, ⟨-, hrefresh⟩, _, ⟨-, hgrace⟩, _,
      ⟨-, hrecord⟩, -⟩
    exact ⟨hverified, hunverified, hrefresh, hgrace, hrecord⟩
  · intro h
    exact ⟨_, ⟨rfl, h.verifiedLifetime⟩, _, ⟨rfl, h.unverifiedLifetime⟩, _, ⟨rfl, h.anchorRefresh⟩,
      _, ⟨rfl, h.gracePeriod⟩, _, ⟨rfl, h.recordLifetime⟩, rfl⟩

theorem bounded_of_ofDocument (h : ofDocument text = .ok o) : o.Bounded := by
  unfold ofDocument at h
  split at h
  · cases h
  · obtain ⟨_, hcheck, h⟩ := ok_of_bind h
    cases h
    exact check_eq_ok_iff.1 hcheck

theorem Gives.le {key : String} {default limit n : Nat}
    (h : Gives vars key default (Counts limit) n) (hdefault : default ≤ limit) : n ≤ limit := by
  unfold Gives at h
  split at h
  · rw [h]
    exact hdefault
  · exact h.2

theorem Configured.bounded (h : Configured vars o) : o.Bounded where
  verifiedLifetime := h.verifiedLifetime.le (by decide)
  unverifiedLifetime := h.unverifiedLifetime.le (by decide)
  anchorRefresh := h.anchorRefresh.le (by decide)
  gracePeriod := h.gracePeriod.le (by decide)
  recordLifetime := h.recordLifetime.le (by decide)

theorem Accepted.bounded (h : Accepted o) : o.Bounded := by
  cases h with
  | fromVariables vars h => exact (ofVariables_eq_ok_iff.1 h).bounded
  | fromDocument text h => exact bounded_of_ofDocument h

theorem cappedMillis_of_le {seconds : Nat} (h : seconds ≤ maxPeriodSeconds) :
    cappedMillis seconds = seconds * 1000 := by
  rw [cappedMillis, Nat.min_eq_left h]

theorem Bounded.uncapped (h : o.Bounded) : o.Uncapped where
  verifiedMillis := cappedMillis_of_le h.verifiedLifetime
  unverifiedMillis := cappedMillis_of_le h.unverifiedLifetime
  anchorRefreshPeriod := by
    simp only [Options.anchorRefreshPeriod, Duration.ofSeconds, Duration.ofMillis, Nat.mul_assoc]
  graceMillis := Int.min_eq_left (Int.ofNat_le.2 h.gracePeriod)
  recordMillis := cappedMillis_of_le h.recordLifetime

/-- Taken as they were set, periods are no longer than the longest one. -/
theorem cappedMillis_natAbs_le (seconds : Nat) :
    (cappedMillis seconds).natAbs ≤ maxPeriodMillis := by
  have hle : min seconds maxPeriodSeconds ≤ maxPeriodSeconds := Nat.min_le_right ..
  unfold cappedMillis maxPeriodMillis
  omega

/-- At a moment, no period of the settings leads out of the supported years: what comes in and
goes out of caches, trust anchors and the records of timestamps does so by the periods as they
were set. -/
structure SafeAt (o : Options) (now : Instant) : Prop where
  cached : ∀ ms ∈ [o.verifiedMillis, o.unverifiedMillis], ∃ limit,
    now.add? (.ofMillis ms) = some limit ∧
    ∀ (cache : Cache) (c : Certificate), cache.lifetime = .ofMillis ms →
      (cache.insert now c).entries =
      if c.validity.notAfter < now then cache.entries
      else cache.entries.insert c.name ⟨c, limit.min c.validity.notAfter⟩
  mirrored : (∃ due, now.add? (.ofDuration o.anchorRefreshPeriod) = some due) ∧
    ∀ a, Anchors.Paced o.anchorRefreshPeriod a → ∀ (disk : Disk) (op : AnchorOperation),
      op.KeepsTo o.anchorRefreshPeriod → ∃ answer a', op.run disk now a = .ok answer a' ∧
        ∀ id, answer ≠ .error (.refreshPeriod id)
  cleaned : ∃ oldest, now.add? (-.ofMillis o.command.recordMillis) = some oldest ∧ ∀ l : Records,
    Records.MayStay o.command oldest (l.cleanUp o.command now) ∧
      ∀ tail, tail <:+ l → Records.MayStay o.command oldest tail → tail <:+ l.cleanUp o.command now
  judged : ∀ (l : Records) (place : Nat) (k : Name) (t : UInt64),
    Policy.checkTimestamp o.command l now place k t =
      if o.command.gracePeriod < ((t.toNat : Int) - now.toMillis).natAbs then (Policy.outside k, [])
      else if (l.find? k).any (t ≤ ·.timestamp) then (Policy.reordered k, [])
      else (.pass, [.record place k t])

theorem Bounded.safeAt {now : Instant} (h : o.Bounded) (hnow : now.Central) : o.SafeAt now := by
  have hperiod : o.anchorRefreshPeriod.nanoseconds ≤ maxPeriodMillis * 1000000 := by
    have hle := h.anchorRefresh
    change o.anchorRefresh * 1000000000 ≤ _
    unfold maxPeriodMillis
    omega
  have hspan : ∀ seconds, ∀ span ∈ [Span.ofMillis (cappedMillis seconds),
      -Span.ofMillis (cappedMillis seconds)], ∃ t, now.add? span = some t := by
    intro seconds span hspan
    have hle := cappedMillis_natAbs_le seconds
    simp only [List.mem_cons, List.not_mem_nil, or_false] at hspan
    apply hnow.exists_add?
    rcases hspan with rfl | rfl
    · change (cappedMillis seconds * 1000000).natAbs ≤ _
      omega
    · change (-(cappedMillis seconds * 1000000)).natAbs ≤ _
      omega
  have hdue : ∃ due, now.add? (.ofDuration o.anchorRefreshPeriod) = some due := by
    apply hnow.exists_add?
    rwa [Span.ofDuration, Int.natAbs_natCast]
  constructor
  case cached =>
    intro ms hms
    obtain ⟨limit, hlimit⟩ : ∃ limit, now.add? (.ofMillis ms) = some limit := by
      simp only [List.mem_cons, List.not_mem_nil, or_false] at hms
      rcases hms with rfl | rfl <;> exact hspan _ _ List.mem_cons_self
    refine ⟨limit, hlimit, fun cache c hcache => ?_⟩
    rw [Cache.entries_insert, Cache.removalTime, hcache, hlimit]
  case mirrored =>
    refine ⟨hdue, fun a ha disk op hop => ?_⟩
    exact ha.havePeriod.run_ok hop (Nat.le_trans hperiod (by decide)) hdue disk
  case cleaned =>
    obtain ⟨oldest, holdest⟩ := hspan o.command.recordLifetime _
      (List.mem_cons_of_mem _ List.mem_cons_self)
    exact ⟨oldest, holdest, Records.cleanUp_longest holdest⟩
  case judged =>
    intro l place k t
    have houtside : ((t.toNat : Int) < now.toMillis - o.command.graceMillis ∨
        now.toMillis + o.command.graceMillis < t.toNat) ↔
          o.command.gracePeriod < ((t.toNat : Int) - now.toMillis).natAbs := by
      rw [h.uncapped.graceMillis]
      omega
    unfold Policy.checkTimestamp
    simp only [houtside]
    rfl

/-- Settings that were read have no period that is cut off, or that leads out of the supported years
from a moment far enough inside. Variables give settings just if each one that is set holds a number
within its limit, or says that there is no limit on records. -/
theorem accepted_in_supported_years :
    (∀ o, Accepted o → o.Bounded ∧ o.Uncapped ∧ ∀ now, now.Central → o.SafeAt now) ∧
      (∀ vars o, ofVariables vars = .ok o ↔ Configured vars o) ∧
      ∀ vars, (∃ e, ofVariables vars = .error e) ↔ ∃ v ∈ allowed, Wrong vars v := by
  refine ⟨fun o ho => ?_, fun vars o => ofVariables_eq_ok_iff, fun vars => ofVariables_error_iff⟩
  have hbounded := ho.bounded
  exact ⟨hbounded, hbounded.uncapped, fun now => hbounded.safeAt⟩

namespace Sample

def longest : Variables := fun name =>
  if name = "NDN_ANCHOR_REFRESH_SECS" then some " +3153600000\n" else none

def document : String := "\x7b\"anchor_refresh_secs\": 3153600000\x7d"

def longer : Variables :=
  fun name => if name = "NDN_ANCHOR_REFRESH_SECS" then some "3153600001" else none

def settings : Options := { anchorRefresh := 3153600000 }

end Sample

theorem accepted_in_supported_years_sample :
    ofVariables Sample.longest = .ok Sample.settings ∧
      ofDocument Sample.document = .ok Sample.settings ∧
      Configured Sample.longest Sample.settings ∧ Sample.settings.Bounded ∧
      (Instant.ofMillis 0).Central ∧ Sample.settings.SafeAt (.ofMillis 0) ∧
      (∃ answer a', (AnchorOperation.insertPath "file" ["anchor"]
        Sample.settings.anchorRefreshPeriod false).run (fun _ => {}) (.ofMillis 0) {} =
          .ok answer a') ∧
      ∃ v ∈ allowed, Wrong Sample.longer v := by
  have hread : ofVariables Sample.longest = .ok Sample.settings := by decide +kernel
  have hparsed : ofDocument Sample.document = .ok Sample.settings := by decide +kernel
  have hcentral : (Instant.ofMillis 0).Central := by decide +kernel
  obtain ⟨haccepted, hconfigured, hrefused⟩ := accepted_in_supported_years
  obtain ⟨hbounded, -, hsafe⟩ := haccepted _ (.fromDocument _ hparsed)
  obtain ⟨answer, a', hmade, -⟩ := (hsafe _ hcentral).mirrored.2 {} .start (fun _ => {})
    (.insertPath "file" ["anchor"] Sample.settings.anchorRefreshPeriod false) rfl
  exact ⟨hread, hparsed, (hconfigured _ _).1 hread, hbounded, hcentral, hsafe _ hcentral,
    ⟨answer, a', hmade⟩, (hrefused _).1 ⟨.invalid "NDN_ANCHOR_REFRESH_SECS"
      "3153600001", by decide +kernel⟩⟩

end Options

end PacketTrust
