import PacketTrust.Options.Variables
import PacketTrust.Proofs.Action
import PacketTrust.Proofs.Text.Blank
import PacketTrust.Proofs.Text.Numeral

/-! Which variables settings are read from. Main statements: settings are read just where each
variable that is set holds a number within its limit between blanks, and are those numbers; an error
names a variable that does not. -/

namespace PacketTrust

instance decidableEqExcept {ε α : Type} [DecidableEq ε] [DecidableEq α] : DecidableEq (Except ε α)
  | .ok a, .ok b => decidable_of_iff (a = b) (by simp)
  | .error d, .error e => decidable_of_iff (d = e) (by simp)
  | .ok _, .error _ => isFalse (by simp)
  | .error _, .ok _ => isFalse (by simp)

namespace Options

variable {vars : Variables} {key text : String} {default limit n : Nat}

def Holds (text : String) (n : Nat) : Prop :=
  ∃ body, Text.Trimmed text.toList body ∧ Decimal.Numeral body n

def SaysUnlimited (text : String) : Prop :=
  Text.Trimmed text.toList "unlimited".toList ∨ Text.Trimmed text.toList "-1".toList

theorem holds_iff : Holds text n ↔ Decimal.Numeral (Text.trim text.toList) n := by
  simp [Holds, Text.trimmed_iff]

theorem natural?_trim :
    Decimal.natural? limit (Text.trim text.toList) = some n ↔ Holds text n ∧ n ≤ limit := by
  rw [Decimal.natural?_eq_some_iff, holds_iff]

theorem saysUnlimited_iff : SaysUnlimited text ↔
    String.ofList (Text.trim text.toList) = "unlimited" ∨
      String.ofList (Text.trim text.toList) = "-1" := by
  have hword : ∀ word : String, String.ofList (Text.trim text.toList) = word ↔
      Text.trim text.toList = word.toList := by
    intro word
    rw [← String.toList_inj, String.toList_ofList]
  rw [hword, hword, SaysUnlimited, Text.trimmed_iff, Text.trimmed_iff]

theorem not_holds_of_saysUnlimited (h : SaysUnlimited text) : ¬ Holds text n := by
  intro hn
  have hread := natural?_trim.2 ⟨hn, Nat.le_refl n⟩
  rcases h with h | h
  · rw [Text.trimmed_iff.1 h] at hread
    cases hread
  · rw [Text.trimmed_iff.1 h] at hread
    cases hread

/-- The text stands for a number up to the limit. -/
def Counts (limit : Nat) (text : String) (n : Nat) : Prop := Holds text n ∧ n ≤ limit

/-- The text stands for so many records, or for any number of them. -/
def Bounds (text : String) : Option Nat → Prop
  | none => SaysUnlimited text
  | some n => Counts (UInt64.size - 1) text n

/-- A variable that is set gives what its text stands for; else the default stands. -/
def Gives {α : Type} (vars : Variables) (key : String) (default : α) (stands : String → α → Prop)
    (a : α) : Prop :=
  match vars key with
  | none => a = default
  | some text => stands text a

/-- What each variable may be set to. -/
def allowed : List (String × (String → Prop)) :=
  [("NDN_MAX_DEPTH", fun text => ∃ n, Counts (UInt64.size - 1) text n),
    ("NDN_VERIFIED_CACHE_LIFETIME_SECS", fun text => ∃ n, Counts maxPeriodSeconds text n),
    ("NDN_UNVERIFIED_CACHE_LIFETIME_SECS", fun text => ∃ n, Counts maxPeriodSeconds text n),
    ("NDN_ANCHOR_REFRESH_SECS", fun text => ∃ n, Counts maxPeriodSeconds text n),
    ("NDN_COMMAND_GRACE_PERIOD_MS", fun text => ∃ n, Counts maxPeriodMillis text n),
    ("NDN_COMMAND_MAX_RECORDS", fun text => ∃ limit, Bounds text limit),
    ("NDN_COMMAND_RECORD_LIFETIME_SECS", fun text => ∃ n, Counts maxPeriodSeconds text n)]

def Wrong (vars : Variables) (v : String × (String → Prop)) : Prop :=
  ∃ text, vars v.1 = some text ∧ ¬ v.2 text

/-- The settings are those that the variables give. -/
structure Configured (vars : Variables) (o : Options) : Prop where
  maxDepth :
    Gives vars "NDN_MAX_DEPTH" ({} : Options).maxDepth (Counts (UInt64.size - 1)) o.maxDepth
  verifiedLifetime : Gives vars "NDN_VERIFIED_CACHE_LIFETIME_SECS" ({} : Options).verifiedLifetime
    (Counts maxPeriodSeconds) o.verifiedLifetime
  unverifiedLifetime :
    Gives vars "NDN_UNVERIFIED_CACHE_LIFETIME_SECS" ({} : Options).unverifiedLifetime
    (Counts maxPeriodSeconds) o.unverifiedLifetime
  anchorRefresh : Gives vars "NDN_ANCHOR_REFRESH_SECS" ({} : Options).anchorRefresh
    (Counts maxPeriodSeconds) o.anchorRefresh
  gracePeriod : Gives vars "NDN_COMMAND_GRACE_PERIOD_MS" ({} : CommandOptions).gracePeriod
    (Counts maxPeriodMillis) o.command.gracePeriod
  maxRecords : Gives vars "NDN_COMMAND_MAX_RECORDS" ({} : CommandOptions).maxRecords Bounds
    o.command.maxRecords
  recordLifetime :
    Gives vars "NDN_COMMAND_RECORD_LIFETIME_SECS" ({} : CommandOptions).recordLifetime
    (Counts maxPeriodSeconds) o.command.recordLifetime

section

variable {α β : Type} {preset : α} {stands : String → α → Prop} {x : Except OptionsError α}
  {next : α → Except OptionsError β}

theorem exists_gives_iff :
    (∃ a, Gives vars key preset stands a) ↔ ¬ Wrong vars (key, fun text => ∃ a, stands text a) := by
  unfold Gives Wrong
  cases vars key <;> simp

def Blames (vars : Variables) (x : Except OptionsError α) : Prop :=
  ∀ e, x = .error e → ∃ v ∈ allowed, Wrong vars v ∧ ∃ shown, e = .invalid v.1 shown

theorem Blames.bind (hx : Blames vars x) (hnext : ∀ a, Blames vars (next a)) :
    Blames vars (x >>= next) := by
  intro e he
  rcases error_of_bind he with he | ⟨a, -, he⟩
  · exact hx e he
  · exact hnext a e he

/-- What gives just the values of one variable fails only where that variable is wrong. -/
theorem blames_of_gives (hv : (key, fun text => ∃ a, stands text a) ∈ allowed)
    (hx : ∀ a, x = .ok a ↔ Gives vars key preset stands a)
    (hkey : ∀ e, x = .error e → ∃ shown, e = .invalid key shown) : Blames vars x := by
  intro e he
  have hnone : ¬ ∃ a, Gives vars key preset stands a := by
    rintro ⟨a, ha⟩
    rw [(hx a).2 ha] at he
    cases he
  exact ⟨_, hv, not_not.1 (mt exists_gives_iff.2 hnone), hkey e he⟩

end

theorem number_eq_ok_iff :
    number vars key default = .ok n ↔ Gives vars key default (Counts (UInt64.size - 1)) n := by
  unfold number Gives
  cases vars key with
  | none =>
    dsimp only
    rw [Except.ok.injEq, eq_comm]
  | some text =>
    dsimp only
    rw [Counts, ← natural?_trim]
    cases Decimal.natural? (UInt64.size - 1) (Text.trim text.toList) <;> simp

theorem checkPeriod_eq_ok_iff {value : Nat} :
    checkPeriod key value limit = .ok n ↔ value = n ∧ value ≤ limit := by
  unfold checkPeriod
  split
  · simp only [reduceCtorEq, false_iff]
    omega
  · simp only [Except.ok.injEq]
    omega

/-- A period is given like other numbers, with a lower limit. -/
theorem period_eq_ok_iff (hdefault : default ≤ limit) (hlimit : limit ≤ UInt64.size - 1) :
    period vars key default limit = .ok n ↔ Gives vars key default (Counts limit) n := by
  have hchecked : period vars key default limit = .ok n ↔
      Gives vars key default (Counts (UInt64.size - 1)) n ∧ n ≤ limit := by
    unfold period
    simp only [bind_eq_ok_iff, number_eq_ok_iff, checkPeriod_eq_ok_iff]
    constructor
    · rintro ⟨_, hgives, rfl, hle⟩
      exact ⟨hgives, hle⟩
    · rintro ⟨hgives, hle⟩
      exact ⟨n, hgives, rfl, hle⟩
  rw [hchecked]
  unfold Gives
  cases vars key with
  | none => exact and_iff_left_of_imp fun hn => Nat.le_trans (Nat.le_of_eq hn) hdefault
  | some text =>
    constructor
    · rintro ⟨⟨hn, -⟩, hle⟩
      exact ⟨hn, hle⟩
    · rintro ⟨hn, hle⟩
      exact ⟨⟨hn, Nat.le_trans hle hlimit⟩, hle⟩

theorem recordLimit_eq_ok_iff {default limit : Option Nat} :
    recordLimit vars default = .ok limit ↔
      Gives vars "NDN_COMMAND_MAX_RECORDS" default Bounds limit := by
  have hnumber : ∀ text, vars "NDN_COMMAND_MAX_RECORDS" = some text → ∀ n,
      number vars "NDN_COMMAND_MAX_RECORDS" 0 = .ok n ↔ Counts (UInt64.size - 1) text n := by
    intro text hset n
    rw [number_eq_ok_iff, Gives, hset]
  unfold recordLimit Gives
  dsimp only
  generalize vars "NDN_COMMAND_MAX_RECORDS" = set at hnumber ⊢
  cases set with
  | none =>
    dsimp only
    rw [Except.ok.injEq, eq_comm]
  | some text =>
    dsimp only
    by_cases hunlimited : SaysUnlimited text
    · rw [if_pos (saysUnlimited_iff.1 hunlimited)]
      cases limit with
      | none => simp [Bounds, hunlimited]
      | some n => simp [Bounds, Counts, not_holds_of_saysUnlimited hunlimited]
    · rw [if_neg (mt saysUnlimited_iff.2 hunlimited), bind_eq_ok_iff]
      cases limit with
      | none => simp [Bounds, hunlimited, pure, Except.pure]
      | some n => simp [Bounds, hnumber text rfl, pure, Except.pure]

theorem number_error {e : OptionsError} (h : number vars key default = .error e) :
    ∃ shown, e = .invalid key shown := by
  unfold number at h
  split at h
  · cases h
  · split at h
    · cases h
    · cases h
      exact ⟨_, rfl⟩

theorem period_error {e : OptionsError} (h : period vars key default limit = .error e) :
    ∃ shown, e = .invalid key shown := by
  rcases error_of_bind h with h | ⟨n, -, h⟩
  · exact number_error h
  · unfold checkPeriod at h
    split at h
    · cases h
      exact ⟨_, rfl⟩
    · cases h

theorem recordLimit_error {e : OptionsError} {default : Option Nat}
    (h : recordLimit vars default = .error e) :
    ∃ shown, e = .invalid "NDN_COMMAND_MAX_RECORDS" shown := by
  unfold recordLimit at h
  dsimp only at h
  split at h
  · cases h
  · split at h
    · cases h
    · rcases error_of_bind h with h | ⟨n, -, h⟩
      · exact number_error h
      · cases h

/-- Settings are read just if they are those that the variables give. -/
theorem ofVariables_eq_ok_iff {o : Options} : ofVariables vars = .ok o ↔ Configured vars o := by
  unfold ofVariables
  simp (disch := decide) only [bind_eq_ok_iff, recordLimit_eq_ok_iff, number_eq_ok_iff,
    period_eq_ok_iff]
  constructor
  · rintro ⟨records, hrecords, depth, hdepth, verified, hverified, unverified, hunverified,
      refresh, hrefresh, grace, hgrace, lifetime, hlifetime, h⟩
    cases h
    exact ⟨hdepth, hverified, hunverified, hrefresh, hgrace, hrecords, hlifetime⟩
  · intro h
    exact ⟨_, h.maxRecords, _, h.maxDepth, _, h.verifiedLifetime, _, h.unverifiedLifetime, _,
      h.anchorRefresh, _, h.gracePeriod, _, h.recordLifetime, rfl⟩

theorem Configured.not_wrong {o : Options} (h : Configured vars o) :
    ∀ v ∈ allowed, ¬ Wrong vars v := by
  simp only [allowed, List.forall_mem_cons]
  exact ⟨exists_gives_iff.1 ⟨_, h.maxDepth⟩, exists_gives_iff.1 ⟨_, h.verifiedLifetime⟩,
    exists_gives_iff.1 ⟨_, h.unverifiedLifetime⟩, exists_gives_iff.1 ⟨_, h.anchorRefresh⟩,
    exists_gives_iff.1 ⟨_, h.gracePeriod⟩, exists_gives_iff.1 ⟨_, h.maxRecords⟩,
    exists_gives_iff.1 ⟨_, h.recordLifetime⟩, nofun⟩

theorem blames_ofVariables (vars : Variables) : Blames vars (ofVariables vars) := by
  have hnumber : ∀ key default, (key, fun text => ∃ n, Counts (UInt64.size - 1) text n) ∈ allowed →
      Blames vars (number vars key default) := by
    intro key default hv
    exact blames_of_gives hv (fun n => number_eq_ok_iff) fun e => number_error
  have hperiod : ∀ key default limit, (key, fun text => ∃ n, Counts limit text n) ∈ allowed →
      default ≤ limit → limit ≤ UInt64.size - 1 → Blames vars (period vars key default limit) := by
    intro key default limit hv hdefault hlimit
    exact blames_of_gives hv (fun n => period_eq_ok_iff hdefault hlimit) fun e => period_error
  have hrecords : ∀ default, Blames vars (recordLimit vars default) := by
    intro default
    exact blames_of_gives (by simp [allowed]) (fun n => recordLimit_eq_ok_iff) fun e =>
      recordLimit_error
  refine (hrecords _).bind fun records => ?_
  refine (hnumber _ _ (by simp [allowed])).bind fun depth => ?_
  refine (hperiod _ _ _ (by simp [allowed]) (by decide) (by decide)).bind fun verified => ?_
  refine (hperiod _ _ _ (by simp [allowed]) (by decide) (by decide)).bind fun unverified => ?_
  refine (hperiod _ _ _ (by simp [allowed]) (by decide) (by decide)).bind fun refresh => ?_
  refine (hperiod _ _ _ (by simp [allowed]) (by decide) (by decide)).bind fun grace => ?_
  refine (hperiod _ _ _ (by simp [allowed]) (by decide) (by decide)).bind fun lifetime => ?_
  exact nofun

/-- Variables are refused just where one of them is set to what it may not be set to, and the error
names such a one. -/
theorem ofVariables_error_iff :
    (∃ e, ofVariables vars = .error e) ↔ ∃ v ∈ allowed, Wrong vars v := by
  constructor
  · rintro ⟨e, he⟩
    obtain ⟨v, hv, hwrong, -⟩ := blames_ofVariables vars e he
    exact ⟨v, hv, hwrong⟩
  · rintro ⟨v, hv, hwrong⟩
    cases h : ofVariables vars with
    | error e => exact ⟨e, rfl⟩
    | ok o => exact absurd hwrong ((ofVariables_eq_ok_iff.1 h).not_wrong v hv)

end Options

end PacketTrust
