import Mathlib.Data.List.Induction
import Mathlib.Data.List.Nodup
import PacketTrust.Proofs.Name.Entries
import PacketTrust.Storage.Cache

/-! How long a cache keeps its entries, however the clock goes. An entry that came in under a name
stays for as long as it is neither replaced nor taken out, nor the cache looked through past its
time. -/

namespace PacketTrust

theorem Interest.matchesData_of_name {i : Interest} {d : Data} (h : i.name = d.name) :
    i.matchesData d := by
  have hself : d.name.startsWith d.name := Name.startsWith_iff.2 List.prefix_rfl
  unfold matchesData
  simp [h, hself]

namespace CacheOperation

def Stores (n : Name) (now : Instant) (op : CacheOperation) : Prop :=
  ∃ c, op = insert c ∧ c.name = n ∧ now ≤ c.validity.notAfter

/-- The operation takes out what stands under a name and has to go at a moment. -/
def Removes (n : Name) (removal now : Instant) : CacheOperation → Prop
  | insert _ => False
  | erase k => k = n
  | clear => True
  | refresh | find _ | findInterest _ => removal < now

end CacheOperation

namespace Cache

variable {cache : Cache} {lifetime : Span} {now t : Instant} {c : Certificate} {e : CacheEntry}
  {n : Name} {op : CacheOperation} {history : List (Instant × CacheOperation)}

/-- A certificate that comes in now has to go when it expires or when the longest lifetime is over,
whichever is first. A lifetime beyond the supported years has no end. -/
structure HasToGo (lifetime : Span) (now : Instant) (c : Certificate)
    (removal : Instant) : Prop where
  expiry : removal ≤ c.validity.notAfter
  limit : ∀ limit, now.add? lifetime = some limit → removal ≤ limit
  reached : removal = c.validity.notAfter ∨ now.add? lifetime = some removal

/-- The entry came in under a name, and has neither been replaced nor taken out since. -/
def Stays (lifetime : Span) (history : List (Instant × CacheOperation)) (n : Name)
    (e : CacheEntry) : Prop :=
  ∃ before now after, history = before ++ (now, .insert e.certificate) :: after ∧
    e.certificate.name = n ∧ now ≤ e.certificate.validity.notAfter ∧
    HasToGo lifetime now e.certificate e.removal ∧
    ∀ step ∈ after, ¬ step.2.Stores n step.1 ∧ ¬ step.2.Removes n e.removal step.1

def after (lifetime : Span) (history : List (Instant × CacheOperation)) : Cache :=
  history.foldl (fun cache step => (step.2.run step.1 cache).2) { lifetime }

theorem Stays.name (h : Stays lifetime history n e) : e.certificate.name = n := by
  obtain ⟨_, _, _, _, hname, _⟩ := h
  exact hname

theorem Stays.removal_le (h : Stays lifetime history n e) :
    e.removal ≤ e.certificate.validity.notAfter := by
  obtain ⟨_, _, _, _, _, _, hgo, _⟩ := h
  exact hgo.expiry

theorem hasToGo_iff {removal : Instant} :
    HasToGo lifetime now c removal ↔ removal = removalTime lifetime now c := by
  unfold removalTime
  constructor
  · rintro ⟨hexpiry, hlifetime, hreached⟩
    split
    · rename_i limit hlimit
      have hle := hlifetime limit hlimit
      unfold Instant.min
      rcases hreached with rfl | hreached
      · split
        · exact Instant.le_antisymm hle ‹_›
        · rfl
      · obtain rfl : limit = removal := Option.some.inj (hlimit.symm.trans hreached)
        rw [if_pos hexpiry]
    · rename_i hnone
      rcases hreached with rfl | hreached
      · rfl
      · cases hnone.symm.trans hreached
  · rintro rfl
    split
    · rename_i limit hlimit
      unfold Instant.min
      split
      · rename_i hle
        exact ⟨hle, fun _ h => by rw [hlimit] at h; cases h; exact Instant.le_refl _, .inr hlimit⟩
      · rename_i hle
        refine ⟨Instant.le_refl _, fun _ h => ?_, .inl rfl⟩
        rw [hlimit] at h
        cases h
        exact Instant.le_of_not_le hle
    · rename_i hnone
      refine ⟨Instant.le_refl _, fun _ h => ?_, .inl rfl⟩
      rw [hnone] at h
      cases h

theorem get?_insert : (cache.insert now c).entries.get? n =
    if c.name = n ∧ now ≤ c.validity.notAfter then some ⟨c, removalTime cache.lifetime now c⟩
    else cache.entries.get? n := by
  unfold insert
  by_cases hexpired : c.validity.notAfter < now
  · rw [if_pos hexpired, if_neg fun h => Instant.not_lt.2 h.2 hexpired]
  · rw [if_neg hexpired]
    simp [NameMap.get?_insert, Instant.not_lt.1 hexpired]

theorem get?_refresh : (cache.refresh now).entries.get? n = some e ↔
    cache.entries.get? n = some e ∧ now ≤ e.removal := by
  rw [entries_refresh, NameMap.get?_filter, Option.filter_eq_some_iff, decide_eq_true_iff]

/-- What an operation leaves under a name came in by it, or stood there and was left alone. -/
theorem get?_run : (op.run now cache).2.entries.get? n = some e ↔
    (op = .insert e.certificate ∧ e.certificate.name = n ∧ now ≤ e.certificate.validity.notAfter ∧
      HasToGo cache.lifetime now e.certificate e.removal) ∨
    cache.entries.get? n = some e ∧ ¬ op.Stores n now ∧ ¬ op.Removes n e.removal now := by
  cases op with
  | insert c =>
    simp only [CacheOperation.run, get?_insert, CacheOperation.insert.injEq, CacheOperation.Stores,
      CacheOperation.Removes, exists_eq_left', not_false_eq_true, and_true]
    by_cases h : c.name = n ∧ now ≤ c.validity.notAfter
    · rw [if_pos h, Option.some.injEq]
      constructor
      · rintro rfl
        exact .inl ⟨rfl, h.1, h.2, hasToGo_iff.2 rfl⟩
      · rintro (⟨rfl, -, -, hgo⟩ | ⟨-, hnot⟩)
        · rw [← hasToGo_iff.1 hgo]
        · exact absurd h hnot
    · rw [if_neg h]
      constructor
      · intro he
        exact .inr ⟨he, h⟩
      · rintro (⟨rfl, hn, hvalid, -⟩ | ⟨he, -⟩)
        · exact absurd ⟨hn, hvalid⟩ h
        · exact he
  | erase k =>
    change (cache.entries.erase k).get? n = _ ↔ _
    rw [NameMap.get?_erase]
    by_cases hk : n = k <;> simp [CacheOperation.Stores, CacheOperation.Removes, hk, eq_comm]
  | clear => simp [CacheOperation.run, clear, NameMap.empty, NameMap.get?, CacheOperation.Removes]
  | refresh | find _ | findInterest _ =>
    refine get?_refresh.trans ?_
    simp [CacheOperation.Stores, CacheOperation.Removes, Instant.not_lt]

theorem lifetime_run (op : CacheOperation) (now : Instant) (cache : Cache) :
    (op.run now cache).2.lifetime = cache.lifetime := by
  cases op with
  | insert c => exact cache.lifetime_insert now c
  | erase _ | clear | refresh | find _ | findInterest _ => rfl

theorem stays_concat : Stays lifetime (history ++ [(now, op)]) n e ↔
    (op = .insert e.certificate ∧ e.certificate.name = n ∧ now ≤ e.certificate.validity.notAfter ∧
      HasToGo lifetime now e.certificate e.removal) ∨
    Stays lifetime history n e ∧ ¬ op.Stores n now ∧ ¬ op.Removes n e.removal now := by
  constructor
  · rintro ⟨before, t, after, hsplit, hn, hvalid, hgo, hafter⟩
    rcases concat_eq_split_iff.1 hsplit with ⟨-, hstep, -⟩ | ⟨rest, rfl, rfl⟩
    · cases hstep
      exact .inl ⟨rfl, hn, hvalid, hgo⟩
    · obtain ⟨hrest, hstep⟩ := List.forall_mem_append.1 hafter
      exact .inr ⟨⟨before, t, rest, rfl, hn, hvalid, hgo, hrest⟩,
        hstep (now, op) List.mem_cons_self⟩
  · rintro (⟨rfl, hn, hvalid, hgo⟩ | ⟨⟨before, t, after, rfl, hn, hvalid, hgo, hafter⟩, hop⟩)
    · exact ⟨history, now, [], rfl, hn, hvalid, hgo, by simp⟩
    · refine ⟨before, t, after ++ [(now, op)], by simp, hn, hvalid, hgo,
        List.forall_mem_append.2 ⟨hafter, ?_⟩⟩
      simpa using hop

theorem after_concat : after lifetime (history ++ [(now, op)]) =
    (op.run now (after lifetime history)).2 := by
  simp [after]

theorem lifetime_after (lifetime : Span) (history : List (Instant × CacheOperation)) :
    (after lifetime history).lifetime = lifetime := by
  induction history using List.reverseRecOn with
  | nil => rfl
  | append_singleton history step ih => rw [after_concat, lifetime_run, ih]

/-- What stands under a name is what came in last there and has stayed. -/
theorem get?_after :
    (after lifetime history).entries.get? n = some e ↔ Stays lifetime history n e := by
  induction history using List.reverseRecOn with
  | nil => simp [after, Stays, NameMap.empty, NameMap.get?]
  | append_singleton history step ih =>
    rw [after_concat, get?_run, lifetime_after, ih, stays_concat]

/-- What a search finds stands under its own name, up to its time. -/
theorem run_found (h : (op.run now (after lifetime history)).1 = some c) :
    ∃ e, Stays lifetime history c.name e ∧ e.certificate = c ∧ now ≤ e.removal := by
  have hentry : ∃ k e, ((after lifetime history).refresh now).entries.get? k = some e ∧
      e.certificate = c := by
    cases op with
    | insert _ | erase _ | clear | refresh => cases h
    | find k =>
      obtain ⟨e, hfind, rfl⟩ := Option.map_eq_some_iff.1 h
      obtain ⟨entry, hentry, rfl, -⟩ := NameMap.findUnder_some hfind
      exact ⟨entry.1, entry.2, NameMap.get?_eq_some_iff.2 hentry, rfl⟩
    | findInterest i =>
      obtain ⟨e, hfind, rfl⟩ := Option.map_eq_some_iff.1 h
      obtain ⟨entry, hentry, rfl, -⟩ := NameMap.findUnderWith_some hfind
      exact ⟨entry.1, entry.2, NameMap.get?_eq_some_iff.2 hentry, rfl⟩
  obtain ⟨k, e, hget, rfl⟩ := hentry
  obtain ⟨hget, hle⟩ := get?_refresh.1 hget
  have hstays : Stays lifetime history k e := get?_after.1 hget
  have hname : e.certificate.name = k := hstays.name
  exact ⟨e, hname ▸ hstays, rfl, hle⟩

theorem found_of_stays (h : Stays lifetime history n e) (hle : now ≤ e.removal) :
    ((after lifetime history).find now n).1 = some e.certificate ∧
      ∀ i : Interest, i.name = n →
        ((after lifetime history).findInterest now i).1 = some e.certificate := by
  have hget : ((after lifetime history).refresh now).entries.get? n = some e :=
    get?_refresh.2 ⟨get?_after.2 h, hle⟩
  constructor
  case left => simp [find, NameMap.findUnder_of_get? hget]
  case right =>
    rintro i rfl
    have hmatches : i.matchesData e.certificate.data := Interest.matchesData_of_name h.name.symm
    have hfind := NameMap.findUnderWith_of_get?
      (p := fun e => i.matchesData e.certificate.data) hget hmatches
    simp [findInterest, hfind]

/-- The removals are the times and names of the entries, in another order. -/
theorem removals_perm (cache : Cache) :
    cache.removals.rows.Perm (cache.entries.entries.map fun e => (e.2.removal, e.1)) := by
  have hrows : cache.removals.rows.Nodup := by
    refine cache.removals.rising.imp fun hlt heq => ?_
    rw [heq, (Std.ReflCmp.compare_self : Removals.cmp _ _ = .eq)] at hlt
    cases hlt
  have hentries : (cache.entries.entries.map fun e => (e.2.removal, e.1)).Nodup := by
    apply List.Nodup.of_map Prod.snd
    rw [List.map_map]
    exact cache.entries.nodup_keys
  rw [List.perm_ext_iff_of_nodup hrows hentries]
  rintro ⟨t, n⟩
  rw [cache.indexed t n, List.mem_map]
  constructor
  · rintro ⟨e, he, rfl⟩
    exact ⟨(n, e), NameMap.get?_eq_some_iff.1 he, rfl⟩
  · rintro ⟨e, he, heq⟩
    cases heq
    exact ⟨e.2, NameMap.get?_eq_some_iff.2 he, rfl⟩

/-- Whatever was done with a new cache, at whatever moments: it holds under each name what came in
last there and has stayed, with just one removal for it, and a search finds it up to that time. -/
theorem holds_last_in_time (lifetime : Span) (history : List (Instant × CacheOperation)) :
    (after lifetime history).removals.rows.Perm
        ((after lifetime history).entries.entries.map fun e => (e.2.removal, e.1)) ∧
      (∀ n e, (after lifetime history).entries.get? n = some e ↔ Stays lifetime history n e) ∧
      (∀ now (op : CacheOperation) c, (op.run now (after lifetime history)).1 = some c →
        now ≤ c.validity.notAfter ∧
          ∃ e, Stays lifetime history c.name e ∧ e.certificate = c ∧ now ≤ e.removal) ∧
      ∀ now n e, Stays lifetime history n e → now ≤ e.removal →
        ((after lifetime history).find now n).1 = some e.certificate ∧
          ∀ i : Interest, i.name = n →
            ((after lifetime history).findInterest now i).1 = some e.certificate := by
  refine ⟨removals_perm _, fun n e => get?_after, fun now op c hfound => ?_,
    fun now n e => found_of_stays⟩
  obtain ⟨e, hstays, rfl, hle⟩ := run_found hfound
  exact ⟨Instant.le_trans hle hstays.removal_le, e, hstays, rfl, hle⟩

/-- The certificate that was replaced had to go before the search; the one in its place is found. -/
example :
    let name : Name := ⟨[.generic [1]]⟩
    let c (last : Int) : Certificate := ⟨{ name }, ⟨.ofMillis 0, .ofMillis last⟩⟩
    ((after (.ofMillis 100000) [(.ofMillis 0, .insert (c 5000)),
      (.ofMillis 0, .insert (c 9000))]).find (.ofMillis 6000) name).1 = some (c 9000) := by
  decide +kernel

end Cache

end PacketTrust
