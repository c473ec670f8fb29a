import PacketTrust.Proofs.Action
import PacketTrust.Proofs.Name.Entries
import PacketTrust.Storage.Basic

/-! What the parts of storage hold. A cache holds no more than was inserted into it, trust anchors
stand in groups, and reading the sources of the groups again at the same moment changes nothing. -/

namespace PacketTrust

namespace Cache

variable {cache : Cache} {now : Instant} {c d : Certificate}

def Holds (cache : Cache) (c : Certificate) : Prop :=
  ∃ e ∈ cache.entries.entries, e.2.certificate = c

theorem size_eq_zero_iff : cache.size = 0 ↔ ∀ c, ¬ cache.Holds c := by
  rw [size, NameMap.size, List.length_eq_zero_iff, List.eq_nil_iff_forall_not_mem]
  exact ⟨fun h c ⟨e, he, _⟩ => h e he, fun h e he => h _ ⟨e, he, rfl⟩⟩

theorem holds_of_insert (h : (cache.insert now d).Holds c) : c = d ∨ cache.Holds c := by
  unfold insert at h
  split at h
  · exact .inr h
  · obtain ⟨e, he, rfl⟩ := h
    rcases NameMap.mem_insert he with rfl | he
    · exact .inl rfl
    · exact .inr ⟨e, he, rfl⟩

theorem holds_of_filter {p : Name → CacheEntry → Bool} {kept : Cache}
    (hkept : kept.entries = cache.entries.filter p) (h : kept.Holds c) : cache.Holds c := by
  obtain ⟨e, he, rfl⟩ := h
  rw [hkept] at he
  exact ⟨e, (List.mem_filter.1 he).1, rfl⟩

theorem holds_of_refresh (h : (cache.refresh now).Holds c) : cache.Holds c :=
  holds_of_filter (cache.entries_refresh now) h

/-- Only insertion brings a certificate into a cache. -/
theorem holds_of_run {op : CacheOperation} (h : (op.run now cache).2.Holds c) :
    op = .insert c ∨ cache.Holds c := by
  cases op with
  | insert d => exact (holds_of_insert h).imp_left fun hc => congrArg _ hc.symm
  | erase n => exact .inr (holds_of_filter (p := fun k _ => k ≠ n) rfl h)
  | clear =>
    obtain ⟨e, he, -⟩ := h
    cases he
  | refresh => exact .inr (holds_of_refresh h)
  | find n => exact .inr (holds_of_refresh h)
  | findInterest i => exact .inr (holds_of_refresh h)

def answer (cache : Cache) (i : Interest) : Option Certificate :=
  (cache.entries.findUnderWith i.name fun e => i.matchesData e.certificate.data).map
    (·.certificate)

theorem answer_under {i : Interest} (h : cache.answer i = some c) :
    ∃ e ∈ cache.entries.entries, e.1.startsWith i.name ∧ e.2.certificate = c ∧
      i.matchesData c.data :=
  NameMap.map_findUnderWith_some (f := CacheEntry.certificate) (q := fun c =>
    i.matchesData c.data) h

theorem answer_some {i : Interest} (h : cache.answer i = some c) :
    cache.Holds c ∧ i.matchesData c.data := by
  obtain ⟨e, he, -, rfl, hm⟩ := answer_under h
  exact ⟨⟨e, he, rfl⟩, hm⟩

theorem exists_answer {i : Interest} {e : Name × CacheEntry} (he : e ∈ cache.entries.entries)
    (hn : e.1.startsWith i.name) (hm : i.matchesData e.2.certificate.data) :
    ∃ c, cache.answer i = some c :=
  NameMap.exists_map_findUnderWith (f := CacheEntry.certificate)
    (q := fun c => i.matchesData c.data) he hn hm

theorem refresh_refresh : (cache.refresh now).refresh now = cache.refresh now := by
  have hdue : ((cache.removals.later now).due now) = [] := by
    rw [List.eq_nil_iff_forall_not_mem]
    intro r hr
    have hlater := (Removals.mem_due_or_later _ now r).2 (.inl hr)
    exact Removals.not_lt_of_mem_later hlater (Removals.lt_of_mem_due hr)
  have hlater : (cache.removals.later now).later now = cache.removals.later now :=
    Removals.later_of_due hdue
  simp [refresh, hdue, hlater]

end Cache

namespace AnchorGroup

variable {files : Files} {now t : Instant} {g g' : AnchorGroup} {index index' : AnchorIndex}
  {loaded : NameMap Certificate} {c : Certificate} {n : Name}

/-- The source of the group can be read at a moment, as the next reading will lie in the supported
years. -/
def RenewableAt (g : AnchorGroup) (t : Instant) : Prop :=
  ∀ s, g.source = some s → (t.add? (.ofDuration s.period)).isSome

instance (g : AnchorGroup) (t : Instant) : Decidable (g.RenewableAt t) :=
  decidable_of_iff (g.source.all fun s => (t.add? (.ofDuration s.period)).isSome) 
    (by simp [RenewableAt, Option.all_eq_true])

/-- Certificates stand under their names. -/
def Keyed (loaded : NameMap Certificate) : Prop := ∀ e ∈ loaded.entries, e.1 = e.2.name

/-- The group holds just the names that were loaded. -/
structure Follows (g : AnchorGroup) (loaded : NameMap Certificate) : Prop where
  known : ∀ n, g.names.contains n → loaded.contains n
  held : ∀ e ∈ loaded.entries, g.names.contains e.2.name

theorem keyed_load (files : Files) (s : AnchorSource) : Keyed (load files s) := by
  unfold load NameMap.ofList
  rw [List.foldl_map]
  have hkeyed : ∀ (l : List Certificate) (m : NameMap Certificate), Keyed m →
      Keyed (l.foldl (fun m c => m.insert c.name c) m) := by
    intro l
    induction l with
    | nil => exact fun m hm => hm
    | cons c rest ih =>
      refine fun m hm => ih _ fun e he => ?_
      rcases NameMap.mem_insert he with rfl | he
      · rfl
      · exact hm e he
  exact hkeyed _ _ fun e he => absurd he List.not_mem_nil

theorem add_source (g : AnchorGroup) (index : AnchorIndex) (c : Certificate) :
    (g.add index c).1.source = g.source := by
  unfold add
  split <;> rfl

theorem add_id (g : AnchorGroup) (index : AnchorIndex) (c : Certificate) :
    (g.add index c).1.id = g.id := by
  unfold add
  split <;> rfl

theorem contains_add (g : AnchorGroup) (index : AnchorIndex) (c : Certificate) :
    (g.add index c).1.names.contains n ↔ c.name = n ∨ g.names.contains n := by
  unfold add
  split
  · rename_i h
    exact ⟨.inr, fun hn => hn.elim (fun he => he ▸ h) fun hn => hn⟩
  · exact NameMap.contains_insert

theorem add_of_contains (h : g.names.contains c.name) : g.add index c = (g, index) := if_pos h

section

variable (l : List Certificate) (s : AnchorGroup × AnchorIndex)

theorem foldl_add_source :
    (l.foldl (fun s c => s.1.add s.2 c) s).1.source = s.1.source := by
  induction l generalizing s with
  | nil => rfl
  | cons c rest ih => rw [List.foldl_cons, ih, add_source]

theorem foldl_add_id : (l.foldl (fun s c => s.1.add s.2 c) s).1.id = s.1.id := by
  induction l generalizing s with
  | nil => rfl
  | cons c rest ih => rw [List.foldl_cons, ih, add_id]

theorem contains_foldl_add :
    (l.foldl (fun s c => s.1.add s.2 c) s).1.names.contains n ↔
      (∃ c ∈ l, c.name = n) ∨ s.1.names.contains n := by
  induction l generalizing s with
  | nil => simp
  | cons c rest ih =>
    rw [List.foldl_cons, ih, contains_add]
    simp only [List.mem_cons, exists_eq_or_imp]
    rw [or_left_comm, or_assoc]

theorem foldl_add_of_contains (h : ∀ c ∈ l, s.1.names.contains c.name) :
    l.foldl (fun s c => s.1.add s.2 c) s = s := by
  induction l with
  | nil => rfl
  | cons c rest ih =>
    rw [List.foldl_cons, add_of_contains (h c List.mem_cons_self)]
    exact ih fun d hd => h d (List.mem_cons_of_mem _ hd)

end

theorem follow_source (g : AnchorGroup) (loaded : NameMap Certificate) (index : AnchorIndex) :
    (g.follow loaded index).1.source = g.source := foldl_add_source _ _

theorem follows_follow (g : AnchorGroup) (index : AnchorIndex) (hk : Keyed loaded) :
    (g.follow loaded index).1.Follows loaded := by
  constructor
  case known =>
    intro n hn
    rcases (contains_foldl_add _ _).1 hn with ⟨c, hc, rfl⟩ | hn
    · obtain ⟨e, he, rfl⟩ := List.mem_map.1 hc
      exact NameMap.contains_iff.2 ⟨e, he, hk e he⟩
    · obtain ⟨e, he, rfl⟩ := NameMap.contains_iff.1 hn
      exact (List.mem_filter.1 he).2
  case held =>
    intro e he
    exact (contains_foldl_add _ _).2 (.inl ⟨e.2, List.mem_map_of_mem he, rfl⟩)

theorem Follows.contains_iff (h : g.Follows loaded) (hk : Keyed loaded) :
    g.names.contains n ↔ loaded.contains n := by
  refine ⟨h.known n, fun hn => ?_⟩
  obtain ⟨e, he, rfl⟩ := NameMap.contains_iff.1 hn
  rw [hk e he]
  exact h.held e he

theorem Follows.follow (h : g.Follows loaded) (index : AnchorIndex) :
    g.follow loaded index = (g, index) := by
  have hkeys : ∀ e ∈ g.names.entries, loaded.contains e.1 = true := fun e he =>
    h.known e.1 (NameMap.contains_iff.2 ⟨e, he, rfl⟩)
  have hstale : g.names.keys.filter (!loaded.contains ·) = [] := by
    refine List.filter_eq_nil_iff.2 fun n hn => ?_
    obtain ⟨e, he, rfl⟩ := List.mem_map.1 hn
    simp [hkeys e he]
  have hnames : g.names.filter (fun n _ => loaded.contains n) = g.names :=
    NameMap.filter_eq_self hkeys
  have hdrop : g.drop loaded index = (g, index) := by
    unfold drop
    rw [hstale, hnames]
    rfl
  unfold AnchorGroup.follow
  rw [hdrop]
  refine foldl_add_of_contains _ _ fun c hc => ?_
  obtain ⟨e, he, rfl⟩ := List.mem_map.1 hc
  exact h.held e he

/-- A static group stays as it is; a dynamic group takes over what its source shows. -/
theorem reload?_some (h : g.reload? files now index = some (g', index')) :
    g.source = none ∧ g' = g ∧ index' = index ∨ ∃ s due, g.source = some s ∧
      now.add? (.ofDuration s.period) = some due ∧ g'.source = some { s with due } ∧
      { g with source := some { s with due } }.follow (load files s) index = (g', index') := by
  unfold reload? at h
  split at h
  · rename_i hs
    cases h
    exact .inl ⟨hs, rfl, rfl⟩
  · rename_i s hs
    obtain ⟨due, hdue, h⟩ := Option.bind_eq_some_iff.1 h
    injection h with h
    have hsource := follow_source { g with source := some { s with due } } (load files s) index
    rw [h] at hsource
    exact .inr ⟨s, due, hs, hdue, hsource, h⟩

theorem reload?_id (hr : g.reload? files now index = some (g', index')) : g'.id = g.id := by
  rcases reload?_some hr with ⟨-, rfl, -⟩ | ⟨s, due, -, -, -, hfollow⟩
  · rfl
  · have hid := foldl_add_id ((load files s).entries.map (·.2))
      ({ g with source := some { s with due } }.drop (load files s) index)
    rw [follow] at hfollow
    rw [hfollow] at hid
    exact hid

theorem follows_of_reload? {s : AnchorSource} (h : g.reload? files now index = some (g', index'))
    (hs : g.source = some s) : g'.Follows (load files s) := by
  rcases reload?_some h with ⟨hnone, -, -⟩ | ⟨s', due, hs', -, -, hfollow⟩
  · cases hnone.symm.trans hs
  · obtain rfl := Option.some.inj (hs'.symm.trans hs)
    have hloaded := follows_follow { g with source := some { s' with due } } index
      (keyed_load files s')
    rwa [hfollow] at hloaded

/-- Reading a source a second time at the same moment changes nothing. -/
theorem reload?_reload? (h : g.reload? files now index = some (g', index')) (other : AnchorIndex) :
    g'.reload? files now other = some (g', other) := by
  rcases reload?_some h with ⟨hs, rfl, -⟩ | ⟨s, due, hsource, hdue, hs, -⟩
  · unfold reload?
    rw [hs]
  · have hfollows : g'.Follows (load files s) := follows_of_reload? h hsource
    have hsame : ({ g' with source := some { s with due } } : AnchorGroup) = g' := by rw [← hs]
    unfold reload?
    rw [hs]
    change (now.add? (.ofDuration s.period)).bind _ = _
    rw [hdue, Option.bind_some]
    change some (({ g' with source := some { s with due } } : AnchorGroup).follow _ _) = _
    rw [hsame]
    exact congrArg some (hfollows.follow other)

def renew? (files : Files) (now : Instant) (g : AnchorGroup) (index : AnchorIndex) :
    Option (AnchorGroup × AnchorIndex) :=
  if g.isDue now then g.reload? files now index else some (g, index)

theorem renew?_renew? (h : g.renew? files now index = some (g', index')) (other : AnchorIndex) :
    g'.renew? files now other = some (g', other) := by
  unfold renew? at h ⊢
  split at h
  · split
    · exact reload?_reload? h other
    · rfl
  · rename_i hdue
    cases h
    rw [if_neg hdue]

theorem renew?_id (h : g.renew? files now index = some (g', index')) : g'.id = g.id := by
  unfold renew? at h
  split at h
  · exact reload?_id h
  · cases h
    rfl

theorem renew?_renewableAt (h : g.renew? files now index = some (g', index'))
    (hg : g.RenewableAt t) : g'.RenewableAt t := by
  unfold renew? at h
  split at h
  · rcases reload?_some h with ⟨-, rfl, -⟩ | ⟨s, due, hs, -, hs', -⟩
    · exact hg
    · intro s' hs''
      obtain rfl := Option.some.inj (hs'.symm.trans hs'')
      exact hg s hs
  · cases h
    exact hg

theorem reload?_isSome_iff (files : Files) (index : AnchorIndex) :
    (g.reload? files now index).isSome ↔ g.RenewableAt now := by
  unfold reload? RenewableAt
  cases g.source with
  | none => simp
  | some s => cases h : now.add? (.ofDuration s.period) <;> simp [h]

/-- Only a source that is due and cannot be read is not renewed. -/
theorem renew?_none (h : g.renew? files now index = none) : g.isDue now ∧ ¬ g.RenewableAt now := by
  unfold renew? at h
  split at h
  · rename_i hdue
    refine ⟨hdue, fun hg => ?_⟩
    have hsome := (reload?_isSome_iff files index).2 hg
    rw [h] at hsome
    cases hsome
  · cases h

end AnchorGroup

namespace Anchors

variable {disk : Disk} {now t : Instant} {a a' : Anchors} {groups : List AnchorGroup}
  {index : AnchorIndex} {c d : Certificate}

def Holds (a : Anchors) (c : Certificate) : Prop := ∃ e ∈ a.index.entries, e.2.certificate = c

def Grouped (a : Anchors) : Prop := a.groups = [] → a.size = 0

def RenewableAt (a : Anchors) (t : Instant) : Prop := ∀ g ∈ a.groups, g.RenewableAt t

def answer (a : Anchors) (i : Interest) : Option Certificate :=
  (a.index.findUnderWith i.name fun a => i.matchesData a.certificate.data).map (·.certificate)

theorem not_holds_of_size (h : a.size = 0) : ¬ a.Holds c := by
  rw [size, NameMap.size, List.length_eq_zero_iff] at h
  rintro ⟨e, he, -⟩
  rw [h] at he
  cases he

theorem answer_under {i : Interest} (h : a.answer i = some c) :
    ∃ e ∈ a.index.entries, e.1.startsWith i.name ∧ e.2.certificate = c ∧ i.matchesData c.data :=
  NameMap.map_findUnderWith_some (f := Anchor.certificate) (q := fun c => i.matchesData c.data) h

theorem answer_some {i : Interest} (h : a.answer i = some c) :
    a.Holds c ∧ i.matchesData c.data := by
  obtain ⟨e, he, -, rfl, hm⟩ := answer_under h
  exact ⟨⟨e, he, rfl⟩, hm⟩

theorem exists_answer {i : Interest} {e : Name × Anchor} (he : e ∈ a.index.entries)
    (hn : e.1.startsWith i.name) (hm : i.matchesData e.2.certificate.data) :
    ∃ c, a.answer i = some c :=
  NameMap.exists_map_findUnderWith (f := Anchor.certificate) (q := fun c => i.matchesData c.data)
    he hn hm

theorem refreshGroups_cons (g : AnchorGroup) (rest : List AnchorGroup) (index : AnchorIndex) :
    refreshGroups disk now (g :: rest) index =
      match g.renew? (disk g.id) now index with
      | none => (some .dateRange, g :: rest, index)
      | some (g, index) =>
        let (fault, rest, index) := refreshGroups disk now rest index
        (fault, g :: rest, index) := by
  rw [refreshGroups, AnchorGroup.renew?]
  split <;> rfl

theorem refreshGroups_length :
    (refreshGroups disk now groups index).2.1.length = groups.length := by
  induction groups generalizing index with
  | nil => rfl
  | cons g rest ih =>
    rw [refreshGroups_cons]
    split
    · rfl
    · exact congrArg (· + 1) ih

/-- A fault is met only at a group that is due and cannot be read. -/
theorem refreshGroups_fault (disk : Disk) (now : Instant) (groups : List AnchorGroup)
    (index : AnchorIndex) : (refreshGroups disk now groups index).1 = none ∨
      (refreshGroups disk now groups index).1 = some .dateRange ∧
        ∃ g ∈ groups, g.isDue now ∧ ¬ g.RenewableAt now := by
  induction groups generalizing index with
  | nil => exact .inl rfl
  | cons g rest ih =>
    rw [refreshGroups_cons]
    split
    · rename_i hg
      exact .inr ⟨rfl, g, List.mem_cons_self, AnchorGroup.renew?_none hg⟩
    · rename_i g' index' hg
      refine (ih index').imp_right ?_
      rintro ⟨hfault, x, hx, hstops⟩
      exact ⟨hfault, x, List.mem_cons_of_mem g hx, hstops⟩

theorem refreshGroups_renewableAt (h : ∀ g ∈ groups, g.RenewableAt t) :
    ∀ g ∈ (refreshGroups disk now groups index).2.1, g.RenewableAt t := by
  induction groups generalizing index with
  | nil => exact h
  | cons g rest ih =>
    rw [refreshGroups_cons]
    split
    · exact h
    · rename_i g' index' hg
      obtain ⟨h₁, h₂⟩ := List.forall_mem_cons.1 h
      exact List.forall_mem_cons.2 ⟨AnchorGroup.renew?_renewableAt hg h₁, ih h₂⟩

/-- Groups that were read again are not read again at the same moment. -/
theorem refreshGroups_refreshGroups (disk : Disk) (now : Instant) (groups : List AnchorGroup)
    (index : AnchorIndex) (h : (refreshGroups disk now groups index).1 = none)
    (other : AnchorIndex) :
    refreshGroups disk now (refreshGroups disk now groups index).2.1 other =
      (none, (refreshGroups disk now groups index).2.1, other) := by
  induction groups generalizing index other with
  | nil => rfl
  | cons g rest ih =>
    rw [refreshGroups_cons] at h ⊢
    cases hg : g.renew? (disk g.id) now index with
    | none =>
      rw [hg] at h
      cases h
    | some renewed =>
      rw [hg] at h
      dsimp only at h ⊢
      rw [refreshGroups_cons, AnchorGroup.renew?_id hg, AnchorGroup.renew?_renew? hg]
      dsimp only
      rw [ih _ h]

/-- Reading the sources again comes to its end or meets a source that is due and cannot be read.
What was read stays for the moment. -/
theorem refresh_cases (disk : Disk) (now : Instant) (a : Anchors) :
    (∃ a', refresh disk now a = .ok () a' ∧ refresh disk now a' = .ok () a') ∨
      (∃ a', refresh disk now a = .error .dateRange a') ∧
        ∃ g ∈ a.groups, g.isDue now ∧ ¬ g.RenewableAt now := by
  have hagain := refreshGroups_refreshGroups disk now a.groups a.index
  unfold refresh
  rcases refreshGroups_fault disk now a.groups a.index with hf | ⟨hf, hstops⟩
  all_goals
    generalize refreshGroups disk now a.groups a.index = r at *
    obtain ⟨fault, groups, index⟩ := r
    obtain rfl : fault = _ := hf
  · exact .inl ⟨_, rfl, by simp only [hagain rfl index]⟩
  · exact .inr ⟨⟨_, rfl⟩, hstops⟩

theorem not_renewableAt (h : ∃ g ∈ a.groups, g.isDue now ∧ ¬ g.RenewableAt now) :
    ¬ a.RenewableAt now := by
  obtain ⟨g, hg, -, hnot⟩ := h
  exact fun hall => hnot (hall g hg)

theorem refresh_again (h : refresh disk now a = .ok () a') :
    refresh disk now a' = .ok () a' := by
  rcases refresh_cases disk now a with ⟨b, hb, hagain⟩ | ⟨⟨b, hb⟩, -⟩
  · cases h.symm.trans hb
    exact hagain
  · cases h.symm.trans hb

theorem left_refresh (disk : Disk) (now : Instant) (a : Anchors) :
    (refresh disk now).left a =
      ⟨(refreshGroups disk now a.groups a.index).2.1,
        (refreshGroups disk now a.groups a.index).2.2⟩ := by
  unfold Act.left refresh
  rcases refreshGroups disk now a.groups a.index with ⟨_ | fault, groups, index⟩ <;> rfl

theorem left_refresh_renewableAt (h : a.RenewableAt t) :
    ((refresh disk now).left a).RenewableAt t := by
  rw [left_refresh]
  exact refreshGroups_renewableAt h

theorem left_refresh_of_nil (h : a.groups = []) : (refresh disk now).left a = a := by
  obtain ⟨groups, index⟩ := a
  obtain rfl : groups = [] := h
  rfl

theorem left_refresh_groups : ((refresh disk now).left a).groups = [] ↔ a.groups = [] := by
  rw [left_refresh, ← List.length_eq_zero_iff, refreshGroups_length, List.length_eq_zero_iff]

theorem left_refresh_grouped (h : a.Grouped) : ((refresh disk now).left a).Grouped := by
  intro hnil
  have hnil := left_refresh_groups.1 hnil
  rw [left_refresh_of_nil hnil]
  exact h hnil

theorem left_find (n : Name) : (find disk now n).left a = (refresh disk now).left a :=
  Act.left_bind fun _ _ => rfl

theorem left_findInterest (i : Interest) :
    (findInterest disk now i).left a = (refresh disk now).left a :=
  Act.left_bind fun _ _ => rfl

theorem setGroup_ne_nil (a : Anchors) (g : AnchorGroup) : a.setGroup g ≠ [] := by
  unfold setGroup
  split
  · rename_i h
    intro hm
    rw [List.map_eq_nil_iff.1 hm] at h
    cases h
  · simp

theorem insert_groups {id : String} (h : a.insert id c = .ok a') : a'.groups ≠ [] := by
  unfold insert at h
  dsimp only at h
  split at h
  · cases h
  · injection h with h
    rw [← h]
    exact setGroup_ne_nil _ _

theorem left_insertPath (a : Anchors) (id : String) (path : Path) (period : Duration)
    (directory : Bool) :
    (insertPath disk now id path period directory).left a = a ∨
      ((insertPath disk now id path period directory).left a).groups ≠ [] := by
  unfold insertPath
  rw [Act.left, Act.get_bind]
  by_cases hid : (a.group? id).isSome
  · rw [if_pos hid]
    exact .inl rfl
  rw [if_neg hid]
  by_cases hperiod : period.nanoseconds > maxPeriod.nanoseconds
  · rw [if_pos hperiod]
    exact .inl rfl
  rw [if_neg hperiod]
  cases AnchorGroup.reload? (disk id) now
    { id, source := some { path, directory, period, due := now } } a.index with
  | none => exact .inl rfl
  | some loaded =>
    exact .inr (List.append_ne_nil_of_right_ne_nil a.groups (List.cons_ne_nil loaded.1 []))

theorem find_of_refresh (n : Name) (h : refresh disk now a = .ok () a') :
    find disk now n a = .ok ((a'.index.findUnder n).map (·.certificate)) a' :=
  Act.bind_of_ok h

theorem findInterest_of_refresh (i : Interest) (h : refresh disk now a = .ok () a') :
    findInterest disk now i a = .ok (a'.answer i) a' :=
  Act.bind_of_ok h

end Anchors

namespace AnchorOperation

variable {disk : Disk} {now : Instant}

def Loads : AnchorOperation → Prop
  | insert .. | insertPath .. => True
  | _ => False

theorem left_run (op : AnchorOperation) (disk : Disk) (now : Instant) (a : Anchors) :
    op.Loads ∧ ((op.run disk now).left a).groups ≠ [] ∨ (op.run disk now).left a = a ∨
      (op.run disk now).left a = {} ∨
      (op.run disk now).left a = (Anchors.refresh disk now).left a := by
  cases op with
  | insert group certificate =>
    rw [run, Act.left, Act.get_bind]
    cases h : a.insert group certificate with
    | error e => exact .inr (.inl rfl)
    | ok a' => exact .inl ⟨trivial, Anchors.insert_groups h⟩
  | insertPath group path period directory =>
    have hleft : ((insertPath group path period directory).run disk now).left a =
      (Anchors.insertPath disk now group path period directory).left a :=
        Act.left_bind fun _ _ => rfl
    rw [hleft]
    rcases Anchors.left_insertPath a group path period directory with h | h
    · exact .inr (.inl h)
    · exact .inl ⟨trivial, h⟩
  | clear => exact .inr (.inr (.inl rfl))
  | refresh => exact .inr (.inr (.inr (Act.left_bind fun _ _ => rfl)))
  | find n =>
    exact .inr (.inr (.inr ((Act.left_bind fun _ _ => rfl).trans (Anchors.left_find n))))
  | findInterest i =>
    exact .inr (.inr (.inr ((Act.left_bind fun _ _ => rfl).trans (Anchors.left_findInterest i))))

theorem left_run_grouped {a : Anchors} (op : AnchorOperation) (h : a.Grouped) :
    ((op.run disk now).left a).Grouped := by
  rcases op.left_run disk now a with ⟨-, hne⟩ | heq | heq | heq
  · exact fun hnil => absurd hnil hne
  · rwa [heq]
  · rw [heq]
    exact fun _ => rfl
  · rw [heq]
    exact Anchors.left_refresh_grouped h

end AnchorOperation

namespace Storage

/-- Nothing is trusted: there are no groups of anchors, no anchors and no verified certificates. -/
structure Trustless (s : Storage) : Prop where
  groups : s.anchors.groups = []
  anchors : s.anchors.size = 0
  verified : s.verified.size = 0

end Storage

namespace StorageOperation

variable {disk : Disk} {now : Instant} {s : Storage}

def Loads : StorageOperation → Prop
  | anchors op => op.Loads
  | verified (.insert _) => True
  | _ => False

theorem left_run_grouped (op : StorageOperation) (h : s.anchors.Grouped) :
    ((op.run disk now).left s).anchors.Grouped := by
  cases op with
  | anchors op =>
    rw [run, Storage.onAnchors, Act.left_within]
    exact op.left_run_grouped h
  | verified op => exact h
  | unverified op => exact h

theorem holds_of_left_run {op : StorageOperation} {c : Certificate}
    (h : ((op.run disk now).left s).verified.Holds c) :
    op = .verified (.insert c) ∨ s.verified.Holds c := by
  cases op with
  | anchors op =>
    rw [run, Storage.onAnchors, Act.left_within] at h
    exact .inr h
  | verified op => exact (Cache.holds_of_run h).imp_left (congrArg _)
  | unverified op => exact .inr h

theorem left_run_trustless (op : StorageOperation) (hop : ¬ op.Loads) (h : s.Trustless) :
    ((op.run disk now).left s).Trustless := by
  cases op with
  | anchors op =>
    rw [run, Storage.onAnchors, Act.left_within]
    rcases op.left_run disk now s.anchors with ⟨hl, -⟩ | heq | heq | heq
    · exact absurd hl hop
    · rw [heq]
      exact h
    · rw [heq]
      exact ⟨rfl, rfl, h.verified⟩
    · rw [heq, Anchors.left_refresh_of_nil h.groups]
      exact h
  | verified op =>
    refine ⟨h.groups, h.anchors, Cache.size_eq_zero_iff.2 fun c hc => ?_⟩
    rcases Cache.holds_of_run hc with rfl | hc
    · exact hop trivial
    · exact Cache.size_eq_zero_iff.1 h.verified c hc
  | unverified op => exact ⟨h.groups, h.anchors, h.verified⟩

end StorageOperation

end PacketTrust
