import Mathlib.Data.List.Induction
import Mathlib.Data.List.Nodup
import PacketTrust.Proofs.Storage.Holders
import PacketTrust.Proofs.Time.Clock

/-! Histories of trust anchors: operations one after the other, where each source finds other files
at each reading, and the groups are visited in any order. Readings are noted, so that what a group
holds can be told by its last one. -/

namespace PacketTrust

structure Reading where
  group : String
  files : Files
  moment : Instant

def AnchorSource.shown (s : AnchorSource) (files : Files) : List Certificate :=
  (if s.directory then (files.inDirectory s.path).map (·.2)
    else (files.content? s.path).toList).filterMap AnchorGroup.certificate?

namespace AnchorGroup

variable {files : Files} {now : Instant} {g g' : AnchorGroup} {index index' : AnchorIndex}
  {s : AnchorSource} {log : List Reading} {r : Reading} {n : Name} {c : Certificate}

theorem get?_load : (load files s).get? n = some c ↔ Last (·.name) (s.shown files) n c := by
  unfold load AnchorSource.shown
  rw [NameMap.get?_ofList]
  generalize List.filterMap certificate? _ = shown
  induction shown using List.reverseRecOn with
  | nil => simp [Last]
  | append_singleton shown d ih =>
    rw [List.map_append, List.map_singleton, last_concat, last_concat, ih]
    simp only [Prod.mk.injEq, ne_eq]
    grind

theorem contains_load : (load files s).contains n ↔ ∃ c ∈ s.shown files, c.name = n := by
  rw [NameMap.contains_eq_isSome, Option.isSome_iff_exists, ← exists_last_iff]
  simp only [get?_load]

/-- The group holds just the names of what its source showed at its last reading, and is due a
period later. -/
def Current (g : AnchorGroup) (log : List Reading) : Prop :=
  ∀ s, g.source = some s → ∃ r, Last Reading.group log g.id r ∧
    r.moment.add? (.ofDuration s.period) = some s.due ∧
    ∀ n, g.names.contains n ↔ ∃ c ∈ s.shown r.files, c.name = n

/-- The last reading of a dynamic group is a period ago or less. -/
def Recent (g : AnchorGroup) (log : List Reading) (now : Instant) : Prop :=
  ∀ s, g.source = some s → ∃ r limit, Last Reading.group log g.id r ∧ r.moment ≤ now ∧
    r.moment.add? (.ofDuration s.period) = some limit ∧ now ≤ limit

theorem current_of_static (h : g.source = none) : g.Current log := by
  intro s hs
  cases h.symm.trans hs

theorem Current.concat (h : g.Current log) (hr : r.group ≠ g.id) : g.Current (log ++ [r]) := by
  intro s hs
  obtain ⟨last, hlast, hrest⟩ := h s hs
  exact ⟨last, last_concat.2 (.inr ⟨hr, hlast⟩), hrest⟩

theorem current_reload (hr : g.reload? files now index = some (g', index')) :
    g'.Current (log ++ [⟨g.id, files, now⟩]) := by
  rcases reload?_some hr with ⟨hnone, rfl, -⟩ | ⟨s, due, hs, hdue, hs', -⟩
  · exact current_of_static hnone
  · intro s' hs''
    obtain rfl := Option.some.inj (hs'.symm.trans hs'')
    have hnames : ∀ n, g'.names.contains n ↔ ∃ c ∈ s.shown files, c.name = n := by
      intro n
      rw [(follows_of_reload? hr hs).contains_iff (keyed_load files s), contains_load]
    have hlast := (reload?_id hr).symm
    exact ⟨⟨g.id, files, now⟩, last_concat.2 (.inl ⟨rfl, hlast⟩), hdue, hnames⟩

end AnchorGroup

namespace Anchors

variable {files : Files} {disk : Disk} {now t : Instant} {a a' : Anchors}
  {before after groups : List AnchorGroup}
  {g g' : AnchorGroup} {index index' : AnchorIndex} {log : List Reading} {id : String}
  {c : Certificate}
  {path : Path} {period : Duration} {directory : Bool}

/-- The readings of a refresh: the sources that are due, up to the first that cannot be read. -/
def readings (disk : Disk) (now : Instant) (groups : List AnchorGroup) : List Reading :=
  ((groups.filter (·.isDue now)).takeWhile (·.RenewableAt now)).map fun g => ⟨g.id, disk g.id, now⟩

theorem readings_cons (g : AnchorGroup) (rest : List AnchorGroup) :
    readings disk now (g :: rest) =
      if g.isDue now then
        if g.RenewableAt now then ⟨g.id, disk g.id, now⟩ :: readings disk now rest else []
      else readings disk now rest := by
  unfold readings
  by_cases hdue : g.isDue now
  · by_cases hg : g.RenewableAt now <;> simp [hdue, hg]
  · simp [hdue]

def refreshed (disk : Disk) (now : Instant) (groups : List AnchorGroup) (index : AnchorIndex) :
    Anchors :=
  ⟨(refreshGroups disk now groups index).2.1, (refreshGroups disk now groups index).2.2⟩

theorem refresh_eq (disk : Disk) (now : Instant) (a : Anchors) :
    (refreshGroups disk now a.groups a.index).1 = none ∧
        refresh disk now a = .ok () (refreshed disk now a.groups a.index) ∨
      ∃ fault, (refreshGroups disk now a.groups a.index).1 = some fault ∧
        refresh disk now a = .error fault (refreshed disk now a.groups a.index) := by
  unfold refresh refreshed
  rcases refreshGroups disk now a.groups a.index with ⟨_ | fault, groups, index⟩
  · exact .inl ⟨rfl, rfl⟩
  · exact .inr ⟨fault, rfl, rfl⟩

/-- What a group and a refresh of the groups behind it come to. -/
theorem refreshGroups_cons_cases (disk : Disk) (now : Instant) (g : AnchorGroup)
    (rest : List AnchorGroup) (index : AnchorIndex) :
    refreshGroups disk now (g :: rest) index = (some .dateRange, g :: rest, index) ∧
        readings disk now (g :: rest) = [] ∨
      (∃ g' index', g.isDue now ∧ g.reload? (disk g.id) now index = some (g', index') ∧
        refreshed disk now (g :: rest) index =
          ⟨g' :: (refreshed disk now rest index').groups, (refreshed disk now rest index').index⟩ ∧
        (refreshGroups disk now (g :: rest) index).1 = (refreshGroups disk now rest index').1 ∧
        readings disk now (g :: rest) = ⟨g.id, disk g.id, now⟩ :: readings disk now rest) ∨
      ¬ g.isDue now ∧
        refreshed disk now (g :: rest) index =
          ⟨g :: (refreshed disk now rest index).groups, (refreshed disk now rest index).index⟩ ∧
        (refreshGroups disk now (g :: rest) index).1 = (refreshGroups disk now rest index).1 ∧
        readings disk now (g :: rest) = readings disk now rest := by
  rw [readings_cons]
  unfold refreshed
  rw [refreshGroups]
  by_cases hdue : g.isDue now
  · have hiff : (g.reload? (disk g.id) now index).isSome ↔ g.RenewableAt now :=
      AnchorGroup.reload?_isSome_iff (disk g.id) index
    cases hr : g.reload? (disk g.id) now index with
    | none => exact .inl (by simp [hdue, ← hiff, hr])
    | some renewed =>
      exact .inr (.inl ⟨renewed.1, renewed.2, hdue,
        rfl, by simp [hdue], by simp [hdue], by simp [hdue, ← hiff, hr]⟩)
  · exact .inr (.inr ⟨hdue, by simp [hdue], by simp [hdue], by simp [hdue]⟩)

/-- No group that a whole refresh leaves was due before. -/
theorem le_due_of_refreshed (h : (refreshGroups disk now groups index).1 = none) :
    ∀ g ∈ (refreshed disk now groups index).groups, ∀ s, g.source = some s → now ≤ s.due := by
  induction groups generalizing index with
  | nil => simp [refreshed, refreshGroups]
  | cons g rest ih =>
    rcases refreshGroups_cons_cases disk now g rest index with
      ⟨hfault, -⟩ | ⟨g', index', -, hr, hleft, hrest, -⟩ | ⟨hdue, hleft, hrest, -⟩
    · rw [hfault] at h
      cases h
    · rw [hleft]
      refine List.forall_mem_cons.2 ⟨fun s hs => ?_, ih (hrest.symm.trans h)⟩
      rcases AnchorGroup.reload?_some hr with ⟨hnone, hsame, -⟩ | ⟨s', due, -, hadd, hs', -⟩
      · rw [hsame, hnone] at hs
        cases hs
      · obtain rfl := Option.some.inj (hs'.symm.trans hs)
        -- A period of nothing is allowed: then the group is due at this very moment, but not before
        -- it.
        exact Instant.le_of_add? hadd (Int.natCast_nonneg _)
    · rw [hleft]
      refine List.forall_mem_cons.2 ⟨fun s hs => ?_, ih (hrest.symm.trans h)⟩
      have hlate : ¬ s.due ≤ now := by simpa [AnchorGroup.isDue, hs] using hdue
      exact Instant.le_of_not_le hlate

theorem Counted.id_ne (h : Counted ⟨before ++ g :: after, index⟩) :
    ∀ g' ∈ before ++ after, g'.id ≠ g.id := by
  have hunique := h.unique
  rw [List.map_append, List.map_cons, List.nodup_middle, ← List.map_append] at hunique
  intro g' hg' heq
  exact (List.nodup_cons.1 hunique).1 (heq ▸ List.mem_map_of_mem hg')

theorem setGroup_of_mem (h : Counted ⟨before ++ g :: after, index⟩) (hid : g'.id = g.id) :
    setGroup ⟨before ++ g :: after, index⟩ g' = before ++ g' :: after := by
  have hsame : ∀ l : List AnchorGroup, (∀ x ∈ l, x.id ≠ g.id) →
      (l.map fun x => if x.id = g'.id then g' else x) = l := by
    intro l hl
    refine (List.map_congr_left fun x hx => ?_).trans l.map_id
    rw [hid, if_neg (hl x hx)]
    rfl
  have hother := h.id_ne
  have hbefore := hsame before fun x hx => hother x (List.mem_append_left _ hx)
  have hafter := hsame after fun x hx => hother x (List.mem_append_right _ hx)
  simp [setGroup, hid.symm, hbefore, hafter]

theorem setGroup_of_new (h : ∀ g' ∈ a.groups, g'.id ≠ g.id) : a.setGroup g = a.groups ++ [g] := by
  unfold setGroup
  rw [if_neg]
  simpa using h

theorem id_ne_of_group? (h : a.group? id = none) : ∀ g ∈ a.groups, g.id ≠ id := by
  intro g hg
  simpa using List.find?_eq_none.1 h g hg

theorem Counted.insert (h : a.Counted) (hi : a.insert id c = .ok a') :
    a'.Counted ∧ ∀ g ∈ a'.groups, g ∈ a.groups ∨ g.source = none := by
  unfold Anchors.insert at hi
  cases hfind : a.group? id with
  | none =>
    have hnew := id_ne_of_group? hfind
    simp only [hfind, Option.getD_none, Option.isSome_none, Bool.false_eq_true, if_false] at hi
    cases hi
    have hid := AnchorGroup.add_id { id, source := none } a.index c
    have hsource := AnchorGroup.add_source { id, source := none } a.index c
    rw [setGroup_of_new fun g hg => by rw [hid]; exact hnew g hg]
    constructor
    · exact h.append (fun g hg => by rw [hid]; exact hnew g hg) ((h.fresh id none).add c)
    · intro g hg
      rcases List.mem_append.1 hg with hg | hg
      · exact .inl hg
      · rw [List.mem_singleton.1 hg]
        exact .inr hsource
  | some g =>
    obtain ⟨-, before, after, hsplit, -⟩ := List.find?_eq_some_iff_append.1 hfind
    obtain ⟨groups, index⟩ := a
    obtain rfl : groups = before ++ g :: after := hsplit
    simp only [hfind, Option.getD_some] at hi
    split at hi
    · cases hi
    · rename_i hstatic
      cases hi
      have hid := AnchorGroup.add_id g index c
      have hsource := AnchorGroup.add_source g index c
      rw [setGroup_of_mem h hid]
      constructor
      · exact h.replace hid (h.group.add c)
      · intro g' hg'
        rcases List.mem_append.1 hg' with hg' | hg'
        · exact .inl (List.mem_append_left _ hg')
        · rcases List.mem_cons.1 hg' with rfl | hg'
          · rw [Bool.not_eq_true, Option.isSome_eq_false_iff, Option.isNone_iff_eq_none] at hstatic
            exact .inr (hsource.trans hstatic)
          · exact .inl (List.mem_append_right _ (List.mem_cons_of_mem g hg'))

/-- Making a dynamic group is refused, meets a fault, or reads the source of a new group. -/
theorem insertPath_cases (disk : Disk) (now : Instant) (a : Anchors) (id : String) (path : Path)
    (period : Duration) (directory : Bool) :
    (∃ e, insertPath disk now id path period directory a = .ok (.error e) a) ∨
    insertPath disk now id path period directory a = .error .dateRange a ∨
    ∃ g index, (∀ g' ∈ a.groups, g'.id ≠ id) ∧
      AnchorGroup.reload? (disk id) now
        { id, source := some { path, directory, period, due := now } } a.index =
          some (g, index) ∧
      insertPath disk now id path period directory a = .ok (.ok ()) ⟨a.groups ++ [g], index⟩ := by
  unfold insertPath
  rw [Act.get_bind]
  cases hid : a.group? id with
  | some g => exact .inl ⟨.groupExists id, rfl⟩
  | none =>
    by_cases hperiod : period.nanoseconds > maxPeriod.nanoseconds
    · exact .inl ⟨.refreshPeriod id, by simp [hperiod]; rfl⟩
    · simp only [Option.isSome_none, Bool.false_eq_true, if_false, if_neg hperiod]
      cases hr : AnchorGroup.reload? (disk id) now
        { id, source := some { path, directory, period, due := now } } a.index with
      | none => exact .inr (.inl rfl)
      | some loaded => exact .inr (.inr ⟨loaded.1, loaded.2, id_ne_of_group? hid, rfl, rfl⟩)

/-- Groups are counted, dynamic ones are as at their last reading, and no reading lies ahead. -/
structure Accounted (log : List Reading) (now : Instant) (a : Anchors) : Prop where
  counted : a.Counted
  current : ∀ g ∈ a.groups, g.Current log
  past : ∀ r ∈ log, r.moment ≤ now

theorem Accounted.later (h : Accounted log t a) (ht : t ≤ now) : Accounted log now a :=
  ⟨h.counted, h.current, fun r hr => Instant.le_trans (h.past r hr) ht⟩

theorem Accounted.past_concat (h : Accounted log now a) (id : String) (files : Files) :
    ∀ r ∈ log ++ [⟨id, files, now⟩], r.moment ≤ now := by
  intro r hr
  rcases List.mem_append.1 hr with hr | hr
  · exact h.past r hr
  · rw [List.mem_singleton.1 hr]
    exact Instant.le_refl now

theorem Accounted.reload (h : Accounted log now ⟨before ++ g :: after, index⟩)
    (hr : g.reload? files now index = some (g', index')) :
    Accounted (log ++ [⟨g.id, files, now⟩]) now ⟨before ++ g' :: after, index'⟩ := by
  constructor
  case counted => exact h.counted.reload hr
  case current =>
    have hothers : ∀ x ∈ before ++ after, x.Current (log ++ [⟨g.id, files, now⟩]) := by
      intro x hx
      have hold : x.Current log := h.current x (by simp at hx ⊢; tauto)
      exact hold.concat (h.counted.id_ne x hx).symm
    intro x hx
    rcases List.mem_append.1 hx with hx | hx
    · exact hothers x (List.mem_append_left _ hx)
    · rcases List.mem_cons.1 hx with rfl | hx
      · exact AnchorGroup.current_reload hr
      · exact hothers x (List.mem_append_right _ hx)
  case past => exact h.past_concat g.id files

/-- A refresh of the groups behind some others, by induction on them. -/
theorem Accounted.refreshed (disk : Disk) (h : Accounted log now ⟨before ++ groups, index⟩) :
    Accounted (log ++ readings disk now groups) now
      ⟨before ++ (Anchors.refreshed disk now groups index).groups,
        (Anchors.refreshed disk now groups index).index⟩ := by
  induction groups generalizing before log index with
  | nil => simpa [Anchors.refreshed, refreshGroups, readings] using h
  | cons g rest ih =>
    rcases refreshGroups_cons_cases disk now g rest index with
      ⟨hfault, hread⟩ | ⟨g', index', -, hr, hleft, -, hread⟩ | ⟨-, hleft, -, hread⟩
    · rw [hread, List.append_nil, Anchors.refreshed, hfault]
      exact h
    · -- The group that was read joins those before, so the next one is again read among all others.
      have hjoined := h.reload hr
      rw [List.append_cons before] at hjoined
      rw [hleft, hread]
      simpa using ih hjoined
    · rw [List.append_cons before] at h
      rw [hleft, hread]
      simpa using ih h

theorem Accounted.insert (h : Accounted log now a) (hi : a.insert id c = .ok a') :
    Accounted log now a' := by
  obtain ⟨hcounted, hgroups⟩ := h.counted.insert hi
  refine ⟨hcounted, fun g hg => ?_, h.past⟩
  rcases hgroups g hg with hg | hstatic
  · exact h.current g hg
  · exact AnchorGroup.current_of_static hstatic

theorem Accounted.append (h : Accounted log now a) (hid : ∀ g' ∈ a.groups, g'.id ≠ id)
    {source : Option AnchorSource}
    (hr : AnchorGroup.reload? files now { id, source } a.index = some (g, index)) :
    Accounted (log ++ [⟨id, files, now⟩]) now ⟨a.groups ++ [g], index⟩ := by
  constructor
  case counted => exact h.counted.append_reload hid hr
  case current =>
    intro x hx
    rcases List.mem_append.1 hx with hx | hx
    · exact (h.current x hx).concat (hid x hx).symm
    · rw [List.mem_singleton.1 hx]
      exact AnchorGroup.current_reload hr
  case past => exact h.past_concat id files

theorem accounted_empty (log : List Reading) (now : Instant) (h : ∀ r ∈ log, r.moment ≤ now) :
    Accounted log now {} := ⟨counted_empty, by simp, h⟩

/-- The index holds just the names that groups hold, with their number. -/
theorem Counted.contains_iff (h : a.Counted) {n : Name} :
    a.index.contains n ↔ ∃ g ∈ a.groups, g.names.contains n := by
  rw [← h.sound.holders_pos_iff, h.holders n, List.countP_pos_iff]

theorem Counted.holders_eq (h : a.Counted) {n : Name} {e : Anchor} (he : a.index.get? n = some e) :
    e.holders = a.groups.countP (·.names.contains n) ∧ e.holders ≠ 0 := by
  have hn := h.holders n
  rw [AnchorIndex.holders, he] at hn
  exact ⟨hn, Nat.ne_of_gt (h.sound.held n e he)⟩

end Anchors

namespace AnchorOperation

variable {disk : Disk} {now t : Instant} {a a' : Anchors} {op : AnchorOperation}
  {log : List Reading}

def readings (disk : Disk) (now : Instant) (a : Anchors) : AnchorOperation → List Reading
  | insert _ _ | clear => []
  | insertPath group path period directory =>
    match (insertPath group path period directory).run disk now a with
    | .ok (.ok _) _ => [⟨group, disk group, now⟩]
    | _ => []
  | refresh | find _ | findInterest _ => Anchors.readings disk now a.groups

def LooksUp : AnchorOperation → Prop
  | insert _ _ | insertPath _ _ _ _ | clear => False
  | refresh | find _ | findInterest _ => True

/-- A search comes after a refresh, and leaves the anchors as that does. -/
theorem exists_search (disk : Disk) (now : Instant) (h : op.LooksUp) :
    ∃ search : Anchors → Option Certificate,
      op.run disk now = do
        Anchors.refresh disk now
        return .ok (search (← get)) := by
  cases op with
  | insert _ _ | insertPath _ _ _ _ | clear => exact h.elim
  | refresh => exact ⟨fun _ => none, rfl⟩
  | find name =>
    exact ⟨fun a => (a.index.findUnder name).map (·.certificate), by simp [run, Anchors.find]⟩
  | findInterest interest =>
    exact ⟨fun a => a.answer interest, by simp [run, Anchors.findInterest, Anchors.answer]⟩

theorem run_ok_iff (h : op.LooksUp) :
    (∃ found a', op.run disk now a = .ok (.ok found) a') ↔
      (Anchors.refreshGroups disk now a.groups a.index).1 = none := by
  obtain ⟨search, hsearch⟩ := exists_search disk now h
  rw [hsearch]
  rcases Anchors.refresh_eq disk now a with ⟨hfault, hr⟩ | ⟨fault, hfault, hr⟩
  · simp only [Act.bind_of_ok hr, hfault, iff_true]
    exact ⟨_, _, rfl⟩
  · simp only [Act.bind_of_error hr, hfault, reduceCtorEq, exists_false]

/-- What an operation may do: nothing, put a certificate in, make a group with its first reading,
empty the container, or read what is due. -/
inductive Effect (disk : Disk) (now : Instant) (a : Anchors) :
    AnchorOperation → Anchors → List Reading → Prop
  | refused {op : AnchorOperation} : Effect disk now a op a []
  | inserted {group : String} {c : Certificate} {a' : Anchors} (put : a.insert group c = .ok a') :
      Effect disk now a (.insert group c) a' []
  | made {group : String} {path : Path} {period : Duration} {directory : Bool} {g : AnchorGroup}
      {index : AnchorIndex} (new : ∀ g' ∈ a.groups, g'.id ≠ group)
      (read : AnchorGroup.reload? (disk group) now
        { id := group, source := some { path, directory, period, due := now } } a.index =
          some (g, index)) :
      Effect disk now a (.insertPath group path period directory) ⟨a.groups ++ [g], index⟩
        [⟨group, disk group, now⟩]
  | cleared : Effect disk now a .clear {} []
  | refreshed {op : AnchorOperation} (looks : op.LooksUp) :
      Effect disk now a op (Anchors.refreshed disk now a.groups a.index)
        (Anchors.readings disk now a.groups)

theorem run_insert (disk : Disk) (now : Instant) (a : Anchors) (group : String) (c : Certificate) :
    (insert group c).run disk now a =
      match a.insert group c with
      | .ok b => .ok (.ok none) b
      | .error e => .ok (.error e) a := by
  rw [run, Act.get_bind]
  cases a.insert group c <;> rfl

theorem run_insertPath (disk : Disk) (now : Instant) (a : Anchors) (group : String) (path : Path)
    (period : Duration) (directory : Bool) (hop : op = insertPath group path period directory) :
    (∃ e, op.run disk now a = .ok (.error e) a ∧ op.readings disk now a = []) ∨
    op.run disk now a = .error .dateRange a ∧ op.readings disk now a = [] ∨
    ∃ g index, (∀ g' ∈ a.groups, g'.id ≠ group) ∧
      AnchorGroup.reload? (disk group) now
        { id := group, source := some { path, directory, period, due := now } } a.index =
          some (g, index) ∧
      op.run disk now a = .ok (.ok none) ⟨a.groups ++ [g], index⟩ ∧
      op.readings disk now a = [⟨group, disk group, now⟩] := by
  subst hop
  rw [readings, run]
  rcases Anchors.insertPath_cases disk now a group path period directory with
    ⟨e, hp⟩ | hp | ⟨g, index, hid, hr, hp⟩
  · rw [Act.bind_of_ok hp]
    exact .inl ⟨e, rfl, rfl⟩
  · rw [Act.bind_of_error hp]
    exact .inr (.inl ⟨rfl, rfl⟩)
  · rw [Act.bind_of_ok hp]
    exact .inr (.inr ⟨g, index, hid, hr, rfl, rfl⟩)

theorem left_run_of_looksUp (disk : Disk) (now : Instant) (a : Anchors) (h : op.LooksUp) :
    (op.run disk now).left a = Anchors.refreshed disk now a.groups a.index := by
  obtain ⟨search, hsearch⟩ := exists_search disk now h
  rw [hsearch, Anchors.refreshed, ← Anchors.left_refresh]
  exact Act.left_bind fun _ _ => rfl

theorem effect_of_looksUp (h : op.LooksUp) :
    Effect disk now a op ((op.run disk now).left a) (op.readings disk now a) := by
  have hread : op.readings disk now a = Anchors.readings disk now a.groups := by
    cases op with
    | insert _ _ | insertPath _ _ _ _ | clear => exact h.elim
    | refresh | find _ | findInterest _ => rfl
  rw [left_run_of_looksUp disk now a h, hread]
  exact .refreshed h

/-- Each operation has one of these effects. -/
theorem effect_run (disk : Disk) (now : Instant) (a : Anchors) (op : AnchorOperation) :
    Effect disk now a op ((op.run disk now).left a) (op.readings disk now a) := by
  cases op with
  | insert group certificate =>
    rw [Act.left, run_insert]
    cases hi : a.insert group certificate with
    | error e => exact .refused
    | ok b => exact .inserted hi
  | insertPath group path period directory =>
    rcases run_insertPath disk now a group path period directory rfl with
      ⟨e, hp, hnone⟩ | ⟨hp, hnone⟩ | ⟨g, index, hid, hr, hp, hread⟩
    · rw [hnone, Act.left_of_ok hp]
      exact .refused
    · rw [hnone, Act.left_of_error hp]
      exact .refused
    · rw [hread, Act.left_of_ok hp]
      exact .made hid hr
  | clear => exact .cleared
  | refresh | find _ | findInterest _ => exact effect_of_looksUp trivial

theorem run_refused {e : AnchorError} (h : op.run disk now a = .ok (.error e) a') : a' = a := by
  by_cases hop : op.LooksUp
  · obtain ⟨search, hsearch⟩ := exists_search disk now hop
    rw [hsearch] at h
    obtain ⟨_, b, -, hfound⟩ := Act.bind_ok h
    cases hfound
  cases op with
  | insert group certificate =>
    rw [run_insert] at h
    cases hi : a.insert group certificate with
    | error e' =>
      rw [hi] at h
      cases h
      rfl
    | ok b =>
      rw [hi] at h
      cases h
  | insertPath group path period directory =>
    rcases run_insertPath disk now a group path period directory rfl with
      ⟨e', hp, -⟩ | ⟨hp, -⟩ | ⟨g, index, -, -, hp, -⟩
    · cases hp.symm.trans h
      rfl
    · cases hp.symm.trans h
    · cases hp.symm.trans h
  | clear => cases h
  | refresh | find _ | findInterest _ => exact absurd trivial hop

end AnchorOperation

namespace Anchors

variable {disk : Disk} {now t : Instant} {a a' : Anchors} {groups : List AnchorGroup}
  {log : List Reading}

theorem Accounted.effect {op : AnchorOperation} {read : List Reading} (h : Accounted log now a)
    (he : op.Effect disk now a a' read) : Accounted (log ++ read) now a' := by
  cases he with
  | refused =>
    rw [List.append_nil]
    exact h
  | inserted put =>
    rw [List.append_nil]
    exact h.insert put
  | made new read => exact h.append new read
  | cleared =>
    rw [List.append_nil]
    exact accounted_empty log now h.past
  | refreshed _ =>
    have hgroups : Accounted log now ⟨[] ++ a.groups, a.index⟩ := h
    exact hgroups.refreshed disk

/-- What a new container has become by operations at moments that never go back, where files may
change at any time and groups may come in any order; with the readings on the way and the last
moment. -/
inductive History : List Reading → Instant → Anchors → Prop
  | start (t : Instant) : History [] t {}
  | reorder {log : List Reading} {t : Instant} {a : Anchors} {groups : List AnchorGroup}
      (h : History log t a) (hgroups : groups.Perm a.groups) : History log t { a with groups }
  | operate {log : List Reading} {t now : Instant} {a : Anchors} (h : History log t a)
      (ht : t ≤ now) (disk : Disk) (op : AnchorOperation) :
      History (log ++ op.readings disk now a) now ((op.run disk now).left a)

theorem History.accounted (h : History log t a) : Accounted log t a := by
  induction h with
  | start t => exact accounted_empty [] t (by simp)
  | reorder _ hgroups ih =>
    exact ⟨ih.counted.perm hgroups, fun g hg => ih.current g (hgroups.mem_iff.1 hg), ih.past⟩
  | operate _ ht disk op ih => exact (ih.later ht).effect (op.effect_run disk _ _)

/-- No search looks at a group whose last reading is more than a period ago. -/
theorem Accounted.recent (h : Accounted log now a) {op : AnchorOperation}
    {found : Option Certificate} (hop : op.LooksUp) (hr : op.run disk now a = .ok (.ok found) a') :
    ∀ g ∈ a'.groups, g.Recent (log ++ op.readings disk now a) now := by
  have hwhole := (AnchorOperation.run_ok_iff hop).1 ⟨found, a', hr⟩
  have hafter := h.effect (op.effect_run disk now a)
  have hleft := AnchorOperation.left_run_of_looksUp disk now a hop
  rw [Act.left_of_ok hr] at hafter hleft
  intro g hg s hs
  obtain ⟨r, hlast, hadd, -⟩ := hafter.current g hg s hs
  have hle : now ≤ s.due := le_due_of_refreshed hwhole g (hleft ▸ hg) s hs
  exact ⟨r, s.due, hlast, hafter.past r hlast.mem, hadd, hle⟩

/-- Whatever was done with a new container: the index counts for each name the groups that hold it,
a dynamic group holds just the names that its last reading showed, and a search leaves no reading
that is more than a period ago. -/
theorem holds_names_last_read (h : History log t a) :
    (a.groups.map (·.id)).Nodup ∧
      (∀ n, a.index.contains n ↔ ∃ g ∈ a.groups, g.names.contains n) ∧
      (∀ n e, a.index.get? n = some e →
        e.holders = a.groups.countP (·.names.contains n) ∧ e.holders ≠ 0) ∧
      (∀ g ∈ a.groups, ∀ s, g.source = some s → ∃ r, Last Reading.group log g.id r ∧
        ∀ n, g.names.contains n ↔ ∃ c ∈ s.shown r.files, c.name = n) ∧
      ∀ now, t ≤ now → ∀ (disk : Disk) (op : AnchorOperation),
        (∀ e a', op.run disk now a = .ok (.error e) a' → a' = a) ∧
        (op.LooksUp →
          ((∃ found a', op.run disk now a = .ok (.ok found) a') ∨
            ∃ g ∈ a.groups, g.isDue now ∧ ¬ g.RenewableAt now) ∧
          ∀ found a', op.run disk now a = .ok (.ok found) a' →
            ∀ g ∈ a'.groups, g.Recent (log ++ op.readings disk now a) now) := by
  have hnow := h.accounted
  refine ⟨hnow.counted.unique, fun n => hnow.counted.contains_iff,
    fun n e => hnow.counted.holders_eq, fun g hg s hs => ?_, fun now ht disk op =>
      ⟨fun e a' => AnchorOperation.run_refused, fun hop => ⟨?_, ?_⟩⟩⟩
  · obtain ⟨r, hlast, -, hnames⟩ := hnow.current g hg s hs
    exact ⟨r, hlast, hnames⟩
  · rw [AnchorOperation.run_ok_iff hop]
    exact (refreshGroups_fault disk now a.groups a.index).imp_right And.right
  · intro found a' hr
    exact (hnow.later ht).recent hop hr

namespace Sample

def name : Name := ⟨[Certificate.keyMark, .generic [1], .generic [2], .generic [3]]⟩

def certificate (key : UInt8) : Certificate where
  data :=
    { name
      metaInfo := { contentType := Tlv.ContentType.key }
      content := [key]
      signature := ⟨.sha256WithEcdsa none (some ⟨.ofMillis 0, .ofMillis 100000⟩), [9]⟩ }
  validity := ⟨.ofMillis 0, .ofMillis 100000⟩

def files (key : UInt8) : Files :=
  { files := [(["anchor"], Utf8.encode (certificate key).toBase64.toList)] }

def shared : Anchors :=
  let own :=
    ((AnchorOperation.insert "own" (certificate 7)).run (fun _ => {}) (.ofMillis 0)).left {}
  ((AnchorOperation.insertPath "file" ["anchor"] (.ofSeconds 60) false).run (fun _ => files 7)
    (.ofMillis 0)).left own

theorem history_shared : ∃ log, History log (.ofMillis 0) shared := by
  have hstart : History [] (.ofMillis 0) {} := .start _
  have hown := hstart.operate (Instant.le_refl _) (fun _ => {}) (.insert "own" (certificate 7))
  exact ⟨_, hown.operate (Instant.le_refl _) (fun _ => files 7)
    (.insertPath "file" ["anchor"] (.ofSeconds 60) false)⟩

end Sample

/-- Both groups hold the same name, so two of them are counted. -/
theorem holds_names_last_read_shared :
    ∃ log e, History log (.ofMillis 0) Sample.shared ∧
      Sample.shared.index.get? Sample.name = some e ∧ e.holders = 2 ∧
      Sample.shared.groups.countP (·.names.contains Sample.name) = 2 := by
  obtain ⟨log, h⟩ := Sample.history_shared
  obtain ⟨-, -, hcount, -⟩ := holds_names_last_read h
  have hindex : (Sample.shared.index.get? Sample.name).map (·.holders) = some 2 := by
    decide +kernel
  obtain ⟨e, he, htwo⟩ := Option.map_eq_some_iff.1 hindex
  exact ⟨log, e, h, he, htwo, (hcount _ e he).1 ▸ htwo⟩

end Anchors

end PacketTrust
