import PacketTrust.Proofs.Storage.Searches

/-! Trust anchors that are read with one period. Main statement: while groups of one period only are
made, all of them have it, and at a moment where it leads to no moment outside the supported years
no operation meets a fault. -/

namespace PacketTrust

def AnchorOperation.KeepsTo (period : Duration) : AnchorOperation → Prop
  | insertPath _ _ other _ => other = period
  | insert _ _ | clear | refresh | find _ | findInterest _ => True

namespace Anchors

variable {disk : Disk} {now : Instant} {a a' : Anchors} {groups : List AnchorGroup}
  {index : AnchorIndex} {period : Duration} {op : AnchorOperation}

/-- What a new container has become by operations that make groups of one period only, at any
moments, where files may change at any time and groups may come in any order. -/
inductive Paced (period : Duration) : Anchors → Prop
  | start : Paced period {}
  | reorder {a : Anchors} {groups : List AnchorGroup} (h : Paced period a)
      (hgroups : groups.Perm a.groups) :
      Paced period { a with groups }
  | operate {a : Anchors} (h : Paced period a) (disk : Disk) (now : Instant) {op : AnchorOperation}
      (hop : op.KeepsTo period) : Paced period ((op.run disk now).left a)

def HavePeriod (groups : List AnchorGroup) (period : Duration) : Prop :=
  ∀ g ∈ groups, ∀ s, g.source = some s → s.period = period

theorem Paced.handled (h : Paced period a) : Handled a := by
  induction h with
  | start => exact .start
  | reorder _ hgroups ih => exact ih.reorder hgroups
  | operate _ disk now _ ih => exact ih.operate disk now _

theorem period_of_reload? {files : Files} {g g' : AnchorGroup} {index' : AnchorIndex}
    (hr : g.reload? files now index = some (g', index'))
    (hg : ∀ s, g.source = some s → s.period = period) :
    ∀ s, g'.source = some s → s.period = period := by
  rcases AnchorGroup.reload?_some hr with ⟨-, rfl, -⟩ | ⟨s, due, hs, -, hs', -⟩
  · exact hg
  · rintro _ hnew
    cases hs'.symm.trans hnew
    exact hg s hs

theorem HavePeriod.refreshed (h : HavePeriod groups period) :
    HavePeriod (Anchors.refreshed disk now groups index).groups period := by
  induction groups generalizing index with
  | nil => exact h
  | cons g rest ih =>
    obtain ⟨hg, hrest⟩ := List.forall_mem_cons.1 h
    rcases refreshGroups_cons_cases disk now g rest index with
      ⟨hfault, -⟩ | ⟨g', index', -, hr, hleft, -⟩ | ⟨-, hleft, -⟩
    · rw [Anchors.refreshed, hfault]
      exact h
    · rw [hleft]
      exact List.forall_mem_cons.2 ⟨period_of_reload? hr hg, ih hrest⟩
    · rw [hleft]
      exact List.forall_mem_cons.2 ⟨hg, ih hrest⟩

theorem HavePeriod.effect {read : List Reading} (h : HavePeriod a.groups period)
    (hcounted : a.Counted) (hop : op.KeepsTo period) (he : op.Effect disk now a a' read) :
    HavePeriod a'.groups period := by
  cases he with
  | refused => exact h
  | inserted put =>
    intro g hg s hs
    rcases (hcounted.insert put).2 g hg with hold | hstatic
    · exact h g hold s hs
    · cases hstatic.symm.trans hs
  | made _ read =>
    refine List.forall_mem_append.2 ⟨h, List.forall_mem_singleton.2 (period_of_reload? read ?_)⟩
    rintro _ ⟨⟩
    exact hop
  | cleared =>
    intro g hg
    cases hg
  | refreshed _ => exact h.refreshed

theorem Paced.havePeriod (h : Paced period a) : HavePeriod a.groups period := by
  induction h with
  | start =>
    intro g hg
    cases hg
  | reorder _ hgroups ih => exact fun g hg => ih g (hgroups.mem_iff.1 hg)
  | operate h _ _ hop ih =>
    exact ih.effect h.handled.counted hop (AnchorOperation.effect_run _ _ _ _)

/-- A dynamic group whose period leads to no moment outside the supported years is made, if there is
none of its name. -/
theorem insertPath_ok (disk : Disk) (a : Anchors) (id : String) (path : Path) (directory : Bool)
    (hperiod : period.nanoseconds ≤ maxPeriod.nanoseconds)
    (hdue : ∃ due, now.add? (.ofDuration period) = some due) :
    insertPath disk now id path period directory a = .ok (.error (.groupExists id)) a ∨
      ∃ a', insertPath disk now id path period directory a = .ok (.ok ()) a' := by
  obtain ⟨due, hdue⟩ := hdue
  let source : AnchorSource := { path, directory, period, due := now }
  have hrenewable : ({ id, source := some source } : AnchorGroup).RenewableAt now := by
    rintro _ ⟨⟩
    rw [hdue]
    rfl
  obtain ⟨loaded, hloaded⟩ := Option.isSome_iff_exists.1
    ((AnchorGroup.reload?_isSome_iff (disk id) a.index).2 hrenewable)
  unfold insertPath
  rw [Act.get_bind]
  cases a.group? id with
  | some g => exact .inl rfl
  | none =>
    simp only [Option.isSome_none, Bool.false_eq_true, if_false, if_neg (Nat.not_lt.2 hperiod)]
    rw [hloaded]
    exact .inr ⟨_, rfl⟩

theorem insert_error {id : String} {c : Certificate} {e : AnchorError}
    (h : a.insert id c = .error e) :
    e = .notStatic id := by
  unfold Anchors.insert at h
  dsimp only at h
  split at h
  · cases h
    rfl
  · cases h

/-- A period that leads to no moment outside the supported years lets no operation meet a fault, and
is not refused. -/
theorem HavePeriod.run_ok (h : HavePeriod a.groups period) (hop : op.KeepsTo period)
    (hperiod : period.nanoseconds ≤ maxPeriod.nanoseconds)
    (hdue : ∃ due, now.add? (.ofDuration period) = some due) (disk : Disk) :
    ∃ answer a', op.run disk now a = .ok answer a' ∧ ∀ id, answer ≠ .error (.refreshPeriod id) := by
  by_cases hlooks : op.LooksUp
  · have hwhole : (refreshGroups disk now a.groups a.index).1 = none := by
      refine (refreshGroups_fault disk now a.groups a.index).resolve_right ?_
      rintro ⟨-, g, hg, -, hstale⟩
      apply hstale
      intro s hs
      rw [h g hg s hs]
      exact Option.isSome_iff_exists.2 hdue
    obtain ⟨found, a', hrun⟩ := (AnchorOperation.run_ok_iff hlooks).2 hwhole
    exact ⟨_, a', hrun, nofun⟩
  cases op with
  | insert group certificate =>
    rw [AnchorOperation.run_insert]
    cases hi : a.insert group certificate with
    | ok b => exact ⟨_, b, rfl, nofun⟩
    | error e =>
      refine ⟨_, a, rfl, fun id hid => ?_⟩
      rw [insert_error hi] at hid
      cases hid
  | insertPath group path other directory =>
    obtain rfl : other = period := hop
    unfold AnchorOperation.run
    rcases insertPath_ok disk a group path directory hperiod hdue with hrefused | ⟨a', hmade⟩
    · exact ⟨_, a, Act.bind_of_ok hrefused, nofun⟩
    · exact ⟨_, a', Act.bind_of_ok hmade, nofun⟩
  | clear => exact ⟨_, _, rfl, nofun⟩
  | refresh | find _ | findInterest _ => exact absurd trivial hlooks

end Anchors

end PacketTrust
