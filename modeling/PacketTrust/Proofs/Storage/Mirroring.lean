import PacketTrust.Proofs.Storage.Lifetimes
import PacketTrust.Proofs.Storage.Readings

/-! Which certificate is found under a name after a reading. Main statement: where no other group
holds the name, it is the one that was just read if the group did not hold the name before; but if
it did, it is still the one that was found before, whatever the file shows now. -/

namespace PacketTrust

namespace AnchorIndex

variable {index : AnchorIndex} {c d : Certificate} {n k : Name}

def certificate? (index : AnchorIndex) (n : Name) : Option Certificate :=
  (index.get? n).map (·.certificate)

theorem certificate?_retain : (index.retain c).certificate? n =
    if c.name = n then some ((index.certificate? n).getD c) else index.certificate? n := by
  rw [certificate?, get?_retain, certificate?]
  by_cases hn : c.name = n
  · cases index.get? n <;> simp [hn]
  · simp [hn]

/-- Only the last holder lets a certificate go. -/
theorem certificate?_release (h : k = n → index.holders n ≠ 1) :
    (index.release k).certificate? n = index.certificate? n := by
  rw [certificate?, get?_release, certificate?]
  by_cases hn : k = n
  · have hmany := h hn
    rw [holders] at hmany
    cases hget : index.get? n with
    | none => simp
    | some a =>
      have ha : a.holders ≠ 1 := by simpa [hget] using hmany
      simp [hn, ha]
  · simp [hn]

theorem certificate?_foldl_release {l : List Name} (hl : l.Nodup)
    (h : n ∈ l → index.holders n ≠ 1) :
    (l.foldl release index).certificate? n = index.certificate? n := by
  induction l generalizing index with
  | nil => rfl
  | cons k rest ih =>
    obtain ⟨hk, hrest⟩ := List.nodup_cons.1 hl
    rw [List.foldl_cons, ih hrest, certificate?_release]
    · rintro rfl
      exact h List.mem_cons_self
    · intro hn
      have hne : k ≠ n := fun heq => hk (heq ▸ hn)
      simpa [holders_release, hne] using h (List.mem_cons_of_mem k hn)

theorem Sound.name_of_certificate? (h : index.Sound) (hn : index.certificate? n = some d) :
    d.name = n := by
  obtain ⟨a, ha, rfl⟩ := Option.map_eq_some_iff.1 hn
  exact h.keyed n a ha

theorem Sound.certificate?_eq_none_iff (h : index.Sound) :
    index.certificate? n = none ↔ index.holders n = 0 := by
  rw [certificate?, Option.map_eq_none_iff, holders]
  cases hget : index.get? n with
  | none => simp
  | some a => simpa using Nat.ne_of_gt (h.held n a hget)

end AnchorIndex

namespace AnchorGroup

variable {files : Files} {now : Instant} {g g' : AnchorGroup} {index index' : AnchorIndex}
  {s : AnchorSource}
  {others : Name → Nat} {loaded : NameMap Certificate} {n : Name} {c d : Certificate}
  {l : List Certificate}

theorem certificate?_add : (g.add index c).2.certificate? n =
    if c.name = n ∧ g.names.contains n = false then some ((index.certificate? n).getD c)
    else index.certificate? n := by
  unfold add
  by_cases hn : c.name = n
  · subst hn
    cases hheld : g.names.contains c.name <;> simp [AnchorIndex.certificate?_retain]
  · split <;> simp [AnchorIndex.certificate?_retain, hn]

theorem certificate?_foldl_add_of_some {p : AnchorGroup × AnchorIndex}
    (h : p.2.certificate? n = some d) :
    (l.foldl (fun s c => s.1.add s.2 c) p).2.certificate? n = some d := by
  induction l generalizing p with
  | nil => exact h
  | cons c rest ih =>
    have hfirst : (p.1.add p.2 c).2.certificate? n = some d := by
      rw [certificate?_add, h]
      simp
    exact ih hfirst

theorem certificate?_foldl_add {p : AnchorGroup × AnchorIndex} (hl : (l.map (·.name)).Nodup)
    (hc : c ∈ l)
    (h : p.2.certificate? c.name = none) (hnew : p.1.names.contains c.name = false) :
    (l.foldl (fun s c => s.1.add s.2 c) p).2.certificate? c.name = some c := by
  induction l generalizing p with
  | nil => cases hc
  | cons b rest ih =>
    rw [List.map_cons, List.nodup_cons] at hl
    rw [List.foldl_cons]
    rcases List.mem_cons.1 hc with rfl | hc
    · apply certificate?_foldl_add_of_some
      simp [certificate?_add, h, hnew]
    · have hne : b.name ≠ c.name := fun heq => hl.1 (heq ▸ List.mem_map_of_mem hc)
      have hnone : (p.1.add p.2 b).2.certificate? c.name = none := by
        simpa [certificate?_add, hne] using h
      have hstill : (p.1.add p.2 b).1.names.contains c.name = false := by
        have hiff := contains_add (n := c.name) p.1 p.2 b
        simpa [hne, hnew] using hiff
      exact ih hl.2 hc hnone hstill

theorem certificate?_follow (hk : Keyed loaded) (hc : loaded.get? n = some c)
    (h : index.certificate? n = none → g.names.contains n = false) :
    (g.follow loaded index).2.certificate? n = some ((index.certificate? n).getD c) := by
  have hmem : (n, c) ∈ loaded.entries := NameMap.get?_eq_some_iff.1 hc
  obtain rfl : n = c.name := hk _ hmem
  have hloaded : loaded.contains c.name := NameMap.contains_iff.2 ⟨_, hmem, rfl⟩
  have hdrop : (g.drop loaded index).2.certificate? c.name = index.certificate? c.name := by
    apply AnchorIndex.certificate?_foldl_release (g.names.nodup_keys.filter _)
    intro hstale
    rw [List.mem_filter, hloaded] at hstale
    cases hstale.2
  unfold follow
  cases hold : index.certificate? c.name with
  | some d =>
    apply certificate?_foldl_add_of_some
    rw [hdrop, hold, Option.getD_some]
  | none =>
    have hnames : (loaded.entries.map (·.2)).map (·.name) = loaded.keys := by
      rw [List.map_map]
      exact (List.map_congr_left fun e he => hk e he).symm
    have hcert : c ∈ loaded.entries.map (·.2) := List.mem_map_of_mem hmem
    apply certificate?_foldl_add (hnames ▸ loaded.nodup_keys) hcert
    · rw [hdrop, hold]
    · have hkept : (g.drop loaded index).1.names.contains c.name =
          (g.names.contains c.name && loaded.contains c.name) := NameMap.contains_filter
      rw [hkept, h hold, Bool.false_and]

/-- After a reading, what stood under a name that the source shows stands there still; else the last
certificate of that name that is shown. -/
theorem certificate?_reload (hs : g.source = some s)
    (hr : g.reload? files now index = some (g', index'))
    (hc : Last Certificate.name (s.shown files) n c)
    (h : index.certificate? n = none → g.names.contains n = false) :
    index'.certificate? n = some ((index.certificate? n).getD c) := by
  rcases reload?_some hr with ⟨hnone, -, -⟩ | ⟨s', due, hs', -, -, hfollow⟩
  · cases hnone.symm.trans hs
  · obtain rfl := Option.some.inj (hs'.symm.trans hs)
    have hread := certificate?_follow (g := { g with source := some { s' with due } })
      (keyed_load files s') (get?_load.2 hc) h
    rwa [hfollow] at hread

/-- A reading of one group leaves the certificates alone that other groups hold. -/
theorem CountedIn.certificate?_reload (h : g.CountedIn index others) (hn : 0 < others n)
    (hd : index.certificate? n = some d) (hr : g.reload? files now index = some (g', index')) :
    index'.certificate? n = some d := by
  rcases reload?_some hr with ⟨-, -, rfl⟩ | ⟨s, due, -, -, -, hfollow⟩
  · exact hd
  · have hindex := congrArg Prod.snd hfollow
    dsimp only at hindex
    rw [← hindex, AnchorGroup.follow]
    apply certificate?_foldl_add_of_some
    refine (AnchorIndex.certificate?_foldl_release (g.names.nodup_keys.filter _) fun hstale =>
      ?_).trans hd
    have hheld : g.names.contains n := NameMap.mem_keys.1 (List.mem_filter.1 hstale).1
    rw [h.holders n, if_pos hheld]
    omega

end AnchorGroup

namespace Anchors

variable {files : Files} {now t : Instant} {a b : Anchors} {before after : List AnchorGroup}
  {g g' : AnchorGroup}
  {index index' : AnchorIndex} {s : AnchorSource} {id : String} {n : Name} {c d : Certificate}

/-- A container as a reading may find it: after some operations, within a pass over the groups, or
with a new group that has not been read yet. -/
inductive Reached : Anchors → Prop
  | history {log : List Reading} {t : Instant} {a : Anchors} (h : History log t a) : Reached a
  | reading {before after : List AnchorGroup} {g g' : AnchorGroup} {index index' : AnchorIndex}
      (h : Reached ⟨before ++ g :: after, index⟩) {files : Files} {now : Instant}
      (hr : g.reload? files now index = some (g', index')) : Reached ⟨before ++ g' :: after, index'⟩
  | making {a : Anchors} (h : Reached a) {id : String} (hid : ∀ g ∈ a.groups, g.id ≠ id)
      (source : Option AnchorSource) : Reached ⟨a.groups ++ [{ id, source : AnchorGroup }], a.index⟩

theorem Reached.counted (h : Reached a) : a.Counted := by
  induction h with
  | history h => exact h.accounted.counted
  | reading _ hr ih => exact ih.reload hr
  | making _ hid source ih => exact ih.append hid (ih.fresh _ source)

/-- Readings of groups other than this one lead from the first container to the second. -/
inductive Beside (id : String) (a : Anchors) : Anchors → Prop
  | refl : Beside id a a
  | reading {before after : List AnchorGroup} {g g' : AnchorGroup} {index index' : AnchorIndex}
      (h : Beside id a ⟨before ++ g :: after, index⟩) (hid : g.id ≠ id)
      {files : Files} {now : Instant}
      (hr : g.reload? files now index = some (g', index')) :
        Beside id a ⟨before ++ g' :: after, index'⟩

/-- While a group is not read, what is found under a name that it holds stays the same. -/
theorem Beside.certificate? (h : Beside g.id a b) (ha : a.Counted) (hg : g ∈ a.groups)
    (hn : g.names.contains n) (hd : a.index.certificate? n = some d) :
    b.Counted ∧ g ∈ b.groups ∧ b.index.certificate? n = some d := by
  induction h with
  | refl => exact ⟨ha, hg, hd⟩
  | @reading before after x x' index index' _ hid files now hr ih =>
    obtain ⟨hcounted, hmem, hold⟩ := ih
    -- The group is not the one that is read, so it goes on being counted among its others.
    have hother : g ∈ before ++ after := by
      rcases List.mem_append.1 hmem with hmem | hmem
      · exact List.mem_append_left _ hmem
      · rcases List.mem_cons.1 hmem with rfl | hmem
        · exact absurd rfl hid
        · exact List.mem_append_right _ hmem
    have hholders : 0 < (before ++ after).countP (·.names.contains n) :=
      List.countP_pos_iff.2 ⟨g, hother, hn⟩
    refine ⟨hcounted.reload hr, ?_, ?_⟩
    · simp only [List.mem_append, List.mem_cons] at hother ⊢
      tauto
    · exact hcounted.group.certificate?_reload hholders hold hr

theorem search_of_certificate? {disk : Disk} (h : a.index.Sound)
    (hd : a.index.certificate? n = some d) (hr : refresh disk t b = .ok () a) :
    (AnchorOperation.find n).run disk t b = .ok (.ok (some d)) a ∧
      ∀ i : Interest, i.name = n →
        (AnchorOperation.findInterest i).run disk t b = .ok (.ok (some d)) a := by
  have hname : d.name = n := h.name_of_certificate? hd
  obtain ⟨e, he, rfl⟩ := Option.map_eq_some_iff.1 hd
  constructor
  case left =>
    rw [AnchorOperation.run, Act.bind_of_ok (find_of_refresh n hr), NameMap.findUnder_of_get? he]
    rfl
  case right =>
    rintro i rfl
    have hmatches : i.matchesData e.certificate.data := Interest.matchesData_of_name hname.symm
    have hfind := NameMap.findUnderWith_of_get?
      (p := fun e : Anchor => i.matchesData e.certificate.data) he hmatches
    rw [AnchorOperation.run, Act.bind_of_ok (findInterest_of_refresh i hr), answer, hfind]
    rfl

/-- After a reading, searches for a name that no other group holds find the last certificate of that
name that is shown, but if the group held the name before, still the one that stood there. Readings
of other groups in between change nothing. -/
theorem found_after_reading (h : Reached ⟨before ++ g :: after, index⟩) (hs : g.source = some s)
    (hr : g.reload? files now index = some (g', index'))
    (hc : Last Certificate.name (s.shown files) n c)
    (hothers : ∀ x ∈ before ++ after, x.names.contains n = false) :
    ∃ d, (g.names.contains n = false → d = c) ∧
      (g.names.contains n → (index.get? n).map (·.certificate) = some d) ∧
      ∀ b, Beside g.id ⟨before ++ g' :: after, index'⟩ b →
        ∀ (disk : Disk) t a, refresh disk t a = .ok () b →
          (AnchorOperation.find n).run disk t a = .ok (.ok (some d)) b ∧
            ∀ i : Interest, i.name = n →
              (AnchorOperation.findInterest i).run disk t a = .ok (.ok (some d)) b := by
  have hcounted := h.counted
  have hnobody : (before ++ after).countP (·.names.contains n) = 0 := by
    rw [List.countP_eq_zero]
    intro x hx
    rw [hothers x hx]
    exact Bool.false_ne_true
  -- As no other group holds the name, something stands under it just if this group held it.
  have hnone : index.certificate? n = none ↔ g.names.contains n = false := by
    have hholders := hcounted.group.holders n
    rw [hnobody] at hholders
    rw [hcounted.sound.certificate?_eq_none_iff]
    cases hg : g.names.contains n <;> simp [hholders, hg]
  have hread := AnchorGroup.certificate?_reload hs hr hc hnone.1
  have hheld : g'.names.contains n := by
    rw [(AnchorGroup.follows_of_reload? hr hs).contains_iff (AnchorGroup.keyed_load files s),
      AnchorGroup.contains_load]
    exact ⟨c, hc.mem, hc.key_eq⟩
  have hafter : Counted ⟨before ++ g' :: after, index'⟩ :=
    hcounted.replace (AnchorGroup.reload?_id hr) (hcounted.group.reload hr)
  refine ⟨(index.certificate? n).getD c, fun hnew => ?_, fun hold => ?_,
    fun b hb disk t a hrefresh => ?_⟩
  · rw [hnone.2 hnew, Option.getD_none]
  · cases hcert : index.certificate? n with
    | none =>
      rw [hnone.1 hcert] at hold
      cases hold
    | some d => exact hcert
  · rw [← AnchorGroup.reload?_id hr] at hb
    obtain ⟨hcounted', -, hfound⟩ := hb.certificate? hafter (by simp) hheld hread
    exact search_of_certificate? hcounted'.sound hfound hrefresh

def Sample.source : AnchorSource := ⟨["anchor"], false, .ofSeconds 60, .ofMillis 0⟩

/-- A file is written anew, with another key under the same name: the search that reads it finds the
old key. -/
theorem found_after_reading_of_change :
    ∃ g index b c d, Reached ⟨[g], index⟩ ∧ g.source.map (·.due) = some (.ofMillis 60000) ∧
      Sample.source.shown (Sample.files 8) = [c] ∧ c.name = Sample.name ∧ c.publicKey = [8] ∧
      (AnchorOperation.find Sample.name).run (fun _ => Sample.files 8) (.ofMillis 60000)
        ⟨[g], index⟩ = .ok (.ok (some d)) b ∧ d.publicKey = [7] := by
  have hfirst :
      (({ id := "file", source := some Sample.source } : AnchorGroup).reload? (Sample.files 7)
      (.ofMillis 0) .empty).map (fun r => (r.1.source, r.1.names.contains Sample.name,
        (r.2.get? Sample.name).map (·.certificate.publicKey))) =
      some (some { Sample.source with due := .ofMillis 60000 }, true, some [7]) := by
    decide +kernel
  have hsecond : (Sample.source.shown (Sample.files 8)).map (fun c => (c.name, c.publicKey)) =
      [(Sample.name, [8])] := by
    decide +kernel
  obtain ⟨⟨g, index⟩, hr, hread⟩ := Option.map_eq_some_iff.1 hfirst
  obtain ⟨hs, hheld, hkey⟩ : g.source = some { Sample.source with due := .ofMillis 60000 } ∧
      g.names.contains Sample.name = true ∧
      (index.get? Sample.name).map (·.certificate.publicKey) = some [7] := by
    simpa using hread
  obtain ⟨c, hshown, hc⟩ := List.map_eq_singleton_iff.1 hsecond
  obtain ⟨hname, hnew⟩ := Prod.mk.inj hc
  have hmade : Reached ⟨[] ++ { id := "file", source := some Sample.source } :: [], .empty⟩ :=
    (Reached.history (.start (.ofMillis 0))).making (by simp) (some Sample.source)
  have hreached : Reached ⟨[] ++ g :: [], index⟩ := hmade.reading hr
  have hdue : g.isDue (.ofMillis 60000) = true := by
    simp [AnchorGroup.isDue, hs, Instant.le_refl]
  have hrenewable : g.RenewableAt (.ofMillis 60000) := by
    intro s hs'
    obtain rfl := Option.some.inj (hs.symm.trans hs')
    decide
  obtain ⟨⟨g', index'⟩, hr'⟩ := Option.isSome_iff_exists.1
    ((AnchorGroup.reload?_isSome_iff (Sample.files 8) index).2 hrenewable)
  have hlast : Last Certificate.name
      (AnchorSource.shown { Sample.source with due := .ofMillis 60000 } (Sample.files 8))
        Sample.name c :=
    ⟨[], [], hshown, hname, by simp⟩
  obtain ⟨d, -, hold, hfound⟩ := found_after_reading hreached hs hr' hlast (by simp)
  have hrefresh : refresh (fun _ => Sample.files 8) (.ofMillis 60000) ⟨[g], index⟩ =
      .ok () ⟨[g'], index'⟩ := by
    simp [refresh, refreshGroups, hdue, hr']
  obtain ⟨e, he, rfl⟩ := Option.map_eq_some_iff.1 (hold hheld)
  have hkey : e.certificate.publicKey = [7] := by simpa [he] using hkey
  have hsearch := (hfound _ .refl (fun _ => Sample.files 8) (.ofMillis 60000) _ hrefresh).1
  exact ⟨g, index, _, c, e.certificate, hreached, by simp [hs], hshown, hname, hnew, hsearch, hkey⟩

end Anchors

end PacketTrust
