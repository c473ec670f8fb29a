import PacketTrust.Proofs.Storage.Contents

/-! Anchors are counted. Main statements: whatever a group takes in or lets go, the index counts it
as a holder of just the names that it holds, and so it stays when one group of many is changed. -/

namespace PacketTrust

namespace AnchorIndex

variable {index : AnchorIndex} {c : Certificate} {n k : Name}

def holders (index : AnchorIndex) (n : Name) : Nat := (index.get? n).elim 0 Anchor.holders

/-- Each anchor is held by some group, and stands under its name. -/
structure Sound (index : AnchorIndex) : Prop where
  held : ∀ n a, index.get? n = some a → 0 < a.holders
  keyed : ∀ n a, index.get? n = some a → a.certificate.name = n

theorem sound_empty : Sound .empty := by
  constructor <;> simp [NameMap.get?, NameMap.empty]

theorem Sound.holders_pos_iff (h : index.Sound) : 0 < index.holders n ↔ index.contains n := by
  rw [NameMap.contains_eq_isSome, holders]
  cases hn : index.get? n with
  | none => simp
  | some a => simpa using h.held n a hn

theorem get?_retain : (index.retain c).get? n =
    if c.name = n then
      some ((index.get? n).elim ⟨c, 1⟩ fun a => { a with holders := a.holders + 1 })
    else index.get? n := by
  unfold retain
  by_cases hn : c.name = n
  · subst hn
    cases index.get? c.name <;> simp [NameMap.get?_insert]
  · cases index.get? c.name <;> simp [NameMap.get?_insert, hn]

theorem get?_release : (index.release k).get? n =
    if k = n then
      (index.get? n).bind fun a =>
        if a.holders = 1 then none else some { a with holders := a.holders - 1 }
    else index.get? n := by
  unfold release
  by_cases hn : k = n
  · subst hn
    cases hk : index.get? k with
    | none => simp [hk]
    | some a =>
      by_cases ha : a.holders = 1 <;> simp [ha, NameMap.get?_erase, NameMap.get?_insert]
  · have hn' : ¬ n = k := Ne.symm hn
    cases hk : index.get? k with
    | none => simp [hn]
    | some a =>
      by_cases ha : a.holders = 1 <;> simp [ha, NameMap.get?_erase, NameMap.get?_insert, hn, hn']

theorem holders_retain :
    (index.retain c).holders n = index.holders n + if c.name = n then 1 else 0 := by
  rw [holders, get?_retain, holders]
  by_cases hn : c.name = n
  · cases index.get? n <;> simp [hn]
  · simp [hn]

theorem holders_release :
    (index.release k).holders n = index.holders n - if k = n then 1 else 0 := by
  rw [holders, get?_release, holders]
  by_cases hn : k = n
  · cases index.get? n with
    | none => simp [hn]
    | some a => by_cases ha : a.holders = 1 <;> simp [hn, ha]
  · simp [hn]

theorem Sound.retain (h : index.Sound) (c : Certificate) : (index.retain c).Sound := by
  have hcases : ∀ n a, (index.retain c).get? n = some a →
      0 < a.holders ∧ a.certificate.name = n := by
    intro n a ha
    rw [get?_retain] at ha
    split at ha
    · rename_i hn
      cases hold : index.get? n with
      | none =>
        rw [hold] at ha
        cases ha
        exact ⟨Nat.one_pos, hn⟩
      | some b =>
        rw [hold] at ha
        cases ha
        exact ⟨Nat.succ_pos _, h.keyed n b hold⟩
    · exact ⟨h.held n a ha, h.keyed n a ha⟩
  exact ⟨fun n a ha => (hcases n a ha).1, fun n a ha => (hcases n a ha).2⟩

theorem Sound.release (h : index.Sound) (k : Name) : (index.release k).Sound := by
  have hcases : ∀ n a, (index.release k).get? n = some a →
      0 < a.holders ∧ a.certificate.name = n := by
    intro n a ha
    rw [get?_release] at ha
    split at ha
    · obtain ⟨b, hb, ha⟩ := Option.bind_eq_some_iff.1 ha
      have hpos := h.held n b hb
      split at ha
      · cases ha
      · cases ha
        have : 0 < b.holders - 1 := by omega
        exact ⟨this, h.keyed n b hb⟩
    · exact ⟨h.held n a ha, h.keyed n a ha⟩
  exact ⟨fun n a ha => (hcases n a ha).1, fun n a ha => (hcases n a ha).2⟩

section

variable (l : List Name)

theorem Sound.foldl_release (h : index.Sound) : (l.foldl AnchorIndex.release index).Sound := by
  induction l generalizing index with
  | nil => exact h
  | cons k rest ih => exact ih (h.release k)

theorem holders_foldl_release (hl : l.Nodup) :
    (l.foldl release index).holders n = index.holders n - if n ∈ l then 1 else 0 := by
  induction l generalizing index with
  | nil => simp
  | cons k rest ih =>
    obtain ⟨hk, hrest⟩ := List.nodup_cons.1 hl
    rw [List.foldl_cons, ih hrest, holders_release]
    by_cases hn : k = n
    · subst hn
      simp [hk]
    · simp [hn, Ne.symm hn]

end

end AnchorIndex

namespace AnchorGroup

variable {files : Files} {now : Instant} {g g' : AnchorGroup} {index index' : AnchorIndex}
  {others : Name → Nat} {n : Name}

/-- The index counts the group as a holder of just the names that it holds, besides some other
groups. -/
structure CountedIn (g : AnchorGroup) (index : AnchorIndex) (others : Name → Nat) : Prop where
  sound : index.Sound
  holders : ∀ n, index.holders n = others n + if g.names.contains n then 1 else 0

theorem CountedIn.add (h : g.CountedIn index others) (c : Certificate) :
    (g.add index c).1.CountedIn (g.add index c).2 others := by
  unfold AnchorGroup.add
  split
  · exact h
  · rename_i hnew
    refine ⟨h.sound.retain c, fun n => ?_⟩
    rw [AnchorIndex.holders_retain, h.holders n]
    by_cases hn : c.name = n
    · subst hn
      simp [NameMap.contains_insert, hnew]
    · have hiff : (g.names.insert c.name ()).contains n ↔ g.names.contains n := by
        simp [NameMap.contains_insert, hn]
      simp [hn, hiff]

theorem CountedIn.drop (h : g.CountedIn index others) (loaded : NameMap Certificate) :
    (g.drop loaded index).1.CountedIn (g.drop loaded index).2 others := by
  have hstale : (g.names.keys.filter (!loaded.contains ·)).Nodup := g.names.nodup_keys.filter _
  refine ⟨h.sound.foldl_release _, fun n => ?_⟩
  have hmem : n ∈ g.names.keys.filter (!loaded.contains ·) ↔
      g.names.contains n ∧ loaded.contains n = false := by
    rw [List.mem_filter, NameMap.mem_keys, Bool.not_eq_true']
  have hkept : (g.drop loaded index).1.names.contains n =
      (g.names.contains n && loaded.contains n) := NameMap.contains_filter
  rw [hkept]
  change ((g.names.keys.filter (!loaded.contains ·)).foldl AnchorIndex.release index).holders n = _
  rw [AnchorIndex.holders_foldl_release _ hstale, h.holders n]
  simp only [hmem]
  cases g.names.contains n <;> cases loaded.contains n <;> simp

theorem CountedIn.foldl_add (l : List Certificate) {s : AnchorGroup × AnchorIndex}
    (h : s.1.CountedIn s.2 others) :
    (l.foldl (fun s c => s.1.add s.2 c) s).1.CountedIn
      (l.foldl (fun s c => s.1.add s.2 c) s).2 others := by
  induction l generalizing s with
  | nil => exact h
  | cons c rest ih => exact ih (h.add c)

theorem CountedIn.follow (h : g.CountedIn index others) (loaded : NameMap Certificate) :
    (g.follow loaded index).1.CountedIn (g.follow loaded index).2 others :=
  (h.drop loaded).foldl_add _

/-- Reading the source of a group changes how it is counted just as it changes what it holds. -/
theorem CountedIn.reload (h : g.CountedIn index others)
    (hr : g.reload? files now index = some (g', index')) : g'.CountedIn index' others := by
  rcases reload?_some hr with ⟨-, rfl, rfl⟩ | ⟨s, due, -, -, -, hfollow⟩
  · exact h
  · have hdated : ({ g with source := some { s with due } } : AnchorGroup).CountedIn index others :=
      ⟨h.sound, h.holders⟩
    have hnew := hdated.follow (load files s)
    rwa [hfollow] at hnew

end AnchorGroup

namespace Anchors

variable {files : Files} {now : Instant} {a : Anchors} {before after groups : List AnchorGroup}
  {g g' : AnchorGroup} {index index' : AnchorIndex} {c : Certificate} {n : Name} {id : String}

/-- Groups are told apart by their identifiers, and the index counts for each name the groups that
hold it. -/
structure Counted (a : Anchors) : Prop where
  unique : (a.groups.map (·.id)).Nodup
  sound : a.index.Sound
  holders : ∀ n, a.index.holders n = a.groups.countP (·.names.contains n)

theorem Counted.group (h : Counted ⟨before ++ g :: after, index⟩) :
    g.CountedIn index fun n => (before ++ after).countP (·.names.contains n) := by
  refine ⟨h.sound, fun n => ?_⟩
  have hn := h.holders n
  simp only [List.countP_append, List.countP_cons] at hn ⊢
  omega

/-- Where one group is changed, the others are counted as before. -/
theorem Counted.replace (h : Counted ⟨before ++ g :: after, index⟩) (hid : g'.id = g.id)
    (hg : g'.CountedIn index' fun n => (before ++ after).countP (·.names.contains n)) :
    Counted ⟨before ++ g' :: after, index'⟩ := by
  refine ⟨?_, hg.sound, fun n => ?_⟩
  · have hunique := h.unique
    simpa [hid] using hunique
  · have hn := hg.holders n
    simp only [List.countP_append, List.countP_cons] at hn ⊢
    omega

/-- Reading the source of one group leaves all of them counted. -/
theorem Counted.reload (h : Counted ⟨before ++ g :: after, index⟩)
    (hr : g.reload? files now index = some (g', index')) :
    Counted ⟨before ++ g' :: after, index'⟩ :=
  h.replace (AnchorGroup.reload?_id hr) (h.group.reload hr)

theorem Counted.append (h : a.Counted) (hid : ∀ h ∈ a.groups, h.id ≠ g.id)
    (hg : g.CountedIn index' fun n => a.groups.countP (·.names.contains n)) :
    Counted ⟨a.groups ++ [g], index'⟩ := by
  refine ⟨?_, hg.sound, fun n => ?_⟩
  · rw [List.map_append, List.nodup_append]
    refine ⟨h.unique, by simp, ?_⟩
    intro id hmem id' hmem'
    obtain ⟨h, hh, rfl⟩ := List.mem_map.1 hmem
    obtain rfl : id' = g.id := by simpa using hmem'
    exact hid h hh
  · have hn := hg.holders n
    simp only [List.countP_append, List.countP_cons, List.countP_nil] at hn ⊢
    omega

theorem Counted.fresh (h : a.Counted) (id : String) (source : Option AnchorSource) :
    ({ id, source } : AnchorGroup).CountedIn a.index fun n =>
      a.groups.countP (·.names.contains n) := by
  refine ⟨h.sound, fun n => ?_⟩
  simpa [NameMap.contains, NameMap.empty] using h.holders n

/-- A new group comes in with the first reading of its source. -/
theorem Counted.append_reload (h : a.Counted) (hid : ∀ h ∈ a.groups, h.id ≠ id)
    {source : Option AnchorSource}
    (hr : AnchorGroup.reload? files now { id, source } a.index = some (g, index)) :
    Counted ⟨a.groups ++ [g], index⟩ := by
  have hg : g.id = id := AnchorGroup.reload?_id hr
  exact h.append (fun g' hg' => hg ▸ hid g' hg') ((h.fresh id source).reload hr)

theorem Counted.perm (h : a.Counted) (hgroups : groups.Perm a.groups) :
    Counted { a with groups } := by
  refine ⟨(hgroups.map _).nodup_iff.2 h.unique, h.sound, fun n => ?_⟩
  rw [h.holders n]
  exact (hgroups.countP_eq _).symm

theorem counted_empty : Counted {} := ⟨.nil, AnchorIndex.sound_empty, fun _ => rfl⟩

end Anchors

end PacketTrust
