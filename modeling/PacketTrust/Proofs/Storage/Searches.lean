import PacketTrust.Proofs.Storage.Lifetimes
import PacketTrust.Proofs.Storage.Readings
import PacketTrust.Proofs.Validation.Retrieval

/-! What searches find. The names that begin with a given one stand in one row, and a search looks
at no more than the first of them or the part of the row up to an answer. Main statement: it finds
what looking at all certificates would. -/

namespace PacketTrust

/-- What comes of looking at all certificates for the least one, by name, of those that are asked
for. -/
def Certificate.Least (asked : Certificate → Prop) : Option Certificate → Prop
  | some c => asked c ∧ ∀ d, asked d → (Name.cmp c.name d.name).isLE
  | none => ∀ c, ¬ asked c

namespace Interest

variable {i : Interest} {d : Data}

/-- The name begins with that of the Interest, and is that name unless it may be a beginning. -/
def Names (i : Interest) (n : Name) : Prop :=
  n.startsWith i.name ∧ (i.canBePrefix = false → n = i.name)

/-- The name of the Interest ends in the digest of a wire. -/
def EndsInDigest (i : Interest) : Prop := (i.name.get? (-1)).any Component.isImplicitDigest

/-- Unless a packet is asked for by its full name, it answers by its name alone. -/
theorem matchesData_iff
    (h : ¬ (i.name.length = d.name.length + 1 ∧ i.EndsInDigest)) :
    i.matchesData d ↔ i.Names d.name := by
  have hself : i.name.startsWith i.name := Name.startsWith_iff.2 List.prefix_rfl
  have hbranch : ¬ ((decide (i.name.length = d.name.length + 1) &&
      (i.name.get? (-1)).any Component.isImplicitDigest) = true) := by
    simpa [EndsInDigest] using h
  unfold matchesData Names
  rw [if_neg hbranch]
  by_cases hbeginning : i.canBePrefix
  · simp [hbeginning]
  · simp only [hbeginning, Bool.false_eq_true, if_false, decide_eq_true_iff]
    constructor
    · intro heq
      rw [← heq]
      exact ⟨hself, fun _ => rfl⟩
    · intro hnames
      exact (hnames.2 trivial).symm

/-- A packet whose name begins with that of the Interest is not asked for by its full name. -/
theorem matchesData_of_startsWith (h : d.name.startsWith i.name) :
    i.matchesData d ↔ i.Names d.name := by
  apply matchesData_iff
  rintro ⟨hlength, -⟩
  have := Name.startsWith_length h
  omega

end Interest

/-- Searches by name and for Interests find the least of the certificates that are held. -/
structure Certificate.Thorough (held : Certificate → Prop) (find : Name → Option Certificate)
    (answer : Interest → Option Certificate) : Prop where
  byName : ∀ n, Least (fun c => held c ∧ c.name.startsWith n) (find n)
  byInterest : ∀ i, Least (fun c => held c ∧ i.Names c.name) (answer i)
  byAnswer : ∀ i : Interest, ¬ i.EndsInDigest →
    Least (fun c => held c ∧ i.matchesData c.data) (answer i)

namespace NameMap

variable {α : Type} {m : NameMap α} {n : Name} {a : α} {p : α → Bool}

theorem findUnder_eq_findUnderWith (m : NameMap α) (n : Name) :
    m.findUnder n = m.findUnderWith n fun _ => true := by
  unfold findUnder findUnderWith
  cases m.startingAt n with
  | nil => rfl
  | cons e rest =>
    rw [List.head?_cons, Option.filter_some, List.takeWhile_cons]
    by_cases he : e.1.startsWith n
    · rw [if_pos he, if_pos he, List.find?_cons_of_pos rfl]
    · rw [if_neg he, if_neg he, List.find?_nil]

theorem row_sublist (m : NameMap α) (n : Name) :
    ((m.startingAt n).takeWhile fun e => e.1.startsWith n).Sublist m.entries :=
  (List.takeWhile_sublist _).trans (List.dropWhile_sublist _)

/-- What a search finds stands before all others that it might have found. -/
theorem findUnderWith_le (h : m.findUnderWith n p = some a) :
    ∃ k, (k, a) ∈ m.entries ∧ k.startsWith n ∧ p a ∧
      ∀ e ∈ m.entries, e.1.startsWith n → p e.2 → (Name.cmp k e.1).isLE := by
  obtain ⟨found, hfound, rfl⟩ := Option.map_eq_some_iff.1 h
  obtain ⟨hp, before, after, hrow, hbefore⟩ := List.find?_eq_some_iff_append.1 hfound
  have hmem : found ∈ (m.startingAt n).takeWhile fun e => e.1.startsWith n := by
    rw [hrow]
    simp
  have hrising : (before ++ found :: after).Pairwise fun a b => Name.cmp a.1 b.1 = .lt := by
    rw [← hrow]
    exact m.rising.sublist (m.row_sublist n)
  have hstarts : found.1.startsWith n := List.all_eq_true.1 List.all_takeWhile found hmem
  refine ⟨found.1, (m.row_sublist n).subset hmem, hstarts, hp, fun e he hn hpe => ?_⟩
  have hcase := mem_row he hn
  rw [hrow, List.mem_append, List.mem_cons] at hcase
  rcases hcase with he | rfl | he
  · have hrefused := hbefore e he
    simp [hpe] at hrefused
  · rw [(Std.ReflCmp.compare_self : Name.cmp e.1 e.1 = .eq)]
    rfl
  · have hlater := (List.pairwise_append.1 hrising).2.1
    rw [(List.pairwise_cons.1 hlater).1 e he]
    rfl

theorem not_of_findUnderWith_eq_none (h : m.findUnderWith n p = none) {e : Name × α}
    (he : e ∈ m.entries) (hn : e.1.startsWith n) : ¬ p e.2 := by
  intro hp
  obtain ⟨a, ha⟩ := exists_findUnderWith he hn hp
  cases h.symm.trans ha

/-- A search among certificates that stand under their names finds the least of those asked for, if
these are the ones under a name that pass its test. -/
theorem least_findUnderWith {f : α → Certificate} {asked : Certificate → Prop}
    (hkeyed : ∀ e ∈ m.entries, (f e.2).name = e.1)
    (hasked : ∀ e ∈ m.entries, asked (f e.2) ↔ e.1.startsWith n ∧ p e.2) :
    Certificate.Least (fun c => (∃ e ∈ m.entries, f e.2 = c) ∧ asked c)
      ((m.findUnderWith n p).map f) := by
  cases h : m.findUnderWith n p with
  | none =>
    rintro c ⟨⟨e, he, rfl⟩, hc⟩
    obtain ⟨hn, hp⟩ := (hasked e he).1 hc
    exact not_of_findUnderWith_eq_none h he hn hp
  | some a =>
    obtain ⟨k, hmem, hn, hp, hle⟩ := findUnderWith_le h
    refine ⟨⟨⟨(k, a), hmem, rfl⟩, (hasked _ hmem).2 ⟨hn, hp⟩⟩, ?_⟩
    rintro d ⟨⟨e, he, rfl⟩, hd⟩
    obtain ⟨hn', hp'⟩ := (hasked e he).1 hd
    rw [hkeyed e he, hkeyed (k, a) hmem]
    exact hle e he hn' hp'

section

variable {f : α → Certificate} (hkeyed : ∀ e ∈ m.entries, (f e.2).name = e.1)

include hkeyed

/-- The certificate that answers an Interest is the least with a fitting name. -/
theorem least_names (i : Interest) :
    Certificate.Least (fun c => (∃ e ∈ m.entries, f e.2 = c) ∧ i.Names c.name)
      ((m.findUnderWith i.name fun a => i.matchesData (f a).data).map f) := by
  refine least_findUnderWith hkeyed fun e he => ?_
  have hname : (f e.2).data.name = e.1 := hkeyed e he
  rw [hkeyed e he]
  constructor
  · intro hnames
    have hstarts : (f e.2).data.name.startsWith i.name := hname ▸ hnames.1
    exact ⟨hnames.1, (Interest.matchesData_of_startsWith hstarts).2 (hname ▸ hnames)⟩
  · rintro ⟨hstarts, hmatches⟩
    rw [← hname] at hstarts ⊢
    exact (Interest.matchesData_of_startsWith hstarts).1 hmatches

theorem least_matchesData (i : Interest) (hi : ¬ i.EndsInDigest) :
    Certificate.Least (fun c => (∃ e ∈ m.entries, f e.2 = c) ∧ i.matchesData c.data)
      ((m.findUnderWith i.name fun a => i.matchesData (f a).data).map f) := by
  refine least_findUnderWith hkeyed fun e he => ?_
  constructor
  · intro hmatches
    have hnames := (Interest.matchesData_iff fun h => hi h.2).1 hmatches
    have hname : (f e.2).data.name = e.1 := hkeyed e he
    exact ⟨hname ▸ hnames.1, hmatches⟩
  · exact And.right

/-- Where certificates stand under their names, searches need not look at all of them. -/
theorem thorough :
    Certificate.Thorough (fun c => ∃ e ∈ m.entries, f e.2 = c) (fun n => (m.findUnder n).map f)
      fun i => (m.findUnderWith i.name fun a => i.matchesData (f a).data).map f := by
  constructor
  case byName =>
    intro n
    rw [findUnder_eq_findUnderWith]
    refine least_findUnderWith hkeyed fun e he => ?_
    rw [hkeyed e he]
    simp
  case byInterest => exact least_names hkeyed
  case byAnswer => exact least_matchesData hkeyed

end

end NameMap

namespace Cache

variable {lifetime : Span} {history : List (Instant × CacheOperation)}

theorem name_of_mem_refresh {now : Instant} {e : Name × CacheEntry}
    (he : e ∈ ((after lifetime history).refresh now).entries.entries) :
    e.2.certificate.name = e.1 := by
  have hget := (get?_refresh.1 (NameMap.get?_eq_some_iff.2 he)).1
  exact (get?_after.1 hget).name

theorem thorough_after (lifetime : Span) (history : List (Instant × CacheOperation))
    (now : Instant) :
    Certificate.Thorough ((after lifetime history).refresh now).Holds
      (fun n => ((after lifetime history).find now n).1)
      fun i => ((after lifetime history).findInterest now i).1 :=
  NameMap.thorough fun _ => name_of_mem_refresh

end Cache

namespace Anchors

variable {disk : Disk} {now : Instant} {a a' : Anchors} {before groups : List AnchorGroup}
  {index : AnchorIndex}

theorem Counted.refreshed (disk : Disk) (now : Instant) (h : Counted ⟨before ++ groups, index⟩) :
    Counted ⟨before ++ (Anchors.refreshed disk now groups index).groups,
      (Anchors.refreshed disk now groups index).index⟩ := by
  induction groups generalizing before index with
  | nil => exact h
  | cons g rest ih =>
    rcases refreshGroups_cons_cases disk now g rest index with
      ⟨hfault, -⟩ | ⟨g', index', -, hr, hleft, -⟩ | ⟨-, hleft, -⟩
    · rw [Anchors.refreshed, hfault]
      exact h
    · -- The group that was passed joins those before.
      have hread := h.reload hr
      rw [List.append_cons before] at hread
      rw [hleft]
      simpa using ih hread
    · rw [List.append_cons before] at h
      rw [hleft]
      simpa using ih h

theorem Counted.effect {op : AnchorOperation} {read : List Reading} (h : a.Counted)
    (he : op.Effect disk now a a' read) : a'.Counted := by
  cases he with
  | refused => exact h
  | inserted put => exact (h.insert put).1
  | made new read => exact h.append_reload new read
  | cleared => exact counted_empty
  | refreshed _ =>
    have hgroups : Counted ⟨[] ++ a.groups, a.index⟩ := h
    exact hgroups.refreshed disk now

/-- What a new container has become by operations at any moments, where files may change at any time
and groups may come in any order. -/
inductive Handled : Anchors → Prop
  | start : Handled {}
  | reorder {a : Anchors} {groups : List AnchorGroup} (h : Handled a)
      (hgroups : groups.Perm a.groups) :
      Handled { a with groups }
  | operate {a : Anchors} (h : Handled a) (disk : Disk) (now : Instant) (op : AnchorOperation) :
      Handled ((op.run disk now).left a)

theorem Handled.counted (h : Handled a) : a.Counted := by
  induction h with
  | start => exact counted_empty
  | reorder _ hgroups ih => exact ih.perm hgroups
  | operate _ disk now op ih => exact ih.effect (op.effect_run disk now _)

theorem Counted.thorough (h : a.Counted) :
    Certificate.Thorough a.Holds (fun n => (a.index.findUnder n).map (·.certificate)) a.answer :=
  NameMap.thorough fun e he => h.sound.keyed e.1 e.2 (NameMap.get?_eq_some_iff.2 he)

theorem Handled.thorough (h : Handled a) (hr : refresh disk now a = .ok () a') :
    Certificate.Thorough a'.Holds (fun n => (a'.index.findUnder n).map (·.certificate))
      a'.answer := by
  have hafter : Handled ((AnchorOperation.refresh.run disk now).left a) :=
    h.operate disk now .refresh
  have hleft : AnchorOperation.refresh.run disk now a = .ok (.ok none) a' := Act.bind_of_ok hr
  rw [Act.left_of_ok hleft] at hafter
  exact hafter.counted.thorough

end Anchors

namespace World

/-- A search among what is trusted is one among the anchors, and if they have no answer, one among
the verified certificates. -/
theorem findTrusted_or (i : Interest) (w : World) :
    ¬ w.storage.anchors.RenewableAt w.now ∨ ∃ found anchors w',
      Anchors.findInterest w.disk w.now i w.storage.anchors = .ok found anchors ∧
        findTrusted i w =
          .ok (found.or (w.storage.verified.findInterest w.clock.next.now i).1) w' := by
  rcases Anchors.refresh_cases w.disk w.now w.storage.anchors with ⟨anchors, h, -⟩ | ⟨-, h⟩
  · right
    have hfind := Anchors.findInterest_of_refresh i h
    rw [findTrusted_of_refresh h]
    cases ha : anchors.answer i with
    | some c => exact ⟨_, _, _, ha ▸ hfind, rfl⟩
    | none => exact ⟨_, _, _, ha ▸ hfind, rfl⟩
  · exact .inl (Anchors.not_renewableAt h)

end World

/-- Whatever was done with a cache or with trust anchors, a search in them finds the least
certificate, by canonical order, of all that are asked for. What is trusted is searched for among
the anchors, then among the verified certificates. -/
theorem searches_find_least :
    (∀ lifetime history now,
      Certificate.Thorough ((Cache.after lifetime history).refresh now).Holds
        (fun n => ((Cache.after lifetime history).find now n).1)
        fun i => ((Cache.after lifetime history).findInterest now i).1) ∧
      (∀ a, Anchors.Handled a → ∀ disk now,
        (∃ g ∈ a.groups, g.isDue now ∧ ¬ g.RenewableAt now) ∨
          ∃ a' find answer, Anchors.refresh disk now a = .ok () a' ∧
            (∀ n, (AnchorOperation.find n).run disk now a = .ok (.ok (find n)) a') ∧
            (∀ i, (AnchorOperation.findInterest i).run disk now a = .ok (.ok (answer i)) a') ∧
            Certificate.Thorough a'.Holds find answer) ∧
      ∀ (i : Interest) (w : World), ¬ w.storage.anchors.RenewableAt w.now ∨ ∃ found anchors w',
        Anchors.findInterest w.disk w.now i w.storage.anchors = .ok found anchors ∧
          World.findTrusted i w =
            .ok (found.or (w.storage.verified.findInterest w.clock.next.now i).1) w' := by
  refine ⟨Cache.thorough_after, fun a ha disk now => ?_, World.findTrusted_or⟩
  rcases Anchors.refresh_cases disk now a with ⟨a', hr, -⟩ | ⟨-, hstops⟩
  · refine .inr ⟨a', _, _, hr, fun n => ?_, fun i => ?_, ha.thorough hr⟩
    · exact Act.bind_of_ok (Act.bind_of_ok hr)
    · exact Act.bind_of_ok (Act.bind_of_ok hr)
  · exact .inl hstops

namespace Anchors

namespace Sample

def renewal : Certificate :=
  let c := certificate 8
  { c with data.name := name.push (.generic [4]) }

/-- A static group with two certificates; the one that came last stands first in canonical order. -/
def stocked : Anchors :=
  let late := ((AnchorOperation.insert "own" renewal).run (fun _ => {}) (.ofMillis 0)).left {}
  ((AnchorOperation.insert "own" (certificate 7)).run (fun _ => {}) (.ofMillis 0)).left late

theorem handled_stocked : Handled stocked := by
  have hlate := Handled.start.operate (fun _ => {}) (.ofMillis 0) (.insert "own" renewal)
  exact hlate.operate (fun _ => {}) (.ofMillis 0) (.insert "own" (certificate 7))

end Sample

/-- Two anchors begin with the name that is searched for, so the least of them is found. -/
theorem searches_find_least_stocked :
    Handled Sample.stocked ∧ ∃ a' c,
      (AnchorOperation.find Sample.name).run (fun _ => {}) (.ofMillis 0) Sample.stocked =
        .ok (.ok (some c)) a' ∧
      ∀ d, a'.Holds d → d.name.startsWith Sample.name → (Name.cmp c.name d.name).isLE := by
  have hdue : Sample.stocked.groups.all fun g => !g.isDue (.ofMillis 0) := by decide +kernel
  have hheld : ((refresh (fun _ => {}) (.ofMillis 0)).left Sample.stocked).index.entries.any
      fun e => e.2.certificate.name.startsWith Sample.name := by decide +kernel
  obtain ⟨-, hanchors, -⟩ := searches_find_least
  rcases hanchors Sample.stocked Sample.handled_stocked (fun _ => {}) (.ofMillis 0) with
    ⟨g, hg, hg', -⟩ | ⟨a', find, answer, hr, hfind, -, hthorough⟩
  · have hnot := List.all_eq_true.1 hdue g hg
    simp [hg'] at hnot
  · rw [Act.left_of_ok hr] at hheld
    obtain ⟨e, he, hname⟩ := List.any_eq_true.1 hheld
    have hleast := hthorough.byName Sample.name
    cases hc : find Sample.name with
    | none =>
      rw [hc] at hleast
      exact absurd ⟨⟨e, he, rfl⟩, hname⟩ (hleast e.2.certificate)
    | some c =>
      rw [hc] at hleast
      exact ⟨Sample.handled_stocked, a', c, hc ▸ hfind Sample.name,
        fun d hd hd' => hleast.2 d ⟨hd, hd'⟩⟩

end Anchors

end PacketTrust
