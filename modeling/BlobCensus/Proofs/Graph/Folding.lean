import Mathlib
import BlobCensus.Proofs.Graph.Draft

/-!
# Folding

What folding a draft comes to, in terms of the graph before it. A surviving record lists exactly
the names it reached. Of each strongly connected component that nobody outside reaches, the last
record survives, and no other record does. No name gets lost: what was listed is listed still, and a
record that went is listed by one that reached it. The first pass leaves a flat draft, so the second one
finds nothing to do.
-/
namespace BlobCensus

namespace Graph

variable {g : Graph} {x y z : String}

theorem get?_of_mem (unique : g.names.Nodup) {r : BlobRecord} (hr : r ∈ g.records) :
    g.get? r.name = some r := by
  obtain ⟨front, back, he⟩ := List.append_of_mem hr
  have hfront : ∀ q ∈ front, ¬ (q.name == r.name) = true := by
    intro q hq hn
    rw [names, he, List.map_append, List.map_cons] at unique
    have hdis := (List.nodup_append.mp unique).2.2
    exact hdis q.name (List.mem_map_of_mem hq) r.name (by simp) (by simpa using hn)
  rw [get?, he, List.find?_append, List.find?_eq_none.mpr hfront]
  simp

/-- Both names are one, or they reach each other. -/
def Linked (g : Graph) (x y : String) : Prop := x = y ∨ (g.Reaches x y ∧ g.Reaches y x)

/-- Whoever reaches `x` is in one strongly connected component with it. -/
def IsSource (g : Graph) (x : String) : Prop := ∀ y ∈ g.names, g.Reaches y x → g.Linked x y

/-- The names that some record lists. -/
def references (g : Graph) : Set String := {name | ∃ r ∈ g.records, name ∈ r.dependencies}

theorem mem_references_of_reaches (h : g.Reaches x y) : y ∈ g.references := by
  obtain ⟨z, -, r, hr, -, hmem⟩ := Relation.TransGen.tail'_iff.mp h
  exact ⟨r, hr, hmem⟩

theorem Linked.symm (h : g.Linked x y) : g.Linked y x :=
  h.elim (fun he => .inl he.symm) fun ⟨hxy, hyx⟩ => .inr ⟨hyx, hxy⟩

theorem Linked.trans (hxy : g.Linked x y) (hyz : g.Linked y z) : g.Linked x z := by
  rcases hxy with rfl | ⟨h1, h2⟩
  · exact hyz
  · rcases hyz with rfl | ⟨h3, h4⟩
    · exact .inr ⟨h1, h2⟩
    · exact .inr ⟨h1.trans h3, h4.trans h2⟩

theorem Linked.reaches (h : g.Linked x y) (hne : x ≠ y) : g.Reaches x y :=
  (h.resolve_left hne).1

theorem Linked.reaches_of_reaches (h : g.Linked x y) (hz : g.Reaches z y) : g.Reaches z x := by
  rcases h with rfl | ⟨_, hyx⟩
  · exact hz
  · exact Relation.TransGen.trans hz hyx

theorem IsTop.isSource (top : g.IsTop x) : g.IsSource x := by
  intro y hy h
  by_cases hne : y = x
  · exact .inl hne.symm
  · exact .inr ⟨(top y hy hne h).1, h⟩

/-- A record at the top is the last of its component. -/
theorem IsTop.last (top : g.IsTop x) (hy : y ∈ g.names) (h : g.Linked x y) (hne : y ≠ x) :
    g.names.idxOf y < g.names.idxOf x :=
  (top y hy hne (h.symm.reaches hne)).2

/-- The last record of a component that nobody outside reaches is at the top. -/
theorem isTop_of_last (source : g.IsSource x) (hz : g.Linked x z)
    (last : ∀ y ∈ g.names, g.Linked x y → g.names.idxOf y ≤ g.names.idxOf z) : g.IsTop z := by
  intro y hy hne h
  have hxy := source y hy (hz.reaches_of_reaches h)
  refine ⟨(hz.symm.trans hxy).reaches (Ne.symm hne), ?_⟩
  refine Nat.lt_of_le_of_ne (last y hy hxy) fun he => hne ?_
  exact (List.idxOf_inj hy).mp he

theorem exists_top_of_isSource (hx : x ∈ g.names) (source : g.IsSource x) :
    ∃ z ∈ g.names, g.Linked x z ∧ g.IsTop z := by
  classical
  have hne : (g.names.toFinset.filter (g.Linked x)).Nonempty :=
    ⟨x, by simp [hx, Linked]⟩
  obtain ⟨z, hz, hmax⟩ := Finset.exists_max_image _ (fun y => g.names.idxOf y) hne
  simp only [Finset.mem_filter, List.mem_toFinset] at hz hmax
  exact ⟨z, hz.1, hz.2, isTop_of_last source hz.2 fun y hy h => hmax y ⟨hy, h⟩⟩

namespace Draft

/-- At the end of a pass a record that counts lists all that it reaches. -/
theorem Pass.mem_of_reaches {slots : List Slot} (p : Pass g g.records.length slots)
    (unique : g.names.Nodup) {i : ℕ} {s : Slot} (hs : slots[i]? = some s)
    (live : s.removed = false) {name : String} (h : g.Reaches s.record.name name) :
    name ∈ s.record.dependencies := by
  induction h with
  | single hl => exact p.mem_of_lists unique hs hl
  | @tail b name _ hb ih =>
    obtain ⟨j, t, ht, rfl, hd⟩ := p.exists_of_lists hb
    have hj : j < g.records.length := p.length ▸ (List.getElem?_eq_some_iff.mp ht).1
    by_cases hij : i = j
    · subst hij
      obtain rfl := Option.some.inj (hs.symm.trans ht)
      exact hd
    · have hgone : t.removed = true := by
        by_contra hl
        exact p.settled i j s t hs ht live (by simpa using hl) hj hij ih
      exact p.hoisted i j s t hs ht live hgone ih hd

theorem mem_names_survivors (unique : g.names.Nodup) :
    x ∈ (survivors (foldPass g.records)).map BlobRecord.name ↔ x ∈ g.names ∧ g.IsTop x := by
  have p := pass_foldPass g unique
  have hlt : ∀ {i : ℕ} {s : Slot}, (foldPass g.records)[i]? = some s → i < g.records.length :=
    fun hs => p.length ▸ (List.getElem?_eq_some_iff.mp hs).1
  rw [List.mem_map]
  constructor
  · rintro ⟨r, hr, rfl⟩
    obtain ⟨i, s, hs, live, rfl⟩ := mem_survivors.mp hr
    exact ⟨List.mem_of_getElem? (p.names_getElem? hs), (p.fate i s hs (hlt hs)).mp live⟩
  · rintro ⟨hx, top⟩
    rw [← p.slots_names, List.mem_map] at hx
    obtain ⟨s, hmem, rfl⟩ := hx
    obtain ⟨i, hs⟩ := List.mem_iff_getElem?.mp hmem
    exact ⟨s.record, mem_survivors.mpr ⟨i, s, hs, (p.fate i s hs (hlt hs)).mpr top, rfl⟩, rfl⟩

/-- What a record lists, removed or not, a record that counts lists. -/
theorem Pass.exists_live_of_mem {k : ℕ} {slots : List Slot} (p : Pass g k slots) {i : ℕ} {s : Slot}
    (hs : slots[i]? = some s) {name : String} (h : name ∈ s.record.dependencies) :
    ∃ (j : ℕ) (t : Slot), slots[j]? = some t ∧ t.removed = false ∧
      name ∈ t.record.dependencies := by
  cases hr : s.removed with
  | false => exact ⟨i, s, hs, hr, h⟩
  | true =>
    obtain ⟨j, t, ht, live, hmem⟩ := p.held i s hs hr
    exact ⟨j, t, ht, live, p.hoisted j i t s ht hs live hr hmem h⟩

theorem references_survivors (unique : g.names.Nodup) :
    references ⟨survivors (foldPass g.records)⟩ = g.references := by
  have p := pass_foldPass g unique
  ext name
  constructor
  · rintro ⟨r, hr, hname⟩
    obtain ⟨i, s, hs, -, rfl⟩ := mem_survivors.mp hr
    exact mem_references_of_reaches (p.sound i s hs name hname)
  · rintro ⟨r, hr, hname⟩
    obtain ⟨i, s, hs, -, hmem⟩ := p.exists_of_lists ⟨r, hr, rfl, hname⟩
    obtain ⟨j, t, ht, live, hlisted⟩ := p.exists_live_of_mem hs hmem
    exact ⟨t.record, mem_survivors.mpr ⟨j, t, ht, live, rfl⟩, hlisted⟩

/-- Who does not survive a pass is listed by a survivor that reached it. -/
theorem exists_survivor_of_mem_names (unique : g.names.Nodup) (hx : x ∈ g.names) :
    x ∈ (survivors (foldPass g.records)).map BlobRecord.name ∨
      ∃ r ∈ survivors (foldPass g.records), x ∈ r.dependencies ∧ g.Reaches r.name x := by
  have p := pass_foldPass g unique
  rw [← p.slots_names, List.mem_map] at hx
  obtain ⟨s, hmem, rfl⟩ := hx
  obtain ⟨i, hs⟩ := List.mem_iff_getElem?.mp hmem
  cases hr : s.removed with
  | false =>
    left
    exact List.mem_map.mpr ⟨s.record, mem_survivors.mpr ⟨i, s, hs, hr, rfl⟩, rfl⟩
  | true =>
    right
    obtain ⟨j, t, ht, live, hlisted⟩ := p.held i s hs hr
    exact ⟨t.record, mem_survivors.mpr ⟨j, t, ht, live, rfl⟩, hlisted, p.sound j t ht _ hlisted⟩

/-- Two blobs that need each other, with a third one that the later of them needs. -/
def cyclicDraft : Draft :=
  ofBlobs [⟨⟨[]⟩, "liba.so", .bits64, ["libb.so"]⟩,
    ⟨⟨[]⟩, "libb.so", .bits64, ["liba.so", "libc.so"]⟩, ⟨⟨[]⟩, "libc.so", .bits32, ["libd.so"]⟩]

theorem reachable_cyclicDraft : cyclicDraft.Reachable := reachable_ofBlobs _

/-- A record that survives folding lists exactly the names that it reached before. Its old list
stands first, nothing is appended twice, and its architectures are the old ones. -/
theorem fold_dependencies {d : Draft} (h : d.Reachable) {new : BlobRecord}
    (hnew : new ∈ d.fold.2.toGraph.records) :
    ∃ old, d.toGraph.get? new.name = some old ∧
      (∀ name, name ∈ new.dependencies ↔ d.toGraph.Reaches new.name name) ∧
      old.dependencies <+: new.dependencies ∧
      (∀ i (hi : i < new.dependencies.length), old.dependencies.length ≤ i →
        new.dependencies[i] ∉ new.dependencies.take i) ∧
      new.widths = old.widths := by
  have unique := h.indexed.nodup
  have p := pass_foldPass d.toGraph unique
  rw [toGraph, (fold_eq unique).2] at hnew
  obtain ⟨i, s, hs, live, rfl⟩ := mem_survivors.mp hnew
  obtain ⟨old, hold, hg⟩ := p.record hs
  refine ⟨old, ?_, fun name => ?_, hg.dependencies.isPrefix, ?_, hg.widths⟩
  · rw [hg.name]
    exact get?_of_mem unique (List.mem_of_getElem? hold)
  · exact ⟨p.sound i s hs name, p.mem_of_reaches unique hs live⟩
  · exact fun i hi hle => hg.dependencies.notMem_take hle hi

/-- The record that is left of a cycle lists itself. -/
theorem fold_dependencies_cyclic :
    cyclicDraft.Reachable ∧
      ⟨"libb.so", ["liba.so", "libc.so", "libb.so", "libd.so"], { has64 := true }⟩ ∈
        cyclicDraft.fold.2.toGraph.records ∧
      cyclicDraft.toGraph.Reaches "libb.so" "libb.so" ∧
      ¬ cyclicDraft.toGraph.Reaches "libb.so" "libe.so" := by
  have hnew : ⟨"libb.so", ["liba.so", "libc.so", "libb.so", "libd.so"], { has64 := true }⟩ ∈
      cyclicDraft.fold.2.toGraph.records := by
    have he : cyclicDraft.fold.2.toGraph.records =
      [⟨"libb.so", ["liba.so", "libc.so", "libb.so", "libd.so"], { has64 := true }⟩] := by cbv
    simp [he]
  obtain ⟨_, -, hmem, -⟩ := fold_dependencies reachable_cyclicDraft hnew
  exact ⟨reachable_cyclicDraft, hnew, (hmem _).mp (by simp), fun h => by simpa using (hmem _).mpr h⟩

section Folded

variable {d : Draft}

theorem names_fold (unique : d.toGraph.names.Nodup) : d.fold.2.toGraph.names =
    (survivors (foldPass d.toGraph.records)).map BlobRecord.name := by
  rw [toGraph, names, (fold_eq unique).2]
  rfl

theorem mem_names_fold (unique : d.toGraph.names.Nodup) :
    x ∈ d.fold.2.toGraph.names ↔ x ∈ d.toGraph.names ∧ d.toGraph.IsTop x := by
  rw [names_fold unique]
  exact mem_names_survivors unique

theorem existsUnique_linked_fold (unique : d.toGraph.names.Nodup) (hx : x ∈ d.toGraph.names)
    (source : d.toGraph.IsSource x) : ∃! z, z ∈ d.fold.2.toGraph.names ∧ d.toGraph.Linked x z := by
  obtain ⟨z, hz, hlink, top⟩ := exists_top_of_isSource hx source
  refine ⟨z, ⟨(mem_names_fold unique).mpr ⟨hz, top⟩, hlink⟩, ?_⟩
  rintro w ⟨hw, hxw⟩
  obtain ⟨hwn, wtop⟩ := (mem_names_fold unique).mp hw
  by_contra hne
  have h1 := top.last hwn (hlink.symm.trans hxw) hne
  have h2 := wtop.last hz (hxw.symm.trans hlink) (Ne.symm hne)
  omega

theorem fold_add_size (unique : d.toGraph.names.Nodup) :
    d.fold.1 + d.fold.2.toGraph.size = d.toGraph.size := by
  have hlength := (pass_foldPass d.toGraph unique).length
  have hsize : d.fold.2.toGraph.size = (survivors (foldPass d.toGraph.records)).length := by
    rw [size, toGraph, (fold_eq unique).2]
    rfl
  rw [(fold_eq unique).1, hsize, size, ← hlength]
  exact survivors_length_add (foldPass d.toGraph.records)

end Folded

/-- Who survives folding: the records that are reached only by earlier ones which they reach
themselves. So one record is left of each component that nobody outside reaches, the last one, and
nothing else is left. The order stays, and the count is right. -/
theorem fold_survivors {d : Draft} (h : d.Reachable) :
    (∀ x, x ∈ d.fold.2.toGraph.names ↔ x ∈ d.toGraph.names ∧
      ∀ y ∈ d.toGraph.names, y ≠ x → d.toGraph.Reaches y x →
        d.toGraph.Reaches x y ∧ d.toGraph.names.idxOf y < d.toGraph.names.idxOf x) ∧
    (∀ x ∈ d.toGraph.names, d.toGraph.IsSource x →
      ∃! z, z ∈ d.fold.2.toGraph.names ∧ d.toGraph.Linked x z) ∧
    (∀ z ∈ d.fold.2.toGraph.names, d.toGraph.IsSource z ∧
      ∀ y ∈ d.toGraph.names, d.toGraph.Linked z y → y ≠ z →
        d.toGraph.names.idxOf y < d.toGraph.names.idxOf z) ∧
    d.fold.2.toGraph.names.Sublist d.toGraph.names ∧
    d.fold.1 + d.fold.2.toGraph.size = d.toGraph.size := by
  have unique := h.indexed.nodup
  refine ⟨fun x => mem_names_fold unique, fun x hx source => existsUnique_linked_fold unique hx source,
    fun z hz => ?_, ?_, fold_add_size unique⟩
  · obtain ⟨hzn, top⟩ := (mem_names_fold unique).mp hz
    exact ⟨top.isSource, fun y hy hlink hne => top.last hy hlink hne⟩
  · rw [names_fold unique]
    exact survivors_names_sublist unique

/-- The later blob of the cycle survives, and with it nothing else. -/
theorem fold_survivors_cyclic :
    cyclicDraft.Reachable ∧ cyclicDraft.fold.2.toGraph.names = ["libb.so"] ∧ cyclicDraft.fold.1 = 2 ∧
      cyclicDraft.toGraph.IsSource "libb.so" ∧ ¬ cyclicDraft.toGraph.IsTop "liba.so" := by
  have hnames : cyclicDraft.fold.2.toGraph.names = ["libb.so"] := by cbv
  have hbefore : cyclicDraft.toGraph.names = ["liba.so", "libb.so", "libc.so"] := by cbv
  obtain ⟨survives, -, last, -⟩ := fold_survivors reachable_cyclicDraft
  refine ⟨reachable_cyclicDraft, hnames, by cbv, (last _ (by simp [hnames])).1, fun top => ?_⟩
  have hmem := (survives "liba.so").mpr ⟨by simp [hbefore], top⟩
  simp [hnames] at hmem

/-- Folding neither loses nor invents a name: the same names are listed after it as before. A record
that went is listed by a survivor that reached it. -/
theorem fold_references {d : Draft} (h : d.Reachable) :
    d.fold.2.toGraph.references = d.toGraph.references ∧
    ∀ x ∈ d.toGraph.names, x ∈ d.fold.2.toGraph.names ∨
      ∃ r ∈ d.fold.2.toGraph.records, x ∈ r.dependencies ∧ d.toGraph.Reaches r.name x := by
  have unique := h.indexed.nodup
  have hrecords : d.fold.2.toGraph.records = survivors (foldPass d.toGraph.records) :=
    (fold_eq unique).2
  constructor
  · rw [← references_survivors unique, ← hrecords]
  · intro x hx
    rw [names, hrecords]
    exact exists_survivor_of_mem_names unique hx

theorem fold_references_cyclic :
    cyclicDraft.Reachable ∧ "libd.so" ∈ cyclicDraft.fold.2.toGraph.references ∧
      "libe.so" ∉ cyclicDraft.fold.2.toGraph.references ∧
      cyclicDraft.toGraph.Reaches "libb.so" "libc.so" := by
  have hbefore : cyclicDraft.toGraph.records = [⟨"liba.so", ["libb.so"], { has64 := true }⟩,
      ⟨"libb.so", ["liba.so", "libc.so"], { has64 := true }⟩,
      ⟨"libc.so", ["libd.so"], { has32 := true }⟩] := by cbv
  have hafter : cyclicDraft.fold.2.toGraph.records =
      [⟨"libb.so", ["liba.so", "libc.so", "libb.so", "libd.so"], { has64 := true }⟩] := by cbv
  obtain ⟨same, kept⟩ := fold_references reachable_cyclicDraft
  refine ⟨reachable_cyclicDraft, ?_, ?_, ?_⟩
  · rw [same]
    simp [references, hbefore]
  · rw [same]
    simp [references, hbefore]
  · have hc := kept "libc.so" (by simp [names, hbefore])
    simpa [names, hafter] using hc

/-- Passes that begin at `records` and leave `final`. The list tells how many records each of them
removes; the first that removes none is the last. -/
inductive Passes : List BlobRecord → List ℕ → List BlobRecord → Prop
  | last {records : List BlobRecord} (idle : (foldPass records).countP Slot.removed = 0) :
      Passes records [0] (survivors (foldPass records))
  | next {records final : List BlobRecord} {gone : List ℕ}
      (busy : (foldPass records).countP Slot.removed ≠ 0)
      (rest : Passes (survivors (foldPass records)) gone final) :
      Passes records ((foldPass records).countP Slot.removed :: gone) final

variable {records left right : List BlobRecord} {gone more : List ℕ}

theorem Passes.unique (h : Passes records gone left) (h' : Passes records more right) :
    gone = more ∧ left = right := by
  induction h generalizing more right with
  | last idle =>
    cases h' with
    | last => exact ⟨rfl, rfl⟩
    | next busy => exact absurd idle busy
  | next busy _ ih =>
    cases h' with
    | last idle => exact absurd idle busy
    | next _ rest =>
      obtain ⟨rfl, rfl⟩ := ih rest
      exact ⟨rfl, rfl⟩

theorem passes_of_isFlat (unique : g.names.Nodup) (flat : g.IsFlat) :
    Passes g.records [0] g.records := by
  have idle := countP_removed_of_isFlat unique flat
  have h := Passes.last idle
  rwa [survivors_of_countP_eq_zero unique idle] at h

/-- One pass does all the work: a second one, if there is any, removes nothing. -/
theorem passes_foldPass (unique : g.names.Nodup) :
    ∃ gone, Passes g.records gone (survivors (foldPass g.records)) ∧
      gone.sum = (foldPass g.records).countP Slot.removed ∧
      (gone = [0] ∨ ∃ n, n ≠ 0 ∧ gone = [n, 0]) := by
  by_cases idle : (foldPass g.records).countP Slot.removed = 0
  · exact ⟨[0], .last idle, by simp [idle], .inl rfl⟩
  · -- What the first pass leaves is flat, and on a flat graph a pass is idle.
    have hrest : Passes (survivors (foldPass g.records)) [0] (survivors (foldPass g.records)) :=
      passes_of_isFlat (g := ⟨survivors (foldPass g.records)⟩)
        ((survivors_names_sublist unique).nodup unique) (isFlat_survivors unique)
    exact ⟨_, .next idle hrest, by simp, .inr ⟨_, idle, rfl⟩⟩

theorem fold_of_isFlat {d : Draft} (unique : d.toGraph.names.Nodup) (flat : d.toGraph.IsFlat) :
    d.fold = (0, d) := by
  have h : foldPasses d.records.size d.records.toList = (0, d.records.toList) :=
    foldPasses_of_isFlat unique flat d.records.size
  simp [fold, h]

/-- Folding comes to an end after one pass that removes something, or none: there is exactly one way
the passes can go, and a second pass removes nothing and alters no record. Then no record lists
another one, and folding again does nothing. -/
theorem fold_passes {d : Draft} (h : d.Reachable) :
    (∃ gone, (∀ more final, Passes d.toGraph.records more final ↔
        more = gone ∧ final = d.fold.2.toGraph.records) ∧
      d.fold.1 = gone.sum ∧ (gone = [0] ∨ ∃ n, n ≠ 0 ∧ gone = [n, 0])) ∧
    foldPass d.fold.2.toGraph.records = d.fold.2.toGraph.records.map (fun r => { record := r }) ∧
    (∀ a ∈ d.fold.2.toGraph.records, ∀ b ∈ d.fold.2.toGraph.records,
      a.name ≠ b.name → b.name ∉ a.dependencies) ∧
    d.fold.2.fold = (0, d.fold.2) ∧
    d.fold.2.build = d.fold.2.toGraph := by
  have unique := h.indexed.nodup
  have hunique := h.fold.indexed.nodup
  have hrecords : d.fold.2.toGraph.records = survivors (foldPass d.toGraph.records) :=
    (fold_eq unique).2
  have flat : d.fold.2.toGraph.IsFlat := by
    have hflat := isFlat_survivors unique
    rwa [← hrecords] at hflat
  have again := fold_of_isFlat hunique flat
  refine ⟨?_, foldPass_of_isFlat hunique flat, flat, again, ?_⟩
  · obtain ⟨gone, hpasses, hsum, hshape⟩ := passes_foldPass unique
    rw [← hrecords] at hpasses
    refine ⟨gone, fun more final => ⟨fun hmore => hmore.unique hpasses, ?_⟩, ?_, hshape⟩
    · rintro ⟨rfl, rfl⟩
      exact hpasses
    · rw [(fold_eq unique).1, hsum]
      rfl
  · rw [build, again]

theorem fold_passes_cyclic :
    cyclicDraft.Reachable ∧ Passes cyclicDraft.toGraph.records [2, 0] cyclicDraft.fold.2.toGraph.records ∧
      cyclicDraft.fold.2.fold.1 = 0 := by
  obtain ⟨⟨gone, hpasses, hsum, hshape⟩, -, -, again, -⟩ := fold_passes reachable_cyclicDraft
  have htwo : cyclicDraft.fold.1 = 2 := by cbv
  have hgone : gone = [2, 0] := by
    rcases hshape with rfl | ⟨n, -, rfl⟩
    · simp [htwo] at hsum
    · simpa [htwo] using hsum.symm
  subst hgone
  exact ⟨reachable_cyclicDraft, (hpasses _ _).mpr ⟨rfl, rfl⟩, by rw [again]⟩

end Draft

end Graph

end BlobCensus
