import BlobCensus.Proofs.Graph.Invariants

/-!
# Blobs in any order

The order in which blobs are added shows in the order of names and of dependencies, and in nothing
else: a record gathers what all the blobs of its name tell. Folding keeps of the blobs that need each
other the one that came last, so the records it leaves may differ, but their number and what they
list together do not. Where none need each other nothing differs.
-/
namespace BlobCensus.Graph

/-- Both graphs tell the same of the same names, in whatever order. -/
structure Alike (g h : Graph) : Prop where
  names : g.names.Perm h.names
  records : ∀ r ∈ g.records, ∀ q ∈ h.records, r.name = q.name →
    (∀ name, name ∈ r.dependencies ↔ name ∈ q.dependencies) ∧ r.widths = q.widths

def IsLoopless (g : Graph) : Prop :=
  ∀ x ∈ g.names, ∀ y ∈ g.names, x ≠ y → g.Reaches x y → ¬ g.Reaches y x

variable {g h : Graph} {x y : String}

namespace Alike

theorem symm (alike : g.Alike h) : h.Alike g := by
  refine ⟨alike.names.symm, fun q hq r hr hname => ?_⟩
  obtain ⟨hdependencies, hwidths⟩ := alike.records r hr q hq hname.symm
  exact ⟨fun name => (hdependencies name).symm, hwidths.symm⟩

theorem lists (alike : g.Alike h) (lists : g.Lists x y) : h.Lists x y := by
  obtain ⟨r, hr, rfl, hy⟩ := lists
  have hname : r.name ∈ h.names := alike.names.subset (List.mem_map_of_mem hr)
  obtain ⟨q, hq, hqname⟩ := List.mem_map.mp hname
  have hsame := (alike.records r hr q hq hqname.symm).1
  exact ⟨q, hq, hqname, (hsame y).mp hy⟩

theorem reaches_eq (alike : g.Alike h) : g.Reaches = h.Reaches := by
  have hlists : g.Lists = h.Lists := by
    funext x y
    exact propext ⟨alike.lists, alike.symm.lists⟩
  rw [Reaches, Reaches, hlists]

theorem linked_iff (alike : g.Alike h) : g.Linked x y ↔ h.Linked x y := by
  rw [Linked, Linked, alike.reaches_eq]

theorem isSource (alike : g.Alike h) (source : g.IsSource x) : h.IsSource x := by
  intro y hy hreaches
  rw [← alike.reaches_eq] at hreaches
  exact alike.linked_iff.mp (source y (alike.names.mem_iff.mpr hy) hreaches)

theorem references_eq (alike : g.Alike h) : g.references = h.references := by
  ext name
  constructor
  · intro hname
    obtain ⟨r, hr, hmem⟩ := hname
    obtain ⟨q, hq, -, hq'⟩ := alike.lists ⟨r, hr, rfl, hmem⟩
    exact ⟨q, hq, hq'⟩
  · intro hname
    obtain ⟨q, hq, hmem⟩ := hname
    obtain ⟨r, hr, -, hr'⟩ := alike.symm.lists ⟨q, hq, rfl, hmem⟩
    exact ⟨r, hr, hr'⟩

end Alike

/-- A component has one record at the top. -/
theorem IsTop.eq_of_linked (top : g.IsTop x) (other : g.IsTop y) (hx : x ∈ g.names)
    (hy : y ∈ g.names) (linked : g.Linked x y) : x = y := by
  by_contra hne
  have h1 := top.last hy linked (Ne.symm hne)
  have h2 := other.last hx linked.symm hne
  omega

/-- Where no two records reach each other the order of names does not decide who is at the top. -/
theorem IsTop.of_alike (top : g.IsTop x) (alike : g.Alike h) (loopless : g.IsLoopless)
    (hx : x ∈ g.names) : h.IsTop x := by
  intro y hy hne hreaches
  rw [← alike.reaches_eq] at hreaches
  have hyg : y ∈ g.names := alike.names.mem_iff.mpr hy
  exact absurd (top y hyg hne hreaches).1 (loopless y hyg x hx hne hreaches)

namespace Draft

theorem nodup_names_survivors (unique : g.names.Nodup) :
    ((survivors (foldPass g.records)).map BlobRecord.name).Nodup :=
  (survivors_names_sublist unique).nodup unique

theorem exists_old_of_mem_survivors (unique : g.names.Nodup) {new : BlobRecord}
    (hnew : new ∈ survivors (foldPass g.records)) :
    ∃ old ∈ g.records, new.name = old.name ∧ new.widths = old.widths ∧
      ∀ name, name ∈ new.dependencies ↔ g.Reaches new.name name := by
  have pass := pass_foldPass g unique
  obtain ⟨i, s, hs, live, rfl⟩ := mem_survivors.mp hnew
  obtain ⟨old, hold, hgrown⟩ := pass.record hs
  refine ⟨old, List.mem_of_getElem? hold, hgrown.name, hgrown.widths, fun name => ?_⟩
  exact ⟨pass.sound i s hs name, pass.mem_of_reaches unique hs live⟩

section Alike

variable (alike : g.Alike h) (unique : g.names.Nodup)
include alike unique

/-- Each survivor is linked to one of the other graph, and no two of them to the same. -/
theorem length_survivors_le :
    (survivors (foldPass g.records)).length ≤ (survivors (foldPass h.records)).length := by
  classical
  have huniqueh : h.names.Nodup := alike.names.nodup_iff.mp unique
  have hcard := Finset.card_le_card_of_forall_subsingleton h.Linked
    (s := ((survivors (foldPass g.records)).map BlobRecord.name).toFinset)
    (t := ((survivors (foldPass h.records)).map BlobRecord.name).toFinset) ?_ ?_
  · rwa [List.toFinset_card_of_nodup (nodup_names_survivors unique),
      List.toFinset_card_of_nodup (nodup_names_survivors huniqueh), List.length_map,
      List.length_map] at hcard
  · intro x hx
    rw [List.mem_toFinset, mem_names_survivors unique] at hx
    obtain ⟨hname, top⟩ := hx
    obtain ⟨z, hz, linked, ztop⟩ :=
      exists_top_of_isSource (alike.names.subset hname) (alike.isSource top.isSource)
    exact ⟨z, List.mem_toFinset.mpr ((mem_names_survivors huniqueh).mpr ⟨hz, ztop⟩), linked⟩
  · intro z _ x hx y hy
    obtain ⟨hx, hxz⟩ := hx
    obtain ⟨hy, hyz⟩ := hy
    rw [List.mem_toFinset, mem_names_survivors unique] at hx hy
    have linked := alike.linked_iff.mpr (hxz.trans hyz.symm)
    exact hx.2.eq_of_linked hy.2 hx.1 hy.1 linked

theorem survivors_subset (loopless : g.IsLoopless) :
    (survivors (foldPass g.records)).map BlobRecord.name ⊆
      (survivors (foldPass h.records)).map BlobRecord.name := by
  intro x hx
  rw [mem_names_survivors unique] at hx
  rw [mem_names_survivors (alike.names.nodup_iff.mp unique)]
  exact ⟨alike.names.subset hx.1, hx.2.of_alike alike loopless hx.1⟩

theorem alike_survivors (loopless : g.IsLoopless) :
    Alike ⟨survivors (foldPass g.records)⟩ ⟨survivors (foldPass h.records)⟩ := by
  have huniqueh : h.names.Nodup := alike.names.nodup_iff.mp unique
  have hloopless : h.IsLoopless := by
    intro x hx y hy
    rw [← alike.reaches_eq]
    exact loopless x (alike.names.mem_iff.mpr hx) y (alike.names.mem_iff.mpr hy)
  constructor
  · apply (List.perm_ext_iff_of_nodup (nodup_names_survivors unique)
      (nodup_names_survivors huniqueh)).mpr
    intro x
    constructor
    · intro hx
      exact survivors_subset alike unique loopless hx
    · intro hx
      exact survivors_subset alike.symm huniqueh hloopless hx
  · intro r hr q hq hname
    obtain ⟨old, hold, holdname, hwidths, hreaches⟩ := exists_old_of_mem_survivors unique hr
    obtain ⟨old', hold', holdname', hwidths', hreaches'⟩ :=
      exists_old_of_mem_survivors huniqueh hq
    constructor
    · intro name
      rw [hreaches, hreaches', hname, alike.reaches_eq]
    · rw [hwidths, hwidths']
      exact (alike.records old hold old' hold' (by rw [← holdname, ← holdname', hname])).2

end Alike

/-- The record has all that the blobs of its name tell, and nothing else. -/
structure Gathers (blobs : List Blob) (r : BlobRecord) : Prop where
  dependencies : ∀ name, name ∈ r.dependencies ↔
    ∃ b ∈ blobs, b.isKnown = true ∧ b.name = r.name ∧ name ∈ b.dependencies
  widths : ∀ a, r.widths.contains a = true ↔
    ∃ b ∈ blobs, b.isKnown = true ∧ b.name = r.name ∧ b.architecture = a

section Gathers

variable {blobs : List Blob} {b : Blob} {r : BlobRecord}

theorem Gathers.skip (gathers : Gathers blobs r) (hb : b.isKnown = true → b.name ≠ r.name) :
    Gathers (blobs ++ [b]) r := by
  constructor
  · intro name
    rw [exists_mem_concat, or_iff_left fun hc => hb hc.1 hc.2.1]
    exact gathers.dependencies name
  · intro a
    rw [exists_mem_concat, or_iff_left fun hc => hb hc.1 hc.2.1]
    exact gathers.widths a

theorem Gathers.take (gathers : Gathers blobs r) (known : b.isKnown = true)
    (hname : b.name = r.name) :
    Gathers (blobs ++ [b]) { r with
      dependencies := union r.dependencies b.dependencies
      widths := r.widths.insert b.architecture } := by
  constructor
  · intro name
    rw [mem_union, gathers.dependencies, exists_mem_concat, and_iff_right known,
      and_iff_right hname]
  · intro a
    rw [Widths.contains_insert, gathers.widths, exists_mem_concat, and_iff_right known,
      and_iff_right hname, eq_comm]

theorem Gathers.first (known : b.isKnown = true)
    (fresh : ∀ c ∈ blobs, c.isKnown = true → c.name ≠ b.name) :
    Gathers (blobs ++ [b]) ⟨b.name, b.dependencies, Widths.insert {} b.architecture⟩ := by
  have hnone : ∀ {p : Blob → Prop}, ¬ ∃ c ∈ blobs, c.isKnown = true ∧ c.name = b.name ∧ p c := by
    intro p hc
    obtain ⟨c, hc, hknown, hname, -⟩ := hc
    exact fresh c hc hknown hname
  constructor
  · intro name
    rw [exists_mem_concat, or_iff_right hnone, and_iff_right known, and_iff_right rfl]
  · intro a
    rw [Widths.contains_insert, or_iff_right (Widths.not_contains_empty a), exists_mem_concat,
      or_iff_right hnone, and_iff_right known, and_iff_right rfl, eq_comm]

theorem mem_names_ofBlobs (blobs : List Blob) (x : String) :
    x ∈ (ofBlobs blobs).toGraph.names ↔ ∃ b ∈ blobs, b.isKnown = true ∧ b.name = x := by
  induction blobs using List.reverseRecOn with
  | nil => simp [ofBlobs, toGraph, names]
  | append_singleton blobs b ih =>
    rw [ofBlobs_append, mem_names_add (reachable_ofBlobs blobs).indexed, ih, exists_mem_concat]

theorem gathers_ofBlobs (blobs : List Blob) : ∀ r ∈ (ofBlobs blobs).toGraph.records, Gathers blobs r := by
  induction blobs using List.reverseRecOn with
  | nil => simp [ofBlobs, toGraph]
  | append_singleton blobs b ih =>
    rw [ofBlobs_append]
    rcases add_cases (reachable_ofBlobs blobs).indexed b with
      ⟨unknown, hadd⟩ | ⟨known, -, -, hadd⟩ | ⟨known, hname, -, hadd⟩
    · rw [hadd]
      intro r hr
      exact (ih r hr).skip (by simp [unknown])
    · rw [hadd]
      intro q hq
      obtain ⟨r, hr, rfl⟩ := List.mem_map.mp hq
      split
      · rename_i hsame
        exact (ih r hr).take known hsame.symm
      · rename_i hother
        exact (ih r hr).skip fun _ hsame => hother hsame.symm
    · rw [hadd]
      intro r hr
      rcases List.mem_append.mp hr with hr | hr
      · apply (ih r hr).skip
        intro _ hsame
        exact hname (hsame ▸ List.mem_map_of_mem hr)
      · rw [List.mem_singleton.mp hr]
        apply Gathers.first known
        intro c hc hknown hsame
        exact hname ((mem_names_ofBlobs blobs b.name).mpr ⟨c, hc, hknown, hsame⟩)

end Gathers

theorem alike_ofBlobs {blobs other : List Blob} (same : blobs.Perm other) :
    (ofBlobs blobs).toGraph.Alike (ofBlobs other).toGraph := by
  have hrecords := gathers_ofBlobs blobs
  have hrecords' := gathers_ofBlobs other
  constructor
  · apply (List.perm_ext_iff_of_nodup (reachable_ofBlobs blobs).indexed.nodup
      (reachable_ofBlobs other).indexed.nodup).mpr
    intro x
    rw [mem_names_ofBlobs, mem_names_ofBlobs]
    simp only [same.mem_iff]
  · intro r hr q hq hname
    constructor
    · intro name
      rw [(hrecords r hr).dependencies, (hrecords' q hq).dependencies, hname]
      simp only [same.mem_iff]
    · have hcontains : ∀ a, r.widths.contains a = q.widths.contains a := by
        intro a
        rw [Bool.eq_iff_iff, (hrecords r hr).widths, (hrecords' q hq).widths, hname]
        simp only [same.mem_iff]
      exact Widths.ext_contains hcontains

theorem build_eq {d : Draft} (unique : d.toGraph.names.Nodup) :
    d.build = ⟨survivors (foldPass d.toGraph.records)⟩ :=
  congrArg Graph.mk (fold_eq unique).2

/-- Blobs may be added in any order: each name gets the union of what its blobs of known architecture
tell. Folding then leaves as many records, which list the same names together; and if no two records
reach each other, it leaves the same records. -/
theorem ofBlobs_any_order {blobs other : List Blob} (same : blobs.Perm other) :
    (ofBlobs blobs).toGraph.Alike (ofBlobs other).toGraph ∧
    (∀ x, x ∈ (ofBlobs blobs).toGraph.names ↔ ∃ b ∈ blobs, b.isKnown = true ∧ b.name = x) ∧
    (∀ r ∈ (ofBlobs blobs).toGraph.records, Gathers blobs r) ∧
    (ofBlobs blobs).build.size = (ofBlobs other).build.size ∧
    (ofBlobs blobs).build.references = (ofBlobs other).build.references ∧
    ((ofBlobs blobs).toGraph.IsLoopless → (ofBlobs blobs).build.Alike (ofBlobs other).build) := by
  have alike := alike_ofBlobs same
  have unique := (reachable_ofBlobs blobs).indexed.nodup
  have unique' := (reachable_ofBlobs other).indexed.nodup
  rw [build_eq unique, build_eq unique']
  refine ⟨alike, mem_names_ofBlobs blobs, gathers_ofBlobs blobs, ?_, ?_, alike_survivors alike unique⟩
  · apply Nat.le_antisymm
    · exact length_survivors_le alike unique
    · exact length_survivors_le alike.symm unique'
  · rw [references_survivors unique, references_survivors unique', alike.references_eq]

/-- A library in two architectures that refer to different libraries, a blob that needs it, and a file
of unknown architecture. -/
def twoWidthsBlobs : List Blob :=
  [⟨⟨[]⟩, "libx.so", .bits32, ["liba.so"]⟩, ⟨⟨[]⟩, "liby.so", .bits64, ["libx.so"]⟩,
    ⟨⟨[]⟩, "libx.so", .bits64, ["libb.so"]⟩, ⟨⟨[]⟩, "libz.so", .unknown, ["libx.so"]⟩]

/-- The other way round the blobs give the same record, with its dependencies in another order. -/
theorem ofBlobs_any_order_two_widths :
    twoWidthsBlobs.Perm twoWidthsBlobs.reverse ∧ (ofBlobs twoWidthsBlobs).toGraph.IsLoopless ∧
    (ofBlobs twoWidthsBlobs).build.Alike (ofBlobs twoWidthsBlobs.reverse).build ∧
    (ofBlobs twoWidthsBlobs.reverse).build.size = 1 ∧
    (ofBlobs twoWidthsBlobs).build ≠ (ofBlobs twoWidthsBlobs.reverse).build := by
  have hperm : twoWidthsBlobs.Perm twoWidthsBlobs.reverse := twoWidthsBlobs.reverse_perm.symm
  have hrecords : (ofBlobs twoWidthsBlobs).toGraph.records =
      [⟨"libx.so", ["liba.so", "libb.so"], { has32 := true, has64 := true }⟩,
        ⟨"liby.so", ["libx.so"], { has64 := true }⟩] := by cbv
  have hbuild : (ofBlobs twoWidthsBlobs).build =
      ⟨[⟨"liby.so", ["libx.so", "liba.so", "libb.so"], { has64 := true }⟩]⟩ := by cbv
  have hother : (ofBlobs twoWidthsBlobs.reverse).build =
      ⟨[⟨"liby.so", ["libx.so", "libb.so", "liba.so"], { has64 := true }⟩]⟩ := by cbv
  have hloopless : (ofBlobs twoWidthsBlobs).toGraph.IsLoopless := by
    have hnobody : "liby.so" ∉ (ofBlobs twoWidthsBlobs).toGraph.references := by
      simp [references, hrecords]
    have honly : ∀ x ∈ (ofBlobs twoWidthsBlobs).toGraph.names,
        x ∈ (ofBlobs twoWidthsBlobs).toGraph.references → x = "libx.so" := by
      intro x hx hlisted
      simp only [names, hrecords, List.map_cons, List.map_nil, List.mem_cons, List.not_mem_nil,
        or_false] at hx
      rcases hx with rfl | rfl
      · rfl
      · exact absurd hlisted hnobody
    intro x hx y hy hne hxy hyx
    apply hne
    rw [honly x hx (mem_references_of_reaches hyx), honly y hy (mem_references_of_reaches hxy)]
  obtain ⟨-, -, -, hsize, -, halike⟩ := ofBlobs_any_order hperm
  refine ⟨hperm, hloopless, halike hloopless, ?_, ?_⟩
  · rw [← hsize, hbuild]
    rfl
  · rw [hbuild, hother]
    simp

end Draft

end BlobCensus.Graph
