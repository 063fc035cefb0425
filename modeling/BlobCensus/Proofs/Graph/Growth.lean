import BlobCensus.Proofs.Graph.Draft

/-!
# How drafts grow

What adding a blob and merging an architecture do to the graph of a draft whose index is right. A
name that is there has its record amended in place, a new one gets a record at the end.
-/
namespace BlobCensus.Graph

variable {g : Graph} {name : String} {change : BlobRecord → BlobRecord}

def amend (g : Graph) (name : String) (change : BlobRecord → BlobRecord) : Graph :=
  ⟨g.records.map fun r => if r.name = name then change r else r⟩

theorem names_amend (h : ∀ r, (change r).name = r.name) : (g.amend name change).names = g.names := by
  simp only [names, amend, List.map_map]
  refine List.map_congr_left fun r _ => ?_
  simp only [Function.comp_apply]
  split
  · exact h r
  · rfl

theorem amend_of_notMem (h : name ∉ g.names) : g.amend name change = g := by
  have hrecords : g.records.map (fun r => if r.name = name then change r else r) = g.records := by
    refine (List.map_congr_left fun r hr => ?_).trans (List.map_id _)
    rw [if_neg fun he => h (List.mem_map.mpr ⟨r, hr, he⟩)]
    rfl
  rw [amend, hrecords]

theorem amend_append (records : List BlobRecord) {r : BlobRecord} (h : r.name ≠ name) :
    amend ⟨records ++ [r]⟩ name change = ⟨(amend ⟨records⟩ name change).records ++ [r]⟩ := by
  simp [amend, h]

namespace Draft

variable {d : Draft}

theorem Indexed.exists_place (hd : d.Indexed) (h : name ∈ d.toGraph.names) :
    ∃ place, d.index[name]? = some place := by
  obtain ⟨place, hplace⟩ := List.mem_iff_getElem?.mp h
  exact ⟨place, (hd name place).mpr hplace⟩

theorem Indexed.no_place (hd : d.Indexed) (h : name ∉ d.toGraph.names) : d.index[name]? = none := by
  cases hplace : d.index[name]? with
  | none => rfl
  | some place => exact absurd (List.mem_of_getElem? ((hd name place).mp hplace)) h

theorem toGraph_update (hd : d.Indexed) {place : ℕ} (hplace : d.index[name]? = some place) :
    (d.update place change).toGraph = d.toGraph.amend name change := by
  have hrecords : (d.records.toList.modify place change) =
      d.records.toList.map fun r => if r.name = name then change r else r := by
    apply List.ext_getElem?
    intro i
    rw [List.getElem?_modify, List.getElem?_map]
    cases hr : d.records.toList[i]? with
    | none => simp
    | some r =>
      have hi : place = i ↔ r.name = name := by
        have hname : d.toGraph.names[i]? = some r.name := by simp [toGraph, names, hr]
        constructor
        · rintro rfl
          exact Option.some.inj (hname.symm.trans ((hd name place).mp hplace))
        · rintro rfl
          exact Option.some.inj (hplace.symm.trans ((hd r.name i).mpr hname))
      by_cases hn : r.name = name <;> simp [hi, hn]
  simp only [toGraph, update, amend, Array.toList_modify, hrecords]

theorem toGraph_add_of_mem (hd : d.Indexed) {b : Blob} (known : b.isKnown = true)
    (h : b.name ∈ d.toGraph.names) :
    (d.add b).2.toGraph = d.toGraph.amend b.name fun r =>
      { r with
        dependencies := union r.dependencies b.dependencies
        widths := r.widths.insert b.architecture } := by
  obtain ⟨place, hplace⟩ := hd.exists_place h
  simp only [add, known, hplace, Bool.not_true, Bool.false_eq_true, if_false]
  exact toGraph_update hd hplace

theorem toGraph_add_of_notMem (hd : d.Indexed) {b : Blob} (known : b.isKnown = true)
    (h : b.name ∉ d.toGraph.names) :
    (d.add b).2.toGraph =
      ⟨d.toGraph.records ++ [⟨b.name, b.dependencies, Widths.insert {} b.architecture⟩]⟩ := by
  simp [add, known, hd.no_place h, toGraph]

/-- Adding a blob does one of three things: nothing, a change of the record of its name, or one more
record. -/
theorem add_cases (hd : d.Indexed) (b : Blob) :
    (b.isKnown = false ∧ d.add b = (false, d)) ∨
    (b.isKnown = true ∧ b.name ∈ d.toGraph.names ∧ (d.add b).1 = false ∧
      (d.add b).2.toGraph = d.toGraph.amend b.name fun r =>
        { r with
          dependencies := union r.dependencies b.dependencies
          widths := r.widths.insert b.architecture }) ∨
    (b.isKnown = true ∧ b.name ∉ d.toGraph.names ∧ (d.add b).1 = true ∧
      (d.add b).2.toGraph =
        ⟨d.toGraph.records ++ [⟨b.name, b.dependencies, Widths.insert {} b.architecture⟩]⟩) := by
  cases known : b.isKnown with
  | false => exact .inl ⟨rfl, by simp [add, known]⟩
  | true =>
    by_cases h : b.name ∈ d.toGraph.names
    · obtain ⟨place, hplace⟩ := hd.exists_place h
      exact .inr (.inl ⟨rfl, h, by simp [add, known, hplace], toGraph_add_of_mem hd known h⟩)
    · exact .inr (.inr ⟨rfl, h, by simp [add, known, hd.no_place h], toGraph_add_of_notMem hd known h⟩)

theorem mem_names_add (hd : d.Indexed) (b : Blob) {x : String} :
    x ∈ (d.add b).2.toGraph.names ↔ x ∈ d.toGraph.names ∨ b.isKnown = true ∧ b.name = x := by
  rcases add_cases hd b with ⟨unknown, hadd⟩ | ⟨known, hname, -, hadd⟩ | ⟨known, -, -, hadd⟩
  · simp [hadd, unknown]
  · have hsame : b.name = x → x ∈ d.toGraph.names := fun h => h ▸ hname
    rw [hadd, names_amend (by simp)]
    tauto
  · rw [hadd]
    simp [names, known, eq_comm]

theorem merge_of_unknown (name : String) {a : Architecture} (h : a.isKnown = false) :
    (d.merge name a).2 = d := by
  simp [merge, h]

theorem toGraph_merge (hd : d.Indexed) (name : String) {a : Architecture} (known : a.isKnown = true) :
    (d.merge name a).2.toGraph =
      d.toGraph.amend name fun r => { r with widths := r.widths.insert a } := by
  by_cases h : name ∈ d.toGraph.names
  · obtain ⟨place, hplace⟩ := hd.exists_place h
    simp only [merge, known, hplace, Bool.not_true, Bool.false_eq_true, if_false]
    exact toGraph_update hd hplace
  · simp [merge, known, hd.no_place h, amend_of_notMem h]

theorem names_merge (hd : d.Indexed) (name : String) (a : Architecture) :
    (d.merge name a).2.toGraph.names = d.toGraph.names := by
  cases known : a.isKnown with
  | false => rw [merge_of_unknown name known]
  | true =>
    rw [toGraph_merge hd name known]
    exact names_amend fun _ => rfl

theorem toGraph_merge_append (hd : d.Indexed) {e : Draft} (he : e.Indexed) {r : BlobRecord}
    (h : e.toGraph = ⟨d.toGraph.records ++ [r]⟩) {name : String} (hname : name ≠ r.name)
    (a : Architecture) :
    (e.merge name a).2.toGraph = ⟨(d.merge name a).2.toGraph.records ++ [r]⟩ := by
  cases known : a.isKnown with
  | false => rw [merge_of_unknown name known, merge_of_unknown name known, h]
  | true => rw [toGraph_merge he name known, toGraph_merge hd name known, h, amend_append _ hname.symm]

/-- Merging into names that are there leaves a new record alone. -/
theorem toGraph_foldl_merge (hd : d.Indexed) {e : Draft} (he : e.Indexed) {r : BlobRecord}
    (h : e.toGraph = ⟨d.toGraph.records ++ [r]⟩) (more : List (String × Architecture))
    (hmore : ∀ m ∈ more, m.1 ≠ r.name) :
    (more.foldl (fun d m => (d.merge m.1 m.2).2) e).toGraph =
      ⟨(more.foldl (fun d m => (d.merge m.1 m.2).2) d).toGraph.records ++ [r]⟩ := by
  induction more generalizing d e with
  | nil => exact h
  | cons m rest ih =>
    refine ih (hd.merge m.1 m.2) (he.merge m.1 m.2) ?_ fun n hn => hmore n (by simp [hn])
    exact toGraph_merge_append hd he h (hmore m (by simp)) m.2

theorem names_foldl_merge (hd : d.Indexed) (more : List (String × Architecture)) :
    (more.foldl (fun d m => (d.merge m.1 m.2).2) d).toGraph.names = d.toGraph.names := by
  induction more generalizing d with
  | nil => rfl
  | cons m rest ih => rw [List.foldl_cons, ih (hd.merge m.1 m.2), names_merge hd]

theorem exists_mem_concat {blobs : List Blob} {b : Blob} {p : Blob → Prop} :
    (∃ c ∈ blobs ++ [b], p c) ↔ (∃ c ∈ blobs, p c) ∨ p b := by
  simp [or_and_right, exists_or]

theorem ofBlobs_append (blobs : List Blob) (b : Blob) :
    ofBlobs (blobs ++ [b]) = ((ofBlobs blobs).add b).2 := by
  simp [ofBlobs]

end Draft

end BlobCensus.Graph
