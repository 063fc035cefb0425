import BlobCensus.Proofs.Graph.FoldPass

/-!
# Drafts

A second pass of folding finds nothing to do, so folding a draft is one pass over its records. The
drafts that can be built keep one record per name, and their index tells the place of each.
-/
namespace BlobCensus.Graph

/-- No record lists the name of another one. -/
def IsFlat (g : Graph) : Prop :=
  ∀ a ∈ g.records, ∀ b ∈ g.records, a.name ≠ b.name → b.name ∉ a.dependencies

namespace Draft

variable {g : Graph}

theorem mem_survivors {slots : List Slot} {r : BlobRecord} :
    r ∈ survivors slots ↔
      ∃ (i : ℕ) (s : Slot), slots[i]? = some s ∧ s.removed = false ∧ s.record = r := by
  simp only [survivors, List.mem_map, List.mem_filter, Bool.not_eq_true']
  constructor
  · rintro ⟨s, ⟨hmem, hs⟩, rfl⟩
    obtain ⟨i, hi⟩ := List.mem_iff_getElem?.mp hmem
    exact ⟨i, s, hi, hs, rfl⟩
  · rintro ⟨i, s, hi, hs, rfl⟩
    exact ⟨s, ⟨List.mem_of_getElem? hi, hs⟩, rfl⟩

theorem survivors_length_add (slots : List Slot) :
    slots.countP Slot.removed + (survivors slots).length = slots.length := by
  rw [survivors, List.length_map, ← List.countP_eq_length_filter]
  have := slots.length_eq_countP_add_countP Slot.removed
  grind

theorem Pass.slots_names {k : ℕ} {slots : List Slot} (p : Pass g k slots) :
    slots.map (fun s => s.record.name) = g.names := by
  apply List.ext_getElem?
  intro i
  cases hs : slots[i]? with
  | some s => simp [hs, p.names_getElem? hs]
  | none =>
    have hlen := p.length
    simp only [List.getElem?_eq_none_iff] at hs
    simp only [List.getElem?_map, List.getElem?_eq_none hs, Option.map_none, names]
    rw [List.getElem?_eq_none (by omega), Option.map_none]

/-- The names that a pass leaves stand in their old order. -/
theorem survivors_names_sublist (unique : g.names.Nodup) :
    ((survivors (foldPass g.records)).map BlobRecord.name).Sublist g.names := by
  rw [← (pass_foldPass g unique).slots_names, survivors, List.map_map]
  exact List.filter_sublist.map _

/-- A pass leaves a flat graph. -/
theorem isFlat_survivors (unique : g.names.Nodup) : IsFlat ⟨survivors (foldPass g.records)⟩ := by
  intro a ha b hb hne
  obtain ⟨i, x, hx, hlx, rfl⟩ := mem_survivors.mp ha
  obtain ⟨j, y, hy, hly, rfl⟩ := mem_survivors.mp hb
  have p := pass_foldPass g unique
  have hj : j < g.records.length := p.length ▸ (List.getElem?_eq_some_iff.mp hy).1
  refine p.settled i j x y hx hy hlx hly hj ?_
  rintro rfl
  rw [hx] at hy
  cases hy
  exact hne rfl

/-- A pass over a flat graph does nothing. -/
theorem foldPass_of_isFlat (unique : g.names.Nodup) (flat : g.IsFlat) :
    foldPass g.records = g.records.map fun r => { record := r } := by
  have visit : ∀ k, absorb (g.records.map fun r => { record := r }) k =
      g.records.map fun r => { record := r } := by
    intro k
    cases hk : (g.records.map fun r => ({ record := r } : Slot))[k]? with
    | none => simp only [absorb, hk]
    | some slot =>
      have hlive : slot.removed = false := by
        obtain ⟨r, -, rfl⟩ := List.mem_map.mp (List.mem_of_getElem? hk)
        rfl
      rcases absorb_cases hk hlive with ⟨he, -⟩ | ⟨-, i, t, hi, ht, hdep⟩
      · exact he
      · obtain ⟨r, hr, rfl⟩ := List.mem_map.mp (List.mem_of_getElem? hk)
        obtain ⟨q, hq, rfl⟩ := List.mem_map.mp (List.mem_of_getElem? ht)
        have hn : q.name ≠ r.name := fun h => hi ((pass_zero g).place_eq unique ht hk h)
        have hmem : r.name ∈ q.dependencies := by simpa [Slot.dependsOn] using hdep
        exact absurd hmem (flat q hq r hr hn)
  rw [foldPass]
  generalize g.records.length = n
  induction n with
  | zero => rfl
  | succ n ih => rw [List.range_succ, List.foldl_append, ih, List.foldl_cons, List.foldl_nil, visit]

theorem countP_removed_of_isFlat (unique : g.names.Nodup) (flat : g.IsFlat) :
    (foldPass g.records).countP Slot.removed = 0 := by
  rw [foldPass_of_isFlat unique flat]
  simp [List.countP_eq_zero]

theorem foldPasses_of_isFlat (unique : g.names.Nodup) (flat : g.IsFlat) (fuel : ℕ) :
    foldPasses fuel g.records = (0, g.records) := by
  cases fuel with
  | zero => rfl
  | succ fuel => simp [foldPasses, countP_removed_of_isFlat unique flat]

theorem isFlat_of_countP_eq_zero (unique : g.names.Nodup)
    (h : (foldPass g.records).countP Slot.removed = 0) : g.IsFlat := by
  have p := pass_foldPass g unique
  have live : ∀ s ∈ foldPass g.records, s.removed = false := by
    simpa [List.countP_eq_zero] using h
  intro a ha b hb hne hmem
  obtain ⟨i, x, hx, hxn, hxd⟩ := p.exists_of_lists ⟨a, ha, rfl, hmem⟩
  obtain ⟨j, hj⟩ := List.mem_iff_getElem?.mp hb
  have hlt : j < (foldPass g.records).length := by
    rw [p.length]
    exact (List.getElem?_eq_some_iff.mp hj).1
  have hy := List.getElem?_eq_getElem hlt
  have hyn := (p.grown j b _ hj hy).name
  refine p.settled i j x _ hx hy (live _ (List.mem_of_getElem? hx)) (live _ (List.mem_of_getElem? hy))
    (p.length ▸ hlt) ?_ (hyn ▸ hxd)
  rintro rfl
  rw [hx] at hy
  have he := Option.some.inj hy
  exact hne (hxn.symm.trans (by rw [he, hyn]))

theorem survivors_of_countP_eq_zero (unique : g.names.Nodup)
    (h : (foldPass g.records).countP Slot.removed = 0) :
    survivors (foldPass g.records) = g.records := by
  rw [foldPass_of_isFlat unique (isFlat_of_countP_eq_zero unique h)]
  simp [survivors, List.filter_map, Function.comp_def]

/-- Repeated passes come to what one pass gives. -/
theorem foldPasses_eq (unique : g.names.Nodup) (fuel : ℕ) (hfuel : g.records.length ≤ fuel) :
    foldPasses fuel g.records =
      ((foldPass g.records).countP Slot.removed, survivors (foldPass g.records)) := by
  cases fuel with
  | zero =>
    have he : g.records = [] := List.eq_nil_of_length_eq_zero (by omega)
    simp [foldPasses, he, foldPass, survivors]
  | succ fuel =>
    have hrest : foldPasses fuel (survivors (foldPass g.records)) =
        (0, survivors (foldPass g.records)) :=
      foldPasses_of_isFlat (g := ⟨survivors (foldPass g.records)⟩)
        ((survivors_names_sublist unique).nodup unique) (isFlat_survivors unique) fuel
    simp only [foldPasses, hrest]
    split
    · rename_i hgone
      rw [hgone, survivors_of_countP_eq_zero unique hgone]
    · simp

/-- The drafts that can be built. -/
inductive Reachable : Draft → Prop
  | empty : Reachable {}
  | add {d : Draft} (prior : Reachable d) (b : Blob) : Reachable (d.add b).2
  | merge {d : Draft} (prior : Reachable d) (name : String) (a : Architecture) :
      Reachable (d.merge name a).2
  | fold {d : Draft} (prior : Reachable d) : Reachable d.fold.2

theorem reachable_ofBlobs (blobs : List Blob) : (ofBlobs blobs).Reachable := by
  have run : ∀ d : Draft, d.Reachable → (blobs.foldl (fun d b => (d.add b).2) d).Reachable := by
    induction blobs with
    | nil => exact fun _ h => h
    | cons b rest ih => exact fun d h => ih _ (h.add b)
  exact run {} .empty

/-- The index tells for each name the place of its record, and nothing else. -/
def Indexed (d : Draft) : Prop :=
  ∀ (name : String) (place : ℕ),
    d.index[name]? = some place ↔ d.toGraph.names[place]? = some name

theorem Indexed.nodup {d : Draft} (h : d.Indexed) : d.toGraph.names.Nodup := by
  rw [List.nodup_iff_getElem?_ne_getElem?]
  intro i j hij hj he
  have hji := List.getElem?_eq_getElem hj
  have hi := (h _ i).mpr (he.trans hji)
  have hj := (h _ j).mpr hji
  rw [hi] at hj
  have := Option.some.inj hj
  omega

theorem names_update (d : Draft) (place : ℕ) (change : BlobRecord → BlobRecord)
    (h : ∀ r, (change r).name = r.name) : (d.update place change).toGraph.names = d.toGraph.names := by
  apply List.ext_getElem?
  intro i
  simp only [update, toGraph, names, Array.toList_modify, List.getElem?_map, List.getElem?_modify]
  cases d.records.toList[i]? with
  | none => simp
  | some r => by_cases hp : place = i <;> simp [hp, h]

theorem Indexed.update {d : Draft} (hd : d.Indexed) (place : ℕ) {change : BlobRecord → BlobRecord}
    (h : ∀ r, (change r).name = r.name) : (d.update place change).Indexed := by
  intro name i
  rw [names_update d place change h]
  exact hd name i

theorem Indexed.add {d : Draft} (hd : d.Indexed) (b : Blob) : (d.add b).2.Indexed := by
  unfold Draft.add
  split
  · exact hd
  · split
    · exact hd.update _ fun _ => rfl
    · rename_i habsent
      intro name place
      have hnew : b.name ∉ d.toGraph.names := by
        intro hmem
        obtain ⟨i, hi⟩ := List.mem_iff_getElem?.mp hmem
        rw [(hd _ i).mpr hi] at habsent
        cases habsent
      have hlen : d.toGraph.names.length = d.records.size := by simp [toGraph, names]
      simp only [Std.HashMap.getElem?_insert, toGraph, names, Array.toList_push, List.map_append,
        List.map_cons, List.map_nil]
      change _ ↔ (d.toGraph.names ++ [b.name])[place]? = some name
      rw [List.getElem?_append, hlen]
      have hplace := hd name place
      split_ifs with hn hlt hlt
      · grind
      · grind
      · exact hplace
      · grind

theorem Indexed.merge {d : Draft} (hd : d.Indexed) (name : String) (a : Architecture) :
    (d.merge name a).2.Indexed := by
  unfold Draft.merge
  split
  · exact hd
  · split
    · exact hd.update _ fun _ => rfl
    · exact hd

/-- Inserting places by name, each name once, over an index that was there before. -/
theorem foldl_insert_getElem? (entries : List (BlobRecord × ℕ)) (index : Std.HashMap String ℕ)
    (unique : (entries.map fun e => e.1.name).Nodup) (name : String) (place : ℕ) :
    (entries.foldl (fun index (r, place) => index.insert r.name place) index)[name]? = some place ↔
      (∃ r, (r, place) ∈ entries ∧ r.name = name) ∨
        (name ∉ entries.map (fun e => e.1.name) ∧ index[name]? = some place) := by
  induction entries generalizing index with
  | nil => simp
  | cons e rest ih =>
    obtain ⟨hfirst, hrest⟩ := List.nodup_cons.mp unique
    rw [List.foldl_cons, ih _ hrest, Std.HashMap.getElem?_insert]
    by_cases hn : e.1.name = name
    · subst hn
      have hno : ∀ r, (r, place) ∈ rest → r.name ≠ e.1.name := fun r hr he =>
        hfirst (List.mem_map.mpr ⟨(r, place), hr, he⟩)
      simp only [hfirst, not_false_eq_true, BEq.rfl, if_true, Option.some.injEq, true_and,
        List.mem_cons, List.map_cons, not_true_eq_false, false_and, or_false]
      constructor
      · rintro (⟨r, hr, he⟩ | rfl)
        · exact absurd he (hno r hr)
        · exact ⟨e.1, .inl rfl, rfl⟩
      · rintro ⟨r, hr | hr, he⟩
        · exact .inr (congrArg Prod.snd hr).symm
        · exact absurd he (hno r hr)
    · have hne : ¬ name = e.1.name := fun h => hn h.symm
      simp only [beq_iff_eq, hn, if_false, List.mem_cons, List.map_cons, hne, false_or]
      constructor
      · rintro (⟨r, hr, he⟩ | h)
        · exact .inl ⟨r, .inr hr, he⟩
        · exact .inr h
      · rintro (⟨r, hr | hr, he⟩ | h)
        · exact absurd ((congrArg (fun e => e.1.name) hr).symm.trans he) hn
        · exact .inl ⟨r, hr, he⟩
        · exact .inr h

theorem indexed_indexOf {records : Array BlobRecord} (unique : (⟨records.toList⟩ : Graph).names.Nodup) :
    Indexed { records, index := indexOf records } := by
  intro name place
  have hn : (records.toList.zipIdx.map fun e => e.1.name) = (⟨records.toList⟩ : Graph).names := by
    change records.toList.zipIdx.map (BlobRecord.name ∘ Prod.fst) = _
    rw [← List.map_map, List.zipIdx_map_fst]
    rfl
  rw [indexOf, foldl_insert_getElem? _ _ (hn ▸ unique)]
  simp only [Std.HashMap.getElem?_empty, List.mem_zipIdx_iff_getElem?, toGraph, names,
    List.getElem?_map, Option.map_eq_some_iff, reduceCtorEq, and_false, or_false]

/-- Folding a draft is one pass over its records. -/
theorem fold_eq {d : Draft} (unique : d.toGraph.names.Nodup) :
    d.fold.1 = (foldPass d.records.toList).countP Slot.removed ∧
      d.fold.2.records.toList = survivors (foldPass d.records.toList) := by
  have h := foldPasses_eq unique d.records.size (Nat.le_refl _)
  simp only [toGraph] at h
  simp only [fold, h]
  split
  · rename_i hgone
    exact ⟨hgone.symm, (survivors_of_countP_eq_zero unique hgone).symm⟩
  · exact ⟨rfl, rfl⟩

theorem Indexed.fold {d : Draft} (hd : d.Indexed) : d.fold.2.Indexed := by
  have h := foldPasses_eq hd.nodup d.records.size (Nat.le_refl _)
  simp only [toGraph] at h
  simp only [Draft.fold, h]
  split
  · exact hd
  · exact indexed_indexOf ((survivors_names_sublist hd.nodup).nodup hd.nodup)

theorem Reachable.indexed {d : Draft} (h : Reachable d) : d.Indexed := by
  induction h with
  | empty =>
    intro name place
    simp [toGraph, names]
  | add _ b ih => exact ih.add b
  | merge _ name a ih => exact ih.merge name a
  | fold _ ih => exact ih.fold

end Draft

end BlobCensus.Graph
