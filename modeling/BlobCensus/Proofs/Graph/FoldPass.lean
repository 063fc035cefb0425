import Mathlib.Logic.Relation
import Mathlib.Data.List.Nodup
import BlobCensus.Graph

/-!
# One pass of folding

A pass visits the places of a graph in order and changes dependency lists as it goes. `Pass` is the
invariant after `k` places: records that still count are closed under the lists of those already
removed, kept records are not listed by others, and what has been removed is listed somewhere. From
it follow both what a survivor lists at the end and who survives.
-/
namespace BlobCensus.Graph

/-- The record of `x` lists `name`. -/
def Lists (g : Graph) (x name : String) : Prop :=
  ∃ r ∈ g.records, r.name = x ∧ name ∈ r.dependencies

/-- A chain of one or more dependencies leads from `x` to a name. -/
def Reaches (g : Graph) : String → String → Prop := Relation.TransGen g.Lists

/-- Whoever reaches `x` is reached by it and stands before it. -/
def IsTop (g : Graph) (x : String) : Prop :=
  ∀ y ∈ g.names, y ≠ x → g.Reaches y x →
    g.Reaches x y ∧ g.names.idxOf y < g.names.idxOf x

/-- `new` is `old` with names appended, each absent from all that stands before it. -/
inductive Extends (old : List String) : List String → Prop
  | refl : Extends old old
  | snoc {new : List String} {name : String} (prior : Extends old new) (fresh : name ∉ new) :
      Extends old (new ++ [name])

theorem Extends.trans {a b c : List String} (hab : Extends a b) (hbc : Extends b c) :
    Extends a c := by
  induction hbc with
  | refl => exact hab
  | snoc _ fresh ih => exact .snoc ih fresh

theorem Extends.isPrefix {old new : List String} (h : Extends old new) : old <+: new := by
  induction h with
  | refl => exact List.prefix_refl _
  | snoc _ _ ih => exact ih.trans (List.prefix_append _ _)

theorem Extends.subset {old new : List String} (h : Extends old new) : old ⊆ new :=
  h.isPrefix.subset

/-- An appended name is new where it stands. -/
theorem Extends.notMem_take {old new : List String} (h : Extends old new) {i : ℕ}
    (hi : old.length ≤ i) (hlt : i < new.length) : new[i] ∉ new.take i := by
  induction h with
  | refl => omega
  | @snoc new name _ fresh ih =>
    by_cases hn : i < new.length
    · rw [List.getElem_append_left hn, List.take_append_of_le_length (Nat.le_of_lt hn)]
      exact ih hn
    · have he : i = new.length := by
        simp only [List.length_append, List.length_singleton] at hlt
        omega
      subst he
      simpa using fresh

theorem union_cons (names : List String) (n : String) (more : List String) :
    union names (n :: more) = union (if names.contains n then names else names ++ [n]) more := rfl

theorem extends_union (names more : List String) : Extends names (union names more) := by
  induction more generalizing names with
  | nil => exact .refl
  | cons n more ih =>
    rw [union_cons]
    split
    · exact ih names
    · rename_i hn
      exact Extends.trans (.snoc .refl (by simpa using hn)) (ih _)

theorem mem_union {names more : List String} {d : String} :
    d ∈ union names more ↔ d ∈ names ∨ d ∈ more := by
  induction more generalizing names with
  | nil => simp [union]
  | cons n more ih =>
    rw [union_cons, ih]
    split
    · rename_i hn
      have hm : n ∈ names := by simpa using hn
      grind
    · simp only [List.mem_append, List.mem_cons]
      tauto

namespace Draft

variable {g : Graph} {slots : List Slot} {k i : ℕ} {blob : BlobRecord} {s slot : Slot}

@[simp] theorem afterTaking_name (k : ℕ) (blob : BlobRecord) (i : ℕ) (s : Slot) :
    (Slot.afterTaking k blob i s).record.name = s.record.name := by
  unfold Slot.afterTaking
  split_ifs <;> rfl

@[simp] theorem afterTaking_widths (k : ℕ) (blob : BlobRecord) (i : ℕ) (s : Slot) :
    (Slot.afterTaking k blob i s).record.widths = s.record.widths := by
  unfold Slot.afterTaking
  split_ifs <;> rfl

theorem afterTaking_removed (k : ℕ) (blob : BlobRecord) (i : ℕ) (s : Slot) :
    (Slot.afterTaking k blob i s).removed = (decide (i = k) || s.removed) := by
  unfold Slot.afterTaking
  split_ifs with hi <;> simp [hi]

theorem afterTaking_extends (k : ℕ) (blob : BlobRecord) (i : ℕ) (s : Slot) :
    Extends s.record.dependencies (Slot.afterTaking k blob i s).record.dependencies := by
  unfold Slot.afterTaking
  split_ifs
  · exact .refl
  · exact extends_union _ _
  · exact .refl

/-- A slot that counts afterwards counted before, and has got the blob's dependencies exactly if it
listed the blob. -/
theorem afterTaking_live (h : (Slot.afterTaking k blob i s).removed = false) :
    i ≠ k ∧ s.removed = false ∧
      ∀ d, d ∈ (Slot.afterTaking k blob i s).record.dependencies ↔
        d ∈ s.record.dependencies ∨
          (blob.name ∈ s.record.dependencies ∧ d ∈ blob.dependencies) := by
  simp only [afterTaking_removed, Bool.or_eq_false_iff, decide_eq_false_iff_not] at h
  obtain ⟨hi, hs⟩ := h
  refine ⟨hi, hs, fun d => ?_⟩
  by_cases hn : blob.name ∈ s.record.dependencies
  · simp [Slot.afterTaking, hi, Slot.dependsOn, hs, hn, mem_union]
  · simp [Slot.afterTaking, hi, Slot.dependsOn, hn]

/-- A slot that does not count afterwards is the blob's own or did not count before, and its list
stays. -/
theorem afterTaking_gone (h : (Slot.afterTaking k blob i s).removed = true) :
    (i = k ∨ s.removed = true) ∧
      (Slot.afterTaking k blob i s).record.dependencies = s.record.dependencies := by
  rw [afterTaking_removed, Bool.or_eq_true, decide_eq_true_eq] at h
  refine ⟨h, ?_⟩
  rcases h with rfl | hs
  · simp [Slot.afterTaking]
  · by_cases hi : i = k <;> simp [Slot.afterTaking, hi, Slot.dependsOn, hs]

theorem getElem?_taken {x : Slot} :
    (slots.mapIdx (Slot.afterTaking k blob))[i]? = some x ↔
      ∃ y, slots[i]? = some y ∧ Slot.afterTaking k blob i y = x := by
  rw [List.getElem?_mapIdx, Option.map_eq_some_iff]

/-- What a visit of a place with a record that counts does: nothing if nobody else depends on it,
else the record is taken into those who do. -/
theorem absorb_cases (hslot : slots[k]? = some slot) (live : slot.removed = false) :
    (absorb slots k = slots ∧
      ∀ i s, i ≠ k → slots[i]? = some s → s.dependsOn slot.record.name = false) ∨
    (absorb slots k = slots.mapIdx (Slot.afterTaking k slot.record) ∧
      ∃ i s, i ≠ k ∧ slots[i]? = some s ∧ s.dependsOn slot.record.name = true) := by
  have hmem : ∀ i s, (s, i) ∈ slots.zipIdx.filter
      (fun x => x.2 != k && x.1.dependsOn slot.record.name) ↔
      slots[i]? = some s ∧ i ≠ k ∧ s.dependsOn slot.record.name = true := by
    intro i s
    simp [List.mem_zipIdx_iff_getElem?]
  simp only [absorb, hslot, live, Bool.false_eq_true, if_false]
  split
  · rename_i hempty
    refine .inl ⟨rfl, fun i s hi hs => ?_⟩
    rw [List.isEmpty_iff] at hempty
    by_contra hd
    have := (hmem i s).mpr ⟨hs, hi, by simpa using hd⟩
    rw [hempty] at this
    simp at this
  · rename_i hne
    refine .inr ⟨rfl, ?_⟩
    rw [List.isEmpty_iff] at hne
    obtain ⟨⟨s, i⟩, hs⟩ := List.exists_mem_of_ne_nil _ hne
    obtain ⟨h1, h2, h3⟩ := (hmem i s).mp hs
    exact ⟨i, s, h2, h1, h3⟩

/-- A slot holds the record of its place, with nothing but dependencies appended. -/
structure Grown (r : BlobRecord) (s : Slot) : Prop where
  name : s.record.name = r.name
  widths : s.record.widths = r.widths
  dependencies : Extends r.dependencies s.record.dependencies

/-- The state of a pass over `g` when the first `k` places have been visited. -/
structure Pass (g : Graph) (k : ℕ) (slots : List Slot) : Prop where
  length : slots.length = g.records.length
  grown : ∀ (i : ℕ) r s, g.records[i]? = some r → slots[i]? = some s → Grown r s
  sound : ∀ (i : ℕ) s, slots[i]? = some s → ∀ d ∈ s.record.dependencies, g.Reaches s.record.name d
  /-- Only visited records have been removed. -/
  early : ∀ (i : ℕ) s, slots[i]? = some s → s.removed = true → i < k
  /-- Who lists a removed record has its whole list. -/
  hoisted : ∀ (i j : ℕ) x y, slots[i]? = some x → slots[j]? = some y → x.removed = false →
    y.removed = true → y.record.name ∈ x.record.dependencies →
    y.record.dependencies ⊆ x.record.dependencies
  /-- Nobody else lists a record that was visited and kept. -/
  settled : ∀ (i j : ℕ) x y, slots[i]? = some x → slots[j]? = some y → x.removed = false →
    y.removed = false → j < k → i ≠ j → y.record.name ∉ x.record.dependencies
  /-- A removed record is listed by one that counts. -/
  held : ∀ (j : ℕ) y, slots[j]? = some y → y.removed = true →
    ∃ (i : ℕ) (x : Slot), slots[i]? = some x ∧ x.removed = false ∧
      y.record.name ∈ x.record.dependencies
  /-- The visited records that still count are those at the top. -/
  fate : ∀ (j : ℕ) y, slots[j]? = some y → j < k → (y.removed = false ↔ g.IsTop y.record.name)

theorem pass_zero (g : Graph) : Pass g 0 (g.records.map fun r => { record := r }) where
  length := by simp
  grown i r s hr hs := by
    simp only [List.getElem?_map, hr, Option.map_some, Option.some.injEq] at hs
    subst hs
    exact ⟨rfl, rfl, .refl⟩
  sound i s hs d hd := by
    obtain ⟨r, hr, rfl⟩ := List.mem_map.mp (List.mem_of_getElem? hs)
    exact .single ⟨r, hr, rfl, hd⟩
  early i s hs h := by
    obtain ⟨r, hr, rfl⟩ := List.mem_map.mp (List.mem_of_getElem? hs)
    simp at h
  hoisted i j x y _ hy _ h := by
    obtain ⟨r, hr, rfl⟩ := List.mem_map.mp (List.mem_of_getElem? hy)
    simp at h
  settled _ _ _ _ _ _ _ _ h := by omega
  held j y hy h := by
    obtain ⟨r, hr, rfl⟩ := List.mem_map.mp (List.mem_of_getElem? hy)
    simp at h
  fate _ _ _ h := by omega

/-- A removed record lists `name`. -/
def GoneLists (g : Graph) (slots : List Slot) (x name : String) : Prop :=
  g.Lists x name ∧
    ∃ (j : ℕ) (t : Slot), slots[j]? = some t ∧ t.record.name = x ∧ t.removed = true

namespace Pass

theorem record (p : Pass g k slots) (hs : slots[i]? = some s) :
    ∃ r, g.records[i]? = some r ∧ Grown r s := by
  have hi : i < slots.length := (List.getElem?_eq_some_iff.mp hs).1
  have hr := List.getElem?_eq_getElem (l := g.records) (i := i) (p.length ▸ hi)
  exact ⟨_, hr, p.grown _ _ _ hr hs⟩

theorem names_getElem? (p : Pass g k slots) (hs : slots[i]? = some s) :
    g.names[i]? = some s.record.name := by
  obtain ⟨r, hr, hg⟩ := p.record hs
  simp [names, hr, hg.name]

theorem place_eq (p : Pass g k slots) (unique : g.names.Nodup) {j : ℕ} {x y : Slot}
    (hx : slots[i]? = some x) (hy : slots[j]? = some y)
    (h : x.record.name = y.record.name) : i = j := by
  have hi := p.names_getElem? hx
  have hj := p.names_getElem? hy
  rw [h, ← hj] at hi
  exact (List.getElem?_inj (List.getElem?_eq_some_iff.mp (p.names_getElem? hx)).1 unique).mp hi

theorem idxOf_name (p : Pass g k slots) (unique : g.names.Nodup) (hs : slots[i]? = some s) :
    g.names.idxOf s.record.name = i := by
  obtain ⟨hi, he⟩ := List.getElem?_eq_some_iff.mp (p.names_getElem? hs)
  rw [← he]
  exact unique.idxOf_getElem i hi

/-- A listing of the graph is still there in the slots. -/
theorem exists_of_lists (p : Pass g k slots) {x d : String} (h : g.Lists x d) :
    ∃ (i : ℕ) (s : Slot), slots[i]? = some s ∧ s.record.name = x ∧
      d ∈ s.record.dependencies := by
  obtain ⟨r, hr, rfl, hd⟩ := h
  obtain ⟨i, hi⟩ := List.mem_iff_getElem?.mp hr
  have hlt : i < slots.length := by
    rw [p.length]
    exact (List.getElem?_eq_some_iff.mp hi).1
  have hs := List.getElem?_eq_getElem hlt
  have hg := p.grown i r _ hi hs
  exact ⟨i, _, hs, hg.name, hg.dependencies.subset hd⟩

theorem mem_of_lists (p : Pass g k slots) (unique : g.names.Nodup) (hs : slots[i]? = some s)
    {d : String} (h : g.Lists s.record.name d) : d ∈ s.record.dependencies := by
  obtain ⟨j, y, hy, hn, hd⟩ := p.exists_of_lists h
  obtain rfl := p.place_eq unique hy hs hn
  rw [hs] at hy
  cases hy
  exact hd

/-- Names that a removed record leads to through removed records are listed wherever it is. -/
theorem mem_of_chain (p : Pass g k slots) (unique : g.names.Nodup) (hs : slots[i]? = some s)
    (live : s.removed = false) {b d : String} (h : Relation.TransGen (GoneLists g slots) b d)
    (hb : b ∈ s.record.dependencies) : d ∈ s.record.dependencies := by
  have step : ∀ {x y : String}, GoneLists g slots x y →
      x ∈ s.record.dependencies → y ∈ s.record.dependencies := by
    rintro x y ⟨hl, j, t, ht, rfl, hgone⟩ hx
    exact p.hoisted i j s t hs ht live hgone hx (p.mem_of_lists unique ht hl)
  induction h with
  | single h => exact step h hb
  | tail _ h ih => exact step h ih

/-- If nobody else depends on the record to be visited, whoever reaches it does so through removed
records and has been removed. -/
theorem chain_of_reaches (p : Pass g k slots) (unique : g.names.Nodup)
    (hslot : slots[k]? = some slot)
    (alone : ∀ i s, i ≠ k → slots[i]? = some s → s.dependsOn slot.record.name = false)
    {y : String} (hy : y ≠ slot.record.name) (h : g.Reaches y slot.record.name) :
    Relation.TransGen (GoneLists g slots) y slot.record.name := by
  have gone : ∀ {j : ℕ} {t : Slot}, slots[j]? = some t → t.record.name ≠ slot.record.name →
      slot.record.name ∈ t.record.dependencies → t.removed = true := by
    intro j t ht hn hd
    have hj : j ≠ k := by
      rintro rfl
      rw [hslot] at ht
      cases ht
      exact hn rfl
    simpa [Slot.dependsOn, hd] using alone j t hj ht
  induction h using Relation.TransGen.head_induction_on with
  | single hl =>
    obtain ⟨j, t, ht, rfl, hd⟩ := p.exists_of_lists hl
    exact .single ⟨hl, j, t, ht, rfl, gone ht hy hd⟩
  | @head x z hl _ ih =>
    obtain ⟨j, t, ht, rfl, hd⟩ := p.exists_of_lists hl
    by_cases hz : z = slot.record.name
    · subst hz
      exact .single ⟨hl, j, t, ht, rfl, gone ht hy hd⟩
    · have chain := ih hz
      refine .head ⟨hl, j, t, ht, rfl, ?_⟩ chain
      by_contra live
      have hlive : t.removed = false := by simpa using live
      exact live (gone ht hy (p.mem_of_chain unique ht hlive chain hd))

theorem isTop_of_alone (p : Pass g k slots) (unique : g.names.Nodup)
    (hslot : slots[k]? = some slot)
    (alone : ∀ i s, i ≠ k → slots[i]? = some s → s.dependsOn slot.record.name = false) :
    g.IsTop slot.record.name := by
  intro y _ hy h
  have chain := p.chain_of_reaches unique hslot alone hy h
  obtain ⟨z, ⟨_, j, t, ht, rfl, hgone⟩, _⟩ := Relation.TransGen.head'_iff.mp chain
  obtain ⟨i, x, hx, live, hmem⟩ := p.held j t ht hgone
  have hm := p.mem_of_chain unique hx live chain hmem
  have hi : i = k := by
    by_contra hi
    simpa [Slot.dependsOn, live, hm] using alone i x hi hx
  subst hi
  rw [hslot] at hx
  cases hx
  refine ⟨p.sound i slot hslot _ hmem, ?_⟩
  rw [p.idxOf_name unique ht, p.idxOf_name unique hslot]
  exact p.early j t ht hgone

/-- A record at the top already lists, when it is visited, all names on a cycle with it. -/
theorem mem_of_cycle (p : Pass g k slots) (unique : g.names.Nodup)
    (hslot : slots[k]? = some slot) (live : slot.removed = false)
    (top : g.IsTop slot.record.name) {d : String} (h : g.Reaches slot.record.name d)
    (back : g.Reaches d slot.record.name) : d ∈ slot.record.dependencies := by
  induction h with
  | single hl => exact p.mem_of_lists unique hslot hl
  | @tail b d _ hbd ih =>
    have hb := ih (.head hbd back)
    obtain ⟨j, t, ht, rfl, hd⟩ := p.exists_of_lists hbd
    by_cases hn : t.record.name = slot.record.name
    · exact p.mem_of_lists unique hslot (hn ▸ hbd)
    · have hjk : j ≠ k := by
        rintro rfl
        rw [hslot] at ht
        cases ht
        exact hn rfl
      have hlt := (top _ (List.mem_of_getElem? (p.names_getElem? ht)) hn (.head hbd back)).2
      rw [p.idxOf_name unique ht, p.idxOf_name unique hslot] at hlt
      have hgone : t.removed = true := by
        by_contra hl
        exact p.settled k j slot t hslot ht live (by simpa using hl) hlt (Ne.symm hjk) hb
      exact p.hoisted k j slot t hslot ht live hgone hb hd

theorem alone_of_isTop (p : Pass g k slots) (unique : g.names.Nodup)
    (hslot : slots[k]? = some slot) (live : slot.removed = false)
    (top : g.IsTop slot.record.name) {j : ℕ} {t : Slot} (hj : j ≠ k) (ht : slots[j]? = some t) :
    t.dependsOn slot.record.name = false := by
  by_contra hd
  obtain ⟨hlive, hmem⟩ : t.removed = false ∧ slot.record.name ∈ t.record.dependencies := by
    simpa [Slot.dependsOn] using hd
  have hn : t.record.name ≠ slot.record.name := fun h => hj (p.place_eq unique ht hslot h)
  have hreach := p.sound j t ht _ hmem
  obtain ⟨back, hlt⟩ := top _ (List.mem_of_getElem? (p.names_getElem? ht)) hn hreach
  rw [p.idxOf_name unique ht, p.idxOf_name unique hslot] at hlt
  exact p.settled k j slot t hslot ht live hlive hlt (Ne.symm hj)
    (p.mem_of_cycle unique hslot live top back hreach)

theorem skip (p : Pass g k slots) (unique : g.names.Nodup) (hslot : slots[k]? = some slot)
    (live : slot.removed = false)
    (alone : ∀ i s, i ≠ k → slots[i]? = some s → s.dependsOn slot.record.name = false) :
    Pass g (k + 1) slots where
  length := p.length
  grown := p.grown
  sound := p.sound
  early i s hs h := Nat.lt_succ_of_lt (p.early i s hs h)
  hoisted := p.hoisted
  settled i j x y hx hy hlx hly hj hij := by
    rcases Nat.lt_succ_iff_lt_or_eq.mp hj with hj | rfl
    · exact p.settled i j x y hx hy hlx hly hj hij
    · rw [hslot] at hy
      cases hy
      simpa [Slot.dependsOn, hlx] using alone i x hij hx
  held := p.held
  fate j y hy hj := by
    rcases Nat.lt_succ_iff_lt_or_eq.mp hj with hj | rfl
    · exact p.fate j y hy hj
    · rw [hslot] at hy
      cases hy
      exact ⟨fun _ => p.isTop_of_alone unique hslot alone, fun _ => live⟩

section Taking

variable (p : Pass g k slots) (hslot : slots[k]? = some slot) (live : slot.removed = false)
include p hslot

theorem take_sound {x : Slot}
    (hx : (slots.mapIdx (Slot.afterTaking k slot.record))[i]? = some x)
    {d : String} (hd : d ∈ x.record.dependencies) : g.Reaches x.record.name d := by
  obtain ⟨y, hy, rfl⟩ := getElem?_taken.mp hx
  rw [afterTaking_name]
  cases hrem : (Slot.afterTaking k slot.record i y).removed with
  | true =>
    rw [(afterTaking_gone hrem).2] at hd
    exact p.sound i y hy d hd
  | false =>
    obtain ⟨-, -, hmem⟩ := afterTaking_live hrem
    rcases (hmem d).mp hd with hd | ⟨hn, hd⟩
    · exact p.sound i y hy d hd
    · exact (p.sound i y hy _ hn).trans (p.sound k slot hslot d hd)

include live

theorem take_hoisted {j : ℕ} {x y : Slot}
    (hx : (slots.mapIdx (Slot.afterTaking k slot.record))[i]? = some x)
    (hy : (slots.mapIdx (Slot.afterTaking k slot.record))[j]? = some y)
    (hlx : x.removed = false) (hgy : y.removed = true)
    (hmem : y.record.name ∈ x.record.dependencies) :
    y.record.dependencies ⊆ x.record.dependencies := by
  intro d hd
  obtain ⟨a, ha, rfl⟩ := getElem?_taken.mp hx
  obtain ⟨b, hb, rfl⟩ := getElem?_taken.mp hy
  obtain ⟨-, hla, hdep⟩ := afterTaking_live hlx
  obtain ⟨hgb, heq⟩ := afterTaking_gone hgy
  rw [heq] at hd
  rw [afterTaking_name] at hmem
  rcases hgb with rfl | hgb
  · obtain rfl := Option.some.inj (hb.symm.trans hslot)
    rcases (hdep _).mp hmem with hn | ⟨hn, -⟩ <;> exact (hdep d).mpr (.inr ⟨hn, hd⟩)
  · rcases (hdep _).mp hmem with hn | ⟨hn, hm⟩
    · exact (hdep d).mpr (.inl (p.hoisted i j a b ha hb hla hgb hn hd))
    · exact (hdep d).mpr (.inr ⟨hn, p.hoisted k j slot b hslot hb live hgb hm hd⟩)

theorem take_settled {j : ℕ} {x y : Slot}
    (hx : (slots.mapIdx (Slot.afterTaking k slot.record))[i]? = some x)
    (hy : (slots.mapIdx (Slot.afterTaking k slot.record))[j]? = some y)
    (hlx : x.removed = false) (hly : y.removed = false) (hj : j < k + 1) (hij : i ≠ j) :
    y.record.name ∉ x.record.dependencies := by
  intro hmem
  obtain ⟨a, ha, rfl⟩ := getElem?_taken.mp hx
  obtain ⟨b, hb, rfl⟩ := getElem?_taken.mp hy
  obtain ⟨-, hla, hdep⟩ := afterTaking_live hlx
  obtain ⟨hjk, hlb, -⟩ := afterTaking_live hly
  rw [afterTaking_name] at hmem
  have hlt : j < k := by omega
  rcases (hdep _).mp hmem with hn | ⟨-, hn⟩
  · exact p.settled i j a b ha hb hla hlb hlt hij hn
  · exact p.settled k j slot b hslot hb live hlb hlt (Ne.symm hjk) hn

variable {taker : ℕ} {t : Slot} (htk : taker ≠ k) (ht : slots[taker]? = some t)
  (hdep : t.dependsOn slot.record.name = true)
include htk ht hdep

theorem take_held {j : ℕ} {y : Slot}
    (hy : (slots.mapIdx (Slot.afterTaking k slot.record))[j]? = some y)
    (hgy : y.removed = true) :
    ∃ (i : ℕ) (x : Slot), (slots.mapIdx (Slot.afterTaking k slot.record))[i]? = some x ∧
      x.removed = false ∧ y.record.name ∈ x.record.dependencies := by
  obtain ⟨b, hb, rfl⟩ := getElem?_taken.mp hy
  obtain ⟨htlive, htmem⟩ : t.removed = false ∧ slot.record.name ∈ t.record.dependencies := by
    simpa [Slot.dependsOn] using hdep
  have hlive : (Slot.afterTaking k slot.record taker t).removed = false := by
    simp [afterTaking_removed, htk, htlive]
  obtain ⟨-, -, hmem⟩ := afterTaking_live hlive
  rw [afterTaking_name]
  rcases (afterTaking_gone hgy).1 with rfl | hgb
  · obtain rfl := Option.some.inj (hb.symm.trans hslot)
    exact ⟨taker, _, getElem?_taken.mpr ⟨t, ht, rfl⟩, hlive, (hmem _).mpr (.inl htmem)⟩
  · obtain ⟨i, x, hx, hlx, hxm⟩ := p.held j b hb hgb
    by_cases hik : i = k
    · subst hik
      obtain rfl := Option.some.inj (hx.symm.trans hslot)
      exact ⟨taker, _, getElem?_taken.mpr ⟨t, ht, rfl⟩, hlive, (hmem _).mpr (.inr ⟨htmem, hxm⟩)⟩
    · exact ⟨i, _, getElem?_taken.mpr ⟨x, hx, rfl⟩, by simp [afterTaking_removed, hik, hlx],
        (afterTaking_extends k slot.record i x).subset hxm⟩

theorem take_fate (unique : g.names.Nodup) {j : ℕ} {y : Slot}
    (hy : (slots.mapIdx (Slot.afterTaking k slot.record))[j]? = some y) (hj : j < k + 1) :
    y.removed = false ↔ g.IsTop y.record.name := by
  obtain ⟨b, hb, rfl⟩ := getElem?_taken.mp hy
  rw [afterTaking_name, afterTaking_removed]
  rcases Nat.lt_succ_iff_lt_or_eq.mp hj with hj | rfl
  · simpa [Nat.ne_of_lt hj] using p.fate j b hb hj
  · obtain rfl := Option.some.inj (hb.symm.trans hslot)
    have hno : ¬ g.IsTop b.record.name := by
      intro top
      rw [p.alone_of_isTop unique hslot live top htk ht] at hdep
      cases hdep
    simpa using hno

theorem take (unique : g.names.Nodup) :
    Pass g (k + 1) (slots.mapIdx (Slot.afterTaking k slot.record)) where
  length := by simp [p.length]
  grown i r x hr hx := by
    obtain ⟨y, hy, rfl⟩ := getElem?_taken.mp hx
    have hg := p.grown i r y hr hy
    exact ⟨by simp [hg.name], by simp [hg.widths],
      hg.dependencies.trans (afterTaking_extends k slot.record i y)⟩
  sound _ _ hx _ hd := p.take_sound hslot hx hd
  early i x hx hrem := by
    obtain ⟨y, hy, rfl⟩ := getElem?_taken.mp hx
    rcases (afterTaking_gone hrem).1 with rfl | hgone
    · exact Nat.lt_succ_self i
    · exact Nat.lt_succ_of_lt (p.early i y hy hgone)
  hoisted _ _ _ _ hx hy := p.take_hoisted hslot live hx hy
  settled _ _ _ _ hx hy := p.take_settled hslot live hx hy
  held _ _ hy := p.take_held hslot live htk ht hdep hy
  fate _ _ hy := p.take_fate hslot live htk ht hdep unique hy

end Taking

theorem absorb (p : Pass g k slots) (unique : g.names.Nodup) (hk : k < g.records.length) :
    Pass g (k + 1) (Draft.absorb slots k) := by
  have hlt : k < slots.length := p.length ▸ hk
  have hslot := List.getElem?_eq_getElem hlt
  have live : slots[k].removed = false := by
    by_contra h
    have := p.early k _ hslot (by simpa using h)
    omega
  rcases absorb_cases hslot live with ⟨he, alone⟩ | ⟨he, i, t, hi, ht, hdep⟩
  · rw [he]
    exact p.skip unique hslot live alone
  · rw [he]
    exact p.take hslot live hi ht hdep unique

end Pass

theorem pass_foldPass (g : Graph) (unique : g.names.Nodup) :
    Pass g g.records.length (foldPass g.records) := by
  have run : ∀ n ≤ g.records.length,
      Pass g n ((List.range n).foldl absorb (g.records.map fun r => { record := r })) := by
    intro n hn
    induction n with
    | zero => exact pass_zero g
    | succ n ih =>
      rw [List.range_succ, List.foldl_append]
      exact (ih (by omega)).absorb unique (by omega)
  exact run _ (Nat.le_refl _)

end Draft

end BlobCensus.Graph
