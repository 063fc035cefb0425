import Mathlib.Data.List.Nodup
import BlobCensus.NameIndex
import BlobCensus.Path

/-!
# Index of files by name

Paths are ordered by their components: the order is total, and two paths that stand in it either way
are spellings of one path. Grouping by name keeps every listed path, and what a pattern finds are indexed
paths: those whose names fit, in the order of the sorted entries. As a sort does not mind what is left
out, files that are not listed are missing from what a pattern finds, and nothing else changes.
-/
namespace BlobCensus

namespace Component

instance : Std.TransOrd Component :=
  inferInstanceAs (Std.TransCmp (compareLex (compareOn rank) (compareOn segment)))

instance : Std.LawfulEqOrd Component where
  eq_of_compare {a b} h := by
    obtain ⟨hrank, hsegment⟩ := Ordering.then_eq_eq.mp h
    have hrank : a.rank = b.rank := Std.LawfulEqOrd.eq_of_compare hrank
    have hsegment : a.segment = b.segment := Std.LawfulEqOrd.eq_of_compare hsegment
    cases a <;> cases b <;> simp_all [rank, segment]

end Component

namespace Path

theorem le_trans (p q r : Path) (hpq : p.le q) (hqr : q.le r) : p.le r :=
  Std.TransOrd.isLE_trans hpq hqr

theorem le_total (p q : Path) : p.le q || q.le p := by
  rw [Bool.or_eq_true]
  by_cases h : (compare p.components q.components).isLE
  · exact .inl h
  · right
    rw [le, Std.OrientedOrd.eq_swap (a := q.components)]
    cases hcompare : compare p.components q.components <;> simp_all

theorem same_of_le_of_le {p q : Path} (hpq : p.le q) (hqp : q.le p) : p.Same q :=
  Std.LawfulEqOrd.eq_of_compare (Std.OrientedCmp.isLE_antisymm hpq hqp)

/-- Files that are different paths are sorted in one way, however they are listed. -/
theorem mergeSort_eq_of_perm {listed other : List Path} (same : listed.Perm other)
    (distinct : (listed.map components).Nodup) : listed.mergeSort le = other.mergeSort le := by
  have hperm : (listed.mergeSort le).Perm (other.mergeSort le) :=
    (List.mergeSort_perm _ _).trans (same.trans (List.mergeSort_perm _ _).symm)
  refine hperm.eq_of_pairwise ?_ (List.pairwise_mergeSort le_trans le_total listed)
    (List.pairwise_mergeSort le_trans le_total other)
  intro p q hp hq hpq hqp
  rw [List.mem_mergeSort] at hp hq
  exact List.inj_on_of_nodup_map distinct hp (same.mem_iff.mpr hq) (same_of_le_of_le hpq hqp)

end Path

namespace NameIndex

theorem flatMap_filter_gather (fits : String → Bool) (entry : String × Path)
    (groups : List (String × List Path)) :
    ((gather entry groups).filter (fits ·.1)).flatMap Prod.snd =
      ([entry].filter (fits ·.1)).map Prod.snd ++
        (groups.filter (fits ·.1)).flatMap Prod.snd := by
  cases groups with
  | nil => by_cases hfits : fits entry.1 = true <;> simp [gather, hfits]
  | cons group rest =>
    by_cases hname : group.1 = entry.1 <;> by_cases hfits : fits entry.1 = true <;>
      simp [gather, hname, hfits]

/-- Choosing groups by their names is choosing entries. -/
theorem flatMap_filter_foldr (fits : String → Bool) (named : List (String × Path)) :
    ((named.foldr gather []).filter (fits ·.1)).flatMap Prod.snd =
      (named.filter (fits ·.1)).map Prod.snd := by
  induction named with
  | nil => rfl
  | cons entry rest ih =>
    rw [List.foldr_cons, flatMap_filter_gather, ih, ← List.map_append, ← List.filter_append]
    rfl

theorem flatMap_foldr_gather (named : List (String × Path)) :
    (named.foldr gather []).flatMap Prod.snd = named.map Prod.snd := by
  simpa using flatMap_filter_foldr (fun _ => true) named

theorem paths_ofPaths_perm (listed : List Path) : (ofPaths listed).paths.Perm listed := by
  rw [ofPaths, paths, flatMap_foldr_gather]
  refine ((List.mergeSort_perm _ _).map Prod.snd).trans ?_
  rw [List.map_map]
  have hid : (Prod.snd ∘ fun p : Path => (p.baseName, p)) = id := rfl
  rw [hid, List.map_id]
  exact List.mergeSort_perm _ _

theorem ofPaths_eq_of_perm {listed other : List Path} (same : listed.Perm other)
    (distinct : (listed.map Path.components).Nodup) : ofPaths listed = ofPaths other := by
  simp only [ofPaths, Path.mergeSort_eq_of_perm same distinct]

theorem named_subset (index : NameIndex) (name : String) : index.named name ⊆ index.paths := by
  intro p hp
  unfold named at hp
  cases hl : index.groups.lookup name with
  | none => simp [hl] at hp
  | some group =>
    rw [hl, Option.getD_some] at hp
    obtain ⟨front, back, he, -⟩ := List.lookup_eq_some_iff.mp hl
    rw [paths, he]
    simp [hp]

theorem accepted_subset (index : NameIndex) (glob : Glob) : index.accepted glob ⊆ index.paths := by
  intro p hp
  simp only [accepted, List.mem_flatMap, List.mem_filter] at hp
  obtain ⟨group, ⟨hg, -⟩, hp⟩ := hp
  exact List.mem_flatMap.mpr ⟨group, hg, hp⟩

theorem matching?_subset {index : NameIndex} {pattern : String} {found : List Path}
    (h : index.matching? pattern = some found) : found ⊆ index.paths := by
  simp only [matching?] at h
  split at h
  · cases h
    exact named_subset index pattern
  · split at h
    · cases h
      exact accepted_subset index _
    · cases h

section Sorting

variable {α : Type} {le : α → α → Bool} (trans : ∀ a b c, le a b → le b c → le a c)
  (total : ∀ a b, le a b || le b a)
include trans total

/-- A stable sort puts an item before those it is at most equal to, and behind the others. -/
theorem mergeSort_cons_eq (a : α) (rest : List α) :
    (a :: rest).mergeSort le =
      (rest.mergeSort le).filter (!le a ·) ++ a :: (rest.mergeSort le).filter (le a ·) ∧
    rest.mergeSort le =
      (rest.mergeSort le).filter (!le a ·) ++ (rest.mergeSort le).filter (le a ·) := by
  obtain ⟨before, after, hcons, hrest, hbefore⟩ := List.mergeSort_cons trans total a rest
  have hafter : ∀ b ∈ after, le a b = true := by
    have hsorted := List.pairwise_mergeSort trans total (a :: rest)
    rw [hcons, List.pairwise_append, List.pairwise_cons] at hsorted
    exact hsorted.2.1.1
  have hfront : (before ++ after).filter (!le a ·) = before := by
    rw [List.filter_append, List.filter_eq_self.mpr hbefore, List.filter_eq_nil_iff.mpr]
    · exact List.append_nil before
    · intro b hb
      simp [hafter b hb]
  have hback : (before ++ after).filter (le a ·) = after := by
    rw [List.filter_append, List.filter_eq_self.mpr hafter, List.filter_eq_nil_iff.mpr]
    · exact List.nil_append after
    · intro b hb
      simpa using hbefore b hb
  rw [hcons, hrest, hfront, hback]
  exact ⟨rfl, rfl⟩

/-- Leaving items out before sorting or after it is the same. -/
theorem mergeSort_filter (keep : α → Bool) (items : List α) :
    (items.filter keep).mergeSort le = (items.mergeSort le).filter keep := by
  induction items with
  | nil => simp
  | cons a rest ih =>
    obtain ⟨hcons, hrest⟩ := mergeSort_cons_eq trans total a rest
    by_cases hkeep : keep a = true
    · rw [List.filter_cons_of_pos hkeep, (mergeSort_cons_eq trans total a _).1, ih, hcons,
        List.filter_append, List.filter_cons_of_pos hkeep]
      simp only [List.filter_filter, Bool.and_comm]
    · rw [List.filter_cons_of_neg hkeep, ih, hcons, List.filter_append,
        List.filter_cons_of_neg hkeep, ← List.filter_append, ← hrest]

/-- Items that are equal in the order keep the relation in which they stood before sorting. -/
theorem pairwise_mergeSort_stable {R : α → α → Prop} {items : List α} (h : items.Pairwise R) :
    (items.mergeSort le).Pairwise fun a b => le a b = true ∧ (le b a = true → R a b) := by
  induction items with
  | nil => simp
  | cons a rest ih =>
    obtain ⟨hcons, hrest⟩ := mergeSort_cons_eq trans total a rest
    rw [List.pairwise_cons] at h
    have hsorted := ih h.2
    rw [hrest, List.pairwise_append] at hsorted
    obtain ⟨hfront, hback, hcross⟩ := hsorted
    rw [hcons, List.pairwise_append, List.pairwise_cons]
    refine ⟨hfront, ⟨fun b hb => ?_, hback⟩, fun b hb c hc => ?_⟩
    · obtain ⟨hmem, hle⟩ := List.mem_filter.mp hb
      exact ⟨hle, fun _ => h.1 b (List.mem_mergeSort.mp hmem)⟩
    · rcases List.mem_cons.mp hc with rfl | hc
      · have hnot : le c b = false := by simpa using (List.mem_filter.mp hb).2
        refine ⟨by simpa [hnot] using total c b, fun hle => ?_⟩
        rw [hnot] at hle
        cases hle
      · exact hcross b hb c hc

end Sorting

theorem nameLe_iff {a b : String} : nameLe a b = true ↔ a ≤ b := by
  rw [nameLe, Bool.not_eq_true', decide_eq_false_iff_not, String.not_lt]

theorem nameLe_trans (a b c : String) (hab : nameLe a b) (hbc : nameLe b c) : nameLe a c :=
  nameLe_iff.mpr (String.le_trans (nameLe_iff.mp hab) (nameLe_iff.mp hbc))

theorem nameLe_total (a b : String) : nameLe a b || nameLe b a := by
  rw [Bool.or_eq_true, nameLe_iff, nameLe_iff]
  exact String.le_total a b

def entryLe (a b : String × Path) : Bool := nameLe a.1 b.1

theorem entryLe_trans (a b c : String × Path) (hab : entryLe a b) (hbc : entryLe b c) :
    entryLe a c :=
  nameLe_trans a.1 b.1 c.1 hab hbc

theorem entryLe_total (a b : String × Path) : entryLe a b || entryLe b a :=
  nameLe_total a.1 b.1

/-- The listed paths under their names, in the order in which the index gathers them. -/
def entries (listed : List Path) : List (String × Path) :=
  ((listed.mergeSort Path.le).map fun p => (p.baseName, p)).mergeSort entryLe

theorem ofPaths_eq (listed : List Path) : ofPaths listed = ⟨(entries listed).foldr gather []⟩ := by
  have hle : entryLe = fun a b => nameLe a.1 b.1 := rfl
  simp only [ofPaths, entries, hle]

theorem entries_filter (keep : Path → Bool) (listed : List Path) :
    entries (listed.filter keep) = (entries listed).filter (keep ·.2) := by
  unfold entries
  rw [mergeSort_filter Path.le_trans Path.le_total, ← mergeSort_filter entryLe_trans entryLe_total,
    List.filter_map]
  rfl

theorem pairwise_entries (listed : List Path) :
    ((entries listed).map Prod.fst).Pairwise (· ≤ ·) := by
  rw [List.pairwise_map]
  exact (List.pairwise_mergeSort entryLe_trans entryLe_total _).imp nameLe_iff.mp

/-- Sorted entries are gathered into one group for each name. -/
theorem pairwise_names {named : List (String × Path)}
    (sorted : (named.map Prod.fst).Pairwise (· ≤ ·)) :
    ((named.foldr gather []).map Prod.fst).Pairwise (· < ·) ∧
      (named.foldr gather []).map Prod.fst ⊆ named.map Prod.fst := by
  induction named with
  | nil => simp
  | cons entry rest ih =>
    rw [List.map_cons, List.pairwise_cons] at sorted
    obtain ⟨hpairwise, hsub⟩ := ih sorted.2
    rw [List.foldr_cons, List.map_cons]
    cases hgroups : rest.foldr gather [] with
    | nil => simp [gather]
    | cons group others =>
      rw [hgroups, List.map_cons] at hpairwise hsub
      have hkept : group.1 :: others.map Prod.fst ⊆ entry.1 :: rest.map Prod.fst :=
        fun n hn => List.mem_cons_of_mem _ (hsub hn)
      by_cases hname : group.1 = entry.1
      · simp only [gather, if_pos hname, List.map_cons]
        exact ⟨hpairwise, hkept⟩
      · have hlt : entry.1 < group.1 := by
          apply String.not_le.mp
          intro hle
          exact hname (String.le_antisymm hle (sorted.1 _ (hsub List.mem_cons_self)))
        simp only [gather, if_neg hname, List.map_cons]
        refine ⟨List.pairwise_cons.mpr ⟨?_, hpairwise⟩, List.cons_subset.mpr ⟨by simp, hkept⟩⟩
        intro n hn
        rcases List.mem_cons.mp hn with rfl | hn
        · exact hlt
        · exact String.lt_trans hlt ((List.pairwise_cons.mp hpairwise).1 n hn)

theorem lookup_getD {groups : List (String × List Path)}
    (sorted : (groups.map Prod.fst).Pairwise (· < ·)) (name : String) :
    (groups.lookup name).getD [] = (groups.filter (·.1 == name)).flatMap Prod.snd := by
  induction groups with
  | nil => rfl
  | cons group rest ih =>
    obtain ⟨taken, paths⟩ := group
    rw [List.map_cons, List.pairwise_cons] at sorted
    by_cases hname : taken = name
    · have hothers : rest.filter (·.1 == name) = [] := by
        apply List.filter_eq_nil_iff.mpr
        intro other hother
        have hlt := sorted.1 other.1 (List.mem_map_of_mem hother)
        rw [hname] at hlt
        simpa using (String.ne_of_lt hlt).symm
      simp [hname, hothers]
    · have hne : (name == taken) = false := by simpa using Ne.symm hname
      simp [List.lookup_cons, hname, hne, ih sorted.2]

/-- The listed paths whose names fit, in the order of the index. -/
def fitting (fits : String → Bool) (listed : List Path) : List Path :=
  ((entries listed).filter (fits ·.1)).map Prod.snd

theorem mem_fitting {fits : String → Bool} {listed : List Path} {p : Path} :
    p ∈ fitting fits listed ↔ p ∈ listed ∧ fits p.baseName = true := by
  simp only [fitting, entries, List.mem_map, List.mem_filter, List.mem_mergeSort]
  constructor
  · rintro ⟨_, ⟨⟨q, hq, rfl⟩, hfits⟩, rfl⟩
    exact ⟨hq, hfits⟩
  · rintro ⟨hp, hfits⟩
    exact ⟨_, ⟨⟨p, hp, rfl⟩, hfits⟩, rfl⟩

theorem named_ofPaths (listed : List Path) (name : String) :
    (ofPaths listed).named name = fitting (· == name) listed := by
  rw [named, ofPaths_eq, lookup_getD (pairwise_names (pairwise_entries listed)).1]
  exact flatMap_filter_foldr (· == name) (entries listed)

theorem accepted_ofPaths (listed : List Path) (glob : Glob) :
    (ofPaths listed).accepted glob = fitting glob.accepts listed := by
  rw [accepted, ofPaths_eq]
  exact flatMap_filter_foldr glob.accepts (entries listed)

theorem matching?_ofPaths (listed : List Path) (pattern : String) :
    (ofPaths listed).matching? pattern =
      if !(Glob.ofString pattern).isWild then some (fitting (· == pattern) listed)
      else if (Glob.ofString pattern).isUsable then
        some (fitting (Glob.ofString pattern).accepts listed)
      else none := by
  rw [matching?, named_ofPaths, accepted_ofPaths]

theorem fitting_filter (fits : String → Bool) (keep : Path → Bool) (listed : List Path) :
    fitting fits (listed.filter keep) = (fitting fits listed).filter keep := by
  unfold fitting
  rw [entries_filter, List.filter_map]
  simp only [List.filter_filter, Bool.and_comm]
  rfl

/-- Leaving paths out of the listing leaves them out of what a pattern finds, and changes nothing
else. -/
theorem matching?_filter (keep : Path → Bool) (listed : List Path) (pattern : String) :
    (ofPaths (listed.filter keep)).matching? pattern =
      ((ofPaths listed).matching? pattern).map (List.filter keep) := by
  rw [matching?_ofPaths, matching?_ofPaths, fitting_filter, fitting_filter]
  split
  · rfl
  · split <;> rfl

end NameIndex

end BlobCensus
