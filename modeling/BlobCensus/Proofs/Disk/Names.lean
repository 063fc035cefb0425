import Mathlib
import BlobCensus.Disk

/-!
# Paths of names

The names of directory entries are segments that stand for themselves. The absolute path of a list of
them says no more and no less than the list: it has one text, its components and steps are the names,
and what lies below it is joined to it and cut off again without loss.
-/
namespace BlobCensus

/-- A name that an entry of a directory can bear. -/
structure Segment.IsName (s : Segment) : Prop where
  noSlash : slash ∉ s
  noZero : 0 ∉ s
  named : Component.ofSegment? s = some (.name s)
  fits : s.length ≤ Disk.maxNameLength

namespace Segment

variable {s : Segment}

instance (s : Segment) : Decidable s.IsName :=
  decidable_of_iff (slash ∉ s ∧ 0 ∉ s ∧ Component.ofSegment? s = some (.name s) ∧
      s.length ≤ Disk.maxNameLength)
    ⟨fun ⟨noSlash, noZero, named, fits⟩ => ⟨noSlash, noZero, named, fits⟩,
      fun h => ⟨h.noSlash, h.noZero, h.named, h.fits⟩⟩

theorem IsName.ne_nil (h : s.IsName) : s ≠ [] := by
  rintro rfl
  have hnamed := h.named
  simp [Component.ofSegment?] at hnamed

theorem IsName.ne_dot (h : s.IsName) : s ≠ [0x2E] := by
  rintro rfl
  have hnamed := h.named
  simp [Component.ofSegment?] at hnamed

theorem IsName.head?_ne (h : s.IsName) : s.head? ≠ some slash := by
  intro hhead
  exact h.noSlash (List.mem_of_mem_head? hhead)

end Segment

namespace Path

/-- The relative path of the names. -/
def ofNamesBelow (names : List Segment) : Path := ⟨[slash].intercalate names⟩

def Part.ofName (name : Segment) : Part := ⟨name, some (.name name)⟩

variable {place names more : List Segment}

theorem bytes_ofNamesBelow_append (hnames : names ≠ []) (hmore : more ≠ []) :
    (ofNamesBelow (names ++ more)).bytes =
      (ofNamesBelow names).bytes ++ slash :: (ofNamesBelow more).bytes := by
  induction names with
  | nil => exact absurd rfl hnames
  | cons n rest ih =>
    cases rest with
    | nil => simp [ofNamesBelow, List.intercalate_cons_of_ne_nil hmore]
    | cons n' rest =>
      have hrest := ih (List.cons_ne_nil n' rest)
      simp only [ofNamesBelow, List.cons_append] at hrest ⊢
      rw [List.intercalate_cons_cons, hrest, List.intercalate_cons_cons]
      simp

/-- Below a directory other than the root, paths go on with a slash. -/
theorem bytes_ofNames_append (hnames : names ≠ []) (hmore : more ≠ []) :
    (ofNames (names ++ more)).bytes = (ofNames names).bytes ++ slash :: (ofNamesBelow more).bytes :=
  congrArg (slash :: ·) (bytes_ofNamesBelow_append hnames hmore)

@[simp] theorem isAbsolute_ofNames : (ofNames names).isAbsolute = true := rfl

/-- Along a path of names texts grow. -/
theorem length_ofNames_le (names more : List Segment) :
    (ofNames names).bytes.length ≤ (ofNames (names ++ more)).bytes.length := by
  by_cases hnames : names = []
  · simp [hnames, ofNames]
  by_cases hmore : more = []
  · simp [hmore]
  · rw [bytes_ofNames_append hnames hmore, List.length_append]
    exact Nat.le_add_right _ _

theorem isShort_of_append (h : (ofNames (names ++ more)).isShort = true) :
    (ofNames names).isShort = true := by
  simp only [isShort, decide_eq_true_eq] at h ⊢
  exact (length_ofNames_le names more).trans h

section Names

variable (hnames : ∀ n ∈ names, n.IsName)
include hnames

theorem isAbsolute_ofNamesBelow : (ofNamesBelow names).isAbsolute = false := by
  rw [isAbsolute, beq_eq_false_iff_ne]
  cases names with
  | nil => simp [ofNamesBelow]
  | cons n rest =>
    have hn : n.IsName := hnames n List.mem_cons_self
    obtain ⟨byte, tail, rfl⟩ := List.exists_cons_of_ne_nil hn.ne_nil
    have hhead := hn.head?_ne
    cases rest <;> simpa [ofNamesBelow, List.intercalate_cons_cons] using hhead

theorem splitOn_ofNamesBelow (hne : names ≠ []) :
    (ofNamesBelow names).bytes.splitOn slash = names :=
  List.splitOn_intercalate slash (fun n hn => (hnames n hn).noSlash) hne

theorem splitOn_ofNames (hne : names ≠ []) : (ofNames names).bytes.splitOn slash = [] :: names := by
  change (slash :: (ofNamesBelow names).bytes).splitOn slash = _
  rw [List.splitOn_cons_eq_if_modifyHead, if_pos (beq_self_eq_true slash),
    splitOn_ofNamesBelow hnames hne]

theorem steps_ofNames (hne : names ≠ []) : (ofNames names).steps = .stay :: names.map .down := by
  rw [steps, splitOn_ofNames hnames hne, List.map_cons]
  refine congrArg _ (List.map_congr_left fun n hn => ?_)
  rw [(hnames n hn).named]

theorem parts_ofNames (hne : names ≠ []) :
    (ofNames names).parts = ⟨[], some .root⟩ :: names.map Part.ofName := by
  simp only [parts, splitOn_ofNames hnames hne, isAbsolute_ofNames, if_true]
  refine congrArg _ (List.map_congr_left fun n hn => ?_)
  rw [(hnames n hn).named, Part.ofName]

theorem components_ofNames : (ofNames names).components = .root :: names.map .name := by
  by_cases hne : names = []
  · subst hne
    rfl
  · simp only [components, parts_ofNames hnames hne, List.filterMap_cons, List.filterMap_map]
    rw [← List.filterMap_eq_map]
    rfl

theorem components_ofNamesBelow : (ofNamesBelow names).components = names.map .name := by
  have habsolute := isAbsolute_ofNamesBelow hnames
  cases names with
  | nil => rfl
  | cons n rest =>
    have hdot : n ≠ [0x2E] := (hnames n List.mem_cons_self).ne_dot
    have hparts : (ofNamesBelow (n :: rest)).parts = (n :: rest).map Part.ofName := by
      simp only [parts, splitOn_ofNamesBelow hnames (List.cons_ne_nil _ _), habsolute,
        Bool.false_eq_true, if_false, if_neg hdot]
      rw [← List.map_cons (f := fun s : Segment => (⟨s, Component.ofSegment? s⟩ : Part))]
      refine List.map_congr_left fun m hm => ?_
      rw [(hnames m hm).named, Part.ofName]
    rw [components, hparts, List.filterMap_map, ← List.filterMap_eq_map]
    rfl

theorem mustBeText_ofNames : Disk.mustBeText (ofNames names) = .ok () := by
  have hzero : (0 : UInt8) ∉ (ofNames names).bytes := by
    simp only [ofNames, List.mem_cons, not_or]
    refine ⟨by decide, ?_⟩
    induction names with
    | nil => simp
    | cons n rest ih =>
      obtain ⟨hn, hrest⟩ := List.forall_mem_cons.mp hnames
      by_cases hne : rest = []
      · simpa [hne] using hn.noZero
      · rw [List.intercalate_cons_of_ne_nil hne]
        simp only [List.mem_append, not_or]
        exact ⟨⟨hn.noZero, by decide⟩, ih hrest⟩
  have htext : (ofNames names).bytes ≠ [] := List.cons_ne_nil _ _
  rw [Disk.mustBeText, if_neg (by simpa using hzero), if_neg htext]

end Names

/-- The base name is the text of the last name. -/
theorem baseName_of_components {p : Path} {before : List Component} {n : Segment}
    (h : p.components = before ++ [.name n]) : p.baseName = Utf8.decodeLossy n := by
  have hlast : p.fileName? = some n := by
    rw [fileName?, h, List.getLast?_concat]
  rw [baseName, hlast]

/-- An entry has one base name, from the root or from a directory above it. -/
theorem baseName_ofNamesBelow (hplace : ∀ n ∈ place, n.IsName) (hnames : ∀ n ∈ names, n.IsName)
    (hne : names ≠ []) : (ofNamesBelow names).baseName = (ofNames (place ++ names)).baseName := by
  obtain ⟨before, last, rfl⟩ := (List.eq_nil_or_concat names).resolve_left hne
  rw [List.concat_eq_append] at hnames ⊢
  have hall : ∀ n ∈ place ++ (before ++ [last]), n.IsName :=
    fun n hn => (List.mem_append.mp hn).elim (hplace n) (hnames n)
  have hbelow : (ofNamesBelow (before ++ [last])).components = before.map .name ++ [.name last] := by
    rw [components_ofNamesBelow hnames, List.map_append]
    rfl
  have hwhole : (ofNames (place ++ (before ++ [last]))).components =
      (.root :: (place ++ before).map .name) ++ [.name last] := by
    rw [components_ofNames hall]
    simp
  rw [baseName_of_components hbelow, baseName_of_components hwhole]

/-- Different names have different paths, in every sense. -/
theorem same_ofNames (hnames : ∀ n ∈ names, n.IsName) (hmore : ∀ n ∈ more, n.IsName) :
    (ofNames names).Same (ofNames more) ↔ names = more := by
  rw [Same, components_ofNames hnames, components_ofNames hmore, List.cons_inj_right]
  exact (List.map_injective_iff.mpr fun _ _ h => Component.name.inj h).eq_iff

/-- What is joined to a path of names goes on below it. -/
theorem join_ofNamesBelow (hplace : ∀ n ∈ place, n.IsName) (hnames : ∀ n ∈ names, n.IsName)
    (hne : names ≠ []) : (ofNames place).join (ofNamesBelow names) = ofNames (place ++ names) := by
  rw [join, isAbsolute_ofNamesBelow hnames, if_neg Bool.false_ne_true]
  by_cases hroot : place = []
  · subst hroot
    rw [if_pos (.inr rfl)]
    rfl
  · have hlast : ¬ ((ofNames place).bytes = [] ∨ (ofNames place).bytes.getLast? = some slash) := by
      rintro (h | h)
      · exact List.cons_ne_nil _ _ h
      · obtain ⟨before, last, rfl⟩ := (List.eq_nil_or_concat place).resolve_left hroot
        have hlast : last.IsName := hplace last (by simp)
        have hbytes : (ofNames (before ++ [last])).bytes.getLast? = last.getLast? := by
          by_cases hbefore : before = []
          · subst hbefore
            simp only [ofNames, List.nil_append, List.intercalate_singleton]
            exact List.getLast?_cons_of_ne_nil hlast.ne_nil
          · rw [bytes_ofNames_append hbefore (List.cons_ne_nil _ _), ofNamesBelow,
              List.intercalate_singleton, List.getLast?_append_of_ne_nil _ (List.cons_ne_nil _ _)]
            exact List.getLast?_cons_of_ne_nil hlast.ne_nil
        rw [List.concat_eq_append, hbytes] at h
        exact hlast.noSlash (List.mem_of_getLast? h)
    rw [if_neg hlast, ← bytes_ofNames_append hroot hne]

theorem below_ofNames (hplace : ∀ n ∈ place, n.IsName) (hnames : ∀ n ∈ names, n.IsName) :
    (ofNames place).below names = ofNames (place ++ names) := by
  induction names generalizing place with
  | nil => simp [below]
  | cons n rest ih =>
    obtain ⟨hn, hrest⟩ := List.forall_mem_cons.mp hnames
    have hone : ∀ m ∈ [n], m.IsName := by simpa using hn
    have hjoin := join_ofNamesBelow hplace hone (List.cons_ne_nil _ _)
    rw [ofNamesBelow, List.intercalate_singleton] at hjoin
    rw [below, List.foldl_cons, hjoin]
    have hlonger : ∀ m ∈ place ++ [n], m.IsName := by
      simpa [or_imp, forall_and] using ⟨hplace, hn⟩
    have hgoes := ih hlonger hrest
    rw [below] at hgoes
    rw [hgoes, List.append_assoc, List.singleton_append]

theorem afterComponents?_names (place names : List Segment) :
    afterComponents? (place.map .name) ((place ++ names).map Part.ofName) =
      some (names.map Part.ofName) := by
  induction place with
  | nil => simp [afterComponents?]
  | cons n rest ih =>
    rw [List.map_cons, List.cons_append, List.map_cons, afterComponents?]
    simpa [Part.ofName] using ih

theorem dropWhile_names (names : List Segment) :
    (names.map Part.ofName).dropWhile (·.component.isNone) = names.map Part.ofName := by
  cases names <;> simp [Part.ofName]

theorem trimEnd_names (names : List Segment) :
    trimEnd (names.map Part.ofName) = names.map Part.ofName := by
  rw [trimEnd, ← List.map_reverse, dropWhile_names, List.map_reverse, List.reverse_reverse]

theorem ofParts_names (hne : names ≠ []) : ofParts (names.map Part.ofName) = ofNamesBelow names := by
  have hsegments : (names.map Part.ofName).map Part.segment = names := by
    rw [List.map_map]
    exact List.map_id names
  rw [ofNamesBelow, ofParts, hsegments]
  intro hroot
  obtain ⟨n, rest, rfl⟩ := List.exists_cons_of_ne_nil hne
  simp [Part.ofName] at hroot

/-- Seen from a directory, the path of an entry is that of the names below the directory. -/
theorem relativeTo_ofNames (hplace : ∀ n ∈ place, n.IsName) (hnames : ∀ n ∈ names, n.IsName)
    (hne : names ≠ []) :
    relativeTo (ofNames place) (ofNames (place ++ names)) = ofNamesBelow names := by
  have hall : ∀ n ∈ place ++ names, n.IsName := by
    simpa [or_imp, forall_and] using ⟨hplace, hnames⟩
  have hrest : afterComponents? (.root :: place.map .name) (ofNames (place ++ names)).parts =
      some (names.map Part.ofName) := by
    rw [parts_ofNames hall (List.append_ne_nil_of_right_ne_nil _ hne), afterComponents?]
    simpa using afterComponents?_names place names
  rw [relativeTo, relativeTo?, components_ofNames hplace]
  simp only [hrest, Option.map_some, Option.getD_some, dropWhile_names, trimEnd_names,
    ofParts_names hne]

end Path

end BlobCensus
