import BlobCensus.Proofs.Glob.Matching
import BlobCensus.Proofs.NameIndex
import BlobCensus.Proofs.Text.Utf8

/-!
# What a search in an index finds, and in which order

The entries are sorted twice, by path and then by name, and both sorts are stable. So the files that a
pattern stands for are found as often as they are listed, by name and within one name by path, and
spellings of one path as they are listed.
-/
namespace BlobCensus

namespace Path

variable {p q : Path}

/-- The order of the files in an index: by the bytes of their names, and for one name by path. -/
def Precedes (p q : Path) : Prop :=
  Utf8.encode p.baseName < Utf8.encode q.baseName ∨ p.baseName = q.baseName ∧ p.le q = true

/-- Two spellings of one path that have the same name. -/
def SameNamed (p q : Path) : Prop := p.baseName = q.baseName ∧ p.Same q

instance (p q : Path) : Decidable (SameNamed p q) := inferInstanceAs (Decidable (_ ∧ _))

theorem SameNamed.le (h : p.SameNamed q) : p.le q = true := by
  rw [Path.le, h.2, Std.ReflOrd.compare_self]
  rfl

end Path

namespace NameIndex

variable {listed : List Path} {fits : String → Bool}

theorem mem_entries {entry : String × Path} (h : entry ∈ entries listed) :
    entry.1 = entry.2.baseName := by
  simp only [entries, List.mem_mergeSort, List.mem_map] at h
  obtain ⟨p, -, rfl⟩ := h
  rfl

theorem pairwise_precedes_fitting : (fitting fits listed).Pairwise Path.Precedes := by
  have hpaths : ((listed.mergeSort Path.le).map fun p => (p.baseName, p)).Pairwise
      fun e f => e.2.le f.2 = true :=
    List.pairwise_map.mpr (List.pairwise_mergeSort Path.le_trans Path.le_total listed)
  have hentries := pairwise_mergeSort_stable entryLe_trans entryLe_total hpaths
  refine List.pairwise_map.mpr (List.Pairwise.filter _ (hentries.imp_of_mem ?_))
  intro e f he hf hef
  have hle : e.1 ≤ f.1 := nameLe_iff.mp hef.1
  rw [mem_entries he, mem_entries hf] at hle
  rw [Path.Precedes, Utf8.encode_lt_iff]
  rcases hle.lt_or_eq with hlt | heq
  · exact .inl hlt
  · refine .inr ⟨heq, hef.2 (nameLe_iff.mpr ?_)⟩
    rw [mem_entries he, mem_entries hf, heq]

theorem fitting_perm : (fitting fits listed).Perm (listed.filter fun p => fits p.baseName) := by
  have hentries : (entries listed).Perm (listed.map fun p => (p.baseName, p)) :=
    (List.mergeSort_perm _ _).trans ((List.mergeSort_perm _ _).map _)
  have hperm := (hentries.filter (fits ·.1)).map Prod.snd
  rw [List.filter_map, List.map_map] at hperm
  exact hperm.trans (.of_eq (List.map_id _))

/-- Twins are sorted as they are listed. -/
theorem entries_of_sameNamed (sameNamed : listed.Pairwise Path.SameNamed) :
    entries listed = listed.map fun p => (p.baseName, p) := by
  rw [entries, List.mergeSort_of_pairwise (sameNamed.imp fun h => h.le)]
  apply List.mergeSort_of_pairwise
  rw [List.pairwise_map]
  exact sameNamed.imp fun h => nameLe_iff.mpr (h.1.le)

theorem filter_sameNamed_fitting (p : Path) : (fitting fits listed).filter (p.SameNamed ·) =
    (listed.filter fun q => fits q.baseName).filter (p.SameNamed ·) := by
  have hsameNamed : (listed.filter (p.SameNamed ·)).Pairwise Path.SameNamed := by
    refine List.pairwise_of_forall_mem_list fun q hq r hr => ?_
    have hpq : p.SameNamed q := by simpa using (List.mem_filter.mp hq).2
    have hpr : p.SameNamed r := by simpa using (List.mem_filter.mp hr).2
    exact ⟨hpq.1.symm.trans hpr.1, hpq.2.symm.trans hpr.2⟩
  rw [← fitting_filter, fitting, entries_of_sameNamed hsameNamed, List.filter_map, List.map_map]
  simp only [List.filter_filter, Bool.and_comm]
  exact List.map_id _

/-- An index has as many paths as were listed. What it finds for a pattern is every listed path whose name
the pattern stands for, as often as it is listed: by the bytes of the names, within one name by path,
and spellings of one path as they are listed. A text without wildcards is looked up as a name, and that
finds what trying it on all names as a pattern finds. -/
theorem search_finds_listed (listed : List Path) (pattern : String)
    (usable : (Glob.ofString pattern).isUsable = true) :
    (ofPaths listed).size = listed.length ∧
      (∃ found, (ofPaths listed).matching? pattern = some found ∧
        found.Perm (listed.filter fun p => (Glob.ofString pattern).accepts p.baseName) ∧
        found.Pairwise Path.Precedes ∧
        ∀ p : Path, found.filter (p.SameNamed ·) =
          (listed.filter fun q => (Glob.ofString pattern).accepts q.baseName).filter (p.SameNamed ·)) ∧
      ('*' ∉ pattern.toList → '?' ∉ pattern.toList →
        (ofPaths listed).matching? pattern = some ((ofPaths listed).named pattern) ∧
        (ofPaths listed).named pattern = (ofPaths listed).accepted (Glob.ofString pattern)) := by
  have hplain : (Glob.ofString pattern).isWild = false →
      (Glob.ofString pattern).accepts = (· == pattern) :=
    fun plain => funext (Glob.accepts_plain plain)
  have hfound : (ofPaths listed).matching? pattern =
      some (fitting (Glob.ofString pattern).accepts listed) := by
    rw [matching?_ofPaths]
    cases hwild : (Glob.ofString pattern).isWild with
    | true => simp [usable]
    | false => simp [hplain hwild]
  refine ⟨(paths_ofPaths_perm listed).length_eq,
    ⟨_, hfound, fitting_perm, pairwise_precedes_fitting, filter_sameNamed_fitting⟩, fun run one => ?_⟩
  have hwild : (Glob.ofString pattern).isWild = false := by
    rw [← Bool.not_eq_true, Glob.isWild_ofString]
    exact not_or.mpr ⟨run, one⟩
  refine ⟨by rw [matching?, hwild]; rfl, ?_⟩
  rw [named_ofPaths, accepted_ofPaths, hplain hwild]

def plainSpelling : Path := .ofString "r/a.so"

def doubledSlash : Path := .ofString "r//a.so"

def otherDirectory : Path := .ofString "q/b.so"

def notUtf8 : Path := ⟨[0x71, 0x2F, 0xFF, 0x2E, 0x73, 0x6F]⟩

def otherEnding : Path := .ofString "q/c.txt"

def spelledListing : List Path :=
  [notUtf8, otherDirectory, doubledSlash, otherEnding, plainSpelling, otherDirectory]

theorem search_finds_listed_spellings :
    (Glob.ofString "?.so").isUsable = true ∧ (ofPaths spelledListing).size = 6 ∧
      ∃ found, (ofPaths spelledListing).matching? "?.so" = some found ∧
        found.Perm [notUtf8, otherDirectory, doubledSlash, plainSpelling, otherDirectory] ∧
        found.Pairwise Path.Precedes ∧
        found.filter (plainSpelling.SameNamed ·) = [doubledSlash, plainSpelling] ∧
        found.filter (otherDirectory.SameNamed ·) = [otherDirectory, otherDirectory] := by
  have husable : (Glob.ofString "?.so").isUsable = true := by decide
  have hfits : (spelledListing.filter fun p => (Glob.ofString "?.so").accepts p.baseName) =
      [notUtf8, otherDirectory, doubledSlash, plainSpelling, otherDirectory] := by decide
  obtain ⟨hsize, ⟨found, hfound, hperm, horder, hsameNamed⟩, -⟩ :=
    search_finds_listed spelledListing "?.so" husable
  rw [hfits] at hperm
  refine ⟨husable, hsize, found, hfound, hperm, horder, ?_, ?_⟩
  · rw [hsameNamed, hfits]
    decide
  · rw [hsameNamed, hfits]
    decide

end NameIndex

end BlobCensus
