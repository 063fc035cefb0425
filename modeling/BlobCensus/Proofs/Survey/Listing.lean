import Mathlib
import BlobCensus.Proofs.NameIndex
import BlobCensus.Survey

/-!
# Listings

The files under a root may be listed in any order. A survey sorts them before it does anything with
them, so two listings of the same files lead to the same work, access by access: the same answers, the
same order in them, and the same session afterwards.
-/
namespace BlobCensus

/-- The tools with another listing. -/
def Inspector.relist (inspector : Inspector) (listing : Path → List Path) : Inspector :=
  { inspector with listFiles := listing }

@[simp] theorem Inspector.listFiles_relist {inspector : Inspector} {listing : Path → List Path} :
    (inspector.relist listing).listFiles = listing := rfl

namespace Workbench

variable {ρ : Type} {w : Workbench} {root : Path} {listing : Path → List Path}

def relist (w : Workbench) (listing : Path → List Path) : Workbench :=
  { w with inspector := w.inspector.relist listing }

@[simp] theorem inspector_relist :
    (w.relist listing).inspector = w.inspector.relist listing := rfl

@[simp] theorem classify_relist : (w.relist listing).classify = w.classify := rfl

@[simp] theorem scan_relist : (w.relist listing).scan = w.scan := rfl

@[simp] theorem scanAll_relist : (w.relist listing).scanAll = w.scanAll := rfl

section SameIndex

variable (same : NameIndex.ofPaths (listing root) = NameIndex.ofPaths (w.inspector.listFiles root))
include same

theorem prepare_relist : (w.relist listing).prepare root = w.prepare root := by
  funext s
  simp only [prepare, inspector_relist, Inspector.listFiles_relist, same]

theorem resolve_relist : (w.relist listing).resolve root = w.resolve root := by
  funext library wanted
  simp only [resolve, candidates, nameIndex, prepare_relist same, classify_relist]

theorem expandOrLeaf_relist : (w.relist listing).expandOrLeaf root = w.expandOrLeaf root := by
  funext p s
  simp only [expandOrLeaf, expand, scan_relist, resolve_relist same]

theorem drain_relist (reporter : Reporter ρ) (fuel : Nat) :
    (w.relist listing).drain reporter root fuel = w.drain reporter root fuel := by
  induction fuel with
  | zero => rfl
  | succ fuel ih =>
    funext walk s
    simp only [drain, expandOrLeaf_relist same, ih]

theorem closure_relist (reporter : Reporter ρ) (seed : Path) :
    (w.relist listing).closure reporter root seed = w.closure reporter root seed := by
  funext report s
  simp only [closure, prepare_relist same, drain_relist same]

end SameIndex

end Workbench

namespace Survey

variable {survey : Survey} {inspector : Inspector} {listing : Path → List Path}

theorem bench_relist :
    survey.bench (inspector.relist listing) = (survey.bench inspector).relist listing := rfl

/-- The order in which files are listed never matters, if no two of them are spellings of one path. -/
theorem survey_of_perm (survey : Survey) (inspector : Inspector) (other : Path → List Path)
    (same : (inspector.listFiles survey.root).Perm (other survey.root))
    (distinct : ((inspector.listFiles survey.root).map Path.components).Nodup) :
    survey.inventory (inspector.relist other) = survey.inventory inspector ∧
    survey.tree (inspector.relist other) = survey.tree inspector ∧
    survey.usage (inspector.relist other) = survey.usage inspector ∧
    ∀ {ρ : Type} (reporter : Reporter ρ) (seed : Path) (report : ρ) (s : Session),
      (survey.bench (inspector.relist other)).closure reporter survey.root seed report s =
        (survey.bench inspector).closure reporter survey.root seed report s ∧
      ∀ disk : Disk, survey.closure disk (inspector.relist other) reporter seed report s =
        survey.closure disk inspector reporter seed report s := by
  have hinventory : survey.inventory (inspector.relist other) = survey.inventory inspector := by
    have hsorted := Path.mergeSort_eq_of_perm same distinct
    simp only [inventory, bench_relist, Workbench.scanAll_relist, Inspector.listFiles_relist, hsorted]
  have hclosure : ∀ {ρ : Type} (reporter : Reporter ρ) (file : Path),
      (survey.bench (inspector.relist other)).closure reporter survey.root file =
        (survey.bench inspector).closure reporter survey.root file := by
    intro ρ reporter file
    have hindex := NameIndex.ofPaths_eq_of_perm same distinct
    rw [bench_relist]
    exact Workbench.closure_relist hindex.symm reporter file
  refine ⟨hinventory, ?_, ?_, ?_⟩
  · rw [tree, tree, hinventory]
  · rw [usage, usage, hinventory]
  · intro ρ reporter seed report s
    refine ⟨by rw [hclosure], fun disk => ?_⟩
    simp only [closure, hclosure]

section Reordered

def reorderedSeed : Path := .ofString "/a.so"

def reorderedFirst : Path := .ofString "/lib/b.so"

def reorderedSecond : Path := .ofString "/lib64/b.so"

def reordered : Survey :=
  ⟨.ofString "/", { ignoredLibraries := [], nonBinaryExtensions := [] }, .content⟩

def reorderedTools : Inspector :=
  { listFiles := fun _ => [reorderedFirst, reorderedSecond, reorderedSeed]
    describe := fun _ => .ok "ELF 64-bit"
    texts := fun p => .ok (if p = reorderedSeed then ["%s.so"] else []) }

def reorderedListing (_ : Path) : List Path := [reorderedSecond, reorderedSeed, reorderedFirst]

/-- The closure has the files of one name in path order, also if they are listed the other way
round. -/
theorem survey_of_perm_reordered :
    (reorderedTools.listFiles reordered.root).Perm (reorderedListing reordered.root) ∧
    ((reorderedTools.listFiles reordered.root).map Path.components).Nodup ∧
    reordered.tree (reorderedTools.relist reorderedListing) = reordered.tree reorderedTools ∧
    ((reordered.bench (reorderedTools.relist reorderedListing)).closure Collection.reporter reordered.root
      reorderedSeed {} {}).1 = .ok ⟨reorderedSeed, [reorderedFirst, reorderedSecond]⟩ := by
  have hsame : (reorderedTools.listFiles reordered.root).Perm (reorderedListing reordered.root) := by decide
  have hdistinct : ((reorderedTools.listFiles reordered.root).map Path.components).Nodup := by decide
  obtain ⟨-, htree, -, hclosure⟩ := survey_of_perm reordered reorderedTools reorderedListing hsame hdistinct
  refine ⟨hsame, hdistinct, htree, ?_⟩
  rw [(hclosure Collection.reporter reorderedSeed {} {}).1]
  have hindex : NameIndex.ofPaths ((reordered.bench reorderedTools).inspector.listFiles reordered.root) =
      ⟨[("a.so", [reorderedSeed]), ("b.so", [reorderedFirst, reorderedSecond])]⟩ := by cbv
  simp only [Workbench.closure, Workbench.prepare, hindex]
  decide +kernel

end Reordered

end Survey

end BlobCensus
