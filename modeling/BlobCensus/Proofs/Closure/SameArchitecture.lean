import BlobCensus.Proofs.Closure.Course
import BlobCensus.Proofs.Closure.Refusal
import BlobCensus.Proofs.Session.Edges
import BlobCensus.Proofs.Survey.Listing

/-!
# One architecture

A search leads from a file to files of its own architecture only. So it stays among the files with the
architecture of the seed, and the other ones may be missing from the listing: although they share names,
groups of the index and patterns with the files found, the search does not notice.
-/
namespace BlobCensus

namespace Workbench

variable {w : Workbench} {root seed p q : Path} {files : List Path}

/-- The bench without the files whose architecture is not that of the seed. -/
def confined (w : Workbench) (seed : Path) : Workbench :=
  w.relist fun root => (w.inspector.listFiles root).filter fun p => w.verdict p = w.verdict seed

theorem listFiles_confined_subset :
    (w.confined seed).inspector.listFiles root ⊆ w.inspector.listFiles root :=
  List.filter_sublist.subset

theorem filesOfArchitecture_confined {a : Architecture} (ha : w.verdict seed = .ok a) (library : String) :
    (w.confined seed).filesOfArchitecture root a library = w.filesOfArchitecture root a library := by
  have hnamed : (w.confined seed).filesNamed root library =
      (w.filesNamed root library).filter fun p => w.verdict p = w.verdict seed := by
    simp only [filesNamed, confined, inspector_relist, Inspector.listFiles_relist,
      NameIndex.matching?_filter]
    cases (NameIndex.ofPaths (w.inspector.listFiles root)).matching? (Glob.ofLibrary library) <;> rfl
  have hverdict : (w.confined seed).verdict = w.verdict := rfl
  rw [filesOfArchitecture, hnamed, hverdict, List.filter_filter, filesOfArchitecture, ha]
  simp

section Confined

variable {play : List Path} (spelling : Path.OneSpelling play)
  (listed : w.inspector.listFiles root ⊆ play) (told : ∀ p ∈ play, ∃ a, w.verdict p = .ok a)
include spelling listed told

/-- Edges lead to files of the same architecture, and only from a file of known architecture. -/
theorem verdict_of_mem_edges (hp : p ∈ play) (hq : q ∈ w.edges root p) :
    ∃ a, a.isKnown = true ∧ w.verdict p = .ok a ∧ w.verdict q = .ok a := by
  rw [edges_eq spelling listed hp, expansion_eq fun r hr => told r (listed hr)] at hq
  cases hblob : w.blobAt p with
  | error breakdown =>
    rw [hblob] at hq
    cases hq
  | ok blob =>
    rw [hblob] at hq
    change q ∈ if blob.isKnown = true then _ else _ at hq
    split at hq
    · rename_i hknown
      obtain ⟨library, -, halike⟩ := List.mem_flatMap.mp (mem_of_mem_distinct hq)
      have hverdict := (List.mem_filter.mp halike).2
      exact ⟨blob.architecture, hknown, architecture_of_blobAt hblob, by simpa using hverdict⟩
    · cases hq

theorem edges_confined (hp : p ∈ play) (alike : w.verdict p = w.verdict seed) :
    (w.confined seed).edges root p = w.edges root p := by
  have hlisted : (w.confined seed).inspector.listFiles root ⊆ play :=
    List.Subset.trans listFiles_confined_subset listed
  have hall := expansion_eq (fun r hr => told r (listed hr)) p
  have hsome := expansion_eq (w := w.confined seed) (fun r hr => told r (hlisted hr)) p
  have hblob : (w.confined seed).blobAt p = w.blobAt p := rfl
  rw [edges_eq spelling listed hp, edges_eq spelling hlisted hp, hall, hsome, hblob]
  cases hscan : w.blobAt p with
  | error breakdown => simp only [Except.map]
  | ok blob =>
    have hseed : w.verdict seed = .ok blob.architecture := by
      rw [← alike]
      exact architecture_of_blobAt hscan
    have hnamed : (w.confined seed).filesOfArchitecture root blob.architecture =
        w.filesOfArchitecture root blob.architecture := funext (filesOfArchitecture_confined hseed)
    simp only [Except.map, hnamed]

/-- The search takes the same course without the files of other architectures. -/
theorem course_confined {ρ : Type} (reporter : Reporter ρ) (report : ρ) (hseed : seed ∈ play) :
    (w.confined seed).course reporter root seed report = w.course reporter root seed report := by
  have hlisted : (w.confined seed).inspector.listFiles root ⊆ play :=
    List.Subset.trans listFiles_confined_subset listed
  have hfuel : ((w.confined seed).inspector.listFiles root).length + 1 ≤
      (w.inspector.listFiles root).length + 1 :=
    Nat.succ_le_succ (List.length_filter_le _ _)
  have hdone := pending_course spelling hlisted reporter report hseed
  have hmore := Walk.follow_of_le hfuel hdone
  obtain ⟨alike, halike⟩ : ∃ alike : List Path, ∀ p, p ∈ alike ↔ p ∈ play ∧ w.verdict p = w.verdict seed :=
    ⟨play.filter fun p => w.verdict p = w.verdict seed, by simp⟩
  have hqueue : (Walk.start seed report).queue ⊆ alike := by
    simpa [Walk.start, halike] using hseed
  have hclosed : ∀ p ∈ alike, w.edges root p ⊆ alike := by
    intro p hp q hq
    obtain ⟨hplay, hverdict⟩ := (halike p).mp hp
    obtain ⟨a, -, hpa, hqa⟩ := verdict_of_mem_edges spelling listed told hplay hq
    have hlater : q ∈ play := listed (edges_subset spelling listed hplay hq)
    exact (halike q).mpr ⟨hlater, hqa.trans (hpa.symm.trans hverdict)⟩
  have hsame : ∀ p ∈ alike, (w.confined seed).edges root p = w.edges root p := by
    intro p hp
    obtain ⟨hplay, hverdict⟩ := (halike p).mp hp
    exact edges_confined spelling listed told hplay hverdict
  rw [course, course, ← hmore]
  exact Walk.follow_congr hqueue hclosed hsame

/-- A seed of unknown architecture has no edges, so the search is over before anything is reported. -/
theorem course_of_unknown {ρ : Type} (reporter : Reporter ρ) (report : ρ) (hseed : seed ∈ play)
    (unknown : w.verdict seed = .ok .unknown) :
    (w.course reporter root seed report).outcome seed = .ok ⟨seed, []⟩ := by
  have hnone : w.edges root seed = [] := by
    apply List.eq_nil_iff_forall_not_mem.mpr
    intro q hq
    obtain ⟨a, hknown, ha, -⟩ := verdict_of_mem_edges spelling listed told hseed hq
    rw [unknown] at ha
    cases ha
    cases hknown
  have hdone : ∀ fuel, ∀ walk : Walk ρ, walk.pending = 0 →
      walk.follow (w.edges root) reporter root fuel = walk := by
    intro fuel walk hpending
    cases fuel <;> simp [Walk.follow, hpending]
  rw [course, Walk.follow]
  simp [Walk.start, hnone, Walk.receive, hdone, Walk.outcome]

end Confined

/-- A listed file that has the architecture of the seed, which is known. -/
def MatchesSeed (w : Workbench) (root seed q : Path) : Prop :=
  q ∈ w.inspector.listFiles root ∧
    ∃ a, a.isKnown = true ∧ w.verdict seed = .ok a ∧ w.verdict q = .ok a

theorem matchesSeed_of_needs (spelling : Path.OneSpelling (w.inPlay root seed))
    (told : ∀ p ∈ w.inPlay root seed, ∃ a, w.verdict p = .ok a) (needs : w.Needs root seed q) :
    w.MatchesSeed root seed q := by
  have hlisted : w.inspector.listFiles root ⊆ w.inPlay root seed := List.subset_cons_self _ _
  induction needs with
  | single edge =>
    have hseed : seed ∈ w.inPlay root seed := List.mem_cons_self
    exact ⟨edges_subset spelling hlisted hseed edge,
      verdict_of_mem_edges spelling hlisted told hseed edge⟩
  | tail _ edge ih =>
    obtain ⟨hlater, a, hknown, hseed, hp⟩ := ih
    obtain ⟨b, -, hb, hq⟩ := verdict_of_mem_edges spelling hlisted told (hlisted hlater) edge
    obtain rfl : a = b := Except.ok.inj (hp.symm.trans hb)
    exact ⟨edges_subset spelling hlisted (hlisted hlater) edge, a, hknown, hseed, hq⟩

end Workbench

namespace Crew

open Workbench

variable {ρ : Type}

section Search

variable {w : Workbench} {reporter : Reporter ρ} {root seed : Path} {report : ρ} {session : Session}
  (spelling : Path.OneSpelling (w.inPlay root seed))
  (faithful : session.Faithful w root (w.inPlay root seed))
  (told : ∀ p ∈ w.inPlay root seed, ∃ a, w.verdict p = .ok a)
include spelling faithful told

theorem Run.matchesSeed {workers : ℕ} {actions : List Action} {s : State ρ}
    (run : Run (steady workers w reporter root)
      ((steady workers w reporter root).start seed report session) actions s) :
    ∀ q ∈ s.walk.found, w.MatchesSeed root seed q := by
  intro q hq
  exact matchesSeed_of_needs spelling told (run.found_needed rfl spelling faithful hq).2

theorem closure_matchesSeed {closure : Closure}
    (h : (w.closure reporter root seed report session).1 = .ok closure) :
    ∀ q ∈ closure.paths, w.MatchesSeed root seed q := by
  obtain ⟨actions, last, run, -, hlast⟩ := closure_run_steady w reporter root seed report session
  rw [hlast] at h
  rw [Walk.found_of_outcome h]
  exact run.matchesSeed spelling faithful told

theorem closure_of_unknown (unknown : w.verdict seed = .ok .unknown) :
    (w.closure reporter root seed report session).1 = .ok ⟨seed, []⟩ := by
  obtain ⟨t, -, hcourse⟩ := closure_eq_course spelling (List.subset_cons_self _ _) faithful reporter
    report List.mem_cons_self
  rw [hcourse]
  exact course_of_unknown spelling (List.subset_cons_self _ _) told reporter report
    List.mem_cons_self unknown

theorem closure_confined {other : Session}
    (hother : other.Faithful (w.confined seed) root ((w.confined seed).inPlay root seed)) :
    ((w.confined seed).closure reporter root seed report other).1 =
        (w.closure reporter root seed report session).1 ∧
      ((w.confined seed).closure reporter root seed report other).2.1 =
        (w.closure reporter root seed report session).2.1 := by
  have hlisted : w.inspector.listFiles root ⊆ w.inPlay root seed := List.subset_cons_self _ _
  have hseed : seed ∈ w.inPlay root seed := List.mem_cons_self
  have hfewer : (w.confined seed).inPlay root seed ⊆ w.inPlay root seed :=
    List.cons_subset_cons seed listFiles_confined_subset
  have hspelling : Path.OneSpelling ((w.confined seed).inPlay root seed) :=
    fun p hp q hq => spelling p (hfewer hp) q (hfewer hq)
  obtain ⟨t, -, hcourse⟩ := closure_eq_course spelling hlisted faithful reporter report hseed
  obtain ⟨u, -, hconfined⟩ := closure_eq_course hspelling (List.subset_cons_self _ _) hother
    reporter report List.mem_cons_self
  rw [hcourse, hconfined, course_confined spelling hlisted told reporter report hseed]
  exact ⟨rfl, rfl⟩

end Search

/-- A search finds files of the seed's architecture only, with any number of workers and whatever the
reporter says; so does the search by itself, and it finds nothing for a seed of unknown architecture. The
search by itself has the same outcome and the same report if all other files are missing from the
listing. -/
theorem search_same_architecture (w : Workbench) (reporter : Reporter ρ) (root seed : Path) (report : ρ)
    (session : Session) (spelling : Path.OneSpelling (w.inPlay root seed))
    (faithful : session.Faithful w root (w.inPlay root seed))
    (tells : ∀ p ∈ w.inPlay root seed, ∃ text, w.inspector.describe p = .ok text) :
    (∀ workers actions s, Run (steady workers w reporter root)
        ((steady workers w reporter root).start seed report session) actions s →
      ∀ q ∈ s.walk.found, w.MatchesSeed root seed q) ∧
    (∀ closure, (w.closure reporter root seed report session).1 = .ok closure →
      ∀ q ∈ closure.paths, w.MatchesSeed root seed q) ∧
    (w.verdict seed = .ok .unknown →
      (w.closure reporter root seed report session).1 = .ok ⟨seed, []⟩) ∧
    ∀ other : Session, other.Faithful (w.confined seed) root ((w.confined seed).inPlay root seed) →
      ((w.confined seed).closure reporter root seed report other).1 =
          (w.closure reporter root seed report session).1 ∧
        ((w.confined seed).closure reporter root seed report other).2.1 =
          (w.closure reporter root seed report session).2.1 := by
  have told : ∀ p ∈ w.inPlay root seed, ∃ a, w.verdict p = .ok a :=
    fun p hp => exists_verdict (tells p hp)
  refine ⟨?_, ?_, ?_, ?_⟩
  · intro workers actions s run
    exact run.matchesSeed spelling faithful told
  · intro closure hclosure
    exact closure_matchesSeed spelling faithful told hclosure
  · exact closure_of_unknown spelling faithful told
  · intro other hother
    exact closure_confined spelling faithful told hother

section Mixed

def mixedSeed : Path := .ofString "/a.so"

def mixed64 : Path := .ofString "/lib64/b.so"

def mixed32 : Path := .ofString "/lib/b.so"

def mixedUnknown : Path := .ofString "/c.so"

def mixedBench : Workbench :=
  { settings := { ignoredLibraries := [], nonBinaryExtensions := [] }
    strategy := .content
    inspector :=
      { listFiles := fun _ => [mixedUnknown, mixed64, mixed32, mixedSeed]
        describe := fun p => .ok <|
          if p = mixedUnknown then "ASCII text"
          else if p = mixed32 then "ELF 32-bit"
          else "ELF 64-bit"
        texts := fun p => .ok [if p = mixedSeed then "%s.so" else "c.so"] } }

def mixedSession : Session :=
  { index := some ⟨[("a.so", [mixedSeed]), ("b.so", [mixed32, mixed64]),
      ("c.so", [mixedUnknown])]⟩ }

theorem faithful_mixedSession : mixedSession.Faithful mixedBench (.ofString "/")
    (mixedBench.inPlay (.ofString "/") mixedSeed) := by
  exact .indexed mixedBench (.ofString "/") _ (by cbv)

/-- Of the files that fit the pattern only the one of the seed's architecture is found, also if the two
others are not listed. -/
theorem search_same_architecture_mixed :
    Path.OneSpelling (mixedBench.inPlay (.ofString "/") mixedSeed) ∧
    mixedSession.Faithful mixedBench (.ofString "/") (mixedBench.inPlay (.ofString "/") mixedSeed) ∧
    (∀ p ∈ mixedBench.inPlay (.ofString "/") mixedSeed, ∃ text, mixedBench.inspector.describe p = .ok text) ∧
    (mixedBench.confined mixedSeed).inspector.listFiles (.ofString "/") = [mixed64, mixedSeed] ∧
    mixedBench.MatchesSeed (.ofString "/") mixedSeed mixed64 ∧
    ((mixedBench.confined mixedSeed).closure Collection.reporter (.ofString "/") mixedSeed {} {}).1 =
      .ok ⟨mixedSeed, [mixed64]⟩ := by
  have hspelling : Path.OneSpelling (mixedBench.inPlay (.ofString "/") mixedSeed) := by decide
  have htells : ∀ p ∈ mixedBench.inPlay (.ofString "/") mixedSeed,
      ∃ text, mixedBench.inspector.describe p = .ok text := fun p _ => ⟨_, rfl⟩
  have hvalue : (mixedBench.closure Collection.reporter (.ofString "/") mixedSeed {} mixedSession).1 =
      .ok ⟨mixedSeed, [mixed64]⟩ := by decide +kernel
  obtain ⟨-, halike, -, hconfined⟩ := search_same_architecture mixedBench Collection.reporter (.ofString "/")
    mixedSeed {} mixedSession hspelling faithful_mixedSession htells
  refine ⟨hspelling, faithful_mixedSession, htells, by decide +kernel,
    halike _ hvalue mixed64 List.mem_cons_self, ?_⟩
  rw [(hconfined {} (.fresh _ _ _)).1, hvalue]

end Mixed

end Crew

end BlobCensus
