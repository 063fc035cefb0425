import BlobCensus.Survey
import BlobCensus.Proofs.Closure.Course
import BlobCensus.Proofs.Closure.Refusal
import BlobCensus.Proofs.Disk.Listing

/-!
# Seeds by many names

A seed may be named by any text that leads to its file: with dots, slashes and links, from the root or
from elsewhere. The files under the root are listed by the one path of their names, and the seed's text
is taken to such a path as well. So a search meets each file under one path only: it never finds its
own seed, its records lead back to what it found, and it does not depend on how the seed was named.
-/
namespace BlobCensus

open Directory (isFolder_nil)
open Workbench (recordsOf)

/-- A path that leads to a regular file by its names. It is its own canonical path, if it is short
enough to have one. -/
structure Disk.NamesFile (disk : Disk) (p : Path) : Prop where
  place : ∃ names content, p = .ofNames names ∧ disk.tree.entryAt names = some (.file content)
  canonical : disk.canonical p = if p.isShort then .ok p else .error .nameTooLong
  isFile : disk.isFile p = p.isShort

theorem Disk.WellFormed.namesFile {disk : Disk} (wf : disk.WellFormed) {names : List Segment}
    {content : List UInt8} (h : disk.tree.entryAt names = some (.file content)) :
    disk.NamesFile (.ofNames names) where
  place := ⟨names, content, rfl, h⟩
  canonical := wf.canonical_ofNames ⟨_, h, fun _ => Entry.noConfusion⟩
  isFile := wf.isFile_ofNames h

namespace Disk.NamesFile

variable {disk : Disk} {p q : Path}

theorem eq_of_same (wf : disk.WellFormed) (hp : disk.NamesFile p) (hq : disk.NamesFile q)
    (same : p.Same q) : p = q := by
  obtain ⟨names, content, rfl, hnames⟩ := hp.place
  obtain ⟨more, other, rfl, hmore⟩ := hq.place
  have hsame := (Path.same_ofNames (wf.tree.isName_of_entryAt hnames)
    (wf.tree.isName_of_entryAt hmore)).mp same
  rw [hsame]

theorem canonical_ne (hp : disk.NamesFile p) (hne : p ≠ q) : disk.canonical p ≠ .ok q := by
  rw [hp.canonical]
  split
  · exact fun h => hne (Except.ok.inj h)
  · exact fun h => by cases h

end Disk.NamesFile

namespace Crew

variable {ρ : Type} {crew : Crew ρ} {seed : Path} {report : ρ} {session : Session}
  {actions : List Action} {s : State (Log ρ)}

/-- Only indexed files other than the seed are ever offered to the reporter. -/
theorem Run.offered
    (run : Run crew.logged (crew.logged.start seed ⟨report, []⟩ session) actions s) :
    ∀ call ∈ s.walk.report.calls, ∃ q ∈ (crew.logged.bench.prepare crew.root session).1.paths,
      ¬ q.Same seed ∧ call.1 = .path (Path.relativeTo crew.root q) := by
  induction run with
  | nil => simp [Crew.start, Walk.start]
  | @snoc actions s t action prior step ih =>
    cases step with
    | take => exact ih
    | work => exact ih
    | finish => exact ih
    | receive => exact ih
    | @meet p rest busy =>
      have hlisted := prior.accounts.batch (a := p) (by simp [busy])
      have hseed := prior.accounts.seen seed List.mem_cons_self
      have hmet : p.components ∉ s.walk.seen → ¬ p.Same seed :=
        fun hnew hsame => hnew (hsame ▸ hseed)
      simp only [logged_reporter, logged_root] at ih ⊢
      obtain ⟨-, hmeet⟩ | ⟨-, hnew, ⟨reason, -, hmeet⟩ | ⟨-, hmeet⟩⟩ :=
        Walk.meet_cases crew.reporter.logged crew.root s.walk p
      · simpa only [hmeet] using ih
      · simp only [hmeet, Reporter.logged_emit, List.mem_append, List.mem_singleton]
        rintro call (hcall | rfl)
        · exact ih call hcall
        · exact ⟨p, hlisted, hmet hnew, rfl⟩
      · simp only [hmeet, Reporter.logged_emit, List.mem_append, List.mem_singleton]
        rintro call (hcall | rfl)
        · exact ih call hcall
        · exact ⟨p, hlisted, hmet hnew, rfl⟩

end Crew

namespace Survey

variable {survey : Survey} {disk : Disk} {directory seed file p : Path} {settings : Settings}
  {strategy : Strategy} {inspector : Inspector}

theorem exists_root (wf : disk.WellFormed)
    (survey_eq : ofRoot disk directory settings strategy = .ok survey) :
    ∃ place, survey.root = .ofNames place ∧ disk.tree.IsFolder place ∧
      (Path.ofNames place).isShort = true := by
  unfold ofRoot at survey_eq
  cases hcanonical : disk.canonical directory with
  | error => rw [hcanonical] at survey_eq; cases survey_eq
  | ok root =>
    rw [hcanonical] at survey_eq
    obtain ⟨place, rfl, hproper⟩ := wf.canonical_isProper hcanonical
    change (if disk.isDirectory (.ofNames place) then _ else _) = _ at survey_eq
    split at survey_eq
    · rename_i hfolder
      unfold Disk.isDirectory at hfolder
      split at hfolder
      · rename_i inside hentry
        obtain ⟨hinside, hshort⟩ := wf.entryAt_of_found hproper hentry
        obtain rfl := Except.ok.inj survey_eq
        exact ⟨place, rfl, ⟨inside, hinside⟩, hshort⟩
      · cases hfolder
    · cases survey_eq

/-- The file that a seed's text leads to is a regular file under its canonical path. -/
theorem namesFile_of_seedFile (wf : disk.WellFormed) (h : survey.seedFile disk seed = .ok file) :
    disk.canonical (survey.root.join seed) = .ok file ∧ disk.NamesFile file ∧
      disk.canonical file = .ok file := by
  unfold seedFile at h
  cases hcanonical : disk.canonical (survey.root.join seed) with
  | error => simp only [hcanonical] at h; cases h
  | ok place =>
    simp only [hcanonical] at h
    split at h
    · rename_i hfile
      obtain rfl := Except.ok.inj h
      obtain ⟨names, rfl, hproper⟩ := wf.canonical_isProper hcanonical
      unfold Disk.isFile at hfile
      split at hfile
      · rename_i content hentry
        obtain ⟨hcontent, hshort⟩ := wf.entryAt_of_found hproper hentry
        refine ⟨rfl, wf.namesFile hcontent, ?_⟩
        rw [wf.canonical_ofNames hproper, if_pos hshort]
      · cases hfile
    · cases h

/-- Any text with the same canonical path names the same seed. -/
theorem seedFile_of_canonical {other : Path} (h : survey.seedFile disk seed = .ok file)
    (same : disk.canonical (survey.root.join other) = disk.canonical (survey.root.join seed)) :
    survey.seedFile disk other = .ok file := by
  unfold seedFile at h
  cases hcanonical : disk.canonical (survey.root.join seed) with
  | error => simp only [hcanonical] at h; cases h
  | ok place =>
    simp only [seedFile, same, hcanonical] at h ⊢
    split at h
    · rename_i hfile
      rw [if_pos hfile, h]
    · cases h

/-- A listed file other than the seed's, whose path below the root is relative and leads back to it. -/
structure IsBeside (survey : Survey) (disk : Disk) (file p : Path) : Prop where
  names : disk.NamesFile p
  listed : p ∈ disk.listFiles survey.root
  other : p ≠ file ∧ disk.canonical p ≠ .ok file
  below : (Path.relativeTo survey.root p).isAbsolute = false
  joined : survey.root.join (Path.relativeTo survey.root p) = p

/-- A file is listed by names below those of the root. -/
theorem exists_names (wf : disk.WellFormed)
    (survey_eq : ofRoot disk directory settings strategy = .ok survey)
    (listed : p ∈ disk.listFiles survey.root) :
    ∃ place names content, survey.root = .ofNames place ∧ p = .ofNames (place ++ names) ∧
      names ≠ [] ∧ disk.tree.entryAt (place ++ names) = some (.file content) ∧
      (∀ n ∈ place, n.IsName) ∧ ∀ n ∈ names, n.IsName := by
  obtain ⟨place, hroot, hfolder, hshort⟩ := exists_root wf survey_eq
  rw [hroot] at listed
  obtain ⟨names, content, rfl, hne, hcontent, -⟩ := (wf.mem_listFiles hfolder hshort).mp listed
  have hall := wf.tree.isName_of_entryAt hcontent
  exact ⟨place, names, content, hroot, rfl, hne, hcontent,
    fun n hn => hall n (List.mem_append_left _ hn), fun n hn => hall n (List.mem_append_right _ hn)⟩

theorem namesFile_of_listed (wf : disk.WellFormed)
    (survey_eq : ofRoot disk directory settings strategy = .ok survey)
    (listed : p ∈ disk.listFiles survey.root) : disk.NamesFile p := by
  obtain ⟨place, names, content, -, rfl, -, hcontent, -⟩ := exists_names wf survey_eq listed
  exact wf.namesFile hcontent

theorem isBeside_of_listed (wf : disk.WellFormed)
    (survey_eq : ofRoot disk directory settings strategy = .ok survey)
    (listed : p ∈ disk.listFiles survey.root) (other : ¬ p.Same file) :
    survey.IsBeside disk file p := by
  have hfile := namesFile_of_listed wf survey_eq listed
  have hne : p ≠ file := fun h => other (h ▸ rfl)
  obtain ⟨place, names, content, hroot, hp, hnil, -, hplace, hnames⟩ :=
    exists_names wf survey_eq listed
  have hrelative : Path.relativeTo survey.root p = .ofNamesBelow names := by
    rw [hroot, hp, Path.relativeTo_ofNames hplace hnames hnil]
  refine ⟨hfile, listed, ⟨hne, hfile.canonical_ne hne⟩, ?_, ?_⟩
  · rw [hrelative, Path.isAbsolute_ofNamesBelow hnames]
  · rw [hrelative, hroot, hp, Path.join_ofNamesBelow hplace hnames hnil]

/-- A search from a file that has found and reported only files beside it. -/
structure Tells {ρ : Type} (survey : Survey) (disk : Disk) (file : Path) (found : List Path)
    (log : Log ρ) : Prop where
  beside : ∀ q ∈ found, survey.IsBeside disk file q
  /-- The records taken are the paths found, as they stand below the root. -/
  accepted : log.accepted = recordsOf survey.root found
  /-- A record that was refused is such a path, too. -/
  offered : ∀ call ∈ log.calls, ∃ q, survey.IsBeside disk file q ∧
    call.1 = .path (Path.relativeTo survey.root q)

/-- The search of a survey is a finished run of a crew, which starts without an index. -/
theorem exists_run {ρ : Type} (inspector : Inspector) (h : survey.seedFile disk seed = .ok file)
    (reporter : Reporter ρ) (report : ρ) (session : Session) :
    ∃ (crew : Crew ρ) (actions : List Crew.Action) (last : Crew.State (Log ρ)),
      crew.bench = survey.bench inspector ∧ crew.root = survey.root ∧ crew.variants = ∅ ∧
      Crew.Run crew.logged (crew.logged.start file ⟨report, []⟩ { session with index := none })
        actions last ∧ last.Finished ∧
      survey.closure disk inspector reporter.logged seed ⟨report, []⟩ session =
        (last.walk.outcome file, last.walk.report, last.session) := by
  obtain ⟨crew, hcrew⟩ : ∃ crew : Crew ρ,
      crew = { workers := 1, bench := survey.bench inspector, reporter, root := survey.root } :=
    ⟨_, rfl⟩
  obtain ⟨actions, last, run, finished, hclosure⟩ :=
    Crew.closure_run crew.logged file ⟨report, []⟩ { session with index := none }
  refine ⟨crew, actions, last, by rw [hcrew], by rw [hcrew], by rw [hcrew], run, finished, ?_⟩
  rw [closure, h, ← hclosure, hcrew]
  rfl

/-- Texts that lead to one file have one search, whatever the sessions remember. -/
theorem closure_congr {ρ : Type}
    (spelling : Path.OneSpelling ((survey.bench inspector).inPlay survey.root file)) {other : Path}
    {s t : Session}
    (hseed : survey.seedFile disk seed = .ok file) (hother : survey.seedFile disk other = .ok file)
    (hs : s.Faithful (survey.bench inspector) survey.root
      ((survey.bench inspector).inPlay survey.root file))
    (ht : t.Faithful (survey.bench inspector) survey.root
      ((survey.bench inspector).inPlay survey.root file)) (reporter : Reporter ρ) (report : ρ) :
    (survey.closure disk inspector reporter other report s).1 =
        (survey.closure disk inspector reporter seed report t).1 ∧
      (survey.closure disk inspector reporter other report s).2.1 =
        (survey.closure disk inspector reporter seed report t).2.1 := by
  have listed : inspector.listFiles survey.root ⊆
      (survey.bench inspector).inPlay survey.root file := List.subset_cons_self _ _
  obtain ⟨_, -, hleft⟩ := Workbench.closure_eq_course spelling listed hs.reindex reporter report
    List.mem_cons_self
  obtain ⟨_, -, hright⟩ := Workbench.closure_eq_course spelling listed ht.reindex reporter report
    List.mem_cons_self
  have hclosures : ∀ text after, survey.seedFile disk text = .ok file →
      survey.closure disk inspector reporter text report after =
        (survey.bench inspector).closure reporter survey.root file report
          { after with index := none } := by
    intro text after htext
    rw [closure, htext]
  rw [hclosures other s hother, hclosures seed t hseed, hleft, hright]
  exact ⟨rfl, rfl⟩

section Search

variable {ρ : Type} {report : ρ} {session : Session} (wf : disk.WellFormed)
  (survey_eq : ofRoot disk directory settings strategy = .ok survey)
  (lists : (inspector.listFiles survey.root).Perm (disk.listFiles survey.root))
include wf survey_eq lists

theorem tells_of_run {crew : Crew ρ} (bench : crew.bench = survey.bench inspector)
    (root : crew.root = survey.root)
    (kept : ∀ index, session.index = some index →
      index = NameIndex.ofPaths (inspector.listFiles survey.root))
    {actions : List Crew.Action} {s : Crew.State (Log ρ)}
    (run : Crew.Run crew.logged (crew.logged.start file ⟨report, []⟩ session) actions s) :
    survey.Tells disk file s.walk.found s.walk.report := by
  have hlisted : ∀ q ∈ (crew.logged.bench.prepare crew.root session).1.paths,
      q ∈ disk.listFiles survey.root := by
    intro q hq
    have hindex : (crew.logged.bench.prepare crew.root session).1 =
        NameIndex.ofPaths (inspector.listFiles survey.root) := by
      change (crew.bench.prepare crew.root session).1 = _
      rw [bench, root, Workbench.prepare]
      split
      · exact kept _ ‹_›
      · rfl
    rw [hindex] at hq
    exact lists.mem_iff.mp ((NameIndex.paths_ofPaths_perm _).mem_iff.mp hq)
  refine ⟨fun q hq => ?_, root ▸ run.log.2.1, fun call hcall => ?_⟩
  · refine isBeside_of_listed wf survey_eq (hlisted q (run.accounts.found hq)) fun hsame => ?_
    have hnodup := (List.nodup_cons.mp run.accounts.nodup).1
    exact hnodup (hsame ▸ List.mem_map_of_mem hq)
  · obtain ⟨q, hq, hother, hcall⟩ := run.offered call hcall
    exact ⟨q, isBeside_of_listed wf survey_eq (hlisted q hq) hother, root ▸ hcall⟩

theorem exists_tells_closure (hseed : survey.seedFile disk seed = .ok file) (reporter : Reporter ρ)
    (report : ρ) (session : Session) :
    ∃ found,
      survey.Tells disk file found
        (survey.closure disk inspector reporter.logged seed ⟨report, []⟩ session).2.1 ∧
      ∀ closure,
        (survey.closure disk inspector reporter.logged seed ⟨report, []⟩ session).1 = .ok closure →
          closure = ⟨file, found⟩ := by
  obtain ⟨crew, actions, last, bench, root, -, run, -, hclosure⟩ :=
    exists_run inspector hseed reporter report session
  have htells := tells_of_run wf survey_eq lists bench root (fun _ hindex => by cases hindex) run
  rw [hclosure]
  exact ⟨last.walk.found, htells, fun closure houtcome => (Walk.outcome_eq_ok houtcome).2⟩

theorem oneSpelling_inPlay (hfile : disk.NamesFile file) :
    Path.OneSpelling ((survey.bench inspector).inPlay survey.root file) := by
  have hplay : ∀ p ∈ (survey.bench inspector).inPlay survey.root file, disk.NamesFile p := by
    intro p hp
    rcases List.mem_cons.mp hp with rfl | hp
    · exact hfile
    · exact namesFile_of_listed wf survey_eq (lists.mem_iff.mp hp)
  exact fun p hp q hq same => (hplay p hp).eq_of_same wf (hplay q hq) same

end Search

/-- Crews of any sizes find the same files from one seed, if none of their records is refused. -/
theorem found_perm_of_runs {ρ : Type}
    (spelling : Path.OneSpelling ((survey.bench inspector).inPlay survey.root file))
    {reporter : Reporter ρ} {report : ρ} {s t : Session}
    (hs : s.Faithful (survey.bench inspector) survey.root
      ((survey.bench inspector).inPlay survey.root file))
    (ht : t.Faithful (survey.bench inspector) survey.root
      ((survey.bench inspector).inPlay survey.root file))
    {m n : ℕ} {actions more : List Crew.Action} {u v : Crew.State ρ}
    (left : Crew.Run (.steady m (survey.bench inspector) reporter survey.root)
      ((Crew.steady m (survey.bench inspector) reporter survey.root).start file report s) actions u)
    (hu : u.Finished) (taken : u.walk.failure = none)
    (right : Crew.Run (.steady n (survey.bench inspector) reporter survey.root)
      ((Crew.steady n (survey.bench inspector) reporter survey.root).start file report t) more v)
    (hv : v.Finished) (accepted : v.walk.failure = none) :
    u.walk.found.Perm v.walk.found := by
  refine (List.perm_ext_iff_of_nodup left.accounts.found_nodup right.accounts.found_nodup).mpr
    fun q => ?_
  rw [left.mem_found_iff rfl spelling hs taken hu, right.mem_found_iff rfl spelling ht accepted hv]
  rfl

/-- Every file is listed by the path that leads to it through directories alone, and stands for itself
unless that path is too long to be handed over. A search from a seed, by any crew and at any moment,
has found and reported only such files, never the seed's own, and its records, joined to the root, are
the paths it found. Texts that lead to one file name one seed: whatever the sessions remember, the
searches from them come out the same and report the same, and crews of any sizes find the same files
from them. -/
theorem closure_aliases (wf : disk.WellFormed)
    (survey_eq : ofRoot disk directory settings strategy = .ok survey)
    (lists : (inspector.listFiles survey.root).Perm (disk.listFiles survey.root)) :
    (∀ p ∈ inspector.listFiles survey.root, disk.NamesFile p) ∧
    ∀ seed file, survey.seedFile disk seed = .ok file →
      (disk.NamesFile file ∧ disk.canonical file = .ok file) ∧
      (∀ {ρ : Type} (crew : Crew ρ) (report : ρ) (session : Session),
        crew.bench = survey.bench inspector → crew.root = survey.root →
        (∀ index, session.index = some index →
          index = NameIndex.ofPaths (inspector.listFiles survey.root)) →
        ∀ actions s, Crew.Run crew.logged (crew.logged.start file ⟨report, []⟩ session) actions s →
          survey.Tells disk file s.walk.found s.walk.report) ∧
      (∀ {ρ : Type} (reporter : Reporter ρ) (report : ρ) (session : Session), ∃ found,
        survey.Tells disk file found
          (survey.closure disk inspector reporter.logged seed ⟨report, []⟩ session).2.1 ∧
        ∀ closure,
          (survey.closure disk inspector reporter.logged seed ⟨report, []⟩ session).1 = .ok closure →
            closure = ⟨file, found⟩) ∧
      ∀ other, disk.canonical (survey.root.join other) = disk.canonical (survey.root.join seed) →
        survey.seedFile disk other = .ok file ∧
        ∀ {ρ : Type} (reporter : Reporter ρ) (report : ρ) (s t : Session),
          s.Faithful (survey.bench inspector) survey.root
            ((survey.bench inspector).inPlay survey.root file) →
          t.Faithful (survey.bench inspector) survey.root
            ((survey.bench inspector).inPlay survey.root file) →
          (survey.closure disk inspector reporter other report s).1 =
            (survey.closure disk inspector reporter seed report t).1 ∧
          (survey.closure disk inspector reporter other report s).2.1 =
            (survey.closure disk inspector reporter seed report t).2.1 ∧
          ∀ m n actions more u v,
            Crew.Run (.steady m (survey.bench inspector) reporter survey.root)
              ((Crew.steady m (survey.bench inspector) reporter survey.root).start file report s)
              actions u → u.Finished → u.walk.failure = none →
            Crew.Run (.steady n (survey.bench inspector) reporter survey.root)
              ((Crew.steady n (survey.bench inspector) reporter survey.root).start file report t)
              more v → v.Finished → v.walk.failure = none →
            u.walk.found.Perm v.walk.found := by
  refine ⟨fun p hp => namesFile_of_listed wf survey_eq (lists.mem_iff.mp hp), ?_⟩
  intro seed file hseed
  obtain ⟨-, hfile, hself⟩ := namesFile_of_seedFile wf hseed
  have spelling := oneSpelling_inPlay wf survey_eq lists hfile
  refine ⟨⟨hfile, hself⟩, ?_, ?_, ?_⟩
  · intro ρ crew report session bench root kept actions s run
    exact tells_of_run wf survey_eq lists bench root kept run
  · intro ρ reporter report session
    exact exists_tells_closure wf survey_eq lists hseed reporter report session
  · intro other same
    have hother := seedFile_of_canonical hseed same
    refine ⟨hother, fun {ρ} reporter report s t hs ht => ?_⟩
    obtain ⟨hclosure, hreport⟩ := closure_congr spelling hseed hother hs ht reporter report
    refine ⟨hclosure, hreport, ?_⟩
    intro m n actions more u v left hu taken right hv accepted
    exact found_perm_of_runs spelling hs ht left hu taken right hv accepted

section Deep

def deepName : Segment := .replicate 150 0x67

def deepPlace : List Segment := .replicate 16 (.replicate 250 0x61)

def deepDisk : Disk :=
  { tree := deepPlace.foldr (fun n inside => .folder n inside .empty) (.file deepName [] .empty) }

def deep : Survey := ⟨.ofNames [], {}, .content⟩

/-- The deep file is listed, but its path has no canonical path and leads nowhere. -/
theorem listed_without_canonical :
    ¬ ∀ (disk : Disk) (directory : Path) (settings : Settings) (strategy : Strategy)
        (survey : Survey), disk.WellFormed → ofRoot disk directory settings strategy = .ok survey →
      ∀ p ∈ disk.listFiles survey.root, disk.canonical p = .ok p ∧ disk.isFile p = true := by
  intro always
  have wf : deepDisk.WellFormed := by decide +kernel
  have hroot : ofRoot deepDisk (.ofNames []) {} .content = .ok deep := by decide +kernel
  have hlisted : Path.ofNames (deepPlace ++ [deepName]) ∈ deepDisk.listFiles deep.root := by
    refine (wf.mem_listFiles (isFolder_nil _) rfl).mpr ⟨deepPlace ++ [deepName], [], rfl, ?_, ?_, ?_⟩
    · exact List.append_ne_nil_of_right_ne_nil _ (List.cons_ne_nil _ _)
    · decide +kernel
    · decide +kernel
  have hlong : deepDisk.isFile (.ofNames (deepPlace ++ [deepName])) = false := by decide +kernel
  obtain ⟨-, hfile⟩ := always deepDisk _ _ _ _ wf hroot _ hlisted
  exact absurd hfile (hlong ▸ Bool.false_ne_true)

end Deep

section Linked

def linkedSeed : Path := .ofString "/data/blobs/a.so"

def linkedNext : Path := .ofString "/data/blobs/lib64/b.so"

def linkedDisk : Disk :=
  { tree :=
      .link (Utf8.encode "link") (.ofString "data/blobs") <|
      .folder (Utf8.encode "data")
        (.link (Utf8.encode "alias") (.ofString "../link/a.so") <|
          .folder (Utf8.encode "blobs")
            (.file (Utf8.encode "a.so") [] <|
              .folder (Utf8.encode "lib64") (.file (Utf8.encode "b.so") [] .empty) .empty)
            .empty)
        .empty }

def linked : Survey :=
  ⟨.ofString "/data/blobs", { ignoredLibraries := [], nonBinaryExtensions := [] }, .content⟩

def linkedTools : Inspector :=
  { listFiles := linkedDisk.listFiles
    describe := fun _ => .ok "ELF 64-bit"
    texts := fun p => .ok (if p = linkedSeed then ["a.so", "%s.so"] else []) }

/-- Named by a roundabout way or through a link, the seed has one closure, without itself. -/
theorem closure_aliases_linked :
    linkedDisk.WellFormed ∧
    ofRoot linkedDisk (.ofString "link//.") linked.settings linked.strategy = .ok linked ∧
    linked.seedFile linkedDisk (.ofString "lib64/.././/a.so") = .ok linkedSeed ∧
    linkedDisk.canonical (linked.root.join (.ofString "/data/alias")) =
      linkedDisk.canonical (linked.root.join (.ofString "lib64/.././/a.so")) ∧
    (linked.closure linkedDisk linkedTools Collection.reporter (.ofString "/data/alias") {} {}).1 =
      .ok ⟨linkedSeed, [linkedNext]⟩ := by
  have wf : linkedDisk.WellFormed := by decide
  have hroot : ofRoot linkedDisk (.ofString "link//.") linked.settings linked.strategy = .ok linked := by
    decide +kernel
  have hseed : linked.seedFile linkedDisk (.ofString "lib64/.././/a.so") = .ok linkedSeed := by
    decide +kernel
  have hsame : linkedDisk.canonical (linked.root.join (.ofString "/data/alias")) =
      linkedDisk.canonical (linked.root.join (.ofString "lib64/.././/a.so")) := by decide +kernel
  have hlists : (linkedTools.listFiles linked.root).Perm (linkedDisk.listFiles linked.root) := .refl _
  obtain ⟨-, hsearch⟩ := closure_aliases wf hroot hlists
  obtain ⟨-, -, -, haliases⟩ := hsearch _ _ hseed
  obtain ⟨-, hclosure⟩ := haliases _ hsame
  have hfresh := Session.Faithful.fresh (linked.bench linkedTools) linked.root
    ((linked.bench linkedTools).inPlay linked.root linkedSeed)
  refine ⟨wf, hroot, hseed, hsame, ?_⟩
  rw [(hclosure Collection.reporter {} {} {} hfresh hfresh).1]
  have hindex : NameIndex.ofPaths ((linked.bench linkedTools).inspector.listFiles linked.root) =
      ⟨[("a.so", [linkedSeed]), ("b.so", [linkedNext])]⟩ := by cbv
  simp only [closure, hseed, Workbench.closure, Workbench.prepare, hindex]
  decide +kernel

end Linked

end Survey

end BlobCensus
