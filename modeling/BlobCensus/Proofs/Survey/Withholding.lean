import BlobCensus.Proofs.Closure.Faults
import BlobCensus.Proofs.Survey.Aliases

/-!
# Withheld libraries

A closure is to withhold the libraries on the ignore-list. A library is left out when texts are read, by
its name; a file is looked up later, by the name itself or by a pattern that it stands for. So no plain
name leads to a file with an ignored name, and an ignored library comes into a closure, and into its
report, exactly if a pattern on the way from the seed fits it.
-/
namespace BlobCensus

namespace Glob

variable {library : String}

/-- The pattern that a library is looked up with. -/
def forLibrary (library : String) : Glob := ofString (ofLibrary library)

theorem widen_of_not_wild {text : List Char}
    (plain : ((widen text).map Wild.ofChar).any Wild.isWildcard = false) : widen text = text := by
  fun_induction widen text with
  | case1 rest ih => simp [Wild.ofChar, Wild.isWildcard] at plain
  | case2 c rest _ ih =>
    rw [List.map_cons, List.any_cons, Bool.or_eq_false_iff] at plain
    rw [ih plain.2]
  | case3 => rfl

/-- A name that stands for no pattern is looked up as it is. -/
theorem ofLibrary_of_plain (plain : (forLibrary library).isWild = false) :
    ofLibrary library = library := by
  have hwiden : widen library.toList = library.toList := by
    apply widen_of_not_wild
    simpa [forLibrary, ofString, ofLibrary, isWild] using plain
  rw [ofLibrary, hwiden, String.ofList_toList]

end Glob

/-- Whether the settings have libraries with the name of the file ignored. -/
def Settings.ignores (settings : Settings) (p : Path) : Bool :=
  (LibraryRule.ofSettings settings).ignores p.baseName

namespace Workbench

variable {w : Workbench} {root seed p q : Path} {library : String}

theorem mem_filesNamed : q ∈ w.filesNamed root library ↔ q ∈ w.inspector.listFiles root ∧
    if (Glob.forLibrary library).isWild then
      (Glob.forLibrary library).isUsable = true ∧ (Glob.forLibrary library).accepts q.baseName = true
    else q.baseName = Glob.ofLibrary library := by
  rw [filesNamed, NameIndex.matching?_ofPaths, ← Glob.forLibrary]
  by_cases hwild : (Glob.forLibrary library).isWild = true
  · by_cases husable : (Glob.forLibrary library).isUsable = true
    · simp [hwild, husable, NameIndex.mem_fitting]
    · simp [hwild, husable]
  · simp [hwild, NameIndex.mem_fitting]

theorem ignores_of_mem_references {ownName : String} {texts : List String}
    (h : library ∈ references w.settings ownName texts) :
    (LibraryRule.ofSettings w.settings).ignores library = false := by
  simp only [references, List.mem_eraseDups, List.mem_filter, Bool.and_eq_true,
    LibraryRule.accepts] at h
  simpa using h.2.1.2

/-- An edge along which a pattern in the texts of a file leads to a file that fits it. -/
structure WildcardEdge (w : Workbench) (root p q : Path) : Prop where
  edge : q ∈ w.edges root p
  pattern : ∃ texts, w.inspector.texts p = .ok texts ∧
    ∃ library ∈ references w.settings p.baseName texts,
      (Glob.forLibrary library).isWild = true ∧ (Glob.forLibrary library).isUsable = true ∧
      (Glob.forLibrary library).accepts q.baseName = true

/-- Nowhere on the way from the seed does a pattern lead to a file with an ignored name, other than
the seed. -/
def NoIgnoredMatch (w : Workbench) (root seed : Path) : Prop :=
  ∀ p q, (p = seed ∨ w.Needs root seed p) → w.WildcardEdge root p q → q ≠ seed →
    w.settings.ignores q = false

/-- A file whose texts stand for no pattern lets nothing in. -/
theorem not_wildcardEdge_of_plain {texts : List String} (htexts : w.inspector.texts p = .ok texts)
    (plain : ∀ library ∈ references w.settings p.baseName texts,
      (Glob.forLibrary library).isWild = false) : ¬ w.WildcardEdge root p q := by
  rintro ⟨-, others, hothers, library, hlibrary, hwild, -⟩
  obtain rfl := Except.ok.inj (htexts.symm.trans hothers)
  rw [plain library hlibrary] at hwild
  cases hwild

section Edges

variable (spelling : Path.OneSpelling (w.inPlay root seed))
include spelling

/-- A plain name is not ignored and is found only in files of that very name. So an edge to a file with
an ignored name comes from a pattern. -/
theorem wildcardEdge_of_ignores (hp : p ∈ w.inPlay root seed) (edge : q ∈ w.edges root p)
    (ignored : w.settings.ignores q = true) : w.WildcardEdge root p q := by
  refine ⟨edge, ?_⟩
  obtain ⟨a, texts, -, -, htexts, -, library, hlibrary, hnamed, -⟩ :=
    (mem_edges_iff spelling (List.subset_cons_self _ _) hp).mp edge
  obtain ⟨-, hfits⟩ := mem_filesNamed.mp hnamed
  cases hwild : (Glob.forLibrary library).isWild with
  | true =>
    rw [hwild, if_pos rfl] at hfits
    exact ⟨texts, htexts, library, hlibrary, hwild, hfits⟩
  | false =>
    rw [hwild, if_neg Bool.false_ne_true, Glob.ofLibrary_of_plain hwild] at hfits
    have hkept := ignores_of_mem_references hlibrary
    rw [← hfits] at hkept
    exact absurd ignored (by rw [Settings.ignores, hkept]; exact Bool.false_ne_true)

/-- What a seed needs is free of ignored names if and only if no pattern on the way lets one in. -/
theorem noIgnoredMatch_iff :
    w.NoIgnoredMatch root seed ↔ ∀ q, q ≠ seed → w.Needs root seed q → w.settings.ignores q = false := by
  constructor
  · intro unmatched q hne needs
    by_contra hnot
    have hignored : w.settings.ignores q = true := by simpa using hnot
    obtain ⟨p, hp, hplay, edge⟩ : ∃ p, (p = seed ∨ w.Needs root seed p) ∧
        p ∈ w.inPlay root seed ∧ q ∈ w.edges root p := by
      cases needs with
      | single edge => exact ⟨seed, .inl rfl, List.mem_cons_self, edge⟩
      | tail needs edge => exact ⟨_, .inr needs, inPlay_of_needs spelling needs, edge⟩
    exact hnot (unmatched p q hp (wildcardEdge_of_ignores spelling hplay edge hignored) hne)
  · rintro free p q (rfl | needs) lets hne
    · exact free q hne (.single lets.edge)
    · exact free q hne (needs.tail lets.edge)

end Edges

end Workbench

/-- Neither a path nor a record of a path has an ignored name. -/
structure Settings.Withholds (settings : Settings) (found : List Path) (records : List Record) :
    Prop where
  found : ∀ q ∈ found, settings.ignores q = false
  records : ∀ q, .path q ∈ records → settings.ignores q = false

/-- What is offered to the reporter is needed by the seed, also if it is refused. -/
theorem Crew.Run.offered_needed {ρ : Type} {crew : Crew ρ} {seed : Path} {report : ρ}
    {session : Session} {actions : List Crew.Action} {s : Crew.State (Log ρ)}
    (run : Crew.Run crew.logged (crew.logged.start seed ⟨report, []⟩ session) actions s)
    (unvarying : crew.variants = ∅) (spelling : Path.OneSpelling (crew.bench.inPlay crew.root seed))
    (faithful : session.Faithful crew.bench crew.root (crew.bench.inPlay crew.root seed)) :
    ∀ call ∈ s.walk.report.calls, ∃ q, q ≠ seed ∧ crew.bench.Needs crew.root seed q ∧
      call.1 = .path (Path.relativeTo crew.root q) := by
  have htaken : ∀ {actions : List Crew.Action} {s : Crew.State (Log ρ)},
      Crew.Run crew.logged (crew.logged.start seed ⟨report, []⟩ session) actions s →
      ∀ call ∈ Log.taken (Workbench.recordsOf crew.root s.walk.found), ∃ q, q ≠ seed ∧
        crew.bench.Needs crew.root seed q ∧ call.1 = .path (Path.relativeTo crew.root q) := by
    intro actions s run call hcall
    obtain ⟨record, hrecord, rfl⟩ := List.mem_map.mp hcall
    obtain ⟨q, hq, rfl⟩ := List.mem_map.mp hrecord
    obtain ⟨hne, needs⟩ := run.found_needed unvarying spelling faithful hq
    exact ⟨q, hne, needs, rfl⟩
  intro call hcall
  cases hfailure : s.walk.failure with
  | none =>
    rw [run.calls_of_going hfailure] at hcall
    exact htaken run call hcall
  | some reason =>
    obtain ⟨before, u, p, rest, hrun, hgoing, hbatch, hnew, -, -, hreport⟩ :=
      run.refusal rfl hfailure
    simp only [logged_reporter, logged_root, Reporter.logged_emit] at hreport
    rw [hreport, hrun.calls_of_going hgoing, List.mem_append, List.mem_singleton] at hcall
    rcases hcall with hcall | rfl
    · exact htaken hrun call hcall
    · obtain ⟨kept, hprogress, -⟩ := hrun.progress_of_going unvarying spelling faithful hgoing
      refine ⟨p, ?_, hprogress.needed p ?_, rfl⟩
      · rintro rfl
        exact hnew (hrun.accounts.seen p List.mem_cons_self)
      · change p ∈ u.walk.found ++ u.batch
        simp [hbatch]

namespace Survey

variable {survey : Survey} {disk : Disk} {directory seed file p : Path} {settings : Settings}
  {strategy : Strategy} {inspector : Inspector}

theorem ignores_relativeTo (wf : disk.WellFormed)
    (survey_eq : ofRoot disk directory settings strategy = .ok survey)
    (listed : p ∈ disk.listFiles survey.root) (rules : Settings) :
    rules.ignores (Path.relativeTo survey.root p) = rules.ignores p := by
  obtain ⟨place, names, content, hroot, rfl, hne, -, hplace, hnames⟩ :=
    exists_names wf survey_eq listed
  rw [hroot, Path.relativeTo_ofNames hplace hnames hne, Settings.ignores, Settings.ignores,
    Path.baseName_ofNamesBelow hplace hnames hne]

/-- Files without ignored names have records without them. -/
theorem withholds_of_found {found : List Path} (wf : disk.WellFormed)
    (survey_eq : ofRoot disk directory settings strategy = .ok survey)
    (listed : ∀ q ∈ found, q ∈ disk.listFiles survey.root) {rules : Settings}
    (free : ∀ q ∈ found, rules.ignores q = false) :
    rules.Withholds found (Workbench.recordsOf survey.root found) := by
  refine ⟨free, fun q hq => ?_⟩
  obtain ⟨p, hp, heq⟩ := List.mem_map.mp hq
  obtain rfl := Record.path.inj heq
  rw [ignores_relativeTo wf survey_eq (listed p hp)]
  exact free p hp

section Search

variable {ρ : Type} {crew : Crew ρ} {report : ρ} {session : Session} {actions : List Crew.Action}
  {s : Crew.State (Log ρ)} (wf : disk.WellFormed)
  (survey_eq : ofRoot disk directory settings strategy = .ok survey)
  (lists : (inspector.listFiles survey.root).Perm (disk.listFiles survey.root))
  (seed_eq : survey.seedFile disk seed = .ok file)
include wf survey_eq lists seed_eq

theorem oneSpelling_of_seedFile :
    Path.OneSpelling ((survey.bench inspector).inPlay survey.root file) := by
  obtain ⟨-, hfile, -⟩ := namesFile_of_seedFile wf seed_eq
  exact oneSpelling_inPlay wf survey_eq lists hfile

theorem listed_of_needs (hne : p ≠ file)
    (needs : (survey.bench inspector).Needs survey.root file p) :
    p ∈ disk.listFiles survey.root := by
  have spelling := oneSpelling_of_seedFile wf survey_eq lists seed_eq
  have hplay := Workbench.inPlay_of_needs spelling needs
  exact lists.mem_iff.mp ((List.mem_cons.mp hplay).resolve_left hne)

variable (bench : crew.bench = survey.bench inspector) (root : crew.root = survey.root)
  (unvarying : crew.variants = ∅)
  (faithful : session.Faithful (survey.bench inspector) survey.root
    ((survey.bench inspector).inPlay survey.root file))
  (run : Crew.Run crew.logged (crew.logged.start file ⟨report, []⟩ session) actions s)
include bench root unvarying faithful run

/-- A search that ends well has found what the seed needs, so the paths found decide. -/
theorem withholds_iff_of_finished (finished : s.Finished) (going : s.walk.failure = none) :
    survey.settings.Withholds s.walk.found s.walk.report.accepted ↔
      (survey.bench inspector).NoIgnoredMatch survey.root file := by
  have spelling := oneSpelling_of_seedFile wf survey_eq lists seed_eq
  have hfound : ∀ q, q ∈ s.walk.found ↔
      q ≠ file ∧ (survey.bench inspector).Needs survey.root file q := by
    intro q
    rw [← bench, ← root] at spelling faithful ⊢
    exact run.mem_found_iff unvarying spelling faithful going finished q
  rw [run.log.2.1, root, Workbench.noIgnoredMatch_iff spelling]
  constructor
  · exact fun withholds q hne needs => withholds.found q ((hfound q).mpr ⟨hne, needs⟩)
  · intro free
    refine withholds_of_found wf survey_eq (fun q hq => ?_) fun q hq => ?_
    · exact listed_of_needs wf survey_eq lists seed_eq ((hfound q).mp hq).1 ((hfound q).mp hq).2
    · exact free q ((hfound q).mp hq).1 ((hfound q).mp hq).2

/-- If no pattern lets an ignored library in, then none is ever found or offered. -/
theorem withholds_of_noIgnoredMatch (unmatched : (survey.bench inspector).NoIgnoredMatch survey.root file) :
    survey.settings.Withholds s.walk.found (s.walk.report.calls.map Prod.fst) := by
  have spelling := oneSpelling_of_seedFile wf survey_eq lists seed_eq
  have free : ∀ q, q ≠ file → crew.bench.Needs crew.root file q →
      q ∈ disk.listFiles survey.root ∧ survey.settings.ignores q = false := by
    rw [bench, root]
    intro q hne needs
    exact ⟨listed_of_needs wf survey_eq lists seed_eq hne needs,
      (Workbench.noIgnoredMatch_iff spelling).mp unmatched q hne needs⟩
  rw [← bench, ← root] at spelling faithful
  refine ⟨fun q hq => ?_, fun q hq => ?_⟩
  · obtain ⟨hne, needs⟩ := run.found_needed unvarying spelling faithful hq
    exact (free q hne needs).2
  · obtain ⟨call, hcall, hrecord⟩ := List.mem_map.mp hq
    obtain ⟨p, hne, needs, hp⟩ := run.offered_needed unvarying spelling faithful call hcall
    obtain rfl := Record.path.inj (hrecord.symm.trans hp)
    obtain ⟨hlisted, hfree⟩ := free p hne needs
    rw [root, ignores_relativeTo wf survey_eq hlisted]
    exact hfree

end Search

/-- A search withholds the ignored libraries if and only if no pattern on the way from the seed fits
one. So it is for every finished search of any crew that its report took to the end, and for the search
of a survey; and if no pattern does, nothing that is ever found or offered has an ignored name. A survey
in whose files no library name stands for a pattern is on the safe side. -/
theorem closure_withholds_iff (wf : disk.WellFormed)
    (survey_eq : ofRoot disk directory settings strategy = .ok survey)
    (lists : (inspector.listFiles survey.root).Perm (disk.listFiles survey.root))
    (seed_eq : survey.seedFile disk seed = .ok file) {session : Session}
    (faithful : session.Faithful (survey.bench inspector) survey.root
      ((survey.bench inspector).inPlay survey.root file)) :
    ((∀ p ∈ (survey.bench inspector).inPlay survey.root file, ∀ texts,
        inspector.texts p = .ok texts →
        ∀ library ∈ Workbench.references survey.settings p.baseName texts,
          (Glob.forLibrary library).isWild = false) →
      (survey.bench inspector).NoIgnoredMatch survey.root file) ∧
    (∀ {ρ : Type} (crew : Crew ρ) (report : ρ), crew.bench = survey.bench inspector →
      crew.root = survey.root → crew.variants = ∅ →
      ∀ actions s, Crew.Run crew.logged (crew.logged.start file ⟨report, []⟩ session) actions s →
        ((survey.bench inspector).NoIgnoredMatch survey.root file →
          survey.settings.Withholds s.walk.found (s.walk.report.calls.map Prod.fst)) ∧
        (s.Finished → s.walk.failure = none →
          (survey.settings.Withholds s.walk.found s.walk.report.accepted ↔
            (survey.bench inspector).NoIgnoredMatch survey.root file))) ∧
    ∀ {ρ : Type} (reporter : Reporter ρ) (report : ρ) (closure : Closure) (log : Log ρ)
      (after : Session),
      survey.closure disk inspector reporter.logged seed ⟨report, []⟩ session =
        (.ok closure, log, after) →
      (survey.settings.Withholds closure.paths log.accepted ↔
        (survey.bench inspector).NoIgnoredMatch survey.root file) := by
  have spelling := oneSpelling_of_seedFile wf survey_eq lists seed_eq
  refine ⟨fun plain p q hp lets _ => ?_, ?_, ?_⟩
  · have hplay : p ∈ (survey.bench inspector).inPlay survey.root file := by
      rcases hp with rfl | needs
      · exact List.mem_cons_self
      · exact Workbench.inPlay_of_needs spelling needs
    obtain ⟨texts, htexts, -⟩ := lets.pattern
    exact absurd lets (Workbench.not_wildcardEdge_of_plain htexts (plain p hplay texts htexts))
  · intro ρ crew report bench root unvarying actions s run
    exact ⟨withholds_of_noIgnoredMatch wf survey_eq lists seed_eq bench root unvarying faithful run,
      withholds_iff_of_finished wf survey_eq lists seed_eq bench root unvarying faithful run⟩
  · intro ρ reporter report closure log after hclosure
    obtain ⟨crew, actions, last, bench, root, unvarying, run, finished, heq⟩ :=
      exists_run inspector seed_eq reporter report session
    have hresult := heq.symm.trans hclosure
    obtain ⟨going, rfl⟩ := Walk.outcome_eq_ok (congrArg Prod.fst hresult)
    obtain rfl : last.walk.report = log := congrArg (fun e => e.2.1) hresult
    exact withholds_iff_of_finished wf survey_eq lists seed_eq bench root unvarying faithful.reindex run
      finished going

section Wildcard

def wildcardSeed : Path := .ofString "/a.so"

def wildcardLibrary : Path := .ofString "/c.so"

def wildcardDisk : Disk :=
  { tree :=
      .file (Utf8.encode "a.so") (Utf8.encode "\x7fELF\x02\x00%s.so") <|
      .file (Utf8.encode "c.so") (Utf8.encode "\x7fELF\x02") .empty }

def wildcardSettings : Settings :=
  { ignoredLibraries := [], extraIgnoredLibraries := ["c.so"], nonBinaryExtensions := [] }

def wildcard : Survey := ⟨.ofNames [], wildcardSettings, .content⟩

theorem index_wildcard : NameIndex.ofPaths ((Inspector.native wildcardDisk).listFiles wildcard.root) =
    ⟨[("a.so", [wildcardSeed]), ("c.so", [wildcardLibrary])]⟩ := by
  have hlist : (Inspector.native wildcardDisk).listFiles wildcard.root = [wildcardSeed, wildcardLibrary] := by
    decide +kernel
  rw [hlist]
  cbv

theorem closure_wildcard :
    let result := wildcard.closure wildcardDisk (.native wildcardDisk) Collection.reporter.logged
      (.ofString "a.so") ⟨{}, []⟩ {}
    result.1 = .ok ⟨wildcardSeed, [wildcardLibrary]⟩ ∧
      result.2.1.accepted = [.path (.ofString "c.so")] := by
  have hseed : wildcard.seedFile wildcardDisk (.ofString "a.so") = .ok wildcardSeed := by decide +kernel
  have hprepare : (wildcard.bench (.native wildcardDisk)).prepare wildcard.root {} =
      (⟨[("a.so", [wildcardSeed]), ("c.so", [wildcardLibrary])]⟩,
        { index := some ⟨[("a.so", [wildcardSeed]), ("c.so", [wildcardLibrary])]⟩
          trace := [.indexed 2 wildcard.root, .listed wildcard.root] }) := by
    rw [Workbench.prepare]
    change (let index := NameIndex.ofPaths ((Inspector.native wildcardDisk).listFiles wildcard.root)
      (index, Session.mk {} (some index) [.indexed index.size wildcard.root, .listed wildcard.root])) = _
    rw [index_wildcard]
    rfl
  rw [closure, hseed]
  simp only [Workbench.closure, hprepare]
  decide +kernel

theorem not_withholds_wildcard {records : List Record} :
    ¬ wildcard.settings.Withholds [wildcardLibrary] records := by
  intro withholds
  have hignored : wildcard.settings.ignores wildcardLibrary = true := by decide +kernel
  have hfree := withholds.found wildcardLibrary List.mem_cons_self
  exact absurd (hignored.symm.trans hfree) (by decide)

/-- The library is found and reported, though it is on the ignore-list. -/
theorem reports_ignored :
    ¬ ∀ (disk : Disk) (directory : Path) (settings : Settings) (strategy : Strategy)
        (survey : Survey), disk.WellFormed → ofRoot disk directory settings strategy = .ok survey →
      ∀ (seed : Path) (closure : Closure) (log : Log Collection) (after : Session),
        survey.closure disk (.native disk) Collection.reporter.logged seed ⟨{}, []⟩ {} =
          (.ok closure, log, after) →
        survey.settings.Withholds closure.paths log.accepted := by
  intro always
  have wf : wildcardDisk.WellFormed := by decide +kernel
  have hroot : ofRoot wildcardDisk (.ofNames []) wildcardSettings .content = .ok wildcard := by decide +kernel
  obtain ⟨hclosure, -⟩ := closure_wildcard
  exact not_withholds_wildcard
    (always wildcardDisk _ _ _ wildcard wf hroot (.ofString "a.so") _ _ _ (Prod.ext hclosure rfl))

/-- As the library is reported, a pattern on the way from the seed fits it. -/
theorem closure_withholds_iff_wildcard :
    wildcardDisk.WellFormed ∧
    ofRoot wildcardDisk (.ofNames []) wildcardSettings .content = .ok wildcard ∧
    wildcard.seedFile wildcardDisk (.ofString "a.so") = .ok wildcardSeed ∧
    ¬ (wildcard.bench (.native wildcardDisk)).NoIgnoredMatch wildcard.root wildcardSeed := by
  have wf : wildcardDisk.WellFormed := by decide +kernel
  have hroot : ofRoot wildcardDisk (.ofNames []) wildcardSettings .content = .ok wildcard := by decide +kernel
  have hseed : wildcard.seedFile wildcardDisk (.ofString "a.so") = .ok wildcardSeed := by decide +kernel
  refine ⟨wf, hroot, hseed, fun unmatched => ?_⟩
  have hlists : ((Inspector.native wildcardDisk).listFiles wildcard.root).Perm
      (wildcardDisk.listFiles wildcard.root) := .refl _
  obtain ⟨-, -, hiff⟩ := closure_withholds_iff wf hroot hlists hseed (.fresh _ _ _)
  obtain ⟨hclosure, -⟩ := closure_wildcard
  exact not_withholds_wildcard ((hiff _ _ _ _ _ (Prod.ext hclosure rfl)).mpr unmatched)

end Wildcard

end Survey

end BlobCensus
