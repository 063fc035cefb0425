import BlobCensus.Survey
import BlobCensus.Proofs.Closure.Faults
import BlobCensus.Proofs.FirstOfKey
import BlobCensus.Proofs.Graph.Growth
import BlobCensus.Proofs.Session.Scanning
import BlobCensus.Proofs.Usage

/-!
# Ignoring more libraries

A library on the ignore-list is left out when the references of a file are read. Leaving it out later
comes to the same: the ranking loses its pair, and the lists of the graph lose its name, while everything
else keeps its place. A search loses edges, so it finds no more than before.
-/
namespace BlobCensus

/-- The settings with more libraries to ignore. -/
def Settings.ignoring (settings : Settings) (names : List String) : Settings :=
  { settings with extraIgnoredLibraries := settings.extraIgnoredLibraries ++ names }

def Inventory.without (names : List String) (stock : Inventory) : Inventory :=
  { stock with blobs := stock.blobs.map (Blob.without names) }

def BlobRecord.without (names : List String) (r : BlobRecord) : BlobRecord :=
  { r with dependencies := r.dependencies.filter (· ∉ names) }

namespace Graph

/-- The graph without the dependencies of some names. Its own names stay. -/
def without (names : List String) (g : Graph) : Graph := ⟨g.records.map (BlobRecord.without names)⟩

theorem union_filter (keep : String → Bool) (names more : List String) :
    union (names.filter keep) (more.filter keep) = (union names more).filter keep := by
  induction more generalizing names with
  | nil => rfl
  | cons n rest ih =>
    rw [union_cons, ← ih]
    by_cases hkeep : keep n = true
    · rw [List.filter_cons_of_pos hkeep, union_cons]
      by_cases hn : n ∈ names <;> simp [hn, hkeep]
    · rw [List.filter_cons_of_neg hkeep]
      by_cases hn : n ∈ names <;> simp [hn, hkeep]

namespace Draft

def without (names : List String) (d : Draft) : Draft :=
  { d with records := d.records.map (BlobRecord.without names) }

variable {names : List String} {d : Draft}

theorem toGraph_without : (d.without names).toGraph = d.toGraph.without names := by
  simp [toGraph, without, Graph.without]

theorem update_without {place : ℕ} {change change' : BlobRecord → BlobRecord}
    (h : ∀ r, change' (r.without names) = (change r).without names) :
    (d.without names).update place change' = (d.update place change).without names := by
  have hrecords : (d.records.map (BlobRecord.without names)).modify place change' =
      (d.records.modify place change).map (BlobRecord.without names) := by
    apply Array.ext
    · simp
    · intro i hi hi'
      simp only [Array.getElem_modify, Array.getElem_map]
      split
      · exact h _
      · rfl
  simp only [update, without, hrecords]

theorem add_without (b : Blob) :
    ((d.without names).add (b.without names)).2 = (d.add b).2.without names := by
  have hknown : (b.without names).isKnown = b.isKnown := rfl
  have hname : (d.without names).index[(b.without names).name]? = d.index[b.name]? := rfl
  unfold add
  rw [hknown, hname]
  split
  · rfl
  · split
    · apply update_without
      intro r
      simp only [BlobRecord.without, Blob.without, union_filter]
    · simp [without, BlobRecord.without, Blob.without]

theorem merge_without (name : String) (a : Architecture) :
    ((d.without names).merge name a).2 = (d.merge name a).2.without names := by
  have hname : (d.without names).index[name]? = d.index[name]? := rfl
  unfold merge
  rw [hname]
  split
  · rfl
  · split
    · exact update_without fun _ => rfl
    · rfl

theorem ofBlobs_without (blobs : List Blob) :
    ofBlobs (blobs.map (Blob.without names)) = (ofBlobs blobs).without names := by
  have hempty : ({} : Draft).without names = {} := by simp [without]
  rw [ofBlobs, List.foldl_map, ← hempty]
  exact List.foldl_hom (without names) fun d b => add_without b

end Draft

end Graph

theorem Survey.draft_without (names : List String) (stock : Inventory) :
    draft (stock.without names) = (draft stock).without names := by
  simp only [draft, Inventory.without, Graph.Draft.ofBlobs_without]
  exact List.foldl_hom (Graph.Draft.without names) fun d m => Graph.Draft.merge_without m.1 m.2

section Lists

variable {α β γ : Type}

theorem Job.mapM_map (f : β → γ) (g : α → Job β) (xs : List α) :
    (xs.mapM fun x => f <$> g x) = List.map f <$> xs.mapM g := by
  induction xs with
  | nil => rfl
  | cons x rest ih =>
    simp only [List.mapM_cons, ih, bind_map_left, map_bind, map_pure, List.map_cons]

end Lists

namespace Workbench

variable {w : Workbench} {root seed p q : Path} {names : List String}

def ignoring (w : Workbench) (names : List String) : Workbench :=
  { w with settings := w.settings.ignoring names }

theorem references_ignoring (settings : Settings) (own : String) (texts : List String) :
    references (settings.ignoring names) own texts =
      (references settings own texts).filter (· ∉ names) := by
  rw [references, references, ← eraseDups_filter, List.filter_filter]
  congr 2
  funext t
  simp only [Settings.ignoring, LibraryRule.ofSettings, LibraryRule.accepts, LibraryRule.ignores]
  by_cases ht : t ∈ names <;> simp [ht]

theorem scanAs_ignoring (p : Path) (a : Architecture) :
    (w.ignoring names).scanAs p a = Blob.without names <$> w.scanAs p a := by
  simp only [scanAs, ignoring, references_ignoring, map_bind, map_pure]
  rfl

theorem scanAll_ignoring (w : Workbench) (names : List String) (files : List Path) :
    (w.ignoring names).scanAll files = Inventory.without names <$> w.scanAll files := by
  have hclassify : (w.ignoring names).classify = w.classify := rfl
  simp only [scanAll, hclassify, scanAs_ignoring, Job.mapM_map, map_bind, bind_map_left, map_pure]
  rfl

section Edges

variable {play : List Path} (spelling : Path.OneSpelling play)
  (listed : w.inspector.listFiles root ⊆ play)
  (told : ∀ p ∈ play, ∃ a, w.verdict p = .ok a) (hp : p ∈ play)
include spelling listed told hp

/-- Every library that still counts has counted before. -/
theorem edges_ignoring_subset : (w.ignoring names).edges root p ⊆ w.edges root p := by
  intro q hq
  obtain ⟨a, texts, known, hverdict, htexts, -, library, hlibrary, hnamed, hsame⟩ :=
    (mem_edges_iff (w := w.ignoring names) spelling listed hp).mp hq
  have hcounted : library ∈ references w.settings p.baseName texts := by
    simp only [ignoring, references_ignoring, List.mem_filter] at hlibrary
    exact hlibrary.1
  refine (mem_edges_iff spelling listed hp).mpr
    ⟨a, texts, known, hverdict, htexts, ?_, library, hcounted, hnamed, hsame⟩
  intro other _ c hc
  exact told c (listed (filesNamed_subset w root other hc))

end Edges

/-- Both are closures, and the second is a part of the first. -/
def Narrows (whole part : Except Failure Closure) : Prop :=
  ∃ full closure, whole = .ok full ∧ part = .ok closure ∧ closure.paths ⊆ full.paths

theorem narrows_of_finds {ρ : Type} {reporter : Reporter ρ} {report final last : ρ}
    {whole part : Except Failure Closure} (spelling : Path.OneSpelling (w.inPlay root seed))
    (told : ∀ p ∈ w.inPlay root seed, ∃ a, w.verdict p = .ok a)
    (all : w.Finds reporter root seed report whole final)
    (fewer : (w.ignoring names).Finds reporter root seed report part last) :
    Narrows whole part := by
  obtain ⟨full, hwhole, -, hfull, -⟩ := all
  obtain ⟨closure, hpart, -, hclosure, -⟩ := fewer
  refine ⟨full, closure, hwhole, hpart, fun q hq => ?_⟩
  obtain ⟨hne, needs⟩ := (hclosure q).mp hq
  refine (hfull q).mpr ⟨hne, needs_mono spelling (fun p hp => ?_) needs⟩
  exact edges_ignoring_subset spelling (List.subset_cons_self _ _) told hp

end Workbench

namespace Survey

open Crew Workbench

variable {ρ : Type} {survey : Survey} {inspector : Inspector} {names : List String}

def ignoring (survey : Survey) (names : List String) : Survey :=
  { survey with settings := survey.settings.ignoring names }

/-- The dependency graph of the files under the root, before any folding. -/
def unfolded (survey : Survey) (inspector : Inspector) : Job Graph := do
  return (draft (← survey.inventory inspector)).toGraph

/-- In every session, and access by access, an inventory with more libraries ignored is the inventory
without references to them. -/
theorem inventory_ignoring : (survey.ignoring names).inventory inspector =
    Inventory.without names <$> survey.inventory inspector := by
  have hscan := scanAll_ignoring (survey.bench inspector) names
    ((inspector.listFiles survey.root).mergeSort Path.le)
  rw [inventory, inventory, map_bind]
  exact congrArg _ (funext fun _ => hscan)

theorem usage_ignoring : (survey.ignoring names).usage inspector =
    (List.filter (·.1 ∉ names)) <$> survey.usage inspector := by
  simp only [usage, inventory_ignoring, bind_map_left, map_bind, map_pure, Inventory.without,
    Usage.ranking_without]

theorem unfolded_ignoring : (survey.ignoring names).unfolded inspector =
    Graph.without names <$> survey.unfolded inspector := by
  simp only [unfolded, inventory_ignoring, bind_map_left, map_bind, map_pure, draft_without,
    Graph.Draft.toGraph_without]

theorem exists_inventory (survey : Survey) (reliable : inspector.Reliable) (s : Session) :
    ∃ stock, ((survey.inventory inspector).runIn s).1 = .ok stock := by
  obtain ⟨blobs, t, hscans⟩ := mapM_scan_of_reliable (w := survey.bench inspector) reliable
    ((inspector.listFiles survey.root).mergeSort Path.le) (s.note (.listed survey.root))
  exact ⟨_, scanAll_of_mapM_scan hscans⟩

theorem usage_of_inventory {s : Session} {stock : Inventory}
    (hstock : ((survey.inventory inspector).runIn s).1 = .ok stock) :
    ((survey.usage inspector).runIn s).1 = .ok (Usage.ranking stock.blobs) := by
  rw [usage, Job.runIn_bind_ok (Prod.ext hstock rfl)]
  rfl

theorem unfolded_of_inventory {s : Session} {stock : Inventory}
    (hstock : ((survey.inventory inspector).runIn s).1 = .ok stock) :
    ((survey.unfolded inspector).runIn s).1 = .ok (draft stock).toGraph := by
  rw [unfolded, Job.runIn_bind_ok (Prod.ext hstock rfl)]
  rfl

theorem exists_usage_ignoring (survey : Survey) (reliable : inspector.Reliable) (s : Session) :
    ∃ ranking, ((survey.usage inspector).runIn s).1 = .ok ranking ∧
      (((survey.ignoring names).usage inspector).runIn s).1 =
        .ok (ranking.filter (·.1 ∉ names)) := by
  obtain ⟨stock, hstock⟩ := exists_inventory survey reliable s
  have husage := usage_of_inventory hstock
  refine ⟨_, husage, ?_⟩
  rw [usage_ignoring, Job.runIn_map, husage]
  rfl

theorem exists_unfolded_ignoring (survey : Survey) (reliable : inspector.Reliable) (s : Session) :
    ∃ graph, ((survey.unfolded inspector).runIn s).1 = .ok graph ∧
      (((survey.ignoring names).unfolded inspector).runIn s).1 = .ok (graph.without names) := by
  obtain ⟨stock, hstock⟩ := exists_inventory survey reliable s
  have hgraph := unfolded_of_inventory hstock
  refine ⟨_, hgraph, ?_⟩
  rw [unfolded_ignoring, Job.runIn_map, hgraph]
  rfl

section Search

variable {reporter : Reporter ρ} {report : ρ} {seed : Path} {session other : Session}
  (reliable : inspector.Reliable) (accepts : reporter.Accepts report)
  (spelling : Path.OneSpelling ((survey.bench inspector).inPlay survey.root seed))
  (hsession : session.Faithful (survey.bench inspector) survey.root
    ((survey.bench inspector).inPlay survey.root seed))

/-- What a session remembers does not hang on the ignore-list. -/
theorem faithful_ignoring (names : List String) {s : Session}
    (hs : s.Faithful (survey.bench inspector) survey.root
      ((survey.bench inspector).inPlay survey.root seed)) :
    s.Faithful ((survey.ignoring names).bench inspector) survey.root
      (((survey.ignoring names).bench inspector).inPlay survey.root seed) :=
  ⟨hs.memo, hs.index⟩

include reliable in
theorem exists_verdict_inPlay :
    ∀ p ∈ (survey.bench inspector).inPlay survey.root seed,
      ∃ a, (survey.bench inspector).verdict p = .ok a :=
  fun p _ => exists_verdict (reliable.describe p)

include reliable accepts spelling hsession

theorem narrows_of_run
    (hother : other.Faithful (survey.bench inspector) survey.root
      ((survey.bench inspector).inPlay survey.root seed))
    {m n : ℕ} {actions more : List Action} {s t : Crew.State ρ}
    (all : Run (steady m (survey.bench inspector) reporter survey.root)
      ((steady m (survey.bench inspector) reporter survey.root).start seed report session) actions s)
    (hs : s.Finished)
    (fewer : Run (steady n ((survey.ignoring names).bench inspector) reporter survey.root)
      ((steady n ((survey.ignoring names).bench inspector) reporter survey.root).start seed report
        other) more t)
    (ht : t.Finished) :
    Narrows (s.walk.outcome seed) (t.walk.outcome seed) := by
  have hall := all.finds spelling hsession accepts hs
  have hspelling : Path.OneSpelling
      (((survey.ignoring names).bench inspector).inPlay survey.root seed) := spelling
  have hfewer := fewer.finds hspelling (faithful_ignoring names hother) accepts ht
  exact narrows_of_finds spelling (exists_verdict_inPlay reliable) hall hfewer

theorem narrows_closure
    (hother : other.Faithful (survey.bench inspector) survey.root
      ((survey.bench inspector).inPlay survey.root seed))
    {disk : Disk} {text : Path} (hseed : survey.seedFile disk text = .ok seed) :
    Narrows (survey.closure disk inspector reporter text report session).1
      ((survey.ignoring names).closure disk inspector reporter text report other).1 := by
  have hspelling : Path.OneSpelling
      (((survey.ignoring names).bench inspector).inPlay survey.root seed) := spelling
  have hall := closure_finds spelling hsession.reindex accepts
  have hfewer := closure_finds hspelling (faithful_ignoring names hother).reindex accepts
  have hseed' : (survey.ignoring names).seedFile disk text = .ok seed := hseed
  rw [closure, closure, hseed, hseed']
  exact narrows_of_finds spelling (exists_verdict_inPlay reliable) hall hfewer

end Search

/-- To ignore more libraries is to filter. With tools that never break down the ranking loses the pairs of
these names, and the unfolded graph keeps its records but loses the names in their lists; all else stays
where it was. The closure of a seed is a part of the closure before, for all numbers of workers and all
orders in which expansions come back, and for the search by itself. -/
theorem survey_ignoring (survey : Survey) (inspector : Inspector) (names : List String)
    (reliable : inspector.Reliable) :
    (∀ s, ∃ ranking, ((survey.usage inspector).runIn s).1 = .ok ranking ∧
      (((survey.ignoring names).usage inspector).runIn s).1 =
        .ok (ranking.filter (·.1 ∉ names))) ∧
    (∀ s, ∃ graph, ((survey.unfolded inspector).runIn s).1 = .ok graph ∧
      (((survey.ignoring names).unfolded inspector).runIn s).1 = .ok (graph.without names)) ∧
    ∀ {ρ : Type} (reporter : Reporter ρ) (report : ρ) (seed : Path) (session other : Session),
      reporter.Accepts report →
      Path.OneSpelling ((survey.bench inspector).inPlay survey.root seed) →
      (∀ s ∈ [session, other], s.Faithful (survey.bench inspector) survey.root
        ((survey.bench inspector).inPlay survey.root seed)) →
      (∀ m n actions more s t,
        Run (steady m (survey.bench inspector) reporter survey.root)
          ((steady m (survey.bench inspector) reporter survey.root).start seed report session)
          actions s → s.Finished →
        Run (steady n ((survey.ignoring names).bench inspector) reporter survey.root)
          ((steady n ((survey.ignoring names).bench inspector) reporter survey.root).start seed
            report other) more t → t.Finished →
        Narrows (s.walk.outcome seed) (t.walk.outcome seed)) ∧
      ∀ (disk : Disk) (text : Path), survey.seedFile disk text = .ok seed →
        Narrows (survey.closure disk inspector reporter text report session).1
          ((survey.ignoring names).closure disk inspector reporter text report other).1 := by
  refine ⟨exists_usage_ignoring survey reliable, exists_unfolded_ignoring survey reliable, ?_⟩
  intro ρ reporter report seed session other accepts spelling faithful
  have hsession := faithful session (by simp)
  have hother := faithful other (by simp)
  constructor
  · intro m n actions more s t all hs fewer ht
    exact narrows_of_run reliable accepts spelling hsession hother all hs fewer ht
  · intro disk text hseed
    exact narrows_closure reliable accepts spelling hsession hother hseed

section Mutual

def mutualSeed : Path := .ofString "/a.so"

def mutualSecond : Path := .ofString "/b.so"

def mutualThird : Path := .ofString "/c.so"

def mutualSurvey : Survey :=
  ⟨.ofString "/", { ignoredLibraries := [], nonBinaryExtensions := [] }, .content⟩

def mutualTools : Inspector :=
  { listFiles := fun _ => [mutualThird, mutualSecond, mutualSeed]
    describe := fun _ => .ok "ELF 64-bit"
    texts := fun p => .ok <|
      if p = mutualSeed then ["c.so", "b.so"] else if p = mutualSecond then ["c.so"] else ["b.so"] }

def mutualDisk : Disk :=
  { tree := .file (Utf8.encode "a.so") [] .empty }

def mutualBlobs : List Blob :=
  [⟨mutualSeed, "a.so", .bits64, ["c.so", "b.so"]⟩, ⟨mutualSecond, "b.so", .bits64, ["c.so"]⟩,
    ⟨mutualThird, "c.so", .bits64, ["b.so"]⟩]

theorem inventory_mutual : ((mutualSurvey.inventory mutualTools).runIn {}).1 = .ok ⟨mutualBlobs, []⟩ := by
  have hsorted : (mutualTools.listFiles mutualSurvey.root).mergeSort Path.le =
      [mutualSeed, mutualSecond, mutualThird] := by cbv
  simp only [inventory, hsorted]
  decide +kernel

theorem closure_mutual :
    (mutualSurvey.closure mutualDisk mutualTools Collection.reporter (.ofString "a.so") {} {}).1 =
      .ok ⟨mutualSeed, [mutualThird, mutualSecond]⟩ := by
  have hfile : mutualSurvey.seedFile mutualDisk (.ofString "a.so") = .ok mutualSeed := by decide +kernel
  have hindex : NameIndex.ofPaths ((mutualSurvey.bench mutualTools).inspector.listFiles mutualSurvey.root) =
      ⟨[("a.so", [mutualSeed]), ("b.so", [mutualSecond]), ("c.so", [mutualThird])]⟩ := by cbv
  simp only [closure, hfile, Workbench.closure, Workbench.prepare, hindex]
  decide +kernel

/-- Without the second library the ranking and the lists keep the third one only, and the search finds
no more than the two files it found before. -/
theorem survey_ignoring_mutual :
    mutualTools.Reliable ∧ Collection.reporter.Accepts {} ∧
    Path.OneSpelling ((mutualSurvey.bench mutualTools).inPlay mutualSurvey.root mutualSeed) ∧
    (((mutualSurvey.ignoring ["b.so"]).usage mutualTools).runIn {}).1 = .ok [("c.so", 2)] ∧
    (((mutualSurvey.ignoring ["b.so"]).unfolded mutualTools).runIn {}).1 =
      .ok ⟨[⟨"a.so", ["c.so"], { has64 := true }⟩, ⟨"b.so", ["c.so"], { has64 := true }⟩,
        ⟨"c.so", [], { has64 := true }⟩]⟩ ∧
    ∃ closure, ((mutualSurvey.ignoring ["b.so"]).closure mutualDisk mutualTools Collection.reporter
        (.ofString "a.so") {} {}).1 = .ok closure ∧ closure.paths ⊆ [mutualThird, mutualSecond] := by
  have hreliable : mutualTools.Reliable := ⟨fun p => ⟨_, rfl⟩, fun p => ⟨_, rfl⟩⟩
  have haccepts : Collection.reporter.Accepts {} := Collection.accepts rfl
  have hspelling : Path.OneSpelling
      ((mutualSurvey.bench mutualTools).inPlay mutualSurvey.root mutualSeed) := by decide
  obtain ⟨husage, hgraph, hclosure⟩ := survey_ignoring mutualSurvey mutualTools ["b.so"] hreliable
  refine ⟨hreliable, haccepts, hspelling, ?_, ?_, ?_⟩
  · obtain ⟨ranking, hranking, hfewer⟩ := husage {}
    have hvalue : ((mutualSurvey.usage mutualTools).runIn {}).1 = .ok [("b.so", 2), ("c.so", 2)] := by
      rw [usage_of_inventory inventory_mutual, Usage.ranking_eq]
      exact congrArg Except.ok (by cbv)
    obtain rfl := Except.ok.inj (hvalue.symm.trans hranking)
    exact hfewer
  · obtain ⟨graph, hgraph, hfewer⟩ := hgraph {}
    have hvalue : ((mutualSurvey.unfolded mutualTools).runIn {}).1 =
        .ok ⟨[⟨"a.so", ["c.so", "b.so"], { has64 := true }⟩, ⟨"b.so", ["c.so"], { has64 := true }⟩,
          ⟨"c.so", ["b.so"], { has64 := true }⟩]⟩ := by
      rw [unfolded_of_inventory inventory_mutual]
      exact congrArg Except.ok (by cbv)
    obtain rfl := Except.ok.inj (hvalue.symm.trans hgraph)
    exact hfewer
  · have hfile : mutualSurvey.seedFile mutualDisk (.ofString "a.so") = .ok mutualSeed := by decide +kernel
    obtain ⟨-, hnarrows⟩ := hclosure Collection.reporter {} mutualSeed {} {} haccepts hspelling
      fun s hs => by
        obtain rfl : s = {} := by simpa using hs
        exact .fresh _ _ _
    obtain ⟨full, closure, hfull, hpart, hsub⟩ := hnarrows mutualDisk (.ofString "a.so") hfile
    obtain rfl := Except.ok.inj (closure_mutual.symm.trans hfull)
    exact ⟨closure, hpart, hsub⟩

end Mutual

end Survey

end BlobCensus
