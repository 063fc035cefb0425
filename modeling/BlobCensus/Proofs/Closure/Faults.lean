import BlobCensus.Proofs.Closure.Reachability
import BlobCensus.Proofs.Session.Edges

/-!
# Searches with faulty tools

Tools may fail on some files: they have nothing to say, or they break down. A file that cannot be
described has no architecture, so it is neither found nor expanded; a breakdown costs the whole
expansion it happens in. Either way a search only loses paths. It keeps those that can be reached by
steps that no failure touches.
-/
namespace BlobCensus

inductive Fault where
  | silent
  | broken
  deriving DecidableEq, Repr

/-- What a tool answers under a fault, if there is one. -/
def Fault.answer {α : Type} (nothing : α) : Option Fault → Except Breakdown α → Except Breakdown α
  | none, answer => answer
  | some silent, _ => .ok nothing
  | some broken, _ => .error ⟨⟩

structure Faults where
  describing : Path → Option Fault
  reading : Path → Option Fault

namespace Workbench

def under (w : Workbench) (faults : Faults) : Workbench :=
  { w with
    inspector :=
      { w.inspector with
        describe := fun p => Fault.answer "" (faults.describing p) (w.inspector.describe p)
        texts := fun p => Fault.answer [] (faults.reading p) (w.inspector.texts p) } }

variable {w : Workbench} {faults : Faults} {root seed p q : Path} {a : Architecture}

theorem verdict_under_of_not_asks (asks : ¬ w.Asks p) : (w.under faults).verdict p = w.verdict p := by
  unfold verdict examine
  by_cases plain : isPlainFile w.settings p = true
  · simp [under, plain]
  · cases hstrategy : w.strategy with
    | directory => simp [under, plain, hstrategy]
    | content => exact absurd ⟨by simpa using plain, hstrategy⟩ asks

/-- Under a fault the architecture is what it was, or unknown, or cannot be told at all. -/
theorem verdict_under (faults : Faults) (p : Path) :
    (w.under faults).verdict p = w.verdict p ∨
    (w.Asks p ∧ faults.describing p = some .silent ∧ (w.under faults).verdict p = .ok .unknown) ∨
    (w.Asks p ∧ faults.describing p = some .broken ∧ (w.under faults).verdict p = .error ⟨⟩) := by
  by_cases asks : w.Asks p
  · have hasks : (w.under faults).Asks p := asks
    rw [verdict_of_asks asks, verdict_of_asks hasks]
    cases hfault : faults.describing p with
    | none => exact .inl (by simp [under, hfault, Fault.answer])
    | some fault =>
      cases fault with
      | silent =>
        have hnothing : Architecture.ofDescription "" = .unknown := by decide
        exact .inr (.inl ⟨asks, rfl, by simp [under, hfault, Fault.answer, Except.map, hnothing]⟩)
      | broken => exact .inr (.inr ⟨asks, rfl, by simp [under, hfault, Fault.answer, Except.map]⟩)
  · exact .inl (verdict_under_of_not_asks asks)

theorem verdict_of_under (known : a.isKnown = true) (h : (w.under faults).verdict p = .ok a) :
    w.verdict p = .ok a := by
  obtain hsame | ⟨-, -, hunknown⟩ | ⟨-, -, herror⟩ := verdict_under (w := w) faults p
  · rwa [hsame] at h
  · rw [hunknown] at h
    cases h
    cases known
  · rw [herror] at h
    cases h

/-- The format of the path is described as ever, if it is asked for. -/
def Described (w : Workbench) (faults : Faults) (p : Path) : Prop :=
  w.Asks p → faults.describing p = none

theorem Described.verdict (described : w.Described faults p) :
    (w.under faults).verdict p = w.verdict p := by
  obtain hsame | ⟨asks, hfault, -⟩ | ⟨asks, hfault, -⟩ := verdict_under (w := w) faults p
  · exact hsame
  · simp [described asks] at hfault
  · simp [described asks] at hfault

/-- The listed files whose architecture the expansion of a path asks for. -/
def candidatesOf (w : Workbench) (root p : Path) : List Path :=
  match w.inspector.texts p with
  | .ok texts => (references w.settings p.baseName texts).flatMap (w.filesNamed root)
  | .error _ => []

/-- An edge that no failure touches: the path has no failing call of its own, the one it leads to is
described as ever, and no candidate breaks the tools while the path is expanded. -/
structure Unaffected (w : Workbench) (faults : Faults) (root p q : Path) : Prop where
  edge : q ∈ w.edges root p
  described : w.Described faults p
  texts : faults.reading p = none
  target : w.Described faults q
  candidates : ∀ c ∈ w.candidatesOf root p, w.Asks c → faults.describing c ≠ some .broken

section Edges

variable {play : List Path} (spelling : Path.OneSpelling play)
  (listed : w.inspector.listFiles root ⊆ play)
  (told : ∀ p ∈ play, ∃ a, w.verdict p = .ok a) (hp : p ∈ play)
include spelling listed told hp

/-- Faults make no new edges. -/
theorem mem_edges_of_under (hq : q ∈ (w.under faults).edges root p) : q ∈ w.edges root p := by
  obtain ⟨a, texts, known, hverdict, htexts, -, library, hlibrary, hnamed, hsame⟩ :=
    (mem_edges_iff (w := w.under faults) spelling listed hp).mp hq
  cases hfault : faults.reading p with
  | none =>
    refine (mem_edges_iff spelling listed hp).mpr ⟨a, texts, known, verdict_of_under known hverdict,
      ?_, ?_, library, hlibrary, hnamed, verdict_of_under known hsame⟩
    · simpa [under, hfault, Fault.answer] using htexts
    · intro name _ c hc
      exact told c (listed (filesNamed_subset w root name hc))
  | some fault =>
    cases fault with
    | silent =>
      simp only [under, hfault, Fault.answer, Except.ok.injEq] at htexts
      subst htexts
      simp [references] at hlibrary
    | broken => simp [under, hfault, Fault.answer] at htexts

theorem Unaffected.mem_edges (unaffected : w.Unaffected faults root p q) :
    q ∈ (w.under faults).edges root p := by
  obtain ⟨a, texts, known, hverdict, htexts, -, library, hlibrary, hnamed, hsame⟩ :=
    (mem_edges_iff spelling listed hp).mp unaffected.edge
  apply (mem_edges_iff (w := w.under faults) spelling listed hp).mpr
  refine ⟨a, texts, known, ?_, ?_, ?_, library, hlibrary, hnamed, ?_⟩
  · rw [unaffected.described.verdict, hverdict]
  · simp [under, unaffected.texts, Fault.answer, htexts]
  · intro name hname c hc
    have hcandidate : c ∈ w.candidatesOf root p := by
      simp only [candidatesOf, htexts, List.mem_flatMap]
      exact ⟨name, hname, hc⟩
    obtain ⟨b, hb⟩ := told c (listed (filesNamed_subset w root name hc))
    obtain hsame | ⟨-, -, hunknown⟩ | ⟨asks, hbroken, -⟩ := verdict_under (w := w) faults c
    · exact ⟨b, hsame.trans hb⟩
    · exact ⟨.unknown, hunknown⟩
    · exact absurd hbroken (unaffected.candidates c hcandidate asks)
  · rw [unaffected.target.verdict, hsame]

end Edges

section Needs

variable (spelling : Path.OneSpelling (w.inPlay root seed))
  (told : ∀ p ∈ w.inPlay root seed, ∃ a, w.verdict p = .ok a)
include spelling told

omit told in
theorem inPlay_of_needs (needs : w.Needs root seed q) : q ∈ w.inPlay root seed := by
  have hlisted : w.inspector.listFiles root ⊆ w.inPlay root seed := List.subset_cons_self _ _
  have hstep : ∀ {p q}, p ∈ w.inPlay root seed → q ∈ w.edges root p → q ∈ w.inPlay root seed :=
    fun hp hq => hlisted (edges_subset spelling hlisted hp hq)
  induction needs with
  | single edge => exact hstep List.mem_cons_self edge
  | tail _ edge ih => exact hstep ih edge

omit told in
/-- What is needed along fewer edges is needed. -/
theorem needs_mono {v : Workbench}
    (fewer : ∀ p ∈ w.inPlay root seed, v.edges root p ⊆ w.edges root p)
    (needs : v.Needs root seed q) : w.Needs root seed q := by
  induction needs with
  | single edge => exact .single (fewer _ List.mem_cons_self edge)
  | tail _ edge ih => exact ih.tail (fewer _ (inPlay_of_needs spelling ih) edge)

theorem needs_of_under (needs : (w.under faults).Needs root seed q) : w.Needs root seed q := by
  have hlisted : w.inspector.listFiles root ⊆ w.inPlay root seed := List.subset_cons_self _ _
  exact needs_mono spelling
    (fun p hp _ hq => mem_edges_of_under spelling hlisted told hp hq) needs

theorem needs_of_unaffected (chain : Relation.TransGen (w.Unaffected faults root) seed q) :
    (w.under faults).Needs root seed q := by
  have hlisted : w.inspector.listFiles root ⊆ w.inPlay root seed := List.subset_cons_self _ _
  induction chain with
  | single unaffected => exact .single (unaffected.mem_edges spelling hlisted told List.mem_cons_self)
  | tail _ unaffected ih =>
    have hp := inPlay_of_needs spelling (needs_of_under spelling told ih)
    exact ih.tail (unaffected.mem_edges spelling hlisted told hp)

end Needs

/-- What is left of a closure under faults: a part of the whole, with every path that unaffected edges
lead to. -/
def KeepsUnaffected (w : Workbench) (faults : Faults) (root seed : Path)
    (whole rest : Except Failure Closure) : Prop :=
  ∃ full closure, whole = .ok full ∧ rest = .ok closure ∧ closure.paths ⊆ full.paths ∧
    ∀ q, q ≠ seed → Relation.TransGen (w.Unaffected faults root) seed q → q ∈ closure.paths

theorem keepsUnaffected_of_finds {ρ : Type} {reporter : Reporter ρ} {report final last : ρ}
    {whole rest : Except Failure Closure} (spelling : Path.OneSpelling (w.inPlay root seed))
    (told : ∀ p ∈ w.inPlay root seed, ∃ a, w.verdict p = .ok a)
    (healthy : w.Finds reporter root seed report whole final)
    (faulty : (w.under faults).Finds reporter root seed report rest last) :
    w.KeepsUnaffected faults root seed whole rest := by
  obtain ⟨full, hwhole, -, hfull, -⟩ := healthy
  obtain ⟨closure, hrest, -, hclosure, -⟩ := faulty
  refine ⟨full, closure, hwhole, hrest, ?_, ?_⟩
  · intro q hq
    obtain ⟨hne, needs⟩ := (hclosure q).mp hq
    exact (hfull q).mpr ⟨hne, needs_of_under spelling told needs⟩
  · intro q hne chain
    exact (hclosure q).mpr ⟨hne, needs_of_unaffected spelling told chain⟩

end Workbench

namespace Crew

open Workbench

variable {ρ : Type}

section Search

variable {w : Workbench} {faults : Faults} {reporter : Reporter ρ} {root seed : Path} {report : ρ}
  {session other : Session} (spelling : Path.OneSpelling (w.inPlay root seed))
  (told : ∀ p ∈ w.inPlay root seed, ∃ a, w.verdict p = .ok a)
  (faithful : session.Faithful w root (w.inPlay root seed))
  (hother : other.Faithful (w.under faults) root (w.inPlay root seed))
  (accepts : reporter.Accepts report)
include spelling told faithful hother accepts

theorem Run.keepsUnaffected {m n : ℕ} {actions more : List Action} {s t : State ρ}
    (healthy : Run (steady m w reporter root)
      ((steady m w reporter root).start seed report session) actions s) (hs : s.Finished)
    (faulty : Run (steady n (w.under faults) reporter root)
      ((steady n (w.under faults) reporter root).start seed report other) more t)
    (ht : t.Finished) :
    w.KeepsUnaffected faults root seed (s.walk.outcome seed) (t.walk.outcome seed) := by
  have hspelling : Path.OneSpelling ((w.under faults).inPlay root seed) := spelling
  exact keepsUnaffected_of_finds spelling told (healthy.finds spelling faithful accepts hs)
    (faulty.finds hspelling hother accepts ht)

theorem closure_keepsUnaffected :
    w.KeepsUnaffected faults root seed (w.closure reporter root seed report session).1
      ((w.under faults).closure reporter root seed report other).1 := by
  obtain ⟨actions, s, healthy, hs, hclosure⟩ :=
    closure_run_steady w reporter root seed report session
  obtain ⟨more, t, faulty, ht, hclosure'⟩ :=
    closure_run_steady (w.under faults) reporter root seed report other
  rw [hclosure, hclosure']
  exact healthy.keepsUnaffected spelling told faithful hother accepts hs faulty ht

end Search

/-- Failures only ever shrink a closure. If the tools describe everything in play, and fail on any files
in a second search, then that search still comes to a closure, which is a part of the first one, and all
that steps without failures lead to is kept. So it is for every number of workers and every order in
which expansions come back, and for the search by itself. -/
theorem search_under_faults (w : Workbench) (faults : Faults) (reporter : Reporter ρ)
    (root seed : Path) (report : ρ) (session other : Session)
    (spelling : Path.OneSpelling (w.inPlay root seed))
    (tells : ∀ p ∈ w.inPlay root seed, ∃ text, w.inspector.describe p = .ok text)
    (faithful : session.Faithful w root (w.inPlay root seed))
    (hother : other.Faithful (w.under faults) root (w.inPlay root seed))
    (accepts : reporter.Accepts report) :
    (∀ workers, Ends (steady workers (w.under faults) reporter root)
      (fun s => ∃ closure, s.walk.outcome seed = .ok closure)
      ((steady workers (w.under faults) reporter root).start seed report other)) ∧
    (∀ m n actions more s t,
      Run (steady m w reporter root) ((steady m w reporter root).start seed report session)
        actions s → s.Finished →
      Run (steady n (w.under faults) reporter root)
        ((steady n (w.under faults) reporter root).start seed report other) more t → t.Finished →
      w.KeepsUnaffected faults root seed (s.walk.outcome seed) (t.walk.outcome seed)) ∧
    w.KeepsUnaffected faults root seed (w.closure reporter root seed report session).1
      ((w.under faults).closure reporter root seed report other).1 := by
  have told : ∀ p ∈ w.inPlay root seed, ∃ a, w.verdict p = .ok a :=
    fun p hp => exists_verdict (tells p hp)
  have hspelling : Path.OneSpelling ((w.under faults).inPlay root seed) := spelling
  refine ⟨?_, ?_, closure_keepsUnaffected spelling told faithful hother accepts⟩
  · intro workers
    apply ends
    intro actions s run finished
    obtain ⟨closure, houtcome, -⟩ := run.finds hspelling hother accepts finished
    exact ⟨closure, houtcome⟩
  · intro m n actions more s t healthy hs faulty ht
    exact healthy.keepsUnaffected spelling told faithful hother accepts hs faulty ht

section BrokenBranch

def branchSeed : Path := .ofString "/a.so"

def soundBranch : Path := .ofString "/b.so"

def brokenBranch : Path := .ofString "/c.so"

def branchEnd : Path := .ofString "/d.so"

def brokenFile : Path := .ofString "/e.so"

def branchBench : Workbench :=
  { settings := { ignoredLibraries := [], nonBinaryExtensions := [] }
    strategy := .content
    inspector :=
      { listFiles := fun _ => [branchSeed, soundBranch, brokenBranch, branchEnd, brokenFile]
        describe := fun _ => .ok "ELF 64-bit"
        texts := fun p => .ok <|
          if p = branchSeed then ["b.so", "c.so"]
          else if p = soundBranch then ["d.so"]
          else if p = brokenBranch then ["a.so", "e.so"]
          else [] } }

/-- The cause breaks the tools when it is described, and the texts of the end are lost. -/
def branchFaults : Faults where
  describing p := if p = brokenFile then some .broken else none
  reading p := if p = branchEnd then some .silent else none

def branchIndex : NameIndex :=
  ⟨[("a.so", [branchSeed]), ("b.so", [soundBranch]), ("c.so", [brokenBranch]), ("d.so", [branchEnd]),
    ("e.so", [brokenFile])]⟩

theorem index_branch : branchIndex = NameIndex.ofPaths (branchBench.inspector.listFiles (.ofString "/")) := by
  cbv

theorem spelling_branch : Path.OneSpelling (branchBench.inPlay (.ofString "/") branchSeed) := by decide

theorem faithful_branch : Session.Faithful branchBench (.ofString "/")
    (branchBench.inPlay (.ofString "/") branchSeed)
    { index := some branchIndex } := .indexed _ _ _ index_branch

theorem unaffected_branch {p q : Path} (hp : p ∈ branchBench.inPlay (.ofString "/") branchSeed)
    (edge : q ∈ (branchBench.expandOrLeaf (.ofString "/") p { index := some branchIndex }).1)
    (spared : p ≠ brokenFile ∧ p ≠ branchEnd ∧ q ≠ brokenFile)
    (candidates : brokenFile ∉ branchBench.candidatesOf (.ofString "/") p) :
    branchBench.Unaffected branchFaults (.ofString "/") p q where
  edge := by
    rwa [← expandOrLeaf_edges spelling_branch (List.subset_cons_self _ _) hp faithful_branch]
  described := fun _ => by simp [branchFaults, spared.1]
  texts := by simp [branchFaults, spared.2.1]
  target := fun _ => by simp [branchFaults, spared.2.2]
  candidates c hc _ := by
    have hne : c ≠ brokenFile := fun h => candidates (h ▸ hc)
    simp [branchFaults, hne]

theorem chain_branch :
    Relation.TransGen (branchBench.Unaffected branchFaults (.ofString "/")) branchSeed branchEnd := by
  have hnamed : branchBench.filesNamed (.ofString "/") =
      fun library => (branchIndex.matching? (Glob.ofLibrary library)).getD [] := by
    funext library
    rw [filesNamed, index_branch]
  have hfirst : branchBench.Unaffected branchFaults (.ofString "/") branchSeed soundBranch := by
    apply unaffected_branch (by decide) (by decide +kernel) (by decide)
    simp only [candidatesOf, hnamed]
    decide +kernel
  have hsecond : branchBench.Unaffected branchFaults (.ofString "/") soundBranch branchEnd := by
    apply unaffected_branch (by decide) (by decide +kernel) (by decide)
    simp only [candidatesOf, hnamed]
    decide +kernel
  exact .tail (.single hfirst) hsecond

/-- With any number of workers, the end is found although the second file leads nowhere any more. -/
theorem search_under_faults_broken_branch :
    Path.OneSpelling (branchBench.inPlay (.ofString "/") branchSeed) ∧
    (∀ p ∈ branchBench.inPlay (.ofString "/") branchSeed,
      ∃ text, branchBench.inspector.describe p = .ok text) ∧
    Collection.reporter.Accepts {} ∧
    Relation.TransGen (branchBench.Unaffected branchFaults (.ofString "/")) branchSeed branchEnd ∧
    ∀ workers actions s,
      Run (steady workers (branchBench.under branchFaults) Collection.reporter (.ofString "/"))
      ((steady workers (branchBench.under branchFaults) Collection.reporter (.ofString "/")).start
        branchSeed {} {}) actions s → s.Finished →
      ∃ closure, s.walk.outcome branchSeed = .ok closure ∧ branchEnd ∈ closure.paths ∧
        closure.paths ⊆ [soundBranch, brokenBranch, branchEnd, brokenFile] := by
  have htells : ∀ p ∈ branchBench.inPlay (.ofString "/") branchSeed,
      ∃ text, branchBench.inspector.describe p = .ok text := fun p _ => ⟨_, rfl⟩
  have haccepts : Collection.reporter.Accepts {} := Collection.accepts rfl
  obtain ⟨-, hruns, -⟩ := search_under_faults branchBench branchFaults Collection.reporter (.ofString "/")
    branchSeed {} { index := some branchIndex } {} spelling_branch htells faithful_branch (.fresh _ _ _)
    haccepts
  refine ⟨spelling_branch, htells, haccepts, chain_branch, fun workers actions s run finished => ?_⟩
  obtain ⟨more, t, healthy, ht, hclosure⟩ := closure_run_steady branchBench Collection.reporter
    (.ofString "/") branchSeed {} { index := some branchIndex }
  have hvalue : (branchBench.closure Collection.reporter (.ofString "/") branchSeed {}
      { index := some branchIndex }).1 =
      .ok ⟨branchSeed, [soundBranch, brokenBranch, branchEnd, brokenFile]⟩ := by decide +kernel
  obtain ⟨full, closure, hfull, houtcome, hsub, hkept⟩ :=
    hruns 1 workers more actions t s healthy ht run finished
  have hwhole := (congrArg Prod.fst hclosure).symm.trans hvalue
  obtain rfl := Except.ok.inj (hwhole.symm.trans hfull)
  exact ⟨closure, houtcome, hkept branchEnd (by decide) chain_branch, hsub⟩

end BrokenBranch

end Crew

end BlobCensus
