import Mathlib
import BlobCensus.Proofs.Closure.Draining

/-!
# What a search finds

If the tools are steady and no path has two spellings, a search finds the paths that can be reached
from its seed, in whatever order expansions come back. Each path found is either still outstanding
or all its edges have been met, or are about to be; when nothing is left, what was found is closed
under edges.
-/
namespace BlobCensus

/-- The state after a list of records has been taken. -/
def Reporter.emitAll {ρ : Type} (reporter : Reporter ρ) (records : List Record) (state : ρ) : ρ :=
  records.foldl (fun state record => (reporter.emit record state).2) state

/-- From this state on the reporter never refuses a record. -/
def Reporter.Accepts {ρ : Type} (reporter : Reporter ρ) (state : ρ) : Prop :=
  ∀ records record, (reporter.emit record (reporter.emitAll records state)).1 = .ok ()

namespace Collection

theorem emit_of_room {kept : Collection} (h : kept.room = none) (record : Record) :
    reporter.emit record kept = (.ok (), { kept with records := kept.records ++ [record] }) := by
  simp [reporter, h]

theorem room_emitAll {kept : Collection} (h : kept.room = none) (records : List Record) :
    (reporter.emitAll records kept).room = none := by
  induction records generalizing kept with
  | nil => exact h
  | cons record rest ih =>
    refine ih ?_
    simp only [emit_of_room h]
    exact h

theorem accepts {kept : Collection} (h : kept.room = none) : reporter.Accepts kept := by
  intro records record
  rw [emit_of_room (room_emitAll h records)]

end Collection

namespace Workbench

def inPlay (w : Workbench) (root seed : Path) : List Path := seed :: w.inspector.listFiles root

/-- A path needs those that one or more edges lead to. -/
def Needs (w : Workbench) (root : Path) : Path → Path → Prop :=
  Relation.TransGen fun p q => q ∈ w.edges root p

def recordsOf (root : Path) (paths : List Path) : List Record :=
  paths.map fun p => .path (Path.relativeTo root p)

/-- The outcome and the report of a search that finds exactly what the seed needs. Each path is found
once and reported when it is found. -/
def Finds {ρ : Type} (w : Workbench) (reporter : Reporter ρ) (root seed : Path) (report : ρ)
    (outcome : Except Failure Closure) (final : ρ) : Prop :=
  ∃ closure, outcome = .ok closure ∧ closure.seed = seed ∧
    (∀ q, q ∈ closure.paths ↔ q ≠ seed ∧ w.Needs root seed q) ∧
    (closure.paths.map Path.components).Nodup ∧ closure.contains seed = false ∧
    final = reporter.emitAll (recordsOf root closure.paths) report

end Workbench

namespace Crew

open Workbench

variable {ρ : Type} {crew : Crew ρ} {s t : State ρ} {seed p : Path} {report : ρ}
  {actions : List Action}

/-- What is known of a search with steady tools and a report that takes every record. -/
structure Progress (crew : Crew ρ) (seed : Path) (report : ρ) (s : State ρ) : Prop where
  failure : s.walk.failure = none
  sound : Sound (Session.Faithful crew.bench crew.root (crew.bench.inPlay crew.root seed))
    (fun p result => result = crew.bench.edges crew.root p) s
  seen : ∀ c ∈ s.walk.seen, ∃ p ∈ seed :: s.walk.found, p.components = c
  needed : ∀ q ∈ s.walk.found ++ s.batch, crew.bench.Needs crew.root seed q
  explored : ∀ p ∈ seed :: s.walk.found, p ∈ s.outstanding ∨
    ∀ q ∈ crew.bench.edges crew.root p, q.components ∈ s.walk.seen ∨ q ∈ s.batch
  report : s.walk.report = crew.reporter.emitAll (recordsOf crew.root s.walk.found) report

theorem Accounts.inPlay
    (h : Accounts (.ofPaths (crew.bench.inspector.listFiles crew.root)) seed actions s) :
    seed :: s.walk.found ⊆ crew.bench.inPlay crew.root seed :=
  List.cons_subset_cons seed (List.Subset.trans h.found (NameIndex.paths_ofPaths_perm _).subset)

namespace Progress

theorem start (seed : Path) (report : ρ) {session : Session}
    (faithful : session.Faithful crew.bench crew.root (crew.bench.inPlay crew.root seed)) :
    Progress crew seed report (crew.start seed report session) where
  failure := rfl
  sound := ⟨faithful.prepare.2, by simp [Crew.start], by simp [Crew.start]⟩
  seen := by simp [Crew.start, Walk.start]
  needed := by simp [Crew.start, Walk.start]
  explored := by simp [Crew.start, Walk.start, State.outstanding]
  report := rfl

theorem met_of_busy {rest : List Path} (busy : s.batch = p :: rest) {seen : List (List Component)}
    (kept : s.walk.seen ⊆ seen) (hp : p.components ∈ seen) {x : Path}
    (met : ∀ q ∈ crew.bench.edges crew.root x, q.components ∈ s.walk.seen ∨ q ∈ s.batch) :
    ∀ q ∈ crew.bench.edges crew.root x, q.components ∈ seen ∨ q ∈ rest := by
  intro q hq
  rcases met q hq with hq | hq
  · exact .inl (kept hq)
  · rw [busy] at hq
    rcases List.mem_cons.mp hq with rfl | hq
    · exact .inl hp
    · exact .inr hq

section Steps

variable (h : Progress crew seed report s)
include h

theorem take (spelling : Path.OneSpelling (crew.bench.inPlay crew.root seed))
    (hp : p ∈ crew.bench.inPlay crew.root seed) (waiting : p ∈ s.walk.queue) :
    Progress crew seed report
      { s with
        walk := { s.walk with queue := s.walk.queue.erase p }
        running := (p, crew.bench.expand crew.root p) :: s.running } := by
  refine { h with sound := ?_, explored := ?_ }
  · exact h.sound.take (expand_edges spelling (List.subset_cons_self _ _) hp) _
  · intro q hq
    exact (h.explored q hq).imp_left (outstanding_take waiting _).mem_iff.mpr

theorem work {change : Session → Session} {next : Session → Job (List Path)}
    {front back : List (Path × Job (List Path))}
    (busy : s.running = front ++ (p, .access change next) :: back) :
    Progress crew seed report
      { s with
        running := front ++ (p, next s.session) :: back
        session := change s.session } := by
  refine { h with sound := h.sound.work busy, explored := ?_ }
  rw [outstanding_work busy]
  exact h.explored

theorem finish {answer : Except Breakdown (List Path)}
    {front back : List (Path × Job (List Path))}
    (busy : s.running = front ++ (p, .done answer) :: back) :
    Progress crew seed report
      { s with
        running := front ++ back
        mail := s.mail ++ [(p, (resultOf p answer s.session).1)]
        session := (resultOf p answer s.session).2 } := by
  refine { h with sound := h.sound.finish (fun _ _ hs => hs.note _) busy, explored := ?_ }
  intro q hq
  exact (h.explored q hq).imp_left (outstanding_finish busy _ _).mem_iff.mpr

theorem receive {result : List Path} {rest : List (Path × List Path)}
    (hp : p ∈ seed :: s.walk.found) (idle : s.batch = [])
    (arrived : s.mail = (p, result) :: rest) :
    Progress crew seed report
      { s with
        walk := { s.walk with pending := s.walk.pending - 1 }
        batch := result
        mail := rest } := by
  obtain ⟨hsound, hresult⟩ := h.sound.receive arrived { s.walk with pending := s.walk.pending - 1 }
  refine { h with sound := hsound, needed := ?_, explored := ?_ }
  · intro q hq
    rcases List.mem_append.mp hq with hq | hq
    · exact h.needed q (by simp [hq])
    · rw [hresult] at hq
      rcases List.mem_cons.mp hp with rfl | hp
      · exact .single hq
      · exact .tail (h.needed p (by simp [hp])) hq
  · intro x hx
    rcases h.explored x hx with hout | hmet
    · by_cases hxp : x = p
      · refine .inr fun q hq => .inr ?_
        rwa [hresult, ← hxp]
      · left
        simpa [State.outstanding, arrived, hxp] using hout
    · exact .inr fun q hq => .inl ((hmet q hq).resolve_right (by simp [idle]))

theorem meet_old {rest : List Path} (busy : s.batch = p :: rest) (hp : p.components ∈ s.walk.seen) :
    Progress crew seed report { s with batch := rest } := by
  refine { h with sound := h.sound.meet _ _, needed := ?_, explored := ?_ }
  · intro q hq
    refine h.needed q ?_
    rw [busy]
    exact ((List.sublist_cons_self _ _).append_left _).subset hq
  · intro x hx
    exact (h.explored x hx).imp_right (met_of_busy busy (List.Subset.refl _) hp)

theorem meet_new {rest : List Path} (busy : s.batch = p :: rest) :
    Progress crew seed report
      { s with
        walk := { s.walk with
          seen := p.components :: s.walk.seen
          found := s.walk.found ++ [p]
          queue := s.walk.queue ++ [p]
          pending := s.walk.pending + 1
          report := (crew.reporter.emit (.path (Path.relativeTo crew.root p)) s.walk.report).2 }
        batch := rest } := by
  refine { h with
    sound := h.sound.meet _ _, seen := ?_, needed := ?_, explored := ?_, report := ?_ }
  · intro c hc
    rcases List.mem_cons.mp hc with rfl | hc
    · exact ⟨p, by simp, rfl⟩
    · obtain ⟨q, hq, rfl⟩ := h.seen c hc
      exact ⟨q, List.mem_append_left [p] hq, rfl⟩
  · intro q hq
    refine h.needed q ?_
    rwa [busy, ← List.singleton_append, ← List.append_assoc]
  · intro x hx
    rw [← List.cons_append, List.mem_append, List.mem_singleton] at hx
    rcases hx with hx | rfl
    · rcases h.explored x hx with hout | hmet
      · left
        simp only [State.outstanding, List.mem_append] at hout ⊢
        tauto
      · exact .inr (met_of_busy busy (List.subset_cons_self _ _) List.mem_cons_self hmet)
    · left
      simp [State.outstanding]
  · rw [h.report, recordsOf, recordsOf, Reporter.emitAll, Reporter.emitAll, List.map_append,
      List.foldl_append]
    rfl

theorem meet (accepts : crew.reporter.Accepts report) {rest : List Path} (busy : s.batch = p :: rest) :
    Progress crew seed report
      { s with
        walk := s.walk.meet crew.reporter crew.root p
        batch := rest } := by
  obtain ⟨hold, hmeet⟩ | ⟨-, -, ⟨reason, hrefuse, -⟩ | ⟨-, hmeet⟩⟩ :=
    Walk.meet_cases crew.reporter crew.root s.walk p
  · have hseen : p.components ∈ s.walk.seen := hold.resolve_left (by simp [h.failure])
    rw [hmeet]
    exact h.meet_old busy hseen
  · rw [h.report, accepts] at hrefuse
    cases hrefuse
  · rw [hmeet]
    exact h.meet_new busy

end Steps

theorem step {action : Action} (steady : crew.variants = ∅)
    (accepts : crew.reporter.Accepts report)
    (spelling : Path.OneSpelling (crew.bench.inPlay crew.root seed))
    (haccounts : Accounts (.ofPaths (crew.bench.inspector.listFiles crew.root)) seed actions s)
    (h : Progress crew seed report s) (step : Step crew s action t) :
    Progress crew seed report t := by
  cases step with
  | @take p tools _ waiting variant =>
    have hout : p ∈ s.outstanding := by simp [State.outstanding, waiting]
    have hp := haccounts.inPlay (haccounts.outstanding_subset hout)
    rw [steady, insert_empty_eq, Set.mem_singleton_iff] at variant
    subst variant
    exact h.take spelling hp waiting
  | work busy => exact h.work busy
  | finish busy => exact h.finish busy
  | @receive p result rest idle _ arrived =>
    have hout : p ∈ s.outstanding := by simp [State.outstanding, arrived]
    exact h.receive (haccounts.outstanding_subset hout) idle arrived
  | meet busy => exact h.meet accepts busy

section Finished

variable (h : Progress crew seed report s)
  (haccounts : Accounts (.ofPaths (crew.bench.inspector.listFiles crew.root)) seed actions s)
  (spelling : Path.OneSpelling (crew.bench.inPlay crew.root seed)) (finished : s.Finished)
include h haccounts spelling finished

theorem closed_of_finished (hp : p ∈ seed :: s.walk.found) :
    crew.bench.edges crew.root p ⊆ seed :: s.walk.found := by
  intro q hq
  have hseen : q.components ∈ s.walk.seen := by
    rcases h.explored p hp with hout | hedges
    · rw [haccounts.outstanding_of_finished finished] at hout
      cases hout
    · exact (hedges q hq).resolve_right (by simp [finished.1])
  have hplay : q ∈ crew.bench.inPlay crew.root seed :=
    List.mem_cons_of_mem _
      (edges_subset spelling (List.subset_cons_self _ _) (haccounts.inPlay hp) hq)
  obtain ⟨r, hr, hsame⟩ := h.seen _ hseen
  rwa [← spelling r (haccounts.inPlay hr) q hplay hsame]

theorem mem_found_of_needs {q : Path} (needs : crew.bench.Needs crew.root seed q) :
    q ∈ seed :: s.walk.found := by
  induction needs with
  | single edge => exact h.closed_of_finished haccounts spelling finished List.mem_cons_self edge
  | tail _ edge ih => exact h.closed_of_finished haccounts spelling finished ih edge

theorem mem_found_iff (q : Path) :
    q ∈ s.walk.found ↔ q ≠ seed ∧ crew.bench.Needs crew.root seed q := by
  constructor
  · intro hq
    refine ⟨?_, h.needed q (List.mem_append_left _ hq)⟩
    rintro rfl
    exact (List.nodup_cons.mp haccounts.nodup).1 (List.mem_map_of_mem hq)
  · rintro ⟨hne, needs⟩
    exact (List.mem_cons.mp (h.mem_found_of_needs haccounts spelling finished needs)).resolve_left hne

theorem finds : crew.bench.Finds crew.reporter crew.root seed report (s.walk.outcome seed)
    s.walk.report := by
  have hnodup := List.nodup_cons.mp haccounts.nodup
  refine ⟨⟨seed, s.walk.found⟩, ?_, rfl, h.mem_found_iff haccounts spelling finished, hnodup.2, ?_,
    h.report⟩
  · rw [Walk.outcome, h.failure]
  · have hseed : ∀ q ∈ s.walk.found, q.components ≠ seed.components :=
      fun q hq hsame => hnodup.1 (hsame ▸ List.mem_map_of_mem hq)
    simpa [Closure.contains] using hseed

end Finished

end Progress

/-- A crew whose tools always answer the same. -/
def steady (workers : ℕ) (w : Workbench) (reporter : Reporter ρ) (root : Path) : Crew ρ :=
  { workers, bench := w, reporter, root }

theorem closure_run_steady (w : Workbench) (reporter : Reporter ρ) (root seed : Path) (report : ρ)
    (session : Session) : ∃ actions s,
      Run (steady 1 w reporter root) ((steady 1 w reporter root).start seed report session) actions s ∧
        s.Finished ∧
        w.closure reporter root seed report session =
          (s.walk.outcome seed, s.walk.report, s.session) :=
  closure_run (steady 1 w reporter root) seed report session

section Search

variable {w : Workbench} {reporter : Reporter ρ} {root : Path} {session : Session}
  (spelling : Path.OneSpelling (w.inPlay root seed))
  (faithful : session.Faithful w root (w.inPlay root seed)) (accepts : reporter.Accepts report)
include spelling faithful accepts

theorem Run.progress {workers : ℕ} (run : Run (steady workers w reporter root)
      ((steady workers w reporter root).start seed report session) actions s) :
    Progress (steady workers w reporter root) seed report s ∧
      Accounts (.ofPaths (w.inspector.listFiles root)) seed actions s := by
  have haccounts : ∀ {actions s}, Run (steady workers w reporter root)
      ((steady workers w reporter root).start seed report session) actions s →
      Accounts (.ofPaths (w.inspector.listFiles root)) seed actions s := by
    intro actions s run
    rw [← faithful.prepare.1]
    exact run.accounts
  refine ⟨?_, haccounts run⟩
  induction run with
  | nil => exact .start seed report faithful
  | snoc prior step ih => exact ih.step rfl accepts spelling (haccounts prior) step

theorem Run.finds {workers : ℕ} (run : Run (steady workers w reporter root)
      ((steady workers w reporter root).start seed report session) actions s)
    (finished : s.Finished) :
    w.Finds reporter root seed report (s.walk.outcome seed) s.walk.report := by
  obtain ⟨hprogress, haccounts⟩ := run.progress spelling faithful accepts
  exact hprogress.finds haccounts spelling finished

/-- The search by itself is a run of a crew of one worker. -/
theorem closure_finds : w.Finds reporter root seed report
    (w.closure reporter root seed report session).1
    (w.closure reporter root seed report session).2.1 := by
  obtain ⟨actions, last, run, finished, hclosure⟩ :=
    closure_run_steady w reporter root seed report session
  rw [hclosure]
  exact run.finds spelling faithful accepts finished

end Search

/-- A search finds exactly the paths, other than the seed, that one or more edges lead to from the
seed. So it is for every number of workers and every order in which expansions come back, and for the
search by itself; any two searches find the same paths. What a session remembers stays right, so that
one search can follow another. -/
theorem search_finds_needed (w : Workbench) (reporter : Reporter ρ) (root seed : Path) (report : ρ)
    (session : Session) (spelling : Path.OneSpelling (w.inPlay root seed))
    (faithful : session.Faithful w root (w.inPlay root seed)) (accepts : reporter.Accepts report) :
    (∀ workers, Ends (steady workers w reporter root)
      (fun s => w.Finds reporter root seed report (s.walk.outcome seed) s.walk.report ∧
        s.session.Faithful w root (w.inPlay root seed))
      ((steady workers w reporter root).start seed report session)) ∧
    (∀ m n actions more s t,
      Run (steady m w reporter root) ((steady m w reporter root).start seed report session)
        actions s → s.Finished →
      Run (steady n w reporter root) ((steady n w reporter root).start seed report session)
        more t → t.Finished → s.walk.found.Perm t.walk.found) ∧
    w.Finds reporter root seed report (w.closure reporter root seed report session).1
      (w.closure reporter root seed report session).2.1 := by
  refine ⟨?_, ?_, closure_finds spelling faithful accepts⟩
  · intro workers
    refine ends fun actions s run finished => ⟨run.finds spelling faithful accepts finished, ?_⟩
    exact (run.progress spelling faithful accepts).1.sound.session
  · intro m n actions more s t left hs right ht
    obtain ⟨hleft, hleftAccounts⟩ := left.progress spelling faithful accepts
    obtain ⟨hright, hrightAccounts⟩ := right.progress spelling faithful accepts
    refine (List.perm_ext_iff_of_nodup ?_ ?_).mpr fun q => ?_
    · exact hleftAccounts.found_nodup
    · exact hrightAccounts.found_nodup
    · rw [hleft.mem_found_iff hleftAccounts spelling hs,
        hright.mem_found_iff hrightAccounts spelling ht]
      rfl

theorem faithful_cycleSession : cycleSession.Faithful cycleBench (.ofString "/")
    (cycleBench.inPlay (.ofString "/") cycleSeed) := by
  exact .indexed cycleBench (.ofString "/") _ (by cbv)

/-- Of the two files that need each other, the second is found from the first. The first needs itself
too, and is not found. -/
theorem search_finds_needed_cycle :
    Path.OneSpelling (cycleBench.inPlay (.ofString "/") cycleSeed) ∧
    cycleSession.Faithful cycleBench (.ofString "/") (cycleBench.inPlay (.ofString "/") cycleSeed) ∧
    Collection.reporter.Accepts {} ∧
    (∀ q, q ∈ [cycleNext] ↔ q ≠ cycleSeed ∧ cycleBench.Needs (.ofString "/") cycleSeed q) ∧
    cycleBench.Needs (.ofString "/") cycleSeed cycleSeed := by
  have hspelling : Path.OneSpelling (cycleBench.inPlay (.ofString "/") cycleSeed) := by decide
  have haccepts : Collection.reporter.Accepts {} := Collection.accepts rfl
  obtain ⟨-, -, closure, houtcome, -, hpaths, -⟩ := search_finds_needed cycleBench Collection.reporter
    (.ofString "/") cycleSeed {} cycleSession hspelling faithful_cycleSession haccepts
  have hvalue : (cycleBench.closure Collection.reporter (.ofString "/") cycleSeed {} cycleSession).1 =
      .ok ⟨cycleSeed, [cycleNext]⟩ := by decide +kernel
  obtain rfl := Except.ok.inj (hvalue.symm.trans houtcome)
  have hedges : cycleSeed ∈ cycleBench.edges (.ofString "/") cycleSeed := by
    rw [← expandOrLeaf_edges hspelling (List.subset_cons_self _ _) List.mem_cons_self
      faithful_cycleSession]
    decide +kernel
  exact ⟨hspelling, faithful_cycleSession, haccepts, hpaths, .single hedges⟩

end Crew

end BlobCensus
