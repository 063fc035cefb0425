import BlobCensus.Proofs.Closure.Reachability
import BlobCensus.Proofs.FirstOfKey

/-!
# Breadth first

The levels around a seed: the first is the seed alone, and each next one has the new paths among the
edges of the level before. One worker who takes expansions up in the order they were started finds the
levels one after the other, so no path is found before one that fewer edges lead to.
-/
namespace BlobCensus

namespace Workbench

variable {w : Workbench} {root seed p q : Path} {found : List Path} {j k n : ℕ}

/-- The first levels around a seed joined together, up to the `k`-th, and the `k`-th by itself. -/
def levels (w : Workbench) (root seed : Path) : ℕ → List Path × List Path
  | 0 => ([seed], [seed])
  | k + 1 =>
    let (met, last) := w.levels root seed k
    let next := ((last.flatMap (w.edges root)).removeAll met).eraseDups
    (met ++ next, next)

def level (w : Workbench) (root seed : Path) (k : ℕ) : List Path := (w.levels root seed k).2

def upToLevel (w : Workbench) (root seed : Path) (k : ℕ) : List Path := (w.levels root seed k).1

/-- Some number of edges lead from one path to another. -/
inductive Chain (w : Workbench) (root : Path) : ℕ → Path → Path → Prop
  | here (p : Path) : Chain w root 0 p p
  | step {k : ℕ} {p q r : Path} (chain : Chain w root k p q) (edge : r ∈ w.edges root q) :
    Chain w root (k + 1) p r

theorem level_zero : w.level root seed 0 = [seed] := rfl

theorem upToLevel_zero : w.upToLevel root seed 0 = [seed] := rfl

theorem upToLevel_succ :
    w.upToLevel root seed (k + 1) = w.upToLevel root seed k ++ w.level root seed (k + 1) := rfl

theorem upToLevel_eq :
    w.upToLevel root seed k = (List.range (k + 1)).flatMap (w.level root seed) := by
  induction k with
  | zero => simp [upToLevel_zero, level_zero]
  | succ k ih => rw [upToLevel_succ, ih, List.range_succ (n := k + 1)]; simp

theorem level_succ : w.level root seed (k + 1) =
    (((w.level root seed k).flatMap (w.edges root)).removeAll
      ((List.range (k + 1)).flatMap (w.level root seed))).eraseDups := by
  rw [← upToLevel_eq]
  rfl

theorem removeAll_congr {xs ys zs : List Path} (h : ∀ q, q ∈ ys ↔ q ∈ zs) :
    xs.removeAll ys = xs.removeAll zs := by
  simp only [List.removeAll]
  congr 1
  funext q
  simp [h q]

/-- The levels up to the next are what a search has met when it has expanded the levels so far. -/
theorem upToLevel_succ_eq : w.upToLevel root seed (k + 1) =
    (seed :: (w.upToLevel root seed k).flatMap (w.edges root)).eraseDups := by
  induction k with
  | zero =>
    have hcons : seed :: [seed].flatMap (w.edges root) = [seed] ++ [seed].flatMap (w.edges root) :=
      rfl
    rw [upToLevel_succ, level_succ, upToLevel_zero, level_zero, hcons, List.eraseDups_append]
    simp [level_zero, List.eraseDups_cons]
  | succ k ih =>
    have hmem : ∀ q, q ∈ (List.range (k + 2)).flatMap (w.level root seed) ↔
        q ∈ seed :: (w.upToLevel root seed k).flatMap (w.edges root) := by
      intro q
      rw [← upToLevel_eq, ih, List.mem_eraseDups]
    rw [upToLevel_succ, level_succ, removeAll_congr hmem]
    nth_rewrite 1 [ih]
    rw [← List.eraseDups_append, List.cons_append, ← List.flatMap_append, ← upToLevel_succ]

theorem mem_upToLevel_iff : q ∈ w.upToLevel root seed k ↔ ∃ j ≤ k, w.Chain root j seed q := by
  induction k generalizing q with
  | zero =>
    rw [upToLevel_zero, List.mem_singleton]
    constructor
    · rintro rfl
      exact ⟨0, le_rfl, .here q⟩
    · rintro ⟨j, hj, chain⟩
      obtain rfl : j = 0 := by omega
      cases chain
      rfl
  | succ k ih =>
    simp only [upToLevel_succ_eq, List.mem_eraseDups, List.mem_cons, List.mem_flatMap, ih]
    constructor
    · rintro (rfl | ⟨p, ⟨j, hj, chain⟩, edge⟩)
      · exact ⟨0, by omega, .here q⟩
      · exact ⟨j + 1, by omega, chain.step edge⟩
    · rintro ⟨j, hj, chain⟩
      cases chain with
      | here => exact .inl rfl
      | @step j _ p _ chain edge => exact .inr ⟨p, ⟨j, by omega, chain⟩, edge⟩

theorem mem_level_succ_iff : q ∈ w.level root seed (k + 1) ↔
    q ∈ w.upToLevel root seed (k + 1) ∧ q ∉ w.upToLevel root seed k := by
  rw [upToLevel_succ, List.mem_append]
  constructor
  · intro hq
    refine ⟨.inr hq, ?_⟩
    rw [level_succ, List.mem_eraseDups, ← upToLevel_eq] at hq
    simp only [List.removeAll, List.mem_filter] at hq
    simpa using hq.2
  · rintro ⟨hq, hnew⟩
    exact hq.resolve_left hnew

/-- The paths of a level are those whose shortest chain from the seed has as many edges. -/
theorem mem_level_iff : q ∈ w.level root seed k ↔ IsLeast {j | w.Chain root j seed q} k := by
  cases k with
  | zero =>
    rw [level_zero, List.mem_singleton]
    constructor
    · rintro rfl
      exact ⟨.here q, fun j _ => Nat.zero_le j⟩
    · rintro ⟨chain, -⟩
      cases chain
      rfl
  | succ k =>
    rw [mem_level_succ_iff, mem_upToLevel_iff, mem_upToLevel_iff]
    constructor
    · rintro ⟨⟨j, hj, chain⟩, hnone⟩
      have hle : ∀ i, w.Chain root i seed q → k + 1 ≤ i := by
        intro i chain
        by_contra hlt
        exact hnone ⟨i, by omega, chain⟩
      have hjk := hle j chain
      obtain rfl : j = k + 1 := by omega
      exact ⟨chain, fun i => hle i⟩
    · rintro ⟨chain, hle⟩
      refine ⟨⟨k + 1, le_rfl, chain⟩, ?_⟩
      rintro ⟨j, hj, shorter⟩
      have hkj : k + 1 ≤ j := hle shorter
      omega

theorem pairwise_levels (n : ℕ) :
    ((List.range n).flatMap fun k => w.level root seed (k + 1)).Pairwise fun p q => ∀ i j,
      IsLeast {k | w.Chain root k seed p} i → IsLeast {k | w.Chain root k seed q} j → i ≤ j := by
  have hordered : ∀ k l, k ≤ l → ∀ p ∈ w.level root seed (k + 1), ∀ q ∈ w.level root seed (l + 1),
      ∀ i j, IsLeast {k | w.Chain root k seed p} i → IsLeast {k | w.Chain root k seed q} j →
        i ≤ j := by
    intro k l hkl p hp q hq i j hi hj
    have hpi : i = k + 1 := hi.unique (mem_level_iff.mp hp)
    have hqj : j = l + 1 := hj.unique (mem_level_iff.mp hq)
    omega
  rw [List.pairwise_flatMap]
  constructor
  · intro k _
    exact List.pairwise_of_forall_mem_list (hordered k k le_rfl)
  · exact List.pairwise_le_range.imp fun hkl => hordered _ _ hkl

theorem exists_chain (h : w.Needs root seed q) : ∃ k, w.Chain root k seed q := by
  induction h with
  | single edge => exact ⟨1, .step (.here seed) edge⟩
  | tail _ edge ih =>
    obtain ⟨k, chain⟩ := ih
    exact ⟨k + 1, chain.step edge⟩

section Fixpoint

variable (fixed : found = (seed :: found.flatMap (w.edges root)).eraseDups)

include fixed in
theorem upToLevel_isPrefix : w.upToLevel root seed k <+: found := by
  induction k with
  | zero =>
    rw [fixed, List.eraseDups_cons, upToLevel_zero]
    exact ⟨_, rfl⟩
  | succ k ih =>
    obtain ⟨rest, hrest⟩ := ih
    rw [fixed, ← hrest, List.flatMap_append, ← List.cons_append, List.eraseDups_append,
      ← upToLevel_succ_eq]
    exact List.prefix_append _ _

theorem level_of_le (empty : w.level root seed (n + 1) = []) (h : n ≤ k) :
    w.level root seed (k + 1) = [] := by
  induction k, h using Nat.le_induction with
  | base => exact empty
  | succ k _ ih => simp [level_succ (k := k + 1), ih, List.removeAll]

include fixed in
theorem exists_empty_level : ∃ n, w.level root seed (n + 1) = [] := by
  by_contra hnone
  have hgrows : ∀ k, k < (w.upToLevel root seed k).length := by
    intro k
    induction k with
    | zero => simp [upToLevel_zero]
    | succ k ih =>
      have hpos := List.length_pos_iff.mpr fun hempty => hnone ⟨k, hempty⟩
      rw [upToLevel_succ, List.length_append]
      omega
  have hbound := (upToLevel_isPrefix (k := found.length) fixed).length_le
  have := hgrows found.length
  omega

theorem upToLevel_of_le (empty : w.level root seed (n + 1) = []) (h : n ≤ k) :
    w.upToLevel root seed k = w.upToLevel root seed n := by
  induction k, h using Nat.le_induction with
  | base => rfl
  | succ k h ih => rw [upToLevel_succ, ih, level_of_le empty h, List.append_nil]

theorem mem_upToLevel_of_chain (empty : w.level root seed (n + 1) = [])
    (chain : w.Chain root k seed q) : q ∈ w.upToLevel root seed n := by
  rw [← upToLevel_of_le empty (le_max_left n k)]
  exact mem_upToLevel_iff.mpr ⟨k, le_max_right n k, chain⟩

include fixed in
/-- If chains lead to all that was met, it is the levels one after the other. -/
theorem eq_upToLevel (nodup : found.Nodup) (chains : ∀ q ∈ found, ∃ k, w.Chain root k seed q)
    (empty : w.level root seed (n + 1) = []) : found = w.upToLevel root seed n := by
  obtain ⟨rest, hrest⟩ := upToLevel_isPrefix (k := n) fixed
  have hnone : rest = [] := by
    rw [List.eq_nil_iff_forall_not_mem]
    intro q hq
    obtain ⟨k, chain⟩ := chains q (by simp [← hrest, hq])
    rw [← hrest, List.nodup_append] at nodup
    exact nodup.2.2 q (mem_upToLevel_of_chain empty chain) q hq rfl
  rw [← hrest, hnone, List.append_nil]

end Fixpoint

end Workbench

namespace Crew

open Workbench

variable {ρ : Type} {crew : Crew ρ} {s t : State ρ} {seed p : Path} {report : ρ}
  {index : NameIndex} {actions : List Action} {action : Action}

/-- Expansions have been taken up in the order they were started: that of the seed first, and that of
each path in the order of discovery. -/
def InTurn (seed : Path) (actions : List Action) (s : State ρ) : Prop :=
  expanded actions <+: seed :: s.walk.found

theorem InTurn.of_step (turn : InTurn seed (actions ++ [action]) t)
    (haccounts : Accounts index seed actions s) (step : Step crew s action t) :
    InTurn seed actions s := by
  have hprefix : expanded actions <+: seed :: t.walk.found :=
    (expanded_append actions [action] ▸ List.prefix_append _ _).trans turn
  cases step with
  | take => exact hprefix
  | work => exact hprefix
  | finish => exact hprefix
  | receive => exact hprefix
  | @meet p rest busy =>
    obtain ⟨new, -, hfound, -⟩ := Walk.exists_foldl_meet crew.reporter crew.root s.walk [p]
    have hlength := haccounts.started.length_eq
    rw [List.length_append] at hlength
    apply List.prefix_of_prefix_length_le hprefix _ (by omega)
    simp only [List.foldl_cons, List.foldl_nil] at hfound
    simp [hfound]

/-- What is known of a search by one worker who takes expansions up in turn: results come in that order
too, and what was met are the first occurrences among them. -/
structure Orderly (crew : Crew ρ) (seed : Path) (actions : List Action) (s : State ρ) : Prop where
  alone : s.running.length ≤ 1
  waiting : expanded actions ++ s.walk.queue = seed :: s.walk.found
  taken : received actions ++ s.mail.map Prod.fst ++ s.running.map Prod.fst = expanded actions
  met : ∃ met, (received actions).flatMap (crew.bench.edges crew.root) = met ++ s.batch ∧
    seed :: s.walk.found = (seed :: met).eraseDups

namespace Orderly

theorem start (crew : Crew ρ) (seed : Path) (report : ρ) (session : Session) :
    Orderly crew seed [] (crew.start seed report session) where
  alone := by simp [Crew.start]
  waiting := by simp [Crew.start, Walk.start, expanded]
  taken := by simp [Crew.start, expanded, received]
  met := ⟨[], by simp [Crew.start, Walk.start, received, List.eraseDups_cons]⟩

section Steps

variable (h : Orderly crew seed actions s)
include h

theorem take {job : Job (List Path)} (free : s.running = [])
    (turn : expanded actions ++ [p] <+: seed :: s.walk.found) :
    Orderly crew seed (actions ++ [.take p])
      { s with
        walk := { s.walk with queue := s.walk.queue.erase p }
        running := (p, job) :: s.running } := by
  have hexpanded : expanded (actions ++ [.take p]) = expanded actions ++ [p] :=
    expanded_append _ _
  have hreceived : received (actions ++ [.take p]) = received actions := by simp [received]
  rw [← h.waiting, List.prefix_append_right_inj] at turn
  obtain ⟨queue, hqueue⟩ := turn
  refine ⟨by simp [free], ?_, ?_, ?_⟩
  · rw [← h.waiting, hexpanded]
    simp [← hqueue]
  · rw [hexpanded, hreceived, ← h.taken]
    simp [free]
  · rw [hreceived]
    exact h.met

theorem work {change : Session → Session} {next : Session → Job (List Path)}
    {front back : List (Path × Job (List Path))}
    (busy : s.running = front ++ (p, .access change next) :: back) :
    Orderly crew seed (actions ++ [.work p])
      { s with
        running := front ++ (p, next s.session) :: back
        session := change s.session } where
  alone := by simpa [busy] using h.alone
  waiting := by simpa [expanded] using h.waiting
  taken := by simpa [busy, expanded, received] using h.taken
  met := by simpa [received] using h.met

theorem finish {answer : Except Breakdown (List Path)} {result : List Path} {session : Session}
    {front back : List (Path × Job (List Path))}
    (busy : s.running = front ++ (p, .done answer) :: back) :
    Orderly crew seed (actions ++ [.finish p])
      { s with
        running := front ++ back
        mail := s.mail ++ [(p, result)]
        session } := by
  have halone := h.alone
  rw [busy, List.length_append, List.length_cons] at halone
  obtain rfl : front = [] := List.length_eq_zero_iff.mp (by omega)
  obtain rfl : back = [] := List.length_eq_zero_iff.mp (by omega)
  refine ⟨by simp, ?_, ?_, ?_⟩
  · simpa [expanded] using h.waiting
  · simpa [busy, expanded, received] using h.taken
  · simpa [received] using h.met

theorem receive {result : List Path} {rest : List (Path × List Path)} {pending : ℕ}
    (idle : s.batch = []) (arrived : s.mail = (p, result) :: rest)
    (hresult : result = crew.bench.edges crew.root p) :
    Orderly crew seed (actions ++ [.receive p])
      { s with
        walk := { s.walk with pending }
        batch := result
        mail := rest } := by
  have hreceived : received (actions ++ [.receive p]) = received actions ++ [p] :=
    received_append _ _
  obtain ⟨met, hmet, hfound⟩ := h.met
  refine ⟨h.alone, ?_, ?_, met, ?_, hfound⟩
  · simpa [expanded] using h.waiting
  · simpa [arrived, hreceived, expanded] using h.taken
  · rw [idle, List.append_nil] at hmet
    simp [hreceived, hmet, hresult]

theorem meet (accepts : crew.reporter.Accepts report)
    (spelling : Path.OneSpelling (crew.bench.inPlay crew.root seed))
    (hprogress : Progress crew seed report s)
    (haccounts : Accounts (.ofPaths (crew.bench.inspector.listFiles crew.root)) seed actions s)
    {rest : List Path} (busy : s.batch = p :: rest) :
    Orderly crew seed (actions ++ [.meet p])
      { s with
        walk := s.walk.meet crew.reporter crew.root p
        batch := rest } := by
  have hexpanded : expanded (actions ++ [.meet p]) = expanded actions := by simp [expanded]
  have hreceived : received (actions ++ [.meet p]) = received actions := by simp [received]
  obtain ⟨met, hmet, hfound⟩ := h.met
  rw [busy, ← List.singleton_append, ← List.append_assoc] at hmet
  have hplay : p ∈ crew.bench.inPlay crew.root seed := by
    apply List.mem_cons_of_mem
    exact (NameIndex.paths_ofPaths_perm _).subset (haccounts.batch (by simp [busy]))
  have hmem : p ∈ seed :: met ↔ p ∈ seed :: s.walk.found := by rw [hfound, List.mem_eraseDups]
  obtain ⟨hold, hmeet⟩ | ⟨-, hnew, ⟨reason, hrefuse, -⟩ | ⟨-, hmeet⟩⟩ :=
    Walk.meet_cases crew.reporter crew.root s.walk p
  · have hseen : p.components ∈ s.walk.seen := hold.resolve_left (by simp [hprogress.failure])
    obtain ⟨q, hq, hsame⟩ := hprogress.seen _ hseen
    obtain rfl := spelling q (haccounts.inPlay hq) p hplay hsame
    simp only [hmeet]
    refine ⟨h.alone, by rw [hexpanded]; exact h.waiting, by rw [hexpanded, hreceived]; exact h.taken,
      met ++ [q], by rw [hreceived]; exact hmet, ?_⟩
    rw [hfound, ← List.cons_append, eraseDups_concat, if_pos (hmem.mpr hq)]
  · rw [hprogress.report, accepts] at hrefuse
    cases hrefuse
  · have hfresh : p ∉ seed :: s.walk.found := fun hp => hnew (haccounts.seen p hp)
    simp only [hmeet]
    refine ⟨h.alone, ?_, by rw [hexpanded, hreceived]; exact h.taken,
      met ++ [p], by rw [hreceived]; exact hmet, ?_⟩
    · rw [hexpanded, ← List.append_assoc, h.waiting, List.cons_append]
    · rw [← List.cons_append, ← List.cons_append, eraseDups_concat,
        if_neg fun hp => hfresh (hmem.mp hp), hfound]

end Steps

theorem step (single : crew.workers ≤ 1) (accepts : crew.reporter.Accepts report)
    (spelling : Path.OneSpelling (crew.bench.inPlay crew.root seed))
    (hprogress : Progress crew seed report s)
    (haccounts : Accounts (.ofPaths (crew.bench.inspector.listFiles crew.root)) seed actions s)
    (h : Orderly crew seed actions s) (step : Step crew s action t)
    (turn : InTurn seed (actions ++ [action]) t) : Orderly crew seed (actions ++ [action]) t := by
  cases step with
  | @take p tools free waiting variant =>
    have hnone : s.running = [] := List.length_eq_zero_iff.mp (by omega)
    rw [InTurn, expanded_append] at turn
    exact h.take hnone turn
  | work busy => exact h.work busy
  | finish busy => exact h.finish busy
  | @receive p result rest idle _ arrived =>
    exact h.receive idle arrived (hprogress.sound.mail (p, result) (by simp [arrived]))
  | meet busy => exact h.meet accepts spelling hprogress haccounts busy

theorem fixed (h : Orderly crew seed actions s) (haccounts : Accounts index seed actions s)
    (finished : s.Finished) :
    seed :: s.walk.found =
      (seed :: (seed :: s.walk.found).flatMap (crew.bench.edges crew.root)).eraseDups := by
  have hnone := haccounts.outstanding_of_finished finished
  simp only [State.outstanding, List.append_eq_nil_iff, List.map_eq_nil_iff] at hnone
  obtain ⟨⟨hqueue, hrunning⟩, hmail⟩ := hnone
  have hreceived : received actions = seed :: s.walk.found := by
    rw [← h.waiting, ← h.taken]
    simp [hqueue, hrunning, hmail]
  obtain ⟨met, hmet, hfound⟩ := h.met
  rw [hreceived, finished.1, List.append_nil] at hmet
  rw [hmet, ← hfound]

end Orderly

section Search

variable {w : Workbench} {reporter : Reporter ρ} {root : Path} {session : Session} {workers n : ℕ}
  (spelling : Path.OneSpelling (w.inPlay root seed))
  (faithful : session.Faithful w root (w.inPlay root seed)) (accepts : reporter.Accepts report)
  (single : workers ≤ 1)
include spelling faithful accepts single

theorem Run.orderly (run : Run (steady workers w reporter root)
      ((steady workers w reporter root).start seed report session) actions s)
    (turn : InTurn seed actions s) : Orderly (steady workers w reporter root) seed actions s := by
  induction run with
  | nil => exact .start _ seed report session
  | snoc prior step ih =>
    obtain ⟨hprogress, haccounts⟩ := prior.progress spelling faithful accepts
    exact (ih (turn.of_step haccounts step)).step single accepts spelling hprogress haccounts step
      turn

theorem Run.fixed (run : Run (steady workers w reporter root)
      ((steady workers w reporter root).start seed report session) actions s)
    (turn : InTurn seed actions s) (finished : s.Finished) :
    seed :: s.walk.found =
      (seed :: (seed :: s.walk.found).flatMap (w.edges root)).eraseDups :=
  (run.orderly spelling faithful accepts single turn).fixed run.accounts finished

theorem Run.found_eq (run : Run (steady workers w reporter root)
      ((steady workers w reporter root).start seed report session) actions s)
    (turn : InTurn seed actions s) (finished : s.Finished)
    (empty : w.level root seed (n + 1) = []) :
    s.walk.outcome seed =
      .ok ⟨seed, (List.range n).flatMap fun k => w.level root seed (k + 1)⟩ := by
  obtain ⟨hprogress, haccounts⟩ := run.progress spelling faithful accepts
  have hchains : ∀ q ∈ seed :: s.walk.found, ∃ k, w.Chain root k seed q := by
    intro q hq
    rcases List.mem_cons.mp hq with rfl | hq
    · exact ⟨0, .here q⟩
    · exact exists_chain (hprogress.needed q (by simp [hq]))
  have heq := eq_upToLevel (run.fixed spelling faithful accepts single turn finished)
    haccounts.nodup.of_map hchains empty
  rw [upToLevel_eq, List.range_succ_eq_map, List.flatMap_cons, level_zero, List.singleton_append,
    List.flatMap_map] at heq
  rw [Walk.outcome, hprogress.failure, (List.cons.inj heq).2]

end Search

/-- One worker who takes expansions up in the order they were started finds the levels around the seed,
one after the other; so does the search by itself. The paths of level `k` are those that the seed leads
to by a chain of `k` edges and by no shorter one, so along the paths found these lengths never
decrease. -/
theorem search_breadth_first (w : Workbench) (reporter : Reporter ρ) (root seed : Path) (report : ρ)
    (session : Session) (spelling : Path.OneSpelling (w.inPlay root seed))
    (faithful : session.Faithful w root (w.inPlay root seed)) (accepts : reporter.Accepts report) :
    (w.level root seed 0 = [seed] ∧
      ∀ k, w.level root seed (k + 1) =
        (((w.level root seed k).flatMap (w.edges root)).removeAll
          ((List.range (k + 1)).flatMap (w.level root seed))).eraseDups) ∧
    (∀ k q, q ∈ w.level root seed k ↔ IsLeast {j | w.Chain root j seed q} k) ∧
    ∃ n paths, (∀ k, n ≤ k → w.level root seed (k + 1) = []) ∧
      paths = (List.range n).flatMap (fun k => w.level root seed (k + 1)) ∧
      (w.closure reporter root seed report session).1 = .ok ⟨seed, paths⟩ ∧
      (∀ workers ≤ 1, ∀ actions s, Run (steady workers w reporter root)
          ((steady workers w reporter root).start seed report session) actions s →
        InTurn seed actions s → s.Finished → s.walk.outcome seed = .ok ⟨seed, paths⟩) ∧
      paths.Pairwise fun p q => ∀ i j, IsLeast {k | w.Chain root k seed p} i →
        IsLeast {k | w.Chain root k seed q} j → i ≤ j := by
  obtain ⟨actions, last, run, finished, turn, hclosure⟩ :=
    closure_run_inTurn (steady 1 w reporter root) seed report session
  have hturn : InTurn seed actions last := by rw [InTurn, turn]
  obtain ⟨n, empty⟩ :=
    exists_empty_level (run.fixed spelling faithful accepts le_rfl hturn finished)
  refine ⟨⟨level_zero, fun k => level_succ⟩, fun k q => mem_level_iff, n, _,
    fun k hk => level_of_le empty hk, rfl, ?_, ?_, ?_⟩
  · change w.closure reporter root seed report session = _ at hclosure
    rw [hclosure]
    exact run.found_eq spelling faithful accepts le_rfl hturn finished empty
  · intro workers single actions s run turn finished
    exact run.found_eq spelling faithful accepts single turn finished empty
  · exact pairwise_levels n

section Diamond

def diamondTop : Path := .ofString "/a.so"

def diamondLeft : Path := .ofString "/b.so"

def diamondRight : Path := .ofString "/c.so"

def diamondBottom : Path := .ofString "/d.so"

def diamond : Workbench :=
  { settings := { ignoredLibraries := [], nonBinaryExtensions := [] }
    strategy := .content
    inspector :=
      { listFiles := fun _ => [diamondBottom, diamondRight, diamondLeft, diamondTop]
        describe := fun _ => .ok "ELF 64-bit"
        texts := fun p => .ok <|
          if p = diamondTop then ["c.so", "b.so"]
          else if p = diamondBottom then ["a.so"]
          else ["d.so"] } }

def diamondSession : Session :=
  { index := some ⟨[("a.so", [diamondTop]), ("b.so", [diamondLeft]), ("c.so", [diamondRight]),
      ("d.so", [diamondBottom])]⟩ }

theorem faithful_diamondSession : diamondSession.Faithful diamond (.ofString "/")
    (diamond.inPlay (.ofString "/") diamondTop) := by
  exact .indexed diamond (.ofString "/") _ (by cbv)

/-- The two in the middle are found in the order the first names them, and the last one after them: two
edges lead to it, and no fewer. -/
theorem search_breadth_first_diamond :
    Path.OneSpelling (diamond.inPlay (.ofString "/") diamondTop) ∧
    diamondSession.Faithful diamond (.ofString "/") (diamond.inPlay (.ofString "/") diamondTop) ∧
    Collection.reporter.Accepts {} ∧
    (∃ n, (List.range n).flatMap (fun k => diamond.level (.ofString "/") diamondTop (k + 1)) =
      [diamondRight, diamondLeft, diamondBottom]) ∧
    IsLeast {k | diamond.Chain (.ofString "/") k diamondTop diamondBottom} 2 := by
  have hspelling : Path.OneSpelling (diamond.inPlay (.ofString "/") diamondTop) := by decide
  have haccepts : Collection.reporter.Accepts {} := Collection.accepts rfl
  have hedges : ∀ p ∈ diamond.inPlay (.ofString "/") diamondTop, diamond.edges (.ofString "/") p =
      (diamond.expandOrLeaf (.ofString "/") p diamondSession).1 := fun p hp =>
    (expandOrLeaf_edges hspelling (List.subset_cons_self _ _) hp faithful_diamondSession).symm
  have htop : diamond.edges (.ofString "/") diamondTop = [diamondRight, diamondLeft] := by
    rw [hedges _ (by decide)]
    decide +kernel
  have hright : diamond.edges (.ofString "/") diamondRight = [diamondBottom] := by
    rw [hedges _ (by decide)]
    decide +kernel
  have hleft : diamond.edges (.ofString "/") diamondLeft = [diamondBottom] := by
    rw [hedges _ (by decide)]
    decide +kernel
  obtain ⟨⟨hzero, hsucc⟩, hleast, n, paths, -, hpaths, hclosure, -⟩ :=
    search_breadth_first diamond Collection.reporter (.ofString "/") diamondTop {} diamondSession
      hspelling faithful_diamondSession haccepts
  have hvalue : (diamond.closure Collection.reporter (.ofString "/") diamondTop {}
      diamondSession).1 = .ok ⟨diamondTop, [diamondRight, diamondLeft, diamondBottom]⟩ := by
    decide +kernel
  have hfound := Except.ok.inj (hvalue.symm.trans hclosure)
  have hone : diamond.level (.ofString "/") diamondTop 1 = [diamondRight, diamondLeft] := by
    rw [hsucc]
    simp only [List.flatMap_cons, List.flatMap_nil, hzero, htop]
    decide
  have htwo : diamond.level (.ofString "/") diamondTop 2 = [diamondBottom] := by
    rw [hsucc, hone, List.range_succ, List.range_one]
    simp only [List.flatMap_append, List.flatMap_cons, List.flatMap_nil, hzero, hone, hright, hleft]
    decide
  refine ⟨hspelling, faithful_diamondSession, haccepts, ⟨n, ?_⟩, (hleast 2 _).mp (by simp [htwo])⟩
  rw [← hpaths]
  exact (congrArg Closure.paths hfound).symm

end Diamond

end Crew

end BlobCensus
