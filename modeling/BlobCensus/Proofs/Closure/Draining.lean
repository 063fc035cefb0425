import BlobCensus.Proofs.Closure.Accounts

/-!
# Draining

The search that receives expansions in the order they were started is a run of every crew with its
tools, so what holds of all runs holds of it. All runs drain: they end with nothing outstanding, after
no more work than there are indexed paths.
-/
namespace BlobCensus.Crew

variable {ρ : Type} {crew : Crew ρ} {first s : State ρ}

section Alone

/-- The state between two rounds of a search with nobody at work. -/
def idle (walk : Walk ρ) (session : Session) : State ρ :=
  { walk, batch := [], running := [], mail := [], session }

theorem run_job (crew : Crew ρ) (s : State ρ) (p : Path) (job : Job (List Path))
    (hs : s.running = [(p, job)]) :
    ∃ actions, expanded actions = [] ∧ received actions = [] ∧ Run crew s actions
      { s with
        running := [(p, .done (job.runIn s.session).1)]
        session := (job.runIn s.session).2 } := by
  induction job generalizing s with
  | done answer =>
    refine ⟨[], rfl, rfl, ?_⟩
    simp only [Job.runIn, ← hs]
    exact .nil
  | access change next ih =>
    have hstep : Step crew s (.work p)
        { s with running := [(p, next s.session)], session := change s.session } :=
      @Step.work ρ crew s p change next [] [] hs
    obtain ⟨actions, hexpanded, hreceived, run⟩ := ih s.session
      { s with running := [(p, next s.session)], session := change s.session } rfl
    refine ⟨[.work p] ++ actions, ?_, ?_, (Run.one hstep).trans run⟩
    · rw [expanded_append, hexpanded]
      rfl
    · rw [received_append, hreceived]
      rfl

theorem run_batch (crew : Crew ρ) (s : State ρ) :
    ∃ actions, expanded actions = [] ∧ received actions = [] ∧ Run crew s actions
      { s with
        walk := s.batch.foldl (Walk.meet crew.reporter crew.root) s.walk
        batch := [] } := by
  obtain ⟨batch, hbatch⟩ : ∃ batch, batch = s.batch := ⟨_, rfl⟩
  induction batch generalizing s with
  | nil =>
    refine ⟨[], rfl, rfl, ?_⟩
    rw [← hbatch, List.foldl_nil, hbatch]
    exact .nil
  | cons p rest ih =>
    have hstep : Step crew s (.meet p)
        { s with walk := s.walk.meet crew.reporter crew.root p, batch := rest } :=
      .meet hbatch.symm
    obtain ⟨actions, hexpanded, hreceived, run⟩ := ih
      { s with walk := s.walk.meet crew.reporter crew.root p, batch := rest } rfl
    refine ⟨[.meet p] ++ actions, ?_, ?_, ?_⟩
    · rw [expanded_append, hexpanded]
      rfl
    · rw [received_append, hreceived]
      rfl
    · rw [← hbatch]
      exact (Run.one hstep).trans run

/-- One round of the search with nobody else at work. -/
theorem run_round (crew : Crew ρ) {walk : Walk ρ} (session : Session) {p : Path}
    {queue : List Path} (hqueue : walk.queue = p :: queue) (hpending : walk.pending ≠ 0) :
    ∃ actions, expanded actions = [p] ∧ received actions = [p] ∧
      Run crew (idle walk session) actions
      (idle (Walk.receive crew.reporter crew.root { walk with queue }
          (crew.bench.expandOrLeaf crew.root p session).1)
        (crew.bench.expandOrLeaf crew.root p session).2) := by
  have htake : Step crew (idle walk session) (.take p)
      { idle { walk with queue } session with
        running := [(p, crew.bench.expand crew.root p)] } := by
    have hstep : Step crew (idle walk session) (.take p) _ :=
      .take (by simp [idle]) (by simp [idle, hqueue]) (Set.mem_insert _ _)
    simpa [idle, hqueue] using hstep
  obtain ⟨works, htaken, hworks, work⟩ := run_job crew
    { idle { walk with queue } session with running := [(p, crew.bench.expand crew.root p)] }
    p _ rfl
  obtain ⟨answer, after, hrun⟩ : ∃ answer after,
      (crew.bench.expand crew.root p).runIn session = (answer, after) := ⟨_, _, rfl⟩
  have hexpand : crew.bench.expandOrLeaf crew.root p session = Workbench.resultOf p answer after := by
    simp only [Workbench.expandOrLeaf, hrun]
  simp only [idle, hrun] at work
  have hfinish : Step crew
      { idle { walk with queue } after with running := [(p, .done answer)] } (.finish p)
      { idle { walk with queue } (Workbench.resultOf p answer after).2 with
        mail := [(p, (Workbench.resultOf p answer after).1)] } :=
    @Step.finish ρ crew _ p answer [] [] rfl
  have hreceive : Step crew
      { idle { walk with queue } (Workbench.resultOf p answer after).2 with
        mail := [(p, (Workbench.resultOf p answer after).1)] } (.receive p)
      { idle { walk with queue, pending := walk.pending - 1 }
          (Workbench.resultOf p answer after).2 with
        batch := (Workbench.resultOf p answer after).1 } :=
    .receive rfl hpending rfl
  obtain ⟨meets, hstill, hmeets, meet⟩ := run_batch crew
    { idle { walk with queue, pending := walk.pending - 1 } (Workbench.resultOf p answer after).2 with
      batch := (Workbench.resultOf p answer after).1 }
  rw [hexpand]
  refine ⟨[.take p] ++ works ++ [.finish p] ++ [.receive p] ++ meets, ?_, ?_, ?_⟩
  · simp only [expanded_append, htaken, hstill]
    rfl
  · simp only [received_append, hworks, hmeets]
    rfl
  · exact ((((Run.one htake).trans work).snoc hfinish).snoc hreceive).trans meet

/-- Either the search is finished, or it has received as many expansions as there was fuel. Expansions
are taken up in the order they were started. -/
theorem run_drain (crew : Crew ρ) (seed : Path) (fuel : ℕ) {walk : Walk ρ} {session : Session}
    {actions : List Action} (run : Run crew first actions (idle walk session))
    (turns : expanded actions ++ walk.queue = seed :: walk.found) :
    ∃ more last after, crew.bench.drain crew.reporter crew.root fuel walk session = (last, after) ∧
      Run crew first (actions ++ more) (idle last after) ∧
      expanded (actions ++ more) ++ last.queue = seed :: last.found ∧
      (last.pending = 0 ∨ last.queue = [] ∨ (received more).length = fuel) := by
  induction fuel generalizing walk session actions with
  | zero =>
    exact ⟨[], walk, session, rfl, by simpa using run, by simpa using turns, .inr (.inr rfl)⟩
  | succ fuel ih =>
    unfold Workbench.drain
    by_cases hpending : walk.pending = 0
    · exact ⟨[], walk, session, by rw [if_pos hpending], by simpa using run, by simpa using turns,
        .inl hpending⟩
    · rw [if_neg hpending]
      cases hqueue : walk.queue with
      | nil =>
        exact ⟨[], walk, session, rfl, by simpa using run, by simpa [hqueue] using turns,
          .inr (.inl hqueue)⟩
      | cons p queue =>
        obtain ⟨round, hexpanded, hround, rounds⟩ := run_round crew session hqueue hpending
        obtain ⟨new, -, hfound, hnew⟩ := Walk.exists_receive crew.reporter crew.root
          { walk with queue } (crew.bench.expandOrLeaf crew.root p session).1
        have hturns : expanded (actions ++ round) ++ (queue ++ new) =
            seed :: (walk.found ++ new) := by
          rw [expanded_append, hexpanded, ← List.cons_append, ← turns, hqueue]
          simp
        obtain ⟨more, last, after, heq, hrun, hlast, hend⟩ :=
          ih (run.trans rounds) (by rw [hfound, hnew]; exact hturns)
        rw [List.append_assoc] at hrun hlast
        refine ⟨round ++ more, last, after, heq, hrun, hlast, ?_⟩
        refine hend.imp_right (Or.imp_right fun hfuel => ?_)
        rw [received_append, hround, List.length_append, List.length_singleton]
        omega

/-- The search by itself is a run of the crew that finishes and takes expansions up in the order they
were started. -/
theorem run_search (crew : Crew ρ) (seed : Path) (report : ρ) (session : Session) :
    ∃ actions last after,
      crew.bench.drain crew.reporter crew.root ((crew.bench.prepare crew.root session).1.size + 1)
        (Walk.start seed report) (crew.bench.prepare crew.root session).2 = (last, after) ∧
      Run crew (crew.start seed report session) actions (idle last after) ∧
      (idle last after).Finished ∧ expanded actions = seed :: last.found := by
  obtain ⟨index, hindex⟩ : ∃ index, index = (crew.bench.prepare crew.root session).1 := ⟨_, rfl⟩
  obtain ⟨actions, last, after, hdrain, run, hturns, hend⟩ :=
    run_drain crew seed (index.size + 1) (.nil : Run crew (crew.start seed report session) [] _) rfl
  rw [List.nil_append] at run hturns
  have houtstanding : (idle last after).outstanding = last.queue := by
    simp [State.outstanding, idle]
  have hpending : last.pending = last.queue.length := houtstanding ▸ run.accounts.pending
  have hfinished : last.pending = 0 := by
    have hstarted := run.accounts.started_length_le
    have hdistinct := (List.dedup_sublist (index.paths.map Path.components)).length_le
    rw [List.length_map, ← NameIndex.size] at hdistinct
    rw [houtstanding, ← hindex] at hstarted
    rcases hend with hend | hend | hend
    · exact hend
    · simpa [hend] using hpending
    · omega
  have hqueue : last.queue = [] := List.length_eq_zero_iff.mp (hpending.symm.trans hfinished)
  rw [hqueue, List.append_nil] at hturns
  rw [← hindex]
  exact ⟨actions, last, after, hdrain, run, ⟨rfl, hfinished⟩, hturns⟩

theorem closure_run_inTurn (crew : Crew ρ) (seed : Path) (report : ρ) (session : Session) :
    ∃ actions last, Run crew (crew.start seed report session) actions last ∧ last.Finished ∧
      expanded actions = seed :: last.walk.found ∧
      crew.bench.closure crew.reporter crew.root seed report session =
        (last.walk.outcome seed, last.walk.report, last.session) := by
  obtain ⟨actions, last, after, hdrain, run, finished, hturns⟩ :=
    run_search crew seed report session
  refine ⟨actions, idle last after, run, finished, hturns, ?_⟩
  simp only [Workbench.closure, idle, hdrain]

theorem closure_run (crew : Crew ρ) (seed : Path) (report : ρ) (session : Session) :
    ∃ actions last, Run crew (crew.start seed report session) actions last ∧ last.Finished ∧
      crew.bench.closure crew.reporter crew.root seed report session =
        (last.walk.outcome seed, last.walk.report, last.session) := by
  obtain ⟨actions, last, run, finished, -, hclosure⟩ :=
    closure_run_inTurn crew seed report session
  exact ⟨actions, last, run, finished, hclosure⟩

end Alone

/-- A search by a crew drains and ends, whatever the tools answer and whether or not the report fails;
the search by itself is one of its runs. All along `pending` counts the expansions started, one for
the seed and one for each path found, whose result has not been received. No path is expanded twice,
there are no more results than indexed paths and one for the seed, and nobody waits for what is not
outstanding. If the search succeeds, the seed and the paths of the closure have been expanded, once
each. -/
theorem search_drains (crew : Crew ρ) (seed : Path) (report : ρ) (session : Session) :
    Ends crew (fun s => s.outstanding = []) (crew.start seed report session) ∧
    (∃ actions last, Run crew (crew.start seed report session) actions last ∧ last.Finished ∧
      crew.bench.closure crew.reporter crew.root seed report session =
        (last.walk.outcome seed, last.walk.report, last.session)) ∧
    ∀ actions s, Run crew (crew.start seed report session) actions s →
      (seed :: s.walk.found).Perm (received actions ++ s.outstanding) ∧
      s.walk.pending = s.outstanding.length ∧
      ((expanded actions).map Path.components).Nodup ∧
      (received actions).length ≤
        1 + ((crew.bench.prepare crew.root session).1.paths.map Path.components).dedup.length ∧
      (s.batch = [] → s.walk.pending ≠ 0 → s.outstanding ≠ []) ∧
      (s.Finished ↔ ∀ action t, ¬ Step crew s action t) ∧
      (s.Finished → ∀ closure, s.walk.outcome seed = .ok closure →
        (expanded actions).Perm (seed :: closure.paths)) := by
  refine ⟨ends fun actions s run finished => run.accounts.outstanding_of_finished finished,
    closure_run crew seed report session, ?_⟩
  intro actions s run
  have haccounts := run.accounts
  refine ⟨haccounts.balance, haccounts.pending, haccounts.expanded_nodup, ?_, ?_,
    haccounts.finished_iff, ?_⟩
  · have hle := haccounts.started_length_le
    omega
  · intro _ hwaits hnone
    rw [haccounts.pending, hnone] at hwaits
    exact hwaits rfl
  · intro finished closure hclosure
    have hqueue : s.walk.queue = [] := by
      have hnone := haccounts.outstanding_of_finished finished
      simp only [State.outstanding, List.append_eq_nil_iff] at hnone
      exact hnone.1.1
    have hstarted := haccounts.started
    rw [hqueue, List.append_nil] at hstarted
    rw [Walk.found_of_outcome hclosure]
    exact hstarted.symm

section Cycle

def cycleSeed : Path := .ofString "/a.so"

def cycleNext : Path := .ofString "/b.so"

def cycleBench : Workbench :=
  { settings := { ignoredLibraries := [], nonBinaryExtensions := [] }
    strategy := .content
    inspector :=
      { listFiles := fun _ => [cycleSeed, cycleNext]
        describe := fun _ => .ok "ELF 64-bit"
        texts := fun p => .ok [if p = cycleSeed then "%s.so" else "a.so"] } }

def cycleSession : Session :=
  { index := some ⟨[("a.so", [cycleSeed]), ("b.so", [cycleNext])]⟩ }

def cycleCrew : Crew Collection :=
  { workers := 3
    bench := cycleBench
    variants := { { cycleBench.inspector with texts := fun _ => .error ⟨⟩ } }
    reporter := Collection.reporter
    root := .ofString "/" }

/-- Each of the two files is expanded once. -/
theorem search_drains_cycle :
    ∃ actions s, Run cycleCrew (cycleCrew.start cycleSeed {} cycleSession) actions s ∧ s.Finished ∧
      (expanded actions).Perm [cycleSeed, cycleNext] := by
  obtain ⟨-, ⟨actions, last, run, finished, hclosure⟩, hall⟩ :=
    search_drains cycleCrew cycleSeed {} cycleSession
  have houtcome : last.walk.outcome cycleSeed = .ok ⟨cycleSeed, [cycleNext]⟩ := by
    have hvalue : (cycleBench.closure Collection.reporter (.ofString "/") cycleSeed {} cycleSession).1 =
        .ok ⟨cycleSeed, [cycleNext]⟩ := by decide +kernel
    exact (congrArg Prod.fst hclosure).symm.trans hvalue
  obtain ⟨-, -, -, -, -, -, hexpanded⟩ := hall actions last run
  exact ⟨actions, last, run, finished, hexpanded finished _ houtcome⟩

end Cycle

end BlobCensus.Crew
