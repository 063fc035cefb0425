import BlobCensus.Proofs.Closure.Reachability

/-!
# Searches told to another reporter

A reporter enters a search only through its answers. As long as two reporters give the same answers,
the crew makes the same moves with either of them; so a search that has not been refused anything is
a search with a reporter that takes everything. After a refusal nothing is reported or started.
-/
namespace BlobCensus

variable {ρ σ : Type}

namespace Walk

def withReport (w : Walk ρ) (report : σ) : Walk σ :=
  { seen := w.seen
    found := w.found
    queue := w.queue
    pending := w.pending
    failure := w.failure
    report }

/-- Either nothing is reported, or both reporters are offered the same record. Unless the walk goes on
without a failure, the record may also be refused, by both for the same reason. -/
theorem meet_withReport (reporter : Reporter ρ) (other : Reporter σ) (root : Path) (w : Walk ρ)
    (p : Path) (report : σ)
    (same : ∀ record, ((w.meet reporter root p).failure = none →
        (reporter.emit record w.report).1 = .ok ()) →
      (other.emit record report).1 = (reporter.emit record w.report).1) :
    ((w.withReport report).meet other root p = (w.meet reporter root p).withReport report ∧
      (w.meet reporter root p).report = w.report) ∨
    ∃ record,
      (w.withReport report).meet other root p =
        (w.meet reporter root p).withReport (other.emit record report).2 ∧
      (w.meet reporter root p).report = (reporter.emit record w.report).2 := by
  obtain ⟨hold, hmeet⟩ | ⟨hnone, hnew, hemit⟩ := meet_cases reporter root w p
  · left
    obtain ⟨-, hmeet'⟩ | ⟨hnone', hnew', -⟩ := meet_cases other root (w.withReport report) p
    · rw [hmeet, hmeet']
      exact ⟨rfl, rfl⟩
    · have hfail : w.failure = none := hnone'
      exact absurd (hold.resolve_left (by simp [hfail])) hnew'
  · right
    refine ⟨.path (Path.relativeTo root p), ?_⟩
    obtain ⟨hold', -⟩ | ⟨-, -, hemit'⟩ := meet_cases other root (w.withReport report) p
    · have hfail : (w.withReport report).failure = none := hnone
      exact absurd (hold'.resolve_left (by simp [hfail])) hnew
    · have hsame := same (.path (Path.relativeTo root p))
      obtain ⟨reason, hrefuse, hmeet⟩ | ⟨haccept, hmeet⟩ := hemit
      · have hanswer := hsame fun h => by simp [hmeet] at h
        obtain ⟨reason', hrefuse', hmeet'⟩ | ⟨haccept', -⟩ := hemit'
        · obtain rfl : reason' = reason :=
            Except.error.inj (hrefuse'.symm.trans (hanswer.trans hrefuse))
          rw [hmeet, hmeet']
          exact ⟨rfl, rfl⟩
        · cases haccept'.symm.trans (hanswer.trans hrefuse)
      · have hanswer := hsame fun _ => haccept
        obtain ⟨reason', hrefuse', -⟩ | ⟨-, hmeet'⟩ := hemit'
        · cases hrefuse'.symm.trans (hanswer.trans haccept)
        · rw [hmeet, hmeet']
          exact ⟨rfl, rfl⟩

end Walk

namespace Crew

variable {crew : Crew ρ} {first s t : State ρ} {actions : List Action}
  {action : Action}

def reportingTo (crew : Crew ρ) (other : Reporter σ) : Crew σ :=
  { workers := crew.workers
    bench := crew.bench
    variants := crew.variants
    reporter := other
    root := crew.root }

def State.withReport (s : State ρ) (report : σ) : State σ :=
  { walk := s.walk.withReport report
    batch := s.batch
    running := s.running
    mail := s.mail
    session := s.session }

theorem Step.withReport (h : Step crew s action t) (other : Reporter σ) (report : σ)
    (same : ∀ record, (t.walk.failure = none →
        (crew.reporter.emit record s.walk.report).1 = .ok ()) →
      (other.emit record report).1 = (crew.reporter.emit record s.walk.report).1) :
    (Step (crew.reportingTo other) (s.withReport report) action (t.withReport report) ∧
      t.walk.report = s.walk.report) ∨
    ∃ record,
      Step (crew.reportingTo other) (s.withReport report) action
        (t.withReport (other.emit record report).2) ∧
      t.walk.report = (crew.reporter.emit record s.walk.report).2 := by
  cases h with
  | take free waiting variant => exact .inl ⟨.take (s := s.withReport report) free waiting variant, rfl⟩
  | work busy => exact .inl ⟨.work (s := s.withReport report) busy, rfl⟩
  | finish busy => exact .inl ⟨.finish (s := s.withReport report) busy, rfl⟩
  | receive idle waits arrived =>
    exact .inl ⟨.receive (s := s.withReport report) idle waits arrived, rfl⟩
  | @meet p rest busy =>
    have hstep : Step (crew.reportingTo other) (s.withReport report) (.meet p) _ :=
      .meet (s := s.withReport report) busy
    have hmeet := Walk.meet_withReport crew.reporter other crew.root s.walk p report same
    change Step _ _ _ { s.withReport report with
      walk := (s.walk.withReport report).meet other crew.root p
      batch := rest } at hstep
    obtain ⟨hwalk, hreport⟩ | ⟨record, hwalk, hreport⟩ := hmeet
    · rw [hwalk] at hstep
      exact .inl ⟨hstep, hreport⟩
    · rw [hwalk] at hstep
      exact .inr ⟨record, hstep, hreport⟩

/-- After a refusal the walk only counts down what is outstanding. -/
theorem Step.of_failed (h : Step crew s action t) (failed : s.walk.failure.isSome = true) :
    t.walk.failure = s.walk.failure ∧ t.walk.found = s.walk.found ∧
      t.walk.report = s.walk.report := by
  cases h with
  | take => exact ⟨rfl, rfl, rfl⟩
  | work => exact ⟨rfl, rfl, rfl⟩
  | finish => exact ⟨rfl, rfl, rfl⟩
  | receive => exact ⟨rfl, rfl, rfl⟩
  | @meet p rest busy =>
    obtain ⟨-, hmeet⟩ | ⟨hnone, -⟩ := Walk.meet_cases crew.reporter crew.root s.walk p
    · simp [hmeet]
    · simp [hnone] at failed

theorem Run.of_failed (run : Run crew first actions s) (failed : first.walk.failure.isSome = true) :
    s.walk.failure = first.walk.failure ∧ s.walk.found = first.walk.found ∧
      s.walk.report = first.walk.report := by
  induction run with
  | nil => exact ⟨rfl, rfl, rfl⟩
  | snoc _ step ih =>
    obtain ⟨hfailure, hfound, hreport⟩ := step.of_failed (ih.1 ▸ failed)
    exact ⟨hfailure.trans ih.1, hfound.trans ih.2.1, hreport.trans ih.2.2⟩

theorem Step.failure_eq_none (h : Step crew s action t) (going : t.walk.failure = none) :
    s.walk.failure = none := by
  by_contra hne
  have hcounted := (h.of_failed (Option.isSome_iff_ne_none.mpr hne)).1
  exact hne (hcounted.symm.trans going)

/-- A search that has not been refused anything is one with a reporter that takes everything. -/
theorem Run.withoutRefusal (run : Run crew first actions s) (going : s.walk.failure = none)
    (kept : Collection) (room : kept.room = none) :
    ∃ kept' : Collection, kept'.room = none ∧
      Run (crew.reportingTo Collection.reporter) (first.withReport kept) actions
        (s.withReport kept') := by
  induction run with
  | nil => exact ⟨kept, room, .nil⟩
  | snoc _ step ih =>
    obtain ⟨kept', room', run'⟩ := ih (step.failure_eq_none going)
    have hstep := step.withReport Collection.reporter kept' fun record hok => by
      rw [hok going, Collection.emit_of_room room']
    obtain ⟨step', -⟩ | ⟨record, step', -⟩ := hstep
    · exact ⟨kept', room', run'.snoc step'⟩
    · refine ⟨_, ?_, run'.snoc step'⟩
      rw [Collection.emit_of_room room']
      exact room'

/-- Where a refusal comes from: a path that was met for the first time while nothing had been refused.
Found paths and report are still those of that moment. -/
theorem Run.refusal (run : Run crew first actions s) (going : first.walk.failure = none)
    {reason : Failure} (failed : s.walk.failure = some reason) :
    ∃ before u p rest, Run crew first before u ∧ u.walk.failure = none ∧ u.batch = p :: rest ∧
      p.components ∉ u.walk.seen ∧
      (crew.reporter.emit (.path (Path.relativeTo crew.root p)) u.walk.report).1 = .error reason ∧
      s.walk.found = u.walk.found ∧
      s.walk.report =
        (crew.reporter.emit (.path (Path.relativeTo crew.root p)) u.walk.report).2 := by
  induction run with
  | nil =>
    rw [going] at failed
    cases failed
  | @snoc actions s t action prior step ih =>
    cases hs : s.walk.failure with
    | some reason' =>
      obtain ⟨hfailure, hfound, hreport⟩ := step.of_failed (by simp [hs])
      obtain ⟨before, u, p, rest, hrun, hu, hbatch, hnew, hemit, hfound', hreport'⟩ :=
        ih (hfailure.symm.trans failed)
      exact ⟨before, u, p, rest, hrun, hu, hbatch, hnew, hemit, hfound.trans hfound',
        hreport.trans hreport'⟩
    | none =>
      cases step with
      | take => cases hs.symm.trans failed
      | work => cases hs.symm.trans failed
      | finish => cases hs.symm.trans failed
      | receive => cases hs.symm.trans failed
      | @meet p rest busy =>
        obtain ⟨-, hmeet⟩ | ⟨-, hnew, ⟨reason', hemit, hmeet⟩ | ⟨-, hmeet⟩⟩ :=
          Walk.meet_cases crew.reporter crew.root s.walk p
        · simp [hmeet, hs] at failed
        · simp only [hmeet, Option.some.injEq] at failed
          subst failed
          exact ⟨_, s, p, rest, prior, hs, busy, hnew, hemit, by simp [hmeet], by simp [hmeet]⟩
        · simp [hmeet, hs] at failed

end Crew

end BlobCensus
