import BlobCensus.Proofs.Closure.WithReport

/-!
# Searches that are refused

A log keeps what a reporter was offered and how it answered. It tells how a search comes out: the
search fails with the reason of the first refusal, if there was one, and that refusal is the last
thing in the log. Expansions are started for the seed and the paths taken, and all of them are
received. A reporter that takes a number of records is refused by exactly those searches that have
more to report.
-/
namespace BlobCensus

variable {ρ : Type}

/-- A report, with what was offered to the reporter and what it answered. -/
structure Log (ρ : Type) where
  report : ρ
  calls : List (Record × Except Failure Unit) := []

namespace Log

def accepted (log : Log ρ) : List Record :=
  log.calls.filterMap fun
    | (record, .ok _) => some record
    | (_, .error _) => none

def refusal? (log : Log ρ) : Option Failure :=
  log.calls.findSome? fun
    | (_, .ok _) => none
    | (_, .error reason) => some reason

end Log

namespace Reporter

/-- The reporter that also keeps a log. -/
def logged (reporter : Reporter ρ) : Reporter (Log ρ) where
  emit record log :=
    ((reporter.emit record log.report).1,
      { report := (reporter.emit record log.report).2
        calls := log.calls ++ [(record, (reporter.emit record log.report).1)] })

theorem logged_emit (reporter : Reporter ρ) (record : Record) (log : Log ρ) :
    reporter.logged.emit record log =
      ((reporter.emit record log.report).1,
        { report := (reporter.emit record log.report).2
          calls := log.calls ++ [(record, (reporter.emit record log.report).1)] }) := rfl

/-- From this state on the reporter takes the first `n` records and refuses all others. -/
def Takes (reporter : Reporter ρ) (n : ℕ) (report : ρ) : Prop :=
  ∀ records record,
    (reporter.emit record (reporter.emitAll records report)).1 = .ok () ↔ records.length < n

theorem emitAll_append (reporter : Reporter ρ) (records : List Record) (record : Record)
    (report : ρ) : reporter.emitAll (records ++ [record]) report =
      (reporter.emit record (reporter.emitAll records report)).2 := by
  simp [emitAll]

theorem emitAll_logged (reporter : Reporter ρ) (records : List Record) (report : ρ) :
    (reporter.logged.emitAll records ⟨report, []⟩).report = reporter.emitAll records report ∧
      (reporter.logged.emitAll records ⟨report, []⟩).calls.length = records.length := by
  induction records using List.reverseRecOn with
  | nil => exact ⟨rfl, rfl⟩
  | append_singleton records record ih =>
    rw [emitAll_append, emitAll_append, logged_emit, ← ih.1]
    exact ⟨rfl, by simp [ih.2]⟩

theorem Takes.answer {reporter : Reporter ρ} {n : ℕ} {report : ρ} (takes : reporter.Takes n report)
    (records : List Record) {i : ℕ} {call : Record × Except Failure Unit}
    (h : (reporter.logged.emitAll records ⟨report, []⟩).calls[i]? = some call) :
    call.2 = .ok () ↔ i < n := by
  induction records using List.reverseRecOn with
  | nil => simp [emitAll] at h
  | append_singleton records record ih =>
    obtain ⟨hreport, hlength⟩ := emitAll_logged reporter records report
    rw [emitAll_append, logged_emit, hreport, List.getElem?_append, hlength] at h
    split at h
    · exact ih h
    · have hlast : i = records.length := by
        have hi := (List.getElem?_eq_some_iff.mp h).1
        simp only [List.length_singleton] at hi
        omega
      subst hlast
      simp only [Nat.sub_self, List.getElem?_cons_zero, Option.some.injEq] at h
      subst h
      exact takes records record

end Reporter

namespace Collection

variable (kept : Collection) {n : ℕ}

theorem emit_of_full (room : kept.room = some n) (full : n ≤ kept.records.length)
    (record : Record) :
    reporter.emit record kept = (.error (.write (.refused "reporter closed")), kept) := by
  simp [reporter, room, full]

theorem emit_of_space (room : kept.room = some n) (space : kept.records.length < n)
    (record : Record) :
    reporter.emit record kept = (.ok (), { kept with records := kept.records ++ [record] }) := by
  simp [reporter, room, Nat.not_le.mpr space]

theorem emitAll_of_room (room : kept.room = some n) (fits : kept.records.length ≤ n)
    (records : List Record) :
    (reporter.emitAll records kept).room = some n ∧
      (reporter.emitAll records kept).records.length =
        min n (kept.records.length + records.length) := by
  induction records generalizing kept with
  | nil =>
    refine ⟨room, ?_⟩
    change kept.records.length = min n (kept.records.length + 0)
    omega
  | cons record rest ih =>
    change (reporter.emitAll rest (reporter.emit record kept).2).room = some n ∧
      (reporter.emitAll rest (reporter.emit record kept).2).records.length = _
    by_cases full : n ≤ kept.records.length
    · rw [emit_of_full kept room full]
      obtain ⟨hroom, hlength⟩ := ih kept room fits
      refine ⟨hroom, ?_⟩
      simp only [hlength, List.length_cons]
      omega
    · rw [emit_of_space kept room (Nat.lt_of_not_le full)]
      obtain ⟨hroom, hlength⟩ :=
        ih { kept with records := kept.records ++ [record] } room (by simp; omega)
      refine ⟨hroom, ?_⟩
      simp only [hlength, List.length_append, List.length_cons, List.length_nil]
      omega

/-- An empty collection with room for `n` records takes `n` records. -/
theorem takes (n : ℕ) : reporter.Takes n { room := some n } := by
  intro records record
  obtain ⟨hroom, hlength⟩ := emitAll_of_room { room := some n } rfl (by simp) records
  simp only [List.length_nil, Nat.zero_add] at hlength
  by_cases full : n ≤ records.length
  · rw [emit_of_full _ hroom (by omega)]
    simp only [reduceCtorEq, false_iff]
    omega
  · rw [emit_of_space _ hroom (by omega)]
    simp only [true_iff]
    omega

end Collection

namespace Log

def taken (records : List Record) : List (Record × Except Failure Unit) :=
  records.map fun record => (record, .ok ())

variable {log : Log ρ} {records : List Record}

theorem mem_taken {call : Record × Except Failure Unit} (h : call ∈ taken records) :
    call.2 = .ok () := by
  obtain ⟨record, -, rfl⟩ := List.mem_map.mp h
  rfl

theorem of_taken (h : log.calls = taken records) :
    log.accepted = records ∧ log.refusal? = none ∧ ∀ call ∈ log.calls.dropLast, call.2 = .ok () := by
  refine ⟨?_, ?_, fun call hcall => ?_⟩
  · simp [accepted, h, taken, List.filterMap_map]
  · simp [refusal?, h, taken, List.findSome?_eq_none_iff]
  · exact mem_taken (h ▸ List.mem_of_mem_dropLast hcall)

theorem of_refused {record : Record} {reason : Failure}
    (h : log.calls = taken records ++ [(record, .error reason)]) :
    log.accepted = records ∧ log.refusal? = some reason ∧
      ∀ call ∈ log.calls.dropLast, call.2 = .ok () := by
  obtain ⟨haccepted, hrefusal, -⟩ := @of_taken ρ ⟨log.report, taken records⟩ records rfl
  refine ⟨?_, ?_, fun call hcall => ?_⟩
  · rw [accepted, h, List.filterMap_append]
    simpa [accepted] using haccepted
  · rw [refusal?, h, List.findSome?_append]
    simp only [refusal?] at hrefusal
    simp [hrefusal]
  · rw [h, List.dropLast_concat] at hcall
    exact mem_taken hcall

end Log

namespace Crew

open Workbench

variable {crew : Crew ρ} {seed : Path} {report : ρ} {session : Session} {actions : List Action}

def logged (crew : Crew ρ) : Crew (Log ρ) := crew.reportingTo crew.reporter.logged

@[simp] theorem logged_reporter (crew : Crew ρ) : crew.logged.reporter = crew.reporter.logged := rfl

@[simp] theorem logged_root (crew : Crew ρ) : crew.logged.root = crew.root := rfl

section Unvarying

variable {s : State ρ} (run : Run crew (crew.start seed report session) actions s)
  (unvarying : crew.variants = ∅) (spelling : Path.OneSpelling (crew.bench.inPlay crew.root seed))
  (faithful : session.Faithful crew.bench crew.root (crew.bench.inPlay crew.root seed))
include run unvarying spelling faithful

theorem Run.progress_of_going (going : s.walk.failure = none) :
    ∃ kept : Collection,
      Progress (crew.reportingTo Collection.reporter) seed {} (s.withReport kept) ∧
      Accounts (.ofPaths (crew.bench.inspector.listFiles crew.root)) seed actions
        (s.withReport kept) := by
  obtain ⟨kept, -, run'⟩ := run.withoutRefusal going {} rfl
  obtain ⟨workers, bench, variants, reporter, root⟩ := crew
  cases unvarying
  exact ⟨kept, Run.progress spelling faithful (Collection.accepts rfl) run'⟩

theorem Run.mem_found_iff (going : s.walk.failure = none) (finished : s.Finished) (q : Path) :
    q ∈ s.walk.found ↔ q ≠ seed ∧ crew.bench.Needs crew.root seed q := by
  obtain ⟨kept, hprogress, haccounts⟩ := run.progress_of_going unvarying spelling faithful going
  exact hprogress.mem_found_iff haccounts spelling finished q

/-- The path that was refused would have been found. -/
theorem Run.exists_refused {reason : Failure} (failed : s.walk.failure = some reason) :
    ∃ p, p ∉ s.walk.found ∧ p ≠ seed ∧ crew.bench.Needs crew.root seed p := by
  obtain ⟨before, u, p, rest, hrun, hgoing, hbatch, hnew, -, hfound, -⟩ := run.refusal rfl failed
  obtain ⟨kept, hprogress, -⟩ := hrun.progress_of_going unvarying spelling faithful hgoing
  have hseen := hrun.accounts.seen
  refine ⟨p, ?_, ?_, hprogress.needed p ?_⟩
  · rw [hfound]
    exact fun hp => hnew (hseen p (by simp [hp]))
  · rintro rfl
    exact hnew (hseen p (by simp))
  · change p ∈ u.walk.found ++ u.batch
    simp [hbatch]

theorem Run.found_needed {q : Path} (hq : q ∈ s.walk.found) :
    q ≠ seed ∧ crew.bench.Needs crew.root seed q := by
  constructor
  · rintro rfl
    exact (List.nodup_cons.mp run.accounts.nodup).1 (List.mem_map_of_mem hq)
  · cases hfailure : s.walk.failure with
    | none =>
      obtain ⟨kept, hprogress, -⟩ := run.progress_of_going unvarying spelling faithful hfailure
      exact hprogress.needed q (List.mem_append_left _ hq)
    | some reason =>
      obtain ⟨before, u, -, -, hrun, hgoing, -, -, -, hfound, -⟩ := run.refusal rfl hfailure
      obtain ⟨kept, hprogress, -⟩ := hrun.progress_of_going unvarying spelling faithful hgoing
      exact hprogress.needed q (List.mem_append_left _ (hfound ▸ hq))

end Unvarying

theorem Run.exists_emitAll {first s : State ρ} (run : Run crew first actions s) :
    ∃ records, s.walk.report = crew.reporter.emitAll records first.walk.report := by
  induction run with
  | nil => exact ⟨[], rfl⟩
  | snoc _ step ih =>
    obtain ⟨records, hrecords⟩ := ih
    obtain ⟨-, hreport⟩ | ⟨record, -, hreport⟩ :=
      step.withReport crew.reporter _ fun _ _ => rfl
    · exact ⟨records, hreport.trans hrecords⟩
    · refine ⟨records ++ [record], ?_⟩
      rw [hreport, hrecords, Reporter.emitAll_append]

theorem Run.exists_log {first s : State ρ} (run : Run crew first actions s) :
    ∃ calls, Run crew.logged (first.withReport ⟨first.walk.report, []⟩) actions
      (s.withReport ⟨s.walk.report, calls⟩) := by
  induction run with
  | nil => exact ⟨[], .nil⟩
  | @snoc actions s t action _ step ih =>
    obtain ⟨calls, run'⟩ := ih
    obtain ⟨step', hreport⟩ | ⟨record, step', hreport⟩ :=
      step.withReport crew.reporter.logged ⟨s.walk.report, calls⟩ fun _ _ => rfl
    · exact ⟨calls, hreport ▸ run'.snoc step'⟩
    · rw [Reporter.logged_emit] at step'
      exact ⟨_, hreport ▸ run'.snoc step'⟩

section Logged

variable {s : State (Log ρ)}
  (run : Run crew.logged (crew.logged.start seed ⟨report, []⟩ session) actions s)
include run

theorem Run.calls_of_going (going : s.walk.failure = none) :
    s.walk.report.calls = Log.taken (recordsOf crew.root s.walk.found) := by
  induction run with
  | nil => rfl
  | @snoc actions s t action _ step ih =>
    have hcalls := ih (step.failure_eq_none going)
    cases step with
    | take => exact hcalls
    | work => exact hcalls
    | finish => exact hcalls
    | receive => exact hcalls
    | @meet p rest busy =>
      simp only [logged_reporter, logged_root] at going ⊢
      obtain ⟨-, hmeet⟩ | ⟨-, -, ⟨reason, -, hmeet⟩ | ⟨haccept, hmeet⟩⟩ :=
        Walk.meet_cases crew.reporter.logged crew.root s.walk p
      · simpa only [hmeet] using hcalls
      · simp [hmeet] at going
      · simp only [Reporter.logged_emit] at haccept
        simp only [hmeet, Reporter.logged_emit, haccept, hcalls, recordsOf, Log.taken,
          List.map_append, List.map_cons, List.map_nil]

theorem Run.calls_of_failed {reason : Failure} (failed : s.walk.failure = some reason) :
    ∃ record, s.walk.report.calls =
      Log.taken (recordsOf crew.root s.walk.found) ++ [(record, .error reason)] := by
  obtain ⟨before, u, p, rest, hrun, hgoing, -, -, hemit, hfound, hreport⟩ := run.refusal rfl failed
  refine ⟨.path (Path.relativeTo crew.root p), ?_⟩
  simp only [logged_reporter, logged_root, Reporter.logged_emit] at hemit hreport
  rw [hreport, hfound, ← hrun.calls_of_going hgoing, hemit]

theorem Run.log :
    s.walk.report.refusal? = s.walk.failure ∧
      s.walk.report.accepted = recordsOf crew.root s.walk.found ∧
      ∀ call ∈ s.walk.report.calls.dropLast, call.2 = .ok () := by
  cases hfailure : s.walk.failure with
  | none =>
    obtain ⟨haccepted, hrefusal, hlast⟩ := Log.of_taken (run.calls_of_going hfailure)
    exact ⟨hrefusal, haccepted, hlast⟩
  | some reason =>
    obtain ⟨record, hcalls⟩ := run.calls_of_failed hfailure
    obtain ⟨haccepted, hrefusal, hlast⟩ := Log.of_refused hcalls
    exact ⟨hrefusal, haccepted, hlast⟩

theorem Run.taken_isPrefix :
    Log.taken (recordsOf crew.root s.walk.found) <+: s.walk.report.calls := by
  cases hfailure : s.walk.failure with
  | none => rw [run.calls_of_going hfailure]
  | some reason =>
    obtain ⟨record, hcalls⟩ := run.calls_of_failed hfailure
    exact ⟨[(record, .error reason)], hcalls.symm⟩

/-- With a reporter that takes `n` records, no more are found, and no fewer if it refused one. -/
theorem Run.found_length {n : ℕ} (takes : crew.reporter.Takes n report) :
    s.walk.found.length ≤ n ∧ (s.walk.failure ≠ none → s.walk.found.length = n) := by
  obtain ⟨records, hrecords⟩ := run.exists_emitAll
  have answer : ∀ {i : ℕ} {call : Record × Except Failure Unit},
      s.walk.report.calls[i]? = some call → (call.2 = .ok () ↔ i < n) := by
    intro i call hcall
    rw [hrecords] at hcall
    exact takes.answer records hcall
  have hlength : (Log.taken (recordsOf crew.root s.walk.found)).length = s.walk.found.length := by
    simp [Log.taken, recordsOf]
  have hle : s.walk.found.length ≤ n := by
    refine Nat.le_of_not_lt fun hlt => ?_
    have hn : n < (Log.taken (recordsOf crew.root s.walk.found)).length := hlength ▸ hlt
    have hcall := (List.prefix_iff_getElem?.mp run.taken_isPrefix) n hn
    exact Nat.lt_irrefl n ((answer hcall).mp (Log.mem_taken (List.getElem_mem hn)))
  refine ⟨hle, fun failed => ?_⟩
  obtain ⟨reason, hfailure⟩ := Option.ne_none_iff_exists'.mp failed
  obtain ⟨record, hcalls⟩ := run.calls_of_failed hfailure
  have hrefused : s.walk.report.calls[s.walk.found.length]? = some (record, .error reason) := by
    rw [hcalls, List.getElem?_append_right (Nat.le_of_eq hlength), hlength]
    simp
  have hge : ¬ s.walk.found.length < n := fun hlt => by simpa using (answer hrefused).mpr hlt
  omega

end Logged

/-- What the log of a search with steady tools tells, after some moves. -/
structure LogInvariant (w : Workbench) (root seed : Path) (actions : List Action) (s : State (Log ρ)) :
    Prop where
  /-- Nothing is offered after a refusal. -/
  last : ∀ call ∈ s.walk.report.calls.dropLast, call.2 = .ok ()
  /-- The records taken are those of the paths found. -/
  accepted : s.walk.report.accepted = recordsOf root s.walk.found
  distinct : (s.walk.found.map Path.components).Nodup
  needed : ∀ q ∈ s.walk.found, q ≠ seed ∧ w.Needs root seed q
  /-- An expansion is started for the seed and for each path found. -/
  started : (received actions ++ s.outstanding).Perm (seed :: s.walk.found)

section Search

variable (unvarying : crew.variants = ∅)
  (spelling : Path.OneSpelling (crew.bench.inPlay crew.root seed))
  (faithful : session.Faithful crew.bench crew.root (crew.bench.inPlay crew.root seed))
include unvarying spelling faithful

theorem Run.logInvariant {s : State (Log ρ)}
    (run : Run crew.logged (crew.logged.start seed ⟨report, []⟩ session) actions s) :
    LogInvariant crew.bench crew.root seed actions s where
  last := run.log.2.2
  accepted := run.log.2.1
  distinct := (List.nodup_cons.mp run.accounts.nodup).2
  needed _ := run.found_needed unvarying spelling faithful
  started := run.accounts.balance.symm

theorem exists_closure :
    ∃ closure : List Path, closure.Nodup ∧
      ∀ q, q ∈ closure ↔ q ≠ seed ∧ crew.bench.Needs crew.root seed q := by
  obtain ⟨actions, last, run, finished, -⟩ :=
    closure_run (crew.reportingTo Collection.reporter) seed {} session
  have going : last.walk.failure = none := by
    obtain ⟨workers, bench, variants, reporter, root⟩ := crew
    cases unvarying
    exact (Run.progress spelling faithful (Collection.accepts rfl) run).1.failure
  exact ⟨last.walk.found, run.accounts.found_nodup,
    run.mem_found_iff unvarying spelling faithful going finished⟩

/-- A reporter that takes `n` records is refused by the searches that have more to report. -/
theorem Run.length_of_takes {s : State (Log ρ)}
    (run : Run crew.logged (crew.logged.start seed ⟨report, []⟩ session) actions s)
    (finished : s.Finished) {n : ℕ} (takes : crew.reporter.Takes n report) {closure : List Path}
    (nodup : closure.Nodup)
    (hclosure : ∀ q, q ∈ closure ↔ q ≠ seed ∧ crew.bench.Needs crew.root seed q) :
    (s.walk.failure ≠ none ↔ n < closure.length) ∧
      s.walk.found.length = min n closure.length := by
  obtain ⟨hle, hfull⟩ := run.found_length takes
  have hfound := run.accounts.found_nodup
  cases hfailure : s.walk.failure with
  | none =>
    have hperm : s.walk.found.Perm closure := by
      refine (List.perm_ext_iff_of_nodup hfound nodup).mpr fun q => ?_
      rw [hclosure]
      exact run.mem_found_iff unvarying spelling faithful hfailure finished q
    have hlength := hperm.length_eq
    refine ⟨⟨fun h => absurd rfl h, fun h => by omega⟩, by omega⟩
  | some reason =>
    have hn := hfull (by simp [hfailure])
    obtain ⟨p, hp, hne, hneeds⟩ := run.exists_refused unvarying spelling faithful hfailure
    have hsub : p :: s.walk.found ⊆ closure := by
      intro q hq
      rw [hclosure]
      rcases List.mem_cons.mp hq with rfl | hq
      · exact ⟨hne, hneeds⟩
      · exact run.found_needed unvarying spelling faithful hq
    have hlt := ((List.nodup_cons.mpr ⟨hp, hfound⟩).subperm hsub).length_le
    rw [List.length_cons] at hlt
    exact ⟨⟨fun _ => by omega, fun _ => by simp⟩, by omega⟩

end Search

theorem outcome_eq_error_iff {s : State ρ} {reason : Failure} :
    s.walk.outcome seed = .error reason ↔ s.walk.failure = some reason := by
  unfold Walk.outcome
  split <;> simp_all

/-- A search whose reporter may refuse records, told by a log of the calls. Every run of the crew has
such a log, and the search by itself is one of the runs. All runs end with everything received, and
fail exactly if a call was refused, for the reason of the first refusal. All along the records taken
are those of different paths that the seed needs, and no call follows a refusal; after one nothing is
started any more. So if the reporter takes `n` records, the search fails exactly if the seed needs more
than `n` paths, and as many records are taken as there are paths or room. -/
theorem search_refused (crew : Crew ρ) (unvarying : crew.variants = ∅) (seed : Path) (report : ρ)
    (session : Session) (spelling : Path.OneSpelling (crew.bench.inPlay crew.root seed))
    (faithful : session.Faithful crew.bench crew.root (crew.bench.inPlay crew.root seed)) :
    (∀ actions s, Run crew (crew.start seed report session) actions s →
      ∃ calls, Run crew.logged (crew.logged.start seed ⟨report, []⟩ session) actions
        (s.withReport ⟨s.walk.report, calls⟩)) ∧
    (∃ actions last, Run crew.logged (crew.logged.start seed ⟨report, []⟩ session) actions last ∧
      last.Finished ∧
      crew.bench.closure crew.reporter.logged crew.root seed ⟨report, []⟩ session =
        (last.walk.outcome seed, last.walk.report, last.session)) ∧
    Ends crew.logged
      (fun s => s.outstanding = [] ∧
        ∀ reason, s.walk.outcome seed = .error reason ↔ s.walk.report.refusal? = some reason)
      (crew.logged.start seed ⟨report, []⟩ session) ∧
    (∀ actions s, Run crew.logged (crew.logged.start seed ⟨report, []⟩ session) actions s →
      LogInvariant crew.bench crew.root seed actions s ∧
      (s.walk.report.refusal?.isSome = true → ∀ more t, Run crew.logged s more t →
        t.walk.report.calls = s.walk.report.calls ∧
        (received (actions ++ more) ++ t.outstanding).Perm (received actions ++ s.outstanding))) ∧
    ∃ closure : List Path, closure.Nodup ∧
      (∀ q, q ∈ closure ↔ q ≠ seed ∧ crew.bench.Needs crew.root seed q) ∧
      ∀ n, crew.reporter.Takes n report → ∀ actions s,
        Run crew.logged (crew.logged.start seed ⟨report, []⟩ session) actions s → s.Finished →
        ((∃ reason, s.walk.outcome seed = .error reason) ↔ n < closure.length) ∧
        s.walk.report.accepted.length = min n closure.length := by
  refine ⟨fun actions s run => run.exists_log, closure_run crew.logged seed ⟨report, []⟩ session,
    ends fun actions s run finished => ⟨run.accounts.outstanding_of_finished finished, ?_⟩,
    fun actions s run => ⟨run.logInvariant unvarying spelling faithful, ?_⟩, ?_⟩
  · intro reason
    rw [outcome_eq_error_iff, run.log.1]
  · intro refused more t run'
    rw [run.log.1] at refused
    obtain ⟨-, hfound, hreport⟩ := run'.of_failed refused
    refine ⟨by rw [hreport], ?_⟩
    have hafter := (run.trans run').accounts.balance
    rw [hfound] at hafter
    exact hafter.symm.trans run.accounts.balance
  · obtain ⟨closure, nodup, hclosure⟩ := exists_closure unvarying spelling faithful
    refine ⟨closure, nodup, hclosure, fun n takes actions s run finished => ?_⟩
    obtain ⟨hfails, hlength⟩ :=
      run.length_of_takes unvarying spelling faithful finished takes nodup hclosure
    constructor
    · simp only [outcome_eq_error_iff, ← hfails, ← Option.ne_none_iff_exists']
    · rw [run.log.2.1, recordsOf, List.length_map, hlength]

section RoomForOne

def roomSeed : Path := .ofString "/a.so"

def roomLeft : Path := .ofString "/b.so"

def roomRight : Path := .ofString "/c.so"

def roomBench : Workbench :=
  { settings := { ignoredLibraries := [], nonBinaryExtensions := [] }
    strategy := .content
    inspector :=
      { listFiles := fun _ => [roomSeed, roomLeft, roomRight]
        describe := fun _ => .ok "ELF 64-bit"
        texts := fun p => .ok (if p = roomSeed then ["%s.so"] else []) } }

def roomCrew : Crew Collection :=
  { workers := 2, bench := roomBench, reporter := Collection.reporter, root := .ofString "/" }

def roomSession : Session :=
  { index := some ⟨[("a.so", [roomSeed]), ("b.so", [roomLeft]), ("c.so", [roomRight])]⟩ }

theorem faithful_roomSession : roomSession.Faithful roomBench (.ofString "/")
    (roomBench.inPlay (.ofString "/") roomSeed) := by
  exact .indexed roomBench (.ofString "/") _ (by cbv)

/-- Whoever of the two is met first is taken, and the search fails. -/
theorem search_refused_room_for_one :
    roomCrew.variants = ∅ ∧ Path.OneSpelling (roomBench.inPlay (.ofString "/") roomSeed) ∧
    roomSession.Faithful roomBench (.ofString "/") (roomBench.inPlay (.ofString "/") roomSeed) ∧
    Collection.reporter.Takes 1 { room := some 1 } ∧
    ∀ actions s, Run roomCrew.logged
        (roomCrew.logged.start roomSeed ⟨{ room := some 1 }, []⟩ roomSession) actions s →
      s.Finished →
      (∃ reason, s.walk.outcome roomSeed = .error reason) ∧ s.walk.report.accepted.length = 1 := by
  have hspelling : Path.OneSpelling (roomBench.inPlay (.ofString "/") roomSeed) := by decide
  obtain ⟨-, ⟨actions, last, run, finished, hclosure⟩, -, -, closure, -, -, hlimit⟩ :=
    search_refused roomCrew rfl roomSeed { room := some 1 } roomSession hspelling
      faithful_roomSession
  have hvalue : (roomBench.closure Collection.reporter.logged (.ofString "/") roomSeed
      ⟨{ room := some 1 }, []⟩ roomSession).1 =
        .error (.write (.refused "reporter closed")) := by decide +kernel
  have houtcome : last.walk.outcome roomSeed = .error (.write (.refused "reporter closed")) :=
    (congrArg Prod.fst hclosure).symm.trans hvalue
  have hmore : 1 < closure.length :=
    (hlimit 1 (Collection.takes 1) actions last run finished).1.mp ⟨_, houtcome⟩
  refine ⟨rfl, hspelling, faithful_roomSession, Collection.takes 1, fun actions s run finished => ?_⟩
  obtain ⟨hfails, hlength⟩ := hlimit 1 (Collection.takes 1) actions s run finished
  exact ⟨hfails.mpr hmore, by omega⟩

end RoomForOne

end Crew

end BlobCensus
