import Mathlib.Data.Set.Insert
import BlobCensus.Proofs.Session.Expansion

/-!
# Crews

A crew of workers searches a closure together. The walk belongs to one coordinator, who receives
results one by one and meets their paths one by one. The workers take up expansions in any order and
take turns at the shared session between any two accesses to it. A `Step` is one move of somebody,
a `Run` a sequence of moves, and `Ends` says that all runs come to an end.
-/
namespace BlobCensus

structure Crew (ρ : Type) where
  workers : ℕ
  bench : Workbench
  /-- The tools need not be steady: an expansion may also find them answering like one of these. -/
  variants : Set Inspector := ∅
  reporter : Reporter ρ
  root : Path

namespace Crew

variable {ρ : Type}

structure State (ρ : Type) where
  walk : Walk ρ
  /-- The paths of the last result received that the walk has yet to meet. -/
  batch : List Path
  /-- The expansions taken up by workers, with the work that remains. -/
  running : List (Path × Job (List Path))
  /-- The results sent and not yet received, in the order they were sent. -/
  mail : List (Path × List Path)
  session : Session

/-- The expansions started whose result has not been received. -/
def State.outstanding (s : State ρ) : List Path :=
  s.walk.queue ++ s.running.map Prod.fst ++ s.mail.map Prod.fst

def State.Finished (s : State ρ) : Prop := s.batch = [] ∧ s.walk.pending = 0

/-- The search at its start: the index is made, and the expansion of the seed is started. -/
def start (crew : Crew ρ) (seed : Path) (report : ρ) (session : Session) : State ρ :=
  { walk := Walk.start seed report
    batch := []
    running := []
    mail := []
    session := (crew.bench.prepare crew.root session).2 }

inductive Action where
  | take (p : Path)
  | work (p : Path)
  | finish (p : Path)
  | receive (p : Path)
  | meet (p : Path)

inductive Step (crew : Crew ρ) : State ρ → Action → State ρ → Prop
  | take {s : State ρ} {p : Path} {tools : Inspector}
      (free : s.running.length < max 1 crew.workers) (waiting : p ∈ s.walk.queue)
      (variant : tools ∈ insert crew.bench.inspector crew.variants) :
      Step crew s (.take p)
        { s with
          walk := { s.walk with queue := s.walk.queue.erase p }
          running :=
            (p, Workbench.expand { crew.bench with inspector := tools } crew.root p) :: s.running }
  | work {s : State ρ} {p : Path} {change : Session → Session} {next : Session → Job (List Path)}
      {front back : List (Path × Job (List Path))}
      (busy : s.running = front ++ (p, .access change next) :: back) :
      Step crew s (.work p)
        { s with
          running := front ++ (p, next s.session) :: back
          session := change s.session }
  | finish {s : State ρ} {p : Path} {answer : Except Breakdown (List Path)}
      {front back : List (Path × Job (List Path))}
      (busy : s.running = front ++ (p, .done answer) :: back) :
      Step crew s (.finish p)
        { s with
          running := front ++ back
          mail := s.mail ++ [(p, (Workbench.resultOf p answer s.session).1)]
          session := (Workbench.resultOf p answer s.session).2 }
  | receive {s : State ρ} {p : Path} {result : List Path} {rest : List (Path × List Path)}
      (idle : s.batch = []) (waits : s.walk.pending ≠ 0) (arrived : s.mail = (p, result) :: rest) :
      Step crew s (.receive p)
        { s with
          walk := { s.walk with pending := s.walk.pending - 1 }
          batch := result
          mail := rest }
  | meet {s : State ρ} {p : Path} {rest : List Path} (busy : s.batch = p :: rest) :
      Step crew s (.meet p)
        { s with
          walk := s.walk.meet crew.reporter crew.root p
          batch := rest }

inductive Run (crew : Crew ρ) (first : State ρ) : List Action → State ρ → Prop
  | nil : Run crew first [] first
  | snoc {actions : List Action} {s t : State ρ} {action : Action}
      (prior : Run crew first actions s) (step : Step crew s action t) :
      Run crew first (actions ++ [action]) t

/-- Whatever moves are made from here, they come to an end, and when no move is left the search is
finished and `goal` holds. -/
inductive Ends (crew : Crew ρ) (goal : State ρ → Prop) : State ρ → Prop
  | intro {s : State ρ} (next : ∀ action t, Step crew s action t → Ends crew goal t)
      (last : (∀ action t, ¬ Step crew s action t) → s.Finished ∧ goal s) : Ends crew goal s

def expanded (actions : List Action) : List Path :=
  actions.filterMap fun
    | .take p => some p
    | _ => none

def received (actions : List Action) : List Path :=
  actions.filterMap fun
    | .receive p => some p
    | _ => none

variable {crew : Crew ρ} {first s t : State ρ} {actions more : List Action}

section Outstanding

variable {p : Path} {job : Job (List Path)} {front back : List (Path × Job (List Path))}

theorem outstanding_take (waiting : p ∈ s.walk.queue) (job : Job (List Path)) :
    State.outstanding { s with
      walk := { s.walk with queue := s.walk.queue.erase p }
      running := (p, job) :: s.running } |>.Perm s.outstanding := by
  refine List.Perm.append_right _ ?_
  rw [List.map_cons]
  refine List.perm_middle.trans ?_
  exact (List.perm_cons_erase waiting).symm.append_right _

theorem outstanding_work (busy : s.running = front ++ (p, job) :: back) (next : Job (List Path))
    (session : Session) :
    State.outstanding { s with running := front ++ (p, next) :: back, session } =
      s.outstanding := by
  simp only [State.outstanding, busy, List.map_append, List.map_cons]

theorem outstanding_finish (busy : s.running = front ++ (p, job) :: back) (result : List Path)
    (session : Session) :
    State.outstanding { s with
      running := front ++ back
      mail := s.mail ++ [(p, result)]
      session } |>.Perm s.outstanding := by
  simp only [State.outstanding, busy, List.map_append, List.map_cons, List.map_nil,
    List.append_assoc]
  refine List.Perm.append_left _ (List.Perm.append_left _ ?_)
  rw [← List.append_assoc]
  exact List.perm_append_singleton p _

end Outstanding

/-- Every job keeps `inv` whatever the others do, and every result satisfies `post`. -/
structure Sound (inv : Session → Prop) (post : Path → List Path → Prop) (s : State ρ) : Prop where
  session : inv s.session
  jobs : ∀ e ∈ s.running,
    e.2.Ensures inv fun answer => ∀ t, post e.1 (Workbench.resultOf e.1 answer t).1
  mail : ∀ e ∈ s.mail, post e.1 e.2

namespace Sound

variable {inv : Session → Prop} {post : Path → List Path → Prop} {p : Path}
  {front back : List (Path × Job (List Path))} (h : Sound inv post s)
include h

theorem take {job : Job (List Path)}
    (ensures : job.Ensures inv fun answer => ∀ t, post p (Workbench.resultOf p answer t).1)
    (walk : Walk ρ) : Sound inv post { s with walk, running := (p, job) :: s.running } := by
  refine { h with jobs := ?_ }
  intro e he
  rcases List.mem_cons.mp he with rfl | he
  · exact ensures
  · exact h.jobs e he

theorem work {change : Session → Session} {next : Session → Job (List Path)}
    (busy : s.running = front ++ (p, .access change next) :: back) :
    Sound inv post
      { s with running := front ++ (p, next s.session) :: back, session := change s.session } := by
  have hjob := h.jobs (p, .access change next) (by simp [busy]) s.session h.session
  refine { h with session := hjob.1, jobs := ?_ }
  intro e he
  rcases List.mem_append.mp he with he | he
  · exact h.jobs e (by simp [busy, he])
  · rcases List.mem_cons.mp he with rfl | he
    · exact hjob.2
    · exact h.jobs e (by simp [busy, he])

theorem finish {answer : Except Breakdown (List Path)} (note : ∀ s e, inv s → inv (s.note e))
    (busy : s.running = front ++ (p, .done answer) :: back) :
    Sound inv post
      { s with
        running := front ++ back
        mail := s.mail ++ [(p, (Workbench.resultOf p answer s.session).1)]
        session := (Workbench.resultOf p answer s.session).2 } := by
  have hjob : ∀ t, post p (Workbench.resultOf p answer t).1 :=
    h.jobs (p, .done answer) (by simp [busy])
  refine ⟨Workbench.resultOf_keeps note p answer h.session, ?_, ?_⟩
  · intro e he
    refine h.jobs e ?_
    rw [busy]
    exact ((List.sublist_cons_self _ _).append_left _).subset he
  · intro e he
    rcases List.mem_append.mp he with he | he
    · exact h.mail e he
    · obtain rfl := List.mem_singleton.mp he
      exact hjob s.session

theorem receive {result : List Path} {rest : List (Path × List Path)}
    (arrived : s.mail = (p, result) :: rest) (walk : Walk ρ) :
    Sound inv post { s with walk, batch := result, mail := rest } ∧ post p result := by
  refine ⟨{ h with mail := ?_ }, h.mail (p, result) (by simp [arrived])⟩
  exact fun e he => h.mail e (by simp [arrived, he])

theorem meet (walk : Walk ρ) (batch : List Path) : Sound inv post { s with walk, batch } :=
  { h with }

end Sound

theorem Run.trans (h : Run crew first actions s) (g : Run crew s more t) :
    Run crew first (actions ++ more) t := by
  induction g with
  | nil => simpa using h
  | snoc _ step ih =>
    rw [← List.append_assoc]
    exact .snoc ih step

theorem Run.one {action : Action} (h : Step crew s action t) : Run crew s [action] t := .snoc .nil h

end Crew

namespace Walk

variable {ρ : Type}

/-- What meeting a path does: nothing if it is not new or the report has failed; else it is reported,
and found and started unless the report refuses it. -/
theorem meet_cases (reporter : Reporter ρ) (root : Path) (w : Walk ρ) (p : Path) :
    ((w.failure.isSome = true ∨ p.components ∈ w.seen) ∧ w.meet reporter root p = w) ∨
    (w.failure = none ∧ p.components ∉ w.seen ∧
      ((∃ reason, (reporter.emit (.path (Path.relativeTo root p)) w.report).1 = .error reason ∧
        w.meet reporter root p = { w with
          seen := p.components :: w.seen
          failure := some reason
          report := (reporter.emit (.path (Path.relativeTo root p)) w.report).2 }) ∨
      ((reporter.emit (.path (Path.relativeTo root p)) w.report).1 = .ok () ∧
        w.meet reporter root p = { w with
          seen := p.components :: w.seen
          found := w.found ++ [p]
          queue := w.queue ++ [p]
          pending := w.pending + 1
          report := (reporter.emit (.path (Path.relativeTo root p)) w.report).2 }))) := by
  unfold meet
  by_cases hold : (w.failure.isSome || w.seen.contains p.components) = true
  · rw [if_pos hold]
    exact .inl ⟨by simpa using hold, rfl⟩
  · rw [if_neg hold]
    simp only [Bool.or_eq_true, List.contains_iff_mem, not_or, Bool.not_eq_true,
      Option.isSome_eq_false_iff, Option.isNone_iff_eq_none] at hold
    refine .inr ⟨hold.1, hold.2, ?_⟩
    obtain ⟨answer, report⟩ := reporter.emit (.path (Path.relativeTo root p)) w.report
    cases answer with
    | error reason => exact .inl ⟨reason, rfl, rfl⟩
    | ok _ => exact .inr ⟨rfl, rfl⟩

theorem exists_foldl_meet (reporter : Reporter ρ) (root : Path) (w : Walk ρ) (paths : List Path) :
    ∃ new ⊆ paths, (paths.foldl (meet reporter root) w).found = w.found ++ new ∧
      (paths.foldl (meet reporter root) w).queue = w.queue ++ new := by
  induction paths generalizing w with
  | nil => exact ⟨[], by simp⟩
  | cons p rest ih =>
    obtain ⟨new, hsub, hfound, hqueue⟩ := ih (w.meet reporter root p)
    have hlater : new ⊆ p :: rest := fun q hq => List.mem_cons_of_mem p (hsub hq)
    rw [List.foldl_cons, hfound, hqueue]
    obtain ⟨-, hmeet⟩ | ⟨-, -, ⟨reason, -, hmeet⟩ | ⟨-, hmeet⟩⟩ := meet_cases reporter root w p
    · exact ⟨new, hlater, by simp [hmeet]⟩
    · exact ⟨new, hlater, by simp [hmeet]⟩
    · exact ⟨p :: new, List.cons_subset_cons p hsub, by simp [hmeet]⟩

/-- What a result adds to the paths found it adds to the queue. -/
theorem exists_receive (reporter : Reporter ρ) (root : Path) (w : Walk ρ) (result : List Path) :
    ∃ new ⊆ result, (w.receive reporter root result).found = w.found ++ new ∧
      (w.receive reporter root result).queue = w.queue ++ new :=
  exists_foldl_meet reporter root { w with pending := w.pending - 1 } result

theorem outcome_eq_ok {w : Walk ρ} {seed : Path} {closure : Closure}
    (h : w.outcome seed = .ok closure) : w.failure = none ∧ closure = ⟨seed, w.found⟩ := by
  unfold outcome at h
  split at h
  · cases h
  · rename_i going
    cases h
    exact ⟨going, rfl⟩

theorem found_of_outcome {w : Walk ρ} {seed : Path} {closure : Closure}
    (h : w.outcome seed = .ok closure) : closure.paths = w.found := by
  rw [(outcome_eq_ok h).2]

end Walk

end BlobCensus
