import Mathlib.Data.List.Dedup
import Mathlib.Data.List.Perm.Subperm
import Mathlib.Logic.Hydra
import BlobCensus.Proofs.Closure.Crew

/-!
# The accounts of a crew

Every expansion that is started is waiting in the queue, running, in the mail or received, and each
path is started once. That much holds whatever the tools answer, whoever moves next and whether or
not the report fails. It bounds the work, so every run ends.
-/
namespace BlobCensus.Crew

open Workbench (HasIndex)

variable {ρ : Type} {crew : Crew ρ} {first s t : State ρ} {index : NameIndex} {seed p : Path}
  {actions : List Action}

theorem expanded_append (actions more : List Action) :
    expanded (actions ++ more) = expanded actions ++ expanded more :=
  List.filterMap_append

theorem received_append (actions more : List Action) :
    received (actions ++ more) = received actions ++ received more :=
  List.filterMap_append

/-- Where the expansions of a search are after some moves. -/
structure Accounts (index : NameIndex) (seed : Path) (actions : List Action) (s : State ρ) :
    Prop where
  sound : Sound (HasIndex index) (fun _ result => result ⊆ index.paths) s
  batch : s.batch ⊆ index.paths
  found : s.walk.found ⊆ index.paths
  seen : ∀ p ∈ seed :: s.walk.found, p.components ∈ s.walk.seen
  nodup : ((seed :: s.walk.found).map Path.components).Nodup
  started : (seed :: s.walk.found).Perm (expanded actions ++ s.walk.queue)
  taken : (expanded actions).Perm
    (received actions ++ s.mail.map Prod.fst ++ s.running.map Prod.fst)
  pending : s.walk.pending = s.outstanding.length

namespace Accounts

theorem start (crew : Crew ρ) (seed : Path) (report : ρ) (session : Session) :
    Accounts (crew.bench.prepare crew.root session).1 seed []
      (crew.start seed report session) where
  sound := by
    refine ⟨?_, by simp [Crew.start], by simp [Crew.start]⟩
    simp only [Crew.start, Workbench.prepare]
    split
    · assumption
    · rfl
  batch := by simp [Crew.start]
  found := by simp [Crew.start, Walk.start]
  seen := by simp [Crew.start, Walk.start]
  nodup := by simp [Crew.start, Walk.start]
  started := by simp [Crew.start, Walk.start, expanded]
  taken := by simp [Crew.start, expanded, received]
  pending := by simp [Crew.start, Walk.start, State.outstanding]

section Steps

variable (h : Accounts index seed actions s)
include h

theorem take {tools : Inspector} (waiting : p ∈ s.walk.queue) :
    Accounts index seed (actions ++ [.take p])
      { s with
        walk := { s.walk with queue := s.walk.queue.erase p }
        running :=
          (p, Workbench.expand { crew.bench with inspector := tools } crew.root p) :: s.running } := by
  refine { h with sound := ?_, started := ?_, taken := ?_, pending := ?_ }
  · refine h.sound.take ?_ _
    exact (Workbench.expand_returns _ _ _ _).mono fun _ => Workbench.resultOf_subset
  · rw [expanded_append, List.append_assoc]
    exact h.started.trans ((List.perm_cons_erase waiting).append_left _)
  · have hreceived : received (actions ++ [.take p]) = received actions := by simp [received]
    rw [expanded_append, hreceived, List.map_cons]
    refine (List.perm_append_singleton p _).trans ?_
    exact (h.taken.cons p).trans List.perm_middle.symm
  · exact h.pending.trans (outstanding_take waiting _).symm.length_eq

theorem work {change : Session → Session} {next : Session → Job (List Path)}
    {front back : List (Path × Job (List Path))}
    (busy : s.running = front ++ (p, .access change next) :: back) :
    Accounts index seed (actions ++ [.work p])
      { s with
        running := front ++ (p, next s.session) :: back
        session := change s.session } := by
  refine { h with sound := h.sound.work busy, started := ?_, taken := ?_, pending := ?_ }
  · simpa [expanded] using h.started
  · simpa [busy, expanded, received] using h.taken
  · rw [outstanding_work busy]
    exact h.pending

theorem finish {answer : Except Breakdown (List Path)}
    {front back : List (Path × Job (List Path))}
    (busy : s.running = front ++ (p, .done answer) :: back) :
    Accounts index seed (actions ++ [.finish p])
      { s with
        running := front ++ back
        mail := s.mail ++ [(p, (Workbench.resultOf p answer s.session).1)]
        session := (Workbench.resultOf p answer s.session).2 } := by
  refine { h with sound := ?_, started := ?_, taken := ?_, pending := ?_ }
  · exact h.sound.finish (fun _ _ hs => hs) busy
  · simpa [expanded] using h.started
  · have hexpanded : expanded (actions ++ [.finish p]) = expanded actions := by simp [expanded]
    have hreceived : received (actions ++ [.finish p]) = received actions := by simp [received]
    rw [hexpanded, hreceived]
    refine h.taken.trans ?_
    simp only [busy, List.map_append, List.map_cons, List.map_nil, List.append_assoc]
    exact (List.perm_middle.append_left _).append_left _
  · exact h.pending.trans (outstanding_finish busy _ _).symm.length_eq

theorem receive {result : List Path} {rest : List (Path × List Path)}
    (arrived : s.mail = (p, result) :: rest) :
    Accounts index seed (actions ++ [.receive p])
      { s with
        walk := { s.walk with pending := s.walk.pending - 1 }
        batch := result
        mail := rest } := by
  obtain ⟨hsound, hresult⟩ := h.sound.receive arrived { s.walk with pending := s.walk.pending - 1 }
  refine { h with sound := hsound, batch := hresult, started := ?_, taken := ?_, pending := ?_ }
  · simpa [expanded] using h.started
  · simpa [arrived, expanded, received] using h.taken
  · have hpending := h.pending
    simp only [State.outstanding, arrived, List.map_cons, List.length_append, List.length_map,
      List.length_cons] at hpending ⊢
    omega

theorem meet {rest : List Path} (busy : s.batch = p :: rest) :
    Accounts index seed (actions ++ [.meet p])
      { s with
        walk := s.walk.meet crew.reporter crew.root p
        batch := rest } := by
  have hrest : rest ⊆ index.paths := fun q hq => h.batch (by simp [busy, hq])
  have hp : p ∈ index.paths := h.batch (by simp [busy])
  obtain ⟨-, hmeet⟩ | ⟨-, hnew, ⟨reason, -, hmeet⟩ | ⟨-, hmeet⟩⟩ :=
    Walk.meet_cases crew.reporter crew.root s.walk p
  · simp only [hmeet]
    refine { h with sound := h.sound.meet _ _, batch := hrest, started := ?_, taken := ?_ }
    · simpa [expanded] using h.started
    · simpa [expanded, received] using h.taken
  · simp only [hmeet]
    refine { h with
      sound := h.sound.meet _ _, batch := hrest, seen := ?_, started := ?_, taken := ?_ }
    · exact fun q hq => List.mem_cons_of_mem _ (h.seen q hq)
    · simpa [expanded] using h.started
    · simpa [expanded, received] using h.taken
  · simp only [hmeet]
    refine { h with
      sound := h.sound.meet _ _, batch := hrest, found := ?_, seen := ?_, nodup := ?_
      started := ?_, taken := ?_, pending := ?_ }
    · exact List.append_subset.mpr ⟨h.found, by simpa using hp⟩
    · intro q hq
      rw [← List.cons_append, List.mem_append, List.mem_singleton] at hq
      rcases hq with hq | rfl
      · exact List.mem_cons_of_mem _ (h.seen q hq)
      · exact List.mem_cons_self
    · rw [← List.cons_append, List.map_append, List.nodup_append]
      refine ⟨h.nodup, by simp, ?_⟩
      intro c hc d hd heq
      obtain ⟨q, hq, rfl⟩ := List.mem_map.mp hc
      simp only [List.map_cons, List.map_nil, List.mem_singleton] at hd
      exact hnew (hd ▸ heq ▸ h.seen q hq)
    · have hexpanded : expanded (actions ++ [.meet p]) = expanded actions := by simp [expanded]
      rw [hexpanded, ← List.append_assoc, ← List.cons_append]
      exact h.started.append_right [p]
    · simpa [expanded, received] using h.taken
    · have hpending := h.pending
      simp only [State.outstanding, List.length_append, List.length_map, List.length_cons,
        List.length_nil] at hpending ⊢
      omega

end Steps

theorem step {action : Action} (h : Accounts index seed actions s) (step : Step crew s action t) :
    Accounts index seed (actions ++ [action]) t := by
  cases step with
  | take _ waiting _ => exact h.take waiting
  | work busy => exact h.work busy
  | finish busy => exact h.finish busy
  | receive _ _ arrived => exact h.receive arrived
  | meet busy => exact h.meet busy

section Balance

variable (h : Accounts index seed actions s)
include h

/-- What was started is what was received and what is outstanding. -/
theorem balance : (seed :: s.walk.found).Perm (received actions ++ s.outstanding) := by
  refine h.started.trans ((h.taken.append_right _).trans ?_)
  simp only [State.outstanding, List.append_assoc]
  refine List.Perm.append_left _ ?_
  rw [← List.append_assoc (s.mail.map Prod.fst)]
  exact List.perm_append_comm.trans (List.perm_append_comm.append_left _)

theorem outstanding_subset : s.outstanding ⊆ seed :: s.walk.found :=
  fun _ hp => h.balance.mem_iff.mpr (List.mem_append_right _ hp)

theorem found_nodup : s.walk.found.Nodup :=
  List.Nodup.of_map Path.components (List.nodup_cons.mp h.nodup).2

theorem expanded_nodup : ((expanded actions).map Path.components).Nodup := by
  have hstarted := (h.started.map Path.components).nodup_iff.mp h.nodup
  rw [List.map_append] at hstarted
  exact hstarted.of_append_left

/-- One expansion for the seed and one for each indexed path is all that is ever started. -/
theorem started_length_le : (received actions).length + s.outstanding.length ≤
    1 + (index.paths.map Path.components).dedup.length := by
  have hreceived := h.balance.length_eq
  have hnodup : (s.walk.found.map Path.components).Nodup := (List.nodup_cons.mp h.nodup).2
  have hfound : s.walk.found.map Path.components ⊆ (index.paths.map Path.components).dedup := by
    intro c hc
    exact List.mem_dedup.mpr (List.map_subset _ h.found hc)
  have hle := (hnodup.subperm hfound).length_le
  simp only [List.length_cons, List.length_append, List.length_map] at hreceived hle
  omega

theorem outstanding_of_finished (finished : s.Finished) : s.outstanding = [] :=
  List.length_eq_zero_iff.mp (h.pending.symm.trans finished.2)

/-- As long as the search is not finished somebody can move. -/
theorem exists_step (crew : Crew ρ) (unfinished : ¬ s.Finished) :
    ∃ action t, Step crew s action t := by
  cases hbatch : s.batch with
  | cons p rest => exact ⟨_, _, .meet hbatch⟩
  | nil =>
    have hwaits : s.walk.pending ≠ 0 := fun hzero => unfinished ⟨hbatch, hzero⟩
    cases hmail : s.mail with
    | cons e rest => exact ⟨_, _, .receive hbatch hwaits hmail⟩
    | nil =>
      cases hrunning : s.running with
      | cons e rest =>
        obtain ⟨p, job⟩ := e
        cases job with
        | done answer =>
          have hsplit : s.running = [] ++ (p, .done answer) :: rest := hrunning
          exact ⟨_, _, .finish hsplit⟩
        | access change next =>
          have hsplit : s.running = [] ++ (p, .access change next) :: rest := hrunning
          exact ⟨_, _, .work hsplit⟩
      | nil =>
        have hqueue : 0 < s.walk.queue.length := by
          have hpending := h.pending
          simp only [State.outstanding, hmail, hrunning, List.map_nil, List.append_nil] at hpending
          omega
        obtain ⟨p, hp⟩ := List.exists_mem_of_length_pos hqueue
        exact ⟨_, _, .take (by simp [hrunning]) hp (Set.mem_insert _ _)⟩

theorem not_step (finished : s.Finished) (action : Action) (t : State ρ) :
    ¬ Step crew s action t := by
  have hnone := h.outstanding_of_finished finished
  simp only [State.outstanding, List.append_eq_nil_iff, List.map_eq_nil_iff] at hnone
  obtain ⟨⟨hqueue, hrunning⟩, -⟩ := hnone
  intro step
  cases step with
  | take _ waiting _ => simp [hqueue] at waiting
  | work busy => simp [hrunning] at busy
  | finish busy => simp [hrunning] at busy
  | receive _ waits _ => exact waits finished.2
  | meet busy => simp [finished.1] at busy

theorem finished_iff : s.Finished ↔ ∀ action t, ¬ Step crew s action t := by
  constructor
  · exact fun finished => h.not_step finished
  · intro stuck
    by_contra unfinished
    obtain ⟨action, t, step⟩ := h.exists_step crew unfinished
    exact stuck action t step

end Balance

end Accounts

/-- The accounts are in order after every run. -/
theorem Run.accounts {report : ρ} {session : Session}
    (run : Run crew (crew.start seed report session) actions s) :
    Accounts (crew.bench.prepare crew.root session).1 seed actions s := by
  induction run with
  | nil => exact Accounts.start crew seed report session
  | snoc _ step ih => exact ih.step step

section Termination

/-- The work that a search has left. Meeting a new path adds to the queue, but there is one path less
to meet; taking up an expansion adds a job, but shortens the queue; and so on to the paths of the
last result. -/
def State.load (index : NameIndex) (s : State ρ) : ℕ × ℕ × Multiset (Job (List Path)) × ℕ × ℕ :=
  ((index.paths.filter fun p => p.components ∉ s.walk.seen).length, s.walk.queue.length,
    s.running.map Prod.snd, s.mail.length, s.batch.length)

theorem unmet_cons_lt {paths : List Path} {seen : List (List Component)} (hp : p ∈ paths)
    (hnew : p.components ∉ seen) :
    (paths.filter fun q => q.components ∉ p.components :: seen).length <
      (paths.filter fun q => q.components ∉ seen).length := by
  have hsplit : (paths.filter fun q => q.components ∉ p.components :: seen) =
      (paths.filter fun q => q.components ∉ seen).filter fun q => q.components ≠ p.components := by
    rw [List.filter_filter]
    congr 1
    funext q
    simp [not_or]
  rw [hsplit]
  refine List.length_filter_lt_length_iff_exists.mpr ⟨p, ?_, by simp⟩
  simpa using ⟨hp, hnew⟩

def Lighter : ℕ × ℕ × Multiset (Job (List Path)) × ℕ × ℕ →
    ℕ × ℕ × Multiset (Job (List Path)) × ℕ × ℕ → Prop :=
  Prod.Lex (· < ·) (Prod.Lex (· < ·)
    (Prod.Lex (Relation.CutExpand Job.Rest) (Prod.Lex (· < ·) (· < ·))))

theorem lighter_wf : WellFounded Lighter :=
  WellFounded.prod_lex wellFounded_lt <| WellFounded.prod_lex wellFounded_lt <|
    WellFounded.prod_lex Job.rest_wf.cutExpand <| WellFounded.prod_lex wellFounded_lt wellFounded_lt

theorem Accounts.lighter {action : Action} (h : Accounts index seed actions s)
    (step : Step crew s action t) : Lighter (t.load index) (s.load index) := by
  cases step with
  | @take p _ _ waiting _ =>
    refine .right _ (.left _ _ ?_)
    have hpos := List.length_pos_of_mem waiting
    simp only [List.length_erase_of_mem waiting]
    omega
  | @work p change next front back busy =>
    refine .right _ (.right _ (.left _ _ ?_))
    simp only [busy, List.map_append, List.map_cons, ← Multiset.coe_add, ← Multiset.cons_coe]
    refine (Relation.cutExpand_add_left _).mpr ?_
    rw [← Multiset.singleton_add, ← Multiset.singleton_add]
    exact Relation.cutExpand_single_add (.access change next s.session) _
  | @finish p answer front back busy =>
    refine .right _ (.right _ (.left _ _ ?_))
    simp only [busy, List.map_append, List.map_cons, ← Multiset.coe_add, ← Multiset.cons_coe]
    refine (Relation.cutExpand_add_left _).mpr ?_
    exact ⟨0, .done answer, by simp, by simp [add_comm]⟩
  | @receive p result rest _ _ arrived =>
    refine .right _ (.right _ (.right _ (.left _ _ ?_)))
    simp [arrived]
  | @meet p rest busy =>
    have hp : p ∈ index.paths := h.batch (by simp [busy])
    obtain ⟨-, hmeet⟩ | ⟨-, hnew, hmeet⟩ := Walk.meet_cases crew.reporter crew.root s.walk p
    · simp only [State.load, hmeet]
      refine .right _ (.right _ (.right _ (.right _ ?_)))
      simp [busy]
    · -- The queue may have grown, so only the first component can tell.
      have hseen : (s.walk.meet crew.reporter crew.root p).seen = p.components :: s.walk.seen := by
        obtain ⟨_, -, hmeet⟩ | ⟨-, hmeet⟩ := hmeet <;> rw [hmeet]
      refine .left _ _ ?_
      simp only [hseen]
      exact unmet_cons_lt hp hnew

/-- Every run from the start ends, at the goal if every finished run is there. -/
theorem ends {goal : State ρ → Prop} {report : ρ} {session : Session}
    (last : ∀ actions s, Run crew (crew.start seed report session) actions s → s.Finished → goal s) :
    Ends crew goal (crew.start seed report session) := by
  obtain ⟨index, hindex⟩ : ∃ index, index = (crew.bench.prepare crew.root session).1 := ⟨_, rfl⟩
  have main : ∀ s actions, Run crew (crew.start seed report session) actions s →
      Ends crew goal s := by
    intro s
    induction s using (InvImage.wf (State.load (ρ := ρ) index) lighter_wf).induction with
    | _ s ih =>
      intro actions run
      have haccounts := run.accounts
      rw [← hindex] at haccounts
      refine ⟨fun action t step => ih t (haccounts.lighter step) _ (run.snoc step), fun stuck => ?_⟩
      have hfinished := haccounts.finished_iff.mpr stuck
      exact ⟨hfinished, last actions s run hfinished⟩
  exact main _ _ .nil

end Termination

end BlobCensus.Crew
