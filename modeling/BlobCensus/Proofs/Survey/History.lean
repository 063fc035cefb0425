import Mathlib
import BlobCensus.Survey
import BlobCensus.Proofs.Closure.Course

/-!
# Histories

A session outlives the work that is done in it: what it has settled and indexed is there for the next
request, also if the work before broke down half way. With steady tools and one spelling for each path
that makes no difference: every request is answered as in a session where nothing was done before.
-/
namespace BlobCensus

namespace Session

variable {α β : Type} {inv : Session → Prop}

/-- The answers to requests that are served one after the other in a session. -/
def answers (serve : α → Session → β × Session) : List α → Session → List β
  | [], _ => []
  | request :: rest, s =>
    let (answer, s) := serve request s
    answer :: answers serve rest s

/-- A request has the same answer in all sessions with `inv`, and serving it keeps `inv`. -/
def Steady (inv : Session → Prop) (serve : Session → β × Session) : Prop :=
  ∃ answer, ∀ s, inv s → (serve s).1 = answer ∧ inv (serve s).2

theorem steady_runIn {job : Job α} {answer : Except Breakdown α} (h : Job.Answers inv job answer)
    (tell : Except Breakdown α → β) :
    Steady inv fun s => (tell (job.runIn s).1, (job.runIn s).2) := by
  refine ⟨tell answer, fun s hs => ?_⟩
  have hrun := h.runIn hs
  exact ⟨congrArg tell hrun.2, hrun.1⟩

theorem answers_of_steady {serve : α → Session → β × Session} {requests : List α} {s : Session}
    (fresh : inv {}) (hs : inv s) (steady : ∀ request ∈ requests, Steady inv (serve request)) :
    answers serve requests s = requests.map fun request => (serve request {}).1 := by
  induction requests generalizing s with
  | nil => rfl
  | cons request rest ih =>
    obtain ⟨answer, hanswer⟩ := steady request List.mem_cons_self
    have hnow := hanswer s hs
    have hrest := ih hnow.2 fun other hother => steady other (List.mem_cons_of_mem _ hother)
    change (serve request s).1 :: answers serve rest (serve request s).2 = _
    rw [List.map_cons, hrest, hnow.1, (hanswer {} fresh).1]

end Session

namespace Workbench

open Session

variable {ρ : Type} {w : Workbench} {root : Path} {play : List Path}

/-- What can be asked of a bench about the files under a root. -/
inductive Request (ρ : Type) where
  | expand (p : Path)
  | resolve (library : String) (wanted : Architecture)
  | search (seed : Path) (report : ρ)

def Request.path? : Request ρ → Option Path
  | expand p => some p
  | resolve _ _ => none
  | search seed _ => some seed

inductive Reply (ρ : Type) where
  | files (found : Except Breakdown (List Path))
  | closure (outcome : Except Failure Closure) (report : ρ)
  deriving DecidableEq

def serve (w : Workbench) (reporter : Reporter ρ) (root : Path) :
    Request ρ → Session → Reply ρ × Session
  | .expand p, s =>
    let (found, s) := (w.expand root p).runIn s
    (.files found, s)
  | .resolve library wanted, s =>
    let (found, s) := (w.resolve root library wanted).runIn s
    (.files found, s)
  | .search seed report, s =>
    let (outcome, report, s) := w.closure reporter root seed report s
    (.closure outcome report, s)

theorem serve_steady (spelling : Path.OneSpelling play)
    (listed : w.inspector.listFiles root ⊆ play) (reporter : Reporter ρ) {request : Request ρ}
    (named : ∀ p, request.path? = some p → p ∈ play) :
    Steady (Faithful w root play) (w.serve reporter root request) := by
  cases request with
  | expand p => exact steady_runIn (expand_answers spelling listed (named p rfl)) Reply.files
  | resolve library wanted =>
    exact steady_runIn (resolve_answers spelling listed library wanted) Reply.files
  | search seed report =>
    refine ⟨.closure ((w.course reporter root seed report).outcome seed)
      (w.course reporter root seed report).report, fun s hs => ?_⟩
    obtain ⟨t, ht, hclosure⟩ :=
      closure_eq_course spelling listed hs reporter report (named seed rfl)
    simp only [serve, hclosure]
    exact ⟨trivial, ht⟩

end Workbench

namespace Survey

open Session

variable {ρ : Type} {survey : Survey} {inspector : Inspector} {play : List Path}

/-- What can be asked of a survey. -/
inductive Question (ρ : Type) where
  | inventory
  | tree
  | usage
  | closure (seed : Path) (report : ρ)

def Question.file? (survey : Survey) (disk : Disk) : Question ρ → Option Path
  | closure seed _ => (survey.seedFile disk seed).toOption
  | _ => none

inductive Answer (ρ : Type) where
  | inventory (stock : Except Breakdown Inventory)
  | tree (graph : Except Breakdown Graph)
  | usage (ranking : Except Breakdown (List (String × ℕ)))
  | closure (outcome : Except Failure Closure) (report : ρ)

/-- Answers a question with one worker. -/
def ask (survey : Survey) (disk : Disk) (inspector : Inspector) (reporter : Reporter ρ) :
    Question ρ → Session → Answer ρ × Session
  | .inventory, s =>
    let (stock, s) := (survey.inventory inspector).runIn s
    (.inventory stock, s)
  | .tree, s =>
    let (graph, s) := (survey.tree inspector).runIn s
    (.tree graph, s)
  | .usage, s =>
    let (ranking, s) := (survey.usage inspector).runIn s
    (.usage ranking, s)
  | .closure seed report, s =>
    let (outcome, report, s) := survey.closure disk inspector reporter seed report s
    (.closure outcome report, s)

section Steady

variable (spelling : Path.OneSpelling play) (listed : inspector.listFiles survey.root ⊆ play)
include spelling listed

theorem inventory_answers :
    Job.Answers (Faithful (survey.bench inspector) survey.root play) (survey.inventory inspector)
      ((survey.bench inspector).stockOf ((inspector.listFiles survey.root).mergeSort Path.le)) := by
  have hsorted : (inspector.listFiles survey.root).mergeSort Path.le ⊆ play := by
    intro p hp
    exact listed ((List.mergeSort_perm _ _).subset hp)
  refine Job.ensures_modify_bind (fun s hs => hs.note _) ?_
  exact Workbench.scanAll_answers spelling (survey.bench inspector) survey.root hsorted

theorem ask_steady (disk : Disk) (reporter : Reporter ρ) {question : Question ρ}
    (named : ∀ file, question.file? survey disk = some file → file ∈ play) :
    Steady (Faithful (survey.bench inspector) survey.root play)
      (survey.ask disk inspector reporter question) := by
  have hinventory := inventory_answers spelling listed
  cases question with
  | inventory => exact steady_runIn hinventory Answer.inventory
  | tree =>
    exact steady_runIn
      (hinventory.bind fun stock _ => Job.answers_pure _ (draft stock).build) Answer.tree
  | usage =>
    exact steady_runIn
      (hinventory.bind fun stock _ => Job.answers_pure _ (Usage.ranking stock.blobs)) Answer.usage
  | closure seed report =>
    cases hfile : survey.seedFile disk seed with
    | error reason =>
      refine ⟨.closure (.error reason) report, fun s hs => ?_⟩
      simp only [ask, closure, hfile]
      exact ⟨trivial, hs⟩
    | ok file =>
      have hplay : file ∈ play := named file (by simp [Question.file?, hfile, Except.toOption])
      let course := (survey.bench inspector).course reporter survey.root file report
      refine ⟨.closure (course.outcome file) course.report, fun s hs => ?_⟩
      obtain ⟨t, ht, hclosure⟩ :=
        Workbench.closure_eq_course spelling listed hs.reindex reporter report hplay
      simp only [ask, closure, hfile, hclosure]
      exact ⟨rfl, ht⟩

end Steady

end Survey

namespace Session

variable {ρ : Type}

/-- What was done before in a session never shows in an answer: neither among the questions put to a
survey, whose closures make their index anew, nor among the requests to a bench, whose index stays.
Tools may break down, at any time in the work on a request, as long as they are steady. -/
theorem answers_eq_fresh (reporter : Reporter ρ) :
    (∀ (survey : Survey) (disk : Disk) (inspector : Inspector)
        (questions : List (Survey.Question ρ)),
      Path.OneSpelling (inspector.listFiles survey.root ++
        questions.filterMap (Survey.Question.file? survey disk)) →
      answers (survey.ask disk inspector reporter) questions {} =
        questions.map fun question => (survey.ask disk inspector reporter question {}).1) ∧
    (∀ (w : Workbench) (root : Path) (requests : List (Workbench.Request ρ)),
      Path.OneSpelling (w.inspector.listFiles root ++
        requests.filterMap Workbench.Request.path?) →
      answers (w.serve reporter root) requests {} =
        requests.map fun request => (w.serve reporter root request {}).1) := by
  constructor
  · intro survey disk inspector questions spelling
    have hfresh := Faithful.fresh (survey.bench inspector) survey.root
      (inspector.listFiles survey.root ++ questions.filterMap (Survey.Question.file? survey disk))
    refine answers_of_steady hfresh hfresh fun question hquestion => ?_
    apply Survey.ask_steady spelling (List.subset_append_left _ _)
    intro file hfile
    exact List.mem_append_right _ (List.mem_filterMap.mpr ⟨question, hquestion, hfile⟩)
  · intro w root requests spelling
    have hfresh := Faithful.fresh w root
      (w.inspector.listFiles root ++ requests.filterMap Workbench.Request.path?)
    refine answers_of_steady hfresh hfresh fun request hrequest => ?_
    apply Workbench.serve_steady spelling (List.subset_append_left _ _)
    intro p hp
    exact List.mem_append_right _ (List.mem_filterMap.mpr ⟨request, hrequest, hp⟩)

section BreakingDown

def breakdownFirst : Path := .ofString "/a.so"

def breakdownSecond : Path := .ofString "/b.so"

def breakdownLast : Path := .ofString "/c.so"

def breakdownSurvey : Survey :=
  ⟨.ofString "/", { ignoredLibraries := [], nonBinaryExtensions := [] }, .content⟩

def breakdownTools : Inspector :=
  { listFiles := fun _ => [breakdownLast, breakdownFirst, breakdownSecond]
    describe := fun p => if p = breakdownLast then .error ⟨⟩ else .ok "ELF 64-bit"
    texts := fun p => .ok [if p = breakdownFirst then "b.so" else "%s.so"] }

def breakdownDisk : Disk :=
  { tree := .file (Utf8.encode "a.so") [] (.file (Utf8.encode "b.so") []
      (.file (Utf8.encode "c.so") [] .empty)) }

def breakdownQuestions : List (Survey.Question Collection) :=
  [.inventory, .closure (.ofString "a.so") {}, .inventory, .closure (.ofString "a.so") {}]

def breakdownRequests : List (Workbench.Request Collection) :=
  [.expand breakdownSecond, .search breakdownFirst {}, .expand breakdownSecond, .search breakdownFirst {}]

def breakdownReport : Collection := { records := [.path (.ofString "b.so")] }

def breakdownSession : Session :=
  { index := some
      ⟨[("a.so", [breakdownFirst]), ("b.so", [breakdownSecond]), ("c.so", [breakdownLast])]⟩ }

theorem faithful_breakdownSession (play : List Path) :
    breakdownSession.Faithful (breakdownSurvey.bench breakdownTools) breakdownSurvey.root play := by
  exact .indexed (breakdownSurvey.bench breakdownTools) breakdownSurvey.root _ (by cbv)

theorem serve_breakdown {request : Workbench.Request Collection}
    (spelling : Path.OneSpelling (breakdownTools.listFiles breakdownSurvey.root ++ request.path?.toList)) :
    ((breakdownSurvey.bench breakdownTools).serve Collection.reporter breakdownSurvey.root request {}).1 =
      ((breakdownSurvey.bench breakdownTools).serve Collection.reporter breakdownSurvey.root request
        breakdownSession).1 := by
  have hnamed : ∀ p, request.path? = some p →
      p ∈ breakdownTools.listFiles breakdownSurvey.root ++ request.path?.toList := by
    intro p hp
    simp [hp]
  obtain ⟨answer, hanswer⟩ := Workbench.serve_steady (w := breakdownSurvey.bench breakdownTools) spelling
    (List.subset_append_left _ _) Collection.reporter hnamed
  rw [(hanswer {} (.fresh _ _ _)).1, (hanswer _ (faithful_breakdownSession _)).1]

/-- The inventory and the expansion of the second file break down. What they settled before that, and
the index, change no later answer. -/
theorem answers_eq_fresh_breakdown :
    Path.OneSpelling (breakdownTools.listFiles breakdownSurvey.root ++
      breakdownQuestions.filterMap (Survey.Question.file? breakdownSurvey breakdownDisk)) ∧
    Path.OneSpelling (breakdownTools.listFiles breakdownSurvey.root ++
      breakdownRequests.filterMap Workbench.Request.path?) ∧
    answers (breakdownSurvey.ask breakdownDisk breakdownTools Collection.reporter) breakdownQuestions {} =
      [.inventory (.error ⟨⟩), .closure (.ok ⟨breakdownFirst, [breakdownSecond]⟩) breakdownReport,
        .inventory (.error ⟨⟩), .closure (.ok ⟨breakdownFirst, [breakdownSecond]⟩) breakdownReport] ∧
    answers ((breakdownSurvey.bench breakdownTools).serve Collection.reporter breakdownSurvey.root)
        breakdownRequests {} =
      [.files (.error ⟨⟩), .closure (.ok ⟨breakdownFirst, [breakdownSecond]⟩) breakdownReport,
        .files (.error ⟨⟩), .closure (.ok ⟨breakdownFirst, [breakdownSecond]⟩) breakdownReport] := by
  have hsurvey : Path.OneSpelling (breakdownTools.listFiles breakdownSurvey.root ++
      breakdownQuestions.filterMap (Survey.Question.file? breakdownSurvey breakdownDisk)) := by decide +kernel
  have hbench : Path.OneSpelling (breakdownTools.listFiles breakdownSurvey.root ++
      breakdownRequests.filterMap Workbench.Request.path?) := by decide
  have hexpand : ((breakdownSurvey.bench breakdownTools).serve Collection.reporter breakdownSurvey.root
      (.expand breakdownSecond) {}).1 = .files (.error ⟨⟩) := by
    rw [serve_breakdown (by decide)]
    decide +kernel
  have hsearch : ((breakdownSurvey.bench breakdownTools).serve Collection.reporter breakdownSurvey.root
      (.search breakdownFirst {}) {}).1 =
      .closure (.ok ⟨breakdownFirst, [breakdownSecond]⟩) breakdownReport := by
    rw [serve_breakdown (by decide)]
    decide +kernel
  have hinventory : (breakdownSurvey.ask breakdownDisk breakdownTools Collection.reporter .inventory {}).1 =
      .inventory (.error ⟨⟩) := by
    have hsorted : (breakdownTools.listFiles breakdownSurvey.root).mergeSort Path.le =
        [breakdownFirst, breakdownSecond, breakdownLast] := by cbv
    simp only [Survey.ask, Survey.inventory, hsorted]
    rfl
  have hclosure : (breakdownSurvey.ask breakdownDisk breakdownTools Collection.reporter
      (.closure (.ofString "a.so") {}) {}).1 =
      .closure (.ok ⟨breakdownFirst, [breakdownSecond]⟩) breakdownReport := by
    have hfile : breakdownSurvey.seedFile breakdownDisk (.ofString "a.so") = .ok breakdownFirst := by
      decide +kernel
    have hparts := Workbench.Reply.closure.inj hsearch
    simp only [Survey.ask, Survey.closure, hfile]
    exact congrArg₂ Survey.Answer.closure hparts.1 hparts.2
  obtain ⟨hquestions, hrequests⟩ := answers_eq_fresh Collection.reporter
  refine ⟨hsurvey, hbench, ?_, ?_⟩
  · rw [hquestions _ _ _ _ hsurvey]
    simp only [breakdownQuestions, List.map_cons, List.map_nil, hinventory, hclosure]
  · rw [hrequests _ _ _ hbench]
    simp only [breakdownRequests, List.map_cons, List.map_nil, hexpand, hsearch]

end BreakingDown

end Session

end BlobCensus
