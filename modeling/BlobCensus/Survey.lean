import BlobCensus.Closure
import BlobCensus.Inspection
import BlobCensus.Blob

/-!
# Surveys

A survey of one directory: its inventory, its dependency graph, the usage of libraries, and the
closure of a seed.
-/
namespace BlobCensus

structure Survey where
  root : Path
  settings : Settings
  strategy : Strategy
  deriving DecidableEq, Repr

inductive Mode where
  | tree
  | usage
  | closure (seed : Path)
  deriving DecidableEq, Repr

namespace Survey

def ofRoot (disk : Disk) (root : Path) (settings : Settings) (strategy : Strategy) :
    Except Failure Survey := do
  let place ← (disk.canonical root).mapError (.unreadable root)
  if disk.isDirectory place then return ⟨place, settings, strategy⟩
  else .error (.rootNotDirectory place)

def bench (survey : Survey) (inspector : Inspector) : Workbench :=
  ⟨survey.settings, survey.strategy, inspector⟩

def inventory (survey : Survey) (inspector : Inspector) : Job Inventory := do
  modify (·.note (.listed survey.root))
  (survey.bench inspector).scanAll ((inspector.listFiles survey.root).mergeSort Path.le)

def draft (inventory : Inventory) : Graph.Draft :=
  inventory.duplicates.foldl (fun d (name, a) => (d.merge name a).2)
    (Graph.Draft.ofBlobs inventory.blobs)

def tree (survey : Survey) (inspector : Inspector) : Job Graph := do
  return (draft (← survey.inventory inspector)).build

def usage (survey : Survey) (inspector : Inspector) : Job (List (String × Nat)) := do
  return Usage.ranking (← survey.inventory inspector).blobs

def seedFile (survey : Survey) (disk : Disk) (seed : Path) : Except Failure Path :=
  let joined := survey.root.join seed
  match disk.canonical joined with
  | .ok file => if disk.isFile file then .ok file else .error (.seedNotFound joined)
  | .error _ => .error (.seedNotFound joined)

/-- The closure of a seed, with an index made anew. -/
def closure {ρ : Type} (survey : Survey) (disk : Disk) (inspector : Inspector)
    (reporter : Reporter ρ) (seed : Path) (report : ρ) (s : Session) :
    Except Failure Closure × ρ × Session :=
  match survey.seedFile disk seed with
  | .error reason => (.error reason, report, s)
  | .ok file =>
    (survey.bench inspector).closure reporter survey.root file report { s with index := none }

def run {ρ : Type} (survey : Survey) (disk : Disk) (inspector : Inspector)
    (reporter : Reporter ρ) (mode : Mode) (report : ρ) : Job (Except Failure Unit × ρ) := do
  match mode with
  | .tree => return reporter.emit (.graph (← survey.tree inspector)) report
  | .usage => return reporter.emit (.ranking (← survey.usage inspector)) report
  | .closure seed =>
    let (result, report, s) := survey.closure disk inspector reporter seed report (← get)
    set s
    return (result.map fun _ => (), report)

end Survey

end BlobCensus
