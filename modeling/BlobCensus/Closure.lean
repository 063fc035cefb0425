import BlobCensus.Report
import BlobCensus.Workbench

/-!
# Closures

All files that a seed needs, directly or through others. A `Walk` is the state of the search: it
alone decides what is new, reports it, and starts the expansion of each new path. How expansions
come back is left open: `Walk.receive` takes the result of any started expansion. The survey itself
takes them up in the order they were started, so it finds paths breadth first.
-/
namespace BlobCensus

structure Closure where
  seed : Path
  paths : List Path
  deriving DecidableEq, Repr

namespace Closure

def size (c : Closure) : Nat := c.paths.length

def isEmpty (c : Closure) : Bool := c.paths.isEmpty

def contains (c : Closure) (p : Path) : Bool :=
  c.paths.any fun q => q.components == p.components

end Closure

/-- The state of a search whose report is in state `ρ`. What has been met is `seen`, the seed included;
the expansions that are under way are `pending`, and those not yet taken up stand in the `queue`. -/
structure Walk (ρ : Type) where
  seen : List (List Component)
  found : List Path
  queue : List Path
  pending : Nat
  failure : Option Failure
  report : ρ

namespace Walk

variable {ρ : Type}

def start (seed : Path) (report : ρ) : Walk ρ :=
  { seen := [seed.components], found := [], queue := [seed], pending := 1, failure := none, report }

/-- Meets a path in a result: if it is new it is reported, and unless the report refuses it, found
and its expansion started. After a refusal nothing is reported or started any more. -/
def meet (reporter : Reporter ρ) (root : Path) (w : Walk ρ) (p : Path) : Walk ρ :=
  if w.failure.isSome || w.seen.contains p.components then w
  else
    let seen := p.components :: w.seen
    match reporter.emit (.path (Path.relativeTo root p)) w.report with
    | (.error reason, report) => { w with seen, failure := some reason, report }
    | (.ok (), report) =>
      { w with
        seen
        found := w.found ++ [p]
        queue := w.queue ++ [p]
        pending := w.pending + 1
        report }

def receive (reporter : Reporter ρ) (root : Path) (w : Walk ρ) (result : List Path) : Walk ρ :=
  result.foldl (meet reporter root) { w with pending := w.pending - 1 }

def outcome (w : Walk ρ) (seed : Path) : Except Failure Closure :=
  match w.failure with
  | some reason => .error reason
  | none => .ok ⟨seed, w.found⟩

end Walk

namespace Workbench

/-- The result of the expansion of a path, from its answer. If the work broke down the path counts as
a leaf. -/
def resultOf (p : Path) (answer : Except Breakdown (List Path)) (s : Session) :
    List Path × Session :=
  match answer with
  | .ok paths => (paths, s)
  | .error _ => ([], s.note (.brokeDown p))

def expandOrLeaf (w : Workbench) (root p : Path) (s : Session) : List Path × Session :=
  let (answer, s) := (w.expand root p).runIn s
  resultOf p answer s

/-- Receives expansions in the order they were started, at most `fuel` of them. -/
def drain {ρ : Type} (w : Workbench) (reporter : Reporter ρ) (root : Path) :
    Nat → Walk ρ → Session → Walk ρ × Session
  | 0, walk, s => (walk, s)
  | fuel + 1, walk, s =>
    if walk.pending = 0 then (walk, s)
    else
      match walk.queue with
      | [] => (walk, s)
      | p :: queue =>
        let (result, s) := w.expandOrLeaf root p s
        w.drain reporter root fuel (Walk.receive reporter root { walk with queue } result) s

/-- Searches the closure of a seed, reporting each path when it is found. Every path found is
indexed, so as many expansions as there are indexed files and one for the seed suffice. -/
def closure {ρ : Type} (w : Workbench) (reporter : Reporter ρ) (root seed : Path) (report : ρ)
    (s : Session) : Except Failure Closure × ρ × Session :=
  let (index, s) := w.prepare root s
  let (walk, s) := w.drain reporter root (index.size + 1) (Walk.start seed report) s
  (walk.outcome seed, walk.report, s)

end Workbench

end BlobCensus
