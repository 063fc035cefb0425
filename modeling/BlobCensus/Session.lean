import BlobCensus.Architecture
import BlobCensus.NameIndex

/-!
# Sessions

What a survey keeps while it runs: the architectures it has settled, the index of the files it
resolves names in, and a trace of what it did. Work in a session is a `Job`: it may break down
when a tool does, and what it has kept up to that point stays. A job is told by its accesses to the
session, so that the work of several jobs can take turns between any two of them.
-/
namespace BlobCensus

inductive Event where
  | listed (root : Path)
  | described (path : Path)
  | extracted (path : Path)
  | indexed (count : Nat) (root : Path)
  /-- No file has the name of a library. -/
  | missing (library : String)
  /-- Files have the name of a library, but none the architecture. -/
  | noCandidate (architecture : Architecture) (library : String)
  | refusedPattern (pattern : String)
  | brokeDown (path : Path)
  deriving DecidableEq, Repr

inductive Level where
  | debug
  | info
  | warn
  deriving DecidableEq, Repr

namespace Level

def word : Level → String
  | debug => "DEBUG"
  | info => "INFO"
  | warn => "WARN"

end Level

namespace Event

def logLine? : Event → Option (Level × String)
  | listed _ | described _ | extracted _ => none
  | indexed count root => some (.debug, s!"Indexed {count} files under {root.display}")
  | missing library => some (.info, s!"missing: {library}")
  | noCandidate architecture library =>
    some (.debug, s!"No {architecture.tag}-bit candidate for {library}")
  | refusedPattern pattern => some (.warn, s!"Invalid library pattern {pattern}")
  | brokeDown path =>
    some (.warn, s!"Resolution of {path.display} failed; treating it as a leaf")

end Event

structure Memo where
  entries : List (List Component × Architecture) := []
  deriving DecidableEq, Repr

namespace Memo

def find? (memo : Memo) (p : Path) : Option Architecture := memo.entries.lookup p.components

def insert (memo : Memo) (p : Path) (a : Architecture) : Memo :=
  ⟨(p.components, a) :: memo.entries⟩

end Memo

/-- What a survey keeps while it runs. The trace has the latest event first. -/
structure Session where
  memo : Memo := {}
  index : Option NameIndex := none
  trace : List Event := []
  deriving DecidableEq, Repr

namespace Session

def events (s : Session) : List Event := s.trace.reverse

def note (s : Session) (event : Event) : Session := { s with trace := event :: s.trace }

theorem events_note (s : Session) (e : Event) : (s.note e).events = s.events ++ [e] :=
  List.reverse_cons

def settle (s : Session) (p : Path) (a : Architecture) : Session :=
  { s with memo := s.memo.insert p a }

end Session

structure Breakdown where
  deriving DecidableEq, Repr

/-- Work in a session: it has come to its answer, or changes the session and goes on with the one it
found. -/
inductive Job (α : Type) where
  | done (answer : Except Breakdown α)
  | access (change : Session → Session) (next : Session → Job α)

namespace Job

variable {α β : Type}

protected def bind : Job α → (α → Job β) → Job β
  | done (.ok a), f => f a
  | done (.error breakdown), _ => done (.error breakdown)
  | access change next, f => access change fun s => (next s).bind f

instance : Monad Job where
  pure a := done (.ok a)
  bind := Job.bind

instance : MonadStateOf Session Job where
  get := access id pure
  set s := access (fun _ => s) fun _ => pure ()
  modifyGet f := access (fun s => (f s).2) fun s => pure (f s).1

def await (answer : Except Breakdown α) : Job α := done answer

def runIn : Job α → Session → Except Breakdown α × Session
  | done answer, s => (answer, s)
  | access change next, s => (next s).runIn (change s)

end Job

end BlobCensus
