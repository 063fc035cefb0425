import BlobCensus.Failure
import BlobCensus.Graph
import BlobCensus.Json

/-!
# Reports

A report is made of records, handed to a reporter that may refuse them. Printed, graphs and rankings are
JSON documents and closure paths stand one a line, in a sink that may fill up or refuse to be flushed.
-/
namespace BlobCensus

inductive Record where
  | graph (graph : Graph)
  | ranking (ranking : List (String × Nat))
  /-- A member of a closure, relative to the root. -/
  | path (path : Path)
  deriving DecidableEq, Repr

structure Reporter (ρ : Type) where
  emit : Record → ρ → Except Failure Unit × ρ

/-- Keeps records in memory, at most `room` of them if that is given. -/
structure Collection where
  room : Option Nat := none
  records : List Record := []
  deriving DecidableEq, Repr

namespace Collection

def reporter : Reporter Collection where
  emit record kept :=
    if kept.room.any (· ≤ kept.records.length) then
      (.error (.write (.refused "reporter closed")), kept)
    else (.ok (), { kept with records := kept.records ++ [record] })

def paths (kept : Collection) : List Path :=
  kept.records.filterMap fun
    | .path p => some p
    | _ => none

end Collection

structure Sink where
  kept : List UInt8 := []
  room : Option Nat := none
  badFlush : Bool := false
  deriving DecidableEq, Repr

namespace Sink

/-- Writes bytes. Those that fit are kept even if not all do. -/
def write (bytes : List UInt8) (sink : Sink) : Except IoCause Unit × Sink :=
  match sink.room with
  | none => (.ok (), { sink with kept := sink.kept ++ bytes })
  | some room =>
    let rest := { sink with
      kept := sink.kept ++ bytes.take room
      room := some (room - bytes.length) }
    if bytes.length ≤ room then (.ok (), rest) else (.error (.refused "writer full"), rest)

def flush (sink : Sink) : Except IoCause Unit :=
  if sink.badFlush then .error (.refused "flush refused") else .ok ()

end Sink

namespace Graph

def toJson (g : Graph) : Json :=
  .object <| g.records.map fun r =>
    (r.name, .object
      [("dependencies", .list (r.dependencies.map .text)),
       ("architectures", .list (r.widths.toList.map fun a => .text a.tag))])

end Graph

namespace Usage

def toJson (ranking : List (String × Nat)) : Json :=
  .list <| ranking.map fun (library, count) => .list [.text library, .number count]

end Usage

namespace Record

/-- The JSON document of a record and what stands after it on its line. A path has no document. -/
def printed (layout : Json.Layout) : Record → Option String × String
  | graph g => (some (g.toJson.render layout), "\n")
  | ranking r => (some ((Usage.toJson r).render layout), "\n")
  | path p => (none, p.display ++ "\n")

end Record

namespace Printer

def writeDocument (document : Option String) (sink : Sink) : Except Failure Unit × Sink :=
  match document with
  | none => (.ok (), sink)
  | some text =>
    let (result, sink) := sink.write (Utf8.encode text)
    (result.mapError .document, sink)

def writeLine (line : String) (sink : Sink) : Except Failure Unit × Sink :=
  let (result, sink) := sink.write (Utf8.encode line)
  match result with
  | .error cause => (.error (.write cause), sink)
  | .ok () => (sink.flush.mapError .write, sink)

def emit (layout : Json.Layout) (record : Record) (sink : Sink) : Except Failure Unit × Sink :=
  let (document, line) := record.printed layout
  match writeDocument document sink with
  | (.error reason, sink) => (.error reason, sink)
  | (.ok (), sink) => writeLine line sink

def reporter (layout : Json.Layout) : Reporter Sink := ⟨emit layout⟩

end Printer

end BlobCensus
