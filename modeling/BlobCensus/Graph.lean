import BlobCensus.Blob
import Std.Data.HashMap

/-!
# Dependency graphs

A graph has one record per blob name, in the order the names came. A `Draft` is a graph that is
still being built: blobs of one name are merged, and `Draft.fold` takes every blob that another
one depends on into that other one.
-/
namespace BlobCensus

/-- A set of architectures. -/
structure Widths where
  has32 : Bool := false
  has64 : Bool := false
  hasUnknown : Bool := false
  deriving DecidableEq, Repr

namespace Widths

def contains (w : Widths) : Architecture → Bool
  | .bits32 => w.has32
  | .bits64 => w.has64
  | .unknown => w.hasUnknown

def insert (w : Widths) : Architecture → Widths
  | .bits32 => { w with has32 := true }
  | .bits64 => { w with has64 := true }
  | .unknown => { w with hasUnknown := true }

def toList (w : Widths) : List Architecture :=
  [Architecture.bits32, .bits64, .unknown].filter w.contains

end Widths

structure BlobRecord where
  name : String
  dependencies : List String
  widths : Widths
  deriving DecidableEq, Repr

structure Graph where
  records : List BlobRecord
  deriving DecidableEq, Repr

namespace Graph

def names (g : Graph) : List String := g.records.map BlobRecord.name

def size (g : Graph) : Nat := g.records.length

def isEmpty (g : Graph) : Bool := g.records.isEmpty

def get? (g : Graph) (name : String) : Option BlobRecord := g.records.find? (·.name == name)

def contains (g : Graph) (name : String) : Bool := (g.get? name).isSome

/-- Adds to a list each of the names that it does not hold yet. -/
def union (names more : List String) : List String :=
  more.foldl (fun acc n => if acc.contains n then acc else acc ++ [n]) names

/-- A graph that is being built. The index tells the place of each name. -/
structure Draft where
  records : Array BlobRecord := #[]
  index : Std.HashMap String Nat := ∅

namespace Draft

def contains (d : Draft) (name : String) : Bool := d.index.contains name

def update (d : Draft) (place : Nat) (change : BlobRecord → BlobRecord) : Draft :=
  { d with records := d.records.modify place change }

/-- Adds a blob. A blob of unknown architecture is dropped, one of a known name adds its
architecture and the dependencies that are new. Tells whether the name was new. -/
def add (d : Draft) (b : Blob) : Bool × Draft :=
  if !b.isKnown then (false, d)
  else
    match d.index[b.name]? with
    | some place =>
      (false, d.update place fun r =>
        { r with
          dependencies := union r.dependencies b.dependencies
          widths := r.widths.insert b.architecture })
    | none =>
      (true,
        { records := d.records.push ⟨b.name, b.dependencies, Widths.insert {} b.architecture⟩
          index := d.index.insert b.name d.records.size })

/-- Adds the architecture of a blob that was not scanned. Tells whether it was new for its
name. -/
def merge (d : Draft) (name : String) (a : Architecture) : Bool × Draft :=
  if !a.isKnown then (false, d)
  else
    match d.index[name]? with
    | some place =>
      let isNew := (d.records[place]?).any fun r => !r.widths.contains a
      (isNew, d.update place fun r => { r with widths := r.widths.insert a })
    | none => (false, d)

def indexOf (records : Array BlobRecord) : Std.HashMap String Nat :=
  (records.toList.zipIdx).foldl (fun index (r, place) => index.insert r.name place) ∅

structure Slot where
  record : BlobRecord
  removed : Bool := false
  deriving DecidableEq, Repr

def Slot.dependsOn (s : Slot) (name : String) : Bool :=
  !s.removed && s.record.dependencies.contains name

/-- What becomes of slot number `i` when `blob`, at `place`, is taken into the records that depend on
it: its own slot goes, and the others get its dependencies. -/
def Slot.afterTaking (place : Nat) (blob : BlobRecord) (i : Nat) (s : Slot) : Slot :=
  if i = place then { s with removed := true }
  else if s.dependsOn blob.name then
    { s with record.dependencies := union s.record.dependencies blob.dependencies }
  else s

/-- Takes the blob at `place` into every other record that depends on it, and removes it if there
is one. -/
def absorb (slots : List Slot) (place : Nat) : List Slot :=
  match slots[place]? with
  | none => slots
  | some slot =>
    if slot.removed then slots
    else
      let takers := slots.zipIdx.filter fun (s, i) => i != place && s.dependsOn slot.record.name
      if takers.isEmpty then slots else slots.mapIdx (Slot.afterTaking place slot.record)

def foldPass (records : List BlobRecord) : List Slot :=
  (List.range records.length).foldl absorb (records.map fun r => { record := r })

def survivors (slots : List Slot) : List BlobRecord :=
  (slots.filter fun s => !s.removed).map Slot.record

/-- Repeats passes of folding until one removes nothing, and counts what they remove. A pass that
removes something leaves fewer records, so `fuel` passes suffice for `fuel` records. -/
def foldPasses : Nat → List BlobRecord → Nat × List BlobRecord
  | 0, records => (0, records)
  | fuel + 1, records =>
    let slots := foldPass records
    let gone := slots.countP Slot.removed
    if gone = 0 then (0, records)
    else
      let (more, rest) := foldPasses fuel (survivors slots)
      (gone + more, rest)

/-- Folds every blob that another blob depends on into that other blob: its dependencies are added
to those of the other, and its own record goes. Tells how many blobs went. -/
def fold (d : Draft) : Nat × Draft :=
  let (gone, records) := foldPasses d.records.size d.records.toList
  if gone = 0 then (0, d)
  else (gone, { records := records.toArray, index := indexOf records.toArray })

def toGraph (d : Draft) : Graph := ⟨d.records.toList⟩

def build (d : Draft) : Graph := d.fold.2.toGraph

def ofBlobs (blobs : List Blob) : Draft := blobs.foldl (fun d b => (d.add b).2) {}

end Draft

end Graph

end BlobCensus
