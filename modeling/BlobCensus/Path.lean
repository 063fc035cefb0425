import BlobCensus.Text.Utf8

/-!
# Paths

A path is its text, kept byte for byte. Its meaning is the list of its components: repeated and
trailing slashes and inner dots do not count, `..` stays. Paths are compared, ordered and cut by
components, and shown by their text.
-/
namespace BlobCensus

abbrev Segment := List UInt8

def slash : UInt8 := 0x2F

inductive Component where
  | root
  | here
  | up
  | name (segment : Segment)
  deriving DecidableEq, Repr

namespace Component

def rank : Component → Nat
  | root => 0
  | here => 1
  | up => 2
  | name _ => 3

def segment : Component → Segment
  | name s => s
  | _ => []

protected def compare (a b : Component) : Ordering :=
  (compare a.rank b.rank).then (compare a.segment b.segment)

instance : Ord Component := ⟨Component.compare⟩

/-- What a segment stands for after the first: nothing if it is empty or a dot. -/
def ofSegment? : Segment → Option Component
  | [] => none
  | [0x2E] => none
  | [0x2E, 0x2E] => some up
  | s => some (name s)

end Component

structure Path where
  bytes : List UInt8
  deriving DecidableEq, Repr, Inhabited

namespace Path

def ofString (text : String) : Path := ⟨Utf8.encode text⟩

def display (p : Path) : String := Utf8.decodeLossy p.bytes

def isAbsolute (p : Path) : Bool := p.bytes.head? == some slash

structure Part where
  segment : Segment
  component : Option Component
  deriving DecidableEq, Repr

/-- The segments of the text. Only the first can be the root (before a leading slash) or a
leading dot. -/
def parts (p : Path) : List Part :=
  match p.bytes.splitOn slash with
  | [] => []
  | first :: rest =>
    let meaning :=
      if p.isAbsolute then some .root
      else if first = [0x2E] then some .here
      else Component.ofSegment? first
    ⟨first, meaning⟩ :: rest.map fun s => ⟨s, Component.ofSegment? s⟩

def components (p : Path) : List Component := p.parts.filterMap Part.component

def Same (p q : Path) : Prop := p.components = q.components

instance (p q : Path) : Decidable (Same p q) := inferInstanceAs (Decidable (_ = _))

def le (p q : Path) : Bool := (compare p.components q.components).isLE

def fileName? (p : Path) : Option Segment :=
  match p.components.getLast? with
  | some (.name s) => some s
  | _ => none

def directories (p : Path) : List Component := p.components.dropLast

/-- The text of a file's name, or of the whole path if that does not end in a name. -/
def baseName (p : Path) : String :=
  match p.fileName? with
  | some s => Utf8.decodeLossy s
  | none => p.display

def join (base child : Path) : Path :=
  if child.isAbsolute then child
  else if base.bytes = [] ∨ base.bytes.getLast? = some slash then ⟨base.bytes ++ child.bytes⟩
  else ⟨base.bytes ++ slash :: child.bytes⟩

/-- The text made of `parts`. The root alone is one slash. -/
def ofParts : List Part → Path
  | [⟨[], some .root⟩] => ⟨[slash]⟩
  | parts => ⟨[slash].intercalate (parts.map Part.segment)⟩

def trimEnd (parts : List Part) : List Part :=
  (parts.reverse.dropWhile (·.component.isNone)).reverse

def afterComponents? : List Component → List Part → Option (List Part)
  | [], parts => some parts
  | _ :: _, [] => none
  | c :: lead, part :: parts =>
    match part.component with
    | none => afterComponents? (c :: lead) parts
    | some d => if d = c then afterComponents? lead parts else none

/-- The text of `p` below `base`, if the components of `base` begin those of `p`. -/
def relativeTo? (base p : Path) : Option Path :=
  match base.components with
  | [] => some (ofParts (trimEnd p.parts))
  | lead =>
    (afterComponents? lead p.parts).map fun rest =>
      ofParts (trimEnd (rest.dropWhile (·.component.isNone)))

def relativeTo (base p : Path) : Path := (relativeTo? base p).getD p

end Path

end BlobCensus
