import BlobCensus.Path

/-!
# Index of files by name

In a pattern `*` stands for any characters and `?` for one, neither of them a line end; every other
character stands for itself. `accepts` works through the pattern from its end and keeps one answer per
suffix of the name. A pattern is refused if automata over bytes that match it, one per direction, would
be too large. The index groups the files of a tree by base name: names in the order of their bytes, the
paths of one name in path order, equal paths in the order they were listed.
-/
namespace BlobCensus

inductive Wild where
  | run
  | one
  | literal (c : Char)
  deriving DecidableEq, Repr

abbrev Glob := List Wild

namespace Wild

def ofChar (c : Char) : Wild :=
  if c = '*' then run else if c = '?' then one else literal c

def isWildcard : Wild → Bool
  | literal _ => false
  | _ => true

def takes : Wild → Char → Bool
  | literal d, c => c == d
  | _, c => c != '\n'

/-- The bytes of one state of a matcher, which reads at most one byte of a name. -/
def stateSize : Nat := 32

/-- The bytes of the states for one character of a pattern that reads names from their beginning.
The forms of a wildcard's character in UTF-8 share their ends: they have nine states, with 17 ranges
of bytes of 8 bytes each. A run has one state more, with two ways on of 4 bytes each. -/
def forwardFootprint : Wild → Nat
  | run => 10 * stateSize + 17 * 8 + 2 * 4
  | one => 9 * stateSize + 17 * 8
  | literal c => c.utf8Size * stateSize

/-- The bytes of the states for one character of a pattern that reads names from their end. The ten
forms of a wildcard's character in UTF-8 share nothing: they have 28 states for a byte each and two
more where they begin and end. A run has one state more, with two ways on. -/
def backwardFootprint : Wild → Nat
  | run => 31 * stateSize + 12 * 4
  | one => 30 * stateSize + 10 * 4
  | literal c => c.utf8Size * stateSize

end Wild

namespace Glob

def ofString (text : String) : Glob := text.toList.map Wild.ofChar

/-- The text of a library name with each placeholder `%s` read as `*`. -/
def widen : List Char → List Char
  | '%' :: 's' :: rest => '*' :: widen rest
  | c :: rest => c :: widen rest
  | [] => []

def ofLibrary (library : String) : String := String.ofList (widen library.toList)

def isWild (g : Glob) : Bool := g.any Wild.isWildcard

/-- The bytes that the matcher of a pattern may take up in either direction. -/
def maxFootprint : Nat := 10485760

def forwardFootprint (g : Glob) : Nat :=
  g.foldr (fun w size => w.forwardFootprint + size) (6 * Wild.stateSize)

def backwardFootprint (g : Glob) : Nat :=
  g.foldr (fun w size => w.backwardFootprint + size) (4 * Wild.stateSize)

def isUsable (g : Glob) : Bool :=
  g.forwardFootprint ≤ maxFootprint && g.backwardFootprint ≤ maxFootprint

/-- From the answers of a pattern for all suffixes of a name, longest first, the answers of the
pattern with `w` in front. -/
def extend (w : Wild) : List Char → List Bool → List Bool
  | [], rest => [if w = .run then rest.headD false else false]
  | c :: name, rest =>
    let tail := extend w name rest.tail
    let taken := w.takes c && (if w = .run then tail else rest.tail).headD false
    (taken || (w = .run && rest.headD false)) :: tail

def emptyRow : List Char → List Bool
  | [] => [true]
  | _ :: name => false :: emptyRow name

/-- The answers of a pattern for all suffixes of a name, longest first. -/
def row (g : Glob) (name : List Char) : List Bool :=
  g.foldr (fun w answers => extend w name answers) (emptyRow name)

def accepts (g : Glob) (name : String) : Bool := (row g name.toList).headD false

end Glob

structure NameIndex where
  groups : List (String × List Path)
  deriving DecidableEq, Repr

namespace NameIndex

/-- The order of names. Code points are ordered as their bytes are. -/
def nameLe (a b : String) : Bool := !decide (b < a)

/-- Gathers neighbours of one name. -/
def gather (entry : String × Path) (groups : List (String × List Path)) :
    List (String × List Path) :=
  match groups with
  | (name, paths) :: rest =>
    if name = entry.1 then (name, entry.2 :: paths) :: rest else (entry.1, [entry.2]) :: groups
  | [] => [(entry.1, [entry.2])]

def ofPaths (paths : List Path) : NameIndex :=
  let named := (paths.mergeSort Path.le).map fun p => (p.baseName, p)
  ⟨(named.mergeSort fun a b => nameLe a.1 b.1).foldr gather []⟩

def paths (index : NameIndex) : List Path := index.groups.flatMap Prod.snd

def size (index : NameIndex) : Nat := index.paths.length

def isEmpty (index : NameIndex) : Bool := index.groups.isEmpty

def named (index : NameIndex) (name : String) : List Path :=
  (index.groups.lookup name).getD []

def accepted (index : NameIndex) (glob : Glob) : List Path :=
  (index.groups.filter fun group => glob.accepts group.1).flatMap Prod.snd

/-- The paths whose name fits the pattern text, or `none` if the pattern is refused. A text without
wildcards is looked up as a name. -/
def matching? (index : NameIndex) (pattern : String) : Option (List Path) :=
  let glob := Glob.ofString pattern
  if !glob.isWild then some (index.named pattern)
  else if glob.isUsable then some (index.accepted glob)
  else none

end NameIndex

end BlobCensus
