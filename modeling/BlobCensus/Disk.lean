import BlobCensus.Directory
import BlobCensus.Failure

/-!
# Disks

A tree of directories with a working directory in it. Paths are followed step by step: a link is
replaced by its target, and only a directory can be left for another entry. Names have a greatest
length, and so has the text of a path that is handed over as a whole. The canonical path of a place
is found by handing over the path of each place on the way.
-/
namespace BlobCensus

inductive Step where
  | stay
  | up
  | down (name : Segment)
  deriving DecidableEq, Repr

namespace Path

/-- The steps that a path's text asks for. Other than its components they include the empty
segments and the dots, which only a directory allows. -/
def steps (p : Path) : List Step :=
  (p.bytes.splitOn slash).map fun s =>
    match Component.ofSegment? s with
    | none => .stay
    | some .up => .up
    | some _ => .down s

def startFrom (place : List Segment) (p : Path) : List Segment :=
  if p.isAbsolute then [] else place

def ofNames (names : List Segment) : Path := ⟨slash :: [slash].intercalate names⟩

def below (base : Path) (names : List Segment) : Path :=
  names.foldl (fun p n => p.join ⟨n⟩) base

/-- The greatest length of a path's text that is handed over as a whole. -/
def maxLength : Nat := 4095

def isShort (p : Path) : Bool := p.bytes.length ≤ maxLength

end Path

structure Disk where
  tree : Directory
  workingDirectory : List Segment := []
  deriving DecidableEq, Repr

namespace Disk

def maxNameLength : Nat := 255

def lookUp (inside : Directory) (name : Segment) : Except IoCause Entry :=
  if maxNameLength < name.length then .error .nameTooLong
  else
    match inside.get? name with
    | some entry => .ok entry
    | none => .error .notFound

/-- Enters a name at a place, if the place below it `fits`. -/
def enter (fits : List Segment → Bool) (tree : Directory) (place : List Segment) (name : Segment) :
    Except IoCause Entry :=
  if fits (place ++ [name]) then
    match tree.entryAt place with
    | some (.folder inside) => lookUp inside name
    | some _ => .error .notDirectory
    | none => .error .notFound
  else .error .nameTooLong

/-- A place that is left again, or stayed at, must be a directory. -/
def mustBeFolder (tree : Directory) (place : List Segment) : Except IoCause Unit :=
  match tree.entryAt place with
  | some (.folder _) => .ok ()
  | some _ => .error .notDirectory
  | none => .error .notFound

/-- Follows steps from a place to the names of another place, over places that fit. `jump` goes on
from a link. -/
def walk (fits : List Segment → Bool) (tree : Directory)
    (jump : List Segment → List Step → Except IoCause (List Segment)) :
    List Segment → List Step → Except IoCause (List Segment)
  | place, [] => .ok place
  | place, .stay :: rest => do
    mustBeFolder tree place
    walk fits tree jump place rest
  | place, .up :: rest => do
    mustBeFolder tree place
    walk fits tree jump place.dropLast rest
  | place, .down name :: rest => do
    match ← enter fits tree place name with
    | .link target => jump (target.startFrom place) (target.steps ++ rest)
    | _ => walk fits tree jump (place ++ [name]) rest

def followWithin (fits : List Segment → Bool) (tree : Directory) :
    (links : Nat) → List Segment → List Step → Except IoCause (List Segment)
  | 0 => walk fits tree fun _ _ => .error .tooManyLinks
  | links + 1 => walk fits tree (followWithin fits tree links)

def maxLinks : Nat := 40

def follow (tree : Directory) (place : List Segment) (steps : List Step) :
    Except IoCause (List Segment) :=
  followWithin (fun _ => true) tree maxLinks place steps

def startOf (disk : Disk) (p : Path) : List Segment := p.startFrom disk.workingDirectory

/-- A path's text must be one: it is not empty and holds no zero byte. -/
def mustBeText (p : Path) : Except IoCause Unit :=
  if p.bytes.contains 0 then .error .zeroByte
  else if p.bytes = [] then .error .notFound
  else .ok ()

/-- The absolute path without links, dots and repeated slashes for what a path leads to. As the path
of each place on the way is handed over, only these must be short. -/
def canonical (disk : Disk) (p : Path) : Except IoCause Path := do
  mustBeText p
  let isShort (place : List Segment) := (Path.ofNames place).isShort
  return .ofNames (← followWithin isShort disk.tree maxLinks (disk.startOf p) p.steps)

def find (disk : Disk) (p : Path) : Except IoCause Entry := do
  mustBeText p
  if p.isShort then
    match disk.tree.entryAt (← follow disk.tree (disk.startOf p) p.steps) with
    | some entry => .ok entry
    | none => .error .notFound
  else .error .nameTooLong

def entry? (disk : Disk) (p : Path) : Option Entry := (disk.find p).toOption

def isDirectory (disk : Disk) (p : Path) : Bool :=
  match disk.entry? p with
  | some (.folder _) => true
  | _ => false

def isFile (disk : Disk) (p : Path) : Bool :=
  match disk.entry? p with
  | some (.file _) => true
  | _ => false

def read (disk : Disk) (p : Path) : Except IoCause (List UInt8) := do
  match ← disk.find p with
  | .file content => .ok content
  | .folder _ => .error .isDirectory
  | .link _ => .error .tooManyLinks

def isLink (disk : Disk) (p : Path) : Bool :=
  match p.steps.getLast? with
  | some (.down name) =>
    match follow disk.tree (disk.startOf p) p.steps.dropLast with
    | .ok place =>
      match disk.tree.entryAt (place ++ [name]) with
      | some (.link _) => true
      | _ => false
    | .error _ => false
  | _ => false

/-- The regular files under a root, each once: through directories only, but the root itself may be
a link to a directory. A directory is opened by its path, which must be short. A regular file stands
for itself. -/
def listFiles (disk : Disk) (root : Path) : List Path :=
  match disk.entry? root with
  | some (.folder inside) =>
    (inside.files.filter fun names => (root.below names.dropLast).isShort).map root.below
  | some (.file _) => if disk.isLink root then [] else [root]
  | _ => []

end Disk

end BlobCensus
