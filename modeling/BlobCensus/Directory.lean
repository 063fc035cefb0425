import BlobCensus.Path

/-!
# Directories

A directory is a list of named entries: regular files, symbolic links and directories.
-/
namespace BlobCensus

inductive Directory where
  | empty
  | file (name : Segment) (content : List UInt8) (rest : Directory)
  | link (name : Segment) (target : Path) (rest : Directory)
  | folder (name : Segment) (inside : Directory) (rest : Directory)
  deriving DecidableEq, Repr, Inhabited

inductive Entry where
  | file (content : List UInt8)
  | link (target : Path)
  | folder (inside : Directory)
  deriving DecidableEq, Repr

namespace Directory

def get? (name : Segment) : Directory → Option Entry
  | empty => none
  | file n content rest => if n = name then some (.file content) else get? name rest
  | link n target rest => if n = name then some (.link target) else get? name rest
  | folder n inside rest => if n = name then some (.folder inside) else get? name rest

def cons (name : Segment) : Entry → Directory → Directory
  | .file content, rest => file name content rest
  | .link target, rest => link name target rest
  | .folder inside, rest => folder name inside rest

def erase (name : Segment) : Directory → Directory
  | empty => empty
  | file n content rest => if n = name then rest else file n content (erase name rest)
  | link n target rest => if n = name then rest else link n target (erase name rest)
  | folder n inside rest => if n = name then rest else folder n inside (erase name rest)

def set (name : Segment) (entry : Entry) (d : Directory) : Directory :=
  (d.erase name).cons name entry

/-- The entry below a directory that the names lead to, through directories only. -/
def entryAt : List Segment → Directory → Option Entry
  | [], d => some (.folder d)
  | n :: names, d =>
    match names, d.get? n with
    | [], entry => entry
    | _, some (.folder inside) => entryAt names inside
    | _, _ => none

/-- Puts an entry where the names lead to, making directories on the way. -/
def setAt : List Segment → Entry → Directory → Directory
  | [], _, d => d
  | [n], entry, d => d.set n entry
  | n :: names, entry, d =>
    match d.get? n with
    | some (.folder inside) => d.set n (.folder (setAt names entry inside))
    | _ => d.set n (.folder (setAt names entry empty))

def eraseAt : List Segment → Directory → Directory
  | [], d => d
  | [n], d => d.erase n
  | n :: names, d =>
    match d.get? n with
    | some (.folder inside) => d.set n (.folder (eraseAt names inside))
    | _ => d

/-- The names that lead to each regular file, through directories only. Links are neither followed
nor listed. -/
def files : Directory → List (List Segment)
  | empty => []
  | file n _ rest => [n] :: files rest
  | link _ _ rest => files rest
  | folder n inside rest => (files inside).map (n :: ·) ++ files rest

end Directory

end BlobCensus
