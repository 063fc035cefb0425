import BlobCensus.Architecture
import BlobCensus.Path
import BlobCensus.Settings
import Std.Data.HashMap

/-!
# Blobs

A blob is a scanned file, and its name is its identity across architectures. A rule tells which texts
in it are names of libraries, and libraries are ranked by how often blobs refer to them.
-/
namespace BlobCensus

structure Blob where
  path : Path
  name : String
  architecture : Architecture
  dependencies : List String
  deriving DecidableEq, Repr

namespace Blob

def isKnown (b : Blob) : Bool := b.architecture.isKnown

end Blob

/-- One blob per name, and the architectures of the further files of known architecture that bear a
name already taken. -/
structure Inventory where
  blobs : List Blob
  duplicates : List (String × Architecture)
  deriving DecidableEq, Repr

structure LibraryRule where
  suffix : String
  separators : List Char
  ignored : List String
  deriving DecidableEq, Repr

namespace LibraryRule

def ofSettings (s : Settings) : LibraryRule :=
  ⟨s.librarySuffix, s.separators, s.ignoredLibraries ++ s.extraIgnoredLibraries⟩

def ignores (r : LibraryRule) (name : String) : Bool := r.ignored.contains name

def accepts (r : LibraryRule) (name : String) : Bool :=
  r.suffix.toList.isSuffixOf name.toList &&
    !name.toList.any r.separators.contains &&
    !r.ignores name

end LibraryRule

namespace Usage

def counts (names : List String) : Std.HashMap String Nat :=
  names.foldl (fun counts name => counts.alter name fun n => some (n.getD 0 + 1)) ∅

/-- Rarer libraries first, those used equally often by name. -/
def rankLe (a b : String × Nat) : Bool :=
  a.2 < b.2 || (a.2 == b.2 && !decide (b.1 < a.1))

def ranking (blobs : List Blob) : List (String × Nat) :=
  (counts ((blobs.filter Blob.isKnown).flatMap Blob.dependencies)).toList.mergeSort rankLe

end Usage

end BlobCensus
