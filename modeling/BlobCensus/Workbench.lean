import BlobCensus.Blob
import BlobCensus.Session

/-!
# Workbench

The tools of a survey and the work done on files with them: telling a file's architecture, reading its
references, taking stock of a list of files, and finding the files that a library's name stands for.
-/
namespace BlobCensus

/-- The tools that a survey looks at files with. A tool may break down. -/
structure Inspector where
  listFiles : Path → List Path
  describe : Path → Except Breakdown String
  texts : Path → Except Breakdown (List String)

inductive Strategy where
  | content
  | directory
  deriving DecidableEq, Repr

structure Workbench where
  settings : Settings
  strategy : Strategy
  inspector : Inspector

namespace Workbench

def isPlainFile (settings : Settings) (p : Path) : Bool :=
  let text := p.display.toList
  settings.nonBinaryExtensions.any fun ending => ending.toList.isSuffixOf text

def ofDirectory? (dirs : ArchDirs) : Component → Option Architecture
  | .name s =>
    if s = Utf8.encode dirs.lib32 then some .bits32
    else if s = Utf8.encode dirs.lib64 then some .bits64
    else none
  | _ => none

def ofDirectories (dirs : ArchDirs) (p : Path) : Architecture :=
  (p.directories.reverse.findSome? (ofDirectory? dirs)).getD .unknown

def examine (w : Workbench) (p : Path) : Job Architecture := do
  if isPlainFile w.settings p then
    return .unknown
  match w.strategy with
  | .directory => return ofDirectories w.settings.archDirs p
  | .content =>
    modify (·.note (.described p))
    return Architecture.ofDescription (← Job.await (w.inspector.describe p))

/-- The architecture of a file, settled once per path. -/
def classify (w : Workbench) (p : Path) : Job Architecture := do
  match (← get).memo.find? p with
  | some a => return a
  | none =>
    let a ← w.examine p
    modify (·.settle p a)
    return a

/-- The libraries that the texts of a file name: first occurrences of the texts that the rule
accepts, without the file's own name. -/
def references (settings : Settings) (ownName : String) (texts : List String) : List String :=
  let rule := LibraryRule.ofSettings settings
  (texts.filter fun t => rule.accepts t && t != ownName).eraseDups

def scanAs (w : Workbench) (p : Path) (a : Architecture) : Job Blob := do
  modify (·.note (.extracted p))
  let texts ← Job.await (w.inspector.texts p)
  return ⟨p, p.baseName, a, references w.settings p.baseName texts⟩

def scan (w : Workbench) (p : Path) : Job Blob := do
  let a ← w.classify p
  if a.isKnown then w.scanAs p a else return ⟨p, p.baseName, a, []⟩

/-- Splits classified files into the first of each name and the further ones. -/
def partitionNames (taken : List String) :
    List (Path × Architecture) → List (Path × Architecture) × List (String × Architecture)
  | [] => ([], [])
  | (p, a) :: rest =>
    if taken.contains p.baseName then
      let (firsts, further) := partitionNames taken rest
      (firsts, (p.baseName, a) :: further)
    else
      let (firsts, further) := partitionNames (p.baseName :: taken) rest
      ((p, a) :: firsts, further)

/-- Takes stock of files: classifies all of them and scans the first of each name among those
of known architecture. -/
def scanAll (w : Workbench) (files : List Path) : Job Inventory := do
  let classified ← files.mapM fun p => return (p, ← w.classify p)
  let (firsts, further) := partitionNames [] (classified.filter (·.2.isKnown))
  let blobs ← firsts.mapM fun (p, a) => w.scanAs p a
  return ⟨blobs, further⟩

/-- The index of the files under `root` with the session that keeps it. It is made when it is first
needed. -/
def prepare (w : Workbench) (root : Path) (s : Session) : NameIndex × Session :=
  match s.index with
  | some index => (index, s)
  | none =>
    let index := NameIndex.ofPaths (w.inspector.listFiles root)
    (index, { (s.note (.listed root)).note (.indexed index.size root) with index })

def nameIndex (w : Workbench) (root : Path) : Job NameIndex := modifyGet (w.prepare root)

def candidates (w : Workbench) (root : Path) (library : String) : Job (List Path) := do
  let index ← w.nameIndex root
  let pattern := Glob.ofLibrary library
  match index.matching? pattern with
  | some paths => return paths
  | none =>
    modify (·.note (.refusedPattern pattern))
    return []

/-- The files named like a library whose architecture is the wanted one. Nothing fits an unknown
architecture. -/
def resolve (w : Workbench) (root : Path) (library : String) (wanted : Architecture) :
    Job (List Path) := do
  if !wanted.isKnown then
    return []
  let paths ← w.candidates root library
  if paths.isEmpty then
    modify (·.note (.missing library))
    return []
  let classified ← paths.mapM fun p => return (p, ← w.classify p)
  let fitting := (classified.filter (·.2 == wanted)).map Prod.fst
  if fitting.isEmpty then
    modify (·.note (.noCandidate wanted library))
  return fitting

/-- Paths without later spellings of earlier ones. -/
def distinct (seen : List (List Component)) : List Path → List Path
  | [] => []
  | p :: rest =>
    if seen.contains p.components then distinct seen rest
    else p :: distinct (p.components :: seen) rest

def expand (w : Workbench) (root : Path) (p : Path) : Job (List Path) := do
  let blob ← w.scan p
  if !blob.isKnown then
    return []
  let resolved ← blob.dependencies.mapM fun library => w.resolve root library blob.architecture
  return distinct [] resolved.flatten

end Workbench

end BlobCensus
