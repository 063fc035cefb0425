import BlobCensus.Disk

/-!
# Changes of a disk

Writing a file follows links to where the file lies or is to lie. Directories on the way to a new
entry are made as needed.
-/
namespace BlobCensus.Disk

/-- Follows steps from a place, and makes the directories that are missing on the way. -/
def makeWay (tree : Directory) (place : List Segment) :
    List Step → Except IoCause (Directory × List Segment)
  | [] => .ok (tree, place)
  | step :: rest =>
    match follow tree place [step], step with
    | .ok next, _ => makeWay tree next rest
    | .error .notFound, .down name =>
      let next := place ++ [name]
      if (tree.entryAt next).isSome then .error .notDirectory
      else makeWay (tree.setAt next (.folder .empty)) next rest
    | .error cause, _ => .error cause

/-- The place where a file is written that steps lead to: a link at their end is followed even if
nothing lies where it points to. -/
def destination (tree : Directory) (links : Nat) (place : List Segment) (steps : List Step) :
    Except IoCause (List Segment) := do
  let parent ← follow tree place steps.dropLast
  match tree.entryAt parent, steps.getLast? with
  | some (.folder inside), some (.down name) =>
    match lookUp inside name with
    | .error .notFound | .ok (.file _) => .ok (parent ++ [name])
    | .error cause => .error cause
    | .ok (.folder _) => .error .isDirectory
    | .ok (.link target) =>
      match links with
      | 0 => .error .tooManyLinks
      | links + 1 => destination tree links (target.startFrom parent) target.steps
  | some (.folder _), _ => .error .isDirectory
  | some _, _ => .error .notDirectory
  | none, _ => .error .notFound

def makeDirectory (disk : Disk) (p : Path) : Except IoCause Disk := do
  let (tree, _) ← makeWay disk.tree (disk.startOf p) p.steps
  return { disk with tree }

def write (disk : Disk) (p : Path) (content : List UInt8) : Except IoCause Disk := do
  let (tree, parent) ← makeWay disk.tree (disk.startOf p) p.steps.dropLast
  let place ← destination tree maxLinks parent p.steps.getLast?.toList
  return { disk with tree := tree.setAt place (.file content) }

def makeLink (disk : Disk) (p target : Path) : Except IoCause Disk := do
  let (tree, parent) ← makeWay disk.tree (disk.startOf p) p.steps.dropLast
  match p.steps.getLast? with
  | some (.down name) => return { disk with tree := tree.setAt (parent ++ [name]) (.link target) }
  | _ => .error .isDirectory

/-- Removes the entry that a path names, a directory with all that it holds. Slashes at the end of
the path do not count. -/
def remove (disk : Disk) (p : Path) : Except IoCause Disk := do
  let steps := (p.steps.reverse.dropWhile (· = .stay)).reverse
  let parent ← follow disk.tree (disk.startOf p) steps.dropLast
  match steps.getLast? with
  | some (.down name) =>
    let place := parent ++ [name]
    if (disk.tree.entryAt place).isSome then
      return { disk with tree := disk.tree.eraseAt place }
    else .error .notFound
  | _ => .error .isDirectory

def attempt (disk : Disk) (change : Disk → Except IoCause Disk) : Disk :=
  (change disk).toOption.getD disk

end BlobCensus.Disk
