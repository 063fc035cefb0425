import BlobCensus.CommandLine
import BlobCensus.Disk.Change

/-!
# The program

Copies the part of the machine's file system that a command line speaks of, runs the command line on
the copy, and prints what comes of it. It has no programs of its own to start, so external tools
count as missing.
-/
namespace BlobCensus.Snapshot

def entryOf (directory name : String) : IO.FS.DirEntry := { root := directory, fileName := name }

def realPath? (place : String) : IO (Option String) := do
  try
    return some (← IO.FS.realPath place).toString
  catch _ => return none

mutual

/-- Copies an entry, and all that lies below it if `deep`. Of a link its target is copied, too, but
nothing below that. -/
partial def copy (deep : Bool) (directory name : String) (disk : Disk) : IO Disk := do
  let entry := entryOf directory name
  let place := Path.ofString entry.path.toString
  match ← entry.path.symlinkMetadata.toBaseIO with
  | .error _ => return disk
  | .ok info =>
    match info.type with
    | .file =>
      let content ← try IO.FS.readBinFile entry.path catch _ => pure ByteArray.empty
      return disk.attempt (·.write place content.toList)
    | .dir =>
      let mut disk := disk.attempt (·.makeDirectory place)
      if deep then
        let below ← try entry.path.readDir catch _ => pure #[]
        for sub in below do
          disk ← copy deep entry.path.toString sub.fileName disk
      return disk
    | .symlink =>
      match ← realPath? entry.path.toString with
      | none => return disk
      | some target =>
        trail "/" (target.splitOn "/") (disk.attempt (·.makeLink place (Path.ofString target)))
    | .other => return disk

partial def trail (place : String) (names : List String) (disk : Disk) : IO Disk := do
  match names with
  | [] => return disk
  | "" :: rest | "." :: rest => trail place rest disk
  | name :: rest =>
    let disk ← if name == ".." then pure disk else copy false place name disk
    match ← realPath? (entryOf place name).path.toString with
    | none => return disk
    | some next => trail next rest disk

end

def trailFrom (directory path : String) (disk : Disk) : IO Disk :=
  if path.startsWith "/" then trail "/" (path.splitOn "/") disk
  else trail "/" (directory.splitOn "/" ++ path.splitOn "/") disk

def take (workingDirectory : String) (i : Invocation) : IO Disk := do
  let names := (workingDirectory.splitOn "/").filter (· ≠ "")
  let mut disk : Disk := { tree := .empty, workingDirectory := names.map Utf8.encode }
  disk ← trailFrom workingDirectory "" disk
  disk ← trailFrom workingDirectory i.directory.display disk
  if let some file := i.options.config then
    disk ← trailFrom workingDirectory file.display disk
  match disk.canonical i.directory with
  | .error _ => return disk
  | .ok root =>
    let root := root.display
    if let .closure seed := i.mode then
      disk ← trailFrom root seed.display disk
    let below ← try (entryOf root "").path.readDir catch _ => pure #[]
    for sub in below do
      disk ← copy true root sub.fileName disk
    return disk

def logLines (options : Options) (events : List Event) : List String :=
  (events.filterMap Event.logLine?).filterMap fun (level, text) =>
    if options.quiet then none
    else if level = .debug && !options.verbose then none
    else some s!"{level.word} {text}"

end BlobCensus.Snapshot

open BlobCensus in
/-- Runs the command line on a copy of what it speaks of, prints the report, the log and a complaint
if there is one, and gives the exit code. -/
def main (arguments : List String) : IO UInt32 := do
  let invocation := Invocation.ofArguments arguments
  let workingDirectory := (← IO.currentDir).toString
  let disk ← match invocation with
    | .ok i => Snapshot.take workingDirectory i
    | .error _ => pure { tree := .empty }
  let outcome := CommandLine.run disk Programs.none arguments
  if let .ok i := invocation then
    for line in Snapshot.logLines i.options outcome.events do
      IO.eprintln line
  let stdout ← IO.getStdout
  stdout.write (ByteArray.mk outcome.output.toArray)
  stdout.flush
  if outcome.complaint ≠ "" then
    IO.eprintln outcome.complaint
  return UInt32.ofNat outcome.exitCode
