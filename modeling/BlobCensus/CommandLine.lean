import BlobCensus.CommandLine.Invocation
import BlobCensus.Report
import BlobCensus.Settings

/-!
# Command line

The program as a function: from a disk, the programs that can be started and the arguments to an
`Outcome`.
-/
namespace BlobCensus

structure Complaint where
  message : String
  causes : List String
  deriving DecidableEq, Repr

namespace Complaint

def ofFailure (f : Failure) : Complaint := ⟨f.message, f.causes⟩

def within (c : Complaint) (matter : String) : Complaint := ⟨matter, c.message :: c.causes⟩

def indented (first indent text : String) : String :=
  first ++ ("\n" ++ indent).intercalate (text.splitOn "\n")

/-- The written form of a complaint: its causes are listed below it, and numbered if there are
several. -/
def render (c : Complaint) : String :=
  let listed := match c.causes with
    | [] => []
    | [cause] => [indented "    " "    " cause]
    | causes => causes.zipIdx.map fun (cause, n) =>
        indented (String.ofList (List.replicate (5 - (toString n).length) ' ') ++ s!"{n}: ")
          "       " cause
  let tail := if listed.isEmpty then "" else "\n\nCaused by:\n" ++ "\n".intercalate listed
  s!"Error: {c.message}" ++ tail

end Complaint

structure Outcome where
  exitCode : Nat
  output : List UInt8 := []
  complaint : String := ""
  events : List Event := []
  commands : List Command := []
  deriving DecidableEq, Repr

namespace CommandLine

def versionText : String := "blobdeps 0.1.0\n"

def usageText : String :=
  "Usage: blobdeps [OPTIONS] <COMMAND>\n\n" ++
  "Commands:\n" ++
  "  tree     Consolidated dependency graph of every blob under DIR\n" ++
  "  usage    Usage count of every referenced library, least used first\n" ++
  "  closure  Libraries transitively required by SEED, resolved within DIR\n\n" ++
  "Options:\n" ++
  "  -c, --config <FILE>\n" ++
  "  -j, --jobs <N>\n" ++
  "      --arch-strategy <content|path>\n" ++
  "      --tools <native|external>\n" ++
  "      --timeout <SECS>\n" ++
  "  -v, --verbose\n" ++
  "  -q, --quiet\n" ++
  "  -h, --help\n" ++
  "  -V, --version\n"

/-- The settings of an invocation: those of the file it names or of the directory, with its own
options on top. -/
def settings (disk : Disk) (i : Invocation) : Except Failure Settings := do
  let base ← match i.options.config with
    | some file => Settings.load disk file
    | none => Settings.loadFrom disk i.directory
  return { base with
    jobs := i.options.jobs <|> base.jobs
    toolTimeoutSecs := i.options.timeout.getD base.toolTimeoutSecs }

def survey (disk : Disk) (i : Invocation) : Except Complaint Survey := do
  let settings ← (settings disk i).mapError .ofFailure
  let strategy := i.options.strategy.getD .content
  (Survey.ofRoot disk i.directory settings strategy).mapError fun f =>
    (Complaint.ofFailure f).within s!"Cannot scan {i.directory.display}"

def isExternal (i : Invocation) : Bool := i.options.external.getD false

def inspector (disk : Disk) (programs : Programs) (i : Invocation) : Inspector :=
  if isExternal i then .external disk programs else .native disk

def breakdownCode : Nat := 101

def outcome (events : List Event) (commands : List Command) :
    Except Breakdown (Except Failure Unit × Sink) → Outcome
  | .error _ => { exitCode := breakdownCode, events, commands }
  | .ok (.ok (), sink) => { exitCode := 0, output := sink.kept, events, commands }
  | .ok (.error reason, sink) =>
    let complaint := (Complaint.ofFailure reason).render
    { exitCode := 1, output := sink.kept, complaint, events, commands }

def carryOut (disk : Disk) (programs : Programs) (i : Invocation) : Outcome :=
  match survey disk i with
  | .error complaint => { exitCode := 1, complaint := complaint.render }
  | .ok survey =>
    let job := survey.run disk (inspector disk programs i) (Printer.reporter .pretty) i.mode {}
    let (result, s) := job.runIn {}
    outcome s.events (if isExternal i then Inspector.started programs s.events else []) result

def run (disk : Disk) (programs : Programs) (arguments : List String) : Outcome :=
  match Invocation.ofArguments arguments with
  | .error .version => { exitCode := 0, output := Utf8.encode versionText }
  | .error .help => { exitCode := 0, output := Utf8.encode usageText }
  | .error .badUsage => { exitCode := 2, complaint := usageText }
  | .ok invocation => carryOut disk programs invocation

end CommandLine

end BlobCensus
