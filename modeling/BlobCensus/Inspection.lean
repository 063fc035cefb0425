import BlobCensus.Disk
import BlobCensus.Workbench

/-!
# Inspection of files

Two sets of tools for the files on a disk. One reads the files itself: the class of an ELF image, and
the texts that stand in binary data. The other runs programs, where any trouble counts as no answer: a
program cannot be started, fails, is killed, or does not end in time.
-/
namespace BlobCensus

namespace ElfHeader

def magic : List UInt8 := [0x7F, 0x45, 0x4C, 0x46]

def describe (data : List UInt8) : String :=
  if (magic ++ [1]).isPrefixOf data then "ELF 32-bit"
  else if (magic ++ [2]).isPrefixOf data then "ELF 64-bit"
  else "data"

end ElfHeader

namespace PrintableRuns

def tab : UInt8 := 0x09

def isPrintable (byte : UInt8) : Bool := byte == tab || (0x20 ≤ byte && byte ≤ 0x7E)

/-- Puts a byte in front of the run that `pieces` begins with, or ends that run. -/
def cut (byte : UInt8) (pieces : List (List UInt8)) : List (List UInt8) :=
  if isPrintable byte then
    match pieces with
    | [] => [[byte]]
    | run :: rest => (byte :: run) :: rest
  else [] :: pieces

/-- The printable pieces between unprintable bytes, the empty ones included. -/
def pieces (data : List UInt8) : List (List UInt8) := data.foldr cut [[]]

def trimTabs (run : List UInt8) : List UInt8 :=
  ((run.dropWhile (· == tab)).reverse.dropWhile (· == tab)).reverse

def asciiText (run : List UInt8) : String := String.ofList (run.map fun b => Char.ofNat b.toNat)

def usualLength : Nat := 4

/-- The texts in the data: of each run of at least `least` bytes (at least one) what remains
without the tabs at its ends, if anything does. -/
def texts (least : Nat) (data : List UInt8) : List String :=
  let runs := (pieces data).filter fun run => max least 1 ≤ run.length
  ((runs.map trimTabs).filter (· ≠ [])).map asciiText

end PrintableRuns

structure Command where
  program : String
  arguments : List (List UInt8)
  deriving DecidableEq, Repr

inductive Ending where
  | exited (status : Nat)
  | killed
  | timedOut
  deriving DecidableEq, Repr

structure Completion where
  output : List UInt8
  ending : Ending
  deriving DecidableEq, Repr

abbrev Programs := Command → Option Completion

namespace Command

def strings (p : Path) : Command := ⟨"strings", [p.bytes]⟩

def file (p : Path) : Command := ⟨"file", [Utf8.encode "-b", p.bytes]⟩

def maxWordLength : Nat := 131071

/-- Whether a command can be handed over: none of its words is too long or holds a zero byte. -/
def isPossible (command : Command) : Bool :=
  (Utf8.encode command.program :: command.arguments).all fun word =>
    decide (word.length ≤ maxWordLength) && !word.contains 0

end Command

namespace Programs

def none : Programs := fun _ => Option.none

def start? (programs : Programs) (command : Command) : Option Completion :=
  if command.isPossible then programs command else Option.none

def run (programs : Programs) (command : Command) : Option String :=
  match programs.start? command with
  | some ⟨output, .exited 0⟩ => some (Utf8.decodeLossy output)
  | _ => Option.none

def chomp (line : List Char) : List Char :=
  if line.getLast? = some '\r' then line.dropLast else line

/-- The lines of a text. The last one may lack its line end, but is no line if it is empty. -/
def lines (text : String) : List String :=
  let pieces := text.toList.splitOn '\n'
  let last := pieces.getLastD []
  let ended := pieces.dropLast.map chomp
  (if last.isEmpty then ended else ended ++ [last]).map String.ofList

def texts (programs : Programs) (p : Path) : List String :=
  ((programs.run (.strings p)).map lines).getD []

def describe (programs : Programs) (p : Path) : String := (programs.run (.file p)).getD ""

end Programs

namespace Inspector

def native (disk : Disk) : Inspector where
  listFiles := disk.listFiles
  describe p := .ok <|
    match disk.read p with
    | .ok content => ElfHeader.describe content
    | .error _ => "data"
  texts p := .ok <|
    match disk.read p with
    | .ok content => PrintableRuns.texts PrintableRuns.usualLength content
    | .error _ => []

def external (disk : Disk) (programs : Programs) : Inspector where
  listFiles := disk.listFiles
  describe p := .ok (programs.describe p)
  texts p := .ok (programs.texts p)

def command? : Event → Option Command
  | .described p => some (.file p)
  | .extracted p => some (.strings p)
  | _ => none

def started (programs : Programs) (events : List Event) : List Command :=
  (events.filterMap command?).filter fun c => (programs.start? c).isSome

end Inspector

end BlobCensus
