import BlobCensus.Disk
import BlobCensus.Toml.Document

/-!
# Settings

What a scan can be told, with the values it has when nothing is told. A field of a TOML document that
names a setting replaces its usual value and must have its type. Other fields mean nothing.
-/
namespace BlobCensus

structure ArchDirs where
  lib32 : String := "lib"
  lib64 : String := "lib64"
  deriving DecidableEq, Repr

/-- Libraries present on every target; references to them carry no information. -/
def baselineLibraries : List String :=
  ["libbase.so", "libc++.so", "libc.so", "libcutils.so", "libdl.so", "libhardware_legacy.so",
   "libhidlbase.so", "libhidltransport.so", "libhwbinder.so", "liblog.so", "libm.so",
   "libprotobuf-cpp-full.so", "libsqlite.so", "libutils.so", "libutilscallstack.so",
   "libxml2.so"]

def plainFileEndings : List String :=
  [".acdb", ".alias", ".apk", ".b00", ".b01", ".b02", ".b03", ".b04", ".bin", ".cfg", ".cil",
   ".cng", ".conf", ".config", ".dar", ".dat", ".db", ".dep", ".dict", ".dlc", ".elf", ".ftcfg",
   ".fw", ".fw2", ".gz", ".ini", ".json", ".ko", ".mdt", ".pb", ".pem", ".png", ".policy",
   ".prog", ".prop", ".qcom", ".qwsp", ".rc", ".sh", ".sha256", ".sql", ".ttf", ".txt", ".uim",
   ".wav", ".xml"]

structure Settings where
  ignoredLibraries : List String := baselineLibraries
  /-- Further ignored libraries, so that a settings file can extend the list above. -/
  extraIgnoredLibraries : List String := []
  nonBinaryExtensions : List String := plainFileEndings
  librarySuffix : String := ".so"
  separators : List Char := [' ', '/', '<', '>']
  archDirs : ArchDirs := {}
  /-- The number of workers; none or zero leaves it to the machine. -/
  jobs : Option Nat := none
  toolTimeoutSecs : Nat := 30
  deriving DecidableEq, Repr

namespace Settings

open Toml

def workers? (s : Settings) : Option Nat := s.jobs.filter (0 < ·)

def timeoutSecs (s : Settings) : Nat := max s.toolTimeoutSecs 1

def text? : Value → Option String
  | .string s => some s
  | _ => none

def texts? : Value → Option (List String)
  | .array items => items.mapM text?
  | _ => none

def chars? (v : Value) : Option (List Char) := do
  (← texts? v).mapM fun t =>
    match t.toList with
    | [c] => some c
    | _ => none

def count? : Value → Option Nat
  | .integer n => if 0 ≤ n then some n.toNat else none
  | _ => none

/-- Directory names in a table by name, or in an array by position. A date-time, which is written
as a table elsewhere, names none. -/
def archDirs? : Value → Option ArchDirs
  | .table _ fields => do
    let usual : ArchDirs := {}
    let lib32 ← (fields.lookup "lib32").elim (some usual.lib32) text?
    let lib64 ← (fields.lookup "lib64").elim (some usual.lib64) text?
    return { lib32, lib64 }
  | .array items => do
    let usual : ArchDirs := {}
    let lib32 ← items[0]?.elim (some usual.lib32) text?
    let lib64 ← items[1]?.elim (some usual.lib64) text?
    return { lib32, lib64 }
  | .dateTime _ => some {}
  | _ => none

def setting {α : Type} (fields : Fields) (key : String) (read : Value → Option α) (usual : α) :
    Option α :=
  (fields.lookup key).elim (some usual) read

def ofFields? (fields : Fields) : Option Settings := do
  let usual : Settings := {}
  return {
    ignoredLibraries := ← setting fields "ignored_libraries" texts? usual.ignoredLibraries
    extraIgnoredLibraries :=
      ← setting fields "extra_ignored_libraries" texts? usual.extraIgnoredLibraries
    nonBinaryExtensions :=
      ← setting fields "non_binary_extensions" texts? usual.nonBinaryExtensions
    librarySuffix := ← setting fields "library_suffix" text? usual.librarySuffix
    separators := ← setting fields "separators" chars? usual.separators
    archDirs := ← setting fields "arch_dirs" archDirs? usual.archDirs
    jobs := ← setting fields "jobs" (fun v => (count? v).map some) usual.jobs
    toolTimeoutSecs := ← setting fields "tool_timeout_secs" count? usual.toolTimeoutSecs }

def ofToml? (document : String) : Option Settings := do ofFields? (← Toml.parse document)

def load (disk : Disk) (file : Path) : Except Failure Settings := do
  let content ← (disk.read file).mapError (.unreadable file)
  match Utf8.decode? content with
  | none => .error (.unreadable file .notUtf8)
  | some text =>
    match ofToml? text with
    | none => .error (.badSettings file)
    | some settings => .ok settings

/-- The names of settings files in a scanned directory, the first of which counts. -/
def fileNames : List String := [".blobdeps.toml", "blobdeps.toml"]

def loadFrom (disk : Disk) (root : Path) : Except Failure Settings :=
  match (fileNames.map fun n => root.join (.ofString n)).find? disk.isFile with
  | some file => load disk file
  | none => .ok {}

end Settings

end BlobCensus
