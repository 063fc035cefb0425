import BlobCensus.Survey

/-!
# Invocations

What the arguments of the program ask for. Options can stand before and after the subcommand, at
each of these two levels once, and the later level wins. Arguments are read from left to right, and
the first that asks for help or cannot be right decides. A value that is an argument of its own is
examined only when its level goes on or ends.
-/
namespace BlobCensus

structure Options where
  config : Option Path := none
  jobs : Option Nat := none
  strategy : Option Strategy := none
  external : Option Bool := none
  timeout : Option Nat := none
  verbose : Bool := false
  quiet : Bool := false
  deriving DecidableEq, Repr

inductive Stop where
  | version
  | help
  | badUsage
  deriving DecidableEq, Repr

inductive Valued where
  | config
  | jobs
  | strategy
  | tools
  | timeout
  deriving DecidableEq, Repr

inductive Switch where
  | verbose
  | quiet
  | version
  | help
  deriving DecidableEq, Repr

inductive Dashed where
  | valued (option : Valued)
  | switch (switch : Switch)
  deriving DecidableEq, Repr

namespace Dashed

/-- The option of a name after two dashes. The version is known before the subcommand only. -/
def ofLong? (top : Bool) (name : String) : Option Dashed :=
  match name with
  | "config" => some (.valued .config)
  | "jobs" => some (.valued .jobs)
  | "arch-strategy" => some (.valued .strategy)
  | "tools" => some (.valued .tools)
  | "timeout" => some (.valued .timeout)
  | "verbose" => some (.switch .verbose)
  | "quiet" => some (.switch .quiet)
  | "help" => some (.switch .help)
  | "version" => if top then some (.switch .version) else none
  | _ => none

def ofShort? (top : Bool) (letter : Char) : Option Dashed :=
  match letter with
  | 'c' => some (.valued .config)
  | 'j' => some (.valued .jobs)
  | 'v' => some (.switch .verbose)
  | 'q' => some (.switch .quiet)
  | 'h' => some (.switch .help)
  | 'V' => if top then some (.switch .version) else none
  | _ => none

end Dashed

namespace Options

/-- A number in decimal digits, possibly after a plus, that fits in 64 bits. -/
def count? (text : String) : Option Nat :=
  let digits := match text.toList with
    | '+' :: rest => rest
    | all => all
  let n := digits.foldl (fun n c => n * 10 + (c.toNat - 48)) 0
  if !digits.isEmpty && digits.all Char.isDigit && n ≤ 18446744073709551615 then some n else none

def strategy? (text : String) : Option Strategy :=
  if text = "content" then some .content else if text = "path" then some .directory else none

def external? (text : String) : Option Bool :=
  if text = "native" then some false else if text = "external" then some true else none

def path? (text : String) : Option Path := if text = "" then none else some (.ofString text)

def once {α : Type} (old new : Option α) : Except Stop (Option α) :=
  if old.isSome || new.isNone then .error .badUsage else .ok new

def setValue (o : Options) (option : Valued) (text : String) : Except Stop Options := do
  match option with
  | .config => return { o with config := ← once o.config (path? text) }
  | .jobs => return { o with jobs := ← once o.jobs (count? text) }
  | .strategy => return { o with strategy := ← once o.strategy (strategy? text) }
  | .tools => return { o with external := ← once o.external (external? text) }
  | .timeout => return { o with timeout := ← once o.timeout (count? text) }

def setSwitch (o : Options) : Switch → Except Stop Options
  | .verbose => if o.verbose then .error .badUsage else .ok { o with verbose := true }
  | .quiet => if o.quiet then .error .badUsage else .ok { o with quiet := true }
  | .version => .error .version
  | .help => .error .help

/-- Letters after one dash: switches, and at most one option with a value at the end. What follows
its letter is the value, possibly after an equals sign; an option whose value is still to come is
given back. -/
def readLetters (top : Bool) (o : Options) : List Char → Except Stop (Options × Option Valued)
  | [] => .ok (o, none)
  | letter :: rest =>
    match Dashed.ofShort? top letter with
    | none => .error .badUsage
    | some (.switch s) => do readLetters top (← o.setSwitch s) rest
    | some (.valued v) =>
      match rest with
      | [] => .ok (o, some v)
      | '=' :: value => do return (← o.setValue v (String.ofList value), none)
      | value => do return (← o.setValue v (String.ofList value), none)

def readLong (top : Bool) (o : Options) (text : List Char) :
    Except Stop (Options × Option Valued) :=
  let name := text.takeWhile (· != '=')
  match Dashed.ofLong? top (String.ofList name), text.drop name.length with
  | some (.switch s), [] => do return (← o.setSwitch s, none)
  | some (.valued v), [] => .ok (o, some v)
  | some (.valued v), _ :: value => do return (← o.setValue v (String.ofList value), none)
  | _, _ => .error .badUsage

/-- Whether an argument begins an option. A dash alone does not. -/
def isOption (argument : String) : Bool :=
  argument.toList.head? == some '-' && argument != "-"

def check (o : Options) : Except Stop Unit :=
  if o.verbose && o.quiet then .error .badUsage else .ok ()

def orElse (later earlier : Options) : Options where
  config := later.config <|> earlier.config
  jobs := later.jobs <|> earlier.jobs
  strategy := later.strategy <|> earlier.strategy
  external := later.external <|> earlier.external
  timeout := later.timeout <|> earlier.timeout
  verbose := later.verbose || earlier.verbose
  quiet := later.quiet || earlier.quiet

end Options

inductive Pending where
  | value (option : Valued) (text : String)
  | plain (text : String)
  deriving DecidableEq, Repr

structure Arguments where
  options : Options := {}
  plain : List Path := []
  pending : Option Pending := none
  deriving DecidableEq, Repr

namespace Arguments

def settle (a : Arguments) : Except Stop Arguments :=
  match a.pending with
  | none => .ok a
  | some (.value option text) => do
    return { a with options := ← a.options.setValue option text, pending := none }
  | some (.plain text) =>
    match Options.path? text with
    | some p => .ok { a with plain := a.plain ++ [p], pending := none }
    | none => .error .badUsage

def take (room : Nat) (a : Arguments) (text : String) : Except Stop Arguments := do
  let a ← a.settle
  if a.plain.length < room then return { a with pending := some (.plain text) }
  else .error .badUsage

/-- Takes an argument that begins an option. An option whose value is still to come is given
back. -/
def takeOption (top : Bool) (a : Arguments) (argument : String) :
    Except Stop (Arguments × Option Valued) := do
  let a ← a.settle
  let (options, lacking) ← match argument.toList.drop 1 with
    | '-' :: name => a.options.readLong top name
    | letters => a.options.readLetters top letters
  return ({ a with options }, lacking)

/-- Reads arguments. At the top level the first plain argument ends the reading, and what is left
begins with it. -/
def read (top : Bool) (room : Nat) (a : Arguments) :
    List String → Except Stop (Arguments × List String)
  | [] => .ok (a, [])
  | argument :: rest =>
    if argument = "--" then
      if top then .error .badUsage else do return (← rest.foldlM (take room) a, [])
    else if Options.isOption argument then
      match a.takeOption top argument with
      | .error stop => .error stop
      | .ok (a, none) => read top room a rest
      | .ok (a, some option) =>
        match rest with
        | [] => .error .badUsage
        | value :: rest =>
          if Options.isOption value then .error .badUsage
          else read top room { a with pending := some (.value option value) } rest
    else if top then .ok (a, argument :: rest)
    else
      match a.take room argument with
      | .error stop => .error stop
      | .ok a => read top room a rest

end Arguments

inductive Subcommand where
  | tree
  | usage
  | closure
  deriving DecidableEq, Repr

namespace Subcommand

def ofName? (name : String) : Option Subcommand :=
  match name with
  | "tree" => some .tree
  | "usage" => some .usage
  | "closure" => some .closure
  | _ => none

def room : Subcommand → Nat
  | tree | usage => 1
  | closure => 2

def mode? : Subcommand → List Path → Option (Path × Mode)
  | tree, [directory] => some (directory, .tree)
  | usage, [directory] => some (directory, .usage)
  | closure, [directory, seed] => some (directory, .closure seed)
  | _, _ => none

end Subcommand

structure Invocation where
  options : Options
  directory : Path
  mode : Mode
  deriving DecidableEq, Repr

namespace Invocation

def ofSubcommand (outer : Arguments) (subcommand : Subcommand) (arguments : List String) :
    Except Stop Invocation := do
  let (inner, _) ← Arguments.read false subcommand.room {} arguments
  let inner ← inner.settle
  let outer ← outer.settle
  inner.options.check
  outer.options.check
  match subcommand.mode? inner.plain with
  | some (directory, mode) => return ⟨inner.options.orElse outer.options, directory, mode⟩
  | none => .error .badUsage

def hasHelp (name : String) : Bool := name = "help" || (Subcommand.ofName? name).isSome

def ofArguments (arguments : List String) : Except Stop Invocation := do
  match ← Arguments.read true 0 {} arguments with
  | (_, ["help"]) => .error .help
  | (_, ["help", name]) => if hasHelp name then .error .help else .error .badUsage
  | (outer, name :: rest) =>
    match Subcommand.ofName? name with
    | some subcommand => ofSubcommand outer subcommand rest
    | none => .error .badUsage
  | (_, []) => .error .badUsage

end Invocation

end BlobCensus
