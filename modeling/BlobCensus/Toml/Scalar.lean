import BlobCensus.Toml.Value

/-!
# TOML scalars

Strings, numbers, truth values and date-times. A reader takes some characters off the front of a text
and makes a value of them, or fails.
-/
namespace BlobCensus

namespace Toml

abbrev Reader := StateT (List Char) Option

namespace Reader

def charIf (kind : Char → Bool) : Reader Char := fun
  | c :: rest => if kind c then some (c, rest) else none
  | [] => none

def char (c : Char) : Reader Unit := do
  let _ ← charIf (· == c)

def word (text : String) : Reader Unit := fun input =>
  if text.toList.isPrefixOf input then some ((), input.drop text.length) else none

def span (kind : Char → Bool) : Reader (List Char) := fun input =>
  some (input.takeWhile kind, input.dropWhile kind)

def maybe {α : Type} (reader : Reader α) : Reader (Option α) := fun input =>
  match reader input with
  | some (a, rest) => some (some a, rest)
  | none => some (none, input)

def manyUpTo {α : Type} (reader : Reader α) : Nat → Reader (List α)
  | 0 => pure []
  | fuel + 1 => do
    match ← maybe reader with
    | none => return []
    | some a => return a :: (← manyUpTo reader fuel)

/-- Reads values one after the other. Each takes a character at least, so there are no more of them
than characters. -/
def many {α : Type} (reader : Reader α) : Reader (List α) := fun input =>
  manyUpTo reader input.length input

def notBefore (kind : Char → Bool) : Reader Unit := fun input =>
  if input.head?.any kind then none else some ((), input)

def readAll {α : Type} (reader : Reader α) (text : List Char) : Option α :=
  match reader text with
  | some (a, []) => some a
  | _ => none

end Reader

open Reader

def isBlank (c : Char) : Bool := c == ' ' || c == '\t'

/-- A character that text and comments may hold: a tab, or anything that is no control character. -/
def isTextChar (c : Char) : Bool := c == '\t' || (32 ≤ c.toNat && c.toNat != 127)

def isBareKeyChar (c : Char) : Bool := c.isAlphanum || c == '_' || c == '-'

def blanks : Reader Unit := do
  let _ ← span isBlank

def lineEnd : Reader Unit := word "\n" <|> word "\r\n"

def digitValue (c : Char) : Nat :=
  if c.isDigit then c.toNat - 48
  else if 'a' ≤ c ∧ c ≤ 'f' then c.toNat - 87
  else c.toNat - 55

def isHexDigit (c : Char) : Bool :=
  c.isDigit || ('a' ≤ c && c ≤ 'f') || ('A' ≤ c && c ≤ 'F')

def numberOf (base : Nat) (digits : List Char) : Nat :=
  digits.foldl (fun n c => n * base + digitValue c) 0

def exactly (n : Nat) (kind : Char → Bool) : Reader (List Char) :=
  match n with
  | 0 => pure []
  | n + 1 => do return (← charIf kind) :: (← exactly n kind)

def codePoint (n : Nat) : Reader Char := do
  let value := numberOf 16 (← exactly n isHexDigit)
  if value < 0xD800 ∨ (0xDFFF < value ∧ value < 0x110000) then return Char.ofNat value else failure

def escaped : Reader Char := do
  match ← charIf fun _ => true with
  | 'b' => return Char.ofNat 8
  | 't' => return '\t'
  | 'n' => return '\n'
  | 'f' => return Char.ofNat 12
  | 'r' => return '\r'
  | '"' => return '"'
  | '\\' => return '\\'
  | 'u' => codePoint 4
  | 'U' => codePoint 8
  | _ => failure

def basicChar : Reader Char :=
  (do char '\\'; escaped) <|> charIf fun c => isTextChar c && c != '"' && c != '\\'

def basicString : Reader String := do
  char '"'
  let text ← many basicChar
  char '"'
  return String.ofList text

def literalString : Reader String := do
  char '\''
  let text ← span fun c => isTextChar c && c != '\''
  char '\''
  return String.ofList text

/-- A backslash at the end of a line takes away all blank space after it. -/
def foldedLineEnd : Reader (List Char) := do
  char '\\'
  blanks
  lineEnd
  let _ ← many (lineEnd <|> (do let _ ← charIf isBlank))
  return []

/-- One or two quotes that do not begin the closing three. -/
def innerQuotes (quote : Char) : Reader (List Char) := fun input =>
  let run := input.takeWhile (· == quote)
  if 1 ≤ run.length ∧ run.length ≤ 2 then some (run, input.drop run.length) else none

/-- Three quotes that close a string, after up to two that belong to it. -/
def closingQuotes (quote : Char) : Reader (List Char) := fun input =>
  let run := input.takeWhile (· == quote)
  if 3 ≤ run.length ∧ run.length ≤ 5 then some (run.drop 3, input.drop run.length) else none

/-- A string between three quotes, made of pieces. A line end right after the opening quotes does
not count, and every other one is a line feed. -/
def longString (quote : Char) (piece : Reader (List Char)) : Reader String := do
  let _ ← exactly 3 (· == quote)
  let _ ← maybe lineEnd
  let pieces ← many (piece <|> innerQuotes quote <|> (do lineEnd; return ['\n']))
  let rest ← closingQuotes quote
  return String.ofList (pieces.flatten ++ rest)

def longBasicString : Reader String :=
  longString '"' (foldedLineEnd <|> (do return [← basicChar]))

def longLiteralString : Reader String :=
  longString '\'' (do return [← charIf fun c => isTextChar c && c != '\''])

def string : Reader String := longBasicString <|> longLiteralString <|> basicString <|> literalString

def digitsOf (kind : Char → Bool) : Reader (List Char) := do
  let first ← charIf kind
  let rest ← many ((do char '_'; charIf kind) <|> charIf kind)
  return first :: rest

def plainDecimal : Reader (List Char) :=
  (do char '0'; return ['0']) <|> (do notBefore (· == '0'); digitsOf Char.isDigit)

def sign : Reader Bool :=
  (do char '-'; return true) <|> (do char '+'; return false) <|> pure false

def fits (n : Int) : Bool := -9223372036854775808 ≤ n && n ≤ 9223372036854775807

def markedInteger (mark : String) (base : Nat) (kind : Char → Bool) : Reader Int := do
  word mark
  return (numberOf base (← digitsOf kind) : Int)

def decimalInteger : Reader Int := do
  let negative ← sign
  let n : Int := numberOf 10 (← plainDecimal)
  return if negative then -n else n

def integer : Reader Int := do
  let n ← markedInteger "0x" 16 isHexDigit
    <|> markedInteger "0o" 8 (fun c => '0' ≤ c && c ≤ '7')
    <|> markedInteger "0b" 2 (fun c => c == '0' || c == '1')
    <|> decimalInteger
  if fits n then return n else failure

/-- The decimals from this one on are nearer to infinity than to any float of 64 bits. -/
def floatBound : Nat := Nat.pow 2 1024 - Nat.pow 2 970

def overflows (digits : List Char) (exponent : Int) : Bool :=
  let mantissa := numberOf 10 digits
  let magnitude : Int := (Nat.toDigits 10 mantissa).length + exponent
  if mantissa = 0 ∨ magnitude < 300 then false
  else if 400 < magnitude then true
  else if 0 ≤ exponent then floatBound ≤ mantissa * Nat.pow 10 exponent.toNat
  else floatBound * Nat.pow 10 (-exponent).toNat ≤ mantissa

def exponent : Reader Int := do
  let _ ← charIf fun c => c == 'e' || c == 'E'
  let negative ← sign
  let n : Int := numberOf 10 (← digitsOf Char.isDigit)
  return if negative then -n else n

/-- A float with a fraction or an exponent. A positive one too large to be finite is refused. -/
def decimalFloat : Reader Unit := do
  let negative ← sign
  let whole ← plainDecimal
  let fraction ← maybe (do char '.'; digitsOf Char.isDigit)
  let scale ← maybe exponent
  if fraction.isNone && scale.isNone then failure
  let decimals := fraction.getD []
  if !negative && overflows (whole ++ decimals) (scale.getD 0 - decimals.length) then failure

def specialFloat : Reader Unit := do
  let _ ← sign
  word "inf" <|> word "nan"

def fixed (n low high : Nat) : Reader Nat := do
  let value := numberOf 10 (← exactly n Char.isDigit)
  if low ≤ value ∧ value ≤ high then return value else failure

def isLeapYear (year : Nat) : Bool := year % 4 == 0 && (year % 100 != 0 || year % 400 == 0)

def daysIn (year month : Nat) : Nat :=
  if month = 2 then (if isLeapYear year then 29 else 28)
  else if month ∈ [4, 6, 9, 11] then 30
  else 31

def date : Reader Unit := do
  let year ← fixed 4 0 9999
  char '-'
  let month ← fixed 2 1 12
  char '-'
  let _ ← fixed 2 1 (daysIn year month)

def time : Reader Unit := do
  let _ ← fixed 2 0 23
  char ':'
  let _ ← fixed 2 0 59
  char ':'
  let _ ← fixed 2 0 60
  let _ ← maybe (do char '.'; let _ ← charIf Char.isDigit; span Char.isDigit)

def offset : Reader Unit :=
  (do let _ ← charIf fun c => c == 'Z' || c == 'z') <|> do
    let _ ← charIf fun c => c == '+' || c == '-'
    let _ ← fixed 2 0 23
    char ':'
    let _ ← fixed 2 0 59

def dateTime : Reader Unit :=
  (do
    date
    let _ ← maybe do
      let _ ← charIf fun c => c == 'T' || c == 't' || c == ' '
      time
      maybe offset) <|> time

def literal (reader : Reader Unit) : Reader String := fun input =>
  match reader input with
  | some ((), rest) => some (String.ofList (input.take (input.length - rest.length)), rest)
  | none => none

def scalar : Reader Value :=
  (do return .string (← string))
    <|> (do word "true"; return .boolean true)
    <|> (do word "false"; return .boolean false)
    <|> (do return .dateTime (← literal dateTime))
    <|> (do return .float (← literal (decimalFloat <|> specialFloat)))
    <|> (do return .integer (← integer))

end Toml

end BlobCensus
