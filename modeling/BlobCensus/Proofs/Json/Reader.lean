import BlobCensus.Json

/-!
# Reading JSON

A reader for any JSON document, whoever wrote it: blanks may stand around every value, texts may use
every escape, characters outside the basic plane may be given by two escapes, and numbers may have a
sign, a fraction and an exponent. A field that is given again in one object is replaced. The reader
spends a unit of fuel whenever it enters a value, an item or a field, and each takes up characters of
its own, so that the length of the text is always enough.
-/
namespace BlobCensus.JsonReader

structure Number where
  negative : Bool := false
  digits : Nat
  fraction : Nat := 0
  exponent : Int := 0
  deriving DecidableEq, Repr

inductive Value where
  | null
  | bool (value : Bool)
  | number (value : Number)
  | text (value : String)
  | list (items : List Value)
  | object (fields : List (String × Value))

def isBlank (c : Char) : Bool := c == ' ' || c == '\t' || c == '\n' || c == '\r'

def skip (text : List Char) : List Char := text.dropWhile isBlank

def hexValue? (c : Char) : Option Nat :=
  if c.isDigit then some (c.toNat - 48)
  else if 'a' ≤ c ∧ c ≤ 'f' then some (c.toNat - 87)
  else if 'A' ≤ c ∧ c ≤ 'F' then some (c.toNat - 55)
  else none

def unit? (a b c d : Char) : Option Nat := do
  return (((← hexValue? a) * 16 + (← hexValue? b)) * 16 + (← hexValue? c)) * 16 + (← hexValue? d)

/-- Whether a value is the first half of a character outside the basic plane. -/
def isHigh (value : Nat) : Bool := 0xD800 ≤ value && value ≤ 0xDBFF

def isLow (value : Nat) : Bool := 0xDC00 ≤ value && value ≤ 0xDFFF

def joined (high low : Nat) : Char := Char.ofNat (0x10000 + (high - 0xD800) * 0x400 + (low - 0xDC00))

def unescape? : Char → Option Char
  | '"' => some '"'
  | '\\' => some '\\'
  | '/' => some '/'
  | 'b' => some (Char.ofNat 8)
  | 'f' => some (Char.ofNat 12)
  | 'n' => some '\n'
  | 'r' => some '\r'
  | 't' => some '\t'
  | _ => none

def push (c : Char) (read : Option (List Char × List Char)) : Option (List Char × List Char) :=
  read.map fun (chars, rest) => (c :: chars, rest)

def readChars : List Char → Option (List Char × List Char)
  | '"' :: rest => some ([], rest)
  | '\\' :: 'u' :: a :: b :: c :: d :: rest =>
    match unit? a b c d with
    | none => none
    | some value =>
      if isHigh value then
        match rest with
        | '\\' :: 'u' :: a :: b :: c :: d :: rest =>
          match unit? a b c d with
          | none => none
          | some low => if isLow low then push (joined value low) (readChars rest) else none
        | _ => none
      else if isLow value then none
      else push (Char.ofNat value) (readChars rest)
  | '\\' :: letter :: rest =>
    match unescape? letter with
    | none => none
    | some c => push c (readChars rest)
  | c :: rest => if c.toNat < 32 ∨ c = '\\' then none else push c (readChars rest)
  | [] => none

def readFraction : List Char → Option (List Char × List Char)
  | '.' :: rest =>
    let (digits, rest) := rest.span Char.isDigit
    if digits = [] then none else some (digits, rest)
  | text => some ([], text)

def readSign : List Char → Bool × List Char
  | '+' :: rest => (false, rest)
  | '-' :: rest => (true, rest)
  | text => (false, text)

def readExponent (text : List Char) : Option (Int × List Char) :=
  match text with
  | c :: rest =>
    if c = 'e' ∨ c = 'E' then
      let (negative, rest) := readSign rest
      let (digits, rest) := rest.span Char.isDigit
      let value : Int := Nat.ofDigitChars 10 digits 0
      if digits = [] then none else some (if negative then -value else value, rest)
    else some (0, text)
  | [] => some (0, [])

/-- A number without a sign. It has no needless zero in front. -/
def readUnsigned (negative : Bool) (text : List Char) : Option (Number × List Char) :=
  let (whole, rest) := text.span Char.isDigit
  if whole = [] ∨ whole.head? = some '0' ∧ whole ≠ ['0'] then none
  else
    match readFraction rest with
    | none => none
    | some (fraction, rest) =>
      match readExponent rest with
      | none => none
      | some (exponent, rest) =>
        let digits := Nat.ofDigitChars 10 (whole ++ fraction) 0
        some (⟨negative, digits, fraction.length, exponent⟩, rest)

def readNumber : List Char → Option (Number × List Char)
  | '-' :: rest => readUnsigned true rest
  | text => readUnsigned false text

/-- Gives a field its value, in the place of the one that it had. -/
def put (name : String) (value : Value) : List (String × Value) → List (String × Value)
  | [] => [(name, value)]
  | field :: rest => if field.1 = name then (name, value) :: rest else field :: put name value rest

mutual

/-- A value that begins the text, and the text after it. -/
def readValue : Nat → List Char → Option (Value × List Char)
  | 0, _ => none
  | fuel + 1, text =>
    match text with
    | 'n' :: 'u' :: 'l' :: 'l' :: rest => some (.null, rest)
    | 't' :: 'r' :: 'u' :: 'e' :: rest => some (.bool true, rest)
    | 'f' :: 'a' :: 'l' :: 's' :: 'e' :: rest => some (.bool false, rest)
    | '"' :: rest => (readChars rest).map fun (chars, rest) => (.text (String.ofList chars), rest)
    | '[' :: rest =>
      match skip rest with
      | ']' :: rest => some (.list [], rest)
      | rest => readItems fuel [] rest
    | '{' :: rest =>
      match skip rest with
      | '}' :: rest => some (.object [], rest)
      | rest => readFields fuel [] rest
    | text => (readNumber text).map fun (number, rest) => (.number number, rest)

/-- A list from one of its items on, after the items that are done. -/
def readItems : Nat → List Value → List Char → Option (Value × List Char)
  | 0, _, _ => none
  | fuel + 1, done, text =>
    match readValue fuel text with
    | none => none
    | some (item, rest) =>
      match skip rest with
      | ',' :: rest => readItems fuel (done ++ [item]) (skip rest)
      | ']' :: rest => some (.list (done ++ [item]), rest)
      | _ => none

/-- An object from one of its fields on, after the fields that are done. -/
def readFields : Nat → List (String × Value) → List Char → Option (Value × List Char)
  | fuel + 1, done, '"' :: text =>
    match readChars text with
    | none => none
    | some (name, rest) =>
      match skip rest with
      | ':' :: rest =>
        match readValue fuel (skip rest) with
        | none => none
        | some (value, rest) =>
          match skip rest with
          | ',' :: rest => readFields fuel (put (String.ofList name) value done) (skip rest)
          | '}' :: rest => some (.object (put (String.ofList name) value done), rest)
          | _ => none
      | _ => none
  | _, _, _ => none

end

def read (text : String) : Option Value :=
  match readValue text.toList.length (skip text.toList) with
  | none => none
  | some (value, rest) => if skip rest = [] then some value else none

end BlobCensus.JsonReader
