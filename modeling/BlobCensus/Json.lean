/-!
# JSON documents

The values that reports are made of, and their two written forms: compact, on one line, and pretty,
with one item a line and two blanks a level.
-/
namespace BlobCensus

inductive Json where
  | text (value : String)
  | number (value : Nat)
  | list (items : List Json)
  | object (fields : List (String × Json))

namespace Json

inductive Layout where
  | compact
  | pretty
  deriving DecidableEq, Repr

namespace Layout

/-- What stands before an item at some depth, and before the bracket that closes it. -/
def lineStart : Layout → Nat → List Char
  | compact, _ => []
  | pretty, depth => '\n' :: List.replicate (2 * depth) ' '

def colon : Layout → List Char
  | compact => [':']
  | pretty => [':', ' ']

end Layout

def hexDigit (n : Nat) : Char := if n < 10 then Char.ofNat (48 + n) else Char.ofNat (87 + n)

def escape (c : Char) : List Char :=
  if c = '"' then ['\\', '"']
  else if c = '\\' then ['\\', '\\']
  else if c = '\n' then ['\\', 'n']
  else if c = '\r' then ['\\', 'r']
  else if c = '\t' then ['\\', 't']
  else if c.toNat = 8 then ['\\', 'b']
  else if c.toNat = 12 then ['\\', 'f']
  else if c.toNat < 32 then ['\\', 'u', '0', '0', hexDigit (c.toNat / 16), hexDigit (c.toNat % 16)]
  else [c]

def quote (text : String) : List Char := '"' :: text.toList.flatMap escape ++ ['"']

def bracket (layout : Layout) (depth : Nat) (opening closing : Char) (items : List (List Char)) :
    List Char :=
  if items.isEmpty then [opening, closing]
  else
    let lineStart := layout.lineStart (depth + 1)
    opening :: lineStart ++ (',' :: lineStart).intercalate items ++
      layout.lineStart depth ++ [closing]

mutual

def renderAt (layout : Layout) (depth : Nat) : Json → List Char
  | text value => quote value
  | number value => Nat.toDigits 10 value
  | list items => bracket layout depth '[' ']' (renderItems layout (depth + 1) items)
  | object fields => bracket layout depth '{' '}' (renderFields layout (depth + 1) fields)

def renderItems (layout : Layout) (depth : Nat) : List Json → List (List Char)
  | [] => []
  | item :: rest => renderAt layout depth item :: renderItems layout depth rest

def renderFields (layout : Layout) (depth : Nat) : List (String × Json) → List (List Char)
  | [] => []
  | (key, value) :: rest =>
    (quote key ++ layout.colon ++ renderAt layout depth value) :: renderFields layout depth rest

end

def render (layout : Layout) (value : Json) : String := String.ofList (renderAt layout 0 value)

end Json

end BlobCensus
