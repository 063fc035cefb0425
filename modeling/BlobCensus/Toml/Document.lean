import BlobCensus.Toml.Scalar

/-!
# TOML documents

Keys, arrays, inline tables and the lines of a document.
-/
namespace BlobCensus.Toml

open Reader

def simpleKey : Reader String :=
  basicString <|> literalString <|> do
    let first ← charIf isBareKeyChar
    return String.ofList (first :: (← span isBareKeyChar))

/-- Values are nested, and keys joined, to less than this depth. -/
def maxDepth : Nat := 80

def key : Reader (List String × String) := do
  let one : Reader String := do
    blanks
    let part ← simpleKey
    blanks
    return part
  let first ← one
  let parts := first :: (← many (do char '.'; one))
  if parts.length < maxDepth then return (parts.dropLast, parts.getLastD "") else failure

def comment : Reader Unit := do
  char '#'
  let _ ← span isTextChar

/-- Blanks, line ends and comments, which mean nothing inside an array. -/
def space : Reader Unit := do
  let _ ← many (lineEnd <|> comment <|> (do let _ ← charIf isBlank))

def separated {α : Type} (item : Reader α) : Reader (List α) := do
  match ← maybe item with
  | none => return []
  | some first => return first :: (← many (do char ','; item))

/-- An array; a comma may follow its last item. -/
def array (value : Reader Value) : Reader Value := do
  char '['
  let items ← separated do
    space
    let item ← value
    space
    return item
  if !items.isEmpty then
    let _ ← maybe (char ',')
  space
  char ']'
  return .array items

def pair (value : Reader Value) : Reader (List String × String × Value) := do
  let (path, last) ← key
  char '='
  blanks
  let v ← value
  blanks
  return (path, last, v)

def inlineTable (value : Reader Value) : Reader Value := do
  char '{'
  blanks
  let pairs ← separated (pair value)
  char '}'
  match pairs.foldlM (fun fields (path, last, v) => Fields.insert last v path fields) [] with
  | some fields => return .table .inline fields
  | none => failure

def value : (depth : Nat) → Reader Value
  | 0 => scalar
  | depth + 1 => array (value depth) <|> inlineTable (value depth) <|> scalar

inductive Line where
  | pair (path : List String) (key : String) (value : Value)
  | table (path : List String)
  | element (path : List String)

def header : Reader Line :=
  (do
    word "[["
    let (path, last) ← key
    word "]]"
    return .element (path ++ [last])) <|> do
    word "["
    let (path, last) ← key
    word "]"
    return .table (path ++ [last])

def line : Reader (Option Line) := do
  blanks
  let said ← maybe <| header <|> do
    let (path, last, v) ← pair (value (maxDepth - 1))
    return .pair path last v
  blanks
  let _ ← maybe comment
  return said

/-- The lines of a document. The last one may do without a line end. -/
def lines : Reader (List Line) := do
  let _ ← maybe (char (Char.ofNat 0xFEFF))
  let first ← line
  let rest ← many (do lineEnd; line)
  return (first :: rest).filterMap id

structure Draft where
  fields : Fields := []
  path : List String := []

def Draft.add (d : Draft) : Line → Option Draft
  | .pair path key v => do
    return { d with fields := ← d.fields.alterAt (Fields.insert key v path) d.path }
  | .table path => do return ⟨← d.fields.openTable path, path⟩
  | .element path => do return ⟨← d.fields.openElement path, path⟩

def parse (text : String) : Option Fields := do
  let said ← readAll lines text.toList
  let d ← said.foldlM Draft.add {}
  return d.fields

end BlobCensus.Toml
