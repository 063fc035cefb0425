/-!
# TOML values

A value remembers how a table came to be, because that decides what may still be added to it.
-/
namespace BlobCensus.Toml

/-- How a table was introduced: between braces, by its own header, by the header of a table below it, or
by a dotted key. -/
inductive Origin where
  | inline
  | header
  | implied
  | dotted
  deriving DecidableEq, Repr

inductive Value where
  | string (text : String)
  | integer (value : Int)
  | float (literal : String)
  | boolean (value : Bool)
  | dateTime (literal : String)
  | array (items : List Value)
  | table (origin : Origin) (fields : List (String × Value))
  /-- The tables of a repeated header. -/
  | tables (elements : List (List (String × Value)))

abbrev Fields := List (String × Value)

namespace Fields

def set (key : String) (value : Value) : Fields → Fields
  | [] => [(key, value)]
  | (k, v) :: rest => if k = key then (k, value) :: rest else (k, v) :: set key value rest

def alterLast (change : Fields → Option Fields) : List Fields → Option (List Fields)
  | [] => none
  | [last] => (change last).map ([·])
  | first :: rest => (alterLast change rest).map (first :: ·)

/-- Adds a value under a dotted key: `path` and then `key`. Only tables that dotted keys made take
it, and no key is taken twice. -/
def insert (key : String) (value : Value) : (path : List String) → Fields → Option Fields
  | [], fields => if (fields.lookup key).isSome then none else some (fields ++ [(key, value)])
  | k :: path, fields =>
    match fields.lookup k with
    | none => (insert key value path []).map fun sub => fields ++ [(k, .table .dotted sub)]
    | some (.table .dotted sub) =>
      (insert key value path sub).map fun sub => fields.set k (.table .dotted sub)
    | some (.table .implied sub) =>
      if path.isEmpty then none
      else (insert key value path sub).map fun sub => fields.set k (.table .implied sub)
    | some (.tables elements) =>
      if path.isEmpty then none
      else (alterLast (insert key value path) elements).map fun es => fields.set k (.tables es)
    | some _ => none

/-- Adds what the header names: `last` makes it from what its last key stands for. Tables above
it are implied where they are missing, and of repeated tables the last one is meant. -/
def openHeader (last : Option Value → Option Value) : (path : List String) → Fields → Option Fields
  | [], _ => none
  | [k], fields => (last (fields.lookup k)).map fun v => fields.set k v
  | k :: path, fields =>
    match fields.lookup k with
    | none => (openHeader last path []).map fun sub => fields ++ [(k, .table .implied sub)]
    | some (.table .inline _) => none
    | some (.table origin sub) =>
      (openHeader last path sub).map fun sub => fields.set k (.table origin sub)
    | some (.tables elements) =>
      (alterLast (openHeader last path) elements).map fun es => fields.set k (.tables es)
    | some _ => none

/-- A header in single brackets names a table that is new or so far implied. -/
def openTable : List String → Fields → Option Fields :=
  openHeader fun
    | none => some (.table .header [])
    | some (.table .implied sub) => some (.table .header sub)
    | some _ => none

def openElement : List String → Fields → Option Fields :=
  openHeader fun
    | none => some (.tables [[]])
    | some (.tables elements) => some (.tables (elements ++ [[]]))
    | some _ => none

def alterAt (change : Fields → Option Fields) : (path : List String) → Fields → Option Fields
  | [], fields => change fields
  | k :: path, fields =>
    match fields.lookup k with
    | some (.table origin sub) =>
      (alterAt change path sub).map fun sub => fields.set k (.table origin sub)
    | some (.tables elements) =>
      (alterLast (alterAt change path) elements).map fun es => fields.set k (.tables es)
    | _ => none

end Fields

end BlobCensus.Toml
