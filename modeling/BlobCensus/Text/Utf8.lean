/-!
# UTF-8

`encode` gives the bytes of a text. `decode` reads any bytes as a sequence of characters and
faults, where one fault stands for each maximal sequence of bytes that begins a character without
completing one. `decodeLossy` shows a fault as the replacement character, `decode?` accepts only
bytes without fault.
-/
namespace BlobCensus.Utf8

def encode (text : String) : List UInt8 := text.toList.flatMap String.utf8EncodeChar

/-- A character that has begun: its value so far, the range of the next byte, and the number of
bytes it still needs. -/
structure Begun where
  value : Nat
  low : Nat
  high : Nat
  owed : Nat
  deriving DecidableEq, Repr

/-- What one byte settles: the characters (`none` for a fault) it completes, and the character
that is still open after it. -/
structure Step where
  settled : List (Option Char)
  begun : Option Begun
  deriving DecidableEq, Repr

def start (byte : UInt8) : Step :=
  let n := byte.toNat
  if n < 0x80 then ⟨[some (Char.ofNat n)], none⟩
  else if n < 0xC2 then ⟨[none], none⟩
  else if n < 0xE0 then ⟨[], some ⟨n - 0xC0, 0x80, 0xBF, 1⟩⟩
  else if n = 0xE0 then ⟨[], some ⟨0, 0xA0, 0xBF, 2⟩⟩
  else if n = 0xED then ⟨[], some ⟨n - 0xE0, 0x80, 0x9F, 2⟩⟩
  else if n < 0xF0 then ⟨[], some ⟨n - 0xE0, 0x80, 0xBF, 2⟩⟩
  else if n = 0xF0 then ⟨[], some ⟨0, 0x90, 0xBF, 3⟩⟩
  else if n < 0xF4 then ⟨[], some ⟨n - 0xF0, 0x80, 0xBF, 3⟩⟩
  else if n = 0xF4 then ⟨[], some ⟨n - 0xF0, 0x80, 0x8F, 3⟩⟩
  else ⟨[none], none⟩

/-- A byte after `begun`: it continues the open character, or is a fault there and starts anew. -/
def step (begun : Option Begun) (byte : UInt8) : Step :=
  match begun with
  | none => start byte
  | some current =>
    let n := byte.toNat
    if current.low ≤ n ∧ n ≤ current.high then
      let value := current.value * 64 + (n - 0x80)
      if current.owed ≤ 1 then ⟨[some (Char.ofNat value)], none⟩
      else ⟨[], some ⟨value, 0x80, 0xBF, current.owed - 1⟩⟩
    else
      let next := start byte
      ⟨none :: next.settled, next.begun⟩

def decodeFrom (begun : Option Begun) : List UInt8 → List (Option Char)
  | [] => if begun.isSome then [none] else []
  | byte :: rest =>
    let next := step begun byte
    next.settled ++ decodeFrom next.begun rest

def decode (bytes : List UInt8) : List (Option Char) := decodeFrom none bytes

def decodeLossy (bytes : List UInt8) : String :=
  String.ofList ((decode bytes).map (·.getD (Char.ofNat 0xFFFD)))

def decode? (bytes : List UInt8) : Option String :=
  let settled := decode bytes
  if settled.all Option.isSome then some (String.ofList (settled.filterMap id)) else none

end BlobCensus.Utf8
