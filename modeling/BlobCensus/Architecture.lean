/-!
# Architectures

The bit width of a blob, and how it is read from a format description: the leftmost phrase
`ELF dd-bit`, with any two decimal digits, decides. The decimal digits are the characters of the
general category Nd, which come in blocks of ten consecutive code points.
-/
namespace BlobCensus

namespace DecimalDigit

/-- The code point of zero in each block of ten digits. -/
def zeros : List Nat :=
  [0x30, 0x660, 0x6F0, 0x7C0, 0x966, 0x9E6, 0xA66, 0xAE6, 0xB66, 0xBE6, 0xC66, 0xCE6, 0xD66,
   0xDE6, 0xE50, 0xED0, 0xF20, 0x1040, 0x1090, 0x17E0, 0x1810, 0x1946, 0x19D0, 0x1A80, 0x1A90,
   0x1B50, 0x1BB0, 0x1C40, 0x1C50, 0xA620, 0xA8D0, 0xA900, 0xA9D0, 0xA9F0, 0xAA50, 0xABF0,
   0xFF10, 0x104A0, 0x10D30, 0x10D40, 0x11066, 0x110F0, 0x11136, 0x111D0, 0x112F0, 0x11450,
   0x114D0, 0x11650, 0x116C0, 0x116D0, 0x116DA, 0x11730, 0x118E0, 0x11950, 0x11BF0, 0x11C50,
   0x11D50, 0x11DA0, 0x11F50, 0x16130, 0x16A60, 0x16AC0, 0x16B50, 0x16D70, 0x1CCF0, 0x1D7CE,
   0x1D7D8, 0x1D7E2, 0x1D7EC, 0x1D7F6, 0x1E140, 0x1E2F0, 0x1E4F0, 0x1E5F1, 0x1E950, 0x1FBF0]

def isDigit (c : Char) : Bool := zeros.any fun first => first ≤ c.toNat && c.toNat < first + 10

end DecimalDigit

inductive Architecture where
  | bits32
  | bits64
  | unknown
  deriving DecidableEq, Repr, Inhabited

namespace Architecture

def tag : Architecture → String
  | bits32 => "32"
  | bits64 => "64"
  | unknown => "unknown"

def ofBits (bits : String) : Architecture :=
  if bits = "32" then bits32 else if bits = "64" then bits64 else unknown

def ofTag? (text : String) : Option Architecture :=
  [bits32, bits64, unknown].find? (·.tag == text)

def isKnown (a : Architecture) : Bool := a != unknown

def phraseDigits? (text : List Char) : Option (List Char) :=
  let digits := (text.drop 4).take 2
  if text.take 4 = "ELF ".toList ∧ digits.all DecimalDigit.isDigit ∧
      (text.drop 6).take 4 = "-bit".toList then
    some digits
  else none

/-- The digits of the leftmost phrase `ELF dd-bit`. -/
def firstPhraseDigits? : List Char → Option (List Char)
  | [] => none
  | c :: rest =>
    match phraseDigits? (c :: rest) with
    | some digits => some digits
    | none => firstPhraseDigits? rest

def ofDescription (description : String) : Architecture :=
  match firstPhraseDigits? description.toList with
  | some digits => ofBits (String.ofList digits)
  | none => unknown

end Architecture

end BlobCensus
