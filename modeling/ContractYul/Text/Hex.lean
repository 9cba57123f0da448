import ContractYul.Text.Digits

/-!
# Bytes as hexadecimal text

Bytes are written with two lower-case digits each. Reading takes either case and reports the first
fault: an odd number of bytes of text, or the first byte of the text that is no digit.
-/

namespace ContractYul.Text

def utf8 (s : String) : List UInt8 :=
  s.toUTF8.data.toList

/-- The two lower-case hexadecimal digits of a byte. -/
def hexByte (b : UInt8) : List Char :=
  [Nat.digitChar (b.toNat / 16), Nat.digitChar (b.toNat % 16)]

/-- Two lower-case hexadecimal digits per byte. -/
def hexEncode (bytes : List UInt8) : String :=
  String.ofList (bytes.flatMap hexByte)

/-- The lower-case hexadecimal digits of a number, padded with zeros to `width`. -/
def hexPadded (width n : Nat) : String :=
  let digits := Nat.toDigits 16 n
  String.ofList (List.replicate (width - digits.length) '0' ++ digits)

inductive HexFault where
  /-- The text has an odd number of bytes. -/
  | oddLength
  /-- The byte of the text at `position` is no digit. -/
  | badByte (byte : UInt8) (position : Nat)
  deriving DecidableEq

/-- The character with a byte as its code point, in single quotes, with the characters that do not
print written as escapes. -/
def quotedByte (b : UInt8) : String :=
  let body :=
    if b = 0 then "\\0"
    else if b = 9 then "\\t"
    else if b = 10 then "\\n"
    else if b = 13 then "\\r"
    else if b = 39 then "\\'"
    else if b = 92 then "\\\\"
    else if b < 0x20 || (0x7f ≤ b && b ≤ 0xa0) || b = 0xad then
      "\\u\x7b" ++ String.ofList (Nat.toDigits 16 b.toNat) ++ "\x7d"
    else String.singleton (Char.ofNat b.toNat)
  "'" ++ body ++ "'"

def HexFault.message : HexFault → String
  | .oddLength => "Odd number of digits"
  | .badByte b position => s!"Invalid character {quotedByte b} at position {position}"

/-- Value of a byte that is the code of a hexadecimal digit. -/
def nibble (position : Nat) (b : UInt8) : Except HexFault UInt8 :=
  match hexDigit? (Char.ofNat b.toNat) with
  | some d => .ok (UInt8.ofNat d)
  | none => .error (.badByte b position)

def hexPairs : Nat → List UInt8 → Except HexFault (List UInt8)
  | position, hi :: lo :: rest => do
    let h ← nibble position hi
    let l ← nibble (position + 1) lo
    let bytes ← hexPairs (position + 2) rest
    return (h * 16 + l) :: bytes
  | _, _ => .ok []

def hexDecode (s : String) : Except HexFault (List UInt8) :=
  let bytes := utf8 s
  if bytes.length % 2 = 1 then .error .oddLength else hexPairs 0 bytes

end ContractYul.Text
