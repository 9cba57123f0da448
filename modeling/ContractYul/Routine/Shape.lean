import ContractYul.Error
import ContractYul.Yul.Basic

/-!
# Shape words

What the arguments of an encoding are is told by one literal with a code per argument, the first
argument in the lowest bits. Standard encodings use two bits: 0 a word, 1 a byte string, 2 an array
of words. Packed encodings use a byte: the width of a value, or 0 for a byte string.
-/

namespace ContractYul.Shape

def ofTy (t : Ty) : Outcome Nat :=
  if t.isValue then .ok 0
  else match t with
    | .bytes | .string => .ok 1
    | .array elem none => if elem.isValue then .ok 2 else .error (.unsupported (.abiEncoding t))
    | _ => .error (.unsupported (.abiEncoding t))

def packedWidth (t : Ty) : Outcome Nat :=
  if t.isBytesLike then .ok 0
  else if t.isValue && t != .functionRef then .ok t.byteSize
  else .error (.unsupported (.packedEncoding t))

/-- Sets a bit of a word, which is held as 32 bytes with the highest one first. -/
def setBit (word : List UInt8) (pos : Nat) : List UInt8 :=
  word.modify (31 - pos / 8) (· ||| UInt8.ofNat (1 <<< (pos % 8)))

/-- Sets the bits of a code in a word, from `start` on. -/
def placeCode (bits start code : Nat) (word : List UInt8) : List UInt8 :=
  (List.range bits).foldl (fun word b =>
    if (code >>> b) &&& 1 = 1 then setBit word (start + b) else word) word

def placeCodes (bits : Nat) : (index : Nat) → List Nat → List UInt8 → List UInt8
  | _, [], word => word
  | i, code :: rest, word => placeCodes bits (i + 1) rest (placeCode bits (i * bits) code word)

def literalText (word : List UInt8) : String :=
  let digits := Text.dropZeros (word.flatMap Text.hexByte)
  if digits.isEmpty then "0" else "0x" ++ String.ofList digits

/-- The literal of a list of codes; a word holds at most 256 bits of them. -/
def literal (codes : List Nat) (bits : Nat) : Outcome Yul.Expr :=
  if codes.length * bits > 256 then .error (.unsupported (.manyArguments codes.length))
  else .ok (Yul.numText (literalText (placeCodes bits 0 codes (List.replicate 32 0))))

end ContractYul.Shape
