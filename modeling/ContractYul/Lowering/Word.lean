import ContractYul.Lowering.Basic

/-!
# Words

Target expressions for words and the places that hold them: masks, truncation to the width of a
type, conversion between types, and reading and writing the bytes of a slot. Byte strings of fixed
length stand at the high end of a word and at the low end of their bytes in storage.
-/

namespace ContractYul

def Ty.isInteger : Ty → Bool
  | .uint _ | .int _ => true
  | _ => false

def Ty.isAccount : Ty → Bool
  | .address | .contract _ => true
  | _ => false

namespace Lowering

open Yul

/-- Address of the zero word, which serves as every empty byte string and array. -/
def emptyMemory : Nat := 0x60

/-! ## Literals -/

/-- The word with some bytes at its high end, the rest zero. -/
def leftAligned (bytes : List UInt8) : Yul.Expr :=
  let padded := bytes.take 32 ++ List.replicate (32 - bytes.length) 0
  if padded.all (· == 0) then num 0 else hexLiteral padded

def lowMask (n : Nat) : Yul.Expr :=
  numText (Ty.maskText n)

def highMask (n : Nat) : Yul.Expr :=
  numText (Ty.maskText n ++ String.join (List.replicate (32 - n) "00"))

/-! ## Truncation and conversion -/

/-- Cuts a result down to the width of its type. -/
def clean (e : Yul.Expr) : Ty → Yul.Expr
  | .uint bits => if bits < 256 then Op.both e (lowMask (bits / 8)) else e
  | .int bits => if bits < 256 then call "signextend" [num (bits / 8 - 1), e] else e
  | _ => e

def shiftRight (bits : Nat) (e : Yul.Expr) : Yul.Expr :=
  if bits = 0 then e else Op.shr (num bits) e

def shiftLeft (bits : Nat) (e : Yul.Expr) : Yul.Expr :=
  if bits = 0 then e else Op.shl (num bits) e

def nonZero (e : Yul.Expr) : Yul.Expr :=
  Op.isZero (Op.isZero e)

def boolOf (v : Value) : Yul.Expr :=
  if v.ty == .bool then v.expr else nonZero v.expr

def bitsBelow (n : Nat) : Nat :=
  256 - 8 * n

/-- The expression for a value of one type as a value of another, different type. -/
def converted? (source target : Ty) (e : Yul.Expr) : Option Yul.Expr :=
  if target.isInteger then
    match source with
    | .fixedBytes n => some (clean (shiftRight (bitsBelow n) e) target)
    | .uint _ | .int _ | .bool | .address | .contract _ => some (clean e target)
    | _ => none
  else if target.isAccount then
    match source with
    | .address | .contract _ => some e
    | .fixedBytes n => some (Op.both (shiftRight (bitsBelow n) e) (lowMask 20))
    | .uint _ | .int _ => some (Op.both e (lowMask 20))
    | _ => none
  else
    match target with
    | .fixedBytes n =>
      match source with
      | .uint _ | .int _ | .address | .contract _ => some (shiftLeft (bitsBelow n) e)
      | .fixedBytes m => some (if m > n then Op.both e (highMask n) else e)
      | .bytes | .string =>
        let word := Op.mload (Op.dataOf e)
        some (if n = 32 then word else Op.both word (highMask n))
      | _ => none
    | .bool => if source.isValue then some (nonZero e) else none
    | .bytes | .string => if source.isBytesLike then some e else none
    | _ => none

/-- Gives a value another type without changing the word. -/
def coerce (v : Value) (target : Ty) : Lower Value := do
  if v.isVoid then throw (.inconsistent (.voidUsedAs target (← read).function))
  else return ⟨v.expr, target⟩

def convert (v : Value) (target : Ty) : Lower Value :=
  if v.isVoid then coerce v target
  else if v.ty == target then return v
  else match converted? v.ty target v.expr with
    | some e => return ⟨e, target⟩
    | none => throw (.unsupported (.conversion v.ty target))

/-! ## Addresses and slots -/

def wordAt (pointer : Yul.Expr) (index : Nat) : Yul.Expr :=
  if index = 0 then pointer else Op.add pointer (num (32 * index))

def offsetSlot (slot : Yul.Expr) (offset : Nat) : Yul.Expr :=
  if offset = 0 then slot
  else match (slot.literalValue?.map (· + offset)).filter (· < Nat.pow 2 128) with
    | some folded => num folded
    | none => Op.add slot (num offset)

def scaled (count : Yul.Expr) (span : Nat) : Yul.Expr :=
  if span = 1 then count else Op.mul count (num span)

/-! ## Bytes of a slot -/

def loadName (transient : Bool) : String :=
  if transient then "tload" else "sload"

def storeName (transient : Bool) : String :=
  if transient then "tstore" else "sstore"

/-- Reads a value of `size` bytes, `offset` bytes from the low end of a slot. -/
def storageRead (slot : Yul.Expr) (offset size : Nat) (ty : Ty) (transient : Bool) : Yul.Expr :=
  let word := call (loadName transient) [slot]
  if size ≥ 32 then word
  else
    let raw := Op.both (shiftRight (8 * offset) word) (lowMask size)
    match ty with
    | .int _ => call "signextend" [num (size - 1), raw]
    | .fixedBytes n => Op.shl (num (bitsBelow n)) raw
    | _ => raw

/-- Writes a value of `size` bytes, `offset` bytes from the low end of a slot, and keeps the other
bytes. -/
def storageWrite (slot : Yul.Expr) (offset size : Nat) (ty : Ty) (transient : Bool)
    (value : Yul.Expr) : Yul.Stmt :=
  if size ≥ 32 then .run (storeName transient) [slot, value]
  else
    let value := match ty with
      | .fixedBytes n => Op.shr (num (bitsBelow n)) value
      | _ => value
    let kept := Op.both (call (loadName transient) [slot])
      (Op.complement (shiftLeft (8 * offset) (lowMask size)))
    let inserted := shiftLeft (8 * offset) (Op.both value (lowMask size))
    .run (storeName transient) [slot, Op.either kept inserted]

def slotSize (ty : Ty) : Nat :=
  if ty.isValue then min ty.byteSize 32 else 32

def wholeSlot (slot : Yul.Expr) (ty : Ty) (transient : Bool) : Place :=
  .storage slot 0 (slotSize ty) ty transient

end Lowering

end ContractYul
