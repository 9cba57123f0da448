import ContractYul.Lowering.Operand
import ContractYul.Text.Number

/-!
# Literals

Numbers, byte strings, arrays and structs written out in code, and the zero value of a type. What is
no value is built in fresh memory; empty byte strings and arrays are the zero word.
-/

namespace ContractYul.Lowering

open Yul

def numberLiteral (text : String) : Outcome Value :=
  match Text.normalizeNumber? text with
  | some literal => .ok ⟨numText literal, .uint 256⟩
  | none => .error (.malformedType text .notIntegerLiteral)

def hexLiteralBytes (digits : String) : Outcome (List UInt8) :=
  match Text.hexDecode digits with
  | .ok bytes => .ok bytes
  | .error fault => .error (.malformedType digits (.hex fault))

/-- Fresh memory of a number of bytes, bound to a temporary. -/
def allocate (bytes : Nat) (ty : Ty) : Lower Value := do
  captureFresh ⟨← routine .allocateMemory [num bytes], ty⟩

def storeWords (pointer : Yul.Expr) (start : Nat) (words : List Yul.Expr) : Lower Unit :=
  emitAll (words.zipIdx.map fun (word, i) => Op.mstore (wordAt pointer (start + i)) word)

/-! ## Byte strings -/

def bytesLiteral (bytes : List UInt8) (ty : Ty) : Lower Value :=
  if bytes.isEmpty then return ⟨num emptyMemory, ty⟩
  else do
    let words := (chunks 32 bytes).map leftAligned
    let pointer ← allocate (32 * (words.length + 1)) ty
    storeWords pointer.expr 0 (num bytes.length :: words)
    return pointer

/-- A byte string where a type is expected: a word for a type of fixed length, which it must not
exceed. -/
def bytesLiteralAs (bytes : List UInt8) (own expected : Ty) : Lower Value :=
  match expected with
  | .fixedBytes n =>
    if bytes.length > n then
      throw (.malformedType expected.describe (.literalTooLong bytes.length))
    else return ⟨leftAligned bytes, expected⟩
  | .string | .bytes => bytesLiteral bytes expected
  | _ => do coerce (← bytesLiteral bytes own) expected

/-! ## Arrays -/

def arrayOf (elem : Ty) (values : List Value) : Lower Value :=
  if values.isEmpty then return ⟨num emptyMemory, .array elem none⟩
  else do
    let pointer ← allocate (32 * (values.length + 1)) (.array elem (some values.length))
    storeWords pointer.expr 0 (num values.length :: values.map (·.expr))
    return pointer

def arrayLiteral (elems : List Operand) : Lower Value := do
  let values ← orderedValues elems
  arrayOf ((values.head?.map (·.ty)).getD (.uint 256)) values

def arrayLiteralAs (elems : List Operand) (elem : Ty) (length : Option Nat) : Lower Value := do
  let ty := Ty.array elem length
  match length with
  | some n => checkArity (ty.describe ++ " literal") n elems.length
  | none => pure ()
  let array ← arrayOf elem (← orderedAs elems (elems.map fun _ => elem))
  return ⟨array.expr, ty⟩

/-! ## Zero values and structs -/

def zeroWith (struct : String → Lower Yul.Expr) : Ty → Lower Yul.Expr
  | .string | .bytes | .array _ none => return num emptyMemory
  | .struct name => struct name
  | .array elem (some n) => do
    let array ← allocate (32 * (n + 1)) (.array elem (some n))
    emit (Op.mstore array.expr (num n))
    if elem.isValue then
      emit (.run "calldatacopy" [Op.dataOf array.expr, call "calldatasize" [], num (32 * n)])
    else
      (List.range n).forM fun i => do
        let zero ← zeroWith struct elem
        emit (Op.mstore (wordAt array.expr (i + 1)) zero)
    return array.expr
  | .mapping key value => throw (.unsupported (.outsideStorage (.mapping key value)))
  | .tuple elems => throw (.unsupported (.outsideStorage (.tuple elems)))
  | _ => return num 0

def structOf (zero : Ty → Lower Yul.Expr) (layout : StructLayout) (given : List (String × Value)) :
    Lower Value := do
  let pointer ← allocate (32 * layout.fields.size) (.struct layout.name)
  layout.fields.entries.zipIdx.forM fun ((name, field), i) => do
    let value ← match given.lookup name with
      | some v => pure v.expr
      | none => zero field.ty
    emit (Op.mstore (wordAt pointer.expr i) value)
  return pointer

/-- The zero value of a struct, nested at most `depth` levels deep. -/
def zeroStruct : (depth : Nat) → String → Lower Yul.Expr
  | 0, name => throw (.cyclicStruct name)
  | depth + 1, name => do
    let layout ← structLayout name
    return (← structOf (zeroWith (zeroStruct depth)) layout []).expr

def zeroValue (ty : Ty) : Lower Yul.Expr := do
  zeroWith (zeroStruct (← nestingBound)) ty

def literalFieldType (layout : StructLayout) (field : String) : Outcome Ty :=
  match layout.fields.get? field with
  | some f => .ok f.ty
  | none => .error (.unknownMember field (.struct layout.name))

/-- A struct literal. Fields that it leaves out are zero; of a field given twice the first value
counts. -/
def structLiteral (name : String) (fields : List (String × Operand)) : Lower Value := do
  let layout ← structLayout name
  let types ← fields.mapM fun (field, _) => (literalFieldType layout field : Outcome Ty)
  let values ← orderedAs (fields.map (·.2)) types
  structOf zeroValue layout ((fields.map (·.1)).zip values)

end ContractYul.Lowering
