import ContractYul.Lowering.Failure

/-!
# Hashes and encodings

`keccak256` and the members of `abi`. An encoding is made in fresh memory as a byte string; the
routine that makes it is told the shapes of the arguments by a literal.
-/

namespace ContractYul.Lowering

open Yul

/-! ## Hashes -/

def arrayHash (pointer : Yul.Expr) : Yul.Expr :=
  Op.keccak (Op.dataOf pointer) (Op.mul (Op.mload pointer) (num 32))

/-- The hash of what a pointer leads to, for byte strings and arrays of words; nothing for other
types. -/
def referenceHash? (v : Value) : Lower (Option Yul.Expr) := do
  match v.ty with
  | .bytes | .string => return some (← routine .bytesHash [v.expr])
  | .array elem _ =>
    if elem.isValue then return some (arrayHash (← capture v).expr) else return none
  | _ => return none

def hashValue (v : Value) : Lower Value := do
  match ← referenceHash? v with
  | some hash => captureFresh ⟨hash, .fixedBytes 32⟩
  | none =>
    if v.ty.isValue then
      emit (Op.mstore (num 0) v.expr)
      captureFresh ⟨Op.keccak (num 0) (num 32), .fixedBytes 32⟩
    else throw (.unsupported (.hashOf v.ty))

def keccakCall : List Operand → Lower Value
  | [arg] => do hashValue (← arg.value)
  | args => throw (.arityMismatch "keccak256" 1 args.length)

/-! ## Encodings -/

def encodeWith (f : RoutineFamily) (front args : List Yul.Expr) : Lower Value := do
  let bytes ← freeMemory .bytes
  let encoded ← family f args.length (Op.dataOf bytes.expr :: front ++ args)
  let stop ← bindFresh encoded
  runRoutine .finalizeBytes [bytes.expr, ident stop]
  return bytes

def encode (values : List Value) : Lower Value := do
  encodeWith .abiEncode [← shapeLiteral (values.map (·.ty))] (values.map (·.expr))

def encodeSelector (selector : Yul.Expr) (values : List Value) : Lower Value := do
  encodeWith .abiEncodeSelector [selector, ← shapeLiteral (values.map (·.ty))]
    (values.map (·.expr))

/-- A value as it goes into a packed encoding: at the low end of its word. -/
def packedWord (v : Value) : Yul.Expr :=
  match v.ty with
  | .fixedBytes n => if n < 32 then Op.shr (num (bitsBelow n)) v.expr else v.expr
  | _ => v.expr

def encodePacked (values : List Value) : Lower Value := do
  let widths ← values.mapM fun v => (Shape.packedWidth v.ty : Outcome Nat)
  let shape ← Shape.literal widths 8
  encodeWith .abiEncodePacked [shape] (values.map packedWord)

/-! ## Decodings -/

def bindResults (e : Yul.Expr) (types : List Ty) : Lower (List Value) := do
  if types.isEmpty then
    emitExpr e
    return []
  else
    let names ← types.mapM fun _ => temp
    emit (.declare names (some e))
    return (names.zip types).map fun (name, ty) => ⟨ident name, ty⟩

def decoded (bytes : Yul.Expr) (types : List Ty) : Lower Yul.Expr := do
  family .abiDecode types.length [bytes, ← shapeLiteral types]

def listedType : Source.Expr → Lower Ty
  | .ident text | .string text => resolve text
  | _ => throw (.unsupported .computedTypeList)

def typeList : Source.Expr → List Source.Expr
  | .tuple items | .array items => items
  | e => [e]

def decodeCall : List Operand → Lower (List Value)
  | [data, types] => do
    let types ← (typeList types.source).mapM listedType
    let bytes ← data.valueAs .bytes
    bindResults (← decoded bytes.expr types) types
  | args => throw (.arityMismatch "abi.decode" 2 args.length)

/-! ## Members of `abi` -/

def encodeWithSelectorCall : List Operand → Lower Value
  | [] => throw (.arityMismatch "abi.encodeWithSelector" 1 0)
  | selector :: args => do
    let word ← capture (← selector.valueAs (.fixedBytes 4))
    let values ← orderedValues args
    encodeSelector (Op.shr (num 224) word.expr) values

def encodeWithSignatureCall : List Operand → Lower Value
  | [] => throw (.unsupported .computedSignature)
  | signature :: args =>
    match signature.source with
    | .string text => do
      let values ← orderedValues args
      encodeSelector (selectorLiteral (Abi.selector text)) values
    | _ => throw (.unsupported .computedSignature)

def abiCall (member : String) (args : List Operand) : Lower (List Value) := do
  match member with
  | "encode" => return [← encode (← orderedValues args)]
  | "encodePacked" => return [← encodePacked (← orderedValues args)]
  | "encodeWithSelector" => return [← encodeWithSelectorCall args]
  | "encodeWithSignature" => return [← encodeWithSignatureCall args]
  | "decode" => decodeCall args
  | _ => throw (.unknownMember member (.predefined "abi"))

end ContractYul.Lowering
