import ContractYul.Lowering.Call
import ContractYul.Lowering.Operator

/-!
# Expressions

The operand of every expression, by recursion on the expression. The initial values of constants and
the bodies of expanded methods are not parts of the expression that uses them; they are lowered one
level further down, and there are `maxExpansions` levels. A constant below the last level refers to
itself, and a method below it is called.
-/

namespace ContractYul.Lowering

open Yul

/-! ## Forms with rules of their own -/

def singleResult (results : Lower (List Value)) : Lower Value := do
  match ← results with
  | [] => return Value.void
  | [v] => return v
  | vs => throw (.unsupported (.manyValues vs.length))

def Operand.ofCall (source : Source.Expr) (results : Lower (List Value)) : Operand :=
  { Operand.plain source (singleResult results) with
    values := results
    discard := do let _ ← results }

def revertCall (name : String) (args : List Operand) (otherwise : Lower Unit) : Lower Unit := do
  match (← read).catalog.errors.get? name with
  | some e => revertCustom e args
  | none => otherwise

def Operand.ofTuple (source : Source.Expr) (elems : List Operand) : Operand :=
  let value := match elems with
    | [elem] => elem.value
    | _ => throw (.unsupported .tupleAsValue)
  { Operand.plain source value with values := orderedValues elems }

def Operand.ofArray (source : Source.Expr) (elems : List Operand) : Operand :=
  .typed source (arrayLiteral elems) fun
    | .array elem length => arrayLiteralAs elems elem length
    | ty => do coerce (← arrayLiteral elems) ty

/-- The operand of a struct literal, whose type may only be known from what is expected. -/
def Operand.ofRecord (source : Source.Expr) (typeName : Option String)
    (fields : List (String × Operand)) : Operand :=
  let value := match typeName with
    | some name => structLiteral name fields
    | none => throw (.unsupported .untypedRecord)
  .typed source value fun
    | .struct name => structLiteral (typeName.getD name) fields
    | ty => do coerce (← value) ty

def Operand.ofBytes (source : Source.Expr) (bytes : Outcome (List UInt8)) (own : Ty) : Operand :=
  .typed source (do bytesLiteral (← bytes) own) fun ty => do bytesLiteralAs (← bytes) own ty

/-- Literals that take their form from the type they are converted to. -/
def isShaped : Source.Expr → Bool
  | .string _ | .hexBytes _ | .array _ | .record _ _ => true
  | _ => false

def castValue (operand : Operand) (ty : String) : Lower Value := do
  let target ← resolve ty
  if isShaped operand.source then operand.valueAs target else convert (← operand.value) target

/-! ## All expressions -/

mutual

def denote (expand : Expansion) : Source.Expr → Operand
  | .number text => .plain (.number text) (numberLiteral text)
  | .bool b => .plain (.bool b) (return ⟨num b.toNat, .bool⟩)
  | .string s => .ofBytes (.string s) (.ok (Text.utf8 s)) .string
  | .hexBytes digits => .ofBytes (.hexBytes digits) (hexLiteralBytes digits) .bytes
  | .ident name =>
    { Operand.plain (.ident name) (identValue expand name) with place := identPlace name }
  | .this => .plain .this (do return ⟨call "address" [], .contract (← read).className⟩)
  | .super => .plain .super (throw (.unsupported .superAsValue))
  | .member object property =>
    let operand := denote expand object
    let value := memberValue expand operand property
    let value := match object, property with
      | .member account "code", "length" => codeLength (denote expand account) value
      | _, _ => value
    { Operand.plain (.member object property) value with
      place := memberOperandPlace operand property }
  | .index object position =>
    let place := elementPlace (denote expand object) (denote expand position)
    { Operand.plain (.index object position) (do load (← place)) with place := fun _ => place }
  | .call callee args =>
    let operands := denoteAll expand args
    let source := Source.Expr.call callee args
    match callee with
    | .ident name =>
      let operand := Operand.ofCall source (identCall expand name operands)
      { operand with revert := revertCall name operands operand.revert }
    | .super => .ofCall source (superConstructorCall operands)
    | .member (.call (.ident "delegate") target) method =>
      .ofCall source (delegateMethodCall (denoteAll expand target) method operands)
    | .member object method =>
      .ofCall source (memberCall expand (denote expand object) method operands)
    | _ => .ofCall source computedCall
  | .create className args value salt =>
    .plain (.create className args value salt)
      (createContract className (denoteAll expand args) (denoteOption expand value)
        (denoteOption expand salt))
  | .binary op left right =>
    .plain (.binary op left right) (binary op (denote expand left) (denote expand right))
  | .unary op operand => .plain (.unary op operand) (unary op (denote expand operand))
  | .update op isPrefix target =>
    let operand := denote expand target
    { Operand.plain (.update op isPrefix target) (updateValue op isPrefix operand) with
      discard := update op operand }
  | .assign op target value =>
    let source := Source.Expr.assign op target value
    let operand := denote expand value
    match target with
    | .tuple targets =>
      let run := assignTuple op (denoteAll expand targets) operand
      { Operand.plain source (do run; return Value.void) with discard := run }
    | target =>
      let place := denote expand target
      { Operand.plain source (assignValue op place operand) with discard := assign op place operand }
  | .conditional condition thenExpr elseExpr =>
    let choose := conditional (denote expand condition) (denote expand thenExpr)
      (denote expand elseExpr)
    .typed (.conditional condition thenExpr elseExpr) (choose none) fun ty => choose (some ty)
  | .tuple elems => .ofTuple (.tuple elems) (denoteAll expand elems)
  | .array elems => .ofArray (.array elems) (denoteAll expand elems)
  | .record typeName fields => .ofRecord (.record typeName fields) typeName (denoteFields expand fields)
  | .cast e ty => .plain (.cast e ty) (castValue (denote expand e) ty)

def denoteAll (expand : Expansion) : List Source.Expr → List Operand
  | [] => []
  | e :: rest => denote expand e :: denoteAll expand rest

def denoteOption (expand : Expansion) : Option Source.Expr → Option Operand
  | none => none
  | some e => some (denote expand e)

def denoteField (expand : Expansion) : String × Source.Expr → String × Operand
  | (name, e) => (name, denote expand e)

def denoteFields (expand : Expansion) : List (String × Source.Expr) → List (String × Operand)
  | [] => []
  | f :: rest => denoteField expand f :: denoteFields expand rest

end

def maxExpansions : Nat := 32

def denoteWithin : (levels : Nat) → Source.Expr → Operand
  | 0 => denote none
  | levels + 1 => denote (some (denoteWithin levels))

def operand (e : Source.Expr) : Operand :=
  denoteWithin maxExpansions e

end ContractYul.Lowering
