import ContractYul.Lowering.Literal
import ContractYul.Routine.Shape

/-!
# Failures

Code that ends a call and undoes it: checks, reverts with a message, and reverts with a custom error,
which is its selector followed by the encoded arguments.
-/

namespace ContractYul.Lowering

open Yul

def shapeLiteral (types : List Ty) : Outcome Yul.Expr := do
  Shape.literal (← types.mapM Shape.ofTy) 2

def selectorLiteral (selector : Nat) : Yul.Expr :=
  numText (Abi.selectorText selector)

def freeMemory (ty : Ty) : Lower Value :=
  captureFresh ⟨Op.mload Op.freePointer, ty⟩

def revertWords (e : Abi.CustomError) (pointer : Yul.Expr) (words : List Yul.Expr) : Lower Unit := do
  emit (Op.mstore pointer (Op.selectorWord e.selector))
  emitAll (words.zipIdx.map fun (word, i) => Op.mstore (Op.add pointer (num (4 + 32 * i))) word)
  emit (Op.revert pointer (num (4 + 32 * words.length)))

/-- Reverts with the selector of a custom error and encoded arguments of given types behind it. -/
def revertEncoded (e : Abi.CustomError) (pointer : Yul.Expr) (types : List Ty)
    (args : List Yul.Expr) : Lower Unit := do
  let shape ← shapeLiteral types
  let encoded ← family .abiEncodeSelector args.length
    ([pointer, selectorLiteral e.selector, shape] ++ args)
  let stop ← bindFresh encoded
  emit (Op.revert pointer (Op.sub (ident stop) pointer))

def revertCustom (e : Abi.CustomError) (args : List Operand) : Lower Unit := do
  checkArity e.name e.params.length args.length
  let types := e.params.map (·.2)
  let values ← orderedAs args types
  let pointer ← freeMemory (.uint 256)
  let words := values.map (·.expr)
  if types.all Ty.isValue then revertWords e pointer.expr words
  else revertEncoded e pointer.expr types words

def revertFor : List Operand → (callee : String) → Lower Unit
  | [], _ => emit Op.revertEmpty
  | [reason], _ => reason.revert
  | args, callee => throw (.arityMismatch callee 1 args.length)

def failUnless (condition : Operand) (otherwise : Lower Unit) : Lower Unit := do
  let c ← condition.valueAs .bool
  let (code, ()) ← inScope otherwise
  emit (.ifThen (Op.isZero c.expr) code)

def requireCall : List Operand → Lower Unit
  | [condition] => failUnless condition (emit Op.revertEmpty)
  | [condition, reason] => failUnless condition reason.revert
  | args => throw (.arityMismatch "require" 2 args.length)

def assertCall : List Operand → Lower Unit
  | [condition] => failUnless condition (emit (.run "invalid" []))
  | args => throw (.arityMismatch "assert" 1 args.length)

end ContractYul.Lowering
