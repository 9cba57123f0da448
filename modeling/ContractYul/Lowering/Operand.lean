import ContractYul.Lowering.Place

/-!
# Operands

What the code around an expression can ask of it. An expression can be lowered to a value, to a
value of an expected type, to several values, or to a place; it can stand as a statement, and it can
be the reason of a revert. Lowering gives every expression such an operand, made from the operands
of its parts.

Main point: `ordered` lowers operands from left to right so that their effects happen in that order.
A value that was computed and not yet used is bound to a temporary before statements of a later
operand are written.
-/

namespace ContractYul.Lowering

open Yul

structure Operand where
  /-- The expression itself. -/
  source : Source.Expr
  /-- Its value. -/
  value : Lower Value
  /-- Its value where a type is expected. -/
  valueAs : Ty → Lower Value
  /-- Its values; several for tuples and calls. -/
  values : Lower (List Value)
  /-- Its place; with `true` the place is to be changed. -/
  place : Bool → Lower Place
  /-- The expression as a statement. -/
  discard : Lower Unit
  /-- A revert with the expression as the reason. -/
  revert : Lower Unit

def revertMessage (message : Lower Value) : Lower Unit := do
  match (← read).options.revertStrings with
  | .strip => emit Op.revertEmpty
  | .keep => runRoutine .revertErrorString [(← message).expr]

def discardValue (v : Value) : Lower Unit :=
  if v.isVoid || v.expr.isPure then pure () else emit (.run "pop" [v.expr])

def Operand.typed (source : Source.Expr) (value : Lower Value) (valueAs : Ty → Lower Value) :
    Operand where
  source := source
  value := value
  valueAs := valueAs
  values := return [← value]
  place write := do
    if write then throw (.invalidAssignmentTarget (← read).function) else valuePlace (← value)
  discard := do discardValue (← value)
  revert := revertMessage (valueAs .string)

def Operand.plain (source : Source.Expr) (value : Lower Value) : Operand :=
  .typed source value fun ty => do coerce (← value) ty

/-- How the bodies of constants and of expanded methods are lowered; nothing when there are too many
of them inside each other. -/
abbrev Expansion := Option (Source.Expr → Operand)

/-! ## Order of evaluation -/

def captureCalls (values : List Value) : Lower (List Value) :=
  values.mapM capture

def orderedAfter (done : List Value) : List (Lower Value) → Lower (List Value)
  | [] => return done
  | m :: rest => do
    let (prelude, v) ← inScope m
    if prelude.isEmpty then orderedAfter (done ++ [v]) rest
    else
      let done ← captureCalls done
      emitAll prelude
      orderedAfter (done ++ [v]) rest

def ordered (parts : List (Lower Value)) : Lower (List Value) :=
  orderedAfter [] parts

def after (v : Value) (m : Lower Value) : Lower (Value × Value) := do
  let (prelude, w) ← inScope m
  let v ← if prelude.isEmpty then pure v else capture v
  emitAll prelude
  return (v, w)

/-- Lowers two pieces of code from left to right. -/
def orderedPair (first second : Lower Value) : Lower (Value × Value) := do
  let (prelude, v) ← inScope first
  emitAll prelude
  after v second

def orderedValues (operands : List Operand) : Lower (List Value) :=
  ordered (operands.map (·.value))

def orderedAs (operands : List Operand) (types : List Ty) : Lower (List Value) :=
  ordered (List.zipWith Operand.valueAs operands types)

/-! ## Places inside operands -/

/-- The place that a member or an element is taken of: the operand's own, or that of its value. -/
def Operand.base (o : Operand) : Lower Place := do
  if (← placeType o.source).isSome then o.place false else valuePlace (← o.value)

end ContractYul.Lowering
