import ContractYul.Lowering.Operand

/-!
# Operators

Arithmetic, comparison, logic, choice, update and assignment. Arithmetic wraps at the width of its
type, which is that of the left operand, or of the right one when only the left is a number literal.
The right operand of a logical operator has its effects only when it decides the result.
-/

namespace ContractYul.Lowering

open Yul
open Source (BinaryOp UnaryOp UpdateOp AssignOp)

def isNumberLiteral : Source.Expr → Bool
  | .number _ => true
  | .unary .neg operand => isNumberLiteral operand
  | _ => false

/-! ## Binary operators -/

def binaryWord (op : BinaryOp) (ty : Ty) (l r : Value) : Yul.Expr :=
  let a := l.expr
  let b := r.expr
  let pick (signed unsigned : String) := if ty.isSigned then signed else unsigned
  match op with
  | .add => clean (Op.add a b) ty
  | .sub => clean (Op.sub a b) ty
  | .mul => clean (Op.mul a b) ty
  | .div => call (pick "sdiv" "div") [a, b]
  | .mod => call (pick "smod" "mod") [a, b]
  | .pow => clean (call "exp" [a, b]) ty
  | .bitAnd => Op.both a b
  | .bitOr => Op.either a b
  | .bitXor => call "xor" [a, b]
  | .shl => clean (Op.shl b a) ty
  | .shr => call (pick "sar" "shr") [b, a]
  | .eq => Op.eq a b
  | .notEq => Op.isZero (Op.eq a b)
  | .lt => call (pick "slt" "lt") [a, b]
  | .gt => call (pick "sgt" "gt") [a, b]
  | .ltEq => Op.isZero (call (pick "sgt" "gt") [a, b])
  | .gtEq => Op.isZero (call (pick "slt" "lt") [a, b])
  | .and => Op.both (boolOf l) (boolOf r)
  | .or => Op.either (boolOf l) (boolOf r)

def binaryBytes (op : BinaryOp) (ty : Ty) (l r : Value) : Lower Value := do
  match op with
  | .add => capture ⟨← routine .stringConcat [l.expr, r.expr], ty⟩
  | .eq => return ⟨← routine .stringEqual [l.expr, r.expr], .bool⟩
  | .notEq => return ⟨Op.isZero (← routine .stringEqual [l.expr, r.expr]), .bool⟩
  | _ => throw (.unsupported (.operator op.name ty))

def applyBinary (op : BinaryOp) (ty : Ty) (l r : Value) : Lower Value :=
  if ty.isBytesLike then binaryBytes op ty l r
  else return ⟨binaryWord op ty l r, if op.isComparison then .bool else ty⟩

def operandType (left right : Source.Expr) (l r : Value) : Ty :=
  if isNumberLiteral left && !isNumberLiteral right then r.ty else l.ty

/-- A logical operator. The right operand is a part of one expression when it has no effects, and
else runs only when the left one leaves the result open. -/
def logical (conjunction : Bool) (left right : Operand) : Lower Value := do
  let l := boolOf (← left.value)
  let (prelude, r) ← inScope right.value
  let r := boolOf r
  if prelude.isEmpty && r.isPure then
    return ⟨call (if conjunction then "and" else "or") [l, r], .bool⟩
  else
    let t ← temp
    emit (.letOne t l)
    let undecided := if conjunction then ident t else Op.isZero (ident t)
    emit (.ifThen undecided (prelude ++ [.assignOne t r]))
    return ⟨ident t, .bool⟩

def binary (op : BinaryOp) (left right : Operand) : Lower Value :=
  match op with
  | .and => logical true left right
  | .or => logical false left right
  | op => do
    let (l, r) ← orderedPair left.value right.value
    applyBinary op (operandType left.source right.source l r) l r

/-! ## Choice -/

/-- A choice between two expressions, of the expected type if there is one and else of the type of
the first. -/
def conditional (condition thenExpr elseExpr : Operand) (expected : Option Ty) : Lower Value := do
  let c ← condition.value
  let chosen ← conditionTemp
  emit (.letOne chosen c.expr)
  let t ← temp
  emit (.declare [t] none)
  let (thenCode, v) ← inScope (match expected with
    | some ty => thenExpr.valueAs ty
    | none => thenExpr.value)
  let (elseCode, w) ← inScope (elseExpr.valueAs v.ty)
  emit (.ifThen (ident chosen) (thenCode ++ [.assignOne t v.expr]))
  emit (.ifThen (Op.isZero (ident chosen)) (elseCode ++ [.assignOne t w.expr]))
  return ⟨ident t, v.ty⟩

/-! ## Unary operators -/

def flipped (v : Value) : Yul.Expr :=
  match v.ty with
  | .fixedBytes n =>
    if n < 32 then Op.both (Op.complement v.expr) (highMask n) else Op.complement v.expr
  | ty => clean (Op.complement v.expr) ty

def unary (op : UnaryOp) (operand : Operand) : Lower Value := do
  match op with
  | .delete =>
    clear (← operand.place true)
    return Value.void
  | .neg =>
    let v ← operand.value
    let ty := if isNumberLiteral operand.source then .int 256 else v.ty
    return ⟨clean (Op.sub (num 0) v.expr) ty, ty⟩
  | .not => return ⟨Op.isZero (← operand.value).expr, .bool⟩
  | .bitNot =>
    let v ← operand.value
    return ⟨flipped v, v.ty⟩

/-! ## Updates and assignments -/

def stepped (op : UpdateOp) (old : Yul.Expr) (ty : Ty) : Yul.Expr :=
  match op with
  | .increment => clean (Op.add old (num 1)) ty
  | .decrement => clean (Op.sub old (num 1)) ty

def update (op : UpdateOp) (target : Operand) : Lower Unit := do
  let place ← target.place true
  let old ← load place
  store place (stepped op old.expr place.ty)

/-- An increment or decrement with its value: the new one when the operator stands in front. -/
def updateValue (op : UpdateOp) (inFront : Bool) (target : Operand) : Lower Value := do
  let place ← target.place true
  let old ← load place
  if inFront then
    let new ← captureFresh ⟨stepped op old.expr place.ty, place.ty⟩
    store place new.expr
    return new
  else
    let old ← captureFresh old
    store place (stepped op old.expr place.ty)
    return old

/-- What an assignment stores in a place. A compound assignment reads the place before its operand
is evaluated. -/
def assignedValue (op : AssignOp) (place : Place) (value : Operand) : Lower Value := do
  match op.binaryOp? with
  | none => value.valueAs place.ty
  | some op =>
    let (old, v) ← orderedPair (load place) (value.valueAs place.ty)
    applyBinary op place.ty old v

def assign (op : AssignOp) (target value : Operand) : Lower Unit := do
  let place ← target.place true
  let new ← assignedValue op place value
  store place new.expr

def assignValue (op : AssignOp) (target value : Operand) : Lower Value := do
  let place ← target.place true
  let new ← capture (← assignedValue op place value)
  store place new.expr
  return new

def isBlankTarget : Source.Expr → Bool
  | .ident name => name == "_"
  | _ => false

def assignTarget (target : Operand) (v : Value) : Lower Unit := do
  if isBlankTarget target.source then return
  let place ← target.place true
  let v ← coerce v place.ty
  store place v.expr

def captureVariable (v : Value) : Lower Value :=
  match v.expr with
  | .literal _ => return v
  | _ => captureFresh v

def assignTuple (op : AssignOp) (targets : List Operand) (value : Operand) : Lower Unit := do
  if op != .assign then throw (.invalidAssignmentTarget (← read).function)
  let values ← value.values
  checkArity "tuple assignment" targets.length values.length
  let values ← values.mapM captureVariable
  (targets.zip values).forM fun (target, v) => assignTarget target v

end ContractYul.Lowering
