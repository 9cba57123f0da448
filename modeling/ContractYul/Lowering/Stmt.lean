import ContractYul.Lowering.Event
import ContractYul.Lowering.Expr

/-!
# Statements

Control flow of the source in terms of blocks, conditional blocks and loops of the target, which has
no else branches. A condition that decides two branches is kept in a variable. A loop condition that
needs statements of its own is checked at the top of the body. A `return` sets the return variables
and leaves the function.

The body of a `try` is lowered as it stands up to the statement with its first external call, whose
outcome is kept. What follows that statement runs when the call succeeded, the handler when it
failed.
-/

namespace ContractYul.Lowering

open Yul

def runAll (parts : List (Lower Unit)) : Lower Unit :=
  parts.forM id

def blockOf (parts : List (Lower Unit)) : Lower (List Yul.Stmt) :=
  return (← inScope (runAll parts)).1

def commented (text : String) (m : Lower Unit) : Lower Unit := do
  if (← read).options.debugComments then emit (.comment text)
  m

/-! ## Declarations -/

def declareWith (name : String) (v : Value) : Lower Unit := do
  let irName ← declare name v.ty
  emit (.letOne irName v.expr)

def initialValue (name : String) (ty : Option Ty) (init : Option Operand) : Lower Value := do
  match init, ty with
  | some e, some ty => e.valueAs ty
  | some e, none =>
    let v ← e.value
    if v.isVoid then throw (.inconsistent (.voidInitializer name)) else return v
  | none, some ty => return ⟨← zeroValue ty, ty⟩
  | none, none => throw (.inconsistent (.untypedLocal name))

/-- Declares several variables with several values; empty names and `_` take none. -/
def destructure (names : List String) (init : Option Operand) : Lower Unit := do
  match init with
  | none => throw (.inconsistent (.destructuringWithoutValue names))
  | some e =>
    let values ← e.values
    checkArity ("[" ++ String.intercalate ", " names ++ "]") names.length values.length
    (names.zip values).forM fun (name, v) =>
      if name == "" || name == "_" then pure () else declareWith name v

def varDecl (names : List String) (ty : Option String) (init : Option Operand) : Lower Unit := do
  match names with
  | [name] =>
    let ty ← ty.mapM resolve
    declareWith name (← initialValue name ty init)
  | names => destructure names init

/-! ## Branches and loops -/

def branch (condition : Operand) (thenBranch : List (Lower Unit))
    (elseBranch : Option (List (Lower Unit))) : Lower Unit := do
  let c ← condition.value
  match elseBranch with
  | none => emit (.ifThen c.expr (← blockOf thenBranch))
  | some elseBranch =>
    let chosen ← conditionTemp
    emit (.letOne chosen c.expr)
    emit (.ifThen (ident chosen) (← blockOf thenBranch))
    emit (.ifThen (Op.isZero (ident chosen)) (← blockOf elseBranch))

def breakUnless (c : Yul.Expr) : Yul.Stmt :=
  .ifThen (Op.isZero c) [.break]

def loopCondition (condition : Option Operand) : Lower (Yul.Expr × List Yul.Stmt) := do
  match condition with
  | none => return (num 1, [])
  | some condition =>
    let (prelude, c) ← collect condition.value
    if prelude.isEmpty then return (c.expr, [])
    else return (num 1, prelude ++ [breakUnless c.expr])

def whileLoop (condition : Operand) (body : List (Lower Unit)) : Lower Unit := do
  let (c, head) ← loopCondition (some condition)
  let body ← blockOf body
  emit (.loop [] c [] (head ++ body))

def doWhileLoop (body : List (Lower Unit)) (condition : Operand) : Lower Unit := do
  let body ← blockOf body
  let (prelude, c) ← collect condition.value
  emit (.loop [] (num 1) [] (body ++ prelude ++ [breakUnless c.expr]))

/-- A loop with an initial and a post part; what the initial part declares is seen by the rest of
the loop only. -/
def forLoop (init : Lower Unit) (condition update : Option Operand) (body : List (Lower Unit)) :
    Lower Unit := do
  let (code, ()) ← inScope do
    let (init, ()) ← collect init
    let (c, head) ← loopCondition condition
    let (post, ()) ← collect (match update with
      | some u => u.discard
      | none => pure ())
    let body ← blockOf body
    emit (.loop init c post (head ++ body))
  emitAll code

/-! ## Returns -/

def writtenValues? : Source.Expr → Option (List Source.Expr)
  | .tuple elems | .array elems => some elems
  | _ => none

def returnedValues (types : List Ty) (value : Source.Expr) : Lower (List Value) :=
  match (writtenValues? value).filter (·.length == types.length) with
  | some elems => orderedAs (elems.map operand) types
  | none => (operand value).values

def setReturns (value : Source.Expr) : Lower Unit := do
  let env ← read
  match env.returns with
  | [] => throw (.inconsistent (.undeclaredReturn env.function))
  | [(name, ty)] =>
    let v ← (operand value).valueAs ty
    emit (.assignOne name v.expr)
  | returns =>
    let values ← returnedValues (returns.map (·.2)) value
    checkArity ("return of " ++ env.function) returns.length values.length
    emitAll ((returns.zip values).map fun ((name, _), v) => .assignOne name v.expr)

def returnStmt (value : Option Source.Expr) : Lower Unit := do
  match value with
  | some value => setReturns value
  | none => pure ()
  emit .leave

/-! ## Failures -/

def throwStmt : Source.Expr → Lower Unit
  | .create className args value salt =>
    if className == "Error" then revertFor (args.map operand) "Error"
    else (operand (.create className args value salt)).revert
  | error => (operand error).revert

def isCaptured (guard : Option Guard) : Bool :=
  guard.any (·.captured)

/-- Runs pieces of code up to the one that meets the guarded call, and gives those after it. -/
def runGuarded : List (Lower Unit) → Lower (List (Lower Unit))
  | [] => return []
  | part :: rest => do
    part
    if isCaptured (← get).guard then return rest else runGuarded rest

def openGuard : Lower (String × String) := do
  let success ← temp
  let result ← temp
  emit (.letOne success (num 0))
  emit (.letOne result (num emptyMemory))
  modify fun st => { st with guard := some ⟨success, result, false⟩ }
  return (success, result)

def tryStmt (body : List (Lower Unit)) (binding : Option String) (handler : List (Lower Unit)) :
    Lower Unit := do
  let function := (← read).function
  if (← get).guard.isSome then throw (.unsupported (.nestedTry function))
  let (success, result) ← openGuard
  let rest ← runGuarded body
  let guard ← modifyGet fun st => (st.guard, { st with guard := none })
  if !isCaptured guard then throw (.tryWithoutCall function)
  let onSuccess ← blockOf rest
  if !onSuccess.isEmpty then emit (.ifThen (ident success) onSuccess)
  let bindResult := match binding with
    | some name => declareWith name ⟨ident result, .bytes⟩
    | none => pure ()
  emit (.ifThen (Op.isZero (ident success)) (← blockOf (bindResult :: handler)))

/-! ## All statements -/

mutual

def lowerStmt : Source.Stmt → Lower Unit
  | .varDecl names ty init =>
    commented ("let " ++ String.intercalate ", " names) (varDecl names ty (init.map operand))
  | .expr e => (operand e).discard
  | .ifElse condition thenBranch elseBranch =>
    commented "if"
      (branch (operand condition) (lowerAll thenBranch) (lowerAllOption elseBranch))
  | .whileLoop condition body => commented "loop" (whileLoop (operand condition) (lowerAll body))
  | .doWhile body condition => commented "loop" (doWhileLoop (lowerAll body) (operand condition))
  | .forLoop init condition update body =>
    commented "loop"
      (forLoop (lowerOption init) (condition.map operand) (update.map operand) (lowerAll body))
  | .breakLoop => emit .break
  | .continueLoop => emit .continue
  | .ret value => commented "return" (returnStmt value)
  | .block body => do emit (.block (← blockOf (lowerAll body)))
  | .unchecked body => do emit (.block (← blockOf (lowerAll body)))
  | .emit event args => commented ("emit " ++ event) (emitEvent event (args.map operand))
  | .throw error => commented "throw" (throwStmt error)
  | .tryCatch body binding handler =>
    commented "try" (tryStmt (lowerAll body) binding (lowerAll handler))

def lowerAll : List Source.Stmt → List (Lower Unit)
  | [] => []
  | s :: rest => lowerStmt s :: lowerAll rest

def lowerAllOption : Option (List Source.Stmt) → Option (List (Lower Unit))
  | none => none
  | some body => some (lowerAll body)

def lowerOption : Option Source.Stmt → Lower Unit
  | none => pure ()
  | some s => lowerStmt s

end

end ContractYul.Lowering
