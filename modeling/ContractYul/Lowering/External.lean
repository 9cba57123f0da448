import ContractYul.Lowering.Encoding

/-!
# Calls of other contracts

Calls of methods through an encoding, calls with data that is already encoded, transfers, and
creation of contracts. A failed call forwards the failure of the callee. Within a `try` the first
call that can fail does not; it sets the variables of the guard and the code goes on.
-/

namespace ContractYul.Lowering

open Yul

/-! ## Outcomes -/

/-- The variables of a guard that waits for a call; after this it waits no more. -/
def claimGuard : Lower (Option (String × String)) :=
  modifyGet fun st =>
    match st.guard with
    | some g =>
      if g.captured then (none, st)
      else (some (g.success, g.result), { st with guard := some { g with captured := true } })
    | none => (none, st)

def forwardFailure (success : Yul.Expr) : Lower Unit := do
  let forward ← routine .revertForward []
  emit (.ifThen (Op.isZero success) [.eval forward])

/-- Binds the success and the returned bytes of a call; the third component tells whether it is
guarded. -/
def bindOutcome (invocation : Yul.Expr) : Lower (String × String × Bool) := do
  match ← claimGuard with
  | some (success, result) =>
    emit (.assign [success, result] invocation)
    return (success, result, true)
  | none =>
    let success ← temp
    let result ← temp
    emit (.declare [success, result] (some invocation))
    return (success, result, false)

/-! ## Calls with encoded data -/

/-- The success and the returned bytes of a call with encoded data. -/
def lowLevelCall (r : FixedRoutine) (args : List Yul.Expr) : Lower (List Value) := do
  let (success, result, _) ← bindOutcome (← routine r args)
  return [⟨ident success, .bool⟩, ⟨ident result, .bytes⟩]

def transferGas : Nat := 2300

def transferOf (account amount : Yul.Expr) : Yul.Expr :=
  call "call" [num transferGas, account, amount, num 0, num 0, num 0, num 0]

def onlyArgument (callee : String) (ty : Ty) : List Operand → Lower Value
  | [arg] => arg.valueAs ty
  | args => throw (.arityMismatch callee 1 args.length)

def accountCall (account : Yul.Expr) (member : String) (args : List Operand) :
    Lower (Option (List Value)) := do
  match member with
  | "transfer" =>
    let amount ← onlyArgument member (.uint 256) args
    forwardFailure (transferOf account amount.expr)
    return some []
  | "send" =>
    let amount ← onlyArgument member (.uint 256) args
    return some [← captureFresh ⟨transferOf account amount.expr, .bool⟩]
  | "call" =>
    match args with
    | [data] =>
      let data ← data.valueAs .bytes
      return some (← lowLevelCall .lowLevelCall [account, num 0, data.expr])
    | [data, amount] =>
      let (data, amount) ← orderedPair (data.valueAs .bytes) (amount.valueAs (.uint 256))
      return some (← lowLevelCall .lowLevelCall [account, amount.expr, data.expr])
    | args => throw (.arityMismatch "call" 1 args.length)
  | "staticcall" =>
    let data ← onlyArgument member .bytes args
    return some (← lowLevelCall .lowLevelStaticCall [account, data.expr])
  | "delegatecall" =>
    let data ← onlyArgument member .bytes args
    return some (← lowLevelCall .lowLevelDelegateCall [account, data.expr])
  | _ => return none

/-! ## Calls of methods -/

/-- Decodes the results of a call. Those of a guarded call stay zero when it fails. -/
def bindReturns (success result : String) (guarded : Bool) (types : List Ty) :
    Lower (List Value) := do
  if types.isEmpty then return []
  else
    let results ← decoded (ident result) types
    if guarded then
      let names ← types.mapM fun _ => temp
      emit (.declare names none)
      emit (.ifThen (ident success) [.assign names results])
      return (names.zip types).map fun (name, ty) => ⟨ident name, ty⟩
    else bindResults results types

def externalCall (f : RoutineFamily) (target : Yul.Expr) (m : Catalog.ExternalMethod)
    (args : List Operand) : Lower (List Value) := do
  checkArity m.signature m.params.length args.length
  let values ← orderedAs args m.params
  let shape ← shapeLiteral m.params
  let amount := if f == .call then [num 0] else []
  let invocation ← family f values.length
    (target :: amount ++ [selectorLiteral m.selector, shape] ++ values.map (·.expr))
  let (success, result, guarded) ← bindOutcome invocation
  if !guarded then forwardFailure (ident success)
  bindReturns success result guarded m.returns

/-- A call of a method on a contract; a method that only reads is called so that it cannot write. -/
def methodCall (target : Yul.Expr) (m : Catalog.ExternalMethod) (args : List Operand) :
    Lower (List Value) :=
  externalCall (if m.mutability.isReadOnly then .staticCall else .call) target m args

def delegateTarget? : List Operand → Option (String × Operand)
  | [interface, address] =>
    match interface.source with
    | .ident name => some (name, address)
    | _ => none
  | _ => none

/-- A call of a method of an interface that runs the code at an address on this contract's own
storage; `target` has the name of the interface and the address. -/
def delegateMethodCall (target : List Operand) (method : String) (args : List Operand) :
    Lower (List Value) := do
  match delegateTarget? target with
  | some (interface, address) =>
    let m ← (← read).catalog.contractMethod interface method
    let address ← capture (← convert (← address.value) .address)
    externalCall .delegateCall address.expr m args
  | none => throw (.arityMismatch "delegate" 2 target.length)

/-! ## Creation -/

def constructorParams (name : String) : Lower (List Source.Param) := do
  let env ← read
  match env.catalog.class? name with
  | none => throw (.unresolvedReference .class name)
  | some c =>
    if c.isLibrary || c.isAbstract then throw (.unsupported (.deployment name))
    else if env.lineage.contains name then
      throw (.unsupported (.deploymentInChain env.lineage.derived.name))
    else
      let line ← Lineage.ofClass env.catalog.class? env.catalog.classes.size c
      return (line.effectiveConstructor?.map (·.2.params)).getD []

def dependOn (name : String) : Lower Unit :=
  modify fun st => { st with
    progress := { st.progress with dependencies := insertSorted name st.progress.dependencies } }

def settleCreation (address : Yul.Expr) : Lower Unit := do
  match ← claimGuard with
  | some (success, result) =>
    emit (.assignOne success (nonZero address))
    emit (.assignOne result (← routine .returndataToMemory []))
  | none => forwardFailure address

def sentAmount : Option Operand → Lower Yul.Expr
  | some amount => return (← capture (← amount.valueAs (.uint 256))).expr
  | none => return num 0

def saltWords : Option Operand → Lower (List Yul.Expr)
  | some salt => return [(← capture (← salt.value)).expr]
  | none => return []

def createWith (name : String) (types : List Ty) (args : List Operand) (amount : Yul.Expr)
    (salt : List Yul.Expr) : Lower Value := do
  let values ← orderedAs args types
  let shape ← shapeLiteral types
  let created ← family (if salt.isEmpty then .create else .create2) values.length
    ([call "dataoffset" [textLiteral name], call "datasize" [textLiteral name], amount] ++ salt ++
      [shape] ++ values.map (·.expr))
  dependOn name
  let address ← bindFresh created
  settleCreation (ident address)
  return ⟨ident address, .contract name⟩

def createContract (name : String) (args : List Operand) (value salt : Option Operand) :
    Lower Value := do
  let params ← constructorParams name
  checkArity (constructorName name) params.length args.length
  let types ← resolveAll (params.map (·.ty))
  let amount ← sentAmount value
  let salt ← saltWords salt
  createWith name types args amount salt

end ContractYul.Lowering
