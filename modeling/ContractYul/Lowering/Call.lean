import ContractYul.Lowering.External
import ContractYul.Lowering.Name

/-!
# Calls

Which function a call means, by its name or by the object that it is made on, and calls of functions
of the same compilation: methods, parent methods and constructors, library methods and free
functions. A library method and a free function are asked for when they are first called. Results
are bound to temporaries at the call, so that effects happen where the call stands.
-/

namespace ContractYul.Lowering

open Yul
open Source (Param MethodDecl)

/-! ## Names of functions -/

def libraryFunctionName (library method : String) : String :=
  "fun_" ++ library ++ "_" ++ method

def freeFunctionName (name : String) : String :=
  "free_fun_" ++ name

def Request.irName : Request → String
  | .library name method => libraryFunctionName name method
  | .free name => freeFunctionName name

/-! ## Functions of the same compilation -/

def internalCall (irName : String) (params : List Param) (returns : List String)
    (args : List Operand) : Lower (List Value) := do
  checkArity irName params.length args.length
  let types ← resolveAll (params.map (·.ty))
  let values ← orderedAs args types
  let results ← resolveAll returns
  bindResults (call irName (values.map (·.expr))) results

def freeCall (f : Source.FunctionDecl) (args : List Operand) : Lower (List Value) := do
  request (.free f.name)
  internalCall (freeFunctionName f.name) f.params f.returns args

def libraryCall (library : String) (m : MethodDecl) (receiver : Option Value)
    (args : List Operand) : Lower (List Value) := do
  let irName := libraryFunctionName library m.name
  checkArity irName m.params.length (args.length + receiver.toList.length)
  request (.library library m.name)
  let types ← resolveAll (m.params.map (·.ty))
  let front ← receiver.toList.mapM capture
  let values ← orderedAs args (types.drop front.length)
  let results ← resolveAll m.returns
  bindResults (call irName ((front ++ values).map (·.expr))) results

/-! ## Methods of the contract -/

/-- The body of a method that is a single `return` of one value, with the type of the value. -/
def returnedExpr? (m : MethodDecl) : Option (Source.Expr × String) :=
  match m.body, m.returns with
  | some [.ret (some body)], [ty] => some (body, ty)
  | _, _ => none

/-- Puts the body of a method in place of a call. The body sees its parameters only. -/
def expandCall (body : Operand) (resultType : String) (m : MethodDecl) (args : List Operand) :
    Lower Value := do
  checkArity m.name m.params.length args.length
  let types ← resolveAll (m.params.map (·.ty))
  let result ← resolve resultType
  let values ← orderedAs args types
  let names ← values.mapM fun v => bindFresh v.expr
  let scope : Scope := (m.params.zip (names.zip types)).map fun (p, name, ty) => (p.name, ⟨name, ty⟩)
  withScopes [scope.reverse] (body.valueAs result)

/-- A call of a method of the contract. In the initial value of a field a method of a single
`return` is expanded. -/
def thisCall (expand : Expansion) (name : String) (args : List Operand) : Lower (List Value) := do
  let env ← read
  if env.owner != .contract then throw (.unknownMember name (.thisIn env.function))
  else match env.lineage.method? name with
    | none => throw (.unknownMember name (.class env.lineage.derived.name))
    | some (_, m) =>
      if m.body.isNone then throw (.inconsistent (.methodWithoutImplementation name))
      else match expand, returnedExpr? m, env.mode with
        | some denote, some (body, ty), .initializer => return [← expandCall (denote body) ty m args]
        | _, _, _ => internalCall (functionName name) m.params m.returns args

def superCall (method : String) (args : List Operand) : Lower (List Value) := do
  let env ← read
  let target ← env.lineage.superTarget env.className method
  match (env.lineage.before env.className).findSome? (·.bodied? method) with
  | some m => internalCall target m.params m.returns args
  | none => throw (.missingSuperImplementation env.className method)

def superConstructorCall (args : List Operand) : Lower (List Value) := do
  let env ← read
  if env.mode != .constructor then throw (.unsupported .superOutsideConstructor)
  else match env.lineage.parentConstructor? env.className with
    | some (parent, ctor) => internalCall (constructorName parent.name) ctor.params [] args
    | none => throw (.missingSuperImplementation env.className "constructor")

/-! ## Calls by name -/

def conversionCall (callee : String) (target : Ty) : List Operand → Lower (List Value)
  | [arg] => do return [← convert (← arg.value) target]
  | args => throw (.arityMismatch callee 1 args.length)

def gasCall : List Operand → Lower (List Value)
  | [] => do return [← captureFresh ⟨call "gas" [], .uint 256⟩]
  | args => throw (.arityMismatch "gasleft" 0 args.length)

def predefinedCall (name : String) (args : List Operand) : Lower (Option (List Value)) := do
  match name with
  | "require" =>
    requireCall args
    return some []
  | "assert" =>
    assertCall args
    return some []
  | "revert" =>
    revertFor args "revert"
    return some []
  | "keccak256" => return some [← keccakCall args]
  | "gasleft" => return some (← gasCall args)
  | "blockhash" =>
    let n ← onlyArgument name (.uint 256) args
    return some [⟨call "blockhash" [n.expr], .fixedBytes 32⟩]
  | "address" | "payable" => return some (← conversionCall name .address args)
  | "delegate" => throw (.unsupported .bareDelegate)
  | _ => return none

/-- The type that a call with one argument converts to, if its name is that of a type and not of a
struct. -/
def conversionTarget? (catalog : Catalog) (name : String) (args : List Operand) : Option Ty :=
  if args.length = 1 then (catalog.typeOf name).toOption.filter (!·.isStruct) else none

/-- A call of a declared function by its plain name: a free function, a method of the library in
library code, or a method of the contract. -/
def declaredCall (expand : Expansion) (name : String) (args : List Operand) :
    Lower (List Value) := do
  let env ← read
  match env.catalog.freeFunction? name with
  | some f => freeCall f args
  | none =>
    match env.owner with
    | .library l =>
      match env.catalog.libraryMethod l name with
      | .ok m => libraryCall l m none args
      | .error _ => undefined name
    | .contract =>
      if (env.lineage.method? name).isSome then thisCall expand name args else undefined name
    | .free => undefined name

def namedCall (expand : Expansion) (name : String) (args : List Operand) :
    Lower (List Value) := do
  if let some values ← predefinedCall name args then return values
  match conversionTarget? (← read).catalog name args with
  | some target => conversionCall name target args
  | none => declaredCall expand name args

def computedCall : Lower (List Value) := do
  throw (.unsupported (.computedCallee (← read).function))

def identCall (expand : Expansion) (name : String) (args : List Operand) :
    Lower (List Value) := do
  if (← varOf? name).isSome then computedCall else namedCall expand name args

/-! ## Calls on objects -/

def extension? (catalog : Catalog) (ty : Ty) (method : String) : Option (String × MethodDecl) :=
  (catalog.extensionsFor ty).findSome? fun library =>
    ((catalog.libraryMethod library method).toOption).map (library, ·)

/-- A call on a value that is no contract method: a call on an account or of a library method bound
to the type. -/
def extensionCall (receiver : Value) (method : String) (args : List Operand) :
    Lower (List Value) := do
  if receiver.ty.isAccount then
    if let some values ← accountCall receiver.expr method args then return values
  match extension? (← read).catalog receiver.ty method with
  | some (library, m) => libraryCall library m (some receiver) args
  | none => throw (.unknownMember method (.value receiver.ty))

def receiverCall (receiver : Value) (method : String) (args : List Operand) :
    Lower (List Value) := do
  let catalog := (← read).catalog
  match receiver.ty with
  | .contract name =>
    match catalog.contractMethod name method with
    | .ok m => methodCall receiver.expr m args
    | .error e =>
      if (extension? catalog receiver.ty method).isNone then throw e
      else extensionCall receiver method args
  | _ => extensionCall receiver method args

def pushCall (place : Place) (args : List Operand) : Lower Unit := do
  let (slot, elem) ← growableArray place
  match args with
  | [] => pushElement slot elem none
  | [arg] =>
    let v ← capture (← arg.valueAs elem)
    pushElement slot elem (some v)
  | args => throw (.arityMismatch "push" 1 args.length)

def arrayCall (object : Operand) (method : String) (args : List Operand) : Lower Unit := do
  let place ← object.place true
  match place with
  | .storage _ _ _ _ _ =>
    if method == "push" then pushCall place args
    else do
      checkArity "pop" 0 args.length
      popElement place
  | _ => throw (.unsupported (.memoryArrayOperation method))

/-- Whether an expression is the name of a place that holds an array of any length. -/
def isGrowable (e : Source.Expr) : Lower Bool := do
  match ← placeType e with
  | some (.array _ none) => return true
  | _ => return false

def objectCall (object : Operand) (method : String) (args : List Operand) :
    Lower (List Value) := do
  if (method == "push" || method == "pop") && (← isGrowable object.source) then
    arrayCall object method args
    return []
  else receiverCall (← capture (← object.value)) method args

/-- A call on a plain name that is no variable: a member of `abi`, a library method, or a call on
what the name stands for. -/
def qualifiedCall (name : String) (object : Operand) (method : String) (args : List Operand) :
    Lower (List Value) := do
  let catalog := (← read).catalog
  if name == "abi" then abiCall method args
  else if (catalog.library? name).isSome then
    let m ← catalog.libraryMethod name method
    libraryCall name m none args
  else objectCall object method args

def memberCall (expand : Expansion) (object : Operand) (method : String) (args : List Operand) :
    Lower (List Value) := do
  match object.source with
  | .this => thisCall expand method args
  | .super => superCall method args
  | .ident name =>
    if (← varOf? name).isNone then qualifiedCall name object method args
    else objectCall object method args
  | _ => objectCall object method args

end ContractYul.Lowering
