import ContractYul.Lowering.Stmt

/-!
# Functions

The functions of a compilation, lowered one by one: methods, constructors, library methods, free
functions and getters, and the code that sets the initial values of fields. Each starts with no
variables and no temporaries; what they need in common is carried from one to the next.
-/

namespace ContractYul.Lowering

open Yul
open Source (ClassDecl MethodDecl ConstructorDecl FunctionDecl FieldDecl Param)

abbrev Session := ReaderT Context (StateT Progress Outcome)

/-- Lowers code that goes into a function of its own, and gives its statements and its result. -/
def inFunction {α : Type} (className function : String) (mode : Mode) (owner : Owner)
    (m : Lower α) : Session (List Yul.Stmt × α) := do
  let env : Env := { toContext := ← read, className, function, mode, owner }
  let (a, st) ← (m.run env).run { progress := ← get }
  set st.progress
  return (st.code, a)

/-! ## Functions with a body -/

def declareParams (params : List Param) : Lower (List String) :=
  params.mapM fun p => do declare p.name (← resolve p.ty)

def returnName (i : Nat) : String :=
  "ret_" ++ toString i

def declareReturns (returns : List String) : Lower (List (String × Ty)) :=
  returns.zipIdx.mapM fun (text, i) => do
    let ty ← resolve text
    modify fun st => { st with declared := returnName i :: st.declared }
    return (returnName i, ty)

/-- Lowers the parameters, results and body of a function, and gives its parameters and return
variables. -/
def signatureAndBody (params : List Param) (returns : List String) (body : List Source.Stmt) :
    Lower (List String × List String) := do
  let params ← declareParams params
  let returns ← declareReturns returns
  withReader (fun env => { env with returns }) (runAll (lowerAll body))
  return (params, returns.map (·.1))

def functionOf (className function : String) (mode : Mode) (owner : Owner) (params : List Param)
    (returns : List String) (body : List Source.Stmt) : Session Yul.Function := do
  let (code, params, returns) ←
    inFunction className function mode owner (signatureAndBody params returns body)
  return ⟨function, params, returns, code⟩

def method (owner : ClassDecl) (m : MethodDecl) (irName : String) : Session Yul.Function := do
  match m.body with
  | some body => functionOf owner.name irName .runtime .contract m.params m.returns body
  | none => throw (.inconsistent (.methodWithoutBody m.name owner.name))

def libraryMethod (library : String) (m : MethodDecl) : Session Yul.Function := do
  let irName := libraryFunctionName library m.name
  match m.body with
  | some body => functionOf library irName .runtime (.library library) m.params m.returns body
  | none => throw (.inconsistent (.libraryMethodWithoutBody irName))

def freeFunction (f : FunctionDecl) : Session Yul.Function := do
  functionOf (← read).lineage.derived.name (freeFunctionName f.name) .runtime .free f.params
    f.returns f.body

/-! ## Constructors -/

mutual

/-- Whether a statement calls the parent constructor, itself or within blocks. -/
def callsParent : Source.Stmt → Bool
  | .expr (.call .super _) => true
  | .block body => anyCallsParent body
  | .unchecked body => anyCallsParent body
  | _ => false

def anyCallsParent : List Source.Stmt → Bool
  | [] => false
  | s :: rest => callsParent s || anyCallsParent rest

end

/-- The statements of a constructor with the call of the parent constructor that they imply: a body
that does not call it starts with a call without arguments. -/
def constructorBody (lineage : Lineage) (owner : ClassDecl) (ctor : ConstructorDecl) :
    Outcome (List Source.Stmt) :=
  if anyCallsParent ctor.body then .ok ctor.body
  else match lineage.parentConstructor? owner.name with
    | none => .ok ctor.body
    | some (parent, parentCtor) => do
      checkArity (constructorName parent.name) parentCtor.params.length 0
      return .expr (.call .super []) :: ctor.body

def constructor (owner : ClassDecl) (ctor : ConstructorDecl) : Session Yul.Function := do
  let body ← constructorBody (← read).lineage owner ctor
  functionOf owner.name (constructorName owner.name) .constructor .contract ctor.params [] body

/-! ## Initial values -/

def initializeField (field : FieldDecl) : Lower Unit := do
  match field.initializer with
  | none => pure ()
  | some init =>
    if field.storage == .constant then pure ()
    else
      let place ← fieldPlace field.name true
      let value ← (operand init).valueAs place.ty
      store place value.expr

/-- Code that sets the fields of a line of classes to their initial values, the base first. -/
def initializers (region : String) : Session (List Yul.Stmt) := do
  let classes := (← read).lineage.classes
  let (code, ()) ← inFunction region region .initializer .contract
    (classes.forM fun c =>
      withReader (fun env => { env with className := c.name }) (c.fields.forM initializeField))
  return code

/-! ## Getters -/

def getterName (field : String) : String :=
  "getter_" ++ field

def keyName (i : Nat) : String :=
  "key_" ++ toString i

def getterValue (field : FieldDecl) (keys : List Ty) (result : Ty) : Lower Value := do
  if field.storage == .constant then
    match field.initializer with
    | some init => (operand init).valueAs result
    | none => throw (.inconsistent (.constantWithoutValue field.name))
  else
    let place ← keys.zipIdx.foldlM (fun place (ty, i) =>
        indexPlace place ⟨ident (keyName i), ty⟩ field.name)
      (← fieldPlace field.name false)
    load place

/-- Lowers the function that reads a public field, with a parameter for each level of mapping or
array. -/
def getter (owner : ClassDecl) (field : FieldDecl) : Session Yul.Function := do
  let (keys, result) := (← (← read).catalog.typeOf field.ty).getterShape
  let name := getterName field.name
  let (code, ()) ← inFunction owner.name name .runtime .contract do
    let v ← getterValue field keys result
    emit (.assignOne (returnName 0) v.expr)
  return ⟨name, (List.range keys.length).map keyName, [returnName 0], code⟩

/-! ## Functions on request -/

def requested : Request → Session Yul.Function
  | .library library name => do
    libraryMethod library (← (← read).catalog.libraryMethod library name)
  | .free name => do
    match (← read).catalog.freeFunction? name with
    | some f => freeFunction f
    | none => throw (.unresolvedReference .function name)

/-- The next function that waits to be lowered, which then waits no more. -/
def nextPending : Session (Option Request) :=
  modifyGet fun p =>
    match p.pending with
    | [] => (none, p)
    | r :: rest => (some r, { p with pending := rest })

end ContractYul.Lowering
