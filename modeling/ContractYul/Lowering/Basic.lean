import ContractYul.Options
import ContractYul.Routine.Registry
import ContractYul.Storage.Layout

/-!
# Lowering code

Source code becomes target code one function at a time. Lowering a piece of code reads what is
known about the compilation and the function, and changes a state: the statements of the block
being written, the variables in scope, the names in use, and what the whole compilation has come
to need so far.

Variables of the source are named `var_x`, with a number behind when the name is in use, temporaries
`_1`, `_2`, and so on, and captured conditions `__cond_1`, `__cond_2`; both kinds share one counter.
-/

namespace ContractYul.Lowering

open Yul

/-! ## Values and places -/

structure Value where
  expr : Yul.Expr
  ty : Ty

def Value.void : Value := ⟨num 0, .tuple []⟩

def Value.isVoid (v : Value) : Bool :=
  v.ty == .tuple []

inductive Place where
  /-- A variable of the target code. -/
  | var (name : String) (ty : Ty)
  /-- Bytes of a slot, or a region of slots. -/
  | storage (slot : Yul.Expr) (offset size : Nat) (ty : Ty) (transient : Bool)
  /-- A word in memory. -/
  | memory (address : Yul.Expr) (ty : Ty)
  /-- A byte of a byte string in memory. -/
  | memoryByte (address : Yul.Expr)

def Place.ty : Place → Ty
  | .var _ ty | .storage _ _ _ ty _ | .memory _ ty => ty
  | .memoryByte _ => .fixedBytes 1

/-! ## What lowering reads -/

structure Context where
  catalog : Catalog
  lineage : Lineage
  layout : Storage.Layout
  options : Options

/-- What the code of a function belongs to; only a contract has `this` and storage. -/
inductive Owner where
  | contract
  | library (name : String)
  | free
  deriving DecidableEq

inductive Mode where
  /-- After deployment: immutable fields are read-only. -/
  | runtime
  | constructor
  /-- As the initial value of a field: methods of one `return` are expanded in place. -/
  | initializer
  deriving DecidableEq

structure Env extends Context where
  /-- The class whose code is lowered; `super` is relative to it. -/
  className : String
  /-- The function that the code goes into. -/
  function : String
  mode : Mode
  owner : Owner
  /-- Names and types of the return variables. -/
  returns : List (String × Ty) := []

/-! ## What lowering changes -/

/-- A function outside the class that its code turned out to call. -/
inductive Request where
  | library (name method : String)
  | free (name : String)
  deriving DecidableEq

/-- What a compilation has come to need so far. -/
structure Progress where
  registry : Registry := .empty
  /-- Classes that the code creates, in alphabetical order. -/
  dependencies : List String := []
  /-- Functions still to be lowered, in the order of request. -/
  pending : List Request := []
  /-- Functions ever requested. -/
  requested : List Request := []
  warnings : List String := []

namespace Progress

def request (p : Progress) (r : Request) : Progress :=
  if p.requested.contains r then p
  else { p with pending := p.pending ++ [r], requested := r :: p.requested }

def warn (p : Progress) (message : String) : Progress :=
  { p with warnings := p.warnings ++ [message] }

def use (p : Progress) (target : Target) (r : Routine) : Progress :=
  { p with registry := p.registry.add target r }

end Progress

structure Variable where
  irName : String
  ty : Ty

/-- Variables by source name; the first entry of a name counts. -/
abbrev Scope := List (String × Variable)

/-- The variables that take the outcome of the guarded call of a `try`. -/
structure Guard where
  success : String
  result : String
  /-- The call has been met. -/
  captured : Bool

structure State where
  progress : Progress
  /-- Scopes, the innermost first. -/
  scopes : List Scope := [[]]
  /-- Names of target variables made from source names, and of return variables. -/
  declared : List String := []
  /-- Number of temporaries. -/
  counter : Nat := 0
  /-- Statements of the block being written. -/
  code : List Yul.Stmt := []
  guard : Option Guard := none

abbrev Lower := ReaderT Env (StateT State Outcome)

/-! ## Writing code -/

def emit (s : Yul.Stmt) : Lower Unit :=
  modify fun st => { st with code := st.code ++ [s] }

def emitAll (ss : List Yul.Stmt) : Lower Unit :=
  modify fun st => { st with code := st.code ++ ss }

def emitExpr (e : Yul.Expr) : Lower Unit :=
  emit (.eval e)

/-- Collects what a piece of code writes, in place of writing it. -/
def collect {α : Type} (m : Lower α) : Lower (List Yul.Stmt × α) := do
  let outer ← modifyGet fun st => (st.code, { st with code := [] })
  let a ← m
  let inner ← modifyGet fun st => (st.code, { st with code := outer })
  return (inner, a)

/-- Runs a piece of code with the given scopes and then goes back to the present ones. -/
def withScopes {α : Type} (scopes : List Scope) (m : Lower α) : Lower α := do
  let outer ← modifyGet fun st => (st.scopes, { st with scopes := scopes })
  let a ← m
  modify fun st => { st with scopes := outer }
  return a

def inScope {α : Type} (m : Lower α) : Lower (List Yul.Stmt × α) := do
  withScopes ([] :: (← get).scopes) (collect m)

/-! ## Names -/

def numbered (stem : String) : Lower String :=
  modifyGet fun st => (stem ++ toString (st.counter + 1), { st with counter := st.counter + 1 })

def temp : Lower String := numbered "_"

def conditionTemp : Lower String := numbered "__cond_"

def bindVariable (name : String) (v : Variable) : List Scope → List Scope
  | [] => []
  | scope :: outer => ((name, v) :: scope) :: outer

/-- A name, followed by a number if it is in use: the first of `base`, `base_1`, `base_2`, … that is
not. Among one more candidates than names in use there is one. -/
def freeName (declared : List String) (base : String) : String :=
  let numberedNames := (List.range (declared.length + 1)).map fun i =>
    base ++ "_" ++ toString (i + 1)
  ((base :: numberedNames).find? (!declared.contains ·)).getD base

/-- Declares a source variable in the innermost scope and gives its target name. -/
def declare (name : String) (ty : Ty) : Lower String :=
  modifyGet fun st =>
    let irName := freeName st.declared ("var_" ++ name)
    (irName, { st with
      declared := irName :: st.declared, scopes := bindVariable name ⟨irName, ty⟩ st.scopes })

def lookup? (scopes : List Scope) (name : String) : Option Variable :=
  scopes.findSome? (·.lookup name)

def varOf? (name : String) : Lower (Option Variable) :=
  return lookup? (← get).scopes name

/-! ## Captures -/

def bindFresh (e : Yul.Expr) : Lower String := do
  let t ← temp
  emit (.letOne t e)
  return t

def captureFresh (v : Value) : Lower Value :=
  return ⟨ident (← bindFresh v.expr), v.ty⟩

/-- Binds a value to a temporary unless it is a literal or a variable. -/
def capture (v : Value) : Lower Value :=
  if v.expr.isCall then captureFresh v else return v

/-! ## Routines, types and arguments -/

def use (r : Routine) : Lower Unit := do
  let target := (← read).options.target
  modify fun st => { st with progress := st.progress.use target r }

def routine (r : FixedRoutine) (args : List Yul.Expr) : Lower Yul.Expr := do
  use (.fixed r)
  return r.call args

def runRoutine (r : FixedRoutine) (args : List Yul.Expr) : Lower Unit := do
  emitExpr (← routine r args)

def family (f : RoutineFamily) (arity : Nat) (args : List Yul.Expr) : Lower Yul.Expr := do
  use (.family f arity)
  return call (f.name arity) args

def request (r : Request) : Lower Unit :=
  modify fun st => { st with progress := st.progress.request r }

def resolve (text : String) : Lower Ty := do
  (← read).catalog.typeOf text

def resolveAll (texts : List String) : Lower (List Ty) :=
  texts.mapM resolve

def structLayout (name : String) : Lower StructLayout := do
  match (← read).catalog.layouts.get? name with
  | some layout => return layout
  | none => throw (.unresolvedReference .struct name)

def checkArity (callee : String) (expected got : Nat) : Outcome Unit :=
  if expected = got then .ok () else .error (.arityMismatch callee expected got)

end ContractYul.Lowering
