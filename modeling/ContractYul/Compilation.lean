import ContractYul.Abi.Entry
import ContractYul.Dispatch
import ContractYul.Lowering.Function

/-!
# Compilation

A class is compiled in steps that share what they come to need: its methods and getters, the code
that runs at deployment, the library and free functions that these call, and the entry code. The
functions go into both parts of the object, since code that runs at deployment may call them too.
-/

namespace ContractYul

open Lowering (Context Session Progress)
open Source (ClassDecl MethodDecl FieldDecl File)

def version : String := "0.3.0"

structure Compiled where
  object : Yul.Object
  /-- What can be called from outside, getters included. -/
  functions : List Abi.Function
  /-- Events that the classes of the line declare. -/
  events : List Abi.Event
  /-- Custom errors in sight. -/
  errors : List Abi.CustomError
  /-- The ABI description, if it is asked for. -/
  abi : Option String
  layout : Storage.Layout
  warnings : List String

def Compiled.function? (c : Compiled) (name : String) : Option Abi.Function :=
  c.functions.find? (·.name == name)

namespace Compilation

open Yul (Stmt num call textLiteral)

def contextOf (options : Options) (file : File) (available : List File) (className : String) :
    Outcome Context := do
  let catalog ← Catalog.ofFile file available
  match catalog.class? className with
  | none => .error (.classNotFound className)
  | some c =>
    let lineage ← Lineage.ofClass catalog.class? catalog.classes.size c
    let layout ← Storage.allocate catalog lineage options.target.supportsTransient
    return ⟨catalog, lineage, layout, options⟩

def checkDeployable (c : ClassDecl) : Outcome Unit :=
  if c.isLibrary then .error (.unsupported (.libraryDeployment c.name))
  else if c.isAbstract then .error (.unsupported (.abstractDeployment c.name))
  else .ok ()

/-! ## Methods and getters -/

/-- Lowered functions and how they are reached from outside. -/
structure Exposed where
  definitions : List Yul.Function := []
  functions : List Abi.Function := []
  receive : Option Dispatch.Special := none
  fallback : Option Dispatch.Special := none

def functionOf (m : MethodDecl) (irName : String) : Session Abi.Function := do
  let catalog := (← read).catalog
  let params ← m.params.mapM fun p => (Abi.Param.resolve catalog.names p : Outcome Abi.Param)
  let returns ← m.returns.mapM fun r => (catalog.typeOf r : Outcome Ty)
  Abi.Function.make catalog.names m.name irName params returns m.mutability

def addMethod (e : Exposed) (owner : ClassDecl) (m : MethodDecl) : Session Exposed := do
  let irName := functionName m.name
  let e := { e with definitions := e.definitions ++ [← Lowering.method owner m irName] }
  match m.kind with
  | .receive => return { e with receive := some ⟨irName, true⟩ }
  | .fallback => return { e with fallback := some ⟨irName, m.mutability == .payable⟩ }
  | .normal =>
    if m.visibility.isExternal && !m.isStatic then
      return { e with functions := e.functions ++ [← functionOf m irName] }
    else return e

def isReadable (t : Ty) : Bool :=
  t.isValue || t.isBytesLike

def getterOf (field : FieldDecl) (keys : List Ty) (result : Ty) : Session Abi.Function := do
  let params := keys.zipIdx.map fun (ty, i) => (⟨Lowering.keyName i, ty.describe, ty⟩ : Abi.Param)
  Abi.Function.make (← read).catalog.names field.name (Lowering.getterName field.name) params
    [result] .view

/-- Lowers the getter of a public field, or warns that it can have none. A method of the same name
takes the place of the getter. -/
def addGetter (e : Exposed) (owner : ClassDecl) (field : FieldDecl) : Session Exposed := do
  let context ← read
  if !field.visibility.isExternal || (context.lineage.method? field.name).isSome then return e
  else
    let ty ← context.catalog.typeOf field.ty
    let (keys, result) := ty.getterShape
    if isReadable result && keys.all isReadable then
      let definition ← Lowering.getter owner field
      let function ← getterOf field keys result
      return { e with
        definitions := e.definitions ++ [definition], functions := e.functions ++ [function] }
    else
      modify (·.warn s!"no getter for public field `{field.name}` of type {ty.describe}")
      return e

/-- Lowers all methods of a line of classes and, if asked for, the getters of its fields. -/
def expose : Session Exposed := do
  let context ← read
  let e ← context.lineage.finalMethods.foldlM (fun e (owner, m) => addMethod e owner m)
    ({} : Exposed)
  let renamed ← context.lineage.renamedMethods.mapM fun (owner, m, irName) =>
    Lowering.method owner m irName
  let e := { e with definitions := e.definitions ++ renamed }
  if context.options.publicGetters then
    context.lineage.classes.foldlM (fun e c => c.fields.foldlM (fun e f => addGetter e c f) e) e
  else return e

/-! ## Deployment -/

structure Creation where
  code : List Stmt
  /-- The constructors. -/
  definitions : List Yul.Function
  params : List Abi.Param
  payable : Bool

def initMemory : Stmt :=
  Yul.Op.mstore Yul.Op.freePointer (num 128)

def returnDeployed (className : String) : List Stmt :=
  let name := textLiteral (Yul.deployedName className)
  [.run "codecopy" [num 0, call "dataoffset" [name], call "datasize" [name]],
   .run "return" [num 0, call "datasize" [name]]]

def readArguments (className : String) (params : List Abi.Param) :
    Session (List Stmt × List Yul.Expr) := do
  let target := (← read).options.target
  let (code, args, registry) ←
    Dispatch.constructorArguments target className params (← get).registry
  modify fun p => { p with registry }
  return (code, args)

/-- Lowers what runs at deployment: initial values, then the constructor of the last class that has
one, which calls those before it. -/
def creation : Session Creation := do
  let context ← read
  let className := context.lineage.derived.name
  let effective := context.lineage.effectiveConstructor?
  let payable := effective.any (·.2.payable)
  let params ← ((effective.map (·.2.params)).getD []).mapM fun p =>
    (Abi.Param.resolve context.catalog.names p : Outcome Abi.Param)
  let (reads, args) ← readArguments className params
  let initial ← Lowering.initializers className
  let definitions ← (context.lineage.classes.filterMap fun c => c.constructor.map (c, ·)).mapM
    fun (c, ctor) => Lowering.constructor c ctor
  let check := if payable then [] else [Dispatch.rejectValue]
  let invoke := effective.toList.map fun (owner, _) => Stmt.run (constructorName owner.name) args
  return {
    code := [initMemory] ++ check ++ reads ++ initial ++ invoke ++ returnDeployed className
    definitions, params, payable }

/-! ## Functions on request -/

def requestBound (catalog : Catalog) : Nat :=
  (catalog.libraries.flatMap (·.methods)).length + catalog.functions.size

/-- Lowers the functions that wait, and those that come to wait meanwhile, at most `count`. -/
def lowerPending : (count : Nat) → Session (List Yul.Function)
  | 0 => return []
  | count + 1 => do
    match ← Lowering.nextPending with
    | none => return []
    | some r =>
      let f ← Lowering.requested r
      return f :: (← lowerPending count)

/-! ## Assembly -/

def entryCode (e : Exposed) : Session (List Stmt) := do
  let target := (← read).options.target
  let (code, registry) ←
    Dispatch.entryCode target (← get).registry e.functions e.receive e.fallback
  modify fun p => { p with registry }
  return code

def objectOf (className : String) (creation : Creation) (entry : List Stmt)
    (definitions : List Yul.Function) (progress : Progress) : Yul.Object :=
  let shared := (definitions ++ progress.registry.definitions).map Yul.Function.toStmt
  { name := className
    creation := creation.code ++ creation.definitions.map Yul.Function.toStmt ++ shared
    deployed := [initMemory] ++ entry ++ shared
    links := progress.dependencies }

def abiEntries (context : Context) (e : Exposed) (creation : Creation) (events : List Abi.Event)
    (errors : List Abi.CustomError) : Outcome (List Abi.Entry) := do
  let names := context.catalog.names
  let functions ← e.functions.mapM (Abi.Entry.ofFunction names)
  let constructors ← context.lineage.effectiveConstructor?.toList.mapM fun _ =>
    Abi.Entry.ofConstructor names creation.params creation.payable
  let events ← events.mapM (Abi.Entry.ofEvent names)
  let errors ← errors.mapM (Abi.Entry.ofError names)
  let fallback := e.fallback.toList.map fun f => Abi.Entry.special .fallback f.payable
  let receive := e.receive.toList.map fun _ => Abi.Entry.special .receive true
  return functions ++ constructors ++ events ++ errors ++ fallback ++ receive

def run (className : String) : Session Compiled := do
  let context ← read
  checkDeployable context.lineage.derived
  let exposed ← expose
  let creation ← creation
  let pending ← lowerPending (requestBound context.catalog)
  let entry ← entryCode exposed
  let progress ← get
  let events ← (context.lineage.classes.flatMap (·.events)).mapM fun e =>
    (context.catalog.eventOf e : Outcome Abi.Event)
  let errors := context.catalog.errors.values
  let abi ←
    if context.options.emitAbi then do
      pure (some (Abi.render (← abiEntries context exposed creation events errors)))
    else pure none
  return {
    object := objectOf className creation entry (exposed.definitions ++ pending) progress
    functions := exposed.functions
    events, errors, abi
    layout := context.layout
    warnings := progress.warnings }

end Compilation

def compile (options : Options) (file : File) (available : List File) (className : String) :
    Outcome Compiled := do
  let context ← Compilation.contextOf options file available className
  let (compiled, _) ← ((Compilation.run className).run context).run {}
  return compiled

def compileAll (options : Options) (file : File) (available : List File)
    (classNames : List String) : List (String × Outcome Compiled) :=
  classNames.map fun name => (name, compile options file available name)

end ContractYul
