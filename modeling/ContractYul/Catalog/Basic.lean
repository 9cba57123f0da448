import ContractYul.Abi.Signature
import ContractYul.Catalog.Binding
import ContractYul.Catalog.StructLayout
import ContractYul.Data.SortedSet

/-!
# The catalog

Everything that code looks up by name: the visible declarations with struct layouts, custom errors
and the library functions bound to types.
-/

namespace ContractYul

open Source

/-- A library bound to a type, known by its text, or to all types, known as `*`. -/
structure Extension where
  typeKey : String
  library : String
  deriving DecidableEq

structure Catalog extends Declarations where
  counting : Ty.Counting := .wrapping
  layouts : StructLayout.Table := .empty
  errors : OrderedMap Abi.CustomError := .empty
  extensions : List Extension := []

namespace Catalog

def names (c : Catalog) : TypeNames :=
  c.toDeclarations.typeNames c.layouts.slots?

def typeOf (c : Catalog) (text : String) : Outcome Ty :=
  Ty.parse c.names text

def slotsOf (c : Catalog) (t : Ty) : Outcome Nat :=
  t.storageSlots c.counting c.layouts.slots?

def class? (c : Catalog) (name : String) : Option ClassDecl :=
  c.classes.get? name

/-! ## Libraries and functions -/

def library? (c : Catalog) (name : String) : Option ClassDecl :=
  (c.class? name).filter ClassDecl.isLibrary

def libraries (c : Catalog) : List ClassDecl :=
  c.classes.values.filter ClassDecl.isLibrary

def libraryMethod (c : Catalog) (library method : String) : Outcome MethodDecl :=
  match c.library? library with
  | none => .error (.unresolvedReference .library library)
  | some l =>
    match l.method? method with
    | none => .error (.unknownMember method (.library library))
    | some m => .ok m

def freeFunction? (c : Catalog) (name : String) : Option FunctionDecl :=
  (c.functions.get? name).filter (!·.neverReturns)

/-! ## Enums, structs and events -/

def isEnum (c : Catalog) (name : String) : Bool :=
  c.enums.contains name

def enumMember? (c : Catalog) (enum member : String) : Option Nat := do
  (← c.enums.get? enum).findIdx? (· == member)

def eventOf (c : Catalog) (decl : EventDecl) : Outcome Abi.Event := do
  let fields ← decl.fields.mapM fun f => do
    return (⟨f.name, ← c.typeOf f.ty, f.indexed⟩ : Abi.EventField)
  let count := fields.countP (·.indexed)
  let max := Abi.maxIndexed decl.anonymous
  if count > max then .error (.tooManyIndexedFields decl.name count max)
  else do
    let types ← fields.mapM fun f => f.ty.canonicalName c.names
    return ⟨decl.name, Abi.signature decl.name types, fields, decl.anonymous⟩

/-! ## Methods of other contracts -/

structure ExternalMethod where
  name : String
  signature : String
  params : List Ty
  returns : List Ty
  mutability : Mutability

def ExternalMethod.selector (m : ExternalMethod) : Nat :=
  Abi.selector m.signature

def externalMethod (c : Catalog) (name : String) (params returns : List Ty)
    (mutability : Mutability) : Outcome ExternalMethod := do
  let types ← params.mapM fun t => t.canonicalName c.names
  return ⟨name, Abi.signature name types, params, returns, mutability⟩

def externalOf (c : Catalog) (m : MethodDecl) : Outcome ExternalMethod := do
  let params ← m.params.mapM fun p => c.typeOf p.ty
  let returns ← m.returns.mapM c.typeOf
  c.externalMethod m.name params returns m.mutability

def exposed? (cls : ClassDecl) (method : String) : Option MethodDecl :=
  cls.methods.find? fun m => m.name == method && m.visibility.isExternal && !m.isStatic

/-- The class where a search goes on. Of several parents it is the last one where `inner`, a search of
its own, finds the method. -/
def nextClass (c : Catalog) (inner : ClassDecl → Outcome (Option MethodDecl)) (cls : ClassDecl) :
    Outcome (Option ClassDecl) :=
  match cls.heritage with
  | none => .ok none
  | some (.extends parent) => .ok (c.class? parent)
  | some (.compose parents) =>
    (parents.reverse.filterMap c.class?).findM? fun p => do return (← inner p).isSome

/-- A search up from a class that passes at most so many classes. -/
def climb (c : Catalog) (method : String) (inner : ClassDecl → Outcome (Option MethodDecl)) :
    (rounds : Nat) → ClassDecl → Outcome (Option MethodDecl)
  | 0, _ => .ok none
  | rounds + 1, cls =>
    match exposed? cls method with
    | some m => .ok (some m)
    | none => do
      match ← c.nextClass inner cls with
      | some next => climb c method inner rounds next
      | none => return none

/-- A search with at most `depth` searches inside one another; one that goes deeper does not end. -/
def searchWithin (c : Catalog) (method : String) :
    (depth : Nat) → ClassDecl → Outcome (Option MethodDecl)
  | 0, _ => .error .endless
  | depth + 1, cls => c.climb method (c.searchWithin method depth) (c.classes.size + 1) cls

def search (c : Catalog) (method : String) (cls : ClassDecl) : Outcome (Option MethodDecl) :=
  c.searchWithin method c.classes.size cls

def contractMethod (c : Catalog) (contract method : String) : Outcome ExternalMethod :=
  match c.interfaces.get? contract with
  | some i =>
    match i.methods.find? (·.name == method) with
    | some m => c.externalOf m
    | none => .error (.unknownMember method (.contract contract))
  | none =>
    match c.class? contract with
    | none => .error (.unresolvedReference .interface contract)
    | some cls => do
      match ← c.search method cls with
      | some m => c.externalOf m
      | none =>
        match cls.fields.find? fun f => f.name == method && f.visibility.isExternal with
        | none => .error (.unknownMember method (.contract contract))
        | some f => do
          let (keys, result) := (← c.typeOf f.ty).getterShape
          c.externalMethod method keys [result] .view

/-! ## Extensions -/

def boundTo (c : Catalog) (key : String) : List String :=
  sortedSet ((c.extensions.filter (·.typeKey == key)).map (·.library))

/-- Libraries whose functions can be called on a type; those bound to every type come last. -/
def extensionsFor (c : Catalog) (t : Ty) : List String :=
  c.boundTo t.describe ++ c.boundTo "*"

def bindingKey (c : Catalog) (target : String) : Outcome String :=
  if target == "*" then .ok "*" else (c.typeOf target).map Ty.describe

def addComment (c : Catalog) (comment : String) : Outcome Catalog :=
  match Binding.ofComment? comment with
  | none => .ok c
  | some b =>
    match c.library? b.library with
    | none => .error (.unresolvedReference .library b.library)
    | some _ => do
      let key ← c.bindingKey b.target
      return { c with extensions := c.extensions.insert ⟨key, b.library⟩ }

/-! ## Building -/

def addError (c : Catalog) (f : FunctionDecl) : Outcome Catalog := do
  let params ← f.params.mapM fun p => do return (p.name, ← c.typeOf p.ty)
  let types ← params.mapM fun (_, t) => t.canonicalName c.names
  return { c with errors := c.errors.insert f.name ⟨f.name, Abi.signature f.name types, params⟩ }

def ofFile (file : File) (available : List File) (counting : Ty.Counting := .wrapping) :
    Outcome Catalog := do
  let d ← Declarations.ofFile file available
  let layouts ← StructLayout.all counting d
  let c : Catalog := { toDeclarations := d, counting, layouts }
  let c ← (d.functions.values.filter (·.neverReturns)).foldlM addError c
  (Declarations.visibleComments file available).foldlM addComment c

end Catalog

end ContractYul
