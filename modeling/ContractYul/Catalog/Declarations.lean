import ContractYul.Data.OrderedMap
import ContractYul.Source.Basic
import ContractYul.Ty.Parser

/-!
# Visible declarations

The declarations of a file together with those that it imports, by kind and name. A later
declaration of a name replaces an earlier one, but for events, where the first stays.
-/

namespace ContractYul

open Source

structure Declarations where
  classes : OrderedMap ClassDecl := .empty
  /-- Interfaces with methods. -/
  interfaces : OrderedMap InterfaceDecl := .empty
  /-- Fields and type texts of the structs. -/
  structs : OrderedMap (List (String × String)) := .empty
  enums : OrderedMap (List String) := .empty
  aliases : OrderedMap String := .empty
  functions : OrderedMap FunctionDecl := .empty
  events : OrderedMap EventDecl := .empty

namespace Declarations

def addClass (d : Declarations) (c : ClassDecl) : Declarations :=
  { d with
    classes := d.classes.insert c.name c
    events := c.events.foldl (fun events e => events.insertNew e.name e) d.events }

def addInterface (d : Declarations) (i : InterfaceDecl) : Declarations :=
  if i.isStruct then
    { d with structs := d.structs.insert i.name (i.fields.map fun f => (f.name, f.ty)) }
  else { d with interfaces := d.interfaces.insert i.name i }

def addEnum (d : Declarations) (e : EnumDecl) : Declarations :=
  { d with enums := d.enums.insert e.name e.members }

def addAlias (d : Declarations) (a : AliasDecl) : Declarations :=
  { d with aliases := d.aliases.insert a.name a.underlying }

def addFunction (d : Declarations) (f : FunctionDecl) : Declarations :=
  { d with functions := d.functions.insert f.name f }

def addFile (d : Declarations) (file : File) : Declarations :=
  let d := file.classes.foldl addClass d
  let d := file.interfaces.foldl addInterface d
  let d := file.enums.foldl addEnum d
  let d := file.aliases.foldl addAlias d
  file.functions.foldl addFunction d

end Declarations

end ContractYul

namespace ContractYul.Source

def File.only (file : File) (name : String) : File :=
  { file with
    classes := file.classes.filter (·.name == name)
    interfaces := file.interfaces.filter (·.name == name)
    enums := file.enums.filter (·.name == name)
    aliases := file.aliases.filter (·.name == name)
    functions := file.functions.filter (·.name == name) }

def File.declaresNothing (file : File) : Bool :=
  file.classes.isEmpty && file.interfaces.isEmpty && file.enums.isEmpty && file.aliases.isEmpty &&
    file.functions.isEmpty

end ContractYul.Source

namespace ContractYul.Declarations

open Source

def addImport (d : Declarations) (available : List File) (i : Import) : Outcome Declarations :=
  match available.find? (·.path == i.path) with
  | none => .error (.unresolvedImport i.path "")
  | some file =>
    if i.names.isEmpty then .ok (d.addFile file)
    else i.names.foldlM (fun d name =>
      let part := file.only name
      if part.declaresNothing then .error (.unresolvedImport i.path name)
      else .ok (d.addFile part)) d

def ofFile (file : File) (available : List File) : Outcome Declarations := do
  let imported : Declarations ← file.imports.foldlM (fun d i => addImport d available i) {}
  return imported.addFile file

/-- The comments that a file sees: those of files imported as a whole, then its own. -/
def visibleComments (file : File) (available : List File) : List String :=
  let imported := file.imports.flatMap fun i =>
    if i.names.isEmpty then ((available.find? (·.path == i.path)).map File.comments).getD [] else []
  imported ++ file.comments

/-! ## Types -/

def isContract (d : Declarations) (name : String) : Bool :=
  d.interfaces.contains name || (d.classes.get? name).any (!·.isLibrary)

/-- What a name stands for as a type; enums go before structs, aliases and contracts. -/
def named? (d : Declarations) (name : String) : Option NamedType :=
  match d.enums.get? name with
  | some members => some (.enum members.length)
  | none =>
    match d.structs.get? name with
    | some fields => some (.struct fields)
    | none =>
      match d.aliases.get? name with
      | some underlying => some (.alias underlying)
      | none => if d.isContract name then some .contract else none

def typeNames (d : Declarations) (structSlots : String → Option Nat) : TypeNames where
  named := d.named?
  structSlots := structSlots
  aliasDepth := d.aliases.size
  structDepth := d.structs.size

end ContractYul.Declarations
