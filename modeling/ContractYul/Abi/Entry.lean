import ContractYul.Abi.Signature
import ContractYul.Json.Reader

/-!
# The ABI description

The description of a contract's outside is a list of entries, read and written as JSON. Structs
and tuples are described by their components.
-/

namespace ContractYul.Abi

/-! ## Entries -/

inductive ParamEntry where
  | mk (name type : String) (components : List ParamEntry) (indexed : Option Bool)

namespace ParamEntry

def name : ParamEntry → String
  | mk name _ _ _ => name

def type : ParamEntry → String
  | mk _ type _ _ => type

def components : ParamEntry → List ParamEntry
  | mk _ _ components _ => components

def withIndexed (indexed : Bool) : ParamEntry → ParamEntry
  | mk name type components _ => mk name type components (some indexed)

end ParamEntry

mutual

/-- The entry of a type inside of arrays, whose brackets are `suffix`. -/
def describeWith (expand : String → Outcome (List ParamEntry)) (name suffix : String) :
    Ty → Outcome ParamEntry
  | .array elem length => describeWith expand name (Ty.arraySuffix length ++ suffix) elem
  | .struct s => do return .mk name ("tuple" ++ suffix) (← expand s) none
  | .tuple elems => do return .mk name ("tuple" ++ suffix) (← describeAllWith expand elems) none
  | t => do
    let type ← t.canonicalWith fun s => .error (.unresolvedReference .struct s)
    return .mk name (type ++ suffix) [] none

def describeAllWith (expand : String → Outcome (List ParamEntry)) :
    List Ty → Outcome (List ParamEntry)
  | [] => .ok []
  | t :: rest => do
    let entry ← describeWith expand "" "" t
    return entry :: (← describeAllWith expand rest)

end

def structComponents (names : TypeNames) : (depth : Nat) → String → Outcome (List ParamEntry)
  | 0, _ => .error .endless
  | depth + 1, name =>
    match names.named name with
    | some (.struct fields) => fields.mapM fun (field, text) => do
      describeWith (structComponents names depth) field "" (← Ty.parse names text)
    | _ => .ok []

def ParamEntry.describe (names : TypeNames) (name : String) (t : Ty) : Outcome ParamEntry :=
  describeWith (structComponents names names.structDepth) name "" t

inductive EntryKind where
  | function | constructor | event | error | fallback | receive
  deriving DecidableEq

def EntryKind.all : List EntryKind :=
  [.function, .constructor, .event, .error, .fallback, .receive]

def EntryKind.word : EntryKind → String
  | .function => "function"
  | .constructor => "constructor"
  | .event => "event"
  | .error => "error"
  | .fallback => "fallback"
  | .receive => "receive"

structure Entry where
  kind : EntryKind
  name : Option String := none
  inputs : Option (List ParamEntry) := none
  outputs : Option (List ParamEntry) := none
  stateMutability : Option String := none
  anonymous : Option Bool := none

def payableWord (payable : Bool) : String :=
  if payable then "payable" else "nonpayable"

def Entry.ofFunction (names : TypeNames) (f : Function) : Outcome Entry := do
  let inputs ← f.params.mapM fun p => ParamEntry.describe names p.name p.ty
  let outputs ← f.returns.mapM (ParamEntry.describe names "")
  return { kind := .function, name := f.name, inputs := inputs, outputs := outputs,
           stateMutability := f.mutability.abiWord }

def Entry.ofEvent (names : TypeNames) (e : Event) : Outcome Entry := do
  let inputs ← e.fields.mapM fun f => do
    return (← ParamEntry.describe names f.name f.ty).withIndexed f.indexed
  return { kind := .event, name := e.name, inputs := inputs, anonymous := e.anonymous }

def Entry.ofError (names : TypeNames) (e : CustomError) : Outcome Entry := do
  let inputs ← e.params.mapM fun (name, t) => ParamEntry.describe names name t
  return { kind := .error, name := e.name, inputs := inputs }

def Entry.ofConstructor (names : TypeNames) (params : List Param) (payable : Bool) :
    Outcome Entry := do
  let inputs ← params.mapM fun p => ParamEntry.describe names p.name p.ty
  return { kind := .constructor, inputs := inputs, stateMutability := payableWord payable }

def Entry.special (kind : EntryKind) (payable : Bool) : Entry :=
  { kind := kind, stateMutability := payableWord payable }

/-! ## Writing -/

def optionalMember {α : Type} (key : String) (f : α → Json) : Option α → List (String × Json)
  | none => []
  | some a => [(key, f a)]

mutual

def ParamEntry.toJson : ParamEntry → Json
  | .mk name type components indexed =>
    .object ([("name", .string name), ("type", .string type)]
      ++ (if components.isEmpty then [] else [("components", .array (paramsToJson components))])
      ++ optionalMember "indexed" .bool indexed)

def paramsToJson : List ParamEntry → List Json
  | [] => []
  | p :: rest => p.toJson :: paramsToJson rest

end

def Entry.toJson (e : Entry) : Json :=
  .object ([("type", .string e.kind.word)]
    ++ optionalMember "name" .string e.name
    ++ optionalMember "inputs" (fun ps => .array (paramsToJson ps)) e.inputs
    ++ optionalMember "outputs" (fun ps => .array (paramsToJson ps)) e.outputs
    ++ optionalMember "stateMutability" .string e.stateMutability
    ++ optionalMember "anonymous" .bool e.anonymous)

def render (entries : List Entry) : String :=
  (Json.array (entries.map Entry.toJson)).pretty

/-! ## Reading -/

/-- Reads a parameter, itself and its components being at most `depth` levels. -/
def ParamEntry.ofJson? : (depth : Nat) → Json → Option ParamEntry
  | 0, _ => none
  | depth + 1, j => do
    let members ← j.members?
    let name ← Json.required? Json.string? members "name"
    let type ← Json.required? Json.string? members "type"
    let components ← Json.defaulted? (Json.list? (ofJson? depth)) [] members "components"
    let indexed ← Json.optional? Json.bool? members "indexed"
    return .mk name type components indexed

def EntryKind.ofJson? (j : Json) : Option EntryKind := do
  let word ← j.string?
  EntryKind.all.find? (·.word == word)

/-- Levels of parameters that are read. A text may nest arrays and objects 127 deep: the list, the
entry and the list of its parameters take three, and each level of parameters takes two. -/
def maxNesting : Nat := 62

def Entry.ofJson? (j : Json) : Option Entry := do
  let members ← j.members?
  let params := Json.list? (ParamEntry.ofJson? maxNesting)
  return {
    kind := ← Json.required? EntryKind.ofJson? members "type"
    name := ← Json.optional? Json.string? members "name"
    inputs := ← Json.optional? params members "inputs"
    outputs := ← Json.optional? params members "outputs"
    stateMutability := ← Json.optional? Json.string? members "stateMutability"
    anonymous := ← Json.optional? Json.bool? members "anonymous" }

def read? (text : String) : Option (List Entry) := do
  Json.list? Entry.ofJson? (← Json.parse? text)

end ContractYul.Abi
