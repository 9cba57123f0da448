import ContractYul.Lowering.Encoding

/-!
# Events

An event becomes a log: topics for its signature, unless it is anonymous, and for its indexed
fields, and an encoding of the other fields as data. A topic is a word, so an indexed field that is
no value is hashed.
-/

namespace ContractYul.Lowering

open Yul

def topicOf (v : Value) : Lower Yul.Expr := do
  if v.ty.isValue then return (← capture v).expr
  else match ← referenceHash? v with
    | some hash => return (← captureFresh ⟨hash, v.ty⟩).expr
    | none => throw (.unsupported (.indexedField v.ty))

def logOf (start length : Yul.Expr) (topics : List Yul.Expr) : Yul.Stmt :=
  .run ("log" ++ toString topics.length) ([start, length] ++ topics)

def logData (topics : List Yul.Expr) (data : List Value) : Lower Unit := do
  if data.isEmpty then emit (logOf (num 0) (num 0) topics)
  else
    let shape ← shapeLiteral (data.map (·.ty))
    let start ← freeMemory (.uint 256)
    let encoded ← family .abiEncode data.length ([start.expr, shape] ++ data.map (·.expr))
    let stop ← bindFresh encoded
    emit (logOf start.expr (Op.sub (ident stop) start.expr) topics)

def emitEvent (name : String) (args : List Operand) : Lower Unit := do
  let catalog := (← read).catalog
  match catalog.events.get? name with
  | none => throw (.unresolvedReference .event name)
  | some decl =>
    let event ← catalog.eventOf decl
    checkArity name event.fields.length args.length
    let values ← orderedAs args (event.fields.map (·.ty))
    let (indexed, data) := (event.fields.zip values).partition (·.1.indexed)
    let topics ← indexed.mapM fun (_, v) => topicOf v
    let front := if event.anonymous then [] else [hexLiteral event.topic]
    logData (front ++ topics) (data.map (·.2))

end ContractYul.Lowering
