import ContractYul.Lowering.Operand

/-!
# Names and members

What a name or a member means where it is read: a variable, a constant, a field, a member of a
struct, a property of the call or the block, an enum member or a bound of an integer type. A
constant is replaced by its initial value at every use.
-/

namespace ContractYul.Lowering

open Yul

/-! ## Constants -/

def constantValue (expand : Expansion) (field : Source.FieldDecl) : Lower Value := do
  match field.initializer, expand with
  | none, _ => throw (.inconsistent (.constantWithoutValue field.name))
  | some _, none => throw (.inconsistent (.selfReferringConstant field.name))
  | some init, some denote =>
    let ty ← resolve field.ty
    (denote init).valueAs ty

def namedConstant? (catalog : Catalog) (owner name : String) : Option Source.FieldDecl := do
  (← catalog.class? owner).fields.find? (isConstant name)

def undefined {α : Type} (name : String) : Lower α := do
  throw (.undefinedIdentifier name (← read).function)

def identValue (expand : Expansion) (name : String) : Lower Value := do
  match ← varOf? name with
  | some v => return ⟨ident v.irName, v.ty⟩
  | none =>
    match constant? (← read) name with
    | some field => constantValue expand field
    | none => undefined name

def identPlace (name : String) (write : Bool) : Lower Place := do
  match ← varOf? name with
  | some v => return .var v.irName v.ty
  | none =>
    if write && (constant? (← read) name).isSome then throw (.readOnlyAssignment .constant name)
    else undefined name

/-! ## Predefined objects -/

/-- Properties of the call, the block and the transaction that are one expression. -/
def predefined : List ((String × String) × Value) :=
  let word (instruction : String) (ty : Ty) : Value := ⟨call instruction [], ty⟩
  [(("msg", "sender"), word "caller" .address),
   (("msg", "value"), word "callvalue" (.uint 256)),
   (("msg", "sig"), ⟨Op.shl (num 224) (Op.shr (num 224) (call "calldataload" [num 0])),
     .fixedBytes 4⟩),
   (("block", "timestamp"), word "timestamp" (.uint 256)),
   (("block", "number"), word "number" (.uint 256)),
   (("block", "chainid"), word "chainid" (.uint 256)),
   (("block", "coinbase"), word "coinbase" .address),
   (("block", "basefee"), word "basefee" (.uint 256)),
   (("block", "gaslimit"), word "gaslimit" (.uint 256)),
   (("block", "prevrandao"), word "prevrandao" (.uint 256)),
   (("block", "difficulty"), word "prevrandao" (.uint 256)),
   (("tx", "origin"), word "origin" .address),
   (("tx", "gasprice"), word "gasprice" (.uint 256))]

def callDataCopy : Lower Value := do
  let size := call "calldatasize" []
  let copy ← captureFresh ⟨← routine .allocateMemory [Op.add size (num 32)], .bytes⟩
  emit (Op.mstore copy.expr size)
  emit (.run "calldatacopy" [Op.dataOf copy.expr, num 0, size])
  return copy

def predefinedValue (object property : String) : Lower (Option Value) := do
  if object == "msg" && property == "data" then return some (← callDataCopy)
  else match predefined.lookup (object, property) with
    | some v => return some v
    | none =>
      if ["msg", "block", "tx"].contains object then
        throw (.unknownMember property (.predefined object))
      else return none

def enumValue (object property : String) : Lower (Option Value) := do
  let catalog := (← read).catalog
  if catalog.isEnum object then
    match catalog.enumMember? object property with
    | some n => return some ⟨num n, .uint 8⟩
    | none => throw (.unknownMember property (.enum object))
  else return none

/-- A bound of an integer type that is written out; nothing for other names. -/
def boundValue (object property : String) : Outcome (Option Value) :=
  match (Ty.parse .none object).toOption.bind fun ty => ty.bounds?.map (ty, ·) with
  | none => .ok none
  | some (ty, bounds) =>
    if property == "max" then .ok (some ⟨numText bounds.max, ty⟩)
    else if property == "min" then
      let least := numText bounds.min
      .ok (some ⟨if bounds.negativeMin then Op.complement least else least, ty⟩)
    else .error (.unknownMember property (.value ty))

def namedMember (expand : Expansion) (object property : String) : Lower (Option Value) := do
  if let some v ← predefinedValue object property then return some v
  if let some v ← enumValue object property then return some v
  if let some v ← boundValue object property then return some v
  match namedConstant? (← read).catalog object property with
  | some field => return some (← constantValue expand field)
  | none => return none

/-! ## Members -/

def thisMember (expand : Expansion) (property : String) : Lower Value := do
  let env ← read
  match constant? env property with
  | some field => constantValue expand field
  | none =>
    if property == "balance" then return ⟨call "selfbalance" [], .uint 256⟩
    else throw (.unknownMember property (.class env.className))

def valueMember (v : Value) (property : String) : Lower Value := do
  if property == "length" then lengthOf (← valuePlace v)
  else if property == "balance" && v.ty.isAccount then
    return ⟨call "balance" [v.expr], .uint 256⟩
  else if property == "codehash" && v.ty.isAccount then
    return ⟨call "extcodehash" [v.expr], .fixedBytes 32⟩
  else if v.ty.isStruct then load (← memberPlace (← valuePlace v) property)
  else throw (.unknownMember property (.value v.ty))

def otherMember (expand : Expansion) (object : Operand) (property : String) : Lower Value := do
  match object.source with
  | .this => thisMember expand property
  | .ident name =>
    if (← varOf? name).isNone then
      if let some v ← namedMember expand name property then return v
    valueMember (← object.value) property
  | _ => valueMember (← object.value) property

def memberOperandPlace (object : Operand) (property : String) (write : Bool) : Lower Place := do
  match object.source with
  | .this => fieldPlace property write
  | _ => memberPlace (← object.base) property

def memberValue (expand : Expansion) (object : Operand) (property : String) : Lower Value := do
  if (← placeType (.member object.source property)).isSome then
    load (← memberOperandPlace object property false)
  else if property == "length" && (← placeType object.source).isSome then
    lengthOf (← object.place false)
  else otherMember expand object property

/-- The length of the code of an account; `x.code.length` means this unless `x` is a struct. -/
def codeLength (account : Operand) (otherwise : Lower Value) : Lower Value := do
  match ← placeType account.source with
  | some (.struct _) => otherwise
  | _ => return ⟨call "extcodesize" [(← account.value).expr], .uint 256⟩

/-! ## Elements -/

def elementPlace (object position : Operand) : Lower Place := do
  let base ← object.base
  let index ← position.value
  indexPlace base index (label object.source)

end ContractYul.Lowering
