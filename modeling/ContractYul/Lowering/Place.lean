import ContractYul.Lowering.StructCopy

/-!
# Places

Fields, variables, array elements, mapping entries and struct members as places, and reading,
writing and clearing places.

In storage a mapping entry lies at the hash of its key and the slot of the mapping. An array of any
length has its length in its slot and its elements, in whole slots, from the hash of the slot on; a
fixed array has its elements in place. Byte strings have their length in their slot and their words
at its hash. In memory, arrays and byte strings are a length word followed by the data. What is no
value is copied when it moves between storage and memory.
-/

namespace ContractYul.Lowering

open Yul

/-! ## Fields -/

def isConstant (name : String) (f : Source.FieldDecl) : Bool :=
  f.name == name && f.storage == .constant

/-- The constant that a plain name means: of the library in library code, and else of the nearest
class of the line. -/
def constant? (env : Env) (name : String) : Option Source.FieldDecl :=
  match env.owner with
  | .library l => (env.catalog.library? l).bind fun c => c.fields.find? (isConstant name)
  | _ => env.lineage.classes.reverse.findSome? fun c => c.fields.find? (isConstant name)

def fieldPlace (name : String) (write : Bool) : Lower Place := do
  let env ← read
  if env.owner != .contract then throw (.unknownMember name (.thisOutside env.function))
  else match env.layout.get? name with
    | none =>
      if (constant? env name).isNone then throw (.unknownMember name (.class env.className))
      else if write then throw (.readOnlyAssignment .constant name)
      else throw (.inconsistent (.constantWithoutStorage name))
    | some s =>
      if write && s.immutable && env.mode == .runtime then
        throw (.readOnlyAssignment .immutable name)
      else return .storage (num s.slot) s.byteOffset s.byteSize s.ty s.transient

/-! ## Types of places -/

def memberType? (env : Env) (member : String) : Ty → Option Ty
  | .struct name => do
    let layout ← env.catalog.layouts.get? name
    return (← layout.fields.get? member).ty
  | _ => none

def entryType? : Ty → Option Ty
  | .mapping _ value => some value
  | .array elem _ => some elem
  | .bytes => some (.fixedBytes 1)
  | _ => none

/-- The type of an expression that is the name of a place: a variable, a field, or a member,
element or entry of such a place. -/
def placeType? (env : Env) (scopes : List Scope) : Source.Expr → Option Ty
  | .ident name => (lookup? scopes name).map (·.ty)
  | .member object property =>
    match object with
    | .this =>
      if env.owner == .contract then (env.layout.get? property).map (·.ty) else none
    | object => (placeType? env scopes object).bind (memberType? env property)
  | .index object _ => (placeType? env scopes object).bind entryType?
  | _ => none

def placeType (e : Source.Expr) : Lower (Option Ty) :=
  return placeType? (← read) (← get).scopes e

def label : Source.Expr → String
  | .ident name => name
  | .member _ property => property
  | .index object _ => label object
  | _ => "value"

/-! ## Reading -/

def valuePlace (v : Value) : Lower Place := do
  match v.expr with
  | .ident name => return .var name v.ty
  | e => return .var (← bindFresh e) v.ty

def copyToMemory (slot : Yul.Expr) (ty : Ty) : Lower Yul.Expr :=
  match ty with
  | .string | .bytes => routine .storageLoadBytes [slot]
  | .array elem none =>
    if elem.isValue then routine .storageLoadArray [slot]
    else throw (.unsupported (.copyToMemory ty))
  | .array elem (some n) =>
    if elem.isValue then routine .storageLoadWords [slot, num n]
    else throw (.unsupported (.copyToMemory ty))
  | .struct name => loadStruct name slot
  | .mapping _ _ => throw (.unsupported .mappingAsValue)
  | _ => throw (.unsupported (.copyToMemory ty))

def load : Place → Lower Value
  | .var name ty => return ⟨ident name, ty⟩
  | .memory address ty => return ⟨Op.mload address, ty⟩
  | .memoryByte address =>
    return ⟨Op.shl (num 248) (call "byte" [num 0, Op.mload address]), .fixedBytes 1⟩
  | .storage slot offset size ty transient =>
    if ty.isValue then return ⟨storageRead slot offset size ty transient, ty⟩
    else if transient then throw (.unsupported (.transientReference ty))
    else do capture ⟨← copyToMemory slot ty, ty⟩

/-! ## Writing -/

/-- A call that copies a value in memory to a slot, for a type that is no value. -/
def copyToStorage (slot value : Yul.Expr) (ty : Ty) : Lower Yul.Expr :=
  match ty with
  | .string | .bytes => routine .storageStoreBytes [slot, value]
  | .array elem none =>
    if elem.isValue then routine .storageStoreArray [slot, value]
    else throw (.unsupported (.assignToStorage ty))
  | .array elem (some n) =>
    if elem.isValue then routine .storageStoreWords [slot, value, num n]
    else throw (.unsupported (.assignToStorage ty))
  | .struct name => storeStruct name slot value
  | _ => throw (.unsupported (.assignToStorage ty))

def store (place : Place) (value : Yul.Expr) : Lower Unit :=
  match place with
  | .var name _ => emit (.assignOne name value)
  | .memory address _ => emit (Op.mstore address value)
  | .memoryByte address => emit (.run "mstore8" [address, call "byte" [num 0, value]])
  | .storage slot offset size ty transient =>
    if ty.isValue then emit (storageWrite slot offset size ty transient value)
    else if transient then throw (.unsupported (.transientReference ty))
    else do emitExpr (← copyToStorage slot value ty)

def slotsOf (ty : Ty) : Lower Nat := do
  (← read).catalog.slotsOf ty

def clearData (slot count : Yul.Expr) : Lower Unit := do
  let data ← routine .arrayDataSlot [slot]
  runRoutine .zeroStorage [data, count]
  emit (Op.sstore slot (num 0))

def clearSlots (slot : Yul.Expr) (ty : Ty) : Lower Unit :=
  match ty with
  | .array elem none => do
    let span ← slotsOf elem
    let length ← capture ⟨Op.sload slot, .uint 256⟩
    clearData slot (scaled length.expr span)
  | .string | .bytes =>
    clearData slot (Op.div (Op.add (Op.sload slot) (num 31)) (num 32))
  | .struct _ | .array _ (some _) => do
    let span ← slotsOf ty
    runRoutine .zeroStorage [slot, num span]
  | _ => throw (.unsupported (.delete ty))

def clear (place : Place) : Lower Unit :=
  if place.ty.isValue then store place (num 0)
  else match place with
    | .storage slot _ _ ty transient =>
      if transient then throw (.unsupported (.transientReference ty)) else clearSlots slot ty
    | _ => store place (num emptyMemory)

/-! ## Elements and members -/

def checkLiteralIndex (name : String) (index length : Nat) : Outcome Unit :=
  if index < length then .ok () else .error (.indexOutOfBounds name index length)

def fixedElementSlot (slot : Yul.Expr) (span length : Nat) (index : Value) (name : String) :
    Lower Yul.Expr := do
  match index.expr.literalValue? with
  | some i =>
    checkLiteralIndex name i length
    return offsetSlot slot (i * span)
  | none =>
    let index ← capture index
    use (.panic outOfBoundsCode)
    emit (FixedRoutine.checkBounds index.expr (num length))
    return (← capture ⟨Op.add slot (scaled index.expr span), .uint 256⟩).expr

def storageEntry (slot : Yul.Expr) (ty : Ty) (transient : Bool) (index : Value) (name : String) :
    Lower Place :=
  match ty with
  | .mapping key value => do
    let hash := if key.isBytesLike then FixedRoutine.mappingSlotBytes else .mappingSlot
    let entry ← capture ⟨← routine hash [index.expr, slot], .uint 256⟩
    return wholeSlot entry.expr value transient
  | .array elem none => do
    let span ← slotsOf elem
    let entry ← capture ⟨← routine .storageArrayIndex [slot, index.expr, num span], .uint 256⟩
    return wholeSlot entry.expr elem transient
  | .array elem (some length) => do
    let span ← slotsOf elem
    return wholeSlot (← fixedElementSlot slot span length index name) elem transient
  | _ => throw (.unsupported (.storageIndexing name ty))

def memoryElement (pointer : Yul.Expr) (ty : Ty) (index : Value) (name : String) : Lower Place :=
  match ty with
  | .array elem length => do
    match index.expr.literalValue?, length with
    | some i, some length => checkLiteralIndex name i length
    | _, _ => pure ()
    let address ← capture ⟨← routine .memoryArrayIndex [pointer, index.expr], .uint 256⟩
    return .memory address.expr elem
  | .bytes | .string => do
    let address ← capture ⟨← routine .memoryByteIndex [pointer, index.expr], .uint 256⟩
    return .memoryByte address.expr
  | _ => throw (.unknownMember "[]" (.value ty))

def indexPlace (base : Place) (index : Value) (name : String) : Lower Place :=
  match base with
  | .storage slot _ _ ty transient => storageEntry slot ty transient index name
  | _ => do
    let pointer ← load base
    memoryElement pointer.expr base.ty index name

def memberPlace (base : Place) (member : String) : Lower Place := do
  match base.ty with
  | .struct name =>
    let layout ← structLayout name
    match layout.fields.indexOf? member, layout.fields.get? member with
    | some index, some field =>
      match base with
      | .storage slot _ _ _ transient =>
        return wholeSlot (offsetSlot slot field.offset) field.ty transient
      | _ =>
        let pointer ← capture (← load base)
        return .memory (wordAt pointer.expr index) field.ty
    | _, _ => throw (.unknownMember member (.struct name))
  | ty => throw (.unknownMember member (.value ty))

def lengthOf (place : Place) : Lower Value := do
  match place.ty with
  | .array _ (some n) => return ⟨num n, .uint 256⟩
  | .array _ none | .string | .bytes =>
    match place with
    | .storage slot _ _ _ _ => return ⟨Op.sload slot, .uint 256⟩
    | _ => return ⟨Op.mload (← load place).expr, .uint 256⟩
  | ty => throw (.unknownMember "length" (.value ty))

/-! ## Growing and shrinking arrays -/

def growableArray : Place → Outcome (Yul.Expr × Ty)
  | .storage slot _ _ (.array elem none) false => .ok (slot, elem)
  | place => .error (.unknownMember "push/pop" (.value place.ty))

def popElement (place : Place) : Lower Unit := do
  let (slot, elem) ← growableArray place
  let span ← slotsOf elem
  runRoutine .storageArrayPop [slot, num span]

/-- Adds an element to an array in storage and sets it to a value, or leaves it as it is. -/
def pushElement (slot : Yul.Expr) (elem : Ty) (value : Option Value) : Lower Unit := do
  let span ← slotsOf elem
  let grown ← routine .storageArrayGrow [slot, num span]
  match value with
  | some v =>
    let element ← captureFresh ⟨grown, .uint 256⟩
    store (wholeSlot element.expr elem false) v.expr
  | none => emit (.run "pop" [grown])

end ContractYul.Lowering
