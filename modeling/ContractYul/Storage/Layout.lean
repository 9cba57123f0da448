import ContractYul.Catalog.Basic
import ContractYul.Json.Basic
import ContractYul.Lineage
import ContractYul.Storage.Slot

/-!
# Storage layout

Every field of a lineage that has state gets a location, in two passes over the fields from the
base to the derived class. The first checks names, types and pins. The second walks a cursor: a
scalar narrower than a word goes behind its predecessor while the slot has room, everything else
starts the next free region, and regions avoid all pinned slots. A pinned field lies at its pin and
closes a slot begun. Immutable fields have a range of their own; constants have no location.
-/

namespace ContractYul.Storage

open Source

/-- First slot of the immutable fields; pins stay below it. -/
def immutableBase : Nat := Nat.pow 2 64

/-! ## First pass: fields and pins -/

/-- A field with state, with the class that declares it and its type read. -/
structure Field where
  owner : String
  decl : FieldDecl
  ty : Ty
  span : Nat

structure Pin where
  start : Nat
  stop : Nat
  field : String

def Field.pin? (f : Field) : Option Pin :=
  if f.decl.storage == .immutable then none
  else f.decl.slot.map fun slot => ⟨slot, slot + f.span, f.decl.name⟩

/-- Pins are sorted by their start, and a pin takes the place of one with the same start. -/
def insertPin (p : Pin) : List Pin → List Pin
  | [] => [p]
  | q :: rest =>
    if p.start < q.start then p :: q :: rest
    else if p.start = q.start then p :: rest
    else q :: insertPin p rest

def pinsOf (fields : List Field) : List Pin :=
  fields.foldl (fun pins f => match f.pin? with
    | some p => insertPin p pins
    | none => pins) []

def checkPin (pins : List Pin) (p : Pin) : Outcome Unit :=
  if p.start ≥ immutableBase then .error (.reservedSlotPin p.start p.field)
  else match pins.find? fun q => p.start < q.stop && q.start < p.stop with
    | some q => .error (.duplicateSlotPin (max q.start p.start) q.field p.field)
    | none => .ok ()

def checkField (c : Catalog) (transientSupported : Bool) (earlier : List Field) (owner : String)
    (decl : FieldDecl) : Outcome Field :=
  match earlier.find? (·.decl.name == decl.name) with
  | some first => .error (.duplicateStorageField decl.name first.owner owner)
  | none =>
    if decl.storage == .transient && !transientSupported then
      .error (.transientUnsupported decl.name)
    else do
      let ty ← c.typeOf decl.ty
      let span ← c.slotsOf ty
      let field : Field := ⟨owner, decl, ty, span⟩
      match field.pin? with
      | some p => checkPin (pinsOf earlier) p
      | none => pure ()
      return field

def statefulFields (l : Lineage) : List (String × FieldDecl) :=
  l.classes.flatMap fun c => (c.fields.filter (·.storage != .constant)).map (c.name, ·)

def checkFields (c : Catalog) (l : Lineage) (transientSupported : Bool) : Outcome (List Field) :=
  (statefulFields l).foldlM (fun earlier (owner, decl) => do
    return earlier ++ [← checkField c transientSupported earlier owner decl]) []

/-! ## Second pass: places -/

/-- First slot from `start` on where `length` slots in a row avoid all pins, which are sorted by
start. -/
def freeRegion (length : Nat) : (start : Nat) → List Pin → Nat
  | start, [] => start
  | start, p :: rest =>
    if p.start < p.stop && start < p.stop && p.start < start + max length 1 then
      freeRegion length p.stop rest
    else freeRegion length start rest

structure Cursor where
  slot : Nat
  /-- Bytes of the slot that are taken. -/
  offset : Nat
  nextImmutable : Nat

def Cursor.start : Cursor := ⟨0, 0, immutableBase⟩

def Cursor.flush (c : Cursor) : Cursor :=
  if c.offset > 0 then { c with slot := c.slot + 1, offset := 0 } else c

def Field.locate (f : Field) (slot offset : Nat) : Slot :=
  let kind := SlotKind.ofTy f.ty
  { slot := slot
    byteOffset := offset
    byteSize := if kind == .scalar then min f.ty.byteSize 32 else 32
    span := f.span
    kind := kind
    transient := f.decl.storage == .transient
    immutable := f.decl.storage == .immutable
    owner := f.owner
    typeText := f.decl.ty
    ty := f.ty }

def placePacked (pins : List Pin) (c : Cursor) (f : Field) : Cursor × Slot :=
  let size := min f.ty.byteSize 32
  let c := if c.offset + size > 32 then { c with slot := c.slot + 1, offset := 0 } else c
  let c := if c.offset = 0 then { c with slot := freeRegion 1 c.slot pins } else c
  ({ c with offset := c.offset + size }, f.locate c.slot c.offset)

def placeWhole (pins : List Pin) (c : Cursor) (f : Field) : Cursor × Slot :=
  let start := freeRegion f.span c.flush.slot pins
  ({ c with slot := start + f.span, offset := 0 }, f.locate start 0)

def placeField (pins : List Pin) (c : Cursor) (f : Field) : Cursor × Slot :=
  if f.decl.storage == .immutable then
    ({ c with nextImmutable := c.nextImmutable + f.span }, f.locate c.nextImmutable 0)
  else match f.decl.slot with
    | some pin => (c.flush, f.locate pin 0)
    | none =>
      if SlotKind.ofTy f.ty == .scalar && f.ty.canPack then placePacked pins c f
      else placeWhole pins c f

def placeFields (pins : List Pin) : Cursor → List Field → List (String × Slot)
  | _, [] => []
  | c, f :: rest =>
    let (c, slot) := placeField pins c f
    (f.decl.name, slot) :: placeFields pins c rest

/-! ## The layout -/

/-- Locations by field name, in the order of the fields. -/
structure Layout where
  slots : List (String × Slot)

def Layout.get? (l : Layout) (name : String) : Option Slot :=
  l.slots.lookup name

def allocate (c : Catalog) (l : Lineage) (transientSupported : Bool) : Outcome Layout := do
  let fields ← checkFields c l transientSupported
  return ⟨placeFields (pinsOf fields) .start fields⟩

/-- Pairs of fields, the earlier one first, whose locations overlap. -/
def Layout.overlaps (l : Layout) : List (String × String) :=
  pairs l.slots
where
  pairs : List (String × Slot) → List (String × String)
    | [] => []
    | (a, s) :: rest => ((rest.filter fun (_, t) => s.overlaps t).map fun (b, _) => (a, b))
      ++ pairs rest

def Slot.toJson (s : Slot) : Json :=
  .object [("slot", .nat s.slot), ("byteOffset", .nat s.byteOffset), ("byteSize", .nat s.byteSize),
    ("span", .nat s.span), ("kind", .string s.kind.word), ("transient", .bool s.transient),
    ("immutable", .bool s.immutable), ("owner", .string s.owner), ("typeText", .string s.typeText)]

def Layout.toJson (l : Layout) : Json :=
  .object [("slots", .object (l.slots.map fun (name, s) => (name, s.toJson)))]

end ContractYul.Storage
