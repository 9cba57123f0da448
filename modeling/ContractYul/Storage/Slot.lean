import ContractYul.Ty.Basic

/-!
# Storage locations

The place of a field: the slots that it covers and, for a scalar narrower than a word, its bytes in
the slot. Offset 0 is the least significant byte.
-/

namespace ContractYul.Storage

inductive SlotKind where
  | scalar
  | mapping
  /-- An array of any length: the length in the slot, elements elsewhere. -/
  | array
  /-- A struct or tuple over consecutive slots. -/
  | struct
  | fixedArray
  | dynamicBytes
  | dynamicString
  | externalFunctionRef
  deriving DecidableEq

def SlotKind.ofTy : Ty → SlotKind
  | .mapping _ _ => .mapping
  | .array _ none => .array
  | .array _ (some _) => .fixedArray
  | .struct _ | .tuple _ => .struct
  | .bytes => .dynamicBytes
  | .string => .dynamicString
  | .functionRef => .externalFunctionRef
  | _ => .scalar

def SlotKind.word : SlotKind → String
  | .scalar => "scalar"
  | .mapping => "mapping"
  | .array => "array"
  | .struct => "struct"
  | .fixedArray => "fixedArray"
  | .dynamicBytes => "dynamicBytes"
  | .dynamicString => "dynamicString"
  | .externalFunctionRef => "externalFunctionRef"

structure Slot where
  slot : Nat
  /-- First byte in the slot, from the least significant end. -/
  byteOffset : Nat
  byteSize : Nat
  /-- Number of consecutive slots. -/
  span : Nat
  kind : SlotKind
  transient : Bool
  immutable : Bool
  /-- The class that declares the field. -/
  owner : String
  typeText : String
  ty : Ty

namespace Slot

def isPacked (s : Slot) : Bool :=
  s.kind == .scalar && s.byteSize < 32

/-- Two locations of the same kind of storage that share a byte. -/
def overlaps (a b : Slot) : Bool :=
  if a.transient != b.transient then false
  else if a.slot + a.span ≤ b.slot || b.slot + b.span ≤ a.slot then false
  else if a.span == 1 && b.span == 1 && a.slot == b.slot then
    a.byteOffset < b.byteOffset + b.byteSize && b.byteOffset < a.byteOffset + a.byteSize
  else true

end Slot

end ContractYul.Storage
