import ContractYul.Ty.Parser

/-!
# Slots and canonical names

Two questions about a type that need the declared structs: how many storage slots a value takes,
and the name under which signatures know the type. A struct is written as the tuple of its fields;
fields are followed to the nesting depth that the name table gives, which is enough for every
table whose structs do not contain themselves.
-/

namespace ContractYul

namespace Ty

/-! ## Slots -/

/-- How slots are counted: without a bound, or in 64 bits, where a count wraps around. -/
inductive Counting where
  | unbounded
  | wrapping

def Counting.reduce : Counting → Nat → Nat
  | .unbounded, n => n
  | .wrapping, n => n % Nat.pow 2 64

mutual

def storageSlots (counting : Counting) (structSlots : String → Option Nat) : Ty → Outcome Nat
  | .struct name =>
    match structSlots name with
    | some n => .ok n
    | none => .error (.unresolvedReference .struct name)
  | .array elem (some length) => do
    return counting.reduce ((← storageSlots counting structSlots elem) * length)
  | .tuple elems => storageSlotsFrom counting structSlots 0 elems
  | _ => .ok 1

/-- Slots of types one after the other, behind `total` slots. -/
def storageSlotsFrom (counting : Counting) (structSlots : String → Option Nat) :
    (total : Nat) → List Ty → Outcome Nat
  | total, [] => .ok total
  | total, t :: rest => do
    let slots ← storageSlots counting structSlots t
    storageSlotsFrom counting structSlots (counting.reduce (total + slots)) rest

end

/-! ## Canonical names -/

def arraySuffix : Option Nat → String
  | some n => "[" ++ toString n ++ "]"
  | none => "[]"

def parenthesize (names : List String) : String :=
  "(" ++ String.intercalate "," names ++ ")"

mutual

/-- Canonical name of a type, given those of structs. -/
def canonicalWith (expand : String → Outcome String) : Ty → Outcome String
  | .uint bits => .ok ("uint" ++ toString bits)
  | .int bits => .ok ("int" ++ toString bits)
  | .address => .ok "address"
  | .contract _ => .ok "address"
  | .bool => .ok "bool"
  | .fixedBytes n => .ok ("bytes" ++ toString n)
  | .bytes => .ok "bytes"
  | .string => .ok "string"
  | .functionRef => .ok "function"
  | .array elem length => do return (← canonicalWith expand elem) ++ arraySuffix length
  | .tuple elems => do return parenthesize (← canonicalAllWith expand elems)
  | .struct name => expand name
  | .mapping _ _ => .error (.unsupported .mappingInAbi)

def canonicalAllWith (expand : String → Outcome String) : List Ty → Outcome (List String)
  | [] => .ok []
  | t :: rest => do
    let name ← canonicalWith expand t
    return name :: (← canonicalAllWith expand rest)

end

end Ty

def TypeNames.canonicalStruct (names : TypeNames) : (depth : Nat) → String → Outcome String
  | 0, _ => .error .endless
  | depth + 1, name =>
    match names.named name with
    | some (.struct fields) => do
      let parts ← fields.mapM fun (_, text) => do
        Ty.canonicalWith (names.canonicalStruct depth) (← Ty.parse names text)
      return Ty.parenthesize parts
    | _ => .error (.unresolvedReference .struct name)

def Ty.canonicalName (names : TypeNames) (t : Ty) : Outcome String :=
  t.canonicalWith (names.canonicalStruct names.structDepth)

end ContractYul
