import ContractYul.Catalog.Declarations
import ContractYul.Ty.Canonical

/-!
# Struct layouts

Each field of a struct starts a slot of its own, and a struct takes at least one slot. Structs are
laid out depth first, so that a struct sees the sizes of those it embeds; a struct that embeds
itself has no size and is refused. A struct behind a mapping or an array of any length is not
embedded.
-/

namespace ContractYul

structure StructField where
  /-- Slots between the start of the struct and the field. -/
  offset : Nat
  typeText : String
  ty : Ty

structure StructLayout where
  name : String
  fields : OrderedMap StructField
  slots : Nat

mutual

def Ty.embedded : Ty → List String
  | .struct name => [name]
  | .array elem (some _) => elem.embedded
  | .tuple elems => embeddedAll elems
  | _ => []

def embeddedAll : List Ty → List String
  | [] => []
  | t :: rest => t.embedded ++ embeddedAll rest

end

namespace StructLayout

abbrev Table := OrderedMap StructLayout

def Table.slots? (table : Table) (name : String) : Option Nat :=
  (table.get? name).map (·.slots)

def place (counting : Ty.Counting) (table : Table) (name : String)
    (fields : List (String × String × Ty)) : Outcome StructLayout := do
  let (placed, total) ← fields.foldlM (fun (placed, offset) (field, text, ty) => do
      let slots ← ty.storageSlots counting table.slots?
      return (OrderedMap.insert placed field ⟨offset, text, ty⟩, counting.reduce (offset + slots)))
    (OrderedMap.empty, 0)
  return ⟨name, placed, max total 1⟩

/-- Lays out a struct and, before it, those it embeds; `above` are the structs being laid out. -/
def add (counting : Ty.Counting) (d : Declarations) :
    (depth : Nat) → (above : List String) → Table → String → Outcome Table
  | depth, above, table, name =>
    if table.contains name then .ok table
    else if above.contains name then .error (.cyclicStruct name)
    else match depth with
      | 0 => .error (.cyclicStruct name)
      | depth + 1 =>
        match d.structs.get? name with
        | none => .error (.unresolvedReference .struct name)
        | some decl => do
          let (table, fields) ← decl.foldlM (fun (table, fields) (field, text) => do
              let ty ← Ty.parse (d.typeNames table.slots?) text
              let table ← ty.embedded.foldlM (add counting d depth (name :: above)) table
              return (table, fields ++ [(field, text, ty)]))
            (table, [])
          return table.insert name (← place counting table name fields)

def all (counting : Ty.Counting) (d : Declarations) : Outcome Table :=
  d.structs.keys.foldlM (add counting d d.structs.size []) .empty

end StructLayout

end ContractYul
