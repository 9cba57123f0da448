import ContractYul.Proofs.Catalog.Visible
import ContractYul.Proofs.Ty.Printing

/-!
# Structs inside of types

A type `Holds` a struct when the struct lies inside of its values. Once these structs have sizes, the
type has one. Reading a type looks at no sizes, and thus does not depend on the structs that are laid
out already.
-/

open List hiding keys

namespace ContractYul

open OrderedMap

namespace OrderedMap

variable {α : Type} {m : OrderedMap α} {key : String}

theorem exists_get?_of_mem (h : key ∈ m.keys) : ∃ value, m.get? key = some value :=
  Option.isSome_iff_exists.1 (isSome_get?_iff.2 h)

theorem mem_keys_of_get? (h : m.get? key = some value) : key ∈ m.keys :=
  isSome_get?_iff.1 (by rw [h]; rfl)

end OrderedMap

/-! ## Types that hold structs -/

/-- A struct lies inside of the values of a type. What is behind a mapping or an array of any length
lies elsewhere. -/
inductive Ty.Holds : Ty → String → Prop
  | struct {name : String} : Holds (.struct name) name
  | array {elem : Ty} {length : Nat} {name : String} (h : Holds elem name) :
      Holds (.array elem (some length)) name
  | tuple {elems : List Ty} {t : Ty} {name : String} (ht : t ∈ elems) (h : Holds t name) :
      Holds (.tuple elems) name

namespace Ty

variable {counting : Counting} {structSlots : String → Option Nat}

mutual

theorem exists_storageSlots : ∀ {t : Ty}, (∀ name, t.Holds name → (structSlots name).isSome) →
    ∃ n, t.storageSlots counting structSlots = .ok n
  | .struct name, h => by
    obtain ⟨n, hn⟩ := Option.isSome_iff_exists.1 (h name .struct)
    exact ⟨n, by rw [storageSlots, hn]⟩
  | .array elem (some length), h => by
    obtain ⟨n, hn⟩ := exists_storageSlots fun name hname => h name (.array hname)
    exact ⟨counting.reduce (n * length), by rw [storageSlots, hn]; rfl⟩
  | .tuple elems, h => by
    rw [storageSlots]
    exact exists_storageSlotsFrom fun t ht name hname => h name (.tuple ht hname)
  | .uint _, _ | .int _, _ | .address, _ | .bool, _ | .fixedBytes _, _ | .bytes, _ | .string, _
  | .array _ none, _ | .mapping _ _, _ | .contract _, _ | .functionRef, _ => ⟨1, rfl⟩

theorem exists_storageSlotsFrom : ∀ {total : Nat} {ts : List Ty},
    (∀ t ∈ ts, ∀ name, t.Holds name → (structSlots name).isSome) →
    ∃ n, storageSlotsFrom counting structSlots total ts = .ok n
  | total, [], _ => ⟨total, rfl⟩
  | _, t :: rest, h => by
    obtain ⟨n, hn⟩ := exists_storageSlots (h t mem_cons_self)
    rw [storageSlotsFrom, hn]
    exact exists_storageSlotsFrom fun t ht => h t (mem_cons_of_mem _ ht)

end

theorem Holds.declared {t : Ty} {name : String} (h : t.Holds name) (hprint : t.Printable names) :
    ∃ fields, names.named name = some (.struct fields) := by
  induction h with
  | struct => exact hprint.2
  | array _ ih => exact ih hprint.1
  | tuple ht _ ih => exact ih (allPrintable_iff.1 hprint _ ht)

end Ty

/-! ## Reading does not look at sizes -/

theorem TypeNames.resolve_congr {names names' : TypeNames} (h : names.named = names'.named)
    (depth : Nat) : names.resolve depth = names'.resolve depth := by
  induction depth with
  | zero =>
    funext name
    rw [resolve, resolve, h]
  | succ depth ih =>
    funext name
    simp only [resolve, h, ih]

namespace Declarations

def typeOf (d : Declarations) (text : String) : Outcome Ty :=
  Ty.parse (d.typeNames fun _ => none) text

variable {d : Declarations}

theorem parse_typeNames (structSlots : String → Option Nat) (text : String) :
    Ty.parse (d.typeNames structSlots) text = d.typeOf text := by
  have hresolve : (d.typeNames structSlots).resolve d.aliases.size =
      (d.typeNames fun _ => none).resolve d.aliases.size := TypeNames.resolve_congr (by rfl) _
  exact congrArg (Ty.parseWith · text.toList) hresolve

theorem mem_structs_of_named? {name : String} {fields : List (String × String)}
    (h : d.named? name = some (.struct fields)) : name ∈ d.structs.keys := by
  unfold named? at h
  split at h
  · simp at h
  split at h
  · rename_i hfields
    exact mem_keys_of_get? hfields
  split at h
  · simp at h
  · split at h <;> simp at h

theorem mem_structs_of_holds {text name : String} {t : Ty} (ht : d.typeOf text = .ok t)
    (h : t.Holds name) : name ∈ d.structs.keys := by
  obtain ⟨fields, hfields⟩ := h.declared (Ty.printable_parse ht)
  exact mem_structs_of_named? hfields

end Declarations

theorem StructLayout.isSome_slots? {table : Table} {name : String} (h : name ∈ table.keys) :
    (table.slots? name).isSome := by
  obtain ⟨layout, hlayout⟩ := exists_get?_of_mem h
  rw [Table.slots?, hlayout]
  rfl

end ContractYul
