import ContractYul.Proofs.Compilation.Schemes
import ContractYul.Proofs.Routine.Running
import ContractYul.Proofs.Yul.Invocations

/-!
# Storage that lowered code touches

Lowered code reads and changes storage by four instructions and by the routines for arrays, byte
strings and structs in storage. Each such call is given a slot, and the slot can be traced back: it
is the slot of a field of the contract, or it is computed from a slot that can be traced back, as that
of a member, an element or an entry. On the way a slot may have been bound to a temporary.

* `Located`: a place in storage, with the field that it is a part of and the path from the field to
  it. A field itself may be changed when it is not immutable, or before deployment has ended.
* `Touches`: a call reads or changes a place.
* `Licensed`: what a call touches is located.
-/

namespace ContractYul

open Yul FixedRoutine

/-! ## Calls that touch storage -/

def Routine.changesStorage? : Routine → Option Bool
  | .fixed .storageArrayIndex | .fixed .storageLoadBytes | .fixed .storageLoadWords
  | .fixed .storageLoadArray | .loadStruct _ => some false
  | .fixed .storageArrayGrow | .fixed .storageArrayPop | .fixed .storageStoreBytes
  | .fixed .storageStoreWords | .fixed .storageStoreArray | .fixed .zeroStorage
  | .storeStruct _ => some true
  | _ => none

namespace Lowering

def wordName (write transient : Bool) : String :=
  if write then storeName transient else loadName transient

/-- The name of an instruction or a routine that changes storage or, with `false`, reads it. -/
def UsesStorage (write : Bool) (name : String) : Prop :=
  (∃ transient, name = wordName write transient) ∨
    ∃ r : Routine, r.changesStorage? = some write ∧ name = r.name

theorem underscore_notMem_wordName (write transient : Bool) :
    '_' ∉ (wordName write transient).toList := by
  cases write <;> cases transient <;> decide

theorem wordName_mem (write transient : Bool) : wordName write transient ∈ storageInstructions := by
  cases write <;> cases transient <;> decide

variable {write : Bool} {name : String}

theorem usesStorage_name {r : Routine} :
    UsesStorage write r.name ↔ r.changesStorage? = some write := by
  refine ⟨?_, fun h => .inr ⟨r, h, rfl⟩⟩
  rintro (⟨transient, h⟩ | ⟨s, hs, h⟩)
  · exact absurd (h ▸ r.underscore_mem_name) (underscore_notMem_wordName write transient)
  · exact Routine.name_injective h ▸ hs

/-- No call both reads and changes storage. -/
theorem UsesStorage.unique (h : UsesStorage write name) (h' : UsesStorage write' name) :
    write = write' := by
  rcases h with ⟨transient, rfl⟩ | ⟨r, hr, rfl⟩
  · rcases h' with ⟨transient', h'⟩ | ⟨r, -, h'⟩
    · revert h'
      cases write <;> cases write' <;> cases transient <;> cases transient' <;> decide
    · exact absurd (h' ▸ r.underscore_mem_name) (underscore_notMem_wordName write transient)
  · exact Option.some.inj (hr.symm.trans (usesStorage_name.1 h'))

theorem not_usesStorage_of_isCalm (h : IsCalm name) : ¬ UsesStorage write name := by
  rintro (⟨transient, rfl⟩ | ⟨r, -, rfl⟩)
  · exact h.1 (wordName_mem write transient)
  · exact h.2 r.underscore_mem_name

/-- Functions that are no routines are told from all that touches storage by their first
characters. -/
theorem not_usesStorage_of_stem (h : stem name ∈ ownStems) : ¬ UsesStorage write name := by
  rintro (⟨transient, rfl⟩ | ⟨r, -, rfl⟩)
  · revert h
    cases write <;> cases transient <;> decide
  · exact stem_routine r h

/-! ## Located places -/

abbrev Bindings := List (String × Yul.Expr)

def StandsFor (K : Bindings) (e d : Yul.Expr) : Prop :=
  e = d ∨ ∃ x, e = ident x ∧ (x, d) ∈ K

inductive PathStep where
  | member (name : String)
  /-- An element of an array or an entry of a mapping. -/
  | entry (index : Yul.Expr)
  /-- The element that a call of `push` adds. -/
  | pushed

/-- A place in storage that code can come to, with the field of the contract that it is in and the
path from the field to it; with `write` the place is to be changed. Only for the field itself does it
matter whether it is to be changed. -/
inductive Located (context : Context) (mode : Mode) (owner : Owner) (K : Bindings) :
    (write : Bool) → (field : String) → (path : List PathStep) → Place → Prop
  | field {write : Bool} {name : String} {s : Storage.Slot} (howner : owner = .contract)
    (h : context.layout.get? name = some s)
    (hwrite : write = true → s.immutable = true → mode ≠ .runtime) :
    Located context mode owner K write name []
      (.storage (num s.slot) s.byteOffset s.byteSize s.ty s.transient)
  | member {write : Bool} {name : String} {path : List PathStep} {slot : Yul.Expr}
    {offset size : Nat} {struct : String} {transient : Bool} {layout : StructLayout}
    {member : String} {f : StructField}
    (h : Located context mode owner K false name path
      (.storage slot offset size (.struct struct) transient))
    (hlayout : context.catalog.layouts.get? struct = some layout)
    (hf : layout.fields.get? member = some f) :
    Located context mode owner K write name (path ++ [.member member])
      (wholeSlot (offsetSlot slot f.offset) f.ty transient)
  | mapping {write : Bool} {name : String} {path : List PathStep} {slot entry index : Yul.Expr}
    {offset size : Nat} {key value : Ty} {transient : Bool}
    (h : Located context mode owner K false name path
      (.storage slot offset size (.mapping key value) transient))
    (hentry : StandsFor K entry ((if key.isBytesLike then mappingSlotBytes
      else .mappingSlot).call [index, slot])) :
    Located context mode owner K write name (path ++ [.entry index])
      (wholeSlot entry value transient)
  | element {write : Bool} {name : String} {path : List PathStep} {slot entry index : Yul.Expr}
    {offset size span : Nat} {elem : Ty} {transient : Bool}
    (h : Located context mode owner K false name path
      (.storage slot offset size (.array elem none) transient))
    (hspan : context.catalog.slotsOf elem = .ok span)
    (hentry : StandsFor K entry (storageArrayIndex.call [slot, index, num span])) :
    Located context mode owner K write name (path ++ [.entry index])
      (wholeSlot entry elem transient)
  /-- An element of a fixed array at a position that is known. -/
  | position {write : Bool} {name : String} {path : List PathStep} {slot index : Yul.Expr}
    {offset size span length i : Nat} {elem : Ty} {transient : Bool}
    (h : Located context mode owner K false name path
      (.storage slot offset size (.array elem (some length)) transient))
    (hspan : context.catalog.slotsOf elem = .ok span)
    (hindex : index.literalValue? = some i) (hi : i < length) :
    Located context mode owner K write name (path ++ [.entry index])
      (wholeSlot (offsetSlot slot (i * span)) elem transient)
  /-- An element of a fixed array at a position that is computed. -/
  | computed {write : Bool} {name : String} {path : List PathStep} {slot entry index : Yul.Expr}
    {offset size span length : Nat} {elem : Ty} {transient : Bool}
    (h : Located context mode owner K false name path
      (.storage slot offset size (.array elem (some length)) transient))
    (hspan : context.catalog.slotsOf elem = .ok span)
    (hentry : StandsFor K entry (Op.add slot (scaled index span))) :
    Located context mode owner K write name (path ++ [.entry index])
      (wholeSlot entry elem transient)
  | pushed {write : Bool} {name : String} {path : List PathStep} {slot entry : Yul.Expr}
    {offset size span : Nat} {elem : Ty}
    (h : Located context mode owner K true name path
      (.storage slot offset size (.array elem none) false))
    (hspan : context.catalog.slotsOf elem = .ok span)
    (hentry : StandsFor K entry (storageArrayGrow.call [slot, num span])) :
    Located context mode owner K write name (path ++ [.pushed]) (wholeSlot entry elem false)

/-- A call reads a place in storage or, with `true`, changes it. The length of what lies there and
the slot of an element are read by the same calls when the place is transient. -/
inductive Touches : (write : Bool) → Place → Invocation → Prop
  | load {slot : Yul.Expr} {offset size : Nat} {ty : Ty} {transient : Bool} :
    Touches false (.storage slot offset size ty transient) ⟨loadName transient, [slot]⟩
  | store {slot value : Yul.Expr} {offset size : Nat} {ty : Ty} {transient : Bool} :
    Touches true (.storage slot offset size ty transient) ⟨storeName transient, [slot, value]⟩
  | length {slot : Yul.Expr} {offset size : Nat} {ty : Ty} {transient : Bool}
    (hty : ty.isValue = false) :
    Touches false (.storage slot offset size ty transient) ⟨loadName false, [slot]⟩
  | index {slot : Yul.Expr} {rest : List Yul.Expr} {offset size : Nat} {ty : Ty} {transient : Bool}
    (hty : ty.isValue = false) :
    Touches false (.storage slot offset size ty transient)
      ⟨storageArrayIndex.name, slot :: rest⟩
  /-- A routine that works on all that lies at a slot. -/
  | routine {write : Bool} {r : Routine} {slot : Yul.Expr} {rest : List Yul.Expr}
    {offset size : Nat} {ty : Ty} (hr : r.changesStorage? = some write) (hty : ty.isValue = false) :
    Touches write (.storage slot offset size ty false) ⟨r.name, slot :: rest⟩
  /-- The data of an array or a byte string lies away from its slot. -/
  | data {slot : Yul.Expr} {rest : List Yul.Expr} {offset size : Nat} {ty : Ty}
    (hty : ty.isValue = false) :
    Touches true (.storage slot offset size ty false)
      ⟨zeroStorage.name, arrayDataSlot.call [slot] :: rest⟩

/-- What a call touches is a place that code can come to. -/
def Licensed (context : Context) (mode : Mode) (owner : Owner) (K : Bindings) (i : Invocation) :
    Prop :=
  ∀ write, UsesStorage write i.name → ∃ field path place,
    Located context mode owner K write field path place ∧ Touches write place i

section

variable {field : String}

theorem StandsFor.mono (h : StandsFor K e d) (hK : K ⊆ K') : StandsFor K' e d := by
  rcases h with rfl | ⟨x, rfl, hx⟩
  · exact .inl rfl
  · exact .inr ⟨x, rfl, hK hx⟩

theorem Located.mono (h : Located context mode owner K write field path place) (hK : K ⊆ K') :
    Located context mode owner K' write field path place := by
  induction h with
  | field howner h hwrite => exact .field howner h hwrite
  | member _ hlayout hf ih => exact .member ih hlayout hf
  | mapping _ hentry ih => exact .mapping ih (hentry.mono hK)
  | element _ hspan hentry ih => exact .element ih hspan (hentry.mono hK)
  | position _ hspan hindex hi ih => exact .position ih hspan hindex hi
  | computed _ hspan hentry ih => exact .computed ih hspan (hentry.mono hK)
  | pushed _ hspan hentry ih => exact .pushed ih hspan (hentry.mono hK)

theorem Located.read (h : Located context mode owner K write field path place) :
    Located context mode owner K false field path place := by
  cases h with
  | field howner h hwrite => exact .field howner h (by simp)
  | member h hlayout hf => exact .member h hlayout hf
  | mapping h hentry => exact .mapping h hentry
  | element h hspan hentry => exact .element h hspan hentry
  | position h hspan hindex hi => exact .position h hspan hindex hi
  | computed h hspan hentry => exact .computed h hspan hentry
  | pushed h hspan hentry => exact .pushed h hspan hentry

theorem Licensed.mono (h : Licensed context mode owner K i) (hK : K ⊆ K') :
    Licensed context mode owner K' i := by
  intro write huse
  obtain ⟨field, path, place, hplace, htouches⟩ := h write huse
  exact ⟨field, path, place, hplace.mono hK, htouches⟩

theorem licensed_of_not_usesStorage {name : String}
    (h : ∀ write, ¬ UsesStorage write name) : Licensed context mode owner K ⟨name, args⟩ :=
  fun write huse => absurd huse (h write)

theorem licensed_of_touches (huse : UsesStorage write i.name)
    (hplace : Located context mode owner K write field path place) (h : Touches write place i) :
    Licensed context mode owner K i := by
  intro write' huse'
  obtain rfl := huse.unique huse'
  exact ⟨field, path, place, hplace, h⟩

theorem licensed_routine {r : Routine} (h : r.changesStorage? = none) :
    Licensed context mode owner K ⟨r.name, args⟩ := by
  refine licensed_of_not_usesStorage fun write huse => ?_
  rw [usesStorage_name, h] at huse
  cases huse

theorem licensed_function {name : String} (h : stem name ∈ ownStems) :
    Licensed context mode owner K ⟨name, args⟩ :=
  licensed_of_not_usesStorage fun _ => not_usesStorage_of_stem h

end

abbrev Env.Licensed (env : Env) (K : Bindings) : Invocation → Prop :=
  Lowering.Licensed env.toContext env.mode env.owner K

end Lowering

end ContractYul
