import ContractYul.Lowering.Word

/-!
# Copies of structs

A struct in memory is a block of words, one per field, with pointers for fields that are no values.
Copying it to or from storage is done by a routine per struct, which uses the routines of the
structs that it embeds. A mapping is not copied: it reads as zero and is left alone on writing.
-/

namespace ContractYul.Lowering

open Yul

def nestingBound : Lower Nat :=
  return (← read).catalog.layouts.size + 1

def isDefined (r : Routine) : Lower Bool :=
  return (← get).progress.registry.contains r

def define (r : Routine) (f : Yul.Function) : Lower Unit :=
  modify fun st =>
    { st with progress := { st.progress with registry := st.progress.registry.insert r f } }

def loadField (nested : String → Lower Unit) (slot : Yul.Expr) (ty : Ty) : Lower Yul.Expr :=
  if ty.isValue then return storageRead slot 0 (slotSize ty) ty false
  else match ty with
    | .struct name => do
      nested name
      return call (loadStructName name) [slot]
    | .string | .bytes => routine .storageLoadBytes [slot]
    | .array elem none =>
      if elem.isValue then routine .storageLoadArray [slot]
      else throw (.unsupported (.memberToMemory ty))
    | .array elem (some n) =>
      if elem.isValue then routine .storageLoadWords [slot, num n]
      else throw (.unsupported (.memberToMemory ty))
    | .mapping _ _ => return num 0
    | _ => throw (.unsupported (.memberToMemory ty))

/-- Defines the routine that copies a struct from storage, and those that it uses. -/
def defineLoad : (depth : Nat) → String → Lower Unit
  | 0, name => throw (.cyclicStruct name)
  | depth + 1, name => do
    if ← isDefined (.loadStruct name) then return
    let layout ← structLayout name
    let start ← routine .allocateMemory [num (32 * layout.fields.size)]
    let stores ← layout.fields.values.zipIdx.mapM fun (field, i) => do
      let value ← loadField (defineLoad depth) (offsetSlot (ident "slot") field.offset) field.ty
      return Op.mstore (wordAt (ident "memPtr") i) value
    define (.loadStruct name)
      ⟨loadStructName name, ["slot"], ["memPtr"], .assignOne "memPtr" start :: stores⟩

def storeField (nested : String → Lower Unit) (slot value : Yul.Expr) (ty : Ty) :
    Lower (List Yul.Stmt) :=
  if ty.isValue then return [storageWrite slot 0 (slotSize ty) ty false value]
  else match ty with
    | .struct name => do
      nested name
      return [.run (storeStructName name) [slot, value]]
    | .string | .bytes => return [.eval (← routine .storageStoreBytes [slot, value])]
    | .array elem none =>
      if elem.isValue then return [.eval (← routine .storageStoreArray [slot, value])]
      else throw (.unsupported (.memberToStorage ty))
    | .array elem (some n) =>
      if elem.isValue then return [.eval (← routine .storageStoreWords [slot, value, num n])]
      else throw (.unsupported (.memberToStorage ty))
    | .mapping _ _ => return []
    | _ => throw (.unsupported (.memberToStorage ty))

def defineStore : (depth : Nat) → String → Lower Unit
  | 0, name => throw (.cyclicStruct name)
  | depth + 1, name => do
    if ← isDefined (.storeStruct name) then return
    let layout ← structLayout name
    let stores ← layout.fields.values.zipIdx.mapM fun (field, i) =>
      storeField (defineStore depth) (offsetSlot (ident "slot") field.offset)
        (Op.mload (wordAt (ident "memPtr") i)) field.ty
    define (.storeStruct name)
      ⟨storeStructName name, ["slot", "memPtr"], [], stores.flatten⟩

def loadStruct (name : String) (slot : Yul.Expr) : Lower Yul.Expr := do
  defineLoad (← nestingBound) name
  return call (loadStructName name) [slot]

def storeStruct (name : String) (slot value : Yul.Expr) : Lower Yul.Expr := do
  defineStore (← nestingBound) name
  return call (storeStructName name) [slot, value]

end ContractYul.Lowering
