import ContractYul.Routine.Coding
import ContractYul.Routine.Family
import ContractYul.Routine.Storage

/-!
# The routines in use

A registry holds the definitions that compiled code needs, in a fixed order of routines. Adding a
routine adds what it calls; adding it again changes nothing.
-/

namespace ContractYul

def FixedRoutine.definition (target : Target) : FixedRoutine → Yul.Function
  | .allocateMemory => allocateMemoryDef
  | .finalizeBytes => finalizeBytesDef
  | .copyMemory => copyMemoryDef target
  | .mappingSlot => mappingSlotDef
  | .mappingSlotBytes => mappingSlotBytesDef
  | .arrayDataSlot => arrayDataSlotDef
  | .storageArrayIndex => storageArrayIndexDef
  | .storageArrayGrow => storageArrayGrowDef
  | .storageArrayPop => storageArrayPopDef
  | .storageLoadBytes => storageLoadBytesDef
  | .storageStoreBytes => storageStoreBytesDef
  | .storageLoadWords => storageLoadWordsDef
  | .storageStoreWords => storageStoreWordsDef
  | .storageLoadArray => storageLoadArrayDef
  | .storageStoreArray => storageStoreArrayDef
  | .zeroStorage => zeroStorageDef
  | .memoryArrayIndex => memoryArrayIndexDef
  | .memoryByteIndex => memoryByteIndexDef
  | .abiEncodeItem => abiEncodeItemDef
  | .abiDecodeCalldataDynamic => abiDecodeCalldataDynamicDef
  | .abiDecodeCalldataWords => abiDecodeCalldataWordsDef
  | .returndataToMemory => returndataToMemoryDef
  | .revertForward => revertForwardDef
  | .revertErrorString => revertErrorStringDef
  | .stringConcat => stringConcatDef
  | .stringEqual => stringEqualDef
  | .bytesHash => bytesHashDef
  | .lowLevelCall => lowLevelDef .lowLevelCall "call" ["value"]
  | .lowLevelStaticCall => lowLevelDef .lowLevelStaticCall "staticcall" []
  | .lowLevelDelegateCall => lowLevelDef .lowLevelDelegateCall "delegatecall" []

/-- Definition of a routine that depends on nothing but the target; struct copies have none. -/
def Routine.definition? (target : Target) : Routine → Option Yul.Function
  | .fixed r => some (r.definition target)
  | .panic code => some (FixedRoutine.panicDef code)
  | .family f arity => some (f.definition arity)
  | .loadStruct _ => none
  | .storeStruct _ => none

structure Registry where
  entries : List (Routine × Yul.Function)

namespace Registry

def empty : Registry := ⟨[]⟩

def insertEntry (r : Routine) (f : Yul.Function) :
    List (Routine × Yul.Function) → List (Routine × Yul.Function)
  | [] => [(r, f)]
  | (s, g) :: rest =>
    match compare r s with
    | .lt => (r, f) :: (s, g) :: rest
    | .eq => (r, f) :: rest
    | .gt => (s, g) :: insertEntry r f rest

def contains (g : Registry) (r : Routine) : Bool :=
  g.entries.any (·.1 == r)

def insert (g : Registry) (r : Routine) (f : Yul.Function) : Registry :=
  ⟨insertEntry r f g.entries⟩

def add (target : Target) (g : Registry) (r : Routine) : Registry :=
  if g.contains r then g
  else r.closure.foldl (fun g s => match s.definition? target with
    | some f => g.insert s f
    | none => g) g

def definitions (g : Registry) : List Yul.Function :=
  g.entries.map (·.2)

def names (g : Registry) : List String :=
  g.definitions.map (·.name)

end Registry

end ContractYul
