import ContractYul.Target
import ContractYul.Yul.Op

/-!
# Routines

Functions that compiled code calls and that are defined once each, where they are used. Most are
fixed. Those that take a list of arguments come in one version per number of arguments; what the
arguments are travels as a word of shape codes, so that calls with equally many arguments share a
routine. Structs are copied between storage and memory by routines of their own.

Memory is used as follows: two words for hashing, the word at 64 with the end of the memory in use,
a zero word, then objects of a length word and their data.
-/

namespace ContractYul

inductive FixedRoutine where
  | allocateMemory
  | finalizeBytes
  | copyMemory
  | mappingSlot
  | mappingSlotBytes
  | arrayDataSlot
  | storageArrayIndex
  | storageArrayGrow
  | storageArrayPop
  | storageLoadBytes
  | storageStoreBytes
  | storageLoadWords
  | storageStoreWords
  | storageLoadArray
  | storageStoreArray
  | zeroStorage
  | memoryArrayIndex
  | memoryByteIndex
  | abiEncodeItem
  | abiDecodeCalldataDynamic
  | abiDecodeCalldataWords
  | returndataToMemory
  | revertForward
  | revertErrorString
  | stringConcat
  | stringEqual
  | bytesHash
  | lowLevelCall
  | lowLevelStaticCall
  | lowLevelDelegateCall
  deriving DecidableEq

namespace FixedRoutine

def all : List FixedRoutine :=
  [allocateMemory, finalizeBytes, copyMemory, mappingSlot, mappingSlotBytes, arrayDataSlot,
   storageArrayIndex, storageArrayGrow, storageArrayPop, storageLoadBytes, storageStoreBytes,
   storageLoadWords, storageStoreWords, storageLoadArray, storageStoreArray, zeroStorage,
   memoryArrayIndex, memoryByteIndex, abiEncodeItem, abiDecodeCalldataDynamic,
   abiDecodeCalldataWords, returndataToMemory, revertForward, revertErrorString, stringConcat,
   stringEqual, bytesHash, lowLevelCall, lowLevelStaticCall, lowLevelDelegateCall]

def name : FixedRoutine → String
  | .allocateMemory => "allocate_memory"
  | .finalizeBytes => "finalize_bytes"
  | .copyMemory => "copy_memory"
  | .mappingSlot => "mapping_slot"
  | .mappingSlotBytes => "mapping_slot_bytes"
  | .arrayDataSlot => "array_data_slot"
  | .storageArrayIndex => "storage_array_index"
  | .storageArrayGrow => "storage_array_grow"
  | .storageArrayPop => "storage_array_pop"
  | .storageLoadBytes => "storage_load_bytes"
  | .storageStoreBytes => "storage_store_bytes"
  | .storageLoadWords => "storage_load_words"
  | .storageStoreWords => "storage_store_words"
  | .storageLoadArray => "storage_load_array"
  | .storageStoreArray => "storage_store_array"
  | .zeroStorage => "zero_storage"
  | .memoryArrayIndex => "memory_array_index"
  | .memoryByteIndex => "memory_byte_index"
  | .abiEncodeItem => "abi_encode_item"
  | .abiDecodeCalldataDynamic => "abi_decode_calldata_dynamic"
  | .abiDecodeCalldataWords => "abi_decode_calldata_words"
  | .returndataToMemory => "returndata_to_memory"
  | .revertForward => "revert_forward"
  | .revertErrorString => "revert_error_string"
  | .stringConcat => "string_concat"
  | .stringEqual => "string_equal"
  | .bytesHash => "bytes_hash"
  | .lowLevelCall => "lowlevel_call"
  | .lowLevelStaticCall => "lowlevel_staticcall"
  | .lowLevelDelegateCall => "lowlevel_delegatecall"

def call (r : FixedRoutine) (args : List Yul.Expr) : Yul.Expr :=
  .call r.name args

def run (r : FixedRoutine) (args : List Yul.Expr) : Yul.Stmt :=
  .eval (r.call args)

def define (r : FixedRoutine) (params returns : List String) (body : List Yul.Stmt) :
    Yul.Function :=
  ⟨r.name, params, returns, body⟩

end FixedRoutine

/-- A kind of routine with one version per number of arguments. -/
inductive RoutineFamily where
  | abiEncode
  | abiEncodePacked
  | abiEncodeSelector
  | abiDecode
  | call
  | staticCall
  | delegateCall
  | create
  | create2
  deriving DecidableEq

namespace RoutineFamily

def all : List RoutineFamily :=
  [abiEncode, abiEncodePacked, abiEncodeSelector, abiDecode, call, staticCall, delegateCall,
   create, create2]

def stem : RoutineFamily → String
  | .abiEncode => "abi_encode"
  | .abiEncodePacked => "abi_encode_packed"
  | .abiEncodeSelector => "abi_encode_selector"
  | .abiDecode => "abi_decode"
  | .call => "call"
  | .staticCall => "staticcall"
  | .delegateCall => "delegatecall"
  | .create => "create"
  | .create2 => "create2"

def name (f : RoutineFamily) (arity : Nat) : String :=
  "__" ++ f.stem ++ "_" ++ toString arity

end RoutineFamily

inductive Routine where
  | fixed (r : FixedRoutine)
  /-- Revert with a panic code. -/
  | panic (code : Nat)
  | family (f : RoutineFamily) (arity : Nat)
  /-- Copy of a struct from storage to memory. -/
  | loadStruct (name : String)
  /-- Copy of a struct from memory to storage. -/
  | storeStruct (name : String)
  deriving DecidableEq

def outOfBoundsCode : Nat := 0x32

def emptyPopCode : Nat := 0x31

def panicStem : String :=
  "panic_error_0x"

def panicName (code : Nat) : String :=
  panicStem ++ Text.hexPadded 2 code

def loadStructName (struct : String) : String :=
  "storage_load_struct_" ++ struct

def storeStructName (struct : String) : String :=
  "storage_store_struct_" ++ struct

namespace Routine

def name : Routine → String
  | .fixed r => r.name
  | .panic code => panicName code
  | .family f arity => f.name arity
  | .loadStruct s => loadStructName s
  | .storeStruct s => storeStructName s

/-- The panic code at the end of a name, two hexadecimal digits of either case. -/
def panicCode? (name : String) : Option Nat :=
  let (stem, digits) := name.toList.splitAt panicStem.length
  if stem = panicStem.toList && digits.length == 2 then Text.digits? 16 digits else none

def ofName? (name : String) : Option Routine :=
  ((FixedRoutine.all.find? (·.name == name)).map .fixed).or ((panicCode? name).map .panic)

/-- The place of a routine in a list of definitions: by group, then by number, then by name. -/
def place : Routine → Nat × Nat × String
  | .fixed r => (if FixedRoutine.all.idxOf r < 24 then FixedRoutine.all.idxOf r
      else FixedRoutine.all.idxOf r + 1, 0, "")
  | .panic code => (24, code, "")
  | .family f arity => (100 + RoutineFamily.all.idxOf f, arity, "")
  | .loadStruct s => (200, 0, s)
  | .storeStruct s => (201, 0, s)

instance : Ord Routine where
  compare a b :=
    (compare a.place.1 b.place.1).then
      ((compare a.place.2.1 b.place.2.1).then (compare a.place.2.2 b.place.2.2))

def needs : Routine → List Routine
  | .fixed .mappingSlotBytes => [.fixed .copyMemory]
  | .fixed .storageArrayIndex => [.fixed .arrayDataSlot, .panic outOfBoundsCode]
  | .fixed .storageArrayGrow => [.fixed .arrayDataSlot]
  | .fixed .storageArrayPop => [.fixed .arrayDataSlot, .panic emptyPopCode]
  | .fixed .storageLoadBytes => [.fixed .allocateMemory, .fixed .arrayDataSlot]
  | .fixed .storageStoreBytes => [.fixed .arrayDataSlot]
  | .fixed .storageLoadWords => [.fixed .allocateMemory]
  | .fixed .storageLoadArray => [.fixed .storageLoadWords, .fixed .arrayDataSlot]
  | .fixed .storageStoreArray => [.fixed .arrayDataSlot]
  | .fixed .memoryArrayIndex => [.panic outOfBoundsCode]
  | .fixed .memoryByteIndex => [.panic outOfBoundsCode]
  | .fixed .abiEncodeItem => [.fixed .copyMemory]
  | .fixed .abiDecodeCalldataDynamic => [.fixed .allocateMemory]
  | .fixed .abiDecodeCalldataWords => [.fixed .allocateMemory]
  | .fixed .returndataToMemory => [.fixed .allocateMemory]
  | .fixed .revertErrorString => [.fixed .abiEncodeItem]
  | .fixed .stringConcat => [.fixed .allocateMemory, .fixed .copyMemory]
  | .fixed .lowLevelCall => [.fixed .returndataToMemory]
  | .fixed .lowLevelStaticCall => [.fixed .returndataToMemory]
  | .fixed .lowLevelDelegateCall => [.fixed .returndataToMemory]
  | .family .abiEncode _ => [.fixed .abiEncodeItem]
  | .family .abiEncodePacked _ => [.fixed .copyMemory]
  | .family .abiEncodeSelector n => [.family .abiEncode n]
  | .family .call n => [.family .abiEncodeSelector n, .fixed .returndataToMemory]
  | .family .staticCall n => [.family .abiEncodeSelector n, .fixed .returndataToMemory]
  | .family .delegateCall n => [.family .abiEncodeSelector n, .fixed .returndataToMemory]
  | .family .create n => [.family .abiEncode n]
  | .family .create2 n => [.family .abiEncode n]
  | _ => []

def height : Routine → Nat
  | .family .call _ | .family .staticCall _ | .family .delegateCall _ => 4
  | .family .abiEncodeSelector _ | .family .create _ | .family .create2 _ => 3
  | .family .abiEncode _ => 2
  | .family .abiEncodePacked _ => 1
  | .fixed .revertErrorString | .fixed .storageLoadArray => 2
  | .fixed .lowLevelCall | .fixed .lowLevelStaticCall | .fixed .lowLevelDelegateCall => 2
  | r => if r.needs.isEmpty then 0 else 1

theorem height_lt_of_mem_needs {r : Routine} : ∀ s ∈ r.needs, s.height < r.height := by
  cases r with
  | fixed r => cases r <;> decide
  | family f n => cases f <;> simp [needs, height]
  | panic => simp [needs]
  | loadStruct => simp [needs]
  | storeStruct => simp [needs]

def closure (r : Routine) : List Routine :=
  r :: r.needs.attach.flatMap fun ⟨s, _⟩ => closure s
termination_by r.height
decreasing_by exact height_lt_of_mem_needs s ‹_›

end Routine

end ContractYul
