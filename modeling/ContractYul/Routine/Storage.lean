import ContractYul.Routine.Memory

/-!
# Routines on storage

An entry of a mapping lies at the hash of its key and the slot of the mapping. An array of any
length, or a byte string, has its length in its slot and its elements from the hash of the slot on.
-/

namespace ContractYul.FixedRoutine

open Yul

def mappingSlotDef : Function :=
  define .mappingSlot ["key", "slot"] ["dataSlot"]
    [Op.mstore (num 0) (ident "key"),
     Op.mstore (num 32) (ident "slot"),
     .assignOne "dataSlot" (Op.keccak (num 0) (num 64))]

def mappingSlotBytesDef : Function :=
  define .mappingSlotBytes ["key", "slot"] ["dataSlot"]
    [.letOne "length" (Op.mload (ident "key")),
     .letOne "pos" (Op.mload Op.freePointer),
     run .copyMemory [Op.dataOf (ident "key"), ident "pos", ident "length"],
     Op.mstore (Op.add (ident "pos") (ident "length")) (ident "slot"),
     .assignOne "dataSlot" (Op.keccak (ident "pos") (Op.add (ident "length") (num 32)))]

def arrayDataSlotDef : Function :=
  define .arrayDataSlot ["slot"] ["data"]
    [Op.mstore (num 0) (ident "slot"),
     .assignOne "data" (Op.keccak (num 0) (num 32))]

def elementSlot (index : Expr) : Expr :=
  Op.add (call .arrayDataSlot [ident "slot"]) (Op.mul index (ident "span"))

def storageArrayIndexDef : Function :=
  define .storageArrayIndex ["slot", "index", "span"] ["elemSlot"]
    [checkBounds (ident "index") (Op.sload (ident "slot")),
     .assignOne "elemSlot" (elementSlot (ident "index"))]

def storageArrayGrowDef : Function :=
  define .storageArrayGrow ["slot", "span"] ["elemSlot"]
    [.letOne "length" (Op.sload (ident "slot")),
     Op.sstore (ident "slot") (Op.add (ident "length") (num 1)),
     .assignOne "elemSlot" (elementSlot (ident "length"))]

def storageArrayPopDef : Function :=
  define .storageArrayPop ["slot", "span"] []
    [.letOne "length" (Op.sload (ident "slot")),
     .ifThen (Op.isZero (ident "length")) [.run (panicName emptyPopCode) []],
     .letOne "newLength" (Op.sub (ident "length") (num 1)),
     .letOne "elem" (elementSlot (ident "newLength")),
     Op.countLoop "i" (ident "span") 1 [Op.sstore (Op.add (ident "elem") (ident "i")) (num 0)],
     Op.sstore (ident "slot") (ident "newLength")]

def storageLoadBytesDef : Function :=
  define .storageLoadBytes ["slot"] ["memPtr"]
    [.letOne "length" (Op.sload (ident "slot")),
     .assignOne "memPtr" (call .allocateMemory [Op.add (ident "length") (num 32)]),
     Op.mstore (ident "memPtr") (ident "length"),
     .letOne "data" (call .arrayDataSlot [ident "slot"]),
     Op.countLoop "i" (ident "length") 32
       [Op.mstore (Op.add (Op.dataOf (ident "memPtr")) (ident "i"))
         (Op.sload (Op.add (ident "data") (Op.div (ident "i") (num 32))))]]

def storageStoreBytesDef : Function :=
  define .storageStoreBytes ["slot", "memPtr"] []
    [.letOne "length" (Op.mload (ident "memPtr")),
     Op.sstore (ident "slot") (ident "length"),
     .letOne "data" (call .arrayDataSlot [ident "slot"]),
     Op.countLoop "i" (ident "length") 32
       [Op.sstore (Op.add (ident "data") (Op.div (ident "i") (num 32)))
         (Op.mload (Op.add (Op.dataOf (ident "memPtr")) (ident "i")))]]

def storageLoadWordsDef : Function :=
  define .storageLoadWords ["slot", "count"] ["memPtr"]
    [.assignOne "memPtr"
       (call .allocateMemory [Op.add (Op.mul (ident "count") (num 32)) (num 32)]),
     Op.mstore (ident "memPtr") (ident "count"),
     Op.countLoop "i" (ident "count") 1
       [Op.mstore (Op.wordAddress (ident "memPtr") (ident "i"))
         (Op.sload (Op.add (ident "slot") (ident "i")))]]

def storageStoreWordsDef : Function :=
  define .storageStoreWords ["slot", "memPtr", "count"] []
    [Op.countLoop "i" (ident "count") 1
      [Op.sstore (Op.add (ident "slot") (ident "i"))
        (Op.mload (Op.wordAddress (ident "memPtr") (ident "i")))]]

def storageLoadArrayDef : Function :=
  define .storageLoadArray ["slot"] ["memPtr"]
    [.assignOne "memPtr"
      (call .storageLoadWords [call .arrayDataSlot [ident "slot"], Op.sload (ident "slot")])]

def storageStoreArrayDef : Function :=
  define .storageStoreArray ["slot", "memPtr"] []
    [.letOne "length" (Op.mload (ident "memPtr")),
     Op.sstore (ident "slot") (ident "length"),
     .letOne "data" (call .arrayDataSlot [ident "slot"]),
     Op.countLoop "i" (ident "length") 1
       [Op.sstore (Op.add (ident "data") (ident "i"))
         (Op.mload (Op.wordAddress (ident "memPtr") (ident "i")))]]

def zeroStorageDef : Function :=
  define .zeroStorage ["slot", "count"] []
    [Op.countLoop "i" (ident "count") 1
      [Op.sstore (Op.add (ident "slot") (ident "i")) (num 0)]]

end ContractYul.FixedRoutine
