import ContractYul.Routine.Basic

/-!
# Routines on memory

Allocation, copying, element addresses with bounds checks, and text operations.
-/

namespace ContractYul.FixedRoutine

open Yul

def checkBounds (index length : Expr) : Stmt :=
  .ifThen (Op.isZero (Op.lt index length)) [.run (panicName outOfBoundsCode) []]

def allocateMemoryDef : Function :=
  define .allocateMemory ["size"] ["memPtr"]
    [.assignOne "memPtr" (Op.mload Op.freePointer),
     Op.mstore Op.freePointer (Op.add (ident "memPtr") (Op.roundUp (ident "size")))]

/-- Sets the length of an object from its end and moves the end of memory there. -/
def finalizeBytesDef : Function :=
  define .finalizeBytes ["memPtr", "end"] []
    [Op.mstore (ident "memPtr") (Op.sub (ident "end") (Op.dataOf (ident "memPtr"))),
     Op.mstore Op.freePointer (Op.roundUp (ident "end"))]

/-- Copies bytes, with one instruction where the target has it and word by word elsewhere. -/
def copyMemoryDef (target : Target) : Function :=
  define .copyMemory ["src", "dst", "length"] [] <|
    match target with
    | .cancun => [.run "mcopy" [ident "dst", ident "src", ident "length"]]
    | .shanghai =>
      [Op.countLoop "i" (ident "length") 32
        [Op.mstore (Op.add (ident "dst") (ident "i"))
          (Op.mload (Op.add (ident "src") (ident "i")))]]

def memoryArrayIndexDef : Function :=
  define .memoryArrayIndex ["memPtr", "index"] ["addr"]
    [checkBounds (ident "index") (Op.mload (ident "memPtr")),
     .assignOne "addr" (Op.wordAddress (ident "memPtr") (ident "index"))]

def memoryByteIndexDef : Function :=
  define .memoryByteIndex ["memPtr", "index"] ["addr"]
    [checkBounds (ident "index") (Op.mload (ident "memPtr")),
     .assignOne "addr" (Op.add (Op.dataOf (ident "memPtr")) (ident "index"))]

def stringConcatDef : Function :=
  define .stringConcat ["a", "b"] ["result"]
    [.letOne "la" (Op.mload (ident "a")),
     .letOne "lb" (Op.mload (ident "b")),
     .assignOne "result"
       (call .allocateMemory [Op.add (Op.add (ident "la") (ident "lb")) (num 32)]),
     Op.mstore (ident "result") (Op.add (ident "la") (ident "lb")),
     run .copyMemory [Op.dataOf (ident "a"), Op.dataOf (ident "result"), ident "la"],
     run .copyMemory
       [Op.dataOf (ident "b"), Op.add (Op.dataOf (ident "result")) (ident "la"), ident "lb"]]

def stringEqualDef : Function :=
  define .stringEqual ["a", "b"] ["result"]
    [.assignOne "result"
      (Op.both (Op.eq (Op.mload (ident "a")) (Op.mload (ident "b")))
        (Op.eq (Op.hashOf (ident "a")) (Op.hashOf (ident "b"))))]

def bytesHashDef : Function :=
  define .bytesHash ["memPtr"] ["hash"] [.assignOne "hash" (Op.hashOf (ident "memPtr"))]

end ContractYul.FixedRoutine
