import ContractYul.Routine.Memory

/-!
# Routines on call data and return data

Decoding of arguments, encoding of single values, low-level calls, and the ways to fail: forwarding
the failure of a callee, a message, a panic code.
-/

namespace ContractYul.FixedRoutine

open Yul

def errorStringSelector : Nat := 0x08c379a0

def panicSelector : Nat := 0x4e487b71

/-- Writes a value of shape 0 to its head; for shapes 1 and 2 the head gets the distance from
`base` and the object goes to `tail`. -/
def abiEncodeItemDef : Function :=
  define .abiEncodeItem ["head", "base", "tail", "shape", "value"] ["newTail"]
    [.assignOne "newTail" (ident "tail"),
     .switch (ident "shape")
       [(.number "0", [Op.mstore (ident "head") (ident "value")])]
       (some
         [Op.mstore (ident "head") (Op.sub (ident "tail") (ident "base")),
          .letOne "length" (Op.mload (ident "value")),
          .letOne "size" (ident "length"),
          .ifThen (Op.eq (ident "shape") (num 2))
            [.assignOne "size" (Op.mul (ident "length") (num 32))],
          Op.mstore (ident "tail") (ident "length"),
          run .copyMemory [Op.dataOf (ident "value"), Op.dataOf (ident "tail"), ident "size"],
          Op.mstore (Op.add (Op.dataOf (ident "tail")) (ident "size")) (num 0),
          .assignOne "newTail"
            (Op.add (Op.dataOf (ident "tail")) (Op.roundUp (ident "size")))])]

def abiDecodeCalldataDynamicDef : Function :=
  define .abiDecodeCalldataDynamic ["headPos", "unit"] ["memPtr"]
    [.letOne "offset" (Op.add (num 4) (Yul.call "calldataload" [ident "headPos"])),
     .letOne "length" (Yul.call "calldataload" [ident "offset"]),
     .letOne "size" (Op.mul (ident "length") (ident "unit")),
     .assignOne "memPtr" (call .allocateMemory [Op.add (ident "size") (num 32)]),
     Op.mstore (ident "memPtr") (ident "length"),
     .run "calldatacopy"
       [Op.dataOf (ident "memPtr"), Op.add (ident "offset") (num 32), ident "size"]]

def abiDecodeCalldataWordsDef : Function :=
  define .abiDecodeCalldataWords ["pos", "count"] ["memPtr"]
    [.letOne "size" (Op.mul (ident "count") (num 32)),
     .assignOne "memPtr" (call .allocateMemory [Op.add (ident "size") (num 32)]),
     Op.mstore (ident "memPtr") (ident "count"),
     .run "calldatacopy" [Op.dataOf (ident "memPtr"), ident "pos", ident "size"]]

def returndataToMemoryDef : Function :=
  define .returndataToMemory [] ["data"]
    [.letOne "size" (Yul.call "returndatasize" []),
     .assignOne "data" (call .allocateMemory [Op.add (ident "size") (num 32)]),
     Op.mstore (ident "data") (ident "size"),
     .run "returndatacopy" [Op.dataOf (ident "data"), num 0, ident "size"]]

def revertForwardDef : Function :=
  define .revertForward [] []
    [.letOne "pos" (Op.mload Op.freePointer),
     .run "returndatacopy" [ident "pos", num 0, Yul.call "returndatasize" []],
     Op.revert (ident "pos") (Yul.call "returndatasize" [])]

def revertErrorStringDef : Function :=
  define .revertErrorString ["message"] []
    [.letOne "pos" (Op.mload Op.freePointer),
     Op.mstore (ident "pos") (Op.selectorWord errorStringSelector),
     .letOne "end"
       (call .abiEncodeItem
         [Op.add (ident "pos") (num 4), Op.add (ident "pos") (num 4),
          Op.add (ident "pos") (num 36), num 1, ident "message"]),
     Op.revert (ident "pos") (Op.sub (ident "end") (ident "pos"))]

def panicDef (code : Nat) : Function :=
  ⟨panicName code, [], [],
    [Op.mstore (num 0) (Op.selectorWord panicSelector),
     Op.mstore (num 4) (num code),
     Op.revert (num 0) (num 0x24)]⟩

/-- A call with the bytes of a memory object; `value` are the parameters between the address and
the data. -/
def lowLevelDef (r : FixedRoutine) (opcode : String) (value : List String) : Function :=
  define r (["target"] ++ value ++ ["data"]) ["success", "ret"]
    [.assignOne "success"
       (Yul.call opcode
         ([Yul.call "gas" [], ident "target"] ++ value.map ident ++
           [Op.dataOf (ident "data"), Op.mload (ident "data"), num 0, num 0])),
     .assignOne "ret" (call .returndataToMemory [])]

end ContractYul.FixedRoutine
