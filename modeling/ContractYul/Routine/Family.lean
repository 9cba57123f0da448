import ContractYul.Routine.Basic

/-!
# Routines by number of arguments

The encodings write at `dst` and return where they end. The calls encode their arguments behind the
memory in use and return success and the returned bytes as an object.
-/

namespace ContractYul.RoutineFamily

open Yul

def numbered (stem : String) (count : Nat) : List String :=
  (List.range count).map fun i => stem ++ toString i

def codeAt (word : String) (bits position mask : Nat) : Expr :=
  let shift := bits * position
  Op.both (if shift = 0 then ident word else Op.shr (num shift) (ident word)) (num mask)

def abiEncodeDef (arity : Nat) : Function :=
  let args := numbered "a" arity
  { name := name .abiEncode arity
    params := ["dst", "shapes"] ++ args
    returns := ["end"]
    body :=
      [.letOne "base" (ident "dst"),
       .letOne "tail" (Op.add (ident "dst") (num (32 * arity)))]
      ++ args.zipIdx.map (fun (a, i) =>
        .assignOne "tail"
          (FixedRoutine.abiEncodeItem.call
            [Op.add (ident "dst") (num (32 * i)), ident "base", ident "tail",
             codeAt "shapes" 2 i 3, ident a]))
      ++ [.assignOne "end" (ident "tail")] }

def packArgument (arg : String) (i : Nat) : Stmt :=
  let width := "w" ++ toString i
  let length := "l" ++ toString i
  .block
    [.letOne width (codeAt "widths" 8 i 0xff),
     .switch (ident width)
       [(.number "0",
         [.letOne length (Op.mload (ident arg)),
          FixedRoutine.copyMemory.run [Op.dataOf (ident arg), ident "pos", ident length],
          .assignOne "pos" (Op.add (ident "pos") (ident length))])]
       (some
         [Op.mstore (ident "pos")
            (Op.shl (Op.sub (num 256) (Op.mul (num 8) (ident width))) (ident arg)),
          .assignOne "pos" (Op.add (ident "pos") (ident width))])]

def abiEncodePackedDef (arity : Nat) : Function :=
  let args := numbered "a" arity
  { name := name .abiEncodePacked arity
    params := ["dst", "widths"] ++ args
    returns := ["end"]
    body :=
      [.letOne "pos" (ident "dst")]
      ++ args.zipIdx.map (fun (a, i) => packArgument a i)
      ++ [.assignOne "end" (ident "pos")] }

def abiEncodeSelectorDef (arity : Nat) : Function :=
  let args := numbered "a" arity
  { name := name .abiEncodeSelector arity
    params := ["dst", "sel", "shapes"] ++ args
    returns := ["end"]
    body :=
      [Op.mstore (ident "dst") (Op.shl (num 224) (ident "sel")),
       .assignOne "end"
         (Yul.call (name .abiEncode arity)
           ([Op.add (ident "dst") (num 4), ident "shapes"] ++ args.map ident))] }

def decodeValue (v : String) (i : Nat) : Stmt :=
  let head := Op.mload (Op.add (ident "payload") (num (32 * i)))
  .switch (codeAt "shapes" 2 i 3)
    [(.number "0", [.assignOne v head])]
    (some [.assignOne v (Op.add (ident "payload") head)])

def abiDecodeDef (arity : Nat) : Function :=
  let values := numbered "v" arity
  { name := name .abiDecode arity
    params := ["data", "shapes"]
    returns := values
    body :=
      [.ifThen (Op.lt (Op.mload (ident "data")) (num (32 * arity))) [Op.revertEmpty],
       .letOne "payload" (Op.dataOf (ident "data"))]
      ++ values.zipIdx.map (fun (v, i) => decodeValue v i) }

/-- A call of another contract; `value` are the parameters between the address and the selector. -/
def externalCallDef (f : RoutineFamily) (opcode : String) (value : List String) (arity : Nat) :
    Function :=
  let args := numbered "a" arity
  { name := f.name arity
    params := ["target"] ++ value ++ ["sel", "shapes"] ++ args
    returns := ["success", "ret"]
    body :=
      [.letOne "pos" (Op.mload Op.freePointer),
       .letOne "end"
         (Yul.call (name .abiEncodeSelector arity)
           ([ident "pos", ident "sel", ident "shapes"] ++ args.map ident)),
       .assignOne "success"
         (Yul.call opcode
           ([Yul.call "gas" [], ident "target"] ++ value.map ident ++
             [ident "pos", Op.sub (ident "end") (ident "pos"), num 0, num 0])),
       .assignOne "ret" (FixedRoutine.returndataToMemory.call [])] }

def creationDef (f : RoutineFamily) (opcode : String) (salt : List String) (arity : Nat) :
    Function :=
  let args := numbered "a" arity
  { name := f.name arity
    params := ["codeOffset", "codeSize", "value"] ++ salt ++ ["shapes"] ++ args
    returns := ["addr"]
    body :=
      [.letOne "pos" (Op.mload Op.freePointer),
       .run "datacopy" [ident "pos", ident "codeOffset", ident "codeSize"],
       .letOne "end"
         (Yul.call (name .abiEncode arity)
           ([Op.add (ident "pos") (ident "codeSize"), ident "shapes"] ++ args.map ident)),
       .assignOne "addr"
         (Yul.call opcode
           ([ident "value", ident "pos", Op.sub (ident "end") (ident "pos")] ++
             salt.map ident))] }

def definition (f : RoutineFamily) (arity : Nat) : Function :=
  match f with
  | .abiEncode => abiEncodeDef arity
  | .abiEncodePacked => abiEncodePackedDef arity
  | .abiEncodeSelector => abiEncodeSelectorDef arity
  | .abiDecode => abiDecodeDef arity
  | .call => externalCallDef .call "call" ["value"] arity
  | .staticCall => externalCallDef .staticCall "staticcall" [] arity
  | .delegateCall => externalCallDef .delegateCall "delegatecall" [] arity
  | .create => creationDef .create "create" [] arity
  | .create2 => creationDef .create2 "create2" ["salt"] arity

end ContractYul.RoutineFamily
