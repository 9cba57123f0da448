import ContractYul.Abi.Signature
import ContractYul.Routine.Registry
import ContractYul.Routine.Shape
import ContractYul.Yul.Object

/-!
# Entry points

The code in front of a contract's functions: a switch over the selectors of what can be called,
followed by the receive and fallback entries, and the decoding of constructor arguments.

Arguments have one head word each, but for fixed arrays, whose words all stand in the head. Byte
strings and arrays of any length have the distance to their length and data in the head.
-/

namespace ContractYul.Dispatch

open Yul

/-! ## Reading arguments -/

inductive ArgForm where
  | word
  /-- Items of `unit` bytes behind an offset. -/
  | dynamic (unit : Nat)
  /-- A fixed number of words in the head. -/
  | inlined (count : Nat)

def ArgForm.ofTy (t : Ty) : Outcome ArgForm :=
  if t.isValue then .ok .word
  else match t with
    | .bytes | .string => .ok (.dynamic 1)
    | .array elem none =>
      if elem.isValue then .ok (.dynamic 32) else .error (.unsupported (.externalParameter t))
    | .array elem (some n) =>
      if elem.isValue then .ok (.inlined n) else .error (.unsupported (.externalParameter t))
    | _ => .error (.unsupported (.externalParameter t))

def ArgForm.headSize : ArgForm → Nat
  | .inlined count => 32 * count
  | _ => 32

def offsetFrom (base : String) (bytes : Nat) : Expr :=
  if bytes = 0 then ident base else Op.add (ident base) (num bytes)

def rejectValue : Stmt :=
  .ifThen (call "callvalue" []) [Op.revertEmpty]

/-! ## The switch -/

/-- What the construction of the switch has used so far. -/
structure State where
  registry : Registry
  /-- Number of temporaries. -/
  counter : Nat

/-- Construction of code that takes temporaries and routines. -/
abbrev Build := StateT State Outcome

def temp (stem : String) : Build String :=
  modifyGet fun s => (stem ++ "_" ++ toString s.counter, { s with counter := s.counter + 1 })

def use (target : Target) (r : Routine) : Build Unit :=
  modify fun s => { s with registry := s.registry.add target r }

def readArgument (target : Target) (head : Nat) : ArgForm → Build Expr
  | .word => return call "calldataload" [num head]
  | .dynamic unit => do
    use target (.fixed .abiDecodeCalldataDynamic)
    return FixedRoutine.abiDecodeCalldataDynamic.call [num head, num unit]
  | .inlined count => do
    use target (.fixed .abiDecodeCalldataWords)
    return FixedRoutine.abiDecodeCalldataWords.call [num head, num count]

def readArguments (target : Target) : (head : Nat) → List Abi.Param → Build (List (String × Expr))
  | _, [] => return []
  | head, p :: rest => do
    let form ← ArgForm.ofTy p.ty
    let name ← temp "param"
    let value ← readArgument target head form
    return (name, value) :: (← readArguments target (head + form.headSize) rest)

/-- Returns results: words one after the other, or a standard encoding when one is no word. -/
def returnResults (target : Target) (types : List Ty) (results : List String) :
    Build (List Stmt) := do
  let pos ← temp "memPos"
  let start := Stmt.letOne pos (Op.mload Op.freePointer)
  if types.all Ty.isValue then
    let stores := results.zipIdx.map fun (r, i) => Op.mstore (offsetFrom pos (32 * i)) (ident r)
    return [start] ++ stores ++ [.run "return" [ident pos, num (32 * results.length)]]
  else
    let shapes ← types.mapM fun t => (Shape.ofTy t : Outcome Nat)
    use target (.family .abiEncode results.length)
    let literal ← Shape.literal shapes 2
    let stop ← temp "memEnd"
    return [start,
      .letOne stop (call (RoutineFamily.abiEncode.name results.length)
        ([ident pos, literal] ++ results.map ident)),
      .run "return" [ident pos, Op.sub (ident stop) (ident pos)]]

/-- The code of one function's case: refuse value, read arguments, call, return. -/
def functionCase (target : Target) (f : Abi.Function) : Build (List Stmt) := do
  let check := if f.isPayable then [] else [rejectValue]
  let args ← readArguments target 4 f.params
  let reads := args.map fun (name, value) => Stmt.letOne name value
  let results ← f.returns.mapM fun _ => temp "ret"
  let invocation := call f.irName (args.map fun (name, _) => ident name)
  if results.isEmpty then
    return check ++ reads ++ [.eval invocation, .run "return" [num 0, num 0]]
  else
    let finish ← returnResults target f.returns results
    return check ++ reads ++ [.declare results (some invocation)] ++ finish

structure Special where
  irName : String
  payable : Bool

def Special.code (s : Special) : List Stmt :=
  (if s.payable then [] else [rejectValue]) ++ [.run s.irName [], .run "stop" []]

def checkSelectors : List (Nat × Abi.Function) → List (Nat × Abi.Function) → Outcome Unit
  | _, [] => .ok ()
  | earlier, (selector, f) :: rest =>
    match earlier.find? (·.1 == selector) with
    | some (_, g) =>
      .error (.inconsistent (.sharedSelector (Abi.selectorText selector) g.signature f.signature))
    | none => checkSelectors ((selector, f) :: earlier) rest

def cases (target : Target) (functions : List (Nat × Abi.Function)) :
    Build (List (Literal × List Stmt)) :=
  functions.mapM fun (selector, f) => do
    return (.number (Abi.selectorText selector), ← functionCase target f)

/-- The entry code of a contract: cases in the order of selectors, then the receive entry for calls
without data, then the fallback entry or a revert. -/
def build (target : Target) (functions : List Abi.Function) (receive fallback : Option Special) :
    Build (List Stmt) := do
  let keyed := functions.map fun f => (f.selector, f)
  checkSelectors [] keyed
  let cases ← cases target (keyed.mergeSort fun a b => a.1 ≤ b.1)
  let dispatch :=
    if cases.isEmpty then []
    else [.ifThen (Op.isZero (Op.lt (call "calldatasize" []) (num 4)))
      [.switch (Op.shr (num 224) (call "calldataload" [num 0])) cases none]]
  let onEmpty := match receive with
    | some r => [Stmt.ifThen (Op.isZero (call "calldatasize" [])) r.code]
    | none => []
  let otherwise := match fallback with
    | some f => f.code
    | none => [Op.revertEmpty]
  return dispatch ++ onEmpty ++ otherwise

def entryCode (target : Target) (registry : Registry) (functions : List Abi.Function)
    (receive fallback : Option Special) : Outcome (List Stmt × Registry) := do
  let (code, state) ← (build target functions receive fallback).run ⟨registry, 0⟩
  return (code, state.registry)

/-! ## Constructor arguments -/

def readConstructorArgument (target : Target) (name : String) (position : Expr) :
    ArgForm → Registry → List Stmt × Registry
  | .word, g => ([.letOne name (Op.mload position)], g)
  | .dynamic _, g => ([.letOne name (Op.add (ident "argBase") (Op.mload position))], g)
  | .inlined count, g =>
    let size := 32 * count
    ([.letOne name (FixedRoutine.allocateMemory.call [num (size + 32)]),
      Op.mstore (ident name) (num count),
      FixedRoutine.copyMemory.run [position, Op.dataOf (ident name), num size]],
     g.add target (.fixed .copyMemory))

/-- Binds a variable per constructor argument; `i` counts them and `head` is where the next one
stands. -/
def readConstructorArguments (target : Target) :
    (i head : Nat) → List Abi.Param → Registry → Outcome (List Stmt × Registry)
  | _, _, [], g => .ok ([], g)
  | i, head, p :: rest, g => do
    let form ← ArgForm.ofTy p.ty
    let (code, g) :=
      readConstructorArgument target ("ctorArg_" ++ toString i) (offsetFrom "argBase" head) form g
    let (more, g) ← readConstructorArguments target (i + 1) (head + form.headSize) rest g
    return (code ++ more, g)

/-- Code that copies the arguments behind the creation code of an object into memory and binds a
variable to each, the variables, and the routines with those that the code uses. -/
def constructorArguments (target : Target) (object : String) (params : List Abi.Param)
    (g : Registry) : Outcome (List Stmt × List Expr × Registry) :=
  if params.isEmpty then .ok ([], [], g)
  else do
    let size := call "datasize" [textLiteral object]
    let g := g.add target (.fixed .allocateMemory)
    let copy :=
      [Stmt.letOne "argSize" (Op.sub (call "codesize" []) size),
       .letOne "argBase" (FixedRoutine.allocateMemory.call [ident "argSize"]),
       .run "codecopy" [ident "argBase", size, ident "argSize"]]
    let (reads, g) ← readConstructorArguments target 0 0 params g
    let args := (List.range params.length).map fun i => ident ("ctorArg_" ++ toString i)
    return (copy ++ reads, args, g)

end ContractYul.Dispatch
