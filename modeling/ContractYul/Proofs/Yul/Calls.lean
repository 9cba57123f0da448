import ContractYul.Proofs.Yul.Machine

/-!
# Calls in code

Which instructions and functions a piece of code calls, read off its text, with the number of
arguments of each call and the number of results that it is used for.

The functions that are defined in code do not run where they are defined; their bodies count as part
of it all the same.
-/

namespace ContractYul.Yul

open Stmt

structure Call where
  name : String
  /-- Number of arguments. -/
  args : Nat
  /-- Number of results that are used. -/
  results : Nat
  deriving DecidableEq

def Function.signature (f : Function) : Call :=
  ⟨f.name, f.params.length, f.returns.length⟩

/-! ## Calls of a text -/

mutual

@[simp]
def Expr.calls (n : Nat) : Expr → List Call
  | .literal _ => []
  | .ident _ => []
  | .call name args => ⟨name, args.length, n⟩ :: Expr.allCalls args

@[simp]
def Expr.allCalls : List Expr → List Call
  | [] => []
  | e :: rest => e.calls 1 ++ Expr.allCalls rest

end

mutual

/-- The calls of a statement. A text that is taken as it is counts as a call of itself. -/
@[simp]
def Stmt.calls : Stmt → List Call
  | .block body => allCalls body
  | .declare _ none => []
  | .declare names (some e) => e.calls names.length
  | .assign names e => e.calls names.length
  | .eval e => e.calls 0
  | .ifThen condition body => condition.calls 1 ++ allCalls body
  | .switch e cases none => e.calls 1 ++ casesCalls cases
  | .switch e cases (some body) => e.calls 1 ++ casesCalls cases ++ allCalls body
  | .loop init condition post body =>
    allCalls init ++ condition.calls 1 ++ allCalls post ++ allCalls body
  | .function _ _ _ body => allCalls body
  | .raw text => [⟨text, 0, 0⟩]
  | .break | .continue | .leave | .comment _ => []

@[simp]
def Stmt.allCalls : List Stmt → List Call
  | [] => []
  | s :: rest => s.calls ++ allCalls rest

@[simp]
def Stmt.casesCalls : List (Literal × List Stmt) → List Call
  | [] => []
  | (_, body) :: rest => allCalls body ++ casesCalls rest

end

theorem Stmt.allCalls_append : allCalls (code ++ more) = allCalls code ++ allCalls more := by
  induction code with
  | nil => rfl
  | cons s code ih => simp [ih]

/-! ## Functions of a text -/

def Stmt.definedNames (code : List Stmt) : List String :=
  code.filterMap fun
    | .function name _ _ _ => some name
    | _ => none

def Stmt.definedFunction? (code : List Stmt) (name : String) : Option Function :=
  code.findSome? fun
    | .function n params returns body => if n = name then some ⟨n, params, returns, body⟩ else none
    | _ => none

@[simp]
theorem Stmt.definedNames_append (code more : List Stmt) :
    definedNames (code ++ more) = definedNames code ++ definedNames more :=
  List.filterMap_append

@[simp]
theorem Stmt.definedNames_map_toStmt (fs : List Function) :
    definedNames (fs.map Function.toStmt) = fs.map (·.name) := by
  induction fs with
  | nil => rfl
  | cons f fs ih =>
    rw [List.map_cons, List.map_cons, ← ih]
    rfl

theorem Stmt.mem_definedNames {f : Function} (h : f.toStmt ∈ code) : f.name ∈ definedNames code :=
  List.mem_filterMap.2 ⟨f.toStmt, h, rfl⟩

/-! ## Instructions -/

def instructions : List Call :=
  [⟨"add", 2, 1⟩, ⟨"sub", 2, 1⟩, ⟨"mul", 2, 1⟩, ⟨"div", 2, 1⟩, ⟨"sdiv", 2, 1⟩, ⟨"mod", 2, 1⟩,
   ⟨"smod", 2, 1⟩, ⟨"exp", 2, 1⟩, ⟨"not", 1, 1⟩, ⟨"lt", 2, 1⟩, ⟨"gt", 2, 1⟩, ⟨"slt", 2, 1⟩,
   ⟨"sgt", 2, 1⟩, ⟨"eq", 2, 1⟩, ⟨"iszero", 1, 1⟩, ⟨"and", 2, 1⟩, ⟨"or", 2, 1⟩, ⟨"xor", 2, 1⟩,
   ⟨"byte", 2, 1⟩, ⟨"shl", 2, 1⟩, ⟨"shr", 2, 1⟩, ⟨"sar", 2, 1⟩, ⟨"signextend", 2, 1⟩,
   ⟨"caller", 0, 1⟩, ⟨"callvalue", 0, 1⟩, ⟨"calldataload", 1, 1⟩, ⟨"calldatasize", 0, 1⟩,
   ⟨"address", 0, 1⟩, ⟨"origin", 0, 1⟩, ⟨"timestamp", 0, 1⟩, ⟨"number", 0, 1⟩, ⟨"chainid", 0, 1⟩,
   ⟨"gasprice", 0, 1⟩, ⟨"coinbase", 0, 1⟩, ⟨"prevrandao", 0, 1⟩, ⟨"basefee", 0, 1⟩,
   ⟨"gaslimit", 0, 1⟩, ⟨"blockhash", 1, 1⟩, ⟨"codesize", 0, 1⟩, ⟨"dataoffset", 1, 1⟩,
   ⟨"datasize", 1, 1⟩, ⟨"mload", 1, 1⟩, ⟨"sload", 1, 1⟩, ⟨"tload", 1, 1⟩, ⟨"selfbalance", 0, 1⟩,
   ⟨"balance", 1, 1⟩, ⟨"extcodesize", 1, 1⟩, ⟨"extcodehash", 1, 1⟩, ⟨"keccak256", 2, 1⟩,
   ⟨"returndatasize", 0, 1⟩, ⟨"sstore", 2, 0⟩, ⟨"tstore", 2, 0⟩, ⟨"mstore", 2, 0⟩,
   ⟨"mstore8", 2, 0⟩, ⟨"pop", 1, 0⟩, ⟨"gas", 0, 1⟩, ⟨"calldatacopy", 3, 0⟩, ⟨"codecopy", 3, 0⟩,
   ⟨"datacopy", 3, 0⟩, ⟨"returndatacopy", 3, 0⟩, ⟨"mcopy", 3, 0⟩, ⟨"log0", 2, 0⟩, ⟨"log1", 3, 0⟩,
   ⟨"log2", 4, 0⟩, ⟨"log3", 5, 0⟩, ⟨"log4", 6, 0⟩, ⟨"call", 7, 1⟩, ⟨"staticcall", 6, 1⟩,
   ⟨"delegatecall", 6, 1⟩, ⟨"create", 3, 1⟩, ⟨"create2", 4, 1⟩, ⟨"stop", 0, 0⟩, ⟨"invalid", 0, 0⟩,
   ⟨"return", 2, 0⟩, ⟨"revert", 2, 0⟩]

def instructionNames : List String :=
  instructions.map (·.name)

theorem Context.instruction?_eq_none (ctx : Context) (h : name ∉ instructionNames) :
    ctx.instruction? name = none := by
  refine List.lookup_eq_none_iff.2 fun q hq => bne_iff_ne.2 fun heq => h ?_
  rw [heq]
  exact List.mem_map_of_mem hq

/-- All instructions are in a set of calls. -/
class Instructed (C : Call → Prop) : Prop where
  instruction : ∀ c ∈ instructions, C c

theorem instructed (C : Call → Prop) [Instructed C] (c : Call) (h : c ∈ instructions) : C c :=
  Instructed.instruction c h

end ContractYul.Yul
