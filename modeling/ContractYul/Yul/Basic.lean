import ContractYul.Text.Hex

/-!
# Target code

Expressions and statements of the Yul-style target language. Every operand is itself an
expression, and a number is kept as text, decimal or with `0x` in front, so that words of 256 bits
are written as they were computed.
-/

namespace ContractYul.Yul

inductive Literal where
  /-- A number as it is printed. -/
  | number (text : String)
  /-- A text, the argument of `datasize` and `dataoffset`. -/
  | string (s : String)
  deriving DecidableEq

inductive Expr where
  | literal (value : Literal)
  /-- A variable or parameter. -/
  | ident (name : String)
  /-- An opcode or a function applied to its arguments. -/
  | call (name : String) (args : List Expr)

instance : Inhabited Expr := ⟨.literal (.number "0")⟩

inductive Stmt where
  /-- A nested scope. -/
  | block (body : List Stmt)
  /-- Declaration of variables, `let names := value`. -/
  | declare (names : List String) (value : Option Expr)
  /-- Assignment, `names := value`. -/
  | assign (names : List String) (value : Expr)
  /-- An expression evaluated for its effects. -/
  | eval (e : Expr)
  /-- A conditional block; there is no else branch. -/
  | ifThen (condition : Expr) (body : List Stmt)
  | switch (e : Expr) (cases : List (Literal × List Stmt)) (otherwise : Option (List Stmt))
  /-- A loop with its initial, condition, post and body parts. -/
  | loop (init : List Stmt) (condition : Expr) (post body : List Stmt)
  | break
  | continue
  /-- Return from the function. -/
  | leave
  | function (name : String) (params returns : List String) (body : List Stmt)
  /-- Text taken as it is. -/
  | raw (text : String)
  | comment (text : String)

structure Function where
  name : String
  params : List String
  returns : List String
  body : List Stmt

def Function.toStmt (f : Function) : Stmt :=
  .function f.name f.params f.returns f.body

/-! ## Building code -/

def num (n : Nat) : Expr :=
  .literal (.number (toString n))

def numText (text : String) : Expr :=
  .literal (.number text)

def hexLiteral (bytes : List UInt8) : Expr :=
  numText ("0x" ++ Text.hexEncode bytes)

def textLiteral (s : String) : Expr :=
  .literal (.string s)

def ident (name : String) : Expr :=
  .ident name

def call (name : String) (args : List Expr) : Expr :=
  .call name args

def Stmt.letOne (name : String) (value : Expr) : Stmt :=
  .declare [name] (some value)

def Stmt.assignOne (name : String) (value : Expr) : Stmt :=
  .assign [name] value

def Stmt.run (name : String) (args : List Expr) : Stmt :=
  .eval (.call name args)

/-! ## Questions about expressions -/

def Expr.literalValue? : Expr → Option Nat
  | .literal (.number text) =>
    match text.toList with
    | '0' :: 'x' :: digits => Text.readBelow? 16 (Nat.pow 2 128) digits
    | digits => Text.readBelow? 10 (Nat.pow 2 128) digits
  | _ => none

def pureOpcodes : List String :=
  ["add", "sub", "mul", "div", "sdiv", "mod", "smod", "exp", "not", "lt", "gt", "slt", "sgt",
   "eq", "iszero", "and", "or", "xor", "byte", "shl", "shr", "sar", "signextend", "caller",
   "callvalue", "calldataload", "calldatasize", "address", "origin", "timestamp", "number",
   "chainid", "gasprice", "coinbase", "prevrandao", "basefee", "gaslimit", "selfbalance",
   "mload", "sload", "tload"]

mutual

def Expr.isPure : Expr → Bool
  | .literal _ => true
  | .ident _ => true
  | .call name args => pureOpcodes.contains name && allPure args

def allPure : List Expr → Bool
  | [] => true
  | e :: rest => e.isPure && allPure rest

end

def Expr.isCall : Expr → Bool
  | .call _ _ => true
  | _ => false

end ContractYul.Yul
