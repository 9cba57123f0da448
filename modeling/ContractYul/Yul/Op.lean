import ContractYul.Yul.Basic

/-!
# Instructions

Short names for applications of the machine instructions, and the patterns of code that several
routines share: rounding up to whole words, bounds checks and counted loops.
-/

namespace ContractYul.Yul.Op

def add (a b : Expr) : Expr := call "add" [a, b]

def sub (a b : Expr) : Expr := call "sub" [a, b]

def mul (a b : Expr) : Expr := call "mul" [a, b]

def div (a b : Expr) : Expr := call "div" [a, b]

def both (a b : Expr) : Expr := call "and" [a, b]

def either (a b : Expr) : Expr := call "or" [a, b]

def complement (a : Expr) : Expr := call "not" [a]

def isZero (a : Expr) : Expr := call "iszero" [a]

def eq (a b : Expr) : Expr := call "eq" [a, b]

def lt (a b : Expr) : Expr := call "lt" [a, b]

def gt (a b : Expr) : Expr := call "gt" [a, b]

def shl (bits a : Expr) : Expr := call "shl" [bits, a]

def shr (bits a : Expr) : Expr := call "shr" [bits, a]

def mload (address : Expr) : Expr := call "mload" [address]

def sload (slot : Expr) : Expr := call "sload" [slot]

def keccak (start length : Expr) : Expr := call "keccak256" [start, length]

def mstore (address value : Expr) : Stmt := .run "mstore" [address, value]

def sstore (slot value : Expr) : Stmt := .run "sstore" [slot, value]

def revert (start length : Expr) : Stmt := .run "revert" [start, length]

def revertEmpty : Stmt := revert (num 0) (num 0)

/-- The word that holds the end of the memory in use. -/
def freePointer : Expr := num 64

def roundUp (x : Expr) : Expr := both (add x (num 31)) (complement (num 31))

/-- The address after the length word of a memory object. -/
def dataOf (pointer : Expr) : Expr := add pointer (num 32)

def wordAddress (pointer index : Expr) : Expr := add (dataOf pointer) (mul index (num 32))

def hashOf (pointer : Expr) : Expr := keccak (dataOf pointer) (mload pointer)

def selectorWord (selector : Nat) : Expr :=
  shl (num 224) (numText ("0x" ++ Text.hexPadded 8 selector))

def countLoop (counter : String) (bound : Expr) (step : Nat) (body : List Stmt) : Stmt :=
  .loop [.letOne counter (num 0)] (lt (ident counter) bound)
    [.assignOne counter (add (ident counter) (num step))] body

end ContractYul.Yul.Op
