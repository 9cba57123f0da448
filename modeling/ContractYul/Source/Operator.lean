/-!
# Operators

The operators of contract code, each with the name it has in a declaration tree and, where it is
shown to people, its symbol.
-/

namespace ContractYul.Source

inductive BinaryOp where
  | add | sub | mul | div | mod | pow
  | bitAnd | bitOr | bitXor | shl | shr
  | eq | notEq | lt | gt | ltEq | gtEq
  | and | or
  deriving DecidableEq

inductive UnaryOp where
  | neg | not | bitNot
  /-- Resets a location to the zero value of its type. -/
  | delete
  deriving DecidableEq

inductive UpdateOp where
  | increment | decrement
  deriving DecidableEq

inductive AssignOp where
  | assign
  | add | sub | mul | div | mod
  | bitAnd | bitOr | bitXor | shl | shr
  deriving DecidableEq

namespace BinaryOp

def all : List BinaryOp :=
  [.add, .sub, .mul, .div, .mod, .pow, .bitAnd, .bitOr, .bitXor, .shl, .shr,
   .eq, .notEq, .lt, .gt, .ltEq, .gtEq, .and, .or]

def name : BinaryOp → String
  | add => "Add" | sub => "Sub" | mul => "Mul" | div => "Div" | mod => "Mod" | pow => "Pow"
  | bitAnd => "BitAnd" | bitOr => "BitOr" | bitXor => "BitXor" | shl => "Shl" | shr => "Shr"
  | eq => "Eq" | notEq => "NotEq" | lt => "Lt" | gt => "Gt" | ltEq => "LtEq" | gtEq => "GtEq"
  | and => "And" | or => "Or"

def symbol : BinaryOp → String
  | add => "+" | sub => "-" | mul => "*" | div => "/" | mod => "%" | pow => "**"
  | bitAnd => "&" | bitOr => "|" | bitXor => "^" | shl => "<<" | shr => ">>"
  | eq => "==" | notEq => "!=" | lt => "<" | gt => ">" | ltEq => "<=" | gtEq => ">="
  | and => "&&" | or => "||"

def isComparison : BinaryOp → Bool
  | eq | notEq | lt | gt | ltEq | gtEq | and | or => true
  | _ => false

def ofName? (s : String) : Option BinaryOp :=
  all.find? (·.name == s)

end BinaryOp

namespace UnaryOp

def all : List UnaryOp := [.neg, .not, .bitNot, .delete]

def name : UnaryOp → String
  | neg => "Neg" | not => "Not" | bitNot => "BitNot" | delete => "Delete"

def symbol : UnaryOp → String
  | neg => "-" | not => "!" | bitNot => "~" | delete => "delete "

def ofName? (s : String) : Option UnaryOp :=
  all.find? (·.name == s)

end UnaryOp

namespace UpdateOp

def all : List UpdateOp := [.increment, .decrement]

def name : UpdateOp → String
  | increment => "Increment" | decrement => "Decrement"

def ofName? (s : String) : Option UpdateOp :=
  all.find? (·.name == s)

end UpdateOp

namespace AssignOp

def all : List AssignOp :=
  [.assign, .add, .sub, .mul, .div, .mod, .bitAnd, .bitOr, .bitXor, .shl, .shr]

def binaryOp? : AssignOp → Option BinaryOp
  | assign => none
  | add => some .add | sub => some .sub | mul => some .mul | div => some .div | mod => some .mod
  | bitAnd => some .bitAnd | bitOr => some .bitOr | bitXor => some .bitXor
  | shl => some .shl | shr => some .shr

def name (op : AssignOp) : String :=
  match op.binaryOp? with
  | none => "Assign"
  | some b => b.name

def ofName? (s : String) : Option AssignOp :=
  all.find? (·.name == s)

end AssignOp

end ContractYul.Source
