import ContractYul.Source.Operator

/-!
# Declaration trees

The contract language as the compiler takes it: files of classes, interfaces, enums, free
functions, type aliases and comments. Type annotations are text and are read where they are used.
-/

namespace ContractYul.Source

/-! ## Code -/

inductive Expr where
  /-- An integer literal as it is written. -/
  | number (text : String)
  | bool (b : Bool)
  | string (s : String)
  /-- A byte string given by its hexadecimal digits. -/
  | hexBytes (digits : String)
  /-- A variable, parameter, enum, library or predefined name. -/
  | ident (name : String)
  /-- The contract instance. -/
  | this
  /-- The parent implementation. -/
  | super
  | member (object : Expr) (property : String)
  | index (object position : Expr)
  | call (callee : Expr) (args : List Expr)
  /-- Creation of a contract, with an optional value to send and an optional salt. -/
  | create (className : String) (args : List Expr) (value salt : Option Expr)
  | binary (op : BinaryOp) (left right : Expr)
  | unary (op : UnaryOp) (operand : Expr)
  /-- Increment or decrement, before or after use. -/
  | update (op : UpdateOp) (isPrefix : Bool) (target : Expr)
  | assign (op : AssignOp) (target value : Expr)
  | conditional (condition thenExpr elseExpr : Expr)
  | tuple (elems : List Expr)
  | array (elems : List Expr)
  /-- A struct value by named fields. -/
  | record (typeName : Option String) (fields : List (String × Expr))
  /-- Explicit conversion to a type. -/
  | cast (expr : Expr) (ty : String)
  deriving Inhabited

inductive Stmt where
  /-- Declaration of one local with an optional type, or of several from several values. -/
  | varDecl (names : List String) (ty : Option String) (init : Option Expr)
  | expr (e : Expr)
  | ifElse (condition : Expr) (thenBranch : List Stmt) (elseBranch : Option (List Stmt))
  | whileLoop (condition : Expr) (body : List Stmt)
  | doWhile (body : List Stmt) (condition : Expr)
  | forLoop (init : Option Stmt) (condition update : Option Expr) (body : List Stmt)
  | breakLoop
  | continueLoop
  | ret (value : Option Expr)
  | block (body : List Stmt)
  | unchecked (body : List Stmt)
  | emit (event : String) (args : List Expr)
  | throw (error : Expr)
  /-- A body whose first external call is guarded, and what runs when that call fails. -/
  | tryCatch (body : List Stmt) (binding : Option String) (handler : List Stmt)
  deriving Inhabited

/-! ## Declarations -/

inductive StorageClass where
  | persistent | transient | immutable | constant
  deriving DecidableEq

inductive Visibility where
  | «public» | external | internal | «private»
  deriving DecidableEq

def Visibility.isExternal : Visibility → Bool
  | .public | .external => true
  | .internal | .private => false

inductive Mutability where
  | payable | nonPayable | view | pure
  deriving DecidableEq

def Mutability.abiWord : Mutability → String
  | .payable => "payable"
  | .nonPayable => "nonpayable"
  | .view => "view"
  | .pure => "pure"

def Mutability.isReadOnly : Mutability → Bool
  | .view | .pure => true
  | .payable | .nonPayable => false

inductive MethodKind where
  | normal | fallback | receive
  deriving DecidableEq

structure Param where
  name : String
  ty : String
  deriving DecidableEq

structure FieldDecl where
  name : String
  ty : String
  storage : StorageClass := .persistent
  /-- The slot that the field is pinned to. -/
  slot : Option Nat := none
  visibility : Visibility := .private
  initializer : Option Expr := none

structure MethodDecl where
  name : String
  params : List Param := []
  returns : List String := []
  /-- The code, missing in a method that is only declared. -/
  body : Option (List Stmt) := some []
  visibility : Visibility := .public
  mutability : Mutability := .nonPayable
  isStatic : Bool := false
  isVirtual : Bool := false
  isOverride : Bool := false
  kind : MethodKind := .normal

structure ConstructorDecl where
  params : List Param := []
  body : List Stmt := []
  payable : Bool := false

structure EventField where
  name : String
  ty : String
  indexed : Bool := false
  deriving DecidableEq

structure EventDecl where
  name : String
  fields : List EventField := []
  anonymous : Bool := false
  deriving DecidableEq

inductive Heritage where
  | extends (parent : String)
  | compose (parents : List String)
  deriving DecidableEq

def Heritage.parents : Heritage → List String
  | .extends parent => [parent]
  | .compose parents => parents

structure ClassDecl where
  name : String
  heritage : Option Heritage := none
  fields : List FieldDecl := []
  methods : List MethodDecl := []
  constructor : Option ConstructorDecl := none
  events : List EventDecl := []
  isAbstract : Bool := false

structure InterfaceDecl where
  name : String
  fields : List Param := []
  methods : List MethodDecl := []

structure EnumDecl where
  name : String
  members : List String
  deriving DecidableEq

structure AliasDecl where
  name : String
  underlying : String
  deriving DecidableEq

structure FunctionDecl where
  name : String
  params : List Param := []
  returns : List String := []
  /-- A function that never returns declares a custom error. -/
  neverReturns : Bool := false
  body : List Stmt := []

structure Import where
  path : String
  /-- The imported names; all of them when the list is empty. -/
  names : List String := []
  deriving DecidableEq

structure File where
  path : String
  imports : List Import := []
  classes : List ClassDecl := []
  interfaces : List InterfaceDecl := []
  enums : List EnumDecl := []
  functions : List FunctionDecl := []
  aliases : List AliasDecl := []
  comments : List String := []

/-! ## Questions about declarations -/

def ClassDecl.method? (c : ClassDecl) (name : String) : Option MethodDecl :=
  c.methods.find? (·.name == name)

def ClassDecl.bodied? (c : ClassDecl) (name : String) : Option MethodDecl :=
  c.methods.find? fun m => m.name == name && m.body.isSome

def ClassDecl.isLibrary (c : ClassDecl) : Bool :=
  !c.methods.isEmpty && c.methods.all (·.isStatic) && c.fields.all (·.storage == .constant) &&
    c.constructor.isNone

def ClassDecl.parents (c : ClassDecl) : List String :=
  (c.heritage.map Heritage.parents).getD []

def InterfaceDecl.isStruct (i : InterfaceDecl) : Bool :=
  i.methods.isEmpty

def InterfaceDecl.addMethod (i : InterfaceDecl) (m : MethodDecl) : InterfaceDecl :=
  { i with methods := i.methods ++ [{ m with body := none }] }

def FunctionDecl.error (name : String) (params : List Param) : FunctionDecl :=
  { name := name, params := params, neverReturns := true }

def File.deployable (f : File) : List String :=
  (f.classes.filter fun c => !c.isLibrary && !c.isAbstract).map (·.name)

def Expr.thisField (name : String) : Expr :=
  .member .this name

end ContractYul.Source
