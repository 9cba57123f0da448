import ContractYul.Source.Basic
import ContractYul.Json.Reader

/-!
# Declaration trees as JSON

The JSON form of a declaration tree. A record is an object with its fields by name, an alternative
is an object whose only key names it, and an alternative without parts is its name as a string.
Writing puts down every field; reading fills in the defaults of missing ones and ignores keys that
no field has. Reading follows the value down to a fixed nesting.
-/

namespace ContractYul.Source

open Json (string? bool? list? strings? required? defaulted? optional? natBelow?)

def maxNesting : Nat := 128

/-! ## Writing -/

def tagged (tag : String) (parts : Json) : Json :=
  .object [(tag, parts)]

def taggedRecord (tag : String) (fields : List (String × Json)) : Json :=
  tagged tag (.object fields)

mutual

def Expr.toJson : Expr → Json
  | .number text => tagged "Number" (.string text)
  | .bool b => tagged "Bool" (.bool b)
  | .string s => tagged "Str" (.string s)
  | .hexBytes digits => tagged "HexBytes" (.string digits)
  | .ident name => tagged "Identifier" (.string name)
  | .this => .string "This"
  | .super => .string "Super"
  | .member object property =>
    taggedRecord "Member" [("object", object.toJson), ("property", .string property)]
  | .index object position =>
    taggedRecord "Index" [("object", object.toJson), ("index", position.toJson)]
  | .call callee args =>
    taggedRecord "Call" [("callee", callee.toJson), ("args", .array (exprsToJson args))]
  | .create className args value salt =>
    taggedRecord "New" [("class", .string className), ("args", .array (exprsToJson args)),
      ("value", optExprToJson value), ("salt", optExprToJson salt)]
  | .binary op left right =>
    taggedRecord "Binary" [("op", .string op.name), ("left", left.toJson), ("right", right.toJson)]
  | .unary op operand =>
    taggedRecord "Unary" [("op", .string op.name), ("operand", operand.toJson)]
  | .update op isPrefix target =>
    taggedRecord "Update"
      [("op", .string op.name), ("prefix", .bool isPrefix), ("target", target.toJson)]
  | .assign op target value =>
    taggedRecord "Assign"
      [("op", .string op.name), ("target", target.toJson), ("value", value.toJson)]
  | .conditional condition thenExpr elseExpr =>
    taggedRecord "Conditional" [("condition", condition.toJson), ("then_expr", thenExpr.toJson),
      ("else_expr", elseExpr.toJson)]
  | .tuple elems => tagged "Tuple" (.array (exprsToJson elems))
  | .array elems => tagged "ArrayLiteral" (.array (exprsToJson elems))
  | .record typeName fields =>
    taggedRecord "ObjectLiteral"
      [("type_name", Json.ofOption .string typeName), ("fields", .array (fieldsToJson fields))]
  | .cast e ty => taggedRecord "Cast" [("expr", e.toJson), ("ty", .string ty)]

def exprsToJson : List Expr → List Json
  | [] => []
  | e :: rest => e.toJson :: exprsToJson rest

def optExprToJson : Option Expr → Json
  | none => .null
  | some e => e.toJson

def fieldsToJson : List (String × Expr) → List Json
  | [] => []
  | (name, e) :: rest => .array [.string name, e.toJson] :: fieldsToJson rest

end

mutual

def Stmt.toJson : Stmt → Json
  | .varDecl names ty init =>
    taggedRecord "VarDecl" [("names", .strings names), ("ty", Json.ofOption .string ty),
      ("init", Json.ofOption Expr.toJson init)]
  | .expr e => tagged "Expression" e.toJson
  | .ifElse condition thenBranch elseBranch =>
    taggedRecord "If" [("condition", condition.toJson),
      ("then_branch", .array (stmtsToJson thenBranch)),
      ("else_branch", optStmtsToJson elseBranch)]
  | .whileLoop condition body =>
    taggedRecord "While" [("condition", condition.toJson), ("body", .array (stmtsToJson body))]
  | .doWhile body condition =>
    taggedRecord "DoWhile" [("body", .array (stmtsToJson body)), ("condition", condition.toJson)]
  | .forLoop init condition update body =>
    taggedRecord "For" [("init", optStmtToJson init),
      ("condition", Json.ofOption Expr.toJson condition),
      ("update", Json.ofOption Expr.toJson update), ("body", .array (stmtsToJson body))]
  | .breakLoop => .string "Break"
  | .continueLoop => .string "Continue"
  | .ret value => tagged "Return" (Json.ofOption Expr.toJson value)
  | .block body => tagged "Block" (.array (stmtsToJson body))
  | .unchecked body => tagged "Unchecked" (.array (stmtsToJson body))
  | .emit event args =>
    taggedRecord "Emit" [("event", .string event), ("args", .array (exprsToJson args))]
  | .throw e => tagged "Throw" e.toJson
  | .tryCatch body binding handler =>
    taggedRecord "Try" [("body", .array (stmtsToJson body)),
      ("catch_binding", Json.ofOption .string binding),
      ("catch_body", .array (stmtsToJson handler))]

def stmtsToJson : List Stmt → List Json
  | [] => []
  | s :: rest => s.toJson :: stmtsToJson rest

def optStmtToJson : Option Stmt → Json
  | none => .null
  | some s => s.toJson

def optStmtsToJson : Option (List Stmt) → Json
  | none => .null
  | some body => .array (stmtsToJson body)

end

def StorageClass.name : StorageClass → String
  | .persistent => "Persistent"
  | .transient => "Transient"
  | .immutable => "Immutable"
  | .constant => "Constant"

def Visibility.name : Visibility → String
  | .public => "Public"
  | .external => "External"
  | .internal => "Internal"
  | .private => "Private"

def Mutability.name : Mutability → String
  | .payable => "Payable"
  | .nonPayable => "NonPayable"
  | .view => "View"
  | .pure => "Pure"

def MethodKind.name : MethodKind → String
  | .normal => "Normal"
  | .fallback => "Fallback"
  | .receive => "Receive"

def Param.toJson (p : Param) : Json :=
  .object [("name", .string p.name), ("ty", .string p.ty)]

def FieldDecl.toJson (f : FieldDecl) : Json :=
  .object [("name", .string f.name), ("ty", .string f.ty), ("storage", .string f.storage.name),
    ("slot", Json.ofOption .nat f.slot), ("visibility", .string f.visibility.name),
    ("initializer", Json.ofOption Expr.toJson f.initializer)]

def MethodDecl.toJson (m : MethodDecl) : Json :=
  .object [("name", .string m.name), ("params", .array (m.params.map Param.toJson)),
    ("returns", .strings m.returns),
    ("body", Json.ofOption (fun b => .array (stmtsToJson b)) m.body),
    ("visibility", .string m.visibility.name), ("mutability", .string m.mutability.name),
    ("is_static", .bool m.isStatic), ("is_virtual", .bool m.isVirtual),
    ("is_override", .bool m.isOverride), ("kind", .string m.kind.name)]

def ConstructorDecl.toJson (c : ConstructorDecl) : Json :=
  .object [("params", .array (c.params.map Param.toJson)), ("body", .array (stmtsToJson c.body)),
    ("payable", .bool c.payable)]

def EventField.toJson (f : EventField) : Json :=
  .object [("name", .string f.name), ("ty", .string f.ty), ("indexed", .bool f.indexed)]

def EventDecl.toJson (e : EventDecl) : Json :=
  .object [("name", .string e.name), ("fields", .array (e.fields.map EventField.toJson)),
    ("anonymous", .bool e.anonymous)]

def Heritage.toJson : Heritage → Json
  | .extends parent => tagged "Extends" (.string parent)
  | .compose parents => tagged "Compose" (.strings parents)

def ClassDecl.toJson (c : ClassDecl) : Json :=
  .object [("name", .string c.name), ("heritage", Json.ofOption Heritage.toJson c.heritage),
    ("fields", .array (c.fields.map FieldDecl.toJson)),
    ("methods", .array (c.methods.map MethodDecl.toJson)),
    ("constructor", Json.ofOption ConstructorDecl.toJson c.constructor),
    ("events", .array (c.events.map EventDecl.toJson)), ("is_abstract", .bool c.isAbstract)]

def InterfaceDecl.toJson (i : InterfaceDecl) : Json :=
  .object [("name", .string i.name), ("fields", .array (i.fields.map Param.toJson)),
    ("methods", .array (i.methods.map MethodDecl.toJson))]

def EnumDecl.toJson (e : EnumDecl) : Json :=
  .object [("name", .string e.name), ("members", .strings e.members)]

def AliasDecl.toJson (a : AliasDecl) : Json :=
  .object [("name", .string a.name), ("underlying", .string a.underlying)]

def FunctionDecl.toJson (f : FunctionDecl) : Json :=
  .object [("name", .string f.name), ("params", .array (f.params.map Param.toJson)),
    ("returns", .strings f.returns), ("never_returns", .bool f.neverReturns),
    ("body", .array (stmtsToJson f.body))]

def Import.toJson (i : Import) : Json :=
  .object [("path", .string i.path), ("names", .strings i.names)]

def File.toJson (f : File) : Json :=
  .object [("path", .string f.path), ("imports", .array (f.imports.map Import.toJson)),
    ("classes", .array (f.classes.map ClassDecl.toJson)),
    ("interfaces", .array (f.interfaces.map InterfaceDecl.toJson)),
    ("enums", .array (f.enums.map EnumDecl.toJson)),
    ("functions", .array (f.functions.map FunctionDecl.toJson)),
    ("type_aliases", .array (f.aliases.map AliasDecl.toJson)), ("comments", .strings f.comments)]

/-! ## Reading -/

def alternative? : Json → Option (String × Option Json)
  | .string tag => some (tag, none)
  | .object [(tag, parts)] => some (tag, some parts)
  | _ => none

def named? {α : Type} (read : String → Option α) (j : Json) : Option α :=
  j.string? >>= read

def StorageClass.ofName? (s : String) : Option StorageClass :=
  [.persistent, .transient, .immutable, .constant].find? (·.name == s)

def Visibility.ofName? (s : String) : Option Visibility :=
  [.public, .external, .internal, .private].find? (·.name == s)

def Mutability.ofName? (s : String) : Option Mutability :=
  [.payable, .nonPayable, .view, .pure].find? (·.name == s)

def MethodKind.ofName? (s : String) : Option MethodKind :=
  [.normal, .fallback, .receive].find? (·.name == s)

def pair? {α : Type} (read : Json → Option α) : Json → Option (String × α)
  | .array [.string name, value] => (read value).map (name, ·)
  | _ => none

def Expr.ofJson? : (depth : Nat) → Json → Option Expr
  | 0, _ => none
  | depth + 1, j => do
    let expr? := Expr.ofJson? depth
    match ← alternative? j with
    | ("This", none) => some .this
    | ("Super", none) => some .super
    | (_, none) => none
    | (tag, some parts) =>
      match tag with
      | "Number" => parts.string?.map .number
      | "Bool" => parts.bool?.map .bool
      | "Str" => parts.string?.map .string
      | "HexBytes" => parts.string?.map .hexBytes
      | "Identifier" => parts.string?.map .ident
      | "Tuple" => (list? expr? parts).map .tuple
      | "ArrayLiteral" => (list? expr? parts).map .array
      | _ =>
        let fields ← parts.members?
        match tag with
        | "Member" =>
          return .member (← required? expr? fields "object") (← required? string? fields "property")
        | "Index" =>
          return .index (← required? expr? fields "object") (← required? expr? fields "index")
        | "Call" =>
          return .call (← required? expr? fields "callee") (← required? (list? expr?) fields "args")
        | "New" =>
          return .create (← required? string? fields "class")
            (← required? (list? expr?) fields "args") (← optional? expr? fields "value")
            (← optional? expr? fields "salt")
        | "Binary" =>
          return .binary (← required? (named? BinaryOp.ofName?) fields "op")
            (← required? expr? fields "left") (← required? expr? fields "right")
        | "Unary" =>
          return .unary (← required? (named? UnaryOp.ofName?) fields "op")
            (← required? expr? fields "operand")
        | "Update" =>
          return .update (← required? (named? UpdateOp.ofName?) fields "op")
            (← required? bool? fields "prefix") (← required? expr? fields "target")
        | "Assign" =>
          return .assign (← required? (named? AssignOp.ofName?) fields "op")
            (← required? expr? fields "target") (← required? expr? fields "value")
        | "Conditional" =>
          return .conditional (← required? expr? fields "condition")
            (← required? expr? fields "then_expr") (← required? expr? fields "else_expr")
        | "ObjectLiteral" =>
          return .record (← optional? string? fields "type_name")
            (← required? (list? (pair? expr?)) fields "fields")
        | "Cast" =>
          return .cast (← required? expr? fields "expr") (← required? string? fields "ty")
        | _ => none

def nullable? {α : Type} (read : Json → Option α) : Json → Option (Option α)
  | .null => some none
  | j => (read j).map some

def Stmt.ofJson? : (depth : Nat) → Json → Option Stmt
  | 0, _ => none
  | depth + 1, j => do
    let expr? := Expr.ofJson? depth
    let stmt? := Stmt.ofJson? depth
    let stmts? := list? stmt?
    match ← alternative? j with
    | ("Break", none) => some .breakLoop
    | ("Continue", none) => some .continueLoop
    | (_, none) => none
    | (tag, some parts) =>
      match tag with
      | "Expression" => (expr? parts).map .expr
      | "Return" => (nullable? expr? parts).map .ret
      | "Block" => (stmts? parts).map .block
      | "Unchecked" => (stmts? parts).map .unchecked
      | "Throw" => (expr? parts).map .throw
      | _ =>
        let fields ← parts.members?
        match tag with
        | "VarDecl" =>
          return .varDecl (← required? strings? fields "names") (← optional? string? fields "ty")
            (← optional? expr? fields "init")
        | "If" =>
          return .ifElse (← required? expr? fields "condition")
            (← required? stmts? fields "then_branch") (← optional? stmts? fields "else_branch")
        | "While" =>
          return .whileLoop (← required? expr? fields "condition") (← required? stmts? fields "body")
        | "DoWhile" =>
          return .doWhile (← required? stmts? fields "body") (← required? expr? fields "condition")
        | "For" =>
          return .forLoop (← optional? stmt? fields "init") (← optional? expr? fields "condition")
            (← optional? expr? fields "update") (← required? stmts? fields "body")
        | "Emit" =>
          return .emit (← required? string? fields "event")
            (← required? (list? expr?) fields "args")
        | "Try" =>
          return .tryCatch (← required? stmts? fields "body")
            (← optional? string? fields "catch_binding") (← required? stmts? fields "catch_body")
        | _ => none

def expr? : Json → Option Expr :=
  Expr.ofJson? maxNesting

def stmts? : Json → Option (List Stmt) :=
  list? (Stmt.ofJson? maxNesting)

def Param.ofJson? (j : Json) : Option Param := do
  let fields ← j.members?
  return { name := ← required? string? fields "name", ty := ← required? string? fields "ty" }

def FieldDecl.ofJson? (j : Json) : Option FieldDecl := do
  let fields ← j.members?
  return {
    name := ← required? string? fields "name"
    ty := ← required? string? fields "ty"
    storage := ← defaulted? (named? StorageClass.ofName?) .persistent fields "storage"
    slot := ← optional? (natBelow? (Nat.pow 2 128)) fields "slot"
    visibility := ← defaulted? (named? Visibility.ofName?) .private fields "visibility"
    initializer := ← optional? expr? fields "initializer" }

def MethodDecl.ofJson? (j : Json) : Option MethodDecl := do
  let fields ← j.members?
  return {
    name := ← required? string? fields "name"
    params := ← defaulted? (list? Param.ofJson?) [] fields "params"
    returns := ← defaulted? strings? [] fields "returns"
    body := ← optional? stmts? fields "body"
    visibility := ← defaulted? (named? Visibility.ofName?) .public fields "visibility"
    mutability := ← defaulted? (named? Mutability.ofName?) .nonPayable fields "mutability"
    isStatic := ← defaulted? bool? false fields "is_static"
    isVirtual := ← defaulted? bool? false fields "is_virtual"
    isOverride := ← defaulted? bool? false fields "is_override"
    kind := ← defaulted? (named? MethodKind.ofName?) .normal fields "kind" }

def ConstructorDecl.ofJson? (j : Json) : Option ConstructorDecl := do
  let fields ← j.members?
  return {
    params := ← defaulted? (list? Param.ofJson?) [] fields "params"
    body := ← defaulted? stmts? [] fields "body"
    payable := ← defaulted? bool? false fields "payable" }

def EventField.ofJson? (j : Json) : Option EventField := do
  let fields ← j.members?
  return {
    name := ← required? string? fields "name"
    ty := ← required? string? fields "ty"
    indexed := ← defaulted? bool? false fields "indexed" }

def EventDecl.ofJson? (j : Json) : Option EventDecl := do
  let fields ← j.members?
  return {
    name := ← required? string? fields "name"
    fields := ← required? (list? EventField.ofJson?) fields "fields"
    anonymous := ← defaulted? bool? false fields "anonymous" }

def Heritage.ofJson? : Json → Option Heritage
  | .object [("Extends", parent)] => parent.string?.map .extends
  | .object [("Compose", parents)] => (strings? parents).map .compose
  | _ => none

def ClassDecl.ofJson? (j : Json) : Option ClassDecl := do
  let fields ← j.members?
  return {
    name := ← required? string? fields "name"
    heritage := ← optional? Heritage.ofJson? fields "heritage"
    fields := ← defaulted? (list? FieldDecl.ofJson?) [] fields "fields"
    methods := ← defaulted? (list? MethodDecl.ofJson?) [] fields "methods"
    constructor := ← optional? ConstructorDecl.ofJson? fields "constructor"
    events := ← defaulted? (list? EventDecl.ofJson?) [] fields "events"
    isAbstract := ← defaulted? bool? false fields "is_abstract" }

def InterfaceDecl.ofJson? (j : Json) : Option InterfaceDecl := do
  let fields ← j.members?
  return {
    name := ← required? string? fields "name"
    fields := ← defaulted? (list? Param.ofJson?) [] fields "fields"
    methods := ← defaulted? (list? MethodDecl.ofJson?) [] fields "methods" }

def EnumDecl.ofJson? (j : Json) : Option EnumDecl := do
  let fields ← j.members?
  return {
    name := ← required? string? fields "name"
    members := ← required? strings? fields "members" }

def AliasDecl.ofJson? (j : Json) : Option AliasDecl := do
  let fields ← j.members?
  return {
    name := ← required? string? fields "name"
    underlying := ← required? string? fields "underlying" }

def FunctionDecl.ofJson? (j : Json) : Option FunctionDecl := do
  let fields ← j.members?
  return {
    name := ← required? string? fields "name"
    params := ← defaulted? (list? Param.ofJson?) [] fields "params"
    returns := ← defaulted? strings? [] fields "returns"
    neverReturns := ← defaulted? bool? false fields "never_returns"
    body := ← defaulted? stmts? [] fields "body" }

def Import.ofJson? (j : Json) : Option Import := do
  let fields ← j.members?
  return {
    path := ← required? string? fields "path"
    names := ← defaulted? strings? [] fields "names" }

def File.ofJson? (j : Json) : Option File := do
  let fields ← j.members?
  return {
    path := ← required? string? fields "path"
    imports := ← defaulted? (list? Import.ofJson?) [] fields "imports"
    classes := ← defaulted? (list? ClassDecl.ofJson?) [] fields "classes"
    interfaces := ← defaulted? (list? InterfaceDecl.ofJson?) [] fields "interfaces"
    enums := ← defaulted? (list? EnumDecl.ofJson?) [] fields "enums"
    functions := ← defaulted? (list? FunctionDecl.ofJson?) [] fields "functions"
    aliases := ← defaulted? (list? AliasDecl.ofJson?) [] fields "type_aliases"
    comments := ← defaulted? strings? [] fields "comments" }

end ContractYul.Source
