import ContractYul.Yul.Basic
import ContractYul.Text.Blank

/-!
# Printing target code

Statements are printed one per line, four blanks deeper in every block. The initial and post parts
of a loop stand on the line of the loop.
-/

namespace ContractYul.Yul

/-- A character inside a printed text literal: printable ASCII stands for itself, quotes and
backslashes are escaped, and every other character is written as its UTF-8 bytes. -/
def escapeChar (c : Char) : List Char :=
  if c = '"' then ['\\', '"']
  else if c = '\\' then ['\\', '\\']
  else if c = '\n' then ['\\', 'n']
  else if ' ' ≤ c ∧ c ≤ '~' then [c]
  else (Text.utf8 (String.singleton c)).flatMap fun b => ['\\', 'x'] ++ Text.hexByte b

def escape (s : String) : String :=
  String.ofList (s.toList.flatMap escapeChar)

def quote (s : String) : String :=
  "\"" ++ escape s ++ "\""

def Literal.render : Literal → String
  | .number text => text
  | .string s => quote s

mutual

def Expr.render : Expr → String
  | .literal value => value.render
  | .ident name => name
  | .call name args => name ++ "(" ++ String.intercalate ", " (renderAll args) ++ ")"

def renderAll : List Expr → List String
  | [] => []
  | e :: rest => e.render :: renderAll rest

end

def indent (depth : Nat) : String :=
  String.ofList (List.replicate (4 * depth) ' ')

/-- A block whose statements are already printed, its closing brace at a depth. -/
def braced (depth : Nat) (lines : String) : String :=
  if lines.isEmpty then "\x7b \x7d\n" else "\x7b\n" ++ lines ++ indent depth ++ "\x7d\n"

/-- A part of a loop on one line, its statements already printed. -/
def region (statements : List String) : String :=
  if statements.isEmpty then "\x7b \x7d"
  else "\x7b " ++ String.intercalate " " (statements.map Text.trimEndString) ++ " \x7d"

def header (name : String) (params returns : List String) : String :=
  "function " ++ name ++ "(" ++ String.intercalate ", " params ++ ")" ++
    (if returns.isEmpty then "" else " -> " ++ String.intercalate ", " returns) ++ " "

mutual

/-- The printed form of a statement at a depth, line break included. -/
def Stmt.render (depth : Nat) : Stmt → String
  | .block body => indent depth ++ braced depth (renderBlock (depth + 1) body)
  | .declare names value =>
    indent depth ++ "let " ++ String.intercalate ", " names ++
      (match value with
        | some e => " := " ++ e.render
        | none => "") ++ "\n"
  | .assign names value =>
    indent depth ++ String.intercalate ", " names ++ " := " ++ value.render ++ "\n"
  | .eval e => indent depth ++ e.render ++ "\n"
  | .ifThen condition body =>
    indent depth ++ "if " ++ condition.render ++ " " ++
      braced depth (renderBlock (depth + 1) body)
  | .switch e cases otherwise =>
    indent depth ++ "switch " ++ e.render ++ "\n" ++ renderCases depth cases ++
      (match otherwise with
        | some body => indent depth ++ "default " ++ braced depth (renderBlock (depth + 1) body)
        | none => "")
  | .loop init condition post body =>
    indent depth ++ "for " ++ region (renderEach init) ++ " " ++ condition.render ++ " " ++
      region (renderEach post) ++ " " ++ braced depth (renderBlock (depth + 1) body)
  | .break => indent depth ++ "break\n"
  | .continue => indent depth ++ "continue\n"
  | .leave => indent depth ++ "leave\n"
  | .function name params returns body =>
    indent depth ++ header name params returns ++ braced depth (renderBlock (depth + 1) body)
  | .raw text => indent depth ++ text ++ "\n"
  | .comment text => indent depth ++ "// " ++ text ++ "\n"

def renderBlock (depth : Nat) : List Stmt → String
  | [] => ""
  | s :: rest => s.render depth ++ renderBlock depth rest

def renderEach : List Stmt → List String
  | [] => []
  | s :: rest => s.render 0 :: renderEach rest

def renderCases (depth : Nat) : List (Literal × List Stmt) → String
  | [] => ""
  | (value, body) :: rest =>
    indent depth ++ "case " ++ value.render ++ " " ++
      braced depth (renderBlock (depth + 1) body) ++ renderCases depth rest

end

end ContractYul.Yul
