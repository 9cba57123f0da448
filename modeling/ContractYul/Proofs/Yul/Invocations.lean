import ContractYul.Proofs.Yul.Calls

/-!
# Calls with their arguments

The calls of a piece of code with the expressions that they are given, read off its text, and the
expressions that its variables are declared with.
-/

namespace ContractYul.Yul

open Stmt

/-- A call of an instruction or a function with its arguments. -/
structure Invocation where
  name : String
  args : List Expr

/-! ## Calls of a text -/

mutual

@[simp]
def Expr.invocations : Expr → List Invocation
  | .literal _ => []
  | .ident _ => []
  | .call name args => ⟨name, args⟩ :: Expr.allInvocations args

@[simp]
def Expr.allInvocations : List Expr → List Invocation
  | [] => []
  | e :: rest => e.invocations ++ Expr.allInvocations rest

end

mutual

/-- The calls of a statement. A text that is taken as it is counts as a call of itself. -/
@[simp]
def Stmt.invocations : Stmt → List Invocation
  | .block body => allInvocations body
  | .declare _ none => []
  | .declare _ (some e) => e.invocations
  | .assign _ e => e.invocations
  | .eval e => e.invocations
  | .ifThen condition body => condition.invocations ++ allInvocations body
  | .switch e cases none => e.invocations ++ casesInvocations cases
  | .switch e cases (some body) =>
    e.invocations ++ casesInvocations cases ++ allInvocations body
  | .loop init condition post body =>
    allInvocations init ++ condition.invocations ++ allInvocations post ++
      allInvocations body
  | .function _ _ _ body => allInvocations body
  | .raw text => [⟨text, []⟩]
  | .break | .continue | .leave | .comment _ => []

@[simp]
def Stmt.allInvocations : List Stmt → List Invocation
  | [] => []
  | s :: rest => s.invocations ++ allInvocations rest

@[simp]
def Stmt.casesInvocations : List (Literal × List Stmt) → List Invocation
  | [] => []
  | (_, body) :: rest => allInvocations body ++ casesInvocations rest

end

/-! ## Variables of a text -/

mutual

/-- The variables that a statement declares with a value of their own, wherever in it the declaration
stands. -/
@[simp]
def Stmt.bindings : Stmt → List (String × Expr)
  | .declare [x] (some e) => [(x, e)]
  | .block body | .ifThen _ body | .function _ _ _ body => allBindings body
  | .switch _ cases none => casesBindings cases
  | .switch _ cases (some body) => casesBindings cases ++ allBindings body
  | .loop init _ post body => allBindings init ++ allBindings post ++ allBindings body
  | .declare _ _ | .assign _ _ | .eval _ | .break | .continue | .leave | .raw _ | .comment _ => []

@[simp]
def Stmt.allBindings : List Stmt → List (String × Expr)
  | [] => []
  | s :: rest => s.bindings ++ allBindings rest

@[simp]
def Stmt.casesBindings : List (Literal × List Stmt) → List (String × Expr)
  | [] => []
  | (_, body) :: rest => allBindings body ++ casesBindings rest

end

@[simp]
theorem Stmt.allBindings_append (code more : List Stmt) :
    allBindings (code ++ more) = allBindings code ++ allBindings more := by
  induction code with
  | nil => simp
  | cons s code ih => simp [ih]

@[simp]
theorem Stmt.bindings_letOne (x : String) (e : Expr) : (letOne x e).bindings = [(x, e)] := by
  rw [letOne, bindings]

/-! ## Instructions that leave storage alone -/

def storageInstructions : List String :=
  ["sload", "tload", "sstore", "tstore"]

/-- The name of an instruction that leaves storage alone; the names of routines have underscores. -/
abbrev IsCalm (name : String) : Prop :=
  name ∉ storageInstructions ∧ '_' ∉ name.toList

end ContractYul.Yul
