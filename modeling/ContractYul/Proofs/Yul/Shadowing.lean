import ContractYul.Proofs.Yul.Scoping

/-!
# Shadowed variables

The functions of a piece of code stand in the block of its own variables. A function can not see
them, but it may not reuse their names either: code is `Unshadowed` when none of its functions does.

A name `isOwn` by its first letters: no temporary and no argument of a constructor looks like it.
-/

namespace ContractYul.Yul

open Stmt

def Function.variables (f : Function) : List String :=
  f.params ++ f.returns ++ allDeclared f.body

def Stmt.definitions : List Stmt → List Function
  | [] => []
  | .function name params returns body :: rest =>
    ⟨name, params, returns, body⟩ :: definitions rest
  | _ :: rest => definitions rest

/-- No function has a variable under the name of one that is declared outside of functions. -/
def Stmt.Unshadowed (code : List Stmt) : Prop :=
  ∀ f ∈ definitions code, ∀ x ∈ f.variables, x ∉ allBinds code

instance Stmt.decidableUnshadowed (code : List Stmt) : Decidable (Unshadowed code) :=
  inferInstanceAs (Decidable (∀ f ∈ definitions code, ∀ x ∈ f.variables, x ∉ allBinds code))

theorem Stmt.definitions_append (code more : List Stmt) :
    definitions (code ++ more) = definitions code ++ definitions more := by
  induction code with
  | nil => rfl
  | cons s rest ih => cases s <;> simp [definitions, ih]

theorem Stmt.definitions_map_toStmt (fs : List Function) :
    definitions (fs.map Function.toStmt) = fs := by
  induction fs with
  | nil => rfl
  | cons f rest ih =>
    rw [List.map_cons, Function.toStmt, definitions, ih]

theorem Stmt.definitions_of_allMention (h : AllMention P code) : definitions code = [] := by
  induction code with
  | nil => rfl
  | cons s rest ih =>
    obtain ⟨hs, hrest⟩ := h
    cases s with
    | function => cases hs
    | _ => exact ih hrest

/-! ## Names of their own -/

/-- A name that starts neither like a temporary nor like an argument of a constructor. -/
def isOwn (x : String) : Bool :=
  match x.toList with
  | '_' :: _ | 'a' :: 'r' :: _ | 'c' :: 't' :: _ => false
  | _ => true

/-- Other letters in front make a name of its own. -/
theorem isOwn_of_head (h : x.toList.head? = some c) (hc : c ∉ ['_', 'a', 'c']) :
    isOwn x = true := by
  unfold isOwn
  split
  case h_4 => rfl
  -- the letter in front is one of the three
  all_goals
    rename_i heq
    obtain rfl := Option.some.inj ((congrArg List.head? heq).symm.trans h)
    simp at hc

def Function.Own (f : Function) : Prop :=
  ∀ x ∈ f.variables, isOwn x = true

instance Function.decidableOwn (f : Function) : Decidable f.Own :=
  inferInstanceAs (Decidable (∀ x ∈ f.variables, isOwn x = true))

end ContractYul.Yul
