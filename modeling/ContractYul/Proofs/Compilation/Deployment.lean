import ContractYul.Proofs.Compilation.Scoped

/-!
# Names in the creation part

What runs at deployment declares variables outside of functions: those of the arguments of a
constructor, and the temporaries of initial values. Each is declared once. The functions of the part
stand in the same block, and number their own temporaries from the start again.

Main statement: `creation_code_shadowing`, a variable of a function can only share its name with one
outside of functions if both are temporaries, and one of the fields has an initial value.
-/

open List

namespace ContractYul

open Outcome
open Source (ClassDecl ConstructorDecl)
open Yul (Stmt isOwn)
open Lowering (IsTemp)

/-! ## Arguments of constructors -/

namespace Dispatch

def argumentName (i : Nat) : String :=
  "ctorArg_" ++ toString i

theorem argumentName_injective (h : argumentName i = argumentName j) : i = j :=
  Lowering.toString_of_append_eq h

/-- Names of arguments, or of where they lie, look like no other names. -/
def IsArgument (x : String) : Prop :=
  x ∈ ["argSize", "argBase"] ∨ ∃ i, x = argumentName i

theorem IsArgument.not_isOwn (h : IsArgument x) : isOwn x = false := by
  rcases h with h | ⟨i, rfl⟩
  · have hplace : ∀ x ∈ ["argSize", "argBase"], isOwn x = false := by decide
    exact hplace x h
  · simp [isOwn, argumentName]

theorem IsArgument.not_isTemp (h : IsArgument x) : ¬ IsTemp 0 x := by
  refine Lowering.not_isTemp_of_head ?_
  rcases h with h | ⟨i, rfl⟩
  · have hplace : ∀ x ∈ ["argSize", "argBase"], x.toList.head? ≠ some '_' := by decide
    exact hplace x h
  · simp [argumentName]

structure Declares (code : List Stmt) (names : List String) : Prop where
  declared : Stmt.allDeclared code = names
  flat : Stmt.definitions code = []

theorem Declares.append (h : Declares code names) (h' : Declares more names') :
    Declares (code ++ more) (names ++ names') where
  declared := by rw [Stmt.allDeclared_append, h.declared, h'.declared]
  flat := by rw [Stmt.definitions_append, h.flat, h'.flat, nil_append]

theorem declares_readConstructorArgument :
    Declares (readConstructorArgument target name position form g).1 [name] := by
  cases form <;> exact ⟨rfl, rfl⟩

theorem declares_readConstructorArguments {i head : Nat}
    (h : readConstructorArguments target i head params g = .ok (code, g')) :
    Declares code ((range' i params.length).map argumentName) := by
  induction params generalizing i head g code with
  | nil =>
    cases h
    exact ⟨rfl, rfl⟩
  | cons p rest ih =>
    obtain ⟨form, -, h⟩ := bind_eq_ok.1 h
    obtain ⟨⟨more, g₂⟩, hmore, h⟩ := bind_eq_ok.1 h
    cases h
    exact declares_readConstructorArgument.append (ih hmore)

/-- Code that reads the arguments of a constructor declares a variable for each, and two for where
they lie. -/
theorem declares_constructorArguments
    (h : constructorArguments target object params g = .ok (code, args, g')) :
    ∃ names, Declares code names ∧ names.Nodup ∧ ∀ x ∈ names, IsArgument x := by
  unfold constructorArguments at h
  split at h
  · cases h
    exact ⟨[], ⟨rfl, rfl⟩, .nil, forall_mem_nil _⟩
  · obtain ⟨⟨reads, g₂⟩, hreads, h⟩ := bind_eq_ok.1 h
    cases h
    refine ⟨["argSize", "argBase"] ++ (range' 0 params.length).map argumentName,
      Declares.append ⟨rfl, rfl⟩ (declares_readConstructorArguments hreads),
      nodup_append.2 ⟨by decide, ?_, ?_⟩, forall_mem_append.2 ⟨fun x => .inl, ?_⟩⟩
    · exact Nodup.map (fun _ _ => argumentName_injective) nodup_range'
    · rintro x hx y hy rfl
      obtain ⟨i, -, rfl⟩ := mem_map.1 hy
      have hhead : ∀ x ∈ ["argSize", "argBase"], x.toList.head? ≠ some 'c' := by decide
      exact hhead _ hx (by simp [argumentName])
    · intro x hx
      obtain ⟨i, -, rfl⟩ := mem_map.1 hx
      exact .inr ⟨i, rfl⟩

end Dispatch

namespace Compilation

open Dispatch (Declares IsArgument)

variable {context : Lowering.Context}

/-! ## What runs at deployment -/

def SetsField (context : Lowering.Context) : Prop :=
  ∃ owner ∈ context.lineage.classes, ∃ field ∈ owner.fields,
    field.initializer ≠ none ∧ field.storage ≠ .constant

/-- Names that are declared at deployment are those of arguments, or temporaries of initial values. -/
structure Creation.Names (context : Lowering.Context) (c : Creation) : Prop where
  nodup : (Stmt.allDeclared c.code).Nodup
  named : ∀ x ∈ Stmt.allDeclared c.code, IsArgument x ∨ IsTemp 0 x ∧ SetsField context
  flat : Stmt.definitions c.code = []

theorem declares_readArguments
    (h : readArguments className params context p = .ok ((code, args), p')) :
    ∃ names, Declares code names ∧ names.Nodup ∧ ∀ x ∈ names, IsArgument x := by
  obtain ⟨⟨⟨code', args', g⟩, p₁⟩, hread, h⟩ := bind_eq_ok.1 h
  obtain ⟨heq, -⟩ := pair_inj h
  obtain ⟨rfl, -⟩ := Prod.mk.inj heq
  obtain ⟨-, -, hread⟩ := Lowering.Advances.unchanged _ _ hread
  exact Dispatch.declares_constructorArguments hread

theorem names_creation (h : creation context p = .ok (c, p')) : c.Names context := by
  obtain ⟨⟨params, p₁⟩, -, h⟩ := bind_eq_ok.1 h
  obtain ⟨⟨⟨reads, args⟩, p₂⟩, hreads, h⟩ := bind_eq_ok.1 h
  obtain ⟨⟨initial, p₃⟩, hinitial, h⟩ := bind_eq_ok.1 h
  obtain ⟨⟨definitions, p₄⟩, -, h⟩ := bind_eq_ok.1 h
  cases h
  obtain ⟨names, hnames, hnodup, hargument⟩ := declares_readArguments hreads
  obtain ⟨htemps, htemp, hstraight⟩ := Lowering.declared_initializers hinitial
  have hcheck : Declares (if context.lineage.effectiveConstructor?.any (·.2.payable) then []
      else [Dispatch.rejectValue]) [] := by
    split <;> exact ⟨rfl, rfl⟩
  have hinvoke : Declares (context.lineage.effectiveConstructor?.toList.map fun q =>
      Stmt.run (constructorName q.1.name) args) [] := by
    cases context.lineage.effectiveConstructor? <;> exact ⟨rfl, rfl⟩
  have hmemory : Declares [initMemory] [] := ⟨rfl, rfl⟩
  have hreturn : Declares (returnDeployed context.lineage.derived.name) [] := ⟨rfl, rfl⟩
  have hinitial' : Declares initial (Stmt.allDeclared initial) :=
    ⟨rfl, Stmt.definitions_of_allMention hstraight⟩
  have hcode := ((((hmemory.append hcheck).append hnames).append hinitial').append hinvoke).append
    hreturn
  simp only [append_nil] at hcode
  refine ⟨?_, ?_, hcode.flat⟩
  · rw [hcode.declared]
    refine nodup_append.2 ⟨hnodup, htemps, ?_⟩
    rintro x hx _ hx' rfl
    exact (hargument x hx).not_isTemp (htemp x hx')
  · rw [hcode.declared]
    refine forall_mem_append.2 ⟨fun x hx => .inl (hargument x hx), fun x hx => .inr ⟨htemp x hx, ?_⟩⟩
    by_contra hnone
    have hnil := Lowering.initializers_eq_nil hinitial fun c hc field hfield => by
      by_contra hset
      exact hnone ⟨c, hc, field, hfield, not_or.1 hset⟩
    rw [hnil] at hx
    cases hx

/-! ## The functions beside it -/

namespace Assembly.Valid

variable {a : Assembly}

theorem named_shared (h : a.Valid context) :
    ∀ f ∈ a.shared, ∀ x ∈ f.variables, isOwn x = true ∨ IsTemp 0 x := by
  refine forall_mem_append.2 ⟨fun f hf => (h.orderly_lowered f hf).named, fun f hf x hx => ?_⟩
  obtain ⟨e, he, rfl⟩ := mem_map.1 hf
  exact .inl (h.own e he x hx)

theorem definitions_creation (h : a.Valid context) (className : String) :
    Stmt.definitions (a.object className).creation = a.creation.definitions ++ a.shared := by
  obtain ⟨_, _, _, -, hcreation, -⟩ := h.ran
  rw [a.creation_eq, Stmt.definitions_append, Stmt.definitions_append,
    (names_creation hcreation).flat, Stmt.definitions_map_toStmt, Stmt.definitions_map_toStmt,
    nil_append]

theorem isTemp_of_shadowing (h : a.Valid context)
    (hf : f ∈ Stmt.definitions (a.object className).creation) (hx : x ∈ f.variables)
    (hshadow : x ∈ Stmt.allDeclared a.creation.code) : IsTemp 0 x ∧ SetsField context := by
  obtain ⟨_, _, _, -, hcreation, -⟩ := h.ran
  have hnames := names_creation hcreation
  have hnamed : isOwn x = true ∨ IsTemp 0 x := by
    rw [h.definitions_creation] at hf
    rcases mem_append.1 hf with hf | hf
    · exact (h.creation.definitions.orderly f hf).named x hx
    · exact h.named_shared f hf x hx
  rcases hnames.named x hshadow with hargument | htemp
  · rcases hnamed with hown | htemp
    · exact absurd hown (by simp [hargument.not_isOwn])
    · exact absurd htemp hargument.not_isTemp
  · exact htemp

theorem allDeclared_creation (a : Assembly) (className : String) :
    Stmt.allDeclared (a.object className).creation = Stmt.allDeclared a.creation.code := by
  have hnone : ∀ fs : List Yul.Function, Stmt.allDeclared (fs.map Yul.Function.toStmt) = [] :=
    fun fs => by
      rw [Stmt.allDeclared_map]
      exact flatMap_eq_nil_iff.2 fun _ _ => rfl
  rw [a.creation_eq, Stmt.allDeclared_append, Stmt.allDeclared_append, hnone, hnone,
    append_nil, append_nil]

end Assembly.Valid

/-- The creation part of a compiled class declares no name twice outside of functions. Where a
function has a variable under the name of one outside of functions, both are temporaries, so that
routines and classes without initial values are free of it. -/
theorem creation_code_shadowing {options : Options} {file : Source.File}
    {available : List Source.File} {className : String} {c : Compiled}
    (h : compile options file available className = .ok c) :
    (Stmt.allDeclared c.object.creation).Nodup ∧
      (∀ f ∈ Stmt.definitions c.object.creation, ∀ x ∈ f.variables,
        x ∈ Stmt.allBinds c.object.creation → IsTemp 0 x) ∧
      (∀ r f, Routine.definition? options.target r = some f → ∀ x ∈ f.variables,
        x ∉ Stmt.allBinds c.object.creation) ∧
      ∃ context, contextOf options file available className = .ok context ∧
        (Stmt.Unshadowed c.object.creation ∨ SetsField context) := by
  obtain ⟨context, hcontext, a, ha, hobject⟩ := exists_assembly h
  have hdeclared : Stmt.allDeclared c.object.creation = Stmt.allDeclared a.creation.code := by
    rw [hobject, Assembly.Valid.allDeclared_creation]
  have hshadow : ∀ f ∈ Stmt.definitions c.object.creation, ∀ x ∈ f.variables,
      x ∈ Stmt.allBinds c.object.creation → IsTemp 0 x ∧ SetsField context :=
    fun f hf x hx hbound => ha.isTemp_of_shadowing (hobject ▸ hf) hx
      (hdeclared ▸ Stmt.mem_allDeclared hbound)
  obtain ⟨_, _, _, -, hcreation, -⟩ := ha.ran
  have hnames := names_creation hcreation
  refine ⟨hdeclared ▸ hnames.nodup, fun f hf x hx hbound => (hshadow f hf x hx hbound).1, ?_,
    context, hcontext, ?_⟩
  · intro r f hf x hx hbound
    have hown := Routine.own_definition? hf x hx
    rcases hnames.named x (hdeclared ▸ Stmt.mem_allDeclared hbound) with hargument | ⟨htemp, -⟩
    · simp [hargument.not_isOwn] at hown
    · exact Lowering.not_isTemp_of_isOwn hown htemp
  · by_cases hsets : SetsField context
    · exact .inr hsets
    · exact .inl fun f hf x hx hbound => hsets (hshadow f hf x hx hbound).2

/-- A class with an initial value that needs temporaries, and methods. -/
def vault (constructor : Option ConstructorDecl) (methods : List Source.MethodDecl) :
    Source.File where
  path := "vault"
  classes := [
    { name := "Vault"
      fields := [
        { name := "open", ty := "bool" },
        { name := "rate", ty := "u256"
          initializer := some (.conditional (.member .this "open") (.number "1") (.number "2")) }]
      constructor, methods }]

/-- The rate goes up by the argument of the constructor and by that of a method. -/
def raised : Source.File :=
  let raise (amount : String) : Source.Stmt :=
    .expr (.assign .add (.member .this "rate") (.ident amount))
  vault (some { params := [⟨"by", "u256"⟩], body := [raise "by"] })
    [{ name := "raise", params := [⟨"more", "u256"⟩], body := some [raise "more"] }]

theorem creation_code_shadowing_raised :
    ∃ c, compile { emitAbi := false } raised [] "Vault" = .ok c ∧
      Stmt.allBinds c.object.creation = ["argSize", "argBase", "ctorArg_0", "__cond_1", "_2"] ∧
      (Stmt.allDeclared c.object.creation).Nodup ∧
      (∀ f ∈ Stmt.definitions c.object.creation, ∀ x ∈ f.variables,
        x ∈ Stmt.allBinds c.object.creation → IsTemp 0 x) := by
  obtain ⟨c, hc, hnames⟩ := exists_of_map_toOption
    (show (compile { emitAbi := false } raised [] "Vault").toOption.map
      (fun c => Stmt.allBinds c.object.creation) =
        some ["argSize", "argBase", "ctorArg_0", "__cond_1", "_2"] by decide +kernel)
  obtain ⟨hnodup, htemp, -⟩ := creation_code_shadowing hc
  exact ⟨c, hc, hnames, hnodup, htemp⟩

/-- A method that decides like the initial value. -/
def deciding : Source.File :=
  vault none [
    { name := "fee", returns := ["u256"]
      body := some [.ret (some
        (.conditional (.member .this "open") (.number "1") (.number "2")))] }]

/-- The method and the initial value have temporaries of the same names. -/
theorem not_unshadowed_deciding :
    ∃ c, compile { emitAbi := false } deciding [] "Vault" = .ok c ∧
      ¬ Stmt.Unshadowed c.object.creation := by
  obtain ⟨c, hc, hshadowed⟩ := exists_of_map_toOption
    (show (compile { emitAbi := false } deciding [] "Vault").toOption.map
      (fun c => decide (Stmt.Unshadowed c.object.creation)) = some false by decide +kernel)
  exact ⟨c, hc, of_decide_eq_false hshadowed⟩

end Compilation

end ContractYul
