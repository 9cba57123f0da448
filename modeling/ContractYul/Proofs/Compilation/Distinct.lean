import ContractYul.Proofs.Compilation.Closed

/-!
# Distinct names of functions

Which functions the deployed part of a compiled class defines, and when no two of them have the same
name.

Methods are named by their own name, overridden bodies and library methods by the name of their class
and their own with an underscore between. Nothing keeps a method from being called like a class with
a method of it, and a field of one class from being called like a field of another. These are the only
ways in which a name is given twice: free functions and routines are told apart from each other and
from everything else.
-/

open List

namespace ContractYul

open Routine

open Source (ClassDecl MethodDecl FieldDecl)
open Yul (Stmt Call)

namespace Compilation

open Lowering

variable {context : Lowering.Context} {a : Assembly}

/-! ## Names of a compiled class -/

def libraryRequest? : Request → Option String
  | .library owner method => some (owner ++ "_" ++ method)
  | .free _ => none

def freeRequest? : Request → Option String
  | .library _ _ => none
  | .free name => some name

/-- Bodies that are named with their class: those of overridden methods, and the library methods
that are asked for. -/
def qualifiedNames (l : Lineage) (requests : List Request) : List String :=
  l.renamedMethods.map (fun q => q.1.name ++ "_" ++ q.2.1.name) ++ requests.filterMap libraryRequest?

def getterFields (context : Lowering.Context) : List FieldDecl :=
  if context.options.publicGetters then
    context.lineage.classes.flatMap fun c => c.fields.filter fun f =>
      (getterSignature? context f).isSome
  else []

theorem map_name_finalSignatures (l : Lineage) :
    (finalSignatures l).map (·.name) = l.methodNames.map functionName := by
  rw [← l.map_name_finalMethods, finalSignatures, map_map, map_map]
  rfl

theorem map_name_renamedSignatures (l : Lineage) : (renamedSignatures l).map (·.name) =
    (l.renamedMethods.map fun q => q.1.name ++ "_" ++ q.2.1.name).map functionName := by
  rw [renamedSignatures, map_map, map_map]
  refine map_congr_left fun q hq => ?_
  obtain ⟨c, -, hq⟩ := mem_flatMap.1 hq
  obtain ⟨m, -, rfl⟩ := mem_map.1 hq
  exact renamedName_eq c.name m.name

theorem map_name_getterSignatures (context : Lowering.Context) :
    (getterSignatures context).map (·.name) =
      ((getterFields context).map (·.name)).map getterName := by
  have hfields : ∀ fields : List FieldDecl,
      (fields.filterMap (getterSignature? context)).map (·.name) =
        (fields.filter fun f => (getterSignature? context f).isSome).map (getterName ·.name) := by
    intro fields
    induction fields with
    | nil => rfl
    | cons f fields ih =>
      cases hf : getterSignature? context f with
      | none => simp [hf, ih]
      | some c => simp [hf, ih, name_of_getterSignature? hf]
  unfold getterSignatures getterFields
  split
  · rw [map_flatMap, map_map, map_flatMap]
    exact flatMap_congr fun c _ => hfields c.fields
  · rfl

theorem perm_map_irName (requests : List Request) : (requests.map Request.irName).Perm
    ((requests.filterMap libraryRequest?).map functionName ++
      (requests.filterMap freeRequest?).map freeFunctionName) := by
  induction requests with
  | nil => rfl
  | cons r requests ih =>
    cases r with
    | library owner method =>
      simpa [filterMap_cons, libraryRequest?, freeRequest?, Request.irName,
        libraryFunctionName_eq] using ih
    | free name =>
      have hfront := (ih.cons (freeFunctionName name)).trans perm_middle.symm
      simpa [filterMap_cons, libraryRequest?, freeRequest?, Request.irName] using hfront

theorem name_of_serves (hkeyed : context.catalog.Keyed) (h : Serves context p r f) :
    f.name = r.irName := by
  cases r with
  | library owner name =>
    obtain ⟨m, hm, hsignature⟩ := h.1
    refine (congrArg Call.name hsignature).trans ?_
    exact congrArg (libraryFunctionName owner) (Lowering.Lowers.name_of_libraryMethod hm)
  | free name =>
    obtain ⟨f', hf', hsignature⟩ := h.1
    refine (congrArg Call.name hsignature).trans ?_
    exact congrArg freeFunctionName (Catalog.name_of_freeFunction? hkeyed hf')

namespace Assembly.Valid

variable (h : a.Valid context)

include h

theorem map_name_served (hkeyed : context.catalog.Keyed) :
    a.served.map (·.name) = a.requests.map Request.irName := by
  have hserved := h.served
  generalize a.requests = requests at hserved
  generalize a.served = served at hserved
  induction hserved with
  | nil => rfl
  | cons hf _ ih => rw [map_cons, map_cons, ih, name_of_serves hkeyed hf]

theorem map_name_routines : a.progress.registry.definitions.map (·.name) =
    (a.progress.registry.entries.map (·.1)).map name := by
  rw [Registry.definitions, map_map, map_map]
  refine map_congr_left fun e he => ?_
  exact (congrArg Call.name (h.closed e he).1).trans (name_signature e.1)

theorem deployedFunctions_eq (hkeyed : context.catalog.Keyed) (className : String) :
    (a.object className).deployedFunctions =
      context.lineage.methodNames.map functionName ++
        (context.lineage.renamedMethods.map fun q => q.1.name ++ "_" ++ q.2.1.name).map
          functionName ++
        ((getterFields context).map (·.name)).map getterName ++ a.requests.map Request.irName ++
        (a.progress.registry.entries.map (·.1)).map name := by
  have hexposed : a.exposed.definitions.map (·.name) =
      (exposedSignatures context).map (·.name) := by
    rw [← h.exposed.definitions.1, map_map]
    rfl
  show Stmt.definedNames (a.object className).deployed = _
  rw [a.deployed_eq, Stmt.definedNames_append, Stmt.definedNames_append, h.flat,
    Stmt.definedNames_map_toStmt, Assembly.shared, map_append, map_append, hexposed,
    h.map_name_served hkeyed, h.map_name_routines, exposedSignatures, map_append,
    map_append, map_name_finalSignatures, map_name_renamedSignatures,
    map_name_getterSignatures]
  rfl

end Assembly.Valid

/-! ## Distinct names -/

theorem nodup_append_of_stem {names names' : List String} (hnames : ∀ x ∈ names, stem x = s)
    (hnames' : ∀ x ∈ names', stem x ≠ s) :
    (names ++ names').Nodup ↔ names.Nodup ∧ names'.Nodup := by
  rw [nodup_append]
  refine ⟨fun h => ⟨h.1, h.2.1⟩, fun h => ⟨h.1, h.2, ?_⟩⟩
  rintro x hx y hy rfl
  exact hnames' x hy (hnames x hx)

theorem nodup_freeRequests {requests : List Request} (h : requests.Nodup) :
    ((requests.filterMap freeRequest?).map freeFunctionName).Nodup := by
  refine Nodup.map freeFunctionName_injective (h.filterMap ?_)
  intro r r' name hr hr'
  cases r <;> cases r' <;> simp_all [freeRequest?]

/-- Names by all schemes are distinct just when those of methods are, and those of getters. -/
theorem nodup_schemes_iff {methods fields : List String} {requests : List Request}
    {routines : List Routine} (hrequests : requests.Nodup) (hroutines : routines.Nodup) :
    (methods.map functionName ++ fields.map getterName ++ requests.map Request.irName ++
        routines.map name).Nodup ↔
      (methods ++ requests.filterMap libraryRequest?).Nodup ∧ fields.Nodup := by
  -- library methods go to the methods, then each scheme is apart from those after it
  have hperm : (methods.map functionName ++ fields.map getterName ++ requests.map Request.irName ++
      routines.map name).Perm ((methods ++ requests.filterMap libraryRequest?).map
        functionName ++ (fields.map getterName ++ ((requests.filterMap freeRequest?).map
          freeFunctionName ++ routines.map name))) := by
    rw [map_append]
    simp only [append_assoc]
    refine Perm.append_left _ ?_
    have hsplit := (perm_map_irName requests).append_right (routines.map name)
    refine (Perm.append_left _ hsplit).trans ?_
    simp only [append_assoc]
    exact perm_append_comm_assoc _ _ _
  have hroutine : ∀ x ∈ routines.map name, stem x ∉ ownStems := by
    intro x hx
    obtain ⟨r, -, rfl⟩ := mem_map.1 hx
    exact stem_routine r
  have hfree : ∀ x ∈ (requests.filterMap freeRequest?).map freeFunctionName,
      stem x = ['f', 'r', 'e'] := by
    intro x hx
    obtain ⟨name, -, rfl⟩ := mem_map.1 hx
    exact stem_freeFunctionName name
  have hgetter : ∀ x ∈ fields.map getterName, stem x = ['g', 'e', 't'] := by
    intro x hx
    obtain ⟨name, -, rfl⟩ := mem_map.1 hx
    exact stem_getterName name
  have hmethod : ∀ x ∈ (methods ++ requests.filterMap libraryRequest?).map functionName,
      stem x = ['f', 'u', 'n'] := by
    intro x hx
    obtain ⟨name, -, rfl⟩ := mem_map.1 hx
    exact stem_functionName name
  rw [hperm.nodup_iff, nodup_append_of_stem hmethod, nodup_append_of_stem hgetter,
    nodup_append_of_stem hfree, nodup_map_iff functionName_injective,
    nodup_map_iff getterName_injective, nodup_map_iff name_injective]
  · simp only [nodup_freeRequests hrequests, hroutines, and_true]
  · intro x hx heq
    exact hroutine x hx (by simp [heq, ownStems])
  · intro x hx heq
    rcases mem_append.1 hx with hx | hx
    · simp [hfree x hx] at heq
    · exact hroutine x hx (by simp [heq, ownStems])
  · intro x hx heq
    rcases mem_append.1 hx with hx | hx
    · simp [hgetter x hx] at heq
    · rcases mem_append.1 hx with hx | hx
      · simp [hfree x hx] at heq
      · exact hroutine x hx (by simp [heq, ownStems])

/-- The functions at the top level of a deployed part are those of methods, overridden bodies,
getters, requested functions and routines. Their names are distinct just when methods are not named
like bodies with their class, nor such bodies like each other, and fields with getters have distinct
names. -/
theorem deployed_names_nodup_iff {options : Options} {file : Source.File}
    {available : List Source.File} {className : String} {c : Compiled}
    (h : compile options file available className = .ok c) :
    ∃ (context : Lowering.Context) (requests : List Request) (routines : List Routine),
      contextOf options file available className = .ok context ∧ requests.Nodup ∧ routines.Nodup ∧
      c.object.deployedFunctions =
        context.lineage.methodNames.map functionName ++
          (context.lineage.renamedMethods.map fun q => renamedName q.1.name q.2.1.name) ++
          (getterFields context).map (fun f => getterName f.name) ++
          requests.map Request.irName ++ routines.map Routine.name ∧
      (c.object.deployedFunctions.Nodup ↔
        (context.lineage.methodNames ++ qualifiedNames context.lineage requests).Nodup ∧
          ((getterFields context).map (·.name)).Nodup) := by
  obtain ⟨context, hcontext, a, ha, hobject⟩ := exists_assembly h
  have hfunctions := ha.deployedFunctions_eq (keyed_contextOf hcontext) className
  refine ⟨context, a.requests, a.progress.registry.entries.map (·.1), hcontext, ha.nodup,
    ha.ordered.nodup, ?_, ?_⟩
  · have hrenamed : (context.lineage.renamedMethods.map fun q => q.1.name ++ "_" ++ q.2.1.name).map
        functionName = context.lineage.renamedMethods.map fun q =>
          renamedName q.1.name q.2.1.name := by
      rw [List.map_map]
      exact List.map_congr_left fun q _ => (renamedName_eq q.1.name q.2.1.name).symm
    rw [hobject, hfunctions, hrenamed, List.map_map]
    rfl
  · rw [hobject, hfunctions, ← List.map_append, nodup_schemes_iff ha.nodup ha.ordered.nodup,
      qualifiedNames, List.append_assoc]

/-- A class that overrides a method of its parent and calls its body, and that has a method whose name
is that of the parent and the method. -/
def shadowed (name : String) : Source.File where
  path := "shadowed"
  classes := [
    { name := "A"
      methods := [
        { name := "m", returns := ["u256"], visibility := .private
          body := some [.ret (some (.number "1"))] }] },
    { name := "B"
      heritage := some (.extends "A")
      methods := [
        { name := "m", returns := ["u256"], visibility := .private
          body := some [.ret (some (.call (.member .super "m") []))] },
        { name, returns := ["u256"], visibility := .private
          body := some [.ret (some (.number "3"))] }] }]

theorem deployed_names_nodup_shadowed :
    ∃ c, compile { emitAbi := false } (shadowed "n") [] "B" = .ok c ∧
      c.object.deployedFunctions = ["fun_m", "fun_n", "fun_A_m"] ∧
      ∃ (context : Lowering.Context) (requests : List Request) (routines : List Routine),
        contextOf { emitAbi := false } (shadowed "n") [] "B" = .ok context ∧ requests.Nodup ∧
        routines.Nodup ∧
        c.object.deployedFunctions =
          context.lineage.methodNames.map functionName ++
            (context.lineage.renamedMethods.map fun q => renamedName q.1.name q.2.1.name) ++
            (getterFields context).map (fun f => getterName f.name) ++
            requests.map Request.irName ++ routines.map Routine.name ∧
        (c.object.deployedFunctions.Nodup ↔
          (context.lineage.methodNames ++ qualifiedNames context.lineage requests).Nodup ∧
            ((getterFields context).map (·.name)).Nodup) := by
  obtain ⟨c, hc, hfunctions⟩ := Outcome.exists_of_map_toOption
    (show (compile { emitAbi := false } (shadowed "n") [] "B").toOption.map
      (·.object.deployedFunctions) = some ["fun_m", "fun_n", "fun_A_m"] by decide +kernel)
  exact ⟨c, hc, hfunctions, deployed_names_nodup_iff hc⟩

/-- The body of the parent's method and the method named after it are two functions of one name. -/
theorem deployed_names_clash : ∃ c, compile { emitAbi := false } (shadowed "A_m") [] "B" = .ok c ∧
    c.object.deployedFunctions = ["fun_m", "fun_A_m", "fun_A_m"] ∧
    ¬ c.object.deployedFunctions.Nodup := by
  obtain ⟨c, hc, hfunctions⟩ := Outcome.exists_of_map_toOption
    (show (compile { emitAbi := false } (shadowed "A_m") [] "B").toOption.map
      (·.object.deployedFunctions) = some ["fun_m", "fun_A_m", "fun_A_m"] by decide +kernel)
  refine ⟨c, hc, hfunctions, ?_⟩
  rw [hfunctions]
  decide

end Compilation

end ContractYul
