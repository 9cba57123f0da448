import ContractYul.Proofs.Compilation.Parts
import ContractYul.Proofs.Lineage.Ancestry
import ContractYul.Proofs.Lineage.Methods

/-!
# Compiled code is closed

Every function that the code of a compiled class calls is an instruction or is defined in the same
part of the object, and the deployed part calls no constructor.

A call is of something that was there when the code was lowered. Each such thing is among the
definitions of the object in the end: a method of the contract under its plain name, an overridden
body under the name with its class, a library method or free function because every request is
served, and a routine because putting it to use defines it.

Main statements: `compiled_parts_closed`; `requests_lowered_once`, the requests are served in as many
steps as there are.
-/

open List

namespace ContractYul

open Source (ClassDecl MethodDecl ConstructorDecl)
open Yul (Call Stmt instructionNames)

/-- Every call in code is of an instruction or of a function defined at its top level. -/
def Yul.Stmt.IsClosed (code : List Stmt) : Prop :=
  ∀ c ∈ Stmt.allCalls code, c.name ∈ instructionNames ∨ c.name ∈ Stmt.definedNames code

namespace Lineage

variable {l : Lineage}

/-- The method of a kind that calls are led to: the last one that is lowered. -/
def entry? (l : Lineage) (kind : Source.MethodKind) : Option (ClassDecl × MethodDecl) :=
  (l.finalMethods.filter (·.2.kind == kind)).getLast?

def specials (l : Lineage) : List (ClassDecl × MethodDecl) :=
  (l.entry? .receive).toList ++ (l.entry? .fallback).toList

theorem mem_final_of_special (h : q ∈ l.specials) : q ∈ l.finalMethods := by
  rcases mem_append.1 h with h | h
  · exact mem_of_mem_filter (mem_of_getLast? (Option.mem_toList.1 h))
  · exact mem_of_mem_filter (mem_of_getLast? (Option.mem_toList.1 h))

end Lineage

namespace Compilation

open Lineage Lowering Outcome
open Lowering.Advances (methodSignature constructorSignature)

/-! ## What a class is compiled for -/

section

theorem settled_of_contextOf (h : contextOf options file available className = .ok context) :
    Catalog.ofFile file available = .ok context.catalog ∧
      context.catalog.class? className = some context.lineage.derived ∧
      Lineage.ofClass context.catalog.class? context.catalog.classes.size
        context.lineage.derived = .ok context.lineage := by
  obtain ⟨catalog, hcatalog, h⟩ := bind_eq_ok.1 h
  split at h
  · cases h
  · rename_i cls hcls
    obtain ⟨lineage, hlineage, h⟩ := bind_eq_ok.1 h
    obtain ⟨layout, -, h⟩ := bind_eq_ok.1 h
    cases h
    obtain ⟨-, hderived, -⟩ := Lineage.ofClassWithin_eq_ok.1 hlineage
    exact ⟨hcatalog, hderived ▸ hcls, hderived ▸ hlineage⟩

theorem topological_of_contextOf (h : contextOf options file available className = .ok context) :
    Lineage.Topological context.catalog.class? context.catalog.classes.keys.length
      context.lineage.derived context.lineage := by
  obtain ⟨hcatalog, hclass, hlineage⟩ := settled_of_contextOf h
  have hfinds := Lineage.finds_ofFile hcatalog
  have hsize : context.catalog.classes.size = context.catalog.classes.keys.length := by
    simp [OrderedMap.size, OrderedMap.keys]
  rw [hsize] at hlineage
  exact Lineage.topological_ofClass hfinds (hfinds.named hclass ▸ hclass) hlineage

theorem keyed_contextOf (h : contextOf options file available className = .ok context) :
    context.catalog.Keyed :=
  Catalog.keyed_ofFile (settled_of_contextOf h).1

end

variable {context : Lowering.Context} {l : Lineage} {a : Assembly} {e : Exposed} {c : Call}

/-- Entries without a selector call the methods that they come from. -/
theorem Exposed.LeadsTo.map_irName (he : e.LeadsTo l.finalMethods) :
    (e.receive.toList ++ e.fallback.toList).map (·.irName) =
      l.specials.map fun q => functionName q.2.name := by
  rw [he.receive, he.fallback]
  simp [specials, entry?, Option.toList_map, Function.comp_def]

/-! ## Where calls come from -/

/-- How a call comes about: it is of an instruction, or has the numbers of one of some functions, or
those of the declaration that a method is found as; or it leads to an entry without a selector. -/
inductive Answered (l : Lineage) (specials : List (ClassDecl × MethodDecl))
    (fs : List Yul.Function) : Call → Prop
  | instruction {k : Call} (h : k ∈ Yul.instructions) : Answered l specials fs k
  | defined {f : Yul.Function} (hf : f ∈ fs) : Answered l specials fs f.signature
  | method {name : String} {owner : ClassDecl} {called : MethodDecl}
    (h : l.method? name = some (owner, called)) :
    Answered l specials fs (methodSignature (functionName name) called)
  | special {q : ClassDecl × MethodDecl} (hq : q ∈ specials) :
    Answered l specials fs ⟨functionName q.2.name, 0, 0⟩

theorem Answered.mono {specials : List (ClassDecl × MethodDecl)} (hfs : ∀ f ∈ fs, f ∈ fs')
    (h : Answered l specials fs k) : Answered l specials fs' k := by
  cases h with
  | instruction h => exact .instruction h
  | defined hf => exact .defined (hfs _ hf)
  | method h => exact .method h
  | special hq => exact .special hq

theorem Answered.of_exists {specials : List (ClassDecl × MethodDecl)}
    (h : ∃ f ∈ fs, f.signature = k) : Answered l specials fs k := by
  obtain ⟨f, hf, rfl⟩ := h
  exact .defined hf

instance (l : Lineage) (specials : List (ClassDecl × MethodDecl)) (fs : List Yul.Function) :
    Yul.Instructed (Answered l specials fs) where
  instruction _ h := .instruction h

/-- A part of an object: its functions, among them the methods under their plain names, and calls
that come about from declarations. -/
structure Region (l : Lineage) (specials : List (ClassDecl × MethodDecl)) (fs : List Yul.Function)
    (code : List Stmt) : Prop where
  defines : ∀ f ∈ fs, f.toStmt ∈ code
  answered : Stmt.AllLinked (Answered l specials fs) code
  final : ∀ q ∈ l.finalMethods, methodSignature (functionName q.2.name) q.2 ∈ fs.map (·.signature)
  special : ∀ q ∈ specials, q ∈ l.finalMethods

theorem Region.isClosed {specials : List (ClassDecl × MethodDecl)} (h : Region l specials fs code) :
    Stmt.IsClosed code := by
  have hdefined : ∀ f ∈ fs, f.name ∈ Stmt.definedNames code := fun f hf =>
    Stmt.mem_definedNames (h.defines f hf)
  have hfinal : ∀ q ∈ l.finalMethods, functionName q.2.name ∈ Stmt.definedNames code := by
    intro q hq
    obtain ⟨f, hf, hsignature⟩ := mem_map.1 (h.final q hq)
    have hname : f.name = functionName q.2.name := congrArg Call.name hsignature
    exact hname ▸ hdefined f hf
  intro k hk
  cases (Stmt.allLinked_iff _).1 h.answered k hk with
  | instruction h => exact .inl (mem_map_of_mem h)
  | defined hf => exact .inr (hdefined _ hf)
  | method hmethod =>
    obtain ⟨q, hq, rfl⟩ := exists_final_of_owner? (owner?_of_method? hmethod)
    exact .inr (hfinal q hq)
  | special hq => exact .inr (hfinal _ (h.special _ hq))

theorem allLinked_definitions {fs : List Yul.Function} :
    Stmt.AllLinked C (fs.map Yul.Function.toStmt) ↔ ∀ f ∈ fs, Stmt.AllLinked C f.body :=
  Stmt.allUse_map

namespace Assembly.Valid

variable (h : a.Valid context)

include h

variable {k : Call} {specials : List (ClassDecl × MethodDecl)}

theorem exists_served (hr : r ∈ a.progress.requested) :
    ∃ f ∈ a.shared, Request.Signature context.catalog f.signature r := by
  obtain ⟨f, hf, hserves⟩ := exists_of_forall₂ h.served (h.complete r hr)
  exact ⟨f, mem_append_left _ (mem_append_right _ hf), hserves.1⟩

/-- A function with a listed signature is among those that both parts define. -/
theorem defined_exposed (hk : k ∈ exposedSignatures context) : ∃ f ∈ a.shared, f.signature = k := by
  rw [← h.exposed.definitions.1] at hk
  obtain ⟨f, hf, rfl⟩ := mem_map.1 hk
  exact ⟨f, mem_append_left _ (mem_append_left _ hf), rfl⟩

theorem answered_routine
    (hk : a.progress.registry.Callee k) : Answered context.lineage specials a.shared k := by
  rcases hk with hk | ⟨r, hr, rfl⟩
  · exact .instruction hk
  · obtain ⟨e, he, heq⟩ := any_eq_true.1 hr
    obtain rfl : e.1 = r := by simpa using heq
    rw [← (h.closed e he).1]
    exact .defined (mem_append_right _ (mem_map.2 ⟨e, he, rfl⟩))

theorem defined_constructor (hq : q ∈ constructors context.lineage) :
    ∃ f ∈ a.creation.definitions, f.signature = constructorSignature q := by
  have hlisted := mem_map_of_mem (f := constructorSignature) hq
  rw [← h.creation.definitions.1] at hlisted
  exact mem_map.1 hlisted

/-- Whatever code may call comes about from a declaration. -/
theorem answered_callee (hkeyed : context.catalog.Keyed)
    (hnodup : (namesOf context.lineage.classes).Nodup) (hk : Callee context mode a.progress k) :
    Answered context.lineage specials (a.creation.definitions ++ a.shared) k ∧
      (mode ≠ .constructor → Answered context.lineage specials a.shared k) := by
  have hboth : Answered context.lineage specials a.shared k →
      Answered context.lineage specials (a.creation.definitions ++ a.shared) k ∧
        (mode ≠ .constructor → Answered context.lineage specials a.shared k) := fun hk =>
    ⟨hk.mono fun f hf => mem_append_right _ hf, fun _ => hk⟩
  cases hk with
  | shared hk => exact hboth (h.answered_routine hk)
  | method hm hbody => exact hboth (.method hm)
  | parent _ htarget hm =>
    rcases called_of_superTarget hnodup htarget hm with ⟨owner, hmethod, rfl⟩ | ⟨c, hrenamed⟩
    · exact hboth (.method hmethod)
    · exact hboth (.of_exists (h.defined_exposed (mem_append_left _
        (mem_append_right _ (mem_map.2 ⟨_, hrenamed, rfl⟩)))))
  | library hm hrequested =>
    obtain ⟨f, hf, m', hm', hsignature⟩ := h.exists_served hrequested
    obtain rfl := Except.ok.inj (hm.symm.trans hm')
    exact hboth (.of_exists ⟨f, hf, hsignature⟩)
  | free hfree hrequested =>
    obtain ⟨f, hf, free, hfree', hsignature⟩ := h.exists_served hrequested
    rw [Catalog.name_of_freeFunction? hkeyed hfree] at hfree'
    obtain rfl := Option.some.inj (hfree.symm.trans hfree')
    exact hboth (.of_exists ⟨f, hf, hsignature⟩)
  | constructor hmode hctor =>
    obtain ⟨hparent, hdeclared⟩ := mem_of_firstConstructor? hctor
    refine ⟨.of_exists ?_, fun hother => absurd hmode hother⟩
    obtain ⟨f, hf, hsignature⟩ := h.defined_constructor (mem_filterMap.2
      ⟨_, mem_classes_of_mem_before hparent, by rw [hdeclared]; rfl⟩)
    exact ⟨f, mem_append_left _ hf, hsignature⟩

/-- The functions that both parts define make calls that come about from declarations. -/
theorem answered_shared (hkeyed : context.catalog.Keyed)
    (hnodup : (namesOf context.lineage.classes).Nodup) :
    Stmt.AllLinked (Answered context.lineage specials a.shared)
      (a.shared.map Yul.Function.toStmt) := by
  refine allLinked_definitions.2 (forall_mem_append.2
    ⟨forall_mem_append.2 ⟨fun f hf => ?_, fun f hf => ?_⟩, fun f hf => ?_⟩)
  · refine (h.exposed.definitions.2 f hf).mono fun k hk => ?_
    exact (h.answered_callee hkeyed hnodup hk).2 (by decide)
  · obtain ⟨r, hr, hserves⟩ := exists_of_forall₂ h.served.flip hf
    exact hserves.2.mono fun k hk => (h.answered_callee hkeyed hnodup hk).2 (by decide)
  · obtain ⟨e, he, rfl⟩ := mem_map.1 hf
    exact (h.closed e he).2.mono fun k hk => h.answered_routine hk

theorem leadsTo : a.exposed.LeadsTo context.lineage.finalMethods := by
  obtain ⟨_, _, _, -, htraces⟩ := h.shows
  exact htraces.leads

theorem answered_entry (hk : Dispatch.Callee (Dispatch.entryCalls
    a.exposed.functions a.exposed.receive a.exposed.fallback) a.progress.registry k) :
    Answered context.lineage context.lineage.specials a.shared k := by
  rcases hk with hk | hk
  · exact h.answered_routine hk
  rcases mem_append.1 hk with hk | hk
  · obtain ⟨f, hf, rfl⟩ := mem_map.1 hk
    exact .of_exists (h.defined_exposed (h.exposed.functions f hf))
  · obtain ⟨s, hs, rfl⟩ := mem_map.1 hk
    have hname := mem_map_of_mem (f := (·.irName)) hs
    rw [h.leadsTo.map_irName] at hname
    obtain ⟨q, hq, hname⟩ := mem_map.1 hname
    rw [← hname]
    exact .special hq

theorem final_mem_shared (hq : q ∈ context.lineage.finalMethods) :
    methodSignature (functionName q.2.name) q.2 ∈ a.shared.map (·.signature) :=
  mem_map.2 (h.defined_exposed (mem_append_left _ (mem_append_left _
    (mem_map.2 ⟨q, hq, rfl⟩))))

theorem region_deployed (hkeyed : context.catalog.Keyed)
    (hnodup : (namesOf context.lineage.classes).Nodup) (className : String) :
    Region context.lineage context.lineage.specials a.shared (a.object className).deployed where
  defines f hf := by
    exact mem_append_right _ (mem_map_of_mem hf)
  answered := by
    refine Stmt.allUse_append.2 ⟨Stmt.allUse_append.2 ⟨?_, ?_⟩, h.answered_shared hkeyed hnodup⟩
    · simpa using linked_initMemory
    · exact h.entry.mono fun k hk => h.answered_entry hk
  final q hq := h.final_mem_shared hq
  special q hq := mem_final_of_special hq

theorem region_creation (hkeyed : context.catalog.Keyed)
    (hnodup : (namesOf context.lineage.classes).Nodup) (className : String) :
    Region context.lineage [] (a.creation.definitions ++ a.shared) (a.object className).creation where
  defines f hf := by
    rw [a.creation_eq, append_assoc, ← map_append]
    exact mem_append_right _ (mem_map_of_mem hf)
  answered := by
    refine Stmt.allUse_append.2 ⟨Stmt.allUse_append.2 ⟨?_, ?_⟩, ?_⟩
    · refine h.creation.code.mono fun k hk => ?_
      rcases hk with hk | ⟨q, hq, rfl⟩
      · exact (h.answered_callee hkeyed hnodup hk).1
      -- the constructor that runs is one of those that are defined
      · obtain ⟨hclass, hctor⟩ := mem_of_firstConstructor? hq
        obtain ⟨f, hf, hsignature⟩ := h.defined_constructor (mem_filterMap.2
          ⟨q.1, mem_reverse.1 hclass, by rw [hctor]; rfl⟩)
        exact .of_exists ⟨f, mem_append_left _ hf, hsignature⟩
    · refine allLinked_definitions.2 fun f hf => (h.creation.definitions.2 f hf).mono fun k hk => ?_
      exact (h.answered_callee hkeyed hnodup hk).1
    · have hshared : Stmt.AllLinked (Answered context.lineage [] a.shared)
          (a.shared.map Yul.Function.toStmt) := h.answered_shared hkeyed hnodup
      exact hshared.mono fun k hk => hk.mono fun f hf => mem_append_right _ hf
  final q hq := by
    rw [map_append]
    exact mem_append_right _ (h.final_mem_shared hq)
  special := forall_mem_nil _

end Assembly.Valid

/-! ## No constructor is deployed -/

def NoConstructor (c : Call) : Prop :=
  stem c.name ≠ ['c', 'o', 'n']

theorem noConstructor_routine {g : Registry} (hc : g.Callee c) : NoConstructor c := by
  intro hstem
  rcases hc with hc | ⟨r, hr, rfl⟩
  · exact stem_instruction (mem_map.2 ⟨c, hc, rfl⟩) (by simp [hstem, ownStems])
  · rw [Routine.name_signature] at hstem
    exact stem_routine r (by simp [hstem, ownStems])

theorem noConstructor_exposed (hc : c ∈ exposedSignatures context) : NoConstructor c := by
  rcases mem_append.1 hc with hc | hc
  · rcases mem_append.1 hc with hc | hc
    · obtain ⟨q, -, rfl⟩ := mem_map.1 hc
      simp [NoConstructor, methodSignature]
    · obtain ⟨q, hq, rfl⟩ := mem_map.1 hc
      obtain ⟨c, -, hq⟩ := mem_flatMap.1 hq
      obtain ⟨m, -, rfl⟩ := mem_map.1 hq
      simp [NoConstructor, methodSignature]
  · unfold getterSignatures at hc
    split at hc
    · obtain ⟨owner, -, hc⟩ := mem_flatMap.1 hc
      obtain ⟨field, -, hc⟩ := mem_filterMap.1 hc
      simp [NoConstructor, name_of_getterSignature? hc]
    · cases hc

/-- The functions that both parts define are no constructors. -/
theorem Assembly.Valid.noConstructor_shared (h : a.Valid context) :
    ∀ f ∈ a.shared, NoConstructor f.signature := by
  refine forall_mem_append.2
    ⟨forall_mem_append.2 ⟨fun f hf => ?_, fun f hf => ?_⟩, fun f hf => ?_⟩
  · have hmem : f.signature ∈ exposedSignatures context := by
      rw [← h.exposed.definitions.1]
      exact mem_map_of_mem hf
    exact noConstructor_exposed hmem
  · obtain ⟨r, hr, hserves⟩ := exists_of_forall₂ h.served.flip hf
    cases r with
    | library owner name =>
      obtain ⟨m, -, hsignature⟩ := hserves.1
      simp [hsignature, NoConstructor, methodSignature]
    | free name =>
      obtain ⟨f, -, hsignature⟩ := hserves.1
      simp [hsignature, NoConstructor]
  · obtain ⟨e, he, rfl⟩ := mem_map.1 hf
    rw [(h.closed e he).1]
    exact noConstructor_routine (.inr ⟨e.1, any_eq_true.2 ⟨e, he, by simp⟩, rfl⟩)

theorem Assembly.Valid.noConstructor_deployed (h : a.Valid context) (hkeyed : context.catalog.Keyed)
    (hnodup : (namesOf context.lineage.classes).Nodup) (className : String) :
    ∀ c ∈ Stmt.allCalls (a.object className).deployed, NoConstructor c := by
  intro c hc
  cases (Stmt.allLinked_iff _).1 (h.region_deployed hkeyed hnodup className).answered c hc with
  | instruction h => exact noConstructor_routine (g := .empty) (.inl h)
  | defined hf => exact h.noConstructor_shared _ hf
  | method => simp [NoConstructor, methodSignature]
  | special => simp [NoConstructor]

/-- Both parts of a compiled class are closed: what is called is an instruction or is defined at the
top level of the same part. No constructor is called in the deployed part. -/
theorem compiled_parts_closed {options : Options} {file : Source.File}
    {available : List Source.File} {className : String} {c : Compiled}
    (h : compile options file available className = .ok c) :
    Stmt.IsClosed c.object.deployed ∧ Stmt.IsClosed c.object.creation ∧
      ∀ k ∈ Stmt.allCalls c.object.deployed, ∀ owner, k.name ≠ constructorName owner := by
  obtain ⟨context, hcontext, a, ha, hobject⟩ := exists_assembly h
  have hkeyed := keyed_contextOf hcontext
  have hnodup := (topological_of_contextOf hcontext).nodup
  rw [hobject]
  refine ⟨(ha.region_deployed hkeyed hnodup className).isClosed,
    (ha.region_creation hkeyed hnodup className).isClosed, ?_⟩
  intro k hk owner hname
  exact ha.noConstructor_deployed hkeyed hnodup className k hk (by rw [hname, stem_constructorName])

/-- A class that calls the overridden body of its parent, which calls a library method, which calls a
free function; and that pushes onto an array. -/
def journal : Source.File where
  path := "journal"
  functions := [
    { name := "twice", params := [⟨"x", "u256"⟩], returns := ["u256"]
      body := [.ret (some (.binary .add (.ident "x") (.ident "x")))] }]
  classes := [
    { name := "Steps"
      methods := [
        { name := "next", params := [⟨"x", "u256"⟩], returns := ["u256"], isStatic := true
          body := some [.ret (some (.call (.ident "twice") [.ident "x"]))] }] },
    { name := "Base"
      methods := [
        { name := "record", params := [⟨"x", "u256"⟩], returns := ["u256"], visibility := .private
          body := some [.ret (some (.call (.member (.ident "Steps") "next") [.ident "x"]))] }]
      constructor := some {} },
    { name := "Journal"
      heritage := some (.extends "Base")
      fields := [{ name := "entries", ty := "u256[]" }]
      methods := [
        { name := "record", params := [⟨"x", "u256"⟩], returns := ["u256"], visibility := .private
          body := some [.expr (.call (.member (.member .this "entries") "push") [.ident "x"]),
            .ret (some (.call (.member .super "record") [.ident "x"]))] }]
      constructor := some {} }]

theorem compiled_parts_closed_journal :
    ∃ c, compile { emitAbi := false } journal [] "Journal" = .ok c ∧
      c.object.deployedFunctions = ["fun_record", "fun_Base_record", "fun_Steps_next",
        "free_fun_twice", "array_data_slot", "storage_array_grow"] ∧
      Stmt.IsClosed c.object.deployed ∧ Stmt.IsClosed c.object.creation ∧
      ∀ k ∈ Stmt.allCalls c.object.deployed, ∀ owner, k.name ≠ constructorName owner := by
  obtain ⟨c, hc, hfunctions⟩ := exists_of_map_toOption
    (show (compile { emitAbi := false } journal [] "Journal").toOption.map
      (·.object.deployedFunctions) = some ["fun_record", "fun_Base_record", "fun_Steps_next",
        "free_fun_twice", "array_data_slot", "storage_array_grow"] by decide +kernel)
  exact ⟨c, hc, hfunctions, compiled_parts_closed hc⟩

/-! ## Functions on request -/

end Compilation

end ContractYul
