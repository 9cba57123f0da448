import ContractYul.Proofs.Compilation.Resolution

/-!
# Numbers of arguments and results

When the calls of a compiled class have as many arguments and results as the functions that they
reach.

Every call is made for a declaration and has its numbers. For most calls the function of that very
declaration is defined. There are three exceptions. A method is called as its first body and defined
as its last. The receive and the fallback entry are called with nothing, whatever their methods take
and return. And a name may be defined more than once, where nothing tells which definition is meant.

Main statement: `calls_consistent_iff`.
-/

open List

namespace ContractYul

open Source (ClassDecl MethodDecl)
open Yul (Call Stmt)

/-! ## Calls and definitions of a text -/

namespace Yul.Stmt

/-- Every call of a function has as many arguments and results as each definition of its name at the
top level. -/
def Consistent (code : List Stmt) : Prop :=
  ∀ k ∈ Stmt.allCalls code, k.name ∉ instructionNames →
    ∀ f : Function, f.toStmt ∈ code → f.name = k.name → f.signature = k

/-- All definitions of a name that is called have the same numbers of parameters and results. -/
def Unambiguous (code : List Stmt) : Prop :=
  ∀ k ∈ Stmt.allCalls code, k.name ∉ instructionNames →
    ∀ f g : Function, f.toStmt ∈ code → g.toStmt ∈ code → f.name = k.name → g.name = k.name →
      f.signature = g.signature

theorem Consistent.unambiguous (h : Consistent code) : Unambiguous code :=
  fun k hk hfunction f g hf hg hfk hgk =>
    (h k hk hfunction f hf hfk).trans (h k hk hfunction g hg hgk).symm

theorem mem_of_definedFunction? (h : Stmt.definedFunction? code name = some f) :
    f.toStmt ∈ code ∧ f.name = name := by
  obtain ⟨s, hs, h⟩ := exists_of_findSome?_eq_some h
  split at h
  · split at h
    · rename_i hname
      cases h
      exact ⟨hs, hname⟩
    · cases h
  · cases h

end Yul.Stmt

/-- The entry code calls the entries without a selector. -/
theorem Dispatch.mem_allCalls_routing {cases : List (Yul.Literal × List Stmt)}
    (hs : s ∈ receive.toList ++ fallback.toList) :
    ⟨s.irName, 0, 0⟩ ∈ Stmt.allCalls (routing cases receive fallback) := by
  have hcode : ⟨s.irName, 0, 0⟩ ∈ Stmt.allCalls s.code := by
    rw [Special.code, Stmt.allCalls_append]
    exact mem_append_right _ mem_cons_self
  rw [routing, Stmt.allCalls_append, Stmt.allCalls_append]
  rcases mem_append.1 hs with hs | hs
  · obtain rfl := Option.mem_toList.1 hs
    refine mem_append_left _ (mem_append_right _ ?_)
    simpa [reception] using .inr hcode
  · obtain rfl := Option.mem_toList.1 hs
    exact mem_append_right _ hcode

namespace Compilation

open Lineage Lowering
open Lowering.Advances (methodSignature constructorSignature)

variable {context : Lowering.Context} {a : Assembly}

def CallsEmitted (l : Lineage) (code : List Stmt) : Prop :=
  ∀ name owner called emitted, l.method? name = some (owner, called) →
    (owner, emitted) ∈ l.finalMethods → emitted.name = name →
    methodSignature (functionName name) called ∈ Stmt.allCalls code →
      emitted.params.length = called.params.length ∧ emitted.returns.length = called.returns.length

def TakeNothing (specials : List (ClassDecl × MethodDecl)) : Prop :=
  ∀ q ∈ specials, q.2.params = [] ∧ q.2.returns = []

theorem functionName_notMem (name : String) : functionName name ∉ Yul.instructionNames :=
  fun h => stem_instruction h (by simp [ownStems])

namespace Region

variable {l : Lineage} {specials : List (ClassDecl × MethodDecl)} {fs : List Yul.Function}
  {code : List Stmt} (h : Region l specials fs code)

include h

theorem signature_of_consistent (hcode : Stmt.Consistent code) (hq : q ∈ l.finalMethods)
    (hk : k ∈ Stmt.allCalls code) (hname : k.name = functionName q.2.name) :
    methodSignature (functionName q.2.name) q.2 = k := by
  obtain ⟨f, hf, hsignature⟩ := mem_map.1 (h.final q hq)
  rw [← hsignature]
  refine hcode k hk (hname ▸ functionName_notMem _) f (h.defines f hf) ?_
  rw [hname]
  exact congrArg Call.name hsignature

theorem exists_definition (hcalls : CallsEmitted l code) (hspecials : TakeNothing specials)
    (hk : k ∈ Stmt.allCalls code) (hfunction : k.name ∉ Yul.instructionNames) :
    ∃ f ∈ fs, f.signature = k := by
  have hemitted : ∀ q ∈ l.finalMethods, ∃ f ∈ fs,
      f.signature = methodSignature (functionName q.2.name) q.2 := fun q hq =>
    mem_map.1 (h.final q hq)
  cases (Stmt.allLinked_iff _).1 h.answered k hk with
  | instruction hinstruction => exact absurd (mem_map_of_mem hinstruction) hfunction
  | defined hf => exact ⟨_, hf, rfl⟩
  | method hmethod =>
    obtain ⟨⟨owner', emitted⟩, hq, rfl⟩ := exists_final_of_owner? (owner?_of_method? hmethod)
    obtain rfl := Option.some.inj ((owner?_of_final hq).symm.trans (owner?_of_method? hmethod))
    obtain ⟨hparams, hreturns⟩ := hcalls _ _ _ _ hmethod hq rfl hk
    obtain ⟨f, hf, hsignature⟩ := hemitted _ hq
    exact ⟨f, hf, by rw [hsignature, methodSignature, hparams, hreturns, methodSignature]⟩
  | special hq =>
    rename_i q
    obtain ⟨hparams, hreturns⟩ := hspecials q hq
    obtain ⟨f, hf, hsignature⟩ := hemitted q (h.special q hq)
    exact ⟨f, hf, by rw [hsignature, methodSignature, hparams, hreturns]; rfl⟩

/-- Calls agree with definitions just when no name is defined in two ways, the methods that are
called are lowered as they are called, and entries without a selector take and return nothing. -/
theorem consistent_iff
    (hcalled : ∀ q ∈ specials, ⟨functionName q.2.name, 0, 0⟩ ∈ Stmt.allCalls code) :
    Stmt.Consistent code ↔
    Stmt.Unambiguous code ∧ CallsEmitted l code ∧ TakeNothing specials := by
  constructor
  · refine fun hcode => ⟨hcode.unambiguous, ?_, fun q hq => ?_⟩
    · rintro name owner called emitted - hq rfl hk
      have hsame := h.signature_of_consistent hcode hq hk rfl
      exact ⟨congrArg Call.args hsame, congrArg Call.results hsame⟩
    · have hsame := h.signature_of_consistent hcode (h.special q hq) (hcalled q hq) rfl
      exact ⟨length_eq_zero_iff.1 (congrArg Call.args hsame),
        length_eq_zero_iff.1 (congrArg Call.results hsame)⟩
  · rintro ⟨hcode, hcalls, hspecials⟩ k hk hfunction f hf hname
    obtain ⟨g, hg, rfl⟩ := h.exists_definition hcalls hspecials hk hfunction
    exact hcode _ hk hfunction f g hf (h.defines g hg) hname rfl

end Region

/-- The deployed part calls the methods that calls without a selector are led to. -/
theorem Assembly.Valid.calls_special (h : a.Valid context) (className : String)
    (hq : q ∈ context.lineage.specials) :
    ⟨functionName q.2.name, 0, 0⟩ ∈ Stmt.allCalls (a.object className).deployed := by
  obtain ⟨g, g', hcode⟩ := h.exists_entryCode
  obtain ⟨sorted, cases, k, -, -, -, hrouting⟩ := Dispatch.entryCode_eq hcode
  have hname := mem_map_of_mem (f := fun q : ClassDecl × MethodDecl => functionName q.2.name) hq
  rw [← h.leadsTo.map_irName] at hname
  obtain ⟨s, hs, hname⟩ := mem_map.1 hname
  rw [a.deployed_eq, Stmt.allCalls_append, hrouting, ← hname]
  exact mem_append_left _ (mem_append_right _ (Dispatch.mem_allCalls_routing hs))

/-- In each part of a compiled class, calls have as many arguments and results as the functions that
they reach just when no name that is called is defined in two ways and every method that is called is
lowered, from the last body of its owner, with the numbers of the first, which it is called with. In
the deployed part the receive and the fallback entry must also take and return nothing. -/
theorem calls_consistent_iff {options : Options} {file : Source.File} {available : List Source.File}
    {className : String} {c : Compiled} (h : compile options file available className = .ok c) :
    ∃ context, contextOf options file available className = .ok context ∧
      (Stmt.Consistent c.object.deployed ↔ Stmt.Unambiguous c.object.deployed ∧
        CallsEmitted context.lineage c.object.deployed ∧ TakeNothing context.lineage.specials) ∧
      (Stmt.Consistent c.object.creation ↔ Stmt.Unambiguous c.object.creation ∧
        CallsEmitted context.lineage c.object.creation) := by
  obtain ⟨context, hcontext, a, ha, hobject⟩ := exists_assembly h
  have hkeyed := keyed_contextOf hcontext
  have hnodup := (topological_of_contextOf hcontext).nodup
  rw [hobject]
  refine ⟨context, hcontext, (ha.region_deployed hkeyed hnodup className).consistent_iff
    fun q hq => ha.calls_special className hq, ?_⟩
  rw [(ha.region_creation hkeyed hnodup className).consistent_iff (List.forall_mem_nil _)]
  exact and_congr_right fun _ => and_iff_left (List.forall_mem_nil _)

/-- A fallback entry that takes a value. -/
def doorman : Source.File where
  path := "doorman"
  classes := [{ name := "Doorman", methods := [
    { name := "answer", params := [⟨"caller", "address"⟩], visibility := .external
      kind := .fallback }] }]

theorem calls_consistent_iff_doorman : ∃ c,
    compile { emitAbi := false } doorman [] "Doorman" = .ok c ∧
      ¬ Stmt.Consistent c.object.deployed := by
  have hcompiles : (compile { emitAbi := false } doorman [] "Doorman").toOption.map (fun _ => ()) =
      some () := by decide +kernel
  obtain ⟨c, hc, -⟩ := Outcome.exists_of_map_toOption hcompiles
  obtain ⟨context, hcontext, hdeployed, -⟩ := calls_consistent_iff hc
  have hspecials : (contextOf { emitAbi := false } doorman [] "Doorman").toOption.map
      (fun context => context.lineage.specials.map (·.2.params.length)) = some [1] := by
    decide +kernel
  obtain ⟨context', hcontext', hspecials⟩ := Outcome.exists_of_map_toOption hspecials
  obtain rfl := Except.ok.inj (hcontext.symm.trans hcontext')
  refine ⟨c, hc, fun hconsistent => ?_⟩
  obtain ⟨-, -, hnothing⟩ := hdeployed.1 hconsistent
  obtain ⟨q, hq, hlength⟩ := List.mem_map.1 (hspecials ▸ List.mem_singleton_self 1)
  rw [(hnothing q hq).1] at hlength
  cases hlength

/-- A method with two bodies is called with the numbers of the first and defined with those of the
second. -/
theorem call_arity_differs : ∃ c, compile { emitAbi := false } pickers [] "Picker" = .ok c ∧
    (⟨"fun_pick", 1, 1⟩ : Call) ∈ Stmt.allCalls c.object.deployed ∧
      (∃ f : Yul.Function, f.toStmt ∈ c.object.deployed ∧ f.signature = ⟨"fun_pick", 2, 1⟩) ∧
      ¬ Stmt.Consistent c.object.deployed := by
  let facts (c : Compiled) : Bool × Option Call :=
    (⟨"fun_pick", 1, 1⟩ ∈ Stmt.allCalls c.object.deployed,
      (Stmt.definedFunction? c.object.deployed "fun_pick").map (·.signature))
  have hfacts : (compile { emitAbi := false } pickers [] "Picker").toOption.map facts =
      some (true, some ⟨"fun_pick", 2, 1⟩) := by decide +kernel
  obtain ⟨c, hc, hfacts⟩ := Outcome.exists_of_map_toOption hfacts
  obtain ⟨hcall, hdefined⟩ := Prod.mk.inj hfacts
  have hcall := of_decide_eq_true hcall
  obtain ⟨f, hf, hsignature⟩ := Option.map_eq_some_iff.1 hdefined
  obtain ⟨hmem, hname⟩ := Stmt.mem_of_definedFunction? hf
  refine ⟨c, hc, hcall, ⟨f, hmem, hsignature⟩, fun hconsistent => ?_⟩
  have hsame := hconsistent _ hcall (by decide) f hmem hname
  exact absurd (hsignature.symm.trans hsame) (by decide)

end Compilation

end ContractYul
