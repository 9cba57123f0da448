import ContractYul.Proofs.Compilation.Surface
import ContractYul.Proofs.Lowering.Guarded

/-!
# What a call of a method is lowered against

A class may have several bodies of one name. A call of a method is checked against the first body of
the class that owns the method, and in the initial value of a field the first body is put in place of
the call. The function that is defined under the name of the method, and that the call reaches, is
the last body.

Main statement: `method_called_and_emitted`.
-/

open List

namespace ContractYul

open Source (ClassDecl MethodDecl)

namespace Lineage

theorem head?_or_eq_getLast?_or {ms : List MethodDecl} :
    ms.head?.or other = ms.getLast?.or other ↔ ms.head? = ms.getLast? := by
  cases ms with
  | nil => simp
  | cons m ms => rw [head?_cons, getLast?_cons, Option.some_or, Option.some_or]

end Lineage

namespace Lowering

variable {irName : String}

theorem length_of_mapM {f : α → Lower β} {as : List α} (h : as.mapM f env st = .ok (bs, st')) :
    bs.length = as.length := by
  induction as generalizing bs st st' with
  | nil =>
    obtain ⟨rfl, -⟩ := Outcome.pair_inj h
    rfl
  | cons a as ih =>
    rw [mapM_cons] at h
    obtain ⟨b, st₁, -, h⟩ := exists_of_bind h
    obtain ⟨rest, st₂, hrest, h⟩ := exists_of_bind h
    obtain ⟨rfl, -⟩ := Outcome.pair_inj h
    rw [length_cons, ih hrest, length_cons]

theorem length_of_bindResults {types : List Ty} (h : bindResults e types env st = .ok (vs, st')) :
    vs.length = types.length := by
  unfold bindResults at h
  split at h
  · rename_i hempty
    obtain ⟨_, st₁, -, h⟩ := exists_of_bind h
    obtain ⟨rfl, -⟩ := Outcome.pair_inj h
    rw [isEmpty_iff.1 hempty]
    rfl
  · obtain ⟨names, st₁, hnames, h⟩ := exists_of_bind h
    obtain ⟨_, st₂, -, h⟩ := exists_of_bind h
    obtain ⟨rfl, -⟩ := Outcome.pair_inj h
    rw [length_map, length_zip, length_of_mapM hnames, Nat.min_self]

/-- There are as many arguments as parameters, or the call is refused. -/
theorem of_checkArity
    (h : (liftM (checkArity callee expected got) : Lower Unit) env st = .ok (u, st')) :
    got = expected := by
  unfold checkArity at h
  split at h
  · exact Eq.symm ‹_›
  · cases h

theorem checked_internalCall {returns : List String}
    (h : internalCall irName params returns args env st = .ok (vs, st')) :
    args.length = params.length ∧ vs.length = returns.length := by
  obtain ⟨_, st₁, harity, h⟩ := exists_of_bind h
  obtain ⟨types, st₂, -, h⟩ := exists_of_bind h
  obtain ⟨values, st₃, -, h⟩ := exists_of_bind h
  obtain ⟨results, st₄, hresults, h⟩ := exists_of_bind h
  exact ⟨of_checkArity harity, (length_of_bindResults h).trans (length_of_mapM hresults)⟩

theorem checked_expandCall (h : expandCall body ty m args env st = .ok (v, st')) :
    args.length = m.params.length := by
  obtain ⟨_, st₁, harity, -⟩ := exists_of_bind h
  exact of_checkArity harity

theorem length_of_returnedExpr? (h : returnedExpr? m = some (body, ty)) : m.returns.length = 1 := by
  unfold returnedExpr? at h
  split at h
  · rename_i hreturns
    rw [hreturns, length_singleton]
  · cases h

theorem checked_thisCall (hm : env.lineage.method? name = some (owner, m))
    (h : thisCall expand name args env st = .ok (vs, st')) :
    m.body.isSome ∧ args.length = m.params.length ∧ vs.length = m.returns.length := by
  have h := of_read_bind h
  split at h
  · cases h
  · rw [hm] at h
    dsimp only at h
    split at h
    · cases h
    · rename_i hbody
      refine ⟨by simpa [Option.isSome_iff_ne_none] using hbody, ?_⟩
      -- the body is expanded where there is one to expand in the initial value of a field
      generalize env.mode = mode at h
      cases expand with
      | none => exact checked_internalCall h
      | some denote =>
        rcases hreturned : returnedExpr? m with _ | ⟨body, ty⟩
        · rw [hreturned] at h
          exact checked_internalCall h
        · rw [hreturned] at h
          cases mode with
          | initializer =>
            obtain ⟨v, st₁, hv, h⟩ := exists_of_bind h
            obtain ⟨rfl, -⟩ := Outcome.pair_inj h
            exact ⟨checked_expandCall hv, (length_of_returnedExpr? hreturned).symm⟩
          | _ => exact checked_internalCall h

/-- In the initial value of a field the body that is found is put in place of a call. -/
theorem expanded_thisCall (hm : env.lineage.method? name = some (owner, m))
    (howner : env.owner = .contract) (hmode : env.mode = .initializer)
    {denote : Source.Expr → Operand} (hreturned : returnedExpr? m = some (body, ty)) :
    thisCall (some denote) name args env = (do return [← expandCall (denote body) ty m args]) env := by
  have hbody : m.body.isNone = false := by
    unfold returnedExpr? at hreturned
    split at hreturned
    · simp [*]
    · cases hreturned
  have hread : ∀ f : Env → Lower (List Value), (read >>= f : Lower (List Value)) env = f env env :=
    fun _ => rfl
  rw [thisCall, hread, howner, hm, hmode]
  dsimp only
  rw [hbody, hreturned]
  rfl

end Lowering

namespace Compilation

open Lineage Lowering

/-- The function under the plain name of a method is in the deployed part of a compiled class. -/
theorem emits_of_final (hq : q ∈ context.lineage.finalMethods)
    (hcontext : contextOf options file available className = .ok context)
    (h : compile options file available className = .ok compiled) :
    Emits options file available className q.1 q.2 (functionName q.2.name) compiled := by
  obtain ⟨context', hcontext', a, ha, hobject⟩ := exists_assembly h
  obtain rfl := Except.ok.inj (hcontext.symm.trans hcontext')
  obtain ⟨f, hmade, hf⟩ := ha.exists_deployed (mem_append_left _ (mem_map_of_mem hq)) className
  exact ⟨context, f, hcontext, hmade, name_of_made_method hmade, hobject ▸ hf⟩

/-- A method of a line of classes belongs to one class. Calls of the method are lowered against the
first body of that class: they take its parameters and give its results, and in the initial value of
a field they are replaced by it. The one function that is lowered and deployed under the name of the
method is the last body. The two are one declaration just when the first body is the last, or when
there is no body and the first declaration stands for both. -/
theorem method_called_and_emitted (l : Lineage) {name : String} (hname : name ∈ l.methodNames) :
    ∃ owner called emitted, l.owner? name = some owner ∧
      (bodies owner name).head?.or (owner.method? name) = some called ∧
      (bodies owner name).getLast?.or (owner.method? name) = some emitted ∧
      l.method? name = some (owner, called) ∧
      (∀ q, q ∈ l.finalMethods ∧ q.2.name = name ↔ q = (owner, emitted)) ∧
      (l.method? name = some (owner, emitted) ↔
        (bodies owner name).head? = (bodies owner name).getLast?) ∧
      (∀ (env : Env) expand args st vs st', env.lineage = l →
        thisCall expand name args env st = .ok (vs, st') →
          called.body.isSome ∧ args.length = called.params.length ∧
          vs.length = called.returns.length) ∧
      (∀ (env : Env) denote args body ty, env.lineage = l → env.owner = .contract →
        env.mode = .initializer → returnedExpr? called = some (body, ty) →
          thisCall (some denote) name args env =
            (do return [← expandCall (denote body) ty called args]) env) ∧
      ∀ options file available className context compiled,
        contextOf options file available className = .ok context → context.lineage = l →
        compile options file available className = .ok compiled →
          Emits options file available className owner emitted (functionName name) compiled := by
  obtain ⟨owner, howner⟩ := exists_owner? hname
  obtain ⟨declared, hdeclared⟩ := exists_declared howner
  obtain ⟨called, hcalled⟩ : ∃ m, (bodies owner name).head?.or (owner.method? name) = some m :=
    Option.isSome_iff_exists.1 (by simp [hdeclared])
  obtain ⟨emitted, hemitted⟩ : ∃ m, (bodies owner name).getLast?.or (owner.method? name) = some m :=
    Option.isSome_iff_exists.1 (by simp [hdeclared])
  have hmethod : l.method? name = some (owner, called) := by
    rw [method?_eq howner, hcalled, Option.map_some]
  have hfinal := fun q => final_iff (q := q) howner hemitted
  refine ⟨owner, called, emitted, howner, hcalled, hemitted, hmethod, hfinal, ?_, ?_, ?_, ?_⟩
  · rw [← head?_or_eq_getLast?_or, hemitted, method?_eq howner, Option.map_eq_some_iff]
    simp
  · rintro env expand args st vs st' rfl h
    exact checked_thisCall hmethod h
  · rintro env denote args body ty rfl hcontract hmode hreturned
    exact expanded_thisCall hmethod hcontract hmode hreturned
  · rintro options file available className context compiled hcontext rfl h
    obtain ⟨hmem, rfl⟩ := (hfinal (owner, emitted)).2 rfl
    exact emits_of_final hmem hcontext h

/-- Two bodies of one name, of which the first takes one value and the second takes two. -/
def pickers : Source.File where
  path := "pickers"
  classes := [{ name := "Picker", methods := [
    { name := "pick", params := [⟨"x", "u256"⟩], returns := ["u256"], visibility := .private
      body := some [.ret (some (.ident "x"))] },
    { name := "pick", params := [⟨"x", "u256"⟩, ⟨"y", "u256"⟩], returns := ["u256"]
      visibility := .private
      body := some [.ret (some (.ident "y"))] },
    { name := "run", returns := ["u256"]
      body := some [.ret (some (.call (.member .this "pick") [.number "7"]))] }] }]

theorem method_called_and_emitted_pick : ∃ context compiled,
    contextOf { emitAbi := false } pickers [] "Picker" = .ok context ∧
      "pick" ∈ context.lineage.methodNames ∧
      compile { emitAbi := false } pickers [] "Picker" = .ok compiled ∧
      ∃ owner called emitted, context.lineage.method? "pick" = some (owner, called) ∧
        called.params.length = 1 ∧ (owner, emitted) ∈ context.lineage.finalMethods ∧
        emitted.params.length = 2 ∧
        Emits { emitAbi := false } pickers [] "Picker" owner emitted "fun_pick" compiled := by
  let facts (context : Lowering.Context) : List String × Option Nat × List Nat :=
    (context.lineage.methodNames, (context.lineage.method? "pick").map (·.2.params.length),
      (context.lineage.finalMethods.filter (·.2.name == "pick")).map (·.2.params.length))
  have hfacts : (contextOf { emitAbi := false } pickers [] "Picker").toOption.map facts =
      some (["pick", "run"], some 1, [2]) := by decide +kernel
  obtain ⟨context, hcontext, hfacts⟩ := Outcome.exists_of_map_toOption hfacts
  obtain ⟨hnames, hfacts⟩ := Prod.mk.inj hfacts
  obtain ⟨hfound, hfinal⟩ := Prod.mk.inj hfacts
  have hname : "pick" ∈ context.lineage.methodNames := by
    rw [hnames]
    exact List.mem_cons_self
  have hcompiles : (compile { emitAbi := false } pickers [] "Picker").toOption.map (fun _ => ()) =
      some () := by decide +kernel
  obtain ⟨compiled, hcompiled, -⟩ := Outcome.exists_of_map_toOption hcompiles
  obtain ⟨owner, called, emitted, -, -, -, hmethod, hiff, -, -, -, hemits⟩ :=
    method_called_and_emitted context.lineage hname
  obtain ⟨hmem, hpick⟩ := (hiff (owner, emitted)).2 rfl
  have htwo : emitted.params.length ∈ [2] := by
    rw [← hfinal]
    exact List.mem_map.2 ⟨(owner, emitted), List.mem_filter.2 ⟨hmem, beq_iff_eq.2 hpick⟩, rfl⟩
  refine ⟨context, compiled, hcontext, hname, hcompiled, owner, called, emitted, hmethod, ?_, hmem,
    List.mem_singleton.1 htwo, hemits _ _ _ _ _ _ hcontext rfl hcompiled⟩
  simpa [hmethod] using hfound

/-- The declaration that a method is found as need not be among those that are lowered under plain
names. -/
theorem found_method_not_final : ∃ context,
    contextOf { emitAbi := false } pickers [] "Picker" = .ok context ∧
      "pick" ∈ context.lineage.methodNames ∧
      ∃ q, context.lineage.method? "pick" = some q ∧ q ∉ context.lineage.finalMethods := by
  let heads (l : Lineage) : List String × Option (String × Nat) × List (String × Nat) :=
    (l.methodNames, (l.method? "pick").map fun q => (q.2.name, q.2.params.length),
      l.finalMethods.map fun q => (q.2.name, q.2.params.length))
  have hheads : (contextOf { emitAbi := false } pickers [] "Picker").toOption.map (heads ·.lineage) =
      some (["pick", "run"], some ("pick", 1), [("pick", 2), ("run", 0)]) := by decide +kernel
  obtain ⟨context, hcontext, hheads⟩ := Outcome.exists_of_map_toOption hheads
  obtain ⟨hnames, hheads⟩ := Prod.mk.inj hheads
  obtain ⟨hfound, hfinal⟩ := Prod.mk.inj hheads
  obtain ⟨q, hq, hhead⟩ := Option.map_eq_some_iff.1 hfound
  refine ⟨context, hcontext, hnames ▸ List.mem_cons_self, q, hq, fun hmem => ?_⟩
  have hlisted : ("pick", 1) ∈ [("pick", 2), ("run", 0)] := by
    rw [← hfinal, ← hhead]
    exact List.mem_map_of_mem (f := fun q : ClassDecl × MethodDecl =>
      (q.2.name, q.2.params.length)) hmem
  exact absurd hlisted (by decide)

end Compilation

end ContractYul
