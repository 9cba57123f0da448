import ContractYul.Proofs.Compilation.Distinct
import ContractYul.Proofs.Lineage.Ancestry

/-!
# Calls of the nearest ancestor

What `super.method()` reaches in a class of a line. The line is split at the class; the nearest class
before it that has a body for the method is the one whose body is called. No two classes of a line
have the same name, so looking classes up by name finds the right place in it.

Main statement: `super_reaches_nearest_body`. The name that is called is the name under which the
body of that class is lowered, the plain one when no class behind it has a body, and otherwise the
one with the class in it; and a compiled class has that function in its deployed part.
-/

open List

namespace ContractYul

open Source (ClassDecl MethodDecl)

namespace Lineage

variable {l : Lineage} {c d : ClassDecl} {method : String} {front between back : List ClassDecl}

/-! ## The owner of a method -/

theorem owner?_of_last (hsplit : l.classes = front ++ c :: back) (hc : hasBody c method)
    (hback : ∀ b ∈ back, ¬ hasBody b method) : l.owner? method = some c := by
  have hnone : back.reverse.find? (hasBody · method) = none :=
    find?_eq_none.2 fun b hb => hback b (mem_reverse.1 hb)
  have hlast : l.classes.reverse.find? (hasBody · method) = some c := by
    rw [hsplit, reverse_append, find?_append, reverse_cons, find?_append, hnone]
    simp [hc]
  rw [owner?, hlast, Option.some_or]

theorem owner?_mem_of_later (hsplit : l.classes = front ++ back) (hd : d ∈ back)
    (hbody : hasBody d method) : ∃ owner ∈ back, l.owner? method = some owner := by
  have hsome : (back.reverse.find? (hasBody · method)).isSome :=
    find?_isSome.2 ⟨d, mem_reverse.2 hd, hbody⟩
  obtain ⟨owner, howner⟩ := Option.isSome_iff_exists.1 hsome
  refine ⟨owner, mem_reverse.1 (mem_of_find?_eq_some howner), ?_⟩
  rw [owner?, hsplit, reverse_append, find?_append, howner, Option.some_or, Option.some_or]

theorem owns_of_owner? (h : l.owner? method = some d) : l.owns c.name method ↔ d.name = c.name := by
  simp [owns, h]

/-! ## The nearest body -/

theorem superTarget_of_none (hnodup : (l.classes.map (·.name)).Nodup)
    (hsplit : l.classes = front ++ d :: back) (hfront : ∀ c ∈ front, ¬ hasBody c method) :
    l.superTarget d.name method = .error (.missingSuperImplementation d.name method) := by
  have hnone : front.reverse.find? (hasBody · method) = none :=
    find?_eq_none.2 fun c hc => hfront c (mem_reverse.1 hc)
  rw [superTarget_eq_nearest hnodup, before_eq hnodup hsplit, hnone]
  rfl

structure Nearest (l : Lineage) (method : String) (c d : ClassDecl) (back : List ClassDecl) :
    Prop where
  split : ∃ front between, l.classes = front ++ c :: between ++ d :: back ∧
    ∀ b ∈ between, ¬ hasBody b method
  body : hasBody c method

namespace Nearest

variable (hnodup : (l.classes.map (·.name)).Nodup) (h : Nearest l method c d back)

include hnodup h

theorem superTarget_eq : l.superTarget d.name method = .ok (l.irName c.name method) := by
  obtain ⟨⟨front, between, hsplit, hbetween⟩, hbody⟩ := h
  have hnone : between.reverse.find? (hasBody · method) = none :=
    find?_eq_none.2 fun b hb => hbetween b (mem_reverse.1 hb)
  have hfind : (front ++ c :: between).reverse.find? (hasBody · method) = some c := by
    rw [reverse_append, find?_append, reverse_cons, find?_append, hnone]
    simp [hbody]
  rw [superTarget_eq_nearest hnodup, before_eq hnodup hsplit, hfind]
  rfl

omit hnodup in
theorem mem_classes : c ∈ l.classes := by
  obtain ⟨⟨front, between, hsplit, -⟩, -⟩ := h
  simp [hsplit]

omit hnodup in
/-- When no later class has a body, the class owns the method. -/
theorem owner?_eq (hlast : ∀ b ∈ d :: back, ¬ hasBody b method) : l.owner? method = some c := by
  obtain ⟨⟨front, between, hsplit, hbetween⟩, hbody⟩ := h
  rw [append_assoc] at hsplit
  exact owner?_of_last hsplit hbody (forall_mem_append.2 ⟨hbetween, hlast⟩)

/-- When a later class has a body, that or another later class owns the method. -/
theorem not_owns (hlater : ∃ b ∈ d :: back, hasBody b method) : ¬ l.owns c.name method := by
  obtain ⟨⟨front, between, hsplit, -⟩, -⟩ := h
  obtain ⟨b, hb, hbody⟩ := hlater
  obtain ⟨owner, howner, hfound⟩ := owner?_mem_of_later hsplit hb hbody
  rw [owns_of_owner? hfound]
  rw [hsplit, map_append, nodup_append] at hnodup
  refine fun hname => hnodup.2.2 c.name ?_ owner.name (mem_map_of_mem howner) hname.symm
  simp

end Nearest

end Lineage

namespace Compilation

open Lineage Outcome

/-- A compiled class has a function in its deployed part that is the lowered body of a method of one
of its classes, under a name. -/
def Emits (options : Options) (file : Source.File) (available : List Source.File)
    (className : String) (owner : ClassDecl) (m : MethodDecl) (irName : String) (c : Compiled) :
    Prop :=
  ∃ context f, contextOf options file available className = .ok context ∧
    Made context (.method owner m irName) f ∧ f.name = irName ∧ f.toStmt ∈ c.object.deployed

theorem name_of_made_method {irName : String} (h : Made context (.method owner m irName) f) :
    f.name = irName := by
  obtain ⟨p, p', h⟩ := h
  obtain ⟨-, hsignature, -⟩ := Lowering.Advances.method f p' h
  exact congrArg Yul.Call.name (singleton_inj.1 hsignature)

section

variable {file : Source.File} {available : List Source.File} {catalog : Catalog}
  {className : String} {c : ClassDecl} {l : Lineage}

theorem lineage_of_contextOf (h : contextOf options file available className = .ok context)
    (hcatalog : Catalog.ofFile file available = .ok catalog)
    (hc : catalog.class? className = some c)
    (hl : Lineage.ofClass catalog.class? catalog.classes.size c = .ok l) : context.lineage = l := by
  obtain ⟨hcatalog', hclass, hlineage⟩ := settled_of_contextOf h
  obtain rfl := Except.ok.inj (hcatalog.symm.trans hcatalog')
  obtain rfl := Option.some.inj (hc.symm.trans hclass)
  exact Except.ok.inj (hlineage.symm.trans hl)

/-- Every method of the line is in the deployed part, under the name of its job. -/
theorem emits_of_job {irName : String} (hcatalog : Catalog.ofFile file available = .ok catalog)
    (hc : catalog.class? className = some c)
    (hl : Lineage.ofClass catalog.class? catalog.classes.size c = .ok l)
    (hj : .method owner m irName ∈ methodJobs l)
    (h : compile options file available className = .ok compiled) :
    Emits options file available className owner m irName compiled := by
  obtain ⟨context, hcontext, a, ha, hobject⟩ := exists_assembly h
  rw [← lineage_of_contextOf hcontext hcatalog hc hl] at hj
  obtain ⟨f, hmade, hf⟩ := ha.exists_deployed hj className
  exact ⟨context, f, hcontext, hmade, name_of_made_method hmade, hobject ▸ hf⟩

/-- In a line of classes, `super` reaches the nearest body before a class. When no later class has a
body, that is the body that the class which owns the method has under the plain name; otherwise it
is lowered under the name with its class. Either way the deployed part of a compiled class has it.
There is no call where no class before has a body. -/
theorem super_reaches_nearest_body (hcatalog : Catalog.ofFile file available = .ok catalog)
    (hc : catalog.class? className = some c)
    (hl : Lineage.ofClass catalog.class? catalog.classes.size c = .ok l) (method : String) :
    (∀ owner d back, Nearest l method owner d back → ∃ target m,
      l.superTarget d.name method = .ok target ∧ Implements owner method m ∧
      ((∀ b ∈ d :: back, ¬ hasBody b method) → target = functionName method ∧
        (owner, m) ∈ l.finalMethods ∧ ∀ q ∈ l.finalMethods, q.2.name = method → q.1 = owner) ∧
      ((∃ b ∈ d :: back, hasBody b method) → target = renamedName owner.name method ∧
        (owner, m, target) ∈ l.renamedMethods) ∧
      ∀ options compiled, compile options file available className = .ok compiled →
        Emits options file available className owner m target compiled) ∧
    ∀ front d back, l.classes = front ++ d :: back → (∀ b ∈ front, ¬ hasBody b method) →
      l.superTarget d.name method = .error (.missingSuperImplementation d.name method) := by
  have hnodup := nodup_ofClass hcatalog hc hl
  refine ⟨fun owner d back hnearest => ?_, fun front d back => superTarget_of_none hnodup⟩
  have htarget := hnearest.superTarget_eq hnodup
  by_cases hlater : ∃ b ∈ d :: back, hasBody b method
  · have howns := hnearest.not_owns hnodup hlater
    rw [irName, if_neg howns] at htarget
    obtain ⟨m, hm⟩ := hasBody_iff.1 hnearest.body
    have hmem := mem_renamed hnearest.mem_classes hm howns
    refine ⟨_, m, htarget, hm, fun hlast => ?_, fun _ => ⟨rfl, hmem⟩, fun options compiled h => ?_⟩
    · obtain ⟨b, hb, hbody⟩ := hlater
      exact absurd hbody (hlast b hb)
    · exact emits_of_job hcatalog hc hl
        (List.mem_append_right _ (List.mem_map_of_mem hmem)) h
  · have hlast : ∀ b ∈ d :: back, ¬ hasBody b method := fun b hb hbody => hlater ⟨b, hb, hbody⟩
    have howner := hnearest.owner?_eq hlast
    rw [irName, if_pos ((owns_of_owner? howner).2 rfl)] at htarget
    obtain ⟨m, hm, hmem⟩ := exists_final_of_hasBody howner hnearest.body
    refine ⟨_, m, htarget, hm, fun _ => ⟨rfl, hmem, fun q hq hname => ?_⟩,
      fun h => absurd h hlater, fun options compiled h => ?_⟩
    · exact Option.some.inj ((hname ▸ owner?_of_final hq).symm.trans howner)
    · refine emits_of_job hcatalog hc hl (List.mem_append_left _ ?_) h
      rw [← hm.name]
      exact List.mem_map_of_mem (f := fun q : ClassDecl × MethodDecl =>
        Job.method q.1 q.2 (functionName q.2.name)) hmem

end

def rung (name : String) (below level : Option String) : ClassDecl where
  name := name
  heritage := below.map .extends
  methods := level.toList.map fun n =>
    { name := "level", returns := ["u256"], visibility := .private
      body := some [.ret (some (.number n))] }

/-- Two classes have a body for the method, and a class behind each of them has none. -/
def ladder : Source.File where
  path := "ladder"
  classes := [rung "Ground" none (some "0"), rung "Landing" (some "Ground") none,
    rung "Floor" (some "Landing") (some "1"), rung "Roof" (some "Floor") none]

theorem super_reaches_nearest_body_ladder : ∃ catalog c l compiled,
    Catalog.ofFile ladder [] = .ok catalog ∧ catalog.class? "Roof" = some c ∧
      Lineage.ofClass catalog.class? catalog.classes.size c = .ok l ∧
      compile { emitAbi := false } ladder [] "Roof" = .ok compiled ∧
      l.superTarget "Roof" "level" = .ok "fun_level" ∧
      l.superTarget "Floor" "level" = .ok "fun_Ground_level" ∧
      l.superTarget "Ground" "level" = .error (.missingSuperImplementation "Ground" "level") ∧
      ∃ m, Emits { emitAbi := false } ladder [] "Roof" (rung "Ground" none (some "0")) m
        "fun_Ground_level" compiled := by
  let classes (catalog : Catalog) : Option (List ClassDecl) :=
    (catalog.class? "Roof").bind fun c =>
      (Lineage.ofClass catalog.class? catalog.classes.size c).toOption.map (·.classes)
  have hfound : (Catalog.ofFile ladder []).toOption.map classes = some (some ladder.classes) := rfl
  obtain ⟨catalog, hcatalog, hclasses⟩ := exists_of_map_toOption hfound
  obtain ⟨c, hc, hclasses⟩ := Option.bind_eq_some_iff.1 hclasses
  obtain ⟨l, hl, hclasses⟩ := exists_of_map_toOption hclasses
  have hcompiles : (compile { emitAbi := false } ladder [] "Roof").toOption.map (fun _ => ()) =
      some () := by decide +kernel
  obtain ⟨compiled, hcompiled, -⟩ := exists_of_map_toOption hcompiles
  obtain ⟨hreaches, hmissing⟩ := super_reaches_nearest_body hcatalog hc hl "level"
  obtain ⟨_, _, hroof, -, hfinal, -⟩ := hreaches (rung "Floor" (some "Landing") (some "1"))
    (rung "Roof" (some "Floor") none) []
    ⟨⟨[rung "Ground" none (some "0"), rung "Landing" (some "Ground") none], [], hclasses,
      List.forall_mem_nil _⟩, rfl⟩
  obtain ⟨_, m, hfloor, -, -, hrenamed, hemits⟩ := hreaches (rung "Ground" none (some "0"))
    (rung "Floor" (some "Landing") (some "1")) [rung "Roof" (some "Floor") none]
    ⟨⟨[], [rung "Landing" (some "Ground") none], hclasses, by decide⟩, rfl⟩
  obtain ⟨rfl, -⟩ := hfinal (by decide)
  obtain ⟨rfl, -⟩ := hrenamed ⟨_, List.mem_cons_self, rfl⟩
  exact ⟨catalog, c, l, compiled, hcatalog, hc, hl, hcompiled, hroof, hfloor,
    hmissing [] (rung "Ground" none (some "0")) _ hclasses (List.forall_mem_nil _), m,
    hemits _ _ hcompiled⟩

end Compilation

end ContractYul
