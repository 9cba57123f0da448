import ContractYul.Proofs.Catalog.Lookup
import ContractYul.Proofs.Compilation.Super
import ContractYul.Proofs.Dispatch.Routing

/-!
# What a compiled class offers to callers

A call of a method of another contract is lowered for the method that a search through the classes of
that contract finds. The search goes up from the class to its parents, the last one first, and takes
the first method that can be called from outside. What the contract itself offers is made from its
line of classes: for each name, the last body of the class that owns the method.

The two need not be the same method. Whether a call is answered is decided by the method of the line:
it has to be one that can be called from outside, and its head has to read as that of the method
that was found.

Main statement: `offers_external_iff`.
-/

open List

namespace ContractYul

open Outcome Catalog
open Source (ClassDecl MethodDecl FieldDecl)

/-! ## Methods that callers find -/

namespace Catalog

variable {catalog : Catalog} {keys : List String} {cls : ClassDecl} {method : String}

/-- The search for a method ends in the class or an ancestor, at a method that can be called from
outside. -/
theorem exists_of_search (hfinds : Lineage.Finds catalog.class? keys)
    (hcls : catalog.class? cls.name = some cls) (h : catalog.search method cls = .ok (some d)) :
    ∃ owner, Lineage.Reaches catalog.class? cls.name owner.name ∧
      catalog.class? owner.name = some owner ∧ exposed? owner method = some d := by
  obtain ⟨_, owner, hreaches, howner, hd⟩ := exposes_of_searchWithin hcls h
  obtain rfl := hfinds.named howner
  exact ⟨owner, hreaches, howner, hd⟩

theorem mem_of_exposed? (h : exposed? cls method = some d) :
    d ∈ cls.methods ∧ d.name = method ∧ d.visibility.isExternal ∧ d.isStatic = false := by
  refine ⟨mem_of_find?_eq_some h, ?_⟩
  simpa [and_assoc] using find?_some h

end Catalog

/-! ## Functions of a compiled class -/

namespace Compilation

open Lowering Yul.Machine
open Yul (Machine Config Word andThen num)
open Dispatch

def viewOf (f : Abi.Function) : ExternalMethod :=
  ⟨f.name, f.signature, f.params.map (·.ty), f.returns, f.mutability⟩

/-- Callers read the head of a method as the contract that has it does. -/
theorem externalOf_of_entryOf (h : entryOf catalog m = .ok f) :
    catalog.externalOf m = .ok (viewOf f) := by
  obtain ⟨params, hparams, h⟩ := bind_eq_ok.1 h
  obtain ⟨returns, hreturns, h⟩ := bind_eq_ok.1 h
  obtain ⟨types, htypes, h⟩ := bind_eq_ok.1 h
  cases h
  have hresolved : m.params.mapM (fun p => catalog.typeOf p.ty) = .ok (params.map (·.ty)) := by
    rw [mapM_eq_ok, forall₂_map_right_iff]
    refine (mapM_eq_ok.1 hparams).imp fun p q hq => ?_
    obtain ⟨ty, hty, hq⟩ := bind_eq_ok.1 hq
    cases hq
    exact hty
  have hnamed : (params.map (·.ty)).mapM (fun t => t.canonicalName catalog.names) = .ok types := by
    rw [mapM_eq_ok, forall₂_map_left_iff]
    exact mapM_eq_ok.1 htypes
  simp [externalOf, externalMethod, hresolved, hreturns, hnamed, viewOf]

/-- Functions of methods of a line, and functions that have the name of none of them. -/
def Surface (context : Lowering.Context) (fs : List Abi.Function) : Prop :=
  ∃ entries getters, EntriesOf context.catalog context.lineage.finalMethods entries ∧
    (∀ g ∈ getters, g.name ∉ context.lineage.methodNames) ∧ fs = entries ++ getters

/-- What a contract offers: the methods of its line that can be called from outside, then getters
under other names. -/
theorem Assembly.Valid.surface {context : Lowering.Context} {a : Assembly} (h : a.Valid context) :
    Surface context a.exposed.functions := by
  obtain ⟨_, _, getters, hgetters, htraces⟩ := h.shows
  obtain ⟨entries, hentries, hfunctions⟩ := htraces.offers
  refine ⟨entries, getters, hentries, fun g hg => ?_, hfunctions⟩
  obtain ⟨field, ty, p, p', hfree, -, hrun⟩ := hgetters g hg
  obtain ⟨-, hname, -⟩ := advances_getterOf g p' hrun
  rw [hname]
  exact Lineage.notMem_methodNames hfree

/-! ## Calls that are answered -/

section

variable {options : Options} {file : Source.File} {available : List Source.File}
  {className method : String} {c : Compiled} {context : Lowering.Context} {a : Assembly}

/-- The deployed code of a class leads a call to the function whose selector it starts with. -/
theorem enters_of_selects (ha : a.Valid context) (hmade : a.Makes context className c)
    (hf : f ∈ c.functions) (hdata : m.context.callData.length < 2 ^ 256)
    (hselects : Selects m.context.callData f) (σ : Config) :
    ∃ forms, formsOf f.params = .ok forms ∧ m.execAll c.object.deployed σ =
      (enterFunction m f forms
        (σ.world.withMemory (σ.world.memory.write 64 (Word.toBytes 128)))).ended := by
  obtain ⟨g, g', hcode⟩ := ha.exists_entryCode
  obtain ⟨sorted, cases, k, hperm, hnodup, hcases, hrouting⟩ := entryCode_eq hcode
  have hsorted : (sorted.map (·.selector)).Nodup := (hperm.map _).nodup_iff.2 hnodup
  have hlong := hselects.1
  rw [selects_iff hlong] at hselects
  -- memory is set up first, which changes nothing that the switch looks at
  have hsetUp : m.exec initMemory σ = .ok (.next,
      ⟨σ.vars, σ.world.withMemory (σ.world.memory.write 64 (Word.toBytes 128))⟩) :=
    exec_mstore (yields_num (by decide))
      (yields_num (by decide))
  obtain ⟨forms, hforms, henter⟩ := execCases_of_mem m hcases hsorted
    (hperm.mem_iff.2 (hmade.functions ▸ hf)) (fun σ => .ok (.next, σ))
    ⟨σ.vars, σ.world.withMemory (σ.world.memory.write 64 (Word.toBytes 128))⟩
  refine ⟨forms, hforms, ?_⟩
  rw [hmade.object, a.deployed_eq, append_assoc, singleton_append, execAll_cons,
    andThen, hsetUp, hrouting, routing, append_assoc, append_assoc]
  rw [execAll_append]
  refine Yul.andThen_of_ended ?_
  rw [execAll_selection_of_long hlong hdata, hselects]
  exact Yul.inBlock_of_ended henter

theorem name_of_externalOf {catalog : Catalog} {em : ExternalMethod}
    (h : catalog.externalOf m = .ok em) : em.name = m.name := by
  obtain ⟨params, -, h⟩ := bind_eq_ok.1 h
  obtain ⟨returns, -, h⟩ := bind_eq_ok.1 h
  obtain ⟨types, -, h⟩ := bind_eq_ok.1 h
  cases h
  rfl

/-- The heads of two methods are written alike, but for the names of parameters. -/
structure SameHead (m m' : MethodDecl) : Prop where
  params : m.params.map (·.ty) = m'.params.map (·.ty)
  returns : m.returns = m'.returns
  mutability : m.mutability = m'.mutability

theorem SameHead.externalOf_eq (h : SameHead m m') (hname : m.name = m'.name) (catalog : Catalog) :
    catalog.externalOf m = catalog.externalOf m' := by
  have hparams : ∀ m : MethodDecl, m.params.mapM (fun p => catalog.typeOf p.ty) =
      (m.params.map (·.ty)).mapM catalog.typeOf := fun m => (mapM_map ..).symm
  rw [externalOf, externalOf, hparams, hparams, h.params, h.returns, h.mutability, hname]

structure Agree (em em' : ExternalMethod) : Prop where
  signature : em.signature = em'.signature
  returns : em.returns = em'.returns
  mutability : em.mutability = em'.mutability

def Offers (c : Compiled) (em : ExternalMethod) : Prop :=
  ∃ f ∈ c.functions, f.name = em.name ∧ f.signature = em.signature ∧ f.selector = em.selector ∧
    f.returns = em.returns ∧ f.mutability = em.mutability

theorem mem_functions_iff (hc : Surface context c.functions) (hq : q ∈ context.lineage.finalMethods)
    {f : Abi.Function} :
    f ∈ c.functions ∧ f.name = q.2.name ↔ isEntry q.2 ∧ entryOf context.catalog q.2 = .ok f := by
  obtain ⟨entries, getters, hentries, hgetters, hfs⟩ := hc
  have hlisted : q.2.name ∈ context.lineage.methodNames := by
    rw [← context.lineage.map_name_finalMethods]
    exact mem_map.2 ⟨q, hq, rfl⟩
  constructor
  · rintro ⟨hf, hname⟩
    rw [hfs] at hf
    rcases mem_append.1 hf with hf | hf
    · obtain ⟨q', hq', hentry⟩ := exists_of_mem_mapM hentries hf
      obtain ⟨hq', hexposed⟩ := mem_filter.1 hq'
      have hsame : q' = q := Lineage.eq_of_final_name hq' hq
        (((entryOf_eq_ok hentry).1).symm.trans hname)
      exact hsame ▸ ⟨hexposed, hentry⟩
    · exact absurd (hname ▸ hlisted) (hgetters f hf)
  · rintro ⟨hexposed, hentry⟩
    refine ⟨?_, (entryOf_eq_ok hentry).1⟩
    obtain ⟨f', hf', hentry'⟩ := exists_of_forall₂ (mapM_eq_ok.1 hentries)
      (mem_filter.2 ⟨hq, hexposed⟩)
    obtain rfl := Except.ok.inj (hentry.symm.trans hentry')
    rw [hfs]
    exact mem_append_left _ hf'

theorem Surface.exists_entry (h : Surface context fs) (hq : q ∈ context.lineage.finalMethods)
    (hexposed : isEntry q.2) : ∃ f, entryOf context.catalog q.2 = .ok f := by
  obtain ⟨entries, -, hentries, -⟩ := h
  obtain ⟨f, -, hentry⟩ := exists_of_forall₂ (mapM_eq_ok.1 hentries)
    (mem_filter.2 ⟨hq, hexposed⟩)
  exact ⟨f, hentry⟩

structure FindsMethod (context : Lowering.Context) (className method : String) (d : MethodDecl)
    (em : ExternalMethod) : Prop where
  /-- An interface of that name would be looked at in place of the class. -/
  noInterface : context.catalog.interfaces.get? className = none
  found : context.catalog.search method context.lineage.derived = .ok (some d)
  read : context.catalog.contractMethod className method = .ok em

/-- What callers find is declared by a class of the line, and the line has a method under its
name. -/
theorem FindsMethod.exists_final {em : ExternalMethod}
    (h : FindsMethod context className method d em)
    (hcontext : contextOf options file available className = .ok context) :
    context.catalog.externalOf d = .ok em ∧ d.name = method ∧
      ∃ q ∈ context.lineage.finalMethods, q.2.name = method := by
  obtain ⟨hcatalog, hclass, -⟩ := settled_of_contextOf hcontext
  have hfinds := Lineage.finds_ofFile hcatalog
  obtain ⟨owner, hreaches, howner, hd⟩ := exists_of_search hfinds
    (hfinds.named hclass ▸ hclass) h.found
  obtain ⟨hmem, rfl, -⟩ := mem_of_exposed? hd
  have hread := h.read
  rw [contractMethod, h.noInterface] at hread
  simp only [hclass, h.found, ok_bind] at hread
  have hline : owner ∈ context.lineage.classes :=
    ((topological_of_contextOf hcontext).mem_iff owner).2 ⟨_, hreaches, howner⟩
  obtain ⟨cls, hcls⟩ := Lineage.exists_owner? (Lineage.mem_methodNames hline hmem)
  exact ⟨hread, rfl, Lineage.exists_final_of_owner? hcls⟩

/-- Callers of a class look a method up on their own, and the class offers one of its line of classes.
A call is answered just when the method of the line can be called from outside and reads as the one
that was found. This is so when all declarations of the method are alike. The deployed code of the
class leads calls to the function that answers. -/
theorem offers_external_iff (h : compile options file available className = .ok c) :
    ∃ context, contextOf options file available className = .ok context ∧
      ∀ method d em, FindsMethod context className method d em →
        ∃ q ∈ context.lineage.finalMethods, q.2.name = method ∧
          (Offers c em ↔
            isEntry q.2 ∧ ∃ em', context.catalog.externalOf q.2 = .ok em' ∧ Agree em' em) ∧
          ((∀ cls ∈ context.lineage.classes, ∀ m ∈ cls.methods, m.name = method →
            isEntry m ∧ SameHead m d) → Offers c em) ∧
          ∀ f ∈ c.functions, f.signature = em.signature → ∀ (m : Machine) (σ : Config),
            4 ≤ m.context.callData.length → m.context.callData.length < 2 ^ 256 →
            m.context.callData.take 4 = (Abi.topic em.signature).take 4 →
            ∃ forms, formsOf f.params = .ok forms ∧ m.execAll c.object.deployed σ =
              (enterFunction m f forms
                (σ.world.withMemory (σ.world.memory.write 64 (Word.toBytes 128)))).ended := by
  obtain ⟨context, hcontext, a, ha, hmade⟩ := exists_made h
  refine ⟨context, hcontext, fun method d em hfinds => ?_⟩
  have hsurface : Surface context c.functions := hmade.functions ▸ ha.surface
  obtain ⟨hread, rfl, q, hq, hname⟩ := hfinds.exists_final hcontext
  have hem : em.name = d.name := name_of_externalOf hread
  have hoffers : Offers c em ↔
      isEntry q.2 ∧ ∃ em', context.catalog.externalOf q.2 = .ok em' ∧ Agree em' em := by
    constructor
    · rintro ⟨f, hf, hfname, hsignature, -, hreturns, hmutability⟩
      obtain ⟨hexposed, hentry⟩ := (mem_functions_iff hsurface hq).1
        ⟨hf, hfname.trans (hem.trans hname.symm)⟩
      exact ⟨hexposed, viewOf f, externalOf_of_entryOf hentry, hsignature, hreturns, hmutability⟩
    · rintro ⟨hexposed, em', hem', hagree⟩
      obtain ⟨f, hentry⟩ := hsurface.exists_entry hq hexposed
      obtain ⟨hf, hfname⟩ := (mem_functions_iff hsurface hq).2 ⟨hexposed, hentry⟩
      obtain rfl := Except.ok.inj ((externalOf_of_entryOf hentry).symm.trans hem')
      exact ⟨f, hf, (hfname.trans hname).trans hem.symm, hagree.signature,
        congrArg Abi.selector hagree.signature, hagree.returns, hagree.mutability⟩
  refine ⟨q, hq, hname, hoffers, fun hall => ?_, fun f hf hsignature m σ hlong hdata hselects => ?_⟩
  · obtain ⟨howner, hmem⟩ := Lineage.mem_of_final hq
    obtain ⟨hexposed, hhead⟩ := hall q.1 howner q.2 hmem hname
    exact hoffers.2 ⟨hexposed, em, (hhead.externalOf_eq hname _).trans hread, rfl, rfl, rfl⟩
  · exact enters_of_selects ha hmade hf hdata ⟨hlong, hsignature ▸ hselects⟩ σ

end

/-- A class whose method is overridden in a class derived from it, with some visibility. -/
def overriding (visibility : Source.Visibility) : Source.File where
  path := "overriding"
  classes := [
    { name := "A"
      methods := [
        { name := "foo", params := [⟨"x", "u256"⟩], returns := ["u256"]
          body := some [.ret (some (.ident "x"))] }] },
    { name := "B"
      heritage := some (.extends "A")
      methods := [
        { name := "foo", params := [⟨"y", "u256"⟩], returns := ["u256"]
          body := some [.ret (some (.ident "y"))], visibility }] }]

/-- Whether a method can be called from outside, what it takes and gives, and what it may change. -/
structure Head where
  entry : Bool
  params : List String
  returns : List String
  mutability : Source.Mutability
  deriving DecidableEq

def headOf (m : MethodDecl) : Head :=
  ⟨isEntry m, m.params.map (·.ty), m.returns, m.mutability⟩

/-- What callers of the derived class find, next to the methods of its line. -/
structure LookedUp where
  noInterface : Bool
  found : Option Head
  signature : Option String
  line : List (List Head)
  deriving DecidableEq

def lookedUp (context : Lowering.Context) : LookedUp where
  noInterface := (context.catalog.interfaces.get? "B").isNone
  found := (context.catalog.search "foo" context.lineage.derived).toOption.join.map headOf
  signature := (context.catalog.contractMethod "B" "foo").toOption.map (·.signature)
  line := context.lineage.classes.map (·.methods.map headOf)

theorem findsMethod_of_lookedUp {context : Lowering.Context} {head : Head}
    (h : lookedUp context = ⟨true, some head, some signature, line⟩) :
    ∃ d em, FindsMethod context "B" "foo" d em ∧ headOf d = head ∧ em.signature = signature ∧
      context.lineage.classes.map (·.methods.map headOf) = line := by
  simp only [lookedUp, LookedUp.mk.injEq] at h
  obtain ⟨hinterface, hfound, hread, hline⟩ := h
  obtain ⟨d, hd, hhead⟩ := Option.map_eq_some_iff.1 hfound
  have hd := eq_ok_of_toOption (Option.join_eq_some_iff.1 hd)
  obtain ⟨em, hem, hsignature⟩ := exists_of_map_toOption hread
  exact ⟨d, em, ⟨Option.isNone_iff_eq_none.1 hinterface, hd, hem⟩, hhead, hsignature, hline⟩

/-- The head of the method of both classes, where it can be called from outside or not. -/
def fooHead (entry : Bool) : Head :=
  ⟨entry, ["u256"], ["u256"], .nonPayable⟩

theorem offers_external_public : ∃ c context d em,
    compile {} (overriding .public) [] "B" = .ok c ∧
    contextOf {} (overriding .public) [] "B" = .ok context ∧
    FindsMethod context "B" "foo" d em ∧ em.signature = "foo(uint256)" ∧ Offers c em := by
  obtain ⟨c, hc, -⟩ := exists_of_map_toOption
    (show (compile {} (overriding .public) [] "B").toOption.map (fun _ => ()) = some () by
      decide +kernel)
  obtain ⟨context', hcontext', hlooked⟩ := exists_of_map_toOption
    (show (contextOf {} (overriding .public) [] "B").toOption.map lookedUp =
      some ⟨true, some (fooHead true), some "foo(uint256)", [[fooHead true], [fooHead true]]⟩ by
      decide +kernel)
  obtain ⟨d, em, hfinds, hd, hsignature, hline⟩ := findsMethod_of_lookedUp hlooked
  obtain ⟨context, hcontext, hall⟩ := offers_external_iff hc
  obtain rfl := Except.ok.inj (hcontext.symm.trans hcontext')
  obtain ⟨q, -, -, -, halike, -⟩ := hall "foo" d em hfinds
  refine ⟨c, context, d, em, hc, hcontext, hfinds, hsignature, halike fun cls hcls m hm _ => ?_⟩
  have hheads : cls.methods.map headOf ∈ context.lineage.classes.map (·.methods.map headOf) :=
    List.mem_map_of_mem hcls
  have hone : cls.methods.map headOf = [fooHead true] := by simpa [hline] using hheads
  have hm : headOf m = fooHead true := by simpa [hone] using List.mem_map_of_mem (f := headOf) hm
  have hsame := hm.trans hd.symm
  exact ⟨congrArg Head.entry hm, congrArg Head.params hsame, congrArg Head.returns hsame,
    congrArg Head.mutability hsame⟩

/-- A method that a derived class makes private is still found by callers, but not offered. -/
theorem private_override_not_offered : ∃ c context d em,
    compile {} (overriding .private) [] "B" = .ok c ∧
    contextOf {} (overriding .private) [] "B" = .ok context ∧
    FindsMethod context "B" "foo" d em ∧ em.signature = "foo(uint256)" ∧ ¬ Offers c em := by
  obtain ⟨c, hc, hfunctions⟩ := exists_of_map_toOption
    (show (compile {} (overriding .private) [] "B").toOption.map (·.functions.length) = some 0 by
      decide +kernel)
  obtain ⟨context, hcontext, hlooked⟩ := exists_of_map_toOption
    (show (contextOf {} (overriding .private) [] "B").toOption.map lookedUp =
      some ⟨true, some (fooHead true), some "foo(uint256)", [[fooHead true], [fooHead false]]⟩ by
      decide +kernel)
  obtain ⟨d, em, hfinds, -, hsignature, -⟩ := findsMethod_of_lookedUp hlooked
  refine ⟨c, context, d, em, hc, hcontext, hfinds, hsignature, ?_⟩
  rintro ⟨f, hf, -⟩
  rw [List.length_eq_zero_iff.1 hfunctions] at hf
  cases hf

end Compilation

end ContractYul
