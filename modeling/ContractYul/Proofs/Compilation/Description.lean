import ContractYul.Proofs.Abi.Expansion
import ContractYul.Proofs.Catalog.Structs
import ContractYul.Proofs.Catalog.Extensions
import ContractYul.Proofs.Compilation.Surface

/-!
# Described signatures

The ABI description of a class has an entry for each function, event and custom error. Each of these
was identified by the hash of a signature before it was described; its entry lets a reader make the
signature again, from the name and the expansions of the parameters.

What all of them share is that their signatures are `Signed`: made from the canonical names of types
that the catalog reads. This holds of the functions of methods and getters, of events and of custom
errors, each where it is made.

Main statement: `descriptions_match_signatures`.
-/

open List

namespace ContractYul

open Outcome

namespace Abi

def Entry.signature? (e : Entry) : Option String := do
  return Abi.signature (← e.name) ((← e.inputs).map ParamEntry.expansion)

def Entry.identity (e : Entry) : EntryKind × Option String :=
  (e.kind, e.signature?)

def Signed (names : TypeNames) (name signature : String) (types : List Ty) : Prop :=
  (∀ t ∈ types, t.Printable names) ∧
    ∃ texts, types.mapM (·.canonicalName names) = .ok texts ∧ signature = Abi.signature name texts

variable {names : TypeNames}

theorem Signed.signature_eq {α : Type} {name signature : String} {xs : List α} {ty : α → Ty}
    {describe : α → Outcome ParamEntry} (h : Signed names name signature (xs.map ty))
    (hdescribe : ∀ x, (ty x).Printable names →
      (describe x).map ParamEntry.expansion = (ty x).canonicalName names)
    (hinputs : xs.mapM describe = .ok inputs) :
    Abi.signature name (inputs.map ParamEntry.expansion) = signature := by
  obtain ⟨hprint, texts, htexts, rfl⟩ := h
  have hmap : (xs.mapM describe).map (map ParamEntry.expansion) =
      xs.mapM fun x => (ty x).canonicalName names :=
    map_mapM fun x hx => hdescribe x (hprint _ (mem_map_of_mem hx))
  rw [mapM_map] at htexts
  rw [hinputs] at hmap
  rw [Except.ok.inj (hmap.trans htexts)]

theorem identity_ofFunction {f : Function}
    (hf : Signed names f.name f.signature (f.params.map (·.ty)))
    (h : Entry.ofFunction names f = .ok e) : e.identity = (.function, some f.signature) := by
  obtain ⟨inputs, hinputs, h⟩ := bind_eq_ok.1 h
  obtain ⟨outputs, -, h⟩ := bind_eq_ok.1 h
  cases h
  have heq := hf.signature_eq (fun p hp => expansion_describe hp p.name) hinputs
  exact congrArg (fun s => (EntryKind.function, some s)) heq

theorem identity_ofEvent {ev : Event}
    (hev : Signed names ev.name ev.signature (ev.fields.map (·.ty)))
    (h : Entry.ofEvent names ev = .ok e) : e.identity = (.event, some ev.signature) := by
  obtain ⟨inputs, hinputs, h⟩ := bind_eq_ok.1 h
  cases h
  have heq := hev.signature_eq (fun f hf => ?_) hinputs
  · exact congrArg (fun s => (EntryKind.event, some s)) heq
  · rw [← expansion_describe hf f.name]
    cases ParamEntry.describe names f.name f.ty with
    | error e => rfl
    | ok p => exact congrArg Except.ok (p.expansion_withIndexed f.indexed)

theorem identity_ofError {err : CustomError}
    (herr : Signed names err.name err.signature (err.params.map (·.2)))
    (h : Entry.ofError names err = .ok e) : e.identity = (.error, some err.signature) := by
  obtain ⟨inputs, hinputs, h⟩ := bind_eq_ok.1 h
  cases h
  have heq := herr.signature_eq (fun p hp => expansion_describe hp p.1) hinputs
  exact congrArg (fun s => (EntryKind.error, some s)) heq

theorem signed_make (hparams : ∀ p ∈ params, p.ty.Printable names)
    (h : Function.make names name irName params returns mutability = .ok f) :
    Signed names f.name f.signature (f.params.map (·.ty)) := by
  obtain ⟨types, htypes, h⟩ := bind_eq_ok.1 h
  cases h
  refine ⟨?_, types, ?_, rfl⟩
  · simpa using hparams
  · rw [mapM_map]
    exact htypes

/-- Types that were read are printable, whatever else is kept with them. -/
theorem printable_of_mapM {α β : Type} {text : α → String} {ty : β → Ty} {make : α → Ty → β}
    {xs : List α} {ys : List β}
    (h : (xs.mapM fun x => do return make x (← Ty.parse names (text x))) = .ok ys)
    (hty : ∀ x t, ty (make x t) = t) : ∀ t ∈ ys.map ty, t.Printable names := by
  rw [forall_mem_map]
  intro y hy
  obtain ⟨x, -, hx⟩ := exists_of_mem_mapM h hy
  obtain ⟨t, ht, hx⟩ := bind_eq_ok.1 hx
  cases hx
  rw [hty]
  exact Ty.printable_parse ht

theorem printable_resolve {params : List Source.Param} {resolved : List Param}
    (h : params.mapM (Param.resolve names) = .ok resolved) :
    ∀ p ∈ resolved, p.ty.Printable names := by
  have hall : ∀ t ∈ resolved.map (·.ty), t.Printable names := printable_of_mapM h fun _ _ => rfl
  exact forall_mem_map.1 hall

end Abi

/-! ## Custom errors and events -/

namespace Catalog

open Abi (Signed)

def SignsErrors (c : Catalog) : Prop :=
  ∀ e ∈ c.errors.entries, Signed c.names e.2.name e.2.signature (e.2.params.map (·.2))

variable {c : Catalog}

theorem SignsErrors.addError (h : c.SignsErrors) {f : Source.FunctionDecl}
    (hadd : c.addError f = .ok c') : c'.SignsErrors := by
  obtain ⟨params, hparams, hadd⟩ := bind_eq_ok.1 hadd
  obtain ⟨types, htypes, hadd⟩ := bind_eq_ok.1 hadd
  cases hadd
  intro e he
  rcases mem_insertEntry he with rfl | he
  · refine ⟨Abi.printable_of_mapM hparams fun _ _ => rfl, types, ?_, rfl⟩
    rw [mapM_map]
    exact htypes
  · exact h e he

theorem signsErrors_ofFile (h : ofFile file available = .ok c) : c.SignsErrors :=
  ofFile_invariant h (fun _ _ _ _ => forall_mem_nil _) (fun _ _ _ hstep h => h.addError hstep)
    fun _ _ h => h

theorem signed_eventOf {ev : Abi.Event} (h : c.eventOf decl = .ok ev) :
    Signed c.names ev.name ev.signature (ev.fields.map (·.ty)) := by
  obtain ⟨fields, hfields, h⟩ := bind_eq_ok.1 h
  dsimp only at h
  split at h
  · cases h
  · obtain ⟨types, htypes, h⟩ := bind_eq_ok.1 h
    cases h
    refine ⟨Abi.printable_of_mapM hfields fun _ _ => rfl, types, ?_, rfl⟩
    rw [mapM_map]
    exact htypes

end Catalog

/-! ## Functions -/

theorem Ty.printable_getterShape {names : TypeNames} {t : Ty} (h : t.Printable names) :
    ∀ key ∈ t.getterShape.1, key.Printable names := by
  fun_induction Ty.getterShape t with
  | case1 key value keys result hshape ih =>
    rw [hshape] at ih
    exact forall_mem_cons.2 ⟨h.1, ih h.2⟩
  | case2 elem length keys result hshape ih =>
    rw [hshape] at ih
    exact forall_mem_cons.2 ⟨trivial, ih h.1⟩
  | case3 t => exact forall_mem_nil _

namespace Compilation

open Lowering
open Abi (Signed)

section

variable {context : Lowering.Context} {e : Exposed}

def Exposed.Signs (context : Lowering.Context) (e : Exposed) : Prop :=
  ∀ f ∈ e.functions, Signed context.catalog.names f.name f.signature (f.params.map (·.ty))

/-- What a class shows of its functions is made from types that can be read. -/
theorem Assembly.Valid.signs {a : Assembly} (h : a.Valid context) : a.exposed.Signs context := by
  obtain ⟨_, _, getters, hgetters, htraces⟩ := h.shows
  obtain ⟨entries, hentries, hfunctions⟩ := htraces.offers
  rw [Exposed.Signs, hfunctions]
  refine forall_mem_append.2 ⟨fun f hf => ?_, fun f hf => ?_⟩
  · obtain ⟨q, -, hq⟩ := exists_of_mem_mapM hentries hf
    obtain ⟨params, hparams, hq⟩ := bind_eq_ok.1 hq
    obtain ⟨returns, -, hq⟩ := bind_eq_ok.1 hq
    exact Abi.signed_make (Abi.printable_resolve hparams) hq
  · obtain ⟨field, ty, p, p', -, hty, hrun⟩ := hgetters f hf
    obtain ⟨-, hmake⟩ := Advances.read_bind Advances.succeeded f p' hrun
    refine Abi.signed_make (fun q hq => ?_) hmake
    obtain ⟨⟨key, i⟩, hkey, rfl⟩ := mem_map.1 hq
    exact Ty.printable_getterShape (Ty.printable_parse hty) key (fst_mem_of_mem_zipIdx hkey)

end

/-! ## The description of a class -/

theorem map_identity {α : Type} {f : α → Outcome Abi.Entry}
    {g : α → Abi.EntryKind × Option String} {xs : List α} {entries : List Abi.Entry}
    (h : xs.mapM f = .ok entries) (hf : ∀ x ∈ xs, ∀ e, f x = .ok e → e.identity = g x) :
    entries.map Abi.Entry.identity = xs.map g := by
  rw [mapM_eq_ok] at h
  induction h with
  | nil => rfl
  | cons hx _ ih =>
    rw [map_cons, map_cons, hf _ mem_cons_self _ hx, ih fun x hx => hf x (mem_cons_of_mem _ hx)]

theorem map_signature?_filter (kind : Abi.EntryKind) (entries : List Abi.Entry) :
    (entries.filter (·.kind = kind)).map Abi.Entry.signature? =
      ((entries.map Abi.Entry.identity).filter (·.1 = kind)).map (·.2) := by
  rw [List.filter_map, List.map_map]
  rfl

/-- All that a description tells: functions, a constructor, events, custom errors, and the functions
without a name. -/
theorem map_identity_abiEntries {e : Exposed} {creation : Creation} {events : List Abi.Event}
    {errors : List Abi.CustomError} {entries : List Abi.Entry} (hfunctions : e.Signs context)
    (hevents : ∀ ev ∈ events,
      Signed context.catalog.names ev.name ev.signature (ev.fields.map (·.ty)))
    (herrors : ∀ err ∈ errors,
      Signed context.catalog.names err.name err.signature (err.params.map (·.2)))
    (h : abiEntries context e creation events errors = .ok entries) :
    entries.map Abi.Entry.identity =
      e.functions.map (fun f => (Abi.EntryKind.function, some f.signature)) ++
      context.lineage.effectiveConstructor?.toList.map (fun _ => (Abi.EntryKind.constructor, none)) ++
      events.map (fun ev => (Abi.EntryKind.event, some ev.signature)) ++
      errors.map (fun err => (Abi.EntryKind.error, some err.signature)) ++
      e.fallback.toList.map (fun _ => (Abi.EntryKind.fallback, none)) ++
      e.receive.toList.map (fun _ => (Abi.EntryKind.receive, none)) := by
  obtain ⟨functions, hfs, h⟩ := bind_eq_ok.1 h
  obtain ⟨constructors, hcs, h⟩ := bind_eq_ok.1 h
  obtain ⟨evs, hevs, h⟩ := bind_eq_ok.1 h
  obtain ⟨errs, herrs, h⟩ := bind_eq_ok.1 h
  cases h
  simp only [List.map_append, List.map_map]
  rw [map_identity hfs fun f hf _ h => Abi.identity_ofFunction (hfunctions f hf) h,
    map_identity hevs fun ev hev _ h => Abi.identity_ofEvent (hevents ev hev) h,
    map_identity herrs fun err herr _ h => Abi.identity_ofError (herrors err herr) h,
    map_identity hcs fun c _ entry hentry => ?_]
  · rfl
  · obtain ⟨inputs, -, hentry⟩ := bind_eq_ok.1 hentry
    cases hentry
    rfl

/-- A type that was read is described exactly when it has a canonical name, and the description
expands to this name; neither depends on how deep structs are followed, if it is as deep as there are
structs. The signatures that the description of a class gives for its functions, events and custom
errors are those that they are identified by. -/
theorem descriptions_match_signatures :
    (∀ (names : TypeNames) text t, Ty.parse names text = .ok t → ∀ name,
      (Abi.ParamEntry.describe names name t).map Abi.ParamEntry.expansion = t.canonicalName names) ∧
    (∀ (d : Declarations) structSlots text t, Ty.parse (d.typeNames structSlots) text = .ok t →
      ∀ depth, d.structs.size ≤ depth → ∀ name,
        Abi.describeWith (Abi.structComponents (d.typeNames structSlots) depth) name "" t =
            Abi.ParamEntry.describe (d.typeNames structSlots) name t ∧
          t.canonicalWith ((d.typeNames structSlots).canonicalStruct depth) =
            t.canonicalName (d.typeNames structSlots)) ∧
    ∀ options file available className c text,
      compile options file available className = .ok c → c.abi = some text →
      ∃ entries, text = Abi.render entries ∧
        (entries.filter (·.kind = .function)).map Abi.Entry.signature? =
          c.functions.map (fun f => some f.signature) ∧
        (entries.filter (·.kind = .event)).map Abi.Entry.signature? =
          c.events.map (fun e => some e.signature) ∧
        (entries.filter (·.kind = .error)).map Abi.Entry.signature? =
          c.errors.map (fun e => some e.signature) := by
  refine ⟨?_, ?_, ?_⟩
  · exact fun names text t ht name => Abi.expansion_describe (Ty.printable_parse ht) name
  · exact fun d structSlots text t ht depth hdepth name =>
      Abi.bound_irrelevant hdepth (Ty.printable_parse ht) name
  · intro options file available className c text h htext
    obtain ⟨context, hcontext, a, ha, hmade⟩ := exists_made h
    obtain ⟨entries, hentries, rfl⟩ := hmade.abi text htext
    have hsigned : ∀ ev ∈ c.events,
        Signed context.catalog.names ev.name ev.signature (ev.fields.map (·.ty)) := by
      intro ev hev
      obtain ⟨decl, -, hdecl⟩ := exists_of_mem_mapM hmade.events hev
      exact Catalog.signed_eventOf hdecl
    have hsigned' : ∀ err ∈ c.errors,
        Signed context.catalog.names err.name err.signature (err.params.map (·.2)) := by
      rw [hmade.errors]
      exact List.forall_mem_map.2 (Catalog.signsErrors_ofFile (settled_of_contextOf hcontext).1)
    have hall := map_identity_abiEntries ha.signs hsigned hsigned' hentries
    refine ⟨entries, rfl, ?_, ?_, ?_⟩ <;>
      rw [map_signature?_filter, hall] <;>
      simp [hmade.functions, List.filter_map, Function.comp_def]

/-- A class that shows points in a list of scores, an event and a custom error. -/
def charting : Source.File where
  path := "charting"
  interfaces := [{ name := "Point", fields := [⟨"x", "u8"⟩, ⟨"y", "i16"⟩] }]
  functions := [{ name := "Lost", params := [⟨"at", "Point[2][]"⟩], neverReturns := true }]
  classes := [{
    name := "Chart"
    events := [⟨"Moved", [⟨"who", "address", true⟩, ⟨"path", "[Point, bool][3]", false⟩], false⟩]
    fields := [{ name := "scores", ty := "Mapping<address, u8[]>", visibility := .public }] }]

theorem descriptions_match_signatures_charting : ∃ c text entries,
    compile {} charting [] "Chart" = .ok c ∧ c.abi = some text ∧ text = Abi.render entries ∧
    (entries.filter (·.kind = .function)).map Abi.Entry.signature? =
      [some "scores(address,uint256)"] ∧
    (entries.filter (·.kind = .event)).map Abi.Entry.signature? =
      [some "Moved(address,((uint8,int16),bool)[3])"] ∧
    (entries.filter (·.kind = .error)).map Abi.Entry.signature? =
      [some "Lost((uint8,int16)[2][])"] := by
  obtain ⟨c, hc, heval⟩ := exists_of_map_toOption
    (show (compile {} charting [] "Chart").toOption.map (fun c => (c.abi.isSome,
        c.functions.map (fun f => some f.signature), c.events.map (fun e => some e.signature),
        c.errors.map (fun e => some e.signature))) =
      some (true, [some "scores(address,uint256)"], [some "Moved(address,((uint8,int16),bool)[3])"],
        [some "Lost((uint8,int16)[2][])"]) by decide +kernel)
  simp only [Prod.mk.injEq] at heval
  obtain ⟨habi, hfunctions, hevents, herrors⟩ := heval
  obtain ⟨text, htext⟩ := Option.isSome_iff_exists.1 habi
  obtain ⟨-, -, hcompiled⟩ := descriptions_match_signatures
  obtain ⟨entries, hrender, hfs, hevs, herrs⟩ := hcompiled _ _ _ _ c text hc htext
  exact ⟨c, text, entries, hc, htext, hrender, hfs.trans hfunctions, hevs.trans hevents,
    herrs.trans herrors⟩

end Compilation

end ContractYul
