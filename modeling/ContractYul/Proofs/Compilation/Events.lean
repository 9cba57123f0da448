import ContractYul.Proofs.Catalog.Visible
import ContractYul.Proofs.Compilation.Surface
import ContractYul.Proofs.Lowering.Emission

/-!
# Emitted and published events

A compiled class publishes the events that the classes of its line declare. What its code logs for an
`emit` statement is the event that the name stands for among all classes in sight, which is the one
that the first of them declares. Where only one class in sight declares the name, or all that do declare
the same, the two agree; a class out of the line that is seen earlier takes the name over.

Main statement: `emitted_event_published_iff`.
-/

open List

namespace ContractYul.Compilation

open Lowering Outcome
open Source (ClassDecl MethodDecl ConstructorDecl EventDecl)
open Source.Stmt (allEmits)

/-! ## Code of methods and constructors -/

variable {context : Lowering.Context} {a : Assembly} {className : String} {c : Compiled}

theorem records_of_made (h : Made context (.method owner m irName) f) :
    ∃ body, m.body = some body ∧ Records context.catalog (allEmits body) f.body := by
  obtain ⟨p, p', h⟩ := h
  replace h : Lowering.method owner m irName context p = .ok (f, p') := h
  unfold Lowering.method at h
  cases hbody : m.body with
  | none =>
    rw [hbody] at h
    cases h
  | some body =>
    rw [hbody] at h
    exact ⟨body, rfl, records_functionOf h⟩

/-- The call of the parent constructor that a constructor implies emits nothing. -/
theorem allEmits_constructorBody (h : constructorBody l owner ctor = .ok body) :
    allEmits body = allEmits ctor.body := by
  unfold constructorBody at h
  split at h
  · rw [Except.ok.inj h]
  · split at h
    · rw [Except.ok.inj h]
    · obtain ⟨-, -, h⟩ := bind_eq_ok.1 h
      rw [← pure_eq_ok.1 h, allEmits, Source.Stmt.emits, nil_append]

theorem name_constructor {q : ClassDecl × ConstructorDecl}
    (h : Lowering.constructor q.1 q.2 context p = .ok (f, p')) :
    f.name = constructorName q.1.name := by
  obtain ⟨-, hsignature, -⟩ := Lowering.Advances.constructor f p' h
  exact congrArg Yul.Call.name (singleton_inj.1 hsignature)

theorem records_constructor {q : ClassDecl × ConstructorDecl}
    (h : Lowering.constructor q.1 q.2 context p = .ok (f, p')) :
    Records context.catalog (allEmits q.2.body) f.body := by
  obtain ⟨⟨body, p₁⟩, hbody, h⟩ := bind_eq_ok.1 h
  obtain ⟨-, hbody⟩ := Advances.succeeded _ _ hbody
  rw [← allEmits_constructorBody hbody]
  exact records_functionOf h

theorem exists_constructor (ha : a.Valid context) (hq : q ∈ constructors context.lineage)
    (className : String) :
    ∃ f : Yul.Function, f.name = constructorName q.1.name ∧
      f.toStmt ∈ (a.object className).creation ∧
      Records context.catalog (allEmits q.2.body) f.body := by
  obtain ⟨f, hf, p, p', hrun⟩ := exists_of_forall₂ ha.creation.made hq
  refine ⟨f, name_constructor hrun, ?_, records_constructor hrun⟩
  exact mem_append_left _ (mem_append_right _ (mem_map_of_mem hf))

/-! ## Published events -/

/-- Two events are logged alike: with the same topic for the signature, and the same fields as
topics. -/
structure SameLog (e e' : Abi.Event) : Prop where
  topics : signatureTopics e = signatureTopics e'
  split : e.fields.map (·.indexed) = e'.fields.map (·.indexed)

def Publishes (c : Compiled) (name : String) (event : Abi.Event) : Prop :=
  ∃ e ∈ c.events, e.name = name ∧ SameLog e event

theorem name_of_eventOf {catalog : Catalog} (h : catalog.eventOf d = .ok e) : e.name = d.name := by
  obtain ⟨fields, -, h⟩ := bind_eq_ok.1 h
  simp only at h
  split at h
  · cases h
  · obtain ⟨types, -, h⟩ := bind_eq_ok.1 h
    cases h
    rfl

theorem mem_events_iff (hmade : a.Makes context className c) :
    e ∈ c.events ↔
      ∃ cls ∈ context.lineage.classes, ∃ d ∈ cls.events, context.catalog.eventOf d = .ok e := by
  have hall := mapM_eq_ok.1 hmade.events
  constructor
  · intro he
    obtain ⟨d, hd, hread⟩ := exists_of_mem_mapM hmade.events he
    obtain ⟨cls, hcls, hd⟩ := mem_flatMap.1 hd
    exact ⟨cls, hcls, d, hd, hread⟩
  · rintro ⟨cls, hcls, d, hd, hread⟩
    obtain ⟨e', he', hread'⟩ := exists_of_forall₂ hall (mem_flatMap.2 ⟨cls, hcls, hd⟩)
    obtain rfl := Except.ok.inj (hread.symm.trans hread')
    exact he'

theorem visible_of_line (h : contextOf options file available className = .ok context)
    (hcls : cls ∈ context.lineage.classes) : cls ∈ Declarations.visibleClasses file available := by
  obtain ⟨name, -, hfound⟩ := ((topological_of_contextOf h).mem_iff cls).1 hcls
  exact (Catalog.sees_ofFile (settled_of_contextOf h).1).classes (name, cls)
    (OrderedMap.mem_of_get? hfound)

/-- Every `emit` statement of a method or constructor of a compiled class is written as a log of the
first event of its name in sight. The class publishes an event with that log just when a class of its
line declares one that reads so; it does when the classes in sight that declare the name agree. -/
theorem emitted_event_published_iff {options : Options} {file : Source.File}
    {available : List Source.File} (h : compile options file available className = .ok c) :
    ∃ context, contextOf options file available className = .ok context ∧
      (∀ owner m irName, .method owner m irName ∈ methodJobs context.lineage →
        ∃ (body : List Source.Stmt) (f : Yul.Function), m.body = some body ∧ f.name = irName ∧
          f.toStmt ∈ c.object.deployed ∧ Records context.catalog (allEmits body) f.body) ∧
      (∀ q ∈ constructors context.lineage, ∃ f : Yul.Function,
        f.name = constructorName q.1.name ∧ f.toStmt ∈ c.object.creation ∧
          Records context.catalog (allEmits q.2.body) f.body) ∧
      ∀ name decl event, context.catalog.events.get? name = some decl →
        context.catalog.eventOf decl = .ok event →
        Declarations.firstEvent? (Declarations.visibleClasses file available) name = some decl ∧
        (Publishes c name event ↔ ∃ cls ∈ context.lineage.classes, ∃ d ∈ cls.events,
          d.name = name ∧ ∃ e, context.catalog.eventOf d = .ok e ∧ SameLog e event) ∧
        ((∀ cls ∈ Declarations.visibleClasses file available, ∀ d ∈ cls.events,
            d.name = name → d = decl) →
          (∃ cls ∈ context.lineage.classes, ∃ d ∈ cls.events, d.name = name) →
          Publishes c name event) := by
  obtain ⟨context, hcontext, a, ha, hmade⟩ := exists_made h
  have hsees := Catalog.sees_ofFile (settled_of_contextOf hcontext).1
  refine ⟨context, hcontext, fun owner m irName hj => ?_, fun q hq => ?_,
    fun name decl event hdecl hevent => ?_⟩
  · obtain ⟨f, hjob, hf⟩ := ha.exists_deployed hj className
    obtain ⟨body, hbody, hrecords⟩ := records_of_made hjob
    exact ⟨body, f, hbody, name_of_made_method hjob, hmade.object ▸ hf, hrecords⟩
  · rw [hmade.object]
    exact exists_constructor ha hq className
  · have hpublishes : Publishes c name event ↔ ∃ cls ∈ context.lineage.classes, ∃ d ∈ cls.events,
        d.name = name ∧ ∃ e, context.catalog.eventOf d = .ok e ∧ SameLog e event := by
      constructor
      · rintro ⟨e, he, rfl, hsame⟩
        obtain ⟨cls, hcls, d, hd, hread⟩ := (mem_events_iff hmade).1 he
        exact ⟨cls, hcls, d, hd, (name_of_eventOf hread).symm, e, hread, hsame⟩
      · rintro ⟨cls, hcls, d, hd, rfl, e, hread, hsame⟩
        exact ⟨e, (mem_events_iff hmade).2 ⟨cls, hcls, d, hd, hread⟩, name_of_eventOf hread, hsame⟩
    refine ⟨hsees.events name ▸ hdecl, hpublishes, fun hagree hdeclared => hpublishes.2 ?_⟩
    obtain ⟨cls, hcls, d, hd, hname⟩ := hdeclared
    obtain rfl := hagree cls (visible_of_line hcontext hcls) d hd hname
    exact ⟨cls, hcls, d, hd, hname, event, hevent, rfl, rfl⟩

/-- A class that declares an event and emits it, behind a class with events of its own. -/
def announcing (others : List EventDecl) : Source.File where
  path := "announcing"
  classes := [
    { name := "Other", events := others },
    { name := "C"
      events := [⟨"E", [⟨"id", "u256", true⟩], false⟩]
      methods := [{ name := "run", body := some [.emit "E" [.number "7"]] }] }]

/-- What the name of the event stands for: its declaration, how that reads, and the events that the
classes of the line declare. -/
structure Meaning where
  decl : Option EventDecl
  signature : Option String
  split : Option (List Bool)
  line : List (List EventDecl)
  deriving DecidableEq

def meaning (context : Lowering.Context) : Meaning :=
  let decl := context.catalog.events.get? "E"
  let event := decl.bind fun d => (context.catalog.eventOf d).toOption
  ⟨decl, event.map (·.signature), event.map (·.fields.map (·.indexed)),
    context.lineage.classes.map (·.events)⟩

theorem exists_of_meaning (h : meaning context = ⟨some decl, some signature, some split, line⟩) :
    ∃ event, context.catalog.events.get? "E" = some decl ∧
      context.catalog.eventOf decl = .ok event ∧ event.signature = signature ∧
      event.fields.map (·.indexed) = split ∧ context.lineage.classes.map (·.events) = line := by
  simp only [meaning, Meaning.mk.injEq] at h
  obtain ⟨hdecl, hsignature, hsplit, hline⟩ := h
  rw [hdecl, Option.bind_some] at hsignature hsplit
  obtain ⟨event, hevent, hsignature⟩ := exists_of_map_toOption hsignature
  rw [hevent] at hsplit
  exact ⟨event, hdecl, hevent, hsignature, Option.some.inj hsplit, hline⟩

theorem emitted_event_published_alone : ∃ c context event,
    compile {} (announcing []) [] "C" = .ok c ∧
    contextOf {} (announcing []) [] "C" = .ok context ∧
    context.catalog.eventOf ⟨"E", [⟨"id", "u256", true⟩], false⟩ = .ok event ∧
    event.signature = "E(uint256)" ∧ Publishes c "E" event := by
  obtain ⟨c, hc, -⟩ := exists_of_map_toOption
    (show (compile {} (announcing []) [] "C").toOption.map (fun _ => ()) = some () by
      decide +kernel)
  obtain ⟨context', hcontext', hmeaning⟩ := exists_of_map_toOption
    (show (contextOf {} (announcing []) [] "C").toOption.map meaning =
      some ⟨some ⟨"E", [⟨"id", "u256", true⟩], false⟩, some "E(uint256)", some [true],
        [[⟨"E", [⟨"id", "u256", true⟩], false⟩]]⟩ by decide +kernel)
  obtain ⟨event, hdecl, hevent, hsignature, -, hline⟩ := exists_of_meaning hmeaning
  obtain ⟨context, hcontext, -, -, hall⟩ := emitted_event_published_iff hc
  obtain rfl := Except.ok.inj (hcontext.symm.trans hcontext')
  obtain ⟨-, -, hpublished⟩ := hall "E" _ event hdecl hevent
  refine ⟨c, context, event, hc, hcontext, hevent, hsignature, hpublished (by decide) ?_⟩
  obtain ⟨cls, hcls, hevents⟩ : ∃ cls ∈ context.lineage.classes,
      cls.events = [⟨"E", [⟨"id", "u256", true⟩], false⟩] := by
    have hmem : [⟨"E", [⟨"id", "u256", true⟩], false⟩] ∈
        context.lineage.classes.map (·.events) := by
      rw [hline]
      exact List.mem_singleton.2 rfl
    exact List.mem_map.1 hmem
  exact ⟨cls, hcls, ⟨"E", [⟨"id", "u256", true⟩], false⟩, by simp [hevents], rfl⟩

/-- A class that is seen first, and is no ancestor, takes the name of an event over: what is emitted
has neither the signature nor the topics of the event that is published. -/
theorem foreign_event_not_published : ∃ c context event,
    compile {} (announcing [⟨"E", [⟨"id", "u128", false⟩], false⟩]) [] "C" = .ok c ∧
    contextOf {} (announcing [⟨"E", [⟨"id", "u128", false⟩], false⟩]) [] "C" = .ok context ∧
    context.catalog.events.get? "E" = some ⟨"E", [⟨"id", "u128", false⟩], false⟩ ∧
    context.catalog.eventOf ⟨"E", [⟨"id", "u128", false⟩], false⟩ = .ok event ∧
    event.signature = "E(uint128)" ∧ c.events.map (·.signature) = ["E(uint256)"] ∧
    ¬ Publishes c "E" event := by
  obtain ⟨c, hc, hevents⟩ := exists_of_map_toOption
    (show (compile {} (announcing [⟨"E", [⟨"id", "u128", false⟩], false⟩]) [] "C").toOption.map
      (fun c => (c.events.map (·.signature), c.events.map fun e => e.fields.map (·.indexed))) =
        some (["E(uint256)"], [[true]]) by decide +kernel)
  obtain ⟨hsignatures, hsplits⟩ := Prod.mk.inj hevents
  obtain ⟨context, hcontext, hmeaning⟩ := exists_of_map_toOption
    (show (contextOf {} (announcing [⟨"E", [⟨"id", "u128", false⟩], false⟩]) [] "C").toOption.map
      meaning = some ⟨some ⟨"E", [⟨"id", "u128", false⟩], false⟩, some "E(uint128)", some [false],
        [[⟨"E", [⟨"id", "u256", true⟩], false⟩]]⟩ by decide +kernel)
  obtain ⟨event, hdecl, hevent, hsignature, hsplit, -⟩ := exists_of_meaning hmeaning
  refine ⟨c, context, event, hc, hcontext, hdecl, hevent, hsignature, hsignatures, ?_⟩
  rintro ⟨e, he, -, hsame⟩
  have hmem := List.mem_map_of_mem (f := fun e : Abi.Event => e.fields.map (·.indexed)) he
  rw [hsplits, List.mem_singleton, hsame.split, hsplit] at hmem
  cases hmem

end ContractYul.Compilation
