import ContractYul.Proofs.Compilation.Entry
import ContractYul.Proofs.Compilation.Steps

/-!
# The parts of a compiled class

An object is put together from methods and getters, the code that runs at deployment, the functions
that these request, and the entry code. Functions are requested while others are lowered. They are
taken from a list of what waits, which gets longer meanwhile. Every request is for a declared
function and is made once, so there are at most as many as functions are declared, and in the end
none waits.

Main statements: `exists_assembly`, a compiled class has parts that are linked to each other, and
every function that was requested is among them; `Assembly.Valid.exists_deployed`, a method that the
class has is lowered into its deployed part.
-/

open List

namespace ContractYul.Compilation

open Lowering Outcome Dispatch
open Lowering.Advances (methodSignature constructorSignature)
open Source (ClassDecl MethodDecl ConstructorDecl)
open Yul (Call Stmt num call textLiteral Instructed instructed)

variable {context : Lowering.Context} {p p' : Progress}

/-! ## Deployment -/

def constructors (l : Lineage) : List (ClassDecl × ConstructorDecl) :=
  l.classes.filterMap fun c => c.constructor.map (c, ·)

def CreationCallee (context : Lowering.Context) (p : Progress) (c : Call) : Prop :=
  Callee context .initializer p c ∨
    ∃ q ∈ context.lineage.effectiveConstructor?, constructorSignature q = c

instance : Instructed (CreationCallee context p) where
  instruction _ h := .inl (.shared (.inl h))

theorem CreationCallee.of_subset (hregistry : p.registry.Extends p'.registry)
    (hrequests : ∀ r ∈ p.requested, r ∈ p'.requested) (hc : CreationCallee context p c) :
    CreationCallee context p' c :=
  hc.imp_left fun hc => hc.of_subset (fun _ => id) hregistry hrequests

structure Creation.Linked (context : Lowering.Context) (p : Progress) (c : Creation) : Prop where
  code : Stmt.AllLinked (CreationCallee context p) c.code
  definitions : Defines context .constructor
    ((constructors context.lineage).map constructorSignature) p c.definitions
  made : Forall₂ (fun q f => ∃ p p', Lowering.constructor q.1 q.2 context p = .ok (f, p'))
    (constructors context.lineage) c.definitions

theorem Creation.Linked.of_subset {c : Creation} (hregistry : p.registry.Extends p'.registry)
    (hrequests : ∀ r ∈ p.requested, r ∈ p'.requested) (hc : c.Linked context p) :
    c.Linked context p' where
  code := hc.code.mono fun _ h => h.of_subset hregistry hrequests
  definitions := hc.definitions.of_subset hregistry hrequests
  made := hc.made

variable {className : String} {r : Request} {c : Compiled} {requests : List Request} {count : Nat}

theorem advances_readArguments :
    Advances context p (readArguments className params) fun p r =>
      Stmt.AllLinked p.registry.Callee r.1 ∧ r.2.length = params.length ∧
        ∀ C : Call → Prop, ∀ e ∈ r.2, e.Linked C 1 := by
  refine Advances.read_bind (Advances.get_bind (Advances.unchanged.bind fun p₁ r _ hr => ?_))
  obtain ⟨code, args, g⟩ := r
  obtain ⟨rfl, hread⟩ := hr
  obtain ⟨hgrows, hcode, hlength, hargs⟩ := linked_constructorArguments hread
  refine (Advances.modify (.of_registry hgrows rfl rfl)).bind fun _ _ _ hset => .pure ?_
  obtain rfl := hset
  exact ⟨hcode, hlength, hargs⟩

theorem linked_initMemory [Instructed C] : initMemory.Linked C := by
  simp [initMemory, Yul.Op.freePointer]

theorem linked_returnDeployed [Instructed C] : Stmt.AllLinked C (returnDeployed className) := by
  have hcodecopy := instructed C ⟨"codecopy", 3, 0⟩ (by decide)
  have hoffset := instructed C ⟨"dataoffset", 1, 1⟩ (by decide)
  have hsize := instructed C ⟨"datasize", 1, 1⟩ (by decide)
  have hreturn := instructed C ⟨"return", 2, 0⟩ (by decide)
  simp [returnDeployed, hcodecopy, hoffset, hsize, hreturn]

theorem advances_creation : Advances context p creation fun p c => c.Linked context p := by
  refine Advances.read_bind ?_
  refine advances_mapM_lift.bind fun _ params _ hparams => ?_
  refine advances_readArguments.bind fun p₂ r _ hr => ?_
  obtain ⟨reads, args⟩ := r
  obtain ⟨hreads, hlength, hargs⟩ := hr
  refine Advances.initializers.bind fun p₃ initial h₃ hinitial => ?_
  refine (Advances.mapDefines constructorSignature fun p q _ => Advances.constructor).ran.bind
    fun p₄ definitions h₄ hdefinitions => .pure ⟨?_, hdefinitions.1, forall₂_of_mapM hdefinitions.2⟩
  have hcheck : Stmt.AllLinked (CreationCallee context p₄)
      (if context.lineage.effectiveConstructor?.any (·.2.payable) then []
        else [rejectValue]) := by
    split
    · exact trivial
    · simpa using linked_rejectValue
  have hinvoke : Stmt.AllLinked (CreationCallee context p₄)
      (context.lineage.effectiveConstructor?.toList.map fun q =>
        Stmt.run (constructorName q.1.name) args) := by
    refine Stmt.allUse_map.2 fun q hq => Yul.linked_call.2 ⟨.inr ⟨q, ?_, ?_⟩, hargs _⟩
    · exact Option.mem_toList.1 hq
    -- the constructor gets the arguments that were read for it
    · have hq : context.lineage.effectiveConstructor? = some q := Option.mem_toList.1 hq
      rw [hlength, ← (mapM_eq_ok.1 hparams).length_eq, hq]
      rfl
  refine Stmt.allUse_append.2 ⟨Stmt.allUse_append.2 ⟨Stmt.allUse_append.2
    ⟨Stmt.allUse_append.2 ⟨Stmt.allUse_append.2 ⟨?_, hcheck⟩, ?_⟩, ?_⟩, hinvoke⟩,
    linked_returnDeployed⟩
  · simpa using linked_initMemory
  · refine hreads.mono fun _ hc => .inl (.shared ?_)
    exact (h₃.trans h₄).registry.includes.callee hc
  · exact hinitial.mono fun _ hc => .inl (hc.mono h₄)

/-! ## Functions on request -/

def Request.Signature (catalog : Catalog) (c : Call) : Request → Prop
  | .library owner name => ∃ m, catalog.libraryMethod owner name = .ok m ∧
      c = methodSignature (libraryFunctionName owner m.name) m
  | .free name => ∃ f, catalog.freeFunction? name = some f ∧
      c = ⟨freeFunctionName f.name, f.params.length, f.returns.length⟩

/-- A function serves a request, its body calls what there is, and it names variables in order. -/
structure Serves (context : Lowering.Context) (p : Progress) (r : Request) (f : Yul.Function) :
    Prop where
  signature : Request.Signature context.catalog f.signature r
  linked : Stmt.AllLinked (Callee context .runtime p) f.body
  orderly : Orderly f

theorem serves_of_defines {c : Call} (h : Defines context .runtime [c] p [f])
    (hc : Request.Signature context.catalog c r) : Serves context p r f := by
  obtain rfl : f.signature = c := by simpa using h.signatures
  exact ⟨hc, h.linked f (by simp), h.orderly f (by simp)⟩

theorem advances_requested : Advances context p (requested r) fun p f => Serves context p r f := by
  cases r with
  | library owner name =>
    refine Advances.read_bind (Advances.succeeded.bind fun _ m _ hm => ?_)
    exact Advances.libraryMethod.weaken fun _ f _ hf => serves_of_defines hf ⟨m, hm, rfl⟩
  | free name =>
    refine Advances.read_bind ?_
    split
    · rename_i f hf
      exact Advances.freeFunction.weaken fun _ d _ hd => serves_of_defines hd ⟨f, hf, rfl⟩
    · exact .throw

/-- What waits is lowered, one function after the other, until nothing waits or a function is refused.
The requests are those that are taken up. -/
inductive Drains (context : Lowering.Context) : Progress → List Request →
    Outcome (List Yul.Function × Progress) → Prop where
  | done {p : Progress} (h : p.pending = []) : Drains context p [] (.ok ([], p))
  | refused {p : Progress} {r : Request} {rest : List Request} {e : CompileError}
      (h : p.pending = r :: rest) (hr : requested r context { p with pending := rest } = .error e) :
      Drains context p [r] (.error e)
  | served {p p' : Progress} {r : Request} {rest requests : List Request} {f : Yul.Function}
      {result : Outcome (List Yul.Function × Progress)} (h : p.pending = r :: rest)
      (hr : requested r context { p with pending := rest } = .ok (f, p'))
      (hrest : Drains context p' requests result) :
      Drains context p (r :: requests) (result.map fun q => (f :: q.1, q.2))

theorem Drains.links (h : Drains context p requests result) (hresult : result = .ok (fs, p')) :
    p.registry.Grows p'.registry ∧ (∀ r ∈ p.requested, r ∈ p'.requested) ∧
      Forall₂ (Serves context p') requests fs := by
  induction h generalizing fs with
  | done =>
    cases hresult
    exact ⟨.refl, fun _ => id, .nil⟩
  | refused => cases hresult
  | @served _ _ _ _ _ _ result hpending hr _ ih =>
    cases result with
    | error => cases hresult
    | ok q =>
      cases hresult
      obtain ⟨hgrows, hf⟩ := advances_requested _ _ hr
      obtain ⟨hregistry, hrequested, hserved⟩ := ih rfl
      refine ⟨hgrows.registry.trans hregistry, fun r hr => hrequested r (hgrows.requested hr),
        .cons { hf with linked := ?_ } hserved⟩
      exact hf.linked.mono fun _ hc => hc.of_subset (fun _ => id) hregistry.includes hrequested

theorem bind_of_ok {f : α → Session β} (h : m context p = .ok (a, p')) :
    (m >>= f) context p = f a context p' := by
  show (m context p >>= fun q => f q.1 context q.2) = _
  rw [h]
  rfl

theorem lowerPending_of_nil (h : p.pending = []) :
    lowerPending (count + 1) context p = .ok ([], p) := by
  have hnext : nextPending context p = .ok (none, p) := by
    obtain ⟨registry, dependencies, pending, requested, warnings⟩ := p
    obtain rfl : pending = [] := h
    rfl
  rw [lowerPending, bind_of_ok hnext]
  rfl

theorem lowerPending_of_cons {rest : List Request} (h : p.pending = r :: rest) :
    lowerPending (count + 1) context p = (do
      let f ← requested r
      let fs ← lowerPending count
      return f :: fs : Session (List Yul.Function)) context { p with pending := rest } := by
  have hnext : nextPending context p = .ok (some r, { p with pending := rest }) := by
    obtain ⟨registry, dependencies, pending, requested, warnings⟩ := p
    obtain rfl : pending = r :: rest := h
    rfl
  rw [lowerPending, bind_of_ok hnext]

/-! ### How many requests there can be -/

def declaredRequests (catalog : Catalog) : List Request :=
  ((catalog.classes.entries.filter (·.2.isLibrary)).flatMap fun e =>
    e.2.methods.map fun m => .library e.1 m.name) ++
  catalog.functions.values.map fun f => .free f.name

theorem length_declaredRequests (catalog : Catalog) :
    (declaredRequests catalog).length = requestBound catalog := by
  have hlibraries : catalog.libraries =
      (catalog.classes.entries.filter (·.2.isLibrary)).map (·.2) := by
    rw [Catalog.libraries, OrderedMap.values, filter_map]
    rfl
  rw [requestBound, declaredRequests, hlibraries, length_append, length_flatMap]
  simp [OrderedMap.values, OrderedMap.size, Function.comp_def]

theorem mem_declaredRequests (h : r.Declared catalog) : r ∈ declaredRequests catalog := by
  cases r with
  | library owner name =>
    obtain ⟨m, hm⟩ := h
    obtain rfl := Lowers.name_of_libraryMethod hm
    unfold Catalog.libraryMethod at hm
    split at hm
    · cases hm
    · rename_i l hl
      split at hm
      · cases hm
      · rename_i hfind
        cases hm
        obtain ⟨hget, hlibrary⟩ := Option.filter_eq_some_iff.1 hl
        refine mem_append_left _ (mem_flatMap.2 ⟨(owner, l), ?_, ?_⟩)
        · exact mem_filter.2 ⟨OrderedMap.mem_of_get? hget, hlibrary⟩
        · exact mem_map.2 ⟨_, mem_of_find?_eq_some hfind, rfl⟩
  | free name =>
    obtain ⟨f, hf, rfl⟩ := h
    exact mem_append_right _ (mem_map.2 ⟨f, hf, rfl⟩)

/-- Distinct requests for declared functions are at most as many as the bound. -/
theorem length_le_requestBound (hnodup : requests.Nodup) (h : ∀ r ∈ requests, r.Declared catalog) :
    requests.length ≤ requestBound catalog := by
  rw [← length_declaredRequests]
  exact (subperm_of_subset hnodup fun r hr => mem_declaredRequests (h r hr)).length_le

/-- Declared functions were requested, each once. Some are lowered, and the others wait. -/
def Queue (catalog : Catalog) (lowered : List Request) (p : Progress) : Prop :=
  p.requested = (lowered ++ p.pending).reverse ∧ (lowered ++ p.pending).Nodup ∧
    ∀ r ∈ lowered ++ p.pending, r.Declared catalog

variable {catalog : Catalog} {lowered : List Request}

theorem Queue.grows (h : Queue catalog lowered p) (hgrows : p.Grows catalog p') :
    Queue catalog lowered p' := by
  obtain ⟨hrequested, hnodup, hdeclared⟩ := h
  obtain ⟨new, hpending, hrequested', hnodup', hnew⟩ := hgrows.requests
  rw [Queue, hpending, ← append_assoc]
  refine ⟨by rw [hrequested', hrequested, ← reverse_append], nodup_append.2
    ⟨hnodup, hnodup', ?_⟩, forall_mem_append.2 ⟨hdeclared, fun r hr => (hnew r hr).2⟩⟩
  rintro r hr r' hr' rfl
  exact (hnew r hr').1 (hrequested ▸ mem_reverse.2 hr)

theorem queue_of_grows (h : Progress.Grows catalog {} p) : Queue catalog [] p :=
  Queue.grows (by simp [Queue]) h

theorem Queue.served (h : Queue context.catalog lowered p) (hpending : p.pending = r :: rest)
    (hr : requested r context { p with pending := rest } = .ok (f, p')) :
    Queue context.catalog (lowered ++ [r]) p' := by
  refine Queue.grows ?_ (advances_requested _ _ hr).1
  simpa [Queue, hpending] using h

/-- There is no room for a request that waits behind as many as functions are declared. -/
theorem Queue.pending_eq_nil (h : Queue catalog lowered p)
    (hlength : requestBound catalog ≤ lowered.length) : p.pending = [] := by
  have hle := length_le_requestBound h.2.1 h.2.2
  rw [length_append] at hle
  exact length_eq_zero_iff.1 (by omega)

theorem drains_lowerPending (h : Queue context.catalog lowered p)
    (hcount : requestBound context.catalog ≤ lowered.length + count) :
    ∃ requests, Drains context p requests (lowerPending count context p) := by
  induction count generalizing lowered p with
  | zero => exact ⟨[], .done (h.pending_eq_nil hcount)⟩
  | succ count ih =>
    cases hpending : p.pending with
    | nil => exact ⟨[], lowerPending_of_nil hpending ▸ .done hpending⟩
    | cons r rest =>
      rw [lowerPending_of_cons hpending]
      cases hr : requested r context { p with pending := rest } with
      | error e =>
        refine ⟨[r], ?_⟩
        show Drains context p [r] (requested r context { p with pending := rest } >>= _)
        exact hr ▸ .refused hpending hr
      | ok q =>
        obtain ⟨f, p₂⟩ := q
        obtain ⟨requests, hrest⟩ := ih (h.served hpending hr) <| by
          rw [length_append, length_singleton]
          omega
        refine ⟨r :: requests, ?_⟩
        have hresult := Drains.served hpending hr hrest
        rw [bind_of_ok hr]
        cases hserved : lowerPending count context p₂ with
        | error | ok =>
          rw [hserved] at hresult
          show Drains context p _ (lowerPending count context p₂ >>= _)
          rwa [hserved]

/-- The requests that are taken up are distinct, and when none is refused they are all there are. -/
theorem Drains.queue (h : Drains context p requests result)
    (hqueue : Queue context.catalog lowered p) :
    (lowered ++ requests).Nodup ∧ (∀ r ∈ lowered ++ requests, r.Declared context.catalog) ∧
      ∀ fs p', result = .ok (fs, p') → p'.requested = (lowered ++ requests).reverse := by
  induction h generalizing lowered with
  | done hpending =>
    rw [Queue, hpending] at hqueue
    refine ⟨hqueue.2.1, hqueue.2.2, fun fs p' hresult => ?_⟩
    cases hresult
    exact hqueue.1
  | refused hpending =>
    rw [Queue, hpending, append_cons] at hqueue
    refine ⟨(nodup_append.1 hqueue.2.1).1, (forall_mem_append.1 hqueue.2.2).1, ?_⟩
    intro fs p' hresult
    cases hresult
  | @served _ _ _ _ _ _ result hpending hr _ ih =>
    obtain ⟨hnodup, hdeclared, hdone⟩ := ih (hqueue.served hpending hr)
    rw [← append_cons] at hnodup hdeclared hdone
    refine ⟨hnodup, hdeclared, fun fs p' hresult => ?_⟩
    cases result with
    | error => cases hresult
    | ok q =>
      cases hresult
      exact hdone _ _ rfl

/-! ## Assembly -/

/-- The parts that an object is put together from. -/
structure Assembly where
  exposed : Exposed
  creation : Creation
  requests : List Request
  /-- The functions that serve the requests. -/
  served : List Yul.Function
  entry : List Stmt
  progress : Progress

def Assembly.object (a : Assembly) (className : String) : Yul.Object :=
  objectOf className a.creation a.entry (a.exposed.definitions ++ a.served) a.progress

def Assembly.Ran (context : Lowering.Context) (a : Assembly) : Prop :=
  ∃ p₁ p₂ p₃, expose context {} = .ok (a.exposed, p₁) ∧
    Compilation.creation context p₁ = .ok (a.creation, p₂) ∧
    lowerPending (requestBound context.catalog) context p₂ = .ok (a.served, p₃) ∧
    entryCode a.exposed context p₃ = .ok (a.entry, a.progress)

/-- The parts are linked to each other, and every request is served once. -/
structure Assembly.Valid (context : Lowering.Context) (a : Assembly) : Prop where
  ran : a.Ran context
  exposed : a.exposed.Lists context (exposedSignatures context) a.progress
  creation : a.creation.Linked context a.progress
  nodup : a.requests.Nodup
  complete : ∀ r ∈ a.progress.requested, r ∈ a.requests
  served : Forall₂ (Serves context a.progress) a.requests a.served
  entry : Stmt.AllLinked (Callee (entryCalls a.exposed.functions
    a.exposed.receive a.exposed.fallback) a.progress.registry) a.entry
  /-- The entry code defines no functions. -/
  flat : Stmt.definedNames a.entry = []
  closed : a.progress.registry.Closed
  ordered : a.progress.registry.Ordered
  scopes : a.progress.registry.Scoped
  own : a.progress.registry.Own

theorem Exposed.Lists.of_subset {e : Exposed} (hregistry : p.registry.Extends p'.registry)
    (hrequests : ∀ r ∈ p.requested, r ∈ p'.requested) (h : e.Lists context signatures p) :
    e.Lists context signatures p' :=
  { h with definitions := h.definitions.of_subset hregistry hrequests }

theorem advances_entryCode :
    Advances context p (entryCode e) fun p' code => p'.requested = p.requested ∧
      Stmt.definedNames code = [] ∧
      Stmt.AllLinked (Callee (entryCalls e.functions e.receive e.fallback)
        p'.registry) code := by
  refine Advances.read_bind (Advances.get_bind (Advances.unchanged.bind fun p₁ r _ hr => ?_))
  obtain ⟨code, g⟩ := r
  obtain ⟨rfl, hentry⟩ := hr
  obtain ⟨hgrows, hcode⟩ := linked_entryCode hentry
  refine (Advances.modify (.of_registry hgrows rfl rfl)).bind fun _ _ _ hset => .pure ?_
  obtain rfl := hset
  exact ⟨rfl, definedNames_entryCode hentry, hcode⟩

/-- What a compiled class shows was made from the parts and from the line of the class. -/
structure Assembly.Makes (context : Lowering.Context) (className : String) (a : Assembly)
    (c : Compiled) : Prop where
  object : c.object = a.object className
  functions : c.functions = a.exposed.functions
  events : (context.lineage.classes.flatMap (·.events)).mapM context.catalog.eventOf = .ok c.events
  errors : c.errors = context.catalog.errors.values
  abi : ∀ text, c.abi = some text → ∃ entries,
    abiEntries context a.exposed a.creation c.events c.errors = .ok entries ∧ text = Abi.render entries

theorem assembly_of_run (h : run className context {} = .ok (c, p)) :
    ∃ a : Assembly, a.Valid context ∧ a.Makes context className c := by
  obtain ⟨⟨_, p₀⟩, hcheck, h⟩ := bind_eq_ok.1 h
  obtain ⟨-, rfl, -⟩ := Advances.unchanged _ _ hcheck
  obtain ⟨⟨exposed, p₁⟩, hexpose, h⟩ := bind_eq_ok.1 h
  obtain ⟨⟨creation, p₂⟩, hcreation, h⟩ := bind_eq_ok.1 h
  obtain ⟨⟨served, p₃⟩, hpending, h⟩ := bind_eq_ok.1 h
  obtain ⟨⟨entry, p₄⟩, hentry, h⟩ := bind_eq_ok.1 h
  obtain ⟨⟨events, p₅⟩, hevents, h⟩ := bind_eq_ok.1 h
  have hmade : ∀ requests,
      Assembly.Makes context className ⟨exposed, creation, requests, served, entry, p₄⟩ c := by
    obtain ⟨-, hevents⟩ := advances_mapM_lift _ _ hevents
    intro requests
    dsimp only at h
    split at h
    · obtain ⟨⟨entries, p₆⟩, hentries, h⟩ := bind_eq_ok.1 h
      obtain ⟨-, hentries⟩ := Advances.succeeded _ _ hentries
      obtain ⟨rfl, -⟩ := pair_inj h
      exact ⟨rfl, rfl, hevents, rfl, fun text h => ⟨entries, hentries, (Option.some.inj h).symm⟩⟩
    · obtain ⟨rfl, -⟩ := pair_inj h
      exact ⟨rfl, rfl, hevents, rfl, fun text h => by cases h⟩
  have hran := And.intro hexpose (And.intro hcreation (And.intro hpending hentry))
  obtain ⟨hgrows₁, hexposed⟩ := advances_expose _ _ hexpose
  obtain ⟨hgrows₂, hcreation⟩ := advances_creation _ _ hcreation
  have hqueue := queue_of_grows (hgrows₁.trans hgrows₂)
  obtain ⟨requests, hdrains⟩ := drains_lowerPending hqueue (Nat.le_add_left _ _)
  obtain ⟨hgrows₃, hrequested₃, hserved⟩ := hdrains.links hpending
  obtain ⟨hnodup, -, hcomplete⟩ := hdrains.queue hqueue
  obtain ⟨hgrows₄, hrequested, hflat, hentry⟩ := advances_entryCode _ _ hentry
  -- what was linked before functions were served on request stays linked
  have hregistry := hgrows₃.trans hgrows₄.registry
  have hrequests : ∀ r ∈ p₂.requested, r ∈ p₄.requested := fun r hr =>
    hgrows₄.requested (hrequested₃ r hr)
  have hall := (hgrows₁.trans hgrows₂).registry.trans hregistry
  obtain ⟨jobs, getters, -, hexposed⟩ := hexposed
  refine ⟨⟨exposed, creation, requests, served, entry, p₄⟩, ?_, hmade requests⟩
  exact {
    ran := ⟨p₁, p₂, p₃, hran⟩
    exposed := hexposed.lists.of_subset (hgrows₂.registry.trans hregistry).includes fun r hr =>
      hrequests r (hgrows₂.requested hr)
    creation := hcreation.of_subset hregistry.includes hrequests
    nodup := hnodup
    complete := fun r hr => mem_reverse.1 (hcomplete _ _ hpending ▸ hrequested ▸ hr)
    served := hserved.imp fun _ _ hf =>
      { hf with linked := hf.linked.mono fun _ hc => hc.mono hgrows₄ }
    entry := hentry
    flat := hflat
    closed := hall.closed Registry.closed_empty
    ordered := hall.ordered Registry.ordered_empty
    scopes := hall.scopes Registry.scoped_empty
    own := hall.own Registry.own_empty }

theorem exists_made (h : compile options file available className = .ok c) :
    ∃ context, contextOf options file available className = .ok context ∧
      ∃ a : Assembly, a.Valid context ∧ a.Makes context className c := by
  obtain ⟨context, hcontext, h⟩ := bind_eq_ok.1 h
  obtain ⟨⟨c', p⟩, hrun, h⟩ := bind_eq_ok.1 h
  cases h
  exact ⟨context, hcontext, assembly_of_run hrun⟩

theorem exists_assembly (h : compile options file available className = .ok c) :
    ∃ context, contextOf options file available className = .ok context ∧
      ∃ a : Assembly, a.Valid context ∧ c.object = a.object className := by
  obtain ⟨context, hcontext, a, ha, hmade⟩ := exists_made h
  exact ⟨context, hcontext, a, ha, hmade.object⟩

/-! ## Where the functions come from -/

def Assembly.shared (a : Assembly) : List Yul.Function :=
  a.exposed.definitions ++ a.served ++ a.progress.registry.definitions

theorem Assembly.deployed_eq (a : Assembly) (className : String) :
    (a.object className).deployed = [initMemory] ++ a.entry ++ a.shared.map Yul.Function.toStmt :=
  rfl

theorem Assembly.creation_eq (a : Assembly) (className : String) :
    (a.object className).creation = a.creation.code ++
      a.creation.definitions.map Yul.Function.toStmt ++ a.shared.map Yul.Function.toStmt :=
  rfl

theorem exists_of_forall₂ (h : Forall₂ R as bs) (ha : a ∈ as) : ∃ b ∈ bs, R a b := by
  induction h with
  | nil => cases ha
  | cons hab _ ih =>
    rcases mem_cons.1 ha with rfl | ha
    · exact ⟨_, mem_cons_self, hab⟩
    · obtain ⟨b, hb, hab⟩ := ih ha
      exact ⟨b, mem_cons_of_mem _ hb, hab⟩

namespace Assembly.Valid

variable {a : Assembly}

theorem shows (h : a.Valid context) :
    ∃ p, a.exposed.Shows context (exposedSignatures context) p := by
  obtain ⟨p₁, -, -, hexpose, -⟩ := h.ran
  exact ⟨p₁, (advances_expose _ _ hexpose).2⟩

theorem exists_entryCode (h : a.Valid context) : ∃ g g', Dispatch.entryCode context.options.target g
    a.exposed.functions a.exposed.receive a.exposed.fallback = .ok (a.entry, g') := by
  obtain ⟨-, -, p₃, -, -, -, hentry⟩ := h.ran
  obtain ⟨⟨⟨code, g⟩, p₄⟩, hcode, hentry⟩ := bind_eq_ok.1 hentry
  obtain ⟨rfl, -⟩ := pair_inj hentry
  exact ⟨p₃.registry, g, (Advances.succeeded _ _ hcode).2⟩

/-- Methods and getters come from jobs, those of the line of classes first. -/
theorem made_exposed (h : a.Valid context) :
    ∃ getters, MadeAll context (methodJobs context.lineage ++ getters) a.exposed.definitions := by
  obtain ⟨_, jobs, _, -, htraces⟩ := h.shows
  exact ⟨jobs, htraces.made⟩

theorem exists_deployed (h : a.Valid context) (hj : j ∈ methodJobs context.lineage)
    (className : String) : ∃ f, Made context j f ∧ f.toStmt ∈ (a.object className).deployed := by
  obtain ⟨getters, hmade⟩ := h.made_exposed
  obtain ⟨f, hf, hjob⟩ := exists_of_forall₂ hmade (mem_append_left getters hj)
  refine ⟨f, hjob, ?_⟩
  refine mem_append_right _ (mem_map_of_mem ?_)
  exact mem_append_left _ (mem_append_left _ hf)

end Assembly.Valid

end ContractYul.Compilation
