import ContractYul.Compilation
import ContractYul.Proofs.Lowering.Functions

/-!
# Steps of a compilation

What the steps of a compilation define. A step lowers functions one after the other and only adds to
what the compilation needs, so code that was linked stays linked. For each step there is a list of
the signatures of the functions that it defines: methods under their plain names, overridden bodies
under names with their class, getters, and constructors.

Main statement: `advances_expose`, what a class shows is made of its methods and getters, one function
each.
-/

open List

namespace ContractYul

open Outcome
open Yul (Call Stmt)
open Source (ClassDecl MethodDecl ConstructorDecl FunctionDecl FieldDecl)

namespace Lowering

/-! ## Steps -/

/-- A step of a compilation, whenever it succeeds, adds to what the compilation needs, and its result
satisfies `R`. -/
def Advances {α : Type} (context : Context) (p : Progress) (m : Session α)
    (R : Progress → α → Prop) : Prop :=
  ∀ a p', m context p = .ok (a, p') → p.Grows context.catalog p' ∧ R p' a

namespace Advances

variable {α β : Type} {context : Context} {p : Progress} {R : Progress → α → Prop}

theorem pure (h : R p a) : Advances context p (pure a) R := by
  intro a' p' hrun
  obtain ⟨rfl, rfl⟩ : a = a' ∧ p = p' := pair_inj hrun
  exact ⟨.refl, h⟩

theorem bind (hm : Advances context p m R)
    (hf : ∀ p' a, p.Grows context.catalog p' → R p' a → Advances context p' (f a) T) :
    Advances context p (m >>= f) T := by
  intro b p'' hrun
  obtain ⟨⟨a, p'⟩, hfirst, hrun⟩ := bind_eq_ok.1 hrun
  obtain ⟨hgrows, ha⟩ := hm a p' hfirst
  obtain ⟨hgrows', hb⟩ := hf p' a hgrows ha b p'' hrun
  exact ⟨hgrows.trans hgrows', hb⟩

theorem weaken (hm : Advances context p m R)
    (h : ∀ p' a, p.Grows context.catalog p' → R p' a → S p' a) : Advances context p m S := by
  intro a p' hrun
  obtain ⟨hgrows, ha⟩ := hm a p' hrun
  exact ⟨hgrows, h p' a hgrows ha⟩

theorem ran (hm : Advances context p m R) :
    Advances context p m fun p' a => R p' a ∧ m context p = .ok (a, p') := by
  intro a p' hrun
  obtain ⟨hgrows, ha⟩ := hm a p' hrun
  exact ⟨hgrows, ha, hrun⟩

theorem throw : Advances context p (throw e : Session α) R := by
  intro a p' hrun
  simp [MonadExcept.throw, throwThe, MonadExceptOf.throw, liftM, monadLift, MonadLift.monadLift,
    StateT.lift] at hrun

variable {x : Outcome α}

theorem lift (h : ∀ a, x = .ok a → R p a) : Advances context p (liftM x : Session α) R := by
  intro a p' hrun
  obtain ⟨a', ha, hrun⟩ := bind_eq_ok.1 hrun
  obtain ⟨rfl, rfl⟩ : a' = a ∧ p = p' := by simpa using pure_eq_ok.1 hrun
  exact ⟨.refl, h a' ha⟩

theorem succeeded : Advances context p (liftM x : Session α) fun _ a => x = .ok a :=
  lift fun _ h => h

theorem unchanged : Advances context p (liftM x : Session α) fun p' a => p' = p ∧ x = .ok a :=
  lift fun _ h => ⟨rfl, h⟩

theorem read_bind (hf : Advances context p (f context) R) : Advances context p (read >>= f) R :=
  hf

theorem get_bind (hf : Advances context p (f p) R) : Advances context p (get >>= f) R :=
  hf

theorem modify (h : p.Grows context.catalog (f p)) :
    Advances context p (modify f) fun p' _ => p' = f p := by
  intro a p' hrun
  obtain rfl : f p = p' := congrArg Prod.snd (Except.ok.inj hrun)
  exact ⟨h, rfl⟩

/-- A chain of steps over a list; the invariant speaks of the elements that were met. -/
theorem foldlM (I : List α → Progress → σ → Prop) (hinit : I [] p s)
    (hstep : ∀ done a p s, a ∈ as → I done p s →
      Advances context p (f s a) fun p s => I (done ++ [a]) p s) :
    Advances context p (as.foldlM f s) (I as) := by
  induction as generalizing p s I with
  | nil => exact pure hinit
  | cons a as ih =>
    refine (hstep [] a p s mem_cons_self hinit).bind fun p' s' _ hs => ?_
    refine ih (fun done => I (a :: done)) hs fun done b p s hb hI => ?_
    exact hstep (a :: done) b p s (mem_cons_of_mem _ hb) hI

theorem inFunction {m : Lower α} {T : List Stmt → α → Prop}
    (hm : ∀ env a st, m env { progress := p } = .ok (a, st) →
      (∃ within, Lowered env within p st) ∧ T st.code a) :
    Advances context p (Lowering.inFunction className function mode owner m)
      fun p r => Stmt.AllLinked (Callee context mode p) r.1 ∧ T r.1 r.2 := by
  intro r p' hrun
  obtain ⟨st, hlower, hcode, rfl⟩ := inFunction_eq_ok hrun
  obtain ⟨⟨within, hgrows, hlinked, -⟩, ha⟩ := hm _ _ _ hlower
  exact ⟨hgrows, hcode ▸ hlinked.mono fun _ hc => hc.calleeFrom.widen fun _ _ => trivial, hcode ▸ ha⟩

end Advances

/-! ## Definitions -/

/-- Functions with given signatures whose bodies call what there is, and name variables in order. -/
structure Defines (context : Context) (mode : Mode) (signatures : List Call) (p : Progress)
    (fs : List Yul.Function) : Prop where
  signatures : fs.map (·.signature) = signatures
  linked : ∀ f ∈ fs, Stmt.AllLinked (Callee context mode p) f.body
  orderly : ∀ f ∈ fs, Orderly f

namespace Defines

theorem nil : Defines context mode [] p [] :=
  ⟨rfl, forall_mem_nil _, forall_mem_nil _⟩

theorem single (hlinked : Stmt.AllLinked (Callee context mode p) f.body) (horderly : Orderly f) :
    Defines context mode [f.signature] p [f] :=
  ⟨rfl, forall_mem_singleton.2 hlinked, forall_mem_singleton.2 horderly⟩

theorem append (h : Defines context mode ss p fs) (h' : Defines context mode ss' p fs') :
    Defines context mode (ss ++ ss') p (fs ++ fs') where
  signatures := by rw [map_append, h.signatures, h'.signatures]
  linked := forall_mem_append.2 ⟨h.linked, h'.linked⟩
  orderly := forall_mem_append.2 ⟨h.orderly, h'.orderly⟩

theorem of_subset (hregistry : p.registry.Extends p'.registry)
    (hrequests : ∀ r ∈ p.requested, r ∈ p'.requested) (h : Defines context mode ss p fs) :
    Defines context mode ss p' fs where
  signatures := h.signatures
  linked f hf := (h.linked f hf).mono fun _ hc => hc.of_subset (fun _ => id) hregistry hrequests
  orderly := h.orderly

theorem later (h : Defines context mode ss p fs) (hgrows : p.Grows context.catalog p') :
    Defines context mode ss p' fs :=
  h.of_subset hgrows.registry.includes fun _ => hgrows.requested

end Defines

namespace Advances

variable {context : Context} {p : Progress}

theorem mapDefines {as : List α} (signature : α → Call) (hf : ∀ p, ∀ a ∈ as,
      Advances context p (f a) fun p d => Defines context mode [signature a] p [d]) :
    Advances context p (as.mapM f) (Defines context mode (as.map signature)) := by
  induction as generalizing p with
  | nil =>
    exact pure .nil
  | cons a as ih =>
    obtain ⟨hfirst, hrest⟩ : (∀ p, _) ∧ ∀ p, _ :=
      ⟨fun p => hf p a mem_cons_self, fun p b hb => hf p b (mem_cons_of_mem _ hb)⟩
    rw [mapM_cons]
    refine (hfirst p).bind fun _ d _ hd => (ih hrest).bind fun _ ds h hds => pure ?_
    exact (hd.later h).append hds

variable {owner : Owner}

theorem functionOf :
    Advances context p (Lowering.functionOf className function mode owner params returns body)
      fun p f => Defines context mode [⟨function, params.length, returns.length⟩] p [f] := by
  refine (inFunction (T := fun code r => (r.1.length = params.length ∧ r.2.length = returns.length) ∧
    Orderly ⟨function, r.1, r.2, code⟩) fun env r st hlower => ?_).bind fun _ r _ hr => pure ?_
  · obtain ⟨hlowered, hlengths, horderly⟩ := lowered_signatureAndBody hlower
    exact ⟨⟨_, hlowered⟩, hlengths, horderly function⟩
  · obtain ⟨hlinked, ⟨hnames, hresults⟩, horderly⟩ := hr
    rw [← hnames, ← hresults]
    exact .single hlinked horderly

def methodSignature (irName : String) (m : MethodDecl) : Call :=
  ⟨irName, m.params.length, m.returns.length⟩

theorem method {owner : ClassDecl} :
    Advances context p (Lowering.method owner m irName)
      fun p f => Defines context .runtime [methodSignature irName m] p [f] := by
  unfold Lowering.method
  split
  · exact functionOf
  · exact throw

theorem libraryMethod {owner : String} :
    Advances context p (Lowering.libraryMethod owner m) fun p f =>
      Defines context .runtime [methodSignature (libraryFunctionName owner m.name) m] p [f] := by
  unfold Lowering.libraryMethod
  split
  · exact functionOf
  · exact throw

theorem freeFunction :
    Advances context p (Lowering.freeFunction f) fun p d => Defines context .runtime
      [⟨freeFunctionName f.name, f.params.length, f.returns.length⟩] p [d] :=
  read_bind functionOf

def constructorSignature (q : ClassDecl × ConstructorDecl) : Call :=
  ⟨constructorName q.1.name, q.2.params.length, 0⟩

theorem constructor {owner : ClassDecl} :
    Advances context p (Lowering.constructor owner ctor)
      fun p f => Defines context .constructor [constructorSignature (owner, ctor)] p [f] :=
  read_bind (succeeded.bind fun _ _ _ _ => functionOf)

theorem initializers {region : String} :
    Advances context p (Lowering.initializers region)
      fun p code => Stmt.AllLinked (Callee context .initializer p) code := by
  refine read_bind ((inFunction (T := fun _ _ => True) fun env _ st hlower => ?_).bind
    fun _ _ _ hr => pure hr.1)
  exact ⟨⟨_, Moves.lowered (Lowers.initializeFields fun _ => trivial) hlower⟩, trivial⟩

theorem getter {owner : ClassDecl} {field : FieldDecl}
    (hty : context.catalog.typeOf field.ty = .ok ty) :
    Advances context p (Lowering.getter owner field) fun p f => Defines context .runtime
      [⟨getterName field.name, ty.getterShape.1.length, 1⟩] p [f] := by
  refine read_bind (succeeded.bind fun _ ty' _ hty' => ?_)
  obtain rfl := Except.ok.inj (hty.symm.trans hty')
  refine (inFunction (T := fun code _ => Orderly ⟨getterName field.name,
    (range ty.getterShape.1.length).map keyName, [returnName 0], code⟩)
    fun env _ st hlower => ?_).bind fun _ r _ hr => pure ?_
  · obtain ⟨hlowered, horderly⟩ := lowered_getterValue hlower
    exact ⟨⟨_, hlowered⟩, horderly _⟩
  · simpa [Yul.Function.signature] using Defines.single hr.1 hr.2

end Advances

end Lowering

/-! ## Methods and getters -/

namespace Compilation

open Lowering
open Advances (methodSignature constructorSignature)

def finalSignatures (l : Lineage) : List Call :=
  l.finalMethods.map fun q => methodSignature (functionName q.2.name) q.2

/-- The functions of bodies that a later class overrides. -/
def renamedSignatures (l : Lineage) : List Call :=
  l.renamedMethods.map fun q => methodSignature q.2.2 q.2.1

def getterSignature? (context : Context) (field : FieldDecl) : Option Call :=
  if !field.visibility.isExternal || (context.lineage.method? field.name).isSome then none
  else match context.catalog.typeOf field.ty with
    | .ok ty =>
      if isReadable ty.getterShape.2 && ty.getterShape.1.all isReadable then
        some ⟨getterName field.name, ty.getterShape.1.length, 1⟩
      else none
    | .error _ => none

variable {field : FieldDecl}

theorem name_of_getterSignature? (h : getterSignature? context field = some c) :
    c.name = getterName field.name := by
  unfold getterSignature? at h
  split at h
  · cases h
  · split at h
    · split at h
      · cases h
        rfl
      · cases h
    · cases h

def getterSignatures (context : Context) : List Call :=
  if context.options.publicGetters then
    context.lineage.classes.flatMap fun c => c.fields.filterMap (getterSignature? context)
  else []

def exposedSignatures (context : Context) : List Call :=
  finalSignatures context.lineage ++ renamedSignatures context.lineage ++ getterSignatures context

/-- Functions with given signatures, and what of them is reached from outside. -/
structure Exposed.Lists (context : Context) (signatures : List Call) (p : Progress)
    (e : Exposed) : Prop where
  definitions : Defines context .runtime signatures p e.definitions
  functions : ∀ f ∈ e.functions, ⟨f.irName, f.params.length, f.returns.length⟩ ∈ signatures
  receive : ∀ s ∈ e.receive, s.irName ∈ signatures.map (·.name)
  fallback : ∀ s ∈ e.fallback, s.irName ∈ signatures.map (·.name)

variable {context : Context} {p p' : Progress} {signatures : List Call} {e : Exposed}

theorem Exposed.lists_empty : Exposed.Lists context [] p {} where
  definitions := .nil
  functions := forall_mem_nil _
  receive := by rintro _ ⟨⟩
  fallback := by rintro _ ⟨⟩

theorem Exposed.Lists.define (h : e.Lists context signatures p)
    (hgrows : p.Grows context.catalog p') (hfs : Defines context .runtime more p' fs) :
    { e with definitions := e.definitions ++ fs }.Lists context (signatures ++ more) p' where
  definitions := (h.definitions.later hgrows).append hfs
  functions f hf := mem_append_left _ (h.functions f hf)
  receive s hs := by
    rw [map_append]
    exact mem_append_left _ (h.receive s hs)
  fallback s hs := by
    rw [map_append]
    exact mem_append_left _ (h.fallback s hs)

theorem Exposed.Lists.reach (h : e.Lists context signatures p) (hgrows : p.Grows context.catalog p')
    (hf : ⟨f.irName, f.params.length, f.returns.length⟩ ∈ signatures) :
    { e with functions := e.functions ++ [f] }.Lists context signatures p' where
  definitions := h.definitions.later hgrows
  functions := forall_mem_append.2 ⟨h.functions, forall_mem_singleton.2 hf⟩
  receive := h.receive
  fallback := h.fallback

/-! ### Jobs -/

inductive Job where
  | method (owner : ClassDecl) (m : MethodDecl) (irName : String)
  | getter (owner : ClassDecl) (field : FieldDecl)
  | request (r : Request)

def Job.lower : Job → Session Yul.Function
  | .method owner m irName => Lowering.method owner m irName
  | .getter owner field => Lowering.getter owner field
  | .request r => requested r

/-- A function comes from a job, done at some point of a compilation. -/
def Made (context : Lowering.Context) (j : Job) (f : Yul.Function) : Prop :=
  ∃ p p', j.lower context p = .ok (f, p')

/-- The methods of a line of classes, under their plain names, and the bodies that a later class
overrides. -/
def methodJobs (l : Lineage) : List Job :=
  (l.finalMethods.map fun q => .method q.1 q.2 (functionName q.2.name)) ++
    l.renamedMethods.map fun q => .method q.1 q.2.1 q.2.2

abbrev MadeAll (context : Lowering.Context) (jobs : List Job) (fs : List Yul.Function) : Prop :=
  Forall₂ (Made context) jobs fs

/-! ### Entries -/

def isEntry (m : MethodDecl) : Bool :=
  m.kind == .normal && m.visibility.isExternal && !m.isStatic

def entryOf (catalog : Catalog) (m : MethodDecl) : Outcome Abi.Function := do
  let params ← m.params.mapM (Abi.Param.resolve catalog.names)
  let returns ← m.returns.mapM catalog.typeOf
  Abi.Function.make catalog.names m.name (functionName m.name) params returns m.mutability

abbrev EntriesOf (catalog : Catalog) (qs : List (ClassDecl × MethodDecl))
    (fs : List Abi.Function) : Prop :=
  (qs.filter (isEntry ·.2)).mapM (entryOf catalog ·.2) = .ok fs

def FromGetter (context : Context) (f : Abi.Function) : Prop :=
  ∃ (field : FieldDecl) (ty : Ty) (p p' : Progress), context.lineage.method? field.name = none ∧
    context.catalog.typeOf field.ty = .ok ty ∧
    getterOf field ty.getterShape.1 ty.getterShape.2 context p = .ok (f, p')

structure Exposed.LeadsTo (done : List (ClassDecl × MethodDecl)) (e : Exposed) : Prop where
  receive : e.receive = ((done.filter (·.2.kind == .receive)).getLast?).map fun q =>
    ⟨functionName q.2.name, true⟩
  fallback : e.fallback = ((done.filter (·.2.kind == .fallback)).getLast?).map fun q =>
    ⟨functionName q.2.name, q.2.mutability == .payable⟩

theorem make_eq_ok (h : Abi.Function.make names name irName params returns mutability = .ok f) :
    f.name = name ∧ (⟨f.irName, f.params.length, f.returns.length⟩ : Call) =
      ⟨irName, params.length, returns.length⟩ := by
  obtain ⟨types, -, h⟩ := bind_eq_ok.1 h
  cases h
  exact ⟨rfl, rfl⟩

theorem entryOf_eq_ok (h : entryOf catalog m = .ok f) :
    f.name = m.name ∧ (⟨f.irName, f.params.length, f.returns.length⟩ : Call) =
      methodSignature (functionName m.name) m := by
  obtain ⟨params, hparams, h⟩ := bind_eq_ok.1 h
  obtain ⟨returns, hreturns, h⟩ := bind_eq_ok.1 h
  obtain ⟨hname, hsignature⟩ := make_eq_ok h
  rw [hsignature, ← (mapM_eq_ok.1 hparams).length_eq, ← (mapM_eq_ok.1 hreturns).length_eq]
  exact ⟨hname, rfl⟩

/-- Steps that only read what is settled give what they give on their own. -/
theorem advances_mapM_lift {f : α → Outcome β} {as : List α} :
    Advances context p (as.mapM fun a => (liftM (f a) : Session β))
      fun _ bs => as.mapM f = .ok bs := by
  induction as generalizing p with
  | nil =>
    exact .pure rfl
  | cons a as ih =>
    rw [mapM_cons]
    refine Advances.succeeded.bind fun _ b _ hb => ih.bind fun _ bs _ hbs => .pure ?_
    rw [mapM_cons, hb, hbs]
    rfl

theorem advances_functionOf {m : MethodDecl} :
    Advances context p (Compilation.functionOf m (functionName m.name)) fun _ f =>
      entryOf context.catalog m = .ok f := by
  refine Advances.read_bind (advances_mapM_lift.bind fun _ params _ hparams => ?_)
  refine advances_mapM_lift.bind fun _ returns _ hreturns => Advances.lift fun f hf => ?_
  rw [entryOf, hparams, bind_eq_ok]
  refine ⟨params, rfl, ?_⟩
  rw [hreturns]
  exact hf

theorem advances_getterOf {keys : List Ty} :
    Advances context p (getterOf field keys result) fun _ f => f.name = field.name ∧
      (⟨f.irName, f.params.length, f.returns.length⟩ : Call) =
        ⟨getterName field.name, keys.length, 1⟩ := by
  refine Advances.read_bind (Advances.lift fun f hf => ?_)
  obtain ⟨hname, hsignature⟩ := make_eq_ok hf
  exact ⟨hname, by simpa using hsignature⟩

/-! ### Methods, then getters -/

/-- What was lowered and what is reached, next to what it was made from: the definitions from jobs,
and the entries from methods, with those of getters behind them. -/
structure Exposed.Traces (context : Context) (methods : List (ClassDecl × MethodDecl))
    (jobs : List Job) (getters : List Abi.Function) (signatures : List Call) (p : Progress)
    (e : Exposed) : Prop where
  lists : e.Lists context signatures p
  made : MadeAll context jobs e.definitions
  leads : e.LeadsTo methods
  offers : ∃ entries, EntriesOf context.catalog methods entries ∧ e.functions = entries ++ getters

variable {jobs : List Job}

theorem advances_addMethod {q : ClassDecl × MethodDecl}
    (he : e.Traces context methods jobs [] signatures p) :
    Advances context p (addMethod e q.1 q.2) (Exposed.Traces context (methods ++ [q])
      (jobs ++ [.method q.1 q.2 (functionName q.2.name)]) []
      (signatures ++ [methodSignature (functionName q.2.name) q.2])) := by
  unfold addMethod
  extract_lets irName
  refine Advances.method.ran.bind fun p₁ d h₁ hd => ?_
  have hlists := he.lists.define h₁ hd.1
  have hmade : MadeAll context (jobs ++ [.method q.1 q.2 irName]) (e.definitions ++ [d]) :=
    rel_append he.made (.cons ⟨p, p₁, hd.2⟩ .nil)
  have hname : irName ∈ (signatures ++ [methodSignature irName q.2]).map (·.name) := by
    simp [methodSignature]
  obtain ⟨entries, hentries, hfunctions⟩ := he.offers
  have hskip (h : isEntry q.2 = false) : ∃ entries,
      EntriesOf context.catalog (methods ++ [q]) entries ∧ e.functions = entries ++ [] :=
    ⟨entries, by simpa [EntriesOf, h] using hentries, hfunctions⟩
  split
  · rename_i hkind
    refine .pure ⟨{ hlists with receive := ?_ }, hmade, ⟨by simp [hkind, irName],
      by simpa [hkind] using he.leads.fallback⟩, hskip (by simp [isEntry, hkind])⟩
    rintro _ ⟨⟩
    exact hname
  · rename_i hkind
    refine .pure ⟨{ hlists with fallback := ?_ }, hmade, ⟨by simpa [hkind] using he.leads.receive,
      by simp [hkind, irName]⟩, hskip (by simp [isEntry, hkind])⟩
    rintro _ ⟨⟩
    exact hname
  · rename_i hkind
    have hleads : e.LeadsTo (methods ++ [q]) :=
      ⟨by simpa [hkind] using he.leads.receive, by simpa [hkind] using he.leads.fallback⟩
    split
    · rename_i hexposed
      refine advances_functionOf.bind fun _ f h₂ hf => .pure ⟨hlists.reach h₂ ?_, hmade,
        ⟨hleads.receive, hleads.fallback⟩, entries ++ [f], ?_, ?_⟩
      · rw [(entryOf_eq_ok hf).2]
        exact mem_append_right _ (mem_singleton.2 rfl)
      · have hentry : isEntry q.2 := by simpa [isEntry, hkind] using hexposed
        rw [EntriesOf, mapM_eq_ok] at hentries
        rw [EntriesOf, filter_append, mapM_eq_ok]
        exact rel_append hentries (by simpa [hentry] using hf)
      · simp [hfunctions]
    · rename_i hexposed
      exact .pure ⟨hlists, hmade, ⟨hleads.receive, hleads.fallback⟩,
        hskip (by simpa [isEntry, hkind] using hexposed)⟩

def Exposed.Shows (context : Context) (signatures : List Call) (p : Progress) (e : Exposed) : Prop :=
  ∃ jobs getters, (∀ f ∈ getters, FromGetter context f) ∧
    e.Traces context context.lineage.finalMethods (methodJobs context.lineage ++ jobs) getters
      signatures p

theorem advances_addGetter {owner : ClassDecl} (he : e.Shows context signatures p) :
    Advances context p (addGetter e owner field)
      (Exposed.Shows context (signatures ++ (getterSignature? context field).toList)) := by
  refine Advances.read_bind ?_
  split
  · rename_i hhidden
    rw [getterSignature?, if_pos hhidden, Option.toList_none, append_nil]
    exact .pure he
  · rename_i hhidden
    obtain ⟨-, hfree⟩ : field.visibility.isExternal ∧ context.lineage.method? field.name = none := by
      simpa using hhidden
    obtain ⟨jobs, getters, hgetters, he⟩ := he
    refine Advances.succeeded.bind fun p₁ ty h₁ hty => ?_
    rw [getterSignature?, hty]
    dsimp only
    split
    · refine (Advances.getter hty).ran.bind fun p₂ d h₂ hd => ?_
      refine advances_getterOf.ran.bind fun p₃ f h₃ hf => .pure
        ⟨jobs ++ [.getter owner field], getters ++ [f], ?_, ?_, ?_, ⟨he.leads.receive,
          he.leads.fallback⟩, ?_⟩
      · exact forall_mem_append.2 ⟨hgetters, forall_mem_singleton.2
          ⟨field, ty, p₂, p₃, hfree, hty, hf.2⟩⟩
      · refine (he.lists.define (h₁.trans h₂) hd.1).reach h₃ ?_
        rw [hf.1.2]
        exact mem_append_right _ (mem_singleton.2 rfl)
      · rw [← append_assoc]
        exact rel_append he.made (.cons ⟨p₁, p₂, hd.2⟩ .nil)
      · obtain ⟨entries, hentries, hfunctions⟩ := he.offers
        exact ⟨entries, hentries, by rw [hfunctions, append_assoc]⟩
    · refine (Advances.modify ?_).bind fun p₂ _ h₂ _ =>
        .pure ⟨jobs, getters, hgetters, { he with lists := ?_ }⟩
      · exact .of_registry .refl rfl rfl
      · simpa using he.lists.define (h₁.trans h₂) .nil

theorem advances_getters {classes : List ClassDecl} (he : e.Shows context signatures p) :
    Advances context p
      (classes.foldlM (fun e c => c.fields.foldlM (fun e f => addGetter e c f) e) e)
      (Exposed.Shows context (signatures ++
        classes.flatMap fun c => c.fields.filterMap (getterSignature? context))) := by
  refine Advances.foldlM (fun done => Exposed.Shows context (signatures ++
    done.flatMap fun c : ClassDecl => c.fields.filterMap (getterSignature? context))) ?_
    fun done c p e _ he => ?_
  · simpa using he
  · rw [flatMap_append, flatMap_singleton, ← append_assoc]
    refine Advances.foldlM (fun fields => Exposed.Shows context (_ ++
      fields.filterMap (getterSignature? context))) ?_ fun fields field p e _ he => ?_
    · simpa using he
    · refine (advances_addGetter he).weaken fun _ _ _ he => ?_
      cases hsignature : getterSignature? context field <;> simpa [hsignature] using he

/-- What steps over a list give was given by one of them. -/
theorem forall₂_of_mapM {f : α → Session β} (h : as.mapM f context p = .ok (bs, p')) :
    Forall₂ (fun a b => ∃ p p', f a context p = .ok (b, p')) as bs := by
  induction as generalizing bs p p' with
  | nil =>
    cases h
    exact .nil
  | cons a as ih =>
    rw [mapM_cons] at h
    obtain ⟨⟨b, p₁⟩, hb, h⟩ := bind_eq_ok.1 h
    obtain ⟨⟨rest, p₂⟩, hrest, h⟩ := bind_eq_ok.1 h
    cases h
    exact .cons ⟨p, p₁, hb⟩ (ih hrest)

theorem advances_expose :
    Advances context p expose (Exposed.Shows context (exposedSignatures context)) := by
  refine Advances.read_bind ?_
  refine (Advances.foldlM (fun done => Exposed.Traces context done
    (done.map fun q => .method q.1 q.2 (functionName q.2.name)) []
    (done.map fun q => methodSignature (functionName q.2.name) q.2))
    ⟨Exposed.lists_empty, .nil, ⟨rfl, rfl⟩, [], rfl, rfl⟩
    fun done q p e _ he => ?_).bind fun p₁ e h₁ he => ?_
  · rw [map_append, map_append]
    exact advances_addMethod he
  refine (Advances.mapDefines
    (fun q : ClassDecl × MethodDecl × String => methodSignature q.2.2 q.2.1) fun p q _ =>
      Advances.method).ran.bind fun p₂ renamed h₂ hrenamed => ?_
  have hmade : MadeAll context (context.lineage.renamedMethods.map fun q => .method q.1 q.2.1 q.2.2)
      renamed := forall₂_map_left_iff.2 (forall₂_of_mapM hrenamed.2)
  have he : Exposed.Shows context
      (finalSignatures context.lineage ++ renamedSignatures context.lineage) p₂
      { e with definitions := e.definitions ++ renamed } := by
    refine ⟨[], [], forall_mem_nil _, he.lists.define h₂ hrenamed.1, ?_,
      ⟨he.leads.receive, he.leads.fallback⟩, he.offers⟩
    rw [append_nil]
    exact rel_append he.made hmade
  unfold exposedSignatures getterSignatures
  split
  · exact advances_getters he
  · rw [append_nil]
    exact .pure he

end Compilation

end ContractYul
