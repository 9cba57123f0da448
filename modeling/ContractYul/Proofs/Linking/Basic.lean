import ContractYul.Lowering.Call
import ContractYul.Proofs.Outcome
import ContractYul.Proofs.Routine.Closed

/-!
# Linking of lowered code

What lowered code may call. While code is lowered the compilation comes to need routines and
functions outside the class, and what it needs only grows. At every moment the code written so far
calls instructions, routines in use, methods of the contract, and library methods and free functions
that were requested; in a constructor it may also call the constructor of a parent. These are the
`Callee`s of what the compilation has come to need.
-/

open List

namespace ContractYul

open Yul

namespace Lowering

/-! ## What a compilation comes to need -/

def Request.Declared (catalog : Catalog) : Request → Prop
  | .library owner method => ∃ m, catalog.libraryMethod owner method = .ok m
  | .free name => ∃ f ∈ catalog.functions.values, f.name = name

def Request.Added (catalog : Catalog) (new before after : List Request) : Prop :=
  after = new.reverse ++ before ∧ new.Nodup ∧ ∀ r ∈ new, r ∉ before ∧ r.Declared catalog

theorem Request.Added.append {new new' before between after : List Request}
    (h : Added catalog new before between) (h' : Added catalog new' between after) :
    Added catalog (new ++ new') before after := by
  obtain ⟨rfl, hnodup, hnew⟩ := h
  obtain ⟨rfl, hnodup', hnew'⟩ := h'
  -- what was requested later had not been requested before
  refine ⟨by simp, nodup_append.2 ⟨hnodup, hnodup', ?_⟩, forall_mem_append.2 ⟨hnew, ?_⟩⟩
  · rintro r hr r' hr' rfl
    exact (hnew' r hr').1 (mem_append_left _ (mem_reverse.2 hr))
  · intro r hr
    exact ⟨fun hmem => (hnew' r hr).1 (mem_append_right _ hmem), (hnew' r hr).2⟩

/-- A compilation goes on: there are more routines in use, and more functions were requested. -/
structure Progress.Grows (catalog : Catalog) (p p' : Progress) : Prop where
  registry : p.registry.Grows p'.registry
  requests : ∃ new : List Request, p'.pending = p.pending ++ new ∧
    Request.Added catalog new p.requested p'.requested

namespace Progress

variable {catalog : Catalog} {p p' p'' : Progress}

theorem Grows.of_registry (hregistry : p.registry.Grows p'.registry)
    (hpending : p'.pending = p.pending) (hrequested : p'.requested = p.requested) :
    p.Grows catalog p' :=
  ⟨hregistry, [], by simp [hpending], by simp [Request.Added, hrequested]⟩

theorem Grows.refl : p.Grows catalog p :=
  .of_registry .refl rfl rfl

theorem Grows.trans (h : p.Grows catalog p') (h' : p'.Grows catalog p'') : p.Grows catalog p'' := by
  obtain ⟨new, hpending, hnew⟩ := h.requests
  obtain ⟨new', hpending', hnew'⟩ := h'.requests
  refine ⟨h.registry.trans h'.registry, new ++ new', ?_, hnew.append hnew'⟩
  rw [hpending', hpending, append_assoc]

theorem Grows.requested (h : p.Grows catalog p') (hr : r ∈ p.requested) : r ∈ p'.requested := by
  obtain ⟨new, -, hrequested, -, -⟩ := h.requests
  rw [hrequested]
  exact mem_append_right _ hr

theorem grows_use (target : Target) (hr : r.IsBuiltIn) : p.Grows catalog (p.use target r) :=
  .of_registry (Registry.grows_add target hr) rfl rfl

theorem grows_request (hr : r.Declared catalog) : p.Grows catalog (p.request r) := by
  unfold request
  split
  · exact .refl
  · rename_i hnew
    refine ⟨.refl, [r], rfl, rfl, by simp, ?_⟩
    simpa [hr] using hnew

theorem mem_request (r : Request) : r ∈ (p.request r).requested := by
  unfold request
  split
  · rename_i hmem
    simpa using hmem
  · exact mem_cons_self

end Progress

/-! ## What code may call -/

/-- What code that belongs to some classes may call when the compilation has come to need `p`. -/
inductive CalleeFrom (context : Context) (mode : Mode) (within : String → Prop) (p : Progress) :
    Call → Prop
  /-- Instructions and routines in use. -/
  | shared {c : Call} (h : p.registry.Callee c) : CalleeFrom context mode within p c
  /-- A method of the contract. -/
  | method {name : String} {owner : Source.ClassDecl} {m : Source.MethodDecl}
    (h : context.lineage.method? name = some (owner, m)) (hbody : m.body.isSome) :
    CalleeFrom context mode within p ⟨functionName name, m.params.length, m.returns.length⟩
  /-- The nearest body of a method above a class of the code. -/
  | parent {className method target : String} {m : Source.MethodDecl} (hwithin : within className)
    (h : context.lineage.superTarget className method = .ok target)
    (hm : (context.lineage.before className).findSome? (·.bodied? method) = some m) :
    CalleeFrom context mode within p ⟨target, m.params.length, m.returns.length⟩
  | library {owner : String} {m : Source.MethodDecl}
    (h : context.catalog.libraryMethod owner m.name = .ok m)
    (hrequested : .library owner m.name ∈ p.requested) :
    CalleeFrom context mode within p
      ⟨libraryFunctionName owner m.name, m.params.length, m.returns.length⟩
  | free {name : String} {f : Source.FunctionDecl}
    (h : context.catalog.freeFunction? name = some f) (hrequested : .free f.name ∈ p.requested) :
    CalleeFrom context mode within p ⟨freeFunctionName f.name, f.params.length, f.returns.length⟩
  /-- The nearest constructor above a class. -/
  | constructor {className : String} {parent : Source.ClassDecl} {ctor : Source.ConstructorDecl}
    (hmode : mode = .constructor)
    (h : context.lineage.parentConstructor? className = some (parent, ctor)) :
    CalleeFrom context mode within p ⟨constructorName parent.name, ctor.params.length, 0⟩

/-- What code outside of the contract may call. It comes to a method by `super` only. -/
inductive OuterCallee (context : Context) (within : String → Prop) (p : Progress) : Call → Prop
  | shared {c : Call} (h : p.registry.Callee c) : OuterCallee context within p c
  | parent {className method target : String} {m : Source.MethodDecl} (hwithin : within className)
    (h : context.lineage.superTarget className method = .ok target)
    (hm : (context.lineage.before className).findSome? (·.bodied? method) = some m) :
    OuterCallee context within p ⟨target, m.params.length, m.returns.length⟩
  | library {owner : String} {m : Source.MethodDecl}
    (h : context.catalog.libraryMethod owner m.name = .ok m)
    (hrequested : .library owner m.name ∈ p.requested) :
    OuterCallee context within p ⟨libraryFunctionName owner m.name, m.params.length, m.returns.length⟩
  | free {name : String} {f : Source.FunctionDecl}
    (h : context.catalog.freeFunction? name = some f) (hrequested : .free f.name ∈ p.requested) :
    OuterCallee context within p ⟨freeFunctionName f.name, f.params.length, f.returns.length⟩

/-- Code calls what code outside of the contract may call, or is a part of the contract. -/
def Env.MayCall (env : Env) (within : String → Prop) (p : Progress) (c : Call) : Prop :=
  OuterCallee env.toContext within p c ∨ (env.owner = .contract ∨ env.mode = .constructor) ∧
    CalleeFrom env.toContext env.mode within p c

abbrev Callee (context : Context) (mode : Mode) (p : Progress) : Call → Prop :=
  CalleeFrom context mode (fun _ => True) p

section

variable {context : Context} {mode : Mode} {within : String → Prop} {p p' : Progress} {c : Call}

theorem CalleeFrom.of_subset (hwithin : ∀ d, within d → within' d)
    (hregistry : p.registry.Extends p'.registry)
    (hrequests : ∀ r ∈ p.requested, r ∈ p'.requested) (hc : CalleeFrom context mode within p c) :
    CalleeFrom context mode within' p' c := by
  cases hc with
  | shared hc => exact .shared (Registry.Extends.callee hregistry hc)
  | method hm hbody => exact .method hm hbody
  | parent hd htarget hm => exact .parent (hwithin _ hd) htarget hm
  | library hm hrequested => exact .library hm (hrequests _ hrequested)
  | free hf hrequested => exact .free hf (hrequests _ hrequested)
  | constructor hmode hctor => exact .constructor hmode hctor

theorem CalleeFrom.mono (h : p.Grows context.catalog p') (hc : CalleeFrom context mode within p c) :
    CalleeFrom context mode within p' c :=
  hc.of_subset (fun _ => id) h.registry.includes fun _ => h.requested

theorem CalleeFrom.widen (hc : CalleeFrom context mode within p c)
    (hwithin : ∀ d, within d → within' d) : CalleeFrom context mode within' p c :=
  hc.of_subset hwithin (fun _ => id) fun _ => id

theorem OuterCallee.of_subset (hwithin : ∀ d, within d → within' d)
    (hregistry : p.registry.Extends p'.registry)
    (hrequests : ∀ r ∈ p.requested, r ∈ p'.requested) (hc : OuterCallee context within p c) :
    OuterCallee context within' p' c := by
  cases hc with
  | shared hc => exact .shared (Registry.Extends.callee hregistry hc)
  | parent hd htarget hm => exact .parent (hwithin _ hd) htarget hm
  | library hm hrequested => exact .library hm (hrequests _ hrequested)
  | free hf hrequested => exact .free hf (hrequests _ hrequested)

namespace Env.MayCall

variable {env : Env}

theorem shared (h : p.registry.Callee c) : env.MayCall within p c :=
  .inl (.shared h)

theorem calleeFrom (h : env.MayCall within p c) : CalleeFrom env.toContext env.mode within p c := by
  rcases h with h | h
  · cases h with
    | shared hc => exact .shared hc
    | parent hd htarget hm => exact .parent hd htarget hm
    | library hm hrequested => exact .library hm hrequested
    | free hf hrequested => exact .free hf hrequested
  · exact h.2

theorem of_subset (hwithin : ∀ d, within d → within' d)
    (hregistry : p.registry.Extends p'.registry)
    (hrequests : ∀ r ∈ p.requested, r ∈ p'.requested) (h : env.MayCall within p c) :
    env.MayCall within' p' c :=
  h.imp (·.of_subset hwithin hregistry hrequests)
    fun h => ⟨h.1, h.2.of_subset hwithin hregistry hrequests⟩

theorem mono (h : p.Grows env.catalog p') (hc : env.MayCall within p c) : env.MayCall within p' c :=
  hc.of_subset (fun _ => id) h.registry.includes fun _ => h.requested

end Env.MayCall

end

end Lowering

end ContractYul
