import ContractYul.Proofs.Linking.Basic
import ContractYul.Proofs.Lowering.Naming
import ContractYul.Proofs.Tracing.Basic
import ContractYul.Proofs.Yul.Uses

/-!
# Pieces of lowering

Where lowering stands is a `Stage`: which names are taken, what the compilation has come to need, and
which variables were declared with a value. The three say what code may mention, what it may call, and
what it may touch in storage. What is known of a name, a value or a piece of code stays true as
lowering goes on, since stages only grow.

Main point: `Moves` is a condition on a piece of lowering that is kept by putting pieces together. It
writes behind the code that is there. Its code mentions names where they are seen, and declares names
that it makes or that were in hand. It calls what there is when it ends, and touches places that the
variables declared up to then lead to. The result is described by the stage at its end. `Lowers` is
this for the code of an expression, which leaves the scopes as they were and nothing in hand.
-/

open List

namespace ContractYul

open Yul Stmt Outcome

namespace Lowering

/-! ## Stages -/

structure Stage where
  naming : Naming
  progress : Progress
  /-- Variables that were declared with a value of their own. -/
  bindings : Bindings
  /-- Classes that code may belong to besides the one at hand. -/
  classes : String → Prop

namespace Stage

variable {catalog : Catalog} {env : Env} {quiet : Bool} {κ κ' : Stage} {code : List Yul.Stmt}

structure Extends (catalog : Catalog) (κ κ' : Stage) : Prop where
  naming : κ.naming ≤ κ'.naming
  progress : κ.progress.Grows catalog κ'.progress
  bindings : κ.bindings ⊆ κ'.bindings
  classes : κ'.classes = κ.classes

theorem Extends.refl : κ.Extends catalog κ :=
  ⟨le_refl _, .refl, Subset.refl _, rfl⟩

theorem Extends.trans (h : κ.Extends catalog κ') (h' : κ'.Extends catalog κ'') :
    κ.Extends catalog κ'' :=
  ⟨h.naming.trans h'.naming, h.progress.trans h'.progress, Subset.trans h.bindings h'.bindings,
    h'.classes.trans h.classes⟩

abbrev Knows (κ : Stage) (x : String) : Prop :=
  κ.naming.Knows x

theorem Knows.later (hx : κ.Knows x) (h : κ.Extends catalog κ') : κ'.Knows x :=
  Naming.Knows.mono h.naming x hx

/-- Names have come in hand, and no guard has begun to wait. -/
abbrev Holds (κ κ' : Stage) (names : List String) : Prop :=
  κ.naming.Holds κ'.naming names

abbrev Takes (κ κ' : Stage) (names : List String) : Prop :=
  κ.naming.Takes κ'.naming names

structure Uses (env : Env) (quiet : Bool) (κ : Stage) (u : Use) : Prop where
  linked : env.MayCall (fun c => κ.classes c ∨ c = env.className) κ.progress u.call
  licensed : env.Licensed κ.bindings u.invocation
  quiet : quiet = true → u.name ∈ quietNames

theorem Uses.later (hu : κ.Uses env quiet u) (h : κ.Extends env.catalog κ') : κ'.Uses env quiet u :=
  ⟨h.classes ▸ hu.linked.mono h.progress, hu.licensed.mono h.bindings, hu.quiet⟩

theorem Uses.loud (hu : κ.Uses env quiet u) : κ.Uses env false u :=
  { hu with quiet := by simp }

instance : Reads (κ.Uses env quiet) where
  reads _ _ h :=
    ⟨.shared (.inl h.1), licensed_of_not_usesStorage fun _ => not_usesStorage_of_isCalm h.2.1,
      fun _ => h.2.2⟩

theorem uses_instruction (h : ⟨name, args.length, n⟩ ∈ instructions) (hcalm : IsCalm name) :
    κ.Uses env false ⟨name, args, n⟩ :=
  ⟨.shared (.inl h), licensed_of_not_usesStorage fun _ => not_usesStorage_of_isCalm hcalm, by simp⟩

theorem uses_routine (h : κ.progress.registry.contains r)
    (hr : r.signature = ⟨r.name, args.length, n⟩) (hs : r.changesStorage? = none) :
    κ.Uses env false ⟨r.name, args, n⟩ :=
  ⟨.shared (.inr ⟨r, h, hr⟩), licensed_routine hs, by simp⟩

def behind (κ : Stage) (code : List Yul.Stmt) : Stage :=
  { κ with
    naming := κ.naming.seeing (allBinds code)
    bindings := κ.bindings ++ allBindings code }

theorem extends_behind : κ.Extends catalog (κ.behind code) :=
  ⟨Naming.le_seeing, .refl, subset_append_left _ _, rfl⟩

theorem behind_nil_extends : (κ.behind []).Extends catalog κ :=
  ⟨Naming.seeing_nil_le, .refl, by simp [behind], rfl⟩

theorem Extends.behind (h : κ.Extends catalog κ') :
    (κ.behind code).Extends catalog (κ'.behind code) :=
  ⟨Naming.seeing_mono h.naming, h.progress, append_subset.2
    ⟨subset_append_of_subset_left _ h.bindings, subset_append_right _ _⟩, h.classes⟩

def within (κ : Stage) (scopes : List Scope) : Stage :=
  { κ with naming := κ.naming.within scopes }

theorem extends_within : κ.Extends catalog (κ.within scopes) :=
  ⟨⟨Nat.le_refl _, fun _ h => .inr h, fun _ h => h, fun _ h => h, rfl, rfl⟩, .refl,
    Subset.refl _, rfl⟩

structure Describes (κ : Stage) (st : State) : Prop where
  naming : κ.naming.Describes st
  progress : st.progress = κ.progress

theorem Describes.withCode (h : κ.Describes st) (code : List Yul.Stmt) :
    κ.Describes { st with code := code } :=
  ⟨h.naming.sameNames rfl rfl rfl rfl, h.progress⟩

end Stage

abbrev Known (env : Env) (n : Nat) (κ : Stage) (e : Yul.Expr) : Prop :=
  e.Fits κ.Knows (κ.Uses env false) n

abbrev Plain (env : Env) (κ : Stage) (e : Yul.Expr) : Prop :=
  e.Fits κ.Knows (κ.Uses env true) 1

abbrev PlainValue (env : Env) (κ : Stage) (v : Value) : Prop :=
  Plain env κ v.expr

end Lowering

section

variable {env : Lowering.Env} {κ κ' : Lowering.Stage} {e : Yul.Expr}

theorem Yul.Expr.Fits.later (he : e.Fits κ.Knows (κ.Uses env quiet) n)
    (h : κ.Extends env.catalog κ') : e.Fits κ'.Knows (κ'.Uses env quiet) n :=
  he.mono (fun _ hx => hx.later h) fun _ hu => hu.later h

theorem Yul.Expr.Fits.known (he : e.Fits κ.Knows (κ.Uses env quiet) n) : Lowering.Known env n κ e :=
  he.mono (fun _ => id) fun _ hu => hu.loud

theorem Yul.Stmt.AllUse.later (hcode : AllUse (κ.Uses env quiet) code)
    (h : κ.Extends env.catalog κ') : AllUse (κ'.Uses env quiet) code :=
  hcode.mono fun _ hu => hu.later h

theorem Lowering.Stage.fits_run (k : Nat) (hname : ⟨name, k, 0⟩ ∈ instructions)
    (hcalm : IsCalm name) (hk : args.length = k) (hargs : ∀ e ∈ args, Lowering.Known env 1 κ e) :
    (Stmt.run name args).Fits κ.Knows (κ.Uses env false) :=
  Stmt.fits_run.2 ⟨Lowering.Stage.uses_instruction (hk ▸ hname) hcalm, hargs⟩

theorem Lowering.Stage.fits_mstore (haddress : Lowering.Known env 1 κ address)
    (he : Lowering.Known env 1 κ e) : (Op.mstore address e).Fits κ.Knows (κ.Uses env false) :=
  Lowering.Stage.fits_run 2 (by decide) (by decide) rfl (by simpa using ⟨haddress, he⟩)

end

namespace Lowering

/-! ## Pieces of lowering -/

structure Stage.Lays (env : Env) (κ κ' : Stage) (code : List Yul.Stmt) : Prop
    extends Lowering.Lays κ.naming κ'.naming code where
  uses : AllUse (κ'.Uses env false) code
  bindings : κ'.bindings = κ.bindings ++ allBindings code

structure Step (env : Env) (κ κ' : Stage) (st st' : State) : Prop where
  le : κ.Extends env.catalog κ'
  after : κ'.Describes st'
  code : ∃ code, st'.code = st.code ++ code ∧ κ.Lays env κ' code

theorem Step.of_code_eq (h : Step env κ κ' st st') (hcode : st'.code = st.code)
    (hhand : κ.naming.inHand = []) :
    (∀ x, κ'.naming.own x → κ.naming.own x) ∧
      ∀ x ∈ κ'.naming.inHand, κ.naming.MadeBy κ'.naming x := by
  obtain ⟨code, happend, hlays⟩ := h.code
  obtain rfl : code = [] := by simpa [hcode] using happend
  refine ⟨fun x hx => (hlays.own x hx).resolve_right not_mem_nil, fun x hx => ?_⟩
  obtain ⟨names, -, hmade, hnames⟩ := hlays.names
  rw [hhand, append_nil] at hnames
  exact hmade x (hnames.subset hx)

/-- A piece of lowering does a step, whenever it succeeds, and its result satisfies `R`. -/
def Moves {α : Type} (env : Env) (κ : Stage) (m : Lower α)
    (R : Stage → α → Prop) : Prop :=
  ∀ st a st', κ.Describes st → m env st = .ok (a, st') → ∃ κ', Step env κ κ' st st' ∧ R κ' a

/-- The code of an expression: a piece of lowering leaves the scopes as they were, and nothing in
hand. -/
abbrev Lowers {α : Type} (env : Env) (κ : Stage) (m : Lower α)
    (R : Stage → α → Prop) : Prop :=
  Moves env κ m fun κ' a => κ.Takes κ' [] ∧ R κ' a

/-! ### Putting pieces together -/

namespace Moves

variable {α β : Type} {env : Env} {κ : Stage} {R : Stage → α → Prop}

theorem step_bare (hle : κ.Extends env.catalog κ') (hst : κ'.Describes st')
    (hcode : st'.code = st.code) (hlays : Lays κ.naming κ'.naming [])
    (hbindings : κ'.bindings = κ.bindings) : Step env κ κ' st st' :=
  ⟨hle, hst, [], by simp [hcode], hlays, trivial, by simpa using hbindings⟩

theorem step_self (h : κ.Describes st) : Step env κ κ st st :=
  step_bare .refl h rfl (lays_nil (fun _ h => h) (.refl _)) rfl

theorem pure (h : R κ a) : Moves env κ (pure a) R := by
  intro st a' st' hst hrun
  obtain ⟨rfl, rfl⟩ : a = a' ∧ st = st' := pair_inj hrun
  exact ⟨κ, step_self hst, h⟩

theorem bind (hm : Moves env κ m R)
    (hf : ∀ κ' a, κ.Extends env.catalog κ' → R κ' a → Moves env κ' (f a) T) :
    Moves env κ (m >>= f) T := by
  intro st b st'' hst hrun
  obtain ⟨⟨a, st'⟩, hfirst, hrun⟩ := bind_eq_ok.1 hrun
  obtain ⟨κ', hstep, ha⟩ := hm st a st' hst hfirst
  obtain ⟨κ'', hstep', hb⟩ := hf κ' a hstep.le ha st' b st'' hstep.after hrun
  obtain ⟨code, hcode, hlays⟩ := hstep.code
  obtain ⟨code', hcode', hlays'⟩ := hstep'.code
  refine ⟨κ'', ⟨hstep.le.trans hstep'.le, hstep'.after, code ++ code', ?_, ?_, ?_, ?_⟩, hb⟩
  · rw [hcode', hcode, append_assoc]
  · exact hlays.toLays.append hstep.le.naming hstep'.le.naming hlays'.toLays
  -- what the first part uses is there for the second too
  · exact allUse_append.2 ⟨hlays.uses.later hstep'.le, hlays'.uses⟩
  · rw [hlays'.bindings, hlays.bindings, allBindings_append, append_assoc]

theorem weaken (hm : Moves env κ m R) (h : ∀ κ' a, κ.Extends env.catalog κ' → R κ' a → S κ' a) :
    Moves env κ m S := by
  intro st a st' hst hrun
  obtain ⟨κ', hstep, ha⟩ := hm st a st' hst hrun
  exact ⟨κ', hstep, h κ' a hstep.le ha⟩

theorem throw : Moves env κ (throw e : Lower α) R := by
  intro st a st' _ hrun
  simp [MonadExcept.throw, throwThe, MonadExceptOf.throw, liftM, monadLift, MonadLift.monadLift,
    StateT.lift] at hrun

theorem lift {x : Outcome α} (h : ∀ a, x = .ok a → R κ a) : Moves env κ (liftM x : Lower α) R := by
  intro st a st' hst hrun
  obtain ⟨a', ha, hrun⟩ := bind_eq_ok.1 hrun
  obtain ⟨rfl, rfl⟩ : a' = a ∧ st = st' := by simpa using pure_eq_ok.1 hrun
  exact ⟨κ, step_self hst, h a' ha⟩

theorem read_bind (hf : Moves env κ (f env) R) : Moves env κ (read >>= f) R :=
  fun st a st' hst hrun => hf st a st' hst hrun

theorem get_bind (hf : ∀ st, κ.Describes st → Moves env κ (f st) R) : Moves env κ (get >>= f) R :=
  fun st a st' hst hrun => hf st hst st a st' hst hrun

/-- Code of another class that code may belong to. -/
theorem inClass (hclass : κ.classes className) (hm : Moves { env with className } κ m R) :
    Moves env κ (withReader (fun env => { env with className }) m : Lower α) R := by
  intro st a st' hst hrun
  obtain ⟨κ', ⟨hle, hafter, code, hcode, hlays⟩, ha⟩ := hm st a st' hst hrun
  have hclass : κ'.classes className := by rwa [hle.classes]
  refine ⟨κ', ⟨hle, hafter, code, hcode, hlays.toLays,
    hlays.uses.mono fun u hu => ⟨?_, hu.licensed, hu.quiet⟩, hlays.bindings⟩, ha⟩
  exact hu.linked.of_subset (fun c hc => .inl (hc.elim id fun heq => heq ▸ hclass)) (fun _ => id)
    fun _ => id

end Moves

/-! ### Writing code -/

/-- Code uses what may be used behind it, where the variables that it declares are there too. -/
def Stage.Allows (env : Env) (κ : Stage) (code : List Yul.Stmt) : Prop :=
  AllUse ((κ.behind code).Uses env false) code

namespace Stage

variable {env : Env} {κ κ' : Stage} {code more : List Yul.Stmt} {e : Yul.Expr}

theorem allows_of_allUse (h : AllUse (κ.Uses env false) code) : κ.Allows env code :=
  h.later extends_behind

namespace Allows

theorem later (hcode : κ.Allows env code) (h : κ.Extends env.catalog κ') : κ'.Allows env code :=
  AllUse.later hcode h.behind

theorem among {κ₀ : Stage} (h : κ.Allows env code) (hprogress : κ₀.progress = κ.progress)
    (hclasses : κ₀.classes = κ.classes) (hκ : κ.bindings ⊆ κ₀.bindings)
    (hcode : allBindings code ⊆ κ₀.bindings) :
    AllUse (κ₀.Uses env false) code :=
  h.mono fun _ hu => ⟨hprogress ▸ hclasses ▸ hu.linked, hu.licensed.mono (append_subset.2 ⟨hκ, hcode⟩),
    hu.quiet⟩

/-- A later piece of code may use the variables of an earlier one. -/
theorem append (h : κ.Allows env code) (hmore : (κ.behind code).Allows env more) :
    κ.Allows env (code ++ more) := by
  refine allUse_append.2 ⟨h.among rfl rfl ?_ ?_, hmore.among rfl rfl ?_ ?_⟩
  all_goals simp [behind]

theorem block (h : κ.Allows env code) : κ.Allows env [.block code] :=
  ⟨h.among rfl rfl (subset_append_left _ _) (by simp [behind]), trivial⟩

theorem ifThen (he : Known env 1 κ e) (h : κ.Allows env code) : κ.Allows env [.ifThen e code] :=
  ⟨⟨(he.later extends_behind).uses fun _ => id,
    h.among rfl rfl (subset_append_left _ _) (by simp [behind])⟩, trivial⟩

theorem loop (hinit : κ.Allows env init) (he : Known env 1 κ e) (hpost : κ.Allows env post)
    (hbody : κ.Allows env body) : κ.Allows env [.loop init e post body] := by
  refine ⟨⟨hinit.among rfl rfl (subset_append_left _ _) ?_, (he.later extends_behind).uses fun _ => id,
    hpost.among rfl rfl (subset_append_left _ _) ?_,
    hbody.among rfl rfl (subset_append_left _ _) ?_⟩, trivial⟩
  all_goals
    intro b hb
    simp [behind, hb]

end Allows

end Stage

/-- Code that mentions what is known and what it declares, and uses what may be used. -/
structure Stage.CanWrite (env : Env) (κ : Stage) (code : List Yul.Stmt) : Prop
    extends κ.naming.CanWrite code where
  uses : κ.Allows env code

namespace Stage.CanWrite

variable {env : Env} {κ κ' : Stage} {code : List Yul.Stmt} {x : String} {e : Yul.Expr}

theorem later (hcode : κ.CanWrite env code) (h : κ.Extends env.catalog κ') : κ'.CanWrite env code :=
  ⟨hcode.toCanWrite.later h.naming, hcode.uses.later h⟩

theorem nil : κ.CanWrite env [] :=
  ⟨⟨fun _ => allScoped_nil, .inr trivial⟩, trivial⟩

theorem assignOne (hcode : κ.CanWrite env code) (hx : κ.Knows x)
    (he : Known env 1 (κ.behind code) e) : κ.CanWrite env (code ++ [.assignOne x e]) where
  toCanWrite := hcode.toCanWrite.assignOne hx he.mentions
  uses := hcode.uses.append (allows_of_allUse ⟨he.uses fun _ => id, trivial⟩)

theorem ifThen (hc : Known env 1 κ c) (hcode : κ.CanWrite env code) :
    κ.CanWrite env [.ifThen c code] where
  seen hs := allScoped_cons.2 ⟨⟨hc.mentions, hcode.seen hs⟩, allScoped_nil⟩
  flow := hcode.flow.imp_right fun hflow =>
    ⟨⟨hc.mentions.mono fun _ _ => trivial, hflow⟩, trivial⟩
  uses := hcode.uses.ifThen hc

theorem declare (hvalue : ∀ e ∈ value, Known env names.length κ e) :
    κ.CanWrite env [.declare names value] := by
  cases value with
  | none =>
    exact ⟨⟨fun _ => ⟨trivial, trivial⟩, .inr ⟨fun _ _ => trivial, trivial⟩⟩, trivial, trivial⟩
  | some e =>
    have he := hvalue e rfl
    exact ⟨⟨fun _ => ⟨he.mentions, trivial⟩, .inr ⟨⟨fun _ _ => trivial, he.mentions.mono fun _ _ => trivial⟩,
      trivial⟩⟩, allows_of_allUse ⟨he.uses fun _ => id, trivial⟩⟩

end Stage.CanWrite

namespace Moves

variable {α β : Type} {env : Env} {κ κ₁ : Stage} {m : Lower α}
  {R : Stage → α → Prop} {names : List String} {code : List Yul.Stmt}

theorem emitAll (hcode : κ.CanWrite env code)
    (hhand : κ.naming.inHand.Perm (allDeclared code ++ names)) :
    Moves env κ (Lowering.emitAll code) fun κ' _ =>
      κ'.naming = (κ.behind code).naming.holding names ∧ (κ.behind code).Extends env.catalog κ' ∧
        ∀ x ∈ allBinds code, κ'.Knows x := by
  rintro st a st' ⟨hst, hprogress⟩ hrun
  obtain rfl : { st with code := st.code ++ code } = st' := congrArg Prod.snd (Except.ok.inj hrun)
  set Γ' := (κ.behind code).naming.holding names
  have hle : κ.naming ≤ Γ' := Naming.le_seeing.trans Naming.le_holding
  have hdeclared : κ.naming.strict → ∀ x ∈ allDeclared code, ¬ κ.naming.Reserved x :=
    fun hs x hx => (hst.wellFormed hs).hand x (hhand.mem_iff.2 (mem_append_left _ hx))
  have hformed : κ.naming.strict → Γ'.WellFormed := by
    intro hs
    have hformed := hst.wellFormed hs
    refine ⟨fun x hx => (hformed.scope x hx).mono hle x, fun x hx => .inl (hformed.waiting x hx),
      hformed.guard, ?_, fun x hx => hformed.hand x (hhand.mem_iff.2 (mem_append_right _ hx))⟩
    rintro x (hx | hx)
    · exact hformed.made x hx
    · exact fun ht => hdeclared hs x (mem_allDeclared hx) (.inl ht)
  have hbehind : (κ.behind code).Extends env.catalog { κ.behind code with naming := Γ' } :=
    ⟨Naming.le_holding, .refl, Subset.refl _, rfl⟩
  refine ⟨{ κ.behind code with naming := Γ' }, ⟨⟨hle, .refl, subset_append_left _ _, rfl⟩,
    ⟨⟨hformed, hst.counter, hst.pending, hst.declared, hst.scopes⟩, hprogress⟩, code, rfl, ?_,
    AllUse.later hcode.uses hbehind, rfl⟩, rfl, hbehind, fun x hx hs => ⟨.inr hx, hdeclared hs x (mem_allDeclared hx)⟩⟩
  exact ⟨fun hs => (hcode.seen hs).mono fun x hx => hx hs, hcode.flow, fun x hx => hx,
    [], nodup_nil, forall_mem_nil _, hhand.symm.subperm⟩

theorem put (hh : κ.Holds κ₁ (allDeclared code ++ names)) (hcode : κ₁.CanWrite env code) :
    Moves env κ₁ (Lowering.emitAll code) fun κ₂ _ => κ.Holds κ₂ names ∧
      κ₂.naming.scopes = κ₁.naming.scopes ∧ κ₂.naming.declared = κ₁.naming.declared ∧
      (κ₁.behind code).Extends env.catalog κ₂ ∧ ∀ x ∈ allBinds code, κ₂.Knows x := by
  have hhand := hh.inHand
  rw [append_assoc] at hhand
  refine (emitAll hcode hhand).weaken ?_
  rintro κ₂ _ - ⟨hnaming, hle, hknown⟩
  unfold Stage.Holds
  rw [hnaming]
  exact ⟨{ hh with inHand := .refl _ }, rfl, rfl, hle, hknown⟩

theorem write (ht : κ.Takes κ₁ (allDeclared code ++ names)) (hcode : κ₁.CanWrite env code) :
    Moves env κ₁ (Lowering.emitAll code) fun κ₂ _ => κ.Takes κ₂ names ∧
      (κ₁.behind code).Extends env.catalog κ₂ ∧ ∀ x ∈ allBinds code, κ₂.Knows x :=
  (put ht.toHolds hcode).weaken fun _ _ _ ⟨hh, hscopes, hdeclared, hrest⟩ =>
    ⟨⟨hh, hscopes.trans ht.scopes, hdeclared.trans ht.declared⟩, hrest⟩

/-- A conditional block is written; nothing that it declares is seen behind it. -/
theorem writeIf (ht : κ.Takes κ₁ (allDeclared code ++ names)) (hc : Known env 1 κ₁ c)
    (hcode : κ₁.CanWrite env code) :
    Moves env κ₁ (emit (.ifThen c code)) fun κ₂ _ => κ.Takes κ₂ names := by
  refine (write ?_ (hcode.ifThen hc)).weaken fun _ _ _ h => h.1
  simpa [declared] using ht

theorem numbered {stem : String} (hstem : stem = "_" ∨ stem = "__cond_") :
    Moves env κ (Lowering.numbered stem) fun κ' x => κ.Takes κ' [x] := by
  rintro st x st' ⟨hst, hprogress⟩ hrun
  obtain ⟨rfl, rfl⟩ : stem ++ toString (st.counter + 1) = x ∧
      { st with counter := st.counter + 1 } = st' :=
    pair_inj hrun
  rw [hst.counter]
  set Γ := κ.naming
  set x := stem ++ toString (Γ.counter + 1) with hx
  set Γ' : Naming := { Γ with counter := Γ.counter + 1, inHand := x :: Γ.inHand }
  have hle : Γ ≤ Γ' :=
    ⟨Nat.le_succ _, fun _ h => .inr h, fun _ h => h, fun _ h => h, rfl, rfl⟩
  have hmade : MadeBetween Γ.counter (Γ.counter + 1) x := by
    rcases hstem with rfl | rfl
    · exact ⟨⟨Γ.counter + 1, Nat.lt_succ_self _, .inl rfl⟩, not_isTemp_temp _⟩
    · exact ⟨⟨Γ.counter + 1, Nat.lt_succ_self _, .inr rfl⟩, not_isTemp_cond _⟩
  have hformed : Γ.strict → Γ'.WellFormed := by
    intro hs
    have hformed := hst.wellFormed hs
    refine ⟨fun y hy => (hformed.scope y hy).mono hle y, hformed.waiting, hformed.guard, ?_, ?_⟩
    · exact fun y hy ht => hformed.made y hy (ht.mono (Nat.le_succ _))
    · refine forall_mem_cons.2 ⟨?_, fun y hy hr => hformed.hand y hy (hr.anti hle)⟩
      have hmade : Γ.MadeBy Γ' x := .inl hmade
      exact hmade.not_reserved hformed fun _ h => h
  refine ⟨{ κ with naming := Γ' }, step_bare ⟨hle, .refl, Subset.refl _, rfl⟩ ⟨⟨hformed, rfl,
    hst.pending, hst.declared, hst.scopes⟩, hprogress⟩ rfl ?_ rfl,
    ⟨.refl _, fun _ h => h, fun _ => .inl⟩, rfl, rfl⟩
  exact ⟨fun _ => allScoped_nil, .inr trivial, fun _ h => .inl h, [x], nodup_singleton x,
    forall_mem_singleton.2 (.inl hmade), .refl _⟩

theorem temp : Moves env κ Lowering.temp fun κ' x => κ.Takes κ' [x] :=
  numbered (.inl rfl)

theorem conditionTemp : Moves env κ Lowering.conditionTemp fun κ' x => κ.Takes κ' [x] :=
  numbered (.inr rfl)

/-- When no guard waits any more, all that is declared around the code is known. -/
theorem unguarded (env : Env) {guard : Option Guard} (hst : κ.Describes st)
    (hguard : pendingNames guard = []) :
    ∃ κ', Step env κ κ' st { st with guard } ∧ κ.Takes κ' [] ∧ κ'.naming.pending = [] ∧
      ∀ x, κ.naming.own x → κ'.Knows x := by
  have hnaming := hst.naming
  set Γ := κ.naming
  set Γ' : Naming := { Γ with pending := [] }
  have hle : Γ ≤ Γ' :=
    ⟨Nat.le_refl _, forall_mem_nil _, fun _ h => h, fun _ h => h, rfl, rfl⟩
  have hformed : Γ'.strict → Γ'.WellFormed := by
    intro hs
    have hformed := hnaming.wellFormed hs
    exact ⟨fun x hx => (hformed.scope x hx).mono hle x, forall_mem_nil _, forall_mem_nil _,
      hformed.made, fun x hx hr => hformed.hand x hx (hr.anti hle)⟩
  refine ⟨{ κ with naming := Γ' }, step_bare ⟨hle, .refl, Subset.refl _, rfl⟩ ⟨⟨hformed,
    hnaming.counter, hguard, hnaming.declared, hnaming.scopes⟩, hst.progress⟩ rfl
    (lays_nil (fun _ h => h) (.refl _)) rfl,
    ⟨⟨.refl _, forall_mem_nil _, fun _ => .inl⟩, rfl, rfl⟩, rfl, ?_⟩
  exact fun x hx hs => ⟨hx, fun hr => hr.elim ((hnaming.wellFormed hs).made x hx) not_mem_nil⟩

/-! ### Blocks -/

/-- What the step inside a block leaves outside of it: its code is in hand. -/
theorem leave (st' : State) (scopes : List Scope) (hst : κ.Describes st)
    (hstep : Step env (κ.within scopes) κ₁ st₁ st₂) (hholds : κ.Holds κ₁ [])
    (hscopes : st'.scopes = st.scopes) (hempty : st₁.code = []) (hcode : st'.code = st.code)
    (hcounter : st'.counter = st₂.counter) (hguard : st'.guard = st₂.guard)
    (hdeclared : st'.declared = st₂.declared) (hprogress : st'.progress = st₂.progress) :
    ∃ κ', Step env κ κ' st st' ∧ κ.Holds κ' (allDeclared st₂.code) ∧
      κ'.naming.scopes = κ.naming.scopes ∧ κ'.naming.declared = κ₁.naming.declared ∧
      κ'.CanWrite env st₂.code ∧ κ₁.Extends env.catalog (κ'.behind st₂.code) := by
  obtain ⟨code, hinner, hlays⟩ := hstep.code
  obtain rfl : st₂.code = code := by simpa [hempty] using hinner
  set Γ := κ.naming
  set Γ₁ := κ₁.naming
  have hinside := hstep.le.naming
  have hle : Γ ≤ Γ₁ := ⟨hinside.counter, hinside.pending, hinside.declared, hinside.own,
    hinside.jumps, hinside.strict⟩
  set Γ' : Naming :=
    { Γ₁ with own := Γ.own, scopes := Γ.scopes, inHand := allDeclared st₂.code ++ Γ₁.inHand }
  have hle' : Γ ≤ Γ' :=
    ⟨hle.counter, hle.pending, hle.declared, fun _ h => h, hle.jumps, hle.strict⟩
  obtain ⟨names, hnodup, hmade, hnames⟩ := hlays.names
  have hafter := hstep.after.naming
  have hformed : Γ'.strict → Γ'.WellFormed := by
    intro hs
    have hformed := hst.naming.wellFormed (hle'.strict ▸ hs)
    have hfresh : ∀ x ∈ allDeclared st₂.code, ¬ Γ'.Reserved x := by
      intro x hx
      rcases mem_append.1 (hnames.subset (mem_append_left _ hx)) with hx | hx
      · exact Naming.MadeBy.not_reserved (Γ := Γ) (hmade x hx) hformed hholds.pending
      · exact fun hr => hformed.hand x hx (Naming.Reserved.anti hle' hr)
    refine ⟨fun x hx => (hformed.scope x hx).mono hle' x,
      fun x hx => hformed.waiting x (hholds.pending x hx), (hafter.wellFormed hs).guard,
      fun x hx ht => hformed.made x hx (ht.mono hle.counter), fun x hx => ?_⟩
    exact (mem_append.1 hx).elim (hfresh x) ((hafter.wellFormed hs).hand x)
  have hbehind : κ₁.Extends env.catalog (Stage.behind ⟨Γ', κ₁.progress, κ.bindings, κ.classes⟩ st₂.code) :=
    ⟨⟨Nat.le_refl _, fun _ h => .inr h, fun _ h => h, hlays.own, rfl, rfl⟩, .refl,
      hlays.bindings ▸ Subset.refl _, hstep.le.classes.symm⟩
  refine ⟨⟨Γ', κ₁.progress, κ.bindings, κ.classes⟩,
    step_bare ⟨hle', hstep.le.progress, Subset.refl _, rfl⟩
    ⟨⟨hformed, hcounter.trans hafter.counter, hguard ▸ hafter.pending,
      hdeclared.trans hafter.declared, hscopes.trans hst.naming.scopes⟩,
      hprogress.trans hstep.after.progress⟩ hcode ?_ rfl,
    ⟨hholds.inHand.append_left _, hholds.pending, fun _ => .inl⟩,
    rfl, rfl, ⟨⟨?_, hle.jumps ▸ hlays.flow⟩, hlays.uses.later hbehind⟩, hbehind⟩
  · exact ⟨fun _ => allScoped_nil, .inr trivial, fun _ h => .inl h, names, hnodup, hmade, hnames⟩
  · exact fun hs => (hlays.seen (hle'.strict ▸ hs)).mono fun x hx _ => hx

theorem inScope (hm : Moves env (κ.within ([] :: κ.naming.scopes)) m fun κ' a =>
    κ.Holds κ' [] ∧ R κ' a) : Moves env κ (Lowering.inScope m) fun κ' r => ∃ κ₁, R κ₁ r.2 ∧
      κ.Holds κ' (allDeclared r.1) ∧ κ'.naming.scopes = κ.naming.scopes ∧
      κ'.naming.declared = κ₁.naming.declared ∧ κ'.CanWrite env r.1 ∧
      κ₁.Extends env.catalog (κ'.behind r.1) := by
  intro st r st' hst hrun
  obtain ⟨st₂, hinner, hcode, rfl⟩ := inScope_eq_ok.1 hrun
  have hnaming := hst.naming
  have hentered : (κ.naming.within ([] :: κ.naming.scopes)).Describes
      { st with scopes := [] :: st.scopes, code := [] } :=
    ⟨fun hs => { hnaming.wellFormed hs with }, hnaming.counter, hnaming.pending, hnaming.declared,
      congrArg _ hnaming.scopes⟩
  obtain ⟨κ₁, hstep, hholds, ha⟩ := hm _ r.2 st₂ ⟨hentered, hst.progress⟩ hinner
  obtain ⟨κ', hstep, hrest⟩ := leave { st₂ with code := st.code, scopes := st.scopes }
    ([] :: κ.naming.scopes) hst hstep hholds rfl rfl rfl rfl rfl rfl rfl
  dsimp only
  rw [hcode]
  exact ⟨κ', hstep, κ₁, ha, hrest⟩

end Moves

/-! ## The code of expressions -/

namespace Lowers

variable {α β : Type} {env : Env} {κ κ₁ : Stage} {m : Lower α} {R : Stage → α → Prop}

abbrev Any : Stage → α → Prop := fun _ _ => True

theorem pure (h : R κ a) : Lowers env κ (pure a) R :=
  Moves.pure ⟨.refl _, h⟩

theorem since (hm : Lowers env κ₁ m R) (ht : κ.Takes κ₁ names) :
    Moves env κ₁ m fun κ' a => κ.Takes κ' names ∧ R κ' a :=
  hm.weaken fun _ _ _ h => ⟨ht.trans h.1, h.2⟩

theorem bind (hm : Lowers env κ m R)
    (hf : ∀ κ' a, κ.Extends env.catalog κ' → R κ' a → Lowers env κ' (f a) T) :
    Lowers env κ (m >>= f) T :=
  Moves.bind hm fun κ' a h ha => (hf κ' a h ha.2).since ha.1

theorem weaken (hm : Lowers env κ m R) (h : ∀ κ' a, κ.Extends env.catalog κ' → R κ' a → S κ' a) :
    Lowers env κ m S :=
  Moves.weaken hm fun κ' a hle ha => ⟨ha.1, h κ' a hle ha.2⟩

theorem throw : Lowers env κ (throw e : Lower α) R :=
  Moves.throw

variable {x : Outcome α} {e : Yul.Expr} {v : Value} {r : FixedRoutine} {args : List Yul.Expr}

theorem lift (h : ∀ a, x = .ok a → R κ a) : Lowers env κ (liftM x : Lower α) R :=
  Moves.lift fun a ha => ⟨.refl _, h a ha⟩

/-- A step of the compilation of whose result nothing is asked. -/
theorem attempt : Lowers env κ (liftM x : Lower α) Any :=
  lift fun _ _ => trivial

theorem succeeded : Lowers env κ (liftM x : Lower α) fun _ a => x = .ok a :=
  lift fun _ h => h

theorem read_bind (hf : Lowers env κ (f env) R) : Lowers env κ (read >>= f) R :=
  Moves.read_bind hf

theorem get_bind (hf : ∀ st, κ.Describes st → Lowers env κ (f st) R) : Lowers env κ (get >>= f) R :=
  Moves.get_bind hf

theorem modifyProgress {f : Progress → Progress}
    (h : κ.progress.Grows env.catalog (f κ.progress)) :
    Lowers env κ (modify fun st => { st with progress := f st.progress })
      fun κ' _ => κ'.progress = f κ.progress := by
  rintro st a st' ⟨hst, hprogress⟩ hrun
  obtain rfl : { st with progress := f st.progress } = st' :=
    congrArg Prod.snd (Except.ok.inj hrun)
  refine ⟨{ κ with progress := f κ.progress }, Moves.step_bare ⟨le_refl _, h, Subset.refl _, rfl⟩
    ⟨hst.sameNames rfl rfl rfl rfl, congrArg f hprogress⟩ rfl ?_ rfl, .refl _, rfl⟩
  exact lays_nil (fun _ h => h) (.refl _)

theorem emitAll (h : AllFit κ.Knows (κ.Uses env false) ss) :
    Lowers env κ (Lowering.emitAll ss) Any := by
  have hflat := h.flatCode
  have htaken : κ.Takes κ (allDeclared ss ++ []) := by
    rw [allDeclared_of_allFlat hflat.flat]
    exact .refl _
  refine (Moves.write htaken ⟨⟨fun _ => hflat.mentions.scoped hflat.flat, .inr ?_⟩,
    Stage.allows_of_allUse hflat.uses⟩).weaken fun _ _ _ ht => ⟨ht.1, trivial⟩
  exact hflat.mentions.mono fun _ _ => trivial

theorem emit (h : s.Fits κ.Knows (κ.Uses env false)) : Lowers env κ (Lowering.emit s) Any :=
  emitAll ⟨h, trivial⟩

theorem emitExpr (h : Known env 0 κ e) : Lowers env κ (Lowering.emitExpr e) Any :=
  emit h

/-! ### Blocks -/

def Stays (env : Env) (R : Stage → α → Prop) : Prop :=
  ∀ κ κ' a, κ.Extends env.catalog κ' → R κ a → R κ' a

theorem stays_any : Stays env (Any : Stage → α → Prop) :=
  fun _ _ _ _ _ => trivial

/-- Collected code is in hand; behind it, its result is as it was inside. -/
def Collected (env : Env) (R : Stage → α → Prop) (κ κ' : Stage)
    (r : List Yul.Stmt × α) : Prop :=
  κ.Takes κ' (allDeclared r.1) ∧ κ'.CanWrite env r.1 ∧ R (κ'.behind r.1) r.2

theorem collect (hR : Stays env R) (hm : Lowers env κ m R) :
    Moves env κ (Lowering.collect m) (Collected env R κ) := by
  intro st r st' hst hrun
  obtain ⟨st₁, hinner, hcode, rfl⟩ := collect_eq_ok.1 hrun
  obtain ⟨κ₁, hstep, htakes, ha⟩ := hm { st with code := [] } r.2 st₁ (hst.withCode []) hinner
  have hsame : st₁.scopes = st.scopes :=
    (hstep.after.naming.scopes.trans htakes.scopes).trans hst.naming.scopes.symm
  obtain ⟨κ', hstep, hholds, hscopes, hdeclared, hwrite, hle⟩ :=
    Moves.leave { st₁ with code := st.code } κ.naming.scopes hst hstep htakes.toHolds hsame rfl rfl
      rfl rfl rfl rfl
  unfold Collected
  rw [hcode]
  exact ⟨κ', hstep, ⟨hholds, hscopes, hdeclared.trans htakes.declared⟩, hwrite, hR κ₁ _ r.2 hle ha⟩

/-- Scopes other than the present ones may hold variables that are known. -/
theorem withScopes (hR : Stays env R) (hscopes : ∀ x ∈ scopeNames scopes, κ.Knows x)
    (hm : Lowers env (κ.within scopes) m R) : Lowers env κ (Lowering.withScopes scopes m) R := by
  intro st a st' hst hrun
  obtain ⟨⟨a₁, st₁⟩, hm₁, hrun⟩ := bind_eq_ok.1 hrun
  obtain ⟨rfl, rfl⟩ := pair_inj hrun
  have hnaming := hst.naming
  have hentered : (κ.naming.within scopes).Describes { st with scopes := scopes } :=
    ⟨fun hs => { hnaming.wellFormed hs with scope := hscopes }, hnaming.counter, hnaming.pending,
      hnaming.declared, rfl⟩
  obtain ⟨κ₁, hstep, htakes, ha⟩ := hm _ a₁ st₁ ⟨hentered, hst.progress⟩ hm₁
  obtain ⟨code, hcode, hlays⟩ := hstep.code
  have hinside := hstep.le.naming
  have hle : κ.naming ≤ κ₁.naming.within κ.naming.scopes := ⟨hinside.counter, hinside.pending,
    hinside.declared, hinside.own, hinside.jumps, hinside.strict⟩
  have hafter := hstep.after.naming
  have hformed : κ₁.naming.strict → (κ₁.naming.within κ.naming.scopes).WellFormed := fun hs =>
    { hafter.wellFormed hs with
      scope := fun x hx => (hnaming.scope hx).mono hle x }
  refine ⟨κ₁.within κ.naming.scopes, ⟨⟨hle, hstep.le.progress, hstep.le.bindings, hstep.le.classes⟩, ⟨⟨hformed,
    hafter.counter, hafter.pending, hafter.declared, hnaming.scopes⟩, hstep.after.progress⟩, code,
    hcode, ⟨hlays.seen, hlays.flow, hlays.own, hlays.names⟩, hlays.uses.later Stage.extends_within,
      hlays.bindings⟩, ⟨⟨htakes.inHand, htakes.pending, fun _ => .inl⟩, rfl, htakes.declared⟩,
      hR κ₁ _ a₁ ⟨?_, .refl, ?_, rfl⟩ ha⟩
  · exact ⟨Nat.le_refl _, fun _ h => .inr h, fun _ h => h, fun _ h => h, rfl, rfl⟩
  · exact Subset.refl _

theorem inScope (hR : Stays env R) (hm : Lowers env (κ.within ([] :: κ.naming.scopes)) m R) :
    Moves env κ (Lowering.inScope m) (Collected env R κ) := by
  have hinner : Moves env (κ.within ([] :: κ.naming.scopes)) m fun κ' a =>
      κ.Holds κ' [] ∧ κ'.naming.declared = κ.naming.declared ∧ R κ' a :=
    Moves.weaken hm fun _ _ _ h => ⟨⟨h.1.inHand, h.1.pending, h.1.inScope⟩, h.1.declared, h.2⟩
  refine (Moves.inScope hinner).weaken ?_
  rintro κ' r - ⟨κ₁, ⟨hsame, ha⟩, hholds, hscopes, hdeclared, hwrite, hle⟩
  exact ⟨⟨hholds, hscopes, hdeclared.trans hsame⟩, hwrite, hR κ₁ _ r.2 hle ha⟩

/-! ### Names -/

theorem varOf? : Lowers env κ (Lowering.varOf? name) fun κ v => ∀ x ∈ v, κ.Knows x.irName :=
  get_bind fun _ hst => pure fun _ hx =>
    hst.naming.scope (mem_scopeNames (hst.naming.scopes ▸ hx))

/-! ### Lists -/

theorem mapM {as : List α} (hT : Stays env T)
    (hf : ∀ κ', κ.Extends env.catalog κ' → ∀ a ∈ as, Lowers env κ' (f a) T) :
    Lowers env κ (as.mapM f) fun κ bs => bs.length = as.length ∧ ∀ b ∈ bs, T κ b := by
  induction as generalizing κ with
  | nil =>
    exact pure (by simp)
  | cons a as ih =>
    rw [mapM_cons]
    refine (hf κ .refl a (by simp)).bind fun κ₁ b h₁ hb => ?_
    refine (ih fun κ' h a ha => hf κ' (h₁.trans h) a (by simp [ha])).bind fun κ₂ bs h₂ hbs => ?_
    exact pure ⟨by simp [hbs.1], forall_mem_cons.2 ⟨hT κ₁ κ₂ b h₂ hb, hbs.2⟩⟩

theorem forM {f : α → Lower Unit} {as : List α}
    (hf : ∀ κ', κ.Extends env.catalog κ' → ∀ a ∈ as, Lowers env κ' (f a) Any) :
    Lowers env κ (as.forM f) Any := by
  induction as generalizing κ with
  | nil => exact pure trivial
  | cons a as ih =>
    refine (hf κ .refl a (by simp)).bind fun κ₁ _ h₁ _ => ?_
    exact ih fun κ' h a ha => hf κ' (h₁.trans h) a (by simp [ha])

def IfSome (R : Stage → α → Prop) (κ : Stage) (o : Option α) : Prop :=
  ∀ a ∈ o, R κ a

theorem ifSome_some (h : R κ a) : IfSome R κ (some a) := by
  rintro _ ⟨⟩
  exact h

theorem ifSome_none : IfSome R κ none := by
  rintro _ ⟨⟩

/-! ### Captures -/

theorem stays_plainValue : Stays env (PlainValue env : Stage → Value → Prop) :=
  fun _ _ _ h hv => hv.later h

theorem declareAll {v : Option Yul.Expr} (ht : κ.Takes κ₁ (names ++ held))
    (hvalue : ∀ e ∈ v, Known env names.length κ₁ e) :
    Moves env κ₁ (Lowering.emit (.declare names v)) fun κ₂ _ => κ.Takes κ₂ held ∧
      (∀ x ∈ names, κ₂.Knows x) ∧ ∀ x e, names = [x] → v = some e → (x, e) ∈ κ₂.bindings := by
  refine (Moves.write ?_ (.declare hvalue)).weaken fun κ₂ _ _ h =>
    ⟨h.1, fun x hx => h.2.2 x ?_, ?_⟩
  · simpa [declared] using ht
  · simpa [binds] using hx
  · rintro x e rfl rfl
    exact h.2.1.bindings (mem_append_right _ (by simp))

theorem declareOne {x : String} {held : List String} (ht : κ.Takes κ₁ ([x] ++ held))
    (he : Known env 1 κ₁ e) :
    Moves env κ₁ (Lowering.emit (.letOne x e)) fun κ₂ _ =>
      κ.Takes κ₂ held ∧ κ₂.Knows x ∧ (x, e) ∈ κ₂.bindings := by
  refine (declareAll ht ?_).weaken fun _ _ _ h => ⟨h.1, h.2.1 x (by simp), h.2.2 x e rfl rfl⟩
  rintro _ ⟨⟩
  exact he

theorem bindFresh (he : Known env 1 κ e) :
    Lowers env κ (Lowering.bindFresh e) fun κ x => κ.Knows x ∧ (x, e) ∈ κ.bindings := by
  refine Moves.temp.bind fun κ₁ t h₁ ht => ?_
  exact (declareOne ht (he.later h₁)).bind fun κ₂ _ h₂ ht => Moves.pure ht

abbrev Captured (env : Env) (v : Value) (κ : Stage) (w : Value) : Prop :=
  PlainValue env κ w ∧ StandsFor κ.bindings w.expr v.expr

theorem capturedFresh (hv : Known env 1 κ v.expr) :
    Lowers env κ (Lowering.captureFresh v) (Captured env v) :=
  (bindFresh hv).bind fun _ x _ hx => pure ⟨hx.1, .inr ⟨x, rfl, hx.2⟩⟩

/-- What is a call may do anything; it is bound to a temporary. -/
theorem captured (hv : Known env 1 κ v.expr) :
    Lowers env κ (Lowering.capture v) (Captured env v) := by
  unfold Lowering.capture
  split
  · exact capturedFresh hv
  · rename_i hcall
    refine pure ⟨?_, .inl rfl⟩
    show Plain env κ v.expr
    revert hv hcall
    cases v.expr with
    | literal l => exact fun _ _ => trivial
    | ident x => exact fun hx _ => hx
    | call name args => exact fun _ hcall => (hcall rfl).elim

theorem captureFresh (hv : Known env 1 κ v.expr) :
    Lowers env κ (Lowering.captureFresh v) (PlainValue env) :=
  (capturedFresh hv).weaken fun _ _ _ h => h.1

theorem capture (hv : Known env 1 κ v.expr) : Lowers env κ (Lowering.capture v) (PlainValue env) :=
  (captured hv).weaken fun _ _ _ h => h.1

/-! ### Routines, types and arguments -/

theorem use {r : Routine} (hr : r.IsBuiltIn) :
    Lowers env κ (Lowering.use r) fun κ _ => κ.progress.registry.contains r := by
  refine read_bind ((modifyProgress (f := (·.use env.options.target r)) ?_).weaken ?_)
  · exact Progress.grows_use _ hr
  · rintro κ' - - h
    rw [h]
    exact Registry.contains_add _ hr

theorem request {r : Request} (hr : r.Declared env.catalog) :
    Lowers env κ (Lowering.request r) fun κ _ => r ∈ κ.progress.requested := by
  refine (modifyProgress (f := (·.request r)) (Progress.grows_request hr)).weaken ?_
  rintro κ' - - h
  rw [h]
  exact Progress.mem_request r

/-- A call of a fixed routine with as many arguments as it has parameters, licensed where it
stands. -/
theorem licensedRoutine {n : Nat} (hr : (Routine.fixed r).signature = ⟨r.name, args.length, n⟩)
    (hlicensed : env.Licensed κ.bindings ⟨r.name, args⟩) (hargs : ∀ e ∈ args, Known env 1 κ e) :
    Lowers env κ (Lowering.routine r args) fun κ e => e = r.call args ∧ Known env n κ e := by
  refine (use rfl).bind fun κ' _ h hused => pure ⟨rfl, fits_call.2 ⟨?_, fun e he => ?_⟩⟩
  · exact ⟨.shared (.inr ⟨_, hused, hr⟩), hlicensed.mono h.bindings, by simp⟩
  · exact (hargs e he).later h

theorem routine (hr : (Routine.fixed r).signature = ⟨r.name, args.length, n⟩)
    (hs : (Routine.fixed r).changesStorage? = none) (hargs : ∀ e ∈ args, Known env 1 κ e) :
    Lowers env κ (Lowering.routine r args) (Known env n) :=
  (licensedRoutine hr (licensed_routine hs) hargs).weaken fun _ _ _ he => he.2

theorem runRoutine (hr : (Routine.fixed r).signature = ⟨r.name, args.length, 0⟩)
    (hlicensed : env.Licensed κ.bindings ⟨r.name, args⟩) (hargs : ∀ e ∈ args, Known env 1 κ e) :
    Lowers env κ (Lowering.runRoutine r args) Any :=
  (licensedRoutine hr hlicensed hargs).bind fun _ _ _ he => emitExpr he.2

/-- A call of a version of a family with as many arguments as it has parameters. -/
theorem family (hlength : args.length = f.params arity) (hargs : ∀ e ∈ args, Known env 1 κ e) :
    Lowers env κ (Lowering.family f arity args) (Known env (f.results arity)) := by
  refine (use rfl).bind fun _ _ h hused => pure (fits_call.2 ⟨?_, fun e he => (hargs e he).later h⟩)
  refine Stage.uses_routine hused ?_ rfl
  rw [hlength]
  rfl

theorem resolve : Lowers env κ (Lowering.resolve text) Any :=
  read_bind attempt

theorem resolveAll {texts : List String} :
    Lowers env κ (Lowering.resolveAll texts) fun _ types => types.length = texts.length :=
  (mapM stays_any fun _ _ _ _ => resolve).weaken fun _ _ _ h => h.1

theorem structLayout : Lowers env κ (Lowering.structLayout name)
    fun _ layout => env.catalog.layouts.get? name = some layout := by
  refine read_bind ?_
  split
  · rename_i layout hlayout
    exact pure hlayout
  · exact throw

/-- The numbers of parameters and arguments of a call are equal. -/
theorem checkArity :
    Lowers env κ (liftM (Lowering.checkArity callee expected got)) fun _ _ => expected = got := by
  refine lift fun a h => ?_
  unfold Lowering.checkArity at h
  split at h
  · assumption
  · cases h

end Lowers

end Lowering

end ContractYul
