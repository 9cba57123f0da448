import ContractYul.Proofs.Compilation.Resolution

/-!
# Parent calls in expanded methods

In the initial value of a field the body of a method stands in place of a call. The body is lowered
where the field is declared. A call of `super` in it reaches the nearest body above the class of the
field, at any depth of expansion. In the function of the method it reaches the nearest body above the
class that the method belongs to. The two are the same when no class between them has a body for the
method that is called.

Main statement: `expanded_super_from_field_class`.
-/

open List

namespace ContractYul

open Source (ClassDecl MethodDecl)

namespace Lineage

variable {l : Lineage} {c d : ClassDecl} {k : String} {front between back : List ClassDecl}

/-- The bodies that classes of a line have for a method are lowered under different names. -/
theorem name_of_irName_eq (h : l.irName c.name k = l.irName d.name k) : c.name = d.name := by
  have hlonger : ∀ e : ClassDecl, functionName k ≠ renamedName e.name k := by
    intro e heq
    rw [renamedName_eq] at heq
    have hlength := congrArg String.length (functionName_injective heq)
    simp only [String.length_append] at hlength
    have hbar : "_".length = 1 := rfl
    omega
  unfold irName at h
  split at h
  · rename_i hc
    split at h
    · rename_i hd
      -- both classes own the method
      obtain ⟨owner, howner, hname⟩ := (Option.any_eq_true _ _).1 hc
      obtain ⟨owner', howner', hname'⟩ := (Option.any_eq_true _ _).1 hd
      obtain rfl := Option.some.inj (howner.symm.trans howner')
      exact (beq_iff_eq.1 hname).symm.trans (beq_iff_eq.1 hname')
    · exact absurd h (hlonger d)
  · split at h
    · exact absurd h.symm (hlonger c)
    · exact String.append_left_inj _ |>.1 (String.append_left_inj _ |>.1 (functionName_injective h))

/-- `super` reaches the same body from two classes of a line just when no class from the first on,
and before the second, has a body. -/
theorem superTarget_eq_iff (hnodup : (l.classes.map (·.name)).Nodup)
    (hsplit : l.classes = front ++ c :: between ++ d :: back) (hfront : ∃ b ∈ front, hasBody b k) :
    l.superTarget c.name k = l.superTarget d.name k ↔ ∀ b ∈ c :: between, ¬ hasBody b k := by
  have hd : l.before d.name = (front ++ c :: between).reverse := before_eq hnodup hsplit
  have hc : l.before c.name = front.reverse := by
    rw [append_assoc] at hsplit
    exact before_eq hnodup hsplit
  obtain ⟨b, hb, hbody⟩ := hfront
  obtain ⟨above, habove⟩ : ∃ e, front.reverse.find? (hasBody · k) = some e :=
    Option.isSome_iff_exists.1 (find?_isSome.2 ⟨b, mem_reverse.2 hb, hbody⟩)
  rw [superTarget_eq_nearest hnodup, superTarget_eq_nearest hnodup, hc, hd, reverse_append,
    find?_append, habove]
  cases hnear : (c :: between).reverse.find? (hasBody · k) with
  | none =>
    exact iff_of_true rfl fun e he => find?_eq_none.1 hnear e (mem_reverse.2 he)
  | some near =>
    have hmem := mem_reverse.1 (mem_of_find?_eq_some hnear)
    have hbody : hasBody near k := find?_some (p := (hasBody · k)) hnear
    refine iff_of_false (fun heq => ?_) fun hnone => hnone near hmem hbody
    -- the nearer class is another one, so that its body has another name
    have hname := name_of_irName_eq (Except.ok.inj heq)
    rw [hsplit, map_append, map_append] at hnodup
    have hapart := (nodup_append.1 (nodup_append.1 hnodup).1).2.2
    refine hapart above.name (mem_map_of_mem ?_) near.name (mem_map_of_mem hmem) hname
    exact mem_reverse.1 (mem_of_find?_eq_some habove)

end Lineage

namespace Lowering

open Yul Outcome

/-! ## Calls that are written -/

/-- A call of the nearest body above the class at hand is written. -/
abbrev WritesParentCall {α : Type} (env : Env) (k : String) (m : Lower α) : Prop :=
  Appends env m fun code _ => ∃ target, env.lineage.superTarget env.className k = .ok target ∧
    ∃ c ∈ Stmt.allCalls code, c.name = target

section

variable {α β : Type}

theorem Appends.any {R : State → Stage → α → Prop} (h : ∀ st : State, Moves env st.stage m (R st)) :
    Appends env m fun _ _ => True :=
  (Appends.of_moves h).weaken fun _ _ _ => trivial

theorem WritesParentCall.after (hm : Appends env m fun _ _ => True)
    (hf : ∀ a, WritesParentCall env k (f a)) : WritesParentCall env k (m >>= f) := by
  refine hm.bind fun code a _ => (hf a).weaken fun more _ h => ?_
  obtain ⟨target, htarget, c, hc, hname⟩ := h
  refine ⟨target, htarget, c, ?_, hname⟩
  rw [Stmt.allCalls_append]
  exact mem_append_right _ hc

theorem WritesParentCall.before (hm : WritesParentCall env k m)
    (hf : ∀ a, Appends env (f a) fun _ _ => True) : WritesParentCall env k (m >>= f) := by
  refine hm.bind fun code a h => (hf a).weaken fun more _ _ => ?_
  obtain ⟨target, htarget, c, hc, hname⟩ := h
  refine ⟨target, htarget, c, ?_, hname⟩
  rw [Stmt.allCalls_append]
  exact mem_append_left _ hc

theorem Appends.withScopes (hm : Appends env m W) :
    Appends env (Lowering.withScopes scopes m) W := by
  intro st a st' hrun
  obtain ⟨⟨a₁, st₁⟩, hm₁, hrun⟩ := bind_eq_ok.1 hrun
  obtain ⟨rfl, rfl⟩ := pair_inj hrun
  exact hm { st with scopes := scopes } a₁ st₁ hm₁

theorem writes_bindResults :
    Appends env (bindResults (call name es) types)
      fun code _ => ∃ c ∈ Stmt.allCalls code, c.name = name := by
  unfold bindResults
  split
  · refine Appends.emit.bind fun code _ hcode => .pure ?_
    subst hcode
    simp [call]
  · refine (Appends.any fun _ => Lowers.temps).bind fun _ names _ => ?_
    refine Appends.emit.bind fun code _ hcode => .pure ?_
    subst hcode
    exact ⟨⟨name, es.length, names.length⟩, by simp [call, Stmt.allCalls_append], rfl⟩

theorem writes_internalCall {irName : String}
    (htarget : env.lineage.superTarget env.className k = .ok irName) (hargs : AllSound env args) :
    WritesParentCall env k (internalCall irName params returns args) := by
  refine .after (Appends.lift.weaken fun _ _ _ => trivial) fun _ => ?_
  refine .after (Appends.any fun _ => Lowers.resolveAll) fun types => ?_
  refine .after (Appends.any fun _ => Lowers.orderedAs hargs) fun values => ?_
  refine .after (Appends.any fun _ => Lowers.resolveAll) fun results => ?_
  exact writes_bindResults.weaken fun _ _ h => ⟨irName, htarget, h⟩

theorem writes_superCall (hargs : AllSound env args) :
    WritesParentCall env k (superCall k args) := by
  refine Appends.read_bind (Appends.lift.bind fun _ target h => ?_)
  obtain ⟨rfl, htarget⟩ := h
  split
  · exact writes_internalCall htarget hargs
  · exact .throw

theorem writes_ofCall (h : WritesParentCall env k results) :
    WritesParentCall env k ((Operand.ofCall source results).valueAs ty) := by
  have hsingle : WritesParentCall env k (singleResult results) := by
    refine h.before fun vs => ?_
    split
    · exact .pure trivial
    · exact .pure trivial
    · exact .throw
  refine hsingle.before fun v => ?_
  unfold coerce
  split
  · exact Appends.read_bind .throw
  · exact .pure trivial

/-- The body of a method is lowered in the place of the call, behind the arguments. -/
theorem writes_expandCall {m : MethodDecl} (hargs : AllSound env args)
    (hbody : ∀ ty, WritesParentCall env k (body.valueAs ty)) :
    WritesParentCall env k (expandCall body ty m args) := by
  refine .after (Appends.lift.weaken fun _ _ _ => trivial) fun _ => ?_
  refine .after (Appends.any fun _ => Lowers.resolveAll) fun types => ?_
  refine .after (Appends.any fun _ => Lowers.resolve) fun result => ?_
  refine .after (Appends.any fun _ => Lowers.orderedAs hargs) fun values => ?_
  refine .after ?_ fun names => (hbody result).withScopes
  refine (Appends.mapM (T := fun _ _ => True) fun v _ => ?_).weaken fun _ _ _ => trivial
  exact Appends.bindFresh.weaken fun _ _ _ => trivial

end

/-! ## Expanded calls -/

/-- An expression that is a call of the parent method `k`, or a call of a method that is expanded to
such an expression, at most `n` calls further down. -/
inductive ExpandsTo (l : Lineage) (k : String) : Nat → Source.Expr → Prop
  | parent {n : Nat} {args : List Source.Expr} : ExpandsTo l k n (.call (.member .super k) args)
  | method {n : Nat} {name ty : String} {args : List Source.Expr} {owner : ClassDecl}
    {m : MethodDecl} {body : Source.Expr} (hm : l.method? name = some (owner, m))
    (hbody : returnedExpr? m = some (body, ty)) (h : ExpandsTo l k n body) :
    ExpandsTo l k (n + 1) (.call (.member .this name) args)

section

/-- What is put in place of names and calls is sound at every level. -/
theorem sound_expansion (n : Nat) : Expansion.Sound env (some (denoteWithin n)) := by
  rintro _ ⟨⟩ e
  exact sound_denoteWithin n e

/-- Whatever class a method belongs to, a parent call in its body reaches the nearest body above the
class at hand when the method is expanded. -/
theorem writes_expanded (howner : env.owner = .contract) (hmode : env.mode = .initializer)
    (h : ExpandsTo env.lineage k levels e) (ty : Ty) :
    WritesParentCall env k ((denoteWithin levels e).valueAs ty) := by
  induction h generalizing ty with
  | @parent n args =>
    cases n with
    | zero => exact writes_ofCall (writes_superCall (sound_denoteAll (fun _ h => by cases h) args))
    | succ n => exact writes_ofCall (writes_superCall (sound_denoteAll (sound_expansion n) args))
  | @method n name resultType args owner m body hm hbody _ ih =>
    have hcall : WritesParentCall env k
        (thisCall (some (denoteWithin n)) name (denoteAll (some (denoteWithin n)) args)) := by
      intro st vs st' hrun
      rw [expanded_thisCall hm howner hmode hbody] at hrun
      exact (writes_expandCall (sound_denoteAll (sound_expansion n) args) ih).before
        (fun _ => .pure trivial) st vs st' hrun
    exact writes_ofCall hcall

/-! ## The code of initial values and of methods -/

/-- The fields of one class are set by code in which parent calls are those of that class. -/
theorem linked_initializeFields {fields : List Source.FieldDecl}
    (h : (fields.forM initializeField : Lower Unit) env st = .ok ((), st')) :
    ∃ piece, st'.code = st.code ++ piece ∧ st.progress.Grows env.catalog st'.progress ∧
      Stmt.AllLinked (CalleeFrom env.toContext env.mode (· = env.className) st'.progress) piece := by
  have hlowers : Lowers env { st.stage with classes := fun _ => False }
      (fields.forM initializeField) Lowers.Any :=
    Lowers.forM fun _ _ _ _ => .initializeField
  obtain ⟨κ', hstep, -⟩ := hlowers st () st' ⟨st.describes_stage.naming, rfl⟩ h
  obtain ⟨piece, hcode, hlays⟩ := hstep.code
  have hprogress := hstep.after.progress
  refine ⟨piece, hcode, hprogress ▸ hstep.le.progress, hlays.uses.mono fun u hu => ?_⟩
  rw [hprogress]
  refine hu.linked.calleeFrom.widen fun c hc => hc.resolve_left fun hfalse => ?_
  rwa [hstep.le.classes] at hfalse

/-- The code that sets the fields of a line falls into a piece for each class. -/
theorem linked_pieces {classes : List ClassDecl} {st st' : State} (h : (classes.forM fun c =>
      withReader (fun env => { env with className := c.name }) (c.fields.forM initializeField) :
      Lower Unit) env st = .ok ((), st')) :
    ∃ pieces, st'.code = st.code ++ pieces.flatten ∧ st.progress.Grows env.catalog st'.progress ∧
      Forall₂ (fun c piece => Stmt.AllLinked
        (CalleeFrom env.toContext env.mode (· = c.name) st'.progress) piece) classes pieces := by
  induction classes generalizing st with
  | nil =>
    cases h
    exact ⟨[], by simp, .refl, .nil⟩
  | cons c classes ih =>
    obtain ⟨_, st₁, hfirst, hrest⟩ := exists_of_bind h
    obtain ⟨piece, hcode, hgrows, hlinked⟩ := linked_initializeFields hfirst
    obtain ⟨pieces, hcodes, hmore, hpieces⟩ := ih hrest
    refine ⟨piece :: pieces, ?_, hgrows.trans hmore, .cons ?_ hpieces⟩
    · rw [hcodes, hcode, append_assoc, flatten_cons]
    · exact hlinked.mono fun _ hc => hc.mono hmore

theorem linked_initializers {region : String} (h : initializers region context p = .ok (code, p')) :
    ∃ pieces, code = pieces.flatten ∧ Forall₂ (fun c piece => Stmt.AllLinked
      (CalleeFrom context .initializer (· = c.name) p') piece) context.lineage.classes pieces := by
  obtain ⟨⟨r, p₁⟩, hrun, h⟩ := bind_eq_ok.1 h
  cases h
  obtain ⟨st, hlower, hcode, rfl⟩ := inFunction_eq_ok hrun
  obtain ⟨pieces, hpieces, -, hlinked⟩ := linked_pieces hlower
  exact ⟨pieces, by simpa [hcode] using hpieces, hlinked⟩

/-- In the function of a method parent calls are those of the class that it is lowered for. -/
theorem linked_method {irName : String} (h : method owner m irName context p = .ok (f, p')) :
    Stmt.AllLinked (CalleeFrom context .runtime (· = owner.name) p') f.body := by
  rw [method] at h
  cases hbody : m.body with
  | none =>
    rw [hbody] at h
    cases h
  | some body =>
    rw [hbody] at h
    obtain ⟨⟨r, p₁⟩, hrun, h⟩ := bind_eq_ok.1 h
    cases h
    obtain ⟨st, hlower, hcode, rfl⟩ := inFunction_eq_ok hrun
    exact hcode ▸ (lowered_signatureAndBody hlower).1.linked

end

end Lowering

namespace Compilation

open Lineage Lowering Outcome

/-- The code that sets the fields of a class, with the bodies of methods in place of calls of them,
calls parent methods above that class only. An expression that is expanded to a parent call, at any
depth, is lowered to a call of the nearest body above the class of the field, whatever classes the
expanded methods belong to. The function of a method calls parent methods above its own class. From
two classes of the line `super` reaches the same body just when no class from the first on, and before
the second, has one. -/
theorem expanded_super_from_field_class {options : Options} {file : Source.File}
    {available : List Source.File} {className : String} {context : Lowering.Context}
    (hcontext : contextOf options file available className = .ok context) :
    (∀ region p code p', initializers region context p = .ok (code, p') →
      ∃ pieces, code = pieces.flatten ∧ List.Forall₂ (fun c piece => Yul.Stmt.AllLinked
        (CalleeFrom context .initializer (· = c.name) p') piece) context.lineage.classes pieces) ∧
    (∀ (env : Env) k levels e ty, env.toContext = context → env.owner = .contract →
      env.mode = .initializer → ExpandsTo context.lineage k levels e →
        WritesParentCall env k ((denoteWithin levels e).valueAs ty)) ∧
    (∀ owner m irName p f p', method owner m irName context p = .ok (f, p') →
      Yul.Stmt.AllLinked (CalleeFrom context .runtime (· = owner.name) p') f.body) ∧
    ∀ k front c between d back, context.lineage.classes = front ++ c :: between ++ d :: back →
      (∃ b ∈ front, hasBody b k) →
      (context.lineage.superTarget c.name k = context.lineage.superTarget d.name k ↔
        ∀ b ∈ c :: between, ¬ hasBody b k) := by
  refine ⟨?_, ?_, ?_, ?_⟩
  · intro region p code p' h
    exact linked_initializers h
  · rintro env k levels e ty rfl howner hmode h
    exact writes_expanded howner hmode h ty
  · intro owner m irName p f p' h
    exact linked_method h
  · intro k front c between d back hsplit hfront
    exact superTarget_eq_iff (topological_of_contextOf hcontext).nodup hsplit hfront

def returning (name : String) (e : Source.Expr) : MethodDecl :=
  { name, returns := ["u256"], visibility := .private, body := some [.ret (some e)] }

def footDecl : ClassDecl :=
  { name := "Base", methods := [returning "k" (.number "1")] }

/-- The class in the middle sets a field to the result of a method. -/
def middleDecl : ClassDecl :=
  { name := "Mid", heritage := some (.extends "Base")
    fields := [{ name := "x", ty := "u256", initializer := some (.call (.member .this "m") []) }]
    methods := [returning "k" (.number "2"), returning "m" (.number "0")] }

/-- The last class overrides that method with a call of `super`. -/
def topDecl : ClassDecl :=
  { name := "Top", heritage := some (.extends "Mid")
    methods := [returning "m" (.call (.member .super "k") [])] }

def stairs : Source.File where
  path := "stairs"
  classes := [footDecl, middleDecl, topDecl]

theorem expanded_super_from_field_class_stairs : ∃ context code p',
    contextOf { emitAbi := false } stairs [] "Top" = .ok context ∧
      initializers "region" context {} = .ok (code, p') ∧
      (∃ pieces, code = pieces.flatten ∧ List.Forall₂ (fun c piece => Yul.Stmt.AllLinked
        (CalleeFrom context .initializer (· = c.name) p') piece) context.lineage.classes pieces) ∧
      context.lineage.superTarget "Mid" "k" ≠ context.lineage.superTarget "Top" "k" := by
  have hclasses : (contextOf { emitAbi := false } stairs [] "Top").toOption.map (·.lineage.classes) =
      some stairs.classes := by
    with_unfolding_all rfl
  obtain ⟨context, hcontext, hclasses⟩ := exists_of_map_toOption hclasses
  have hlowers : (contextOf { emitAbi := false } stairs [] "Top").toOption.map
      (fun context => (initializers "region" context {}).toOption.isSome) = some true := by
    decide +kernel
  rw [hcontext] at hlowers
  obtain ⟨⟨code, p'⟩, hcode⟩ := Option.isSome_iff_exists.1 (Option.some.inj hlowers)
  have hcode := eq_ok_of_toOption hcode
  obtain ⟨hpieces, -, -, hagree⟩ := expanded_super_from_field_class hcontext
  refine ⟨context, code, p', hcontext, hcode, hpieces _ _ _ _ hcode, fun heq => ?_⟩
  -- the class in the middle has a body for the method itself
  have hnone := (hagree "k" [footDecl] middleDecl [] topDecl [] hclasses
    ⟨_, List.mem_cons_self, rfl⟩).1 heq
  exact hnone _ List.mem_cons_self rfl

/-- The body that stands in place of a call of a method does not call what the function of the method
calls. -/
theorem expanded_super_not_from_owner : ∃ context,
    contextOf { emitAbi := false } stairs [] "Top" = .ok context ∧
      ∃ owner m code p f p', context.lineage.method? "m" = some (owner, m) ∧
        initializers "region" context {} = .ok (code, p) ∧
        method owner m "fun_m" context {} = .ok (f, p') ∧
        context.lineage.superTarget owner.name "k" = .ok "fun_k" ∧
        (Yul.Stmt.allCalls f.body).map (·.name) = ["fun_k"] ∧
        (Yul.Stmt.allCalls code).map (·.name) = ["fun_Base_k", "sstore"] := by
  let calls (code : List Yul.Stmt) := (Yul.Stmt.allCalls code).map (·.name)
  let facts (context : Lowering.Context) : Option (Option (List String) × Option (List String) ×
      Option String) :=
    (context.lineage.method? "m").map fun q =>
      ((initializers "region" context {}).toOption.map (calls ·.1),
        (method q.1 q.2 "fun_m" context {}).toOption.map (calls ·.1.body),
        (context.lineage.superTarget q.1.name "k").toOption)
  have hfacts : (contextOf { emitAbi := false } stairs [] "Top").toOption.map facts =
      some (some (some ["fun_Base_k", "sstore"], some ["fun_k"], some "fun_k")) := by
    decide +kernel
  obtain ⟨context, hcontext, hfacts⟩ := exists_of_map_toOption hfacts
  obtain ⟨⟨owner, m⟩, hm, hfacts⟩ := Option.map_eq_some_iff.1 hfacts
  obtain ⟨hcode, hfacts⟩ := Prod.mk.inj hfacts
  obtain ⟨hbody, htarget⟩ := Prod.mk.inj hfacts
  obtain ⟨⟨code, p⟩, hcode, hcalls⟩ := exists_of_map_toOption hcode
  obtain ⟨⟨f, p'⟩, hbody, hcalled⟩ := exists_of_map_toOption hbody
  exact ⟨context, hcontext, owner, m, code, p, f, p', hm, hcode, hbody, eq_ok_of_toOption htarget,
    hcalled, hcalls⟩

end Compilation

end ContractYul
