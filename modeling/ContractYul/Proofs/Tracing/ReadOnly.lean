import ContractYul.Compilation
import ContractYul.Proofs.Lowering.Functions
import ContractYul.Proofs.Tracing.Routines

/-!
# Immutable fields at run time

What code that runs after deployment does to immutable fields. A change whose target is the field
itself is refused: an assignment, a compound assignment, an increment or a decrement, `delete`, `push`
and `pop`. The target of a change may also be a member, an element or an entry. Such a place is found
from a place that is to be read, so it does not matter then whether the field is immutable.

* `SparesImmutables`: code changes storage at located places, and of an immutable field it changes
  parts only. A field whose type is a value has no parts.
* `sparesImmutables_functionOf`: it holds of every function that runs after deployment.
* `refused_of_changes`, `place_eq_of_isPart`: changes of an immutable field itself are refused, and a
  part is found in the same way to be read and to be changed. So an element of an immutable array can
  be overwritten after deployment.
-/

namespace ContractYul.Lowering

open Yul Outcome
open Source (AssignOp UpdateOp)

/-! ## Fields that places are in -/

section

variable {field : String} {path : List PathStep} {place : Place}

/-- Where a field with the location `s` is: it is the place itself, or it has parts. -/
def Covers (s : Storage.Slot) (path : List PathStep) (place : Place) : Prop :=
  path = [] ∧ place.ty = s.ty ∨ path ≠ [] ∧ s.ty.isValue = false

theorem Covers.part {part : Place} (h : Covers s path place) (hplace : place.ty.isValue = false)
    (step : PathStep) : Covers s (path ++ [step]) part := by
  refine .inr ⟨by simp, ?_⟩
  rcases h with ⟨-, hty⟩ | ⟨-, hty⟩
  · exact hty ▸ hplace
  · exact hty

theorem Located.exists_field (h : Located context mode owner K write field path place) :
    owner = .contract ∧ ∃ s, context.layout.get? field = some s ∧ Covers s path place := by
  induction h with
  | field howner h _ => exact ⟨howner, _, h, .inl ⟨rfl, rfl⟩⟩
  | member _ _ _ ih | mapping _ _ ih | element _ _ _ ih | position _ _ _ _ ih | computed _ _ _ ih
  | pushed _ _ _ ih =>
    obtain ⟨howner, s, hs, hcovers⟩ := ih
    exact ⟨howner, s, hs, hcovers.part rfl _⟩

/-- At run time an immutable field itself is no place to be changed. -/
theorem Located.path_ne_nil (h : Located context .runtime owner K true field path place)
    (hs : context.layout.get? field = some s) (himmutable : s.immutable = true) : path ≠ [] := by
  cases h with
  | field _ h hwrite =>
    obtain rfl := Option.some.inj (hs.symm.trans h)
    exact absurd rfl (hwrite rfl himmutable)
  | member | mapping | element | position | computed | pushed => simp

end

/-- All that code changes in storage are located places, and of an immutable field it changes parts
only. -/
def SparesImmutables (context : Context) (owner : Owner) (code : List Yul.Stmt) : Prop :=
  ∀ i ∈ Stmt.allInvocations code, UsesStorage true i.name →
    ∃ field s path place, owner = .contract ∧ context.layout.get? field = some s ∧
      Located context .runtime owner (Stmt.allBindings code) true field path place ∧
      Touches true place i ∧ (s.immutable = true → path ≠ [] ∧ s.ty.isValue = false)

variable {env : Env} {e : CompileError}

theorem Lowered.sparesImmutables (h : Lowered env within p st) (hmode : env.mode = .runtime) :
    SparesImmutables env.toContext env.owner st.code := by
  intro i hi huse
  obtain ⟨field, path, place, hplace, htouches⟩ := h.licensed i hi true huse
  rw [hmode] at hplace
  obtain ⟨howner, s, hs, hcovers⟩ := hplace.exists_field
  refine ⟨field, s, path, place, howner, hs, hplace, htouches, fun himmutable => ?_⟩
  have hpath := hplace.path_ne_nil hs himmutable
  rcases hcovers with ⟨hnil, -⟩ | hcovers
  · exact absurd hnil hpath
  · exact hcovers

/-! ## Refused changes -/

def Refuses {α : Type} (env : Env) (e : CompileError) (m : Lower α) : Prop :=
  ∀ st, m env st = .error e

theorem Refuses.bind {m : Lower α} (h : Refuses env e m) (f : α → Lower β) :
    Refuses env e (m >>= f) := by
  intro st
  show (m env st >>= fun q => f q.1 env q.2) = _
  rw [h st]
  rfl

/-- The uses of an operand for its values or its effects fail with an error in every state. -/
structure Operand.Refused (env : Env) (e : CompileError) (o : Operand) : Prop where
  value : Refuses env e o.value
  valueAs : ∀ ty, Refuses env e (o.valueAs ty)
  values : Refuses env e o.values
  discard : Refuses env e o.discard

theorem Operand.Refused.plain {source : Source.Expr} {value : Lower Value}
    (h : Refuses env e value) : (Operand.plain source value).Refused env e where
  value := h
  valueAs _ := h.bind _
  values := h.bind _
  discard := h.bind _

theorem Operand.Refused.withDiscard {o : Operand} {discard : Lower Unit} (ho : o.Refused env e)
    (h : Refuses env e discard) :
    ({ o with discard := discard } : Operand).Refused env e :=
  ⟨ho.value, ho.valueAs, ho.values, h⟩

theorem Operand.Refused.ofCall {source : Source.Expr} {results : Lower (List Value)}
    (h : Refuses env e results) :
    (Operand.ofCall source results).Refused env e where
  value := h.bind _
  valueAs _ := (h.bind _).bind _
  values := h
  discard := h.bind _

inductive Changes (target : Source.Expr) (ty : Ty) : Source.Expr → Prop
  | assign (op : AssignOp) (value : Source.Expr) : Changes target ty (.assign op target value)
  | update (op : UpdateOp) (inFront : Bool) : Changes target ty (.update op inFront target)
  | delete : Changes target ty (.unary .delete target)
  | push {elem : Ty} (hty : ty = .array elem none) (args : List Source.Expr) :
    Changes target ty (.call (.member target "push") args)
  | pop {elem : Ty} (hty : ty = .array elem none) (args : List Source.Expr) :
    Changes target ty (.call (.member target "pop") args)

section

variable {env : Env} {field : String} {s : Storage.Slot} {expand : Expansion} {e : Source.Expr}
  {error : CompileError}

theorem refuses_fieldPlace (hmode : env.mode = .runtime) (howner : env.owner = .contract)
    (hs : env.layout.get? field = some s) (himmutable : s.immutable = true) :
    Refuses env (.readOnlyAssignment .immutable field) (fieldPlace field true) := by
  intro st
  show (if env.owner != .contract then _ else _ : Lower Place) env st = _
  rw [howner, hs, hmode]
  show (if (true && s.immutable && _) = true then _ else _ : Lower Place) env st = _
  rw [himmutable]
  rfl

theorem refuses_place (hmode : env.mode = .runtime) (howner : env.owner = .contract)
    (hs : env.layout.get? field = some s) (himmutable : s.immutable = true) :
    Refuses env (.readOnlyAssignment .immutable field)
      ((denote expand (.member .this field)).place true) := by
  rw [place_denote_member]
  unfold memberOperandPlace
  exact refuses_fieldPlace hmode howner hs himmutable

theorem isGrowable_field {elem : Ty} (howner : env.owner = .contract)
    (hs : env.layout.get? field = some s) (hty : s.ty = .array elem none) (st : State) :
    isGrowable (.member .this field) env st = .ok (true, st) := by
  have htype : placeType (.member .this field) env st = .ok (some (.array elem none), st) := by
    have hfield : placeType? env st.scopes (.member .this field) = some (.array elem none) := by
      simp [placeType?, howner, hs, hty]
    rw [← hfield]
    rfl
  unfold isGrowable
  rw [bind_of_run htype]
  rfl

theorem refuses_arrayCall {method : String} {args : List Operand}
    (hmethod : (method == "push" || method == "pop") = true)
    (hgrowable : ∀ st, isGrowable (.member .this field) env st = .ok (true, st))
    (hplace : Refuses env error ((denote expand (.member .this field)).place true)) :
    Refuses env error (memberCall expand (denote expand (.member .this field)) method args) := by
  intro st
  unfold memberCall
  show objectCall _ method args env st = _
  unfold objectCall
  rw [source_denote, hmethod, bind_of_run (hgrowable st)]
  exact (hplace.bind _).bind _ st

/-- A change of a field itself asks for the place of the field to be changed before all else. -/
theorem refused_of_changes (howner : env.owner = .contract)
    (hs : env.layout.get? field = some s) (he : Changes (.member .this field) s.ty e)
    (hplace : Refuses env error ((denote expand (.member .this field)).place true)) :
    (denote expand e).Refused env error := by
  cases he with
  | assign op value =>
    exact .withDiscard (.plain (hplace.bind _)) (hplace.bind _)
  | update op inFront =>
    exact .withDiscard (.plain (hplace.bind _)) (hplace.bind _)
  | delete =>
    exact .plain (hplace.bind _)
  | push hty args =>
    exact .ofCall (refuses_arrayCall rfl (isGrowable_field howner hs hty) hplace)
  | pop hty args =>
    exact .ofCall (refuses_arrayCall rfl (isGrowable_field howner hs hty) hplace)

end

/-! ## Parts -/

/-- A member of another expression than the contract itself, or an element or an entry. -/
inductive IsPart : Source.Expr → Prop
  | member {object : Source.Expr} (property : String) (h : object ≠ .this) :
    IsPart (.member object property)
  | index (object position : Source.Expr) : IsPart (.index object position)

/-- A part is found in the same way to be read and to be changed. -/
theorem place_eq_of_isPart {e : Source.Expr} (h : IsPart e) :
    (denote expand e).place true = (denote expand e).place false := by
  cases h with
  | member property hobject =>
    rw [place_denote_member]
    unfold memberOperandPlace
    rw [source_denote]
    split
    · exact absurd rfl hobject
    · rfl
  | index object position =>
    rfl

/-! ## Functions -/

theorem sparesImmutables_functionOf
    (h : functionOf className function .runtime owner params returns body context p = .ok (f, p')) :
    SparesImmutables context owner f.body := by
  obtain ⟨⟨r, p₁⟩, hrun, h⟩ := bind_eq_ok.1 h
  cases h
  obtain ⟨st, hlower, hcode, -⟩ := inFunction_eq_ok hrun
  rw [hcode]
  exact (lowered_signatureAndBody hlower).1.sparesImmutables rfl

/-- A function that runs after deployment changes of an immutable field parts only. All changes of the
field itself are refused in every state. A part is found in the same way to be read and to be
changed. The routines that count as changing storage are those whose text does. -/
theorem immutable_changed_in_parts_only {context : Context} {className function : String}
    {owner : Owner} {params : List Source.Param} {returns : List String} {body : List Source.Stmt}
    {p p' : Progress} {f : Yul.Function}
    (h : functionOf className function .runtime owner params returns body context p = .ok (f, p')) :
    SparesImmutables context owner f.body ∧
      (∀ (env : Env) (field : String) (s : Storage.Slot), env.toContext = context →
        env.mode = .runtime → env.owner = .contract → context.layout.get? field = some s →
        s.immutable = true →
        (∀ e, Changes (.member .this field) s.ty e →
          (operand e).Refused env (.readOnlyAssignment .immutable field)) ∧
        ∀ v, Refuses env (.readOnlyAssignment .immutable field)
          (assignTarget (operand (.member .this field)) v)) ∧
      (∀ e, IsPart e → (operand e).place true = (operand e).place false) ∧
      ∀ (target : Target) (r : Routine) (g : Yul.Function), r.definition? target = some g →
        (UsesStorage true r.name ↔ ∃ i ∈ Stmt.allInvocations g.body, UsesStorage true i.name) := by
  obtain ⟨expand, hoperand⟩ : ∃ expand, operand = denote expand := ⟨_, rfl⟩
  rw [hoperand]
  refine ⟨sparesImmutables_functionOf h, ?_, fun e he => place_eq_of_isPart he,
    fun target r g hg => Routine.usesStorage_iff_definition hg⟩
  rintro env field s rfl hmode howner hs himmutable
  have hplace : Refuses env _ ((denote expand (.member .this field)).place true) :=
    refuses_place hmode howner hs himmutable
  refine ⟨fun e he => refused_of_changes howner hs he hplace, fun v => ?_⟩
  unfold assignTarget
  rw [source_denote]
  exact hplace.bind _

def raiseBody : List Source.Stmt :=
  [.expr (.assign .assign (.index (.member .this "limits") (.number "1")) (.ident "limit"))]

/-- A meter with two limits that are immutable, and a method that sets one of them. -/
def meter : Source.File where
  path := "meter"
  classes := [{ name := "Meter"
                fields := [{ name := "limits", ty := "u256[2]", storage := .immutable }]
                methods := [{ name := "raise", params := [⟨"limit", "u256"⟩],
                              body := some raiseBody }] }]

/-- The slot and the variable of a statement that stores a variable in a slot that is written out. -/
def storedAt? : Yul.Stmt → Option (String × String)
  | .eval (.call "sstore" [.literal (.number slot), .ident x]) => some (slot, x)
  | _ => none

theorem eq_of_storedAt? (h : storedAt? stmt = some (slot, x)) :
    stmt = .run "sstore" [.literal (.number slot), ident x] := by
  unfold storedAt? at h
  split at h
  · obtain ⟨rfl, rfl⟩ := Prod.mk.inj (Option.some.inj h)
    rfl
  · cases h

/-- Where the limits of a meter are, and the code that sets the second one. -/
def raised : Outcome (Option Storage.Slot × Yul.Function) := do
  let context ← Compilation.contextOf {} meter [] "Meter"
  let (f, _) ← functionOf "Meter" "fun_raise" .runtime .contract [⟨"limit", "u256"⟩] [] raiseBody
    context {}
  return (context.layout.get? "limits", f)

/-- Immutable fields have slots far from those of the others. The limits take two. -/
theorem raised_meter :
    raised.toOption.map (fun q => (q.1.map fun s => (s.immutable, s.slot), q.2.body.map storedAt?)) =
      some (some (true, 2 ^ 64), [some ("18446744073709551617", "var_limit")]) := by
  decide +kernel

theorem exists_raised : ∃ context s f p, Compilation.contextOf {} meter [] "Meter" = .ok context ∧
    context.layout.get? "limits" = some s ∧ s.immutable = true ∧
    functionOf "Meter" "fun_raise" .runtime .contract [⟨"limit", "u256"⟩] [] raiseBody context {} =
      .ok (f, p) ∧ f.body = [.run "sstore" [num (s.slot + 1), ident "var_limit"]] := by
  obtain ⟨q, hraised, hfacts⟩ := exists_of_map_toOption raised_meter
  obtain ⟨context, hcontext, hraised⟩ := bind_eq_ok.1 hraised
  obtain ⟨⟨f, p⟩, hf, hraised⟩ := bind_eq_ok.1 hraised
  cases hraised
  obtain ⟨hlocation, hbody⟩ := Prod.mk.inj hfacts
  obtain ⟨s, hs, hslot⟩ := Option.map_eq_some_iff.1 hlocation
  obtain ⟨himmutable, hslot⟩ := Prod.mk.inj hslot
  obtain ⟨stmt, hsingle, hstmt⟩ := List.map_eq_singleton_iff.1 hbody
  refine ⟨context, s, f, p, hcontext, hs, himmutable, hf, ?_⟩
  have hsecond : toString (2 ^ 64 + 1) = "18446744073709551617" := by decide +kernel
  rw [hsingle, eq_of_storedAt? hstmt, hslot, num, hsecond]

theorem immutable_changed_in_parts_only_meter : ∃ context f p,
    Compilation.contextOf {} meter [] "Meter" = .ok context ∧
    functionOf "Meter" "fun_raise" .runtime .contract [⟨"limit", "u256"⟩] [] raiseBody context {} =
      .ok (f, p) ∧ SparesImmutables context .contract f.body := by
  obtain ⟨context, s, f, p, hcontext, -, -, hf, -⟩ := exists_raised
  exact ⟨context, f, p, hcontext, hf, (immutable_changed_in_parts_only hf).1⟩

/-- After deployment the second of two immutable limits is overwritten. -/
theorem immutable_element_overwritten : ∃ context s f p,
    Compilation.contextOf {} meter [] "Meter" = .ok context ∧
    context.layout.get? "limits" = some s ∧ s.immutable = true ∧
    functionOf "Meter" "fun_raise" .runtime .contract [⟨"limit", "u256"⟩] [] raiseBody context {} =
      .ok (f, p) ∧
    ⟨"sstore", [num (s.slot + 1), ident "var_limit"]⟩ ∈ Stmt.allInvocations f.body := by
  obtain ⟨context, s, f, p, hcontext, hs, himmutable, hf, hbody⟩ := exists_raised
  refine ⟨context, s, f, p, hcontext, hs, himmutable, hf, ?_⟩
  rw [hbody]
  simp [Stmt.run]

end ContractYul.Lowering
