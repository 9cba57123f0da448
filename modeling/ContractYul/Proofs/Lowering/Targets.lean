import ContractYul.Proofs.Lowering.Emission
import ContractYul.Proofs.Lowering.Order

/-!
# Targets

The place that an expression names is found once. Each part of the target that has a value of its own
is lowered once, and each hash, check and load on the way to the place is written once. What is left
to mention, however often, is an address made of numbers, variables and sums.

The type of a place is known before it is lowered, and code for storage or for memory is chosen by it.

Main statements:
* `target_evaluated_once`: what is called for a target is what its parts and the steps between them
  call;
* `place_has_named_type`: a place has the type that its name promised.
-/

open List

namespace ContractYul.Lowering

open Yul Outcome Stmt

/-! ## Addresses -/

inductive IsAddress : Yul.Expr → Prop
  | number (text : String) : IsAddress (numText text)
  | ident (x : String) : IsAddress (ident x)
  | sum {a b : Yul.Expr} (ha : IsAddress a) (hb : IsAddress b) : IsAddress (Op.add a b)

/-- Evaluating an address changes nothing and ends nothing. -/
theorem IsAddress.ends_eval (h : IsAddress a) (m : Machine) (σ : Config) :
    (m.eval a σ).Ends fun r => r.2 = σ := by
  induction h with
  | number text =>
    rw [numText, Machine.eval, Context.literal]
    split <;> trivial
  | ident x =>
    rw [Yul.ident, Machine.eval]
    split <;> trivial
  | @sum a b _ _ iha ihb =>
    have hargs : (m.evalArgs [a, b] σ).Ends fun r => r.2 = σ := by
      refine Run.Ends.bind (R := fun r => r.2 = σ) ?_ ?_
      · refine ihb.bind ?_
        rintro ⟨rs, _⟩ rfl
        exact (ends_single rs).bind fun _ _ => rfl
      · rintro ⟨vs, _⟩ rfl
        refine iha.bind ?_
        rintro ⟨rs, _⟩ rfl
        exact (ends_single rs).bind fun _ _ => rfl
    rw [Op.add, call, Machine.eval]
    refine hargs.bind ?_
    rintro ⟨vs, _⟩ rfl
    refine (Action.quiet_ofReading _ vs _ : (m.apply "add" vs _).Ends _).bind ?_
    rintro ⟨rs, w⟩ rfl
    rfl

theorem isAddress_offsetSlot (h : IsAddress slot) (offset : Nat) :
    IsAddress (offsetSlot slot offset) := by
  unfold offsetSlot
  split
  · exact h
  · split
    · exact .number _
    · exact h.sum (.number _)

theorem isAddress_wordAt (h : IsAddress pointer) (index : Nat) : IsAddress (wordAt pointer index) := by
  unfold wordAt
  split
  · exact h
  · exact h.sum (.number _)

/-- The slot or the address that a place is at. -/
def Place.location? : Place → Option Yul.Expr
  | .var _ _ => none
  | .storage slot _ _ _ _ => some slot
  | .memory address _ | .memoryByte address => some address

def Place.Addressed (p : Place) : Prop :=
  ∀ a ∈ p.location?, IsAddress a

/-! ## Evaluations of a target -/

/-- The pointer that a place in memory holds to its members or elements. -/
inductive HoldsPointer : Place → Yul.Expr → Prop
  | var : HoldsPointer (.var x ty) (ident x)
  | memory : HoldsPointer (.memory address ty) (Op.mload address)

/-- What is called on the way from a place to one of its members. -/
inductive MemberCalls : Place → List Invocation → Prop
  | storage : MemberCalls (.storage slot offset size ty transient) []
  | memory (h : HoldsPointer base pointer) : MemberCalls base pointer.invocations

/-- What holds a value that is bound: a name where it is a call, and else the value itself. -/
inductive Held (value : Yul.Expr) : Yul.Expr → Prop
  | named (x : String) (h : value.isCall = true) : Held value (ident x)
  | plain (h : value.isCall = false) : Held value value

theorem Held.isAddress (h : Held value held) (hcall : value.isCall = true) : IsAddress held := by
  cases h with
  | named x => exact .ident x
  | plain h => cases hcall.symm.trans h

/-- What is called on the way from a place to its element or entry at an index, beside what the index
itself calls: one hash, one checked address, or one check and the sum behind it. -/
inductive ElementCalls (env : Env) (index : Yul.Expr) : Place → List Invocation → Prop
  | entry : ElementCalls env index (.storage slot offset size (.mapping key value) transient)
      (⟨(if key.isBytesLike then FixedRoutine.mappingSlotBytes else .mappingSlot).name,
        [index, slot]⟩ :: slot.invocations)
  | element {elem : Ty} {span : Nat} (hspan : env.catalog.slotsOf elem = .ok span) :
      ElementCalls env index (.storage slot offset size (.array elem none) transient)
        (⟨FixedRoutine.storageArrayIndex.name, [slot, index, num span]⟩ :: slot.invocations)
  | known {elem : Ty} (hindex : index.literalValue? = some i) :
      ElementCalls env index (.storage slot offset size (.array elem (some n)) transient) []
  | checked {elem : Ty} {span : Nat} (hspan : env.catalog.slotsOf elem = .ok span)
      (hheld : Held index held) :
      ElementCalls env index (.storage slot offset size (.array elem (some n)) transient)
        ((FixedRoutine.checkBounds held (num n)).invocations ++
          (Op.add slot (scaled held span)).invocations)
  | inArray {elem : Ty} (hty : base.ty = .array elem limit) (h : HoldsPointer base pointer) :
      ElementCalls env index base
        (⟨FixedRoutine.memoryArrayIndex.name, [pointer, index]⟩ :: pointer.invocations)
  | inBytes (hty : base.ty = .bytes ∨ base.ty = .string) (h : HoldsPointer base pointer) :
      ElementCalls env index base
        (⟨FixedRoutine.memoryByteIndex.name, [pointer, index]⟩ :: pointer.invocations)

/-- A target leads to a place, and evaluating each of its parts once makes the given calls. A part with
a value of its own is an index, or what a member or an element is taken of when that is no place. -/
inductive Evaluated (env : Env) (operand : Source.Expr → Operand) :
    Source.Expr → State → Place → State → List Invocation → Prop
  | local (h : lookup? st.scopes x = some v) :
      Evaluated env operand (.ident x) st (.var v.irName v.ty) st []
  | field (h : fieldPlace name write env st = .ok (p, st)) :
      Evaluated env operand (.member .this name) st p st []
  | value (hname : placeType? env st.scopes e = none)
      (h : (operand e).value env st = .ok (v, st₁)) (hcode : st₁.code = st.code ++ code)
      (hplace : valuePlace v env st₁ = .ok (p, st')) :
      Evaluated env operand e st p st' (allInvocations code ++ v.expr.invocations)
  | member {calls : List Invocation} (h : Evaluated env operand object st base st₁ calls)
      (hplace : memberPlace base property env st₁ = .ok (p, st')) (hown : MemberCalls base own) :
      Evaluated env operand (.member object property) st p st' (calls ++ own)
  | index {calls : List Invocation} (h : Evaluated env operand object st base st₁ calls)
      (hvalue : (operand position).value env st₁ = .ok (v, st₂)) (hcode : st₂.code = st₁.code ++ code)
      (hplace : indexPlace base v (label object) env st₂ = .ok (p, st'))
      (hown : ElementCalls env v.expr base own) :
      Evaluated env operand (.index object position) st p st'
        (calls ++ (allInvocations code ++ v.expr.invocations ++ own))

/-! ## Steps -/

theorem allInvocations_append (code more : List Yul.Stmt) :
    allInvocations (code ++ more) = allInvocations code ++ allInvocations more := by
  induction code with
  | nil => rfl
  | cons s code ih => simp [ih]

/-- Code leads from a place to its element at an index: it makes the calls of the index and of the step
once. -/
structure LeadsTo (env : Env) (base : Place) (index : Yul.Expr) (code : List Yul.Stmt) (p : Place) :
    Prop where
  addressed : p.Addressed
  ty_eq : ∀ t, entryType? base.ty = some t → p.ty = t
  calls : ∃ own, ElementCalls env index base own ∧
    (allInvocations code).Perm (index.invocations ++ own)

theorem addressed_some {p : Place} (h : p.location? = some a) (ha : IsAddress a) : p.Addressed :=
  fun _ hb => Option.some.inj (h.symm.trans hb) ▸ ha

namespace Appends

variable {env : Env} {v index : Value} {base : Place} {slot : Yul.Expr} {elem : Ty} {span : Nat}

/-- Binding a value makes the calls of the value once. -/
theorem captured : Appends env (Lowering.capture v) fun code w =>
    allInvocations code = v.expr.invocations ∧ Held v.expr w.expr := by
  unfold Lowering.capture
  split
  · refine captureFresh.weaken fun code w h => ?_
    obtain ⟨x, rfl, rfl⟩ := h
    exact ⟨by simp [letOne], .named x ‹_›⟩
  · rename_i hcall
    refine pure ⟨?_, .plain (by simpa using hcall)⟩
    obtain ⟨e, ty⟩ := v
    cases e with
    | call name args => exact absurd rfl hcall
    | _ => rfl

/-- A step that is one call of a routine. -/
theorem routineElement {f : Yul.Expr → Place}
    (hcalls : ElementCalls env index.expr base (⟨r.name, args⟩ :: rest))
    (hargs : (Expr.allInvocations args).Perm (index.expr.invocations ++ rest))
    (haddressed : ∀ a, (f a).location? = some a)
    (hty : ∀ a t, entryType? base.ty = some t → (f a).ty = t) :
    Appends env (do
      let w ← Lowering.capture ⟨← Lowering.routine r args, .uint 256⟩
      return f w.expr) (LeadsTo env base index.expr) := by
  refine routine.bind fun _ e he => ?_
  obtain ⟨rfl, rfl⟩ := he
  refine captured.bind fun code w hw => pure ⟨?_, hty _, _, hcalls, ?_⟩
  · exact addressed_some (haddressed _) (hw.2.isAddress rfl)
  · have hcode : allInvocations code = ⟨r.name, args⟩ :: Expr.allInvocations args := hw.1
    rw [nil_append, append_nil, hcode]
    exact (hargs.cons _).trans perm_middle.symm

theorem slotsOf : Appends env (Lowering.slotsOf ty) fun code span =>
    code = [] ∧ env.catalog.slotsOf ty = .ok span :=
  read_bind lift

theorem use : Silent env (Lowering.use r) := by
  intro st a st' hrun
  cases hrun
  exact ⟨[], (append_nil _).symm, rfl⟩

theorem fixedElementSlot (hslot : IsAddress slot) (hspan : env.catalog.slotsOf elem = .ok span)
    (offset size length : Nat) (transient : Bool) (name : String) :
    Appends env (Lowering.fixedElementSlot slot span length index name) fun code a =>
      IsAddress a ∧ ∃ own, ElementCalls env index.expr
        (.storage slot offset size (.array elem (some length)) transient) own ∧
        (allInvocations code).Perm (index.expr.invocations ++ own) := by
  unfold Lowering.fixedElementSlot
  split
  · rename_i i hi
    refine Silent.seq (lift.weaken fun _ _ h => h.1) fun _ => pure ⟨isAddress_offsetSlot hslot _, ?_⟩
    refine ⟨[], .known hi, ?_⟩
    obtain ⟨e, ty⟩ := index
    cases e with
    | literal l => exact .nil
    | _ => cases hi
  · refine captured.bind fun code held hheld => ?_
    refine use.seq fun _ => emit.bind fun _ _ hcheck => captured.bind fun more sum hsum => pure ?_
    refine ⟨hsum.2.isAddress rfl, _, .checked hspan hheld.2, ?_⟩
    subst hcheck
    rw [allInvocations_append, allInvocations_append, append_nil, hheld.1, hsum.1]
    simp

theorem storageEntry (hslot : IsAddress slot) (offset size : Nat) :
    Appends env (Lowering.storageEntry slot ty transient index name)
      (LeadsTo env (.storage slot offset size ty transient) index.expr) := by
  unfold Lowering.storageEntry
  split
  · rename_i key value
    refine routineElement (f := fun a => wholeSlot a value transient)
      .entry (by simp) (fun _ => rfl) fun _ _ h => ?_
    exact Option.some.inj h
  · rename_i elem
    refine slotsOf.bind fun _ span h => ?_
    obtain ⟨rfl, hspan⟩ := h
    refine routineElement (f := fun a => wholeSlot a elem transient)
      (.element hspan) ?_ (fun _ => rfl) fun _ _ h => ?_
    · simpa [num, numText] using perm_append_comm
    · exact Option.some.inj h
  · rename_i elem length
    refine slotsOf.bind fun _ span h => ?_
    obtain ⟨rfl, hspan⟩ := h
    refine (fixedElementSlot hslot hspan offset size length transient name).bind fun code a h => ?_
    exact pure ⟨addressed_some rfl h.1, fun _ h => Option.some.inj h, by simpa using h.2⟩
  · exact throw

theorem memoryElement (hbase : HoldsPointer base pointer) :
    Appends env (Lowering.memoryElement pointer base.ty index name) (LeadsTo env base index.expr) := by
  have hargs : (Expr.allInvocations [pointer, index.expr]).Perm
      (index.expr.invocations ++ pointer.invocations) := by
    simpa using perm_append_comm
  unfold Lowering.memoryElement
  split
  · rename_i elem length hty
    have haddress : Appends env (do
        let w ← Lowering.capture ⟨← Lowering.routine .memoryArrayIndex [pointer, index.expr], .uint 256⟩
        return Place.memory w.expr elem) (LeadsTo env base index.expr) :=
      routineElement (f := fun a => .memory a elem) (.inArray hty hbase) hargs (fun _ => rfl)
        fun _ _ h => by
          rw [hty] at h
          exact Option.some.inj h
    split
    · exact Silent.seq (lift.weaken fun _ _ h => h.1) fun _ => haddress
    · exact haddress
  · rename_i hty
    refine routineElement (f := .memoryByte) (.inBytes (.inl hty) hbase) hargs (fun _ => rfl) ?_
    intro _ _ h
    rw [hty] at h
    exact Option.some.inj h
  · rename_i hty
    refine routineElement (f := .memoryByte) (.inBytes (.inr hty) hbase) hargs (fun _ => rfl) ?_
    intro _ _ h
    rw [hty] at h
    cases h
  · exact throw

theorem indexPlace (hbase : base.Addressed) :
    Appends env (Lowering.indexPlace base index name) (LeadsTo env base index.expr) := by
  cases base with
  | storage slot offset size ty transient => exact storageEntry (hbase slot rfl) offset size
  | var x ty => exact memoryElement .var
  | memory address ty => exact memoryElement .memory
  | memoryByte address => exact throw

theorem structLayout : Appends env (Lowering.structLayout name) fun code layout =>
    code = [] ∧ env.catalog.layouts.get? name = some layout := by
  refine read_bind ?_
  split
  · exact pure ⟨rfl, ‹_›⟩
  · exact throw

/-- A member in memory: the pointer is loaded once. -/
theorem memoryMember (h : HoldsPointer base pointer) (i : Nat) (ty : Ty) :
    Appends env (do
      let w ← Lowering.capture (← load base)
      return Place.memory (wordAt w.expr i) ty) fun code p =>
        p.Addressed ∧ p.ty = ty ∧ MemberCalls base (allInvocations code) := by
  cases h with
  | var => exact pure ⟨addressed_some rfl (isAddress_wordAt (.ident _) i), rfl, .memory .var⟩
  | @memory address t =>
    have hload : load (.memory address t) = Pure.pure ⟨Op.mload address, t⟩ := rfl
    rw [hload, pure_bind]
    refine captured.bind fun code w hw => pure ⟨?_, rfl, ?_⟩
    · exact addressed_some rfl (isAddress_wordAt (hw.2.isAddress rfl) i)
    · rw [append_nil, hw.1]
      exact .memory .memory

theorem memberPlace (hbase : base.Addressed) :
    Appends env (Lowering.memberPlace base member) fun code p => p.Addressed ∧
      (∀ t, memberType? env member base.ty = some t → p.ty = t) ∧
      MemberCalls base (allInvocations code) := by
  unfold Lowering.memberPlace
  split
  · rename_i name hty
    refine structLayout.bind fun _ layout h => ?_
    obtain ⟨rfl, hlayout⟩ := h
    split
    · rename_i index field _ hfield
      have htype : memberType? env member base.ty = some field.ty := by
        simp [hty, memberType?, hlayout, hfield]
      simp only [htype, Option.some.injEq, forall_eq']
      cases base with
      | storage slot offset size ty transient =>
        exact pure ⟨addressed_some rfl (isAddress_offsetSlot (hbase slot rfl) _), rfl, .storage⟩
      | var x ty => exact memoryMember .var index field.ty
      | memory address ty => exact memoryMember .memory index field.ty
      | memoryByte address => cases hty
    · exact throw
  · exact throw

end Appends

/-! ## Targets -/

section

variable {expand : Expansion} {env : Env} {st st' : State} {p : Place} {v : Value}

/-- A target is lowered to a place: the place is at an address, it has the type that is known of the
target before, and the code for it evaluates each part once. -/
structure Found (env : Env) (operand : Source.Expr → Operand) (e : Source.Expr) (st : State) (p : Place)
    (st' : State) : Prop where
  addressed : p.Addressed
  ty_eq : ∀ t, placeType? env st.scopes e = some t → p.ty = t
  calls : ∃ code calls, st'.code = st.code ++ code ∧ Evaluated env operand e st p st' calls ∧
    (allInvocations code).Perm calls

theorem Appends.valuePlace : Appends env (Lowering.valuePlace v) fun code p =>
    p.Addressed ∧ allInvocations code = v.expr.invocations := by
  unfold Lowering.valuePlace
  split
  · rename_i x hx
    exact pure ⟨by simp [Place.Addressed, Place.location?], by simp [hx]⟩
  · refine bindFresh.bind fun code x hcode => pure ⟨by simp [Place.Addressed, Place.location?], ?_⟩
    simp [hcode, letOne]

theorem of_identPlace (h : identPlace x write env st = .ok (p, st')) :
    ∃ v, lookup? st.scopes x = some v ∧ st = st' ∧ p = .var v.irName v.ty := by
  have hvar : varOf? x env st = .ok (lookup? st.scopes x, st) := rfl
  rw [identPlace, bind_of_run hvar] at h
  cases hv : lookup? st.scopes x with
  | some v =>
    rw [hv] at h
    cases h
    exact ⟨v, rfl, rfl, rfl⟩
  | none =>
    rw [hv] at h
    change (if write && (constant? env x).isSome then _ else _ : Lower Place) env st = .ok (p, st') at h
    split at h <;> cases h

variable (hsound : ∀ e, (denote expand e).Sound env)

include hsound

theorem found_value (hname : placeType? env st.scopes e = none)
    (hvalue : (denote expand e).value env st = .ok (v, st₁))
    (hplace : Lowering.valuePlace v env st₁ = .ok (p, st')) :
    Found env (denote expand) e st p st' := by
  obtain ⟨code, hcode, -⟩ := Appends.of_moves (fun st => (hsound e).value) st v st₁ hvalue
  obtain ⟨more, hmore, haddressed, hcalls⟩ := Appends.valuePlace st₁ p st' hplace
  refine ⟨haddressed, fun t ht => ?_, code ++ more, _, ?_, .value hname hvalue hcode hplace, ?_⟩
  · cases hname.symm.trans ht
  · rw [hmore, hcode, append_assoc]
  · rw [allInvocations_append, hcalls]

theorem found_base {object : Source.Expr}
    (hobject : ∀ p st', (denote expand object).place false env st = .ok (p, st') →
      Found env (denote expand) object st p st')
    (h : (denote expand object).base env st = .ok (p, st')) :
    Found env (denote expand) object st p st' := by
  obtain hplace | ⟨hname, v, st₁, hvalue, hplace⟩ := base_cases h
  · exact hobject p st' hplace
  · exact found_value hsound hname hvalue hplace

/-- An expression that is no name of a place is the place of its value. -/
theorem found_other (hname : placeType? env st.scopes e = none)
    (hplain : (denote expand e).place = (Operand.plain e (denote expand e).value).place)
    (h : (denote expand e).place write env st = .ok (p, st')) :
    Found env (denote expand) e st p st' := by
  rw [hplain] at h
  cases write with
  | true => cases h
  | false =>
    obtain ⟨⟨v, st₁⟩, hvalue, hplace⟩ := bind_eq_ok.1 h
    exact found_value hsound hname hvalue hplace

theorem found_place (e : Source.Expr) {write : Bool} {st : State} {p : Place} {st' : State}
    (h : (denote expand e).place write env st = .ok (p, st')) :
    Found env (denote expand) e st p st' := by
  cases e with
  | ident x =>
    unfold denote at h
    obtain ⟨v, hv, rfl, rfl⟩ := of_identPlace h
    refine ⟨by simp [Place.Addressed, Place.location?], fun t ht => ?_, [], [], by simp, .local hv, .nil⟩
    simpa [placeType?, hv, Place.ty] using ht
  | member object property =>
    rw [place_denote_member] at h
    unfold memberOperandPlace at h
    rw [source_denote] at h
    split at h
    · obtain ⟨s, hs, rfl, rfl⟩ := of_fieldPlace h
      refine ⟨addressed_some rfl (.number _), fun t ht => ?_, [], [], by simp, .field h, .nil⟩
      simp only [placeType?, hs, Option.map_some, Option.ite_none_right_eq_some] at ht
      exact Option.some.inj ht.2
    · rename_i hthis
      obtain ⟨⟨base, st₁⟩, hbase, hplace⟩ := bind_eq_ok.1 h
      obtain ⟨haddressed, hty, code, calls, hcode, hevaluated, hcalls⟩ :=
        found_base hsound (fun _ _ => found_place object) hbase
      obtain ⟨more, hmore, hmember, htype, hown⟩ :=
        Appends.memberPlace haddressed st₁ p st' hplace
      refine ⟨hmember, fun t ht => ?_, code ++ more, _, ?_, .member hevaluated hplace hown, ?_⟩
      · unfold placeType? at ht
        split at ht
        · exact absurd rfl hthis
        · obtain ⟨u, hu, ht⟩ := Option.bind_eq_some_iff.1 ht
          exact htype t (hty u hu ▸ ht)
      · rw [hmore, hcode, append_assoc]
      · rw [allInvocations_append]
        exact hcalls.append_right _
  | index object position =>
    obtain ⟨⟨base, st₁⟩, hbase, h⟩ := bind_eq_ok.1 h
    obtain ⟨⟨v, st₂⟩, hvalue, hplace⟩ := bind_eq_ok.1 h
    rw [source_denote] at hplace
    obtain ⟨haddressed, hty, code, calls, hcode, hevaluated, hcalls⟩ :=
      found_base hsound (fun _ _ => found_place object) hbase
    obtain ⟨part, hpart, -⟩ := Appends.of_moves (fun st => (hsound position).value) st₁ v st₂ hvalue
    obtain ⟨more, hmore, helement, htype, own, hown, hstep⟩ :=
      Appends.indexPlace haddressed st₂ p st' hplace
    refine ⟨helement, fun t ht => ?_, code ++ (part ++ more), _, ?_,
      .index hevaluated hvalue hpart hplace hown, ?_⟩
    · obtain ⟨u, hu, ht⟩ := Option.bind_eq_some_iff.1 ht
      exact htype t (hty u hu ▸ ht)
    · rw [hmore, hpart, hcode, append_assoc, append_assoc]
    · rw [allInvocations_append, allInvocations_append, append_assoc]
      exact hcalls.append (hstep.append_left _)
  | call callee args => exact found_other hsound rfl (by unfold denote; dsimp only; split <;> rfl) h
  | assign op target value =>
    exact found_other hsound rfl (by unfold denote; dsimp only; split <;> rfl) h
  | _ => exact found_other hsound rfl (by unfold denote; rfl) h

end

section

variable {levels : Nat} {env : Env} {write : Bool} {st st' : State} {p : Place}

theorem found_denoteWithin (h : (denoteWithin levels e).place write env st = .ok (p, st')) :
    Found env (denoteWithin levels) e st p st' := by
  have hsound : ∀ e, (denoteWithin levels e).Sound env := sound_denoteWithin levels
  obtain ⟨expand, hexpand⟩ := exists_expand levels
  rw [hexpand] at h hsound ⊢
  exact found_place hsound e h

/-- A place is at an address, whose evaluation changes nothing, and the calls that are written for the
target are those of its parts and of the steps between them, each once. -/
theorem target_evaluated_once {target : Source.Expr}
    (h : (denoteWithin levels target).place write env st = .ok (p, st')) :
    (∀ a, p.location? = some a → IsAddress a ∧
      ∀ (m : Machine) (σ : Config), (m.eval a σ).Ends fun r => r.2 = σ) ∧
    ∃ code calls, st'.code = st.code ++ code ∧
      Evaluated env (denoteWithin levels) target st p st' calls ∧
      (allInvocations code).Perm calls := by
  have hfound := found_denoteWithin h
  refine ⟨fun a ha => ?_, hfound.calls⟩
  have haddress : IsAddress a := hfound.addressed a ha
  exact ⟨haddress, haddress.ends_eval⟩

/-- An array of arrays in memory, and an index. -/
def gridState : State where
  progress := {}
  scopes := [[("grid", ⟨"var_grid", .array (.array (.uint 256) none) none⟩),
    ("i", ⟨"var_i", .uint 256⟩)]]

/-- The element `grid[i + 1][i]`. -/
def cell : Source.Expr :=
  .index (.index (.ident "grid") (.binary .add (.ident "i") (.number "1"))) (.ident "i")

theorem target_evaluated_once_cell : ∃ p st' code calls,
    (denoteWithin 0 cell).place true emptyEnv gridState = .ok (p, st') ∧
    p.location? = some (ident "_2") ∧ IsAddress (ident "_2") ∧
    code = [.letOne "_1" (FixedRoutine.memoryArrayIndex.call
        [ident "var_grid", Op.add (ident "var_i") (num 1)]),
      .letOne "_2" (FixedRoutine.memoryArrayIndex.call
        [Op.mload (ident "_1"), ident "var_i"])] ∧
    Evaluated emptyEnv (denoteWithin 0) cell gridState p st' calls ∧
    (allInvocations code).Perm calls := by
  obtain ⟨⟨p, st'⟩, hplace, hfacts⟩ := exists_of_map_toOption
    (show ((denoteWithin 0 cell).place true emptyEnv gridState).toOption.map
      (fun r => (r.1.location?, r.2.code)) = some _ from rfl)
  obtain ⟨hlocation, hcode⟩ := Prod.mk.inj hfacts
  obtain ⟨haddress, code, calls, hwritten, hevaluated, hcalls⟩ := target_evaluated_once hplace
  refine ⟨p, st', code, calls, hplace, hlocation, (haddress _ hlocation).1, ?_, hevaluated, hcalls⟩
  exact hwritten.symm.trans hcode

/-- The place of an expression has the type that is read off the expression before it is lowered. -/
theorem place_has_named_type {e : Source.Expr} {t : Ty} (ht : placeType? env st.scopes e = some t)
    (h : (denoteWithin levels e).place write env st = .ok (p, st')) : p.ty = t :=
  (found_denoteWithin h).ty_eq t ht

theorem place_has_named_type_cell : placeType? emptyEnv gridState.scopes cell = some (.uint 256) ∧
    ∃ p st', (denoteWithin 0 cell).place true emptyEnv gridState = .ok (p, st') ∧
      p.ty = .uint 256 := by
  obtain ⟨⟨p, st'⟩, hplace, -⟩ := exists_of_map_toOption
    (show ((denoteWithin 0 cell).place true emptyEnv gridState).toOption.map (fun _ => ()) = some ()
      from rfl)
  exact ⟨rfl, p, st', hplace, place_has_named_type rfl hplace⟩

end

end ContractYul.Lowering
