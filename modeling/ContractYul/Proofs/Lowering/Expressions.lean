import ContractYul.Proofs.Lowering.Calls

/-!
# Expressions

Main statement: `sound_denoteWithin`, every use of every expression is lowering in the sense of
`Lowers`. It is proved by recursion on the expression, and for the bodies of constants and of
expanded methods by recursion on the levels of expansion.
-/

namespace ContractYul.Lowering

open Yul
open Lowers (Any)

/-! ## Forms with rules of their own -/

namespace Operand.Sound

variable {env : Env} {o : Operand}

theorem withPlace {place : Bool → Lower Place} (ho : o.Sound env)
    (hplace : ∀ {κ : Stage} {write}, Lowers env κ (place write) (PlainPlace env write)) :
    ({ o with place := place } : Operand).Sound env :=
  ⟨ho.value, ho.valueAs, ho.values, hplace, ho.discard, ho.revert⟩

theorem withDiscard {discard : Lower Unit} (ho : o.Sound env)
    (hdiscard : ∀ {κ : Stage}, Lowers env κ discard Any) :
    ({ o with discard := discard } : Operand).Sound env :=
  ⟨ho.value, ho.valueAs, ho.values, ho.place, hdiscard, ho.revert⟩

theorem withRevert {revert : Lower Unit} (ho : o.Sound env)
    (hrevert : ∀ {κ : Stage}, Lowers env κ revert Any) :
    ({ o with revert := revert } : Operand).Sound env :=
  ⟨ho.value, ho.valueAs, ho.values, ho.place, ho.discard, hrevert⟩

theorem withValues {values : Lower (List Value)} (ho : o.Sound env)
    (hvalues : ∀ {κ : Stage}, Lowers env κ values (PlainValues env)) :
    ({ o with values := values } : Operand).Sound env :=
  ⟨ho.value, ho.valueAs, hvalues, ho.place, ho.discard, ho.revert⟩

end Operand.Sound

namespace Lowers

theorem singleResult (hresults : Lowers env κ results (PlainValues env)) :
    Lowers env κ (Lowering.singleResult results) (PlainValue env) := by
  refine hresults.bind fun _ vs _ hvs => ?_
  split
  · exact pure trivial
  · rename_i v
    exact pure (hvs v (by simp))
  · exact throw

theorem revertCall (h : AllSound env args) (hother : Lowers env κ otherwise Any) :
    Lowers env κ (Lowering.revertCall name args otherwise) Any := by
  refine read_bind ?_
  split
  · exact revertCustom h
  · exact hother

theorem castValue (ho : o.Sound env) : Lowers env κ (Lowering.castValue o ty) (PlainValue env) := by
  refine resolve.bind fun _ target _ _ => ?_
  split
  · exact ho.valueAs
  · exact ho.value.bind fun _ _ _ hv => convert hv

end Lowers

namespace Operand.Sound

variable {env : Env} {source : Source.Expr} {operands : List Operand}

theorem ofCall (hresults : ∀ {κ : Stage}, Lowers env κ results (PlainValues env)) :
    (Operand.ofCall source results).Sound env := by
  have hplain : (Operand.plain source (singleResult results)).Sound env :=
    plain (Lowers.singleResult hresults)
  exact (hplain.withValues hresults).withDiscard (hresults.bind fun _ _ _ _ => Lowers.pure trivial)

theorem ofTuple (h : AllSound env operands) : (Operand.ofTuple source operands).Sound env := by
  refine withValues (plain ?_) ((Lowers.orderedValues h).weaken fun _ _ _ hvs => hvs.2)
  intro κ
  split
  · rename_i elem
    exact (h elem (by simp)).value
  · exact Lowers.throw

theorem ofArray (h : AllSound env operands) : (Operand.ofArray source operands).Sound env := by
  refine typed (Lowers.arrayLiteral h) ?_
  intro κ ty
  split
  · exact Lowers.arrayLiteralAs h
  · exact (Lowers.arrayLiteral h).bind fun _ _ _ hv => Lowers.coerce hv

theorem ofRecord (h : ∀ f ∈ fields, f.2.Sound env) :
    (Operand.ofRecord source typeName fields).Sound env := by
  have hstruct : ∀ {κ : Stage} {name},
      Lowers env κ (structLiteral name fields) (PlainValue env) :=
    Lowers.structLiteral h
  cases typeName with
  | some name =>
    refine typed hstruct ?_
    intro κ ty
    split
    · exact hstruct
    · exact hstruct.bind fun _ _ _ hv => Lowers.coerce hv
  | none =>
    refine typed Lowers.throw ?_
    intro κ ty
    split
    · exact hstruct
    · exact Lowers.throw.bind fun _ _ _ hv => Lowers.coerce hv

theorem ofBytes : (Operand.ofBytes source bytes own).Sound env :=
  typed (Lowers.attempt.bind fun _ _ _ _ => Lowers.bytesLiteral)
    (Lowers.attempt.bind fun _ _ _ _ => Lowers.bytesLiteralAs)

end Operand.Sound

/-! ## All expressions -/

section

theorem sound_member (hexpand : expand.Sound env) (hobject : (denote expand object).Sound env)
    (haccount : ∀ account inner, object = .member account inner →
      (denote expand account).Sound env) : (denote expand (.member object property)).Sound env := by
  have hvalue : ∀ {κ : Stage},
      Lowers env κ (memberValue expand (denote expand object) property) (PlainValue env) :=
    Lowers.memberValue hexpand hobject
  unfold denote
  refine .withPlace (.plain ?_) (Lowers.memberOperandPlace hobject)
  intro κ
  split
  · rename_i account
    exact Lowers.codeLength (haccount account "code" rfl) hvalue
  · exact hvalue

theorem sound_call (hexpand : expand.Sound env) (hargs : AllSound env (denoteAll expand args))
    (hobject : ∀ object method, callee = .member object method →
      (denote expand object).Sound env)
    (htarget : ∀ object method target, callee = .member (.call object target) method →
      AllSound env (denoteAll expand target)) : (denote expand (.call callee args)).Sound env := by
  unfold denote
  split
  · refine .withRevert (.ofCall (Lowers.identCall hexpand hargs)) ?_
    exact Lowers.revertCall hargs (Operand.Sound.ofCall (Lowers.identCall hexpand hargs)).revert
  · exact .ofCall (Lowers.superConstructorCall hargs)
  · exact .ofCall (Lowers.delegateMethodCall (htarget _ _ _ rfl) hargs)
  · exact .ofCall (Lowers.memberCall hexpand (hobject _ _ rfl) hargs)
  · exact .ofCall Lowers.computedCall

mutual

theorem sound_denote (hexpand : expand.Sound env) : ∀ e, (denote expand e).Sound env
  | .number text => by
    rw [denote]
    exact .plain Lowers.numberLiteral
  | .bool b => by
    rw [denote]
    exact .plain (Lowers.pure trivial)
  | .string s => by
    rw [denote]
    exact .ofBytes
  | .hexBytes digits => by
    rw [denote]
    exact .ofBytes
  | .ident name => by
    rw [denote]
    exact .withPlace (.plain (Lowers.identValue hexpand)) Lowers.identPlace
  | .this => by
    rw [denote]
    exact .plain (Lowers.read_bind (Lowers.pure (Lowers.fits_word (by decide))))
  | .super => by
    rw [denote]
    exact .plain Lowers.throw
  | .member object property => by
    refine sound_member hexpand (sound_denote hexpand object) ?_
    rintro account inner rfl
    exact sound_denote hexpand account
  | .index object position => by
    have hplace : ∀ {κ : Stage} {write}, Lowers env κ
        (elementPlace (denote expand object) (denote expand position)) (PlainPlace env write) :=
      Lowers.elementPlace (sound_denote hexpand object) (sound_denote hexpand position)
    rw [denote]
    exact .withPlace (.plain (hplace.bind fun _ _ _ h => Lowers.load h)) hplace
  | .call callee args => by
    refine sound_call hexpand (sound_denoteAll hexpand args) ?_ ?_
    -- the object of a call, and the arguments of the `delegate` in front of it
    · rintro object method rfl
      exact sound_denote hexpand object
    · rintro object method target rfl
      exact sound_denoteAll hexpand target
  | .create className args value salt => by
    rw [denote]
    exact .plain (Lowers.createContract (sound_denoteAll hexpand args)
      (sound_denoteOption hexpand value) (sound_denoteOption hexpand salt))
  | .binary op left right => by
    rw [denote]
    exact .plain (Lowers.binary (sound_denote hexpand left) (sound_denote hexpand right))
  | .unary op operand => by
    rw [denote]
    exact .plain (Lowers.unary (sound_denote hexpand operand))
  | .update op isPrefix target => by
    have htarget := sound_denote hexpand target
    rw [denote]
    exact .withDiscard (.plain (Lowers.updateValue htarget)) (Lowers.update htarget)
  | .assign op target value => by
    have hvalue := sound_denote hexpand value
    have htarget := sound_denote hexpand target
    unfold denote
    split
    · rename_i targets
      have htargets := sound_denoteAll hexpand targets
      exact .withDiscard (.plain ((Lowers.assignTuple htargets hvalue).bind fun _ _ _ _ =>
        Lowers.pure trivial)) (Lowers.assignTuple htargets hvalue)
    · exact .withDiscard (.plain (Lowers.assignValue htarget hvalue)) (Lowers.assign htarget hvalue)
  | .conditional condition thenExpr elseExpr => by
    have hchoose : ∀ {κ : Stage} {expected}, Lowers env κ (conditional (denote expand condition)
        (denote expand thenExpr) (denote expand elseExpr) expected) (PlainValue env) :=
      Lowers.conditional (sound_denote hexpand condition) (sound_denote hexpand thenExpr)
        (sound_denote hexpand elseExpr)
    rw [denote]
    exact .typed hchoose hchoose
  | .tuple elems => by
    rw [denote]
    exact .ofTuple (sound_denoteAll hexpand elems)
  | .array elems => by
    rw [denote]
    exact .ofArray (sound_denoteAll hexpand elems)
  | .record typeName fields => by
    rw [denote]
    exact .ofRecord (sound_denoteFields hexpand fields)
  | .cast e ty => by
    rw [denote]
    exact .plain (Lowers.castValue (sound_denote hexpand e))

theorem sound_denoteAll (hexpand : expand.Sound env) : ∀ es, AllSound env (denoteAll expand es)
  | [] => by
    rw [denoteAll]
    exact List.forall_mem_nil _
  | e :: rest => by
    rw [denoteAll]
    exact List.forall_mem_cons.2 ⟨sound_denote hexpand e, sound_denoteAll hexpand rest⟩

theorem sound_denoteOption (hexpand : expand.Sound env) :
    ∀ e, ∀ o ∈ denoteOption expand e, o.Sound env
  | none => by
    rw [denoteOption]
    rintro _ ⟨⟩
  | some e => by
    rw [denoteOption]
    rintro _ ⟨⟩
    exact sound_denote hexpand e

theorem sound_denoteField (hexpand : expand.Sound env) : ∀ f, (denoteField expand f).2.Sound env
  | (name, e) => by
    rw [denoteField]
    exact sound_denote hexpand e

theorem sound_denoteFields (hexpand : expand.Sound env) :
    ∀ fields, ∀ f ∈ denoteFields expand fields, f.2.Sound env
  | [] => by
    rw [denoteFields]
    exact List.forall_mem_nil _
  | f :: rest => by
    rw [denoteFields]
    exact List.forall_mem_cons.2 ⟨sound_denoteField hexpand f, sound_denoteFields hexpand rest⟩

end

/-- Every use of an expression is lowering, whatever number of levels is left for the bodies of
constants and of expanded methods. -/
theorem sound_denoteWithin (levels : Nat) (e : Source.Expr) :
    (denoteWithin levels e).Sound env := by
  induction levels generalizing e with
  | zero =>
    rw [denoteWithin]
    exact sound_denote (fun _ h => by cases h) e
  | succ levels ih =>
    rw [denoteWithin]
    refine sound_denote ?_ e
    rintro _ ⟨⟩ e'
    exact ih e'

end

theorem source_denote (expand : Expansion) (e : Source.Expr) : (denote expand e).source = e := by
  unfold denote
  cases e with
  | call callee args => dsimp only; split <;> rfl
  | assign op target value => dsimp only; split <;> rfl
  | _ => rfl

theorem exists_expand (levels : Nat) : ∃ expand, denoteWithin levels = denote expand := by
  cases levels with
  | zero => exact ⟨none, rfl⟩
  | succ levels => exact ⟨some (denoteWithin levels), rfl⟩

/-! ## Places -/

theorem bind_of_run {f : α → Lower β} (h : m env st = .ok (a, st')) :
    (m >>= f) env st = f a env st' := by
  show (m env st >>= fun q => f q.1 env q.2) = _
  rw [h]
  rfl

section

theorem place_denote_member (object : Source.Expr) (property : String) :
    (denote expand (.member object property)).place =
      memberOperandPlace (denote expand object) property := by
  conv_lhs => unfold denote

theorem of_fieldPlace (h : fieldPlace name write env st = .ok (p, st')) :
    ∃ s, env.layout.get? name = some s ∧ st = st' ∧
      p = .storage (num s.slot) s.byteOffset s.byteSize s.ty s.transient := by
  change (if env.owner != .contract then _ else _ : Lower Place) env st = .ok (p, st') at h
  split at h
  · cases h
  · cases hs : env.layout.get? name with
    | none =>
      rw [hs] at h
      change (if (constant? env name).isNone then _ else if write then _ else _ : Lower Place) env st =
        .ok (p, st') at h
      repeat' split at h
      all_goals cases h
    | some s =>
      rw [hs] at h
      change (if write && s.immutable && env.mode == .runtime then _ else _ : Lower Place) env st =
        .ok (p, st') at h
      split at h <;> cases h
      exact ⟨s, rfl, rfl, rfl⟩

/-- The place that a member or an element is taken of. -/
theorem base_cases {object : Source.Expr} (h : (denote expand object).base env st = .ok (p, st')) :
    (denote expand object).place false env st = .ok (p, st') ∨
      placeType? env st.scopes object = none ∧ ∃ v st₁,
        (denote expand object).value env st = .ok (v, st₁) ∧ valuePlace v env st₁ = .ok (p, st') := by
  have h : (if (placeType? env st.scopes (denote expand object).source).isSome then
      (denote expand object).place false else _ : Lower Place) env st = .ok (p, st') := h
  rw [source_denote] at h
  split at h
  · exact .inl h
  · rename_i hnone
    obtain ⟨⟨v, st₁⟩, hvalue, hplace⟩ := Outcome.bind_eq_ok.1 h
    exact .inr ⟨by simpa using hnone, v, st₁, hvalue, hplace⟩

end

end ContractYul.Lowering
