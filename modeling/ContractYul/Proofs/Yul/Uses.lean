import ContractYul.Proofs.Yul.Invocations
import ContractYul.Proofs.Yul.Scoping

/-!
# Uses in code

A use of an instruction or a function has arguments and a number of results that are asked of it. An
expression `Fits` when its variables are in one set and its uses in another; a statement fits when it
moreover declares nothing and control goes on behind it. Of other code only the uses are asked:
`Stmt.Uses` holds when they are all in a set, wherever they stand. Code is `Linked` to a set of calls
when it makes no others, and an expression is `Plain` when evaluating it changes nothing, since it is
made of instructions that read and of the comparison of byte strings.
-/

open List

namespace ContractYul.Yul

open Stmt

structure Use where
  name : String
  args : List Expr
  /-- Number of results that are used. -/
  results : Nat

abbrev Use.call (u : Use) : Call :=
  ⟨u.name, u.args.length, u.results⟩

abbrev Use.invocation (u : Use) : Invocation :=
  ⟨u.name, u.args⟩

def Use.Calls (C : Call → Prop) (u : Use) : Prop :=
  C u.call

@[simp]
theorem Use.calls_mk {name : String} {args : List Expr} :
    Use.Calls C ⟨name, args, n⟩ ↔ C ⟨name, args.length, n⟩ := Iff.rfl

/-! ## Code that fits -/

mutual

/-- The variables of an expression are in `V`, and what it uses is in `A` when `n` values are asked
of it. -/
def Expr.Fits (V : String → Prop) (A : Use → Prop) (n : Nat) : Expr → Prop
  | .literal _ => True
  | .ident x => V x
  | .call name args => A ⟨name, args, n⟩ ∧ Expr.AllFit V A args

def Expr.AllFit (V : String → Prop) (A : Use → Prop) : List Expr → Prop
  | [] => True
  | e :: rest => e.Fits V A 1 ∧ Expr.AllFit V A rest

end

abbrev Expr.Uses (A : Use → Prop) (n : Nat) (e : Expr) : Prop :=
  e.Fits (fun _ => True) A n

abbrev Expr.Linked (C : Call → Prop) (n : Nat) (e : Expr) : Prop :=
  e.Uses (Use.Calls C) n

/-- Every variable of an expression is in `V`, and evaluating it changes nothing. -/
abbrev Expr.Plain (V : String → Prop) (e : Expr) : Prop :=
  e.Fits V (fun u => u.name ∈ quietNames) 1

mutual

/-- A statement that declares nothing and that control goes on behind, with its variables in `V` and
its uses in `A`. -/
def Stmt.Fits (V : String → Prop) (A : Use → Prop) : Stmt → Prop
  | .assign names e => (∀ x ∈ names, V x) ∧ e.Fits V A names.length
  | .eval e => e.Fits V A 0
  | .ifThen c body => c.Fits V A 1 ∧ AllFit V A body
  | .comment _ => True
  | .block _ | .declare _ _ | .switch _ _ _ | .loop _ _ _ _ | .function _ _ _ _ | .raw _ | .break
  | .continue | .leave => False

def Stmt.AllFit (V : String → Prop) (A : Use → Prop) : List Stmt → Prop
  | [] => True
  | s :: rest => s.Fits V A ∧ AllFit V A rest

end

section

theorem Expr.allFit_iff : Expr.AllFit V A es ↔ ∀ e ∈ es, e.Fits V A 1 := by
  induction es with
  | nil => simp [AllFit]
  | cons e es ih => simp [AllFit, ih]

@[simp]
theorem fits_call : (call name args).Fits V A n ↔ A ⟨name, args, n⟩ ∧ ∀ e ∈ args, e.Fits V A 1 := by
  simp [call, Expr.Fits, Expr.allFit_iff]

@[simp]
theorem fits_ident : (ident x).Fits V A n ↔ V x := Iff.rfl

@[simp]
theorem fits_literal : (Expr.literal l).Fits V A n := trivial

@[simp]
theorem fits_num : (num k).Fits V A n := trivial

@[simp]
theorem fits_numText : (numText text).Fits V A n := trivial

@[simp]
theorem fits_hexLiteral : (hexLiteral bytes).Fits V A n := trivial

@[simp]
theorem fits_textLiteral : (textLiteral text).Fits V A n := trivial

@[simp]
theorem Stmt.fits_assignOne : (assignOne x e).Fits V A ↔ V x ∧ e.Fits V A 1 := by
  simp [assignOne, Fits]

@[simp]
theorem Stmt.fits_run : (run name args).Fits V A ↔ A ⟨name, args, 0⟩ ∧ ∀ e ∈ args, e.Fits V A 1 :=
  fits_call

theorem Stmt.allFit_iff : AllFit V A ss ↔ ∀ s ∈ ss, s.Fits V A := by
  induction ss with
  | nil => simp [AllFit]
  | cons s ss ih => simp [AllFit, ih]

/-! ### Weaker conditions -/

mutual

theorem Expr.Fits.mono (hV : ∀ x, V x → V' x) (hA : ∀ u, A u → A' u) :
    ∀ {e : Expr} {n : Nat}, e.Fits V A n → e.Fits V' A' n
  | .literal _, _, _ => trivial
  | .ident x, _, h => hV x h
  | .call _ _, _, h => ⟨hA _ h.1, Expr.AllFit.mono hV hA h.2⟩

theorem Expr.AllFit.mono (hV : ∀ x, V x → V' x) (hA : ∀ u, A u → A' u) :
    ∀ {es : List Expr}, Expr.AllFit V A es → Expr.AllFit V' A' es
  | [], _ => trivial
  | _ :: _, h => ⟨h.1.mono hV hA, Expr.AllFit.mono hV hA h.2⟩

end

mutual

theorem Stmt.Fits.mono (hV : ∀ x, V x → V' x) (hA : ∀ u, A u → A' u) :
    ∀ {s : Stmt}, s.Fits V A → s.Fits V' A'
  | .assign _ _, h => ⟨fun x hx => hV x (h.1 x hx), h.2.mono hV hA⟩
  | .eval e, h => Expr.Fits.mono hV hA (e := e) h
  | .ifThen _ _, h => ⟨h.1.mono hV hA, AllFit.mono hV hA h.2⟩
  | .comment _, _ => trivial

theorem Stmt.AllFit.mono (hV : ∀ x, V x → V' x) (hA : ∀ u, A u → A' u) :
    ∀ {ss : List Stmt}, AllFit V A ss → AllFit V' A' ss
  | [], _ => trivial
  | _ :: _, h => ⟨h.1.mono hV hA, AllFit.mono hV hA h.2⟩

end

mutual

theorem Expr.Fits.mentions : ∀ {e : Expr} {n : Nat}, e.Fits V A n → e.Mentions V
  | .literal _, _, _ => trivial
  | .ident _, _, h => h
  | .call _ args, _, h => show Expr.AllMention V args from Expr.AllFit.mentions h.2

theorem Expr.AllFit.mentions : ∀ {es : List Expr}, Expr.AllFit V A es → Expr.AllMention V es
  | [], _ => trivial
  | _ :: _, h => ⟨h.1.mentions, Expr.AllFit.mentions h.2⟩

end

theorem Expr.Plain.mono {e : Expr} (he : e.Plain V) (hV : ∀ x, V x → V' x) : e.Plain V' :=
  Expr.Fits.mono hV (fun _ => id) he

theorem Expr.Fits.uses {e : Expr} (he : e.Fits V A n) (hA : ∀ u, A u → A' u) : e.Uses A' n :=
  he.mono (fun _ _ => trivial) hA

end

/-! ## Uses of all code -/

mutual

/-- What a statement uses is in `A`. A text that is taken as it is counts as a use of itself. -/
@[simp]
def Stmt.Uses (A : Use → Prop) : Stmt → Prop
  | .block body => AllUse A body
  | .declare _ none => True
  | .declare names (some e) => e.Uses A names.length
  | .assign names e => e.Uses A names.length
  | .eval e => e.Uses A 0
  | .ifThen condition body => condition.Uses A 1 ∧ AllUse A body
  | .switch e cases none => e.Uses A 1 ∧ CasesUse A cases
  | .switch e cases (some body) => e.Uses A 1 ∧ CasesUse A cases ∧ AllUse A body
  | .loop init condition post body =>
    AllUse A init ∧ condition.Uses A 1 ∧ AllUse A post ∧ AllUse A body
  | .function _ _ _ body => AllUse A body
  | .raw text => A ⟨text, [], 0⟩
  | .break | .continue | .leave | .comment _ => True

@[simp]
def Stmt.AllUse (A : Use → Prop) : List Stmt → Prop
  | [] => True
  | s :: rest => s.Uses A ∧ AllUse A rest

def Stmt.CasesUse (A : Use → Prop) : List (Literal × List Stmt) → Prop
  | [] => True
  | (_, body) :: rest => AllUse A body ∧ CasesUse A rest

end

abbrev Stmt.Linked (C : Call → Prop) (s : Stmt) : Prop :=
  s.Uses (Use.Calls C)

abbrev Stmt.AllLinked (C : Call → Prop) (ss : List Stmt) : Prop :=
  AllUse (Use.Calls C) ss

section

theorem Stmt.allUse_iff : AllUse A ss ↔ ∀ s ∈ ss, s.Uses A := by
  induction ss with
  | nil => simp
  | cons s ss ih => simp [ih]

@[simp]
theorem Stmt.casesUse_iff : CasesUse A cases ↔ ∀ p ∈ cases, AllUse A p.2 := by
  induction cases with
  | nil => simp [CasesUse]
  | cons p cases ih => simp [CasesUse, ih]

@[simp]
theorem Stmt.allUse_append : AllUse A (ss ++ ts) ↔ AllUse A ss ∧ AllUse A ts := by
  simp only [allUse_iff, forall_mem_append]

@[simp]
theorem Stmt.allUse_map {α : Type} {f : α → Stmt} {as : List α} :
    AllUse A (as.map f) ↔ ∀ a ∈ as, (f a).Uses A := by
  simp [allUse_iff]

@[simp]
theorem Stmt.uses_letOne : (letOne x e).Uses A ↔ e.Uses A 1 := Iff.rfl

@[simp]
theorem Stmt.uses_assignOne : (assignOne x e).Uses A ↔ e.Uses A 1 := Iff.rfl

@[simp]
theorem Stmt.uses_run : (run name args).Uses A ↔ A ⟨name, args, 0⟩ ∧ ∀ e ∈ args, e.Uses A 1 :=
  fits_call

mutual

theorem Stmt.Uses.mono (hA : ∀ u, A u → A' u) : ∀ {s : Stmt}, s.Uses A → s.Uses A'
  | .block body, h | .function _ _ _ body, h =>
    show AllUse A' body from AllUse.mono hA h
  | .declare _ (some e), h | .assign _ e, h | .eval e, h => Expr.Fits.uses (e := e) h hA
  | .ifThen _ _, h => ⟨h.1.uses hA, h.2.mono hA⟩
  | .switch _ _ none, h => ⟨h.1.uses hA, CasesUse.mono hA h.2⟩
  | .switch _ _ (some _), h => ⟨h.1.uses hA, CasesUse.mono hA h.2.1, h.2.2.mono hA⟩
  | .loop _ _ _ _, h => ⟨h.1.mono hA, h.2.1.uses hA, h.2.2.1.mono hA, h.2.2.2.mono hA⟩
  | .raw _, h => hA _ h
  | .declare _ none, _ | .break, _ | .continue, _ | .leave, _ | .comment _, _ => trivial

theorem Stmt.AllUse.mono (hA : ∀ u, A u → A' u) :
    ∀ {ss : List Stmt}, AllUse A ss → AllUse A' ss
  | [], _ => trivial
  | _ :: _, h => ⟨h.1.mono hA, AllUse.mono hA h.2⟩

theorem Stmt.CasesUse.mono (hA : ∀ u, A u → A' u) :
    ∀ {cases : List (Literal × List Stmt)}, CasesUse A cases → CasesUse A' cases
  | [], _ => trivial
  | (_, _) :: _, h => ⟨h.1.mono hA, CasesUse.mono hA h.2⟩

end

theorem linked_call :
    (call name args).Linked C n ↔ C ⟨name, args.length, n⟩ ∧ ∀ e ∈ args, e.Linked C 1 :=
  fits_call

theorem Expr.Linked.mono {e : Expr} (he : e.Linked C n) (h : ∀ c, C c → D c) : e.Linked D n :=
  he.uses fun u => h u.call

theorem Stmt.AllLinked.mono (hss : AllLinked C ss) (h : ∀ c, C c → D c) : AllLinked D ss :=
  AllUse.mono (fun u => h u.call) hss

/-! ### Calls of the text -/

mutual

theorem Expr.linked_iff : ∀ (e : Expr) (n : Nat), e.Linked C n ↔ ∀ c ∈ e.calls n, C c
  | .literal _, _ | .ident _, _ => by simp [Expr.Fits]
  | .call _ args, _ => by simp [Expr.Fits, Expr.allLinked_iff args]

theorem Expr.allLinked_iff :
    ∀ es : List Expr, Expr.AllFit (fun _ => True) (Use.Calls C) es ↔ ∀ c ∈ Expr.allCalls es, C c
  | [] => by simp [Expr.AllFit]
  | e :: rest => by
    simp [Expr.AllFit, Expr.linked_iff e 1, Expr.allLinked_iff rest, or_imp, forall_and]

end

mutual

theorem Stmt.linked_iff : ∀ s : Stmt, s.Linked C ↔ ∀ c ∈ s.calls, C c
  | .block body | .function _ _ _ body => by simp [allLinked_iff body]
  | .declare _ none | .break | .continue | .leave | .comment _ | .raw _ => by simp
  | .declare _ (some _) | .assign _ _ | .eval _ => by simp [Expr.linked_iff]
  | .ifThen _ body => by simp [Expr.linked_iff, allLinked_iff body, or_imp, forall_and]
  | .switch _ cases none => by
    simp only [Linked, Uses, casesLinked_iff cases]
    simp [Expr.linked_iff, or_imp, forall_and]
  | .switch _ cases (some body) => by
    simp only [Linked, Uses, casesLinked_iff cases]
    simp [Expr.linked_iff, allLinked_iff body, or_imp, forall_and]
  | .loop init _ post body => by
    simp [Expr.linked_iff, allLinked_iff init, allLinked_iff post,
      allLinked_iff body, or_imp, forall_and]

theorem Stmt.allLinked_iff : ∀ ss : List Stmt, AllLinked C ss ↔ ∀ c ∈ allCalls ss, C c
  | [] => by simp
  | s :: rest => by simp [linked_iff s, allLinked_iff rest, or_imp, forall_and]

theorem Stmt.casesLinked_iff : ∀ cases : List (Literal × List Stmt),
    CasesUse (Use.Calls C) cases ↔ ∀ c ∈ casesCalls cases, C c
  | [] => by simp
  | (_, body) :: rest => by
    simp only [CasesUse, allLinked_iff body, casesLinked_iff rest]
    simp [or_imp, forall_and]

end

abbrev Use.Among (A : Use → Prop) (i : Invocation) : Prop :=
  ∃ n, A ⟨i.name, i.args, n⟩

mutual

theorem Expr.Fits.invocations : ∀ {e : Expr} {n : Nat}, e.Uses A n →
    ∀ i ∈ e.invocations, Use.Among A i
  | .literal _, _, _ | .ident _, _, _ => forall_mem_nil _
  | .call _ _, n, h => forall_mem_cons.2 ⟨⟨n, h.1⟩, Expr.AllFit.invocations h.2⟩

theorem Expr.AllFit.invocations : ∀ {es : List Expr}, Expr.AllFit (fun _ => True) A es →
    ∀ i ∈ Expr.allInvocations es, Use.Among A i
  | [], _ => forall_mem_nil _
  | _ :: _, h => forall_mem_append.2 ⟨h.1.invocations, Expr.AllFit.invocations h.2⟩

end

mutual

theorem Stmt.Uses.invocations : ∀ {s : Stmt}, s.Uses A → ∀ i ∈ s.invocations, Use.Among A i
  | .block _, (h : AllUse A _) | .function _ _ _ _, (h : AllUse A _) => h.invocations
  | .declare _ (some e), h | .assign _ e, h | .eval e, h => Expr.Fits.invocations (e := e) h
  | .ifThen _ _, h => forall_mem_append.2 ⟨h.1.invocations, h.2.invocations⟩
  | .switch _ _ none, h =>
    forall_mem_append.2 ⟨h.1.invocations, CasesUse.invocations h.2⟩
  | .switch _ _ (some _), h => forall_mem_append.2
    ⟨forall_mem_append.2 ⟨h.1.invocations, CasesUse.invocations h.2.1⟩, h.2.2.invocations⟩
  | .loop _ _ _ _, h => forall_mem_append.2 ⟨forall_mem_append.2
    ⟨forall_mem_append.2 ⟨h.1.invocations, h.2.1.invocations⟩, h.2.2.1.invocations⟩,
    h.2.2.2.invocations⟩
  | .raw _, h => forall_mem_singleton.2 ⟨0, h⟩
  | .declare _ none, _ | .break, _ | .continue, _ | .leave, _ | .comment _, _ =>
    forall_mem_nil _

theorem Stmt.AllUse.invocations : ∀ {ss : List Stmt}, AllUse A ss →
    ∀ i ∈ allInvocations ss, Use.Among A i
  | [], _ => forall_mem_nil _
  | _ :: _, h => forall_mem_append.2 ⟨h.1.invocations, AllUse.invocations h.2⟩

theorem Stmt.CasesUse.invocations : ∀ {cases : List (Literal × List Stmt)},
    CasesUse A cases → ∀ i ∈ casesInvocations cases, Use.Among A i
  | [], _ => forall_mem_nil _
  | (_, _) :: _, h =>
    forall_mem_append.2 ⟨h.1.invocations, CasesUse.invocations h.2⟩

end

end

section

variable {V : String → Prop} {A : Use → Prop}

structure Stmt.FlatCode (V : String → Prop) (A : Use → Prop) (ss : List Stmt) : Prop where
  mentions : AllMention V ss
  flat : allFlat ss = true
  uses : AllUse A ss
  bindings : allBindings ss = []

theorem Stmt.AllFit.flatCode : ∀ {ss : List Stmt}, AllFit V A ss → FlatCode V A ss
  | [], _ => ⟨trivial, rfl, trivial, rfl⟩
  | .assign _ _ :: _, h =>
    have hrest := AllFit.flatCode h.2
    ⟨⟨⟨h.1.1, h.1.2.mentions⟩, hrest.mentions⟩, hrest.flat,
      ⟨h.1.2.uses fun _ => id, hrest.uses⟩, by simpa using hrest.bindings⟩
  | .eval e :: _, h =>
    have hrest := AllFit.flatCode h.2
    have he : e.Fits V A 0 := h.1
    ⟨⟨he.mentions, hrest.mentions⟩, hrest.flat, ⟨he.uses fun _ => id, hrest.uses⟩,
      by simpa using hrest.bindings⟩
  | .ifThen _ _ :: _, h =>
    have hrest := AllFit.flatCode h.2
    have hbody := AllFit.flatCode h.1.2
    ⟨⟨⟨h.1.1.mentions, hbody.mentions⟩, hrest.mentions⟩,
      Bool.and_eq_true_iff.2 ⟨hbody.flat, hrest.flat⟩,
      ⟨⟨h.1.1.uses fun _ => id, hbody.uses⟩, hrest.uses⟩,
      by simpa using ⟨hbody.bindings, hrest.bindings⟩⟩
  | .comment _ :: _, h =>
    have hrest := AllFit.flatCode h.2
    ⟨⟨trivial, hrest.mentions⟩, hrest.flat, ⟨trivial, hrest.uses⟩, by simpa using hrest.bindings⟩

end

/-! ## Instructions -/

/-- An instruction with `k` arguments that gives a word and changes nothing, and that leaves storage
alone. -/
abbrev IsReading (name : String) (k : Nat) : Prop :=
  ⟨name, k, 1⟩ ∈ instructions ∧ IsCalm name ∧ name ∈ quietNames

/-- Instructions that only read are in a set, whatever they are given. -/
class Reads (A : Use → Prop) : Prop where
  reads : ∀ name args, IsReading name args.length → A ⟨name, args, 1⟩

/-- Instructions that leave storage alone are in a set, whatever they are given. -/
class Calms (A : Use → Prop) : Prop where
  calm : ∀ u : Use, u.call ∈ instructions → IsCalm u.name → A u

instance (priority := low) {A : Use → Prop} [Calms A] : Reads A where
  reads name args h := Calms.calm ⟨name, args, 1⟩ h.1 h.2.1

instance {C : Call → Prop} [Instructed C] : Calms (Use.Calls C) where
  calm u h _ := instructed C u.call h

instance : Reads fun u => u.name ∈ quietNames where
  reads _ _ h := h.2.2

section

variable {A : Use → Prop}

namespace Op

theorem uses_store [Calms A] (h : ⟨name, 2, 0⟩ ∈ instructions) (hcalm : IsCalm name) :
    (run name [a, b]).Uses A ↔ a.Uses A 1 ∧ b.Uses A 1 :=
  uses_run.trans ((and_iff_right (Calms.calm _ h hcalm)).trans (by simp))

@[simp]
theorem uses_mstore [Calms A] : (mstore a b).Uses A ↔ a.Uses A 1 ∧ b.Uses A 1 :=
  uses_store (by decide) (by decide)

@[simp]
theorem uses_revert [Calms A] : (revert a b).Uses A ↔ a.Uses A 1 ∧ b.Uses A 1 :=
  uses_store (by decide) (by decide)

@[simp]
theorem uses_revertEmpty [Calms A] : revertEmpty.Uses A := by
  simp [revertEmpty]

end Op

variable [Reads A]

theorem fits_reading (h : IsReading name args.length) :
    (call name args).Fits V A 1 ↔ ∀ e ∈ args, e.Fits V A 1 :=
  fits_call.trans (and_iff_right (Reads.reads name args h))

namespace Op

theorem fits_unary (h : IsReading name 1) : (call name [a]).Fits V A 1 ↔ a.Fits V A 1 :=
  (fits_reading h).trans forall_mem_singleton

theorem fits_binary (h : IsReading name 2) :
    (call name [a, b]).Fits V A 1 ↔ a.Fits V A 1 ∧ b.Fits V A 1 :=
  (fits_reading h).trans (by simp)

@[simp]
theorem fits_add : (add a b).Fits V A 1 ↔ a.Fits V A 1 ∧ b.Fits V A 1 :=
  fits_binary (by decide)

@[simp]
theorem fits_sub : (sub a b).Fits V A 1 ↔ a.Fits V A 1 ∧ b.Fits V A 1 :=
  fits_binary (by decide)

@[simp]
theorem fits_mul : (mul a b).Fits V A 1 ↔ a.Fits V A 1 ∧ b.Fits V A 1 :=
  fits_binary (by decide)

@[simp]
theorem fits_div : (div a b).Fits V A 1 ↔ a.Fits V A 1 ∧ b.Fits V A 1 :=
  fits_binary (by decide)

@[simp]
theorem fits_both : (both a b).Fits V A 1 ↔ a.Fits V A 1 ∧ b.Fits V A 1 :=
  fits_binary (by decide)

@[simp]
theorem fits_either : (either a b).Fits V A 1 ↔ a.Fits V A 1 ∧ b.Fits V A 1 :=
  fits_binary (by decide)

@[simp]
theorem fits_complement : (complement a).Fits V A 1 ↔ a.Fits V A 1 :=
  fits_unary (by decide)

@[simp]
theorem fits_isZero : (isZero a).Fits V A 1 ↔ a.Fits V A 1 :=
  fits_unary (by decide)

@[simp]
theorem fits_eq : (eq a b).Fits V A 1 ↔ a.Fits V A 1 ∧ b.Fits V A 1 :=
  fits_binary (by decide)

@[simp]
theorem fits_lt : (lt a b).Fits V A 1 ↔ a.Fits V A 1 ∧ b.Fits V A 1 :=
  fits_binary (by decide)

@[simp]
theorem fits_shl : (shl a b).Fits V A 1 ↔ a.Fits V A 1 ∧ b.Fits V A 1 :=
  fits_binary (by decide)

@[simp]
theorem fits_shr : (shr a b).Fits V A 1 ↔ a.Fits V A 1 ∧ b.Fits V A 1 :=
  fits_binary (by decide)

@[simp]
theorem fits_mload : (mload a).Fits V A 1 ↔ a.Fits V A 1 :=
  fits_unary (by decide)

@[simp]
theorem fits_keccak : (keccak a b).Fits V A 1 ↔ a.Fits V A 1 ∧ b.Fits V A 1 :=
  fits_binary (by decide)

@[simp]
theorem fits_dataOf : (dataOf a).Fits V A 1 ↔ a.Fits V A 1 := by
  simp [dataOf]

@[simp]
theorem fits_hashOf : (hashOf a).Fits V A 1 ↔ a.Fits V A 1 := by
  simp [hashOf]

@[simp]
theorem fits_selectorWord : (selectorWord selector).Fits V A 1 := by
  simp [selectorWord]

end Op

end

end ContractYul.Yul
