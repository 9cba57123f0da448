import ContractYul.Proofs.Yul.Names
import Mathlib.Data.List.Nodup
import Mathlib.Data.List.Perm.Subperm

/-!
# Scopes of variables

Where a variable may be read and assigned, read off the text of code: behind its declaration, in the
block of the declaration and in blocks within that. What the first part of a loop declares is seen by
its other parts. A function sees its parameters, its results and what it declares itself.

`Stmt.Scoped` holds of a statement that reads and assigns nothing else, and `Function.Scoped` of a
definition that moreover declares no name twice, in whatever blocks.
-/

open List

namespace ContractYul.Yul

open Stmt

/-! ## Declarations -/

mutual

/-- Names that a statement declares, blocks in it included. What a function definition declares is
its own. -/
def Stmt.declared : Stmt → List String
  | .block body => allDeclared body
  | .declare names _ => names
  | .ifThen _ body => allDeclared body
  | .switch _ cases none => casesDeclared cases
  | .switch _ cases (some body) => casesDeclared cases ++ allDeclared body
  | .loop init _ post body => allDeclared init ++ allDeclared post ++ allDeclared body
  | .assign _ _ | .eval _ | .break | .continue | .leave | .function _ _ _ _ | .raw _ | .comment _ =>
    []

def Stmt.allDeclared : List Stmt → List String
  | [] => []
  | s :: rest => s.declared ++ allDeclared rest

def Stmt.casesDeclared : List (Literal × List Stmt) → List String
  | [] => []
  | (_, body) :: rest => allDeclared body ++ casesDeclared rest

end

def Stmt.binds : Stmt → List String
  | .declare names _ => names
  | _ => []

/-- Names that are seen behind statements, in their block. -/
def Stmt.allBinds (code : List Stmt) : List String :=
  code.flatMap binds

/-! ## Scopes -/

mutual

/-- Every variable that a statement reads or assigns is declared in the statement, in front of its
use and in a block around it, or else satisfies `P`. -/
def Stmt.Scoped (P : String → Prop) : Stmt → Prop
  | .block body => AllScoped P body
  | .declare _ none => True
  | .declare _ (some e) => e.Mentions P
  | .assign names e => (∀ x ∈ names, P x) ∧ e.Mentions P
  | .eval e => e.Mentions P
  | .ifThen condition body => condition.Mentions P ∧ AllScoped P body
  | .switch e cases none => e.Mentions P ∧ CasesScoped P cases
  | .switch e cases (some body) => e.Mentions P ∧ CasesScoped P cases ∧ AllScoped P body
  | .loop init condition post body =>
    AllScoped P init ∧ condition.Mentions (fun x => P x ∨ x ∈ allBinds init) ∧
      AllScoped (fun x => P x ∨ x ∈ allBinds init) post ∧
      AllScoped (fun x => P x ∨ x ∈ allBinds init) body
  | .function _ params returns body =>
    AllScoped (· ∈ params ++ returns) body ∧ (params ++ returns ++ allDeclared body).Nodup
  | .raw _ => False
  | .break | .continue | .leave | .comment _ => True

def Stmt.AllScoped (P : String → Prop) : List Stmt → Prop
  | [] => True
  | s :: rest => s.Scoped P ∧ AllScoped (fun x => P x ∨ x ∈ s.binds) rest

def Stmt.CasesScoped (P : String → Prop) : List (Literal × List Stmt) → Prop
  | [] => True
  | (_, body) :: rest => AllScoped P body ∧ CasesScoped P rest

end

/-- A function reads and assigns variables where they are seen, and declares no name twice. -/
def Function.Scoped (f : Function) : Prop :=
  AllScoped (· ∈ f.params ++ f.returns) f.body ∧
    (f.params ++ f.returns ++ allDeclared f.body).Nodup

/-- Code that stands on its own reads and assigns variables where they are seen, and declares no name
twice. -/
def Stmt.WellScoped (code : List Stmt) : Prop :=
  AllScoped (fun _ => False) code ∧ (allDeclared code).Nodup

/-! ## Scopes can be checked -/

section

variable {P : String → Prop} [DecidablePred P]

mutual

instance Expr.decidableMentions : (e : Expr) → Decidable (e.Mentions P)
  | .literal _ => .isTrue trivial
  | .ident x => inferInstanceAs (Decidable (P x))
  | .call _ args => Expr.decidableAllMention args

instance Expr.decidableAllMention : (es : List Expr) → Decidable (Expr.AllMention P es)
  | [] => .isTrue trivial
  | e :: rest =>
    have := Expr.decidableMentions e
    have := Expr.decidableAllMention rest
    inferInstanceAs (Decidable (e.Mentions P ∧ Expr.AllMention P rest))

end

end

mutual

instance Stmt.decidableScoped (P : String → Prop) [DecidablePred P] :
    (s : Stmt) → Decidable (s.Scoped P)
  | .block body => decidableAllScoped P body
  | .declare _ none => .isTrue trivial
  | .declare _ (some e) => inferInstanceAs (Decidable (e.Mentions P))
  | .assign names e => inferInstanceAs (Decidable ((∀ x ∈ names, P x) ∧ e.Mentions P))
  | .eval e => inferInstanceAs (Decidable (e.Mentions P))
  | .ifThen condition body =>
    have := decidableAllScoped P body
    inferInstanceAs (Decidable (condition.Mentions P ∧ AllScoped P body))
  | .switch e cases none =>
    have := decidableCasesScoped P cases
    inferInstanceAs (Decidable (e.Mentions P ∧ CasesScoped P cases))
  | .switch e cases (some body) =>
    have := decidableCasesScoped P cases
    have := decidableAllScoped P body
    inferInstanceAs (Decidable (e.Mentions P ∧ CasesScoped P cases ∧ AllScoped P body))
  | .loop init condition post body =>
    have := decidableAllScoped P init
    have := decidableAllScoped (fun x => P x ∨ x ∈ allBinds init) post
    have := decidableAllScoped (fun x => P x ∨ x ∈ allBinds init) body
    inferInstanceAs (Decidable (AllScoped P init ∧
      condition.Mentions (fun x => P x ∨ x ∈ allBinds init) ∧
      AllScoped (fun x => P x ∨ x ∈ allBinds init) post ∧
      AllScoped (fun x => P x ∨ x ∈ allBinds init) body))
  | .function _ params returns body =>
    have := decidableAllScoped (· ∈ params ++ returns) body
    inferInstanceAs (Decidable (AllScoped (· ∈ params ++ returns) body ∧
      (params ++ returns ++ allDeclared body).Nodup))
  | .raw _ => .isFalse fun h => h
  | .break | .continue | .leave | .comment _ => .isTrue trivial

instance Stmt.decidableAllScoped (P : String → Prop) [DecidablePred P] :
    (code : List Stmt) → Decidable (AllScoped P code)
  | [] => .isTrue trivial
  | s :: rest =>
    have := decidableScoped P s
    have := decidableAllScoped (fun x => P x ∨ x ∈ s.binds) rest
    inferInstanceAs (Decidable (s.Scoped P ∧ AllScoped (fun x => P x ∨ x ∈ s.binds) rest))

instance Stmt.decidableCasesScoped (P : String → Prop) [DecidablePred P] :
    (cases : List (Literal × List Stmt)) → Decidable (CasesScoped P cases)
  | [] => .isTrue trivial
  | (_, body) :: rest =>
    have := decidableAllScoped P body
    have := decidableCasesScoped P rest
    inferInstanceAs (Decidable (AllScoped P body ∧ CasesScoped P rest))

end

instance (f : Function) : Decidable f.Scoped :=
  inferInstanceAs (Decidable (_ ∧ _))

/-! ## Code in parts -/

section

@[simp]
theorem Stmt.allDeclared_nil : allDeclared [] = [] := by
  rw [allDeclared]

@[simp]
theorem Stmt.allDeclared_cons : allDeclared (s :: code) = s.declared ++ allDeclared code := by
  rw [allDeclared]

@[simp]
theorem Stmt.allDeclared_append :
    allDeclared (code ++ more) = allDeclared code ++ allDeclared more := by
  induction code with
  | nil => simp
  | cons s code ih => simp [ih]

theorem Stmt.allDeclared_eq_flatMap : allDeclared code = code.flatMap declared := by
  induction code with
  | nil => simp
  | cons s code ih => simp [ih]

theorem Stmt.allDeclared_map {α : Type} {f : α → Stmt} {as : List α} :
    allDeclared (as.map f) = as.flatMap fun a => (f a).declared := by
  rw [allDeclared_eq_flatMap, flatMap_map]

@[simp]
theorem Stmt.allBinds_nil : allBinds [] = [] := rfl

@[simp]
theorem Stmt.allBinds_cons : allBinds (s :: code) = s.binds ++ allBinds code :=
  flatMap_cons

@[simp]
theorem Stmt.allBinds_append : allBinds (code ++ more) = allBinds code ++ allBinds more :=
  flatMap_append

/-! ### Single statements -/

section

@[simp]
theorem Stmt.declared_letOne : (letOne x e).declared = [x] := rfl

@[simp]
theorem Stmt.declared_assignOne : (assignOne x e).declared = [] := rfl

@[simp]
theorem Stmt.declared_run : (run name args).declared = [] := rfl

@[simp]
theorem Stmt.binds_letOne : (letOne x e).binds = [x] := rfl

@[simp]
theorem Stmt.binds_assignOne : (assignOne x e).binds = [] := rfl

@[simp]
theorem Stmt.binds_run : (run name args).binds = [] := rfl

@[simp]
theorem Stmt.scoped_letOne : (letOne x e).Scoped P ↔ e.Mentions P := Iff.rfl

@[simp]
theorem Stmt.scoped_assignOne : (assignOne x e).Scoped P ↔ P x ∧ e.Mentions P :=
  and_congr_left' forall_mem_singleton

@[simp]
theorem Stmt.scoped_run : (run name args).Scoped P ↔ ∀ e ∈ args, e.Mentions P := by
  show (call name args).Mentions P ↔ _
  exact mentions_call

@[simp]
theorem Stmt.scoped_ifThen :
    (ifThen e body).Scoped P ↔ e.Mentions P ∧ AllScoped P body := Iff.rfl

end

theorem Stmt.mem_allDeclared (h : x ∈ allBinds code) : x ∈ allDeclared code := by
  obtain ⟨s, hs, hx⟩ := mem_flatMap.1 h
  have hdeclared : x ∈ s.declared := by
    cases s with
    | declare names value => simpa [declared, binds] using hx
    | _ => cases hx
  obtain ⟨front, back, rfl⟩ := append_of_mem hs
  simp [hdeclared]

@[simp]
theorem Stmt.allScoped_nil : AllScoped P [] := by
  trivial

theorem Stmt.allScoped_cons : AllScoped P (s :: code) ↔
    s.Scoped P ∧ AllScoped (fun x => P x ∨ x ∈ s.binds) code := by
  rw [AllScoped]

theorem Stmt.allScoped_append : AllScoped P (code ++ more) ↔
    AllScoped P code ∧ AllScoped (fun x => P x ∨ x ∈ allBinds code) more := by
  induction code generalizing P with
  | nil => simp
  | cons s code ih => simp [allScoped_cons, ih, and_assoc, or_assoc]

end

/-! ## More is seen -/

mutual

theorem Stmt.Scoped.mono (hPQ : ∀ x, P x → Q x) : ∀ {s : Stmt}, s.Scoped P → s.Scoped Q
  | .block body, h => show AllScoped Q body from AllScoped.mono hPQ h
  | .declare _ none, _ => trivial
  | .declare _ (some e), h => Expr.Mentions.mono hPQ (e := e) h
  | .assign _ _, h => ⟨fun x hx => hPQ x (h.1 x hx), h.2.mono hPQ⟩
  | .eval e, h => Expr.Mentions.mono hPQ (e := e) h
  | .ifThen _ _, h => ⟨h.1.mono hPQ, h.2.mono hPQ⟩
  | .switch _ _ none, h => ⟨h.1.mono hPQ, CasesScoped.mono hPQ h.2⟩
  | .switch _ _ (some _), h => ⟨h.1.mono hPQ, CasesScoped.mono hPQ h.2.1, h.2.2.mono hPQ⟩
  | .loop _ _ _ _, h =>
    ⟨h.1.mono hPQ, h.2.1.mono fun x => Or.imp_left (hPQ x), h.2.2.1.mono fun x => Or.imp_left (hPQ x),
      h.2.2.2.mono fun x => Or.imp_left (hPQ x)⟩
  | .function _ _ _ _, h | .raw _, h => h
  | .break, _ | .continue, _ | .leave, _ | .comment _, _ => trivial

theorem Stmt.AllScoped.mono (hPQ : ∀ x, P x → Q x) :
    ∀ {code : List Stmt}, AllScoped P code → AllScoped Q code
  | [], _ => trivial
  | _ :: _, h => ⟨h.1.mono hPQ, AllScoped.mono (fun x => Or.imp_left (hPQ x)) h.2⟩

theorem Stmt.CasesScoped.mono (hPQ : ∀ x, P x → Q x) :
    ∀ {cases : List (Literal × List Stmt)}, CasesScoped P cases → CasesScoped Q cases
  | [], _ => trivial
  | (_, _) :: _, h => ⟨h.1.mono hPQ, CasesScoped.mono hPQ h.2⟩

end

theorem Stmt.allScoped_of_forall (h : ∀ s ∈ code, s.Scoped P) : AllScoped P code := by
  induction code with
  | nil => exact allScoped_nil
  | cons s code ih =>
    obtain ⟨hs, hcode⟩ := forall_mem_cons.1 h
    exact allScoped_cons.2 ⟨hs, (ih hcode).mono fun _ => .inl⟩

/-! ## Loops -/

/-- The first part of a loop declares what it would declare in front of the loop. -/
theorem Stmt.declared_loop :
    (loop init c post body).declared = allDeclared (init ++ [.loop [] c post body]) := by
  simp [declared]

/-- The other parts of a loop see what they would see behind its first part. -/
theorem Stmt.scoped_loop (h : AllScoped P (init ++ [.loop [] c post body])) :
    (loop init c post body).Scoped P := by
  obtain ⟨hinit, ⟨-, hc, hpost, hbody⟩, -⟩ := allScoped_append.1 h
  have hseen : ∀ x, (P x ∨ x ∈ allBinds init) ∨ x ∈ allBinds [] →
      P x ∨ x ∈ allBinds init := fun x hx => hx.elim id (by simp)
  exact ⟨hinit, hc.mono hseen, hpost.mono hseen, hbody.mono hseen⟩

/-! ## Code without declarations -/

mutual

def Stmt.isFlat : Stmt → Bool
  | .block body => allFlat body
  | .ifThen _ body => allFlat body
  | .assign _ _ | .eval _ | .break | .continue | .leave | .comment _ => true
  | .declare _ _ | .switch _ _ _ | .loop _ _ _ _ | .function _ _ _ _ | .raw _ => false

def Stmt.allFlat : List Stmt → Bool
  | [] => true
  | s :: rest => s.isFlat && allFlat rest

end

mutual

theorem Stmt.declared_of_isFlat : ∀ {s : Stmt}, s.isFlat → s.declared = []
  | .block _, h | .ifThen _ _, h => allDeclared_of_allFlat h
  | .assign _ _, _ | .eval _, _ | .break, _ | .continue, _ | .leave, _ | .comment _, _ => rfl

theorem Stmt.allDeclared_of_allFlat : ∀ {code : List Stmt}, allFlat code → allDeclared code = []
  | [], _ => rfl
  | s :: rest, h => by
    obtain ⟨hs, hrest⟩ := Bool.and_eq_true_iff.1 h
    rw [allDeclared, declared_of_isFlat hs, allDeclared_of_allFlat hrest]
    rfl

end

mutual

/-- Where nothing is declared, what is mentioned is seen from outside. -/
theorem Stmt.Mentions.scoped : ∀ {s : Stmt}, s.isFlat → s.Mentions P → s.Scoped P
  | .block body, hs, h => show AllScoped P body from AllMention.scoped hs h
  | .ifThen _ _, hs, h => ⟨h.1, AllMention.scoped hs h.2⟩
  | .assign _ _, _, h | .eval _, _, h => h
  | .break, _, _ | .continue, _, _ | .leave, _, _ | .comment _, _, _ => trivial

theorem Stmt.AllMention.scoped :
    ∀ {code : List Stmt}, allFlat code → AllMention P code → AllScoped P code
  | [], _, _ => trivial
  | s :: rest, hcode, h => by
    obtain ⟨hs, hrest⟩ := Bool.and_eq_true_iff.1 hcode
    refine ⟨Mentions.scoped hs h.1, (AllMention.scoped hrest h.2).mono fun x => .inl⟩

end

/-! ## What scoped code mentions -/

mutual

theorem Stmt.Scoped.mentions (hPQ : ∀ x, P x → Q x) :
    ∀ {s : Stmt}, s.Scoped P → s.Mentions (fun _ => True) → (∀ x ∈ s.declared, Q x) → s.Mentions Q
  | .block _, h, hs, hd => AllScoped.mentions hPQ h hs hd
  | .declare _ none, _, _, hd => hd
  | .declare _ (some _), h, _, hd => ⟨hd, h.mono hPQ⟩
  | .assign _ _, h, _, _ => ⟨fun x hx => hPQ x (h.1 x hx), h.2.mono hPQ⟩
  | .eval e, h, _, _ => Expr.Mentions.mono hPQ (e := e) h
  | .ifThen _ _, h, hs, hd => ⟨h.1.mono hPQ, AllScoped.mentions hPQ h.2 hs.2 hd⟩
  | .switch _ _ none, h, hs, hd => ⟨h.1.mono hPQ, CasesScoped.mentions hPQ h.2 hs.2 hd⟩
  | .switch _ _ (some _), h, hs, hd => by
    obtain ⟨hcases, hbody⟩ := forall_mem_append.1 hd
    exact ⟨h.1.mono hPQ, CasesScoped.mentions hPQ h.2.1 hs.2.1 hcases,
      AllScoped.mentions hPQ h.2.2 hs.2.2 hbody⟩
  | .loop init _ _ _, h, hs, hd => by
    obtain ⟨hd, hbody⟩ := forall_mem_append.1 hd
    obtain ⟨hinit, hpost⟩ := forall_mem_append.1 hd
    have hseen : ∀ x, P x ∨ x ∈ allBinds init → Q x := fun x hx =>
      hx.elim (hPQ x) fun hx => hinit x (mem_allDeclared hx)
    exact ⟨AllScoped.mentions hPQ h.1 hs.1 hinit, h.2.1.mono hseen,
      AllScoped.mentions hseen h.2.2.1 hs.2.2.1 hpost,
      AllScoped.mentions hseen h.2.2.2 hs.2.2.2 hbody⟩
  | .comment _, _, _, _ => trivial
  | .raw _, _, hs, _ | .break, _, hs, _ | .continue, _, hs, _ | .leave, _, hs, _
  | .function _ _ _ _, _, hs, _ => hs

theorem Stmt.AllScoped.mentions (hPQ : ∀ x, P x → Q x) :
    ∀ {code : List Stmt}, AllScoped P code → AllMention (fun _ => True) code →
      (∀ x ∈ allDeclared code, Q x) → AllMention Q code
  | [], _, _, _ => trivial
  | s :: rest, h, hcode, hd => by
    obtain ⟨hs, hrest⟩ := forall_mem_append.1 (allDeclared_cons ▸ hd)
    refine ⟨Scoped.mentions hPQ h.1 hcode.1 hs, AllScoped.mentions ?_ h.2 hcode.2 hrest⟩
    rintro x (hx | hx)
    · exact hPQ x hx
    · have hbound : x ∈ allBinds [s] := by simpa using hx
      exact hs x (by simpa using mem_allDeclared hbound)

theorem Stmt.CasesScoped.mentions (hPQ : ∀ x, P x → Q x) :
    ∀ {cases : List (Literal × List Stmt)}, CasesScoped P cases →
      CasesMention (fun _ => True) cases → (∀ x ∈ casesDeclared cases, Q x) →
      CasesMention Q cases
  | [], _, _, _ => trivial
  | (_, body) :: rest, h, hcases, hd => by
    obtain ⟨hbody, hrest⟩ := forall_mem_append.1
      (show ∀ x ∈ allDeclared body ++ casesDeclared rest, Q x from hd)
    exact ⟨AllScoped.mentions hPQ h.1 hcases.1 hbody, CasesScoped.mentions hPQ h.2 hcases.2 hrest⟩

end

end ContractYul.Yul
