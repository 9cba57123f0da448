import ContractYul.Proofs.Yul.Machine
import ContractYul.Yul.Op

/-!
# Variables of code

Which variables a piece of code mentions and which it gives values to, read off its text. The code
of an expression has no jumps, and `Stmt.Mentions` leaves them out.
-/

namespace ContractYul.Yul

open Stmt

/-! ## Expressions -/

mutual

def Expr.Mentions (P : String → Prop) : Expr → Prop
  | .literal _ => True
  | .ident x => P x
  | .call _ args => Expr.AllMention P args

def Expr.AllMention (P : String → Prop) : List Expr → Prop
  | [] => True
  | e :: rest => e.Mentions P ∧ Expr.AllMention P rest

end

def quietNames : List String :=
  "string_equal" :: readingNames

section

theorem Expr.allMention_iff : Expr.AllMention P es ↔ ∀ e ∈ es, e.Mentions P := by
  induction es with
  | nil => simp [AllMention]
  | cons e es ih => simp [AllMention, ih]

@[simp]
theorem mentions_call : (call name args).Mentions P ↔ ∀ e ∈ args, e.Mentions P := by
  simp [call, Expr.Mentions, Expr.allMention_iff]

@[simp]
theorem mentions_ident : (ident x).Mentions P ↔ P x := Iff.rfl

@[simp]
theorem mentions_num : (num n).Mentions P := trivial

@[simp]
theorem mentions_numText : (numText text).Mentions P := trivial

mutual

theorem Expr.mentions_any : ∀ e : Expr, e.Mentions fun _ => True
  | .literal _ | .ident _ => trivial
  | .call _ args => show Expr.AllMention _ args from Expr.allMention_any args

theorem Expr.allMention_any : ∀ es : List Expr, Expr.AllMention (fun _ => True) es
  | [] => trivial
  | e :: es => ⟨e.mentions_any, Expr.allMention_any es⟩

end

/-! ### Weaker conditions -/

mutual

theorem Expr.Mentions.mono (hPQ : ∀ x, P x → Q x) : ∀ {e : Expr}, e.Mentions P → e.Mentions Q
  | .literal _, _ => trivial
  | .ident x, h => hPQ x h
  | .call _ args, h => show Expr.AllMention Q args from Expr.AllMention.mono hPQ h

theorem Expr.AllMention.mono (hPQ : ∀ x, P x → Q x) :
    ∀ {es : List Expr}, Expr.AllMention P es → Expr.AllMention Q es
  | [], _ => trivial
  | _ :: _, h => ⟨h.1.mono hPQ, Expr.AllMention.mono hPQ h.2⟩

end

end

/-! ## Statements -/

mutual

/-- Every variable of a statement satisfies `P`, and control goes on behind it; it defines no function,
and of a text taken as it is nothing is known. -/
def Stmt.Mentions (P : String → Prop) : Stmt → Prop
  | .block body => AllMention P body
  | .declare names none => ∀ x ∈ names, P x
  | .declare names (some e) => (∀ x ∈ names, P x) ∧ e.Mentions P
  | .assign names e => (∀ x ∈ names, P x) ∧ e.Mentions P
  | .eval e => e.Mentions P
  | .ifThen condition body => condition.Mentions P ∧ AllMention P body
  | .switch e cases none => e.Mentions P ∧ CasesMention P cases
  | .switch e cases (some body) =>
    e.Mentions P ∧ CasesMention P cases ∧ AllMention P body
  | .loop init condition post body =>
    AllMention P init ∧ condition.Mentions P ∧ AllMention P post ∧
      AllMention P body
  | .raw _ | .break | .continue | .leave | .function _ _ _ _ => False
  | .comment _ => True

def Stmt.AllMention (P : String → Prop) : List Stmt → Prop
  | [] => True
  | s :: rest => s.Mentions P ∧ AllMention P rest

def Stmt.CasesMention (P : String → Prop) : List (Literal × List Stmt) → Prop
  | [] => True
  | (_, body) :: rest => AllMention P body ∧ CasesMention P rest

end

mutual

def Stmt.written : Stmt → List String
  | .block body => allWritten body
  | .declare names _ => names
  | .assign names _ => names
  | .ifThen _ body => allWritten body
  | .switch _ cases none => casesWritten cases
  | .switch _ cases (some body) => casesWritten cases ++ allWritten body
  | .loop init _ post body => allWritten init ++ allWritten post ++ allWritten body
  | .eval _ | .break | .continue | .leave | .function _ _ _ _ | .raw _ | .comment _ => []

def Stmt.allWritten : List Stmt → List String
  | [] => []
  | s :: rest => s.written ++ allWritten rest

def Stmt.casesWritten : List (Literal × List Stmt) → List String
  | [] => []
  | (_, body) :: rest => allWritten body ++ casesWritten rest

end

section

theorem Stmt.allMention_iff : AllMention P ss ↔ ∀ s ∈ ss, s.Mentions P := by
  induction ss with
  | nil => simp [AllMention]
  | cons s ss ih => simp [AllMention, ih]

@[simp]
theorem Stmt.allMention_append : AllMention P (ss ++ ts) ↔ AllMention P ss ∧ AllMention P ts := by
  simp only [allMention_iff, List.forall_mem_append]

mutual

theorem Stmt.Mentions.mono (hPQ : ∀ x, P x → Q x) : ∀ {s : Stmt}, s.Mentions P → s.Mentions Q
  | .block body, h => show AllMention Q body from AllMention.mono hPQ h
  | .declare _ none, h => fun x hx => hPQ x (h x hx)
  | .declare _ (some _), h => ⟨fun x hx => hPQ x (h.1 x hx), h.2.mono hPQ⟩
  | .assign _ _, h => ⟨fun x hx => hPQ x (h.1 x hx), h.2.mono hPQ⟩
  | .eval e, h => Expr.Mentions.mono hPQ (e := e) h
  | .ifThen _ _, h => ⟨h.1.mono hPQ, h.2.mono hPQ⟩
  | .switch _ _ none, h => ⟨h.1.mono hPQ, CasesMention.mono hPQ h.2⟩
  | .switch _ _ (some _), h =>
    ⟨h.1.mono hPQ, CasesMention.mono hPQ h.2.1, h.2.2.mono hPQ⟩
  | .loop _ _ _ _, h =>
    ⟨h.1.mono hPQ, h.2.1.mono hPQ, h.2.2.1.mono hPQ, h.2.2.2.mono hPQ⟩
  | .raw _, h | .break, h | .continue, h | .leave, h | .function _ _ _ _, h => h
  | .comment _, _ => trivial

theorem Stmt.AllMention.mono (hPQ : ∀ x, P x → Q x) :
    ∀ {ss : List Stmt}, AllMention P ss → AllMention Q ss
  | [], _ => trivial
  | _ :: _, h => ⟨h.1.mono hPQ, AllMention.mono hPQ h.2⟩

theorem Stmt.CasesMention.mono (hPQ : ∀ x, P x → Q x) :
    ∀ {cases : List (Literal × List Stmt)}, CasesMention P cases → CasesMention Q cases
  | [], _ => trivial
  | (_, _) :: _, h => ⟨h.1.mono hPQ, CasesMention.mono hPQ h.2⟩

end

mutual

theorem Stmt.Mentions.written : ∀ {s : Stmt}, s.Mentions P → ∀ x ∈ s.written, P x
  | .block body, h => show ∀ x ∈ allWritten body, P x from AllMention.written h
  | .declare _ none, h => h
  | .declare _ (some _), h => h.1
  | .assign _ _, h => h.1
  | .ifThen _ _, h => h.2.written
  | .switch _ _ none, h => CasesMention.written h.2
  | .switch _ _ (some _), h => by
    simp only [written, List.forall_mem_append]
    exact ⟨CasesMention.written h.2.1, h.2.2.written⟩
  | .loop _ _ _ _, h => by
    simp only [written, List.forall_mem_append]
    exact ⟨⟨h.1.written, h.2.2.1.written⟩, h.2.2.2.written⟩
  | .eval _, _ | .break, _ | .continue, _ | .leave, _ | .function _ _ _ _, _ | .raw _, _
  | .comment _, _ => by simp [written]

theorem Stmt.AllMention.written :
    ∀ {ss : List Stmt}, AllMention P ss → ∀ x ∈ allWritten ss, P x
  | [], _ => by simp [allWritten]
  | _ :: _, h => by
    simp only [allWritten, List.forall_mem_append]
    exact ⟨h.1.written, AllMention.written h.2⟩

theorem Stmt.CasesMention.written :
    ∀ {cases : List (Literal × List Stmt)}, CasesMention P cases →
      ∀ x ∈ casesWritten cases, P x
  | [], _ => by simp [casesWritten]
  | (_, _) :: _, h => by
    simp only [casesWritten, List.forall_mem_append]
    exact ⟨h.1.written, CasesMention.written h.2⟩

end

end

end ContractYul.Yul
