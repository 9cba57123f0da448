import ContractYul.Proofs.Text.Digits
import ContractYul.Proofs.Yul.Frame

/-!
# Values of expressions

`Yields` says that an expression has a word as its value and that evaluating it changes nothing.
The lemmas give the value of an instruction that reads from the values of its arguments, so that
the value of code that was put together follows from the values of its parts. A plain expression
keeps its value while its variables keep theirs and the world is the same.
-/

namespace ContractYul.Yul.Machine

variable {m : Machine} {σ : Config}

def Yields (m : Machine) (σ : Config) (e : Expr) (v : Word) : Prop :=
  m.eval e σ = .ok ([v], σ)

theorem yields_numText (htext : numberOf? text = some n) (hn : n < 2 ^ 256) :
    m.Yields σ (numText text) (BitVec.ofNat 256 n) := by
  have hword : m.context.literal (.number text) = .ok (BitVec.ofNat 256 n) := by
    have hbound : n < Nat.pow 2 256 := hn
    rw [Context.literal, htext, Option.filter_some, if_pos (decide_eq_true hbound)]
  simp [Yields, numText, eval, hword]

theorem yields_num (hn : n < 2 ^ 256) : m.Yields σ (num n) (BitVec.ofNat 256 n) :=
  yields_numText (numberOf?_toString n) hn

theorem Yields.evalOne_eq (ha : m.Yields σ a x) : m.evalOne a σ = .ok (x, σ) := by
  unfold Yields at ha
  simp [evalOne, ha, single]

theorem evalArgs_eq (h : List.Forall₂ (m.Yields σ) es vs) : m.evalArgs es σ = .ok (vs, σ) := by
  induction h with
  | nil => rw [evalArgs]
  | cons he _ ih =>
    unfold Yields at he
    simp [evalArgs, ih, he, single]

theorem eval_call (hargs : List.Forall₂ (m.Yields σ) es vs)
    (happly : m.apply name vs σ.world = .ok (rs, w)) :
    m.eval (call name es) σ = .ok (rs, { σ with world := w }) := by
  simp [call, eval, evalArgs_eq hargs, happly]

theorem apply_reading {w : World} (hname : m.context.instruction? name = some (.ofReading reading))
    (hv : reading w args = some v) : m.apply name args w = .ok ([v], w) := by
  simp [apply, hname, Action.ofReading, hv]

theorem Yields.unary {f : World → Word → Word}
    (hname : m.context.instruction? name = some (.ofReading fun w => .unary (f w)))
    (ha : m.Yields σ a x) : m.Yields σ (call name [a]) (f σ.world x) :=
  eval_call (.cons ha .nil) (apply_reading hname rfl)

theorem Yields.binary {f : World → Word → Word → Word}
    (hname : m.context.instruction? name = some (.ofReading fun w => .binary (f w)))
    (ha : m.Yields σ a x) (hb : m.Yields σ b y) :
    m.Yields σ (call name [a, b]) (f σ.world x y) :=
  eval_call (.cons ha (.cons hb .nil)) (apply_reading hname rfl)

/-! ## Bit operations -/

theorem Yields.both (ha : m.Yields σ a x) (hb : m.Yields σ b y) :
    m.Yields σ (Op.both a b) (x &&& y) :=
  .binary (f := fun _ => BitVec.and) rfl ha hb

theorem Yields.either (ha : m.Yields σ a x) (hb : m.Yields σ b y) :
    m.Yields σ (Op.either a b) (x ||| y) :=
  .binary (f := fun _ => BitVec.or) rfl ha hb

theorem Yields.complement (ha : m.Yields σ a x) : m.Yields σ (Op.complement a) (~~~x) :=
  .unary (f := fun _ => BitVec.not) rfl ha

theorem Yields.shr (hbits : bits < 2 ^ 256) (he : m.Yields σ e x) :
    m.Yields σ (Op.shr (num bits) e) (x >>> bits) := by
  have hnum : m.Yields σ (num bits) (BitVec.ofNat 256 bits) := yields_num hbits
  have hshift : m.Yields σ (Op.shr (num bits) e) (Word.shr (BitVec.ofNat 256 bits) x) :=
    .binary (f := fun _ => Word.shr) rfl hnum he
  rwa [Word.shr, BitVec.toNat_ofNat, Nat.mod_eq_of_lt hbits] at hshift

theorem Yields.shl (hbits : bits ≤ 256) (he : m.Yields σ e x) :
    m.Yields σ (Op.shl (num bits) e) (x <<< bits) := by
  have hnum : m.Yields σ (num bits) (BitVec.ofNat 256 bits) := yields_num (by omega)
  have hshift : m.Yields σ (Op.shl (num bits) e) (Word.shl (BitVec.ofNat 256 bits) x) :=
    .binary (f := fun _ => Word.shl) rfl hnum he
  rwa [Word.shl, BitVec.toNat_ofNat, Nat.mod_eq_of_lt (by omega)] at hshift

/-! ## Variables and literals -/

theorem yields_ident {x : String} : m.Yields σ (ident x) w ↔ σ.vars x = some w := by
  unfold Yields ident
  rw [eval]
  cases σ.vars x <;> simp

theorem yields_literal : m.Yields σ (.literal l) w ↔ m.context.literal l = .ok w := by
  unfold Yields
  rw [eval]
  cases m.context.literal l <;> simp

/-! ## Statements -/

theorem exec_letOne_eval (he : m.eval e σ = .ok ([v], τ)) :
    m.exec (.letOne var e) σ = .ok (.next, τ.set var v) := by
  simp [Stmt.letOne, exec, he, Config.bind, Config.setAll]

theorem exec_letOne {x : String} (hw : m.Yields σ e w) :
    m.exec (.letOne x e) σ = .ok (.next, σ.set x w) :=
  exec_letOne_eval hw

theorem exec_assignOne_eval (he : m.eval e σ = .ok ([v], τ)) (hvar : (τ.vars var).isSome) :
    m.exec (.assignOne var e) σ = .ok (.next, τ.set var v) := by
  simp [Stmt.assignOne, exec, he, Config.assign, Config.bind, Config.setAll, hvar]

theorem exec_assignOne {x : String} (hx : σ.vars x = some v) (hw : m.Yields σ e w) :
    m.exec (.assignOne x e) σ = .ok (.next, σ.set x w) :=
  exec_assignOne_eval hw (by simp [hx])

theorem exec_eval (he : m.eval e σ = .ok ([], τ)) : m.exec (.eval e) σ = .ok (.next, τ) := by
  simp [exec, he]

/-! ## Plain expressions -/

section

/-- A plain expression has the same value wherever its variables have the same values. -/
theorem yields_of_agree (hm : m.Quiet) (he : e.Plain P) (h : σ'.Agree P σ) (hw : m.Yields σ e w) :
    m.Yields σ' e w := by
  have hsame := same_eval (m := m) he.mentions h
  have hends := ends_eval (σ := σ') hm he
  rw [show m.eval e σ = _ from hw] at hsame
  obtain ⟨⟨_, σ''⟩, heval, ⟨rfl, -⟩, -⟩ := hsame.exists_ok
  rw [heval] at hends
  obtain rfl : σ'' = σ' := hends
  exact heval

/-- A plain expression has a value and changes nothing, or its evaluation has no meaning here. -/
theorem evalOne_plain (hm : m.Quiet) (he : e.Plain P) :
    (∃ w, m.Yields σ e w ∧ m.evalOne e σ = .ok (w, σ)) ∨
      m.evalOne e σ = .error .stuck ∨ m.evalOne e σ = .error .exhausted := by
  have hends := ends_eval (σ := σ) hm he
  unfold evalOne Yields
  cases heval : m.eval e σ with
  | error stop =>
    rw [heval] at hends
    cases stop with
    | halted how world => exact hends.elim
    | stuck => exact .inr (.inl rfl)
    | exhausted => exact .inr (.inr rfl)
  | ok r =>
    obtain ⟨rs, σ'⟩ := r
    rw [heval] at hends
    obtain rfl : σ' = σ := hends
    -- a call of a function may have no result, or several
    rcases rs with _ | ⟨w, _ | ⟨w', rs⟩⟩
    · exact .inr (.inl rfl)
    · exact .inl ⟨w, rfl, rfl⟩
    · exact .inr (.inl rfl)

end

end ContractYul.Yul.Machine
