import ContractYul.Proofs.Lowering.Guarded
import ContractYul.Proofs.Lowering.Order

/-!
# Loops

What the loops of the target do, in terms of the code of their parts.

A loop that checks its condition first has the condition in its header, or, where the condition needs
statements of its own, at the top of its body. Both forms go the same rounds: test, body, update. A
loop that checks its condition last has the test at the end of its body. A `continue` leads past it:
the next round starts and nothing is tested.
-/

namespace ContractYul.Lowering

open Outcome
open Yul (Machine Config Flow Effect Run Word num inBlock andThen iterate)

structure LoopCode where
  init : List Yul.Stmt
  /-- Statements that the condition needs. -/
  prelude : List Yul.Stmt
  condition : Yul.Expr
  body : List Yul.Stmt
  post : List Yul.Stmt

namespace LoopCode

def testedFirst (l : LoopCode) : Yul.Stmt :=
  if l.prelude.isEmpty then .loop l.init l.condition l.post l.body
  else .loop l.init (num 1) l.post (l.prelude ++ [breakUnless l.condition] ++ l.body)

def testedLast (l : LoopCode) : Yul.Stmt :=
  .loop [] (num 1) [] (l.body ++ l.prelude ++ [breakUnless l.condition])

/-! ## Rounds -/

def test (m : Machine) (l : LoopCode) (σ : Config) : Run (Word × Config) := do
  let (_, σ) ← m.execAll l.prelude σ
  m.evalOne l.condition σ

/-- Where a round of a loop leads: a `break` ends the loop, a `continue` only the round. -/
def afterRound (next : Effect) (flow : Flow) : Effect := fun σ =>
  match flow with
  | .break => .ok (.next, σ)
  | .leave => .ok (.leave, σ)
  | .next | .continue => next σ

/-- Rounds of a loop that tests first. What a round declares ends with it. -/
def rounds (m : Machine) (l : LoopCode) : Nat → Effect
  | 0, _ => .error .exhausted
  | n + 1, σ => do
    let (v, σ₁) ← l.test m σ
    if v = 0#256 then return (.next, σ₁.leave σ)
    else
      let (flow, σ₂) ← m.execAll l.body σ₁
      afterRound (andThen (inBlock (m.execAll l.post)) (rounds m l n)) flow (σ₂.leave σ)

/-- Rounds of a loop that tests last: after a body that ends by itself, and after one that ends by
`continue` if `always`. -/
def roundsLast (m : Machine) (l : LoopCode) (always : Bool) : Nat → Effect
  | 0, _ => .error .exhausted
  | n + 1, σ => do
    let (flow, σ₁) ← m.execAll l.body σ
    if flow = .next ∨ flow = .continue ∧ always then
      let (v, σ₂) ← l.test m σ₁
      if v = 0#256 then return (.next, σ₂.leave σ) else roundsLast m l always n (σ₂.leave σ)
    else afterRound (roundsLast m l always n) flow (σ₁.leave σ)

/-! ## Runs of the parts -/

variable {m : Machine} {l : LoopCode}

/-- Whether a word is zero, behind any code that gives the word. -/
theorem evalOne_isZero (c : Yul.Expr) (σ : Config) :
    m.evalOne (Yul.Op.isZero c) σ = m.evalOne c σ >>= fun r =>
      .ok (Word.ofBool (r.1 == 0#256), r.2) := by
  have happly : ∀ (v : Word) (w : Yul.World), m.apply "iszero" [v] w =
      .ok ([Word.ofBool (v == 0#256)], w) := by
    intro v w
    have hreading : m.context.instruction? "iszero" =
        some (.ofReading fun _ => .unary fun a => .ofBool (a == 0#256)) := rfl
    exact Machine.apply_reading hreading rfl
  simp only [Machine.evalOne, Yul.Op.isZero, Yul.call, Machine.eval, Machine.evalArgs, bind,
    Except.bind, pure, Except.pure]
  rcases m.eval c σ with stop | ⟨rs, σ₁⟩
  · rfl
  · simp only
    rcases Yul.single rs with stop | v
    · rfl
    · simp [happly, Yul.single]

/-- The loop is left where the condition does not hold. -/
theorem exec_breakUnless (c : Yul.Expr) (σ : Config) :
    m.exec (breakUnless c) σ = m.evalOne c σ >>= fun r =>
      .ok (if r.1 = 0#256 then .break else .next, r.2) := by
  rw [breakUnless, Machine.exec, evalOne_isZero]
  rcases m.evalOne c σ with stop | ⟨v, σ₁⟩
  · rfl
  · by_cases hv : v = 0#256
    · subst hv
      show inBlock (m.execAll [.break]) σ₁ = .ok (.break, σ₁)
      exact congrArg (fun σ => Except.ok (Flow.break, σ)) (Config.leave_of_vars fun _ hx => hx)
    · have hzero : Word.ofBool (v == 0#256) = 0#256 := by
        rw [beq_false_of_ne hv]
        rfl
      simp [hzero, hv]

/-- Control goes on behind the statements of the condition. -/
def Plain (l : LoopCode) : Prop :=
  Yul.Stmt.AllMention (fun _ => True) l.prelude

theorem Plain.execAll_test (hl : l.Plain) (σ : Config) :
    m.execAll (l.prelude ++ [breakUnless l.condition]) σ = l.test m σ >>= fun r =>
      .ok (if r.1 = 0#256 then .break else .next, r.2) := by
  rw [Machine.execAll_append, andThen, Machine.execAll_singleton, test]
  cases hprelude : m.execAll l.prelude σ with
  | error stop => rfl
  | ok r =>
    obtain ⟨flow, σ₁⟩ := r
    obtain rfl : flow = .next := (Machine.execAll_goesOn hl hprelude).1
    exact exec_breakUnless l.condition σ₁

/-- A round of a loop without a condition in its header. -/
theorem iterate_one (post body : Effect) (n : Nat) (σ : Config) :
    iterate (m.evalOne (num 1)) post (inBlock body) (n + 1) σ = body σ >>= fun r =>
      afterRound (andThen post (iterate (m.evalOne (num 1)) post (inBlock body) n)) r.1
        (r.2.leave σ) := by
  have hone : m.evalOne (num 1) σ = .ok (1#256, σ) := (Machine.yields_num (by decide)).evalOne_eq
  show (inBlock body σ >>= _) = _
  unfold inBlock
  rcases body σ with stop | ⟨flow, σ₁⟩
  · rfl
  · cases flow <;> rfl

/-! ## Loops that test first -/

theorem iterate_header (h : l.prelude = []) (n : Nat) :
    iterate (m.evalOne l.condition) (inBlock (m.execAll l.post)) (inBlock (m.execAll l.body)) n =
      l.rounds m n := by
  induction n with
  | zero => rfl
  | succ n ih =>
    funext σ
    have htest : l.test m σ = m.evalOne l.condition σ := by
      rw [test, h]
      rfl
    rw [iterate, rounds, htest, ih]
    cases hcondition : m.evalOne l.condition σ with
    | error stop => rfl
    | ok r =>
      obtain ⟨v, σ₁⟩ := r
      -- evaluating the condition declares nothing, so the body is left to the same variables
      have hvars : σ₁.vars = σ.vars := Machine.vars_evalOne hcondition
      have hleave : σ₁.leave σ = σ₁ := Config.leave_of_vars fun x hx => hvars ▸ hx
      have houter : ∀ σ₂ : Config, σ₂.leave σ₁ = σ₂.leave σ := by
        intro σ₂
        rw [Config.leave, Config.leave, hvars]
      by_cases hv : v = 0#256
      · simp [hv, hleave]
      · simp only [bind, Except.bind, if_neg hv, inBlock]
        rcases m.execAll l.body σ₁ with stop | ⟨flow, σ₂⟩
        · rfl
        · simp only [houter]
          cases flow <;> rfl

theorem Plain.iterate_top (hl : l.Plain) (n : Nat) :
    iterate (m.evalOne (num 1)) (inBlock (m.execAll l.post))
      (inBlock (m.execAll (l.prelude ++ [breakUnless l.condition] ++ l.body))) n =
      l.rounds m n := by
  induction n with
  | zero => rfl
  | succ n ih =>
    funext σ
    rw [iterate_one, ih, rounds, Machine.execAll_append, andThen, hl.execAll_test]
    rcases l.test m σ with stop | ⟨v, σ₁⟩
    · rfl
    · by_cases hv : v = 0#256
      · simp [hv, afterRound]
      · simp [hv]

/-- The loop keeps its meaning: the initial part runs once, and then, round after round, the condition
is tested with all its statements, the body runs, and the update. -/
def GoesRounds (l : LoopCode) : Prop :=
  ∀ (m : Machine) (σ : Config), m.exec l.testedFirst σ =
    inBlock (andThen (m.execAll l.init) (l.rounds m m.rounds)) σ

theorem Plain.goesRounds (hl : l.Plain) : l.GoesRounds := by
  intro m σ
  unfold testedFirst
  split
  · rename_i hprelude
    rw [Machine.exec, iterate_header (List.isEmpty_iff.1 hprelude)]
  · rw [Machine.exec, hl.iterate_top]

/-! ## Loops that test last -/

/-- The test at the end of the body is made after a body that ends by itself. -/
theorem Plain.iterate_bottom (hl : l.Plain) (n : Nat) :
    iterate (m.evalOne (num 1)) (inBlock (m.execAll []))
      (inBlock (m.execAll (l.body ++ l.prelude ++ [breakUnless l.condition]))) n =
      l.roundsLast m false n := by
  have hpost : ∀ next : Effect, andThen (inBlock (m.execAll [])) next = next := by
    intro next
    funext σ
    have hleave : σ.leave σ = σ := Config.leave_of_vars fun _ hx => hx
    simp [andThen, inBlock, Machine.execAll, hleave]
  induction n with
  | zero => rfl
  | succ n ih =>
    funext σ
    rw [iterate_one, ih, hpost, roundsLast, List.append_assoc, Machine.execAll_append, andThen]
    rcases m.execAll l.body σ with stop | ⟨flow, σ₁⟩
    · rfl
    · cases flow with
      | next =>
        simp only [bind, Except.bind, hl.execAll_test]
        rcases l.test m σ₁ with stop | ⟨v, σ₂⟩
        · rfl
        · by_cases hv : v = 0#256 <;> simp [hv, afterRound]
      | «break» | «continue» | leave => rfl

theorem roundsLast_of_no_continue (h : ∀ σ σ', m.execAll l.body σ ≠ .ok (.continue, σ'))
    (n : Nat) : l.roundsLast m false n = l.roundsLast m true n := by
  induction n with
  | zero => rfl
  | succ n ih =>
    funext σ
    rw [roundsLast, roundsLast, ih]
    cases hbody : m.execAll l.body σ with
    | error stop => rfl
    | ok r =>
      obtain ⟨flow, σ₁⟩ := r
      cases flow with
      | «continue» => exact absurd hbody (h σ σ₁)
      | next | «break» | leave => rfl

/-- The loop tests its condition after each body that ends by itself, and ends when the condition is
zero. A body that ends by `continue` is followed by the next one; where none does, each body is
followed by a test. -/
def TestsAtEnd (l : LoopCode) : Prop :=
  ∀ (m : Machine) (σ : Config),
    m.exec l.testedLast σ = inBlock (l.roundsLast m false m.rounds) σ ∧
    ((∀ σ₁ σ₂, m.execAll l.body σ₁ ≠ .ok (.continue, σ₂)) →
      m.exec l.testedLast σ = inBlock (l.roundsLast m true m.rounds) σ)

theorem Plain.testsAtEnd (hl : l.Plain) : l.TestsAtEnd := by
  intro m σ
  have hinit : ∀ next : Effect, andThen (m.execAll []) next = next := by
    intro next
    funext σ
    simp [andThen, Machine.execAll]
  have hrounds : m.exec l.testedLast σ = inBlock (l.roundsLast m false m.rounds) σ := by
    rw [testedLast, Machine.exec, hl.iterate_bottom, hinit]
  refine ⟨hrounds, fun hbody => ?_⟩
  rw [hrounds, roundsLast_of_no_continue hbody]

/-! ## Lowering a loop -/

/-- The condition of a loop; one that is left out always holds. -/
def conditionOf : Option Source.Expr → Lower Value
  | none => return ⟨num 1, .bool⟩
  | some c => (operand c).value

def updateOf : Option Source.Expr → Lower Unit
  | none => pure ()
  | some e => (operand e).discard

/-- The code of a loop has the code of its initial part, of its condition, of its update and of its
body, which are lowered in this order. -/
def WrittenFirst (env : Env) (st : State) (init : Option Source.Stmt)
    (condition update : Option Source.Expr) (body : List Source.Stmt) (l : LoopCode) : Prop :=
  ∃ (c : Value) (st₁ st₂ st₃ st₄ : State),
    collect (lowerOption init) env st = .ok ((l.init, ()), st₁) ∧
    collect (conditionOf condition) env st₁ = .ok ((l.prelude, c), st₂) ∧ l.condition = c.expr ∧
    collect (updateOf update) env st₂ = .ok ((l.post, ()), st₃) ∧
    blockOf (lowerAll body) env st₃ = .ok (l.body, st₄)

def WrittenLast (env : Env) (st : State) (body : List Source.Stmt) (condition : Source.Expr)
    (l : LoopCode) : Prop :=
  ∃ (c : Value) (st₁ st₂ : State),
    blockOf (lowerAll body) env st = .ok (l.body, st₁) ∧
    collect (operand condition).value env st₁ = .ok ((l.prelude, c), st₂) ∧ l.condition = c.expr

section

variable {condition : Option Source.Expr}

theorem plain_of_value (h : collect (operand c).value env st = .ok ((l.prelude, v), st')) :
    l.Plain := by
  have hst : (⟨st.naming False False, st.progress, [], fun _ => False⟩ : Stage).Describes st :=
    ⟨State.describes_naming False.elim, rfl⟩
  have hc : (operand c).Sound env := Writes.sound_operand
  obtain ⟨κ, hstep, -, hwrite, -⟩ := Lowers.collect Lowers.stays_plainValue hc.value st _ st' hst h
  exact hwrite.flow.resolve_left hstep.le.naming.jumps.mp

theorem WrittenFirst.plain {init : Option Source.Stmt} {update : Option Source.Expr}
    {body : List Source.Stmt} (h : l.WrittenFirst env st init condition update body) :
    l.Plain := by
  obtain ⟨v, st₁, st₂, -, -, -, hcondition, -, -, -⟩ := h
  cases condition with
  | none =>
    obtain ⟨hparts, -⟩ := pair_inj hcondition
    obtain ⟨hprelude, -⟩ := Prod.mk.inj hparts
    rw [Plain, ← hprelude]
    trivial
  | some c => exact plain_of_value hcondition

theorem WrittenLast.plain {body : List Source.Stmt} (h : l.WrittenLast env st body c) :
    l.Plain := by
  obtain ⟨v, st₁, st₂, -, hcondition, -⟩ := h
  exact plain_of_value hcondition

theorem code_of_collect {m : Lower α} (h : collect m env st = .ok (r, st')) :
    st'.code = st.code := by
  obtain ⟨st₁, -, -, rfl⟩ := collect_eq_ok.1 h
  rfl

/-- The header of a loop that tests first, and what its body starts with. -/
theorem exists_of_loopCondition (h : loopCondition (condition.map operand) env st = .ok (r, st')) :
    ∃ prelude c, collect (conditionOf condition) env st = .ok ((prelude, c), st') ∧
      ∀ init post body, Yul.Stmt.loop init r.1 post (r.2 ++ body) =
        testedFirst ⟨init, prelude, c.expr, body, post⟩ := by
  cases condition with
  | none =>
    cases h
    exact ⟨[], _, rfl, fun _ _ _ => rfl⟩
  | some c =>
    obtain ⟨⟨prelude, v⟩, st₁, hcollect, h⟩ := exists_of_bind h
    refine ⟨prelude, v, ?_⟩
    cases prelude with
    | nil =>
      cases h
      exact ⟨hcollect, fun _ _ _ => rfl⟩
    | cons s prelude =>
      cases h
      exact ⟨hcollect, fun _ _ _ => rfl⟩

theorem exists_of_whileLoop {body : List Source.Stmt}
    (h : whileLoop (operand c) (lowerAll body) env st = .ok ((), st')) :
    ∃ l : LoopCode, l.WrittenFirst env st none (some c) none body ∧
      st'.code = st.code ++ [l.testedFirst] := by
  obtain ⟨⟨header, head⟩, st₁, hcondition, h⟩ := exists_of_bind h
  have hcondition : loopCondition ((some c).map operand) env st = _ := hcondition
  obtain ⟨prelude, v, hcollect, hloop⟩ := exists_of_loopCondition hcondition
  obtain ⟨code, st₂, hbody, h⟩ := exists_of_bind h
  cases h
  refine ⟨⟨[], prelude, v.expr, code, []⟩, ⟨v, st, st₁, st₁, st₂, ?_, hcollect, rfl, ?_, hbody⟩, ?_⟩
  · rfl
  · rfl
  · show st₂.code ++ _ = _
    rw [hloop, code_of_blockOf hbody, code_of_collect hcollect]

theorem exists_of_forLoop {init : Option Source.Stmt} {update : Option Source.Expr}
    {body : List Source.Stmt}
    (h : forLoop (lowerOption init) (condition.map operand) (update.map operand) (lowerAll body)
      env st = .ok ((), st')) :
    ∃ l : LoopCode, l.WrittenFirst env { st with scopes := [] :: st.scopes, code := [] } init
        condition update body ∧ st'.code = st.code ++ [l.testedFirst] := by
  obtain ⟨⟨code, _⟩, st₀, hscope, h⟩ := exists_of_bind h
  obtain ⟨st₅, hloop, hcode, rfl⟩ := inScope_eq_ok.1 hscope
  obtain ⟨⟨start, _⟩, st₁, hinit, hloop⟩ := exists_of_bind hloop
  obtain ⟨⟨header, head⟩, st₂, hcondition, hloop⟩ := exists_of_bind hloop
  obtain ⟨prelude, v, hcollect, hheader⟩ := exists_of_loopCondition hcondition
  obtain ⟨⟨post, _⟩, st₃, hupdate, hloop⟩ := exists_of_bind hloop
  obtain ⟨inner, st₄, hbody, hloop⟩ := exists_of_bind hloop
  cases hloop
  cases h
  refine ⟨⟨start, prelude, v.expr, inner, post⟩,
    ⟨v, st₁, st₂, st₃, st₄, hinit, hcollect, rfl, ?_, hbody⟩, ?_⟩
  · cases update <;> exact hupdate
  · rw [show code = _ from hcode]
    show st.code ++ (st₄.code ++ _) = _
    rw [hheader, code_of_blockOf hbody, code_of_collect hupdate, code_of_collect hcollect,
      code_of_collect hinit]
    rfl

theorem exists_of_doWhileLoop {c : Source.Expr} {body : List Source.Stmt}
    (h : doWhileLoop (lowerAll body) (operand c) env st = .ok ((), st')) :
    ∃ l : LoopCode, l.WrittenLast env st body c ∧ st'.code = st.code ++ [l.testedLast] := by
  obtain ⟨code, st₁, hbody, h⟩ := exists_of_bind h
  obtain ⟨⟨prelude, v⟩, st₂, hcollect, h⟩ := exists_of_bind h
  cases h
  refine ⟨⟨[], prelude, v.expr, code, []⟩, ⟨v, st₁, st₂, hbody, hcollect, rfl⟩, ?_⟩
  show st₂.code ++ _ = _
  rw [code_of_collect hcollect, code_of_blockOf hbody, testedLast]

end

end LoopCode

/-! ## Loops of the source -/

section

variable {env : Env} {st st' : State}

/-- A `while` and a `for` keep their meaning, wherever their condition is tested. -/
theorem loops_go_rounds :
    (∀ condition body, lowerStmt (.whileLoop condition body) env st = .ok ((), st') →
      ∃ l : LoopCode,
        l.WrittenFirst env { st with code := st.code ++ remark env "loop" } none (some condition) none
          body ∧
        st'.code = st.code ++ remark env "loop" ++ [l.testedFirst] ∧ l.GoesRounds) ∧
    ∀ init condition update body,
      lowerStmt (.forLoop init condition update body) env st = .ok ((), st') →
      ∃ l : LoopCode,
        l.WrittenFirst env { st with scopes := [] :: st.scopes, code := [] } init condition update
          body ∧
        st'.code = st.code ++ remark env "loop" ++ [l.testedFirst] ∧ l.GoesRounds := by
  constructor
  · intro condition body h
    rw [lowerStmt] at h
    obtain ⟨l, hwritten, hcode⟩ := LoopCode.exists_of_whileLoop (of_commented h)
    exact ⟨l, hwritten, hcode, hwritten.plain.goesRounds⟩
  · intro init condition update body h
    rw [lowerStmt] at h
    obtain ⟨l, hwritten, hcode⟩ := LoopCode.exists_of_forLoop (of_commented h)
    exact ⟨l, hwritten, hcode, hwritten.plain.goesRounds⟩

/-- A loop with an assignment for its condition has the test in its body, one with a comparison has it
in its header. -/
theorem loops_go_rounds_assigning :
    (∃ st', lowerStmt (.whileLoop (.assign .assign (.ident "x") (.ident "y")) [.continueLoop])
        emptyEnv twoVariables = .ok ((), st') ∧ ∃ l : LoopCode,
      l.WrittenFirst emptyEnv
        { twoVariables with code := twoVariables.code ++ remark emptyEnv "loop" } none
        (some (.assign .assign (.ident "x") (.ident "y"))) none [.continueLoop] ∧
      st'.code = twoVariables.code ++ remark emptyEnv "loop" ++ [l.testedFirst] ∧ l.GoesRounds) ∧
    ∃ st', lowerStmt (.forLoop none (some (.binary .eq (.ident "x") (.ident "y")))
        (some (.assign .assign (.ident "x") (.ident "y"))) [.breakLoop])
        emptyEnv twoVariables = .ok ((), st') ∧ ∃ l : LoopCode,
      l.WrittenFirst emptyEnv { twoVariables with scopes := [] :: twoVariables.scopes, code := [] }
        none (some (.binary .eq (.ident "x") (.ident "y")))
        (some (.assign .assign (.ident "x") (.ident "y"))) [.breakLoop] ∧
      st'.code = twoVariables.code ++ remark emptyEnv "loop" ++ [l.testedFirst] ∧ l.GoesRounds := by
  constructor
  · obtain ⟨⟨_, st'⟩, h, -⟩ := exists_of_map_toOption
      (show (lowerStmt (.whileLoop (.assign .assign (.ident "x") (.ident "y")) [.continueLoop])
        emptyEnv twoVariables).toOption.map (·.2.counter) = some 0 by decide +kernel)
    exact ⟨st', h, loops_go_rounds.1 _ _ h⟩
  · obtain ⟨⟨_, st'⟩, h, -⟩ := exists_of_map_toOption
      (show (lowerStmt (.forLoop none (some (.binary .eq (.ident "x") (.ident "y")))
        (some (.assign .assign (.ident "x") (.ident "y"))) [.breakLoop])
        emptyEnv twoVariables).toOption.map (·.2.counter) = some 0 by decide +kernel)
    exact ⟨st', h, loops_go_rounds.2 _ _ _ _ h⟩

/-- A `do` tests its condition after each body that ends by itself. -/
theorem doWhile_tests_at_end {body : List Source.Stmt} {condition : Source.Expr}
    (h : lowerStmt (.doWhile body condition) env st = .ok ((), st')) :
    ∃ l : LoopCode,
      l.WrittenLast env { st with code := st.code ++ remark env "loop" } body condition ∧
      st'.code = st.code ++ remark env "loop" ++ [l.testedLast] ∧ l.TestsAtEnd := by
  rw [lowerStmt] at h
  obtain ⟨l, hwritten, hcode⟩ := LoopCode.exists_of_doWhileLoop (of_commented h)
  exact ⟨l, hwritten, hcode, hwritten.plain.testsAtEnd⟩

theorem doWhile_tests_at_end_assigning :
    ∃ st', lowerStmt (.doWhile [.expr (.assign .assign (.ident "x") (.ident "y"))]
        (.binary .eq (.ident "x") (.ident "y"))) emptyEnv twoVariables = .ok ((), st') ∧
      ∃ l : LoopCode,
        l.WrittenLast emptyEnv
          { twoVariables with code := twoVariables.code ++ remark emptyEnv "loop" }
          [.expr (.assign .assign (.ident "x") (.ident "y"))]
          (.binary .eq (.ident "x") (.ident "y")) ∧
        st'.code = twoVariables.code ++ remark emptyEnv "loop" ++ [l.testedLast] ∧ l.TestsAtEnd := by
  obtain ⟨⟨_, st'⟩, h, -⟩ := exists_of_map_toOption
    (show (lowerStmt (.doWhile [.expr (.assign .assign (.ident "x") (.ident "y"))]
      (.binary .eq (.ident "x") (.ident "y"))) emptyEnv twoVariables).toOption.map (·.2.counter) =
      some 0 by decide +kernel)
  exact ⟨st', h, doWhile_tests_at_end h⟩

/-- A body that ends by `continue` is repeated without end although the condition is zero, while a test
after each body ends the loop after the first. -/
theorem doWhile_skips_test :
    ∃ (l : LoopCode) (st' : State),
      lowerStmt (.doWhile [.continueLoop] (.bool false)) emptyEnv twoVariables = .ok ((), st') ∧
      l.WrittenLast emptyEnv twoVariables [.continueLoop] (.bool false) ∧
      st'.code = [l.testedLast] ∧
      ∀ (m : Machine) (σ : Config), m.exec l.testedLast σ = .error .exhausted ∧
        (0 < m.rounds → l.roundsLast m true m.rounds σ = .ok (.next, σ)) := by
  set l : LoopCode := ⟨[], [], num 0, [.continue], []⟩
  have hl : l.Plain := trivial
  have hbody : ∀ (m : Machine) (σ : Config), m.execAll l.body σ = .ok (.continue, σ) := by
    intro m σ
    rw [Machine.execAll_singleton, Machine.exec]
    rfl
  refine ⟨l, _, rfl, ⟨⟨num 0, .bool⟩, _, _, rfl, rfl, rfl⟩, rfl, fun m σ => ⟨?_, fun hrounds => ?_⟩⟩
  · have hforever : ∀ n σ, l.roundsLast m false n σ = .error .exhausted := by
      intro n
      induction n with
      | zero => exact fun _ => rfl
      | succ n ih =>
        intro σ
        rw [LoopCode.roundsLast, hbody]
        exact ih _
    rw [(hl.testsAtEnd m σ).1, inBlock, hforever]
    rfl
  · obtain ⟨n, hn⟩ := Nat.exists_eq_succ_of_ne_zero (Nat.ne_of_gt hrounds)
    have hzero : m.Yields σ (num 0) 0#256 := Machine.yields_num (by decide)
    have htest : l.test m σ = .ok (0#256, σ) := by
      rw [LoopCode.test, Machine.execAll]
      exact hzero.evalOne_eq
    rw [hn, LoopCode.roundsLast, hbody]
    simp only [bind, Except.bind, htest]
    exact congrArg (fun σ => Except.ok (Flow.next, σ)) (Config.leave_of_vars fun _ hx => hx)

end

end ContractYul.Lowering
