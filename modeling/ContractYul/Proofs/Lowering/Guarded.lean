import ContractYul.Compilation
import ContractYul.Proofs.Lowering.Emission
import ContractYul.Proofs.Yul.Running

/-!
# Guarded calls

What runs when the guarded call of a `try` statement fails.

The body of a `try` is written out up to the end of the statement with the first external call, and
that call sets a variable by which the rest is decided. Statements behind it are skipped when the call
failed, and the handler runs. But nothing is decided before the statement with the call has ended: what
the statement does with the results of the call is done with zeros in their place, and where it leads
out of the `try`, as a `return` does, the handler is not reached.
-/

namespace ContractYul.Lowering

open Outcome
open Yul (Machine Config Flow Effect Word ident num inBlock andThen)

/-! ## The code of a `try` -/

structure TryCode where
  /-- The variable that tells whether the guarded call succeeded. -/
  success : String
  /-- The variable with the bytes that the guarded call returned. -/
  result : String
  /-- Code up to the end of the statement with the guarded call. -/
  guarded : List Yul.Stmt
  /-- Code of the statements behind it. -/
  onSuccess : List Yul.Stmt
  /-- Code of the handler. -/
  onFailure : List Yul.Stmt

namespace TryCode

def attempt (t : TryCode) : List Yul.Stmt :=
  [.letOne t.success (num 0), .letOne t.result (num emptyMemory)] ++ t.guarded

def continuation (t : TryCode) : List Yul.Stmt :=
  if t.onSuccess.isEmpty then [] else [.ifThen (ident t.success) t.onSuccess]

def decision (t : TryCode) : List Yul.Stmt :=
  t.continuation ++ [.ifThen (Yul.Op.isZero (ident t.success)) t.onFailure]

def code (t : TryCode) : List Yul.Stmt :=
  t.attempt ++ t.decision

def handlerParts (t : TryCode) (binding : Option String) (handler : List Source.Stmt) :
    List (Lower Unit) :=
  (match binding with
    | some name => declareWith name ⟨ident t.result, .bytes⟩
    | none => pure ()) :: lowerAll handler

def Written (env : Env) (st : State) (front : List Source.Stmt) (s : Source.Stmt)
    (rest : List Source.Stmt) (binding : Option String) (handler : List Source.Stmt)
    (t : TryCode) : Prop :=
  ∃ st₀ st₁ st₂ st₃ st₄ : State,
    openGuard env st = .ok ((t.success, t.result), st₀) ∧
    -- the guard waits until `s` has been lowered
    runAll (lowerAll front) env st₀ = .ok ((), st₁) ∧ isCaptured st₁.guard = false ∧
    lowerStmt s env st₁ = .ok ((), st₂) ∧ isCaptured st₂.guard = true ∧
    st₂.code = st₀.code ++ t.guarded ∧
    blockOf (lowerAll rest) env { st₂ with guard := none } = .ok (t.onSuccess, st₃) ∧
    blockOf (t.handlerParts binding handler) env
      { st₃ with code := st₃.code ++ t.continuation } = .ok (t.onFailure, st₄)

/-! ## Runs -/

variable (t : TryCode) (m : Machine) {σ : Config}

theorem execAll_code : m.execAll t.code = andThen (m.execAll t.attempt) (m.execAll t.decision) :=
  m.execAll_append _ _

/-- When the call failed, the statements behind it are skipped and the handler runs. -/
theorem execAll_decision_of_failed (h : σ.vars t.success = some 0#256) :
    m.execAll t.decision σ = inBlock (m.execAll t.onFailure) σ := by
  have hsuccess : m.Yields σ (ident t.success) 0#256 := Machine.yields_ident.2 h
  have hfailed : m.Yields σ (Yul.Op.isZero (ident t.success)) 1#256 :=
    hsuccess.isZero
  have hskip : m.execAll t.continuation σ = .ok (.next, σ) := by
    unfold continuation
    split
    · rfl
    · rw [Machine.execAll_singleton, Machine.exec_ifThen_of_zero hsuccess]
  rw [decision, Machine.execAll_append, andThen, hskip]
  show m.execAll [_] σ = _
  rw [Machine.execAll_singleton, Machine.exec_ifThen_of_ne hfailed (by decide)]

/-- What runs when the guarded call fails. When the statement with the call has ended and the call has
failed, the handler runs, and nothing of the statements behind. Where the statement leads elsewhere or
ends the call of the contract, nothing runs after it, the handler neither. -/
def HandlesFailure (t : TryCode) : Prop :=
  ∀ (m : Machine) (σ : Config),
    (∀ σ₁, m.execAll t.attempt σ = .ok (.next, σ₁) → σ₁.vars t.success = some 0#256 →
      m.execAll t.code σ = inBlock (m.execAll t.onFailure) σ₁) ∧
    (∀ flow σ₁, m.execAll t.attempt σ = .ok (flow, σ₁) → flow ≠ .next →
      m.execAll t.code σ = .ok (flow, σ₁)) ∧
    (∀ stop, m.execAll t.attempt σ = .error stop → m.execAll t.code σ = .error stop)

theorem handlesFailure : t.HandlesFailure := by
  intro m σ
  refine ⟨?_, ?_, ?_⟩
  · intro σ₁ hattempt hfailed
    rw [t.execAll_code, andThen, hattempt]
    exact t.execAll_decision_of_failed m hfailed
  · intro flow σ₁ hattempt hflow
    rw [t.execAll_code, andThen, hattempt]
    cases flow with
    | next => exact absurd rfl hflow
    | «break» | «continue» | leave => rfl
  · intro stop hattempt
    rw [t.execAll_code, andThen, hattempt]
    rfl

end TryCode

/-! ## Lowering a `try` -/

section

variable {env : Env} {st st' : State}

theorem exists_code_lowerStmt (h : lowerStmt s env st = .ok ((), st')) :
    ∃ code, st'.code = st.code ++ code := by
  obtain ⟨code, hcode, -⟩ := emits_lowerStmt s st () st' h
  exact ⟨code, hcode⟩

variable {body : List Source.Stmt} {α : Type}

theorem exists_code_runAll
    (h : runAll (lowerAll body) env st = .ok ((), st')) : ∃ code, st'.code = st.code ++ code := by
  obtain ⟨code, hcode, -⟩ := Emits.runAll (emits_lowerAll body) st () st' h
  exact ⟨code, hcode⟩

/-- The body of a `try` is taken up to the first statement in which the guard meets a call. -/
theorem exists_split_of_runGuarded (h : runGuarded (lowerAll body) env st = .ok (parts, st'))
    (hwaits : isCaptured st.guard = false) (hcaptured : isCaptured st'.guard = true) :
    ∃ front s rest st₁, body = front ++ s :: rest ∧ parts = lowerAll rest ∧
      runAll (lowerAll front) env st = .ok ((), st₁) ∧ isCaptured st₁.guard = false ∧
      lowerStmt s env st₁ = .ok ((), st') := by
  induction body generalizing st with
  | nil =>
    cases h
    rw [hwaits] at hcaptured
    cases hcaptured
  | cons s body ih =>
    obtain ⟨⟨_, st₁⟩, hs, h⟩ := bind_eq_ok.1 h
    have h : (if isCaptured st₁.guard then Pure.pure (lowerAll body) else
        runGuarded (lowerAll body)) env st₁ = .ok (parts, st') := h
    split at h
    · cases h
      exact ⟨[], s, body, st, rfl, rfl, by rw [lowerAll]; rfl, hwaits, hs⟩
    · rename_i hstill
      obtain ⟨front, s', rest, st₂, rfl, rfl, hfront, hwaits₂, hs'⟩ :=
        ih h (by simpa using hstill)
      refine ⟨s :: front, s', rest, st₂, rfl, rfl, ?_, hwaits₂, hs'⟩
      exact bind_eq_ok.2 ⟨((), st₁), hs, hfront⟩

theorem exists_of_bind {f : α → Lower β} (h : (m >>= f) env st = .ok r) :
    ∃ a st₁, m env st = .ok (a, st₁) ∧ f a env st₁ = .ok r := by
  obtain ⟨⟨a, st₁⟩, hm, hf⟩ := bind_eq_ok.1 h
  exact ⟨a, st₁, hm, hf⟩

theorem of_read_bind (h : (read >>= f : Lower α) env st = r) : f env env st = r := h

theorem of_get_bind (h : (get >>= f : Lower α) env st = r) : f st env st = r := h

/-- What is refused under a condition goes on when the condition does not hold. -/
theorem of_refused [Decidable c]
    (h : (if c then (throw e : Lower Unit) >>= rest else rest ()) env st = .ok r) :
    ¬ c ∧ rest () env st = .ok r := by
  split at h
  · cases h
  · exact ⟨‹_›, h⟩

theorem of_written [Decidable c] (h : (if c then emit s >>= rest else rest ()) env st = .ok r) :
    rest () env { st with code := st.code ++ if c then [s] else [] } = .ok r := by
  split at h
  · rename_i hc
    rw [if_pos hc]
    exact h
  · rename_i hc
    rw [if_neg hc, List.append_nil]
    exact h

/-- The comment in front of a statement, where comments are written. -/
def remark (env : Env) (text : String) : List Yul.Stmt :=
  if env.options.debugComments then [.comment text] else []

theorem of_commented (h : commented text m env st = .ok r) :
    m env { st with code := st.code ++ remark env text } = .ok r :=
  of_written (of_read_bind h)

/-- A block is written apart: the code so far stays. -/
theorem code_of_blockOf {code : List Yul.Stmt} (h : blockOf parts env st = .ok (code, st')) :
    st'.code = st.code := by
  obtain ⟨⟨⟨inner, _⟩, st₁⟩, hscope, h⟩ := bind_eq_ok.1 h
  cases h
  obtain ⟨⟨_, st₂⟩, hcollect, hscope⟩ := bind_eq_ok.1 hscope
  cases hscope
  obtain ⟨⟨_, st₃⟩, -, hcollect⟩ := bind_eq_ok.1 hcollect
  cases hcollect
  rfl

theorem exists_tryCode
    (h : tryStmt (lowerAll body) binding (lowerAll handler) env st = .ok ((), st')) :
    ∃ (t : TryCode) (front rest : List Source.Stmt) (s : Source.Stmt), body = front ++ s :: rest ∧
      t.Written env st front s rest binding handler ∧ st'.code = st.code ++ t.code := by
  have h := of_get_bind (of_read_bind h)
  obtain ⟨-, h⟩ := of_refused h
  obtain ⟨⟨success, result⟩, st₀, hopen, h⟩ := exists_of_bind h
  obtain ⟨parts, st₂, hguarded, h⟩ := exists_of_bind h
  obtain ⟨guard, _, hclose, h⟩ := exists_of_bind h
  cases hclose
  obtain ⟨hcaptured, h⟩ := of_refused h
  obtain ⟨onSuccess, st₃, hsuccess, h⟩ := exists_of_bind h
  have h := of_written h
  obtain ⟨onFailure, st₄, hfailure, h⟩ := exists_of_bind h
  cases h
  obtain ⟨hwaits₀, hcode₀⟩ : isCaptured st₀.guard = false ∧
      st₀.code = st.code ++ [.letOne success (num 0), .letOne result (num emptyMemory)] := by
    obtain ⟨hnames, rfl⟩ := pair_inj hopen
    obtain ⟨rfl, rfl⟩ := Prod.mk.inj hnames
    exact ⟨rfl, List.append_assoc _ _ _⟩
  obtain ⟨front, s, rest, st₁, rfl, rfl, hfront, hwaits₁, hs⟩ :=
    exists_split_of_runGuarded hguarded hwaits₀ (by simpa using hcaptured)
  obtain ⟨before, hbefore⟩ := exists_code_runAll hfront
  obtain ⟨last, hlast⟩ := exists_code_lowerStmt hs
  have hguarded : st₂.code = st₀.code ++ (before ++ last) := by
    rw [hlast, hbefore, List.append_assoc]
  have hcontinued : (if (!onSuccess.isEmpty) = true then [Yul.Stmt.ifThen (ident success) onSuccess]
      else []) = TryCode.continuation ⟨success, result, before ++ last, onSuccess, onFailure⟩ := by
    cases onSuccess <;> rfl
  rw [hcontinued] at hfailure
  refine ⟨⟨success, result, before ++ last, onSuccess, onFailure⟩, front, rest, s, rfl,
    ⟨st₀, st₁, st₂, st₃, st₄, hopen, hfront, hwaits₁, hs, by simpa using hcaptured, hguarded,
      hsuccess, hfailure⟩, ?_⟩
  show st₄.code ++ _ = _
  rw [code_of_blockOf hfailure, code_of_blockOf hsuccess]
  rw [hguarded, hcode₀]
  simp only [TryCode.code, TryCode.attempt, TryCode.decision, List.append_assoc]

theorem exists_of_tryCatch (h : lowerStmt (.tryCatch body binding handler) env st = .ok ((), st')) :
    ∃ (t : TryCode) (front rest : List Source.Stmt) (s : Source.Stmt),
      body = front ++ s :: rest ∧
      t.Written env { st with code := st.code ++ remark env "try" } front s rest binding handler ∧
      st'.code = st.code ++ remark env "try" ++ t.code :=
  exists_tryCode (of_commented h)

/-- A `try` statement that is accepted has one statement with the guarded call, and its failure is
handled once that statement has ended. -/
theorem failed_try_runs_handler {body handler : List Source.Stmt} {binding : Option String}
    (h : lowerStmt (.tryCatch body binding handler) env st = .ok ((), st')) :
    ∃ (t : TryCode) (front rest : List Source.Stmt) (s : Source.Stmt),
      body = front ++ s :: rest ∧
      t.Written env { st with code := st.code ++ remark env "try" } front s rest binding handler ∧
      st'.code = st.code ++ remark env "try" ++ t.code ∧ t.HandlesFailure := by
  obtain ⟨t, front, rest, s, hbody, hwritten, hcode⟩ := exists_of_tryCatch h
  exact ⟨t, front, rest, s, hbody, hwritten, hcode, t.handlesFailure⟩

end

/-- A class that makes a contract, and returns a spare one where that fails. -/
def workshop : Source.File where
  path := "workshop"
  classes := [
    { name := "Tool" },
    { name := "Workshop"
      methods := [
        { name := "make", params := [⟨"spare", "Tool"⟩], returns := ["Tool"], visibility := .private
          body := some [.tryCatch [.ret (some (.create "Tool" [] none none))] none
            [.ret (some (.ident "spare"))]] }] }]

def workshopEnv (context : Context) : Env where
  toContext := context
  className := "Workshop"
  function := "fun_make"
  mode := .runtime
  owner := .contract
  returns := [("ret_0", .contract "Tool")]

def workshopState : State where
  progress := {}
  scopes := [[("spare", ⟨"var_spare", .contract "Tool"⟩)]]

def makeAndReturn : List Source.Stmt :=
  [.expr (.create "Tool" [] none none), .ret none]

theorem failed_try_runs_handler_workshop :
    ∃ context, Compilation.contextOf {} workshop [] "Workshop" = .ok context ∧
      ∃ st', lowerStmt (.tryCatch makeAndReturn none [.ret (some (.ident "spare"))])
          (workshopEnv context) workshopState = .ok ((), st') ∧
        st'.code.length = 7 ∧
        ∃ (t : TryCode) (front rest : List Source.Stmt) (s : Source.Stmt),
          makeAndReturn = front ++ s :: rest ∧
          t.Written (workshopEnv context)
            { workshopState with
              code := workshopState.code ++ remark (workshopEnv context) "try" } front s rest none
            [.ret (some (.ident "spare"))] ∧
          st'.code = workshopState.code ++ remark (workshopEnv context) "try" ++ t.code ∧
            t.HandlesFailure := by
  obtain ⟨context, hcontext, hlowered⟩ := exists_of_map_toOption
    (show (Compilation.contextOf {} workshop [] "Workshop").toOption.map (fun context =>
      (lowerStmt (.tryCatch makeAndReturn none [.ret (some (.ident "spare"))])
        (workshopEnv context) workshopState).toOption.map (·.2.code.length)) = some (some 7) by
      decide +kernel)
  obtain ⟨⟨_, st'⟩, hrun, hlength⟩ := exists_of_map_toOption hlowered
  exact ⟨context, hcontext, st', hrun, hlength, failed_try_runs_handler hrun⟩

def failingContext : Yul.Context :=
  { (default : Yul.Context) with external := fun _ _ w => (0#256, w) }

/-- The words that a function of a compiled class returns when all that it calls fails. -/
def resultsOnFailure (c : Compiled) (name : String) (args : List Word) : Option (List Word) :=
  let functions := Yul.Stmt.definedFunction? c.object.deployed
  ((Machine.within failingContext functions 8).runFunction functions name args default).toOption.map
    (·.1)

/-- The creation in the `return` fails, and the method returns the address zero in place of the spare
contract that the handler returns. -/
theorem failed_try_returns : ∃ c, compile {} workshop [] "Workshop" = .ok c ∧
    resultsOnFailure c "fun_make" [5#256] = some [0#256] := by
  exact exists_of_map_toOption
    (show (compile {} workshop [] "Workshop").toOption.map
      (resultsOnFailure · "fun_make" [5#256]) = some (some [0#256]) by decide +kernel)

end ContractYul.Lowering
