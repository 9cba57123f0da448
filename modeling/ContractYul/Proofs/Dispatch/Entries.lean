import ContractYul.Proofs.Dispatch.Cases
import ContractYul.Proofs.Routine.Shape
import ContractYul.Proofs.Yul.Running

/-!
# What the entries of a contract run

`enterFunction` and `enterSpecial` say what happens when a call has been led to an entry, in terms of
the functions and routines that are called, of which nothing is assumed. The code of a case and the
code of an entry outside the switch do that. Neither comes to an end of its own, so that code behind
an entry never runs after it.
-/

open List

namespace ContractYul

open Shape

namespace Yul

/-! ## Runs that end -/

/-- A run that does not come to an end of its own, where one that might is asked for. -/
def Run.ended {α : Type} (r : Run Empty) : Run α :=
  r >>= nofun

theorem Run.ended_bind (x : Run α) (f : α → Run Empty) :
    (x >>= f).ended = x >>= fun a => ((f a).ended : Run β) := by
  cases x <;> rfl

/-! ## Values that may be missing -/

def wordOf (n : Nat) : Run Word :=
  if n < 2 ^ 256 then .ok (BitVec.ofNat 256 n) else .error .stuck

theorem wordOf_of_lt (h : n < 2 ^ 256) : wordOf n = .ok (BitVec.ofNat 256 n) :=
  if_pos h

def inTurn : List (Run Word) → Run (List Word)
  | [] => .ok []
  | r :: rs => do
    let vs ← inTurn rs
    return (← r) :: vs

theorem inTurn_ok (vs : List Word) : inTurn (vs.map .ok) = .ok vs := by
  induction vs with
  | nil => rfl
  | cons v vs ih =>
    rw [map_cons, inTurn, ih]
    rfl

namespace Machine

variable {m : Machine} {σ : Config} {e : Expr} {r : Run Word} {name : String}

/-- An expression has a word as its value or none, and evaluating it changes nothing. -/
def Gives (m : Machine) (σ : Config) (e : Expr) (r : Run Word) : Prop :=
  m.eval e σ = r >>= fun v => .ok ([v], σ)

theorem Yields.gives (h : m.Yields σ e v) : m.Gives σ e (.ok v) := h

theorem gives_numText (h : numberOf? text = some n) : m.Gives σ (numText text) (wordOf n) := by
  rw [wordOf]
  split
  · rename_i hn
    exact yields_numText h hn
  · rename_i hn
    rw [Gives, numText, eval, Context.literal, h, Option.filter_some, if_neg (by simpa using hn)]
    rfl

theorem gives_num (n : Nat) : m.Gives σ (num n) (wordOf n) :=
  gives_numText (numberOf?_toString n)

theorem forall₂_gives_nums (ns : List Nat) : Forall₂ (m.Gives σ) (ns.map num) (ns.map wordOf) :=
  forall₂_map_left_iff.2 (forall₂_map_right_iff.2
    (forall₂_same.2 fun n _ => gives_num n))

theorem evalArgs_of_gives (h : Forall₂ (m.Gives σ) es rs) :
    m.evalArgs es σ = inTurn rs >>= fun vs => .ok (vs, σ) := by
  induction h with
  | nil => rfl
  | @cons e r es rs he _ ih =>
    unfold Gives at he
    rw [evalArgs, ih, inTurn]
    cases inTurn rs with
    | error stop => rfl
    | ok vs =>
      simp only [bind, Except.bind, he]
      cases r <;> rfl

theorem eval_of_gives (h : Forall₂ (m.Gives σ) es rs) : m.eval (call name es) σ = (do
    let (vs, w) ← m.apply name (← inTurn rs) σ.world
    return (vs, { σ with world := w })) := by
  rw [call, eval, evalArgs_of_gives h]
  cases inTurn rs <;> rfl

def applyOne (m : Machine) (name : String) (args : List Word) (w : World) : Run (Word × World) := do
  let (vs, w) ← m.apply name args w
  return (← single vs, w)

theorem applyOne_eq (h : m.apply name args w = .ok ([v], w')) :
    m.applyOne name args w = .ok (v, w') := by
  rw [applyOne, h]
  rfl

theorem exec_letOne_of_gives (h : Forall₂ (m.Gives σ) es rs) :
    m.exec (.letOne x (call name es)) σ = (do
      let (v, w) ← m.applyOne name (← inTurn rs) σ.world
      return (.next, { σ with world := w }.set x v)) := by
  rw [Stmt.letOne, exec, eval_of_gives h]
  cases inTurn rs with
  | error stop => rfl
  | ok args =>
    simp only [bind, Except.bind, applyOne]
    cases m.apply name args σ.world with
    | error stop => rfl
    | ok q =>
      -- one variable takes one word
      obtain ⟨_ | ⟨v, _ | ⟨v', vs⟩⟩, w⟩ := q <;> rfl

/-- A variable is assigned the result of a call whose arguments leave the variables as they are. -/
theorem exec_assignOne_of_evalArgs (hx : (σ.vars x).isSome)
    (hargs : m.evalArgs es σ = .ok (vs, ⟨σ.vars, w⟩)) :
    m.exec (.assignOne x (call name es)) σ = (do
      let (v, w) ← m.applyOne name vs w
      return (.next, (Config.mk σ.vars w).set x v)) := by
  rw [Stmt.assignOne, exec, call, eval, hargs]
  simp only [bind, Except.bind, pure, Except.pure, applyOne]
  cases m.apply name vs w with
  | error stop => rfl
  | ok q =>
    obtain ⟨_ | ⟨v, _ | ⟨v', vs⟩⟩, w⟩ := q <;>
      simp [Config.assign, Config.bind, Config.setAll, hx, single]

theorem exec_run_of_gives (h : Forall₂ (m.Gives σ) es rs) : m.exec (.run name es) σ = (do
    let (vs, w) ← m.apply name (← inTurn rs) σ.world
    if vs.isEmpty then return (.next, { σ with world := w }) else .error .stuck) := by
  have heval : m.eval (.call name es) σ = _ := eval_of_gives h
  rw [Stmt.run, exec, heval]
  cases inTurn rs with
  | error stop => rfl
  | ok args =>
    simp only [bind, Except.bind, pure]
    cases m.apply name args σ.world <;> rfl

/-- The call ends with bytes of memory. -/
theorem exec_return_of_gives {start length : Expr} (ha : m.Gives σ start a)
    (hb : m.Gives σ length b) : m.exec (.run "return" [start, length]) σ = (do
      let length ← b
      let start ← a
      .error (.halted (.return (σ.world.memory.read start.toNat length.toNat)) σ.world)) := by
  rw [exec_run_of_gives (.cons ha (.cons hb .nil))]
  cases b with
  | error stop => rfl
  | ok length => cases a <;> rfl

end Machine

end Yul

namespace Dispatch

open Yul

section

variable (m : Machine)

/-! ## Arguments -/

def ArgForm.reader (head : Nat) : ArgForm → String × List Nat
  | .word => ("calldataload", [head])
  | .dynamic unit => (FixedRoutine.abiDecodeCalldataDynamic.name, [head, unit])
  | .inlined count => (FixedRoutine.abiDecodeCalldataWords.name, [head, count])

theorem argument_eq (head : Nat) (form : ArgForm) :
    argument head form = call (form.reader head).1 ((form.reader head).2.map num) := by
  cases form <;> rfl

def takeArguments : (head : Nat) → List ArgForm → World → Run (List Word × World)
  | _, [], w => .ok ([], w)
  | head, form :: rest, w => do
    let (v, w) ← m.applyOne (form.reader head).1 (← inTurn ((form.reader head).2.map wordOf)) w
    let (vs, w) ← takeArguments (head + form.headSize) rest w
    return (v :: vs, w)

variable {forms : List ArgForm} {vs : List Word} {σ : Config} {k : Nat}

theorem execAll_bindings (head : Nat) (σ : Config) (rest : List Stmt)
    (hnames : names.length = forms.length) :
    m.execAll (bindings names (arguments head forms) ++ rest) σ = (do
      let (vs, w) ← takeArguments m head forms σ.world
      m.execAll rest ({ σ with world := w }.setAll (names.zip vs))) := by
  induction forms generalizing names head σ with
  | nil =>
    obtain rfl := length_eq_zero_iff.1 hnames
    rfl
  | cons form forms ih =>
    obtain ⟨name, names, rfl⟩ := exists_cons_of_length_eq_add_one hnames
    have hrest : names.length = forms.length := by simpa using hnames
    have hcons : bindings (name :: names) (arguments head (form :: forms)) ++ rest =
        .letOne name (argument head form) ::
          (bindings names (arguments (head + form.headSize) forms) ++ rest) := rfl
    rw [hcons, Machine.execAll_cons, andThen, argument_eq,
      Machine.exec_letOne_of_gives (Machine.forall₂_gives_nums _), takeArguments]
    cases inTurn ((form.reader head).2.map wordOf) with
    | error stop => rfl
    | ok args =>
      simp only [bind, Except.bind, pure, Except.pure]
      cases m.applyOne (form.reader head).1 args σ.world with
      | error stop => rfl
      | ok r =>
        simp only [ih _ _ hrest, Config.world_set, bind]
        cases takeArguments m (head + form.headSize) forms r.2 <;> rfl

theorem length_takeArguments {head : Nat} (h : takeArguments m head forms w = .ok (vs, w')) :
    vs.length = forms.length := by
  induction forms generalizing head w vs with
  | nil =>
    obtain ⟨rfl, -⟩ := Outcome.pair_inj h
    rfl
  | cons form forms ih =>
    obtain ⟨args, -, h⟩ := Outcome.bind_eq_ok.1 h
    obtain ⟨⟨v, w₁⟩, -, h⟩ := Outcome.bind_eq_ok.1 h
    obtain ⟨⟨vs, w₂⟩, hrest, h⟩ := Outcome.bind_eq_ok.1 h
    obtain ⟨rfl, rfl⟩ := Outcome.pair_inj h
    rw [length_cons, ih hrest, length_cons]

/-! ## Value -/

theorem yields_callValue (σ : Config) : m.Yields σ (call "callvalue" []) m.context.callValue :=
  Machine.eval_call .nil rfl

def refuseValue (payable : Bool) (w : World) : Run Unit :=
  if payable ∨ m.context.callValue = 0#256 then .ok () else .error (.halted (.revert []) w)

theorem execAll_valueCheck (payable : Bool) (σ : Config) (rest : List Stmt) :
    m.execAll (valueCheck payable ++ rest) σ =
      refuseValue m payable σ.world >>= fun _ => m.execAll rest σ := by
  cases payable with
  | true => rfl
  | false =>
    have hcons : valueCheck false ++ rest = rejectValue :: rest := rfl
    rw [hcons, Machine.execAll_cons, andThen, rejectValue, refuseValue]
    have hvalue := yields_callValue m σ
    by_cases hzero : m.context.callValue = 0#256
    · rw [hzero] at hvalue
      rw [Machine.exec_ifThen_of_zero hvalue, if_pos (.inr hzero)]
      rfl
    · rw [Machine.exec_ifThen_of_ne hvalue hzero, inBlock, Machine.execAll_singleton,
        if_neg (by simpa using hzero)]
      rfl

/-! ## Answers -/

def storeWords (pos : Word) : (i : Nat) → List Word → World → Run World
  | _, [], w => .ok w
  | i, v :: vs, w => do
    let offset ← wordOf (32 * i)
    storeWords pos (i + 1) vs
      { w with memory := w.memory.write (pos + offset).toNat v.toBytes }

def answerWords (vs : List Word) (w : World) : Run Empty := do
  let pos := w.memory.readWord 64#256
  let w ← storeWords pos 0 vs w
  let size ← wordOf (32 * vs.length)
  .error (.halted (.return (w.memory.read pos.toNat size.toNat)) w)

def answerEncoded (codes : List Nat) (vs : List Word) (w : World) : Run Empty := do
  let pos := w.memory.readWord 64#256
  let shapes ← wordOf (word 2 codes)
  let (stop, w) ← m.applyOne (RoutineFamily.abiEncode.name vs.length) (pos :: shapes :: vs) w
  .error (.halted (.return (w.memory.read pos.toNat (stop - pos).toNat)) w)

/-- Returns the results of a function, of which there must be as many as it has types. -/
def answer (types : List Ty) (vs : List Word) (w : World) : Run Empty :=
  if vs.length ≠ types.length then .error .stuck
  else if types = [] then .error (.halted (.return []) w)
  else if types.all Ty.isValue then answerWords vs w
  else match types.mapM ofTy with
    | .ok codes => answerEncoded m codes vs w
    | .error _ => .error .stuck

theorem gives_offsetFrom (hpos : σ.vars pos = some p) (bytes : Nat) :
    m.Gives σ (offsetFrom pos bytes) (wordOf bytes >>= fun v => .ok (p + v)) := by
  have hident : m.Yields σ (ident pos) p := Machine.yields_ident.2 hpos
  unfold offsetFrom
  split
  · rename_i hzero
    have hword : wordOf bytes >>= (fun v => .ok (p + v)) = .ok p := by
      rw [hzero, show wordOf 0 = .ok 0#256 from rfl]
      simp
    rw [hword]
    exact hident
  · refine (Machine.eval_of_gives (.cons hident.gives (.cons (Machine.gives_num bytes) .nil))).trans ?_
    cases wordOf bytes <;> rfl

theorem execAll_storeResults {results : List String} (rest : List Stmt) (i : Nat) (w : World)
    (hpos : vars pos = some p) (hresults : Forall₂ (fun r v => vars r = some v) results vs) :
    m.execAll ((results.zipIdx i).map (fun (r, i) => Op.mstore (offsetFrom pos (32 * i)) (ident r)) ++
      rest) ⟨vars, w⟩ = storeWords p i vs w >>= fun w => m.execAll rest ⟨vars, w⟩ := by
  induction hresults generalizing i w with
  | nil => rfl
  | @cons r v results vs hr _ ih =>
    have hv : m.Yields ⟨vars, w⟩ (ident r) v := Machine.yields_ident.2 hr
    have haddress := gives_offsetFrom m (σ := ⟨vars, w⟩) hpos (32 * i)
    have hstore : m.exec (Op.mstore (offsetFrom pos (32 * i)) (ident r)) ⟨vars, w⟩ = _ :=
      Machine.exec_run_of_gives (.cons haddress (.cons hv.gives .nil))
    rw [zipIdx_cons, map_cons, cons_append, Machine.execAll_cons, andThen, hstore, storeWords]
    cases wordOf (32 * i) with
    | error stop => rfl
    | ok offset => exact ih (i + 1) _

theorem gives_shape (h : literal codes bits = .ok e) : m.Gives σ e (wordOf (word bits codes)) := by
  unfold literal at h
  split at h
  · cases h
  · rename_i hroom
    cases h
    exact Machine.gives_numText (numberOf?_literal (Nat.not_lt.1 hroom))

theorem gives_idents (h : Forall₂ (fun x v => σ.vars x = some v) names vs) :
    Forall₂ (m.Gives σ) (names.map ident) (vs.map .ok) := by
  refine forall₂_map_left_iff.2 (forall₂_map_right_iff.2 (h.imp fun x v hx => ?_))
  exact (Machine.yields_ident.2 hx).gives

theorem execAll_answer {results : List String} (h : Answer types results k code k')
    (htypes : types ≠ []) (hlength : results.length = types.length)
    (hresults : Forall₂ (fun r v => σ.vars r = some v) results vs)
    (hapart : tempName "memPos" k ∉ results) :
    m.execAll code σ = (answer m types vs σ.world).ended := by
  have hcount : results.length = vs.length := hresults.length_eq
  rw [answer, if_neg (not_not.2 (hcount.symm.trans hlength)), if_neg htypes]
  set p := σ.world.memory.readWord 64#256 with hp
  have hstart : m.exec (.letOne (tempName "memPos" k) (Op.mload Op.freePointer)) σ =
      .ok (.next, σ.set (tempName "memPos" k) p) :=
    Machine.exec_letOne .freeMemory
  have hpos : (σ.set (tempName "memPos" k) p).vars (tempName "memPos" k) = some p := by simp
  have hresults := forall₂_vars_set (v := p) hresults hapart
  cases h with
  | words hwords =>
    rw [if_pos hwords, answerWords, append_assoc, singleton_append, Machine.execAll_cons, andThen]
    refine (execAll_storeResults m _ 0 σ.world hpos hresults).trans ?_
    cases storeWords p 0 vs σ.world with
    | error stop => rfl
    | ok w =>
      refine (congrFun (m.execAll_singleton _) _).trans ?_
      have hident : m.Yields ⟨(σ.set (tempName "memPos" k) p).vars, w⟩
        (ident (tempName "memPos" k)) p := Machine.yields_ident.2 hpos
      refine (Machine.exec_return_of_gives hident.gives (Machine.gives_num _)).trans ?_
      rw [hcount]
      cases wordOf (32 * vs.length) <;> rfl
  | @encoded codes shape hwords hcodes hshape =>
    rw [if_neg hwords, hcodes]
    have hident : m.Yields (σ.set (tempName "memPos" k) p) (ident (tempName "memPos" k)) p :=
      Machine.yields_ident.2 hpos
    have hencode : m.exec (.letOne (tempName "memEnd" (k + 1))
        (call (RoutineFamily.abiEncode.name results.length)
          ([ident (tempName "memPos" k), shape] ++ results.map ident)))
        (σ.set (tempName "memPos" k) p) = _ :=
      Machine.exec_letOne_of_gives
        (.cons hident.gives (.cons (gives_shape m hshape) (gives_idents m hresults)))
    rw [Machine.execAll_cons, andThen, hstart]
    dsimp only [bind, Except.bind]
    rw [Machine.execAll_cons, andThen, hencode, answerEncoded, inTurn, inTurn, inTurn_ok, hcount]
    cases wordOf (word 2 codes) with
    | error stop => rfl
    | ok shapes =>
      simp only [bind, Except.bind, pure, Except.pure, Config.world_set]
      cases m.applyOne (RoutineFamily.abiEncode.name vs.length) (p :: shapes :: vs) σ.world with
      | error stop => rfl
      | ok q =>
        have hne : tempName "memPos" k ≠ tempName "memEnd" (k + 1) := fun heq =>
          absurd (tempName_injective heq).1 (by decide)
        set τ := ({ σ.set (tempName "memPos" k) p with world := q.2 }).set
          (tempName "memEnd" (k + 1)) q.1
        have hstart : m.Yields τ (ident (tempName "memPos" k)) p :=
          Machine.yields_ident.2 (by simp [τ, hne])
        have hstop : m.Yields τ (ident (tempName "memEnd" (k + 1))) q.1 :=
          Machine.yields_ident.2 (by simp [τ])
        refine (congrFun (m.execAll_singleton _) _).trans ?_
        exact Machine.exec_return_of_gives hstart.gives (hstop.sub hstart).gives

/-! ## Functions -/

/-- What happens when a call comes to a function: value is refused where none is taken, the arguments
are read, the function is called with them, and its results are returned. -/
def enterFunction (f : Abi.Function) (forms : List ArgForm) (w : World) : Run Empty := do
  refuseValue m f.isPayable w
  let (args, w) ← takeArguments m 4 forms w
  let (vs, w) ← m.apply f.irName args w
  answer m f.returns vs w

/-- The state in which the arguments are read has them as the values of their variables. -/
theorem gives_arguments {head : Nat} (h : takeArguments m head forms w = .ok (vs, w')) :
    Forall₂ (m.Gives (σ.setAll ((tempsFrom "param" k forms.length).zip vs)))
      ((tempsFrom "param" k forms.length).map ident) (vs.map .ok) := by
  refine gives_idents m (forall₂_vars_setAll (nodup_tempsFrom _ _ _) ?_)
  rw [length_tempsFrom, length_takeArguments m h]

theorem execAll_caseCode (σ : Config) (h : CaseCode f k code k') :
    ∃ forms, formsOf f.params = .ok forms ∧
      m.execAll code σ = (enterFunction m f forms σ.world).ended := by
  cases h with
  | @silent forms hforms hreturns =>
    refine ⟨forms, hforms, ?_⟩
    rw [append_assoc, execAll_valueCheck, enterFunction, Run.ended_bind]
    refine bind_congr fun _ => ?_
    rw [execAll_bindings m 4 σ _ (by simp)]
    cases htaken : takeArguments m 4 forms σ.world with
    | error stop => rfl
    | ok q =>
      obtain ⟨args, w⟩ := q
      have hcall : m.exec (.eval (invocation f (tempsFrom "param" k forms.length)))
          (({ σ with world := w }).setAll ((tempsFrom "param" k forms.length).zip args)) = _ :=
        Machine.exec_run_of_gives (gives_arguments m htaken)
      dsimp only [bind, Except.bind]
      rw [Machine.execAll_cons, andThen, hcall, inTurn_ok, Machine.world_setAll]
      dsimp only [bind, Except.bind]
      cases m.apply f.irName args w with
      | error stop => rfl
      | ok q =>
        obtain ⟨vs, w⟩ := q
        dsimp only
        rw [hreturns]
        cases vs with
        | nil =>
          refine (congrFun (m.execAll_singleton _) _).trans ?_
          exact Machine.exec_return_of_gives (Machine.gives_num 0) (Machine.gives_num 0)
        | cons v vs => rfl
  | @answering forms code k' hforms hreturns hanswer =>
    refine ⟨forms, hforms, ?_⟩
    rw [append_assoc, append_assoc, execAll_valueCheck, enterFunction, Run.ended_bind]
    refine bind_congr fun _ => ?_
    rw [execAll_bindings m 4 σ _ (by simp)]
    cases htaken : takeArguments m 4 forms σ.world with
    | error stop => rfl
    | ok q =>
      obtain ⟨args, w⟩ := q
      have hcall : m.eval (invocation f (tempsFrom "param" k forms.length))
          (({ σ with world := w }).setAll ((tempsFrom "param" k forms.length).zip args)) = _ :=
        Machine.eval_of_gives (gives_arguments m htaken)
      dsimp only [bind, Except.bind]
      rw [singleton_append, Machine.execAll_cons, andThen, Machine.exec, hcall, inTurn_ok,
        Machine.world_setAll]
      dsimp only [bind, Except.bind]
      cases m.apply f.irName args w with
      | error stop => rfl
      | ok q =>
        obtain ⟨vs, w⟩ := q
        dsimp only [pure, Except.pure]
        by_cases hcount : vs.length = f.returns.length
        · rw [Config.bind, if_pos (by rw [length_tempsFrom, hcount])]
          refine (execAll_answer m hanswer hreturns (length_tempsFrom _ _ _)
            (forall₂_vars_setAll (nodup_tempsFrom _ _ _) (by rw [length_tempsFrom, hcount]))
            (tempName_notMem (by decide))).trans ?_
          rw [Machine.world_setAll]
        · rw [Config.bind, if_neg (by rwa [length_tempsFrom, eq_comm]), answer, if_pos hcount]
          rfl

/-! ## Entries outside the switch -/

/-- What happens when a call comes to an entry outside the switch. -/
def enterSpecial (s : Special) (w : World) : Run Empty := do
  refuseValue m s.payable w
  let (vs, w) ← m.apply s.irName [] w
  if vs.isEmpty then .error (.halted .stop w) else .error .stuck

theorem execAll_special (s : Special) (σ : Config) (rest : List Stmt) :
    m.execAll (s.code ++ rest) σ = (enterSpecial m s σ.world).ended := by
  have hcode : s.code ++ rest =
      valueCheck s.payable ++ (.run s.irName [] :: .run "stop" [] :: rest) := by
    rw [Special.code, append_assoc]
    rfl
  rw [hcode, execAll_valueCheck, enterSpecial, Run.ended_bind]
  refine bind_congr fun _ => ?_
  rw [Machine.execAll_cons, andThen, Machine.exec_run_of_gives .nil]
  dsimp only [inTurn, bind, Except.bind]
  cases m.apply s.irName [] σ.world with
  | error stop => rfl
  | ok q =>
    obtain ⟨vs, w⟩ := q
    cases vs with
    | nil =>
      dsimp only [isEmpty_nil]
      refine (congrFun (m.execAll_cons _ _) _).trans ?_
      rfl
    | cons v vs => rfl

end

end Dispatch

end ContractYul
