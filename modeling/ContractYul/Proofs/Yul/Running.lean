import ContractYul.Proofs.Yul.Calls
import ContractYul.Proofs.Yul.Evaluation
import ContractYul.Proofs.Yul.Memory

/-!
# Running code step by step

What single statements do when the values of their expressions are known, and runs put together from
them: of code that comes to its end with control going on, of blocks, and of functions of a table.
-/

open List

namespace ContractYul.Yul

def World.withMemory (w : World) (m : Memory) : World :=
  { w with memory := m }

@[simp]
theorem World.memory_withMemory (w : World) (m : Memory) : (w.withMemory m).memory = m := rfl

@[simp]
theorem World.withMemory_withMemory (w : World) (m m' : Memory) :
    (w.withMemory m).withMemory m' = w.withMemory m' := rfl

/-! ## Variables -/

namespace Config

variable (σ : Config) (x y : String) (v : Word)

@[simp]
theorem vars_set : (σ.set x v).vars y = if y = x then some v else σ.vars y := rfl

@[simp]
theorem world_set : (σ.set x v).world = σ.world := rfl

@[simp]
theorem vars_leave (outer : Config) :
    (σ.leave outer).vars x = if (outer.vars x).isSome then σ.vars x else none := rfl

@[simp]
theorem world_leave (outer : Config) : (σ.leave outer).world = σ.world := rfl

/-- A variable that is set again has the later value. -/
@[simp]
theorem set_set (u : Word) : (σ.set x v).set x u = σ.set x u := by
  rw [set, set, mk.injEq]
  refine ⟨funext fun y => ?_, rfl⟩
  by_cases hy : y = x <;> simp [hy]

/-- A variable that has a value is given the same value. -/
theorem set_of_vars {σ : Config} {x : String} {v : Word} (h : σ.vars x = some v) :
    σ.set x v = σ := by
  obtain ⟨vars, w⟩ := σ
  rw [set, mk.injEq]
  refine ⟨funext fun y => ?_, rfl⟩
  by_cases hy : y = x
  · rw [if_pos hy, hy]
    exact h.symm
  · rw [if_neg hy]

/-- A block that declares nothing leaves the state as it is at its end. -/
theorem leave_of_vars {σ outer : Config} (h : ∀ x, outer.vars x = none → σ.vars x = none) :
    σ.leave outer = σ := by
  obtain ⟨vars, w⟩ := σ
  rw [leave, mk.injEq]
  refine ⟨funext fun x => ?_, rfl⟩
  cases hx : outer.vars x with
  | none =>
    have hnone : vars x = none := h x hx
    simp [hnone]
  | some v => simp

@[simp]
theorem leave_world (σ : Config) (w : World) : (Config.mk σ.vars w).leave σ = ⟨σ.vars, w⟩ :=
  leave_of_vars fun _ hx => hx

/-- The variables of a state with one of them set anew. -/
theorem vars_set_none {x y : String} {v : Word} {σ outer : Config} (hx : (outer.vars x).isSome)
    (hσ : ∀ y, outer.vars y = none → σ.vars y = none) (hy : outer.vars y = none) :
    (σ.set x v).vars y = none := by
  have hne : y ≠ x := by
    rintro rfl
    simp [hy] at hx
  rw [vars_set, if_neg hne]
  exact hσ y hy

/-- A variable of a list has its value, when no two have the same name. -/
theorem vars_setAll_of_mem (hnodup : (pairs.map (·.1)).Nodup) (h : (x, v) ∈ pairs) :
    (σ.setAll pairs).vars x = some v := by
  induction pairs generalizing σ with
  | nil => cases h
  | cons p pairs ih =>
    obtain ⟨hfresh, hnodup⟩ := nodup_cons.1 hnodup
    rcases mem_cons.1 h with rfl | h
    · have hne : ∀ p ∈ pairs, p.1 ≠ x := fun p hp heq =>
        hfresh (mem_map.2 ⟨p, hp, heq⟩)
      rw [setAll, vars_setAll_of_notMem hne, vars_set, if_pos rfl]
    · exact ih _ hnodup h

end Config

/-- Variables keep their values when another gets one. -/
theorem forall₂_vars_set {σ : Config} (h : Forall₂ (fun x v => σ.vars x = some v) names vs)
    (hx : x ∉ names) : Forall₂ (fun y u => (σ.set x v).vars y = some u) names vs := by
  refine forall₂_iff_zip.2 ⟨h.length_eq, fun {y u} hmem => ?_⟩
  have hne : y ≠ x := fun heq => hx (heq ▸ (of_mem_zip hmem).1)
  rw [Config.vars_set, if_neg hne]
  exact (forall₂_iff_zip.1 h).2 hmem

theorem forall₂_vars_setAll {σ : Config} {vs : List Word} (hnodup : names.Nodup)
    (hlength : names.length = vs.length) :
    Forall₂ (fun x v => (σ.setAll (names.zip vs)).vars x = some v) names vs := by
  refine forall₂_iff_zip.2 ⟨hlength, fun {x v} hmem => ?_⟩
  refine Config.vars_setAll_of_mem _ _ _ ?_ hmem
  rwa [map_fst_zip (by omega)]

namespace Machine

variable {m : Machine} {σ σ' : Config}

/-! ## Values -/

theorem Yields.add (ha : m.Yields σ a x) (hb : m.Yields σ b y) : m.Yields σ (Op.add a b) (x + y) :=
  .binary (f := fun _ => BitVec.add) rfl ha hb

theorem Yields.sub (ha : m.Yields σ a x) (hb : m.Yields σ b y) : m.Yields σ (Op.sub a b) (x - y) :=
  .binary (f := fun _ => BitVec.sub) rfl ha hb

theorem Yields.mul (ha : m.Yields σ a x) (hb : m.Yields σ b y) : m.Yields σ (Op.mul a b) (x * y) :=
  .binary (f := fun _ => BitVec.mul) rfl ha hb

theorem Yields.eq (ha : m.Yields σ a x) (hb : m.Yields σ b y) :
    m.Yields σ (Op.eq a b) (.ofBool (x == y)) :=
  .binary (f := fun _ a b => Word.ofBool (a == b)) rfl ha hb

theorem Yields.lt (ha : m.Yields σ a x) (hb : m.Yields σ b y) :
    m.Yields σ (Op.lt a b) (.ofBool (x.ult y)) :=
  .binary (f := fun _ a b => Word.ofBool (a.ult b)) rfl ha hb

theorem Yields.isZero (ha : m.Yields σ a x) : m.Yields σ (Op.isZero a) (.ofBool (x == 0#256)) :=
  .unary (f := fun _ a => Word.ofBool (a == 0#256)) rfl ha

theorem Yields.mload (ha : m.Yields σ a x) : m.Yields σ (Op.mload a) (σ.world.memory.readWord x) :=
  .unary (f := fun w => w.memory.readWord) rfl ha

theorem Yields.callDataLoad (ha : m.Yields σ a x) : m.Yields σ (call "calldataload" [a])
    (.ofBytes (slice m.context.callData x.toNat 32)) :=
  .unary (f := fun _ a => Word.ofBytes (slice m.context.callData a.toNat 32)) rfl ha

theorem Yields.dataOf (ha : m.Yields σ a x) : m.Yields σ (Op.dataOf a) (x + 32#256) :=
  ha.add (yields_num (by decide))

theorem Yields.freeMemory : m.Yields σ (Op.mload Op.freePointer) (σ.world.memory.readWord 64#256) :=
  .mload (yields_num (by decide))

theorem Yields.roundUp (ha : m.Yields σ a x) :
    m.Yields σ (Op.roundUp a) ((x + 31#256) &&& ~~~31#256) :=
  (ha.add (yields_num (by decide))).both (.complement (yields_num (by decide)))

variable {code : List Stmt}

theorem yields_var {vars : String → Option Word} (h : vars x = some v) :
    m.Yields ⟨vars, w⟩ (ident x) v :=
  yields_ident.2 h

theorem forall₂_yields_idents (h : Forall₂ (fun x v => σ.vars x = some v) names vs) :
    Forall₂ (m.Yields σ) (names.map ident) vs :=
  forall₂_map_left_iff.2 (h.imp fun _ _ hx => yields_ident.2 hx)

/-! ## Statements -/

theorem exec_run (hargs : Forall₂ (m.Yields σ) es vs)
    (happly : m.apply name vs σ.world = .ok ([], w)) :
    m.exec (.run name es) σ = .ok (.next, { σ with world := w }) :=
  exec_eval (eval_call hargs happly)

theorem exec_mstore (ha : m.Yields σ a x) (hb : m.Yields σ b y) : m.exec (Op.mstore a b) σ =
    .ok (.next, ⟨σ.vars, σ.world.withMemory (σ.world.memory.write x.toNat y.toBytes)⟩) :=
  have hargs : Forall₂ (m.Yields σ) [a, b] [x, y] := .cons ha (.cons hb .nil)
  exec_run hargs rfl

theorem exec_letOne_call (hargs : Forall₂ (m.Yields σ) es vs)
    (happly : m.apply name vs σ.world = .ok ([v], w)) :
    m.exec (.letOne var (call name es)) σ = .ok (.next, { σ with world := w }.set var v) :=
  exec_letOne_eval (eval_call hargs happly)

theorem exec_assignOne_call (hx : (σ.vars x).isSome) (hargs : Forall₂ (m.Yields σ) es vs)
    (happly : m.apply name vs σ.world = .ok ([v], w)) :
    m.exec (.assignOne x (call name es)) σ = .ok (.next, { σ with world := w }.set x v) :=
  exec_assignOne_eval (eval_call hargs happly) hx

/-- A conditional block is skipped when its condition is zero. -/
theorem exec_ifThen_of_zero (he : m.Yields σ e 0#256) :
    m.exec (.ifThen e body) σ = .ok (.next, σ) := by
  unfold Yields at he
  simp [exec, evalOne, he, single]

/-- A conditional block runs when its condition is not zero. -/
theorem exec_ifThen_of_ne (he : m.Yields σ e x) (hx : x ≠ 0#256) :
    m.exec (.ifThen e body) σ = inBlock (m.execAll body) σ := by
  unfold Yields at he
  simp [exec, evalOne, he, hx, single]

theorem exec_switch_zero (he : m.Yields σ e x) :
    m.exec (.switch e [(.number "0", zero)] (some other)) σ =
      inBlock (m.execAll (if x = 0#256 then zero else other)) σ := by
  have hzero : m.context.literal (.number "0") = .ok 0#256 :=
    yields_literal.1 (yields_num (n := 0) (by decide) : m.Yields σ _ _)
  unfold Yields at he
  by_cases hx : x = 0#256
  · simp [exec, execCases, evalOne, he, hx, hzero, single]
  · simp [exec, execCases, evalOne, he, hx, hzero, single]

/-! ## Runs -/

def Runs (m : Machine) (code : List Stmt) (σ σ' : Config) : Prop :=
  m.execAll code σ = .ok (.next, σ')

theorem execAll_cons (s : Stmt) (code : List Stmt) :
    m.execAll (s :: code) = andThen (m.exec s) (m.execAll code) := by
  funext σ
  rw [execAll]

theorem Runs.nil : m.Runs [] σ σ := by
  rfl

theorem Runs.cons (hs : m.exec s σ = .ok (.next, σ₁)) (hcode : m.Runs code σ₁ σ') :
    m.Runs (s :: code) σ σ' := by
  rw [Runs, execAll_cons, andThen, hs]
  exact hcode

theorem Runs.execAll_append (hcode : m.Runs code σ σ₁) (more : List Stmt) :
    m.execAll (code ++ more) σ = m.execAll more σ₁ := by
  rw [Machine.execAll_append, andThen, hcode]
  rfl

theorem Runs.append (hcode : m.Runs code σ σ₁) (hmore : m.Runs more σ₁ σ') :
    m.Runs (code ++ more) σ σ' :=
  (hcode.execAll_append more).trans hmore

theorem execAll_singleton (s : Stmt) : m.execAll [s] = m.exec s := by
  funext σ
  rw [execAll_cons, andThen]
  rcases m.exec s σ with stop | ⟨flow, σ'⟩
  · rfl
  · cases flow
    · exact (Runs.nil : m.Runs [] σ' σ')
    all_goals rfl

theorem Runs.inBlock (h : m.Runs code σ σ') :
    Yul.inBlock (m.execAll code) σ = .ok (.next, σ'.leave σ) := by
  rw [Yul.inBlock, h]
  rfl

/-- Code comes to its end with control going on, in a state with `P`. -/
def Ends (m : Machine) (code : List Stmt) (σ : Config) (P : Config → Prop) : Prop :=
  ∃ σ', m.Runs code σ σ' ∧ P σ'

theorem Ends.nil (h : P σ) : m.Ends [] σ P :=
  ⟨σ, .nil, h⟩

theorem Ends.cons (hs : m.exec s σ = .ok (.next, σ₁)) (h : m.Ends code σ₁ P) :
    m.Ends (s :: code) σ P := by
  obtain ⟨σ', hcode, hσ'⟩ := h
  exact ⟨σ', .cons hs hcode, hσ'⟩

theorem Ends.append (hcode : m.Runs code σ σ₁) (h : m.Ends more σ₁ P) :
    m.Ends (code ++ more) σ P := by
  obtain ⟨σ', hmore, hσ'⟩ := h
  exact ⟨σ', hcode.append hmore, hσ'⟩

/-! ## Loops -/

/-- A loop that goes round `count` times. What holds after `k` rounds is carried on by each round,
and the condition fails after the last. -/
theorem iterate_of_invariant {condition : Config → Run (Word × Config)} {post body : Effect}
    {I : Nat → Config → Prop} {Q : Config → Prop} {count : Nat}
    (hstep : ∀ k < count, ∀ σ, I k σ → ∃ v σ₁ σ₂ σ₃, condition σ = .ok (v, σ₁) ∧ v ≠ 0#256 ∧
      body σ₁ = .ok (.next, σ₂) ∧ post σ₂ = .ok (.next, σ₃) ∧ I (k + 1) σ₃)
    (hstop : ∀ σ, I count σ → ∃ σ', condition σ = .ok (0#256, σ') ∧ Q σ') {k rounds : Nat}
    (hk : k ≤ count) (hrounds : count - k < rounds) (hσ : I k σ) :
    ∃ σ', iterate condition post body rounds σ = .ok (.next, σ') ∧ Q σ' := by
  induction rounds generalizing k σ with
  | zero => omega
  | succ rounds ih =>
    rcases Nat.lt_or_eq_of_le hk with hlt | rfl
    · obtain ⟨v, σ₁, σ₂, σ₃, hcondition, hv, hbody, hpost, hnext⟩ := hstep k hlt σ hσ
      obtain ⟨σ', hrest, hq⟩ := ih hlt (by omega) hnext
      refine ⟨σ', ?_, hq⟩
      rw [iterate, hcondition]
      simp only [bind, Except.bind, if_neg hv, hbody, andThen, hpost]
      exact hrest
    · obtain ⟨σ', hcondition, hq⟩ := hstop σ hσ
      refine ⟨σ', ?_, hq⟩
      rw [iterate, hcondition]
      rfl

@[simp]
theorem rounds_within (ctx : Context) (functions : String → Option Function) (n : Nat) :
    (within ctx functions n).rounds = n := by
  cases n <;> rfl

@[simp]
theorem context_within (ctx : Context) (functions : String → Option Function) (n : Nat) :
    (within ctx functions n).context = ctx := by
  cases n <;> rfl

/-! ## Functions -/

/-- The parameters of a function have the arguments as values at its start, and its results are
zero. -/
theorem forall₂_vars_entry (hnodup : (f.params ++ f.returns).Nodup)
    (hargs : f.params.length = args.length) :
    Forall₂ (fun x v => (entry f args w).vars x = some v) f.params args ∧
      ∀ x ∈ f.returns, (entry f args w).vars x = some 0#256 := by
  have hfst : ((f.params.zip args ++ f.returns.map fun x => (x, 0#256)).map (·.1)).Nodup := by
    rw [map_append, map_fst_zip hargs.le]
    simpa [Function.comp_def] using hnodup
  refine ⟨forall₂_iff_zip.2 ⟨hargs, fun {x v} hmem => ?_⟩, fun x hx => ?_⟩
  · exact Config.vars_setAll_of_mem _ _ _ hfst (mem_append_left _ hmem)
  · exact Config.vars_setAll_of_mem _ _ _ hfst (mem_append_right _ (mem_map.2 ⟨x, hx, rfl⟩))

theorem results_eq (h : Forall₂ (fun name v => σ.vars name = some v) names vs) :
    results σ names = .ok vs := by
  induction h with
  | nil => rw [results]
  | cons hv _ ih => simp [results, hv, ih]

/-- A function of a table does what its body does on the machine below. -/
theorem apply_within_eq (hname : ctx.instruction? name = none) (hf : functions name = some f)
    (hargs : f.params.length = args.length) :
    (within ctx functions (n + 1)).apply name args w = (do
      let (_, σ) ← (within ctx functions n).execAll f.body (entry f args w)
      return (← results σ f.returns, σ.world)) := by
  have hinvoke : (within ctx functions (n + 1)).apply name =
      (within ctx functions n).runFunction functions name := by
    show (ctx.instruction? name).getD _ = _
    rw [hname]
    rfl
  rw [hinvoke, runFunction, hf]
  dsimp only
  rw [if_pos hargs]

theorem apply_within (hname : ctx.instruction? name = none) (hf : functions name = some f)
    (hargs : f.params.length = args.length)
    (hrun : (within ctx functions n).Runs f.body (entry f args w) σ)
    (hresults : results σ f.returns = .ok rs) :
    (within ctx functions (n + 1)).apply name args w = .ok (rs, σ.world) := by
  rw [apply_within_eq hname hf hargs, hrun]
  simp [hresults]

end Machine

end ContractYul.Yul
