import ContractYul.Proofs.Yul.Machine

/-!
# Runs of target code

The value of an expression and the effect of a statement, by recursion on the code. Arguments are
evaluated from right to left. Variables belong to the function that runs and end with the block
that declares them; the world is common to all functions.

A function body is not a part of the code that calls it, and a loop repeats the code it is made of.
Both are bounded: a machine `within` a limit makes at most that many calls inside each other and
that many rounds of each loop, and a run that needs more is `exhausted`.
-/

namespace ContractYul.Yul

/-! ## Variables -/

/-- Variables of the running function and the world around it. -/
structure Config where
  vars : String → Option Word
  world : World

namespace Config

def set (σ : Config) (x : String) (v : Word) : Config :=
  { σ with vars := fun y => if y = x then some v else σ.vars y }

def setAll (σ : Config) : List (String × Word) → Config
  | [] => σ
  | (x, v) :: rest => (σ.set x v).setAll rest

def leave (σ outer : Config) : Config :=
  { σ with vars := fun x => if (outer.vars x).isSome then σ.vars x else none }

def withSlot (σ : Config) (transient : Bool) (slot v : Word) : Config :=
  { σ with world := σ.world.setSlot transient slot v }

theorem slots_withSlot (σ : Config) (transient : Bool) (slot v : Word) :
    (σ.withSlot transient slot v).world.slots transient slot = v := by
  cases transient <;> simp [withSlot, World.setSlot, World.slots]

theorem slots_withSlot_of_ne {σ : Config} (h : (kind, other) ≠ (transient, slot)) :
    (σ.withSlot transient slot v).world.slots kind other = σ.world.slots kind other := by
  cases transient <;> cases kind <;> simp_all [withSlot, World.setSlot, World.slots]

end Config

/-! ## Literals -/

def numberOf? (text : String) : Option Nat :=
  match text.toList with
  | '0' :: 'x' :: digits => Text.digits? 16 digits
  | digits => Text.digits? 10 digits

def Context.literal (ctx : Context) : Literal → Run Word
  | .number text =>
    match (numberOf? text).filter (· < Nat.pow 2 256) with
    | some n => .ok (BitVec.ofNat 256 n)
    | none => .error .stuck
  | .string s => .ok (ctx.text s)

def single : List Word → Run Word
  | [v] => .ok v
  | _ => .error .stuck

/-! ## Flow of control -/

inductive Flow where
  | next
  | break
  | continue
  | leave
  deriving DecidableEq

/-- What a piece of code does to the state, and where control goes after it. -/
abbrev Effect := Config → Run (Flow × Config)

def Config.bind (σ : Config) (names : List String) (vs : List Word) : Run (Flow × Config) :=
  if names.length = vs.length then .ok (.next, σ.setAll (names.zip vs)) else .error .stuck

def Config.assign (σ : Config) (names : List String) (vs : List Word) : Run (Flow × Config) :=
  if names.all fun x => (σ.vars x).isSome then σ.bind names vs else .error .stuck

def inBlock (body : Effect) : Effect := fun σ => do
  let (flow, σ') ← body σ
  return (flow, σ'.leave σ)

/-- Goes on with more code unless control leads elsewhere. -/
def andThen (first second : Effect) : Effect := fun σ => do
  let (flow, σ) ← first σ
  match flow with
  | .next => second σ
  | flow => return (flow, σ)

/-- Rounds of a loop: while the condition holds, the body and then the post part. -/
def iterate (condition : Config → Run (Word × Config)) (post body : Effect) :
    Nat → Effect
  | 0, _ => .error .exhausted
  | n + 1, σ => do
    let (v, σ) ← condition σ
    if v = 0#256 then return (.next, σ)
    else
      let (flow, σ) ← body σ
      match flow with
      | .break => return (.next, σ)
      | .leave => return (.leave, σ)
      | .next | .continue => andThen post (iterate condition post body n) σ

/-! ## The machine -/

/-- What gives meaning to code: instructions, functions, and how often a loop may go round. -/
structure Machine where
  context : Context
  /-- Runs a function that is no instruction. -/
  invoke : String → Action
  rounds : Nat
  deriving Inhabited

namespace Machine

variable (m : Machine)

def apply (name : String) : Action :=
  (m.context.instruction? name).getD (m.invoke name)

/-! ## Expressions -/

mutual

def eval : Expr → Config → Run (List Word × Config)
  | .literal l, σ => do return ([← m.context.literal l], σ)
  | .ident x, σ =>
    match σ.vars x with
    | some v => .ok ([v], σ)
    | none => .error .stuck
  | .call name args, σ => do
    let (vs, σ) ← evalArgs args σ
    let (rs, w) ← m.apply name vs σ.world
    return (rs, { σ with world := w })

def evalArgs : List Expr → Config → Run (List Word × Config)
  | [], σ => .ok ([], σ)
  | e :: rest, σ => do
    let (vs, σ) ← evalArgs rest σ
    let (rs, σ) ← eval e σ
    return ((← single rs) :: vs, σ)

end

def evalOne (e : Expr) (σ : Config) : Run (Word × Config) := do
  let (rs, σ) ← m.eval e σ
  return (← single rs, σ)

/-! ## Statements -/

mutual

def exec : Stmt → Effect
  | .block body, σ => inBlock (execAll body) σ
  | .declare names none, σ => σ.bind names (names.map fun _ => 0#256)
  | .declare names (some e), σ => do
    let (vs, σ) ← m.eval e σ
    σ.bind names vs
  | .assign names e, σ => do
    let (vs, σ) ← m.eval e σ
    σ.assign names vs
  | .eval e, σ => do
    let (vs, σ) ← m.eval e σ
    if vs.isEmpty then return (.next, σ) else .error .stuck
  | .ifThen condition body, σ => do
    let (v, σ) ← m.evalOne condition σ
    if v = 0#256 then return (.next, σ) else inBlock (execAll body) σ
  | .switch e cases none, σ => do
    let (v, σ) ← m.evalOne e σ
    execCases v (fun σ => return (.next, σ)) cases σ
  | .switch e cases (some body), σ => do
    let (v, σ) ← m.evalOne e σ
    execCases v (inBlock (execAll body)) cases σ
  | .loop init condition post body, σ =>
    inBlock (andThen (execAll init)
      (iterate (m.evalOne condition) (inBlock (execAll post)) (inBlock (execAll body)) m.rounds)) σ
  | .break, σ => return (.break, σ)
  | .continue, σ => return (.continue, σ)
  | .leave, σ => return (.leave, σ)
  | .function _ _ _ _, σ => return (.next, σ)
  | .raw _, _ => .error .stuck
  | .comment _, σ => return (.next, σ)

def execAll : List Stmt → Effect
  | [], σ => return (.next, σ)
  | s :: rest, σ => andThen (exec s) (execAll rest) σ

def execCases (v : Word) (otherwise : Effect) :
    List (Literal × List Stmt) → Effect
  | [], σ => otherwise σ
  | (l, body) :: rest, σ => do
    if v = (← m.context.literal l) then inBlock (execAll body) σ
    else execCases v otherwise rest σ

end

/-! ## Functions -/

/-- The state in which the body of a function starts: its parameters have the arguments as values,
its results are zero. -/
def entry (f : Function) (args : List Word) (w : World) : Config :=
  (Config.mk (fun _ => none) w).setAll
    (f.params.zip args ++ f.returns.map fun x => (x, 0#256))

def results (σ : Config) : List String → Run (List Word)
  | [] => .ok []
  | x :: rest =>
    match σ.vars x with
    | some v => do return v :: (← results σ rest)
    | none => .error .stuck

def runFunction (functions : String → Option Function) (name : String) : Action := fun args w =>
  match functions name with
  | none => .error .stuck
  | some f =>
    if f.params.length = args.length then do
      let (_, σ) ← m.execAll f.body (entry f args w)
      return (← results σ f.returns, σ.world)
    else .error .stuck

end Machine

/-- The machine for the functions of a table, with a limit on the depth of calls and on the rounds
of each loop. -/
def Machine.within (ctx : Context) (functions : String → Option Function) : Nat → Machine
  | 0 => ⟨ctx, fun _ _ _ => .error .exhausted, 0⟩
  | n + 1 => ⟨ctx, (within ctx functions n).runFunction functions, n + 1⟩

end ContractYul.Yul
