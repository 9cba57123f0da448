import ContractYul.Proofs.Lowering.Functions

/-!
# Emitted events

What is written for the `emit` statements of a function. An event is written as a log: a topic for its
signature, unless it is anonymous, one topic for each indexed field, and the other fields as data. It is
the event that the catalog has under the name, wherever that was declared.

The code of a function has such a log for each `emit` statement of its body, in their order. Other
statements are written around them, and nothing that was written is taken back.

Main statement: `emits_lowerStmt`.
-/

open List

namespace ContractYul

/-! ## Statements inside of statements -/

namespace Source

mutual

def Stmt.emits : Stmt → List (String × List Expr)
  | .ifElse _ thenBranch elseBranch => allEmits thenBranch ++ optionEmits elseBranch
  | .whileLoop _ body | .doWhile body _ | .block body | .unchecked body => allEmits body
  | .forLoop none _ _ body => allEmits body
  | .forLoop (some init) _ _ body => init.emits ++ allEmits body
  | .emit event args => [(event, args)]
  | .tryCatch body _ handler => allEmits body ++ allEmits handler
  | .varDecl _ _ _ | .expr _ | .breakLoop | .continueLoop | .ret _ | .throw _ => []

def Stmt.allEmits : List Stmt → List (String × List Expr)
  | [] => []
  | s :: rest => s.emits ++ allEmits rest

def Stmt.optionEmits : Option (List Stmt) → List (String × List Expr)
  | none => []
  | some body => allEmits body

end

end Source

namespace Yul

mutual

/-- The statements of a statement that have no blocks, in the order in which they stand; the last part
of a loop comes behind its body. -/
def Stmt.leaves : Stmt → List Stmt
  | .block body | .ifThen _ body | .function _ _ _ body => allLeaves body
  | .switch _ cases none => casesLeaves cases
  | .switch _ cases (some body) => casesLeaves cases ++ allLeaves body
  | .loop init _ post body => allLeaves init ++ allLeaves body ++ allLeaves post
  | s => [s]

def Stmt.allLeaves : List Stmt → List Stmt
  | [] => []
  | s :: rest => s.leaves ++ allLeaves rest

def Stmt.casesLeaves : List (Literal × List Stmt) → List Stmt
  | [] => []
  | (_, body) :: rest => allLeaves body ++ casesLeaves rest

end

theorem Stmt.allLeaves_append (code more : List Stmt) :
    Stmt.allLeaves (code ++ more) = Stmt.allLeaves code ++ Stmt.allLeaves more := by
  induction code with
  | nil => rfl
  | cons s code ih => rw [cons_append, allLeaves, ih, allLeaves, append_assoc]

theorem Stmt.allLeaves_singleton (s : Stmt) : Stmt.allLeaves [s] = s.leaves :=
  append_nil _

end Yul

namespace Lowering

open Yul Outcome
open Source.Stmt (emits allEmits optionEmits)

/-! ## Logs of events -/

def signatureTopics (event : Abi.Event) : List Yul.Expr :=
  if event.anonymous then [] else [hexLiteral event.topic]

def indexedValues (event : Abi.Event) (values : List Value) : List Value :=
  ((event.fields.zip values).filter (·.1.indexed)).map (·.2)

def dataValues (event : Abi.Event) (values : List Value) : List Value :=
  ((event.fields.zip values).filter (!·.1.indexed)).map (·.2)

/-- The topics of values: the values themselves, or variables that are bound to them or to their
hashes. -/
def TopicsOf (values : List Value) (topics : List Yul.Expr) : Prop :=
  Forall₂ (fun v e => e = v.expr ∨ ∃ x, e = ident x) values topics

inductive Logged (event : Abi.Event) : List Yul.Stmt → Prop
  | bare {values : List Value} {topics : List Yul.Expr}
    (hvalues : values.length = event.fields.length)
    (htopics : TopicsOf (indexedValues event values) topics) (hdata : dataValues event values = []) :
    Logged event [logOf (num 0) (num 0) (signatureTopics event ++ topics)]
  | encoded {values : List Value} {topics : List Yul.Expr} {start stop : String} {shape : Yul.Expr}
    (hvalues : values.length = event.fields.length)
    (htopics : TopicsOf (indexedValues event values) topics) (hdata : dataValues event values ≠ [])
    (hshape : shapeLiteral ((dataValues event values).map (·.ty)) = .ok shape) :
    Logged event
      [.letOne start (Op.mload Op.freePointer),
       .letOne stop (call (RoutineFamily.abiEncode.name (dataValues event values).length)
         ([ident start, shape] ++ (dataValues event values).map (·.expr))),
       logOf (ident start) (Op.sub (ident stop) (ident start)) (signatureTopics event ++ topics)]

theorem Logged.allLeaves_eq (h : Logged event code) : Stmt.allLeaves code = code := by
  cases h <;> rfl

/-- Code is the log of an `emit` statement: of the event that the catalog has under its name. -/
def LoggedAs (catalog : Catalog) (e : String × List Source.Expr) (code : List Yul.Stmt) : Prop :=
  ∃ decl event, catalog.events.get? e.1 = some decl ∧ catalog.eventOf decl = .ok event ∧
    e.2.length = event.fields.length ∧ Logged event code

/-- Code has the logs of `emit` statements, in their order and maybe with other statements
between. -/
def Records (catalog : Catalog) (es : List (String × List Source.Expr)) (code : List Yul.Stmt) :
    Prop :=
  ∃ logs, Forall₂ (LoggedAs catalog) es logs ∧ logs.flatten.Sublist (Stmt.allLeaves code)

namespace Records

theorem nil : Records catalog [] code :=
  ⟨[], .nil, nil_sublist _⟩

theorem of_leaves (h : Records catalog es code)
    (hleaves : (Stmt.allLeaves code).Sublist (Stmt.allLeaves code')) :
    Records catalog es code' := by
  obtain ⟨logs, hlogs, hsub⟩ := h
  exact ⟨logs, hlogs, hsub.trans hleaves⟩

theorem append (h : Records catalog es code) (h' : Records catalog es' code') :
    Records catalog (es ++ es') (code ++ code') := by
  obtain ⟨logs, hlogs, hsub⟩ := h
  obtain ⟨logs', hlogs', hsub'⟩ := h'
  refine ⟨logs ++ logs', rel_append hlogs hlogs', ?_⟩
  rw [flatten_append, Stmt.allLeaves_append]
  exact hsub.append hsub'

theorem behind (h : Records catalog es code) : Records catalog es (code' ++ code) :=
  nil.append h

theorem within (h : Records catalog es code) (hleaves : (Stmt.allLeaves code).Sublist s.leaves) :
    Records catalog es [s] :=
  h.of_leaves (Stmt.allLeaves_singleton s ▸ hleaves)

theorem block (h : Records catalog es code) : Records catalog es [.block code] :=
  h.within (Sublist.refl _)

theorem ifThen (h : Records catalog es code) : Records catalog es [.ifThen c code] :=
  h.within (Sublist.refl _)

theorem loop (h : Records catalog es init) (h' : Records catalog es' code) :
    Records catalog (es ++ es') [.loop init c post code] := by
  refine (h.append h').within ?_
  rw [Stmt.allLeaves_append]
  exact sublist_append_left _ _

end Records

/-! ## What is written -/

/-- A piece of lowering, whenever it succeeds, writes code behind what is there, and `W` holds of the
code and its result. -/
def Appends {α : Type} (env : Env) (m : Lower α) (W : List Yul.Stmt → α → Prop) : Prop :=
  ∀ st a st', m env st = .ok (a, st') → ∃ code, st'.code = st.code ++ code ∧ W code a

namespace Appends

variable {α β : Type} {env : Env} {m : Lower α}

theorem of_moves {R : State → Stage → α → Prop}
    (h : ∀ st : State, Moves env (st.stage) m (R st)) :
    Appends env m fun _ a => ∃ st κ, R st κ a := by
  intro st a st' hrun
  obtain ⟨κ, hstep, ha⟩ := h st st a st' st.describes_stage hrun
  obtain ⟨code, hcode, -⟩ := hstep.code
  exact ⟨code, hcode, st, κ, ha⟩

theorem pure (h : W [] a) : Appends env (pure a) W := by
  intro st a' st' hrun
  cases hrun
  exact ⟨[], (append_nil _).symm, h⟩

theorem bind (hm : Appends env m W)
    (hf : ∀ code a, W code a → Appends env (f a) fun code' b => T (code ++ code') b) :
    Appends env (m >>= f) T := by
  intro st b st'' hrun
  obtain ⟨⟨a, st'⟩, hfirst, hrun⟩ := bind_eq_ok.1 hrun
  obtain ⟨code, hcode, ha⟩ := hm st a st' hfirst
  obtain ⟨code', hcode', hb⟩ := hf code a ha st' b st'' hrun
  exact ⟨code ++ code', by rw [hcode', hcode, append_assoc], hb⟩

theorem weaken (hm : Appends env m W) (h : ∀ code a, W code a → W' code a) : Appends env m W' := by
  intro st a st' hrun
  obtain ⟨code, hcode, ha⟩ := hm st a st' hrun
  exact ⟨code, hcode, h code a ha⟩

theorem throw : Appends env (throw e : Lower α) W := by
  intro st a st' hrun
  simp [MonadExcept.throw, throwThe, MonadExceptOf.throw, liftM, monadLift, MonadLift.monadLift,
    StateT.lift] at hrun

theorem lift {x : Outcome α} :
    Appends env (liftM x : Lower α) fun code a => code = [] ∧ x = .ok a := by
  intro st a st' hrun
  obtain ⟨a', ha, hrun⟩ := bind_eq_ok.1 hrun
  obtain ⟨rfl, rfl⟩ : a' = a ∧ st = st' := by simpa using pure_eq_ok.1 hrun
  exact ⟨[], (append_nil _).symm, rfl, ha⟩

theorem read_bind (hf : Appends env (f env) W) : Appends env (read >>= f) W :=
  hf

theorem get_bind (hf : ∀ st, Appends env (f st) W) : Appends env (get >>= f) W :=
  fun st a st' hrun => hf st st a st' hrun

theorem emitAll : Appends env (Lowering.emitAll ss) fun code _ => code = ss := by
  intro st a st' hrun
  obtain rfl : { st with code := st.code ++ ss } = st' := congrArg Prod.snd (Except.ok.inj hrun)
  exact ⟨ss, rfl, rfl⟩

theorem emit : Appends env (Lowering.emit s) fun code _ => code = [s] :=
  emitAll

theorem collect (hm : Appends env m W) :
    Appends env (Lowering.collect m) fun code r => code = [] ∧ W r.1 r.2 := by
  intro st r st' hrun
  obtain ⟨⟨a, st₁⟩, hm₁, hrun⟩ := bind_eq_ok.1
    (show (m env { st with code := [] } >>= fun p =>
      Except.ok ((p.2.code, p.1), { p.2 with code := st.code })) = .ok (r, st') from hrun)
  obtain ⟨rfl, rfl⟩ : (st₁.code, a) = r ∧ { st₁ with code := st.code } = st' := by
    simpa using hrun
  obtain ⟨code, hcode, ha⟩ := hm { st with code := [] } a st₁ hm₁
  have hinner : st₁.code = code := by simpa using hcode
  exact ⟨[], (append_nil _).symm, rfl, hinner ▸ ha⟩

theorem inScope (hm : Appends env m W) :
    Appends env (Lowering.inScope m) fun code r => code = [] ∧ W r.1 r.2 := by
  refine get_bind fun outer st r st' hrun => ?_
  obtain ⟨⟨r₁, st₁⟩, hm₁, hrun⟩ := bind_eq_ok.1
    (show (Lowering.collect m env { st with scopes := [] :: outer.scopes } >>= fun p =>
      Except.ok (p.1, { p.2 with scopes := st.scopes })) = .ok (r, st') from hrun)
  obtain ⟨rfl, rfl⟩ : r₁ = r ∧ { st₁ with scopes := st.scopes } = st' := by simpa using hrun
  exact hm.collect { st with scopes := [] :: outer.scopes } r₁ st₁ hm₁

theorem eq_of_checkArity (h : checkArity callee expected got = .ok u) : expected = got := by
  unfold checkArity at h
  split at h
  · assumption
  · cases h

theorem mapM (hf : ∀ a ∈ as, Appends env (f a) fun _ b => T a b) :
    Appends env (as.mapM f) fun _ bs => Forall₂ T as bs := by
  induction as with
  | nil =>
    exact pure .nil
  | cons a as ih =>
    obtain ⟨hfirst, hrest⟩ := forall_mem_cons.1 hf
    rw [mapM_cons]
    exact hfirst.bind fun _ b hb => (ih hrest).bind fun _ bs hbs => pure (.cons hb hbs)

theorem bindFresh : Appends env (Lowering.bindFresh e) fun code x => code = [.letOne x e] := by
  refine Appends.bind (W := fun code _ => code = []) ?_ fun code x hcode => ?_
  · intro st x st' hrun
    cases hrun
    exact ⟨[], (append_nil _).symm, rfl⟩
  · subst hcode
    exact emit.bind fun _ _ hcode => pure (by simpa using hcode)

theorem captureFresh : Appends env (Lowering.captureFresh v)
    fun code w => ∃ x, code = [.letOne x v.expr] ∧ w = ⟨ident x, v.ty⟩ :=
  bindFresh.bind fun _ x hcode => pure ⟨x, by simpa using hcode, rfl⟩

theorem capture : Appends env (Lowering.capture v) fun _ w => w = v ∨ ∃ x, w = ⟨ident x, v.ty⟩ := by
  unfold Lowering.capture
  split
  · exact captureFresh.weaken fun _ w ⟨x, _, hw⟩ => .inr ⟨x, hw⟩
  · exact pure (.inl rfl)

theorem routine :
    Appends env (Lowering.routine r args) fun code e => code = [] ∧ e = r.call args := by
  intro st e st' hrun
  cases hrun
  exact ⟨[], (append_nil _).symm, rfl, rfl⟩

theorem family :
    Appends env (Lowering.family r arity args)
      fun code e => code = [] ∧ e = call (r.name arity) args := by
  intro st e st' hrun
  cases hrun
  exact ⟨[], (append_nil _).symm, rfl, rfl⟩

/-! ## Without code -/

abbrev Silent (env : Env) (m : Lower α) : Prop :=
  Appends env m fun code _ => code = []

theorem Silent.seq (hm : Silent env m) (hf : ∀ a, Appends env (f a) T) :
    Appends env (m >>= f) T := by
  refine hm.bind fun _ a hcode => ?_
  subst hcode
  exact hf a

theorem Silent.mapM {as : List α} (hf : ∀ a, Silent env (f a)) : Silent env (as.mapM f) := by
  induction as with
  | nil =>
    exact pure rfl
  | cons a as ih =>
    rw [mapM_cons]
    exact (hf a).seq fun _ => ih.seq fun _ => pure rfl

theorem resolve : Silent env (Lowering.resolve text) := by
  intro st ty st' hrun
  exact ⟨[], by simp [resolve_state hrun], rfl⟩

theorem declare : Silent env (Lowering.declare name ty) := by
  intro st x st' hrun
  cases hrun
  exact ⟨[], (append_nil _).symm, rfl⟩

theorem takeName : Silent env (modify fun st => { st with declared := x :: st.declared }) := by
  intro st a st' hrun
  cases hrun
  exact ⟨[], (append_nil _).symm, rfl⟩

/-! ## Events -/

theorem referenceHash? : Appends env (Lowering.referenceHash? v) fun _ _ => True := by
  unfold Lowering.referenceHash?
  split
  · exact routine.bind fun _ _ _ => pure trivial
  · exact routine.bind fun _ _ _ => pure trivial
  · split
    · exact capture.bind fun _ _ _ => pure trivial
    · exact pure trivial
  · exact pure trivial

theorem topicOf : Appends env (Lowering.topicOf v) fun _ e => e = v.expr ∨ ∃ x, e = ident x := by
  unfold Lowering.topicOf
  split
  · refine capture.bind fun _ w hw => pure ?_
    rcases hw with rfl | ⟨x, rfl⟩
    · exact .inl rfl
    · exact .inr ⟨x, rfl⟩
  · refine referenceHash?.bind fun _ hash? _ => ?_
    cases hash? with
    | none => exact throw
    | some hash =>
      refine captureFresh.bind fun _ w hw => pure ?_
      obtain ⟨x, -, rfl⟩ := hw
      exact .inr ⟨x, rfl⟩

theorem logData (hvalues : values.length = event.fields.length)
    (htopics : TopicsOf (indexedValues event values) topics) :
    Appends env (Lowering.logData (signatureTopics event ++ topics) (dataValues event values))
      fun code _ => Logged event code := by
  unfold Lowering.logData
  split
  · rename_i hempty
    refine emit.weaken fun _ _ hcode => hcode ▸ .bare hvalues htopics (isEmpty_iff.1 hempty)
  · rename_i hdata
    refine lift.bind fun _ shape hshape => ?_
    obtain ⟨rfl, hshape⟩ := hshape
    refine captureFresh.bind fun _ start hstart => ?_
    obtain ⟨start, rfl, rfl⟩ := hstart
    refine family.bind fun _ encoded hencoded => ?_
    obtain ⟨rfl, rfl⟩ := hencoded
    refine bindFresh.bind fun _ stop hstop => ?_
    subst hstop
    refine emit.weaken fun _ _ hcode => ?_
    subst hcode
    exact .encoded hvalues htopics (by simpa using hdata) hshape

theorem emitEvent :
    Appends env (Lowering.emitEvent name (args.map operand))
      fun code _ => Records env.catalog [(name, args)] code := by
  refine read_bind ?_
  dsimp only
  split
  · exact throw
  · rename_i decl hdecl
    refine lift.bind fun _ event hevent => lift.bind fun _ _ harity => ?_
    obtain ⟨rfl, hevent⟩ := hevent
    obtain ⟨rfl, harity⟩ := harity
    have harity := eq_of_checkArity harity
    refine (of_moves fun _ => Lowers.orderedAs Writes.allSound_operands).bind
      fun front values hvalues => ?_
    have hvalues : values.length = event.fields.length := by
      obtain ⟨-, -, -, hcount, -⟩ := hvalues
      rw [hcount, ← harity, length_map, min_self]
    rw [partition_eq_filter_filter]
    refine (mapM fun q _ => topicOf).bind
      fun captures topics htopics => ?_
    have htopics : TopicsOf (indexedValues event values) topics :=
      forall₂_map_left_iff.2 htopics
    refine (logData hvalues htopics).weaken fun log _ hlog => ?_
    have harity : args.length = event.fields.length := by simpa using harity.symm
    have hrecords : Records env.catalog [(name, args)] log := by
      refine ⟨[log], .cons ⟨decl, event, hdecl, hevent, harity, hlog⟩ .nil, ?_⟩
      rw [flatten_singleton, hlog.allLeaves_eq]
    exact hrecords.behind.behind

end Appends

/-! ## Statements -/

abbrev Emits {α : Type} (env : Env) (es : List (String × List Source.Expr)) (m : Lower α) : Prop :=
  Appends env m fun code _ => Records env.catalog es code

namespace Emits

variable {α β : Type} {env : Env} {m : Lower α} {es : List (String × List Source.Expr)}

/-- Lowering of which only the code counts that it writes. -/
theorem of_moves {R : State → Stage → α → Prop}
    (h : ∀ st : State, Moves env (st.stage) m (R st)) : Emits env [] m :=
  (Appends.of_moves h).weaken fun _ _ _ => .nil

theorem of_writes {m : Lower Unit} (h : Writes env m) : Emits env [] m :=
  of_moves fun st => h (st.stage) trivial fun _ _ => State.knows_stage

theorem seq (hm : Emits env es m) (hf : ∀ a, Emits env es' (f a)) :
    Emits env (es ++ es') (m >>= f) :=
  hm.bind fun _ a hcode => (hf a).weaken fun _ _ hcode' => hcode.append hcode'

theorem front (hm : Appends env m W) (hf : ∀ a, Emits env es (f a)) : Emits env es (m >>= f) :=
  hm.bind fun _ a _ => (hf a).weaken fun _ _ hcode => hcode.behind

theorem after {R : State → Stage → α → Prop}
    (hm : ∀ st : State, Moves env (st.stage) m (R st)) (hf : ∀ a, Emits env es (f a)) :
    Emits env es (m >>= f) :=
  front (.of_moves hm) hf

theorem commented {m : Lower Unit} (hm : Emits env es m) :
    Emits env es (Lowering.commented text m) := by
  refine Appends.read_bind ?_
  split
  · exact front .emit fun _ => hm
  · exact hm

abbrev Parts (env : Env) (parts : List (Lower Unit)) (ess : List (List (String × List Source.Expr))) :
    Prop :=
  Forall₂ (fun m es => Emits env es m) parts ess

theorem runAll (h : Parts env parts ess) : Emits env ess.flatten (Lowering.runAll parts) := by
  induction h with
  | nil => exact Appends.pure .nil
  | cons hm _ ih => exact seq hm fun _ => ih

theorem blockOf (h : Parts env parts ess) : Appends env (Lowering.blockOf parts)
    fun code block => code = [] ∧ Records env.catalog ess.flatten block := by
  refine (runAll h).inScope.bind fun _ r hr => Appends.pure ?_
  obtain ⟨rfl, hcode⟩ := hr
  exact ⟨rfl, hcode⟩

theorem block (h : Parts env parts ess) {f : List Yul.Stmt → Lower β}
    (hf : ∀ code, Records env.catalog ess.flatten code → Emits env es (f code)) :
    Emits env es (Lowering.blockOf parts >>= f) := by
  refine (blockOf h).bind fun _ code hcode => ?_
  obtain ⟨rfl, hcode⟩ := hcode
  exact hf code hcode

theorem emits_of (h : Records env.catalog es [s]) : Emits env es (Lowering.emit s) :=
  Appends.emit.weaken fun _ _ hcode => hcode ▸ h

/-! ### Branches and loops -/

theorem branch (ho : o.Sound env) (hthen : Parts env thenBranch ess)
    (helse : Parts env (elseBranch.getD []) ess') :
    Emits env (ess.flatten ++ ess'.flatten) (Lowering.branch o thenBranch elseBranch) := by
  refine after (fun _ => ho.value) fun c => ?_
  cases elseBranch with
  | none =>
    cases helse
    rw [flatten_nil, append_nil]
    exact block hthen fun _ hcode => emits_of hcode.ifThen
  | some elseBranch =>
    refine after (fun _ => Moves.conditionTemp) fun chosen => front .emit fun _ => ?_
    refine block hthen fun _ hcode => seq (emits_of hcode.ifThen) fun _ => ?_
    exact block helse fun _ hcode => emits_of hcode.ifThen

theorem whileLoop (ho : o.Sound env)
    (hbody : Parts env body ess) : Emits env ess.flatten (Lowering.whileLoop o body) := by
  have hcondition : ∀ o' ∈ some o, o'.Sound env := by
    rintro _ ⟨⟩
    exact ho
  refine after (fun _ => Writes.loopCondition hcondition) fun r => ?_
  refine block hbody fun _ hcode => emits_of ?_
  exact Records.nil.loop hcode.behind

theorem doWhileLoop (ho : o.Sound env)
    (hbody : Parts env body ess) : Emits env ess.flatten (Lowering.doWhileLoop body o) := by
  refine block hbody fun code hcode => ?_
  refine after (fun _ => Lowers.collect Lowers.stays_plainValue ho.value) fun r => emits_of ?_
  have hnil : Records env.catalog [] (r.1 ++ [breakUnless r.2.expr]) := .nil
  have hall := hcode.append hnil
  rw [append_nil, ← append_assoc] at hall
  exact Records.nil.loop hall

theorem forLoop {condition update : Option Operand} (hinit : Emits env es init)
    (hcondition : ∀ o ∈ condition, o.Sound env) (hupdate : ∀ o ∈ update, o.Sound env)
    (hbody : Parts env body ess) :
    Emits env (es ++ ess.flatten) (Lowering.forLoop init condition update body) := by
  refine (Appends.inScope (W := fun code _ => Records env.catalog (es ++ ess.flatten) code) ?_).bind
    fun _ r hr => ?_
  · refine hinit.collect.bind fun _ r hr => ?_
    obtain ⟨rfl, hinit⟩ := hr
    refine after (fun _ => Writes.loopCondition hcondition) fun head => ?_
    refine after (fun _ => Lowers.collect Lowers.stays_any ?_) fun post => ?_
    · cases update with
      | none => exact Lowers.pure trivial
      | some u => exact (hupdate u rfl).discard
    exact block hbody fun _ hcode => emits_of (hinit.loop hcode.behind)
  · obtain ⟨rfl, hcode⟩ := hr
    exact Appends.emitAll.weaken fun _ _ h => h ▸ hcode

/-! ### Guarded calls -/

/-- Code behind a check that gives an error or nothing. -/
theorem unlessThrown [Decidable c] (hrest : Appends env (rest ()) W) :
    Appends env (if c then throw e >>= rest else rest ()) W := by
  split
  · exact Appends.bind (W := fun _ _ => False) .throw fun _ _ h => h.elim
  · exact hrest

/-- Code that is written under a condition, and has no logs where it is not. -/
theorem before [Decidable c] {m : Lower Unit} (hm : Emits env es m)
    (hskip : ¬ c → Records env.catalog es []) (hrest : Emits env es' (rest ())) :
    Emits env (es ++ es') (if c then m >>= rest else rest ()) := by
  split
  · exact seq hm fun _ => hrest
  · rename_i hc
    exact hrest.weaken fun _ _ hcode => (hskip hc).append hcode

/-- What is left behind the guarded call has the logs that are not written yet. -/
theorem runGuarded (h : Parts env parts ess) : Appends env (Lowering.runGuarded parts)
    fun code rest => ∃ done left, ess = done ++ left ∧ Records env.catalog done.flatten code ∧
      Parts env rest left := by
  induction h with
  | nil => exact Appends.pure ⟨[], [], rfl, .nil, .nil⟩
  | @cons part es rest ess hpart hrest ih =>
    refine hpart.bind fun code _ hcode => Appends.get_bind fun st => ?_
    split
    · refine Appends.pure ⟨[es], ess, rfl, ?_, hrest⟩
      simpa using hcode
    · refine ih.weaken fun _ _ hleft => ?_
      obtain ⟨done, left, rfl, hdone, hleft⟩ := hleft
      exact ⟨es :: done, left, rfl, hcode.append hdone, hleft⟩

theorem tryStmt (hbody : Parts env body ess) (hhandler : Parts env handler ess') :
    Emits env (ess.flatten ++ ess'.flatten) (Lowering.tryStmt body binding handler) := by
  refine Appends.read_bind (Appends.get_bind fun st => unlessThrown ?_)
  refine after (fun _ => Writes.openGuard) fun names => ?_
  refine (runGuarded hbody).bind fun attempt rest hrest => ?_
  obtain ⟨done, left, rfl, hdone, hleft⟩ := hrest
  -- the logs of the attempt are written, those behind the call and of the handler are to come
  refine Appends.weaken (W := fun code _ => Records env.catalog (left.flatten ++ ess'.flatten) code)
    ?_ fun _ _ hcode => ?_
  · refine after (fun _ => Writes.closeGuard) fun guard => unlessThrown ?_
    refine block hleft fun onSuccess hsuccess => ?_
    refine before (emits_of hsuccess.ifThen) (fun hempty => ?_) ?_
    · obtain rfl : onSuccess = [] := by simpa using hempty
      exact hsuccess
    · refine block (show Parts env _ ([] :: ess') from
        .cons ?_ hhandler) fun _ hcode => emits_of hcode.ifThen
      cases binding with
      | none => exact Appends.pure .nil
      | some name => exact of_moves fun _ => Moves.declareWith (fits_ident.2 State.knows_stage)
  · rw [flatten_append, append_assoc]
    exact hdone.append hcode

end Emits

/-! ## All statements -/

theorem flatten_map_emits (body : List Source.Stmt) : (body.map emits).flatten = allEmits body := by
  induction body with
  | nil => rfl
  | cons s rest ih => rw [map_cons, flatten_cons, ih, allEmits]

mutual

/-- The code of a statement has the logs of the `emit` statements in it. -/
theorem emits_lowerStmt {env : Env} : ∀ s, Emits env (emits s) (lowerStmt s)
  | .varDecl names ty init | .expr e | .breakLoop | .continueLoop | .ret value | .throw error => by
    rw [emits]
    exact .of_writes (writes_lowerStmt _)
  | .ifElse condition thenBranch none => by
    rw [lowerStmt, emits, ← flatten_map_emits, lowerAllOption, optionEmits]
    have hbranch : Emits env ((thenBranch.map emits).flatten ++ flatten [])
        (branch (operand condition) (lowerAll thenBranch) none) :=
      .branch Writes.sound_operand (emits_lowerAll thenBranch) .nil
    exact .commented hbranch
  | .ifElse condition thenBranch (some elseBranch) => by
    rw [lowerStmt, emits, lowerAllOption, optionEmits, ← flatten_map_emits, ← flatten_map_emits]
    exact .commented (.branch Writes.sound_operand (emits_lowerAll thenBranch)
      (emits_lowerAll elseBranch))
  | .whileLoop condition body => by
    rw [lowerStmt, emits, ← flatten_map_emits]
    exact .commented (.whileLoop Writes.sound_operand (emits_lowerAll body))
  | .doWhile body condition => by
    rw [lowerStmt, emits, ← flatten_map_emits]
    exact .commented (.doWhileLoop Writes.sound_operand (emits_lowerAll body))
  | .forLoop none condition update body => by
    rw [lowerStmt, emits, ← flatten_map_emits, lowerOption]
    have hinit : Emits env [] (pure ()) := Appends.pure .nil
    exact .commented (.forLoop hinit
      Writes.sound_of_mem_map Writes.sound_of_mem_map (emits_lowerAll body))
  | .forLoop (some init) condition update body => by
    rw [lowerStmt, emits, ← flatten_map_emits, lowerOption]
    exact .commented (.forLoop (emits_lowerStmt init) Writes.sound_of_mem_map
      Writes.sound_of_mem_map (emits_lowerAll body))
  | .block body | .unchecked body => by
    rw [lowerStmt, emits, ← flatten_map_emits]
    exact .block (emits_lowerAll body) fun _ hcode => .emits_of hcode.block
  | .emit event args => by
    rw [lowerStmt, emits]
    exact .commented .emitEvent
  | .tryCatch body binding handler => by
    rw [lowerStmt, emits, ← flatten_map_emits, ← flatten_map_emits]
    exact .commented (.tryStmt (emits_lowerAll body) (emits_lowerAll handler))

theorem emits_lowerAll : ∀ body, Emits.Parts env (lowerAll body) (body.map emits)
  | [] => by
    rw [lowerAll]
    exact .nil
  | s :: rest => by
    rw [lowerAll]
    exact .cons (emits_lowerStmt s) (emits_lowerAll rest)

end

/-! ## Functions -/

theorem Appends.signatureAndBody {env : Env} {params : List Source.Param} {returns : List String}
    {body : List Source.Stmt} {W : List Yul.Stmt → Prop}
    (h : ∀ results, Appends { env with returns := results } (runAll (lowerAll body)) fun code _ => W code) :
    Appends env (Lowering.signatureAndBody params returns body) fun code _ => W code := by
  refine Silent.seq (.mapM fun q => resolve.seq fun _ => declare) fun names => ?_
  refine Silent.seq (.mapM fun q => resolve.seq fun _ => takeName.seq fun _ => pure rfl) fun results => ?_
  intro st a st' hrun
  obtain ⟨⟨_, st₁⟩, hbody, hrun⟩ := bind_eq_ok.1 hrun
  obtain ⟨-, rfl⟩ := pair_inj hrun
  exact h results st _ st₁ hbody

theorem body_functionOf {context : Context} {className function : String} {mode : Mode}
    {owner : Owner} {params : List Source.Param} {W : List Yul.Stmt → Prop}
    (h : functionOf className function mode owner params returns body context p = .ok (f, p'))
    (hbody : ∀ results, Appends
      { toContext := context, className, function, mode, owner, returns := results }
      (runAll (lowerAll body)) fun code _ => W code) : W f.body := by
  obtain ⟨⟨r, p₁⟩, hlower, h⟩ := bind_eq_ok.1 h
  cases h
  obtain ⟨st, hrun, hcode, -⟩ := inFunction_eq_ok hlower
  obtain ⟨code, hst, hW⟩ := Appends.signatureAndBody hbody _ _ _ hrun
  obtain rfl : st.code = code := by simpa using hst
  rwa [hcode]

/-- The code of a function has the logs of the `emit` statements in its body. -/
theorem records_functionOf
    (h : functionOf className function mode owner params returns body context p = .ok (f, p')) :
    Records context.catalog (allEmits body) f.body := by
  rw [← flatten_map_emits]
  exact body_functionOf h fun _ => Emits.runAll (emits_lowerAll body)

end Lowering

end ContractYul
