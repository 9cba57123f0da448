import ContractYul.Proofs.Outcome
import ContractYul.Proofs.Yul.Semantics
import ContractYul.Proofs.Yul.Uses
import ContractYul.Routine.Memory

/-!
# What a run depends on and what it changes

Main statements:
* `Machine.execAll_append`: code written one after the other runs one after the other;
* `Machine.confined_execAll`: behind code without jumps control goes on, no variables have changed
  but those that it writes, and where two configurations agree on the variables that it mentions, it
  has the same effect on both;
* `Machine.ends_eval`: evaluating a plain expression changes nothing.
-/

open List

namespace ContractYul.Yul

open Outcome Stmt

variable {m : Machine}

variable {β α : Type}

/-! ## Sequences -/

theorem andThen_assoc (f g h : Effect) : andThen (andThen f g) h = andThen f (andThen g h) := by
  funext σ
  simp only [andThen]
  cases hf : f σ with
  | error e => rfl
  | ok r =>
    obtain ⟨flow, σ'⟩ := r
    cases flow <;> rfl

theorem Machine.execAll_append (ss ts : List Stmt) :
    m.execAll (ss ++ ts) = andThen (m.execAll ss) (m.execAll ts) := by
  induction ss with
  | nil =>
    funext σ
    simp [Machine.execAll, andThen]
  | cons s ss ih =>
    have hcons : ∀ rest, m.execAll (s :: rest) = andThen (m.exec s) (m.execAll rest) := by
      intro rest
      funext σ
      simp [Machine.execAll]
    rw [cons_append, hcons, hcons, ih, andThen_assoc]

/-! ## Variables -/

theorem Config.vars_setAll_of_notMem {σ : Config} (h : ∀ p ∈ pairs, p.1 ≠ x) :
    (σ.setAll pairs).vars x = σ.vars x := by
  induction pairs generalizing σ with
  | nil => rfl
  | cons p pairs ih =>
    obtain ⟨y, v⟩ := p
    have hy : x ≠ y := fun hxy => h (y, v) (by simp) hxy.symm
    rw [Config.setAll, ih fun p hp => h p (by simp [hp])]
    simp [Config.set, hy]

/-! ## Runs from configurations that agree -/

/-- Two runs have related results, or stop for the same reason. -/
def Run.Same {α β : Type} (R : α → β → Prop) : Run α → Run β → Prop
  | .ok a, .ok b => R a b
  | .error e, .error e' => e = e'
  | _, _ => False

theorem Run.Same.bind (hxy : Run.Same R x y) (hfg : ∀ a b, R a b → Run.Same S (f a) (g b)) :
    Run.Same S (x >>= f) (y >>= g) := by
  cases x with
  | error e =>
    cases y with
    | error e' => exact hxy
    | ok b => exact hxy.elim
  | ok a =>
    cases y with
    | error e' => exact hxy.elim
    | ok b => exact hfg a b hxy

theorem Run.Same.mono (hxy : Run.Same R x y) (h : ∀ a b, R a b → S a b) : Run.Same S x y := by
  cases x <;> cases y
  · exact hxy
  · exact hxy.elim
  · exact hxy.elim
  · exact h _ _ hxy

theorem Run.Same.exists_ok (hxy : Run.Same R x (.ok b)) : ∃ a, x = .ok a ∧ R a b := by
  cases x with
  | error e => exact hxy.elim
  | ok a => exact ⟨a, rfl, hxy⟩

theorem Run.Same.cases (hxy : Run.Same R x y) :
    (∃ e, x = .error e ∧ y = .error e) ∨ ∃ a b, x = .ok a ∧ y = .ok b ∧ R a b := by
  cases y with
  | error e =>
    cases x with
    | error e' => exact .inl ⟨e, congrArg _ hxy, rfl⟩
    | ok a => exact hxy.elim
  | ok b =>
    obtain ⟨a, rfl, h⟩ := hxy.exists_ok
    exact .inr ⟨a, b, rfl, rfl, h⟩

theorem Run.same_self (x : Run α) : Run.Same Eq x x := by
  cases x <;> rfl

structure Config.Agree (P : String → Prop) (σ τ : Config) : Prop where
  world : σ.world = τ.world
  vars : ∀ x, P x → σ.vars x = τ.vars x

def Config.AgreeAfter {α : Type} (P : String → Prop) (r s : α × Config) : Prop :=
  r.1 = s.1 ∧ r.2.Agree P s.2

/-- An evaluation that starts with the variables `vars` has a result that agrees, and changes none of
them. -/
def Config.Evaluated {α : Type} (P : String → Prop) (vars : String → Option Word)
    (r s : α × Config) : Prop :=
  Config.AgreeAfter P r s ∧ r.2.vars = vars

/-- An effect that starts with the variables `vars` goes on to the statement behind it: results agree,
and variables that satisfy `K` have stayed. -/
structure Config.Follows (P K : String → Prop) (vars : String → Option Word) (r s : Flow × Config) :
    Prop where
  next : r.1 = .next
  same : Config.AgreeAfter P r s
  kept : ∀ x, K x → r.2.vars x = vars x

/-- An effect leads to the statement behind it. It is the same on configurations that agree on what
satisfies `P`, and leaves the variables that satisfy `K` as they are. -/
def Effect.Confined (P K : String → Prop) (f : Effect) : Prop :=
  ∀ σ τ, σ.Agree P τ → Run.Same (Config.Follows P K σ.vars) (f σ) (f τ)

section

variable {P K : String → Prop} {σ τ : Config}

theorem Config.Agree.refl (σ : Config) : σ.Agree P σ :=
  ⟨rfl, fun _ _ => rfl⟩

theorem Config.Agree.mono (h : σ.Agree P τ) (hQP : ∀ x, Q x → P x) : σ.Agree Q τ :=
  ⟨h.world, fun x hx => h.vars x (hQP x hx)⟩

theorem Config.Agree.trans (h : σ.Agree P τ) (h' : τ.Agree P ρ) : σ.Agree P ρ :=
  ⟨h.world.trans h'.world, fun x hx => (h.vars x hx).trans (h'.vars x hx)⟩

theorem Config.agree_set (hx : ¬ P x) (v : Word) : (σ.set x v).Agree P σ := by
  refine ⟨rfl, fun y hy => ?_⟩
  have hne : y ≠ x := fun h => hx (h ▸ hy)
  simp [Config.set, hne]

theorem Config.Agree.set (h : σ.Agree P τ) (x : String) (v : Word) :
    (σ.set x v).Agree P (τ.set x v) := by
  refine ⟨h.world, fun y hy => ?_⟩
  simp [Config.set, h.vars y hy]

theorem Config.Agree.setAll (h : σ.Agree P τ) (pairs : List (String × Word)) :
    (σ.setAll pairs).Agree P (τ.setAll pairs) := by
  induction pairs generalizing σ τ with
  | nil => exact h
  | cons p pairs ih => exact ih (h.set p.1 p.2)

theorem Config.Agree.leave {σ' τ' : Config} (h : σ.Agree P τ) (h' : σ'.Agree P τ') :
    (σ'.leave σ).Agree P (τ'.leave τ) := by
  refine ⟨h'.world, fun x hx => ?_⟩
  simp [Config.leave, h.vars x hx, h'.vars x hx]

theorem Config.Agree.follows (h : σ.Agree P τ) : Config.Follows P K σ.vars (.next, σ) (.next, τ) :=
  ⟨rfl, ⟨rfl, h⟩, fun _ _ => rfl⟩

theorem Config.Agree.bind (h : σ.Agree P τ) {names : List String} (hkept : ∀ x ∈ names, ¬ K x)
    (vs : List Word) :
    Run.Same (Config.Follows P K σ.vars) (σ.bind names vs) (τ.bind names vs) := by
  unfold Config.bind
  split
  · refine ⟨rfl, ⟨rfl, h.setAll _⟩, fun x hx => Config.vars_setAll_of_notMem ?_⟩
    rintro ⟨y, v⟩ hp rfl
    exact hkept y (of_mem_zip hp).1 hx
  · rfl

theorem Config.Agree.assign (h : σ.Agree P τ) (hnames : ∀ x ∈ names, P x)
    (hkept : ∀ x ∈ names, ¬ K x) (vs : List Word) :
    Run.Same (Config.Follows P K σ.vars) (σ.assign names vs) (τ.assign names vs) := by
  -- an assignment has a meaning where its variables are declared
  have hsome : (names.all fun x => (σ.vars x).isSome) = names.all fun x => (τ.vars x).isSome := by
    rw [Bool.eq_iff_iff, all_eq_true, all_eq_true]
    exact forall₂_congr fun x hx => by rw [h.vars x (hnames x hx)]
  unfold Config.assign
  rw [hsome]
  split
  · exact h.bind hkept vs
  · rfl

theorem Effect.confined_next : Effect.Confined P K fun σ => pure (Flow.next, σ) :=
  fun _ _ h => h.follows

theorem Effect.Confined.inBlock (hf : f.Confined P K) : (inBlock f).Confined P K := by
  intro σ τ h
  refine (hf σ τ h).bind fun r s hrs => ?_
  refine ⟨hrs.next, ⟨hrs.same.1, h.leave hrs.same.2⟩, fun x hx => ?_⟩
  -- a variable of the block is gone behind it, and had no value in front of it
  cases hσ : σ.vars x <;> simp [Config.leave, hσ, hrs.kept x hx]

theorem Effect.Confined.andThen (hf : f.Confined P K) (hg : g.Confined P K) :
    (andThen f g).Confined P K := by
  intro σ τ h
  refine (hf σ τ h).bind ?_
  rintro ⟨_, σ'⟩ ⟨_, τ'⟩ ⟨rfl, ⟨rfl, h'⟩, hkept⟩
  refine (hg σ' τ' h').mono fun r s hrs => ?_
  exact { hrs with kept := fun x hx => (hrs.kept x hx).trans (hkept x hx) }

theorem Effect.Confined.iterate
    (hc : ∀ σ τ, σ.Agree P τ → Run.Same (Config.Evaluated P σ.vars) (condition σ) (condition τ))
    (hf : f.Confined P K) (hg : g.Confined P K) (n : Nat) :
    Effect.Confined P K (iterate condition f g n) := by
  induction n with
  | zero => exact fun σ τ _ => rfl
  | succ n ih =>
    intro σ τ h
    refine (hc σ τ h).bind ?_
    rintro ⟨v, σ'⟩ ⟨_, τ'⟩ ⟨⟨rfl, h'⟩, hvars⟩
    rw [← hvars]
    by_cases hv : v = 0#256
    · simp only [if_pos hv]
      exact h'.follows
    · simp only [if_neg hv]
      refine (hg σ' τ' h').bind ?_
      rintro ⟨_, σ''⟩ ⟨_, τ''⟩ ⟨rfl, ⟨rfl, h''⟩, hkept⟩
      refine ((hf.andThen ih) σ'' τ'' h'').mono fun r s hrs => ?_
      exact { hrs with kept := fun x hx => (hrs.kept x hx).trans (hkept x hx) }

end

namespace Machine

variable {P : String → Prop}

mutual

theorem same_eval : ∀ {e : Expr} {σ τ : Config}, e.Mentions P → σ.Agree P τ →
    Run.Same (Config.Evaluated P σ.vars) (m.eval e σ) (m.eval e τ)
  | .literal l, σ, τ, _, h => by
    rw [eval, eval]
    refine (Run.same_self (m.context.literal l)).bind ?_
    rintro v _ rfl
    exact ⟨⟨rfl, h⟩, rfl⟩
  | .ident x, σ, τ, hx, h => by
    rw [eval, eval, h.vars x hx]
    cases τ.vars x with
    | none => rfl
    | some v => exact ⟨⟨rfl, h⟩, rfl⟩
  | .call name args, σ, τ, hargs, h => by
    rw [eval, eval]
    refine (same_evalArgs hargs h).bind ?_
    rintro ⟨vs, σ'⟩ ⟨_, τ'⟩ ⟨⟨rfl, h'⟩, hvars⟩
    have hworld : σ'.world = τ'.world := h'.world
    simp only [hworld]
    refine (Run.same_self (m.apply name vs τ'.world)).bind ?_
    rintro ⟨rs, w⟩ _ rfl
    exact ⟨⟨rfl, rfl, h'.vars⟩, hvars⟩

theorem same_evalArgs : ∀ {es : List Expr} {σ τ : Config}, Expr.AllMention P es →
    σ.Agree P τ → Run.Same (Config.Evaluated P σ.vars) (m.evalArgs es σ) (m.evalArgs es τ)
  | [], σ, τ, _, h => by
    rw [evalArgs, evalArgs]
    exact ⟨⟨rfl, h⟩, rfl⟩
  | e :: rest, σ, τ, hes, h => by
    rw [evalArgs, evalArgs]
    -- the last argument is evaluated first
    refine (same_evalArgs hes.2 h).bind ?_
    rintro ⟨vs, σ'⟩ ⟨_, τ'⟩ ⟨⟨rfl, h'⟩, hvars⟩
    refine (same_eval hes.1 h').bind ?_
    rintro ⟨rs, σ''⟩ ⟨_, τ''⟩ ⟨⟨rfl, h''⟩, hvars'⟩
    refine (Run.same_self (single rs)).bind ?_
    rintro v _ rfl
    exact ⟨⟨rfl, h''⟩, hvars'.trans hvars⟩

end

theorem same_evalOne (he : e.Mentions P) (h : σ.Agree P τ) :
    Run.Same (Config.Evaluated P σ.vars) (m.evalOne e σ) (m.evalOne e τ) := by
  refine (same_eval he h).bind ?_
  rintro ⟨rs, σ'⟩ ⟨_, τ'⟩ ⟨⟨rfl, h'⟩, hvars⟩
  refine (Run.same_self (single rs)).bind ?_
  rintro v _ rfl
  exact ⟨⟨rfl, h'⟩, hvars⟩

theorem vars_evalOne (h : m.evalOne e σ = .ok (v, σ')) : σ'.vars = σ.vars := by
  have hsame := same_evalOne (m := m) e.mentions_any (.refl σ)
  rw [h] at hsame
  exact hsame.2

mutual

theorem confined_exec : ∀ {s : Stmt}, s.Mentions P → (∀ x ∈ s.written, ¬ K x) →
    Effect.Confined P K (m.exec s)
  | .block body, hs, hk => fun σ τ h => by
    rw [exec, exec]
    exact (confined_execAll hs hk).inBlock σ τ h
  | .declare names none, _, hk => fun σ τ h => by
    rw [exec, exec]
    exact h.bind hk _
  | .declare names (some e), hs, hk => fun σ τ h => by
    rw [exec, exec]
    refine (same_eval hs.2 h).bind ?_
    rintro ⟨vs, σ'⟩ ⟨_, τ'⟩ ⟨⟨rfl, h'⟩, hvars⟩
    exact hvars ▸ h'.bind hk vs
  | .assign names e, hs, hk => fun σ τ h => by
    rw [exec, exec]
    refine (same_eval hs.2 h).bind ?_
    rintro ⟨vs, σ'⟩ ⟨_, τ'⟩ ⟨⟨rfl, h'⟩, hvars⟩
    exact hvars ▸ h'.assign hs.1 hk vs
  | .eval e, hs, _ => fun σ τ h => by
    rw [exec, exec]
    refine (same_eval hs h).bind ?_
    rintro ⟨vs, σ'⟩ ⟨_, τ'⟩ ⟨⟨rfl, h'⟩, hvars⟩
    simp only
    split
    · exact hvars ▸ h'.follows
    · rfl
  | .ifThen condition body, hs, hk => fun σ τ h => by
    rw [exec, exec]
    refine (same_evalOne hs.1 h).bind ?_
    rintro ⟨v, σ'⟩ ⟨_, τ'⟩ ⟨⟨rfl, h'⟩, hvars⟩
    rw [← hvars]
    simp only
    split
    · exact h'.follows
    · exact (confined_execAll hs.2 hk).inBlock σ' τ' h'
  | .switch e cases none, hs, hk => fun σ τ h => by
    rw [exec, exec]
    refine (same_evalOne hs.1 h).bind ?_
    rintro ⟨v, σ'⟩ ⟨_, τ'⟩ ⟨⟨rfl, h'⟩, hvars⟩
    exact hvars ▸ confined_execCases hs.2 hk Effect.confined_next σ' τ' h'
  | .switch e cases (some body), hs, hk => fun σ τ h => by
    rw [exec, exec]
    refine (same_evalOne hs.1 h).bind ?_
    rintro ⟨v, σ'⟩ ⟨_, τ'⟩ ⟨⟨rfl, h'⟩, hvars⟩
    obtain ⟨hcases, hbody⟩ := forall_mem_append.1 hk
    exact hvars ▸ confined_execCases hs.2.1 hcases (confined_execAll hs.2.2 hbody).inBlock σ' τ' h'
  | .loop init condition post body, hs, hk => fun σ τ h => by
    rw [exec, exec]
    obtain ⟨hk, hbody⟩ := forall_mem_append.1 hk
    obtain ⟨hinit, hpost⟩ := forall_mem_append.1 hk
    have hrounds := Effect.Confined.iterate
      (fun σ τ h => same_evalOne (m := m) (e := condition) hs.2.1 h)
      (confined_execAll hs.2.2.1 hpost).inBlock (confined_execAll hs.2.2.2 hbody).inBlock m.rounds
    exact ((confined_execAll hs.1 hinit).andThen hrounds).inBlock σ τ h
  | .comment _, _, _ => fun σ τ h => by
    rw [exec, exec]
    exact h.follows
  | .raw _, hs, _ | .break, hs, _ | .continue, hs, _ | .leave, hs, _ | .function _ _ _ _, hs, _ =>
    hs.elim

theorem confined_execAll : ∀ {ss : List Stmt}, AllMention P ss →
    (∀ x ∈ allWritten ss, ¬ K x) → Effect.Confined P K (m.execAll ss)
  | [], _, _ => fun σ τ h => by
    rw [execAll, execAll]
    exact h.follows
  | s :: rest, hs, hk => fun σ τ h => by
    rw [execAll, execAll]
    obtain ⟨hfirst, hrest⟩ := forall_mem_append.1 hk
    exact ((confined_exec hs.1 hfirst).andThen (confined_execAll hs.2 hrest)) σ τ h

theorem confined_execCases :
    ∀ {cases : List (Literal × List Stmt)}, CasesMention P cases →
      (∀ x ∈ casesWritten cases, ¬ K x) → otherwise.Confined P K →
      Effect.Confined P K (m.execCases v otherwise cases)
  | [], _, _, hother => fun σ τ h => by
    rw [execCases, execCases]
    exact hother σ τ h
  | (l, body) :: rest, hs, hk, hother => fun σ τ h => by
    rw [execCases, execCases]
    obtain ⟨hbody, hrest⟩ := forall_mem_append.1 hk
    refine (Run.same_self (m.context.literal l)).bind ?_
    rintro w _ rfl
    split
    · exact (confined_execAll hs.1 hbody).inBlock σ τ h
    · exact confined_execCases hs.2 hrest hother σ τ h

end

variable {code : List Stmt} {σ : Config}

/-- Behind code without jumps control goes on, and variables that it does not write have stayed. -/
theorem execAll_goesOn (hcode : AllMention P code) (h : m.execAll code σ = .ok (flow, σ')) :
    flow = .next ∧ ∀ x, x ∉ allWritten code → σ'.vars x = σ.vars x := by
  have hsame := confined_execAll (m := m) (K := (· ∉ allWritten code)) hcode
    (fun _ hx hk => hk hx) σ σ (.refl σ)
  rw [h] at hsame
  exact ⟨hsame.next, hsame.kept⟩

/-- Code without jumps that mentions what two configurations agree on ends in the same way on
both. -/
theorem execAll_agree (hcode : AllMention P code) (h : σ.Agree P τ) :
    (∃ stop, m.execAll code τ = .error stop ∧ m.execAll code σ = .error stop) ∨
      ∃ σ' τ', m.execAll code τ = .ok (.next, τ') ∧ m.execAll code σ = .ok (.next, σ') ∧
        σ'.Agree P τ' := by
  rcases (confined_execAll (m := m) hcode (fun _ _ => id) σ τ h).cases with
    ⟨stop, hσ, hτ⟩ | ⟨⟨_, σ'⟩, ⟨_, τ'⟩, hσ, hτ, rfl, ⟨rfl, hagree⟩, -⟩
  · exact .inl ⟨stop, hτ, hσ⟩
  · exact .inr ⟨σ', τ', hτ, hσ, hagree⟩

end Machine

/-! ## Code that changes nothing -/

/-- A run does not end the call, and its result satisfies `R` if it has one. -/
def Run.Ends {α : Type} (R : α → Prop) : Run α → Prop
  | .ok a => R a
  | .error (.halted _ _) => False
  | .error .stuck | .error .exhausted => True

theorem Run.Ends.bind {f : α → Run β} (hx : x.Ends R) (hf : ∀ a, R a → (f a).Ends S) :
    (x >>= f).Ends S := by
  match x, hx with
  | .ok a, ha => exact hf a ha
  | .error .stuck, _ => trivial
  | .error .exhausted, _ => trivial

def Action.Quiet (a : Action) : Prop :=
  ∀ args w, (a args w).Ends fun r => r.2 = w

theorem Action.quiet_ofReading (reading : World → Reading) : (Action.ofReading reading).Quiet := by
  intro args w
  unfold Action.ofReading
  cases reading w args with
  | none => trivial
  | some v => rfl

theorem Context.instruction?_of_mem (ctx : Context) (h : name ∈ readingNames) :
    ∃ reading, ctx.instruction? name = some (.ofReading reading) := by
  rw [← ctx.map_fst_readings] at h
  unfold Context.instruction? Context.instructions
  generalize ctx.readings = readings at h ⊢
  induction readings with
  | nil => simp at h
  | cons entry rest ih =>
    by_cases hname : name = entry.1
    · exact ⟨entry.2, by simp [hname]⟩
    · have hrest : name ∈ rest.map (·.1) := by
        exact (mem_cons.1 h).resolve_left hname
      obtain ⟨reading, hreading⟩ := ih hrest
      refine ⟨reading, ?_⟩
      rw [← hreading]
      simp [lookup_cons, beq_false_of_ne hname]

theorem ends_single (vs : List Word) : (single vs).Ends fun _ => True := by
  unfold single
  split <;> trivial

namespace Machine

/-- The comparison of byte strings changes nothing. -/
def Quiet (m : Machine) : Prop :=
  (m.invoke "string_equal").Quiet

theorem quiet_apply (hm : m.Quiet) (hname : name ∈ quietNames) : (m.apply name).Quiet := by
  unfold apply
  rcases mem_cons.1 hname with rfl | hreading
  · exact hm
  · obtain ⟨reading, h⟩ := m.context.instruction?_of_mem hreading
    rw [h]
    exact Action.quiet_ofReading reading

mutual

theorem ends_eval (hm : m.Quiet) : ∀ {e : Expr} {σ : Config}, e.Plain P →
    (m.eval e σ).Ends fun r => r.2 = σ
  | .literal l, σ, _ => by
    rw [eval]
    cases l with
    | string s => rfl
    | number text =>
      rw [Context.literal]
      split <;> trivial
  | .ident x, σ, _ => by
    rw [eval]
    split
    · rfl
    · trivial
  | .call name args, σ, he => by
    rw [eval]
    refine (ends_evalArgs hm he.2).bind ?_
    rintro ⟨vs, _⟩ rfl
    refine (quiet_apply hm he.1 vs _).bind ?_
    rintro ⟨rs, w⟩ rfl
    rfl

theorem ends_evalArgs (hm : m.Quiet) : ∀ {es : List Expr} {σ : Config},
    Expr.AllFit P (fun u => u.name ∈ quietNames) es → (m.evalArgs es σ).Ends fun r => r.2 = σ
  | [], σ, _ => by
    rw [evalArgs]
    rfl
  | e :: rest, σ, hes => by
    rw [evalArgs]
    refine (ends_evalArgs hm hes.2).bind ?_
    rintro ⟨vs, _⟩ rfl
    refine (ends_eval hm hes.1).bind ?_
    rintro ⟨rs, _⟩ rfl
    exact (ends_single rs).bind fun v _ => rfl

end

theorem ends_results (σ : Config) (names : List String) : (results σ names).Ends fun _ => True := by
  induction names with
  | nil => trivial
  | cons x names ih =>
    unfold results
    split
    · exact ih.bind fun _ _ => trivial
    · trivial

theorem world_setAll (σ : Config) (pairs : List (String × Word)) :
    (σ.setAll pairs).world = σ.world := by
  induction pairs generalizing σ with
  | nil => rfl
  | cons p pairs ih => exact ih (σ.set p.1 p.2)

theorem ends_assign (hm : m.Quiet) (he : e.Plain P) (σ : Config) :
    (m.exec (.assign names e) σ).Ends fun r => r.2.world = σ.world := by
  refine (ends_eval hm he).bind ?_
  rintro ⟨vs, _⟩ rfl
  simp only [Config.assign, Config.bind]
  split
  · split
    · exact world_setAll _ _
    · trivial
  · trivial

theorem quiet_runFunction (hm : m.Quiet) (hbody : ∀ f, functions name = some f →
      ∃ x e, f.body = [.assignOne x e] ∧ e.Plain fun _ => True) :
    (m.runFunction functions name).Quiet := by
  intro args w
  unfold runFunction
  cases hf : functions name with
  | none => trivial
  | some f =>
    obtain ⟨x, e, hcode, he⟩ := hbody f hf
    -- the body sets a variable of the function, which is gone behind it
    have hassign : (m.execAll f.body (entry f args w)).Ends fun r => r.2.world = w := by
      have hentry : (entry f args w).world = w := world_setAll _ _
      rw [hcode]
      refine (ends_assign hm he _).bind ?_
      rintro ⟨flow, σ⟩ hσ
      rw [hentry] at hσ
      cases flow <;> exact hσ
    simp only
    split
    · refine hassign.bind ?_
      rintro ⟨flow, σ⟩ rfl
      exact (ends_results σ f.returns).bind fun _ _ => rfl
    · trivial

/-- The routine that compares byte strings is quiet at every limit. -/
theorem quiet_within (ctx : Context)
    (h : ∀ f, functions "string_equal" = some f → f = FixedRoutine.stringEqualDef) (n : Nat) :
    (within ctx functions n).Quiet := by
  induction n with
  | zero => exact fun args w => trivial
  | succ n ih =>
    apply quiet_runFunction ih
    intro f hf
    obtain rfl := h f hf
    refine ⟨"result", Op.both (Op.eq (Op.mload (ident "a")) (Op.mload (ident "b")))
      (Op.eq (Op.hashOf (ident "a")) (Op.hashOf (ident "b"))), rfl, ?_⟩
    simp

end Machine

end ContractYul.Yul
