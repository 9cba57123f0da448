import ContractYul.Proofs.Lowering.Captures
import ContractYul.Proofs.Lowering.Statements

/-!
# Order of evaluation

Expressions that are lowered in order are evaluated from left to right. The statements that each of
them needs come in the order of the expressions, and an expression that is left to be evaluated
after them has the value that it had in its turn.

Main statement: `ordered_leftToRight`, for states with names that are kept apart, which are all
states of a function being lowered. There is one exception, which `ordered_rereads_variable` shows to
be real: an expression that is a plain variable is not bound to a temporary, and has a new value when
a later expression assigns to the variable.
-/

open List

namespace ContractYul.Lowering

open Yul Machine Stmt

/-! ## Expressions in order -/

def lowered (levels : Nat) (part : Source.Expr × Option Ty) : Lower Value :=
  match part.2 with
  | none => (denoteWithin levels part.1).value
  | some ty => (denoteWithin levels part.1).valueAs ty

variable {env : Env} {levels n : Nat} {parts : List (Source.Expr × Option Ty)} {p : Piece}
  {st₁ st : State} {α : Type}

theorem lowers_lowered : Lowers env κ (lowered levels part) (PlainValue env) := by
  unfold lowered
  split
  · exact (sound_denoteWithin levels part.1).value
  · exact (sound_denoteWithin levels part.1).valueAs

theorem emitAll_nil : emitAll [] = pure () := by
  funext env st
  show Except.ok ((), { st with code := st.code ++ [] }) = Except.ok ((), st)
  rw [append_nil]

theorem map_after (v : Value) (m : Lower Value) :
    (fun p => [p.1, p.2]) <$> after v m = orderedAfter [v] [m] := by
  unfold after orderedAfter
  rw [map_bind]
  refine bind_congr fun p => ?_
  obtain ⟨prelude, w⟩ := p
  cases prelude with
  | nil => simp [emitAll_nil, orderedAfter]
  | cons s prelude => simp [captureCalls, orderedAfter]

/-- Two operands are lowered as a list of two is. -/
theorem map_orderedPair (first second : Lower Value) :
    (fun p => [p.1, p.2]) <$> orderedPair first second = ordered [first, second] := by
  unfold orderedPair ordered orderedAfter
  rw [map_bind]
  refine bind_congr fun p => ?_
  obtain ⟨prelude, v⟩ := p
  cases prelude with
  | nil => simp [emitAll_nil, map_after]
  | cons s prelude => simp [captureCalls, map_after]

/-- The ways to lower expressions in order: their values, their values of expected types, and the
values of two operands. -/
inductive InOrder (levels : Nat) : List (Source.Expr × Option Ty) → Lower (List Value) → Prop
  | values (es : List Source.Expr) :
    InOrder levels (es.map fun e => (e, none)) (orderedValues (es.map (denoteWithin levels)))
  | typed (es : List Source.Expr) (types : List Ty) :
    InOrder levels ((es.zip types).map fun p => (p.1, some p.2))
      (orderedAs (es.map (denoteWithin levels)) types)
  | pair (first second : Source.Expr × Option Ty) :
    InOrder levels [first, second]
      ((fun p => [p.1, p.2]) <$> orderedPair (lowered levels first) (lowered levels second))

theorem InOrder.eq_ordered (h : InOrder levels parts lower) :
    lower = ordered (parts.map (lowered levels)) := by
  cases h with
  | values es =>
    rw [orderedValues, map_map, map_map]
    rfl
  | typed es types =>
    rw [orderedAs, zipWith_map_left, map_map, ← map_uncurry_zip_eq_zipWith]
    rfl
  | pair first second => exact map_orderedPair _ _

/-! ## Evaluation from left to right -/

/-- What lowering an expression gives: the statements that it needs, and its value. -/
abbrev Piece := List Yul.Stmt × Value

/-- Runs the statements of each expression and evaluates it then, one expression after the other. -/
def leftToRight (m : Machine) : List Piece → Config → Run (List Word × Config)
  | [], τ => .ok ([], τ)
  | p :: rest, τ => do
    let (_, τ) ← m.execAll p.1 τ
    let (w, τ) ← m.evalOne p.2.expr τ
    let (ws, τ) ← leftToRight m rest τ
    return (w :: ws, τ)

theorem leftToRight_cons (hrun : m.execAll p.1 σ = .ok (flow, τ)) (hw : m.Yields τ p.2.expr w)
    (hrest : leftToRight m pieces τ = .ok (ws, τ')) :
    leftToRight m (p :: pieces) σ = .ok (w :: ws, τ') := by
  unfold Yields at hw
  simp [leftToRight, hrun, evalOne, hw, single, hrest]

def Overwritten (scopes : List Scope) (pieces : List Piece) (x : String) : Prop :=
  x ∈ scopeNames scopes ∧ ∃ p ∈ pieces, x ∈ allWritten p.1

def Stands (m : Machine) (σ : Config) (S : String → Prop) (v : Value) (w : Word) : Prop :=
  m.Yields σ v.expr w ∨ ∃ x, v.expr = ident x ∧ S x

/-- Each value has its word, unless it is a variable that a later expression writes. -/
def Settled (m : Machine) (σ : Config) (scopes : List Scope) :
    List Value → List Piece → List Word → Prop
  | [], [], [] => True
  | v :: vs, _ :: pieces, w :: ws =>
    Stands m σ (Overwritten scopes pieces) v w ∧ Settled m σ scopes vs pieces ws
  | _, _, _ => False

/-- No value before statements of a later expression reads storage or memory. -/
def Captured : List Value → List Piece → Prop
  | [], [] => True
  | v :: vs, _ :: pieces =>
    ((∃ p ∈ pieces, p.1 ≠ []) → v.expr.isCall = false) ∧ Captured vs pieces
  | _, _ => False

/-- A run ends as evaluation from left to right does, and `R` relates the results of both. -/
def Follows (m : Machine) (code : List Yul.Stmt) (σ : Config)
    (R : List Word → Config → Config → Prop) : Run (List Word × Config) → Prop
  | .ok (ws, τ) => ∃ σ', m.execAll code σ = .ok (.next, σ') ∧ R ws τ σ'
  | .error (.halted how w) => m.execAll code σ = .error (.halted how w)
  | .error .stuck | .error .exhausted => True

section

variable {m : Machine} {σ σ' : Config} {code rest : List Yul.Stmt}
  {R R' : List Word → Config → Config → Prop}

variable {run : Run (List Word × Config)}

theorem Follows.after (h : Follows m rest σ' R run)
    (hcode : m.execAll code σ = .ok (.next, σ')) : Follows m (code ++ rest) σ R run := by
  have happend : m.execAll (code ++ rest) σ = m.execAll rest σ' := by
    rw [execAll_append, andThen, hcode]
    rfl
  unfold Follows at h ⊢
  rw [happend]
  exact h

theorem Follows.stops (hcode : m.execAll code σ = .error stop) :
    Follows m (code ++ rest) σ R (.error stop) := by
  have happend : m.execAll (code ++ rest) σ = .error stop := by
    rw [execAll_append, andThen, hcode]
    rfl
  cases stop with
  | halted how world => exact happend
  | stuck => trivial
  | exhausted => trivial

theorem Follows.imp (h : Follows m code σ R run)
    (hR : ∀ ws τ' σ', R ws τ' σ' → R' ws τ' σ') : Follows m code σ R' run := by
  match run, h with
  | .ok (ws, τ'), ⟨σ', hrun, hr⟩ => exact ⟨σ', hrun, hR ws τ' σ' hr⟩
  | .error (.halted how world), hrun => exact hrun
  | .error .stuck, _ => trivial
  | .error .exhausted, _ => trivial

theorem Follows.cons {w : Word} (h : Follows m code σ R run)
    (hR : ∀ ws τ' σ', R ws τ' σ' → R' (w :: ws) τ' σ') :
    Follows m code σ R' (run >>= fun r => pure (w :: r.1, r.2)) := by
  match run, h with
  | .ok (ws, τ'), ⟨σ', hrun, hr⟩ => exact ⟨σ', hrun, hR ws τ' σ' hr⟩
  | .error (.halted how world), hrun => exact hrun
  | .error .stuck, _ => trivial
  | .error .exhausted, _ => trivial

theorem follows_value {v : Value} (hm : m.Quiet) (hv : v.expr.Plain P)
    (hrest : ∀ w, m.Yields τ v.expr w →
      Follows m code σ (fun ws τ' σ' => R (w :: ws) τ' σ') (leftToRight m pieces τ)) :
    Follows m code σ R (do
      let (w, τ) ← m.evalOne v.expr τ
      let (ws, τ) ← leftToRight m pieces τ
      return (w :: ws, τ)) := by
  rcases evalOne_plain hm hv with ⟨w, hw, hrun⟩ | hrun | hrun
  · rw [hrun]
    exact (hrest w hw).cons fun _ _ _ h => h
  · rw [hrun]
    trivial
  · rw [hrun]
    trivial

end

/-! ## Runs of lowering -/

/-- Names that the code of an expression may mention: variables in scope, and names of its own. -/
def Own (st st₁ : State) (x : String) : Prop :=
  (x ∈ scopeNames st.scopes ∨ st.Reserved x) ∧ ¬ st₁.Reserved x

structure PieceOf (st : State) (p : Piece) (st₁ : State) : Prop where
  prelude : AllMention (Own st st₁) p.1
  value : p.2.expr.Plain (Own st st₁)
  wellNamed : st₁.WellNamed
  counter : st.counter ≤ st₁.counter
  pending : ∀ x ∈ pendingNames st₁.guard, x ∈ pendingNames st.guard
  scopes : st₁.scopes = st.scopes
  code : st₁.code = st.code

theorem PieceOf.reserved (h : PieceOf st p st₁) (hx : st₁.Reserved x) : st.Reserved x :=
  hx.imp (·.mono h.counter) (h.pending x)

/-- The code of an expression mentions none of the temporaries that were made before. -/
theorem Own.notMade (h : Own st st₁ x)
    (hold : ∀ x, x ∈ scopeNames st.scopes ∨ x ∈ pendingNames st.guard → ¬ IsTemp n x) :
    ¬ MadeBetween n st.counter x := by
  rintro ⟨hn, hcounter⟩
  rcases h.1 with hscope | ht | hp
  · exact hold x (.inl hscope) hn
  · exact hcounter ht
  · exact hold x (.inr hp) hn

theorem inScope_frame (h : inScope m env st = .ok (r, st₁)) :
    st₁.code = st.code ∧ st₁.scopes = st.scopes := by
  obtain ⟨st₂, -, -, rfl⟩ := inScope_eq_ok.1 h
  exact ⟨rfl, rfl⟩

theorem pieceOf_lowered (hst : st.WellNamed)
    (h : inScope (lowered levels part) env st = .ok (p, st₁)) : PieceOf st p st₁ := by
  obtain ⟨hframe, hscopes⟩ := inScope_frame h
  set κ₀ : Stage := ⟨st.naming False True, st.progress, [], fun _ => False⟩
  have hκ₀ : κ₀.Describes st := ⟨State.describes_naming fun _ => hst, rfl⟩
  obtain ⟨κ, hstep, htakes, hwrite, hvalue⟩ :=
    Lowers.inScope Lowers.stays_plainValue lowers_lowered st p st₁ hκ₀ h
  have hs : κ.naming.strict := hstep.le.naming.strict ▸ trivial
  have hafter := hstep.after.naming
  obtain ⟨hown, hmade⟩ := hstep.of_code_eq hframe rfl
  have hknown : ∀ x, κ.Knows x → Own st st₁ x := by
    intro x hx
    refine ⟨?_, fun hr => (hx hs).2 (hafter.reserved_iff.2 hr)⟩
    exact (hown x (hx hs).1).imp_right .inr
  -- what the statements declare is in hand: temporaries that were made for it
  have hdeclared : ∀ x ∈ allDeclared p.1, Own st st₁ x := by
    intro x hx
    have hhand : x ∈ κ.naming.inHand := htakes.inHand.mem_iff.2 (mem_append_left _ hx)
    refine ⟨.inr (.inl ?_), fun hr => (hafter.wellFormed hs).hand x hhand (hafter.reserved_iff.2 hr)⟩
    rcases hmade x hhand with hmade | ⟨hnew, hold, -⟩
    · exact hmade.1
    · exact absurd (htakes.declared ▸ hnew) hold
  have hflow : AllMention (fun _ => True) p.1 :=
    hwrite.flow.resolve_left hstep.le.naming.jumps.mp
  have hvalue : p.2.expr.Plain (κ.behind p.1).Knows :=
    hvalue.mono (fun _ => id) fun _ hu => hu.quiet rfl
  refine ⟨(hwrite.seen hs).mentions hknown hflow hdeclared, hvalue.mono fun x hx => ?_,
    hafter.wellNamed hs, ?_, ?_, hscopes, hframe⟩
  · exact (Naming.knows_of_seeing hx).elim (hknown x) fun hx => hdeclared x (mem_allDeclared hx)
  · rw [hafter.counter]
    exact hstep.le.naming.counter
  · rw [hafter.pending]
    exact htakes.pending

/-- Expressions become pieces one after the other; between them the counter may rise and code may be
written. -/
inductive InTurn (levels : Nat) (env : Env) :
    State → List (Source.Expr × Option Ty) → List Piece → State → Prop
  | nil {st : State} : InTurn levels env st [] [] st
  | cons {st st₁ st' : State} {part : Source.Expr × Option Ty} {p : Piece}
      {parts : List (Source.Expr × Option Ty)} {pieces : List Piece} {k : Nat}
      {code : List Yul.Stmt} (hpart : inScope (lowered levels part) env st = .ok (p, st₁))
      (hk : st₁.counter ≤ k)
      (hrest : InTurn levels env { st₁ with counter := k, code := code } parts pieces st') :
      InTurn levels env st (part :: parts) (p :: pieces) st'

/-- What lowering expressions after the values `vs` does, step by step: the values become `vs'`, the
expressions become `pieces` with the values `fresh`, and `code` is written. -/
inductive OrderedRun (levels : Nat) (env : Env) : State → List Value →
    List (Source.Expr × Option Ty) → List Piece → List Yul.Stmt → List Value → List Value →
    State → Prop
  | nil {st : State} {vs : List Value} : OrderedRun levels env st vs [] [] [] vs [] st
  | silent {st st₁ st' : State} {vs vs' fresh : List Value} {v v' : Value}
      {part : Source.Expr × Option Ty} {parts : List (Source.Expr × Option Ty)}
      {pieces : List Piece} {code : List Yul.Stmt}
      (hpart : inScope (lowered levels part) env st = .ok (([], v), st₁))
      (hrest : OrderedRun levels env st₁ (vs ++ [v]) parts pieces code (vs' ++ [v']) fresh st') :
      OrderedRun levels env st vs (part :: parts) (([], v) :: pieces) code vs' (v' :: fresh) st'
  | coded {st st₁ st' : State} {vs vs₁ vs' fresh : List Value} {v v' : Value} {k : Nat}
      {part : Source.Expr × Option Ty} {parts : List (Source.Expr × Option Ty)}
      {pieces : List Piece} {prelude captures code : List Yul.Stmt}
      (hpart : inScope (lowered levels part) env st = .ok ((prelude, v), st₁))
      (hprelude : prelude ≠ []) (hcaptures : Captures st₁.counter vs captures vs₁ k)
      (hrest : OrderedRun levels env
        { st₁ with counter := k, code := st₁.code ++ captures ++ prelude } (vs₁ ++ [v]) parts
        pieces code (vs' ++ [v']) fresh st') :
      OrderedRun levels env st vs (part :: parts) ((prelude, v) :: pieces)
        (captures ++ prelude ++ code) vs' (v' :: fresh) st'

theorem exists_snoc (h : as.length = n + 1) : ∃ bs b, as = bs ++ [b] ∧ bs.length = n := by
  rcases as.eq_nil_or_concat' with rfl | ⟨bs, b, rfl⟩
  · simp at h
  · exact ⟨bs, b, rfl, by simpa using h⟩

theorem orderedRun_orderedAfter
    (h : orderedAfter vs (parts.map (lowered levels)) env st = .ok (values, st')) :
    ∃ pieces code vs' fresh, values = vs' ++ fresh ∧ vs'.length = vs.length ∧
      OrderedRun levels env st vs parts pieces code vs' fresh st' := by
  induction parts generalizing vs st with
  | nil =>
    obtain ⟨rfl, rfl⟩ : vs = values ∧ st = st' := Outcome.pair_inj h
    exact ⟨[], [], vs, [], by simp, rfl, .nil⟩
  | cons part parts ih =>
    obtain ⟨⟨⟨prelude, v⟩, st₁⟩, hpart, h⟩ := Outcome.bind_eq_ok.1 h
    by_cases hprelude : prelude = []
    · subst hprelude
      obtain ⟨pieces, code, ws, fresh, rfl, hlength, hrest⟩ := ih h
      rw [length_append] at hlength
      obtain ⟨vs', v', rfl, hkept⟩ := exists_snoc hlength
      exact ⟨_, _, vs', v' :: fresh, by simp, hkept, .silent hpart hrest⟩
    · have hempty : prelude.isEmpty = false := by simpa using hprelude
      simp only [hempty] at h
      obtain ⟨⟨vs₁, st₂⟩, hcapture, h⟩ := Outcome.bind_eq_ok.1 h
      obtain ⟨captures, hcaptures, hst₂⟩ := captures_captureCalls hcapture
      obtain ⟨pieces, code, ws, fresh, rfl, hlength, hrest⟩ := ih h
      rw [length_append] at hlength
      obtain ⟨vs', v', rfl, hkept⟩ := exists_snoc hlength
      rw [hst₂] at hrest
      exact ⟨_, _, vs', v' :: fresh, by simp, hkept.trans hcaptures.length_eq,
        .coded hpart hprelude hcaptures hrest⟩

theorem forall₂_snoc (h : Forall₂ R (as ++ [a]) (bs ++ [b])) : Forall₂ R as bs ∧ R a b := by
  have h := forall₂_reverse_iff.2 h
  simp only [reverse_append, reverse_singleton, singleton_append, forall₂_cons,
    forall₂_reverse_iff] at h
  exact ⟨h.2, h.1⟩

theorem forall₂_trans (hT : ∀ a b c, R a b → S b c → T a c) (h : Forall₂ R as bs)
    (h' : Forall₂ S bs cs) : Forall₂ T as cs := by
  induction h generalizing cs with
  | nil =>
    cases h'
    exact .nil
  | cons hab _ ih =>
    cases h' with
    | cons hbc hrest => exact .cons (hT _ _ _ hab hbc) (ih hrest)

theorem State.WellNamed.later (h : st.WellNamed) (hk : st.counter ≤ k) (code : List Yul.Stmt) :
    { st with counter := k, code := code }.WellNamed where
  scope x hx hr := h.scope x hx (hr.imp_left (·.mono hk))
  guard := h.guard
  apart x hx ht := h.apart x hx (ht.mono hk)

namespace OrderedRun

theorem code_eq (h : OrderedRun levels env st vs parts pieces code vs' fresh st') :
    st'.code = st.code ++ code := by
  induction h with
  | nil => simp
  | silent hpart _ ih => rw [ih, (inScope_frame hpart).1]
  | coded hpart _ _ _ ih =>
    rw [ih]
    simp [(inScope_frame hpart).1]

theorem inTurn (h : OrderedRun levels env st vs parts pieces code vs' fresh st') :
    InTurn levels env st parts pieces st' := by
  induction h with
  | nil => exact .nil
  | silent hpart _ ih => exact .cons hpart (Nat.le_refl _) ih
  | coded hpart _ hcaptures _ ih => exact .cons hpart hcaptures.le ih

/-- Values that are no calls stay as they are, and before statements no value is a call. -/
theorem captured (h : OrderedRun levels env st vs parts pieces code vs' fresh st') :
    Forall₂ (fun v v' => (v.expr.isCall = false → v' = v) ∧
      ((∃ p ∈ pieces, p.1 ≠ []) → v'.expr.isCall = false)) vs vs' ∧ Captured fresh pieces := by
  induction h with
  | nil => exact ⟨forall₂_same.2 fun v _ => ⟨fun _ => rfl, by simp⟩, trivial⟩
  | silent _ _ ih =>
    obtain ⟨hvalues, hfresh⟩ := ih
    obtain ⟨hvs, hv⟩ := forall₂_snoc hvalues
    refine ⟨hvs.imp fun v v' hv => ⟨hv.1, fun hsome => hv.2 ?_⟩, hv.2, hfresh⟩
    simpa using hsome
  | coded _ _ hcaptures _ ih =>
    obtain ⟨hvalues, hfresh⟩ := ih
    obtain ⟨hvs, hv⟩ := forall₂_snoc hvalues
    refine ⟨forall₂_trans ?_ hcaptures.kept hvs, hv.2, hfresh⟩
    rintro v v₁ v' ⟨hkept, hcall⟩ ⟨hkept', -⟩
    obtain rfl := hkept' hcall
    exact ⟨hkept, fun _ => hcall⟩

end OrderedRun

/-! ## The main statement -/

section

variable {m : Machine} {σ σ' : Config} {v v' : Value} {S : String → Prop} {w : Word}
  {scopes : List Scope} {pieces : List Piece}

theorem Stands.mono (h : Stands m σ S v w) (hS : ∀ x, S x → S' x) : Stands m σ S' v w := by
  rcases h with h | ⟨x, hv, hx⟩
  · exact .inl h
  · exact .inr ⟨x, hv, hS x hx⟩

/-- What stands for a word stands for it later, unless it is a variable written meanwhile. -/
def Carries (m : Machine) (scopes : List Scope) (pieces : List Piece) (σ σ' : Config)
    (v v' : Value) : Prop :=
  ∀ S w, Stands m σ S v w → Stands m σ' (fun x => S x ∨ Overwritten scopes pieces x) v' w

theorem Carries.refl : Carries m scopes pieces σ σ v v :=
  fun _ _ h => h.mono fun _ hx => .inl hx

theorem Carries.trans (h : Carries m scopes [p] σ σ₁ v v₁)
    (h' : Carries m scopes pieces σ₁ σ' v₁ v') : Carries m scopes (p :: pieces) σ σ' v v' := by
  intro S w hw
  refine (h' _ _ (h S w hw)).mono ?_
  rintro x ((hx | ⟨hscope, q, hq, hx⟩) | ⟨hscope, q, hq, hx⟩)
  · exact .inl hx
  · exact .inr ⟨hscope, q, by simp_all, hx⟩
  · exact .inr ⟨hscope, q, by simp [hq], hx⟩

theorem Carries.cons (h : Carries m scopes pieces σ σ' v v') :
    Carries m scopes (p :: pieces) σ σ' v v' :=
  Carries.refl.trans h

theorem Carries.stands (h : Carries m scopes pieces σ σ' v v') (hw : m.Yields σ v.expr w) :
    Stands m σ' (Overwritten scopes pieces) v' w :=
  (h (fun _ => False) w (.inl hw)).mono fun _ hx => hx.resolve_left id

/-- A literal or variable stands for its word after statements that write variables in scope only,
as far as it is a variable. -/
theorem carries_prelude (hv : v.expr.isCall = false) (hcode : AllMention P p.1)
    (hrun : m.execAll p.1 σ = .ok (.next, σ'))
    (hscope : ∀ x, v.expr = ident x → x ∈ allWritten p.1 → x ∈ scopeNames scopes) :
    Carries m scopes [p] σ σ' v v := by
  rintro S w (hw | ⟨x, hx, hS⟩)
  · unfold Stands
    cases he : v.expr with
    | call name args => simp [he, Yul.Expr.isCall] at hv
    | literal l =>
      rw [he] at hw
      exact .inl (yields_literal.2 (yields_literal.1 hw))
    | ident x =>
      rw [he] at hw
      by_cases hx : x ∈ allWritten p.1
      · exact .inr ⟨x, rfl, .inr ⟨hscope x he hx, p, by simp, hx⟩⟩
      · have hkept := (execAll_goesOn hcode hrun).2 x hx
        exact .inl (yields_ident.2 (hkept.trans (yields_ident.1 hw)))
  · exact .inr ⟨x, hx, .inl hS⟩

end

/-- Between two expressions: the run of the code, in `σ`, and evaluation from left to right, in `τ`,
agree on all names but temporaries made since the counter was at `n`. The values `vs` so far mention
no reserved names, and those that are calls can be evaluated. -/
structure InStep (m : Machine) (n : Nat) (st : State) (vs : List Value) (σ τ : Config) : Prop where
  wellNamed : st.WellNamed
  counter : n ≤ st.counter
  old : ∀ x, x ∈ scopeNames st.scopes ∨ x ∈ pendingNames st.guard → ¬ IsTemp n x
  plain : ∀ v ∈ vs, v.expr.Plain fun x => ¬ st.Reserved x
  calls : ∀ v ∈ vs, v.expr.isCall → ∃ w, m.Yields σ v.expr w
  agree : σ.Agree (fun x => ¬ MadeBetween n st.counter x) τ

namespace InStep

theorem silent (hm : m.Quiet) (h : InStep m n st vs σ τ) (hpiece : PieceOf st ([], v) st₁)
    (hw : m.Yields τ v.expr w) : m.Yields σ v.expr w ∧ InStep m n st₁ (vs ++ [v]) σ τ := by
  have hvalue := hpiece.value.mono fun x hx => hx.notMade h.old
  have hw := yields_of_agree hm hvalue h.agree hw
  refine ⟨hw, hpiece.wellNamed, h.counter.trans hpiece.counter, fun x hx => ?_, ?_, ?_, ?_⟩
  · rw [hpiece.scopes] at hx
    exact h.old x (hx.imp_right (hpiece.pending x))
  · refine forall_mem_append.2 ⟨fun u hu => ?_, forall_mem_singleton.2 ?_⟩
    · exact (h.plain u hu).mono fun x hx hr => hx (hpiece.reserved hr)
    · exact hpiece.value.mono fun x hx => hx.2
  · exact forall_mem_append.2 ⟨h.calls, forall_mem_singleton.2 fun _ => ⟨w, hw⟩⟩
  · exact h.agree.mono fun x hx hmade => hx (hmade.later hpiece.counter)

/-- After captures: names that are written by the statements of an expression and read by a value
are variables in scope. -/
theorem written_inScope (h : InStep m n st vs σ τ) (hpiece : PieceOf st (prelude, v) st₁)
    (hcaptures : Captures st₁.counter vs captures vs₁ k) (hu : u ∈ vs₁) (hx : u.expr = ident x)
    (hwritten : x ∈ allWritten prelude) : x ∈ scopeNames st.scopes := by
  obtain ⟨hown, hnot⟩ := hpiece.prelude.written x hwritten
  have hplain : ∀ u ∈ vs₁, u.expr.Plain fun x => ¬ st.Reserved x ∨ st₁.Reserved x :=
    hcaptures.plain (fun y hy => .inr (.inl hy.1)) fun u hu => (h.plain u hu).mono fun _ hy => .inl hy
  have hu := hplain u hu
  rw [hx] at hu
  rcases hown with hscope | hreserved
  · exact hscope
  · exact absurd hreserved (hu.resolve_right hnot)

theorem afterCaptures (h : InStep m n st vs σ τ) (hpiece : PieceOf st (prelude, v) st₁)
    (hcaptures : Captures st₁.counter vs captures vs₁ k) (hw : m.Yields σ' v.expr w)
    (hagree : σ'.Agree (fun x => ¬ MadeBetween n k x) τ') :
    InStep m n { st₁ with counter := k, code := code } (vs₁ ++ [v]) σ' τ' := by
  have hreserved : ∀ x, { st₁ with counter := k, code := code }.Reserved x → st₁.Reserved x :=
    fun x hx => hx.imp_left (·.mono hcaptures.le)
  -- a new temporary is numbered below the counter, and no pending name is a temporary
  have hnew : ∀ x, MadeBetween st₁.counter k x →
      ¬ { st₁ with counter := k, code := code }.Reserved x := fun x hmade hr =>
    hr.elim hmade.2 fun hp => hpiece.wellNamed.apart x hp hmade.1
  refine ⟨hpiece.wellNamed.later hcaptures.le code, ?_, fun x hx => ?_, ?_, ?_, hagree⟩
  · exact (h.counter.trans hpiece.counter).trans hcaptures.le
  · rw [hpiece.scopes] at hx
    exact h.old x (hx.imp_right (hpiece.pending x))
  · refine forall_mem_append.2 ⟨hcaptures.plain hnew fun u hu => ?_, ?_⟩
    · exact (h.plain u hu).mono fun x hx hr => hx (hpiece.reserved (hreserved x hr))
    · exact forall_mem_singleton.2 (hpiece.value.mono fun x hx hr => hx.2 (hreserved x hr))
  · refine forall_mem_append.2 ⟨fun u hu hcall => ?_, ?_⟩
    · simp [hcaptures.notCall u hu] at hcall
    · exact forall_mem_singleton.2 fun _ => ⟨w, hw⟩

/-- An expression with statements, which run after captures of the values so far. -/
theorem coded (hm : m.Quiet) (h : InStep m n st vs σ τ) (hpiece : PieceOf st (prelude, v) st₁)
    (hcaptures : Captures st₁.counter vs captures vs₁ k) (code : List Yul.Stmt) :
    (∃ stop, m.execAll prelude τ = .error stop ∧ m.execAll (captures ++ prelude) σ = .error stop) ∨
      ∃ σ' τ', m.execAll prelude τ = .ok (.next, τ') ∧
        m.execAll (captures ++ prelude) σ = .ok (.next, σ') ∧
        Forall₂ (Carries m st.scopes [(prelude, v)] σ σ') vs vs₁ ∧
        ∀ w, m.Yields τ' v.expr w → m.Yields σ' v.expr w ∧
          InStep m n { st₁ with counter := k, code := code } (vs₁ ++ [v]) σ' τ' := by
  have hbelow : ∀ u ∈ vs, u.expr.Plain fun x => ¬ IsTemp st₁.counter x := fun u hu =>
    (h.plain u hu).mono fun x hx ht => hx (.inl (ht.mono hpiece.counter))
  obtain ⟨σ₁, hcode, hcaptured, hyields⟩ :=
    hcaptures.exec hm σ hbelow h.calls fun _ _ _ h => h
  have hrun : m.execAll (captures ++ prelude) σ = m.execAll prelude σ₁ := by
    rw [execAll_append, andThen, hcode]
    rfl
  -- the captures set temporaries that the statements of the expression do not mention
  have hstart : σ₁.Agree
      (fun x => ¬ MadeBetween n st.counter x ∧ ¬ MadeBetween st₁.counter k x) τ :=
    (hcaptured.mono fun x hx => hx.2).trans (h.agree.mono fun x hx => hx.1)
  have hown : ∀ x, Own st st₁ x →
      ¬ MadeBetween n st.counter x ∧ ¬ MadeBetween st₁.counter k x := fun x hx =>
    ⟨hx.notMade h.old, fun hmade => hx.2 (.inl hmade.1)⟩
  rw [hrun]
  rcases execAll_agree (hpiece.prelude.mono hown) hstart with
    hstop | ⟨σ', τ', hτ, hσ, hagree⟩
  · exact .inl hstop
  refine .inr ⟨σ', τ', hτ, hσ, ?_, fun w hw => ?_⟩
  · have hcarries : ∀ u ∈ vs₁, Carries m st.scopes [(prelude, v)] σ₁ σ' u u := fun u hu =>
      carries_prelude (hcaptures.notCall u hu) hpiece.prelude hσ fun x =>
        h.written_inScope hpiece hcaptures hu
    refine forall₂_trans ?_ hyields (forall₂_same.2 hcarries)
    rintro u u₁ u' ⟨hkept, hsame⟩ hcarry S w (hw | ⟨x, hx, hS⟩)
    · exact hcarry S w (.inl (hsame w hw))
    · obtain rfl := hkept (by rw [hx]; rfl)
      exact hcarry S w (.inr ⟨x, hx, hS⟩)
  · have hw := yields_of_agree hm (hpiece.value.mono hown) hagree hw
    refine ⟨hw, h.afterCaptures hpiece hcaptures hw (hagree.mono fun x hx => ⟨?_, ?_⟩)⟩
    · exact fun hmade => hx (hmade.later (hpiece.counter.trans hcaptures.le))
    · exact fun hmade => hx (hmade.earlier (h.counter.trans hpiece.counter))

end InStep

/-- Code written for expressions in order runs as evaluation from left to right does. The values
`vs` from before stand for what they stood for, and so do the values of the expressions. -/
theorem OrderedRun.follows {st' : State} {m : Machine} {σ τ : Config} {vs vs' fresh : List Value}
    {pieces : List Piece} {code : List Yul.Stmt} (hm : m.Quiet)
    (h : OrderedRun levels env st vs parts pieces code vs' fresh st')
    (hstep : InStep m n st vs σ τ) :
    Follows m code σ (fun ws τ' σ' => σ'.Agree (fun x => ¬ IsTemp n x) τ' ∧
      Forall₂ (Carries m st.scopes pieces σ σ') vs vs' ∧
      Settled m σ' st.scopes fresh pieces ws) (leftToRight m pieces τ) := by
  induction h generalizing σ τ with
  | nil =>
    refine ⟨σ, rfl, hstep.agree.mono fun x hx hmade => hx hmade.1, ?_, trivial⟩
    exact forall₂_same.2 fun _ _ => .refl
  | silent hpart _ ih =>
    have hpiece := pieceOf_lowered hstep.wellNamed hpart
    refine follows_value hm hpiece.value fun w hw => ?_
    obtain ⟨hw, hstep⟩ := hstep.silent hm hpiece hw
    refine (ih hstep).imp fun ws τ' σ' => ?_
    rintro ⟨hagree, hvalues, hsettled⟩
    rw [hpiece.scopes] at hvalues hsettled
    obtain ⟨hvs, hv⟩ := forall₂_snoc hvalues
    exact ⟨hagree, hvs.imp fun _ _ hv => hv.cons, hv.stands hw, hsettled⟩
  | coded hpart _ hcaptures _ ih =>
    have hpiece := pieceOf_lowered hstep.wellNamed hpart
    unfold leftToRight
    rcases hstep.coded hm hpiece hcaptures _ with
      ⟨stop, hτ, hσ⟩ | ⟨σ₁, τ₁, hτ, hσ, hcarried, hnext⟩
    · rw [hτ]
      exact .stops hσ
    · rw [hτ]
      refine Follows.after ?_ hσ
      refine follows_value hm hpiece.value fun w hw => ?_
      obtain ⟨hw, hstep⟩ := hnext w hw
      refine (ih hstep).imp fun ws τ' σ' => ?_
      rintro ⟨hagree, hvalues, hsettled⟩
      rw [hpiece.scopes] at hvalues hsettled
      obtain ⟨hvs, hv⟩ := forall₂_snoc hvalues
      refine ⟨hagree, forall₂_trans ?_ hcarried hvs, hv.stands hw, hsettled⟩
      exact fun u u₁ u' hu hu' => hu.trans hu'

/-- What it means that values were computed from left to right. The pieces of the expressions are made
in turn, and a value is no call when statements of a later expression are to run. The code that is
written ends as running and evaluating the pieces in turn does, in the same state besides
temporaries; each value then has the word that it had in its turn, unless it is a variable in scope
that the statements of a later expression write. -/
def ComputedInOrder (levels : Nat) (env : Env) (st : State)
    (parts : List (Source.Expr × Option Ty)) (values : List Value) (st' : State) : Prop :=
  ∃ pieces code, InTurn levels env st parts pieces st' ∧ st'.code = st.code ++ code ∧
    Captured values pieces ∧
    ∀ (ctx : Yul.Context) (functions : String → Option Yul.Function),
      (∀ f, functions "string_equal" = some f → f = FixedRoutine.stringEqualDef) →
      ∀ (n : Nat) (σ : Config), Follows (within ctx functions n) code σ
        (fun ws τ' σ' => σ'.Agree (fun x => ¬ IsTemp st.counter x) τ' ∧
          Settled (within ctx functions n) σ' st.scopes values pieces ws)
        (leftToRight (within ctx functions n) pieces σ)

/-- Expressions that are lowered in order are evaluated from left to right. -/
theorem ordered_leftToRight {levels : Nat} {parts : List (Source.Expr × Option Ty)}
    {lower : Lower (List Value)} {env : Env} {st st' : State} {values : List Value}
    (horder : InOrder levels parts lower) (hst : st.WellNamed)
    (h : lower env st = .ok (values, st')) : ComputedInOrder levels env st parts values st' := by
  rw [horder.eq_ordered] at h
  obtain ⟨pieces, code, vs', fresh, rfl, hlength, hrun⟩ := orderedRun_orderedAfter h
  obtain rfl : vs' = [] := List.eq_nil_of_length_eq_zero hlength
  refine ⟨pieces, code, hrun.inTurn, hrun.code_eq, hrun.captured.2, ?_⟩
  intro ctx functions hfunctions n σ
  have hm : (Machine.within ctx functions n).Quiet := quiet_within ctx hfunctions n
  have hold : ∀ x, x ∈ scopeNames st.scopes ∨ x ∈ pendingNames st.guard → ¬ IsTemp st.counter x := by
    rintro x (hx | hx) ht
    · exact hst.scope x hx (.inl ht)
    · exact hst.apart x hx ht
  have hstep : InStep (Machine.within ctx functions n) st.counter st [] σ σ :=
    ⟨hst, Nat.le_refl _, hold, by simp, by simp, .refl σ⟩
  refine (hrun.follows hm hstep).imp fun ws τ' σ' => ?_
  rintro ⟨hagree, -, hsettled⟩
  exact ⟨hagree, hsettled⟩

def emptyEnv : Env :=
  bareEnv "Empty"

def twoVariables : State where
  progress := {}
  scopes := [[("y", ⟨"var_y", .uint 256⟩), ("x", ⟨"var_x", .uint 256⟩)]]
  declared := ["var_y", "var_x"]

theorem wellNamed_twoVariables : twoVariables.WellNamed where
  scope x hx hr := by
    have hx : x = "var_y" ∨ x = "var_x" := by simpa [scopeNames, twoVariables] using hx
    rcases hr with ht | hp
    · rcases hx with rfl | rfl
      · exact not_isTemp_of_head (by decide) ht
      · exact not_isTemp_of_head (by decide) ht
    · cases hp
  guard := forall_mem_nil _
  apart := forall_mem_nil _

/-- The comparison of the variables is bound to a temporary before one of them is assigned. -/
theorem ordered_leftToRight_captured :
    twoVariables.WellNamed ∧ ∃ values st',
      orderedValues ([.binary .eq (.ident "x") (.ident "y"),
        .assign .assign (.ident "x") (.ident "y")].map (denoteWithin 0)) emptyEnv twoVariables =
          .ok (values, st') ∧ st'.counter = 1 ∧
      ComputedInOrder 0 emptyEnv twoVariables [(.binary .eq (.ident "x") (.ident "y"), none),
        (.assign .assign (.ident "x") (.ident "y"), none)] values st' := by
  obtain ⟨⟨values, st'⟩, h, hcounter⟩ := Outcome.exists_of_map_toOption
    (show (orderedValues ([.binary .eq (.ident "x") (.ident "y"),
        .assign .assign (.ident "x") (.ident "y")].map (denoteWithin 0)) emptyEnv
          twoVariables).toOption.map (·.2.counter) = some 1 by decide +kernel)
  refine ⟨wellNamed_twoVariables, values, st', h, hcounter, ?_⟩
  exact ordered_leftToRight (InOrder.values [.binary .eq (.ident "x") (.ident "y"),
    .assign .assign (.ident "x") (.ident "y")]) wellNamed_twoVariables h

/-- A variable that stands alone is not bound to a temporary: after the assignment it has the new
value, while from left to right it had the old one. -/
theorem ordered_rereads_variable :
    ∃ st' pieces, orderedValues ([.ident "x", .assign .assign (.ident "x") (.ident "y")].map
        (denoteWithin 0)) emptyEnv twoVariables =
          .ok ([⟨ident "var_x", .uint 256⟩, ⟨ident "var_y", .uint 256⟩], st') ∧
      InTurn 0 emptyEnv twoVariables [(.ident "x", none),
        (.assign .assign (.ident "x") (.ident "y"), none)] pieces st' ∧
      ∀ (m : Machine) (σ : Config) (x y : Word), σ.vars "var_x" = some x → σ.vars "var_y" = some y →
        ∃ τ, leftToRight m pieces σ = .ok ([x, y], τ) ∧
          ∃ σ', m.execAll st'.code σ = .ok (.next, σ') ∧ m.Yields σ' (ident "var_x") y := by
  refine ⟨{ twoVariables with code := [.assignOne "var_x" (ident "var_y")] },
    [([], ⟨ident "var_x", .uint 256⟩),
      ([.assignOne "var_x" (ident "var_y")], ⟨ident "var_y", .uint 256⟩)], rfl, ?_, ?_⟩
  · have hfirst : inScope (lowered 0 (.ident "x", none)) emptyEnv twoVariables =
        .ok (([], ⟨ident "var_x", .uint 256⟩), twoVariables) := rfl
    have hsecond : inScope (lowered 0 (.assign .assign (.ident "x") (.ident "y"), none)) emptyEnv
        twoVariables = .ok (([.assignOne "var_x" (ident "var_y")], ⟨ident "var_y", .uint 256⟩),
          twoVariables) := rfl
    exact .cons hfirst (Nat.le_refl _) (.cons hsecond (Nat.le_refl _) .nil)
  · intro m σ x y hx hy
    have hrun : m.execAll [.assignOne "var_x" (ident "var_y")] σ = .ok (.next, σ.set "var_x" y) := by
      rw [Machine.execAll, andThen, exec_assignOne hx (yields_ident.2 hy)]
      rfl
    refine ⟨σ.set "var_x" y, ?_, _, hrun, yields_ident.2 (by simp [Config.set])⟩
    have hnew : m.Yields (σ.set "var_x" y) (ident "var_y") y :=
      yields_ident.2 (by simp [Config.set, hy])
    exact leftToRight_cons rfl (yields_ident.2 hx) (leftToRight_cons hrun hnew rfl)

end ContractYul.Lowering
