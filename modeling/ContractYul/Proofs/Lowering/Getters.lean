import ContractYul.Compilation
import ContractYul.Proofs.Lowering.Functions
import ContractYul.Proofs.Lowering.Order
import ContractYul.Proofs.Yul.Running

/-!
# Getters

The getter of a public field walks through the levels of the field, one parameter for each, and
reads what it comes to. An expression that indexes the field by variables is lowered to the same
walk. The two pieces of code differ in the names of variables and temporaries only, so they run alike.

Main statement: `getter_reads_indexed`. Constants are an exception, as `getter_ignores_key` shows:
the getter of a constant lowers its initial value and has no use for its keys.
-/

open List hiding get

namespace ContractYul

/-- A key of a getter leads from a type to another. -/
def Ty.HasEntry (ty entry : Ty) : Prop :=
  ∃ key, ty.getterShape = (key :: entry.getterShape.1, entry.getterShape.2)

theorem Ty.exists_hasEntry {keys : List Ty} (h : ty.getterShape = (key :: keys, result)) :
    ∃ entry, Lowering.entryType? ty = some entry ∧ entry.getterShape = (keys, result) := by
  cases ty with
  | mapping k value =>
    simp only [getterShape, Prod.mk.injEq, cons.injEq] at h
    exact ⟨value, rfl, Prod.ext h.1.2 h.2⟩
  | array elem length =>
    simp only [getterShape, Prod.mk.injEq, cons.injEq] at h
    exact ⟨elem, rfl, Prod.ext h.1.2 h.2⟩
  | _ => simp [getterShape] at h

namespace Lowering

open Yul Machine Outcome
open Source (FieldDecl ClassDecl)

variable {m : Machine} {V V' : String → Option Word} {e e' : Yul.Expr} {env env' : Env}
  {st st' st₁ st₁' : State}

/-! ## Code that runs alike -/

/-- Evaluations give the same result in the same world, and change no variables. -/
def Alike {α : Type} (V V' : String → Option Word) (r s : α × Config) : Prop :=
  r.1 = s.1 ∧ ∃ w, r.2 = ⟨V, w⟩ ∧ s.2 = ⟨V', w⟩

/-- Expressions have the same words, or stop alike, in any state of the world. -/
def SameWords (m : Machine) (V V' : String → Option Word) (e e' : Yul.Expr) : Prop :=
  ∀ w, Run.Same (Alike V V') (m.eval e ⟨V, w⟩) (m.eval e' ⟨V', w⟩)

theorem sameWords_literal (l : Literal) : SameWords m V V' (.literal l) (.literal l) := by
  intro w
  rw [eval, eval]
  refine (Run.same_self (m.context.literal l)).bind ?_
  rintro v _ rfl
  exact ⟨rfl, w, rfl, rfl⟩

theorem sameWords_ident (h : V x = V' x') : SameWords m V V' (.ident x) (.ident x') := by
  intro w
  rw [eval, eval]
  dsimp only
  rw [h]
  cases V' x' with
  | none => rfl
  | some v => exact ⟨rfl, w, rfl, rfl⟩

theorem sameWords_call (h : Forall₂ (SameWords m V V') args args') :
    SameWords m V V' (.call name args) (.call name args') := by
  have hargs : ∀ w, Run.Same (Alike V V') (m.evalArgs args ⟨V, w⟩) (m.evalArgs args' ⟨V', w⟩) := by
    induction h with
    | nil => exact fun w => ⟨rfl, w, rfl, rfl⟩
    | cons he _ ih =>
      intro w
      rw [evalArgs, evalArgs]
      refine (ih w).bind ?_
      rintro ⟨vs, _⟩ ⟨_, _⟩ ⟨rfl, w₁, rfl, rfl⟩
      refine (he w₁).bind ?_
      rintro ⟨rs, _⟩ ⟨_, _⟩ ⟨rfl, w₂, rfl, rfl⟩
      refine (Run.same_self (single rs)).bind ?_
      rintro v _ rfl
      exact ⟨rfl, w₂, rfl, rfl⟩
  intro w
  rw [eval, eval]
  refine (hargs w).bind ?_
  rintro ⟨vs, _⟩ ⟨_, _⟩ ⟨rfl, w₁, rfl, rfl⟩
  refine (Run.same_self (m.apply name vs w₁)).bind ?_
  rintro ⟨rs, w₂⟩ _ rfl
  exact ⟨rfl, w₂, rfl, rfl⟩

theorem SameWords.evalOne (h : SameWords m V V' e e') (w : World) :
    Run.Same (Alike V V') (m.evalOne e ⟨V, w⟩) (m.evalOne e' ⟨V', w⟩) := by
  refine (h w).bind ?_
  rintro ⟨rs, _⟩ ⟨_, _⟩ ⟨rfl, w₁, rfl, rfl⟩
  refine (Run.same_self (single rs)).bind ?_
  rintro v _ rfl
  exact ⟨rfl, w₁, rfl, rfl⟩

/-- Pieces of code stop alike, or go on in the same world with variables that `R` relates. -/
def SameRun (m : Machine) (code code' : List Yul.Stmt) (V V' : String → Option Word)
    (R : (String → Option Word) → (String → Option Word) → Prop) : Prop :=
  ∀ w, Run.Same (fun r s => ∃ V₁ V₁' w₁, r = (.next, ⟨V₁, w₁⟩) ∧ s = (.next, ⟨V₁', w₁⟩) ∧ R V₁ V₁')
    (m.execAll code ⟨V, w⟩) (m.execAll code' ⟨V', w⟩)

variable {code code' : List Yul.Stmt}

theorem sameRun_nil (h : R V V') : SameRun m [] [] V V' R :=
  fun w => ⟨V, V', w, rfl, rfl, h⟩

theorem SameRun.append (h : SameRun m code code' V V' R)
    (hrest : ∀ V₁ V₁', R V₁ V₁' → SameRun m rest rest' V₁ V₁' R') :
    SameRun m (code ++ rest) (code' ++ rest') V V' R' := by
  intro w
  rw [execAll_append, execAll_append]
  refine (h w).bind ?_
  rintro _ _ ⟨V₁, V₁', w₁, rfl, rfl, hR⟩
  exact hrest V₁ V₁' hR w₁

theorem SameRun.imp (h : SameRun m code code' V V' R) (hR : ∀ V₁ V₁', R V₁ V₁' → R' V₁ V₁') :
    SameRun m code code' V V' R' := by
  refine fun w => (h w).mono ?_
  rintro _ _ ⟨V₁, V₁', w₁, rfl, rfl, hr⟩
  exact ⟨V₁, V₁', w₁, rfl, rfl, hR V₁ V₁' hr⟩

/-- Variables with one of them set. -/
def assigned (V : String → Option Word) (x : String) (v : Word) : String → Option Word :=
  fun y => if y = x then some v else V y

theorem sameRun_letOne (h : SameWords m V V' e e') :
    SameRun m [.letOne x e] [.letOne x' e'] V V'
      fun V₁ V₁' => ∃ v, V₁ = assigned V x v ∧ V₁' = assigned V' x' v := by
  intro w
  rw [execAll_singleton, execAll_singleton, Stmt.letOne, Stmt.letOne, exec, exec]
  refine (h w).bind ?_
  rintro ⟨vs, _⟩ ⟨_, _⟩ ⟨rfl, w₁, rfl, rfl⟩
  rcases vs with _ | ⟨v, _ | _⟩
  · rfl
  · exact ⟨_, _, w₁, rfl, rfl, v, rfl, rfl⟩
  · rfl

/-- A check that calls a function without arguments if it fails. -/
theorem sameRun_check (h : SameWords m V V' e e') :
    SameRun m [.ifThen e [.run name []]] [.ifThen e' [.run name []]] V V'
      fun V₁ V₁' => V₁ = V ∧ V₁' = V' := by
  intro w
  rw [execAll_singleton, execAll_singleton, exec, exec]
  refine (h.evalOne w).bind ?_
  rintro ⟨v, _⟩ ⟨_, _⟩ ⟨rfl, w₁, rfl, rfl⟩
  dsimp only
  split
  · exact ⟨V, V', w₁, rfl, rfl, rfl, rfl⟩
  -- the function has no results, and no variable is declared in the block
  have hcall : SameRun m [.run name []] [.run name []] V V' fun V₁ V₁' => V₁ = V ∧ V₁' = V' := by
    intro w
    rw [execAll_singleton, Stmt.run, exec, exec]
    refine (sameWords_call .nil w).bind ?_
    rintro ⟨rs, _⟩ ⟨_, _⟩ ⟨rfl, w₂, rfl, rfl⟩
    cases rs with
    | nil => exact ⟨V, V', w₂, rfl, rfl, rfl, rfl⟩
    | cons => rfl
  refine (hcall w₁).bind ?_
  rintro _ _ ⟨V, V', w₂, rfl, rfl, rfl, rfl⟩
  exact ⟨V, V', w₂, congrArg (Prod.mk _) (Config.leave_world ⟨V, w₁⟩ w₂),
    congrArg (Prod.mk _) (Config.leave_world ⟨V', w₁⟩ w₂), rfl, rfl⟩

/-! ## Entries -/

/-- Code was written that ends by binding a temporary. -/
structure BindsNext (st st₁ : State) (code : List Yul.Stmt) : Prop where
  code_eq : st₁.code = st.code ++ code
  counter : st₁.counter = st.counter + 1
  scopes : st₁.scopes = st.scopes

/-- The temporary that is bound next. -/
def nextTemp (st : State) : String :=
  tempName (st.counter + 1)

/-- Each of two pieces of code sets a temporary, both to the same word. -/
def BothBind (st st' : State) (V V' V₁ V₁' : String → Option Word) : Prop :=
  ∃ v, V₁ = assigned V (nextTemp st) v ∧ V₁' = assigned V' (nextTemp st') v

theorem of_slotsOf {span : Nat} (h : slotsOf ty env st = .ok (span, st')) :
    env.catalog.slotsOf ty = .ok span ∧ st = st' := by
  have h : ((env.catalog.slotsOf ty).map fun n => (n, st)) = .ok (span, st') := by
    rw [← h]
    show _ = (liftM (env.catalog.slotsOf ty) : Lower Nat) env st
    cases env.catalog.slotsOf ty <;> rfl
  cases hs : env.catalog.slotsOf ty with
  | error => simp [hs, Except.map] at h
  | ok n =>
    simp only [hs, Except.map, Except.ok.injEq, Prod.mk.injEq] at h
    exact ⟨by rw [h.1], h.2⟩

theorem slotsOf_both {span span' : Nat} (hcontext : env'.toContext = env.toContext)
    (h : slotsOf ty env st = .ok (span, st₂)) (h' : slotsOf ty env' st' = .ok (span', st₂')) :
    span = span' ∧ st = st₂ ∧ st' = st₂' := by
  obtain ⟨hspan, rfl⟩ := of_slotsOf h
  obtain ⟨hspan', rfl⟩ := of_slotsOf h'
  rw [hcontext, hspan] at hspan'
  exact ⟨Except.ok.inj hspan', rfl, rfl⟩

variable {slot slot' : Yul.Expr} {ty : Ty} {transient : Bool} {x x' name : String} {q q' : Place}

/-- Entries of two places of a type, at two variables: one is the place that the other is, if the
places and the variables have the same words. -/
theorem sameRun_storageEntry (hcontext : env'.toContext = env.toContext)
    (h : storageEntry slot ty transient ⟨ident x, k⟩ name env st = .ok (q, st₁))
    (h' : storageEntry slot' ty transient ⟨ident x', k'⟩ name env' st' = .ok (q', st₁')) :
    ∃ code code' entry, BindsNext st st₁ code ∧ BindsNext st' st₁' code' ∧ ty.HasEntry entry ∧
      q = wholeSlot (ident (nextTemp st)) entry transient ∧
      q' = wholeSlot (ident (nextTemp st')) entry transient ∧
      ∀ (m : Machine) (V V' : String → Option Word), SameWords m V V' slot slot' → V x = V' x' →
        SameRun m code code' V V' (BothBind st st' V V') := by
  cases ty with
  | mapping key value =>
    cases h
    cases h'
    refine ⟨_, _, value, ⟨rfl, rfl, rfl⟩, ⟨rfl, rfl, rfl⟩, ⟨key, rfl⟩, rfl, rfl,
      fun m V V' hslot hx => ?_⟩
    exact sameRun_letOne (sameWords_call (.cons (sameWords_ident hx) (.cons hslot .nil)))
  | array elem length =>
    cases length with
    | none =>
      obtain ⟨⟨span, _⟩, hspan, h⟩ := bind_eq_ok.1 h
      obtain ⟨⟨span', _⟩, hspan', h'⟩ := bind_eq_ok.1 h'
      obtain ⟨rfl, rfl, rfl⟩ := slotsOf_both hcontext hspan hspan'
      cases h
      cases h'
      refine ⟨_, _, elem, ⟨rfl, rfl, rfl⟩, ⟨rfl, rfl, rfl⟩, ⟨_, rfl⟩, rfl, rfl,
        fun m V V' hslot hx => ?_⟩
      exact sameRun_letOne (sameWords_call
        (.cons hslot (.cons (sameWords_ident hx) (.cons (sameWords_literal _) .nil))))
    | some n =>
      obtain ⟨⟨span, _⟩, hspan, h⟩ := bind_eq_ok.1 h
      obtain ⟨⟨span', _⟩, hspan', h'⟩ := bind_eq_ok.1 h'
      obtain ⟨rfl, rfl, rfl⟩ := slotsOf_both hcontext hspan hspan'
      cases h
      cases h'
      refine ⟨[FixedRoutine.checkBounds (ident x) (num n), .letOne (nextTemp st)
        (Op.add slot (scaled (ident x) span))], [FixedRoutine.checkBounds (ident x') (num n),
          .letOne (nextTemp st') (Op.add slot' (scaled (ident x') span))], elem,
        ⟨append_assoc _ _ _, rfl, rfl⟩, ⟨append_assoc _ _ _, rfl, rfl⟩, ⟨_, rfl⟩, rfl, rfl,
        fun m V V' hslot hx => ?_⟩
      have hx : SameWords m V V' (ident x) (ident x') := sameWords_ident hx
      have hscaled : SameWords m V V' (scaled (ident x) span) (scaled (ident x') span) := by
        unfold scaled
        split
        · exact hx
        · exact sameWords_call (.cons hx (.cons (sameWords_literal _) .nil))
      have hlt : SameWords m V V' (Op.lt (ident x) (num n)) (Op.lt (ident x') (num n)) :=
        sameWords_call (.cons hx (.cons (sameWords_literal _) .nil))
      have hcheck : SameRun m [FixedRoutine.checkBounds (ident x) (num n)]
          [FixedRoutine.checkBounds (ident x') (num n)] V V' _ :=
        sameRun_check (sameWords_call (.cons hlt .nil))
      refine hcheck.append ?_
      rintro _ _ ⟨rfl, rfl⟩
      exact sameRun_letOne (sameWords_call (.cons hslot (.cons hscaled .nil)))
  | _ => cases h

/-! ## Walks through the levels of a field -/

/-- The place of a field, or of what variables as keys lead to inside it; the last key comes first. -/
inductive Walk (env : Env) (name : String) (st : State) : List String → Place → State → Prop
  | field {p : Place} {st₁ : State} (h : fieldPlace name false env st = .ok (p, st₁)) :
    Walk env name st [] p st₁
  | entry {x : String} {xs : List String} {key : Ty} {p q : Place} {st₁ st₂ : State}
      (hwalk : Walk env name st xs p st₁)
      (h : indexPlace p ⟨ident x, key⟩ name env st₁ = .ok (q, st₂)) :
      Walk env name st (x :: xs) q st₂

/-- Two places of a type, of which one is the other if their slots have the same words. -/
inductive Twins (ty : Ty) : Place → Place → Yul.Expr → Yul.Expr → Prop
  | storage {slot slot' : Yul.Expr} {offset size : Nat} {transient : Bool} :
    Twins ty (.storage slot offset size ty transient) (.storage slot' offset size ty transient) slot
      slot'

/-- Nothing but temporaries made since was changed. -/
def Keeps (n : Nat) (V V₁ : String → Option Word) : Prop :=
  ∀ x, ¬ IsTemp n x → V₁ x = V x

theorem Keeps.assigned {n k : Nat} (h : Keeps n V V₁) (hk : n ≤ k) (v : Word) :
    Keeps n V (assigned V₁ (tempName (k + 1)) v) := by
  intro x hx
  have hne : x ≠ tempName (k + 1) := by
    rintro rfl
    exact hx ⟨k + 1, Nat.lt_succ_of_le hk, .inl rfl⟩
  simp [Lowering.assigned, hne, h x hx]

/-- A number of keys leads from a type to another. -/
def LevelsDown (field : Ty) (count : Nat) (ty : Ty) : Prop :=
  field.getterShape.1.length = count + ty.getterShape.1.length ∧
    field.getterShape.2 = ty.getterShape.2

theorem LevelsDown.entry {field entry : Ty} {count : Nat} (h : LevelsDown field count ty)
    (hentry : ty.HasEntry entry) : LevelsDown field (count + 1) entry := by
  obtain ⟨key, hkey⟩ := hentry
  simp only [LevelsDown, hkey, length_cons] at h ⊢
  exact ⟨by omega, h.2⟩

/-- What two walks lead to. -/
structure SameWalks (s : Storage.Slot) (st st' : State) (xs xs' : List String) (q q' : Place)
    (st₁ st₁' : State) : Prop where
  counter : st.counter ≤ st₁.counter
  counter' : st'.counter ≤ st₁'.counter
  scopes : st₁.scopes = st.scopes
  scopes' : st₁'.scopes = st'.scopes
  runs : ∃ code code' slot slot' ty, st₁.code = st.code ++ code ∧ st₁'.code = st'.code ++ code' ∧
    Twins ty q q' slot slot' ∧ LevelsDown s.ty xs.length ty ∧
    ∀ (m : Machine) (V V' : String → Option Word),
      Forall₂ (fun x x' => V x = V' x') xs xs' → SameRun m code code' V V' fun V₁ V₁' =>
        SameWords m V₁ V₁' slot slot' ∧ Keeps st.counter V V₁ ∧ Keeps st'.counter V' V₁'

theorem sameWalks {xs xs' : List String} (hcontext : env'.toContext = env.toContext)
    (hs : env.layout.get? name = some s) (hwalk : Walk env name st xs q st₁)
    (hwalk' : Walk env' name st' xs' q' st₁')
    (hxs : Forall₂ (fun x x' => ¬ IsTemp st.counter x ∧ ¬ IsTemp st'.counter x') xs xs') :
    SameWalks s st st' xs xs' q q' st₁ st₁' := by
  induction hwalk generalizing xs' q' st₁' with
  | field h =>
    cases hxs
    cases hwalk' with
    | field h' =>
      obtain ⟨_, hfield, rfl, rfl⟩ := of_fieldPlace h
      obtain ⟨_, hfield', rfl, rfl⟩ := of_fieldPlace h'
      obtain rfl := Option.some.inj (hfield.symm.trans hs)
      rw [hcontext] at hfield'
      obtain rfl := Option.some.inj (hfield'.symm.trans hs)
      refine ⟨Nat.le_refl _, Nat.le_refl _, rfl, rfl, [], [], _, _, _, by simp, by simp, .storage,
        by simp [LevelsDown], fun m V V' _ => sameRun_nil ⟨sameWords_literal _, ?_, ?_⟩⟩
      · exact fun x _ => rfl
      · exact fun x _ => rfl
  | @entry x _ _ _ _ _ _ hwalk h ih =>
    cases hxs with
    | @cons _ x' _ _ hfree hxs =>
      cases hwalk' with
      | entry hwalk' h' =>
        obtain ⟨hcounter, hcounter', hscopes, hscopes', code, code', slot, slot', ty, hcode, hcode',
          htwins, hinside, hruns⟩ := ih hwalk' hxs
        cases htwins
        obtain ⟨last, last', entry, hbind, hbind', hentry, rfl, rfl, hlast⟩ :=
          sameRun_storageEntry hcontext h h'
        refine ⟨hbind.counter ▸ Nat.le_succ_of_le hcounter,
          hbind'.counter ▸ Nat.le_succ_of_le hcounter',
          hbind.scopes.trans hscopes, hbind'.scopes.trans hscopes', code ++ last, code' ++ last',
          _, _, entry, ?_, ?_, .storage, hinside.entry hentry, fun m V V' hsame => ?_⟩
        · rw [hbind.code_eq, hcode, append_assoc]
        · rw [hbind'.code_eq, hcode', append_assoc]
        · obtain ⟨hfirst, hrest⟩ := forall₂_cons.1 hsame
          refine (hruns m V V' hrest).append fun V₁ V₁' => ?_
          rintro ⟨hslot, hkeeps, hkeeps'⟩
          have hvar : V₁ x = V₁' x' := by
            rw [hkeeps x hfree.1, hkeeps' x' hfree.2, hfirst]
          refine (hlast m V₁ V₁' hslot hvar).imp fun V₂ V₂' => ?_
          rintro ⟨v, rfl, rfl⟩
          exact ⟨sameWords_ident (by simp [assigned]), hkeeps.assigned hcounter v,
            hkeeps'.assigned hcounter' v⟩

/-! ## Reading -/

theorem sameWords_storageRead (h : SameWords m V V' slot slot') :
    SameWords m V V' (storageRead slot offset size ty transient)
      (storageRead slot' offset size ty transient) := by
  have hword : SameWords m V V' (call (loadName transient) [slot])
      (call (loadName transient) [slot']) :=
    sameWords_call (.cons h .nil)
  have hraw : SameWords m V V'
      (Op.both (shiftRight (8 * offset) (call (loadName transient) [slot])) (lowMask size))
      (Op.both (shiftRight (8 * offset) (call (loadName transient) [slot'])) (lowMask size)) := by
    refine sameWords_call (.cons ?_ (.cons ?_ .nil))
    · unfold shiftRight
      split
      · exact hword
      · exact sameWords_call (.cons (sameWords_literal _) (.cons hword .nil))
    · exact sameWords_literal _
  unfold storageRead
  dsimp only
  split
  · exact hword
  · split
    · exact sameWords_call (.cons (sameWords_literal _) (.cons hraw .nil))
    · exact sameWords_call (.cons (sameWords_literal _) (.cons hraw .nil))
    · exact hraw

/-- A value, or a byte string that is copied to memory, is read from two places. -/
theorem sameRun_load {v v' : Value} (hty : Compilation.isReadable ty)
    (htwins : Twins ty q q' slot slot') (h : load q env st = .ok (v, st₁))
    (h' : load q' env' st' = .ok (v', st₁')) :
    ∃ code code', st₁.code = st.code ++ code ∧ st₁'.code = st'.code ++ code' ∧
      ∀ (m : Machine) (V V' : String → Option Word), SameWords m V V' slot slot' →
        SameRun m code code' V V' fun V₁ V₁' =>
          SameWords m V₁ V₁' v.expr v'.expr ∧ Keeps st.counter V V₁ ∧ Keeps st'.counter V' V₁' := by
  have hnone : ∀ (n : Nat) (V : String → Option Word), Keeps n V V := fun n V x _ => rfl
  cases htwins
  rw [load] at h h'
  by_cases hvalue : ty.isValue
  · rw [if_pos hvalue] at h h'
    cases h
    cases h'
    exact ⟨[], [], by simp, by simp, fun m V V' hslot =>
      sameRun_nil ⟨sameWords_storageRead hslot, hnone _ _, hnone _ _⟩⟩
  · rw [if_neg hvalue] at h h'
    split at h
    · cases h
    · rename_i htransient
      rw [if_neg htransient] at h'
      have hcopy : ∀ (e : Yul.Expr) (env : Env) (st : State),
          copyToMemory e ty env st = routine .storageLoadBytes [e] env st := by
        cases ty <;> first
          | (intros; rfl)
          | simp_all [Compilation.isReadable, Ty.isValue, Ty.isBytesLike]
      obtain ⟨⟨e, st₂⟩, he, h⟩ := bind_eq_ok.1 h
      obtain ⟨⟨e', st₂'⟩, he', h'⟩ := bind_eq_ok.1 h'
      rw [hcopy] at he he'
      cases he
      cases he'
      cases h
      cases h'
      refine ⟨_, _, rfl, rfl, fun m V V' hslot => ?_⟩
      refine (sameRun_letOne (sameWords_call (.cons hslot .nil))).imp fun V₁ V₁' => ?_
      rintro ⟨w, rfl, rfl⟩
      exact ⟨sameWords_ident (by simp [assigned]), (hnone _ _).assigned (Nat.le_refl _) w,
        (hnone _ _).assigned (Nat.le_refl _) w⟩

/-! ## Expressions that index a field -/

/-- A field of the contract, indexed by variables; the last one comes first. -/
def indexed (name : String) : List String → Source.Expr
  | [] => .member .this name
  | x :: xs => .index (indexed name xs) (.ident x)

theorem label_indexed (name : String) (xs : List String) : label (indexed name xs) = name := by
  induction xs with
  | nil => rfl
  | cons x xs ih => exact ih

/-- A source name stands for a variable, which is no temporary to come. -/
def IsLocal (st : State) (x : String) (y : Variable) : Prop :=
  lookup? st.scopes x = some y ∧ ¬ IsTemp st.counter y.irName

variable {levels : Nat} {s : Storage.Slot} {ys : List Variable}

theorem free_of_locals (h : Forall₂ (IsLocal st) xs ys) :
    ∀ y ∈ ys, ¬ IsTemp st.counter y.irName := by
  induction h with
  | nil => exact forall_mem_nil _
  | cons hy _ ih => exact forall_mem_cons.2 ⟨hy.2, ih⟩

theorem placeType?_indexed (scopes : List Scope) (howner : env.owner = .contract)
    (hs : env.layout.get? name = some s)
    (hxs : xs.length ≤ s.ty.getterShape.1.length) : ∃ ty, placeType? env scopes (indexed name xs) =
      some ty ∧ ty.getterShape = (s.ty.getterShape.1.drop xs.length, s.ty.getterShape.2) := by
  induction xs with
  | nil => exact ⟨s.ty, by simp [indexed, placeType?, howner, hs], by simp⟩
  | cons x xs ih =>
    obtain ⟨ty, hty, hshape⟩ := ih (Nat.le_of_succ_le hxs)
    rw [length_cons] at hxs
    rw [drop_eq_getElem_cons hxs] at hshape
    obtain ⟨entry, hentry, hshape⟩ := Ty.exists_hasEntry hshape
    exact ⟨entry, by simp [indexed, placeType?, hty, hentry], by simpa using hshape⟩

/-- Lowering an indexed field walks through its levels. -/
theorem walk_of_place (howner : env.owner = .contract) (hs : env.layout.get? name = some s)
    (hxs : xs.length ≤ s.ty.getterShape.1.length) (hys : Forall₂ (IsLocal st) xs ys)
    (h : (denoteWithin levels (indexed name xs)).place false env st = .ok (q, st₁)) :
    Walk env name st (ys.map (·.irName)) q st₁ := by
  obtain ⟨expand, hexpand⟩ := exists_expand levels
  rw [hexpand] at h
  induction hys generalizing q st₁ with
  | nil => exact .field h
  | @cons x y xs ys hy hys ih =>
    have hxs : xs.length ≤ s.ty.getterShape.1.length := Nat.le_of_succ_le hxs
    obtain ⟨⟨p, st₂⟩, hbase, h⟩ := bind_eq_ok.1 h
    obtain ⟨⟨v, st₃⟩, hvalue, h⟩ := bind_eq_ok.1 h
    obtain ⟨ty, hty, -⟩ := placeType?_indexed st.scopes howner hs hxs
    have hplace : (denote expand (indexed name xs)).place false env st = .ok (p, st₂) := by
      refine (base_cases hbase).resolve_right fun ⟨hnone, _⟩ => ?_
      cases hty.symm.trans hnone
    have hwalk := ih hxs hplace
    have hscopes : st₂.scopes = st.scopes := by
      refine (sameWalks rfl hs hwalk hwalk ?_).scopes
      rw [forall₂_map_left_iff, forall₂_map_right_iff]
      have hfree := free_of_locals hys
      exact forall₂_same.2 fun y hy => ⟨hfree y hy, hfree y hy⟩
    have hident : (denote expand (.ident x)).value env st₂ = .ok (⟨ident y.irName, y.ty⟩, st₂) := by
      have hy := hscopes ▸ hy.1
      unfold denote
      show identValue expand x env st₂ = _
      simp [identValue, varOf?, hy, bind, ReaderT.bind, StateT.bind, Except.bind,
        pure, ReaderT.pure, StateT.pure, Except.pure, get, getThe, MonadStateOf.get, StateT.get, liftM, monadLift,
        MonadLift.monadLift]
    rw [hident] at hvalue
    cases hvalue
    rw [source_denote, label_indexed] at h
    exact .entry hwalk h

/-- The value of an indexed field is read from where the walk ends. -/
theorem walk_of_value (howner : env.owner = .contract) (hs : env.layout.get? name = some s)
    (hxs : xs.length ≤ s.ty.getterShape.1.length) (hys : Forall₂ (IsLocal st) xs ys)
    (h : (denoteWithin levels (indexed name xs)).value env st = .ok (v, st₁)) :
    ∃ q st₂, Walk env name st (ys.map (·.irName)) q st₂ ∧ load q env st₂ = .ok (v, st₁) := by
  have hload : ∃ q st₂, (denoteWithin levels (indexed name xs)).place false env st = .ok (q, st₂) ∧
      load q env st₂ = .ok (v, st₁) := by
    obtain ⟨expand, hexpand⟩ := exists_expand levels
    rw [hexpand] at h ⊢
    cases xs with
    | nil =>
      obtain ⟨ty, hty, -⟩ := placeType?_indexed st.scopes howner hs hxs
      change (if (placeType? env st.scopes (indexed name [])).isSome then _ else _ : Lower Value) env
        st = .ok (v, st₁) at h
      rw [hty] at h
      obtain ⟨⟨q, st₂⟩, hplace, hload⟩ := bind_eq_ok.1 h
      exact ⟨q, st₂, hplace, hload⟩
    | cons x xs =>
      obtain ⟨⟨q, st₂⟩, hplace, hload⟩ := bind_eq_ok.1 h
      exact ⟨q, st₂, hplace, hload⟩
  obtain ⟨q, st₂, hplace, hload⟩ := hload
  exact ⟨q, st₂, walk_of_place howner hs hxs hys hplace, hload⟩

/-! ## Getters -/

theorem walk_of_foldlM {keys : List (Ty × Nat)} (hwalk : Walk env name st xs p st₁)
    (h : keys.foldlM (fun p k => indexPlace p ⟨ident (keyName k.2), k.1⟩ name) p env st₁ =
      .ok (q, st₂)) : Walk env name st ((keys.map fun k => keyName k.2).reverse ++ xs) q st₂ := by
  induction keys generalizing p st₁ xs with
  | nil =>
    cases h
    exact hwalk
  | cons k keys ih =>
    obtain ⟨⟨p', st'⟩, hindex, h⟩ := bind_eq_ok.1 h
    simpa using ih (.entry hwalk hindex) h

/-- The parameters of a getter with a number of keys. -/
def keyNames (count : Nat) : List String :=
  (range count).map keyName

theorem walk_of_getterValue {field : FieldDecl} {keys : List Ty}
    (hfield : field.storage ≠ .constant) (h : getterValue field keys result env st = .ok (v, st₁)) :
    ∃ q st₂, Walk env field.name st (keyNames keys.length).reverse q st₂ ∧
      load q env st₂ = .ok (v, st₁) := by
  unfold getterValue at h
  rw [if_neg (by simpa using hfield)] at h
  obtain ⟨⟨p, st₂⟩, hplace, h⟩ := bind_eq_ok.1 h
  obtain ⟨⟨q, st₃⟩, hfold, h⟩ := bind_eq_ok.1 h
  have hnames : keyNames keys.length = keys.zipIdx.map fun k => keyName k.2 := by
    rw [keyNames, range_eq_range', ← zipIdx_map_snd 0 keys, List.map_map]
    rfl
  rw [hnames]
  exact ⟨q, st₃, by simpa using walk_of_foldlM (.field hplace) hfold, h⟩

/-- Runs code and evaluates an expression then. -/
def readBy (m : Machine) (code : List Yul.Stmt) (e : Yul.Expr) (σ : Config) :
    Run (List Word × World) := do
  let (_, σ) ← m.execAll code σ
  let (w, σ) ← m.evalOne e σ
  return ([w], σ.world)

/-- Code that is read alike, with one of the two values put in a return variable. -/
theorem readBy_eq (hret : ∀ n, ¬ IsTemp n ret) (hword : V ret = some word)
    (h : SameRun m code code' V V' fun V₁ V₁' =>
      SameWords m V₁ V₁' e e' ∧ ∃ n, Keeps n V V₁) :
    (do
      let (_, σ) ← m.execAll (code ++ [.assignOne ret e]) ⟨V, w⟩
      return (← results σ [ret], σ.world)) = readBy m code' e' ⟨V', w⟩ := by
  unfold readBy
  rw [execAll_append, andThen]
  rcases (h w).cases with ⟨stop, hrun, hrun'⟩ |
    ⟨_, _, hrun, hrun', V₁, V₁', w₁, rfl, rfl, hsame, n, hkeeps⟩
  · rw [hrun, hrun']
    rfl
  · have hset : V₁ ret = some word := (hkeeps ret (hret n)).trans hword
    rw [hrun, hrun']
    simp only [ok_bind, execAll_singleton, Stmt.assignOne, exec, evalOne]
    rcases (hsame w₁).cases with ⟨stop, he, he'⟩ | ⟨⟨vs, _⟩, ⟨_, _⟩, he, he', rfl, w₂, rfl, rfl⟩
    · rw [he, he']
      rfl
    · rw [he, he']
      rcases vs with _ | ⟨v, _ | _⟩
      · simp [Config.assign, Config.bind, hset, single]
      · simp [Config.assign, Config.bind, hset, single, results, Config.setAll, Config.set]
      · simp [Config.assign, Config.bind, hset, single]

theorem Ty.getterShape_of_nil (h : ty.getterShape.1 = []) : ty.getterShape.2 = ty := by
  cases ty <;> simp_all [Ty.getterShape]

variable {context : Context} {p p' : Progress} {owner : ClassDecl} {field : FieldDecl}
  {f : Yul.Function}

/-- The function that reads a field of a type, with code that ends in the value `u`. -/
def getterFunction (field : FieldDecl) (ty : Ty) (code : List Yul.Stmt) (u : Value) : Yul.Function :=
  ⟨getterName field.name, (range ty.getterShape.1.length).map keyName, [returnName 0],
    code ++ [.assignOne (returnName 0) u.expr]⟩

theorem of_getter (hty : context.catalog.typeOf field.ty = .ok ty)
    (h : getter owner field context p = .ok (f, p')) :
    ∃ env u st, env.toContext = context ∧ env.owner = .contract ∧
      getterValue field ty.getterShape.1 ty.getterShape.2 env { progress := p } = .ok (u, st) ∧
      f = getterFunction field ty st.code u := by
  obtain ⟨⟨_, _⟩, htype, h⟩ := bind_eq_ok.1 h
  rw [hty] at htype
  cases htype
  obtain ⟨⟨⟨body, _⟩, _⟩, hfunction, h⟩ := bind_eq_ok.1 h
  cases h
  obtain ⟨st, hlower, rfl, -⟩ := inFunction_eq_ok hfunction
  obtain ⟨⟨u, st₁⟩, hread, hemit⟩ := bind_eq_ok.1 hlower
  cases hemit
  exact ⟨_, u, st₁, rfl, rfl, hread, rfl⟩

theorem exists_of_getterValue {keys : List Ty} {u : Value} (hfield : field.storage = .constant)
    (h : getterValue field keys ty env st = .ok (u, st₁)) :
    ∃ init, field.initializer = some init ∧ (operand init).valueAs ty env st = .ok (u, st₁) := by
  unfold getterValue at h
  rw [if_pos (by simp [hfield])] at h
  cases hinit : field.initializer with
  | none =>
    rw [hinit] at h
    cases h
  | some init =>
    rw [hinit] at h
    exact ⟨init, rfl, h⟩

/-- A constant without levels is its initializer in a method. -/
theorem value_constant (howner : env.owner = .contract) (hty : env.catalog.typeOf field.ty = .ok ty)
    (hlayout : env.layout.get? field.name = none)
    (hconstant : constant? env field.name = some field) (hinit : field.initializer = some init) :
    (denoteWithin (maxExpansions + 1) (indexed field.name [])).value env st =
      (operand init).valueAs ty env st := by
  have hplace : placeType? env st.scopes (indexed field.name []) = none := by
    simp [indexed, placeType?, howner, hlayout]
  change (if (placeType? env st.scopes (indexed field.name [])).isSome then _ else _ : Lower Value)
    env st = _
  rw [hplace]
  change (if (field.name == "length" && (placeType? env st.scopes .this).isSome) = true then _ else
    thisMember (some (denoteWithin maxExpansions)) field.name : Lower Value) env st = _
  rw [if_neg (by simp [placeType?])]
  have hmember : thisMember (some (denoteWithin maxExpansions)) field.name env st =
      constantValue (some (denoteWithin maxExpansions)) field env st := by
    simp [thisMember, hconstant, bind, ReaderT.bind, StateT.bind, Except.bind, read, readThe,
      MonadReaderOf.read, ReaderT.read, pure, StateT.pure, Except.pure]
  rw [hmember]
  simp only [constantValue, hinit]
  show ((liftM (env.catalog.typeOf field.ty) : Lower Ty) >>= fun ty =>
    (operand init).valueAs ty) env st = _
  rw [hty]
  rfl

/-- The code of a getter and that of an indexed field run alike. -/
theorem sameRun_getterValue {st₂ : State} {names : List String} {u v : Value}
    (hfield : field.storage ≠ .constant) (hs : env.layout.get? field.name = some s)
    (hreadable : Compilation.isReadable s.ty.getterShape.2) (howner : env.owner = .contract)
    (hcontext : env'.toContext = env.toContext)
    (hlength : names.length = s.ty.getterShape.1.length)
    (hlocals : Forall₂ (IsLocal st) names ys)
    (hread : getterValue field s.ty.getterShape.1 s.ty.getterShape.2 env' { progress := p } =
      .ok (u, st₂))
    (hvalue : (denoteWithin levels (indexed field.name names.reverse)).value env st = .ok (v, st₁)) :
    ∃ code, st₁.code = st.code ++ code ∧ ∀ (m : Machine) (V V' : String → Option Word),
      Forall₂ (fun x y => V x = V' y.irName)
        ((range s.ty.getterShape.1.length).map keyName) ys →
      SameRun m st₂.code code V V' fun V₁ V₁' => SameWords m V₁ V₁' u.expr v.expr ∧ Keeps 0 V V₁ := by
  have hkeys : Forall₂ (fun x x' => ¬ IsTemp 0 x ∧ ¬ IsTemp st.counter x')
      (keyNames s.ty.getterShape.1.length).reverse (ys.reverse.map (·.irName)) := by
    rw [map_reverse, forall₂_reverse_iff, forall₂_map_right_iff]
    refine forall₂_iff_zip.2 ⟨by simp [keyNames, ← hlength, hlocals.length_eq], fun {x y} hxy => ?_⟩
    obtain ⟨hx, hy⟩ := of_mem_zip hxy
    have hown := isOwn_getterName (mem_append_left [returnName 0] hx)
    exact ⟨not_isTemp_of_isOwn hown, free_of_locals hlocals y hy⟩
  obtain ⟨q, st₃, hwalk, hload⟩ := walk_of_getterValue hfield hread
  obtain ⟨q', st₄, hwalk', hload'⟩ :=
    walk_of_value howner hs (by simp [hlength]) (forall₂_reverse_iff.2 hlocals) hvalue
  obtain ⟨hcounter, hcounter', -, -, code, code', slot, slot', ty, hcode, hcode', htwins, hlevels,
    hruns⟩ := sameWalks hcontext.symm (hcontext ▸ hs) hwalk hwalk' hkeys
  have hnil : ty.getterShape.1 = [] := by
    have hlevels := hlevels.1
    simp only [length_reverse, keyNames, length_map, length_range] at hlevels
    exact eq_nil_of_length_eq_zero (by omega)
  have hty : Compilation.isReadable ty := by
    rw [← Ty.getterShape_of_nil hnil, ← hlevels.2]
    exact hreadable
  obtain ⟨last, last', hlast, hlast', hreads⟩ := sameRun_load hty htwins hload hload'
  refine ⟨code' ++ last', by rw [hlast', hcode', append_assoc], fun m V V' hvars => ?_⟩
  have hcode : st₂.code = code ++ last := by
    rw [hlast, hcode]
    rfl
  rw [hcode]
  have hsame : Forall₂ (fun x x' => V x = V' x') (keyNames s.ty.getterShape.1.length).reverse
      (ys.reverse.map (·.irName)) := by
    rw [map_reverse, forall₂_reverse_iff, forall₂_map_right_iff]
    exact hvars
  refine (hruns m V V' hsame).append fun V₁ V₁' => ?_
  rintro ⟨hslot, hkeeps, -⟩
  refine (hreads m V₁ V₁' hslot).imp fun V₂ V₂' => ?_
  rintro ⟨hwords, hkeeps', -⟩
  exact ⟨hwords, fun x hx => (hkeeps' x fun ht => hx (ht.mono (Nat.zero_le _))).trans (hkeeps x hx)⟩

/-- What a getter of a field returns is what the field, indexed by its arguments, is in a method: a
call of the getter gives the same word in the same world, or stops in the same way. -/
def ReturnsIndexed (context : Context) (field : FieldDecl) (f : Yul.Function) : Prop :=
  ∀ (env : Env) (levels : Nat) (st st₁ : State) (s : Storage.Slot) (names : List String)
    (ys : List Variable) (v : Value), context.layout.get? field.name = some s →
    context.catalog.typeOf field.ty = .ok s.ty → Compilation.isReadable s.ty.getterShape.2 →
    env.toContext = context → env.owner = .contract →
    names.length = s.ty.getterShape.1.length → Forall₂ (IsLocal st) names ys →
    (denoteWithin levels (indexed field.name names.reverse)).value env st = .ok (v, st₁) →
    ∃ code, st₁.code = st.code ++ code ∧
      ∀ (ctx : Yul.Context) (functions : String → Option Yul.Function) (n : Nat) (w : World)
        (vars : String → Option Word) (words : List Word), functions f.name = some f →
        Forall₂ (fun y word => vars y.irName = some word) ys words →
        (within ctx functions n).runFunction functions f.name words w =
          readBy (within ctx functions n) code v.expr ⟨vars, w⟩

/-- The getter of a constant returns the initializer as it is lowered without variables. In a method the
constant is the initializer as well, but there a variable can stand for a name in it. -/
def ReturnsConstant (context : Context) (field : FieldDecl) (p : Progress) (f : Yul.Function) :
    Prop :=
  ∀ ty, context.catalog.typeOf field.ty = .ok ty → ty.getterShape.1 = [] →
    context.layout.get? field.name = none → ∃ init env u st, field.initializer = some init ∧
      env.toContext = context ∧ env.owner = .contract ∧ f = getterFunction field ty st.code u ∧
      (denoteWithin maxExpansions init).valueAs ty env { progress := p } = .ok (u, st) ∧
      ∀ (env' : Env) (st' : State), env'.toContext = context → env'.owner = .contract →
        constant? env' field.name = some field →
        (denoteWithin (maxExpansions + 1) (indexed field.name [])).value env' st' =
          (denoteWithin maxExpansions init).valueAs ty env' st'

/-- Getters of stored fields, and of constants that are no arrays, return what the field is in a
method. -/
theorem getter_reads_indexed {context : Context} {p p' : Progress} {owner : ClassDecl}
    {field : FieldDecl} {f : Yul.Function} (hgetter : getter owner field context p = .ok (f, p')) :
    (field.storage ≠ .constant → ReturnsIndexed context field f) ∧
      (field.storage = .constant → ReturnsConstant context field p f) := by
  refine ⟨?_, fun hfield ty hty hlevels hlayout => ?_⟩
  · intro hfield env levels st st₁ s names ys v hs hty hreadable hcontext howner hlength hlocals
      hvalue
    obtain ⟨env', u, st₂, hcontext', -, hread, rfl⟩ := of_getter hty hgetter
    subst hcontext
    obtain ⟨code, hcode, hruns⟩ := sameRun_getterValue hfield hs hreadable howner hcontext' hlength
      hlocals hread hvalue
    refine ⟨code, hcode, fun ctx functions n w vars words hf hwords => ?_⟩
    set f := getterFunction field s.ty st₂.code u
    have hargs : f.params.length = words.length := by
      simp [f, getterFunction, ← hlength, hlocals.length_eq, hwords.length_eq]
    obtain ⟨hparams, hreturns⟩ := forall₂_vars_entry (w := w) (nodup_getterNames _) hargs
    have hentry : entry f words w = ⟨(entry f words w).vars, w⟩ :=
      congrArg (Config.mk _) (world_setAll _ _)
    rw [runFunction, hf]
    simp only [hargs, if_true]
    rw [hentry]
    refine readBy_eq (fun n => not_isTemp_of_isOwn (isOwn_returnName 0)) (hreturns _ (.head _)) ?_
    refine (hruns _ _ vars ?_).imp fun V₁ V₁' h => ⟨h.1, 0, h.2⟩
    exact forall₂_trans (fun x word y hx hy => hx.trans hy.symm) hparams hwords.flip
  · obtain ⟨env, u, st, hcontext, howner, hread, rfl⟩ := of_getter hty hgetter
    rw [Ty.getterShape_of_nil hlevels] at hread
    obtain ⟨init, hinit, hread⟩ := exists_of_getterValue hfield hread
    refine ⟨init, env, u, st, hinit, hcontext, howner, rfl, hread, ?_⟩
    rintro env' st' rfl howner' hconstant
    exact value_constant howner' hty hlayout hconstant hinit

/-- A public field with three numbers. -/
def stepsField : FieldDecl where
  name := "steps"
  ty := "u256[3]"
  visibility := .public

/-- A class that has the field in its first slots. -/
def storedSteps : Context :=
  { emptyEnv.toContext with
    layout := ⟨[("steps", ⟨0, 0, 32, 3, .fixedArray, false, false, "Scale", "u256[3]",
      .array (.uint 256) (some 3)⟩)]⟩ }

/-- A method with a variable for the index. -/
def stepsMethod : Env :=
  { emptyEnv with toContext := storedSteps }

/-- The getter of the field, called with the index that a variable of a method holds, returns what the
method reads by that variable. -/
theorem getter_reads_indexed_steps : ∃ f p' v st₁ code,
    getter { name := "Scale" } stepsField storedSteps {} = .ok (f, p') ∧ f.params = ["key_0"] ∧
    (denoteWithin 1 (indexed "steps" ["x"])).value stepsMethod twoVariables = .ok (v, st₁) ∧
    st₁.code = twoVariables.code ++ code ∧
    ∀ (ctx : Yul.Context) (functions : String → Option Yul.Function) (n : Nat) (w : World)
      (vars : String → Option Word) (i : Word), functions f.name = some f → vars "var_x" = some i →
      (within ctx functions n).runFunction functions f.name [i] w =
        readBy (within ctx functions n) code v.expr ⟨vars, w⟩ := by
  obtain ⟨⟨f, p'⟩, h, hparams⟩ := Outcome.exists_of_map_toOption
    (show (getter { name := "Scale" } stepsField storedSteps {}).toOption.map (·.1.params) =
      some ["key_0"] by decide +kernel)
  obtain ⟨⟨v, st₁⟩, hvalue, -⟩ := Outcome.exists_of_map_toOption
    (show ((denoteWithin 1 (indexed "steps" ["x"])).value stepsMethod twoVariables).toOption.map
      (·.2.counter) = some 1 by decide +kernel)
  have hlocal : Forall₂ (IsLocal twoVariables) ["x"] [⟨"var_x", .uint 256⟩] :=
    .cons ⟨rfl, not_isTemp_of_head (by decide)⟩ .nil
  have hty : storedSteps.catalog.typeOf stepsField.ty = .ok (.array (.uint 256) (some 3)) :=
    Outcome.eq_ok_of_toOption (by decide +kernel)
  obtain ⟨code, hcode, hruns⟩ := (getter_reads_indexed h).1 (by decide) stepsMethod 1 twoVariables
    st₁ _ ["x"] _ v rfl hty rfl rfl rfl rfl hlocal hvalue
  exact ⟨f, p', v, st₁, code, h, hparams, hvalue, hcode, fun ctx functions n w vars i hf hi =>
    hruns ctx functions n w vars [i] hf (.cons hi .nil)⟩

/-- The field as a constant. -/
def constantSteps : FieldDecl :=
  { stepsField with
    storage := .constant
    initializer := some (.array [.number "5", .number "6", .number "7"]) }

/-- The class with the constant. -/
def scale : Env :=
  { emptyEnv with lineage := ⟨[], { name := "Scale", fields := [constantSteps] }⟩ }

/-- The getter of a constant array returns where the array begins, whatever its key is, and not an
element as an expression that indexes the constant does. -/
theorem getter_ignores_key :
    ((getter scale.lineage.derived constantSteps scale.toContext {}).toOption.map fun r =>
      (r.1.params, r.1.body.getLast?.map (Stmt.render 0))) = some (["key_0"], some "ret_0 := _1\n") ∧
      ((denoteWithin 1 (indexed "steps" ["x"])).value scale twoVariables).toOption.map
        (fun r => (r.2.code.getLast?.map (Stmt.render 0), r.1.expr.render)) =
          some (some "let _2 := memory_array_index(_1, var_x)\n", "mload(_2)") := by
  constructor <;> decide +kernel

end Lowering

end ContractYul
