import ContractYul.Proofs.Lowering.Statements

/-!
# Functions

A function starts with its parameters and return variables, which have names of their own. Its body
is lowered where they are known, so it reads and assigns variables where they are seen, and declares
no name twice. It calls what there is then, and touches what may be touched. A getter has numbered
parameters and no variables of the source. Code that sets initial values declares temporaries only.

Main statements: `lowered_signatureAndBody`, `lowered_getterValue` and `declared_initializers`.
-/

open List

namespace ContractYul.Lowering

open Yul Outcome Stmt
open Lowers (Any)

/-! ## Code from the start of a function -/

/-- The code of a function, which belongs to some classes, calls what there is then, and touches
what may be touched. -/
structure Lowered (env : Env) (within : String → Prop) (p : Progress) (st : State) : Prop where
  grows : p.Grows env.catalog st.progress
  callable : AllLinked (env.MayCall within st.progress) st.code
  licensed : ∀ i ∈ allInvocations st.code, env.Licensed (allBindings st.code) i

section

theorem Lowered.linked (h : Lowered env within p st) :
    AllLinked (CalleeFrom env.toContext env.mode within st.progress) st.code :=
  h.callable.mono fun _ hc => hc.calleeFrom

theorem Step.lowered (h : Step env κ κ' st st') (hcode : st.code = []) (hbindings : κ.bindings = []) :
    Lowered env (fun c => κ.classes c ∨ c = env.className) κ.progress st' := by
  obtain ⟨code, hwritten, hlays⟩ := h.code
  obtain rfl : st'.code = code := by simpa [hcode] using hwritten
  have hprogress := h.after.progress
  have hown : κ'.bindings = allBindings st'.code := by rw [hlays.bindings, hbindings]; rfl
  refine ⟨hprogress ▸ h.le.progress,
    hprogress ▸ h.le.classes ▸ hlays.uses.mono fun _ hu => hu.linked, fun i hi => ?_⟩
  obtain ⟨n, huse⟩ := hlays.uses.invocations i hi
  exact hown ▸ huse.licensed

/-- What is written from the start declares names that were made meanwhile, each once. -/
theorem Step.declared (h : Step env κ κ' st st') (hcode : st.code = [])
    (hhand : κ.naming.inHand = []) :
    (allDeclared st'.code).Nodup ∧
      ∀ x ∈ allDeclared st'.code, κ.naming.MadeBy κ'.naming x := by
  obtain ⟨code, hwritten, hlays⟩ := h.code
  obtain rfl : st'.code = code := by simpa [hcode] using hwritten
  obtain ⟨made, hmade, hby, hdeclared⟩ := hlays.names
  rw [hhand, append_nil] at hdeclared
  have hdeclared := (sublist_append_left _ _).subperm.trans hdeclared
  refine ⟨?_, fun x hx => hby x (hdeclared.subset hx)⟩
  obtain ⟨part, hperm, hsublist⟩ := hdeclared
  exact hperm.nodup_iff.1 (hmade.sublist hsublist)

theorem not_isTemp_of_isOwn (h : isOwn x = true) : ¬ IsTemp n x := by
  rintro ⟨k, -, rfl | rfl⟩ <;> simp [isOwn] at h

theorem IsVariable.isOwn (h : IsVariable x) : isOwn x = true := by
  obtain ⟨rest, rfl⟩ := h
  exact isOwn_of_head (c := 'v') (by simp [String.toList_append]) (by decide)

structure Orderly (f : Yul.Function) : Prop where
  scopes : f.Scoped
  named : ∀ x ∈ f.variables, isOwn x = true ∨ IsTemp 0 x

/-- A function is orderly when it starts with names of its own and its body makes none of them. -/
theorem Step.orderly (h : Step env κ κ' st st') (hs : κ.naming.strict) (hcode : st.code = [])
    (hhand : κ.naming.inHand = []) (hown : ∀ x, κ.naming.own x → x ∈ params ++ returns)
    (hnodup : (params ++ returns).Nodup) (hnamed : ∀ x ∈ params ++ returns, isOwn x = true)
    (hnew : ∀ x ∈ params ++ returns, x ∈ κ'.naming.declared → x ∈ κ.naming.declared) :
    Orderly ⟨name, params, returns, st'.code⟩ := by
  obtain ⟨hdeclared, hmade⟩ := h.declared hcode hhand
  obtain ⟨code, hwritten, hlays⟩ := h.code
  obtain rfl : st'.code = code := by simpa [hcode] using hwritten
  refine ⟨⟨(hlays.seen hs).mono fun x hx => hown x hx.1,
    nodup_append.2 ⟨hnodup, hdeclared, ?_⟩⟩, forall_mem_append.2 ⟨?_, ?_⟩⟩
  · rintro x hx _ hx' rfl
    rcases hmade x hx' with ⟨htemp, -⟩ | ⟨hx', hold, -⟩
    · exact not_isTemp_of_isOwn (hnamed x hx) htemp
    · exact hold (hnew x hx hx')
  · exact fun x hx => .inl (hnamed x hx)
  · intro x hx
    rcases hmade x hx with ⟨htemp, -⟩ | ⟨-, -, hvariable⟩
    · exact .inr (htemp.mono (Nat.zero_le _))
    · exact .inl hvariable.isOwn

end

variable {α : Type} {p : Progress} {i : Nat} {st : State} {x : String} {field : Source.FieldDecl}

theorem inFunction_eq_ok {className function : String}
    (h : inFunction className function mode owner m context p = .ok (r, p')) :
    ∃ st, m { toContext := context, className, function, mode, owner } { progress := p } =
      .ok (r.2, st) ∧ r.1 = st.code ∧ p' = st.progress := by
  obtain ⟨⟨⟨a, st⟩, p₀⟩, hlift, hrun⟩ := bind_eq_ok.1
    (show (liftM (m { toContext := context, className, function, mode, owner } { progress := p }) :
      Session _) context p >>= (fun q => Except.ok ((q.1.2.code, q.1.1), q.1.2.progress)) =
        .ok (r, p') from h)
  obtain ⟨q, hlower, hlift⟩ := bind_eq_ok.1 hlift
  cases hlift
  cases hrun
  exact ⟨st, hlower, rfl, rfl⟩

/-! ## Parameters and return variables -/

theorem returnName_injective (h : returnName i = returnName j) : i = j :=
  toString_of_append_eq h

theorem isOwn_returnName (i : Nat) : isOwn (returnName i) = true :=
  isOwn_of_head (c := 'r') (by simp [returnName]) (by decide)

/-- Names of parameters and return variables are taken, and nothing else has been done. The return
variables from `i` on are still to come. -/
structure Signed (p : Progress) (i : Nat) (st : State) : Prop where
  progress : st.progress = p
  code : st.code = []
  guard : st.guard = none
  nodup : st.declared.Nodup
  scope : ∀ x ∈ scopeNames st.scopes, x ∈ st.declared
  named : ∀ x ∈ st.declared, isOwn x = true
  free : ∀ j, i ≤ j → returnName j ∉ st.declared

theorem signed_start (p : Progress) : Signed p 0 { progress := p } :=
  ⟨rfl, rfl, rfl, .nil, forall_mem_nil _, forall_mem_nil _, fun _ _ => not_mem_nil⟩

theorem resolve_state (h : resolve text env st = .ok (ty, st')) : st' = st := by
  obtain ⟨_, -, h⟩ := bind_eq_ok.1 h
  exact (pair_inj h).2.symm

section

variable {st : State}

theorem Signed.declare (hst : Signed p i st) (h : Lowering.declare name ty env st = .ok (x, st')) :
    Signed p i st' ∧ st'.declared = x :: st.declared := by
  cases h
  refine ⟨⟨hst.progress, hst.code, hst.guard, ?_, ?_, ?_, ?_⟩, rfl⟩
  · exact nodup_cons.2 ⟨freeName_notMem _ _, hst.nodup⟩
  · intro y hy
    rcases mem_scopeNames_bindVariable hy with rfl | hy
    · exact mem_cons_self
    · exact mem_cons_of_mem _ (hst.scope y hy)
  · exact forall_mem_cons.2 ⟨(isVariable_freeName _ _).isOwn, hst.named⟩
  · intro j hj hmem
    rcases mem_cons.1 hmem with heq | hmem
    · obtain ⟨suffix, hsuffix⟩ := freeName_eq_append st.declared ("var_" ++ name)
      have hhead := congrArg (fun x => x.toList.head?) (heq.trans hsuffix)
      simp [returnName] at hhead
    · exact hst.free j hj hmem

theorem Signed.declareParams (hst : Signed p i st)
    (h : Lowering.declareParams params env st = .ok (names, st')) :
    Signed p i st' ∧ st'.declared = names.reverse ++ st.declared ∧ names.length = params.length := by
  unfold Lowering.declareParams at h
  induction params generalizing st names with
  | nil =>
    cases h
    exact ⟨hst, rfl, rfl⟩
  | cons q params ih =>
    rw [mapM_cons] at h
    obtain ⟨⟨x, st₁⟩, hq, hall⟩ := bind_eq_ok.1 h
    obtain ⟨⟨ty, st₀⟩, hty, hx⟩ := bind_eq_ok.1 hq
    obtain ⟨⟨rest, st₂⟩, hrest, hnames⟩ := bind_eq_ok.1 hall
    cases hnames
    obtain rfl := resolve_state hty
    obtain ⟨hst₁, hdeclared⟩ := hst.declare hx
    obtain ⟨hst₂, hdeclared₂, hlength⟩ := ih hst₁ hrest
    exact ⟨hst₂, by simp [hdeclared₂, hdeclared], by simp [hlength]⟩

def declareReturn (q : String × Nat) : Lower (String × Ty) := do
  let ty ← resolve q.1
  modify fun st => { st with declared := returnName q.2 :: st.declared }
  return (returnName q.2, ty)

theorem Signed.declareReturns {texts : List String} (hst : Signed p i st)
    (h : ((texts.zipIdx i).mapM declareReturn : Lower _) env st = .ok (returns, st')) :
    (∃ j, Signed p j st') ∧ st'.declared = (returns.map (·.1)).reverse ++ st.declared ∧
      returns.length = texts.length := by
  induction texts generalizing i st returns with
  | nil =>
    cases h
    exact ⟨⟨i, hst⟩, rfl, rfl⟩
  | cons text texts ih =>
    rw [zipIdx_cons, mapM_cons] at h
    obtain ⟨⟨x, st₁⟩, hfirst, hall⟩ := bind_eq_ok.1 h
    obtain ⟨⟨ty, st₀⟩, hty, hx⟩ := bind_eq_ok.1 hfirst
    obtain ⟨⟨rest, st₂⟩, hrest, hreturns⟩ := bind_eq_ok.1 hall
    cases hreturns
    cases hx
    obtain rfl := resolve_state hty
    have hst₁ : Signed p (i + 1) { st₀ with declared := returnName i :: st₀.declared } := by
      refine ⟨hst.progress, hst.code, hst.guard,
        nodup_cons.2 ⟨hst.free i (Nat.le_refl i), hst.nodup⟩,
        fun y hy => mem_cons_of_mem _ (hst.scope y hy),
        forall_mem_cons.2 ⟨isOwn_returnName i, hst.named⟩, fun j hj hmem => ?_⟩
      rcases mem_cons.1 hmem with heq | hmem
      · have := returnName_injective heq
        omega
      · exact hst.free j (by omega) hmem
    obtain ⟨hst₂, hdeclared, hlength⟩ := ih hst₁ hrest
    exact ⟨hst₂, by simp [hdeclared], by simp [hlength]⟩

end

/-! ## Functions with a body -/

/-- The names at the start of a body, where the parameters and return variables are known. -/
def State.bodyNaming (st : State) : Naming where
  counter := st.counter
  pending := []
  declared := st.declared
  scopes := st.scopes
  own x := x ∈ st.declared
  inHand := []
  jumps := True
  strict := True

theorem Signed.knows (h : Signed p i st) (hx : x ∈ st.declared) : st.bodyNaming.Knows x := fun _ =>
  ⟨hx, fun hr => hr.elim (not_isTemp_of_isOwn (h.named x hx)) not_mem_nil⟩

theorem Signed.describes (h : Signed p i st) :
    (⟨st.bodyNaming, p, [], fun _ => False⟩ : Stage).Describes st where
  progress := h.progress
  naming :=
    { counter := rfl
      pending := by rw [h.guard]; rfl
      declared := rfl
      scopes := rfl
      wellFormed := fun _ =>
        { scope := fun x hx => h.knows (h.scope x hx)
          waiting := forall_mem_nil _
          guard := forall_mem_nil _
          made := fun x hx => not_isTemp_of_isOwn (h.named x hx)
          hand := forall_mem_nil _ } }

theorem lowered_signatureAndBody {params : List Source.Param}
    (h : signatureAndBody params returns body env { progress := p } = .ok (r, st)) :
    Lowered env (· = env.className) p st ∧ (r.1.length = params.length ∧ r.2.length = returns.length) ∧
      ∀ name, Orderly ⟨name, r.1, r.2, st.code⟩ := by
  obtain ⟨⟨names, st₁⟩, hparams, h⟩ := bind_eq_ok.1 h
  obtain ⟨⟨results, st₂⟩, hreturns, h⟩ := bind_eq_ok.1 h
  obtain ⟨⟨_, st₃⟩, hbody, h⟩ := bind_eq_ok.1 h
  obtain ⟨rfl, rfl⟩ := pair_inj h
  obtain ⟨hst₁, hdeclared₁, hnames⟩ := (signed_start p).declareParams hparams
  obtain ⟨⟨i, hst₂⟩, hdeclared₂, hresults⟩ := hst₁.declareReturns hreturns
  have hdeclared : st₂.declared = (names ++ results.map (·.1)).reverse := by
    rw [hdeclared₂, hdeclared₁]
    simp
  have hknown : ∀ q ∈ results, st₂.bodyNaming.Knows q.1 := fun q hq => by
    refine hst₂.knows ?_
    rw [hdeclared, mem_reverse]
    exact mem_append_right _ (mem_map_of_mem hq)
  obtain ⟨κ', hstep, -⟩ := Proceeds.runAll (writes_lowerAll body) trivial hknown st₂ () st₃
    hst₂.describes hbody
  obtain ⟨hgrows, hlinked, hlicensed⟩ := hstep.lowered hst₂.code rfl
  simp only [false_or] at hlinked
  refine ⟨⟨hgrows, hlinked, hlicensed⟩, ⟨hnames, by simpa using hresults⟩, fun _ => ?_⟩
  have hmem : ∀ x, x ∈ st₂.declared ↔ x ∈ names ++ results.map (·.1) := fun x => by
    rw [hdeclared, mem_reverse]
  refine hstep.orderly trivial hst₂.code rfl (fun x hx => (hmem x).1 hx) ?_
    (fun x hx => hst₂.named x ((hmem x).2 hx)) fun x hx _ => (hmem x).2 hx
  rw [← nodup_reverse, ← hdeclared]
  exact hst₂.nodup

/-! ## Getters -/

theorem keyName_injective (h : keyName i = keyName j) : i = j :=
  toString_of_append_eq h

theorem Lowers.getterValue {keys : List Ty} (hkeys : ∀ i < keys.length, κ.Knows (keyName i)) :
    Lowers env κ (Lowering.getterValue field keys result) (PlainValue env) := by
  have hplaces : ∀ (keys : List (Ty × Nat)) {κ : Stage} {place},
      (∀ q ∈ keys, κ.Knows (keyName q.2)) → PlainPlace env false κ place →
      Lowers env κ (keys.foldlM (fun place q =>
        Lowering.indexPlace place ⟨ident (keyName q.2), q.1⟩ field.name) place)
        (PlainPlace env false) := by
    intro keys
    induction keys with
    | nil => exact fun _ hplace => .pure hplace
    | cons q keys ih =>
      intro κ place hknown hplace
      obtain ⟨hq, hrest⟩ := forall_mem_cons.1 hknown
      refine Lowers.bind (R := PlainPlace env false)
        (Lowers.indexPlace hplace (fits_ident.2 hq)) fun κ' _ h hplace => ?_
      exact ih (fun q hq => (hrest q hq).later h) hplace
  unfold Lowering.getterValue
  split
  · split
    · exact Writes.sound_operand.valueAs
    · exact .throw
  · refine Lowers.fieldPlace.bind fun κ₁ place h₁ hplace => ?_
    refine (hplaces keys.zipIdx (fun q hq => ?_) hplace).bind fun _ _ _ hplace => .load hplace
    have hlt : q.2 < keys.length := snd_lt_of_mem_zipIdx hq
    exact (hkeys q.2 hlt).later h₁

def getterNaming (count : Nat) : Naming where
  counter := 0
  pending := []
  declared := []
  scopes := [[]]
  own x := x ∈ (range count).map keyName ++ [returnName 0]
  inHand := []
  jumps := False
  strict := True

theorem isOwn_getterName {count : Nat}
    (h : x ∈ (range count).map keyName ++ [returnName 0]) : isOwn x = true := by
  rcases mem_append.1 h with h | h
  · obtain ⟨i, -, rfl⟩ := mem_map.1 h
    exact isOwn_of_head (c := 'k') (by simp [keyName]) (by decide)
  · rw [mem_singleton.1 h]
    exact isOwn_returnName 0

theorem nodup_getterNames (count : Nat) : ((range count).map keyName ++ [returnName 0]).Nodup := by
  refine nodup_append.2 ⟨nodup_range.map fun _ _ h => keyName_injective h, nodup_singleton _, ?_⟩
  rintro x hx y hy rfl
  obtain ⟨i, -, rfl⟩ := mem_map.1 hx
  have hhead := congrArg (fun x => x.toList.head?) (mem_singleton.1 hy)
  simp [keyName, returnName] at hhead

theorem describes_getterNaming (count : Nat) (p : Progress) :
    (⟨getterNaming count, p, [], fun _ => False⟩ : Stage).Describes { progress := p } where
  progress := rfl
  naming :=
    { counter := rfl
      pending := rfl
      declared := rfl
      scopes := rfl
      wellFormed := fun _ =>
        { scope := forall_mem_nil _
          waiting := forall_mem_nil _
          guard := forall_mem_nil _
          made := fun _ hx => not_isTemp_of_isOwn (isOwn_getterName hx)
          hand := forall_mem_nil _ } }

theorem lowered_getterValue {keys : List Ty} (h : (do
      let v ← getterValue field keys result
      emit (.assignOne (returnName 0) v.expr) : Lower Unit) env { progress := p } = .ok ((), st)) :
    Lowered env (· = env.className) p st ∧
      ∀ name, Orderly ⟨name, (range keys.length).map keyName, [returnName 0], st.code⟩ := by
  set κ : Stage := ⟨getterNaming keys.length, p, [], fun _ => False⟩
  have hknows : ∀ x ∈ (range keys.length).map keyName ++ [returnName 0], κ.Knows x :=
    fun x hx _ => ⟨hx, fun hr => hr.elim (not_isTemp_of_isOwn (isOwn_getterName hx))
      not_mem_nil⟩
  have hlowers : Lowers env κ (do
      let v ← getterValue field keys result
      emit (.assignOne (returnName 0) v.expr)) Any := by
    refine (Lowers.getterValue fun i hi => hknows _ ?_).bind fun κ' v h hv => Lowers.emit ?_
    · exact mem_append_left _ (mem_map_of_mem (mem_range.2 hi))
    · have hresult := hknows (returnName 0) (by simp)
      exact fits_assignOne.2 ⟨hresult.later h, hv.known⟩
  obtain ⟨κ', hstep, htakes, -⟩ := hlowers _ _ st (describes_getterNaming keys.length p) h
  refine ⟨by simpa [κ] using hstep.lowered rfl rfl, fun name => ?_⟩
  exact hstep.orderly trivial rfl rfl (fun x hx => hx) (nodup_getterNames keys.length)
    (fun x hx => isOwn_getterName hx) fun x _ hx => htakes.declared ▸ hx

/-! ## Initial values -/

/-- The naming of a state where nothing is asked of names, and the rest of the stage. -/
def State.stage (st : State) : Stage :=
  ⟨st.naming True False, st.progress, [], fun _ => True⟩

theorem State.describes_stage (st : State) : st.stage.Describes st :=
  ⟨State.describes_naming (by rintro ⟨⟩), rfl⟩

theorem State.knows_stage : st.stage.Knows x := by
  rintro ⟨⟩

theorem Moves.lowered (hm : Moves env ({ progress := p } : State).stage m R)
    (h : m env { progress := p } = .ok (a, st)) :
    Lowered env (fun c => True ∨ c = env.className) p st := by
  obtain ⟨κ', hstep, -⟩ := hm _ a st (State.describes_stage _) h
  exact hstep.lowered rfl rfl

theorem Lowers.initializeField : Lowers env κ (Lowering.initializeField field) Any := by
  unfold Lowering.initializeField
  split
  · exact .pure trivial
  · split
    · exact .pure trivial
    · refine Lowers.fieldPlace.bind fun _ place _ hplace => ?_
      refine Writes.sound_operand.valueAs.bind fun _ v h hv => ?_
      exact .store (hplace.later h) hv

theorem Lowers.initializeFields {classes : List Source.ClassDecl} (hclasses : ∀ c, κ.classes c) :
    Lowers env κ (classes.forM fun c => withReader (fun env => { env with className := c.name })
      (c.fields.forM Lowering.initializeField)) Any :=
  Lowers.forM fun _ h _ _ =>
    Moves.inClass (h.classes ▸ hclasses _) (Lowers.forM fun _ _ _ _ => .initializeField)

/-- Code that sets initial values declares temporaries, each once, and no functions. -/
theorem declared_initializers {region : String} {code : List Yul.Stmt}
    (h : initializers region context p = .ok (code, p')) :
    (allDeclared code).Nodup ∧ (∀ x ∈ allDeclared code, IsTemp 0 x) ∧
      AllMention (fun _ => True) code := by
  obtain ⟨⟨r, p₁⟩, hrun, h⟩ := bind_eq_ok.1 h
  cases h
  obtain ⟨st, hlower, hcode, -⟩ := inFunction_eq_ok hrun
  -- jumps are ruled out, so that the code is straight
  have hstart : (⟨({ progress := p } : State).naming False False, p, [], fun _ => True⟩ :
      Stage).Describes { progress := p } :=
    ⟨State.describes_naming (by rintro ⟨⟩), rfl⟩
  obtain ⟨κ', hstep, htakes, -⟩ := Lowers.initializeFields (fun _ => trivial) _ _ st hstart hlower
  obtain ⟨hnodup, hmade⟩ := hstep.declared rfl rfl
  obtain ⟨written, hwritten, hlays⟩ := hstep.code
  obtain rfl : st.code = written := by simpa using hwritten
  rw [hcode]
  refine ⟨hnodup, fun x hx => ?_, hlays.flow.resolve_left id⟩
  rcases hmade x hx with ⟨htemp, -⟩ | ⟨hnew, hold, -⟩
  · exact htemp.mono (Nat.zero_le _)
  · exact absurd (htakes.declared ▸ hnew) hold

/-- Actions that change nothing, one after the other, change nothing. -/
theorem forM_unchanged {as : List α} (hf : ∀ a ∈ as, f a env st = .ok ((), st)) :
    (as.forM f : Lower Unit) env st = .ok ((), st) := by
  induction as with
  | nil => rfl
  | cons a as ih =>
    obtain ⟨ha, has⟩ := forall_mem_cons.1 hf
    exact bind_eq_ok.2 ⟨((), st), ha, ih has⟩

/-- Where no field has an initial value to set, there is no code that sets one. -/
theorem initializers_eq_nil {region : String} {code : List Yul.Stmt}
    (h : initializers region context p = .ok (code, p'))
    (hnone : ∀ c ∈ context.lineage.classes, ∀ field ∈ c.fields,
      field.initializer = none ∨ field.storage = .constant) : code = [] := by
  obtain ⟨⟨r, p₁⟩, hrun, h⟩ := bind_eq_ok.1 h
  cases h
  obtain ⟨st, hlower, hcode, -⟩ := inFunction_eq_ok hrun
  have hfield : ∀ c ∈ context.lineage.classes, ∀ field ∈ c.fields, ∀ env st,
      initializeField field env st = .ok ((), st) := by
    intro c hc field hfield env st
    rw [initializeField]
    cases hinit : field.initializer with
    | none => rfl
    | some init =>
      rw [(hnone c hc field hfield).resolve_left (by simp [hinit])]
      rfl
  have hsame := hlower.symm.trans
    (forM_unchanged fun c hc => forM_unchanged fun field h => hfield c hc field h _ _)
  cases hsame
  exact hcode

end ContractYul.Lowering
