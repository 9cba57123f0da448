import ContractYul.Proofs.Catalog.Keys
import ContractYul.Proofs.Lineage.Methods
import ContractYul.Proofs.Lowering.Operands

/-!
# Calls

Failures, encodings, calls of other contracts and calls of functions of the same compilation are
lowering in the sense of `Lowers` when their operands are sound. A routine gets as many arguments as
its version has parameters, and a function of the same compilation as many as it is declared with. A
call that is guarded sets the variables of the guard, which are reserved up to then; results are bound
to temporaries. Of all calls only `push` and `pop` change storage, and the array that they are called
on is a place that is to be changed.
-/

open List

namespace ContractYul.Lowering

open Yul
open Source (Param MethodDecl)

namespace Lowers

variable {env : Env}

/-! ## Failures -/

variable {f : RoutineFamily} {m : MethodDecl} {catalog : Catalog}

theorem fits_shape {e : Yul.Expr} (h : Shape.literal codes bits = .ok e) : e.Fits V A n := by
  unfold Shape.literal at h
  split at h
  · cases h
  · cases h
    trivial

theorem shapeLiteral : Lowers env κ (liftM (Lowering.shapeLiteral types)) (Known env 1) := by
  refine lift fun e h => ?_
  obtain ⟨codes, -, h⟩ := Outcome.bind_eq_ok.1 h
  exact fits_shape h

theorem freeMemory : Lowers env κ (Lowering.freeMemory ty) (PlainValue env) :=
  captureFresh (Op.fits_mload.2 fits_num)

/-- What is written for a failure with data in memory. -/
theorem emitRevert {start length : Yul.Expr} (hstart : Known env 1 κ start)
    (hlength : Known env 1 κ length) : Lowers env κ (Lowering.emit (Op.revert start length)) Any :=
  emit (Stage.fits_run 2 (by decide) (by decide) rfl (by simpa using ⟨hstart, hlength⟩))

theorem revertEmpty : Lowers env κ (Lowering.emit Op.revertEmpty) Any :=
  emitRevert fits_num fits_num

theorem revertWords (hpointer : Plain env κ pointer) (hwords : ∀ e ∈ words, Plain env κ e) :
    Lowers env κ (Lowering.revertWords e pointer words) Any := by
  refine (emit (Stage.fits_mstore hpointer.known Op.fits_selectorWord)).bind fun κ₁ _ h₁ _ => ?_
  have haddress : ∀ i, Plain env κ₁ (Op.add pointer (num (4 + 32 * i))) := fun _ =>
    Op.fits_add.2 ⟨hpointer.later h₁, fits_num⟩
  refine (storeEach _ haddress fun e he => (hwords e he).later h₁).bind fun _ _ h₂ _ => ?_
  exact emitRevert (hpointer.later (h₁.trans h₂)).known fits_num

theorem revertEncoded (hpointer : Plain env κ pointer) (hwords : ∀ e ∈ words, Plain env κ e) :
    Lowers env κ (Lowering.revertEncoded e pointer types words) Any := by
  refine shapeLiteral.bind fun _ shape h₁ hshape => ?_
  refine (family ?_ ?_).bind fun _ encoded h₂ hencoded => ?_
  · rfl
  · simp only [forall_mem_append, forall_mem_cons]
    exact ⟨⟨(hpointer.later h₁).known, fits_numText, hshape, forall_mem_nil _⟩,
      fun e he => ((hwords e he).later h₁).known⟩
  refine (bindFresh hencoded).bind fun _ stop h₃ hstop => ?_
  have hpointer := (hpointer.later (h₁.trans (h₂.trans h₃))).known
  exact emitRevert hpointer (Op.fits_sub.2 ⟨fits_ident.2 hstop.1, hpointer⟩)

theorem plain_exprs (hvs : PlainValues env κ vs) : ∀ e ∈ vs.map (·.expr), Plain env κ e :=
  forall_mem_map.2 hvs

theorem known_exprs (hvs : PlainValues env κ vs) : ∀ e ∈ vs.map (·.expr), Known env 1 κ e :=
  forall_mem_map.2 fun v hv => (hvs v hv).known

theorem revertCustom (h : AllSound env args) : Lowers env κ (Lowering.revertCustom e args) Any := by
  refine attempt.bind fun _ _ _ _ => (orderedAs h).bind fun _ values _ hvalues => ?_
  refine freeMemory.bind fun _ pointer h₁ hpointer => ?_
  have hwords := plain_exprs (stays_plainValues _ _ _ h₁ hvalues.2)
  split
  · exact revertWords hpointer hwords
  · exact revertEncoded hpointer hwords

theorem revertFor (h : AllSound env args) : Lowers env κ (Lowering.revertFor args callee) Any := by
  unfold Lowering.revertFor
  split
  · exact revertEmpty
  · rename_i reason
    exact (h reason (by simp)).revert
  · exact throw

theorem failUnless (hcondition : condition.Sound env)
    (hother : ∀ {κ : Stage}, Lowers env κ otherwise Any) :
    Lowers env κ (Lowering.failUnless condition otherwise) Any := by
  refine hcondition.valueAs.bind fun _ c _ hc => ?_
  refine Moves.bind (inScope stays_any hother) fun _ p h ⟨ht, hcode, _⟩ => ?_
  have hfails := Op.fits_isZero.2 (hc.later h).known
  exact (Moves.writeIf ht.append_nil hfails hcode).weaken fun _ _ _ ht => ⟨ht, trivial⟩

theorem requireCall (h : AllSound env args) : Lowers env κ (Lowering.requireCall args) Any := by
  unfold Lowering.requireCall
  split
  · rename_i condition
    exact failUnless (h condition (by simp)) revertEmpty
  · rename_i condition reason
    exact failUnless (h condition (by simp)) (h reason (by simp)).revert
  · exact throw

theorem assertCall (h : AllSound env args) : Lowers env κ (Lowering.assertCall args) Any := by
  unfold Lowering.assertCall
  split
  · rename_i condition
    exact failUnless (h condition (by simp))
      (emit (Stage.fits_run 0 (by decide) (by decide) rfl (forall_mem_nil _)))
  · exact throw

/-! ## Hashes and encodings -/

theorem fits_arrayHash [Reads A] (hpointer : pointer.Fits V A 1) :
    (arrayHash pointer).Fits V A 1 := by
  simpa [arrayHash] using hpointer

theorem referenceHash? (hv : Plain env κ v.expr) :
    Lowers env κ (Lowering.referenceHash? v) (IfSome (Known env 1)) := by
  have hhash : Lowers env κ (do
      let e ← Lowering.routine .bytesHash [v.expr]
      return some e) (IfSome (Known env 1)) :=
    (routine rfl rfl (forall_mem_singleton.2 hv.known)).bind fun _ _ _ he => pure (ifSome_some he)
  unfold Lowering.referenceHash?
  split
  · exact hhash
  · exact hhash
  · split
    · exact (capture hv.known).bind fun _ _ _ hv => pure (ifSome_some (fits_arrayHash hv.known))
    · exact pure ifSome_none
  · exact pure ifSome_none

theorem hashValue (hv : Plain env κ v.expr) :
    Lowers env κ (Lowering.hashValue v) (PlainValue env) := by
  refine (referenceHash? hv).bind fun _ hash h₁ hhash => ?_
  split
  · rename_i hash
    exact captureFresh (hhash hash rfl)
  · split
    · refine (emit (Stage.fits_mstore fits_num (hv.later h₁).known)).bind fun _ _ _ _ => ?_
      exact captureFresh (Op.fits_keccak.2 ⟨fits_num, fits_num⟩)
    · exact throw

theorem keccakCall (h : AllSound env args) :
    Lowers env κ (Lowering.keccakCall args) (PlainValue env) := by
  unfold Lowering.keccakCall
  split
  · rename_i arg
    exact (h arg (by simp)).value.bind fun _ _ _ hv => hashValue hv
  · exact throw

/-- An encoding by a version of a family with a single result; in front of the encoded words come
the place of the encoding and `front`. -/
theorem encodeWith (hlength : words.length + (front.length + 1) = f.params words.length)
    (hresults : f.results words.length = 1) (hfront : ∀ e ∈ front, Known env 1 κ e)
    (hwords : ∀ e ∈ words, Known env 1 κ e) :
    Lowers env κ (Lowering.encodeWith f front words) (PlainValue env) := by
  refine freeMemory.bind fun _ bytes h₁ hbytes => ?_
  refine (family ?_ ?_).bind fun _ encoded h₂ hencoded => ?_
  · rw [← hlength, length_append, length_cons, Nat.add_comm]
  · simp only [cons_append, forall_mem_cons, forall_mem_append]
    exact ⟨(Op.fits_dataOf.2 hbytes).known, fun e he => (hfront e he).later h₁,
      fun e he => (hwords e he).later h₁⟩
  rw [hresults] at hencoded
  refine (bindFresh hencoded).bind fun _ stop h₃ hstop => ?_
  have hbytes := hbytes.later (h₂.trans h₃)
  refine (runRoutine rfl (licensed_routine (r := .fixed .finalizeBytes) rfl) ?_).bind fun _ _ h₄ _ =>
    pure (hbytes.later h₄)
  simpa using ⟨hbytes.known, hstop.1⟩

theorem encode (hvs : PlainValues env κ vs) :
    Lowers env κ (Lowering.encode vs) (PlainValue env) := by
  refine shapeLiteral.bind fun _ shape h hshape => encodeWith rfl rfl ?_ ?_
  · exact forall_mem_singleton.2 hshape
  · exact known_exprs (stays_plainValues _ _ _ h hvs)

theorem encodeSelector (hselector : Plain env κ selector) (hvs : PlainValues env κ vs) :
    Lowers env κ (Lowering.encodeSelector selector vs) (PlainValue env) := by
  refine shapeLiteral.bind fun _ shape h hshape => encodeWith rfl rfl ?_ ?_
  · exact forall_mem_cons.2 ⟨(hselector.later h).known, forall_mem_singleton.2 hshape⟩
  · exact known_exprs (stays_plainValues _ _ _ h hvs)

theorem fits_packedWord [Reads A] (hv : v.expr.Fits V A 1) : (packedWord v).Fits V A 1 := by
  unfold packedWord
  split
  · split
    · exact Op.fits_shr.2 ⟨fits_num, hv⟩
    · exact hv
  · exact hv

theorem encodePacked (hvs : PlainValues env κ vs) :
    Lowers env κ (Lowering.encodePacked vs) (PlainValue env) := by
  refine Lowers.bind (mapM stays_any fun _ _ _ _ => attempt) fun _ widths h₁ _ => ?_
  refine (lift (R := Known env 1) fun _ => fits_shape).bind fun _ shape h₂ hshape => ?_
  refine encodeWith rfl rfl (forall_mem_singleton.2 hshape) ?_
  exact forall_mem_map.2 fun v hv => fits_packedWord ((hvs v hv).later (h₁.trans h₂)).known

theorem temps {as : List α} : Moves env κ (as.mapM fun _ => Lowering.temp)
    fun κ' names => κ.Takes κ' names ∧ names.length = as.length := by
  induction as generalizing κ with
  | nil =>
    exact Moves.pure ⟨.refl _, rfl⟩
  | cons a as ih =>
    rw [mapM_cons]
    refine Moves.temp.bind fun κ₁ t h₁ ht => ih.bind fun κ₂ names h₂ hnames => Moves.pure ?_
    exact ⟨(ht.trans hnames.1).perm (perm_append_singleton t names), congrArg Nat.succ hnames.2⟩

theorem plainValues_zip {names : List String} (hnames : ∀ x ∈ names, κ.Knows x) :
    PlainValues env κ ((names.zip types).map fun p => ⟨ident p.1, p.2⟩) :=
  forall_mem_map.2 fun p hp => hnames p.1 (of_mem_zip hp).1

theorem bindResults {e : Yul.Expr} (he : Known env types.length κ e) :
    Lowers env κ (Lowering.bindResults e types) (PlainValues env) := by
  unfold Lowering.bindResults
  split
  · rename_i hempty
    rw [isEmpty_iff.1 hempty] at he
    exact (emitExpr he).bind fun _ _ _ _ => pure (forall_mem_nil _)
  · refine temps.bind fun _ names h₁ ⟨ht, hlength⟩ => ?_
    refine (declareAll ht.append_nil ?_).bind fun _ _ _ ⟨ht, hnames, _⟩ => ?_
    · rintro _ ⟨⟩
      rw [hlength]
      exact he.later h₁
    · exact Moves.pure ⟨ht, plainValues_zip hnames⟩

theorem decoded (hbytes : Plain env κ bytes) :
    Lowers env κ (Lowering.decoded bytes types) (Known env types.length) := by
  refine shapeLiteral.bind fun _ shape h hshape => family rfl ?_
  simpa using ⟨(hbytes.later h).known, hshape⟩

theorem listedType {e : Source.Expr} : Lowers env κ (Lowering.listedType e) Any := by
  unfold Lowering.listedType
  split
  · exact resolve
  · exact resolve
  · exact throw

theorem decodeCall (h : AllSound env args) :
    Lowers env κ (Lowering.decodeCall args) (PlainValues env) := by
  unfold Lowering.decodeCall
  split
  · rename_i data types
    refine Lowers.bind (mapM stays_any fun _ _ _ _ => listedType) fun _ _ _ _ => ?_
    refine (h data (by simp)).valueAs.bind fun _ _ _ hbytes => ?_
    exact (decoded hbytes).bind fun _ _ _ he => bindResults he
  · exact throw

theorem encodeWithSelectorCall (h : AllSound env args) :
    Lowers env κ (Lowering.encodeWithSelectorCall args) (PlainValue env) := by
  unfold Lowering.encodeWithSelectorCall
  split
  · exact throw
  · obtain ⟨hselector, hargs⟩ := forall_mem_cons.1 h
    refine hselector.valueAs.bind fun _ _ _ hv => (capture hv.known).bind fun _ word _ hword => ?_
    refine (orderedValues hargs).bind fun _ values h₂ hvalues => ?_
    exact encodeSelector (Op.fits_shr.2 ⟨fits_num, hword.later h₂⟩) hvalues.2

theorem encodeWithSignatureCall (h : AllSound env args) :
    Lowers env κ (Lowering.encodeWithSignatureCall args) (PlainValue env) := by
  unfold Lowering.encodeWithSignatureCall
  split
  · exact throw
  · split
    · refine (orderedValues (forall_mem_cons.1 h).2).bind fun _ _ _ hvalues => ?_
      exact encodeSelector fits_numText hvalues.2
    · exact throw

theorem single {m : Lower Value} (hm : Lowers env κ m (PlainValue env)) :
    Lowers env κ (do return [← m]) (PlainValues env) :=
  hm.bind fun _ _ _ hv => pure (forall_mem_singleton.2 hv)

theorem abiCall (h : AllSound env args) :
    Lowers env κ (Lowering.abiCall member args) (PlainValues env) := by
  unfold Lowering.abiCall
  split
  · exact (orderedValues h).bind fun _ _ _ hvs => single (encode hvs.2)
  · exact (orderedValues h).bind fun _ _ _ hvs => single (encodePacked hvs.2)
  · exact single (encodeWithSelectorCall h)
  · exact single (encodeWithSignatureCall h)
  · exact decodeCall h
  · exact throw

/-! ## Calls of other contracts -/

/-- A guard that meets its call gives up its variables, which are known from then on. -/
theorem claimGuard : Lowers env κ Lowering.claimGuard
    (IfSome fun κ r => κ.Knows r.1 ∧ κ.Knows r.2) := by
  intro st r st' hst hrun
  have hrun := Except.ok.inj hrun
  simp only at hrun
  split at hrun
  · rename_i g hg
    split at hrun
    · obtain ⟨rfl, rfl⟩ := Prod.mk.inj hrun
      exact ⟨κ, Moves.step_self hst, .refl _, ifSome_none⟩
    · rename_i hcaptured
      obtain ⟨rfl, rfl⟩ := Prod.mk.inj hrun
      have hpending := hst.naming.pending
      simp only [hg, pendingNames, hcaptured] at hpending
      have hnone : pendingNames (some { g with captured := true }) = [] := by simp [pendingNames]
      obtain ⟨κ', hstep, htakes, -, hown⟩ := Moves.unguarded env hst hnone
      have hknows : ∀ x ∈ κ.naming.pending, κ'.Knows x := fun x hx hs =>
        hown x ((hst.naming.wellFormed (hstep.le.naming.strict ▸ hs)).waiting x hx) hs
      exact ⟨κ', hstep, htakes,
        ifSome_some ⟨hknows _ (by simp [← hpending]), hknows _ (by simp [← hpending])⟩⟩
  · obtain ⟨rfl, rfl⟩ := Prod.mk.inj hrun
    exact ⟨κ, Moves.step_self hst, .refl _, ifSome_none⟩

theorem forwardFailure (hsuccess : Known env 1 κ success) :
    Lowers env κ (Lowering.forwardFailure success) Any := by
  refine (routine rfl rfl (forall_mem_nil _)).bind fun _ forward h hforward => ?_
  refine emit ⟨?_, hforward, trivial⟩
  exact Op.fits_isZero.2 (hsuccess.later h)

theorem bindOutcome (hinvocation : Known env 2 κ invocation) :
    Lowers env κ (Lowering.bindOutcome invocation) fun κ r => κ.Knows r.1 ∧ κ.Knows r.2.1 := by
  refine claimGuard.bind fun _ guard h₁ hguard => ?_
  have hinvocation := hinvocation.later h₁
  split
  -- a guard has variables for the outcome already
  · rename_i success result
    obtain ⟨hsuccess, hresult⟩ := hguard (success, result) rfl
    refine (emit (s := .assign [success, result] invocation) ⟨?_, hinvocation⟩).bind
      fun _ _ h _ => pure ⟨hsuccess.later h, hresult.later h⟩
    simpa using ⟨hsuccess, hresult⟩
  · refine Moves.temp.bind fun _ success h₂ ht => Moves.temp.bind fun _ result h₃ ht' => ?_
    have htaken := (ht.trans ht').perm (.swap success result [])
    refine (declareAll htaken.append_nil ?_).bind fun _ _ _ ⟨ht, hnames, _⟩ => ?_
    · rintro _ ⟨⟩
      exact hinvocation.later (h₂.trans h₃)
    · exact Moves.pure ⟨ht, hnames success (by simp), hnames result (by simp)⟩

theorem lowLevelCall (hr : (Routine.fixed r).signature = ⟨r.name, words.length, 2⟩)
    (hs : (Routine.fixed r).changesStorage? = none) (hwords : ∀ e ∈ words, Known env 1 κ e) :
    Lowers env κ (Lowering.lowLevelCall r words) (PlainValues env) := by
  refine (routine hr hs hwords).bind fun _ _ _ he => ?_
  refine (bindOutcome he).bind fun _ r _ hr => pure ?_
  exact forall_mem_cons.2 ⟨hr.1, forall_mem_singleton.2 hr.2⟩

theorem known_transferOf (haccount : Known env 1 κ account) (hamount : Known env 1 κ amount) :
    Known env 1 κ (transferOf account amount) := by
  refine fits_call.2 ⟨Stage.uses_instruction ?_ (by decide), by simpa using ⟨haccount, hamount⟩⟩
  exact show (⟨"call", 7, 1⟩ : Call) ∈ instructions by decide

theorem onlyArgument (h : AllSound env args) :
    Lowers env κ (Lowering.onlyArgument callee ty args) (PlainValue env) := by
  unfold Lowering.onlyArgument
  split
  · rename_i arg
    exact (h arg (by simp)).valueAs
  · exact throw

theorem accountCall (haccount : Plain env κ account) (h : AllSound env args) :
    Lowers env κ (Lowering.accountCall account member args)
      (IfSome (PlainValues env)) := by
  have hlow : ∀ {κ' : Stage} {r : FixedRoutine} {words : List Yul.Expr},
      (Routine.fixed r).signature = ⟨r.name, words.length, 2⟩ →
      (Routine.fixed r).changesStorage? = none → (∀ e ∈ words, Known env 1 κ' e) →
      Lowers env κ' (do
        let vs ← Lowering.lowLevelCall r words
        return some vs) (IfSome (PlainValues env)) := fun hr hs hwords =>
    (lowLevelCall hr hs hwords).bind fun _ _ _ hvs => pure (ifSome_some hvs)
  unfold Lowering.accountCall
  split
  · refine (onlyArgument h).bind fun _ amount h₁ hamount => ?_
    refine (forwardFailure ?_).bind fun _ _ _ _ => pure (ifSome_some (forall_mem_nil _))
    exact known_transferOf (haccount.later h₁).known hamount.known
  · refine (onlyArgument h).bind fun _ amount h₁ hamount => ?_
    refine (captureFresh ?_).bind fun _ _ _ hv =>
      pure (ifSome_some (forall_mem_singleton.2 hv))
    exact known_transferOf (haccount.later h₁).known hamount.known
  · split
    · rename_i data
      refine (h data (by simp)).valueAs.bind fun _ _ h₁ hdata => hlow rfl rfl ?_
      simpa using ⟨(haccount.later h₁).known, hdata.known⟩
    · rename_i data amount
      refine (orderedPair (fun _ => (h data (by simp)).valueAs) (h amount (by simp)).valueAs).bind
        fun _ p h₁ hp => hlow rfl rfl ?_
      simpa using ⟨(haccount.later h₁).known, hp.2.known, hp.1.known⟩
    · exact throw
  · refine (onlyArgument h).bind fun _ data h₁ hdata => hlow rfl rfl ?_
    simpa using ⟨(haccount.later h₁).known, hdata.known⟩
  · refine (onlyArgument h).bind fun _ data h₁ hdata => hlow rfl rfl ?_
    simpa using ⟨(haccount.later h₁).known, hdata.known⟩
  · exact pure ifSome_none

theorem bindReturns (hsuccess : κ.Knows success) (hresult : κ.Knows result) :
    Lowers env κ (Lowering.bindReturns success result guarded types) (PlainValues env) := by
  unfold Lowering.bindReturns
  split
  · exact pure (forall_mem_nil _)
  · refine (decoded (fits_ident.2 hresult)).bind fun _ results h₁ hresults => ?_
    split
    -- under a guard the results are set only when the call succeeded
    · refine temps.bind fun κ₂ names h₂ ht => ?_
      obtain ⟨ht, hlength⟩ := ht
      refine (declareAll ht.append_nil (by simp)).bind fun _ _ h₃ ⟨ht, hnames, _⟩ => ?_
      refine Lowers.since (Lowers.bind (emit ⟨?_, ⟨?_, ?_⟩, trivial⟩) fun _ _ h₄ _ => ?_) ht
      · exact fits_ident.2 (hsuccess.later (h₁.trans (h₂.trans h₃)))
      · exact hnames
      · rw [hlength]
        exact hresults.later (h₂.trans h₃)
      · exact pure (plainValues_zip fun x hx => (hnames x hx).later h₄)
    · exact bindResults hresults

def IsMethodCall (f : RoutineFamily) : Prop :=
  f = .call ∨ f = .staticCall ∨ f = .delegateCall

/-- A family that calls a method takes an amount exactly if it is `call`. -/
theorem params_methodCall (hf : IsMethodCall f) :
    f.params n = n + 3 + if f == .call then 1 else 0 := by
  rcases hf with rfl | rfl | rfl <;> rfl

theorem results_methodCall (hf : IsMethodCall f) : f.results n = 2 := by
  rcases hf with rfl | rfl | rfl <;> rfl

theorem externalCall {m : Catalog.ExternalMethod} (hf : IsMethodCall f)
    (htarget : Plain env κ target) (h : AllSound env args) :
    Lowers env κ (Lowering.externalCall f target m args) (PlainValues env) := by
  refine attempt.bind fun _ _ h₁ _ => (orderedAs h).bind fun _ values h₂ hvalues => ?_
  refine shapeLiteral.bind fun κ₃ shape h₃ hshape => ?_
  have htarget := htarget.later (h₁.trans (h₂.trans h₃))
  have hvalues := known_exprs (stays_plainValues _ _ _ h₃ hvalues.2)
  refine (family ?_ ?_).bind fun _ invocation _ hinvocation => ?_
  · rw [params_methodCall hf]
    split <;> simp
  · have hamount : ∀ e ∈ (if f == .call then [num 0] else [] : List Yul.Expr),
        Known env 1 κ₃ e := by
      split <;> simp
    simp only [cons_append, forall_mem_cons, forall_mem_append]
    exact ⟨htarget.known, ⟨hamount, fits_numText, hshape, forall_mem_nil _⟩, hvalues⟩
  rw [results_methodCall hf] at hinvocation
  refine (bindOutcome hinvocation).bind fun _ r _ hr => ?_
  obtain ⟨success, result, guarded⟩ := r
  obtain ⟨hsuccess, hresult⟩ := hr
  cases guarded
  · refine (forwardFailure (fits_ident.2 hsuccess)).bind fun _ _ h₄ _ => ?_
    exact bindReturns (hsuccess.later h₄) (hresult.later h₄)
  · exact bindReturns hsuccess hresult

theorem methodCall {m : Catalog.ExternalMethod} (htarget : Plain env κ target)
    (h : AllSound env args) :
    Lowers env κ (Lowering.methodCall target m args) (PlainValues env) := by
  refine externalCall ?_ htarget h
  split
  · exact .inr (.inl rfl)
  · exact .inl rfl

theorem mem_of_delegateTarget? (h : delegateTarget? target = some p) : p.2 ∈ target := by
  unfold delegateTarget? at h
  split at h
  · split at h
    · cases h
      simp
    · cases h
  · cases h

theorem delegateMethodCall {target : List Operand} {method : String}
    (htarget : AllSound env target) (h : AllSound env args) :
    Lowers env κ (Lowering.delegateMethodCall target method args) (PlainValues env) := by
  unfold Lowering.delegateMethodCall
  split
  · rename_i interface address hfound
    have haddress := htarget address (mem_of_delegateTarget? hfound)
    refine read_bind (attempt.bind fun _ m _ _ => ?_)
    refine haddress.value.bind fun _ _ _ hv => (convert hv).bind fun _ _ _ hv => ?_
    exact (capture hv.known).bind fun _ _ _ hv => externalCall (.inr (.inr rfl)) hv h
  · exact throw

theorem constructorParams : Lowers env κ (Lowering.constructorParams name) Any := by
  refine read_bind ?_
  split
  · exact throw
  · split
    · exact throw
    · split
      · exact throw
      · exact attempt.bind fun _ _ _ _ => pure trivial

theorem dependOn : Lowers env κ (Lowering.dependOn name) Any := by
  refine (modifyProgress (f := fun p =>
    { p with dependencies := insertSorted name p.dependencies }) ?_).weaken fun _ _ _ _ => trivial
  exact .of_registry .refl rfl rfl

theorem settleCreation (haddress : Plain env κ address) :
    Lowers env κ (Lowering.settleCreation address) Any := by
  refine claimGuard.bind fun _ guard h₁ hguard => ?_
  have haddress := haddress.later h₁
  split
  · rename_i success result
    obtain ⟨hsuccess, hresult⟩ := hguard (success, result) rfl
    refine (emit (Stmt.fits_assignOne.2 ⟨hsuccess, ?_⟩)).bind fun _ _ h₂ _ => ?_
    · exact fits_nonZero haddress.known
    refine (routine rfl rfl (forall_mem_nil _)).bind fun _ data h₃ hdata => ?_
    exact emit (Stmt.fits_assignOne.2 ⟨hresult.later (h₂.trans h₃), hdata⟩)
  · exact forwardFailure haddress.known

theorem sentAmount (hvalue : ∀ o ∈ value, o.Sound env) :
    Lowers env κ (Lowering.sentAmount value) (Plain env) := by
  cases value with
  | some o =>
    refine (hvalue o rfl).valueAs.bind fun _ _ _ hv => ?_
    exact (capture hv.known).bind fun _ _ _ hv => pure hv
  | none => exact pure trivial

theorem saltWords (hsalt : ∀ o ∈ salt, o.Sound env) :
    Lowers env κ (Lowering.saltWords salt)
      fun κ words => words.length ≤ 1 ∧ ∀ e ∈ words, Plain env κ e := by
  cases salt with
  | some o =>
    refine (hsalt o rfl).value.bind fun _ _ _ hv => ?_
    exact (capture hv.known).bind fun _ _ _ hv => pure ⟨Nat.le_refl _, forall_mem_singleton.2 hv⟩
  | none => exact pure ⟨Nat.zero_le _, forall_mem_nil _⟩

theorem createWith (h : AllSound env args) (hamount : Plain env κ amount) (hsalt : words.length ≤ 1)
    (hwords : ∀ e ∈ words, Plain env κ e) :
    Lowers env κ (Lowering.createWith name types args amount words) (PlainValue env) := by
  refine (orderedAs h).bind fun _ values h₁ hvalues => ?_
  refine shapeLiteral.bind fun κ₂ shape h₂ hshape => ?_
  have hamount := hamount.later (h₁.trans h₂)
  have hvalues := known_exprs (stays_plainValues _ _ _ h₂ hvalues.2)
  refine (family ?_ ?_).bind fun κ₃ created _ hcreated => dependOn.bind fun _ _ h₃ _ => ?_
  -- the version with a salt has one parameter more
  · rw [length_append, length_map, Nat.add_comm]
    rcases words with - | ⟨salt, rest⟩
    · rfl
    · obtain rfl : rest = [] := by simpa using hsalt
      rfl
  · have hcode : ∀ {part : String}, IsReading part 1 →
        Known env 1 κ₂ (call part [textLiteral name]) := fun h =>
      (Op.fits_unary h).2 fits_textLiteral
    simp only [forall_mem_append, forall_mem_cons]
    exact ⟨⟨⟨⟨hcode (by decide), hcode (by decide), hamount.known, forall_mem_nil _⟩,
      fun e he => ((hwords e he).later (h₁.trans h₂)).known⟩, hshape, forall_mem_nil _⟩, hvalues⟩
  have hcreated : Known env 1 κ₃ created := by
    cases words <;> exact hcreated
  refine (bindFresh (hcreated.later h₃)).bind fun _ address _ haddress => ?_
  refine (settleCreation (fits_ident.2 haddress.1)).bind fun _ _ h₄ _ => ?_
  exact pure (haddress.1.later h₄)

theorem createContract (h : AllSound env args) (hvalue : ∀ o ∈ value, o.Sound env)
    (hsalt : ∀ o ∈ salt, o.Sound env) :
    Lowers env κ (Lowering.createContract name args value salt) (PlainValue env) := by
  refine constructorParams.bind fun _ params _ _ => attempt.bind fun _ _ _ _ => ?_
  refine resolveAll.bind fun _ types _ _ => (sentAmount hvalue).bind fun _ _ _ hamount => ?_
  refine (saltWords hsalt).bind fun _ _ h₁ hwords => ?_
  exact createWith h (hamount.later h₁) hwords.1 hwords.2

/-! ## Functions of the same compilation -/

variable {name method : String}

/-- A function that is called as it is declared. It is no routine, so that it touches no storage under
its own name. -/
theorem internalCall (hname : stem irName ∈ ownStems)
    (hcallee : env.MayCall (fun c => κ.classes c ∨ c = env.className) κ.progress
      ⟨irName, params.length, returns.length⟩) (h : AllSound env args) :
    Lowers env κ (Lowering.internalCall irName params returns args) (PlainValues env) := by
  refine checkArity.bind fun _ _ h₁ harity => resolveAll.bind fun _ types h₂ htypes => ?_
  refine (orderedAs h).bind fun _ values h₃ hvalues => resolveAll.bind fun _ results h₄ hresults => ?_
  refine bindResults (fits_call.2 ⟨⟨?_, licensed_function hname, by simp⟩,
    known_exprs (stays_plainValues _ _ _ h₄ hvalues.2)⟩)
  -- the numbers of parameters, types and arguments agree
  have hlength : (values.map (·.expr)).length = params.length := by
    rw [length_map, hvalues.1, htypes, length_map, ← harity, Nat.min_self]
  have hle := h₁.trans (h₂.trans (h₃.trans h₄))
  rw [Use.call, hlength, hresults, hle.classes]
  exact hcallee.mono hle.progress

theorem mem_values_of_freeFunction? {f : Source.FunctionDecl}
    (h : catalog.freeFunction? name = some f) : f ∈ catalog.functions.values := by
  obtain ⟨hget, -⟩ := Option.filter_eq_some_iff.1 h
  exact mem_map.2 ⟨(name, f), OrderedMap.mem_of_get? hget, rfl⟩

theorem freeCall {f : Source.FunctionDecl} (hf : env.catalog.freeFunction? name = some f)
    (h : AllSound env args) : Lowers env κ (Lowering.freeCall f args) (PlainValues env) := by
  have hdeclared : (Request.free f.name).Declared env.catalog :=
    ⟨f, mem_values_of_freeFunction? hf, rfl⟩
  refine (request hdeclared).bind fun _ _ _ hrequested => ?_
  exact internalCall (by rw [stem_freeFunctionName]; decide) (.inl (.free hf hrequested)) h

theorem name_of_libraryMethod (h : catalog.libraryMethod owner name = .ok m) : m.name = name := by
  unfold Catalog.libraryMethod at h
  split at h
  · cases h
  · split at h
    · cases h
    · rename_i hfind
      cases h
      simpa using find?_some hfind

theorem libraryCall (hm : env.catalog.libraryMethod owner name = .ok m)
    (hreceiver : IfSome (PlainValue env) κ receiver) (h : AllSound env args) :
    Lowers env κ (Lowering.libraryCall owner m receiver args) (PlainValues env) := by
  obtain rfl := name_of_libraryMethod hm
  refine checkArity.bind fun _ _ h₁ harity => ?_
  have hdeclared : (Request.library owner m.name).Declared env.catalog := ⟨m, hm⟩
  refine (request hdeclared).bind fun _ _ h₂ hrequested => ?_
  refine resolveAll.bind fun κ₃ types h₃ htypes => ?_
  have hreceiver : PlainValues env κ₃ receiver.toList := fun v hv =>
    (hreceiver v (Option.mem_toList.1 hv)).later (h₁.trans (h₂.trans h₃))
  refine Lowers.bind (captureCalls hreceiver) fun _ front h₄ hfront => ?_
  refine (orderedAs h).bind fun _ values h₅ hvalues => resolveAll.bind fun _ results h₆ hresults => ?_
  refine bindResults (fits_call.2 ⟨⟨?_, licensed_function ?_, by simp⟩, known_exprs fun v hv => ?_⟩)
  -- the receiver, bound before the arguments, takes the place of the first
  · have hlength : ((front ++ values).map (·.expr)).length = m.params.length := by
      rw [length_map, length_append, hvalues.1, length_drop, htypes, length_map]
      omega
    rw [Use.call, hlength, hresults]
    exact .mono (h₃.trans (h₄.trans (h₅.trans h₆))).progress (.inl (.library hm hrequested))
  · rw [stem_libraryFunctionName]
    decide
  · rcases mem_append.1 hv with hv | hv
    · exact (hfront.2 v hv).later (h₅.trans h₆)
    · exact (hvalues.2 v hv).later h₆

/-- The scope of an expanded method holds temporaries that its arguments were bound to. -/
theorem expandCall (hbody : body.Sound env) (h : AllSound env args) :
    Lowers env κ (Lowering.expandCall body resultType m args) (PlainValue env) := by
  refine attempt.bind fun _ _ _ _ => resolveAll.bind fun _ types _ _ => ?_
  refine resolve.bind fun _ result _ _ => (orderedAs h).bind fun _ values _ hvalues => ?_
  refine Lowers.bind (mapM (fun _ _ x h hx => hx.later h)
    fun _ h v hv => (bindFresh ((hvalues.2 v hv).later h).known).weaken fun _ _ _ hx => hx.1)
    fun _ names _ hnames => ?_
  refine withScopes stays_plainValue ?_ hbody.valueAs
  -- the variables of the scope are the temporaries just made
  intro x hx
  simp only [scopeNames, flatMap_cons, flatMap_nil, append_nil, map_reverse,
    mem_reverse, map_map, mem_map] at hx
  obtain ⟨⟨p, name, ty⟩, hp, rfl⟩ := hx
  exact hnames.2 name (of_mem_zip (of_mem_zip hp).2).1

theorem thisCall (hexpand : expand.Sound env) (h : AllSound env args) :
    Lowers env κ (Lowering.thisCall expand name args) (PlainValues env) := by
  refine read_bind ?_
  split
  · exact throw
  · rename_i howner
    split
    · exact throw
    · rename_i owner m hmethod
      split
      · exact throw
      · rename_i hbody
        split
        · rename_i denote body ty _ _
          exact single (expandCall (hexpand denote rfl body) h)
        · refine internalCall (by rw [stem_functionName]; decide)
            (.inr ⟨.inl (by simpa using howner), .method hmethod ?_⟩) h
          simpa [Option.isSome_iff_ne_none] using hbody

/-- A parent method is called by its own name or by that of its class and itself. -/
theorem stem_superTarget {lineage : Lineage} (h : lineage.superTarget className method = .ok target) :
    stem target ∈ ownStems := by
  unfold Lineage.superTarget at h
  split at h
  · rename_i hlookup
    cases h
    rcases Lineage.names_of_superTargets hlookup with rfl | ⟨className, rfl⟩
    · rw [stem_functionName]
      decide
    · unfold Lineage.irName
      split
      · rw [stem_functionName]
        decide
      · rw [stem_renamedName]
        decide
  · cases h

theorem superCall (h : AllSound env args) :
    Lowers env κ (Lowering.superCall method args) (PlainValues env) := by
  refine read_bind (succeeded.bind fun _ target _ htarget => ?_)
  split
  · rename_i m hm
    exact internalCall (stem_superTarget htarget) (.inl (.parent (.inr rfl) htarget hm)) h
  · exact throw

theorem superConstructorCall (h : AllSound env args) :
    Lowers env κ (Lowering.superConstructorCall args) (PlainValues env) := by
  refine read_bind ?_
  split
  · exact throw
  · rename_i hconstructor
    split
    · rename_i parent ctor hparent
      have hmode : env.mode = .constructor := by simpa using hconstructor
      exact internalCall (by rw [stem_constructorName]; decide)
        (.inr ⟨.inr hmode, .constructor hmode hparent⟩) h
    · exact throw

/-! ## Calls by name -/

theorem conversionCall (h : AllSound env args) :
    Lowers env κ (Lowering.conversionCall callee target args) (PlainValues env) := by
  unfold Lowering.conversionCall
  split
  · rename_i arg
    exact (h arg (by simp)).value.bind fun _ _ _ hv => single (convert hv)
  · exact throw

theorem gasCall : Lowers env κ (Lowering.gasCall args) (PlainValues env) := by
  unfold Lowering.gasCall
  split
  · exact single (captureFresh (fits_call.2 ⟨Stage.uses_instruction (by decide) (by decide),
      forall_mem_nil _⟩))
  · exact throw

theorem predefinedCall (h : AllSound env args) :
    Lowers env κ (Lowering.predefinedCall name args) (IfSome (PlainValues env)) := by
  have hnone : ∀ {m : Lower Unit}, Lowers env κ m Any → Lowers env κ (do
      m
      return some []) (IfSome (PlainValues env)) := fun hm =>
    hm.bind fun _ _ _ _ => pure (ifSome_some (forall_mem_nil _))
  have hsome : ∀ {m : Lower (List Value)}, Lowers env κ m (PlainValues env) → Lowers env κ (do
      let vs ← m
      return some vs) (IfSome (PlainValues env)) := fun hm =>
    hm.bind fun _ _ _ hvs => pure (ifSome_some hvs)
  unfold Lowering.predefinedCall
  split
  · exact hnone (requireCall h)
  · exact hnone (assertCall h)
  · exact hnone (revertFor h)
  · exact (keccakCall h).bind fun _ _ _ hv => pure (ifSome_some (forall_mem_singleton.2 hv))
  · exact hsome gasCall
  · refine (onlyArgument h).bind fun _ _ _ hv =>
      pure (ifSome_some (forall_mem_singleton.2 ?_))
    exact (Op.fits_unary (by decide)).2 hv
  · exact hsome (conversionCall h)
  · exact hsome (conversionCall h)
  · exact throw
  · exact pure ifSome_none

theorem declaredCall (hexpand : expand.Sound env) (h : AllSound env args) :
    Lowers env κ (Lowering.declaredCall expand name args) (PlainValues env) := by
  refine read_bind ?_
  split
  · rename_i f hf
    exact freeCall hf h
  · split
    · split
      · rename_i m hm
        exact libraryCall hm ifSome_none h
      · exact undefined
    · split
      · exact thisCall hexpand h
      · exact undefined
    · exact undefined

theorem namedCall (hexpand : expand.Sound env) (h : AllSound env args) :
    Lowers env κ (Lowering.namedCall expand name args) (PlainValues env) := by
  refine (predefinedCall h).bind fun _ found _ hfound => ?_
  cases found with
  | some vs => exact pure (hfound vs rfl)
  | none =>
    refine read_bind ?_
    split
    · exact conversionCall h
    · exact declaredCall hexpand h

theorem computedCall : Lowers env κ Lowering.computedCall (PlainValues env) :=
  read_bind throw

theorem identCall (hexpand : expand.Sound env) (h : AllSound env args) :
    Lowers env κ (Lowering.identCall expand name args) (PlainValues env) := by
  refine varOf?.bind fun _ found _ _ => ?_
  split
  · exact computedCall
  · exact namedCall hexpand h

/-! ## Calls on objects -/

theorem libraryMethod_of_extension? (h : extension? catalog ty method = some (owner, m)) :
    catalog.libraryMethod owner method = .ok m := by
  obtain ⟨l, -, hl⟩ := exists_of_findSome?_eq_some h
  obtain ⟨m', hm', hpair⟩ := Option.map_eq_some_iff.1 hl
  obtain ⟨rfl, rfl⟩ := Prod.mk.inj hpair
  cases hmethod : catalog.libraryMethod l method with
  | error e => simp [hmethod, Except.toOption] at hm'
  | ok m'' =>
    rw [hmethod] at hm'
    exact congrArg Except.ok (Option.some.inj hm')

theorem extensionCall (hv : Plain env κ v.expr) (h : AllSound env args) :
    Lowers env κ (Lowering.extensionCall v method args) (PlainValues env) := by
  unfold Lowering.extensionCall
  extract_lets rest
  have hrest : ∀ {κ' : Stage}, κ.Extends env.catalog κ' →
      Lowers env κ' (rest ()) (PlainValues env) := by
    intro κ' h₁
    refine read_bind ?_
    split
    · rename_i owner m hextension
      exact libraryCall (libraryMethod_of_extension? hextension) (ifSome_some (hv.later h₁)) h
    · exact throw
  split
  · refine (accountCall hv h).bind fun _ found h₁ hfound => ?_
    cases found with
    | some vs => exact pure (hfound vs rfl)
    | none => exact hrest h₁
  · exact hrest .refl

theorem receiverCall (hv : Plain env κ v.expr) (h : AllSound env args) :
    Lowers env κ (Lowering.receiverCall v method args) (PlainValues env) := by
  refine read_bind ?_
  extract_lets catalog
  split
  · split
    · exact methodCall hv h
    · split
      · exact throw
      · exact extensionCall hv h
  · exact extensionCall hv h

theorem pushCall (hplace : PlainPlace env true κ place) (h : AllSound env args) :
    Lowers env κ (Lowering.pushCall place args) Any := by
  refine (growableArray hplace).bind fun _ r _ hr => ?_
  obtain ⟨slot, elem⟩ := r
  obtain ⟨offset, size, hbase⟩ := hr
  cases args with
  | nil => exact pushElement hbase ifSome_none
  | cons arg rest =>
    cases rest with
    | nil =>
      refine (h arg (by simp)).valueAs.bind fun _ _ h₁ hv => ?_
      refine (capture hv.known).bind fun _ _ h₂ hv => ?_
      exact pushElement (hbase.later (h₁.trans h₂)) (ifSome_some hv)
    | cons _ _ => exact throw

theorem arrayCall (ho : o.Sound env) (h : AllSound env args) :
    Lowers env κ (Lowering.arrayCall o method args) Any := by
  refine ho.place.bind fun _ place _ hplace => ?_
  split
  · split
    · exact pushCall hplace h
    · exact attempt.bind fun _ _ h₁ _ => popElement (hplace.later h₁)
  · exact throw

theorem isGrowable {e : Source.Expr} : Lowers env κ (Lowering.isGrowable e) Any := by
  refine placeType.bind fun _ ty _ _ => ?_
  split
  · exact pure trivial
  · exact pure trivial

theorem objectCall (ho : o.Sound env) (h : AllSound env args) :
    Lowers env κ (Lowering.objectCall o method args) (PlainValues env) := by
  refine isGrowable.bind fun _ growable _ _ => ?_
  split
  · exact (arrayCall ho h).bind fun _ _ _ _ => pure (forall_mem_nil _)
  · refine ho.value.bind fun _ _ _ hv => (capture hv.known).bind fun _ _ _ hv => ?_
    exact receiverCall hv h

theorem qualifiedCall (ho : o.Sound env) (h : AllSound env args) :
    Lowers env κ (Lowering.qualifiedCall name o method args) (PlainValues env) := by
  refine read_bind ?_
  extract_lets catalog
  split
  · exact abiCall h
  · split
    · exact succeeded.bind fun _ m _ hm => libraryCall hm ifSome_none h
    · exact objectCall ho h

theorem memberCall (hexpand : expand.Sound env) (ho : o.Sound env)
    (h : AllSound env args) :
    Lowers env κ (Lowering.memberCall expand o method args) (PlainValues env) := by
  unfold Lowering.memberCall
  split
  · exact thisCall hexpand h
  · exact superCall h
  · refine varOf?.bind fun _ found _ _ => ?_
    split
    · exact qualifiedCall ho h
    · exact objectCall ho h
  · exact objectCall ho h

end Lowers

end ContractYul.Lowering
