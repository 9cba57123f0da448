import ContractYul.Proofs.Lowering.Places

/-!
# Operands

An operand is `Sound` when every use of it is lowering in the sense of `Lowers`; its place is traced
for the use that it is asked for. Operands made of sound operands are sound: literals, names and
members, operators and assignments.
-/

open List

namespace ContractYul.Lowering

open Yul Stmt
open Source (BinaryOp UnaryOp UpdateOp AssignOp)

/-- The expressions of values read what is known and change nothing. -/
abbrev PlainValues (env : Env) (κ : Stage) (vs : List Value) : Prop :=
  ∀ v ∈ vs, PlainValue env κ v

open Lowers (Any)

/-- Every use of an operand is the code of an expression and gives a plain result. -/
structure Operand.Sound (env : Env) (o : Operand) : Prop where
  value : ∀ {κ : Stage}, Lowers env κ o.value (PlainValue env)
  valueAs : ∀ {κ : Stage} {ty}, Lowers env κ (o.valueAs ty) (PlainValue env)
  values : ∀ {κ : Stage}, Lowers env κ o.values (PlainValues env)
  place : ∀ {κ : Stage} {write}, Lowers env κ (o.place write) (PlainPlace env write)
  discard : ∀ {κ : Stage}, Lowers env κ o.discard Any
  revert : ∀ {κ : Stage}, Lowers env κ o.revert Any

namespace Lowers

theorem stays_plainValues : Stays env (PlainValues env : Stage → List Value → Prop) :=
  fun _ _ _ h hvs v hv => (hvs v hv).later h

theorem revertMessage (hmessage : ∀ {κ : Stage}, Lowers env κ message (PlainValue env)) :
    Lowers env κ (Lowering.revertMessage message) Any := by
  refine read_bind ?_
  split
  · exact emit (Stage.fits_run 2 (by decide) (by decide) rfl (by simp))
  · refine hmessage.bind fun _ _ _ hv => ?_
    exact runRoutine rfl (licensed_routine (r := .fixed .revertErrorString) rfl)
      (forall_mem_singleton.2 hv.known)

theorem discardValue (hv : PlainValue env κ v) : Lowers env κ (Lowering.discardValue v) Any := by
  unfold Lowering.discardValue
  split
  · exact pure trivial
  · exact emit (Stage.fits_run 1 (by decide) (by decide) rfl (forall_mem_singleton.2 hv.known))

end Lowers

namespace Operand.Sound

variable {env : Env} {source : Source.Expr} {value : Lower Value}

theorem typed {valueAs : Ty → Lower Value}
    (hvalue : ∀ {κ : Stage}, Lowers env κ value (PlainValue env))
    (hvalueAs : ∀ {κ : Stage} {ty}, Lowers env κ (valueAs ty) (PlainValue env)) :
    (Operand.typed source value valueAs).Sound env where
  value := hvalue
  valueAs := hvalueAs
  values := hvalue.bind fun _ _ _ hv => Lowers.pure (forall_mem_singleton.2 hv)
  place := by
    intro κ write
    cases write
    · exact hvalue.bind fun _ _ _ hv => Lowers.valuePlace hv.known
    · exact Lowers.read_bind Lowers.throw
  discard := hvalue.bind fun _ _ _ hv => Lowers.discardValue hv
  revert := Lowers.revertMessage hvalueAs

theorem plain (hvalue : ∀ {κ : Stage}, Lowers env κ value (PlainValue env)) :
    (Operand.plain source value).Sound env :=
  typed hvalue (hvalue.bind fun _ _ _ hv => Lowers.coerce hv)

end Operand.Sound

def Expansion.Sound (env : Env) (expand : Expansion) : Prop :=
  ∀ denote ∈ expand, ∀ e, (denote e).Sound env

abbrev AllSound (env : Env) (operands : List Operand) : Prop :=
  ∀ o ∈ operands, o.Sound env

namespace Lowers

variable {env : Env} {κ : Stage} {l r : Value} {vs : List Value} {o : Operand}

/-! ## Order of evaluation -/

abbrev Counted (env : Env) (n : Nat) (κ : Stage) (vs : List Value) : Prop :=
  vs.length = n ∧ PlainValues env κ vs

theorem plainValues_snoc (hvs : PlainValues env κ vs) (hv : PlainValue env κ v) :
    PlainValues env κ (vs ++ [v]) :=
  forall_mem_append.2 ⟨hvs, forall_mem_singleton.2 hv⟩

theorem captureCalls (hvs : PlainValues env κ vs) :
    Lowers env κ (Lowering.captureCalls vs) (Counted env vs.length) :=
  mapM stays_plainValue fun _ h v hv => capture ((hvs v hv).later h).known

/-- Code that was collected for a value is empty, and the value is known at once. -/
theorem of_empty (hempty : prelude.isEmpty = true) (ht : κ.Takes κ₁ (allDeclared prelude))
    (hv : PlainValue env (κ₁.behind prelude) v) : κ.Takes κ₁ [] ∧ PlainValue env κ₁ v := by
  obtain rfl := isEmpty_iff.1 hempty
  exact ⟨ht, hv.later Stage.behind_nil_extends⟩

theorem orderedAfter (hdone : PlainValues env κ done)
    (hparts : ∀ m ∈ parts, ∀ {κ : Stage}, Lowers env κ m (PlainValue env)) :
    Lowers env κ (Lowering.orderedAfter done parts) (Counted env (done.length + parts.length)) := by
  induction parts generalizing κ done with
  | nil => exact pure ⟨rfl, hdone⟩
  | cons m rest ih =>
    have hrest : ∀ m ∈ rest, ∀ {κ : Stage}, Lowers env κ m (PlainValue env) := fun m hm =>
      hparts m (mem_cons_of_mem _ hm)
    -- the value of a part joins those before it, which keep their number
    have hnext : ∀ {κ' : Stage} {done' : List Value} {v : Value}, done'.length = done.length →
        PlainValues env κ' done' → PlainValue env κ' v →
        Lowers env κ' (Lowering.orderedAfter (done' ++ [v]) rest)
          (Counted env (done.length + (m :: rest).length)) := by
      intro κ' done' v hlength hdone' hv
      refine (ih (plainValues_snoc hdone' hv) hrest).weaken fun _ vs _ hvs => ⟨?_, hvs.2⟩
      rw [hvs.1, length_append, length_singleton, length_cons]
      omega
    refine Moves.bind (inScope stays_plainValue (hparts m (by simp))) fun κ₁ p h₁ hp => ?_
    obtain ⟨prelude, v⟩ := p
    obtain ⟨ht, hprelude, hv⟩ := hp
    have hdone := stays_plainValues _ _ _ h₁ hdone
    show Moves env κ₁ (if prelude.isEmpty then _ else _) _
    split
    · rename_i hempty
      obtain ⟨ht, hv⟩ := of_empty hempty ht hv
      exact (hnext rfl hdone hv).since ht
    -- the statements come behind the captures, so the value is moved past both
    · refine ((captureCalls hdone).since ht).bind fun κ₂ done h₂ ⟨ht, hlength, hdone⟩ => ?_
      refine (Moves.write ht.append_nil (hprelude.later h₂)).bind fun κ₃ _ h₃ ⟨ht, hseen, _⟩ => ?_
      have hdone := stays_plainValues _ _ _ h₃ hdone
      exact (hnext hlength hdone (hv.later (h₂.behind.trans hseen))).since ht

theorem ordered (hparts : ∀ m ∈ parts, ∀ {κ : Stage}, Lowers env κ m (PlainValue env)) :
    Lowers env κ (Lowering.ordered parts) (Counted env parts.length) := by
  refine (orderedAfter (forall_mem_nil _) hparts).weaken fun _ _ _ hvs => ?_
  simpa using hvs

/-- The expressions of two values read what is known and change nothing. -/
abbrev PlainPair (env : Env) (κ : Stage) (p : Value × Value) : Prop :=
  PlainValue env κ p.1 ∧ PlainValue env κ p.2

theorem after (hv : PlainValue env κ v)
    (hm : ∀ scopes, Lowers env (κ.within scopes) m (PlainValue env)) :
    Lowers env κ (Lowering.after v m) (PlainPair env) := by
  refine Moves.bind (inScope stays_plainValue (hm _)) fun κ₁ p h₁ hp => ?_
  obtain ⟨prelude, w⟩ := p
  obtain ⟨ht, hprelude, hw⟩ := hp
  have hrest : ∀ κ₂ v, κ₁.Extends env.catalog κ₂ →
      κ.Takes κ₂ (allDeclared prelude) ∧ PlainValue env κ₂ v →
      Moves env κ₂ (do
        Lowering.emitAll prelude
        return (v, w)) fun κ' p => κ.Takes κ' [] ∧ PlainPair env κ' p := by
    rintro κ₂ v h₂ ⟨ht, hv⟩
    refine (Moves.write ht.append_nil (hprelude.later h₂)).bind fun κ₃ _ h₃ ⟨ht, hseen, _⟩ => ?_
    exact Moves.pure ⟨ht, hv.later h₃, hw.later (h₂.behind.trans hseen)⟩
  show Moves env κ₁ (if prelude.isEmpty then _ else _) _
  split
  · exact ((pure (hv.later h₁)).since ht).bind hrest
  · exact ((capture (hv.later h₁).known).since ht).bind hrest

theorem orderedPair (hfirst : ∀ scopes, Lowers env (κ.within scopes) first (PlainValue env))
    (hsecond : ∀ {κ : Stage}, Lowers env κ second (PlainValue env)) :
    Lowers env κ (Lowering.orderedPair first second) (PlainPair env) := by
  refine Moves.bind (inScope stays_plainValue (hfirst _)) fun κ₁ p h₁ ⟨ht, hprelude, hv⟩ => ?_
  refine (Moves.write ht.append_nil hprelude).bind fun κ₂ _ h₂ ⟨ht, hseen, _⟩ => ?_
  exact (after (hv.later hseen) fun _ => hsecond).since ht

theorem orderedValues (h : AllSound env operands) :
    Lowers env κ (Lowering.orderedValues operands) (Counted env operands.length) := by
  refine (ordered fun m hm => ?_).weaken fun _ _ _ hvs => by simpa using hvs
  obtain ⟨o, ho, rfl⟩ := mem_map.1 hm
  exact (h o ho).value

theorem orderedAs (h : AllSound env operands) :
    Lowers env κ (Lowering.orderedAs operands types)
      (Counted env (min operands.length types.length)) := by
  refine (ordered fun m hm => ?_).weaken fun _ _ _ hvs => by simpa using hvs
  have hzip : m ∈ (operands.zip types).map fun p => p.1.valueAs p.2 := by
    rwa [map_zip_eq_zipWith]
  obtain ⟨p, hp, rfl⟩ := mem_map.1 hzip
  intro κ
  exact (h p.1 (of_mem_zip hp).1).valueAs

theorem base (ho : o.Sound env) : Lowers env κ o.base (PlainPlace env false) := by
  refine placeType.bind fun _ ty _ _ => ?_
  cases ty with
  | some ty => exact ho.place
  | none => exact ho.value.bind fun _ _ _ hv => valuePlace hv.known

/-! ## Literals -/

theorem numberLiteral : Lowers env κ (liftM (Lowering.numberLiteral text)) (PlainValue env) := by
  refine lift fun v h => ?_
  unfold Lowering.numberLiteral at h
  split at h
  · cases h
    trivial
  · cases h

variable {value : Operand}

theorem allocate : Lowers env κ (Lowering.allocate bytes ty) (PlainValue env) :=
  (routine rfl rfl (by simp)).bind fun _ _ _ he => captureFresh he

theorem storeEach (address : Nat → Yul.Expr) {words : List Yul.Expr}
    (haddress : ∀ i, Plain env κ (address i)) (hwords : ∀ e ∈ words, Plain env κ e) :
    Lowers env κ (Lowering.emitAll (words.zipIdx.map fun p => Op.mstore (address p.2) p.1)) Any := by
  refine emitAll (allFit_iff.2 fun s hs => ?_)
  obtain ⟨⟨word, i⟩, hword, rfl⟩ := mem_map.1 hs
  exact Stage.fits_mstore (haddress i).known (hwords word (fst_mem_of_mem_zipIdx hword)).known

theorem storeWords (hpointer : Plain env κ pointer) (hwords : ∀ e ∈ words, Plain env κ e) :
    Lowers env κ (Lowering.storeWords pointer start words) Any :=
  storeEach (fun i => wordAt pointer (start + i)) (fun _ => fits_wordAt _ hpointer) hwords

theorem bytesLiteral : Lowers env κ (Lowering.bytesLiteral bytes ty) (PlainValue env) := by
  unfold Lowering.bytesLiteral
  split
  · exact pure trivial
  · refine allocate.bind fun κ₁ pointer _ hpointer => ?_
    refine (storeWords hpointer ?_).bind fun _ _ h _ => pure (hpointer.later h)
    refine forall_mem_cons.2 ⟨trivial, fun e he => ?_⟩
    obtain ⟨chunk, -, rfl⟩ := mem_map.1 he
    exact fits_leftAligned

theorem bytesLiteralAs :
    Lowers env κ (Lowering.bytesLiteralAs bytes own expected) (PlainValue env) := by
  unfold Lowering.bytesLiteralAs
  split
  · split
    · exact throw
    · exact pure fits_leftAligned
  · exact bytesLiteral
  · exact bytesLiteral
  · exact bytesLiteral.bind fun _ _ _ hv => coerce hv

theorem arrayOf {elem : Ty} (hvs : PlainValues env κ vs) :
    Lowers env κ (Lowering.arrayOf elem vs) (PlainValue env) := by
  unfold Lowering.arrayOf
  split
  · exact pure trivial
  · refine allocate.bind fun κ₁ pointer h₁ hpointer => ?_
    refine (storeWords hpointer ?_).bind fun _ _ h _ => pure (hpointer.later h)
    refine forall_mem_cons.2 ⟨trivial, fun e he => ?_⟩
    obtain ⟨v, hv, rfl⟩ := mem_map.1 he
    exact (hvs v hv).later h₁

theorem arrayLiteral (h : AllSound env operands) :
    Lowers env κ (Lowering.arrayLiteral operands) (PlainValue env) :=
  (orderedValues h).bind fun _ _ _ hvs => arrayOf hvs.2

theorem arrayLiteralAs {elem : Ty} {length : Option Nat} (h : AllSound env operands) :
    Lowers env κ (Lowering.arrayLiteralAs operands elem length) (PlainValue env) := by
  have hrest : ∀ {κ : Stage}, Lowers env κ (do
      let array ← Lowering.arrayOf elem (← Lowering.orderedAs operands (operands.map fun _ => elem))
      return ⟨array.expr, .array elem length⟩) (PlainValue env) :=
    (orderedAs h).bind fun _ _ _ hvs => (arrayOf hvs.2).bind fun _ _ _ hv => pure hv
  cases length with
  | some n => exact attempt.bind fun _ _ _ _ => hrest
  | none => exact hrest

theorem emitCallDataCopy {target start length : Yul.Expr} (htarget : Plain env κ target)
    (hstart : Plain env κ start) (hlength : Plain env κ length) :
    Lowers env κ (Lowering.emit (.run "calldatacopy" [target, start, length])) Any :=
  emit (Stage.fits_run 3 (by decide) (by decide) rfl
    (by simpa using ⟨htarget.known, hstart.known, hlength.known⟩))

theorem fits_word [Reads A] (h : IsReading name 0) : (call name []).Fits V A 1 :=
  (fits_reading h).2 (forall_mem_nil _)

theorem plain_callDataSize : Plain env κ (call "calldatasize" []) :=
  fits_word (by decide)

theorem zeroWith (hstruct : ∀ {κ : Stage} {name}, Lowers env κ (struct name) (Plain env)) :
    Lowers env κ (Lowering.zeroWith struct ty) (Plain env) := by
  fun_induction Lowering.zeroWith struct ty generalizing κ with
  | case1 | case2 | case3 => exact pure trivial
  | case4 => exact hstruct
  | case5 elem n ih =>
    refine allocate.bind fun κ₁ array _ harray => ?_
    refine (emit (Stage.fits_mstore harray.known fits_num)).bind fun κ₂ _ h₂ _ => ?_
    have harray := harray.later h₂
    have hrest : ∀ κ' (u : Unit), κ₂.Extends env.catalog κ' → Any κ' u →
        Lowers env κ' (Pure.pure array.expr) (Plain env) :=
      fun _ _ h _ => pure (harray.later h)
    -- elements that are words are cleared at once, others are made one by one
    split
    · exact (emitCallDataCopy (Op.fits_dataOf.2 harray) plain_callDataSize fits_num).bind hrest
    · refine (forM fun κ' h i _ => ih.bind fun _ zero h' hzero => emit ?_).bind hrest
      exact Stage.fits_mstore (fits_wordAt _ (harray.later (h.trans h'))).known hzero.known
  | case6 | case7 => exact throw
  | case8 => exact pure trivial

theorem structOf (hzero : ∀ {κ : Stage} {ty}, Lowers env κ (zero ty) (Plain env))
    (hgiven : ∀ p ∈ given, PlainValue env κ p.2) :
    Lowers env κ (Lowering.structOf zero layout given) (PlainValue env) := by
  refine allocate.bind fun κ₁ pointer h₁ hpointer => ?_
  refine Lowers.bind (forM fun κ₂ h₂ p _ => ?_) fun _ _ h _ => pure (hpointer.later h)
  have hstore : ∀ κ' e, κ₂.Extends env.catalog κ' → Plain env κ' e →
      Lowers env κ' (Lowering.emit (Op.mstore (wordAt pointer.expr p.2) e)) Any := fun _ _ h he =>
    emit (Stage.fits_mstore (fits_wordAt _ (hpointer.later (h₂.trans h))).known he.known)
  obtain ⟨⟨name, field⟩, i⟩ := p
  simp only
  -- a field that is not given starts as zero
  split
  · rename_i v hlookup
    obtain ⟨before, behind, rfl, -⟩ := lookup_eq_some_iff.1 hlookup
    have hv := hgiven (name, v) (by simp)
    exact (pure (hv.later (h₁.trans h₂))).bind hstore
  · exact hzero.bind hstore

theorem zeroStruct : Lowers env κ (Lowering.zeroStruct depth name) (Plain env) := by
  induction depth generalizing κ name with
  | zero => exact throw
  | succ depth ih =>
    refine structLayout.bind fun _ layout _ _ => ?_
    exact (structOf (zeroWith ih) (forall_mem_nil _)).bind fun _ _ _ hv => pure hv

theorem zeroValue : Lowers env κ (Lowering.zeroValue ty) (Plain env) :=
  nestingBound.bind fun _ _ _ _ => zeroWith zeroStruct

theorem structLiteral (h : ∀ f ∈ fields, f.2.Sound env) :
    Lowers env κ (Lowering.structLiteral name fields) (PlainValue env) := by
  have hfields : AllSound env (fields.map (·.2)) := forall_mem_map.2 h
  refine structLayout.bind fun _ layout _ _ => ?_
  refine Lowers.bind (mapM stays_any fun _ _ _ _ => attempt) fun _ types _ _ => ?_
  refine (orderedAs hfields).bind fun _ values _ hvalues => structOf zeroValue ?_
  exact fun p hp => hvalues.2 p.2 (of_mem_zip hp).2

/-! ## Names and members -/

variable {field : Source.FieldDecl}

theorem constantValue (hexpand : expand.Sound env) :
    Lowers env κ (Lowering.constantValue expand field) (PlainValue env) := by
  unfold Lowering.constantValue
  split
  · exact throw
  · exact throw
  · rename_i init denote _
    exact resolve.bind fun _ _ _ _ => (hexpand denote rfl init).valueAs

theorem undefined : Lowers env κ (Lowering.undefined name : Lower α) R :=
  read_bind throw

theorem identValue (hexpand : expand.Sound env) :
    Lowers env κ (Lowering.identValue expand name) (PlainValue env) := by
  refine varOf?.bind fun _ x _ hx => ?_
  split
  · rename_i v
    exact pure (hx v rfl)
  · refine read_bind ?_
    split
    · exact constantValue hexpand
    · exact undefined

theorem identPlace : Lowers env κ (Lowering.identPlace name write) (PlainPlace env write) := by
  refine varOf?.bind fun _ x _ hx => ?_
  split
  · rename_i v
    exact pure (hx v rfl)
  · refine read_bind ?_
    split
    · exact throw
    · exact undefined

theorem fits_predefined [Reads A] : ∀ p ∈ predefined, p.2.expr.Fits V A 1 := by
  simp only [predefined, forall_mem_cons, not_mem_nil, false_imp_iff, implies_true, and_true]
  refine ⟨fits_word (by decide), fits_word (by decide), ?_, fits_word (by decide),
    fits_word (by decide), fits_word (by decide), fits_word (by decide), fits_word (by decide),
    fits_word (by decide), fits_word (by decide), fits_word (by decide), fits_word (by decide),
    fits_word (by decide)⟩
  exact Op.fits_shl.2 ⟨fits_num, Op.fits_shr.2 ⟨fits_num, (Op.fits_unary (by decide)).2 fits_num⟩⟩

theorem callDataCopy : Lowers env κ Lowering.callDataCopy (PlainValue env) := by
  refine (routine rfl rfl ?_).bind fun _ _ _ he => (captureFresh he).bind fun _ copy _ hcopy => ?_
  · exact forall_mem_singleton.2 (Op.fits_add.2 ⟨plain_callDataSize.known, fits_num⟩)
  refine (emit (Stage.fits_mstore hcopy.known plain_callDataSize.known)).bind fun _ _ h₁ _ => ?_
  have hcopy := hcopy.later h₁
  exact (emitCallDataCopy (Op.fits_dataOf.2 hcopy) fits_num plain_callDataSize).bind fun _ _ h₂ _ =>
    pure (hcopy.later h₂)

theorem predefinedValue :
    Lowers env κ (Lowering.predefinedValue object property) (IfSome (PlainValue env)) := by
  unfold Lowering.predefinedValue
  split
  · exact callDataCopy.bind fun _ _ _ hv => pure (ifSome_some hv)
  · split
    · rename_i v hlookup
      obtain ⟨before, behind, hentries, -⟩ := lookup_eq_some_iff.1 hlookup
      exact pure (ifSome_some (fits_predefined ((object, property), v) (by simp [hentries])))
    · split
      · exact throw
      · exact pure ifSome_none

theorem enumValue :
    Lowers env κ (Lowering.enumValue object property) (IfSome (PlainValue env)) := by
  refine read_bind ?_
  extract_lets catalog
  split
  · split
    · exact pure (ifSome_some trivial)
    · exact throw
  · exact pure ifSome_none

theorem boundValue :
    Lowers env κ (liftM (Lowering.boundValue object property)) (IfSome (PlainValue env)) := by
  refine lift fun o h => ?_
  unfold Lowering.boundValue at h
  split at h
  · cases h
    exact ifSome_none
  · split at h
    · cases h
      exact ifSome_some trivial
    · split at h
      · cases h
        refine ifSome_some ?_
        split
        · exact Op.fits_complement.2 trivial
        · trivial
      · cases h

theorem namedMember (hexpand : expand.Sound env) :
    Lowers env κ (Lowering.namedMember expand object property) (IfSome (PlainValue env)) := by
  refine predefinedValue.bind fun _ found _ hfound => ?_
  cases found with
  | some v => exact pure hfound
  | none =>
    refine enumValue.bind fun _ found _ hfound => ?_
    cases found with
    | some v => exact pure hfound
    | none =>
      refine boundValue.bind fun _ found _ hfound => ?_
      cases found with
      | some v => exact pure hfound
      | none =>
        refine read_bind ?_
        split
        · exact (constantValue hexpand).bind fun _ _ _ hv => pure (ifSome_some hv)
        · exact pure ifSome_none

theorem thisMember (hexpand : expand.Sound env) :
    Lowers env κ (Lowering.thisMember expand property) (PlainValue env) := by
  refine read_bind ?_
  split
  · exact constantValue hexpand
  · split
    · exact pure (fits_word (by decide))
    · exact throw

theorem valueMember (hv : Plain env κ v.expr) :
    Lowers env κ (Lowering.valueMember v property) (PlainValue env) := by
  unfold Lowering.valueMember
  split
  · exact (valuePlace hv.known).bind fun _ _ _ hplace => lengthOf hplace
  · split
    · exact pure ((Op.fits_unary (by decide)).2 hv)
    · split
      · exact pure ((Op.fits_unary (by decide)).2 hv)
      · split
        · exact (valuePlace hv.known).bind fun _ _ _ hplace =>
            (memberPlace hplace).bind fun _ _ _ hplace => load hplace
        · exact throw

theorem otherMember (hexpand : expand.Sound env) (ho : o.Sound env) :
    Lowers env κ (Lowering.otherMember expand o property) (PlainValue env) := by
  have hvalue : ∀ {κ : Stage}, Lowers env κ (do
      let v ← o.value
      Lowering.valueMember v property) (PlainValue env) :=
    ho.value.bind fun _ _ _ hv => valueMember hv
  unfold Lowering.otherMember
  split
  · exact thisMember hexpand
  · refine varOf?.bind fun _ found _ _ => ?_
    cases found with
    | some x => exact hvalue
    | none =>
      refine (namedMember hexpand).bind fun _ found _ hfound => ?_
      cases found with
      | some v => exact pure (hfound v rfl)
      | none => exact hvalue
  · exact hvalue

theorem memberOperandPlace (ho : o.Sound env) :
    Lowers env κ (Lowering.memberOperandPlace o property write) (PlainPlace env write) := by
  unfold Lowering.memberOperandPlace
  split
  · exact fieldPlace
  · exact (base ho).bind fun _ _ _ hplace => memberPlace hplace

theorem memberValue (hexpand : expand.Sound env) (ho : o.Sound env) :
    Lowers env κ (Lowering.memberValue expand o property) (PlainValue env) := by
  refine placeType.bind fun _ ty _ _ => ?_
  split
  · exact (memberOperandPlace ho).bind fun _ _ _ hplace => load hplace
  · refine placeType.bind fun _ ty _ _ => ?_
    split
    · exact ho.place.bind fun _ _ _ hplace => lengthOf hplace
    · exact otherMember hexpand ho

theorem codeLength (ho : o.Sound env)
    (hother : ∀ {κ : Stage}, Lowers env κ otherwise (PlainValue env)) :
    Lowers env κ (Lowering.codeLength o otherwise) (PlainValue env) := by
  refine placeType.bind fun _ ty _ _ => ?_
  split
  · exact hother
  · refine ho.value.bind fun _ _ _ hv => pure ?_
    exact (Op.fits_unary (by decide)).2 hv

theorem elementPlace {object position : Operand} (hobject : object.Sound env)
    (hposition : position.Sound env) :
    Lowers env κ (Lowering.elementPlace object position) (PlainPlace env write) := by
  refine (base hobject).bind fun _ _ _ hplace => ?_
  refine hposition.value.bind fun _ _ h hindex => ?_
  exact indexPlace (hplace.later h) hindex

/-! ## Operators -/

theorem fits_binaryWord [Reads A] (hl : l.expr.Fits V A 1)
    (hr : r.expr.Fits V A 1) : (binaryWord op ty l r).Fits V A 1 := by
  have hcall : ∀ {name : String}, IsReading name 2 → (call name [l.expr, r.expr]).Fits V A 1 :=
    fun h => (Op.fits_binary h).2 ⟨hl, hr⟩
  have hpick : ∀ {signed unsigned : String}, IsReading signed 2 → IsReading unsigned 2 →
      IsReading (if ty.isSigned then signed else unsigned) 2 := by
    intro signed unsigned h h'
    split <;> assumption
  cases op with
  | add => exact fits_clean (Op.fits_add.2 ⟨hl, hr⟩)
  | sub => exact fits_clean (Op.fits_sub.2 ⟨hl, hr⟩)
  | mul => exact fits_clean (Op.fits_mul.2 ⟨hl, hr⟩)
  | div => exact hcall (hpick (by decide) (by decide))
  | mod => exact hcall (hpick (by decide) (by decide))
  | pow => exact fits_clean (hcall (by decide))
  | bitAnd => exact Op.fits_both.2 ⟨hl, hr⟩
  | bitOr => exact Op.fits_either.2 ⟨hl, hr⟩
  | bitXor => exact hcall (by decide)
  | shl => exact fits_clean (Op.fits_shl.2 ⟨hr, hl⟩)
  | shr => exact (Op.fits_binary (hpick (by decide) (by decide))).2 ⟨hr, hl⟩
  | eq => exact Op.fits_eq.2 ⟨hl, hr⟩
  | notEq => exact Op.fits_isZero.2 (Op.fits_eq.2 ⟨hl, hr⟩)
  | lt => exact hcall (hpick (by decide) (by decide))
  | gt => exact hcall (hpick (by decide) (by decide))
  | ltEq => exact Op.fits_isZero.2 (hcall (hpick (by decide) (by decide)))
  | gtEq => exact Op.fits_isZero.2 (hcall (hpick (by decide) (by decide)))
  | and => exact Op.fits_both.2 ⟨fits_boolOf hl, fits_boolOf hr⟩
  | or => exact Op.fits_either.2 ⟨fits_boolOf hl, fits_boolOf hr⟩

/-- The comparison of byte strings is the one routine whose call is not bound to a temporary. -/
theorem stringEqual (hl : Plain env κ l.expr) (hr : Plain env κ r.expr) :
    Lowers env κ (Lowering.routine .stringEqual [l.expr, r.expr]) (Plain env) := by
  refine (use rfl).bind fun _ _ h hused => pure (fits_call.2 ⟨?_, ?_⟩)
  · exact ⟨.shared (.inr ⟨_, hused, rfl⟩), licensed_routine (r := .fixed .stringEqual) rfl,
      fun _ => show FixedRoutine.stringEqual.name ∈ quietNames by decide⟩
  · simpa using ⟨hl.later h, hr.later h⟩

theorem binaryBytes (hl : Plain env κ l.expr)
    (hr : Plain env κ r.expr) : Lowers env κ (Lowering.binaryBytes op ty l r) (PlainValue env) := by
  unfold Lowering.binaryBytes
  split
  · refine (routine rfl rfl ?_).bind fun _ _ _ he => capture he
    simpa using ⟨hl.known, hr.known⟩
  · exact (stringEqual hl hr).bind fun _ _ _ he => pure he
  · exact (stringEqual hl hr).bind fun _ _ _ he => pure (Op.fits_isZero.2 he)
  · exact throw

theorem applyBinary (hl : Plain env κ l.expr)
    (hr : Plain env κ r.expr) : Lowers env κ (Lowering.applyBinary op ty l r) (PlainValue env) := by
  unfold Lowering.applyBinary
  split
  · exact binaryBytes hl hr
  · exact pure (fits_binaryWord hl hr)

/-- A conditional block is written that ends by setting a variable. -/
theorem writeIf_assignOne (ht : κ.Takes κ₁ (allDeclared code ++ names)) (hc : Plain env κ₁ c)
    (hcode : κ₁.CanWrite env code) (hx : κ₁.Knows x) (he : Plain env (κ₁.behind code) e) :
    Moves env κ₁ (Lowering.emit (.ifThen c (code ++ [.assignOne x e])))
      fun κ₂ _ => κ.Takes κ₂ names := by
  refine Moves.writeIf ?_ hc.known (hcode.assignOne hx he.known)
  simpa [declared] using ht

theorem logical (hleft : left.Sound env) (hright : right.Sound env) :
    Lowers env κ (Lowering.logical conjunction left right) (PlainValue env) := by
  refine hleft.value.bind fun κ₁ l _ hl => ?_
  refine Moves.bind (inScope stays_plainValue hright.value) fun κ₂ p h₂ hp => ?_
  obtain ⟨prelude, r⟩ := p
  obtain ⟨htaken, hprelude, hr⟩ := hp
  have hl := fits_boolOf (hl.later h₂)
  show Moves env κ₂ (if prelude.isEmpty && (boolOf r).isPure then _ else _) _
  split
  -- a right operand without effects may be evaluated in any case
  · rename_i hpure
    obtain ⟨htaken, hr⟩ := of_empty (Bool.and_eq_true_iff.1 hpure).1 htaken hr
    have hname : IsReading (if conjunction then "and" else "or") 2 := by
      cases conjunction <;> decide
    exact Moves.pure ⟨htaken, (Op.fits_binary hname).2 ⟨hl, fits_boolOf hr⟩⟩
  · refine Moves.temp.bind fun κ₃ t h₃ ht => ?_
    refine (declareOne (htaken.trans ht) (hl.later h₃).known).bind fun κ₄ _ h₄ ⟨htaken, ht, _⟩ => ?_
    have h := h₃.trans h₄
    have hundecided : Plain env κ₄ (if conjunction then ident t else Op.isZero (ident t)) := by
      cases conjunction
      · exact Op.fits_isZero.2 (fits_ident.2 ht)
      · exact ht
    refine (writeIf_assignOne htaken.append_nil hundecided (hprelude.later h) ht ?_).bind
      fun _ _ h htaken => Moves.pure ⟨htaken, ht.later h⟩
    exact (fits_boolOf hr).later h.behind

theorem binary (hleft : left.Sound env) (hright : right.Sound env) :
    Lowers env κ (Lowering.binary op left right) (PlainValue env) := by
  unfold Lowering.binary
  split
  · exact logical hleft hright
  · exact logical hleft hright
  · exact (orderedPair (fun _ => hleft.value) hright.value).bind fun _ _ _ hp => applyBinary hp.1 hp.2

theorem conditional (hcondition : condition.Sound env) (hthen : thenExpr.Sound env)
    (helse : elseExpr.Sound env) :
    Lowers env κ (Lowering.conditional condition thenExpr elseExpr expected) (PlainValue env) := by
  refine hcondition.value.bind fun κ₀ c _ hc => Moves.conditionTemp.bind fun κ₁ chosen h₁ ht => ?_
  refine (declareOne ht (hc.later h₁).known).bind fun κ₂ _ _ hdeclared => ?_
  obtain ⟨ht, hchosen, -⟩ := hdeclared
  refine Moves.temp.bind fun κ₃ t h₃ ht' => ?_
  refine (declareAll (ht.trans ht') (by simp)).bind fun κ₄ _ h₄ hdeclared => ?_
  obtain ⟨htaken, ht, -⟩ := hdeclared
  -- both branches are lowered before either is written
  refine Moves.bind (inScope stays_plainValue ?_) fun κ₅ p h₅ hp => ?_
  · split
    · exact hthen.valueAs
    · exact hthen.value
  obtain ⟨htaken₅, hcode, hv⟩ := hp
  refine Moves.bind (inScope stays_plainValue helse.valueAs) fun κ₆ q h₆ hq => ?_
  obtain ⟨htaken₆, hcode', hw⟩ := hq
  have ht : κ₆.Knows t := (ht t (by simp)).later (h₅.trans h₆)
  have hchosen : Plain env κ₆ (ident chosen) := hchosen.later (h₃.trans (h₄.trans (h₅.trans h₆)))
  have htaken : κ₀.Takes κ₆ (allDeclared p.1 ++ allDeclared q.1) :=
    ((htaken.trans htaken₅).trans htaken₆).perm (by simpa using perm_append_comm)
  refine (writeIf_assignOne htaken hchosen (hcode.later h₆) ht
    (hv.later h₆.behind)).bind fun κ₇ _ h₇ htaken => ?_
  refine (writeIf_assignOne htaken.append_nil (Op.fits_isZero.2 (hchosen.later h₇))
    (hcode'.later h₇) (ht.later h₇) (hw.later h₇.behind)).bind fun _ _ h₈ htaken => ?_
  exact Moves.pure ⟨htaken, ht.later (h₇.trans h₈)⟩

theorem fits_flipped [Reads A] (hv : v.expr.Fits V A 1) : (flipped v).Fits V A 1 := by
  unfold flipped
  split
  · split
    · exact Op.fits_both.2 ⟨Op.fits_complement.2 hv, fits_highMask⟩
    · exact Op.fits_complement.2 hv
  · exact fits_clean (Op.fits_complement.2 hv)

theorem unary {op : UnaryOp} (ho : o.Sound env) :
    Lowers env κ (Lowering.unary op o) (PlainValue env) := by
  cases op with
  | delete =>
    exact ho.place.bind fun _ _ _ hplace => (clear hplace).bind fun _ _ _ _ => pure trivial
  | neg => exact ho.value.bind fun _ _ _ hv => pure (fits_clean (Op.fits_sub.2 ⟨trivial, hv⟩))
  | not => exact ho.value.bind fun _ _ _ hv => pure (Op.fits_isZero.2 hv)
  | bitNot => exact ho.value.bind fun _ _ _ hv => pure (fits_flipped hv)

/-! ## Updates and assignments -/

theorem fits_stepped [Reads A] {op : UpdateOp} (hold : old.Fits V A 1) :
    (stepped op old ty).Fits V A 1 := by
  cases op with
  | increment => exact fits_clean (Op.fits_add.2 ⟨hold, trivial⟩)
  | decrement => exact fits_clean (Op.fits_sub.2 ⟨hold, trivial⟩)

theorem update {op : UpdateOp} (ho : o.Sound env) : Lowers env κ (Lowering.update op o) Any := by
  refine ho.place.bind fun _ place _ hplace => (load hplace.read).bind fun _ old h hold => ?_
  exact store (hplace.later h) (fits_stepped hold)

theorem updateValue {op : UpdateOp} (ho : o.Sound env) :
    Lowers env κ (Lowering.updateValue op inFront o) (PlainValue env) := by
  refine ho.place.bind fun _ place _ hplace => (load hplace.read).bind fun _ old h₁ hold => ?_
  have hplace := hplace.later h₁
  -- the new value is the result, or else the old one; either is bound before the place is written
  split
  · refine (captureFresh (fits_stepped hold).known).bind fun _ new h₂ hnew => ?_
    refine (store (hplace.later h₂) hnew).bind fun _ _ h₃ _ => ?_
    exact pure (hnew.later h₃)
  · refine (captureFresh hold.known).bind fun _ old h₂ hold => ?_
    refine (store (hplace.later h₂) (fits_stepped hold)).bind fun _ _ h₃ _ => ?_
    exact pure (hold.later h₃)

theorem assignedValue {op : AssignOp} {place : Place} (hplace : PlainPlace env false κ place)
    (ho : o.Sound env) :
    Lowers env κ (Lowering.assignedValue op place o) (PlainValue env) := by
  unfold Lowering.assignedValue
  split
  · exact ho.valueAs
  · refine (orderedPair (fun _ => load (hplace.later Stage.extends_within)) ho.valueAs).bind ?_
    exact fun _ _ _ hp => applyBinary hp.1 hp.2

theorem assign {op : AssignOp} (htarget : target.Sound env) (hvalue : value.Sound env) :
    Lowers env κ (Lowering.assign op target value) Any := by
  refine htarget.place.bind fun _ place _ hplace => ?_
  refine (assignedValue hplace.read hvalue).bind fun _ new h hnew => ?_
  exact store (hplace.later h) hnew

theorem assignValue {op : AssignOp} (htarget : target.Sound env) (hvalue : value.Sound env) :
    Lowers env κ (Lowering.assignValue op target value) (PlainValue env) := by
  refine htarget.place.bind fun _ place _ hplace => ?_
  refine (assignedValue hplace.read hvalue).bind fun _ _ h₁ hnew => ?_
  refine (capture hnew.known).bind fun _ new h₂ hnew => ?_
  refine (store (hplace.later (h₁.trans h₂)) hnew).bind fun _ _ h₃ _ => ?_
  exact pure (hnew.later h₃)

theorem assignTarget (ho : o.Sound env) (hv : Plain env κ v.expr) :
    Lowers env κ (Lowering.assignTarget o v) Any := by
  unfold Lowering.assignTarget
  split
  · exact pure trivial
  · refine ho.place.bind fun _ place h₁ hplace => ?_
    refine (coerce (hv.later h₁)).bind fun _ v h₂ hv => ?_
    exact store (hplace.later h₂) hv

theorem captureVariable (hv : Plain env κ v.expr) :
    Lowers env κ (Lowering.captureVariable v) (PlainValue env) := by
  unfold Lowering.captureVariable
  split
  · exact pure hv
  · exact captureFresh hv.known

theorem assignTuple {op : AssignOp} (htargets : AllSound env targets) (hvalue : value.Sound env) :
    Lowers env κ (Lowering.assignTuple op targets value) Any := by
  unfold Lowering.assignTuple
  extract_lets rest
  have hrest : Lowers env κ (rest ()) Any := by
    refine hvalue.values.bind fun _ values _ hvalues => attempt.bind fun _ _ h₁ _ => ?_
    have hvalues := stays_plainValues _ _ _ h₁ hvalues
    -- all values are bound before the first target is written
    refine Lowers.bind (mapM stays_plainValue fun _ h v hv => ?_) fun _ values _ hvalues => ?_
    · exact captureVariable ((hvalues v hv).later h)
    refine forM fun _ h p hp => ?_
    obtain ⟨htarget, hv⟩ := of_mem_zip hp
    exact assignTarget (htargets p.1 htarget) ((hvalues.2 p.2 hv).later h)
  split
  · exact read_bind throw
  · exact hrest

end Lowers

end ContractYul.Lowering
