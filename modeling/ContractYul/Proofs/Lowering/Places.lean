import ContractYul.Proofs.Lowering.Stages

/-!
# Code of places

Expressions for words and slots are made of instructions that read and of what they are given. Copying
a struct puts routines to use, and defines one for each struct on the way. Reading, writing and
clearing a place, or taking an element or a member of it, is lowering in the sense of `Lowers`. A place
is a `PlainPlace` when the expressions in it change nothing and, if it is in storage, it is located;
parts of a place that may be read are located for any use.
-/

open List

namespace ContractYul.Lowering

open Yul FixedRoutine Stmt Routine

/-! ## Words -/

section

variable {A : Use → Prop}

@[simp]
theorem fits_lowMask : (lowMask size).Fits V A n := by
  simp [lowMask]

@[simp]
theorem fits_highMask : (highMask size).Fits V A n := by
  simp [highMask]

theorem fits_leftAligned : (leftAligned bytes).Fits V A 1 := by
  unfold leftAligned
  simp only
  split <;> trivial

variable [Reads A]

theorem fits_signExtend (he : e.Fits V A 1) : (call "signextend" [num n, e]).Fits V A 1 :=
  (Op.fits_binary (by decide)).2 ⟨fits_num, he⟩

theorem fits_byte (he : e.Fits V A 1) : (call "byte" [num 0, e]).Fits V A 1 :=
  (Op.fits_binary (by decide)).2 ⟨fits_num, he⟩

theorem fits_clean (he : e.Fits V A 1) : (clean e ty).Fits V A 1 := by
  unfold clean
  split
  · split
    · simpa using he
    · exact he
  · split
    · exact fits_signExtend he
    · exact he
  · exact he

theorem fits_shiftRight (bits : Nat) (he : e.Fits V A 1) : (shiftRight bits e).Fits V A 1 := by
  unfold shiftRight
  split
  · exact he
  · simpa using he

theorem fits_shiftLeft (bits : Nat) (he : e.Fits V A 1) : (shiftLeft bits e).Fits V A 1 := by
  unfold shiftLeft
  split
  · exact he
  · simpa using he

theorem fits_nonZero (he : e.Fits V A 1) : (nonZero e).Fits V A 1 := by
  simpa [nonZero] using he

theorem fits_boolOf (hv : v.expr.Fits V A 1) : (boolOf v).Fits V A 1 := by
  unfold boolOf
  split
  · exact hv
  · exact fits_nonZero hv

theorem fits_converted? (he : e.Fits V A 1) (h : converted? source target e = some e') :
    e'.Fits V A 1 := by
  unfold converted? at h
  split at h
  -- to an integer
  · split at h <;> simp only [Option.some.injEq, reduceCtorEq] at h <;> subst h
    · exact fits_clean (fits_shiftRight _ he)
    all_goals exact fits_clean he
  · split at h
    -- to an account
    · split at h <;> simp only [Option.some.injEq, reduceCtorEq] at h <;> subst h
      · exact he
      · exact he
      · simpa using fits_shiftRight _ he
      · simpa using he
      · simpa using he
    -- to bytes of a fixed length, to a truth value, and to byte strings
    · split at h
      · split at h <;> simp only [Option.some.injEq, reduceCtorEq] at h <;> subst h
        iterate 4 exact fits_shiftLeft _ he
        all_goals split <;> simpa using he
      · split at h <;> simp at h
        subst h
        exact fits_nonZero he
      · split at h <;> simp at h
        exact h ▸ he
      · split at h <;> simp at h
        exact h ▸ he
      · simp at h

theorem fits_wordAt (index : Nat) (he : e.Fits V A 1) : (wordAt e index).Fits V A 1 := by
  unfold wordAt
  split
  · exact he
  · simpa using he

theorem fits_offsetSlot (offset : Nat) (hslot : slot.Fits V A 1) :
    (offsetSlot slot offset).Fits V A 1 := by
  unfold offsetSlot
  split
  · exact hslot
  · split
    · trivial
    · simpa using hslot

theorem fits_scaled (span : Nat) (he : e.Fits V A 1) : (scaled e span).Fits V A 1 := by
  unfold scaled
  split
  · exact he
  · simpa using he

theorem fits_storageRead (hslot : slot.Fits V A 1) (hload : A ⟨loadName transient, [slot], 1⟩) :
    (storageRead slot offset size ty transient).Fits V A 1 := by
  have hword : (call (loadName transient) [slot]).Fits V A 1 :=
    fits_call.2 ⟨hload, forall_mem_singleton.2 hslot⟩
  have hraw : (Op.both (shiftRight (8 * offset) (call (loadName transient) [slot]))
      (lowMask size)).Fits V A 1 :=
    Op.fits_both.2 ⟨fits_shiftRight _ hword, fits_lowMask⟩
  unfold storageRead
  split
  · exact hword
  · split
    · exact fits_signExtend hraw
    · simpa using hraw
    · exact hraw

theorem fits_storageWrite (hslot : slot.Fits V A 1) (hvalue : value.Fits V A 1)
    (hload : A ⟨loadName transient, [slot], 1⟩)
    (hstore : ∀ word, A ⟨storeName transient, [slot, word], 0⟩) :
    (storageWrite slot offset size ty transient value).Fits V A := by
  have hword : (call (loadName transient) [slot]).Fits V A 1 :=
    fits_call.2 ⟨hload, forall_mem_singleton.2 hslot⟩
  unfold storageWrite
  split
  · exact fits_run.2 ⟨hstore _, by simpa using ⟨hslot, hvalue⟩⟩
  · refine fits_run.2 ⟨hstore _, ?_⟩
    simp only [forall_mem_cons, Op.fits_either, Op.fits_both, Op.fits_complement]
    -- the bytes that stay, and those of the value between them
    refine ⟨hslot, ⟨⟨hword, fits_shiftLeft _ fits_lowMask⟩, fits_shiftLeft _ ?_⟩, by simp⟩
    refine Op.fits_both.2 ⟨?_, fits_lowMask⟩
    split
    · simpa using hvalue
    · exact hvalue

end

/-! ## Places -/


/-- The expressions in a place change nothing, and a place in storage is located; with `write` it is
to be changed. -/
def PlainPlace (env : Env) (write : Bool) (κ : Stage) : Place → Prop
  | .var x _ => κ.Knows x
  | .storage slot offset size ty transient =>
    Plain env κ slot ∧ ∃ field path, Located env.toContext env.mode env.owner κ.bindings write field
      path (.storage slot offset size ty transient)
  | .memory address _ => Plain env κ address
  | .memoryByte address => Plain env κ address

namespace PlainPlace

variable {place : Place}

theorem later (h : PlainPlace env write κ place) (hκ : κ.Extends env.catalog κ') :
    PlainPlace env write κ' place := by
  cases place with
  | var x ty => exact Stage.Knows.later h hκ
  | storage slot offset size ty transient =>
    obtain ⟨hslot, field, path, hplace⟩ := h
    exact ⟨hslot.later hκ, field, path, hplace.mono hκ.bindings⟩
  | memory address ty => exact Expr.Fits.later h hκ
  | memoryByte address => exact Expr.Fits.later h hκ

theorem read (h : PlainPlace env write κ place) : PlainPlace env false κ place := by
  cases place with
  | storage slot offset size ty transient =>
    obtain ⟨hslot, field, path, hplace⟩ := h
    exact ⟨hslot, field, path, hplace.read⟩
  | var x ty => exact h
  | memory address ty => exact h
  | memoryByte address => exact h

theorem uses_load (h : PlainPlace env write κ (.storage slot offset size ty transient))
    (quiet : Bool) : κ.Uses env quiet ⟨loadName transient, [slot], 1⟩ := by
  obtain ⟨-, field, path, hplace⟩ := h
  have hquiet : ∀ transient, loadName transient ∈ quietNames := by decide
  refine ⟨.shared (.inl ?_), licensed_of_touches (.inl ⟨transient, rfl⟩) hplace.read .load,
    fun _ => hquiet transient⟩
  cases transient <;> simp [loadName, instructions]

/-- Where what lies at a slot has a length, it is read from the slot itself. -/
theorem uses_length (h : PlainPlace env false κ (.storage slot offset size ty transient))
    (hty : ty.isValue = false) (quiet : Bool) : κ.Uses env quiet ⟨"sload", [slot], 1⟩ := by
  obtain ⟨-, field, path, hplace⟩ := h
  exact ⟨.shared (.inl (by simp [instructions])),
    licensed_of_touches (.inl ⟨false, rfl⟩) hplace (.length hty),
    fun _ => show "sload" ∈ quietNames by decide⟩

theorem uses_store (h : PlainPlace env true κ (.storage slot offset size ty transient))
    (word : Yul.Expr) : κ.Uses env false ⟨storeName transient, [slot, word], 0⟩ := by
  obtain ⟨-, field, path, hplace⟩ := h
  refine ⟨.shared (.inl ?_), licensed_of_touches (.inl ⟨transient, rfl⟩) hplace .store, by simp⟩
  cases transient <;> simp [storeName, instructions]

/-- A routine that reads or changes what lies at a slot may be called on it. -/
theorem licensed {r : Routine} (h : PlainPlace env write κ (.storage slot offset size ty false))
    (hty : ty.isValue = false) (hr : r.changesStorage? = some write) :
    env.Licensed κ.bindings ⟨r.name, slot :: rest⟩ := by
  obtain ⟨-, field, path, hplace⟩ := h
  exact licensed_of_touches (usesStorage_name.2 hr) hplace (.routine hr hty)

end PlainPlace

namespace Lowers

variable {env : Env} {κ : Stage} {e slot : Yul.Expr} {place : Place} {elem : Ty}

/-! ### Types of values -/

theorem coerce (hv : PlainValue env κ v) :
    Lowers env κ (Lowering.coerce v ty) (PlainValue env) := by
  unfold Lowering.coerce
  split
  · exact read_bind throw
  · exact pure hv

theorem convert (hv : PlainValue env κ v) :
    Lowers env κ (Lowering.convert v ty) (PlainValue env) := by
  unfold Lowering.convert
  split
  · exact coerce hv
  · split
    · exact pure hv
    · split
      · rename_i e he
        exact pure (fits_converted? hv he)
      · exact throw

/-! ### Copies of structs -/

def copyNames : List String := ["slot", "memPtr"]

abbrev SharedUse (p : Progress) : Use → Prop :=
  Use.Calls p.registry.Callee

abbrev Shared (n : Nat) (κ : Stage) (e : Yul.Expr) : Prop :=
  e.Fits (· ∈ copyNames) (SharedUse κ.progress) n

abbrev SharedCode (κ : Stage) (ss : List Yul.Stmt) : Prop :=
  AllFit (· ∈ copyNames) (SharedUse κ.progress) ss

theorem sharedLater (he : Shared n κ e) (h : κ.Extends env.catalog κ') : Shared n κ' e :=
  he.mono (fun _ => id) fun _ => h.progress.registry.includes.callee

theorem stays_sharedCode : Stays env (SharedCode : Stage → _ → Prop) :=
  fun _ _ _ h hss => hss.mono (fun _ => id) fun _ => h.progress.registry.includes.callee

theorem nestingBound : Lowers env κ Lowering.nestingBound Any :=
  read_bind (pure trivial)

theorem isDefined : Lowers env κ (Lowering.isDefined r)
    fun κ defined => defined = true → κ.progress.registry.contains r := by
  refine get_bind fun st hst => pure ?_
  rw [hst.progress]
  exact id

/-- A routine with the right signature may be defined by code that calls what is defined and declares
nothing. -/
theorem define (hf : f.signature = r.signature) (hbody : SharedCode κ f.body)
    (hnames : f.params ++ f.returns = copyNames) :
    Lowers env κ (Lowering.define r f) fun κ _ => κ.progress.registry.contains r := by
  have hflat := hbody.flatCode
  have hscoped : f.Scoped := by
    unfold Yul.Function.Scoped
    rw [hnames, allDeclared_of_allFlat hflat.flat]
    exact ⟨hflat.mentions.scoped hflat.flat, by decide⟩
  have hown : f.Own := by
    unfold Yul.Function.Own Yul.Function.variables
    rw [hnames, allDeclared_of_allFlat hflat.flat]
    decide
  refine (modifyProgress (f := fun p => { p with registry := p.registry.insert r f }) ?_).weaken ?_
  · exact .of_registry (Registry.grows_insert hf hflat.uses hscoped hown) rfl rfl
  · rintro κ' - - h
    rw [h]
    exact Registry.contains_insert.2 (.inl rfl)

theorem sharedRoutine (hr : (fixed r).signature = ⟨r.name, args.length, n⟩)
    (hargs : ∀ e ∈ args, Shared 1 κ e) : Lowers env κ (Lowering.routine r args) (Shared n) :=
  (use rfl).bind fun _ _ h hused =>
    pure (fits_call.2 ⟨.inr ⟨_, hused, hr⟩, fun e he => sharedLater (hargs e he) h⟩)

theorem sharedLoad : SharedUse κ.progress ⟨loadName transient, [slot], 1⟩ := by
  refine .inl ?_
  cases transient <;> simp [loadName, instructions]

theorem loadField {nested : String → Lower Unit} (hslot : Shared 1 κ slot)
    (hnested : ∀ name, Lowers env κ (nested name)
      fun κ _ => κ.progress.registry.contains (.loadStruct name)) :
    Lowers env κ (Lowering.loadField nested slot ty) (Shared 1) := by
  have hload : ∀ e ∈ [slot], Shared 1 κ e := forall_mem_singleton.2 hslot
  unfold Lowering.loadField
  split
  · exact pure (fits_storageRead hslot sharedLoad)
  · split
    · refine (hnested _).bind fun _ _ h hdefined => pure (fits_call.2 ⟨.inr ⟨_, hdefined, rfl⟩, ?_⟩)
      exact forall_mem_singleton.2 (sharedLater hslot h)
    · exact sharedRoutine rfl hload
    · exact sharedRoutine rfl hload
    · split
      · exact sharedRoutine rfl hload
      · exact throw
    · split
      · exact sharedRoutine rfl (by simpa using hslot)
      · exact throw
    · exact pure fits_num
    · exact throw

theorem shared_copySlot (offset : Nat) : Shared 1 κ (offsetSlot (ident "slot") offset) :=
  fits_offsetSlot _ (fits_ident.2 (by decide))

theorem shared_copyWord (i : Nat) : Shared 1 κ (wordAt (ident "memPtr") i) :=
  fits_wordAt _ (fits_ident.2 (by decide))

variable {name : String}

theorem defineLoad : Lowers env κ (Lowering.defineLoad depth name)
    fun κ _ => κ.progress.registry.contains (.loadStruct name) := by
  induction depth generalizing κ name with
  | zero => exact throw
  | succ depth ih =>
    refine isDefined.bind fun _ defined _ hdefined => ?_
    cases defined with
    | true => exact pure (hdefined rfl)
    | false =>
      refine structLayout.bind fun _ layout _ _ => ?_
      refine (sharedRoutine rfl (forall_mem_singleton.2 fits_num)).bind
        fun _ start _ hstart => ?_
      -- each field is read by a call that is defined by then, and stored to its word
      refine (mapM (T := fun κ s => SharedCode κ [s]) (fun _ _ _ => stays_sharedCode _ _ _)
        fun _ _ p _ => ?_).bind fun κ' stores h hstores => define rfl ⟨?_, ?_⟩ rfl
      · refine (loadField (shared_copySlot _) fun _ => ih).bind fun _ value _ hvalue => pure ⟨?_, trivial⟩
        refine fits_run.2 ⟨.inl (by simp [instructions]), ?_⟩
        simpa using ⟨shared_copyWord p.2, hvalue⟩
      · exact fits_assignOne.2 ⟨by decide, sharedLater hstart h⟩
      · exact allFit_iff.2 fun s hs => (hstores.2 s hs).1

theorem storeField {nested : String → Lower Unit} (hslot : Shared 1 κ slot)
    (hvalue : Shared 1 κ value) (hnested : ∀ name, Lowers env κ (nested name)
      fun κ _ => κ.progress.registry.contains (.storeStruct name)) :
    Lowers env κ (Lowering.storeField nested slot value ty) SharedCode := by
  have hstore : ∀ {r : FixedRoutine}, (fixed r).signature = ⟨r.name, 2, 0⟩ →
      Lowers env κ (do return [Yul.Stmt.eval (← Lowering.routine r [slot, value])]) SharedCode :=
    fun hr => (sharedRoutine hr (by simpa using ⟨hslot, hvalue⟩)).bind fun _ _ _ he =>
      pure ⟨he, trivial⟩
  unfold Lowering.storeField
  split
  · refine pure ⟨fits_storageWrite hslot hvalue sharedLoad fun _ => .inl ?_, trivial⟩
    simp [storeName, instructions]
  · split
    · refine (hnested _).bind fun _ _ h hdefined =>
        pure ⟨fits_run.2 ⟨.inr ⟨_, hdefined, rfl⟩, ?_⟩, trivial⟩
      simpa using ⟨sharedLater hslot h, sharedLater hvalue h⟩
    · exact hstore rfl
    · exact hstore rfl
    · split
      · exact hstore rfl
      · exact throw
    · split
      · refine (sharedRoutine rfl ?_).bind fun _ _ _ he => pure ⟨he, trivial⟩
        simpa using ⟨hslot, hvalue⟩
      · exact throw
    · exact pure trivial
    · exact throw

theorem defineStore : Lowers env κ (Lowering.defineStore depth name)
    fun κ _ => κ.progress.registry.contains (.storeStruct name) := by
  induction depth generalizing κ name with
  | zero => exact throw
  | succ depth ih =>
    refine isDefined.bind fun _ defined _ hdefined => ?_
    cases defined with
    | true => exact pure (hdefined rfl)
    | false =>
      refine structLayout.bind fun _ layout _ _ => ?_
      refine (mapM stays_sharedCode fun _ _ p _ => ?_).bind
        fun κ' stores h hstores => define rfl (allFit_iff.2 fun s hs => ?_) rfl
      · exact storeField (shared_copySlot _) (Op.fits_mload.2 (shared_copyWord _)) fun _ => ih
      · obtain ⟨code, hcode, hs⟩ := mem_flatten.1 hs
        exact allFit_iff.1 (hstores.2 code hcode) s hs

theorem loadStruct (h : PlainPlace env false κ (.storage slot offset size (.struct name) false)) :
    Lowers env κ (Lowering.loadStruct name slot) (Known env 1) := by
  refine nestingBound.bind fun _ depth h₁ _ => defineLoad.bind fun _ _ h₂ hdefined => pure ?_
  have h := h.later (h₁.trans h₂)
  refine fits_call.2 ⟨⟨.shared (.inr ⟨_, hdefined, rfl⟩), ?_, by simp⟩,
    forall_mem_singleton.2 h.1.known⟩
  exact h.licensed (r := .loadStruct name) rfl rfl

theorem storeStruct (h : PlainPlace env true κ (.storage slot offset size (.struct name) false))
    (hvalue : Plain env κ value) :
    Lowers env κ (Lowering.storeStruct name slot value) (Known env 0) := by
  refine nestingBound.bind fun _ depth h₁ _ => defineStore.bind fun _ _ h₂ hdefined => pure ?_
  have hκ := h₁.trans h₂
  have h := h.later hκ
  refine fits_call.2 ⟨⟨.shared (.inr ⟨_, hdefined, rfl⟩), ?_, by simp⟩, ?_⟩
  · exact h.licensed (r := .storeStruct name) rfl rfl
  · simpa using ⟨h.1.known, (hvalue.later hκ).known⟩

/-! ### Fields -/

/-- A field is located; for an immutable one that is to be changed at run time there is no place. -/
theorem fieldPlace : Lowers env κ (Lowering.fieldPlace name write) (PlainPlace env write) := by
  refine read_bind ?_
  split
  · exact throw
  · rename_i howner
    split
    · split
      · exact throw
      · split
        · exact throw
        · exact throw
    · rename_i s hs
      split
      · exact throw
      · rename_i hread
        refine pure ⟨fits_num, name, [], .field (by simpa using howner) hs ?_⟩
        rintro rfl himmutable hmode
        simp [himmutable, hmode] at hread

theorem placeType : Lowers env κ (Lowering.placeType source) Any :=
  read_bind (get_bind fun _ _ => pure trivial)

/-- The place of a value is a variable, and so it may be used in any way. -/
theorem valuePlace (hv : Known env 1 κ v.expr) :
    Lowers env κ (Lowering.valuePlace v) (PlainPlace env write) := by
  unfold Lowering.valuePlace
  split
  · rename_i x hx
    rw [hx] at hv
    exact pure hv
  · exact (bindFresh hv).bind fun _ _ _ hx => pure hx.1

/-! ### Reading and writing -/

theorem copyToMemory (h : PlainPlace env false κ (.storage slot offset size ty false))
    (hty : ty.isValue = false) : Lowers env κ (Lowering.copyToMemory slot ty) (Known env 1) := by
  have hload : ∀ {r : FixedRoutine} {rest : List Yul.Expr},
      (fixed r).signature = ⟨r.name, (slot :: rest).length, 1⟩ →
      (fixed r).changesStorage? = some false → (∀ e ∈ rest, Known env 1 κ e) →
      Lowers env κ (Lowering.routine r (slot :: rest)) (Known env 1) := fun hr hs hrest =>
    (licensedRoutine hr (h.licensed hty hs) (forall_mem_cons.2 ⟨h.1.known, hrest⟩)).weaken
      fun _ _ _ he => he.2
  unfold Lowering.copyToMemory
  split
  · exact hload rfl rfl (forall_mem_nil _)
  · exact hload rfl rfl (forall_mem_nil _)
  · split
    · exact hload rfl rfl (forall_mem_nil _)
    · exact throw
  · split
    · exact hload rfl rfl (forall_mem_singleton.2 fits_num)
    · exact throw
  · exact loadStruct h
  · exact throw
  · exact throw

theorem load (h : PlainPlace env false κ place) :
    Lowers env κ (Lowering.load place) (PlainValue env) := by
  cases place with
  | var x ty => exact pure h
  | memory address ty => exact pure (Op.fits_mload.2 h)
  | memoryByte address => exact pure (Op.fits_shl.2 ⟨fits_num, fits_byte (Op.fits_mload.2 h)⟩)
  | storage slot offset size ty transient =>
    rw [Lowering.load]
    split
    · exact pure (fits_storageRead h.1 (h.uses_load true))
    · rename_i hty
      split
      · exact throw
      · rename_i hpersistent
        obtain rfl : transient = false := by simpa using hpersistent
        exact (copyToMemory h (by simpa using hty)).bind fun _ _ _ he => capture he

theorem copyToStorage (h : PlainPlace env true κ (.storage slot offset size ty false))
    (hty : ty.isValue = false) (hvalue : Plain env κ value) :
    Lowers env κ (Lowering.copyToStorage slot value ty) (Known env 0) := by
  have hstore : ∀ {r : FixedRoutine} {rest : List Yul.Expr},
      (fixed r).signature = ⟨r.name, (slot :: rest).length, 0⟩ →
      (fixed r).changesStorage? = some true → (∀ e ∈ rest, Known env 1 κ e) →
      Lowers env κ (Lowering.routine r (slot :: rest)) (Known env 0) := fun hr hs hrest =>
    (licensedRoutine hr (h.licensed hty hs) (forall_mem_cons.2 ⟨h.1.known, hrest⟩)).weaken
      fun _ _ _ he => he.2
  have hvalue' : ∀ e ∈ [value], Known env 1 κ e := forall_mem_singleton.2 hvalue.known
  unfold Lowering.copyToStorage
  split
  · exact hstore rfl rfl hvalue'
  · exact hstore rfl rfl hvalue'
  · split
    · exact hstore rfl rfl hvalue'
    · exact throw
  · split
    · exact hstore rfl rfl (by simpa using hvalue.known)
    · exact throw
  · exact storeStruct h hvalue
  · exact throw

theorem store (h : PlainPlace env true κ place) (hvalue : Plain env κ value) :
    Lowers env κ (Lowering.store place value) Any := by
  cases place with
  | var x ty => exact emit (fits_assignOne.2 ⟨h, hvalue.known⟩)
  | memory address ty => exact emit (Stage.fits_mstore (Expr.Fits.known h) hvalue.known)
  | memoryByte address =>
    refine emit (Stage.fits_run 2 (by decide) (by decide) rfl (forall_mem_cons.2 ⟨h.known, ?_⟩))
    exact forall_mem_singleton.2 (fits_byte hvalue.known)
  | storage slot offset size ty transient =>
    unfold Lowering.store
    simp only
    split
    · exact emit (fits_storageWrite h.1.known hvalue.known (h.uses_load false) h.uses_store)
    · rename_i hty
      split
      · exact throw
      · rename_i hpersistent
        obtain rfl : transient = false := by simpa using hpersistent
        exact (copyToStorage h (by simpa using hty) hvalue).bind fun _ _ _ he => emitExpr he

/-! ### Clearing -/

theorem slotsOf : Lowers env κ (Lowering.slotsOf ty)
    fun _ span => env.catalog.slotsOf ty = .ok span :=
  read_bind succeeded

theorem clearData {count : Yul.Expr}
    (h : PlainPlace env true κ (.storage slot offset size ty false)) (hty : ty.isValue = false)
    (hcount : Plain env κ count) : Lowers env κ (Lowering.clearData slot count) Any := by
  refine (licensedRoutine rfl (licensed_routine (r := .fixed .arrayDataSlot) rfl)
    (forall_mem_singleton.2 h.1.known)).bind fun κ₁ data h₁ hdata => ?_
  have h := h.later h₁
  have hzero : env.Licensed κ₁.bindings ⟨zeroStorage.name, [data, count]⟩ := by
    obtain ⟨-, field, path, hplace⟩ := h
    rw [hdata.1]
    exact licensed_of_touches (usesStorage_name (r := .fixed .zeroStorage).2 rfl) hplace (.data hty)
  refine (runRoutine rfl hzero (by simpa using ⟨hdata.2, (hcount.later h₁).known⟩)).bind
    fun _ _ h₂ _ => ?_
  have h := h.later h₂
  exact emit (fits_run.2 ⟨h.uses_store _, by simpa using h.1.known⟩)

theorem clearSlots (h : PlainPlace env true κ (.storage slot offset size ty false))
    (hty : ty.isValue = false) : Lowers env κ (Lowering.clearSlots slot ty) Any := by
  have hspan : Lowers env κ (do
      let span ← Lowering.slotsOf ty
      Lowering.runRoutine .zeroStorage [slot, num span]) Any := by
    refine slotsOf.bind fun _ span h₁ _ => ?_
    have h := h.later h₁
    exact runRoutine rfl (h.licensed (r := .fixed .zeroStorage) hty rfl) (by simpa using h.1.known)
  have hword : ∀ {κ' : Stage}, κ.Extends env.catalog κ' → Plain env κ' (Op.sload slot) :=
    fun hκ => fits_call.2 ⟨(h.later hκ).uses_load true, forall_mem_singleton.2 (h.later hκ).1⟩
  have hbytes : Plain env κ (Op.div (Op.add (Op.sload slot) (num 31)) (num 32)) :=
    Op.fits_div.2 ⟨Op.fits_add.2 ⟨hword .refl, fits_num⟩, fits_num⟩
  unfold Lowering.clearSlots
  split
  -- the number of slots of the data is read before they are cleared
  · refine slotsOf.bind fun _ span h₁ _ => ?_
    refine (capture (hword h₁).known).bind fun _ length h₂ hlength => ?_
    exact clearData (h.later (h₁.trans h₂)) hty (fits_scaled span hlength)
  · exact clearData h hty hbytes
  · exact clearData h hty hbytes
  · exact hspan
  · exact hspan
  · exact throw

theorem clear (h : PlainPlace env true κ place) : Lowers env κ (Lowering.clear place) Any := by
  unfold Lowering.clear
  split
  · exact store h fits_num
  · rename_i hty
    split
    · split
      · exact throw
      · rename_i hpersistent
        obtain rfl := Bool.eq_false_of_not_eq_true hpersistent
        exact clearSlots h (by simpa [Place.ty] using hty)
    · exact store h fits_num

/-! ### Elements and members -/

theorem fits_checkBounds {i length : Yul.Expr}
    (hpanic : κ.progress.registry.contains (.panic outOfBoundsCode)) (hi : Plain env κ i)
    (hlength : Plain env κ length) :
    (checkBounds i length).Fits κ.Knows (κ.Uses env false) := by
  have hcall : κ.Uses env false ⟨panicName outOfBoundsCode, [], 0⟩ :=
    Stage.uses_routine hpanic rfl rfl
  refine ⟨Op.fits_isZero.2 (Op.fits_lt.2 ⟨hi.known, hlength.known⟩), ?_, trivial⟩
  exact fits_run.2 ⟨hcall, forall_mem_nil _⟩

theorem fixedElementSlot {span length : Nat}
    (h : PlainPlace env false κ (.storage slot offset size (.array elem (some length)) transient))
    (hspan : env.catalog.slotsOf elem = .ok span)
    (hindex : PlainValue env κ index) :
    Lowers env κ (Lowering.fixedElementSlot slot span length index name)
      fun κ e => PlainPlace env write κ (wholeSlot e elem transient) := by
  unfold Lowering.fixedElementSlot
  split
  -- an index that is a literal is checked here, any other one when the code runs
  · rename_i i hi
    refine succeeded.bind fun _ _ h₁ hbound => pure ?_
    have hlt : i < length := by
      unfold checkLiteralIndex at hbound
      split at hbound
      · assumption
      · cases hbound
    obtain ⟨hslot, field, path, hplace⟩ := h.later h₁
    exact ⟨fits_offsetSlot _ hslot, field, _, .position hplace hspan hi hlt⟩
  · refine (capture hindex.known).bind fun _ position h₁ hposition => ?_
    refine (use rfl).bind fun _ _ h₂ hpanic => ?_
    have hposition := hposition.later h₂
    refine (emit (fits_checkBounds hpanic hposition fits_num)).bind fun _ _ h₃ _ => ?_
    obtain ⟨hslot, field, path, hplace⟩ := h.later (h₁.trans (h₂.trans h₃))
    have haddress := Op.fits_add.2 ⟨hslot, fits_scaled span (hposition.later h₃)⟩
    refine (captured haddress.known).bind fun _ entry h₄ hentry => pure ?_
    exact ⟨hentry.1, field, _, .computed (hplace.mono h₄.bindings) hspan hentry.2⟩

/-- Parts of a place that may be read are located for any use. -/
theorem storageEntry (h : PlainPlace env false κ (.storage slot offset size ty transient))
    (hindex : PlainValue env κ index) :
    Lowers env κ (Lowering.storageEntry slot ty transient index name) (PlainPlace env write) := by
  unfold Lowering.storageEntry
  split
  · rename_i key value
    obtain ⟨hslot, field, path, hplace⟩ := h
    set r := if key.isBytesLike then mappingSlotBytes else .mappingSlot
    refine (licensedRoutine ?_ (licensed_routine (r := .fixed r) ?_) ?_).bind
      fun _ _ h₁ he => (captured he.2).bind fun _ entry h₂ hentry => pure ?_
    · unfold r
      cases key.isBytesLike <;> rfl
    · unfold r
      cases key.isBytesLike <;> rfl
    · simpa using ⟨hindex.known, hslot.known⟩
    · refine ⟨hentry.1, field, path ++ [.entry index.expr], ?_⟩
      exact .mapping (hplace.mono (h₁.trans h₂).bindings) (he.1 ▸ hentry.2)
  · refine slotsOf.bind fun κ₁ span h₁ hspan => ?_
    obtain ⟨hslot, field, path, hplace⟩ := h.later h₁
    have hcall : env.Licensed κ₁.bindings
        ⟨storageArrayIndex.name, [slot, index.expr, num span]⟩ :=
      licensed_of_touches (usesStorage_name (r := .fixed .storageArrayIndex).2 rfl) hplace
        (.index rfl)
    refine (licensedRoutine rfl hcall
      (by simpa using ⟨hslot.known, (hindex.later h₁).known⟩)).bind fun _ _ h₂ he =>
        (captured he.2).bind fun _ entry h₃ hentry => pure ?_
    refine ⟨hentry.1, field, path ++ [.entry index.expr], ?_⟩
    exact .element (hplace.mono (h₂.trans h₃).bindings) hspan (he.1 ▸ hentry.2)
  · refine slotsOf.bind fun _ span h₁ hspan => ?_
    exact (fixedElementSlot (h.later h₁) hspan (hindex.later h₁)).bind fun _ _ _ he => pure he
  · exact throw

theorem memoryElement (hpointer : Plain env κ pointer) (hindex : PlainValue env κ index) :
    Lowers env κ (Lowering.memoryElement pointer ty index name) (PlainPlace env write) := by
  have hargs : ∀ {κ' : Stage}, κ.Extends env.catalog κ' →
      ∀ e ∈ [pointer, index.expr], Known env 1 κ' e := fun h => by
    simpa using ⟨(hpointer.later h).known, (hindex.later h).known⟩
  unfold Lowering.memoryElement
  split
  · extract_lets rest
    have hrest : ∀ {κ' : Stage}, κ.Extends env.catalog κ' →
        Lowers env κ' (rest ()) (PlainPlace env write) := fun h =>
      (routine rfl rfl (hargs h)).bind fun _ _ _ he => (capture he).bind fun _ _ _ he => pure he
    split
    · exact attempt.bind fun _ _ h _ => hrest h
    · exact hrest .refl
  iterate 2
    · refine (routine rfl rfl (hargs .refl)).bind fun _ _ _ he => ?_
      exact (capture he).bind fun _ _ _ he => pure he
  · exact throw

theorem indexPlace (h : PlainPlace env false κ place) (hindex : PlainValue env κ index) :
    Lowers env κ (Lowering.indexPlace place index name) (PlainPlace env write) := by
  unfold Lowering.indexPlace
  split
  · exact storageEntry h hindex
  · exact (load h).bind fun _ _ h hpointer => memoryElement hpointer (hindex.later h)

theorem memberPlace (h : PlainPlace env false κ place) :
    Lowers env κ (Lowering.memberPlace place member) (PlainPlace env write) := by
  unfold Lowering.memberPlace
  split
  · rename_i struct hstruct
    refine structLayout.bind fun _ layout h₁ hlayout => ?_
    have h := h.later h₁
    split
    -- in storage the member has a slot of its own, in memory a word behind the pointer
    · rename_i hfield
      split
      · obtain ⟨hslot, field, path, hplace⟩ := h
        obtain rfl := hstruct
        exact pure ⟨fits_offsetSlot _ hslot, field, _, .member hplace hlayout hfield⟩
      · refine (load h).bind fun _ _ _ hv => (capture hv.known).bind fun _ _ _ hv => ?_
        exact pure (fits_wordAt _ hv)
    · exact throw
  · exact throw

theorem lengthOf (h : PlainPlace env false κ place) :
    Lowers env κ (Lowering.lengthOf place) (PlainValue env) := by
  unfold Lowering.lengthOf
  split
  · exact pure fits_num
  iterate 3
    · rename_i hty
      split
      · obtain rfl := hty
        exact pure (fits_call.2 ⟨h.uses_length rfl true, forall_mem_singleton.2 h.1⟩)
      · exact (load h).bind fun _ _ _ hv => pure (Op.fits_mload.2 hv)
  · exact throw

/-! ### Growing and shrinking arrays -/

theorem growableArray (h : PlainPlace env true κ place) :
    Lowers env κ (liftM (Lowering.growableArray place)) fun κ r => ∃ offset size,
      PlainPlace env true κ (.storage r.1 offset size (.array r.2 none) false) := by
  refine lift ?_
  rintro ⟨slot, elem⟩ hgrowable
  unfold Lowering.growableArray at hgrowable
  split at hgrowable
  · obtain ⟨rfl, rfl⟩ := Outcome.pair_inj hgrowable
    exact ⟨_, _, h⟩
  · cases hgrowable

theorem popElement (h : PlainPlace env true κ place) :
    Lowers env κ (Lowering.popElement place) Any := by
  refine (growableArray h).bind fun _ r _ hr => slotsOf.bind fun _ span h₂ _ => ?_
  obtain ⟨offset, size, hplace⟩ := hr
  have hplace := hplace.later h₂
  exact runRoutine rfl (hplace.licensed (r := .fixed .storageArrayPop) rfl rfl)
    (by simpa using hplace.1.known)

theorem pushElement {value : Option Value}
    (h : PlainPlace env true κ (.storage slot offset size (.array elem none) false))
    (hvalue : IfSome (PlainValue env) κ value) :
    Lowers env κ (Lowering.pushElement slot elem value) Any := by
  refine slotsOf.bind fun _ span h₁ hspan => ?_
  have h := h.later h₁
  refine (licensedRoutine rfl (h.licensed (r := .fixed .storageArrayGrow) rfl rfl)
    (by simpa using h.1.known)).bind fun _ grown h₂ hgrown => ?_
  cases value with
  | some v =>
    refine (capturedFresh hgrown.2).bind fun _ element h₃ helement => ?_
    obtain ⟨-, field, path, hplace⟩ := h.later (h₂.trans h₃)
    refine store ⟨helement.1, field, _, .pushed hplace hspan (hgrown.1 ▸ helement.2)⟩ ?_
    exact (hvalue v rfl).later (h₁.trans (h₂.trans h₃))
  | none =>
    exact emit (Stage.fits_run 1 (by decide) (by decide) rfl (forall_mem_singleton.2 hgrown.2))

end Lowers

end ContractYul.Lowering
