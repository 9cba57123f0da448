import ContractYul.Proofs.Lowering.Captures
import ContractYul.Proofs.Routine.Growth

/-!
# Code for elements and copies of arrays

What lowering writes for an element of an array of values in storage and for a copy of the whole
array, and what that code does when it runs. The slot of an element of a fixed array is known, or
computed after a check of the index; for an array of any length a routine checks the index and hashes
the slot.

Main statements:
* `exists_elementCode`: the code for an element leads to the slot of the element;
* `produces_load`, `runs_copyCall`: the code for a copy to memory, and what it copies;
* `produces_store`, `runs_restoreCall`: the code for a copy to storage, and what it copies.
-/

namespace ContractYul.Lowering

open Yul Machine FixedRoutine World Registry

/-! ## Literals -/

variable {n i : Nat} {m : Machine} {σ : Config} {e : Yul.Expr} {w : Word}

theorem readBelow?_of_digits? (h : Text.digits? base cs = some n) :
    Text.readBelow? base bound cs = if n < bound then some n else none := by
  unfold Text.readBelow?
  simp only
  split
  · -- a sign is no digit
    cases h
  · rw [h, Option.filter_some]
    simp

theorem literalValue?_eq (h : numberOf? text = some n) :
    (numText text).literalValue? = if n < 2 ^ 128 then some n else none := by
  unfold numberOf? at h
  unfold numText Yul.Expr.literalValue?
  dsimp only
  generalize text.toList = cs at h
  split
  · exact readBelow?_of_digits? h
  · rename_i hdecimal
    split at h
    · exact absurd rfl (hdecimal _)
    · exact readBelow?_of_digits? h

theorem yields_of_literalValue? (h : e.literalValue? = some i)
    (hw : m.Yields σ e w) : w = BitVec.ofNat 256 i ∧ i < 2 ^ 128 := by
  cases e with
  | ident => cases h
  | call => cases h
  | literal l =>
    cases l with
    | string => cases h
    | number text =>
      have hword := yields_literal.1 hw
      rw [Context.literal] at hword
      split at hword
      · rename_i n hn
        have hvalue := literalValue?_eq (Option.filter_eq_some_iff.1 hn).1
        obtain ⟨hlt, hi⟩ := Option.ite_none_right_eq_some.1 (hvalue.symm.trans h)
        cases hi
        exact ⟨(Except.ok.inj hword).symm, hlt⟩
      · cases hword

/-! ## Pieces of code -/

/-- Lowering succeeds, and writes code behind what was written before. -/
structure Produces {α : Type} (lower : Lower α) (env : Env) (st : State) (a : α)
    (code : List Yul.Stmt) (st' : State) : Prop where
  run : lower env st = .ok (a, st')
  code_eq : st'.code = st.code ++ code
  counter : st.counter ≤ st'.counter
  routines : st.progress.registry.Extends st'.progress.registry

section

variable {α β : Type} {lower : Lower α} {f : α → Lower β} {env : Env} {st st₁ st₂ : State} {a : α}
  {b : β} {code more : List Yul.Stmt}

theorem Produces.bind (h : Produces lower env st a code st₁) (hf : Produces (f a) env st₁ b more st₂) :
    Produces (lower >>= f) env st b (code ++ more) st₂ where
  run := Outcome.bind_eq_ok.2 ⟨(a, st₁), h.run, hf.run⟩
  code_eq := by rw [hf.code_eq, h.code_eq, List.append_assoc]
  counter := h.counter.trans hf.counter
  routines r hr := hf.routines r (h.routines r hr)

theorem produces_pure (a : α) : Produces (pure a) env st a [] st :=
  ⟨rfl, by simp, le_rfl, fun _ h => h⟩

theorem produces_emit (s : Yul.Stmt) :
    Produces (emit s) env st () [s] { st with code := st.code ++ [s] } :=
  ⟨rfl, rfl, le_rfl, fun _ h => h⟩

theorem produces_use (hr : r.IsBuiltIn) :
    Produces (use r) env st () [] { st with progress := st.progress.use env.options.target r } :=
  ⟨rfl, by simp, le_rfl, (grows_add _ hr).includes⟩

theorem produces_routine (r : FixedRoutine) (args : List Yul.Expr) :
    Produces (routine r args) env st (r.call args) []
      { st with progress := st.progress.use env.options.target (.fixed r) } :=
  (produces_use rfl).bind (produces_pure _)

theorem produces_captureFresh (v : Value) :
    Produces (captureFresh v) env st ⟨ident (tempName (st.counter + 1)), v.ty⟩
      [.letOne (tempName (st.counter + 1)) v.expr]
      { st with
        counter := st.counter + 1
        code := st.code ++ [.letOne (tempName (st.counter + 1)) v.expr] } :=
  ⟨captureFresh_run v env st, rfl, Nat.le_succ _, fun _ h => h⟩

end

/-! ## States -/

/-- An expression has a word as its value whatever happens to the world and to temporaries with
numbers above `n`. -/
def Steady (m : Machine) (n : Nat) (σ : Config) (e : Yul.Expr) (w : Word) : Prop :=
  ∀ τ : Config, (∀ x, ¬ IsTemp n x → τ.vars x = σ.vars x) → m.Yields τ e w

theorem Steady.yields (h : Steady m n σ e w) : m.Yields σ e w :=
  h σ fun _ _ => rfl

theorem Steady.later (h : Steady m n σ e w) (hk : n ≤ k)
    (hσ : ∀ x, ¬ IsTemp n x → σ'.vars x = σ.vars x) : Steady m k σ' e w :=
  fun τ hτ => h τ fun x hx => (hτ x fun ht => hx (ht.mono hk)).trans (hσ x hx)

theorem vars_set_temp {x : String} (hx : ¬ IsTemp n x) :
    (σ.set (tempName (n + 1)) w).vars x = σ.vars x :=
  if_neg fun heq => hx ⟨n + 1, Nat.lt_succ_self n, .inl heq⟩

/-- Nothing but temporaries with numbers above `n` and the words of memory for hashing changed. -/
structure Beside (n : Nat) (σ τ : Config) : Prop where
  vars : ∀ x, ¬ IsTemp n x → τ.vars x = σ.vars x
  world : ∃ memory, τ.world = σ.world.withMemory memory ∧
    ∀ a, 64 ≤ a → memory a = σ.world.memory a

namespace Beside

theorem refl (n : Nat) (σ : Config) : Beside n σ σ :=
  ⟨fun _ _ => rfl, σ.world.memory, rfl, fun _ _ => rfl⟩

theorem trans (h : Beside n σ τ) (h' : Beside k τ ρ) (hk : n ≤ k) : Beside n σ ρ where
  vars x hx := (h'.vars x fun ht => hx (ht.mono hk)).trans (h.vars x hx)
  world := by
    obtain ⟨memory, hworld, hsame⟩ := h.world
    obtain ⟨memory', hworld', hsame'⟩ := h'.world
    refine ⟨memory', by rw [hworld', hworld, withMemory_withMemory], fun a ha => ?_⟩
    rw [hsame' a ha, hworld, memory_withMemory, hsame a ha]

theorem set_temp (n : Nat) (σ : Config) (w : Word) : Beside n σ (σ.set (tempName (n + 1)) w) where
  vars _ := vars_set_temp
  world := ⟨σ.world.memory, rfl, fun _ _ => rfl⟩

theorem hashed (n : Nat) (σ : Config) (slot : Word) : Beside n σ ⟨σ.vars, σ.world.hashed slot⟩ where
  vars _ _ := rfl
  world := ⟨_, rfl, fun a ha => memory_hashed (by omega)⟩

theorem storage_eq (h : Beside n σ τ) : τ.world.storage = σ.world.storage := by
  obtain ⟨memory, hworld, -⟩ := h.world
  rw [hworld]
  rfl

theorem freeMemory_eq (h : Beside n σ τ) : τ.world.freeMemory = σ.world.freeMemory := by
  obtain ⟨memory, hworld, hsame⟩ := h.world
  rw [hworld]
  exact Memory.readWord_congr fun a ha _ => hsame a ha

end Beside

def Supplied (functions : String → Option Yul.Function) (target : Target) (p : Progress) : Prop :=
  ∀ r, p.registry.contains r → Includes functions target r

/-- The routines that code uses are the ones of a table. -/
theorem supplied_tableOf {a : α} {code : List Yul.Stmt} (h : Produces lower env st a code st')
    (huses : (lower env st).toOption.map (·.2.progress.registry.entries.map (·.1)) = some rs)
    (hneeds : ∀ r ∈ rs, ∀ s ∈ r.needs, s ∈ rs) (target : Target) :
    Supplied (tableOf target rs) target st'.progress := by
  rw [h.run] at huses
  intro r hr
  obtain ⟨entry, hentry, heq⟩ := List.any_eq_true.1 hr
  refine includes_tableOf hneeds ?_ target
  rw [← Option.some.inj huses, ← eq_of_beq heq]
  exact List.mem_map_of_mem hentry

/-! ## Elements -/

/-- The elements of a fixed array of `count` elements start at a word and lie a stride apart: in
storage from the slot of the array on, in memory behind its length word. -/
inductive Place.Holds (m : Machine) (n : Nat) (σ : Config) (count span : Nat) :
    Place → Word → Word → Prop
  | storage {slot : Yul.Expr} {offset size : Nat} {ty : Ty} {transient : Bool} {first : Word}
      (slot_eq : Steady m n σ slot first) :
      Holds m n σ count span (.storage slot offset size ty transient) first (BitVec.ofNat 256 span)
  | var {x : String} {ty : Ty} {pointer : Word} (vars : σ.vars x = some pointer)
      (length : σ.world.memory.readWord pointer = BitVec.ofNat 256 count) :
      Holds m n σ count span (.var x ty) (pointer + 32#256) 32#256
  | memory {address : Yul.Expr} {ty : Ty} {a pointer : Word} (address_eq : m.Yields σ address a)
      (word : σ.world.memory.readWord a = pointer)
      (length : σ.world.memory.readWord pointer = BitVec.ofNat 256 count) :
      Holds m n σ count span (.memory address ty) (pointer + 32#256) 32#256

/-- A place lies at a slot or an address, whatever happens to later temporaries. -/
def Place.LiesAt (m : Machine) (n : Nat) (σ : Config) (w : Word) : Place → Prop
  | .storage slot _ _ _ _ => Steady m n σ slot w
  | .memory address _ => Steady m n σ address w
  | _ => False

/-- Code that leads to an element of a fixed array: it ends the call when the index is out of range,
before anything that follows, and else the element lies as far from the first one as the index
says. -/
def Bounds (env : Env) (n : Nat) (st : State) (count span : Nat) (base : Place) (index : Yul.Expr)
    (code : List Yul.Stmt) (element : Place) : Prop :=
  ∀ (ctx : Yul.Context) (functions : String → Option Yul.Function) (limit : Nat) (σ : Config)
    (first stride i : Word), Supplied functions env.options.target st.progress →
    base.Holds (within ctx functions (limit + 3)) n σ count span first stride →
    (within ctx functions (limit + 3)).Yields σ index i → count < 2 ^ 256 →
    count * span < 2 ^ 256 →
    (count ≤ i.toNat → ∀ rest, Panics outOfBoundsCode σ.world
      ((within ctx functions (limit + 3)).execAll (code ++ rest) σ)) ∧
    (i.toNat < count → ∃ σ', (within ctx functions (limit + 3)).Runs code σ σ' ∧ Beside n σ σ' ∧
      element.LiesAt (within ctx functions (limit + 3)) st.counter σ' (first + i * stride))

/-- The slot of the first element of an array of values that lies at a slot. -/
def firstSlot (ctx : Yul.Context) (place : Word) : Option Nat → Word
  | none => dataSlot ctx place
  | some _ => place

/-- The number of elements of an array that lies at a slot. -/
def countOf (w : World) (place : Word) : Option Nat → Nat
  | none => (w.storage place).toNat
  | some n => n

/-- Code that leads to an element of an array: an expression then has the slot of the element as its
value. -/
def Locates (env : Env) (n : Nat) (p : Progress) (length : Option Nat) (slot index : Yul.Expr)
    (code : List Yul.Stmt) (e : Yul.Expr) : Prop :=
  ∀ (ctx : Yul.Context) (functions : String → Option Yul.Function) (limit : Nat) (σ : Config)
    (place i : Word), Supplied functions env.options.target p →
    Steady (within ctx functions (limit + 3)) n σ slot place →
    (within ctx functions (limit + 3)).Yields σ index i →
    i.toNat < countOf σ.world place length → countOf σ.world place length < 2 ^ 256 →
    ∃ σ', (within ctx functions (limit + 3)).Runs code σ σ' ∧ Beside n σ σ' ∧
      (within ctx functions (limit + 3)).Yields σ' e (firstSlot ctx place length + i)

section

variable {env : Env} {n : Nat} {slot index : Yul.Expr}

theorem yields_offsetSlot (hk : k < 2 ^ 256) (hslot : m.Yields σ slot place) :
    m.Yields σ (offsetSlot slot k) (place + BitVec.ofNat 256 k) := by
  unfold offsetSlot
  split
  · rename_i hzero
    simpa [hzero] using hslot
  · split
    · rename_i folded hfolded
      obtain ⟨hsum, hlt⟩ := Option.filter_eq_some_iff.1 hfolded
      obtain ⟨s, hs, rfl⟩ := Option.map_eq_some_iff.1 hsum
      obtain ⟨rfl, -⟩ := yields_of_literalValue? hs hslot
      have hword : s + k < 2 ^ 256 :=
        Nat.lt_trans (by simpa using hlt) (by decide : Nat.pow 2 128 < 2 ^ 256)
      rw [← BitVec.ofNat_add]
      exact yields_num hword
    · exact hslot.add (yields_num hk)

theorem yields_scaled (hspan : span < 2 ^ 256) (he : m.Yields σ e w) :
    m.Yields σ (scaled e span) (w * BitVec.ofNat 256 span) := by
  unfold scaled
  split
  · rename_i hone
    rw [hone]
    exact (BitVec.mul_one w).symm ▸ he
  · exact he.mul (yields_num hspan)

/-- An array of any length: the routine checks the index and hashes the slot. -/
theorem locates_storageArrayIndex (h : p.registry.contains (.fixed .storageArrayIndex)) :
    Locates env n p none slot index
      [.letOne (tempName (n + 1)) (storageArrayIndex.call [slot, index, num 1])]
      (ident (tempName (n + 1))) := by
  intro ctx functions limit σ place i hsupplied hslot hindex hbelow _
  have hrun : (within ctx functions (limit + 3)).exec (.letOne (tempName (n + 1))
      (storageArrayIndex.call [slot, index, num 1])) σ = _ :=
    exec_letOne_call
      (.cons hslot.yields (.cons hindex (.cons (yields_num (by decide)) .nil)))
      (apply_storageArrayIndex ctx (hsupplied _ h) σ.world hbelow)
  refine ⟨_, .cons hrun .nil, (Beside.hashed n σ place).trans (Beside.set_temp n _ _) le_rfl, ?_⟩
  refine yields_ident.2 ?_
  have hone : i * 1#256 = i := BitVec.mul_one _
  simp [firstSlot]

theorem steady_temp : Steady m (n + 1) (σ.set (tempName (n + 1)) w) (ident (tempName (n + 1))) w :=
  fun _ hτ => yields_ident.2 ((hτ (tempName (n + 1)) (not_isTemp_temp (n + 1))).trans (by simp))

variable {offset size count span : Nat} {ty elem : Ty} {transient : Bool} {st : State}

theorem bounds_literal (hindex : index.literalValue? = some k) (hk : k < count) :
    Bounds env st.counter st count span (.storage slot offset size ty transient) index []
      (wholeSlot (offsetSlot slot (k * span)) elem transient) := by
  intro ctx functions limit σ first stride i _ hholds hi _ hroom
  cases hholds with
  | storage hslot =>
    obtain ⟨rfl, hlt⟩ := yields_of_literalValue? hindex hi
    have hword : (BitVec.ofNat 256 k).toNat = k := Nat.mod_eq_of_lt (by omega)
    refine ⟨fun hge => by omega, fun _ => ⟨σ, .nil, .refl _ σ, fun τ hτ => ?_⟩⟩
    rw [← BitVec.ofNat_mul]
    exact yields_offsetSlot ((Nat.mul_le_mul_right span hk.le).trans_lt hroom) (hslot τ hτ)

/-- An element of a fixed array whose index is checked when the code runs. -/
theorem bounds_checked (hpanic : st.progress.registry.contains (.panic outOfBoundsCode))
    (hcounter : st.counter = n + 1) :
    Bounds env n st count span (.storage slot offset size ty transient) index
      [checkBounds index (num count),
        .letOne (tempName (n + 1)) (Op.add slot (scaled index span))]
      (wholeSlot (ident (tempName (n + 1))) elem transient) := by
  intro ctx functions limit σ first stride i hsupplied hholds hi hcount hroom
  have hword : (BitVec.ofNat 256 count).toNat = count := Nat.mod_eq_of_lt hcount
  have hbound : (within ctx functions (limit + 3)).Yields σ (num count)
      (BitVec.ofNat 256 count) := yields_num hcount
  cases hholds with
  | storage hslot =>
    refine ⟨fun hge rest => ?_, fun hlt => ?_⟩
    · exact panics_execAll_cons
        (panics_checkBounds ctx (hsupplied _ hpanic) hi hbound (by rwa [hword])) _
    · have hspan : span < 2 ^ 256 := (Nat.le_mul_of_pos_left span (by omega)).trans_lt hroom
      refine ⟨_, .cons (exec_checkBounds hi hbound (by rwa [hword]))
        (.cons (exec_letOne (hslot.yields.add (yields_scaled hspan hi))) .nil), .set_temp n σ _, ?_⟩
      rw [hcounter]
      exact steady_temp

theorem Bounds.bound {code : List Yul.Stmt}
    (h : Bounds env (n + 1) st count span (.storage slot offset size ty transient)
      (ident (tempName (n + 1))) code element) :
    Bounds env n st count span (.storage slot offset size ty transient) index
      (.letOne (tempName (n + 1)) index :: code) element := by
  intro ctx functions limit σ first stride i hsupplied hholds hi hcount hroom
  cases hholds with
  | storage hslot =>
    have hlet := exec_letOne (x := tempName (n + 1)) hi
    have hbeside := Beside.set_temp n σ i
    obtain ⟨hpanics, hruns⟩ := h ctx functions limit _ first _ i hsupplied
      (.storage (hslot.later (Nat.le_succ n) hbeside.vars)) (yields_ident.2 (by simp)) hcount hroom
    refine ⟨fun hge rest => (Runs.cons hlet .nil).panics (hpanics hge rest), fun hlt => ?_⟩
    obtain ⟨σ', hrun, hσ', hlies⟩ := hruns hlt
    exact ⟨σ', .cons hlet hrun, hbeside.trans hσ' (Nat.le_succ n), hlies⟩

theorem Bounds.locates {code : List Yul.Stmt}
    (h : Bounds env n st count 1 (.storage slot offset size ty transient) index code
      (wholeSlot e elem transient)) : Locates env n st.progress (some count) slot index code e := by
  intro ctx functions limit σ place i hsupplied hslot hi hbelow hcount
  obtain ⟨-, hruns⟩ := h ctx functions limit σ place _ i hsupplied (.storage hslot) hi hcount
    (by rwa [Nat.mul_one])
  obtain ⟨σ', hrun, hbeside, hlies⟩ := hruns hbelow
  have hone : i * 1#256 = i := BitVec.mul_one _
  exact ⟨σ', hrun, hbeside, hone ▸ hlies.yields⟩

end

section

variable {env : Env} {st : State} {elem : Ty} {length : Option Nat} {index : Value}

theorem slotsOf_run (helem : elem.isValue) (env : Env) (st : State) :
    slotsOf elem env st = .ok (1, st) := by
  cases elem <;> first | rfl | cases helem

theorem produces_slotsOf (helem : elem.isValue) : Produces (slotsOf elem) env st 1 [] st :=
  ⟨slotsOf_run helem env st, by simp, le_rfl, fun _ h => h⟩

theorem slotSize_eq (helem : elem.isValue) (hwf : elem.WellFormed) : slotSize elem = elem.byteSize := by
  rw [slotSize, if_pos helem]
  exact Nat.min_eq_left (Ty.byteSize_bounds hwf).2

theorem produces_storeElement (helem : elem.isValue) (hwf : elem.WellFormed) (e value : Yul.Expr) :
    Produces (store (wholeSlot e elem false) value) env st ()
      [storageWrite e 0 elem.byteSize elem false value]
      { st with code := st.code ++ [storageWrite e 0 elem.byteSize elem false value] } := by
  have hstore : store (wholeSlot e elem false) value =
      emit (storageWrite e 0 elem.byteSize elem false value) := by
    rw [← slotSize_eq helem hwf]
    exact if_pos helem
  rw [hstore]
  exact produces_emit _

theorem produces_loadElement (helem : elem.isValue) (hwf : elem.WellFormed) (e : Yul.Expr) :
    Produces (load (wholeSlot e elem false)) env st
      ⟨storageRead e 0 elem.byteSize elem false, elem⟩ [] st := by
  have hload : load (wholeSlot e elem false) =
      pure ⟨storageRead e 0 elem.byteSize elem false, elem⟩ := by
    rw [← slotSize_eq helem hwf]
    exact if_pos helem
  rw [hload]
  exact produces_pure _

theorem produces_capture_call {name : String} :
    Produces (capture ⟨call name args, ty⟩) env st ⟨ident (tempName (st.counter + 1)), ty⟩
      [.letOne (tempName (st.counter + 1)) (call name args)]
      { st with
        counter := st.counter + 1
        code := st.code ++ [.letOne (tempName (st.counter + 1)) (call name args)] } :=
  produces_captureFresh ⟨call name args, ty⟩

theorem exists_fixedElementSlot (hliteral : ∀ i, index.expr.literalValue? = some i → i < count)
    (span : Nat) (slot : Yul.Expr) (name : String) (env : Env) (st : State) :
    ∃ e code st', Produces (fixedElementSlot slot span count index name) env st e code st' ∧
      ∀ offset size ty elem transient, Bounds env st.counter st' count span
        (.storage slot offset size ty transient) index.expr code (wholeSlot e elem transient) := by
  unfold fixedElementSlot
  cases hindex : index.expr.literalValue? with
  | some i =>
    refine ⟨_, [], st, ?_, fun _ _ _ _ _ => bounds_literal hindex (hliteral i hindex)⟩
    simp only [checkLiteralIndex, if_pos (hliteral i hindex)]
    exact produces_pure _
  | none =>
    have hpanic : (Routine.panic outOfBoundsCode).IsBuiltIn := rfl
    unfold capture
    by_cases hcall : index.expr.isCall
    · rw [if_pos hcall]
      exact ⟨_, _, _, (produces_captureFresh index).bind ((produces_use hpanic).bind
        ((produces_emit _).bind (produces_capture_call.bind (produces_pure _)))),
        fun _ _ _ _ _ => (bounds_checked (contains_add _ rfl) rfl).bound⟩
    · rw [if_neg hcall]
      exact ⟨_, _, _, (produces_pure index).bind ((produces_use hpanic).bind
        ((produces_emit _).bind (produces_capture_call.bind (produces_pure _)))),
        fun _ _ _ _ _ => bounds_checked (contains_add _ rfl) rfl⟩

theorem produces_anyElement (index : Value) (helem : elem.isValue) (slot : Yul.Expr)
    (offset size : Nat) (name : String) (env : Env) (st : State) : ∃ st',
    Produces (indexPlace (.storage slot offset size (.array elem none) false) index name) env st
      (wholeSlot (ident (tempName (st.counter + 1))) elem false)
      [.letOne (tempName (st.counter + 1))
        (storageArrayIndex.call [slot, index.expr, num 1])] st' ∧
    st'.progress.registry.contains (.fixed .storageArrayIndex) :=
  ⟨_, (produces_slotsOf helem).bind ((produces_routine _ _).bind
    (produces_capture_call.bind (produces_pure _))), contains_add _ rfl⟩

theorem exists_elementCode (helem : elem.isValue)
    (hliteral : ∀ n i, length = some n → index.expr.literalValue? = some i → i < n)
    (slot : Yul.Expr) (offset size : Nat) (name : String) (env : Env) (st : State) :
    ∃ e code st', Produces (indexPlace (.storage slot offset size (.array elem length) false) index name)
        env st (wholeSlot e elem false) code st' ∧
      Locates env st.counter st'.progress length slot index.expr code e := by
  cases length with
  | none =>
    obtain ⟨st', hproduces, huses⟩ := produces_anyElement _ helem slot offset size name env st
    exact ⟨_, _, st', hproduces, locates_storageArrayIndex huses⟩
  | some n =>
    obtain ⟨e, code, st', hproduces, hlocates⟩ :=
      exists_fixedElementSlot (fun i => hliteral n i rfl) 1 slot name env st
    exact ⟨e, _, st', (produces_slotsOf helem).bind (hproduces.bind (produces_pure _)),
      by simpa using (hlocates offset size elem elem false).locates⟩

/-! ## Copies of whole arrays -/

def copyCall (slot : Yul.Expr) : Option Nat → Yul.Expr
  | none => storageLoadArray.call [slot]
  | some n => storageLoadWords.call [slot, num n]

def restoreCall (slot value : Yul.Expr) : Option Nat → Yul.Expr
  | none => storageStoreArray.call [slot, value]
  | some n => storageStoreWords.call [slot, value, num n]

/-- The number of elements that are copied from an array in memory. -/
def countIn (m : Memory) (pointer : Word) : Option Nat → Nat
  | none => (m.readWord pointer).toNat
  | some n => n

def Uses (p : Progress) (ofAny ofFixed : FixedRoutine) : Option Nat → Prop
  | none => p.registry.contains (.fixed ofAny)
  | some _ => p.registry.contains (.fixed ofFixed)

theorem produces_load (helem : elem.isValue) (length : Option Nat) (slot : Yul.Expr)
    (offset size : Nat) (env : Env) (st : State) : ∃ st',
    Produces (load (.storage slot offset size (.array elem length) false)) env st
      ⟨ident (tempName (st.counter + 1)), .array elem length⟩
      [.letOne (tempName (st.counter + 1)) (copyCall slot length)] st' ∧
    Uses st'.progress .storageLoadArray .storageLoadWords length := by
  have hload : load (.storage slot offset size (.array elem length) false) =
      (do capture ⟨← copyToMemory slot (.array elem length), .array elem length⟩) := rfl
  rw [hload]
  cases length with
  | none =>
    rw [show copyToMemory slot (.array elem none) = routine .storageLoadArray [slot] from
      if_pos helem]
    exact ⟨_, (produces_routine _ _).bind produces_capture_call, contains_add _ rfl⟩
  | some n =>
    rw [show copyToMemory slot (.array elem (some n)) = routine .storageLoadWords [slot, num n] from
      if_pos helem]
    exact ⟨_, (produces_routine _ _).bind produces_capture_call, contains_add _ rfl⟩

theorem produces_store (helem : elem.isValue) (length : Option Nat) (slot : Yul.Expr)
    (offset size : Nat) (value : Yul.Expr) (env : Env) (st : State) : ∃ st',
    Produces (store (.storage slot offset size (.array elem length) false) value) env st ()
      [.eval (restoreCall slot value length)] st' ∧
    Uses st'.progress .storageStoreArray .storageStoreWords length := by
  have hstore : store (.storage slot offset size (.array elem length) false) value =
      (do emitExpr (← copyToStorage slot value (.array elem length))) := rfl
  rw [hstore]
  cases length with
  | none =>
    rw [show copyToStorage slot value (.array elem none) = routine .storageStoreArray [slot, value]
      from if_pos helem]
    exact ⟨_, (produces_routine _ _).bind (produces_emit _), contains_add _ rfl⟩
  | some n =>
    rw [show copyToStorage slot value (.array elem (some n)) =
      routine .storageStoreWords [slot, value, num n] from if_pos helem]
    exact ⟨_, (produces_routine _ _).bind (produces_emit _), contains_add _ rfl⟩

end

section

theorem runs_copyCall (ctx : Yul.Context) (limit : Nat) (var : String)
    (hsupplied : Supplied functions target p)
    (huses : Uses p .storageLoadArray .storageLoadWords length)
    (hslot : (within ctx functions (limit + 3)).Yields σ slot place)
    (hlimit : countOf σ.world place length ≤ limit)
    (hroom : σ.world.Room (countOf σ.world place length)) :
    ∃ memory, (within ctx functions (limit + 3)).Runs [.letOne var (copyCall slot length)] σ
        ((Config.mk σ.vars (σ.world.withMemory memory)).set var σ.world.freeMemory) ∧
      memory.HasArray σ.world.freeMemory (countOf σ.world place length)
        fun j => σ.world.storage (firstSlot ctx place length + BitVec.ofNat 256 j) := by
  cases length with
  | none =>
    obtain ⟨memory, happly, harray⟩ :=
      apply_storageLoadArray ctx (hsupplied _ huses) σ.world hroom hlimit
    exact ⟨memory, .cons (exec_letOne_call (.cons hslot .nil) happly) .nil, harray⟩
  | some n =>
    have hsize : σ.world.freeMemory.toNat + 32 + 32 * n ≤ 2 ^ 256 := hroom
    have hn : n < 2 ^ 256 := by omega
    have hword : (BitVec.ofNat 256 n).toNat = n := Nat.mod_eq_of_lt hn
    obtain ⟨memory, happly, harray⟩ := apply_storageLoadWords ctx (n := limit + 1)
      (hsupplied _ huses) place (BitVec.ofNat 256 n) σ.world (by rwa [hword])
      (by rw [hword]; exact Nat.le_succ_of_le hlimit)
    rw [hword] at harray
    exact ⟨memory, .cons (exec_letOne_call
      (.cons hslot (.cons (yields_num hn) .nil)) happly) .nil, harray⟩

theorem element_hashed {w : World} (h : pointer.toNat + 32 + 32 * j < 2 ^ 256) :
    (w.hashed place).memory.element pointer j = w.memory.element pointer j := by
  refine Memory.readWord_congr fun a ha _ => memory_hashed ?_
  rw [Memory.toNat_elementAddress pointer h] at ha
  omega

/-- The slots of the elements have the words of an array in memory that was copied to them. -/
theorem runs_restoreCall (ctx : Yul.Context) (limit : Nat) (hsupplied : Supplied functions target p)
    (huses : Uses p .storageStoreArray .storageStoreWords length)
    (hslot : (within ctx functions (limit + 3)).Yields σ slot place)
    (hvalue : (within ctx functions (limit + 3)).Yields σ value pointer)
    (hlimit : countIn σ.world.memory pointer length ≤ limit)
    (hobject : pointer.toNat + 32 + 32 * countIn σ.world.memory pointer length ≤ 2 ^ 256)
    (hapart : length = none → ∀ j < countIn σ.world.memory pointer length,
      place ≠ dataSlot ctx place + BitVec.ofNat 256 j) :
    ∃ w, (within ctx functions (limit + 3)).Runs [.eval (restoreCall slot value length)] σ
        ⟨σ.vars, w⟩ ∧
      countOf w place length = countIn σ.world.memory pointer length ∧
      ∀ j < countIn σ.world.memory pointer length,
        w.storage (firstSlot ctx place length + BitVec.ofNat 256 j) =
          σ.world.memory.element pointer j := by
  cases length with
  | none =>
    have happly := apply_storageStoreArray ctx (hsupplied _ huses) place pointer
      σ.world (Nat.le_succ_of_le hlimit)
    refine ⟨_, .cons (exec_run (.cons hslot (.cons hvalue .nil)) happly) .nil, ?_, ?_⟩
    · -- the length stays in its slot, where no element is written
      refine congrArg BitVec.toNat ((storage_withSlots_of_ne (hapart rfl)).trans ?_)
      exact if_pos rfl
    · intro j hj
      refine (storage_withSlots (by omega) hj).trans ((element_hashed (by omega)).trans ?_)
      rw [memory_setSlot]
  | some n =>
    have hsize : pointer.toNat + 32 + 32 * n ≤ 2 ^ 256 := hobject
    have hrounds : n ≤ limit := hlimit
    have hn : n < 2 ^ 256 := by omega
    have hword : (BitVec.ofNat 256 n).toNat = n := Nat.mod_eq_of_lt hn
    have happly := apply_storageStoreWords ctx (n := limit + 2) (hsupplied _ huses) place pointer
      (BitVec.ofNat 256 n) σ.world (by rw [hword]; omega)
    rw [hword] at happly
    exact ⟨_, .cons (exec_run
      (.cons hslot (.cons hvalue (.cons (yields_num hn) .nil))) happly) .nil, rfl,
      fun j hj => storage_withSlots hn.le hj⟩

end

end ContractYul.Lowering
