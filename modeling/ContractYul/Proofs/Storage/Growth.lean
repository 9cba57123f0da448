import ContractYul.Compilation
import ContractYul.Proofs.Lowering.Elements
import ContractYul.Proofs.Routine.Growth

/-!
# Arrays that grow and shrink

An array of any length has a slot with the number of its elements and slots for the elements behind
the hash of that slot. Slots beyond the last element keep what was last stored there. `ArrayChange`
tells what each operation does to the number and to the words of all these slots, and `ArrayEdit` is
the operation as it is written; the code of an operation makes its change.

An array is fresh when all slots beyond its last element are zero, so that an element that is added
without a value is zero. Adding, removing, setting and clearing keep it fresh. An assignment of a shorter
array and clearing a struct around the array do so only if all elements that are dropped are zero.

Main statement: `GrowableArray.grown_element_zero_iff`.
-/

namespace ContractYul.Lowering

open Yul Machine FixedRoutine World Registry

theorem readWord_zero (ty : Ty) (offset size : Nat) : readWord ty offset size 0#256 = 0#256 := by
  have hfield : field 0#256 offset size = 0#256 := by simp [field]
  have hsigned : ∀ n, (0#n).signExtend 256 = 0#256 := by
    intro n
    apply BitVec.eq_of_getLsbD_eq
    intro i _
    simp [BitVec.getLsbD_signExtend]
  have hvalue : valueOf ty size 0#256 = 0#256 := by
    cases ty <;> simp [valueOf, Word.signExtend, hsigned]
  rw [readWord, hfield, hvalue, ite_self]

/-! ## Changes -/

/-- What storage has of an array: the number of elements, and the words of all slots for elements. -/
structure ArraySlots where
  count : Nat
  word : Nat → Word

inductive ArrayChange where
  | push (v : Word)
  | grow
  | pop
  | set (i : Nat) (v : Word)
  | assign (words : List Word)
  | clear
  | clearOuter

namespace ArraySlots

def empty : ArraySlots :=
  ⟨0, fun _ => 0#256⟩

/-- Slots beyond the last element are zero, up to a bound. -/
def Fresh (bound : Nat) (s : ArraySlots) : Prop :=
  ∀ i < bound, s.count ≤ i → s.word i = 0#256

theorem fresh_empty (bound : Nat) : empty.Fresh bound :=
  fun _ _ _ => rfl

end ArraySlots

namespace ArrayChange

def apply (elem : Ty) : ArrayChange → ArraySlots → Option ArraySlots
  | push v, s => some ⟨s.count + 1, Function.update s.word s.count
      (writtenWord elem 0 elem.byteSize (s.word s.count) v)⟩
  | grow, s => some ⟨s.count + 1, s.word⟩
  | pop, s =>
    if s.count = 0 then none else some ⟨s.count - 1, Function.update s.word (s.count - 1) 0#256⟩
  | set i v, s =>
    if i < s.count then
      some ⟨s.count, Function.update s.word i (writtenWord elem 0 elem.byteSize (s.word i) v)⟩
    else none
  | assign words, s =>
    some ⟨words.length, fun i => if i < words.length then words.getD i 0#256 else s.word i⟩
  | clear, s => some ⟨0, fun i => if i < s.count then 0#256 else s.word i⟩
  | clearOuter, s => some ⟨0, s.word⟩

def refusal : ArrayChange → Nat
  | pop => emptyPopCode
  | _ => outOfBoundsCode

/-- A change drops no element that is not zero without setting its slot to zero. -/
def Spares : ArrayChange → ArraySlots → Prop
  | assign words, s => ∀ i, words.length ≤ i → i < s.count → s.word i = 0#256
  | clearOuter, s => ∀ i < s.count, s.word i = 0#256
  | _, _ => True

variable {elem : Ty} {c : ArrayChange}

theorem fresh_apply_iff (h : s.Fresh bound) (hcount : s.count ≤ bound)
    (happly : c.apply elem s = some s') : s'.Fresh bound ↔ c.Spares s := by
  cases c with
  | push v =>
    cases happly
    refine iff_of_true (fun i hbelow (hi : s.count + 1 ≤ i) => ?_) trivial
    exact (Function.update_of_ne (by omega) _ _).trans (h i hbelow (by omega))
  | grow =>
    cases happly
    exact iff_of_true (fun i hbelow hi => h i hbelow (Nat.le_of_succ_le hi)) trivial
  | pop =>
    rw [apply] at happly
    split at happly
    · cases happly
    · cases happly
      refine iff_of_true (fun i hbelow (hi : s.count - 1 ≤ i) => ?_) trivial
      rcases Nat.eq_or_lt_of_le hi with rfl | hlt
      · exact Function.update_self _ _ _
      · exact (Function.update_of_ne (by omega) _ _).trans (h i hbelow (by omega))
  | set j v =>
    rw [apply] at happly
    split at happly
    · cases happly
      refine iff_of_true (fun i hbelow (hi : s.count ≤ i) => ?_) trivial
      exact (Function.update_of_ne (by omega) _ _).trans (h i hbelow hi)
    · cases happly
  | assign words =>
    cases happly
    constructor
    · intro hfresh i hle hlt
      have hword : (if i < words.length then words.getD i 0#256 else s.word i) = 0#256 :=
        hfresh i (by omega) hle
      rwa [if_neg (by omega)] at hword
    · intro hspares i hbelow (hle : words.length ≤ i)
      show (if i < words.length then words.getD i 0#256 else s.word i) = 0#256
      rw [if_neg (by omega)]
      rcases Nat.lt_or_ge i s.count with hlt | hge
      · exact hspares i hle hlt
      · exact h i hbelow hge
  | clear =>
    cases happly
    refine iff_of_true (fun i hbelow _ => ?_) trivial
    show (if i < s.count then 0#256 else s.word i) = 0#256
    split
    · rfl
    · exact h i hbelow (by omega)
  | clearOuter =>
    cases happly
    constructor
    · exact fun hfresh i hi => hfresh i (by omega) (Nat.zero_le i)
    · intro hspares i hbelow _
      rcases Nat.lt_or_ge i s.count with hlt | hge
      · exact hspares i hlt
      · exact h i hbelow hge

/-- What changes make of an array that had no element, unless one is refused. -/
def made (elem : Ty) (cs : List ArrayChange) : Option ArraySlots :=
  cs.foldlM (fun s c => c.apply elem s) .empty

theorem made_concat (h : made elem cs = some s) : made elem (cs ++ [c]) = c.apply elem s := by
  rw [made] at h ⊢
  simp [h]

def AllSpare (elem : Ty) (cs : List ArrayChange) : Prop :=
  ∀ before c s, before ++ [c] <+: cs → made elem before = some s → c.Spares s

theorem AllSpare.of_concat (h : AllSpare elem (cs ++ [c])) : AllSpare elem cs :=
  fun before c' s hle => h before c' s (hle.trans (List.prefix_append _ _))

end ArrayChange

/-! ## Arrays in storage -/

/-- No element below a bound lies where the number of elements does. -/
def Apart (ctx : Yul.Context) (base : Word) (bound : Nat) : Prop :=
  ∀ i < bound, base ≠ dataSlot ctx base + BitVec.ofNat 256 i

/-- Storage goes round to the slot of the number of elements at last. -/
theorem Apart.lt (h : Apart ctx base bound) : bound < 2 ^ 256 := by
  by_contra hge
  refine h (base - dataSlot ctx base).toNat ?_ ?_
  · exact Nat.lt_of_lt_of_le (base - dataSlot ctx base).isLt (Nat.not_lt.1 hge)
  · rw [BitVec.ofNat_toNat, BitVec.setWidth_eq, BitVec.add_comm, BitVec.sub_add_cancel]

/-- An array lies at a slot, as far as its slots below a bound tell. -/
structure ArraySlots.StoredAt (s : ArraySlots) (ctx : Yul.Context) (base : Word) (bound : Nat)
    (w : World) : Prop where
  count : (w.storage base).toNat = s.count
  word : ∀ i < bound, w.storage (dataSlot ctx base + BitVec.ofNat 256 i) = s.word i

namespace ArraySlots.StoredAt

variable {s : ArraySlots} {ctx : Yul.Context} {base : Word} {bound : Nat} {w : World}

theorem congr (h : s.StoredAt ctx base bound w) (w' : World) (hsame : w'.storage = w.storage) :
    s.StoredAt ctx base bound w' :=
  ⟨by rw [hsame, h.count], fun i hi => by rw [hsame, h.word i hi]⟩

theorem setCount (h : s.StoredAt ctx base bound w) (hapart : Apart ctx base bound) (v : Word) :
    StoredAt ⟨v.toNat, s.word⟩ ctx base bound (w.setSlot false base v) where
  count := by rw [storage_setSlot, if_pos rfl]
  word i hi := by rw [storage_setSlot, if_neg (hapart i hi).symm, h.word i hi]

theorem setWord (h : s.StoredAt ctx base bound w) (hapart : Apart ctx base bound) (hi : i < bound)
    (v : Word) :
    StoredAt ⟨s.count, Function.update s.word i v⟩ ctx base bound
      (w.setSlot false (dataSlot ctx base + BitVec.ofNat 256 i) v) where
  count := by rw [storage_setSlot, if_neg (hapart i hi), h.count]
  word j hj := by
    have hbound := hapart.lt
    dsimp only
    rw [storage_setSlot]
    by_cases heq : j = i
    · rw [heq, if_pos rfl, Function.update_self]
    · rw [if_neg (Word.add_ofNat_ne _ (by omega) (by omega) heq), Function.update_of_ne heq,
        h.word j hj]

theorem setWords (h : s.StoredAt ctx base bound w) (hapart : Apart ctx base bound) (f : Nat → Word)
    (hk : k ≤ bound) : StoredAt ⟨s.count, fun i => if i < k then f i else s.word i⟩ ctx base bound
      (w.withSlots (dataSlot ctx base) f k) := by
  induction k with
  | zero => exact ⟨h.count, h.word⟩
  | succ k ih =>
    have hstep := (ih (by omega)).setWord hapart hk (f k)
    refine ⟨hstep.count, fun i hi => (hstep.word i hi).trans ?_⟩
    dsimp only
    by_cases heq : i = k
    · rw [heq, Function.update_self, if_pos (Nat.lt_succ_self k)]
    · have hiff : i < k ↔ i < k + 1 := by omega
      simp only [Function.update_of_ne heq, hiff]

end ArraySlots.StoredAt

/-! ## Operations -/

inductive ArrayEdit where
  | push (value : Value)
  | grow
  | pop
  | set (index : Value) (value : Yul.Expr) (name : String)
  | assign (value : Yul.Expr)
  | clear
  | clearOuter (slot : Yul.Expr) (offset size : Nat) (struct : String)

structure GrowableArray where
  slot : Yul.Expr
  offset : Nat
  size : Nat
  elem : Ty

def GrowableArray.place (a : GrowableArray) : Place :=
  .storage a.slot a.offset a.size (.array a.elem none) false

def ArrayEdit.lower (a : GrowableArray) : ArrayEdit → Lower Unit
  | push value => pushElement a.slot a.elem (some value)
  | grow => pushElement a.slot a.elem none
  | pop => popElement a.place
  | set index value name => do store (← indexPlace a.place index name) value
  | assign value => store a.place value
  | clear => Lowering.clear a.place
  | clearOuter slot offset size struct =>
    Lowering.clear (.storage slot offset size (.struct struct) false)

def ArrayEdit.Valid (env : Env) : ArrayEdit → Prop
  | clearOuter _ _ _ struct => (env.catalog.layouts.slots? struct).isSome
  | _ => True

/-- Nothing changed of variables but temporaries with numbers above `n`, and nothing of memory but the
words for hashing. -/
structure KeepsData (n : Nat) (σ τ : Config) : Prop where
  vars : ∀ x, ¬ IsTemp n x → τ.vars x = σ.vars x
  memory : ∀ a, 64 ≤ a → τ.world.memory a = σ.world.memory a

namespace KeepsData

theorem refl (n : Nat) (σ : Config) : KeepsData n σ σ :=
  ⟨fun _ _ => rfl, fun _ _ => rfl⟩

theorem of_beside (h : Beside n σ τ) : KeepsData n σ τ where
  vars := h.vars
  memory a ha := by
    obtain ⟨memory, hworld, hsame⟩ := h.world
    rw [hworld, memory_withMemory, hsame a ha]

/-- Storage changes, and a slot may have been hashed. -/
theorem of_world (hmemory : ∀ a, 64 ≤ a → w.memory a = σ.world.memory a) :
    KeepsData n σ ⟨σ.vars, w⟩ :=
  ⟨fun _ _ => rfl, hmemory⟩

theorem set_temp (h : KeepsData n σ τ) (v : Word) :
    KeepsData n σ (τ.set (tempName (n + 1)) v) where
  vars x hx := (vars_set_temp hx).trans (h.vars x hx)
  memory := h.memory

end KeepsData

namespace GrowableArray

structure Valid (a : GrowableArray) : Prop where
  wellFormed : a.elem.WellFormed
  isValue : a.elem.isValue

/-- Where operations run: the array lies at a slot that stays the same, apart from its elements, and
loops may go round for every element. -/
structure Reaches (a : GrowableArray) (ctx : Yul.Context)
    (functions : String → Option Yul.Function) (limit bound n : Nat) (σ : Config) (base : Word) :
    Prop where
  slot : Steady (within ctx functions (limit + 3)) n σ a.slot base
  apart : Apart ctx base bound
  rounds : bound ≤ limit

/-- An operation makes a change: its operands have the words of the change. An array that is assigned
lies in memory behind the words for hashing. A struct around the array is apart from the elements. -/
inductive Denotes (env : Env) (ctx : Yul.Context) (m : Machine) (limit bound n : Nat) (σ : Config)
    (base : Word) : ArrayEdit → ArrayChange → Prop
  | push {value : Value} {v : Word} (hv : Steady m n σ value.expr v) :
      Denotes env ctx m limit bound n σ base (.push value) (.push v)
  | grow : Denotes env ctx m limit bound n σ base .grow .grow
  | pop : Denotes env ctx m limit bound n σ base .pop .pop
  | set {index : Value} {value : Yul.Expr} {name : String} {i v : Word}
      (hi : m.Yields σ index.expr i) (hv : ∀ τ, Beside n σ τ → m.Yields τ value v) :
      Denotes env ctx m limit bound n σ base (.set index value name) (.set i.toNat v)
  | assign {value : Yul.Expr} {pointer : Word} {words : List Word}
      (hv : m.Yields σ value pointer) (hlow : 64 ≤ pointer.toNat)
      (hroom : pointer.toNat + 32 + 32 * words.length ≤ 2 ^ 256)
      (harray : σ.world.memory.HasArray pointer words.length (words.getD · 0#256)) :
      Denotes env ctx m limit bound n σ base (.assign value) (.assign words)
  | clear : Denotes env ctx m limit bound n σ base .clear .clear
  | clearOuter {slot : Yul.Expr} {offset size : Nat} {struct : String} {outer : Word} {span k : Nat}
      (hslot : m.Yields σ slot outer) (hspan : env.catalog.layouts.slots? struct = some span)
      (hlimit : span ≤ limit) (hword : span < 2 ^ 256) (hk : k < span)
      (hbase : base = outer + BitVec.ofNat 256 k)
      (hapart : ∀ i < bound, ∀ j < span,
        dataSlot ctx base + BitVec.ofNat 256 i ≠ outer + BitVec.ofNat 256 j) :
      Denotes env ctx m limit bound n σ base (.clearOuter slot offset size struct) .clearOuter

/-- Code that makes the change of an operation, or ends the call when the change is refused. -/
def Performs (a : GrowableArray) (env : Env) (n : Nat) (p : Progress) (e : ArrayEdit)
    (code : List Yul.Stmt) : Prop :=
  ∀ (ctx : Yul.Context) (functions : String → Option Yul.Function) (limit bound : Nat) (σ : Config)
    (base : Word) (c : ArrayChange) (s : ArraySlots),
    Supplied functions env.options.target p → a.Reaches ctx functions limit bound n σ base →
    Denotes env ctx (within ctx functions (limit + 3)) limit bound n σ base e c →
    s.StoredAt ctx base bound σ.world → s.count ≤ bound →
    (c.apply a.elem s).elim
      (Panics c.refusal σ.world ((within ctx functions (limit + 3)).execAll code σ))
      fun s' => s'.count ≤ bound → (within ctx functions (limit + 3)).Ends code σ fun σ' =>
        KeepsData n σ σ' ∧ s'.StoredAt ctx base bound σ'.world

/-! ### One operation -/

section

variable {a : GrowableArray} {env : Env} {st : State}

variable {s : ArraySlots} {ctx : Yul.Context} {base : Word} {bound : Nat} {w : World}

theorem storage_base
    (h : s.StoredAt ctx base bound w) : w.storage base = BitVec.ofNat 256 s.count := by
  rw [← h.count, BitVec.ofNat_toNat, BitVec.setWidth_eq]

theorem toNat_count_succ (h : s.StoredAt ctx base bound w) (hapart : Apart ctx base bound)
    (hroom : s.count + 1 ≤ bound) :
    (w.storage base + 1#256).toNat = s.count + 1 := by
  have hbound := hapart.lt
  have hcount := h.count
  rw [Word.toNat_add_ofNat (by omega), hcount]

theorem stored_grown (h : s.StoredAt ctx base bound w) (hapart : Apart ctx base bound)
    (hroom : s.count + 1 ≤ bound) :
    ArraySlots.StoredAt ⟨s.count + 1, s.word⟩ ctx base bound
      ((w.setSlot false base (w.storage base + 1#256)).hashed base) := by
  have hgrown := h.setCount hapart (w.storage base + 1#256)
  rw [toNat_count_succ h hapart hroom] at hgrown
  exact hgrown.congr _ rfl

theorem memory_grown {a : Nat} (ha : 64 ≤ a) :
    ((w.setSlot false base v).hashed base).memory a = w.memory a := by
  rw [memory_hashed (by omega), memory_setSlot]

theorem exec_writeElement {m : Machine} {slot : Expr} (h : a.Valid)
    (hs : s.StoredAt ctx base bound σ.world)
    (hi : i < bound) (hslot : m.Yields σ slot (dataSlot ctx base + BitVec.ofNat 256 i))
    (hv : m.Yields σ value v) :
    m.exec (storageWrite slot 0 a.elem.byteSize a.elem false value) σ =
      .ok (.next, σ.withSlot false (dataSlot ctx base + BitVec.ofNat 256 i)
        (writtenWord a.elem 0 a.elem.byteSize (s.word i) v)) := by
  obtain ⟨hpos, hfit⟩ := Ty.byteSize_bounds h.wellFormed
  rw [← hs.word i hi]
  exact exec_storageWrite a.elem false hpos (by omega) hslot hv

theorem exists_push (h : a.Valid) (value : Value) (env : Env) (st : State) : ∃ code st',
    Produces ((ArrayEdit.push value).lower a) env st () code st' ∧
      a.Performs env st.counter st'.progress (.push value) code := by
  refine ⟨_, _, (produces_slotsOf h.isValue).bind ((produces_routine _ _).bind
    ((produces_captureFresh _).bind (produces_storeElement h.isValue h.wellFormed _ _))), ?_⟩
  intro ctx functions limit bound σ base c s hsupplied hreaches hdenotes hs _
  cases hdenotes with
  | push hv =>
    intro hroom
    have hgrow := apply_storageArrayGrow ctx (n := limit + 1)
      (hsupplied _ (contains_add _ rfl)) base 1#256 σ.world
    have hone : σ.world.storage base * 1#256 = BitVec.ofNat 256 s.count := by
      rw [BitVec.mul_one, storage_base hs]
    rw [hone] at hgrow
    refine .cons (exec_letOne_call (.cons hreaches.slot.yields
      (.cons (yields_num (by decide)) .nil)) hgrow) ?_
    have hworld : KeepsData st.counter σ
        ⟨σ.vars, (σ.world.setSlot false base (σ.world.storage base + 1#256)).hashed base⟩ :=
      .of_world fun _ ha => memory_grown ha
    have hkeeps := hworld.set_temp (dataSlot ctx base + BitVec.ofNat 256 s.count)
    have hgrown := stored_grown hs hreaches.apart hroom
    refine .cons (exec_writeElement h hgrown hroom (yields_ident.2 (by simp)) (hv _ hkeeps.vars))
      (.nil ⟨⟨hkeeps.vars, hkeeps.memory⟩, ?_⟩)
    exact hgrown.setWord hreaches.apart hroom _

theorem exists_grow (h : a.Valid) (env : Env) (st : State) : ∃ code st',
    Produces (ArrayEdit.grow.lower a) env st () code st' ∧
      a.Performs env st.counter st'.progress .grow code := by
  refine ⟨_, _, (produces_slotsOf h.isValue).bind ((produces_routine _ _).bind (produces_emit _)), ?_⟩
  intro ctx functions limit bound σ base c s hsupplied hreaches hdenotes hs _
  cases hdenotes
  intro hroom
  refine .cons (exec_pop (eval_call (.cons hreaches.slot.yields
    (.cons (yields_num (by decide)) .nil)) (apply_storageArrayGrow ctx
      (hsupplied _ (contains_add _ rfl)) base 1#256 σ.world))) ?_
  exact .nil ⟨.of_world fun a ha => memory_grown ha, stored_grown hs hreaches.apart hroom⟩

theorem exists_pop (h : a.Valid) (env : Env) (st : State) : ∃ code st',
    Produces (ArrayEdit.pop.lower a) env st () code st' ∧
      a.Performs env st.counter st'.progress .pop code := by
  have hlower : ArrayEdit.pop.lower a =
      (do runRoutine .storageArrayPop [a.slot, num (← slotsOf a.elem)]) := rfl
  rw [hlower]
  refine ⟨_, _, (produces_slotsOf h.isValue).bind ((produces_routine _ _).bind (produces_emit _)), ?_⟩
  intro ctx functions limit bound σ base c s hsupplied hreaches hdenotes hs hcount
  cases hdenotes
  have hargs : List.Forall₂ ((within ctx functions (limit + 3)).Yields σ) [a.slot, num 1]
      [base, 1#256] :=
    .cons hreaches.slot.yields (.cons (yields_num (by decide)) .nil)
  rw [ArrayChange.apply]
  by_cases hne : s.count = 0
  · rw [if_pos hne]
    have hempty : σ.world.storage base = 0#256 := by rw [storage_base hs, hne]
    exact panics_execAll_cons (panics_exec_run hargs (panics_storageArrayPop ctx
      (hsupplied _ (contains_add _ rfl)) 1#256 σ.world hempty)) []
  rw [if_neg hne]
  intro _
  have hapart := hreaches.apart
  have hbound := hapart.lt
  have hzero : σ.world.storage base ≠ 0#256 := fun heq => hne (by rw [← hs.count, heq]; rfl)
  refine .cons (exec_run hargs (apply_storageArrayPop ctx (hsupplied _ (contains_add _ rfl))
    base 1#256 σ.world hzero (Nat.le_add_left 1 limit))) (.nil ⟨.of_world fun a ha => ?_, ?_⟩)
  · rw [popped, memory_setSlot, memory_withSlots, memory_hashed (by omega)]
  · -- the slot of the last element is set to zero, then the number of elements
    have hlast : σ.world.storage base - 1#256 = BitVec.ofNat 256 (s.count - 1) := by
      obtain ⟨k, hk⟩ := Nat.exists_eq_add_one_of_ne_zero hne
      rw [storage_base hs, hk, Nat.add_sub_cancel, BitVec.ofNat_add, BitVec.add_sub_cancel]
    have hslot : dataSlot ctx base + BitVec.ofNat 256 (s.count - 1) * 1#256 + BitVec.ofNat 256 0 =
        dataSlot ctx base + BitVec.ofNat 256 (s.count - 1) := by
      rw [BitVec.mul_one]
      exact BitVec.add_zero _
    have hstored := ((hs.congr (σ.world.hashed base) rfl).setWord hapart
      (show s.count - 1 < bound by omega) 0#256).setCount hapart (BitVec.ofNat 256 (s.count - 1))
    rw [BitVec.toNat_ofNat, Nat.mod_eq_of_lt (by omega), ← hslot] at hstored
    rw [popped, hlast]
    exact hstored

/-- Code that leads to an element, or ends the call when there is none. -/
theorem locates_element (h : a.Valid) (huses : p.registry.contains (.fixed .storageArrayIndex))
    (hsupplied : Supplied functions env.options.target p)
    (hreaches : a.Reaches ctx functions limit bound n σ base)
    (hi : (within ctx functions (limit + 3)).Yields σ index i)
    (hs : s.StoredAt ctx base bound σ.world) (hcount : s.count ≤ bound) (code : List Yul.Stmt) :
    (s.count ≤ i.toNat → Panics outOfBoundsCode σ.world
      ((within ctx functions (limit + 3)).execAll (.letOne (tempName (n + 1))
        (storageArrayIndex.call [a.slot, index, num 1]) :: code) σ)) ∧
    (i.toNat < s.count → ∃ σ', (within ctx functions (limit + 3)).Runs
        [.letOne (tempName (n + 1)) (storageArrayIndex.call [a.slot, index, num 1])]
          σ σ' ∧ Beside n σ σ' ∧ s.StoredAt ctx base bound σ'.world ∧
      (within ctx functions (limit + 3)).Yields σ' (ident (tempName (n + 1)))
        (dataSlot ctx base + BitVec.ofNat 256 i.toNat) ∧
      (within ctx functions (limit + 3)).Yields σ'
        (storageRead (ident (tempName (n + 1))) 0 a.elem.byteSize a.elem false)
        (readWord a.elem 0 a.elem.byteSize (s.word i.toNat))) := by
  have hlength := hs.count
  refine ⟨fun hge => ?_, fun hlt => ?_⟩
  · exact panics_execAll_cons (panics_exec_letOne
      (.cons hreaches.slot.yields (.cons hi (.cons (yields_num (by decide)) .nil)))
      (panics_storageArrayIndex ctx (hsupplied _ huses) σ.world (by omega))) _
  obtain ⟨hpos, hfit⟩ := Ty.byteSize_bounds h.wellFormed
  obtain ⟨σ', hrun, hbeside, hslot⟩ := locates_storageArrayIndex huses ctx functions limit σ base i
    hsupplied hreaches.slot hi (show i.toNat < (σ.world.storage base).toNat by omega)
    (show (σ.world.storage base).toNat < 2 ^ 256 by omega)
  have hstored := hs.congr σ'.world hbeside.storage_eq
  have hplace : firstSlot ctx base none + i = dataSlot ctx base + BitVec.ofNat 256 i.toNat := by
    rw [BitVec.ofNat_toNat]
    rfl
  rw [hplace] at hslot
  have hread := yields_storageRead a.elem false hpos (by omega : 0 + a.elem.byteSize ≤ 32) hslot
  rw [show σ'.world.slots false (dataSlot ctx base + BitVec.ofNat 256 i.toNat) = s.word i.toNat from
    hstored.word i.toNat (by omega)] at hread
  exact ⟨σ', hrun, hbeside, hstored, hslot, hread⟩

theorem exists_set (h : a.Valid) (index : Value) (value : Yul.Expr) (name : String) (env : Env)
    (st : State) : ∃ code st',
    Produces ((ArrayEdit.set index value name).lower a) env st () code st' ∧
      a.Performs env st.counter st'.progress (.set index value name) code := by
  obtain ⟨st₁, helement, huses⟩ := produces_anyElement _ h.isValue a.slot a.offset a.size name env st
  refine ⟨_, _, helement.bind (produces_storeElement h.isValue h.wellFormed _ _), ?_⟩
  intro ctx functions limit bound σ base c s hsupplied hreaches hdenotes hs hcount
  cases hdenotes with
  | @set _ _ _ i v hi hv =>
    obtain ⟨hrefuses, hlocates⟩ := locates_element h huses hsupplied hreaches hi hs hcount
      [storageWrite (ident (tempName (st.counter + 1))) 0 a.elem.byteSize a.elem false value]
    rw [ArrayChange.apply]
    by_cases hlt : i.toNat < s.count
    · rw [if_pos hlt]
      intro _
      obtain ⟨σ₁, hrun, hbeside, hstored, hslot, -⟩ := hlocates hlt
      have hkeeps : KeepsData st.counter σ σ₁ := .of_beside hbeside
      have hroom : i.toNat < bound := by omega
      refine .append hrun (.cons (exec_writeElement h hstored hroom hslot (hv σ₁ hbeside)) ?_)
      exact .nil ⟨⟨hkeeps.vars, hkeeps.memory⟩, hstored.setWord hreaches.apart hroom _⟩
    · rw [if_neg hlt]
      exact hrefuses (Nat.not_lt.1 hlt)

/-- Code that reads the element of an index, or ends the call when there is none. -/
def Reads (a : GrowableArray) (env : Env) (n : Nat) (p : Progress) (index : Value) (read : Value)
    (code : List Yul.Stmt) : Prop :=
  ∀ (ctx : Yul.Context) (functions : String → Option Yul.Function) (limit bound : Nat) (σ : Config)
    (base i : Word) (s : ArraySlots),
    Supplied functions env.options.target p → a.Reaches ctx functions limit bound n σ base →
    (within ctx functions (limit + 3)).Yields σ index.expr i →
    s.StoredAt ctx base bound σ.world → s.count ≤ bound →
    if i.toNat < s.count then (within ctx functions (limit + 3)).Ends code σ fun σ' =>
      KeepsData n σ σ' ∧ s.StoredAt ctx base bound σ'.world ∧
      (within ctx functions (limit + 3)).Yields σ' read.expr
        (readWord a.elem 0 a.elem.byteSize (s.word i.toNat))
    else Panics outOfBoundsCode σ.world ((within ctx functions (limit + 3)).execAll code σ)

theorem exists_read (h : a.Valid) (index : Value) (name : String) (env : Env) (st : State) :
    ∃ read code st', Produces (do load (← indexPlace a.place index name)) env st read code st' ∧
      a.Reads env st.counter st'.progress index read code := by
  obtain ⟨st', helement, huses⟩ :=
    produces_anyElement index h.isValue a.slot a.offset a.size name env st
  refine ⟨_, _, _, helement.bind (produces_loadElement h.isValue h.wellFormed _), ?_⟩
  intro ctx functions limit bound σ base i s hsupplied hreaches hi hs hcount
  obtain ⟨hrefuses, hlocates⟩ := locates_element h huses hsupplied hreaches hi hs hcount []
  split
  · rename_i hlt
    obtain ⟨σ', hrun, hbeside, hstored, -, hread⟩ := hlocates hlt
    exact ⟨σ', hrun, .of_beside hbeside, hstored, hread⟩
  · rename_i hge
    exact hrefuses (Nat.not_lt.1 hge)

theorem exists_assign (h : a.Valid) (value : Yul.Expr) (env : Env) (st : State) : ∃ code st',
    Produces ((ArrayEdit.assign value).lower a) env st () code st' ∧
      a.Performs env st.counter st'.progress (.assign value) code := by
  obtain ⟨st₁, hstore, huses⟩ := produces_store h.isValue none a.slot a.offset a.size value env st
  refine ⟨_, st₁, hstore, ?_⟩
  intro ctx functions limit bound σ base c s hsupplied hreaches hdenotes hs _
  have hapart := hreaches.apart
  have hrounds := hreaches.rounds
  cases hdenotes with
  | @assign _ pointer words hv hlow hspace harray =>
    intro (hroom : words.length ≤ bound)
    have hlength : (σ.world.memory.readWord pointer).toNat = words.length := by
      rw [harray.length, BitVec.toNat_ofNat, Nat.mod_eq_of_lt (by omega)]
    refine .cons (exec_run (.cons hreaches.slot.yields (.cons hv .nil)) (apply_storageStoreArray ctx
      (hsupplied _ huses) base pointer σ.world (by omega))) (.nil ⟨.of_world fun a ha => ?_, ?_⟩)
    · rw [withArray, memory_withSlots, memory_grown ha]
    · set w := (σ.world.setSlot false base (σ.world.memory.readWord pointer)).hashed base
      have hcounted := (hs.setCount hapart (σ.world.memory.readWord pointer)).congr w rfl
      rw [hlength] at hcounted
      have hstored := hcounted.setWords hapart (w.memory.element pointer) hroom
      rw [withArray, hlength]
      refine ⟨hstored.count, fun i hi => (hstored.word i hi).trans ?_⟩
      dsimp only
      split
      · rename_i hlt
        have haddress := Memory.toNat_elementAddress pointer (k := i) (by omega)
        refine (Memory.readWord_congr fun a ha _ => memory_grown (by omega)).trans ?_
        exact harray.element i hlt
      · rfl

theorem produces_clearData (slot count : Yul.Expr) (env : Env) (st : State) : ∃ st',
    Produces (clearData slot count) env st ()
      [.eval (zeroStorage.call [arrayDataSlot.call [slot], count]),
        Op.sstore slot (num 0)] st' ∧
    st'.progress.registry.contains (.fixed .arrayDataSlot) ∧
    st'.progress.registry.contains (.fixed .zeroStorage) := by
  set st₁ := { st with progress := st.progress.use env.options.target (.fixed .arrayDataSlot) }
  have hzero : Produces (do
      runRoutine .zeroStorage [arrayDataSlot.call [slot], count]
      emit (Op.sstore slot (num 0))) env st₁ () _ _ :=
    ((produces_routine _ _).bind (produces_emit _)).bind (produces_emit _)
  exact ⟨_, (produces_routine _ _).bind hzero, hzero.routines _ (contains_add _ rfl),
    contains_add _ rfl⟩

theorem exists_clear (h : a.Valid) (env : Env) (st : State) : ∃ code st',
    Produces (ArrayEdit.clear.lower a) env st () code st' ∧
      a.Performs env st.counter st'.progress .clear code := by
  obtain ⟨st', hcleared, hdata, hzero⟩ := produces_clearData a.slot
    (ident (tempName (st.counter + 1))) env { st with
      counter := st.counter + 1
      code := st.code ++ [.letOne (tempName (st.counter + 1)) (Op.sload a.slot)] }
  refine ⟨_, st', (produces_slotsOf h.isValue).bind (produces_capture_call.bind hcleared), ?_⟩
  intro ctx functions limit bound σ base c s hsupplied hreaches hdenotes hs hlimit
  have hapart := hreaches.apart
  have hrounds := hreaches.rounds
  have hnumber := hs.count
  cases hdenotes
  intro _
  refine .cons (exec_letOne hreaches.slot.yields.sload) ?_
  have hkeeps := (KeepsData.refl st.counter σ).set_temp (σ.world.storage base)
  have hslot : ∀ w, (within ctx functions (limit + 3)).Yields
      ⟨(σ.set (tempName (st.counter + 1)) (σ.world.storage base)).vars, w⟩ a.slot base :=
    fun w => hreaches.slot _ hkeeps.vars
  have hfirst := eval_call (.cons (hslot σ.world) .nil)
    (apply_arrayDataSlot ctx (hsupplied _ hdata) base σ.world)
  refine .cons (exec_eval (eval_call_first hfirst (yields_ident.2 (by simp)) (apply_zeroStorage ctx
    (hsupplied _ hzero) (dataSlot ctx base) (σ.world.storage base) (σ.world.hashed base)
    (by omega)))) ?_
  refine .cons (exec_store false (hslot _) (yields_num (n := 0) (by decide)))
    (.nil ⟨⟨hkeeps.vars, fun a ha => ?_⟩, ?_⟩)
  · rw [Config.withSlot, memory_setSlot, memory_withSlots, memory_hashed (by omega)]
  · have hstored := (hs.congr (σ.world.hashed base) rfl).setWords hapart (fun _ => 0#256) hlimit
    rw [hs.count]
    exact hstored.setCount hapart 0#256

theorem exists_clearOuter (h : (env.catalog.layouts.slots? struct).isSome) (slot : Yul.Expr)
    (offset size : Nat) (st : State) : ∃ code st',
    Produces ((ArrayEdit.clearOuter slot offset size struct).lower a) env st () code st' ∧
      a.Performs env st.counter st'.progress (.clearOuter slot offset size struct) code := by
  obtain ⟨n, hn⟩ := Option.isSome_iff_exists.1 h
  have hslots : Produces (slotsOf (.struct struct)) env st n [] st := by
    refine ⟨?_, by simp, le_rfl, fun _ hr => hr⟩
    show (env.catalog.slotsOf (.struct struct)).map (·, st) = .ok (n, st)
    rw [Catalog.slotsOf, Ty.storageSlots, hn]
    rfl
  refine ⟨_, _, hslots.bind ((produces_routine _ _).bind (produces_emit _)), ?_⟩
  intro ctx functions limit bound σ base c s hsupplied hreaches hdenotes hs _
  cases hdenotes with
  | @clearOuter _ _ _ _ outer span k hslot hspan hlimit hword hk hbase hapart =>
    intro _
    obtain rfl : n = span := Option.some.inj (hn.symm.trans hspan)
    have hnumber : (BitVec.ofNat 256 n).toNat = n := Nat.mod_eq_of_lt hword
    have hzero := apply_zeroStorage ctx (n := limit + 2) (hsupplied _ (contains_add _ rfl))
      outer (BitVec.ofNat 256 n) σ.world (by omega)
    rw [hnumber] at hzero
    refine .cons (exec_run (.cons hslot (.cons (yields_num hword) .nil)) hzero)
      (.nil ⟨.of_world fun a _ => by rw [memory_withSlots], ?_, fun i hi => ?_⟩)
    · rw [hbase, storage_withSlots hword.le hk]
      rfl
    · exact (storage_withSlots_of_ne (hapart i hi)).trans (hs.word i hi)

/-- The code of an operation makes its change, unless the change is refused. -/
theorem exists_editCode (h : a.Valid) (he : e.Valid env) (st : State) : ∃ code st',
    Produces (e.lower a) env st () code st' ∧ a.Performs env st.counter st'.progress e code := by
  cases e with
  | push value => exact exists_push h value env st
  | grow => exact exists_grow h env st
  | pop => exact exists_pop h env st
  | set index value name => exact exists_set h index value name env st
  | assign value => exact exists_assign h value env st
  | clear => exact exists_clear h env st
  | clearOuter slot offset size struct => exact exists_clearOuter he slot offset size st

end

/-! ### Histories -/

/-- All slots beyond the last element of the array at a slot are zero, up to a bound. -/
def UnusedZero (ctx : Yul.Context) (base : Word) (bound : Nat) (w : World) : Prop :=
  ∀ i < bound, (w.storage base).toNat ≤ i → w.storage (dataSlot ctx base + BitVec.ofNat 256 i) = 0#256

theorem fresh_iff_unusedZero {s : ArraySlots} (h : s.StoredAt ctx base bound w) :
    s.Fresh bound ↔ UnusedZero ctx base bound w := by
  constructor
  · intro hfresh i hi hle
    rw [h.word i hi, hfresh i hi (h.count ▸ hle)]
  · intro hzero i hi hle
    rw [← h.word i hi, hzero i hi (h.count.symm ▸ hle)]

/-- What happens to an array from zeroed storage on, with the changes that were made: code of
operations runs, in one call or in many, and between operations all may change but the array. -/
inductive History (ctx : Yul.Context) (elem : Ty) (base : Word) (bound : Nat) :
    List ArrayChange → ArraySlots → World → Prop
  | start {w : World} (h : ArraySlots.empty.StoredAt ctx base bound w) :
      History ctx elem base bound [] .empty w
  | other {cs : List ArrayChange} {s : ArraySlots} {w w' : World}
      (h : History ctx elem base bound cs s w) (hcount : w'.storage base = w.storage base)
      (hsame : ∀ i < bound, w'.storage (dataSlot ctx base + BitVec.ofNat 256 i) =
        w.storage (dataSlot ctx base + BitVec.ofNat 256 i)) :
      History ctx elem base bound cs s w'
  | edit {cs : List ArrayChange} {s s' : ArraySlots} {w : World} {a : GrowableArray}
      {e : ArrayEdit} {c : ArrayChange} {env : Env} {st st' : State} {code : List Yul.Stmt}
      {functions : String → Option Yul.Function} {limit : Nat} {σ σ' : Config}
      (h : History ctx elem base bound cs s w) (ha : a.Valid) (helem : a.elem = elem)
      (he : e.Valid env) (hcode : Produces (e.lower a) env st () code st')
      (hsupplied : Supplied functions env.options.target st'.progress)
      (hreaches : a.Reaches ctx functions limit bound st.counter σ base)
      (hdenotes : Denotes env ctx (within ctx functions (limit + 3)) limit bound st.counter σ
        base e c)
      (hworld : σ.world = w) (happly : c.apply elem s = some s') (hroom : s'.count ≤ bound)
      (hrun : (within ctx functions (limit + 3)).Runs code σ σ') :
      History ctx elem base bound (cs ++ [c]) s' σ'.world

section

variable {ctx : Yul.Context} {elem : Ty} {base : Word} {bound : Nat} {cs : List ArrayChange}
  {s : ArraySlots} {w : World}

theorem produces_unique {code more : List Yul.Stmt} (h : Produces lower env st a code st₁)
    (h' : Produces lower env st b more st₂) : code = more ∧ st₁ = st₂ := by
  obtain ⟨-, rfl⟩ := Outcome.pair_inj (h.run.symm.trans h'.run)
  exact ⟨List.append_cancel_left (h.code_eq.symm.trans h'.code_eq), rfl⟩

/-- The array lies in storage as its changes tell. -/
theorem History.storedAt (h : History ctx elem base bound cs s w) :
    s.StoredAt ctx base bound w ∧ s.count ≤ bound := by
  induction h with
  | start h => exact ⟨h, Nat.zero_le _⟩
  | other _ hcount hsame ih =>
    exact ⟨⟨by rw [hcount, ih.1.count], fun i hi => by rw [hsame i hi, ih.1.word i hi]⟩, ih.2⟩
  | @edit cs s s' w a e c env st st' _ _ _ σ σ' _ ha helem he hcode hsupplied hreaches hdenotes hworld
      happly hroom hrun ih =>
    obtain ⟨code, st₁, hcode', hperforms⟩ := exists_editCode ha he st
    obtain ⟨rfl, rfl⟩ := produces_unique hcode hcode'
    subst helem
    have hperforms := hperforms _ _ _ _ σ base c s hsupplied hreaches hdenotes (hworld ▸ ih.1) ih.2
    rw [happly] at hperforms
    obtain ⟨τ, hτ, -, hstored⟩ := hperforms hroom
    obtain ⟨-, rfl⟩ := Outcome.pair_inj (hτ.symm.trans hrun)
    exact ⟨hstored, hroom⟩

theorem History.made_eq (h : History ctx elem base bound cs s w) :
    ArrayChange.made elem cs = some s := by
  induction h with
  | start => rfl
  | other _ _ _ ih => exact ih
  | edit _ _ _ _ _ _ _ _ _ happly _ _ ih => rw [ArrayChange.made_concat ih, happly]

theorem History.fresh (h : History ctx elem base bound cs s w)
    (hspare : ArrayChange.AllSpare elem cs) : s.Fresh bound := by
  induction h with
  | start => exact ArraySlots.fresh_empty bound
  | other _ _ _ ih => exact ih hspare
  | edit h _ _ _ _ _ _ _ _ happly _ _ ih =>
    exact (ArrayChange.fresh_apply_iff (ih hspare.of_concat) h.storedAt.2 happly).2
      (hspare _ _ _ List.prefix_rfl h.made_eq)

/-- An element that is added without a value is read through its index. What is read is the value that
stands in the bytes of its slot, as they were before. -/
def GrowsThenReads (a : GrowableArray) (index : Value) (name : String) (env : Env) (st : State)
    (ctx : Yul.Context) (base : Word) (bound : Nat) (s : ArraySlots) (w : World) : Prop :=
  ∃ read code₁ st₁ code₂ st₂,
    Produces (ArrayEdit.grow.lower a) env st () code₁ st₁ ∧
    Produces (do load (← indexPlace a.place index name)) env st₁ read code₂ st₂ ∧
    ∀ (functions : String → Option Yul.Function) (limit : Nat) (σ : Config) (i : Word),
      Supplied functions env.options.target st₂.progress →
      a.Reaches ctx functions limit bound st.counter σ base → σ.world = w →
      Steady (within ctx functions (limit + 3)) st.counter σ index.expr i →
      i.toNat = s.count → s.count < bound →
      ∃ σ', (within ctx functions (limit + 3)).Runs (code₁ ++ code₂) σ σ' ∧
        (within ctx functions (limit + 3)).Yields σ' read.expr
          (readWord a.elem 0 a.elem.byteSize (s.word s.count))

theorem growsThenReads {a : GrowableArray} (ha : a.Valid) (index : Value) (name : String) (env : Env)
    (st : State) (hs : s.StoredAt ctx base bound w) (hcount : s.count ≤ bound) :
    a.GrowsThenReads index name env st ctx base bound s w := by
  obtain ⟨code, st₁, hgrow, hperforms⟩ := exists_grow ha env st
  obtain ⟨read, code₂, st₂, hread, hreads⟩ := exists_read ha index name env st₁
  refine ⟨_, _, _, _, _, hgrow, hread, ?_⟩
  intro functions limit σ i hsupplied hreaches hworld hindex hi hroom
  -- the number of elements grows, and the words stay
  obtain ⟨σ₁, hrun, hkeeps, hgrown⟩ := hperforms ctx functions limit bound σ base .grow s
    (fun r hr => hsupplied r (hread.routines r hr)) hreaches .grow (hworld ▸ hs) hcount hroom
  -- the index is in range now
  have hreads := hreads ctx functions limit bound σ₁ base i _ hsupplied
    ⟨hreaches.slot.later hgrow.counter hkeeps.vars, hreaches.apart, hreaches.rounds⟩
    (hindex.later hgrow.counter hkeeps.vars).yields hgrown hroom
  rw [if_pos (show i.toNat < s.count + 1 by omega)] at hreads
  obtain ⟨σ₂, hrun₂, -, -, hyields⟩ := hreads
  rw [hi] at hyields
  exact ⟨σ₂, hrun.append hrun₂, hyields⟩

/-- An array keeps to its changes whatever operations there were. Slots beyond the last element are
zero after operations that spare the array, and no longer after the first one that does not; every
operation has code, which ends the call if the operation is refused. An element that is added without
a value has what its slot had, which is zero as long as the slots beyond the last element are. -/
theorem grown_element_zero_iff (h : History ctx elem base bound cs s w) :
    s.StoredAt ctx base bound w ∧
    (ArrayChange.AllSpare elem cs → UnusedZero ctx base bound w) ∧
    (∀ (a : GrowableArray) (e : ArrayEdit) (env : Env) (st : State), a.Valid → a.elem = elem →
      e.Valid env → ∃ code st', Produces (e.lower a) env st () code st' ∧
        ∀ (functions : String → Option Yul.Function) (limit : Nat) (σ : Config) (c : ArrayChange),
          Supplied functions env.options.target st'.progress →
          a.Reaches ctx functions limit bound st.counter σ base →
          Denotes env ctx (Machine.within ctx functions (limit + 3)) limit bound st.counter σ base e
            c → σ.world = w →
          (c.apply elem s = none →
            Reverts ((Machine.within ctx functions (limit + 3)).execAll code σ)) ∧
          ∀ s', c.apply elem s = some s' → s'.count ≤ bound →
            ∃ σ', (Machine.within ctx functions (limit + 3)).Runs code σ σ' ∧
              History ctx elem base bound (cs ++ [c]) s' σ'.world ∧
              (UnusedZero ctx base bound w →
                (UnusedZero ctx base bound σ'.world ↔ c.Spares s))) ∧
    ∀ (a : GrowableArray) (index : Value) (name : String) (env : Env) (st : State), a.Valid →
      a.elem = elem → a.GrowsThenReads index name env st ctx base bound s w ∧
        (UnusedZero ctx base bound w → s.count < bound →
          readWord a.elem 0 a.elem.byteSize (s.word s.count) = 0#256) := by
  obtain ⟨hs, hcount⟩ := h.storedAt
  refine ⟨hs, fun hspare => (fresh_iff_unusedZero hs).1 (h.fresh hspare), ?_, ?_⟩
  · rintro a e env st ha rfl he
    obtain ⟨code, st', hcode, hperforms⟩ := exists_editCode ha he st
    refine ⟨code, st', hcode, fun functions limit σ c hsupplied hreaches hdenotes hworld => ?_⟩
    have hperforms := hperforms ctx functions limit bound σ base c s hsupplied hreaches hdenotes
      (hworld ▸ hs) hcount
    refine ⟨fun hnone => ?_, fun s' happly hroom => ?_⟩
    · rw [hnone] at hperforms
      exact hperforms.reverts
    rw [happly] at hperforms
    obtain ⟨σ', hrun, -, hs'⟩ := hperforms hroom
    refine ⟨σ', hrun, h.edit ha rfl he hcode hsupplied hreaches hdenotes hworld happly hroom hrun, ?_⟩
    rw [← fresh_iff_unusedZero hs, ← fresh_iff_unusedZero hs']
    exact fun hfresh => ArrayChange.fresh_apply_iff hfresh hcount happly
  · rintro a index name env st ha -
    refine ⟨growsThenReads ha index name env st hs hcount, fun hzero hroom => ?_⟩
    rw [(fresh_iff_unusedZero hs).2 hzero s.count hroom le_rfl, readWord_zero]

end

/-! ### An array of numbers -/

/-- Numbers of two bytes, whose number is in the fifth slot. -/
def ofShorts : GrowableArray where
  slot := num 5
  offset := 0
  size := 32
  elem := .uint 16

/-- A number is in a variable, and storage is zero. -/
def shortsState : Config where
  vars x := if x = "var_v" then some 7#256 else none
  world := { (default : World) with storage := fun _ => 0#256 }

def shortsRoutines : List Routine :=
  [.fixed .arrayDataSlot, .fixed .storageArrayIndex, .fixed .storageArrayGrow,
    .panic outOfBoundsCode]

def shortsTable : String → Option Yul.Function :=
  tableOf .cancun shortsRoutines

theorem valid_ofShorts : ofShorts.Valid :=
  ⟨⟨by decide, by decide, rfl⟩, rfl⟩

theorem reaches_ofShorts (n : Nat) (σ : Config) :
    ofShorts.Reaches .hashing shortsTable 2 2 n σ 5#256 where
  slot _ _ := yields_num (by decide)
  apart := by
    unfold Apart
    rw [dataSlot_five]
    decide +kernel
  rounds := le_rfl

/-- A number is pushed to an array without elements, and an element that is added without a value is
read as zero. -/
theorem grown_element_zero_shorts : ∃ code st σ₁ read code₁ st₁ code₂ st₂ σ₂,
    Produces ((ArrayEdit.push ⟨ident "var_v", .uint 16⟩).lower ofShorts) (bareEnv "Shorts")
      { progress := {} } () code st ∧
    (Machine.within .hashing shortsTable 5).Runs code shortsState σ₁ ∧
    Produces (ArrayEdit.grow.lower ofShorts) (bareEnv "Shorts") st () code₁ st₁ ∧
    Produces (do load (← indexPlace ofShorts.place ⟨num 1, .uint 256⟩ "shorts")) (bareEnv "Shorts")
      st₁ read code₂ st₂ ∧
    (Machine.within .hashing shortsTable 5).Runs (code₁ ++ code₂) σ₁ σ₂ ∧
    (Machine.within .hashing shortsTable 5).Yields σ₂ read.expr 0#256 := by
  have hstart : History .hashing (.uint 16) 5#256 2 [] .empty shortsState.world :=
    .start ⟨rfl, fun _ _ => rfl⟩
  obtain ⟨-, -, hedits, hreads⟩ := grown_element_zero_iff hstart
  obtain ⟨code, st, hcode, hruns⟩ := hedits ofShorts (.push ⟨ident "var_v", .uint 16⟩)
    (bareEnv "Shorts") { progress := {} } valid_ofShorts rfl trivial
  obtain ⟨⟨read, code₁, st₁, code₂, st₂, hgrow, hread, -⟩, -⟩ := hreads ofShorts
    ⟨num 1, .uint 256⟩ "shorts" (bareEnv "Shorts") st valid_ofShorts rfl
  have hsupplied : Supplied shortsTable .cancun st₂.progress :=
    supplied_tableOf (hcode.bind (f := fun _ => _) (hgrow.bind (f := fun _ => _) hread))
      (by decide +kernel) (by decide) .cancun
  -- the number is pushed
  have hvalue : Steady (Machine.within .hashing shortsTable 5) 0 shortsState (ident "var_v")
      7#256 := fun τ hτ =>
    yields_ident.2 (hτ "var_v" (not_isTemp_of_head (by decide)))
  obtain ⟨σ₁, hrun, hpushed, hunused⟩ := (hruns shortsTable 2 shortsState (.push 7#256)
    (fun r hr => hsupplied r (hread.routines r (hgrow.routines r hr))) (reaches_ofShorts _ _)
    (.push hvalue) rfl).2 _ rfl (by decide)
  have hzero : UnusedZero .hashing 5#256 2 σ₁.world := (hunused fun _ _ _ => rfl).2 trivial
  -- an element is added and read
  obtain ⟨-, -, -, hgrown⟩ := grown_element_zero_iff hpushed
  obtain ⟨⟨read', _, _, _, _, hgrow', hread', hyields⟩, hreadZero⟩ := hgrown ofShorts
    ⟨num 1, .uint 256⟩ "shorts" (bareEnv "Shorts") st valid_ofShorts rfl
  obtain ⟨rfl, rfl⟩ := produces_unique hgrow hgrow'
  obtain ⟨rfl, rfl⟩ := produces_unique hread hread'
  obtain ⟨σ₂, hrun₂, hvalue₂⟩ := hyields shortsTable 2 σ₁ 1#256 hsupplied (reaches_ofShorts _ _) rfl
    (fun _ _ => yields_num (n := 1) (by decide)) rfl (by decide)
  rw [hreadZero hzero (by decide)] at hvalue₂
  exact ⟨code, st, σ₁, read', _, _, _, _, σ₂, hcode, hrun, hgrow, hread', hrun₂, hvalue₂⟩

end GrowableArray

/-! ## A shelf -/

/-- A class with an array in a struct and one beside it. -/
def shelf : Source.File where
  path := "shelf"
  interfaces := [{ name := "Box", fields := [⟨"items", "u256[]"⟩] }]
  classes := [
    { name := "Shelf"
      fields := [{ name := "box", ty := "Box" }, { name := "items", ty := "u256[]" }]
      methods := [
        { name := "empty", params := [⟨"v", "u256"⟩], returns := ["u256"]
          visibility := .private
          body := some [
            .expr (.call (.member (.member (.member .this "box") "items") "push") [.ident "v"]),
            .expr (.unary .delete (.member .this "box")),
            .expr (.call (.member (.member (.member .this "box") "items") "push") []),
            .ret (some (.index (.member (.member .this "box") "items") (.number "0")))] },
        { name := "replace", params := [⟨"v", "u256"⟩, ⟨"vs", "u256[]"⟩], returns := ["u256"]
          visibility := .private
          body := some [
            .expr (.call (.member (.member .this "items") "push") [.ident "v"]),
            .expr (.assign .assign (.member .this "items") (.ident "vs")),
            .expr (.call (.member (.member .this "items") "push") []),
            .ret (some (.index (.member .this "items") (.number "0")))] }] }]

/-- What a function of a compiled class returns when storage and memory are zero. -/
def runShelf (c : Compiled) (name : String) (args : List Word) : Option (List Word) :=
  let functions := Yul.Stmt.definedFunction? c.object.deployed
  let world := { (default : World) with storage := fun _ => 0#256, memory := fun _ => 0 }
  ((within .hashing functions 8).runFunction functions name args
    world).toOption.map (·.1)

/-- An element that is added without a value has the value of one that was dropped with a struct, or
by an assignment of an array without elements. -/
theorem dropped_element_reappears : ∃ c, compile {} shelf [] "Shelf" = .ok c ∧
    runShelf c "fun_empty" [7#256] = some [7#256] ∧
    runShelf c "fun_replace" [7#256, 128#256] = some [7#256] := by
  -- each run is evaluated on its own, since hashes take much memory
  obtain ⟨c, hc, hempty⟩ := Outcome.exists_of_map_toOption
    (show (compile {} shelf [] "Shelf").toOption.map (runShelf · "fun_empty" [7#256]) =
      some (some [7#256]) by decide +kernel)
  obtain ⟨_, hc', hreplace⟩ := Outcome.exists_of_map_toOption
    (show (compile {} shelf [] "Shelf").toOption.map (runShelf · "fun_replace" [7#256, 128#256]) =
      some (some [7#256]) by decide +kernel)
  obtain rfl := Except.ok.inj (hc.symm.trans hc')
  exact ⟨c, hc, hempty, hreplace⟩

end ContractYul.Lowering
