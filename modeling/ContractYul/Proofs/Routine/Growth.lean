import ContractYul.Proofs.Routine.Arrays

/-!
# Runs of routines that grow, shrink and clear arrays in storage

An array of any length grows by one element, whose slots are left as they are, or shrinks by one,
whose slots are set to zero. Slots from one on are set to zero in a counted loop.

Main statements:
* `apply_zeroStorage`, `apply_storageArrayGrow`, `apply_storageArrayPop`;
* `panics_storageArrayPop`, `panics_storageArrayIndex`: removing from an empty array and an index
  that is out of range end the call.
-/

namespace ContractYul

open Yul Machine FixedRoutine

section

variable {functions : String → Option Function} {target : Target} {n : Nat}

variable {slot : Word}

theorem apply_zeroStorage (ctx : Context) (h : Includes functions target (.fixed .zeroStorage))
    (slot count : Word) (w : World) (hlimit : count.toNat < n) :
    (within ctx functions (n + 1)).apply zeroStorage.name [slot, count] w =
      .ok ([], w.zeroed slot count.toNat) := by
  refine h.returns rfl rfl (.append (runs_storeLoop (by rfl) (by rfl) (by rfl)
    (by rwa [rounds_within]) fun _ => yields_num (by decide)) ?_)
  exact .nil ⟨rfl, rfl⟩

/-- The number of elements grows by one, and the slot of the new element is given. -/
theorem apply_storageArrayGrow (ctx : Context)
    (h : Includes functions target (.fixed .storageArrayGrow)) (slot span : Word) (w : World) :
    (within ctx functions (n + 2)).apply storageArrayGrow.name [slot, span] w =
      .ok ([dataSlot ctx slot + w.storage slot * span],
        (w.setSlot false slot (w.storage slot + 1#256)).hashed slot) := by
  refine h.returns rfl rfl ?_
  refine .cons (exec_letOne (yields_ident.2 (by rfl)).sload) ?_
  refine .cons (Lowering.exec_store false (yields_ident.2 (by rfl))
    ((yields_ident.2 (by rfl)).add (yields_num (by decide)))) ?_
  refine .cons (exec_assignOne_eval (eval_elementSlot ctx (h.needed (by decide))
    (yields_ident.2 (by rfl)) (yields_ident.2 (by rfl)) (yields_ident.2 (by rfl))) (by rfl)) ?_
  exact .nil ⟨rfl, rfl⟩

def Yul.World.popped (ctx : Context) (w : World) (slot span : Word) : World :=
  ((w.hashed slot).zeroed (dataSlot ctx slot + (w.storage slot - 1#256) * span) span.toNat).setSlot
    false slot (w.storage slot - 1#256)

/-- The last element of an array that is not empty is set to zero and removed. -/
theorem apply_storageArrayPop (ctx : Context)
    (h : Includes functions target (.fixed .storageArrayPop)) (slot span : Word) (w : World)
    (hne : w.storage slot ≠ 0#256) (hlimit : span.toNat ≤ n) :
    (within ctx functions (n + 2)).apply storageArrayPop.name [slot, span] w =
      .ok ([], w.popped ctx slot span) := by
  refine h.returns rfl rfl ?_
  refine .cons (exec_letOne (yields_ident.2 (by rfl)).sload) ?_
  refine .cons (exec_ifThen_of_zero ?_) ?_
  · rw [← show Word.ofBool (w.storage slot == 0#256) = 0#256 by rw [beq_false_of_ne hne]; rfl]
    exact (yields_ident.2 (by rfl)).isZero
  refine .cons (exec_letOne ((yields_ident.2 (by rfl)).sub (yields_num (by decide)))) ?_
  refine .cons (exec_letOne_eval (eval_elementSlot ctx (h.needed (by decide))
    (yields_ident.2 (by rfl)) (yields_ident.2 (by rfl)) (yields_ident.2 (by rfl)))) ?_
  refine .append (runs_storeLoop (by rfl) (by rfl) (by rfl)
    (by rw [rounds_within]; exact Nat.lt_succ_of_le hlimit) fun _ => yields_num (by decide)) ?_
  refine .cons (Lowering.exec_store false (yields_ident.2 (by rfl)) (yields_ident.2 (by rfl))) ?_
  exact .nil ⟨rfl, rfl⟩

/-! ## Refusals -/

/-- A run ends the call and throws away what it did. -/
def Yul.Reverts {α : Type} (run : Run α) : Prop :=
  ∃ data w, run = .error (.halted (.revert data) w)

def Yul.panicData (code : Nat) : List UInt8 :=
  [0x4e, 0x48, 0x7b, 0x71] ++ Word.toBytes (BitVec.ofNat 256 code)

/-- A run ends the call with a panic, after changing nothing but memory. -/
def Yul.Panics {α : Type} (code : Nat) (w : World) (run : Run α) : Prop :=
  ∃ memory, run = .error (.halted (.revert (panicData code)) (w.withMemory memory))

namespace Yul

variable {code : Nat} {w : World}

theorem Panics.bind {run : Run α} (h : Panics code w run) (f : α → Run β) :
    Panics code w (run >>= f) := by
  obtain ⟨memory, rfl⟩ := h
  exact ⟨memory, rfl⟩

theorem Panics.reverts {run : Run α} (h : Panics code w run) : Reverts run := by
  obtain ⟨memory, rfl⟩ := h
  exact ⟨_, _, rfl⟩

namespace Machine

variable {m : Machine} {σ τ : Config} {name : String} {es : List Expr} {vs : List Word}

theorem panics_eval_call (hargs : List.Forall₂ (m.Yields σ) es vs)
    (h : Panics code w (m.apply name vs σ.world)) : Panics code w (m.eval (call name es) σ) := by
  rw [call, eval, evalArgs_eq hargs]
  exact h.bind _

theorem panics_exec_run (hargs : List.Forall₂ (m.Yields σ) es vs)
    (h : Panics code w (m.apply name vs σ.world)) : Panics code w (m.exec (.run name es) σ) := by
  exact (panics_eval_call hargs h).bind _

theorem panics_exec_letOne (hargs : List.Forall₂ (m.Yields σ) es vs)
    (h : Panics code w (m.apply name vs σ.world)) :
    Panics code w (m.exec (.letOne var (call name es)) σ) := by
  exact (panics_eval_call hargs h).bind _

theorem panics_execAll_cons (h : Panics code w (m.exec s σ)) (rest : List Stmt) :
    Panics code w (m.execAll (s :: rest) σ) := by
  exact h.bind _

theorem panics_ifThen (he : m.Yields σ e x) (hx : x ≠ 0#256)
    (h : Panics code w (m.execAll body σ)) : Panics code w (m.exec (.ifThen e body) σ) := by
  rw [exec_ifThen_of_ne he hx]
  exact h.bind _

theorem Runs.panics (hfirst : m.Runs first σ τ) (h : Panics code w (m.execAll rest τ)) :
    Panics code w (m.execAll (first ++ rest) σ) := by
  rw [hfirst.execAll_append]
  exact h

end Machine

end Yul

variable {code : Nat} {w : World}

theorem Includes.panics (h : Includes functions target r) (hf : r.definition? target = some f)
    (hargs : f.params.length = args.length)
    (hbody : Panics code w ((within ctx functions n).execAll f.body (entry f args w))) :
    Panics code w ((within ctx functions (n + 1)).apply r.name args w) := by
  rw [h.apply_eq hf hargs]
  exact hbody.bind _

theorem panics_panic (ctx : Context) (h : Includes functions target (.panic code))
    (hcode : code < 2 ^ 256) (w : World) :
    Panics code w ((within ctx functions (n + 1)).apply (panicName code) [] w) := by
  set m := within ctx functions n
  set selector : Word := BitVec.ofNat 256 panicSelector <<< 224
  have hselector : ∀ σ : Config, m.Yields σ (Op.selectorWord panicSelector) selector :=
    fun σ => .shl (by decide) (yields_numText (by decide +kernel) (by decide))
  have hnum : ∀ {k : Nat} (σ : Config), k < 2 ^ 256 → m.Yields σ (num k) (BitVec.ofNat 256 k) :=
    fun _ hk => yields_num hk
  have hruns := Runs.cons (σ := entry (panicDef code) [] w)
    (exec_mstore (hnum (k := 0) _ (by decide)) (hselector _))
    (.cons (exec_mstore (hnum (k := 4) _ (by decide)) (hnum _ hcode)) .nil)
  set memory := (w.memory.write 0 selector.toBytes).write 4 (Word.toBytes (BitVec.ofNat 256 code))
  have hdata : memory.read 0 36 = panicData code := by
    have hbytes : memory.Has 0 (panicData code) := by
      refine Memory.has_append.2 ⟨?_, Memory.has_write _ _ _⟩
      have hfront : HasPart selector.toBytes 0 [0x4e, 0x48, 0x7b, 0x71] :=
        ⟨[], List.replicate 28 0, by decide +kernel, rfl⟩
      exact ((Memory.has_write w.memory 0 selector.toBytes).part hfront).congr
        fun a _ ha => Memory.write_of_lt ha
    have hlength : (panicData code).length = 36 := by
      rfl
    exact hbytes.read_eq
  have hrevert := hruns.panics (panics_execAll_cons (s := Op.revert (num 0) (num 36))
    (panics_exec_run (.cons (hnum _ (by decide))
      (.cons (hnum _ (by decide)) .nil)) ⟨memory, by rw [← hdata]; rfl⟩) [])
  exact h.panics rfl rfl hrevert

/-- A bounds check ends the call for an index that is not below the length. -/
theorem panics_checkBounds (ctx : Context) (h : Includes functions target (.panic outOfBoundsCode))
    (hindex : (within ctx functions (n + 1)).Yields σ index i)
    (hlength : (within ctx functions (n + 1)).Yields σ length l) (hge : l.toNat ≤ i.toNat) :
    Panics outOfBoundsCode σ.world ((within ctx functions (n + 1)).exec
      (checkBounds index length) σ) := by
  have hcondition := (hindex.lt hlength).isZero
  rw [BitVec.ult, decide_eq_false (by omega)] at hcondition
  exact panics_ifThen hcondition (by decide)
    (panics_execAll_cons (panics_exec_run .nil (panics_panic ctx h (by decide) σ.world)) [])

theorem panics_storageArrayIndex (ctx : Context)
    (h : Includes functions target (.fixed .storageArrayIndex)) (w : World)
    (hindex : (w.storage slot).toNat ≤ index.toNat) :
    Panics outOfBoundsCode w ((within ctx functions (n + 2)).apply
      storageArrayIndex.name [slot, index, span] w) := by
  exact h.panics rfl rfl (panics_execAll_cons (panics_checkBounds ctx (h.needed (by decide))
    (yields_ident.2 (by rfl)) (yields_ident.2 (by rfl)).sload hindex) _)

theorem panics_storageArrayPop (ctx : Context)
    (h : Includes functions target (.fixed .storageArrayPop)) (span : Word) (w : World)
    (hempty : w.storage slot = 0#256) :
    Panics emptyPopCode w ((within ctx functions (n + 2)).apply
      storageArrayPop.name [slot, span] w) := by
  have hcondition : Word.ofBool (w.storage slot == 0#256) ≠ 0#256 := by
    rw [hempty]
    decide
  refine h.panics rfl rfl ((Runs.cons (exec_letOne (yields_ident.2 (by rfl)).sload) .nil).panics
    (panics_execAll_cons (panics_ifThen (yields_ident.2 (by rfl)).isZero hcondition ?_) _))
  exact panics_execAll_cons (panics_exec_run .nil (panics_panic ctx (h.needed (by decide))
    (by decide) _)) []

end

end ContractYul
