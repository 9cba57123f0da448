import ContractYul.Hash.Keccak
import ContractYul.Proofs.Routine.Running
import ContractYul.Proofs.Storage.PackedAccess

/-!
# Runs of routines on arrays in storage

An array of words is copied between storage and memory word by word, in a loop that counts its
elements. What a copy writes is given as a function of the number of rounds, so that the state of the
loop after each round is known exactly.

Main statements:
* `apply_storageArrayIndex`: the slot of an element;
* `apply_storageLoadWords`, `apply_storageLoadArray`: copies to memory;
* `apply_storageStoreWords`, `apply_storageStoreArray`: copies to storage.
-/

namespace ContractYul

open Yul Machine FixedRoutine Memory

namespace Yul

namespace Machine

variable {m : Machine} {σ τ : Config} {a b e : Expr} {x y v : Word}

/-! ## Values -/

theorem Yields.sload (ha : m.Yields σ a x) : m.Yields σ (Op.sload a) (σ.world.storage x) :=
  .unary rfl ha

/-- The hash of bytes that stand in memory. -/
theorem Yields.keccak (hctx : m.context = ctx) (ha : m.Yields σ a x) (hb : m.Yields σ b y)
    (hbytes : σ.world.memory.Has x.toNat bytes) (hlength : y.toNat = bytes.length) :
    m.Yields σ (Op.keccak a b) (ctx.keccak bytes) := by
  have hkeccak : m.Yields σ (Op.keccak a b)
      (m.context.keccak (σ.world.memory.read x.toNat y.toNat)) :=
    .binary (f := fun w start length => m.context.keccak (w.memory.read start.toNat length.toNat))
      rfl ha hb
  rwa [hctx, hlength, hbytes.read_eq] at hkeccak

theorem Yields.wordAddress (ha : m.Yields σ a x) (hb : m.Yields σ b y) :
    m.Yields σ (Op.wordAddress a b) (x + 32#256 + y * 32#256) :=
  ha.dataOf.add (hb.mul (yields_num (by decide)))

theorem eval_call_first {name : String} (ha : m.eval a σ = .ok ([x], τ)) (hb : m.Yields σ b y)
    (happly : m.apply name [x, y] τ.world = .ok (rs, w)) :
    m.eval (call name [a, b]) σ = .ok (rs, { τ with world := w }) := by
  unfold Yields at hb
  simp [call, eval, evalArgs, ha, hb, single, happly]

theorem exec_pop (he : m.eval e σ = .ok ([v], τ)) : m.exec (.run "pop" [e]) σ = .ok (.next, τ) := by
  have hpop : m.apply "pop" [v] τ.world = .ok ([], τ.world) := rfl
  refine exec_eval ?_
  simp [eval, evalArgs, he, single, hpop]

end Machine

theorem Word.add_ofNat_ne (slot : Word) (hi : i < 2 ^ 256) (hj : j < 2 ^ 256) (hne : i ≠ j) :
    slot + BitVec.ofNat 256 i ≠ slot + BitVec.ofNat 256 j := by
  intro h
  have hword := congrArg BitVec.toNat ((BitVec.add_right_inj slot).1 h)
  rw [BitVec.toNat_ofNat, BitVec.toNat_ofNat, Nat.mod_eq_of_lt hi, Nat.mod_eq_of_lt hj] at hword
  exact hne hword

theorem World.storage_setSlot (w : World) (slot other v : Word) :
    (w.setSlot false slot v).storage other = if other = slot then v else w.storage other := rfl

theorem World.memory_setSlot (w : World) (transient : Bool) (slot v : Word) :
    (w.setSlot transient slot v).memory = w.memory := by
  cases transient <;> rfl

/-! ## Arrays in memory -/

namespace Memory

variable {m : Memory} {pointer : Word} {k : Nat}

theorem readWord_congr {m' : Memory}
    (h : ∀ a, address.toNat ≤ a → a < address.toNat + 32 → m' a = m a) :
    m'.readWord address = m.readWord address := by
  have hword : m.Has address.toNat (m.readWord address).toBytes := by
    rw [toBytes_readWord]
    exact has_read _ _ _
  refine (hword.congr fun a hle hlt => h a hle ?_).readWord_eq
  rwa [Word.length_toBytes] at hlt

theorem readWord_write (m : Memory) (v : Word) :
    (m.write address.toNat v.toBytes).readWord address = v :=
  (has_write m address.toNat v.toBytes).readWord_eq

def elementAddress (pointer : Word) (k : Nat) : Word :=
  pointer + 32#256 + BitVec.ofNat 256 k * 32#256

def element (m : Memory) (pointer : Word) (k : Nat) : Word :=
  m.readWord (elementAddress pointer k)

theorem toNat_elementAddress (pointer : Word) (h : pointer.toNat + 32 + 32 * k < 2 ^ 256) :
    (elementAddress pointer k).toNat = pointer.toNat + 32 + 32 * k := by
  have hpointer : (pointer + 32#256).toNat = pointer.toNat + 32 := Word.toNat_add_ofNat (by omega)
  have hoffset : (BitVec.ofNat 256 k * 32#256).toNat = k * 32 := by
    have hk : (BitVec.ofNat 256 k).toNat = k := Nat.mod_eq_of_lt (by omega)
    rw [BitVec.toNat_mul, hk]
    exact Nat.mod_eq_of_lt (show k * 32 < 2 ^ 256 by omega)
  rw [elementAddress, BitVec.toNat_add_of_lt (by omega), hoffset]
  omega

/-- Memory after the first elements of an array in storage were copied behind a length word. -/
def withWords (m : Memory) (storage : Word → Word) (slot pointer : Word) : Nat → Memory
  | 0 => m
  | k + 1 => (m.withWords storage slot pointer k).write (elementAddress pointer k).toNat
      (storage (slot + BitVec.ofNat 256 k)).toBytes

theorem withWords_front (h : pointer.toNat + 32 + 32 * k ≤ 2 ^ 256) (ha : a < pointer.toNat + 32) :
    m.withWords storage slot pointer k a = m a := by
  induction k with
  | zero => rfl
  | succ k ih =>
    have haddress := toNat_elementAddress pointer (k := k) (by omega)
    rw [withWords, write_of_lt (by omega), ih (by omega)]

theorem element_withWords (h : pointer.toNat + 32 + 32 * k ≤ 2 ^ 256) (hj : j < k) :
    (m.withWords storage slot pointer k).element pointer j = storage (slot + BitVec.ofNat 256 j) := by
  induction k with
  | zero => omega
  | succ k ih =>
    rcases Nat.lt_succ_iff_lt_or_eq.1 hj with hlt | rfl
    · rw [← ih (by omega) hlt]
      refine readWord_congr fun a _ ha => write_of_lt ?_
      have hplace := toNat_elementAddress pointer (k := k) (by omega)
      have hsource := toNat_elementAddress pointer (k := j) (by omega)
      omega
    · exact readWord_write _ _

end Memory

/-- The world after words were written to the slots from one on. -/
def World.withSlots (w : World) (slot : Word) (words : Nat → Word) : Nat → World
  | 0 => w
  | k + 1 => (w.withSlots slot words k).setSlot false (slot + BitVec.ofNat 256 k) (words k)

/-- The world after the first elements of an array in memory were copied to storage. -/
abbrev World.withElements (w : World) (slot pointer : Word) : Nat → World :=
  w.withSlots slot (w.memory.element pointer)

abbrev World.zeroed (w : World) (slot : Word) : Nat → World :=
  w.withSlots slot fun _ => 0#256

namespace World

variable {w : World} {slot : Word} {words : Nat → Word} {k : Nat}

@[simp]
theorem memory_withSlots : (w.withSlots slot words k).memory = w.memory := by
  induction k with
  | zero => rfl
  | succ k ih => rw [withSlots, memory_setSlot, ih]

theorem storage_withSlots_of_ne (h : ∀ j < k, other ≠ slot + BitVec.ofNat 256 j) :
    (w.withSlots slot words k).storage other = w.storage other := by
  induction k with
  | zero => rfl
  | succ k ih =>
    rw [withSlots, storage_setSlot, if_neg (h k (Nat.lt_succ_self k))]
    exact ih fun j hj => h j (Nat.lt_succ_of_lt hj)

theorem storage_withSlots (hk : k ≤ 2 ^ 256) (hj : j < k) :
    (w.withSlots slot words k).storage (slot + BitVec.ofNat 256 j) = words j := by
  induction k with
  | zero => omega
  | succ k ih =>
    rw [withSlots, storage_setSlot]
    rcases Nat.lt_succ_iff_lt_or_eq.1 hj with hlt | rfl
    · rw [if_neg (Word.add_ofNat_ne slot (by omega) (by omega) (by omega)), ih (by omega) hlt]
    · rw [if_pos rfl]

end World

end Yul

/-! ## Slots of elements -/

section

variable {ctx : Context} {functions : String → Option Function} {target : Target} {n : Nat}

def Yul.World.hashed (w : World) (slot : Word) : World :=
  w.withMemory (w.memory.write 0 slot.toBytes)

variable {slot : Word}

theorem Yul.World.memory_hashed {w : World} (ha : 32 ≤ a) :
    (w.hashed slot).memory a = w.memory a := by
  rw [hashed, memory_withMemory, write_of_ge]
  rwa [Nat.zero_add]

def dataSlot (ctx : Context) (slot : Word) : Word :=
  ctx.keccak slot.toBytes

/-- A machine with the hash of contracts. -/
def Yul.Context.hashing : Context :=
  { (default : Context) with keccak := fun bytes => .ofBytes (keccak256 bytes) }

theorem dataSlot_five : dataSlot .hashing 5#256 =
    0x036b6384b5eca791c62761152d0c79bb0604c104a5fb6f4eb0703f3154bb3db0#256 := by decide +kernel

theorem apply_arrayDataSlot (ctx : Context) (h : Includes functions target (.fixed .arrayDataSlot))
    (slot : Word) (w : World) :
    (within ctx functions (n + 1)).apply arrayDataSlot.name [slot] w =
      .ok ([dataSlot ctx slot], w.hashed slot) := by
  refine h.returns rfl rfl ?_
  refine .cons (exec_mstore (yields_num (by decide)) (yields_ident.2 (by rfl))) ?_
  refine .cons (exec_assignOne (by rfl) (.keccak (context_within ..) (yields_num (by decide))
    (yields_num (by decide)) (has_write _ 0 slot.toBytes) rfl)) ?_
  exact .nil ⟨rfl, rfl⟩

theorem exec_checkBounds {m : Machine} (hindex : m.Yields σ index i) (hlength : m.Yields σ length l)
    (h : i.toNat < l.toNat) : m.exec (checkBounds index length) σ = .ok (.next, σ) := by
  have hcondition := (hindex.lt hlength).isZero
  rw [BitVec.ult, decide_eq_true h] at hcondition
  exact exec_ifThen_of_zero hcondition

theorem eval_elementSlot (ctx : Context) (h : Includes functions target (.fixed .arrayDataSlot))
    (hslot : (within ctx functions (n + 1)).Yields σ (ident "slot") slot)
    (hindex : (within ctx functions (n + 1)).Yields σ index i)
    (hspan : (within ctx functions (n + 1)).Yields σ (ident "span") span) :
    (within ctx functions (n + 1)).eval (elementSlot index) σ =
      .ok ([dataSlot ctx slot + i * span], ⟨σ.vars, σ.world.hashed slot⟩) := by
  set m := within ctx functions (n + 1)
  have hdata : m.eval (arrayDataSlot.call [ident "slot"]) σ =
      .ok ([dataSlot ctx slot], ⟨σ.vars, σ.world.hashed slot⟩) :=
    eval_call (.cons hslot .nil) (apply_arrayDataSlot _ h slot σ.world)
  have hadd : m.apply "add" [dataSlot ctx slot, i * span] (σ.world.hashed slot) =
      .ok ([dataSlot ctx slot + i * span], σ.world.hashed slot) :=
    apply_reading (rfl) rfl
  exact eval_call_first (τ := ⟨σ.vars, σ.world.hashed slot⟩) hdata (hindex.mul hspan) hadd

theorem apply_storageArrayIndex (ctx : Context)
    (h : Includes functions target (.fixed .storageArrayIndex)) {index span : Word} (w : World)
    (hindex : index.toNat < (w.storage slot).toNat) :
    (within ctx functions (n + 2)).apply storageArrayIndex.name
        [slot, index, span] w = .ok ([dataSlot ctx slot + index * span], w.hashed slot) := by
  refine h.returns rfl rfl ?_
  refine .cons (exec_checkBounds (yields_ident.2 (by rfl)) (yields_ident.2 (by rfl)).sload hindex) ?_
  refine .cons (exec_assignOne_eval (eval_elementSlot ctx (h.needed (by decide))
    (yields_ident.2 (by rfl)) (yields_ident.2 (by rfl)) (yields_ident.2 (by rfl))) (by rfl)) ?_
  exact .nil ⟨rfl, rfl⟩

/-! ## Copies to memory -/

structure Yul.Memory.HasArray (m : Memory) (pointer : Word) (count : Nat) (words : Nat → Word) :
    Prop where
  length : m.readWord pointer = BitVec.ofNat 256 count
  element : ∀ j < count, m.element pointer j = words j

/-- Memory has room for an array of a length behind what is in use. -/
def Yul.World.Room (w : World) (count : Nat) : Prop :=
  w.freeMemory.toNat + 32 + 32 * count ≤ 2 ^ 256

theorem Yul.Memory.hasArray_withWords (m : Memory) (storage : Word → Word) (slot : Word)
    (h : pointer.toNat + 32 + 32 * count ≤ 2 ^ 256) :
    ((m.write pointer.toNat (Word.toBytes (BitVec.ofNat 256 count))).withWords storage slot pointer
      count).HasArray pointer count fun j => storage (slot + BitVec.ofNat 256 j) where
  length := by
    rw [readWord_congr fun a _ ha => withWords_front h ha]
    exact readWord_write _ _
  element _ hj := element_withWords h hj

theorem apply_storageLoadWords (ctx : Context)
    (h : Includes functions target (.fixed .storageLoadWords)) (slot count : Word) (w : World)
    (hroom : w.Room count.toNat) (hlimit : count.toNat ≤ n) :
    ∃ memory, (within ctx functions (n + 2)).apply storageLoadWords.name
        [slot, count] w = .ok ([w.freeMemory], w.withMemory memory) ∧
      memory.HasArray w.freeMemory count.toNat fun j => w.storage (slot + BitVec.ofNat 256 j) := by
  have hcount : BitVec.ofNat 256 count.toNat = count := by simp
  set start := (w.memory.withFree (w.freeMemory + ((count * 32#256 + 32#256 + 31#256) &&&
    ~~~31#256))).write w.freeMemory.toNat count.toBytes
  refine ⟨start.withWords w.storage slot w.freeMemory count.toNat, h.returns rfl rfl ?_, ?_⟩
  · refine .cons (exec_assignOne_call (by rfl) (.cons (((yields_ident.2 (by rfl)).mul
      (yields_num (by decide))).add (yields_num (by decide))) .nil)
      (apply_allocateMemory _ (h.needed (by decide)) _ w)) ?_
    refine .cons (exec_mstore (yields_ident.2 (by rfl)) (yields_ident.2 (by rfl))) ?_
    refine .append (runs_countLoop
      (W := fun k => w.withMemory (start.withWords w.storage slot w.freeMemory k)) (i := id)
      (by rfl) ⟨rfl, fun _ => rfl⟩ count.isLt (fun k hk => ⟨hk.trans_lt count.isLt, .rfl⟩)
      (by rw [rounds_within]; omega)
      (fun k _ => yields_ident.2 (by rw [hcount]; rfl))
      (fun k _ => exec_mstore
        ((yields_ident.2 (by rfl)).wordAddress (yields_ident.2 (by rfl)))
        ((yields_ident.2 (by rfl)).add (yields_ident.2 (by rfl))).sload)) ?_
    exact .nil ⟨rfl, rfl⟩
  · have hwords := hasArray_withWords (w.memory.withFree (w.freeMemory +
      ((count * 32#256 + 32#256 + 31#256) &&& ~~~31#256))) w.storage slot hroom
    rwa [hcount] at hwords

/-- The elements of an array of any length are copied to new memory. -/
theorem apply_storageLoadArray (ctx : Context)
    (h : Includes functions target (.fixed .storageLoadArray)) (w : World)
    (hroom : w.Room (w.storage slot).toNat) (hlimit : (w.storage slot).toNat ≤ n) :
    ∃ memory, (within ctx functions (n + 3)).apply storageLoadArray.name
        [slot] w = .ok ([w.freeMemory], w.withMemory memory) ∧
      memory.HasArray w.freeMemory (w.storage slot).toNat
        fun j => w.storage (dataSlot ctx slot + BitVec.ofNat 256 j) := by
  obtain ⟨memory, happly, hwords⟩ := apply_storageLoadWords ctx
    (h.needed (by decide)) (dataSlot ctx slot) (w.storage slot)
    (w.hashed slot) (by rwa [World.Room]) hlimit
  refine ⟨memory, h.returns rfl rfl ?_, hwords⟩
  refine .cons (exec_assignOne_eval (eval_call_first (eval_call (.cons (yields_ident.2 (by rfl)) .nil)
    (apply_arrayDataSlot _ (h.needed (by decide)) slot w)) (yields_ident.2 (by rfl)).sload happly)
    (by rfl)) ?_
  exact .nil ⟨rfl, rfl⟩

/-! ## Copies to storage -/

/-- The loop that writes words to the slots from one on. -/
theorem runs_storeLoop {m : Machine} {vars : String → Option Word} {words : Nat → Word}
    (hbase : vars base = some slot) (hbound : vars bound = some count) (hfresh : vars "i" = none)
    (hlimit : count.toNat < m.rounds)
    (hvalue : ∀ k, m.Yields (.atRound vars "i" (w.withSlots slot words k) k) value (words k)) :
    m.Runs [Op.countLoop "i" (ident bound) 1 [Op.sstore (Op.add (ident base) (ident "i")) value]]
      ⟨vars, w⟩ ⟨vars, w.withSlots slot words count.toNat⟩ := by
  have hcount : BitVec.ofNat 256 count.toNat = count := by simp
  refine runs_countLoop (W := w.withSlots slot words) (i := id) hfresh ⟨rfl, fun _ => rfl⟩
    count.isLt (fun k hk => ⟨hk.trans_lt count.isLt, .rfl⟩) hlimit (fun k _ => ?_) fun k _ => ?_
  · rw [hcount]
    exact yields_atRound hfresh _ k hbound
  · exact Lowering.exec_store false ((yields_atRound hfresh _ k hbase).add yields_counter) (hvalue k)

theorem yields_element {m : Machine} {w : World} {vars : String → Option Word}
    (hpointer : vars "memPtr" = some pointer) (hfresh : vars "i" = none) (k : Nat) :
    m.Yields (.atRound vars "i" (w.withElements slot pointer k) k)
      (Op.mload (Op.wordAddress (ident "memPtr") (ident "i"))) (w.memory.element pointer k) := by
  have hload := ((yields_atRound (m := m) hfresh (w.withElements slot pointer k) k
    hpointer).wordAddress yields_counter).mload
  have hmemory : (Config.atRound vars "i" (w.withElements slot pointer k) k).world.memory =
      w.memory := World.memory_withSlots
  rwa [hmemory] at hload

theorem apply_storageStoreWords (ctx : Context)
    (h : Includes functions target (.fixed .storageStoreWords)) (slot pointer count : Word)
    (w : World) (hlimit : count.toNat < n) :
    (within ctx functions (n + 1)).apply storageStoreWords.name
      [slot, pointer, count] w = .ok ([], w.withElements slot pointer count.toNat) := by
  refine h.returns rfl rfl (.append (runs_storeLoop (by rfl) (by rfl) (by rfl)
    (by rwa [rounds_within]) (yields_element (by rfl) (by rfl))) ?_)
  exact .nil ⟨rfl, rfl⟩

/-- The world after an array in memory was copied to an array of any length in storage. -/
def Yul.World.withArray (ctx : Context) (w : World) (slot pointer : Word) : World :=
  ((w.setSlot false slot (w.memory.readWord pointer)).hashed slot).withElements (dataSlot ctx slot)
    pointer (w.memory.readWord pointer).toNat

/-- An array in memory is copied to an array of any length, with its length. -/
theorem apply_storageStoreArray (ctx : Context)
    (h : Includes functions target (.fixed .storageStoreArray)) (slot pointer : Word) (w : World)
    (hlimit : (w.memory.readWord pointer).toNat ≤ n) :
    (within ctx functions (n + 2)).apply storageStoreArray.name
      [slot, pointer] w = .ok ([], w.withArray ctx slot pointer) := by
  refine h.returns rfl rfl ?_
  refine .cons (exec_letOne (yields_ident.2 (by rfl)).mload) ?_
  refine .cons (Lowering.exec_store false (yields_ident.2 (by rfl)) (yields_ident.2 (by rfl))) ?_
  refine .cons (exec_letOne_call (.cons (yields_ident.2 (by rfl)) .nil)
    (apply_arrayDataSlot ctx (h.needed (by decide)) slot _)) ?_
  refine .append (runs_storeLoop (by rfl) (by rfl) (by rfl)
    (by rw [rounds_within]; exact Nat.lt_succ_of_le hlimit) (yields_element (by rfl) (by rfl))) ?_
  exact .nil ⟨rfl, rfl⟩

end

end ContractYul
