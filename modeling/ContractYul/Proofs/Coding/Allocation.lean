import ContractYul.Proofs.Coding.Decoding
import ContractYul.Proofs.Routine.Growth

/-!
# Room for decoded objects

The routine that copies an object from call data to memory takes its length from call data as it is.
The number of bytes to allocate is computed with words and can wrap around, while the length that is
stored, and that later bounds checks rely on, does not. What the routine does is followed here for
every call data, and the lengths for which the object fits into what was allocated are told apart
from the others.

The routine that reads the results of a call leaves objects where they are, in the bytes that the
call gave back. Of these it only asks whether there are enough for the front part.

Main statements:
* `decoded_fits_iff`: the object lies below the new end of the memory in use if and only if no sum
  on the way to that end wraps around; elements of an object that fits lie inside it.
* `decoded_inside_iff`: a result lies inside the bytes that it was read from if and only if the
  distance in its front word and its length leave it there.
-/

namespace ContractYul.Coding

open Yul Machine FixedRoutine Memory

/-! ## The length and the new end -/

section

theorem readWord_decodedMemory_pointer (hroom : free.toNat + 32 < 2 ^ 256) (unit : Word) :
    (decodedMemory ctx m free head unit).readWord free = objectLength ctx head := by
  have hplace : (free + 32#256).toNat = free.toNat + 32 := BitVec.toNat_add_of_lt hroom
  unfold decodedMemory
  rw [readWord_congr fun a _ ha => write_of_lt (by rw [hplace]; exact ha)]
  exact readWord_write _ _

theorem readWord_decodedMemory_free (hlow : 96 ≤ free.toNat) (hroom : free.toNat + 32 < 2 ^ 256)
    (unit : Word) : (decodedMemory ctx m free head unit).readWord 64#256 =
      allocatedEnd free (objectLength ctx head * unit) := by
  have hplace : (free + 32#256).toNat = free.toNat + 32 := BitVec.toNat_add_of_lt hroom
  have hend : (64#256).toNat + 32 = 96 := rfl
  unfold decodedMemory
  rw [readWord_congr fun a _ ha => write_of_lt (by omega),
    readWord_congr fun a _ ha => write_of_lt (by omega)]
  exact @readWord_write 64#256 m _

/-- A number of bytes that is below the number of words is computed without wrapping around. -/
theorem toNat_mul_unit (length : Word) (hunit : unit < 2 ^ 256)
    (hsize : unit * length.toNat < 2 ^ 256) :
    (length * BitVec.ofNat 256 unit).toNat = unit * length.toNat := by
  rw [BitVec.toNat_mul, BitVec.toNat_ofNat, Nat.mod_eq_of_lt hunit, Nat.mul_comm,
    Nat.mod_eq_of_lt hsize]

end

/-! ## Objects that fit -/

/-- An object in memory, with elements of `unit` bytes, ends below the end of the memory in use. -/
def Fits (m : Memory) (pointer : Word) (unit : Nat) : Prop :=
  pointer.toNat + 32 + unit * (m.readWord pointer).toNat ≤ (m.readWord 64#256).toNat

theorem fits_decodedMemory_iff (hunit : unit < 2 ^ 256) (hlow : 96 ≤ free.toNat) :
    Fits (decodedMemory ctx m free head (BitVec.ofNat 256 unit)) free unit ↔
      free.toNat + roundUp (32 + unit * (objectLength ctx head).toNat) < 2 ^ 256 := by
  unfold Fits
  generalize hm' : decodedMemory ctx m free head (BitVec.ofNat 256 unit) = m'
  generalize hlength : objectLength ctx head = length
  have hround := le_roundUp (32 + unit * length.toNat)
  have hbelow := roundUp_le (32 + unit * length.toNat)
  have hpointer : free.toNat + 32 < 2 ^ 256 → m'.readWord free = length := by
    intro hroom
    rw [← hm', ← hlength]
    exact readWord_decodedMemory_pointer hroom _
  -- Both sides keep the object below the number of words, so that its size is exact. Then only the
  -- last sum can wrap around, to an end before the object.
  have hstop : free.toNat + 32 + unit * length.toNat < 2 ^ 256 → (m'.readWord 64#256).toNat =
      (free.toNat + roundUp (32 + unit * length.toNat)) % 2 ^ 256 := by
    intro hexact
    have hsize := toNat_mul_unit length hunit (by omega)
    rw [← hm', readWord_decodedMemory_free hlow (by omega), hlength,
      toNat_allocatedEnd (by omega), hsize]
  constructor
  · intro hfits
    rw [hpointer (by omega)] at hfits
    by_contra hwraps
    omega
  · intro hexact
    rw [hpointer (by omega), hstop (by omega)]
    omega

def elementRoutine (unit : Nat) : FixedRoutine :=
  if unit = 32 then .memoryArrayIndex else .memoryByteIndex

section

variable {functions : String → Option Function} {target : Target} {n : Nat} {w : World}
  {pointer index : Word}

/-- A routine that checks an index against the length of an object in memory and then computes an
address. -/
def indexing (name : String) (address : Expr) : Function :=
  ⟨name, ["memPtr", "index"], ["addr"],
    [checkBounds (ident "index") (Op.mload (ident "memPtr")),
     .assignOne "addr" address]⟩

/-- Such a routine lets an index pass if and only if it is below the stored length. -/
theorem apply_indexing (ctx : Context) {name : String} (h : Includes functions target r)
    (hr : r.definition? target = some (indexing name address))
    (hneeds : .panic outOfBoundsCode ∈ r.needs)
    (haddress : ∀ {M : Machine} {σ : Config}, M.Yields σ (ident "memPtr") pointer →
      M.Yields σ (ident "index") index → M.Yields σ address place) :
    (index.toNat < (w.memory.readWord pointer).toNat →
      (within ctx functions (n + 2)).apply r.name [pointer, index] w = .ok ([place], w)) ∧
    ((w.memory.readWord pointer).toNat ≤ index.toNat →
      Panics outOfBoundsCode w
        ((within ctx functions (n + 2)).apply r.name [pointer, index] w)) := by
  set M := within ctx functions (n + 1)
  set σ := entry (indexing name address) [pointer, index] w
  have hpointer : M.Yields σ (ident "memPtr") pointer := yields_ident.2 (by rfl)
  have hindex : M.Yields σ (ident "index") index := yields_ident.2 (by rfl)
  constructor
  · intro hlt
    refine h.returns hr rfl (.cons (exec_checkBounds hindex hpointer.mload hlt) ?_)
    exact .cons (exec_assignOne (by rfl) (haddress hpointer hindex)) (.nil ⟨rfl, rfl⟩)
  · intro hge
    exact h.panics hr rfl (panics_execAll_cons
      (panics_checkBounds ctx (h.needed hneeds) hindex hpointer.mload hge) _)

def elementAddress (unit : Nat) (pointer index : Word) : Word :=
  pointer + 32#256 + index * BitVec.ofNat 256 unit

theorem apply_elementRoutine (ctx : Context) {unit : Nat} (hunit : unit = 1 ∨ unit = 32)
    (h : Includes functions target (.fixed (elementRoutine unit))) (n : Nat) (pointer index : Word) :
    (index.toNat < (w.memory.readWord pointer).toNat →
      (within ctx functions (n + 2)).apply (elementRoutine unit).name [pointer, index] w =
        .ok ([elementAddress unit pointer index], w)) ∧
    ((w.memory.readWord pointer).toNat ≤ index.toNat →
      Panics outOfBoundsCode w ((within ctx functions (n + 2)).apply
        (elementRoutine unit).name [pointer, index] w)) := by
  rcases hunit with rfl | rfl
  · refine apply_indexing ctx h rfl (by decide) fun hpointer hindex => ?_
    have hsum := hpointer.dataOf.add hindex
    rwa [← BitVec.mul_one (x := index)] at hsum
  · exact apply_indexing ctx h rfl (by decide) fun hpointer hindex => hpointer.wordAddress hindex

theorem elementAddress_inside (hunit : 0 < unit ∧ unit < 2 ^ 256) (hfits : Fits m pointer unit)
    (hindex : index.toNat < (m.readWord pointer).toNat) :
    pointer.toNat + 32 ≤ (elementAddress unit pointer index).toNat ∧
      (elementAddress unit pointer index).toNat + unit ≤ (m.readWord 64#256).toNat := by
  have hstep : unit * index.toNat + unit ≤ unit * (m.readWord pointer).toNat := by
    exact Nat.mul_le_mul_left _ hindex
  unfold Fits at hfits
  have hstart : (pointer + 32#256).toNat = pointer.toNat + 32 := Word.toNat_add_ofNat (by omega)
  have hoffset := toNat_mul_unit index hunit.2 (by omega)
  have hplace : (elementAddress unit pointer index).toNat =
      pointer.toNat + 32 + unit * index.toNat := by
    rw [elementAddress, BitVec.toNat_add_of_lt (by omega), hstart, hoffset]
  omega

/-- Decoding an object from call data ends for every call data, and hands out memory from the end of
what is in use. The object, with the length that call data gives for it, ends below the new end of
the memory in use if and only if the end computed for it, without wrapping around, is a word: the
length is not checked before it is multiplied. When the object fits, an index that the bounds check
of its elements lets pass leads to an element inside it. The memory in use is expected to end above
the words that have fixed addresses. -/
theorem decoded_fits_iff (ctx : Context) {unit : Nat} (hunit : unit = 1 ∨ unit = 32)
    (hdecode : Includes functions target (.fixed .abiDecodeCalldataDynamic))
    (helement : Includes functions target (.fixed (elementRoutine unit))) (w : World)
    (hlow : 96 ≤ w.freeMemory.toNat) (head : Word) (n : Nat) :
    ∃ w', (Machine.within ctx functions (n + 2)).apply FixedRoutine.abiDecodeCalldataDynamic.name
        [head, BitVec.ofNat 256 unit] w = .ok ([w.freeMemory], w') ∧
      (Fits w'.memory w.freeMemory unit ↔
        w.freeMemory.toNat + roundUp (32 + unit * (objectLength ctx head).toNat) < 2 ^ 256) ∧
      (Fits w'.memory w.freeMemory unit → ∀ index place w'',
        (Machine.within ctx functions (n + 2)).apply (elementRoutine unit).name
          [w.freeMemory, index] w' = .ok ([place], w'') →
        w.freeMemory.toNat + 32 ≤ place.toNat ∧ place.toNat + unit ≤ w'.freeMemory.toNat) := by
  have hbounds : 0 < unit ∧ unit < 2 ^ 256 := by rcases hunit with rfl | rfl <;> decide
  refine ⟨_, apply_decodeCalldata ctx hdecode head _ w, fits_decodedMemory_iff hbounds.2 hlow, ?_⟩
  intro hfits index place w'' happly
  obtain ⟨hpass, hstop⟩ := apply_elementRoutine ctx hunit helement n w.freeMemory index
  rcases Nat.lt_or_ge index.toNat _ with hlt | hge
  · obtain ⟨hplace, -⟩ := Prod.mk.inj (Except.ok.inj ((hpass hlt).symm.trans happly))
    obtain rfl := (List.cons.inj hplace).1
    exact elementAddress_inside hbounds hfits hlt
  · obtain ⟨_, hpanic⟩ := hstop hge
    rw [hpanic] at happly
    cases happly

end

/-- The functions of a contract that decodes arrays and reads their elements. -/
def decoders : String → Option Function :=
  tableOf .cancun [.fixed .abiDecodeCalldataDynamic, .fixed .allocateMemory,
    .fixed .memoryArrayIndex, .panic outOfBoundsCode]

theorem includes_decoders {r : Routine}
    (hr : r = .fixed .abiDecodeCalldataDynamic ∨ r = .fixed .memoryArrayIndex) :
    Includes decoders .cancun r := by
  refine includes_tableOf (by decide) ?_ .cancun
  rcases hr with rfl | rfl <;> decide

def arrayCall (length : Word) (elements : List Word) : Context :=
  { (default : Context) with
    callData := [0, 0, 0, 0] ++ Word.toBytes 32#256 ++ length.toBytes ++
      elements.flatMap Word.toBytes }

/-- A world in which the memory in use ends where it does when a call starts. -/
def started : World :=
  (default : World).withMemory ((default : World).memory.withFree 128#256)

theorem freeMemory_started : started.freeMemory = 128#256 :=
  @readWord_write 64#256 _ 128#256

/-- An array of two elements that comes with both of them fits. -/
theorem decoded_fits_iff_pair : 96 ≤ started.freeMemory.toNat ∧
    ∃ w', (Machine.within (arrayCall 2#256 [7#256, 9#256]) decoders 2).apply
        FixedRoutine.abiDecodeCalldataDynamic.name [4#256, 32#256] started =
          .ok ([128#256], w') ∧ Fits w'.memory 128#256 32 := by
  have hlow : 96 ≤ started.freeMemory.toNat := by
    rw [freeMemory_started]
    decide
  obtain ⟨w', happly, hiff, -⟩ := decoded_fits_iff (arrayCall 2#256 [7#256, 9#256]) (.inr rfl)
    (includes_decoders (.inl rfl)) (includes_decoders (.inr rfl)) started hlow 4#256 0
  rw [freeMemory_started] at happly hiff
  exact ⟨hlow, w', happly, hiff.2 (by decide +kernel)⟩

/-- An array that claims to have `2 ^ 251` elements is taken for one: room for its length only is
handed out, and the element behind that passes the bounds check. -/
theorem oversized_array_decoded : 96 ≤ started.freeMemory.toNat ∧
    ∃ w', (Machine.within (arrayCall (BitVec.ofNat 256 (2 ^ 251)) []) decoders 2).apply
        FixedRoutine.abiDecodeCalldataDynamic.name [4#256, 32#256] started = .ok ([128#256], w') ∧
      w'.freeMemory = 160#256 ∧ ¬ Fits w'.memory 128#256 32 ∧
      (Machine.within (arrayCall (BitVec.ofNat 256 (2 ^ 251)) []) decoders 2).apply
        FixedRoutine.memoryArrayIndex.name [128#256, 1#256] w' = .ok ([192#256], w') := by
  set ctx := arrayCall (BitVec.ofNat 256 (2 ^ 251)) []
  have hlength : objectLength ctx 4#256 = BitVec.ofNat 256 (2 ^ 251) := by decide +kernel
  have happly := apply_decodeCalldata ctx (n := 0) (includes_decoders (.inl rfl)) 4#256 32#256 started
  rw [freeMemory_started] at happly
  have hpointer : (decodedMemory ctx started.memory 128#256 4#256 32#256).readWord 128#256 =
      objectLength ctx 4#256 := readWord_decodedMemory_pointer (by decide) 32#256
  refine ⟨by decide +kernel, _, happly, ?_, ?_, ?_⟩
  · have hfree : (decodedMemory ctx started.memory 128#256 4#256 32#256).readWord 64#256 =
        allocatedEnd 128#256 (objectLength ctx 4#256 * 32#256) :=
      readWord_decodedMemory_free (by decide) (by decide) 32#256
    rw [hlength] at hfree
    exact hfree
  · intro hfits
    have hend : (128#256).toNat + roundUp (32 + 32 * (objectLength ctx 4#256).toNat) < 2 ^ 256 :=
      (fits_decodedMemory_iff (by decide) (by decide)).1 hfits
    rw [hlength] at hend
    exact absurd hend (by decide +kernel)
  · refine (apply_elementRoutine ctx (.inr rfl) (includes_decoders (.inr rfl)) 0 _ _).1 ?_
    rw [World.memory_withMemory, hpointer, hlength]
    decide +kernel

/-! ## Results inside of the bytes they are read from -/

/-- An object with items of `unit` bytes lies in the content of the object at `data`. -/
def Inside (m : Memory) (data p : Word) (unit : Nat) : Prop :=
  data.toNat + 32 ≤ p.toNat ∧
    p.toNat + 32 + (m.readWord p).toNat * unit ≤ data.toNat + 32 + (m.readWord data).toNat

/-- A place at some distance from the content lies in it if the sum does not wrap around and the
object ends where the content does, or before. -/
theorem inside_iff (hp : p = data + 32#256 + distance) : Inside m data p unit ↔
      data.toNat + 32 + distance.toNat < 2 ^ 256 ∧
        distance.toNat + 32 + (m.readWord p).toNat * unit ≤ (m.readWord data).toNat := by
  have hplace : p.toNat = (data.toNat + 32 + distance.toNat) % 2 ^ 256 := by
    rw [hp, BitVec.toNat_add, BitVec.toNat_add, Nat.mod_add_mod]
    rfl
  unfold Inside
  rcases Nat.lt_or_ge (data.toNat + 32 + distance.toNat) (2 ^ 256) with hlt | hge
  · omega
  · -- a sum that wraps around leads to a place before the content
    have hdata : data.toNat < 2 ^ 256 := data.isLt
    omega

/-- The results of a call are decoded from every object with enough bytes for their front part, and
the call is reverted for every other. Nothing is asked of the bytes: a result that is an object is at
the distance that its front word gives, and lies inside if and only if this distance and the length
that is found there leave it inside, with no sum that wraps around. -/
theorem decoded_inside_iff (ctx : Context) {functions : String → Option Function} {target : Target}
    {arity : Nat} (h : Includes functions target (.family .abiDecode arity))
    (harity : 32 * arity < 2 ^ 256) (data s : Word) (w : World) (n : Nat) :
    ((w.memory.readWord data).toNat < 32 * arity →
      (Machine.within ctx functions (n + 1)).apply (RoutineFamily.abiDecode.name arity) [data, s] w =
        .error (.halted (.revert []) w)) ∧
    (32 * arity ≤ (w.memory.readWord data).toNat → ∃ us,
      (Machine.within ctx functions (n + 1)).apply (RoutineFamily.abiDecode.name arity) [data, s] w =
        .ok (us, w) ∧ us.length = arity ∧
      ∀ i < arity, ∀ code, code = s.toNat / 4 ^ i % 4 → code ≠ 0 → ∀ distance p,
        distance = frontWord w.memory (data + 32#256) i → p = data + 32#256 + distance →
        us[i]? = some p ∧ (Inside w.memory data p (Datum.unit code) ↔
          data.toNat + 32 + distance.toNat < 2 ^ 256 ∧ distance.toNat + 32 +
            (w.memory.readWord p).toNat * Datum.unit code ≤ (w.memory.readWord data).toNat)) := by
  have happly := apply_abiDecode_eq (n := n) ctx h harity data s w
  refine ⟨fun hlt => by rwa [if_pos hlt] at happly, fun hge => ?_⟩
  rw [if_neg (Nat.not_lt.2 hge)] at happly
  refine ⟨_, happly, by simp, ?_⟩
  rintro i hi code rfl hcode distance p rfl rfl
  refine ⟨?_, inside_iff rfl⟩
  rw [List.getElem?_map, List.getElem?_range hi]
  exact congrArg some (if_neg hcode)

def resultReader : String → Option Function :=
  tableOf .cancun [.family .abiDecode 1]

theorem includes_resultReader : Includes resultReader .cancun (.family .abiDecode 1) :=
  includes_tableOf (by decide) (by decide) .cancun

def holding (words : List Word) : World :=
  (default : World).withMemory ((default : World).memory.write 128 (words.flatMap Word.toBytes))

/-- A byte string behind its front word lies inside. -/
theorem decoded_inside_iff_adjacent : ∃ us,
    (Machine.within default resultReader 1).apply (RoutineFamily.abiDecode.name 1) [128#256, 1#256]
      (holding [96#256, 32#256, 5#256, 0#256]) =
        .ok (us, holding [96#256, 32#256, 5#256, 0#256]) ∧ us[0]? = some 192#256 ∧
      Inside (holding [96#256, 32#256, 5#256, 0#256]).memory 128#256 192#256 1 := by
  obtain ⟨us, happly, -, hplaces⟩ := (decoded_inside_iff default includes_resultReader (by decide)
    128#256 1#256 (holding [96#256, 32#256, 5#256, 0#256]) 0).2 (by decide +kernel)
  obtain ⟨hplace, hiff⟩ := hplaces 0 (by decide) 1 (by decide) (by decide) 32#256 192#256
    (by decide +kernel) (by decide)
  exact ⟨us, happly, hplace, hiff.2 (by decide +kernel)⟩

/-- A front word that is almost the number of words leads to a place before the bytes, to the word
with the end of the memory in use. -/
theorem decoded_before_object :
    (Machine.within default resultReader 1).apply (RoutineFamily.abiDecode.name 1) [128#256, 1#256]
      (holding [32#256, -96#256]) = .ok ([64#256], holding [32#256, -96#256]) ∧
    ¬ Inside (holding [32#256, -96#256]).memory 128#256 64#256 1 := by
  have happly := apply_abiDecode_eq (n := 0) default includes_resultReader (by decide) 128#256
    1#256 (holding [32#256, -96#256])
  rw [if_neg (by decide +kernel)] at happly
  have hword : (List.range 1).map (decodedWord (holding [32#256, -96#256]).memory
      (128#256 + 32#256) 1#256) = [64#256] := by decide +kernel
  rw [hword] at happly
  exact ⟨happly, fun hinside => absurd hinside.1 (by decide)⟩

end ContractYul.Coding
