import ContractYul.Lowering.Word
import ContractYul.Proofs.Ty.WellFormed
import ContractYul.Proofs.Yul.Evaluation

/-!
# Access to the bytes of a slot

A value that is narrower than a word shares its slot with others. The code that reads it and the
code that writes it are followed here down to single bits.

Main statements:
* `yields_storageRead`, `exec_storageWrite`: what the code does, as functions of words;
* `field_setField_self`, `field_setField_apart`: the bytes of a field after a write to it, and after
  a write beside it;
* `storageWrite_lens`: what is written is read back, and nothing else changes.
-/

namespace ContractYul

open Yul Machine

/-- The words that stand for values of a type. Types that are no values have none, and neither have
function references, whose form no code relies on. -/
def Ty.CanonicalWord : Ty → Word → Prop
  | .uint bits, v => v.toNat < 2 ^ bits
  | .int bits, v => -(2 ^ (bits - 1) : Int) ≤ v.toInt ∧ v.toInt < 2 ^ (bits - 1)
  | .bool, v => v = 0#256 ∨ v = 1#256
  | .address, v | .contract _, v => v.toNat < 2 ^ 160
  | .fixedBytes n, v => v.toNat % 2 ^ (256 - 8 * n) = 0
  | _, _ => False

namespace Lowering

/-! ## Bytes of a word -/

def lowBytes (n : Nat) : Word :=
  BitVec.ofNat 256 (2 ^ (8 * n) - 1)

def field (word : Word) (offset size : Nat) : Word :=
  word >>> (8 * offset) &&& lowBytes size

def setField (word : Word) (offset size : Nat) (bytes : Word) : Word :=
  word &&& ~~~(lowBytes size <<< (8 * offset)) ||| (bytes &&& lowBytes size) <<< (8 * offset)

@[simp]
theorem getLsbD_lowBytes (n i : Nat) :
    (lowBytes n).getLsbD i = (decide (i < 256) && decide (i < 8 * n)) := by
  rw [lowBytes, BitVec.getLsbD_ofNat, Nat.testBit_two_pow_sub_one]

theorem getLsbD_field (word : Word) (offset size i : Nat) :
    (field word offset size).getLsbD i =
      (word.getLsbD (8 * offset + i) && (decide (i < 256) && decide (i < 8 * size))) := by
  simp [field]

variable {size offset n : Nat} {v : Word} {ty : Ty}

theorem getLsbD_setField (word bytes : Word) (hi : i < 256) :
    (setField word offset size bytes).getLsbD i =
      if 8 * offset ≤ i ∧ i < 8 * (offset + size) then bytes.getLsbD (i - 8 * offset)
      else word.getLsbD i := by
  have hshifted : i - 8 * offset < 256 := by omega
  have hwithin : i - 8 * offset < 8 * size ∧ 8 * offset ≤ i ↔
      8 * offset ≤ i ∧ i < 8 * (offset + size) := by omega
  by_cases hplace : 8 * offset ≤ i ∧ i < 8 * (offset + size)
  · obtain ⟨hin, hle⟩ := hwithin.2 hplace
    simp [setField, hi, hplace, hshifted, hin, Nat.not_lt.2 hle, -BitVec.getLsbD_eq_getElem]
  · rw [if_neg hplace]
    -- the bit lies above the place or below it
    rcases not_and_or.1 (mt hwithin.1 hplace) with hin | hle
    · simp [setField, hi, hin, -BitVec.getLsbD_eq_getElem]
    · simp [setField, hi, Nat.lt_of_not_le hle]

theorem field_setField_self (hfit : offset + size ≤ 32) (word bytes : Word) :
    field (setField word offset size bytes) offset size = bytes &&& lowBytes size := by
  apply BitVec.eq_of_getLsbD_eq
  intro i hi
  rw [getLsbD_field, BitVec.getLsbD_and, getLsbD_lowBytes]
  by_cases hin : i < 8 * size
  · rw [getLsbD_setField word bytes (by omega), if_pos (by omega), Nat.add_sub_cancel_left]
  · simp [hin]

theorem field_setField_apart (hfit : offset' + size' ≤ 32)
    (hapart : offset' + size' ≤ offset ∨ offset + size ≤ offset') (word bytes : Word) :
    field (setField word offset size bytes) offset' size' = field word offset' size' := by
  apply BitVec.eq_of_getLsbD_eq
  intro i hi
  rw [getLsbD_field, getLsbD_field]
  by_cases hin : i < 8 * size'
  · rw [getLsbD_setField word bytes (by omega), if_neg (by omega)]
  · simp [hin]

/-! ## Values as bytes -/

/-- The bytes, at the low end of a word, that stand for a value of a type. -/
def bytesOf (ty : Ty) (v : Word) : Word :=
  match ty with
  | .fixedBytes n => v >>> bitsBelow n
  | _ => v

def valueOf (ty : Ty) (size : Nat) (bytes : Word) : Word :=
  match ty with
  | .int _ => Word.signExtend (BitVec.ofNat 256 (size - 1)) bytes
  | .fixedBytes n => bytes <<< bitsBelow n
  | _ => bytes

/-- A word below the greatest number of some bytes is those bytes. -/
theorem and_lowBytes_of_lt (h : v.toNat < 2 ^ (8 * n)) : v &&& lowBytes n = v := by
  apply BitVec.eq_of_getLsbD_eq
  intro i hi
  by_cases hin : i < 8 * n
  · simp [hi, hin]
  · have hzero : v.getLsbD i = false := by
      rw [BitVec.getLsbD, Nat.testBit_eq_false_of_lt]
      exact Nat.lt_of_lt_of_le h (Nat.pow_le_pow_right (by decide) (by omega))
    simp [hzero]

theorem signExtend_setWidth (hpos : 0 < bits) (hbits : bits ≤ 256)
    (hlow : -(2 ^ (bits - 1) : Int) ≤ v.toInt) (hhigh : v.toInt < 2 ^ (bits - 1)) :
    (v.setWidth bits).signExtend 256 = v := by
  have hdvd : 2 ^ bits ∣ 2 ^ 256 := Nat.pow_dvd_pow 2 hbits
  have hhalf : (2 ^ bits : Int) = 2 * 2 ^ (bits - 1) := by
    rw [← pow_succ', Nat.sub_add_cancel hpos]
  apply BitVec.eq_of_toInt_eq
  rw [BitVec.toInt_signExtend_of_le hbits, BitVec.toInt_setWidth]
  calc (v.toNat : Int).bmod (2 ^ bits)
      = ((v.toNat : Int).bmod (2 ^ 256)).bmod (2 ^ bits) := (Int.bmod_bmod_of_dvd hdvd).symm
    _ = v.toInt.bmod (2 ^ bits) := by rw [BitVec.toInt_eq_toNat_bmod]
    _ = v.toInt := by
      apply Int.bmod_eq_of_le <;> push_cast <;> omega

theorem signExtend_lowBytes (hpos : 0 < n) (hn : n < 32) (hlow : -(2 ^ (8 * n - 1) : Int) ≤ v.toInt)
    (hhigh : v.toInt < 2 ^ (8 * n - 1)) :
    Word.signExtend (BitVec.ofNat 256 (n - 1)) (v &&& lowBytes n) = v := by
  have hindex : (BitVec.ofNat 256 (n - 1)).toNat = n - 1 := by
    exact Nat.mod_eq_of_lt (by omega)
  have hcut : (v &&& lowBytes n).setWidth (8 * n) = v.setWidth (8 * n) := by
    apply BitVec.eq_of_getLsbD_eq
    intro i hi
    simp [hi, show i < 256 by omega]
  rw [Word.signExtend, hindex, if_pos (by omega), Nat.sub_add_cancel hpos, hcut]
  exact signExtend_setWidth (by omega) (by omega) hlow hhigh

/-- A byte string moved to the low end, cut to its length and moved back is itself. -/
theorem shiftLeft_shiftRight_lowBytes (hn : n ≤ 32) (hv : v.toNat % 2 ^ bitsBelow n = 0) :
    (v >>> bitsBelow n &&& lowBytes n) <<< bitsBelow n = v := by
  have hsum : 2 ^ bitsBelow n * 2 ^ (8 * n) = 2 ^ 256 := by
    rw [← pow_add, bitsBelow, Nat.sub_add_cancel (by omega)]
  have hcut : (v >>> bitsBelow n).toNat < 2 ^ (8 * n) := by
    rw [BitVec.toNat_ushiftRight, Nat.shiftRight_eq_div_pow]
    exact Nat.div_lt_of_lt_mul (hsum ▸ v.isLt)
  rw [and_lowBytes_of_lt hcut]
  apply BitVec.eq_of_toNat_eq
  rw [BitVec.toNat_shiftLeft, BitVec.toNat_ushiftRight, Nat.shiftRight_eq_div_pow,
    Nat.shiftLeft_eq, Nat.div_mul_cancel (Nat.dvd_of_mod_eq_zero hv)]
  exact Nat.mod_eq_of_lt v.isLt

theorem valueOf_bytesOf (hty : ty.WellFormed) (hv : ty.CanonicalWord v)
    (hpacked : ty.byteSize < 32) :
    valueOf ty ty.byteSize (bytesOf ty v &&& lowBytes ty.byteSize) = v := by
  cases ty with
  | uint bits =>
    have hbits : 8 * (bits / 8) = bits := by have := hty.2.2; omega
    exact and_lowBytes_of_lt (hbits.symm ▸ hv)
  | int bits =>
    have hbits : 8 * (bits / 8) = bits := by have := hty.2.2; omega
    have hpos : 0 < bits / 8 := by have := hty.1; omega
    exact signExtend_lowBytes hpos hpacked (hbits.symm ▸ hv.1) (hbits.symm ▸ hv.2)
  | bool =>
    apply and_lowBytes_of_lt
    rcases hv with rfl | rfl <;> decide
  | address => exact and_lowBytes_of_lt hv
  | contract => exact and_lowBytes_of_lt hv
  | fixedBytes n => exact shiftLeft_shiftRight_lowBytes hty.2 hv
  | _ => exact hv.elim

/-! ## Reading and writing words -/

/-- The value that a place in a word has; a value of a word's size is the word. -/
def readWord (ty : Ty) (offset size : Nat) (word : Word) : Word :=
  if size ≥ 32 then word else valueOf ty size (field word offset size)

def writtenWord (ty : Ty) (offset size : Nat) (word v : Word) : Word :=
  if size ≥ 32 then v else setField word offset size (bytesOf ty v)

theorem readWord_writtenWord_self (hty : ty.WellFormed) (hv : ty.CanonicalWord v)
    (hfit : offset + ty.byteSize ≤ 32) (word : Word) :
    readWord ty offset ty.byteSize (writtenWord ty offset ty.byteSize word v) = v := by
  by_cases hwhole : ty.byteSize ≥ 32
  · simp [readWord, writtenWord, hwhole]
  · simp only [readWord, writtenWord, if_neg hwhole, field_setField_self hfit]
    exact valueOf_bytesOf hty hv (Nat.lt_of_not_le hwhole)

theorem readWord_writtenWord_apart (hpos : 0 < size) (hfit : offset + size ≤ 32) (hpos' : 0 < size')
    (hfit' : offset' + size' ≤ 32) (hapart : offset' + size' ≤ offset ∨ offset + size ≤ offset')
    (word v : Word) :
    readWord ty' offset' size' (writtenWord ty offset size word v) =
      readWord ty' offset' size' word := by
  -- Two places beside each other are both narrower than a word.
  have hpart : ¬ size ≥ 32 := by omega
  have hpart' : ¬ size' ≥ 32 := by omega
  simp only [readWord, writtenWord, if_neg hpart, if_neg hpart', field_setField_apart hfit' hapart]

/-! ## What the code does -/

section

variable {m : Machine} {σ : Config} {slot value : Yul.Expr} {place v : Word}

theorem yields_lowMask (hpos : 0 < n) (hn : n ≤ 32) : m.Yields σ (lowMask n) (lowBytes n) := by
  apply yields_numText (numberOf?_maskText hpos)
  have hpow : 2 ^ (8 * n) ≤ 2 ^ 256 := Nat.pow_le_pow_right (by decide) (by omega)
  omega

theorem yields_shiftRight (hbits : bits ≤ 256) (he : m.Yields σ e x) :
    m.Yields σ (shiftRight bits e) (x >>> bits) := by
  by_cases hzero : bits = 0
  · simpa [shiftRight, hzero] using he
  · simpa [shiftRight, hzero] using he.shr (by omega)

theorem yields_shiftLeft (hbits : bits ≤ 256) (he : m.Yields σ e x) :
    m.Yields σ (shiftLeft bits e) (x <<< bits) := by
  by_cases hzero : bits = 0
  · simpa [shiftLeft, hzero] using he
  · simpa [shiftLeft, hzero] using he.shl hbits

theorem yields_load (transient : Bool) (hslot : m.Yields σ slot place) :
    m.Yields σ (call (loadName transient) [slot]) (σ.world.slots transient place) := by
  cases transient with
  | false => exact .unary (f := fun w => w.storage) rfl hslot
  | true => exact .unary (f := fun w => w.transient) rfl hslot

theorem exec_store (transient : Bool) (hslot : m.Yields σ slot place)
    (hvalue : m.Yields σ value v) :
    m.exec (.run (storeName transient) [slot, value]) σ =
      .ok (.next, σ.withSlot transient place v) := by
  have happly : m.apply (storeName transient) [place, v] σ.world =
      .ok ([], σ.world.setSlot transient place v) := by
    cases transient <;> rfl
  simp only [Yields] at hslot hvalue
  simp [Stmt.run, exec, eval, evalArgs, hslot, hvalue, single, happly, Config.withSlot]

variable {size offset : Nat}

theorem yields_storageRead (ty : Ty) (transient : Bool) (hpos : 0 < size)
    (hfit : offset + size ≤ 32) (hslot : m.Yields σ slot place) :
    m.Yields σ (storageRead slot offset size ty transient)
      (readWord ty offset size (σ.world.slots transient place)) := by
  have hload := yields_load transient hslot
  unfold storageRead readWord
  by_cases hwhole : size ≥ 32
  · simpa [hwhole] using hload
  · have hraw : m.Yields σ
        (Op.both (shiftRight (8 * offset) (call (loadName transient) [slot])) (lowMask size))
        (field (σ.world.slots transient place) offset size) :=
      (yields_shiftRight (by omega) hload).both (yields_lowMask hpos (by omega))
    simp only [if_neg hwhole]
    cases ty with
    | int bits =>
      exact .binary (f := fun _ => Word.signExtend) rfl (yields_num (by omega)) hraw
    | fixedBytes n => exact hraw.shl (Nat.sub_le 256 (8 * n))
    | _ => exact hraw

theorem exec_storageWrite (ty : Ty) (transient : Bool) (hpos : 0 < size) (hfit : offset + size ≤ 32)
    (hslot : m.Yields σ slot place) (hvalue : m.Yields σ value v) :
    m.exec (storageWrite slot offset size ty transient value) σ =
      .ok (.next, σ.withSlot transient place
        (writtenWord ty offset size (σ.world.slots transient place) v)) := by
  unfold storageWrite writtenWord
  by_cases hwhole : size ≥ 32
  · simpa [hwhole] using exec_store transient hslot hvalue
  · simp only [if_neg hwhole]
    apply exec_store transient hslot
    -- the old word without the bytes of the place, and the value moved there
    have hmask : m.Yields σ (lowMask size) (lowBytes size) := yields_lowMask hpos (by omega)
    apply Yields.either
    · apply (yields_load transient hslot).both
      exact (yields_shiftLeft (by omega) hmask).complement
    · apply yields_shiftLeft (by omega)
      refine Yields.both ?_ hmask
      cases ty with
      | fixedBytes n => exact hvalue.shr (Nat.lt_of_le_of_lt (Nat.sub_le 256 (8 * n)) (by decide))
      | _ => exact hvalue

/-! ## The lens -/

theorem yields_storageRead_withSlot (ty : Ty) (transient : Bool) (hpos : 0 < size)
    (hfit : offset + size ≤ 32) (hslot : ∀ w, m.Yields { σ with world := w } slot place)
    (word : Word) :
    m.Yields (σ.withSlot transient place word) (storageRead slot offset size ty transient)
      (readWord ty offset size word) := by
  have hread := yields_storageRead ty transient hpos hfit
    (hslot (σ.world.setSlot transient place word))
  have hword := Config.slots_withSlot σ transient place word
  simp only [Config.withSlot] at hword ⊢
  rwa [hword] at hread

/-- Writing a field and reading it gives the value, in storage and in transient storage. Reading a
field at other bytes of the slot gives what it gave before, and nothing but the slot changes. The
slot is any expression whose value does not depend on the world. -/
theorem storageWrite_lens (ty : Ty) (transient : Bool) {offset size : Nat} (hty : ty.WellFormed)
    (hsize : size = ty.byteSize) (hfit : offset + size ≤ 32) (hv : ty.CanonicalWord v)
    (hslot : ∀ w, m.Yields { σ with world := w } slot place) (hvalue : m.Yields σ value v) :
    ∃ σ', m.exec (storageWrite slot offset size ty transient value) σ = .ok (.next, σ') ∧
      m.Yields σ' (storageRead slot offset size ty transient) v ∧
      (∀ ty' offset' size', 0 < size' → offset' + size' ≤ 32 →
        offset' + size' ≤ offset ∨ offset + size ≤ offset' →
        ∃ u, m.Yields σ (storageRead slot offset' size' ty' transient) u ∧
          m.Yields σ' (storageRead slot offset' size' ty' transient) u) ∧
      (∃ word, σ' = σ.withSlot transient place word) ∧
      ∀ kind other, (kind, other) ≠ (transient, place) →
        σ'.world.slots kind other = σ.world.slots kind other := by
  subst hsize
  have hpos : 0 < ty.byteSize := (Ty.byteSize_bounds hty).1
  refine ⟨_, exec_storageWrite ty transient hpos hfit (hslot σ.world) hvalue, ?_, ?_, ⟨_, rfl⟩, ?_⟩
  · have hread := yields_storageRead_withSlot ty transient hpos hfit hslot
      (writtenWord ty offset ty.byteSize (σ.world.slots transient place) v)
    rwa [readWord_writtenWord_self hty hv hfit] at hread
  · intro ty' offset' size' hpos' hfit' hapart
    refine ⟨_, yields_storageRead ty' transient hpos' hfit' (hslot σ.world), ?_⟩
    have hread := yields_storageRead_withSlot ty' transient hpos' hfit' hslot
      (writtenWord ty offset ty.byteSize (σ.world.slots transient place) v)
    rwa [readWord_writtenWord_apart hpos hfit hpos' hfit' hapart] at hread
  · intro kind other hne
    exact Config.slots_withSlot_of_ne hne

end

/-- A configuration with a variable `v` that holds `-2` and slots full of ones. -/
def crowded : Config where
  vars x := if x = "v" then some (BitVec.ofInt 256 (-2)) else none
  world := { (default : World) with storage := fun _ => BitVec.allOnes 256 }

/-- A negative number of two bytes is written between neighbours, which read as before. -/
theorem storageWrite_lens_crowded :
    Ty.CanonicalWord (.int 16) (BitVec.ofInt 256 (-2)) ∧
    ∃ σ', (default : Machine).exec
        (storageWrite (num 7) 3 2 (.int 16) false (ident "v")) crowded = .ok (.next, σ') ∧
      (default : Machine).Yields σ' (storageRead (num 7) 3 2 (.int 16) false)
        (BitVec.ofInt 256 (-2)) ∧
      ∃ u, (default : Machine).Yields crowded (storageRead (num 7) 1 2 (.uint 16) false) u ∧
        (default : Machine).Yields σ' (storageRead (num 7) 1 2 (.uint 16) false) u := by
  have hcanonical : Ty.CanonicalWord (.int 16) (BitVec.ofInt 256 (-2)) := by
    simp [Ty.CanonicalWord]
  have hfit : 3 + 2 ≤ 32 := by decide
  have hslot : ∀ w, (default : Machine).Yields { crowded with world := w } (num 7) 7#256 :=
    fun _ => Machine.yields_num (n := 7) (by decide)
  have hvalue : (default : Machine).Yields crowded (ident "v") (BitVec.ofInt 256 (-2)) := rfl
  obtain ⟨σ', hexec, hself, hbeside, -⟩ :=
    storageWrite_lens (.int 16) false ⟨by decide, by decide, rfl⟩ rfl hfit hcanonical hslot hvalue
  exact ⟨hcanonical, σ', hexec, hself, hbeside (.uint 16) 1 2 (by decide) (by decide) (by decide)⟩

end Lowering

end ContractYul
