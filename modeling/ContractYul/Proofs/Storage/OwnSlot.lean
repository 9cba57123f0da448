import ContractYul.Proofs.Storage.PackedAccess

/-!
# Values in slots of their own

An element of an array, an entry of a mapping and a member of a struct have a slot of their own, in
which they still stand in their bytes. What is copied between storage and memory are whole words. Here
is when the word of the slot is the value.

Main statements:
* `writtenWord_eq_iff`: after a write of the value to its bytes;
* `readWord_eq_iff`: before a read from the bytes;
* `writtenWord_of_storedAsIs`: always, for types whose words are stored as they are.
-/

namespace ContractYul

open Yul

def Ty.IsShortBytes : Ty → Prop
  | .fixedBytes n => n < 32
  | _ => False

/-- Types whose words are the same in a slot of their own as in memory. -/
def Ty.StoredAsIs : Ty → Prop
  | .uint _ | .bool | .address | .contract _ => True
  | .int bits => bits = 256
  | .fixedBytes n => n = 32
  | _ => False

namespace Lowering

/-! ## Bits -/

/-- A word that is zero at its low end and repeats itself above it is zero. -/
theorem eq_zero_of_repeats {v : Word} (hd : 0 < d) (hlow : ∀ i < d, v.getLsbD i = false)
    (hrepeats : ∀ i, i + d < 256 → v.getLsbD (i + d) = v.getLsbD i) : v = 0#256 := by
  have hbits : ∀ i < 256, v.getLsbD i = false := by
    intro i
    induction i using Nat.strong_induction_on with
    | _ i ih =>
      intro hi
      rcases Nat.lt_or_ge i d with hlt | hge
      · exact hlow i hlt
      · have hstep := hrepeats (i - d) (by omega)
        rw [Nat.sub_add_cancel hge] at hstep
        rw [hstep, ih (i - d) (by omega) (by omega)]
  apply BitVec.eq_of_getLsbD_eq
  intro i hi
  rw [hbits i hi, BitVec.getLsbD_zero]

theorem getLsbD_eq_false_of_mod {v : Word} (h : v.toNat % 2 ^ d = 0) (hi : i < d) :
    v.getLsbD i = false := by
  have hbit : (v.toNat % 2 ^ d).testBit i = false := by rw [h, Nat.zero_testBit]
  rwa [Nat.testBit_mod_two_pow, decide_eq_true hi] at hbit

theorem ushiftRight_eq_iff {u v : Word} :
    u >>> d = v >>> d ↔ ∀ i, d ≤ i → i < 256 → u.getLsbD i = v.getLsbD i := by
  constructor
  · intro h i hd hi
    have hbit := congrArg (·.getLsbD (i - d)) h
    simpa [Nat.add_sub_cancel' hd] using hbit
  · intro h
    apply BitVec.eq_of_getLsbD_eq
    intro i _
    rw [BitVec.getLsbD_ushiftRight, BitVec.getLsbD_ushiftRight]
    rcases Nat.lt_or_ge (d + i) 256 with hlt | hge
    · exact h _ (Nat.le_add_right d i) hlt
    · rw [BitVec.getLsbD_of_ge _ _ hge, BitVec.getLsbD_of_ge _ _ hge]

/-! ## Values in slots of their own -/

variable {ty : Ty} {old v : Word}

theorem setField_eq_iff (hsize : size ≤ 32) :
    setField old 0 size bytes = v ↔
      old >>> (8 * size) = v >>> (8 * size) ∧ ∀ i < 8 * size, bytes.getLsbD i = v.getLsbD i := by
  have hbit : ∀ i < 256, (setField old 0 size bytes).getLsbD i =
      if i < 8 * size then bytes.getLsbD i else old.getLsbD i := fun i hi => by
    rw [getLsbD_setField _ _ hi]
    simp
  rw [ushiftRight_eq_iff]
  constructor
  · rintro rfl
    refine ⟨fun i hle hi => ?_, fun i hi => ?_⟩
    · rw [hbit i hi, if_neg (by omega)]
    · rw [hbit i (by omega), if_pos hi]
  · rintro ⟨habove, hbelow⟩
    apply BitVec.eq_of_getLsbD_eq
    intro i hi
    rw [hbit i hi]
    split
    · exact hbelow i ‹_›
    · exact habove i (by omega) hi

/-- The bytes of a value are the low end of its word, but for short byte strings. -/
theorem bytesOf_bits_iff (hv : ty.CanonicalWord v) (hpacked : ty.byteSize < 32) :
    (∀ i < 8 * ty.byteSize, (bytesOf ty v).getLsbD i = v.getLsbD i) ↔
      (ty.IsShortBytes → v = 0#256) := by
  cases ty with
  | fixedBytes n =>
    have hn : n < 32 := hpacked
    have hd : bitsBelow n + 8 * n = 256 := by unfold bitsBelow; omega
    constructor
    · intro h _
      refine eq_zero_of_repeats (d := bitsBelow n) (by omega)
        (fun i hi => getLsbD_eq_false_of_mod hv hi) fun i hi => ?_
      have hbit := h i (show i < 8 * n by omega)
      rw [← hbit, bytesOf, BitVec.getLsbD_ushiftRight, Nat.add_comm]
    · intro h i _
      rw [h hn]
      simp [bytesOf]
  | _ => simp [bytesOf, Ty.IsShortBytes]

theorem not_isShortBytes (h : ty.byteSize ≥ 32) : ¬ ty.IsShortBytes := by
  cases ty with
  | fixedBytes n => exact Nat.not_lt.2 h
  | _ => exact id

/-- A value that is written to a slot of its own is the word of the slot just when the bytes above it
were those of its word and it is no byte string shorter than a word, unless it is zero. -/
theorem writtenWord_eq_iff (hv : ty.CanonicalWord v) (hsize : ty.byteSize ≤ 32) :
    writtenWord ty 0 ty.byteSize old v = v ↔
      old >>> (8 * ty.byteSize) = v >>> (8 * ty.byteSize) ∧ (ty.IsShortBytes → v = 0#256) := by
  unfold writtenWord
  by_cases hwhole : ty.byteSize ≥ 32
  · have hzero : ∀ u : Word, u >>> (8 * ty.byteSize) = 0#256 := fun u =>
      BitVec.ushiftRight_eq_zero (by omega)
    simp [hwhole, not_isShortBytes hwhole, hzero]
  · rw [if_neg hwhole, setField_eq_iff hsize, bytesOf_bits_iff hv (by omega)]

/-- The value that stands in the bytes of a word is the word, but for short byte strings. -/
theorem readWord_eq_iff (hty : ty.WellFormed) (hv : ty.CanonicalWord v) :
    readWord ty 0 ty.byteSize v = v ↔ (ty.IsShortBytes → v = 0#256) := by
  unfold readWord
  by_cases hwhole : ty.byteSize ≥ 32
  · simp [hwhole, not_isShortBytes hwhole]
  · rw [if_neg hwhole]
    have hfield : field v 0 ty.byteSize = v &&& lowBytes ty.byteSize := by simp [field]
    cases ty with
    | fixedBytes n =>
      have hn : n < 32 := Nat.lt_of_not_ge hwhole
      have hd : bitsBelow n + 8 * n = 256 := by
        unfold bitsBelow
        omega
      constructor
      · intro h _
        refine eq_zero_of_repeats (d := bitsBelow n) (by omega)
          (fun i hi => getLsbD_eq_false_of_mod hv hi) fun i hi => ?_
        have hbit := congrArg (·.getLsbD (i + bitsBelow n)) h
        simp only [valueOf, BitVec.getLsbD_shiftLeft, getLsbD_field] at hbit
        rw [← hbit]
        simp [Ty.byteSize, hi, show i < 256 by omega, show i < 8 * n by omega]
      · intro h
        rw [h hn]
        simp [valueOf, field]
    | _ =>
      have hvalue := valueOf_bytesOf hty hv (Nat.lt_of_not_ge hwhole)
      rw [hfield]
      simpa [Ty.IsShortBytes, bytesOf] using hvalue
/-- Nothing stands above a value of such a type in its word. -/
theorem ushiftRight_of_storedAsIs (hty : ty.WellFormed) (hraw : ty.StoredAsIs)
    (hv : ty.CanonicalWord v) : v >>> (8 * ty.byteSize) = 0#256 := by
  have hzero : v.toNat < 2 ^ (8 * ty.byteSize) → v >>> (8 * ty.byteSize) = 0#256 := fun h => by
    apply BitVec.eq_of_toNat_eq
    rw [BitVec.toNat_ushiftRight, Nat.shiftRight_eq_div_pow, Nat.div_eq_of_lt h]
    rfl
  apply hzero
  cases ty with
  | uint bits =>
    have hbits : 8 * (bits / 8) = bits := by have := hty.2.2; omega
    exact hbits.symm ▸ hv
  | int bits =>
    obtain rfl : bits = 256 := hraw
    exact v.isLt
  | bool => rcases hv with rfl | rfl <;> decide
  | address => exact hv
  | contract => exact hv
  | fixedBytes n =>
    obtain rfl : n = 32 := hraw
    exact v.isLt
  | _ => exact hraw.elim

theorem not_isShortBytes_of_storedAsIs (hraw : ty.StoredAsIs) : ¬ ty.IsShortBytes := by
  cases ty with
  | fixedBytes n =>
    obtain rfl : n = 32 := hraw
    exact Nat.lt_irrefl 32
  | _ => exact id

/-- Words of such a type are written as they are over words of the type. -/
theorem writtenWord_of_storedAsIs (hty : ty.WellFormed) (hraw : ty.StoredAsIs)
    (hold : ty.CanonicalWord old) (hv : ty.CanonicalWord v) :
    writtenWord ty 0 ty.byteSize old v = v := by
  refine (writtenWord_eq_iff hv (Ty.byteSize_bounds hty).2).2
    ⟨?_, fun h => absurd h (not_isShortBytes_of_storedAsIs hraw)⟩
  rw [ushiftRight_of_storedAsIs hty hraw hold, ushiftRight_of_storedAsIs hty hraw hv]

end Lowering

end ContractYul
