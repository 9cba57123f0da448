import ContractYul.Proofs.Yul.Machine
import Mathlib

/-!
# Bytes in memory

Words as bytes, and memory that has given bytes at an address. Memory has a list of bytes when it has
its parts one behind the other, and goes on having it while nothing is written there. Call data and
return data are lists of bytes, parts of which are taken out by position.
-/

open List

namespace ContractYul.Yul

/-! ## Numbers as bytes -/

/-- The number that bytes stand for, the first at its high end. -/
def bigEndian (bytes : List UInt8) : Nat :=
  bytes.foldl (fun n b => n * 256 + b.toNat) 0

theorem bigEndian_concat (bytes : List UInt8) (b : UInt8) :
    bigEndian (bytes ++ [b]) = bigEndian bytes * 256 + b.toNat := by
  simp [bigEndian]

theorem bigEndian_append (bytes more : List UInt8) :
    bigEndian (bytes ++ more) = bigEndian bytes * 256 ^ more.length + bigEndian more := by
  induction more using reverseRecOn with
  | nil => simp [bigEndian]
  | append_singleton more b ih =>
    rw [← append_assoc, bigEndian_concat, ih, bigEndian_concat, length_append, length_singleton]
    ring

theorem bigEndian_lt (bytes : List UInt8) : bigEndian bytes < 256 ^ bytes.length := by
  induction bytes using reverseRecOn with
  | nil => decide
  | append_singleton bytes b ih =>
    have hb : b.toNat < 256 := b.toNat_lt
    rw [bigEndian_concat, length_append, length_singleton]
    omega

variable {bytes data : List UInt8} {start : Nat}

theorem bigEndian_injective (hlength : bytes.length = more.length)
    (h : bigEndian bytes = bigEndian more) : bytes = more := by
  induction bytes using reverseRecOn generalizing more with
  | nil => exact (length_eq_zero_iff.1 hlength.symm).symm
  | append_singleton bytes b ih =>
    obtain rfl | ⟨more, c, rfl⟩ := eq_nil_or_concat' more
    · simp at hlength
    have hb : b.toNat < 256 := b.toNat_lt
    have hc : c.toNat < 256 := c.toNat_lt
    rw [bigEndian_concat, bigEndian_concat] at h
    have hbytes : bytes = more := ih (by simpa using hlength) (by omega)
    have hlast : b = c := UInt8.toNat_inj.1 (by omega)
    rw [hbytes, hlast]

/-! ## Words as bytes -/

namespace Word

@[simp]
theorem length_toBytes (w : Word) : w.toBytes.length = 32 := by
  simp [toBytes]

/-- The first bytes of a word stand for its high end. -/
theorem foldl_toBytes (w : Word) (hk : k ≤ 32) :
    (((range k).map fun i => UInt8.ofNat (BitVec.ushiftRight w (8 * (31 - i))).toNat).foldl
      (fun n b => n * 256 + b.toNat) 0) = w.toNat / 2 ^ (8 * (32 - k)) := by
  induction k with
  | zero =>
    have hzero : w.toNat / 2 ^ 256 = 0 := Nat.div_eq_of_lt w.isLt
    simpa using hzero.symm
  | succ k ih =>
    have hshift : 8 * (32 - k) = 8 * (31 - k) + 8 := by omega
    have hrest : 8 * (32 - (k + 1)) = 8 * (31 - k) := by omega
    have hbyte : (UInt8.ofNat (BitVec.ushiftRight w (8 * (31 - k))).toNat).toNat =
        w.toNat / 2 ^ (8 * (31 - k)) % 256 := by
      show (UInt8.ofNat (w >>> (8 * (31 - k))).toNat).toNat = _
      rw [UInt8.toNat_ofNat', BitVec.toNat_ushiftRight, Nat.shiftRight_eq_div_pow]
    rw [range_succ, map_append, foldl_append, ih (by omega), map_singleton,
      foldl_cons, hbyte, hrest, hshift, pow_add, ← Nat.div_div_eq_div_mul]
    exact Nat.div_add_mod' _ _

@[simp]
theorem ofBytes_toBytes (w : Word) : Word.ofBytes w.toBytes = w := by
  apply BitVec.eq_of_toNat_eq
  have hvalue := foldl_toBytes w (Nat.le_refl 32)
  rw [ofBytes, toBytes, hvalue, BitVec.toNat_ofNat]
  simpa using Nat.mod_eq_of_lt w.isLt

theorem toNat_ofBytes (h : bytes.length ≤ 32) : (Word.ofBytes bytes).toNat = bigEndian bytes := by
  have hlt : bigEndian bytes < 2 ^ 256 :=
    calc bigEndian bytes < 256 ^ bytes.length := bigEndian_lt bytes
      _ ≤ 256 ^ 32 := Nat.pow_le_pow_right (by decide) h
      _ = 2 ^ 256 := by norm_num
  exact Nat.mod_eq_of_lt hlt

theorem bigEndian_toBytes (w : Word) : bigEndian w.toBytes = w.toNat := by
  rw [← toNat_ofBytes (length_toBytes w).le, ofBytes_toBytes]

theorem toBytes_ofBytes (h : bytes.length = 32) : (Word.ofBytes bytes).toBytes = bytes := by
  apply bigEndian_injective
  · rw [length_toBytes, h]
  · rw [bigEndian_toBytes, toNat_ofBytes h.le]

end Word

theorem Word.ofNat_add_sub {place : Word} {k : Nat} (h : place.toNat + k < 2 ^ 256) :
    BitVec.ofNat 256 (place.toNat + k) - place = BitVec.ofNat 256 k := by
  have hstop : (BitVec.ofNat 256 (place.toNat + k)).toNat = place.toNat + k := Nat.mod_eq_of_lt h
  apply BitVec.eq_of_toNat_eq
  rw [BitVec.toNat_sub_of_le (BitVec.le_def.2 (by omega)), hstop, BitVec.toNat_ofNat]
  omega

/-! ## Whole numbers of words -/

def roundUp (n : Nat) : Nat :=
  (n + 31) / 32 * 32

theorem le_roundUp (n : Nat) : n ≤ roundUp n := by
  unfold roundUp
  omega

theorem roundUp_le (n : Nat) : roundUp n ≤ n + 31 := by
  unfold roundUp
  omega

/-- Without its last five bits a word is a multiple of 32. -/
theorem Word.toNat_and_not (x : Word) : (x &&& ~~~31#256).toNat = x.toNat / 32 * 32 := by
  have hshift : x &&& ~~~31#256 = (x >>> 5) <<< 5 := by
    ext i hi
    have hmask : (31#256)[i] = decide (i < 5) := by
      exact Nat.testBit_two_pow_sub_one 5 i
    rw [BitVec.getElem_and, BitVec.getElem_not, hmask, BitVec.getElem_shiftLeft]
    by_cases hlow : i < 5
    · simp only [hlow, decide_true, Bool.not_true, Bool.and_false, Bool.false_and]
    · simp only [hlow, decide_false, Bool.not_false, Bool.and_true, Bool.true_and,
        BitVec.getElem_ushiftRight]
      rw [Nat.add_sub_cancel' (by omega), BitVec.getLsbD_eq_getElem]
  have hlt : x.toNat / 32 * 32 < 2 ^ 256 := by
    omega
  rw [hshift, BitVec.toNat_shiftLeft, BitVec.toNat_ushiftRight, Nat.shiftLeft_eq,
    Nat.shiftRight_eq_div_pow]
  exact Nat.mod_eq_of_lt hlt

theorem Word.toNat_add_ofNat {x : Word} (h : x.toNat + k < 2 ^ 256) :
    (x + BitVec.ofNat 256 k).toNat = x.toNat + k := by
  have hk : (BitVec.ofNat 256 k).toNat = k := Nat.mod_eq_of_lt (by omega)
  rw [BitVec.toNat_add_of_lt (by omega), hk]

theorem Word.toNat_roundUp {x : Word} (h : x.toNat + 31 < 2 ^ 256) :
    ((x + 31#256) &&& ~~~31#256).toNat = roundUp x.toNat := by
  rw [toNat_and_not, BitVec.toNat_add_of_lt h]
  rfl

/-! ## Parts of byte strings -/

/-- What stands behind some bytes and before others. -/
theorem slice_append (front bytes back : List UInt8) :
    slice (front ++ bytes ++ back) front.length bytes.length = bytes := by
  apply ext_getElem
  · simp [slice]
  · intro i _ hi
    simp [slice, getElem?_append_right, getElem?_append_left hi, getElem?_eq_getElem hi]

def HasPart (data : List UInt8) (start : Nat) (bytes : List UInt8) : Prop :=
  ∃ front back, data = front ++ bytes ++ back ∧ front.length = start

theorem HasPart.slice_eq (h : HasPart data start bytes) :
    slice data start bytes.length = bytes := by
  obtain ⟨front, back, rfl, rfl⟩ := h
  exact slice_append front bytes back

theorem HasPart.length_le (h : HasPart data start bytes) : start + bytes.length ≤ data.length := by
  obtain ⟨front, back, rfl, rfl⟩ := h
  simp only [length_append]
  omega

theorem HasPart.trans (h : HasPart data start bytes) (hpart : HasPart bytes offset part) :
    HasPart data (start + offset) part := by
  obtain ⟨front, back, rfl, rfl⟩ := h
  obtain ⟨front', back', rfl, rfl⟩ := hpart
  exact ⟨front ++ front', back' ++ back, by simp only [append_assoc], by simp⟩

theorem hasPart_append_left (bytes back : List UInt8) : HasPart (bytes ++ back) 0 bytes :=
  ⟨[], back, rfl, rfl⟩

theorem hasPart_append_right (front bytes : List UInt8) :
    HasPart (front ++ bytes) front.length bytes :=
  ⟨front, [], by simp, rfl⟩

theorem HasPart.ofBytes_slice (h : HasPart data start v.toBytes) :
    Word.ofBytes (slice data start 32) = v := by
  have hslice := h.slice_eq
  rw [Word.length_toBytes] at hslice
  rw [hslice, Word.ofBytes_toBytes]

/-! ## Memory -/

namespace Memory

variable {m m' : Memory} {start : Nat} {bytes : List UInt8}

@[simp]
theorem length_read (m : Memory) (start length : Nat) : (m.read start length).length = length := by
  simp [read]

theorem read_add (m : Memory) (start a b : Nat) :
    m.read start (a + b) = m.read start a ++ m.read (start + a) b := by
  simp only [read, range_add, map_append, map_map]
  congr 1
  refine map_congr_left fun i _ => ?_
  simp only [Function.comp_apply, Nat.add_assoc]

def Has (m : Memory) (start : Nat) (bytes : List UInt8) : Prop :=
  m.read start bytes.length = bytes

theorem has_nil (m : Memory) (start : Nat) : m.Has start [] := rfl

theorem has_iff : m.Has start bytes ↔ ∀ i (h : i < bytes.length), m (start + i) = bytes[i] := by
  constructor
  · intro h i hi
    have hget := getElem_of_eq h (by simpa using hi)
    simpa [read] using hget
  · intro h
    apply ext_getElem
    · simp
    · intro i _ hi
      simpa [read] using h i hi

theorem has_append : m.Has start (bytes ++ more) ↔
    m.Has start bytes ∧ m.Has (start + bytes.length) more := by
  unfold Has
  rw [length_append, read_add]
  exact append_eq_append_iff_of_size_eq_left (by simp)

theorem Has.part (h : m.Has start bytes) (hpart : HasPart bytes offset more) :
    m.Has (start + offset) more := by
  obtain ⟨front, back, rfl, rfl⟩ := hpart
  exact (has_append.1 (has_append.1 h).1).2

theorem Has.read_eq (h : m.Has start bytes) : m.read start bytes.length = bytes := h

theorem has_read (m : Memory) (start length : Nat) : m.Has start (m.read start length) := by
  unfold Has
  rw [length_read]

/-- Bytes stay while nothing is written over them. -/
theorem Has.congr (h : m.Has start bytes)
    (hsame : ∀ a, start ≤ a → a < start + bytes.length → m' a = m a) : m'.Has start bytes := by
  rw [has_iff] at h ⊢
  intro i hi
  rw [hsame (start + i) (by omega) (by omega), h i hi]

/-! ### Writing -/

theorem write_of_lt (h : a < start) : m.write start bytes a = m a := by
  rw [write, if_neg (by omega)]

theorem write_of_ge (h : start + bytes.length ≤ a) : m.write start bytes a = m a := by
  rw [write, if_pos (by omega), getD_eq_default _ _ (by omega)]

theorem has_write (m : Memory) (start : Nat) (bytes : List UInt8) :
    (m.write start bytes).Has start bytes := by
  rw [has_iff]
  intro i hi
  rw [write, if_pos (by omega), Nat.add_sub_cancel_left, getD_eq_getElem _ _ hi]

theorem write_read (m : Memory) (start source : Nat) {length i : Nat} (h : i < length) :
    m.write start (m.read source length) (start + i) = m (source + i) := by
  have hbytes := has_iff.1 (has_write m start (m.read source length)) i (by simpa using h)
  rw [hbytes]
  simp [read]

/-! ### Words -/

theorem toBytes_readWord (m : Memory) (address : Word) :
    (m.readWord address).toBytes = m.read address.toNat 32 :=
  Word.toBytes_ofBytes (length_read _ _ _)

theorem Has.readWord_eq (h : m.Has address.toNat w.toBytes) : m.readWord address = w := by
  have hread := h.read_eq
  rw [Word.length_toBytes] at hread
  rw [readWord, hread, Word.ofBytes_toBytes]

end Memory

end ContractYul.Yul
