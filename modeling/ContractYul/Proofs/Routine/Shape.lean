import ContractYul.Proofs.Text.Digits
import ContractYul.Routine.Shape

/-!
# The number of a shape word

A shape word is built bit by bit in 32 bytes and written with hexadecimal digits. Codes are placed
from the lowest bit on, so that each bit is set above all that are set already, and setting it adds a
power of two.

Main statement: `numberOf?_literal`. The literal of a list of codes is read as the number that has
the codes as its digits.
-/

open List

namespace ContractYul.Shape

variable {bits start i pos code : Nat} {codes : List Nat} {bytes : List UInt8}

/-! ## Bytes -/

/-- The number of a row of bytes, with the highest byte first. -/
def valueOf : List UInt8 → Nat
  | [] => 0
  | b :: bytes => b.toNat * 256 ^ bytes.length + valueOf bytes

theorem valueOf_append (front back : List UInt8) :
    valueOf (front ++ back) = valueOf front * 256 ^ back.length + valueOf back := by
  induction front with
  | nil => simp [valueOf]
  | cons b front ih =>
    rw [cons_append, valueOf, ih, valueOf, length_append, pow_add]
    ring

theorem valueOf_replicate (n : Nat) : valueOf (replicate n 0) = 0 := by
  induction n with
  | zero => rfl
  | succ n ih => simp [replicate_succ, valueOf, ih]

theorem digitsFrom?_hexByte (acc : Nat) (b : UInt8) :
    Text.digitsFrom? 16 acc (Text.hexByte b) = some (acc * 256 + b.toNat) := by
  have hdigit : ∀ d < 16, Text.digit? 16 d.digitChar = some d := by decide
  have hb := b.toNat_lt
  simp only [Text.hexByte, Text.digitsFrom?, hdigit _ (by omega : b.toNat / 16 < 16),
    hdigit _ (by omega : b.toNat % 16 < 16), Option.bind_eq_bind, Option.bind_some, Option.some.injEq]
  omega

theorem digitsFrom?_flatMap_hexByte (acc : Nat) (bytes : List UInt8) :
    Text.digitsFrom? 16 acc (bytes.flatMap Text.hexByte) =
      some (acc * 256 ^ bytes.length + valueOf bytes) := by
  induction bytes generalizing acc with
  | nil => simp [Text.digitsFrom?, valueOf]
  | cons b bytes ih =>
    rw [flatMap_cons, Text.digitsFrom?_append, digitsFrom?_hexByte, Option.bind_some, ih, valueOf,
      length_cons, pow_succ]
    congr 1
    ring

theorem numberOf?_literalText (bytes : List UInt8) :
    Yul.numberOf? (literalText bytes) = some (valueOf bytes) := by
  have hread := digitsFrom?_flatMap_hexByte 0 bytes
  rw [Nat.zero_mul, Nat.zero_add, ← Text.digitsFrom?_dropZeros (by decide)] at hread
  simp only [literalText]
  split
  · rename_i hempty
    rw [isEmpty_iff.1 hempty] at hread
    rw [← hread]
    decide
  · rename_i hne
    have htext : ("0x" ++ String.ofList (Text.dropZeros (bytes.flatMap Text.hexByte))).toList =
        '0' :: 'x' :: Text.dropZeros (bytes.flatMap Text.hexByte) := by simp
    unfold Yul.numberOf?
    rw [htext]
    exact (Text.digits?_of_ne_nil (by simpa using hne)).trans hread

/-! ## Bits -/

/-- A bit that is set above all others adds a power of two. -/
theorem valueOf_setBit (hlength : bytes.length = 32) (hpos : pos < 256)
    (hlow : valueOf bytes < 2 ^ pos) : valueOf (setBit bytes pos) = valueOf bytes + 2 ^ pos := by
  have hindex : 31 - pos / 8 < bytes.length := by omega
  set b := bytes[31 - pos / 8] with hb
  set back := bytes.drop (31 - pos / 8 + 1) with hback
  have hsplit : bytes = bytes.take (31 - pos / 8) ++ b :: back := by simp [hb, hback]
  have hbacklength : back.length = pos / 8 := by
    rw [hback, length_drop]
    omega
  have hpow : 2 ^ pos = 2 ^ (pos % 8) * 256 ^ (pos / 8) := by
    rw [show 256 = 2 ^ 8 by rfl, ← pow_mul, ← pow_add, Nat.mod_add_div]
  have hvalue := congrArg valueOf hsplit
  rw [valueOf_append, valueOf, length_cons, hbacklength] at hvalue
  have hbyte : b.toNat < 2 ^ (pos % 8) :=
    Nat.lt_of_mul_lt_mul_right (a := 256 ^ (pos / 8)) (by omega)
  have hset : (b ||| UInt8.ofNat (1 <<< (pos % 8))).toNat = b.toNat + 2 ^ (pos % 8) := by
    have hbound : 2 ^ (pos % 8) < 2 ^ 8 := Nat.pow_lt_pow_right (by decide) (Nat.mod_lt _ (by decide))
    have hsum := Nat.two_pow_add_eq_or_of_lt hbyte 1
    rw [Nat.mul_one] at hsum
    rw [UInt8.toNat_or, UInt8.toNat_ofNat', Nat.shiftLeft_eq, Nat.one_mul, Nat.mod_eq_of_lt hbound,
      Nat.or_comm]
    omega
  rw [setBit, modify_eq_take_cons_drop hindex, valueOf_append, valueOf, length_cons, hset,
    ← hback, hbacklength, Nat.add_mul, hpow]
  omega

/-- The number with the given codes as digits of `bits` bits, lowest first. -/
def word (bits : Nat) : List Nat → Nat
  | [] => 0
  | code :: rest => code % 2 ^ bits + 2 ^ bits * word bits rest

theorem lt_of_placed (h : low < 2 ^ start) (bits code : Nat) :
    low + 2 ^ start * (code % 2 ^ bits) < 2 ^ (start + bits) := by
  have hdigit := Nat.mul_le_mul_left (2 ^ start)
    (Nat.succ_le_of_lt (Nat.mod_lt code (Nat.two_pow_pos bits)))
  rw [← pow_add, Nat.mul_succ] at hdigit
  omega

theorem valueOf_placeCode (hlength : bytes.length = 32) (hroom : start + bits ≤ 256)
    (hlow : valueOf bytes < 2 ^ start) (code : Nat) :
    (placeCode bits start code bytes).length = 32 ∧
      valueOf (placeCode bits start code bytes) = valueOf bytes + 2 ^ start * (code % 2 ^ bits) := by
  induction bits with
  | zero => exact ⟨hlength, by simp [placeCode, Nat.mod_one]⟩
  | succ bits ih =>
    obtain ⟨hplaced, hvalue⟩ := ih (by omega)
    have hbit : (code >>> bits) &&& 1 = code / 2 ^ bits % 2 := by
      rw [Nat.and_one_is_mod, Nat.shiftRight_eq_div_pow]
    have hlow : valueOf (placeCode bits start code bytes) < 2 ^ (start + bits) :=
      hvalue ▸ lt_of_placed hlow bits code
    have hstep : placeCode (bits + 1) start code bytes = if (code >>> bits) &&& 1 = 1 then
        setBit (placeCode bits start code bytes) (start + bits)
        else placeCode bits start code bytes := by
      rw [placeCode, range_succ, foldl_append]
      rfl
    rw [hstep, hbit, Nat.mod_pow_succ, Nat.mul_add, ← Nat.mul_assoc, ← pow_add]
    rcases Nat.mod_two_eq_zero_or_one (code / 2 ^ bits) with hzero | hone
    · rw [hzero, if_neg (by decide)]
      exact ⟨hplaced, by simpa using hvalue⟩
    · rw [hone, if_pos rfl, valueOf_setBit hplaced (by omega) hlow, hvalue]
      exact ⟨(length_modify ..).trans hplaced, by omega⟩

theorem valueOf_placeCodes {bits : Nat} (codes : List Nat) (hlength : bytes.length = 32)
    (hroom : (i + codes.length) * bits ≤ 256) (hlow : valueOf bytes < 2 ^ (i * bits)) :
    valueOf (placeCodes bits i codes bytes) = valueOf bytes + 2 ^ (i * bits) * word bits codes := by
  induction codes generalizing i bytes with
  | nil => simp [placeCodes, word]
  | cons code codes ih =>
    have hroom' : (i + 1 + codes.length) * bits ≤ 256 := by
      rwa [length_cons, Nat.add_comm codes.length, ← Nat.add_assoc] at hroom
    have hnext : i * bits + bits ≤ 256 := by
      rw [Nat.add_mul, Nat.succ_mul] at hroom'
      omega
    obtain ⟨hplaced, hvalue⟩ := valueOf_placeCode hlength hnext hlow code
    have hlow' : valueOf (placeCode bits (i * bits) code bytes) < 2 ^ ((i + 1) * bits) := by
      rw [hvalue, Nat.succ_mul]
      exact lt_of_placed hlow bits code
    rw [placeCodes, ih hplaced hroom' hlow', hvalue, word, Nat.succ_mul, pow_add]
    ring

/-- The literal of codes that fit in a word is read as the number with the codes as digits. -/
theorem numberOf?_literal (h : codes.length * bits ≤ 256) :
    Yul.numberOf? (literalText (placeCodes bits 0 codes (replicate 32 0))) =
      some (word bits codes) := by
  have hzero : valueOf (replicate 32 0) = 0 := valueOf_replicate 32
  have hvalue := valueOf_placeCodes (i := 0) codes (length_replicate ..) (by rwa [Nat.zero_add])
    (by rw [hzero]; positivity)
  rw [numberOf?_literalText, hvalue, hzero, Nat.zero_mul, pow_zero, Nat.zero_add, Nat.one_mul]

end ContractYul.Shape
