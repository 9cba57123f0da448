import ContractYul.Proofs.Yul.Memory
import ContractYul.Routine.Shape

/-!
# The layout of encoded values

A value that is passed between contracts is a word, or an object in memory with a length word and its
content. In a standard encoding every value has a word in the front part: the value itself, or the
distance to a copy of the object in the back part. Copies are padded to whole words.

What a word stands for is told by the code of its shape: 0 for the word itself, 1 for an object of
bytes, 2 for an object of words.
-/

open List

namespace ContractYul.Coding

open Yul Memory

/-! ## Values -/

inductive Datum where
  | word (v : Word)
  | object (length : Word) (content : List UInt8)
  deriving DecidableEq

namespace Datum

def unit (code : Nat) : Nat :=
  if code = 2 then 32 else 1

theorem toNat_mul_unit {length : Word} (h : length.toNat * unit code < 2 ^ 256) :
    (length * BitVec.ofNat 256 (unit code)).toNat = length.toNat * unit code := by
  have hunit : (BitVec.ofNat 256 (unit code)).toNat = unit code := by
    unfold unit
    split <;> rfl
  rw [BitVec.toNat_mul_of_lt (by rwa [hunit]), hunit]

def read (m : Memory) (code : Nat) (v : Word) : Datum :=
  if code = 0 then .word v
  else .object (m.readWord v) (m.read (v.toNat + 32) ((m.readWord v).toNat * unit code))

def Below (m : Memory) (top code : Nat) (v : Word) : Prop :=
  code ≠ 0 → v.toNat + 32 + (m.readWord v).toNat * unit code ≤ top

def HasShape (code : Nat) : Datum → Prop
  | .word _ => code = 0
  | .object length content => code ≠ 0 ∧ content.length = length.toNat * unit code

variable {m m' : Memory} {top code : Nat} {v : Word}

theorem read_zero : read m 0 v = .word v := rfl

theorem read_of_ne (h : code ≠ 0) : read m code v =
    .object (m.readWord v) (m.read (v.toNat + 32) ((m.readWord v).toNat * unit code)) :=
  if_neg h

theorem hasShape_read (m : Memory) (code : Nat) (v : Word) : (read m code v).HasShape code := by
  by_cases hcode : code = 0
  · subst hcode
    rfl
  · rw [read_of_ne hcode]
    exact ⟨hcode, length_read _ _ _⟩

theorem Below.mono (h : Below m top code v) (hle : top ≤ top') : Below m top' code v :=
  fun hcode => (h hcode).trans hle

/-- The length of an object stays while nothing is written over the object. -/
theorem Below.readWord_eq (h : Below m top code v) (hcode : code ≠ 0)
    (hsame : ∀ a < top, m' a = m a) : m'.readWord v = m.readWord v := by
  have hend := h hcode
  have hword : m'.Has v.toNat (m.read v.toNat 32) :=
    (m.has_read v.toNat 32).congr fun a _ ha => hsame a (by simp at ha; omega)
  have hread := hword.read_eq
  rw [length_read] at hread
  rw [readWord, readWord, hread]

theorem Below.congr (h : Below m top code v) (hsame : ∀ a < top, m' a = m a) :
    Below m' top code v := by
  intro hcode
  rw [h.readWord_eq hcode hsame]
  exact h hcode

/-- A word stands for the same while nothing is written over the object. -/
theorem Below.read_eq (h : Below m top code v) (hsame : ∀ a < top, m' a = m a) :
    read m' code v = read m code v := by
  by_cases hcode : code = 0
  · rw [hcode, read_zero, read_zero]
  · have hend := h hcode
    rw [read_of_ne hcode, read_of_ne hcode, h.readWord_eq hcode hsame]
    have hcontent : m'.Has (v.toNat + 32)
        (m.read (v.toNat + 32) ((m.readWord v).toNat * unit code)) :=
      (m.has_read _ _).congr fun a _ ha => hsame a (by simp at ha; omega)
    have hread := hcontent.read_eq
    rw [length_read] at hread
    rw [hread]

/-- The address of an object that stands in memory stands for it. -/
theorem read_of_has {length : Word} (hshape : (object length content).HasShape code)
    (h : m.Has v.toNat (length.toBytes ++ content)) : read m code v = .object length content := by
  obtain ⟨hcode, hlength⟩ := hshape
  obtain ⟨hword, hcontent⟩ := has_append.1 h
  rw [Word.length_toBytes] at hcontent
  rw [read_of_ne hcode, hword.readWord_eq, ← hlength, hcontent.read_eq]

end Datum

def dataOf (m : Memory) (codes : List Nat) (vs : List Word) : List Datum :=
  zipWith (Datum.read m) codes vs

@[simp]
theorem dataOf_nil (m : Memory) : dataOf m [] [] = [] := rfl

@[simp]
theorem dataOf_cons (m : Memory) (code : Nat) (codes : List Nat) (v : Word) (vs : List Word) :
    dataOf m (code :: codes) (v :: vs) = .read m code v :: dataOf m codes vs := rfl

theorem length_dataOf
    (h : codes.length = vs.length) : (dataOf m codes vs).length = codes.length := by
  rw [dataOf, length_zipWith, h, min_self]

theorem hasShape_dataOf
    (h : codes.length = vs.length) : Forall₂ Datum.HasShape codes (dataOf m codes vs) := by
  induction codes generalizing vs with
  | nil => exact .nil
  | cons code codes ih =>
    obtain ⟨v, vs, rfl⟩ := exists_cons_of_length_eq_add_one h.symm
    exact .cons (Datum.hasShape_read m code v) (ih (by simpa using h))

theorem dataOf_congr (h : Forall₂ (Datum.Below m top) codes vs) (hsame : ∀ a < top, m' a = m a) :
    dataOf m' codes vs = dataOf m codes vs := by
  induction h with
  | nil => rw [dataOf_nil, dataOf_nil]
  | cons hv _ ih => rw [dataOf_cons, dataOf_cons, hv.read_eq hsame, ih]

/-! ## Encodings -/

def padded (bytes : List UInt8) : List UInt8 :=
  bytes ++ replicate (roundUp bytes.length - bytes.length) 0

@[simp]
theorem length_padded (bytes : List UInt8) : (padded bytes).length = roundUp bytes.length := by
  have := le_roundUp bytes.length
  rw [padded, length_append, length_replicate]
  omega

namespace Datum

def tail : Datum → List UInt8
  | .word _ => []
  | .object length content => length.toBytes ++ padded content

def head (offset : Nat) : Datum → Word
  | .word v => v
  | .object _ _ => BitVec.ofNat 256 offset

theorem length_tail_object (length : Word) (content : List UInt8) :
    (object length content).tail.length = 32 + roundUp content.length := by
  simp [tail]

end Datum

def heads : (offset : Nat) → List Datum → List UInt8
  | _, [] => []
  | offset, d :: ds => (d.head offset).toBytes ++ heads (offset + d.tail.length) ds

def tails (ds : List Datum) : List UInt8 :=
  ds.flatMap Datum.tail

def encoding (ds : List Datum) : List UInt8 :=
  heads (32 * ds.length) ds ++ tails ds

@[simp]
theorem length_heads (offset : Nat) (ds : List Datum) :
    (heads offset ds).length = 32 * ds.length := by
  induction ds generalizing offset with
  | nil => rfl
  | cons d ds ih =>
    rw [heads, length_append, Word.length_toBytes, ih, length_cons]
    omega

theorem tails_cons (d : Datum) (ds : List Datum) : tails (d :: ds) = d.tail ++ tails ds := rfl

theorem heads_singleton (offset : Nat) (d : Datum) :
    heads offset [d] = (d.head offset).toBytes := by
  rw [heads, heads, append_nil]

theorem tails_singleton (d : Datum) : tails [d] = d.tail := by
  rw [tails, flatMap_singleton]

theorem length_encoding (ds : List Datum) :
    (encoding ds).length = 32 * ds.length + (tails ds).length := by
  rw [encoding, length_append, length_heads]

end ContractYul.Coding
