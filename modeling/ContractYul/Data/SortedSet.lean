/-!
# Sorted sets

Finite sets kept as lists that increase strictly. Text is ordered by its code points, which is
also the order of its bytes.
-/

namespace ContractYul

/-- Adds an element to a list that increases strictly, unless it is there. -/
def insertSorted {α : Type} [Ord α] (a : α) : List α → List α
  | [] => [a]
  | b :: rest =>
    match compare a b with
    | .lt => a :: b :: rest
    | .eq => b :: rest
    | .gt => b :: insertSorted a rest

def sortedSet {α : Type} [Ord α] (as : List α) : List α :=
  as.foldr insertSorted []

section

open List

variable {α : Type} [Ord α] [Std.LawfulEqOrd α] {a b : α} {as : List α}

theorem mem_insertSorted : b ∈ insertSorted a as ↔ b = a ∨ b ∈ as := by
  induction as with
  | nil => simp [insertSorted]
  | cons c rest ih =>
    rw [insertSorted]
    split
    · simp
    · rename_i hcompare
      obtain rfl : a = c := Std.LawfulEqOrd.eq_of_compare hcompare
      simp
    · simp only [mem_cons, ih]
      exact or_left_comm

theorem mem_sortedSet : b ∈ sortedSet as ↔ b ∈ as := by
  induction as with
  | nil => simp [sortedSet]
  | cons a rest ih =>
    rw [sortedSet, foldr_cons, mem_insertSorted, mem_cons, ← ih]
    rfl

end

/-- The elements of a list without those that were there before, in the order of the list. -/
def distinct {α : Type} [BEq α] (as : List α) : List α :=
  as.eraseDups

end ContractYul
