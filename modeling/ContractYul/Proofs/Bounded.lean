import ContractYul.Error
import Mathlib.Data.Nat.Init

/-!
# Searches with a bound

A search that might not end is given a bound, and gives up as endless where it reaches the bound. A
greater bound changes no other outcome, which is what `Below` says of two outcomes. As long as a
greater bound settles something new, it settles one more of finitely many keys; once it does not, it
never will. So a bound above the number of keys is as good as any other (`eq_of_length_le`), and what is
open there is open at every bound (`eq_open_of_length_le`).
-/

open List

namespace ContractYul

section Bounded

variable {α β : Type} {r : Nat → α → β} {open? : β} {keys : List α}
  (hkept : ∀ depth, ∀ key ∈ keys, r depth key = open? ∨ r (depth + 1) key = r depth key)
  (hnext : ∀ depth, (∀ key ∈ keys, r (depth + 1) key = r depth key) →
    ∀ key ∈ keys, r (depth + 2) key = r (depth + 1) key)

open Classical in
include hkept in
theorem countP_lt_of_new (hnew : ¬ ∀ key ∈ keys, r (depth + 1) key = r depth key) :
    (keys.countP fun key => r depth key ≠ open?) <
      keys.countP fun key => r (depth + 1) key ≠ open? := by
  simp only [not_forall] at hnew
  obtain ⟨key, hkey, hnew⟩ := hnew
  have hbefore := (hkept depth key hkey).resolve_right hnew
  have hmono : ∀ part ⊆ keys, (part.countP fun key => r depth key ≠ open?) ≤
      part.countP fun key => r (depth + 1) key ≠ open? := fun part hpart =>
    countP_mono_left fun key hkey hsettled => by
      rw [decide_eq_true_eq] at hsettled ⊢
      rwa [(hkept depth key (hpart hkey)).resolve_left hsettled]
  obtain ⟨front, back, rfl⟩ := append_of_mem hkey
  have hfront := hmono front (by simp)
  have hback := hmono back (by simp)
  rw [hbefore] at hnew
  rw [countP_append, countP_append, countP_cons_of_neg (by simpa using hbefore),
    countP_cons_of_pos (by simpa using hnew)]
  omega

open Classical in
include hkept hnext in
/-- Where a greater bound still settles something, it has settled as many keys as it is deep. -/
theorem settled_or_le (depth : Nat) : (∀ key ∈ keys, r (depth + 1) key = r depth key) ∨
    depth + 1 ≤ keys.countP fun key => r (depth + 1) key ≠ open? := by
  refine or_iff_not_imp_left.2 fun hnew => ?_
  have hmore := countP_lt_of_new hkept hnew
  induction depth with
  | zero => omega
  | succ depth ih =>
    have hnew' := mt (hnext depth) hnew
    have hbefore := ih hnew' (countP_lt_of_new hkept hnew')
    omega

include hkept hnext in
/-- A bound above the number of keys is as good as any other. -/
theorem eq_of_length_le (hdepth : keys.length ≤ depth) :
    ∀ key ∈ keys, r depth key = r keys.length key := by
  classical
  have hsettled : ∀ depth, keys.length ≤ depth → ∀ key ∈ keys, r (depth + 1) key = r depth key := by
    intro depth hdepth
    refine (settled_or_le hkept hnext depth).resolve_right fun hle => ?_
    have := (countP_le_length (p := fun key => r (depth + 1) key ≠ open?) (l := keys))
    omega
  induction depth, hdepth using Nat.le_induction with
  | base => exact fun _ _ => rfl
  | succ depth hdepth ih => exact fun key hkey => (hsettled depth hdepth key hkey).trans (ih key hkey)

include hkept hnext in
/-- A key that is open at a bound above the number of keys is open at every bound. -/
theorem eq_open_of_length_le {key : α} (hdepth : keys.length ≤ depth) (hkey : key ∈ keys)
    (h : r depth key = open?) (depth' : Nat) : r depth' key = open? := by
  rcases Nat.le_total depth depth' with hle | hle
  · rw [eq_of_length_le hkept hnext (Nat.le_trans hdepth hle) key hkey,
      ← eq_of_length_le hkept hnext hdepth key hkey, h]
  · clear hdepth
    induction depth, hle using Nat.le_induction with
    | base => exact h
    | succ depth _ ih => exact ih ((hkept depth key hkey).elim id fun hsame => hsame.symm.trans h)

end Bounded

namespace Outcome

/-- An outcome that is the other one too, unless it is endless. -/
def Below (x y : Outcome α) : Prop :=
  x = .error .endless ∨ y = x

theorem Below.refl (x : Outcome α) : Below x x :=
  .inr rfl

theorem Below.trans {x y z : Outcome α} (h : Below x y) (h' : Below y z) : Below x z := by
  rcases h with h | rfl
  · exact .inl h
  · exact h'

theorem Below.antisymm {x y : Outcome α} (h : Below x y) (h' : Below y x) : x = y := by
  rcases h with rfl | rfl
  · rcases h' with rfl | h'
    · rfl
    · exact h'
  · rfl

theorem Below.bind {x y : Outcome α} {k k' : α → Outcome β} (h : Below x y)
    (hk : ∀ a, Below (k a) (k' a)) : Below (x >>= k) (y >>= k') := by
  rcases h with rfl | rfl
  · exact .inl rfl
  · cases y with
    | error e => exact .inr rfl
    | ok a => exact hk a

theorem Below.mapM {f g : α → Outcome β} {xs : List α} (h : ∀ x ∈ xs, Below (f x) (g x)) :
    Below (xs.mapM f) (xs.mapM g) := by
  induction xs with
  | nil => exact .refl _
  | cons x xs ih =>
    obtain ⟨hx, hxs⟩ := forall_mem_cons.1 h
    rw [mapM_cons, mapM_cons]
    exact hx.bind fun y => (ih hxs).bind fun ys => .refl _

end Outcome

end ContractYul
