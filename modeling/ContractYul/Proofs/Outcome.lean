import ContractYul.Error
import Mathlib.Data.List.Forall2

/-!
# Reading outcomes backwards

A computation that succeeds has succeeded at every step. These lemmas take a successful outcome
apart: one for a single step, one for a list of independent steps, and one for a chain of steps
that pass a state on.
-/

open List

namespace ContractYul.Outcome

variable {β ε α σ : Type} {x : Except ε α} {f : α → Outcome β} {xs : List α}

@[simp]
theorem ok_bind {f : α → Except ε β} : (.ok a >>= f) = f a := rfl

@[simp]
theorem error_bind {f : α → Except ε β} : (.error e >>= f) = .error e := rfl

@[simp]
theorem pure_eq : (pure a : Except ε α) = .ok a := rfl

/-- A success of two steps is a success of each. -/
theorem bind_eq_ok {f : α → Except ε β} : (x >>= f) = .ok b ↔ ∃ a, x = .ok a ∧ f a = .ok b := by
  cases x <;> simp [bind, Except.bind]

/-- A failure of two steps is a failure of one. -/
theorem bind_eq_error {f : α → Except ε β} :
    (x >>= f) = .error e ↔ x = .error e ∨ ∃ a, x = .ok a ∧ f a = .error e := by
  cases x <;> simp [bind, Except.bind]

theorem pure_eq_ok {a b : α} : (pure a : Except ε α) = .ok b ↔ a = b := by
  simp [pure, Except.pure]

/-- A success with a pair tells both parts. -/
theorem pair_inj (h : (.ok (a, b) : Except ε (α × β)) = .ok (a', b')) : a = a' ∧ b = b' :=
  Prod.mk.inj (Except.ok.inj h)

theorem map_eq_ok {f : α → β} : x.map f = .ok b ↔ ∃ a, x = .ok a ∧ f a = b := by
  cases x <;> simp [Except.map]

theorem exists_of_map_toOption {x : Outcome α} {f : α → β}
    (h : x.toOption.map f = some b) : ∃ a, x = .ok a ∧ f a = b := by
  cases x with
  | error e => simp [Except.toOption] at h
  | ok a => exact ⟨a, rfl, Option.some.inj h⟩

theorem eq_ok_of_toOption (h : x.toOption = some a) : x = .ok a := by
  cases x with
  | error e => simp [Except.toOption] at h
  | ok b => rw [Option.some.inj h]

/-- Steps over a list succeed when each of them does. -/
theorem mapM_eq_ok : xs.mapM f = .ok ys ↔ Forall₂ (fun x y => f x = .ok y) xs ys := by
  induction xs generalizing ys with
  | nil =>
    rw [mapM_nil, pure_eq_ok, forall₂_nil_left_iff]
    exact eq_comm
  | cons x xs ih =>
    rw [mapM_cons, bind_eq_ok, forall₂_cons_left_iff]
    constructor
    · rintro ⟨y, hy, h⟩
      obtain ⟨ys, hys, h⟩ := bind_eq_ok.1 h
      exact ⟨y, ys, hy, ih.1 hys, (pure_eq_ok.1 h).symm⟩
    · rintro ⟨y, ys, hy, hys, rfl⟩
      exact ⟨y, hy, bind_eq_ok.2 ⟨ys, ih.2 hys, rfl⟩⟩

/-- Every result of steps over a list comes from one of them. -/
theorem exists_of_mem_mapM (h : xs.mapM f = .ok ys) (hy : y ∈ ys) : ∃ x ∈ xs, f x = .ok y := by
  have hall := mapM_eq_ok.1 h
  obtain ⟨i, hi, rfl⟩ := getElem_of_mem hy
  have hi' : i < xs.length := by rw [hall.length_eq]; exact hi
  exact ⟨xs[i], getElem_mem hi', hall.get hi' hi⟩

/-- What each step of a chain keeps, the chain keeps. -/
theorem foldlM_invariant {f : σ → α → Outcome σ} (inv : σ → Prop) (h : xs.foldlM f s = .ok s')
    (hinit : inv s) (hstep : ∀ s x s', x ∈ xs → f s x = .ok s' → inv s → inv s') : inv s' := by
  induction xs generalizing s with
  | nil =>
    rw [foldlM_nil, pure_eq_ok] at h
    exact h ▸ hinit
  | cons x xs ih =>
    rw [foldlM_cons, bind_eq_ok] at h
    obtain ⟨t, ht, h⟩ := h
    have hinit' : inv t := hstep s x t (by simp) ht hinit
    exact ih h hinit' fun s y s' hy => hstep s y s' (by simp [hy])

/-- What a step of a chain brings about and no step undoes holds behind the chain. -/
theorem foldlM_establishes {f : σ → α → Outcome σ} {Q : α → σ → Prop} (h : xs.foldlM f s = .ok s')
    (hmake : ∀ s x s', f s x = .ok s' → Q x s')
    (hkeep : ∀ s x s' y, f s x = .ok s' → Q y s → Q y s') : ∀ x ∈ xs, Q x s' := by
  induction xs generalizing s with
  | nil => exact forall_mem_nil _
  | cons x xs ih =>
    rw [foldlM_cons, bind_eq_ok] at h
    obtain ⟨t, ht, h⟩ := h
    refine forall_mem_cons.2 ⟨?_, ih h⟩
    exact foldlM_invariant (Q x) h (hmake s x t ht) fun s y s' _ hstep => hkeep s y s' x hstep

/-- A chain succeeds when each of its steps does, from any state. -/
theorem exists_foldlM {f : σ → α → Outcome σ} (s : σ)
    (hstep : ∀ s, ∀ x ∈ xs, ∃ s', f s x = .ok s') : ∃ s', xs.foldlM f s = .ok s' := by
  induction xs generalizing s with
  | nil => exact ⟨s, rfl⟩
  | cons x xs ih =>
    obtain ⟨t, ht⟩ := hstep s x (by simp)
    obtain ⟨s', hs'⟩ := ih t fun s y hy => hstep s y (by simp [hy])
    exact ⟨s', by rw [foldlM_cons, bind_eq_ok]; exact ⟨t, ht, hs'⟩⟩

/-- Steps that succeed wherever others do make a chain that succeeds where the other does. -/
theorem foldlM_mono {f g : σ → α → Outcome σ} (hstep : ∀ s x s', f s x = .ok s' → g s x = .ok s')
    (h : xs.foldlM f s = .ok s') : xs.foldlM g s = .ok s' := by
  induction xs generalizing s with
  | nil => exact h
  | cons x xs ih =>
    rw [foldlM_cons, bind_eq_ok] at h ⊢
    obtain ⟨t, ht, h⟩ := h
    exact ⟨t, hstep _ _ _ ht, ih h⟩

/-- Steps over a list agree when each of them does. -/
theorem mapM_congr (h : ∀ x ∈ xs, f x = g x) : xs.mapM f = xs.mapM g := by
  induction xs with
  | nil => rfl
  | cons x xs ih =>
    rw [mapM_cons, mapM_cons, h x mem_cons_self, ih fun x hx => h x (mem_cons_of_mem _ hx)]

theorem map_map {γ : Type} (x : Outcome α) (f : α → β) (g : β → γ) :
    (x.map f).map g = x.map (g ∘ f) := by
  cases x <;> rfl

/-- What is made of each result of a list of steps can be made right after the step. -/
theorem map_mapM {γ : Type} {g : β → γ} {h : α → Outcome γ}
    (heq : ∀ x ∈ xs, (f x).map g = h x) : (xs.mapM f).map (map g) = xs.mapM h := by
  induction xs with
  | nil => rfl
  | cons x xs ih =>
    rw [mapM_cons, mapM_cons, ← heq x mem_cons_self, ← ih fun x hx => heq x (mem_cons_of_mem _ hx)]
    cases f x with
    | error e => rfl
    | ok y => cases xs.mapM f <;> rfl

end ContractYul.Outcome
