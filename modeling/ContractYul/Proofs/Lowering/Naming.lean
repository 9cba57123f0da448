import ContractYul.Lowering.Operand
import ContractYul.Proofs.Outcome
import ContractYul.Proofs.Yul.Scoping
import Mathlib.Order.Basic

/-!
# Names in lowered code

What lowered code declares and mentions. A `Naming` says which names are taken where code is lowered:
temporaries up to a number, variables named after the source, and the variables of a guard that still
waits for its call. Names of temporaries to come and of a waiting guard are `Reserved`; no code
written so far mentions them. A name may be mentioned once it is declared in a block around the place.

A name is made before it is declared, and code is sometimes collected before it is written. Between
the two, the names are in hand: each is there once, and code that declares it takes it out. So no name
is declared twice.

Main point: `Moves` is a condition on a piece of lowering that is kept by putting pieces together. It
writes behind the code that is there, mentions names where they are seen, and declares names that it
makes or that were in hand; its result is described by the naming at its end. `Lowers` is this for
the code of an expression, which leaves the scopes as they were and nothing in hand. What is known of
a name or a value stays true as lowering goes on, since namings only grow.
-/

open List

namespace ContractYul

open Yul Stmt

namespace Lowering

/-! ## Temporaries -/

def IsTemp (n : Nat) (x : String) : Prop :=
  ∃ k, n < k ∧ (x = "_" ++ toString k ∨ x = "__cond_" ++ toString k)

variable {n k : Nat} {x : String}

theorem IsTemp.mono (h : IsTemp k x) (hn : n ≤ k) : IsTemp n x := by
  obtain ⟨j, hj, hx⟩ := h
  exact ⟨j, Nat.lt_of_le_of_lt hn hj, hx⟩

theorem toString_of_append_eq {stem : String}
    (h : stem ++ toString j = stem ++ toString k) : j = k := by
  have hlist := congrArg String.toList h
  simp only [String.toList_append, Nat.toString_eq_ofList_toDigits, String.toList_ofList] at hlist
  have hdigits : Nat.toDigits 10 j = Nat.toDigits 10 k := append_cancel_left hlist
  have hnumber := congrArg (fun digits => Nat.ofDigitChars 10 digits 0) hdigits
  simpa using hnumber

/-- The two kinds of temporaries differ in their second character, which is a digit in one. -/
theorem temp_ne_cond (j k : Nat) : "_" ++ toString j ≠ "__cond_" ++ toString k := by
  intro h
  have hlist := congrArg String.toList h
  have hstem : "_" ++ ("_cond_" ++ toString k) = "__cond_" ++ toString k := by
    rfl
  rw [← hstem, String.toList_append, String.toList_append] at hlist
  have hdigits := append_cancel_left hlist
  have hmem : '_' ∈ (toString j).toList := by
    rw [hdigits]
    simp
  rw [Nat.toString_eq_ofList_toDigits, String.toList_ofList] at hmem
  exact absurd (Nat.isDigit_of_mem_toDigits (by decide) (by decide) hmem) (by decide)

theorem not_isTemp_of_head (h : x.toList.head? ≠ some '_') : ¬ IsTemp n x := by
  rintro ⟨k, -, rfl | rfl⟩ <;> simp at h

theorem not_isTemp_temp (n : Nat) : ¬ IsTemp n ("_" ++ toString n) := by
  rintro ⟨k, hk, h | h⟩
  · exact Nat.ne_of_lt hk (toString_of_append_eq h)
  · exact temp_ne_cond n k h

theorem not_isTemp_cond (n : Nat) : ¬ IsTemp n ("__cond_" ++ toString n) := by
  rintro ⟨k, hk, h | h⟩
  · exact temp_ne_cond k n h.symm
  · exact Nat.ne_of_lt hk (toString_of_append_eq h)

def IsVariable (x : String) : Prop :=
  ∃ rest, x = "var_" ++ rest

theorem IsVariable.not_isTemp (h : IsVariable x) : ¬ IsTemp n x := by
  obtain ⟨rest, rfl⟩ := h
  exact not_isTemp_of_head (by simp)

/-- Names of temporaries that were made between two states of the counter. -/
def MadeBetween (n k : Nat) (x : String) : Prop :=
  IsTemp n x ∧ ¬ IsTemp k x

theorem MadeBetween.later (h : MadeBetween n k x) (hkj : k ≤ j) : MadeBetween n j x :=
  ⟨h.1, fun ht => h.2 (ht.mono hkj)⟩

theorem MadeBetween.earlier (h : MadeBetween k j x) (hnk : n ≤ k) : MadeBetween n j x :=
  ⟨h.1.mono hnk, h.2⟩

/-! ## Namings -/

structure Naming where
  /-- Number of temporaries. -/
  counter : Nat
  /-- Variables of a guard that waits for its call. -/
  pending : List String
  /-- Names of variables made from source names, and of return variables. -/
  declared : List String
  /-- Variables in scope. -/
  scopes : List Scope
  /-- Names that are declared in the blocks around the code being lowered. -/
  own : String → Prop
  /-- Names that were made, or are declared in code that was collected, and that no code written so
  far declares. -/
  inHand : List String
  /-- Whether control may lead elsewhere. -/
  jumps : Prop
  /-- Whether anything is asked of names. -/
  strict : Prop

def scopeNames (scopes : List Scope) : List String :=
  scopes.flatMap fun scope => scope.map (·.2.irName)

namespace Naming

/-- A name that no code written so far mentions. -/
def Reserved (Γ : Naming) (x : String) : Prop :=
  IsTemp Γ.counter x ∨ x ∈ Γ.pending

def Knows (Γ : Naming) (x : String) : Prop :=
  Γ.strict → Γ.own x ∧ ¬ Γ.Reserved x

/-- Lowering goes on: there are more names, and a guard has met its call or waits with new names. -/
structure Extends (Γ Γ' : Naming) : Prop where
  counter : Γ.counter ≤ Γ'.counter
  pending : ∀ x ∈ Γ'.pending, Γ.Reserved x
  declared : ∀ x ∈ Γ.declared, x ∈ Γ'.declared
  own : ∀ x, Γ.own x → Γ'.own x
  jumps : Γ'.jumps = Γ.jumps
  strict : Γ'.strict = Γ.strict

variable {Γ' Γ : Naming} {x : String} {names : List String}

theorem Extends.reserved (h : Γ.Extends Γ') (hx : Γ'.Reserved x) : Γ.Reserved x :=
  hx.elim (fun ht => .inl (ht.mono h.counter)) (h.pending x)

instance : Preorder Naming where
  le := Extends
  le_refl Γ := ⟨Nat.le_refl _, fun _ h => .inr h, fun _ h => h, fun _ h => h, rfl, rfl⟩
  le_trans _ _ _ h h' :=
    ⟨Nat.le_trans h.counter h'.counter, fun x hx => h.reserved (h'.pending x hx),
      fun x hx => h'.declared x (h.declared x hx), fun x hx => h'.own x (h.own x hx),
      h'.jumps.trans h.jumps, h'.strict.trans h.strict⟩

theorem Reserved.anti (h : Γ ≤ Γ') (hx : Γ'.Reserved x) : Γ.Reserved x :=
  h.reserved hx

theorem Knows.mono (h : Γ ≤ Γ') (x : String) (hx : Γ.Knows x) : Γ'.Knows x :=
  fun hs => have hx := hx (h.strict ▸ hs)
    ⟨h.own x hx.1, fun hr => hx.2 (hr.anti h)⟩

def seeing (Γ : Naming) (names : List String) : Naming :=
  { Γ with own := fun x => Γ.own x ∨ x ∈ names }

theorem le_seeing : Γ ≤ Γ.seeing names :=
  ⟨Nat.le_refl _, fun _ h => .inr h, fun _ h => h, fun _ h => .inl h, rfl, rfl⟩

theorem seeing_nil_le : Γ.seeing [] ≤ Γ :=
  ⟨Nat.le_refl _, fun _ h => .inr h, fun _ h => h, fun _ h => h.elim id (by simp), rfl, rfl⟩

theorem seeing_mono (h : Γ ≤ Γ') : Γ.seeing names ≤ Γ'.seeing names :=
  ⟨h.counter, h.pending, h.declared, fun x => Or.imp_left (h.own x), h.jumps, h.strict⟩

def holding (Γ : Naming) (names : List String) : Naming :=
  { Γ with inHand := names }

theorem le_holding : Γ ≤ Γ.holding names :=
  ⟨Nat.le_refl _, fun _ h => .inr h, fun _ h => h, fun _ h => h, rfl, rfl⟩

def within (Γ : Naming) (scopes : List Scope) : Naming :=
  { Γ with scopes := scopes }

theorem knows_of_seeing (h : (Γ.seeing names).Knows x) : Γ.Knows x ∨ x ∈ names := by
  by_cases hs : Γ.strict
  · exact (h hs).1.imp_left fun hown _ => ⟨hown, (h hs).2⟩
  · exact .inl fun hs' => absurd hs' hs

structure WellFormed (Γ : Naming) : Prop where
  scope : ∀ x ∈ scopeNames Γ.scopes, Γ.Knows x
  /-- A guard waits with variables that are declared. -/
  waiting : ∀ x ∈ Γ.pending, Γ.own x
  guard : ∀ x ∈ Γ.pending, IsTemp 0 x
  made : ∀ x, Γ.own x → ¬ IsTemp Γ.counter x
  hand : ∀ x ∈ Γ.inHand, ¬ Γ.Reserved x

def MadeBy (Γ Γ' : Naming) (x : String) : Prop :=
  MadeBetween Γ.counter Γ'.counter x ∨ x ∈ Γ'.declared ∧ x ∉ Γ.declared ∧ IsVariable x

theorem MadeBy.later (h : Γ.MadeBy Γ₁ x) (h₂ : Γ₁ ≤ Γ₂) : Γ.MadeBy Γ₂ x :=
  h.imp (·.later h₂.counter) fun ⟨hnew, hold⟩ => ⟨h₂.declared x hnew, hold⟩

theorem MadeBy.earlier (h : Γ₁.MadeBy Γ₂ x) (h₁ : Γ ≤ Γ₁) : Γ.MadeBy Γ₂ x :=
  h.imp (·.earlier h₁.counter) fun ⟨hnew, hold, hvar⟩ =>
    ⟨hnew, fun hx => hold (h₁.declared x hx), hvar⟩

theorem MadeBy.not_both (h : Γ.MadeBy Γ₁ x) (h' : Γ₁.MadeBy Γ₂ x) : False := by
  rcases h with h | ⟨hnew, -, hvar⟩ <;> rcases h' with h' | ⟨-, hold, hvar'⟩
  · exact h.2 h'.1
  · exact hvar'.not_isTemp h.1
  · exact hvar.not_isTemp h'.1
  · exact hold hnew

theorem MadeBy.not_reserved (h : Γ.MadeBy Γ' x) (hΓ : Γ.WellFormed)
    (hpending : ∀ x ∈ Γ'.pending, x ∈ Γ.pending) : ¬ Γ'.Reserved x := by
  rintro (ht | hp)
  · rcases h with h | ⟨-, -, hvar⟩
    · exact h.2 ht
    · exact hvar.not_isTemp ht
  · rcases h with h | ⟨-, -, hvar⟩
    · exact hΓ.made x (hΓ.waiting x (hpending x hp)) h.1
    · exact hvar.not_isTemp (hΓ.guard x (hpending x hp))

/-! ### Names in hand -/

/-- Names have come in hand, no guard has begun to wait, and the variables that have come in scope are
named after the source. -/
structure Holds (Γ Γ' : Naming) (names : List String) : Prop where
  inHand : Γ'.inHand.Perm (names ++ Γ.inHand)
  pending : ∀ x ∈ Γ'.pending, x ∈ Γ.pending
  inScope : ∀ x ∈ scopeNames Γ'.scopes, x ∈ scopeNames Γ.scopes ∨ IsVariable x

theorem Holds.trans (h : Γ.Holds Γ₁ names)
    (h' : Γ₁.Holds Γ₂ more) : Γ.Holds Γ₂ (more ++ names) := by
  refine ⟨h'.inHand.trans ?_, fun x hx => h.pending x (h'.pending x hx), fun x hx => ?_⟩
  · rw [append_assoc]
    exact h.inHand.append_left more
  · exact (h'.inScope x hx).elim (h.inScope x) .inr

theorem Holds.perm (h : Γ.Holds Γ' names) (hp : names.Perm more) : Γ.Holds Γ' more :=
  { h with inHand := h.inHand.trans (hp.append_right _) }

structure Takes (Γ Γ' : Naming) (names : List String) : Prop extends Γ.Holds Γ' names where
  scopes : Γ'.scopes = Γ.scopes
  declared : Γ'.declared = Γ.declared

theorem Takes.refl (Γ : Naming) : Γ.Takes Γ [] :=
  ⟨⟨.refl _, fun _ h => h, fun _ => .inl⟩, rfl, rfl⟩

theorem Takes.perm (h : Γ.Takes Γ' names) (hp : names.Perm more) : Γ.Takes Γ' more :=
  ⟨h.toHolds.perm hp, h.scopes, h.declared⟩

theorem Takes.append_nil (h : Γ.Takes Γ' names) : Γ.Takes Γ' (names ++ []) := by
  rwa [List.append_nil]

theorem Takes.trans (h : Γ.Takes Γ₁ names) (h' : Γ₁.Takes Γ₂ more) : Γ.Takes Γ₂ (more ++ names) :=
  ⟨h.toHolds.trans h'.toHolds, h'.scopes.trans h.scopes, h'.declared.trans h.declared⟩

end Naming

end Lowering

section

end

namespace Lowering

/-! ## States -/

def pendingNames : Option Guard → List String
  | some g => if g.captured then [] else [g.success, g.result]
  | none => []

structure Naming.Describes (Γ : Naming) (st : State) : Prop where
  wellFormed : Γ.strict → Γ.WellFormed
  counter : st.counter = Γ.counter
  pending : pendingNames st.guard = Γ.pending
  declared : st.declared = Γ.declared
  scopes : st.scopes = Γ.scopes

variable {Γ : Naming} {st : State} {x : String} {code : List Yul.Stmt}

theorem Naming.Describes.scope (h : Γ.Describes st) (hx : x ∈ scopeNames Γ.scopes) : Γ.Knows x :=
  fun hs => (h.wellFormed hs).scope x hx hs

theorem Naming.Describes.sameNames (h : Γ.Describes st) (hcounter : st'.counter = st.counter)
    (hguard : st'.guard = st.guard) (hdeclared : st'.declared = st.declared)
    (hscopes : st'.scopes = st.scopes) : Γ.Describes st' :=
  ⟨h.wellFormed, hcounter.trans h.counter, hguard ▸ h.pending, hdeclared.trans h.declared,
    hscopes.trans h.scopes⟩

theorem mem_scopeNames {scopes : List Scope} (h : lookup? scopes name = some v) :
    v.irName ∈ scopeNames scopes := by
  obtain ⟨scope, hscope, hv⟩ := exists_of_findSome?_eq_some h
  obtain ⟨before, behind, rfl, -⟩ := lookup_eq_some_iff.1 hv
  exact mem_flatMap.2 ⟨_, hscope, mem_map.2 ⟨(name, v), by simp, rfl⟩⟩

/-- A name that no code written so far mentions. -/
def State.Reserved (st : State) (x : String) : Prop :=
  IsTemp st.counter x ∨ x ∈ pendingNames st.guard

/-- No variable in scope has a reserved name, and a guard waits with temporaries made before. This
holds of the states that the code of a function is lowered in. -/
structure State.WellNamed (st : State) : Prop where
  scope : ∀ x ∈ scopeNames st.scopes, ¬ st.Reserved x
  guard : ∀ x ∈ pendingNames st.guard, IsTemp 0 x
  apart : ∀ x ∈ pendingNames st.guard, ¬ IsTemp st.counter x

def State.naming (st : State) (jumps strict : Prop) : Naming where
  counter := st.counter
  pending := pendingNames st.guard
  declared := st.declared
  scopes := st.scopes
  own x := x ∈ scopeNames st.scopes ∨ x ∈ pendingNames st.guard
  inHand := []
  jumps := jumps
  strict := strict

theorem State.describes_naming {jumps strict : Prop} (h : strict → st.WellNamed) :
    (st.naming jumps strict).Describes st where
  counter := rfl
  pending := rfl
  declared := rfl
  scopes := rfl
  wellFormed hs :=
    { scope := fun x hx _ => ⟨.inl hx, (h hs).scope x hx⟩
      waiting := fun _ hx => .inr hx
      guard := (h hs).guard
      made := fun x hx ht =>
        hx.elim (fun hx => (h hs).scope x hx (.inl ht)) fun hx => (h hs).apart x hx ht
      hand := forall_mem_nil _ }

theorem Naming.Describes.reserved_iff (h : Γ.Describes st) : Γ.Reserved x ↔ st.Reserved x := by
  unfold Naming.Reserved State.Reserved
  rw [h.counter, h.pending]

theorem Naming.Describes.wellNamed (h : Γ.Describes st) (hs : Γ.strict) :
    st.WellNamed where
  scope x hx hr := (h.scope (h.scopes ▸ hx) hs).2 (h.reserved_iff.2 hr)
  guard x hx := (h.wellFormed hs).guard x (h.pending ▸ hx)
  apart x hx := by
    rw [h.counter]
    exact (h.wellFormed hs).made x ((h.wellFormed hs).waiting x (h.pending ▸ hx))

/-! ## Pieces of lowering -/

structure Lays (Γ Γ' : Naming) (code : List Yul.Stmt) : Prop where
  /-- It mentions names where they are seen, and none that are still reserved at its end. -/
  seen : Γ.strict → AllScoped (fun x => Γ.own x ∧ ¬ Γ'.Reserved x) code
  flow : Γ.jumps ∨ AllMention (fun _ => True) code
  own : ∀ x, Γ'.own x → Γ.own x ∨ x ∈ allBinds code
  /-- It declares names that were made for it or were in hand, each once. -/
  names : ∃ names : List String, names.Nodup ∧ (∀ x ∈ names, Γ.MadeBy Γ' x) ∧
    (allDeclared code ++ Γ'.inHand).Subperm (names ++ Γ.inHand)

theorem lays_nil (hown : ∀ x, Γ'.own x → Γ.own x) (hhand : Γ'.inHand.Subperm Γ.inHand) :
    Lays Γ Γ' [] where
  seen _ := allScoped_nil
  flow := .inr trivial
  own x hx := .inl (hown x hx)
  names := ⟨[], nodup_nil, forall_mem_nil _, by simpa using hhand⟩

theorem Lays.append (h₁ : Γ ≤ Γ₁) (h₂ : Γ₁ ≤ Γ₂) (hcode : Lays Γ Γ₁ code) (hmore : Lays Γ₁ Γ₂ more) :
    Lays Γ Γ₂ (code ++ more) where
  seen hs := by
    refine allScoped_append.2 ⟨(hcode.seen hs).mono ?_, (hmore.seen (h₁.strict ▸ hs)).mono ?_⟩
    · exact fun x ⟨hown, hres⟩ => ⟨hown, fun hr => hres (hr.anti h₂)⟩
    · rintro x ⟨hown, hres⟩
      exact (hcode.own x hown).imp_left fun hown => ⟨hown, hres⟩
  flow := by
    rcases hcode.flow with hjumps | hcode
    · exact .inl hjumps
    rcases hmore.flow with hjumps | hmore
    · exact .inl (h₁.jumps ▸ hjumps)
    · exact .inr (allMention_append.2 ⟨hcode, hmore⟩)
  own x hx := by
    rw [allBinds_append, mem_append, ← or_assoc]
    exact (hmore.own x hx).imp_left (hcode.own x)
  names := by
    obtain ⟨made, hnodup, hmade, hnames⟩ := hcode.names
    obtain ⟨made', hnodup', hmade', hnames'⟩ := hmore.names
    refine ⟨made ++ made', nodup_append.2 ⟨hnodup, hnodup', ?_⟩, ?_, ?_⟩
    · rintro x hx _ hx' rfl
      exact (hmade x hx).not_both (hmade' x hx')
    · rintro x hx
      rcases mem_append.1 hx with hx | hx
      · exact (hmade x hx).later h₂
      · exact (hmade' x hx).earlier h₁
    -- what the second part takes was left by the first or is new
    · rw [allDeclared_append, append_assoc, append_assoc]
      refine ((Subperm.refl _).append hnames').trans ?_
      refine (perm_append_comm_assoc _ _ _).subperm.trans ?_
      refine ((Subperm.refl _).append hnames).trans ?_
      exact (perm_append_comm_assoc _ _ _).subperm

structure Naming.CanWrite (Γ : Naming) (code : List Yul.Stmt) : Prop where
  seen : Γ.strict → AllScoped Γ.Knows code
  flow : Γ.jumps ∨ AllMention (fun _ => True) code

theorem Naming.CanWrite.later (hcode : Γ.CanWrite code) (h : Γ ≤ Γ') : Γ'.CanWrite code :=
  ⟨fun hs => (hcode.seen (h.strict ▸ hs)).mono (Naming.Knows.mono h), h.jumps ▸ hcode.flow⟩

/-- Code that ends by setting a variable to what is known behind it. -/
theorem Naming.CanWrite.assignOne (hcode : Γ.CanWrite code) (hx : Γ.Knows x)
    (he : e.Mentions (Γ.seeing (allBinds code)).Knows) :
    Γ.CanWrite (code ++ [.assignOne x e]) where
  seen hs := by
    refine allScoped_append.2 ⟨hcode.seen hs, allScoped_cons.2 ⟨⟨?_, ?_⟩, allScoped_nil⟩⟩
    · exact forall_mem_singleton.2 (.inl hx)
    · exact he.mono fun _ => Naming.knows_of_seeing
  flow := hcode.flow.imp_right fun hflow => allMention_append.2
    ⟨hflow, ⟨fun _ _ => trivial, he.mono fun _ _ => trivial⟩, trivial⟩

/-! ## Collected code -/

theorem collect_eq_ok :
    collect m env st = .ok (r, st') ↔ ∃ st₁, m env { st with code := [] } = .ok (r.2, st₁) ∧
      r.1 = st₁.code ∧ st' = { st₁ with code := st.code } := by
  show (m env { st with code := [] } >>= fun p =>
    Except.ok ((p.2.code, p.1), { p.2 with code := st.code })) = .ok (r, st') ↔ _
  rw [Outcome.bind_eq_ok]
  constructor
  · rintro ⟨⟨a, st₁⟩, hrun, hr⟩
    obtain ⟨rfl, rfl⟩ := Outcome.pair_inj hr
    exact ⟨st₁, hrun, rfl, rfl⟩
  · rintro ⟨st₁, hrun, hcode, rfl⟩
    exact ⟨(r.2, st₁), hrun, by rw [← hcode]⟩

theorem inScope_eq_ok :
    inScope m env st = .ok (r, st') ↔
      ∃ st₁, m env { st with scopes := [] :: st.scopes, code := [] } = .ok (r.2, st₁) ∧
        r.1 = st₁.code ∧ st' = { st₁ with code := st.code, scopes := st.scopes } := by
  show (collect m env { st with scopes := [] :: st.scopes } >>= fun q =>
    Except.ok (q.1, { q.2 with scopes := st.scopes })) = .ok (r, st') ↔ _
  rw [Outcome.bind_eq_ok]
  constructor
  · rintro ⟨⟨r, st₁⟩, hrun, hr⟩
    obtain ⟨rfl, rfl⟩ := Outcome.pair_inj hr
    obtain ⟨st₂, hinner, hcode, rfl⟩ := collect_eq_ok.1 hrun
    exact ⟨st₂, hinner, hcode, rfl⟩
  · rintro ⟨st₁, hrun, hcode, rfl⟩
    exact ⟨(r, _), collect_eq_ok.2 ⟨st₁, hrun, hcode, rfl⟩, rfl⟩

end Lowering

end ContractYul
