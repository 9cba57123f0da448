import ContractYul.Proofs.Coding.Allocation
import ContractYul.Proofs.Lowering.Elements

/-!
# Bounds of fixed arrays

A literal index below `2 ^ 128` is compared with the length of a fixed array while code is written, and
any other index when the code runs. In memory the code compares every index with the length word of
the array.

Main statement: `fixed_index_bounded`.
-/

namespace ContractYul.Lowering

open Yul Machine FixedRoutine Registry Coding

/-- An expression is a literal of a number. -/
def Spells (e : Yul.Expr) (v : Nat) : Prop :=
  ∃ text, e = numText text ∧ numberOf? text = some v

variable {env : Env} {st : State} {elem : Ty} {count span v : Nat} {index : Value} {name : String}

theorem Spells.literalValue? (h : Spells e v) :
    e.literalValue? = if v < 2 ^ 128 then some v else none := by
  obtain ⟨text, rfl, hv⟩ := h
  exact literalValue?_eq hv

theorem spells_of_literalValue? (hnumber : ∀ text, e = numText text → (numberOf? text).isSome)
    (h : e.literalValue? = some v) : Spells e v ∧ v < 2 ^ 128 := by
  cases e with
  | ident => cases h
  | call => cases h
  | literal l =>
    cases l with
    | string => cases h
    | number text =>
      obtain ⟨k, hk⟩ := Option.isSome_iff_exists.1 (hnumber text rfl)
      obtain ⟨hlt, hv⟩ := Option.ite_none_right_eq_some.1 ((literalValue?_eq hk).symm.trans h)
      cases hv
      exact ⟨⟨text, rfl, hk⟩, hlt⟩

/-! ## Arrays in memory -/

theorem produces_memoryElement (hliteral : ∀ i, index.expr.literalValue? = some i → i < count)
    (pointer : Yul.Expr) : ∃ st', Produces (memoryElement pointer (.array elem (some count)) index name)
      env st (.memory (ident (tempName (st.counter + 1))) elem)
      [.letOne (tempName (st.counter + 1)) (memoryArrayIndex.call [pointer, index.expr])] st' ∧
    st'.counter = st.counter + 1 ∧ st'.progress.registry.contains (.fixed .memoryArrayIndex) := by
  have hcode : ∃ st', Produces (do
      let address ← capture ⟨← routine .memoryArrayIndex [pointer, index.expr], .uint 256⟩
      return Place.memory address.expr elem) env st _ _ st' ∧ st'.counter = st.counter + 1 ∧
      st'.progress.registry.contains (.fixed .memoryArrayIndex) :=
    ⟨_, (produces_routine _ _).bind (produces_capture_call.bind (produces_pure _)), rfl,
      contains_add _ rfl⟩
  obtain ⟨st', haddress, hstate⟩ := hcode
  refine ⟨st', ?_, hstate⟩
  unfold memoryElement
  cases hindex : index.expr.literalValue? with
  | none => exact (produces_pure ()).bind (f := fun _ => _) haddress
  | some i =>
    simp only [checkLiteralIndex, if_pos (hliteral i hindex)]
    exact (produces_pure ()).bind haddress

theorem bounds_memory (hcounter : st.counter = n + 1)
    (huses : st.progress.registry.contains (.fixed .memoryArrayIndex))
    (hpointer : ∀ {m σ first stride}, base.Holds m n σ count span first stride →
      ∃ p, m.Yields σ pointer p ∧ σ.world.memory.readWord p = BitVec.ofNat 256 count ∧
        first = p + 32#256 ∧ stride = 32#256) :
    Bounds env n st count span base e
      [.letOne (tempName (n + 1)) (memoryArrayIndex.call [pointer, e])]
      (.memory (ident (tempName (n + 1))) elem) := by
  intro ctx functions limit σ first stride i hsupplied hholds hi hcount _
  obtain ⟨p, hp, hlength, rfl, rfl⟩ := hpointer hholds
  have hword : (σ.world.memory.readWord p).toNat = count := by
    rw [hlength, BitVec.toNat_ofNat, Nat.mod_eq_of_lt hcount]
  obtain ⟨hpasses, hpanics⟩ := apply_elementRoutine (w := σ.world) ctx (.inr rfl)
    (hsupplied (.fixed (elementRoutine 32)) huses) (limit + 1) p i
  rw [hword] at hpasses hpanics
  have hargs : List.Forall₂ ((within ctx functions (limit + 3)).Yields σ) [pointer, e] [p, i] :=
    .cons hp (.cons hi .nil)
  refine ⟨fun hge rest => panics_execAll_cons (panics_exec_letOne hargs (hpanics hge)) rest,
    fun hlt => ?_⟩
  refine ⟨_, .cons (exec_letOne_call hargs (hpasses hlt)) .nil, .set_temp n σ _, ?_⟩
  rw [hcounter]
  exact steady_temp

/-! ## All fixed arrays -/

theorem exists_boundedCode (hty : base.ty = .array elem (some count))
    (hspan : env.catalog.slotsOf elem = .ok span)
    (hliteral : ∀ i, index.expr.literalValue? = some i → i < count) (name : String) (st : State) :
    ∃ element code st', Produces (indexPlace base index name) env st element code st' ∧
      element.ty = elem ∧ Bounds env st.counter st' count span base index.expr code element := by
  cases base with
  | storage slot offset size ty transient =>
    obtain rfl : ty = .array elem (some count) := hty
    have hslots : Produces (slotsOf elem) env st span [] st :=
      ⟨congrArg (·.map (·, st)) hspan, by simp, le_rfl, fun _ h => h⟩
    obtain ⟨e, code, st', hproduces, hbounds⟩ :=
      exists_fixedElementSlot hliteral span slot name env st
    exact ⟨_, _, st', hslots.bind (hproduces.bind (produces_pure _)), rfl,
      by simpa using hbounds offset size (.array elem (some count)) elem transient⟩
  | var x ty =>
    obtain rfl : ty = .array elem (some count) := hty
    obtain ⟨st', hproduces, hcounter, huses⟩ := produces_memoryElement hliteral (ident x)
    refine ⟨_, _, st', (produces_pure _).bind hproduces, rfl, bounds_memory hcounter huses fun h => ?_⟩
    cases h with
    | var hvar hlength => exact ⟨_, yields_ident.2 hvar, hlength, rfl, rfl⟩
  | memory address ty =>
    obtain rfl : ty = .array elem (some count) := hty
    obtain ⟨st', hproduces, hcounter, huses⟩ := produces_memoryElement hliteral (Op.mload address)
    refine ⟨_, _, st', (produces_pure _).bind hproduces, rfl, bounds_memory hcounter huses fun h => ?_⟩
    cases h with
    | memory haddress hword hlength => exact ⟨_, hword ▸ haddress.mload, hlength, rfl, rfl⟩
  | memoryByte => cases hty

theorem indexPlace_eq_error (hty : base.ty = .array elem (some count))
    (hspan : env.catalog.slotsOf elem = .ok span)
    (hindex : index.expr.literalValue? = some v) (hge : count ≤ v) :
    indexPlace base index name env st = .error (.indexOutOfBounds name v count) := by
  have hcheck : checkLiteralIndex name v count = .error (.indexOutOfBounds name v count) :=
    if_neg (Nat.not_lt.2 hge)
  have hmemory : ∀ pointer, memoryElement pointer (.array elem (some count)) index name env st =
      .error (.indexOutOfBounds name v count) := fun pointer => by
    simp only [memoryElement, hindex, hcheck]
    rfl
  cases base with
  | storage slot offset size ty transient =>
    obtain rfl : ty = .array elem (some count) := hty
    have hslots : slotsOf elem env st = .ok (span, st) := congrArg (·.map (·, st)) hspan
    refine Outcome.bind_eq_error.2 (.inr ⟨_, hslots, ?_⟩)
    simp only [fixedElementSlot, hindex, hcheck]
    rfl
  | var x ty =>
    obtain rfl : ty = .array elem (some count) := hty
    exact hmemory _
  | memory address ty =>
    obtain rfl : ty = .array elem (some count) := hty
    exact hmemory _
  | memoryByte => cases hty

/-- A literal index below `2 ^ 128` is refused if and only if it is out of range. For every other
index, the code ends the call when the index is out of range, and else leads to the element. -/
theorem fixed_index_bounded {base : Place} (hty : base.ty = .array elem (some count))
    (hspan : env.catalog.slotsOf elem = .ok span)
    (hnumber : ∀ text, index.expr = numText text → (numberOf? text).isSome) (name : String)
    (st : State) :
    (∀ v, Spells index.expr v → v < 2 ^ 128 →
      (indexPlace base index name env st = .error (.indexOutOfBounds name v count) ↔ count ≤ v)) ∧
    ((∀ v, Spells index.expr v → v < 2 ^ 128 → v < count) →
      ∃ element code st', Produces (indexPlace base index name) env st element code st' ∧
        element.ty = elem ∧ Bounds env st.counter st' count span base index.expr code element) := by
  refine ⟨fun v hv hlt => ⟨fun herror => ?_, fun hge => ?_⟩, fun hbelow => ?_⟩
  · by_contra hge
    have hvalue : index.expr.literalValue? = some v := hv.literalValue?.trans (if_pos hlt)
    have hliteral : ∀ i, index.expr.literalValue? = some i → i < count := by
      intro i hi
      obtain rfl := Option.some.inj (hvalue.symm.trans hi)
      exact Nat.not_le.1 hge
    obtain ⟨element, code, st', hproduces, -⟩ := exists_boundedCode hty hspan hliteral name st
    cases herror.symm.trans hproduces.run
  · exact indexPlace_eq_error hty hspan (hv.literalValue?.trans (if_pos hlt)) hge
  · refine exists_boundedCode hty hspan (fun i hi => ?_) name st
    obtain ⟨hspells, hlt⟩ := spells_of_literalValue? hnumber hi
    exact hbelow i hspells hlt

/-- Four pairs of numbers in storage, from the third slot on. -/
def pairs : Place :=
  .storage (num 3) 0 32 (.array (.array (.uint 256) (some 2)) (some 4)) false

def pairsTable : String → Option Yul.Function :=
  tableOf .cancun [.panic outOfBoundsCode]

theorem fixed_index_bounded_pairs : ∃ element code st',
    Produces (indexPlace pairs ⟨ident "i", .uint 256⟩ "pairs") (bareEnv "Pairs") { progress := {} }
      element code st' ∧
    ∀ (ctx : Yul.Context) (σ : Config) (i : Word), σ.vars "i" = some i →
      (4 ≤ i.toNat → Panics outOfBoundsCode σ.world ((within ctx pairsTable 3).execAll code σ)) ∧
      (i.toNat < 4 → ∃ σ', (within ctx pairsTable 3).Runs code σ σ' ∧
        element.LiesAt (within ctx pairsTable 3) st'.counter σ' (3#256 + i * 2#256)) := by
  have hident : ∀ text, ident "i" ≠ numText text := fun text h => by cases h
  obtain ⟨-, hlowers⟩ := @fixed_index_bounded (bareEnv "Pairs") _ _ 2 ⟨ident "i", .uint 256⟩ pairs
    rfl rfl (fun text h => absurd h (hident text)) "pairs" { progress := {} }
  obtain ⟨element, code, st', hproduces, -, hbounds⟩ := hlowers fun v hv => by
    obtain ⟨text, h, -⟩ := hv
    exact absurd h (hident text)
  have hsupplied : Supplied pairsTable .cancun st'.progress :=
    supplied_tableOf hproduces (by decide +kernel) (by decide) .cancun
  refine ⟨element, code, st', hproduces, fun ctx σ i hi => ?_⟩
  obtain ⟨hpanics, hruns⟩ := hbounds ctx pairsTable 0 σ 3#256 2#256 i hsupplied
    (.storage fun _ _ => yields_num (by decide)) (yields_ident.2 hi) (by decide) (by decide)
  refine ⟨fun hge => by simpa using hpanics hge [], fun hlt => ?_⟩
  obtain ⟨σ', hrun, -, hlies⟩ := hruns hlt
  exact ⟨σ', hrun, hlies⟩

/-- A literal of `2 ^ 128` is not refused, however short the array is. -/
theorem literal_beyond_refusal :
    let text := "340282366920938463463374607431768211456"
    Text.normalizeNumber? text = some text ∧ numberOf? text = some (Nat.pow 2 128) ∧
    (indexPlace (.storage (num 0) 0 32 (.array (.uint 256) (some 4)) false)
      ⟨numText text, .uint 256⟩ "slots" (bareEnv "Slots") { progress := {} }).toOption.isSome := by
  decide +kernel

end ContractYul.Lowering
