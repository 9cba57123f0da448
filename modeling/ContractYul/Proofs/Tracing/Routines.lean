import ContractYul.Proofs.Tracing.Basic

/-!
# Routines that change storage

A call of a routine counts as one that changes storage. This module says that it does so for a
reason: among the routines with a fixed text, those that count are those whose own text changes
storage, by an instruction or by a further routine that counts. The text of a routine that does not
count as reading storage either does not read it.
-/

namespace ContractYul

open Yul Lowering

def Preserves (i : Invocation) : Prop :=
  ¬ UsesStorage true i.name

namespace Routine

variable {r : Routine}

abbrev Harmless (r : Routine) (name : String) : Prop :=
  IsCalm name ∨ name = "sload" ∨ ∃ s ∈ r.needs, name = s.name ∧ s.changesStorage? ≠ some true

theorem Harmless.preserves (h : r.Harmless i.name) : Preserves i := by
  intro huse
  rcases h with hcalm | hload | ⟨s, -, hname, hs⟩
  · exact not_usesStorage_of_isCalm hcalm huse
  · have hread : UsesStorage false i.name := .inl ⟨false, hload⟩
    cases hread.unique huse
  · exact hs (usesStorage_name.1 (hname ▸ huse))

/-- A fixed routine that counts stores a word; the text of the others has harmless names only. -/
theorem stores_fixed (target : Target) (r : FixedRoutine) :
    if (Routine.fixed r).changesStorage? = some true then
      ∃ i ∈ Stmt.allInvocations (r.definition target).body, i.name = "sstore"
    else ∀ i ∈ Stmt.allInvocations (r.definition target).body, (Routine.fixed r).Harmless i.name := by
  cases r <;> cases target <;> decide +kernel

/-- A family and a panic need no routine that uses storage, so calm calls of theirs do not. -/
theorem Calm.preserves (h : r.Calm c) (hr : ∀ s ∈ r.needs, s.changesStorage? ≠ some write) :
    ¬ UsesStorage write c.name := by
  rcases h with ⟨-, hcalm⟩ | hneeded
  · exact not_usesStorage_of_isCalm hcalm
  · obtain ⟨s, hs, rfl⟩ := List.mem_map.1 hneeded
    rw [name_signature, usesStorage_name]
    exact hr s hs

/-- A routine with a fixed text counts as one that changes storage when its text does. -/
theorem usesStorage_iff_definition (h : r.definition? target = some f) :
    UsesStorage true r.name ↔ ∃ i ∈ Stmt.allInvocations f.body, UsesStorage true i.name := by
  rw [usesStorage_name]
  cases r with
  | fixed r =>
    cases h
    have hstores := stores_fixed target r
    split at hstores
    · obtain ⟨i, hi, hname⟩ := hstores
      exact iff_of_true ‹_› ⟨i, hi, .inl ⟨false, hname⟩⟩
    · refine iff_of_false ‹_› ?_
      rintro ⟨i, hi, huse⟩
      exact (hstores i hi).preserves huse
  | panic code =>
    cases h
    refine iff_of_false (by simp [changesStorage?]) ?_
    rintro ⟨i, hi, huse⟩
    obtain ⟨n, hcalm⟩ := (linked_panic code).invocations i hi
    exact Calm.preserves hcalm (List.forall_mem_nil _) huse
  | family f arity =>
    cases h
    refine iff_of_false (by simp [changesStorage?]) ?_
    rintro ⟨i, hi, huse⟩
    obtain ⟨n, hcalm⟩ := (linked_family f arity).invocations i hi
    refine Calm.preserves hcalm ?_ huse
    cases f <;> simp [needs, changesStorage?]
  | loadStruct | storeStruct => cases h

abbrev Quiet (r : Routine) (i : Invocation) : Prop :=
  IsCalm i.name ∨ ∃ s ∈ r.needs, i.name = s.name ∧ s.changesStorage? = none

theorem Quiet.not_usesStorage (h : r.Quiet i) : ¬ UsesStorage write i.name := by
  rcases h with hcalm | ⟨s, -, hname, hs⟩
  · exact not_usesStorage_of_isCalm hcalm
  · rw [hname, usesStorage_name, hs]
    simp

/-- The text of a routine that does not count as using storage does not use it. -/
theorem not_usesStorage_of_definition (h : r.definition? target = some f)
    (hr : r.changesStorage? = none) (hi : i ∈ Stmt.allInvocations f.body) :
    ¬ UsesStorage write i.name := by
  cases r with
  | fixed r =>
    cases h
    have hquiet : ∀ i ∈ Stmt.allInvocations (r.definition target).body, (fixed r).Quiet i := by
      revert hr
      cases r <;> cases target <;> decide +kernel
    exact (hquiet i hi).not_usesStorage
  | panic code =>
    cases h
    obtain ⟨n, hcalm⟩ := (linked_panic code).invocations i hi
    exact Calm.preserves hcalm (List.forall_mem_nil _)
  | family f arity =>
    cases h
    obtain ⟨n, hcalm⟩ := (linked_family f arity).invocations i hi
    refine Calm.preserves hcalm ?_
    cases f <;> simp [needs, changesStorage?]
  | loadStruct | storeStruct => cases h

theorem name_of_storageArrayIndex
    (hi : i ∈ Stmt.allInvocations (FixedRoutine.storageArrayIndex.definition target).body)
    (h : UsesStorage write i.name) : i.name = loadName false := by
  have hnames : ∀ i ∈ Stmt.allInvocations (FixedRoutine.storageArrayIndex.definition target).body,
      (fixed .storageArrayIndex).Quiet i ∨ i.name = loadName false := by
    cases target <;> decide +kernel
  exact (hnames i hi).resolve_left fun hquiet => hquiet.not_usesStorage h

end Routine

end ContractYul
