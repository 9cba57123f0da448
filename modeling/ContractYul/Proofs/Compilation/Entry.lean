import ContractYul.Proofs.Dispatch.Cases

/-!
# Linked entry points

The code in front of the functions of a contract calls the functions that it is made for, each with
as many arguments and results as are declared, and routines that it puts to use. So does the code
that reads constructor arguments, which calls routines only.
-/

namespace ContractYul.Dispatch

open Yul Outcome Stmt

/-! ## The switch -/

theorem linked_special {s : Special} (hs : ⟨s.irName, 0, 0⟩ ∈ functions) :
    AllLinked (Callee functions g) s.code := by
  refine allUse_append.2 ⟨linked_valueCheck s.payable, ?_⟩
  have hs : Callee functions g ⟨s.irName, 0, 0⟩ := .inr hs
  simp [hs, instructed (Callee functions g) ⟨"stop", 0, 0⟩ (by decide)]

def entryCalls (functions : List Abi.Function) (receive fallback : Option Special) : List Call :=
  functions.map (fun f => ⟨f.irName, f.params.length, f.returns.length⟩) ++
    (receive.toList ++ fallback.toList).map fun s => ⟨s.irName, 0, 0⟩

section

theorem linked_entryCode (h : entryCode target g fs receive fallback = .ok (code, g')) :
    g.Grows g' ∧ AllLinked (Callee (entryCalls fs receive fallback) g') code := by
  have hspecial : ∀ s ∈ receive.toList ++ fallback.toList,
      ⟨s.irName, 0, 0⟩ ∈ entryCalls fs receive fallback := fun s hs =>
    List.mem_append_right _ (List.mem_map.2 ⟨s, hs, rfl⟩)
  obtain ⟨sorted, cases, k, -, -, -, rfl, hgrows, hcases⟩ := exists_routing h
  have hcases := hcases (entryCalls fs receive fallback) fun f hf =>
    List.mem_append_left _ (List.mem_map.2 ⟨f, hf, rfl⟩)
  have hsize : (call "calldatasize" []).Linked (Callee (entryCalls fs receive fallback) g') 1 := by
    simp [instructed (Callee (entryCalls fs receive fallback) g') ⟨"calldatasize", 0, 1⟩ (by decide)]
  refine ⟨hgrows, allUse_append.2 ⟨allUse_append.2 ⟨?_, ?_⟩, ?_⟩⟩
  · unfold selection
    split
    · exact trivial
    · have hload := instructed (Callee (entryCalls fs receive fallback) g') ⟨"calldataload", 1, 1⟩
        (by decide)
      simpa [hload, hsize] using hcases
  · cases receive with
    | some r => simpa [reception, hsize] using linked_special (hspecial r (by simp))
    | none => exact trivial
  · cases fallback with
    | some f => exact linked_special (hspecial f (by simp))
    | none => simp [remainder]

theorem definedNames_special (s : Special) : definedNames s.code = [] := by
  unfold Special.code
  split <;> rfl

theorem definedNames_entryCode (h : entryCode target g fs receive fallback = .ok (code, g')) :
    definedNames code = [] := by
  obtain ⟨sorted, cases, k, -, -, -, rfl⟩ := entryCode_eq h
  have hselection : definedNames (selection cases) = [] := by
    unfold selection
    split <;> rfl
  have hreception : definedNames (reception receive) = [] := by
    cases receive <;> rfl
  have hremainder : definedNames (remainder fallback) = [] := by
    cases fallback with
    | none => rfl
    | some f => exact definedNames_special f
  rw [routing, definedNames_append, definedNames_append, hselection, hreception, hremainder]
  rfl

end

/-! ## Constructor arguments -/

section

/-- What reads an argument calls the allocator, which is in use, and the copy routine. -/
theorem linked_readConstructorArgument
    (hposition : ∀ {C : Call → Prop} [Instructed C], position.Linked C 1)
    (halloc : g.contains (.fixed .allocateMemory))
    (h : readConstructorArgument target name position form g = (code, g')) :
    g.Grows g' ∧ AllLinked g'.Callee code := by
  cases form with
  | word =>
    obtain ⟨rfl, rfl⟩ := Prod.mk.inj h
    exact ⟨.refl, by simpa using hposition⟩
  | dynamic unit =>
    obtain ⟨rfl, rfl⟩ := Prod.mk.inj h
    exact ⟨.refl, by simpa using hposition⟩
  | inlined count =>
    obtain ⟨rfl, rfl⟩ := Prod.mk.inj h
    have hgrows : g.Grows (g.add target (.fixed .copyMemory)) := Registry.grows_add target rfl
    have halloc : (g.add target (.fixed .copyMemory)).Callee ⟨"allocate_memory", 1, 1⟩ :=
      .inr ⟨_, hgrows.includes _ halloc, rfl⟩
    have hcopy : (g.add target (.fixed .copyMemory)).Callee ⟨"copy_memory", 3, 0⟩ :=
      .inr ⟨_, Registry.contains_add target rfl, rfl⟩
    refine ⟨hgrows, ?_⟩
    simpa [FixedRoutine.name, halloc, hcopy] using hposition

theorem linked_readConstructorArguments (halloc : g.contains (.fixed .allocateMemory))
    (h : readConstructorArguments target i head params g = .ok (code, g')) :
    g.Grows g' ∧ AllLinked g'.Callee code := by
  induction params generalizing i head g code with
  | nil =>
    cases h
    exact ⟨.refl, trivial⟩
  | cons p rest ih =>
    obtain ⟨form, -, h⟩ := bind_eq_ok.1 h
    obtain ⟨⟨more, g₂⟩, hmore, h⟩ := bind_eq_ok.1 h
    cases h
    obtain ⟨hgrows, hfirst⟩ := linked_readConstructorArgument linked_offsetFrom halloc
      (Prod.eta _).symm
    obtain ⟨hgrows', hrest⟩ := ih (hgrows.includes _ halloc) hmore
    refine ⟨hgrows.trans hgrows', allUse_append.2 ⟨?_, hrest⟩⟩
    exact hfirst.mono fun _ => hgrows'.includes.callee

theorem linked_constructorArguments
    (h : constructorArguments target object params g = .ok (code, args, g')) :
    g.Grows g' ∧ AllLinked g'.Callee code ∧ args.length = params.length ∧
      ∀ C : Call → Prop, ∀ e ∈ args, e.Linked C 1 := by
  unfold constructorArguments at h
  split at h
  · rename_i hempty
    obtain ⟨rfl, hrest⟩ := pair_inj h
    obtain ⟨rfl, rfl⟩ := Prod.mk.inj hrest
    rw [List.isEmpty_iff.1 hempty]
    exact ⟨.refl, trivial, rfl, fun _ => List.forall_mem_nil _⟩
  · obtain ⟨⟨reads, g₂⟩, hreads, h⟩ := bind_eq_ok.1 h
    obtain ⟨rfl, hrest⟩ := pair_inj h
    obtain ⟨rfl, rfl⟩ := Prod.mk.inj hrest
    have hadded : g.Grows (g.add target (.fixed .allocateMemory)) := Registry.grows_add target rfl
    have hcontains : (g.add target (.fixed .allocateMemory)).contains (.fixed .allocateMemory) :=
      Registry.contains_add target rfl
    obtain ⟨hgrows, hlinked⟩ := linked_readConstructorArguments hcontains hreads
    have halloc : g₂.Callee ⟨"allocate_memory", 1, 1⟩ := .inr ⟨_, hgrows.includes _ hcontains, rfl⟩
    have hcodesize := instructed g₂.Callee ⟨"codesize", 0, 1⟩ (by decide)
    have hdatasize := instructed g₂.Callee ⟨"datasize", 1, 1⟩ (by decide)
    have hcodecopy := instructed g₂.Callee ⟨"codecopy", 3, 0⟩ (by decide)
    refine ⟨hadded.trans hgrows, allUse_append.2 ⟨?_, hlinked⟩, by simp, fun C => ?_⟩
    · simp [FixedRoutine.name, halloc, hcodesize, hdatasize, hcodecopy]
    · exact List.forall_mem_map.2 fun _ _ => trivial

end

end ContractYul.Dispatch
