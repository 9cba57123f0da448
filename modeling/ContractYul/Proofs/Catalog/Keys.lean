import ContractYul.Proofs.Catalog.Sizes

/-!
# Functions and classes under their names

A catalog keeps each class, and each function outside classes, under the name that it declares,
whichever files it comes from. So what is found by a name has that name.
-/

namespace ContractYul

open Source Outcome

namespace Declarations

variable {d : Declarations}

/-- What the classes of a file bring about and its other declarations keep holds behind the file. -/
theorem addFile_invariant {P : Declarations → Prop} (h : P (file.classes.foldl addClass d))
    (hinterface : ∀ d i, P d → P (addInterface d i)) (henum : ∀ d e, P d → P (addEnum d e))
    (halias : ∀ d a, P d → P (addAlias d a)) (hfunction : ∀ d f, P d → P (addFunction d f)) :
    P (d.addFile file) := by
  have hinterfaces := List.foldlRecOn (motive := P) file.interfaces addInterface h
    fun d hd i _ => hinterface d i hd
  have henums := List.foldlRecOn (motive := P) file.enums addEnum hinterfaces
    fun d hd e _ => henum d e hd
  have haliases := List.foldlRecOn (motive := P) file.aliases addAlias henums
    fun d hd a _ => halias d a hd
  exact List.foldlRecOn (motive := P) file.functions addFunction haliases
    fun d hd f _ => hfunction d f hd

structure Keyed (d : Declarations) : Prop where
  functions : ∀ e ∈ d.functions.entries, e.2.name = e.1
  classes : ∀ e ∈ d.classes.entries, e.2.name = e.1

theorem Keyed.addClass (h : d.Keyed) (c : ClassDecl) : (d.addClass c).Keyed where
  functions := h.functions
  classes e he := by
    rcases mem_insertEntry he with rfl | he
    · rfl
    · exact h.classes e he

theorem Keyed.addFunction (h : d.Keyed) (f : FunctionDecl) : (d.addFunction f).Keyed where
  functions e he := by
    rcases mem_insertEntry he with rfl | he
    · rfl
    · exact h.functions e he
  classes := h.classes

theorem Keyed.addInterface (h : d.Keyed) (i : InterfaceDecl) : (d.addInterface i).Keyed := by
  unfold Declarations.addInterface
  split <;> exact ⟨h.functions, h.classes⟩

theorem Keyed.addFile (h : d.Keyed) (file : File) : (d.addFile file).Keyed :=
  addFile_invariant
    (List.foldlRecOn (motive := Keyed) file.classes Declarations.addClass h fun _ h c _ => h.addClass c)
    (fun _ i h => h.addInterface i) (fun _ _ h => ⟨h.functions, h.classes⟩)
    (fun _ _ h => ⟨h.functions, h.classes⟩) fun _ f h => h.addFunction f

/-- What a file sees is kept under its own name, whether files are imported whole or in part. -/
theorem keyed_ofFile (h : Declarations.ofFile file available = .ok d) : d.Keyed := by
  obtain ⟨imported, himports, h⟩ := bind_eq_ok.1 h
  cases h
  have hempty : Keyed {} := ⟨List.forall_mem_nil _, List.forall_mem_nil _⟩
  refine .addFile (foldlM_invariant Keyed himports hempty fun d i d' _ hstep hd => ?_) file
  unfold Declarations.addImport at hstep
  split at hstep
  · cases hstep
  · split at hstep
    · cases hstep
      exact hd.addFile _
    · refine foldlM_invariant Keyed hstep hd fun d name d' _ hstep hd => ?_
      simp only at hstep
      split at hstep
      · cases hstep
      · cases hstep
        exact hd.addFile _

end Declarations

namespace Catalog

variable {c : Catalog}

theorem keyed_ofFile (h : Catalog.ofFile file available = .ok c) : c.Keyed :=
  Declarations.keyed_ofFile (made_ofFile h).1

theorem name_of_freeFunction? (hc : c.Keyed) (h : c.freeFunction? name = some f) :
    f.name = name := by
  obtain ⟨hget, -⟩ := Option.filter_eq_some_iff.1 h
  exact hc.functions (name, f) (OrderedMap.mem_of_get? hget)

theorem name_of_class? (hc : c.Keyed) (h : c.class? name = some cls) : cls.name = name :=
  hc.classes (name, cls) (OrderedMap.mem_of_get? h)

end Catalog

end ContractYul
