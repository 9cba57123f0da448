import ContractYul.Proofs.Catalog.Keys

/-!
# What a file sees

The classes in sight of a file are those of its imports, in the order of the imports, and then its own.
Every class of a catalog is one of them. Events are found among all of them by name alone: the first
class in sight that declares an event of a name decides what the name stands for, whichever class
asks.

Main statement: `Catalog.sees_ofFile`.
-/

open List

namespace ContractYul

open Source Outcome

/-! ## The first value of a name -/

namespace OrderedMap

variable {α : Type}

theorem insertEntry_of_notMem {entries : List (String × α)} (h : key ∉ entries.map (·.1)) :
    insertEntry key value entries = entries ++ [(key, value)] := by
  induction entries with
  | nil => rfl
  | cons e rest ih =>
    obtain ⟨k, v⟩ := e
    obtain ⟨hne, hrest⟩ : key ≠ k ∧ key ∉ rest.map (·.1) := by simpa using h
    rw [insertEntry, if_neg hne.symm, ih hrest, cons_append]

theorem isSome_get?_iff {m : OrderedMap α} : (m.get? key).isSome ↔ key ∈ m.entries.map (·.1) := by
  unfold get?
  induction m.entries with
  | nil => simp
  | cons e rest ih =>
    obtain ⟨k, v⟩ := e
    by_cases h : key = k
    · simp
    · rw [lookup_cons, beq_false_of_ne h, map_cons, mem_cons, or_iff_right h]
      exact ih

theorem get?_insertNew (m : OrderedMap α) (key name : String) (value : α) :
    (m.insertNew key value).get? name =
      (m.get? name).or (if key = name then some value else none) := by
  unfold insertNew
  split
  · rename_i hkey
    have hsome : (m.get? key).isSome := isSome_get?_iff.2 (by simpa [contains, keys] using hkey)
    by_cases h : key = name
    · subst h
      rw [Option.or_of_isSome hsome]
    · rw [if_neg h, Option.or_none]
  · rename_i hkey
    have hfree : key ∉ m.entries.map (·.1) := by simpa [contains, keys] using hkey
    show (insertEntry key value m.entries).lookup name = _
    rw [insertEntry_of_notMem hfree, lookup_append]
    by_cases h : key = name
    · simp [get?, h]
    · rw [lookup_cons, beq_false_of_ne (Ne.symm h), if_neg h]
      rfl

end OrderedMap

namespace Declarations

def firstEvent? (classes : List ClassDecl) (name : String) : Option EventDecl :=
  classes.findSome? fun c => c.events.find? (·.name == name)

def importedClasses (available : List File) (i : Import) : List ClassDecl :=
  match available.find? (·.path == i.path) with
  | none => []
  | some file =>
    if i.names.isEmpty then file.classes
    else i.names.flatMap fun name => file.classes.filter (·.name == name)

def visibleClasses (file : File) (available : List File) : List ClassDecl :=
  file.imports.flatMap (importedClasses available) ++ file.classes

structure Sees (d : Declarations) (visible : List ClassDecl) : Prop where
  classes : ∀ e ∈ d.classes.entries, e.2 ∈ visible
  events : ∀ name, d.events.get? name = firstEvent? visible name

namespace Sees

variable {d : Declarations} {visible : List ClassDecl}

theorem empty : Sees {} [] :=
  ⟨forall_mem_nil _, fun _ => rfl⟩

theorem get?_foldl_insertNew (events : List EventDecl) (m : OrderedMap EventDecl) (name : String) :
    (events.foldl (fun m e => m.insertNew e.name e) m).get? name =
      (m.get? name).or (events.find? (·.name == name)) := by
  induction events generalizing m with
  | nil => simp
  | cons e events ih =>
    rw [foldl_cons, ih, OrderedMap.get?_insertNew, Option.or_assoc, find?_cons]
    by_cases h : e.name = name
    · simp [h]
    · rw [if_neg h, Option.none_or, beq_false_of_ne h]

theorem addClass (h : d.Sees visible) (c : ClassDecl) : (d.addClass c).Sees (visible ++ [c]) where
  classes e he := by
    rcases mem_insertEntry he with rfl | he
    · exact mem_append_right _ (mem_singleton.2 rfl)
    · exact mem_append_left _ (h.classes e he)
  events name := by
    rw [firstEvent?, findSome?_append, ← firstEvent?, ← h.events]
    rw [findSome?_singleton]
    exact get?_foldl_insertNew c.events d.events name

theorem addClasses (h : d.Sees visible) (classes : List ClassDecl) :
    (classes.foldl Declarations.addClass d).Sees (visible ++ classes) := by
  induction classes generalizing d visible with
  | nil => simpa using h
  | cons c classes ih => simpa using ih (h.addClass c)

theorem addInterface (h : d.Sees visible) (i : InterfaceDecl) :
    (d.addInterface i).Sees visible := by
  unfold Declarations.addInterface
  split <;> exact ⟨h.classes, h.events⟩

theorem addFile (h : d.Sees visible) (file : File) :
    (d.addFile file).Sees (visible ++ file.classes) :=
  addFile_invariant (P := (Sees · (visible ++ file.classes))) (h.addClasses file.classes)
    (fun _ i h => h.addInterface i) (fun _ _ h => ⟨h.classes, h.events⟩)
    (fun _ _ h => ⟨h.classes, h.events⟩) fun _ _ h => ⟨h.classes, h.events⟩

variable {d' : Declarations}

theorem addParts (h : d.Sees visible) {file : File} {names : List String}
    (hd' : names.foldlM (fun d name =>
      if (file.only name).declaresNothing then .error (.unresolvedImport path name)
      else .ok (d.addFile (file.only name))) d = (.ok d' : Outcome Declarations)) :
    d'.Sees (visible ++ names.flatMap fun name => file.classes.filter (·.name == name)) := by
  induction names generalizing d visible with
  | nil =>
    cases hd'
    simpa using h
  | cons name names ih =>
    rw [foldlM_cons] at hd'
    obtain ⟨d₁, hstep, hrest⟩ := bind_eq_ok.1 hd'
    split at hstep
    · cases hstep
    · cases hstep
      have hfile := ih (h.addFile (file.only name)) hrest
      rwa [append_assoc] at hfile

theorem addImport (h : d.Sees visible) (hd' : Declarations.addImport d available i = .ok d') :
    d'.Sees (visible ++ importedClasses available i) := by
  unfold Declarations.addImport at hd'
  unfold importedClasses
  cases hfile : available.find? (·.path == i.path) with
  | none =>
    rw [hfile] at hd'
    cases hd'
  | some file =>
    simp only [hfile] at hd' ⊢
    split at hd'
    · rename_i hall
      cases hd'
      rw [if_pos hall]
      exact h.addFile file
    · rename_i hall
      rw [if_neg hall]
      exact h.addParts hd'

theorem addImports (h : d.Sees visible) {imports : List Import}
    (hd' : imports.foldlM (fun d i => Declarations.addImport d available i) d = .ok d') :
    d'.Sees (visible ++ imports.flatMap (importedClasses available)) := by
  induction imports generalizing d visible with
  | nil =>
    cases hd'
    simpa using h
  | cons i imports ih =>
    obtain ⟨d₁, hstep, hrest⟩ := bind_eq_ok.1 hd'
    have hall := ih (h.addImport hstep) hrest
    rwa [append_assoc] at hall

end Sees

end Declarations

theorem Catalog.sees_ofFile {file : File} (h : Catalog.ofFile file available = .ok c) :
    c.toDeclarations.Sees (Declarations.visibleClasses file available) := by
  obtain ⟨imported, himports, hd⟩ := bind_eq_ok.1 (made_ofFile h).1
  rw [← pure_eq_ok.1 hd]
  exact (Declarations.Sees.empty.addImports himports).addFile file

end ContractYul
