import ContractYul.Lowering.Function
import ContractYul.Proofs.Routine.Closed

/-!
# Naming schemes

The functions of a compiled class are named by schemes: methods and overridden bodies, library
methods, free functions, getters, constructors and routines. The first three characters tell free
functions, getters, constructors and routines from each other and from all methods. Each scheme gives
different names to different things, but for the names of methods with their class: an underscore
between the two does not tell where the one ends and the other starts.
-/

namespace ContractYul

open Lowering FixedRoutine Routine

def stem (name : String) : List Char :=
  name.toList.take 3

/-- A long first part has the stem of the whole name. -/
theorem stem_append (name : String) (h : 3 ≤ front.toList.length) :
    stem (front ++ name) = stem front := by
  rw [stem, String.toList_append, List.take_append_of_le_length h, stem]

@[simp]
theorem stem_functionName (method : String) : stem (functionName method) = ['f', 'u', 'n'] := by
  rw [functionName, stem_append _ (by decide)]
  decide

@[simp]
theorem stem_renamedName (className method : String) :
    stem (renamedName className method) = ['f', 'u', 'n'] := by
  rw [renamedName, String.append_assoc, String.append_assoc, stem_append _ (by decide)]
  decide

@[simp]
theorem stem_libraryFunctionName (owner method : String) :
    stem (libraryFunctionName owner method) = ['f', 'u', 'n'] :=
  stem_renamedName owner method

@[simp]
theorem stem_freeFunctionName (name : String) : stem (freeFunctionName name) = ['f', 'r', 'e'] := by
  rw [freeFunctionName, stem_append _ (by decide)]
  decide

@[simp]
theorem stem_getterName (field : String) : stem (getterName field) = ['g', 'e', 't'] := by
  rw [getterName, stem_append _ (by decide)]
  decide

@[simp]
theorem stem_constructorName (className : String) :
    stem (constructorName className) = ['c', 'o', 'n'] := by
  rw [constructorName, stem_append _ (by decide)]
  decide

def ownStems : List (List Char) :=
  [['f', 'u', 'n'], ['f', 'r', 'e'], ['g', 'e', 't'], ['c', 'o', 'n']]

theorem stem_routine (r : Routine) : stem r.name ∉ ownStems := by
  cases r with
  | fixed r =>
    have hall : ∀ r ∈ all, stem r.name ∉ ownStems := by decide +kernel
    exact hall r (Routine.mem_allFixed r)
  | panic code =>
    rw [Routine.name, panicName, stem_append _ (by decide)]
    decide
  | family f arity =>
    have hall : ∀ f ∈ RoutineFamily.all, stem ("__" ++ f.stem) ∉ ownStems ∧
        3 ≤ ("__" ++ f.stem).toList.length := by
      decide
    obtain ⟨hstem, hlength⟩ := hall f (Routine.mem_allFamilies f)
    rwa [Routine.name, RoutineFamily.name, String.append_assoc, stem_append _ hlength]
  | loadStruct s =>
    show stem ("storage_load_struct_" ++ s) ∉ ownStems
    rw [stem_append _ (by decide)]
    decide
  | storeStruct s =>
    show stem ("storage_store_struct_" ++ s) ∉ ownStems
    rw [stem_append _ (by decide)]
    decide

theorem stem_instruction {name : String} (h : name ∈ Yul.instructionNames) :
    stem name ∉ ownStems := by
  have hall : ∀ name ∈ Yul.instructionNames, stem name ∉ ownStems := by decide +kernel
  exact hall name h

/-! ## Names within a scheme -/

theorem append_left_injective (front : String) : Function.Injective (front ++ ·) := by
  intro a b h
  have hlist := congrArg String.toList h
  rw [String.toList_append, String.toList_append] at hlist
  exact String.toList_inj.1 (List.append_cancel_left hlist)

theorem functionName_injective : Function.Injective functionName :=
  append_left_injective _

theorem freeFunctionName_injective : Function.Injective freeFunctionName :=
  append_left_injective _

theorem getterName_injective : Function.Injective getterName :=
  append_left_injective _

/-- An overridden body is named like a method that has the name of its class in its own. -/
theorem renamedName_eq (className method : String) :
    renamedName className method = functionName (className ++ "_" ++ method) := by
  simp only [renamedName, functionName, String.append_assoc]

theorem libraryFunctionName_eq (owner method : String) :
    libraryFunctionName owner method = functionName (owner ++ "_" ++ method) :=
  renamedName_eq owner method

/-! ### Routines -/

def marks : List String :=
  [panicStem, "__", "storage_load_struct_", "storage_store_struct_"]

def markOf? (name : String) : Option String :=
  marks.find? fun mark => mark.toList.isPrefixOf name.toList

def Routine.mark? : Routine → Option String
  | .fixed _ => none
  | .panic _ => some panicStem
  | .family _ _ => some "__"
  | .loadStruct _ => some "storage_load_struct_"
  | .storeStruct _ => some "storage_store_struct_"

/-- The marks are recognized, since none is the start of another. -/
theorem markOf?_append (h : mark ∈ marks) (name : String) : markOf? (mark ++ name) = some mark := by
  rw [markOf?, String.toList_append]
  simp only [marks, List.mem_cons, List.not_mem_nil, or_false] at h
  rcases h with rfl | rfl | rfl | rfl <;> rfl

theorem markOf?_name (r : Routine) : markOf? r.name = r.mark? := by
  cases r with
  | fixed r =>
    have hall : ∀ r ∈ all, markOf? r.name = none := by decide +kernel
    exact hall r (Routine.mem_allFixed r)
  | panic code => exact markOf?_append (by simp [marks]) _
  | family f arity =>
    rw [Routine.name, RoutineFamily.name, String.append_assoc, String.append_assoc]
    exact markOf?_append (by simp [marks]) _
  | loadStruct s => exact markOf?_append (by simp [marks]) s
  | storeStruct s => exact markOf?_append (by simp [marks]) s

theorem FixedRoutine.name_injective : Function.Injective name := by
  intro r s h
  have hnodup : (all.map name).Nodup := by decide +kernel
  exact List.inj_on_of_nodup_map hnodup (mem_allFixed r) (mem_allFixed s) h

theorem hexPadded_injective (width : Nat) : Function.Injective (Text.hexPadded width) := by
  intro a b h
  have hsame := Text.digitsFrom?_hexPadded width a
  rw [h, Text.digitsFrom?_hexPadded] at hsame
  exact (Option.some.inj hsame).symm

/-- The number of arguments stands behind the last underscore. -/
theorem RoutineFamily.name_injective {f g : RoutineFamily} (h : f.name m = g.name n) :
    f = g ∧ m = n := by
  have hlist := congrArg String.toList h
  simp only [RoutineFamily.name, String.toList_append] at hlist
  have hsplit : ∀ (f : RoutineFamily) (k : Nat), "__".toList ++ f.stem.toList ++ "_".toList ++
      (toString k).toList = ("__".toList ++ f.stem.toList) ++ '_' :: (toString k).toList := by
    intro f k
    rw [List.append_assoc _ "_".toList]
    rfl
  rw [hsplit, hsplit] at hlist
  obtain ⟨hfront, hback⟩ := Text.split_at_last (Text.underscore_notMem_toString m)
    (Text.underscore_notMem_toString n) hlist
  have hstems : (RoutineFamily.all.map RoutineFamily.stem).Nodup := by decide
  refine ⟨List.inj_on_of_nodup_map hstems (mem_allFamilies f) (mem_allFamilies g) ?_, ?_⟩
  · exact String.toList_inj.1 (List.append_cancel_left hfront)
  · exact Yul.toString_injective (String.toList_inj.1 hback)

theorem Routine.name_injective : Function.Injective name := by
  intro r s h
  have hmark : r.mark? = s.mark? := by rw [← markOf?_name, h, markOf?_name]
  cases r <;> cases s <;> try simp [mark?, panicStem] at hmark
  case fixed.fixed => rw [FixedRoutine.name_injective h]
  case panic.panic => rw [hexPadded_injective 2 (append_left_injective _ h)]
  case family.family =>
    obtain ⟨rfl, rfl⟩ := RoutineFamily.name_injective h
    rfl
  case loadStruct.loadStruct => rw [append_left_injective _ h]
  case storeStruct.storeStruct => rw [append_left_injective _ h]

end ContractYul
