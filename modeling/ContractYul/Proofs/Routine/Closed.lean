import ContractYul.Proofs.Routine.Scoped
import ContractYul.Proofs.Yul.Uses
import ContractYul.Routine.Shape
import Mathlib.Data.List.Basic

/-!
# Closed registries

The definition of a routine calls instructions and the routines that it needs, each with as many
arguments and results as that routine has. Putting a routine to use adds what it needs as well, so
that a registry stays closed: each of its definitions calls instructions and routines that are
defined in it. The definitions stand in the order of their routines, and are well scoped.
-/

open List hiding all

namespace ContractYul

open Yul FixedRoutine Stmt Routine

theorem linked_shape (h : Shape.literal codes bits = .ok e) : e.Linked C n := by
  unfold Shape.literal at h
  split at h
  · cases h
  · cases h
    trivial

def RoutineFamily.params : RoutineFamily → Nat → Nat
  | .abiEncode, n | .abiEncodePacked, n => n + 2
  | .abiEncodeSelector, n | .staticCall, n | .delegateCall, n => n + 3
  | .call, n | .create, n => n + 4
  | .create2, n => n + 5
  | .abiDecode, _ => 2

def RoutineFamily.results : RoutineFamily → Nat → Nat
  | .abiEncode, _ | .abiEncodePacked, _ | .abiEncodeSelector, _ | .create, _ | .create2, _ => 1
  | .call, _ | .staticCall, _ | .delegateCall, _ => 2
  | .abiDecode, n => n

namespace Routine

def signature : Routine → Call
  | .fixed r => (r.definition .cancun).signature
  | .panic code => ⟨panicName code, 0, 0⟩
  | .family f arity => ⟨f.name arity, f.params arity, f.results arity⟩
  | .loadStruct s => ⟨loadStructName s, 1, 1⟩
  | .storeStruct s => ⟨storeStructName s, 2, 0⟩

theorem name_signature (r : Routine) : r.signature.name = r.name := by
  cases r with
  | fixed r => cases r <;> rfl
  | family f arity => cases f <;> rfl
  | panic | loadStruct | storeStruct => rfl

/-! ## What definitions call -/

def Needed (r : Routine) (c : Call) : Prop :=
  c ∈ instructions ∨ c ∈ r.needs.map signature

instance (r : Routine) (c : Call) : Decidable (r.Needed c) :=
  inferInstanceAs (Decidable (_ ∨ _))

/-- A call of an instruction that leaves storage alone, or of a routine that `r` needs. -/
def Calm (r : Routine) (c : Call) : Prop :=
  c ∈ instructions ∧ IsCalm c.name ∨ c ∈ r.needs.map signature

instance (r : Routine) : Calms (Use.Calls r.Calm) where
  calm _ h hcalm := .inl ⟨h, hcalm⟩

variable {r : Routine}

theorem calm_of_mem (h : s ∈ r.needs) : r.Calm s.signature :=
  .inr (mem_map_of_mem h)

section

variable {A : Use → Prop} {r : FixedRoutine} {args : List Expr} {n : Nat}

@[simp]
theorem uses_fixedCall : (r.call args).Uses A n ↔ A ⟨r.name, args, n⟩ ∧ ∀ e ∈ args, e.Uses A 1 :=
  fits_call

@[simp]
theorem uses_fixedRun : (r.run args).Uses A ↔ A ⟨r.name, args, 0⟩ ∧ ∀ e ∈ args, e.Uses A 1 :=
  fits_call

theorem uses_codeAt [Reads A] : (RoutineFamily.codeAt word bits position mask).Uses A 1 := by
  unfold RoutineFamily.codeAt
  dsimp only
  split <;> simp

theorem length_numbered (stem : String) (count : Nat) :
    (RoutineFamily.numbered stem count).length = count := by
  simp [RoutineFamily.numbered]

end

/-- The definition of a fixed routine; the target changes its code only, not how it is called. -/
theorem linked_fixed (target : Target) (r : FixedRoutine) :
    (r.definition target).signature = (fixed r).signature ∧
      AllLinked (fixed r).Needed (r.definition target).body := by
  rw [allLinked_iff]
  cases r <;> cases target <;> decide +kernel

theorem signature_family (f : RoutineFamily) (arity : Nat) :
    (f.definition arity).signature = (family f arity).signature := by
  cases f <;>
    simp [RoutineFamily.definition, Function.signature, signature, RoutineFamily.abiEncodeDef,
      RoutineFamily.abiEncodePackedDef, RoutineFamily.abiEncodeSelectorDef,
      RoutineFamily.abiDecodeDef, RoutineFamily.externalCallDef, RoutineFamily.creationDef,
      RoutineFamily.params, RoutineFamily.results, length_numbered]

theorem linked_externalCall (hneeds : (family f arity).needs =
      [.family .abiEncodeSelector arity, .fixed .returndataToMemory])
    (hopcode : ⟨opcode, value.length + 6, 1⟩ ∈ instructions) (hcalm : IsCalm opcode) :
    AllLinked (family f arity).Calm
      (RoutineFamily.externalCallDef f opcode value arity).body := by
  have hencode : (family f arity).Calm ⟨RoutineFamily.abiEncodeSelector.name arity, arity + 3, 1⟩ :=
    calm_of_mem (s := .family .abiEncodeSelector arity) (by simp [hneeds])
  have hreturned : (family f arity).Calm ⟨"returndata_to_memory", 0, 1⟩ :=
    calm_of_mem (s := .fixed .returndataToMemory) (by simp [hneeds])
  have hcall : (family f arity).Calm ⟨opcode, value.length + 6, 1⟩ := .inl ⟨hopcode, hcalm⟩
  have hgas : (family f arity).Calm ⟨"gas", 0, 1⟩ := .inl (by decide)
  simp [RoutineFamily.externalCallDef, length_numbered, hencode, hreturned, hcall, hgas,
    FixedRoutine.name, Op.freePointer, or_imp, forall_and]

theorem linked_creation (hneeds : (family f arity).needs = [.family .abiEncode arity])
    (hopcode : ⟨opcode, salt.length + 3, 1⟩ ∈ instructions) (hcalm : IsCalm opcode) :
    AllLinked (family f arity).Calm
      (RoutineFamily.creationDef f opcode salt arity).body := by
  have hencode : (family f arity).Calm ⟨RoutineFamily.abiEncode.name arity, arity + 2, 1⟩ :=
    calm_of_mem (s := .family .abiEncode arity) (by simp [hneeds])
  have hcreate : (family f arity).Calm ⟨opcode, salt.length + 3, 1⟩ := .inl ⟨hopcode, hcalm⟩
  have hcopy : (family f arity).Calm ⟨"datacopy", 3, 0⟩ := .inl (by decide)
  simp [RoutineFamily.creationDef, length_numbered, hencode, hcreate, hcopy, Op.freePointer]

theorem linked_family (f : RoutineFamily) (arity : Nat) :
    AllLinked (family f arity).Calm (f.definition arity).body := by
  cases f with
  | abiEncode =>
    have hitem : (family .abiEncode arity).Calm ⟨"abi_encode_item", 5, 1⟩ :=
      calm_of_mem (s := .fixed .abiEncodeItem) (by simp [needs])
    simp [RoutineFamily.definition, RoutineFamily.abiEncodeDef, FixedRoutine.name, hitem,
      uses_codeAt]
  | abiEncodePacked =>
    have hcopy : (family .abiEncodePacked arity).Calm ⟨"copy_memory", 3, 0⟩ :=
      calm_of_mem (s := .fixed .copyMemory) (by simp [needs])
    simp [RoutineFamily.definition, RoutineFamily.abiEncodePackedDef, RoutineFamily.packArgument,
      FixedRoutine.name, hcopy, uses_codeAt]
  | abiEncodeSelector =>
    have hencode : (family .abiEncodeSelector arity).Calm
        ⟨RoutineFamily.abiEncode.name arity, arity + 2, 1⟩ :=
      calm_of_mem (s := .family .abiEncode arity) (by simp [needs])
    simp [RoutineFamily.definition, RoutineFamily.abiEncodeSelectorDef, length_numbered, hencode]
  | abiDecode =>
    simp [RoutineFamily.definition, RoutineFamily.abiDecodeDef, RoutineFamily.decodeValue,
      uses_codeAt]
  | call => exact linked_externalCall rfl (by decide) (by decide)
  | staticCall => exact linked_externalCall rfl (by decide) (by decide)
  | delegateCall => exact linked_externalCall rfl (by decide) (by decide)
  | create => exact linked_creation rfl (by decide) (by decide)
  | create2 => exact linked_creation rfl (by decide) (by decide)

theorem linked_panic (code : Nat) : AllLinked (panic code).Calm (panicDef code).body := by
  simp [panicDef]

/-- The definition of a routine has the signature of the routine and calls what the routine needs. -/
theorem linked_definition? (h : r.definition? target = some f) :
    f.signature = r.signature ∧ AllLinked r.Needed f.body := by
  cases r with
  | fixed r =>
    cases h
    exact linked_fixed target r
  | panic code =>
    cases h
    exact ⟨rfl, (linked_panic code).mono fun _ => Or.imp_left And.left⟩
  | family f arity =>
    cases h
    exact ⟨signature_family f arity, (linked_family f arity).mono fun _ => Or.imp_left And.left⟩
  | loadStruct | storeStruct => cases h

/-! ## The closure of a routine -/

theorem mem_closure_iff : s ∈ r.closure ↔ s = r ∨ ∃ t ∈ r.needs, s ∈ t.closure := by
  rw [closure]
  simp

theorem self_mem_closure (r : Routine) : r ∈ r.closure :=
  mem_closure_iff.2 (.inl rfl)

theorem closure_trans {r s t : Routine} (hs : s ∈ r.closure) (ht : t ∈ s.closure) :
    t ∈ r.closure := by
  rcases mem_closure_iff.1 hs with rfl | ⟨u, hu, hs⟩
  · exact ht
  · exact mem_closure_iff.2 (.inr ⟨u, hu, closure_trans hs ht⟩)
termination_by r.height
decreasing_by exact height_lt_of_mem_needs u hu

theorem mem_closure_of_mem_needs (hs : s ∈ r.closure) (ht : t ∈ s.needs) : t ∈ r.closure :=
  closure_trans hs (mem_closure_iff.2 (.inr ⟨t, ht, self_mem_closure t⟩))

/-- What goes over to the routines that a routine needs holds for its closure. -/
theorem of_mem_closure {P : Routine → Prop} (hneeds : ∀ r, P r → ∀ s ∈ r.needs, P s) {r s : Routine}
    (hr : P r) (hs : s ∈ r.closure) : P s := by
  rcases mem_closure_iff.1 hs with rfl | ⟨t, ht, hs⟩
  · exact hr
  · exact of_mem_closure hneeds (hneeds r hr t ht) hs
termination_by r.height
decreasing_by exact height_lt_of_mem_needs t ht

def IsBuiltIn : Routine → Bool
  | .loadStruct _ | .storeStruct _ => false
  | _ => true

theorem exists_definition (h : r.IsBuiltIn) (target : Target) :
    ∃ f, r.definition? target = some f := by
  cases r with
  | loadStruct | storeStruct => cases h
  | fixed | panic | family => exact ⟨_, rfl⟩

theorem isBuiltIn_of_mem_needs (h : s ∈ r.needs) : s.IsBuiltIn := by
  cases r with
  | fixed r => cases r <;> revert s <;> decide
  | family f n => cases f <;> simp [needs] at h <;> rcases h with rfl | rfl <;> rfl
  | panic | loadStruct | storeStruct => cases h

theorem isBuiltIn_of_mem_closure (hr : r.IsBuiltIn) (h : s ∈ r.closure) : s.IsBuiltIn :=
  of_mem_closure (P := fun r => r.IsBuiltIn) (fun _ _ _ => isBuiltIn_of_mem_needs) hr h

/-! ## The order of routines -/

theorem mem_allFixed (r : FixedRoutine) : r ∈ all := by
  cases r <;> decide

theorem mem_allFamilies (f : RoutineFamily) : f ∈ RoutineFamily.all := by
  cases f <;> decide

/-- The groups of routines are numbered apart: fixed ones below 31, panics 24, families from 100 to
108, and copies of structs 200 and 201. -/
theorem place_injective (h : r.place = s.place) : r = s := by
  have hfixed : ∀ r, all.idxOf r < 30 := fun r =>
    idxOf_lt_length_of_mem (mem_allFixed r)
  have hfamily : ∀ f, RoutineFamily.all.idxOf f < 9 := fun f =>
    idxOf_lt_length_of_mem (mem_allFamilies f)
  have hgroup := congrArg Prod.fst h
  have hnumber := congrArg (·.2.1) h
  have hname := congrArg (·.2.2) h
  cases r <;> cases s <;> simp only [place] at hgroup hnumber hname
  case fixed.fixed r s =>
    have hindex : all.idxOf r = all.idxOf s := by
      split at hgroup <;> split at hgroup <;> omega
    rw [(idxOf_inj (mem_allFixed r)).1 hindex]
  case panic.panic => rw [hnumber]
  case family.family f n g k =>
    have hindex : RoutineFamily.all.idxOf f = RoutineFamily.all.idxOf g := by omega
    rw [(idxOf_inj (mem_allFamilies f)).1 hindex, hnumber]
  case loadStruct.loadStruct => rw [hname]
  case storeStruct.storeStruct => rw [hname]
  all_goals grind

theorem compare_eq_iff : compare r s = .eq ↔ r = s := by
  constructor
  · intro h
    obtain ⟨hgroup, h⟩ := Ordering.then_eq_eq.1 h
    obtain ⟨hnumber, hname⟩ := Ordering.then_eq_eq.1 h
    refine place_injective (Prod.ext ?_ (Prod.ext ?_ ?_))
    · exact Std.LawfulEqOrd.eq_of_compare hgroup
    · exact Std.LawfulEqOrd.eq_of_compare hnumber
    · exact Std.LawfulEqOrd.eq_of_compare hname
  · rintro rfl
    refine Ordering.then_eq_eq.2 ⟨Std.ReflOrd.compare_self, Ordering.then_eq_eq.2 ⟨?_, ?_⟩⟩
    · exact Std.ReflOrd.compare_self
    · exact Std.ReflOrd.compare_self

instance : Std.TransOrd Routine :=
  inferInstanceAs (Std.TransCmp (compareLex (compareOn fun r : Routine => r.place.1)
    (compareLex (compareOn fun r : Routine => r.place.2.1)
      (compareOn fun r : Routine => r.place.2.2))))

end Routine

/-! ## Registries -/

namespace Registry

variable {g : Registry} {r s : Routine} {f : Function}

theorem mem_insertEntry {entries : List (Routine × Function)} (h : e ∈ insertEntry r f entries) :
    e = (r, f) ∨ e ∈ entries := by
  induction entries with
  | nil => exact .inl (mem_singleton.1 h)
  | cons entry rest ih =>
    unfold insertEntry at h
    split at h
    · exact mem_cons.1 h
    · exact (mem_cons.1 h).imp_right (mem_cons_of_mem _)
    · rcases mem_cons.1 h with rfl | h
      · exact .inr mem_cons_self
      · exact (ih h).imp_right (mem_cons_of_mem _)

/-- Setting the definition of a routine keeps the other routines. -/
theorem contains_insert : (g.insert r f).contains s ↔ s = r ∨ g.contains s := by
  obtain ⟨entries⟩ := g
  simp only [insert, contains, any_eq_true, beq_iff_eq]
  induction entries with
  | nil => simp [insertEntry, eq_comm]
  | cons entry rest ih =>
    unfold insertEntry
    split
    · simp [eq_comm]
    · rename_i hcompare
      simp [compare_eq_iff.1 hcompare, eq_comm]
    · simp only [mem_cons, exists_eq_or_imp, ih]
      tauto

def Callee (g : Registry) (c : Call) : Prop :=
  c ∈ instructions ∨ ∃ r, g.contains r ∧ r.signature = c

instance (g : Registry) : Instructed g.Callee where
  instruction _ h := .inl h

/-- Every definition has the signature of its routine and calls what is defined. -/
def Closed (g : Registry) : Prop :=
  ∀ e ∈ g.entries, e.2.signature = e.1.signature ∧ AllLinked g.Callee e.2.body

theorem closed_empty : Registry.empty.Closed := by
  simp [Closed, empty]

def Extends (g g' : Registry) : Prop :=
  ∀ r, g.contains r → g'.contains r

theorem Extends.callee (h : g.Extends g') (hc : g.Callee c) : g'.Callee c :=
  hc.imp_right fun ⟨r, hr, hname⟩ => ⟨r, h r hr, hname⟩

theorem extends_insert : g.Extends (g.insert r f) :=
  fun _ hs => contains_insert.2 (.inr hs)

theorem Closed.insert (hg : g.Closed) (hf : f.signature = r.signature)
    (hbody : AllLinked g.Callee f.body) : (g.insert r f).Closed := by
  intro e he
  rcases mem_insertEntry he with rfl | he
  · exact ⟨hf, hbody.mono fun _ => extends_insert.callee⟩
  · exact ⟨(hg e he).1, (hg e he).2.mono fun _ => extends_insert.callee⟩

/-! ### Routines with what they need -/

def addAll (target : Target) (g : Registry) (routines : List Routine) : Registry :=
  routines.foldl (fun g s => match s.definition? target with
    | some f => g.insert s f
    | none => g) g

theorem add_eq (target : Target) (g : Registry) (r : Routine) :
    g.add target r = if g.contains r then g else g.addAll target r.closure :=
  rfl

theorem mem_addAll (h : e ∈ (g.addAll target routines).entries) :
    e ∈ g.entries ∨ e.1 ∈ routines ∧ e.1.definition? target = some e.2 := by
  induction routines generalizing g with
  | nil => exact .inl h
  | cons t rest ih =>
    rcases ih h with h | ⟨hmem, hdefinition⟩
    · dsimp only at h
      split at h
      · rename_i hf
        rcases mem_insertEntry h with rfl | h
        · exact .inr ⟨mem_cons_self, hf⟩
        · exact .inl h
      · exact .inl h
    · exact .inr ⟨mem_cons_of_mem _ hmem, hdefinition⟩

theorem contains_addAll (hbuiltIn : ∀ s ∈ routines, s.IsBuiltIn) :
    (g.addAll target routines).contains s ↔ s ∈ routines ∨ g.contains s := by
  induction routines generalizing g with
  | nil => simp [addAll]
  | cons t rest ih =>
    obtain ⟨ht, hrest⟩ := forall_mem_cons.1 hbuiltIn
    obtain ⟨f, hf⟩ := exists_definition ht target
    have hcons : g.addAll target (t :: rest) = (g.insert t f).addAll target rest := by
      simp only [addAll, foldl_cons, hf]
    rw [hcons, ih hrest, contains_insert, mem_cons]
    tauto

/-- What holds of the definitions of a registry and of those that depend on the target alone holds
after a routine was put to use. -/
theorem forall_add {P : Function → Prop} (hg : ∀ e ∈ g.entries, P e.2)
    (hP : ∀ {s f}, definition? target s = some f → P f) :
    ∀ e ∈ (g.add target r).entries, P e.2 := by
  intro e he
  rw [add_eq] at he
  split at he
  · exact hg e he
  · exact (mem_addAll he).elim (hg e) fun h => hP h.2

theorem forall_insert {P : Function → Prop} (hg : ∀ e ∈ g.entries, P e.2) (hf : P f) :
    ∀ e ∈ (g.insert r f).entries, P e.2 := by
  intro e he
  rcases mem_insertEntry he with rfl | he
  · exact hf
  · exact hg e he

theorem extends_add (target : Target) (hr : r.IsBuiltIn) :
    g.Extends (g.add target r) ∧ (g.add target r).contains r := by
  have hclosure : ∀ s ∈ r.closure, s.IsBuiltIn := fun s => isBuiltIn_of_mem_closure hr
  rw [add_eq]
  split
  · rename_i hcontains
    exact ⟨fun _ hs => hs, hcontains⟩
  · refine ⟨fun s hs => (contains_addAll hclosure).2 (.inr hs), ?_⟩
    exact (contains_addAll hclosure).2 (.inl r.self_mem_closure)

/-- Putting a routine to use keeps a registry closed, since what the routine needs is added too. -/
theorem Closed.add (target : Target) (hr : r.IsBuiltIn) (hg : g.Closed) :
    (g.add target r).Closed := by
  have hclosure : ∀ s ∈ r.closure, s.IsBuiltIn := fun s => isBuiltIn_of_mem_closure hr
  rw [add_eq]
  split
  · exact hg
  intro e he
  rcases mem_addAll he with he | ⟨hmem, hdefinition⟩
  · refine ⟨(hg e he).1, (hg e he).2.mono fun _ => Extends.callee ?_⟩
    exact fun s hs => (contains_addAll hclosure).2 (.inr hs)
  · obtain ⟨hsignature, hbody⟩ := linked_definition? hdefinition
    refine ⟨hsignature, hbody.mono ?_⟩
    rintro c (hc | hc)
    · exact .inl hc
    -- a needed routine is in the closure, so it was added as well
    · obtain ⟨s, hs, rfl⟩ := mem_map.1 hc
      have hneeded := mem_closure_of_mem_needs hmem hs
      exact .inr ⟨s, (contains_addAll hclosure).2 (.inl hneeded), rfl⟩

/-! ### Order of definitions -/

def Ordered (g : Registry) : Prop :=
  g.entries.Pairwise fun e e' => compare e.1 e'.1 = .lt

theorem ordered_empty : Registry.empty.Ordered :=
  .nil

theorem pairwise_insertEntry {entries : List (Routine × Function)}
    (h : entries.Pairwise fun e e' => compare e.1 e'.1 = .lt) :
    (insertEntry r f entries).Pairwise fun e e' => compare e.1 e'.1 = .lt := by
  induction entries with
  | nil => exact pairwise_singleton _ _
  | cons entry rest ih =>
    obtain ⟨hentry, hrest⟩ := pairwise_cons.1 h
    unfold insertEntry
    split
    · rename_i hlt
      refine pairwise_cons.2 ⟨fun e he => ?_, h⟩
      rcases mem_cons.1 he with rfl | he
      · exact hlt
      · exact Std.TransCmp.lt_trans hlt (hentry e he)
    · rename_i heq
      obtain rfl := compare_eq_iff.1 heq
      exact pairwise_cons.2 ⟨hentry, hrest⟩
    · rename_i hgt
      refine pairwise_cons.2 ⟨fun e he => ?_, ih hrest⟩
      rcases mem_insertEntry he with rfl | he
      · exact Std.OrientedCmp.gt_iff_lt.1 hgt
      · exact hentry e he

theorem Ordered.insert (hg : g.Ordered) : (g.insert r f).Ordered :=
  pairwise_insertEntry hg

theorem Ordered.add (target : Target) (hg : g.Ordered) : (g.add target r).Ordered := by
  unfold Registry.add
  split
  · exact hg
  · refine foldlRecOn r.closure _ hg fun g hg s _ => ?_
    split
    · exact hg.insert
    · exact hg

/-- Each routine of a registry is defined once. -/
theorem Ordered.nodup (hg : g.Ordered) : (g.entries.map (·.1)).Nodup := by
  refine pairwise_map.2 (hg.imp fun {e e'} hlt heq => ?_)
  rw [compare_eq_iff.2 heq] at hlt
  cases hlt

/-! ### Scopes in definitions -/

/-- The definitions read and assign variables where they are seen, and declare no name twice. -/
def Scoped (g : Registry) : Prop :=
  ∀ e ∈ g.entries, e.2.Scoped

theorem scoped_empty : Registry.empty.Scoped :=
  forall_mem_nil _

theorem Scoped.insert (hg : g.Scoped) (hf : f.Scoped) : (g.insert r f).Scoped :=
  forall_insert hg hf

theorem Scoped.add (target : Target) (hg : g.Scoped) : (g.add target r).Scoped :=
  forall_add hg scoped_definition?

def Own (g : Registry) : Prop :=
  ∀ e ∈ g.entries, e.2.Own

theorem own_empty : Registry.empty.Own :=
  forall_mem_nil _

theorem Own.insert (hg : g.Own) (hf : f.Own) : (g.insert r f).Own :=
  forall_insert hg hf

theorem Own.add (target : Target) (hg : g.Own) : (g.add target r).Own :=
  forall_add hg own_definition?

/-! ### Growing registries -/

/-- A registry has more routines than before, and is as well-formed. -/
structure Grows (g g' : Registry) : Prop where
  includes : g.Extends g'
  closed : g.Closed → g'.Closed
  ordered : g.Ordered → g'.Ordered
  scopes : g.Scoped → g'.Scoped
  own : g.Own → g'.Own

theorem Grows.refl : g.Grows g :=
  ⟨fun _ h => h, fun h => h, fun h => h, fun h => h, fun h => h⟩

theorem Grows.trans (h : g.Grows g') (h' : g'.Grows g'') : g.Grows g'' :=
  ⟨fun r hr => h'.includes r (h.includes r hr), fun hg => h'.closed (h.closed hg),
    fun hg => h'.ordered (h.ordered hg), fun hg => h'.scopes (h.scopes hg),
    fun hg => h'.own (h.own hg)⟩

theorem grows_add (target : Target) (hr : r.IsBuiltIn) : g.Grows (g.add target r) :=
  ⟨(extends_add target hr).1, fun hg => hg.add target hr, fun hg => hg.add target,
    fun hg => hg.add target, fun hg => hg.add target⟩

theorem contains_add (target : Target) (hr : r.IsBuiltIn) : (g.add target r).contains r :=
  (extends_add target hr).2

theorem grows_insert (hf : f.signature = r.signature) (hbody : AllLinked g.Callee f.body)
    (hscoped : f.Scoped) (hown : f.Own) : g.Grows (g.insert r f) :=
  ⟨extends_insert, fun hg => hg.insert hf hbody, fun hg => hg.insert, fun hg => hg.insert hscoped,
    fun hg => hg.insert hown⟩

/-! ### Requests -/

def requested (target : Target) (requests : List Routine) : Registry :=
  requests.foldl (add target) empty

structure Has (target : Target) (g : Registry) (P : Routine → Prop) : Prop where
  contains : ∀ s, g.contains s ↔ P s
  definitions : ∀ e ∈ g.entries, e.1.definition? target = some e.2

variable {target : Target}

theorem Has.mem_iff (h : g.Has target P) :
    (s, f) ∈ g.entries ↔ P s ∧ s.definition? target = some f := by
  constructor
  · intro he
    exact ⟨(h.contains s).1 (any_eq_true.2 ⟨_, he, beq_self_eq_true s⟩), h.definitions _ he⟩
  · rintro ⟨hs, hf⟩
    obtain ⟨⟨t, f'⟩, he, heq⟩ := any_eq_true.1 ((h.contains s).2 hs)
    obtain rfl : t = s := by simpa using heq
    obtain rfl : f' = f := Option.some.inj ((h.definitions _ he).symm.trans hf)
    exact he

/-- Asking for a routine adds what it needs. Where the routine is there already, that is too. -/
theorem Has.add (h : g.Has target P) (hr : r.IsBuiltIn) (hP : ∀ {s t}, P s → t ∈ s.closure → P t) :
    (g.add target r).Has target fun s => s ∈ r.closure ∨ P s := by
  rw [add_eq]
  split
  · rename_i hcontains
    have hmember : P r := (h.contains r).1 hcontains
    refine ⟨fun s => (h.contains s).trans ⟨.inr, ?_⟩, h.definitions⟩
    exact fun hs => hs.elim (hP hmember) id
  · refine ⟨fun s => ?_, fun e he => (mem_addAll he).elim (h.definitions e) And.right⟩
    rw [contains_addAll fun s => isBuiltIn_of_mem_closure hr, h.contains]

theorem has_requested (target : Target) (hr : ∀ r ∈ requests, r.IsBuiltIn) :
    (requested target requests).Has target fun s => ∃ r ∈ requests, s ∈ r.closure := by
  induction requests using reverseRecOn with
  | nil => exact ⟨by simp [requested, empty, contains], by simp [requested, empty]⟩
  | append_singleton rest r ih =>
    obtain ⟨hrest, hr⟩ := forall_mem_append.1 hr
    rw [requested, foldl_concat]
    have hadd := (ih hrest).add (hr r (by simp)) fun ⟨q, hq, hs⟩ ht =>
      ⟨q, hq, closure_trans hs ht⟩
    refine ⟨fun s => (hadd.contains s).trans ?_, hadd.definitions⟩
    simp [or_comm]

theorem ordered_requested (requests : List Routine) : (requested target requests).Ordered :=
  foldlRecOn requests _ ordered_empty fun _ hg _ _ => hg.add target

theorem Has.unique (h : g.Has target P) (h' : g'.Has target P) (hg : g.Ordered) (hg' : g'.Ordered) :
    g = g' := by
  have hperm : g.entries.Perm g'.entries :=
    (perm_ext_iff_of_nodup hg.nodup.of_map hg'.nodup.of_map).2 fun e => h.mem_iff.trans h'.mem_iff.symm
  have hentries := hperm.eq_of_pairwise (fun a b _ _ hab hba => ?_) hg hg'
  · cases g
    cases g'
    exact congrArg _ hentries
  · rw [Std.OrientedCmp.gt_of_lt hab] at hba
    cases hba

/-- However often and in whatever order routines are asked for, the registry has the routines that
these need, directly or through others, and what its definitions call is an instruction or defined in
it. It depends on the set of the routines only, and asking again for one of them changes nothing. -/
theorem requests_closed_in_any_order (target : Target) {requests : List Routine}
    (hrequests : ∀ r ∈ requests, r.IsBuiltIn) :
    (∀ s f, (s, f) ∈ (requested target requests).entries ↔
      (∃ r ∈ requests, s ∈ r.closure) ∧ s.definition? target = some f) ∧
    (∀ f ∈ (requested target requests).definitions, ∀ c ∈ Stmt.allCalls f.body, c ∈ instructions ∨
      ∃ f' ∈ (requested target requests).definitions, f'.signature = c) ∧
    (∀ requests' : List Routine, (∀ r, r ∈ requests' ↔ r ∈ requests) →
      requested target requests' = requested target requests) ∧
    ∀ r ∈ requests, (requested target requests).add target r = requested target requests := by
  have hhas := has_requested target hrequests
  refine ⟨fun s f => hhas.mem_iff, fun f hf c hc => ?_, fun requests' hsame => ?_, fun r hr => ?_⟩
  · obtain ⟨⟨s, f⟩, he, rfl⟩ := List.mem_map.1 hf
    obtain ⟨⟨r, hr, hs⟩, hdefinition⟩ := hhas.mem_iff.1 he
    rcases Stmt.allLinked_iff _ |>.1 (Routine.linked_definition? hdefinition).2 c hc with hc | hc
    · exact .inl hc
    · obtain ⟨t, ht, rfl⟩ := List.mem_map.1 hc
      obtain ⟨f', hf'⟩ := Routine.exists_definition (Routine.isBuiltIn_of_mem_needs ht) target
      have hmem := hhas.mem_iff.2 ⟨⟨r, hr, Routine.mem_closure_of_mem_needs hs ht⟩, hf'⟩
      exact .inr ⟨f', List.mem_map.2 ⟨_, hmem, rfl⟩, (Routine.linked_definition? hf').1⟩
  · have hhas' := has_requested target fun r hr => hrequests r ((hsame r).1 hr)
    simp only [hsame] at hhas'
    exact hhas'.unique hhas (ordered_requested _) (ordered_requested _)
  · rw [add_eq, if_pos ((hhas.contains r).2 ⟨r, hr, r.self_mem_closure⟩)]

/-- A routine is asked for again after others that it needs. -/
theorem requests_closed_in_any_order_call :
    (∀ r ∈ [Routine.family .call 2, .fixed .copyMemory], r.IsBuiltIn) ∧
    requested .shanghai [.fixed .copyMemory, .family .call 2, .fixed .copyMemory] =
      requested .shanghai [.family .call 2, .fixed .copyMemory] := by
  have hbuiltIn : ∀ r ∈ [Routine.family .call 2, .fixed .copyMemory], r.IsBuiltIn := by decide
  refine ⟨hbuiltIn, (requests_closed_in_any_order .shanghai hbuiltIn).2.2.1 _ fun r => ?_⟩
  simp only [List.mem_cons, List.not_mem_nil, or_false]
  tauto

end Registry

end ContractYul
