import ContractYul.Proofs.Text.Digits
import ContractYul.Proofs.Yul.Shadowing
import ContractYul.Routine.Registry

/-!
# Scopes in routines

The definition of a routine reads and assigns its variables where they are seen, and declares no name
twice. The routines of a family number their arguments, and no other name of theirs ends in a digit.
All variables of a routine have names of their own.

Main statements: `Routine.scoped_definition?` and `Routine.own_definition?`.
-/

open List

namespace ContractYul

open Yul Stmt

namespace RoutineFamily

/-! ## Numbered names -/

variable {i : Nat} {c : Char}

def endsInDigit (x : String) : Bool :=
  x.toList.getLast?.any Char.isDigit

theorem endsInDigit_append (stem : String) (i : Nat) : endsInDigit (stem ++ toString i) := by
  have hne : Nat.toDigits 10 i ≠ [] := Nat.toDigits_ne_nil
  have hdigit := Nat.isDigit_of_mem_toDigits (by decide) (by decide) (getLast_mem hne)
  rw [endsInDigit, String.toList_append, Nat.toString_eq_repr, Nat.toList_repr,
    getLast?_append_of_ne_nil _ hne, getLast?_eq_some_getLast hne]
  exact hdigit

theorem append_toString_injective (stem : String) :
    Function.Injective fun i : Nat => stem ++ toString i := by
  intro i j h
  have hlist := congrArg String.toList h
  simp only [String.toList_append] at hlist
  exact toString_injective (String.toList_injective (append_cancel_left hlist))

theorem nodup_numbered (stem : String) (count : Nat) : (numbered stem count).Nodup :=
  nodup_range.map (append_toString_injective stem)

theorem endsInDigit_of_mem {x stem : String} {count : Nat} (h : x ∈ numbered stem count) :
    endsInDigit x := by
  obtain ⟨i, -, rfl⟩ := mem_map.1 h
  exact endsInDigit_append stem i

/-- A number behind a letter makes a name of its own. -/
theorem isOwn_append (hc : c ∉ ['_', 'c']) (i : Nat) :
    isOwn (String.ofList [c] ++ toString i) = true := by
  have htext : (String.ofList [c] ++ toString i).toList = c :: (toString i).toList := by
    rw [String.toList_append, String.toList_ofList]
    rfl
  unfold isOwn
  rw [htext]
  split
  · rename_i heq
    obtain ⟨rfl, -⟩ := cons.inj heq
    simp at hc
  · rename_i heq
    obtain ⟨-, htail⟩ := cons.inj heq
    exact absurd (Text.isDigit_of_mem_toString (htail ▸ mem_cons_self)) (by decide)
  · rename_i heq
    obtain ⟨rfl, -⟩ := cons.inj heq
    simp at hc
  · rfl

theorem isOwn_numbered (hc : c ∉ ['_', 'c']) (count : Nat) :
    ∀ x ∈ numbered (String.ofList [c]) count, isOwn x = true := by
  intro x hx
  obtain ⟨i, -, rfl⟩ := mem_map.1 hx
  exact isOwn_append hc i

/-- No name occurs twice, and all are names of their own. -/
def Tidy (names : List String) : Prop :=
  names.Nodup ∧ ∀ x ∈ names, isOwn x = true

theorem Tidy.of_eq (h : names = names') (htidy : Tidy names') : Tidy names :=
  h ▸ htidy

/-- Numbered names among names that do not end in a digit. -/
theorem tidy_around {stem : String} {count : Nat} (hstem : ∀ x ∈ numbered stem count, isOwn x = true)
    (hnodup : (front ++ back).Nodup)
    (hfixed : ∀ x ∈ front ++ back, endsInDigit x = false ∧ isOwn x = true) :
    Tidy (front ++ numbered stem count ++ back) := by
  have hperm : (front ++ numbered stem count ++ back).Perm (front ++ back ++ numbered stem count) := by
    rw [append_assoc, append_assoc]
    exact perm_append_comm.append_left front
  refine ⟨hperm.nodup_iff.2 (nodup_append.2 ⟨hnodup, nodup_numbered stem count, ?_⟩), fun x hx => ?_⟩
  · rintro x hx _ hnumbered rfl
    simpa [(hfixed x hx).1] using endsInDigit_of_mem hnumbered
  · exact (mem_append.1 (hperm.mem_iff.1 hx)).elim (fun hx => (hfixed x hx).2) (hstem x)

/-! ## Families -/

@[simp]
theorem mentions_codeAt : (codeAt word bits position mask).Mentions P ↔ P word := by
  unfold codeAt
  extract_lets shift
  split <;> simp [Op.both, Op.shr]

section

variable {P : String → Prop} {r : FixedRoutine} {args : List Expr}

@[simp]
theorem mentions_fixedCall : (r.call args).Mentions P ↔ ∀ e ∈ args, e.Mentions P :=
  mentions_call

@[simp]
theorem scoped_fixedRun : (r.run args).Scoped P ↔ ∀ e ∈ args, e.Mentions P :=
  scoped_run

end

theorem variables_abiEncode (arity : Nat) : (abiEncodeDef arity).variables =
    ["dst", "shapes"] ++ numbered "a" arity ++ ["end", "base", "tail"] := by
  have hitems : ∀ items : List (String × Nat), allDeclared (items.map fun p =>
      .assignOne "tail" (FixedRoutine.abiEncodeItem.call
        [Op.add (ident "dst") (num (32 * p.2)), ident "base", ident "tail",
          codeAt "shapes" 2 p.2 3, ident p.1])) = [] := fun items =>
    allDeclared_map.trans (flatMap_eq_nil_iff.2 fun _ _ => rfl)
  simp [Function.variables, abiEncodeDef, hitems]

theorem variables_abiEncodeSelector (arity : Nat) : (abiEncodeSelectorDef arity).variables =
    ["dst", "sel", "shapes"] ++ numbered "a" arity ++ ["end"] := by
  simp [Function.variables, abiEncodeSelectorDef, Op.mstore]

theorem variables_abiDecode (arity : Nat) : (abiDecodeDef arity).variables =
    ["data", "shapes"] ++ numbered "v" arity ++ ["payload"] := by
  have hvalues : ∀ items : List (String × Nat),
      allDeclared (items.map fun p => decodeValue p.1 p.2) = [] := fun items =>
    allDeclared_map.trans (flatMap_eq_nil_iff.2 fun _ _ => rfl)
  simp [Function.variables, abiDecodeDef, hvalues, declared, Op.revertEmpty, Op.revert]

theorem variables_externalCall (f : RoutineFamily) (opcode : String) (value : List String)
    (arity : Nat) : (externalCallDef f opcode value arity).variables =
      ["target"] ++ value ++ ["sel", "shapes"] ++ numbered "a" arity ++
        ["success", "ret", "pos", "end"] := by
  simp [Function.variables, externalCallDef]

theorem variables_creation (f : RoutineFamily) (opcode : String) (salt : List String) (arity : Nat) :
    (creationDef f opcode salt arity).variables =
      ["codeOffset", "codeSize", "value"] ++ salt ++ ["shapes"] ++ numbered "a" arity ++
        ["addr", "pos", "end"] := by
  simp [Function.variables, creationDef]

/-! ### Packed encoding -/

def packNames (i : Nat) : List String :=
  ["w" ++ toString i, "l" ++ toString i]

theorem declared_packArgument (arg : String) (i : Nat) :
    (packArgument arg i).declared = packNames i := by
  simp [packArgument, packNames, declared, casesDeclared, FixedRoutine.run, Op.mstore]

theorem scoped_packArgument (harg : P arg) (hpos : P "pos") (hwidths : P "widths") :
    (packArgument arg i).Scoped P := by
  simp [packArgument, Scoped, CasesScoped, allScoped_cons, Op.mload, Op.dataOf, Op.add,
    Op.mstore, Op.shl, Op.sub, Op.mul, harg, hpos, hwidths]

/-- Numbered names with different stems are different. -/
theorem stem_eq {j : Nat} (h : String.ofList [c] ++ toString i = String.ofList [d] ++ toString j) :
    c = d := by
  have hhead := congrArg (fun x => x.toList.head?) h
  simpa using hhead

theorem mem_packNames (h : x ∈ packNames i) : ∃ c ∈ ['w', 'l'],
    x = String.ofList [c] ++ toString i := by
  rcases mem_pair.1 h with rfl | rfl
  · exact ⟨'w', by simp, rfl⟩
  · exact ⟨'l', by simp, rfl⟩

theorem nodup_packNames (arity : Nat) : ((range arity).flatMap packNames).Nodup := by
  refine nodup_flatMap.2 ⟨fun i _ => ?_, pairwise_lt_range.imp fun {i j} hlt => ?_⟩
  · simp [packNames]
  · intro x hi hj
    obtain ⟨c, -, rfl⟩ := mem_packNames hi
    obtain ⟨d, -, h⟩ := mem_packNames hj
    obtain rfl := stem_eq h
    exact Nat.ne_of_lt hlt (append_toString_injective _ h)

theorem variables_abiEncodePacked (arity : Nat) : (abiEncodePackedDef arity).variables =
    ["dst", "widths"] ++ numbered "a" arity ++ ["end", "pos"] ++
      (range arity).flatMap packNames := by
  have hitems : allDeclared ((numbered "a" arity).zipIdx.map fun p => packArgument p.1 p.2) =
      (range arity).flatMap packNames := by
    have hpositions : (numbered "a" arity).zipIdx.map Prod.snd = range arity := by
      simp [numbered, range_eq_range']
    rw [allDeclared_map, ← hpositions, flatMap_map]
    simp only [declared_packArgument]
  simp [Function.variables, abiEncodePackedDef, hitems]

/-! ### All families -/

theorem allScoped_definition (f : RoutineFamily) (arity : Nat) :
    AllScoped (· ∈ (f.definition arity).params ++ (f.definition arity).returns)
      (f.definition arity).body := by
  cases f with
  | abiEncode =>
    simp only [definition, abiEncodeDef, allScoped_append]
    refine ⟨⟨?_, allScoped_of_forall ?_⟩, ?_⟩
    · simp [allScoped_cons, Op.add]
    · rintro s hs
      obtain ⟨p, hp, rfl⟩ := mem_map.1 hs
      simp [Op.add, fst_mem_of_mem_zipIdx hp]
    · simp [allScoped_cons]
  | abiEncodePacked =>
    simp only [definition, abiEncodePackedDef, allScoped_append]
    refine ⟨⟨?_, allScoped_of_forall ?_⟩, ?_⟩
    · simp [allScoped_cons]
    · rintro s hs
      obtain ⟨p, hp, rfl⟩ := mem_map.1 hs
      refine scoped_packArgument ?_ ?_ ?_ <;> simp [fst_mem_of_mem_zipIdx hp]
    · simp [allScoped_cons]
  | abiEncodeSelector =>
    simp +contextual [definition, abiEncodeSelectorDef, allScoped_cons, Op.mstore, Op.shl, Op.add]
  | abiDecode =>
    simp only [definition, abiDecodeDef, allScoped_append]
    refine ⟨?_, allScoped_of_forall ?_⟩
    · simp [allScoped_cons, Op.lt, Op.mload, Op.revertEmpty, Op.revert, Op.dataOf, Op.add]
    · rintro s hs
      obtain ⟨p, hp, rfl⟩ := mem_map.1 hs
      simp [decodeValue, Scoped, CasesScoped, allScoped_cons, Op.mload, Op.add,
        fst_mem_of_mem_zipIdx hp]
  | call | staticCall | delegateCall =>
    simp +contextual [definition, externalCallDef, allScoped_cons, Op.mload, Op.freePointer, Op.sub,
      or_imp]
  | create | create2 =>
    simp +contextual [definition, creationDef, allScoped_cons, Op.mload, Op.freePointer, Op.sub,
      Op.add, or_imp]

theorem tidy_definition (f : RoutineFamily) (arity : Nat) : Tidy (f.definition arity).variables := by
  have hargs := isOwn_numbered (c := 'a') (by decide) arity
  cases f with
  | abiEncode => exact .of_eq (variables_abiEncode arity) (tidy_around hargs (by decide) (by decide))
  | abiEncodePacked =>
    have hnames : Tidy (["dst", "widths"] ++ numbered "a" arity ++ ["end", "pos"]) :=
      tidy_around hargs (by decide) (by decide)
    refine .of_eq (variables_abiEncodePacked arity)
      ⟨nodup_append.2 ⟨hnames.1, nodup_packNames arity, ?_⟩, forall_mem_append.2 ⟨hnames.2, ?_⟩⟩
    · rintro x hx _ hpack rfl
      obtain ⟨i, -, hpack⟩ := mem_flatMap.1 hpack
      obtain ⟨c, hc, rfl⟩ := mem_packNames hpack
      have hfixed : ∀ x ∈ ["dst", "widths"] ++ ["end", "pos"], endsInDigit x = false := by decide
      have hends := endsInDigit_append (String.ofList [c]) i
      rcases mem_append.1 hx with hx | hx
      · rcases mem_append.1 hx with hx | hx
        · exact Bool.false_ne_true ((hfixed _ (mem_append_left _ hx)).symm.trans hends)
        · obtain ⟨j, -, h⟩ := mem_map.1 hx
          rw [← stem_eq (d := c) h] at hc
          exact absurd hc (by decide)
      · exact Bool.false_ne_true ((hfixed _ (mem_append_right _ hx)).symm.trans hends)
    · intro x hx
      obtain ⟨i, -, hx⟩ := mem_flatMap.1 hx
      obtain ⟨c, hc, rfl⟩ := mem_packNames hx
      have hapart : ∀ c ∈ ['w', 'l'], c ∉ ['_', 'c'] := by simp
      exact isOwn_append (hapart c hc) i
  | abiEncodeSelector =>
    exact .of_eq (variables_abiEncodeSelector arity) (tidy_around hargs (by decide) (by decide))
  | abiDecode =>
    have hvalues := isOwn_numbered (c := 'v') (by decide) arity
    exact .of_eq (variables_abiDecode arity) (tidy_around hvalues (by decide) (by decide))
  | call | staticCall | delegateCall =>
    exact .of_eq (variables_externalCall _ _ _ arity) (tidy_around hargs (by decide) (by decide))
  | create | create2 =>
    exact .of_eq (variables_creation _ _ _ arity) (tidy_around hargs (by decide) (by decide))

theorem scoped_definition (f : RoutineFamily) (arity : Nat) : (f.definition arity).Scoped :=
  ⟨f.allScoped_definition arity, (f.tidy_definition arity).1⟩

end RoutineFamily

namespace Routine

theorem scoped_fixed (target : Target) (r : FixedRoutine) : (r.definition target).Scoped := by
  cases r <;> cases target <;> decide +kernel

theorem scoped_definition? {r : Routine} (h : r.definition? target = some f) : f.Scoped := by
  cases r with
  | fixed r =>
    cases h
    exact scoped_fixed target r
  | panic code =>
    cases h
    simp [FixedRoutine.panicDef, Function.Scoped, allScoped_cons, Op.mstore, Op.revert,
      Op.selectorWord, Op.shl]
  | family f arity =>
    cases h
    exact f.scoped_definition arity
  | loadStruct | storeStruct => cases h

theorem own_fixed (target : Target) (r : FixedRoutine) : (r.definition target).Own := by
  cases r <;> cases target <;> decide +kernel

theorem own_definition? {r : Routine} (h : r.definition? target = some f) : f.Own := by
  cases r with
  | fixed r =>
    cases h
    exact own_fixed target r
  | panic code =>
    cases h
    exact forall_mem_nil _
  | family f arity =>
    cases h
    exact (f.tidy_definition arity).2
  | loadStruct | storeStruct => cases h

end Routine

end ContractYul
