import ContractYul.Proofs.Dispatch.Cases
import ContractYul.Proofs.Routine.Scoped

/-!
# Scopes in entry code

The cases of an entry code read variables that they declared in front, and every variable has a
number of its own, in the order in which the variables are declared.

Main statement: `wellScoped_entryCode`, entry code reads variables where they are seen and declares
no name twice, in one case or in two.
-/

open List

namespace ContractYul.Dispatch

open Yul Stmt

/-! ## Names with numbers in a row -/

def Numbered (k : Nat) (names : List String) (k' : Nat) : Prop :=
  ∃ stems : List String, names = (stems.zipIdx k).map (fun q => tempName q.1 q.2) ∧
    k' = k + stems.length

section

theorem Numbered.nil : Numbered k [] k :=
  ⟨[], rfl, rfl⟩

theorem Numbered.append (h : Numbered k names k₁) (h' : Numbered k₁ more k') :
    Numbered k (names ++ more) k' := by
  obtain ⟨stems, rfl, rfl⟩ := h
  obtain ⟨stems', rfl, rfl⟩ := h'
  refine ⟨stems ++ stems', ?_, by rw [length_append, Nat.add_assoc]⟩
  rw [zipIdx_append, map_append]

theorem numbered_tempsFrom (stem : String) (k count : Nat) :
    Numbered k (tempsFrom stem k count) (k + count) := by
  refine ⟨replicate count stem, ?_, by rw [length_replicate]⟩
  induction count generalizing k with
  | zero => rfl
  | succ count ih =>
    rw [tempsFrom_succ, ih, replicate_succ, zipIdx_cons, map_cons]

theorem numbered_singleton (stem : String) (k : Nat) : Numbered k [tempName stem k] (k + 1) :=
  numbered_tempsFrom stem k 1

theorem Numbered.nodup (h : Numbered k names k') : names.Nodup := by
  obtain ⟨stems, rfl, -⟩ := h
  have hnumbers : ((stems.zipIdx k).map (·.2)).Nodup := by
    rw [zipIdx_map_snd]
    exact nodup_range'
  rw [Nodup, pairwise_map] at hnumbers ⊢
  exact hnumbers.imp fun hne heq => hne (tempName_injective heq).2

end

/-! ## Arguments and answers -/

section

theorem mentions_arguments {head : Nat} : ∀ e ∈ arguments head forms, e.Mentions P := by
  induction forms generalizing head with
  | nil => exact forall_mem_nil _
  | cons form forms ih =>
    refine forall_mem_cons.2 ⟨?_, ih⟩
    cases form with
    | word => simp [argument]
    | dynamic unit => simp [argument]
    | inlined count => simp [argument]

theorem allBinds_bindings
    (h : names.length ≤ values.length) : allBinds (bindings names values) = names :=
  calc allBinds (bindings names values)
      = (names.zip values).flatMap fun q => [q.1] := flatMap_map ..
    _ = (names.zip values).map (·.1) := flatMap_pure_eq_map ..
    _ = names := map_fst_zip h

theorem allDeclared_bindings
    (h : names.length ≤ values.length) : allDeclared (bindings names values) = names :=
  calc allDeclared (bindings names values)
      = (names.zip values).flatMap fun q => [q.1] := allDeclared_map
    _ = (names.zip values).map (·.1) := flatMap_pure_eq_map ..
    _ = names := map_fst_zip h

theorem scoped_bindings (h : ∀ e ∈ values, e.Mentions P) : AllScoped P (bindings names values) := by
  refine allScoped_of_forall fun s hs => ?_
  obtain ⟨q, hq, rfl⟩ := mem_map.1 hs
  exact scoped_letOne.2 (h q.2 (of_mem_zip hq).2)

theorem scoped_rejectValue : rejectValue.Scoped P := by
  simp [rejectValue, Op.revertEmpty, Op.revert, allScoped_cons]

theorem scoped_valueCheck (payable : Bool) : AllScoped P (valueCheck payable) := by
  cases payable with
  | true => exact allScoped_nil
  | false => exact allScoped_cons.2 ⟨scoped_rejectValue, allScoped_nil⟩

@[simp]
theorem allDeclared_valueCheck (payable : Bool) : allDeclared (valueCheck payable) = [] := by
  cases payable <;> rfl

@[simp]
theorem allBinds_valueCheck (payable : Bool) : allBinds (valueCheck payable) = [] := by
  cases payable <;> rfl

theorem mentions_offsetFrom (h : P base) : (offsetFrom base bytes).Mentions P := by
  unfold offsetFrom
  split
  · exact h
  · simp [Op.add, h]

theorem scoped_storeResults (hpos : P pos) (hresults : ∀ x ∈ results, P x) :
    AllScoped P (storeResults pos results) := by
  refine allScoped_of_forall fun s hs => ?_
  obtain ⟨⟨r, i⟩, hq, rfl⟩ := mem_map.1 hs
  have hr : r ∈ results := fst_mem_of_mem_zipIdx hq
  simp [Op.mstore, mentions_offsetFrom hpos, hresults r hr]

@[simp]
theorem allDeclared_storeResults (pos : String) (results : List String) :
    allDeclared (storeResults pos results) = [] := by
  rw [storeResults, allDeclared_map]
  exact flatMap_eq_nil_iff.2 fun _ _ => rfl

@[simp]
theorem allBinds_storeResults (pos : String) (results : List String) :
    allBinds (storeResults pos results) = [] := by
  rw [storeResults, allBinds, flatMap_map]
  exact flatMap_eq_nil_iff.2 fun _ _ => rfl

theorem mentions_shape (h : Shape.literal codes bits = .ok shape) : shape.Mentions P := by
  unfold Shape.literal at h
  split at h
  · cases h
  · cases h
    exact mentions_numText

theorem Answer.numbered (h : Answer types results k code k') :
    Numbered k (allDeclared code) k' := by
  cases h with
  | words => simpa using numbered_singleton "memPos" k
  | encoded =>
    simpa using (numbered_singleton "memPos" k).append (numbered_singleton "memEnd" (k + 1))

theorem Answer.scoped (h : Answer types results k code k') (hresults : ∀ x ∈ results, P x) :
    AllScoped P code := by
  cases h with
  | words =>
    refine allScoped_append.2 ⟨allScoped_append.2 ⟨?_, ?_⟩, ?_⟩
    · simp [allScoped_cons, Op.mload, Op.freePointer]
    · exact scoped_storeResults (by simp) fun x hx => .inl (hresults x hx)
    · simp [allScoped_cons]
  | encoded _ _ hshape =>
    have hshape : ∀ {Q : String → Prop}, Expr.Mentions Q _ := fun {Q} => mentions_shape hshape
    simp +contextual [allScoped_cons, Op.mload, Op.freePointer, Op.sub, hshape, hresults]

end

/-! ## Cases -/

section

theorem mentions_invocation (f : Abi.Function) (h : ∀ x ∈ names, P x) :
    (invocation f names).Mentions P := by
  refine mentions_call.2 fun e he => ?_
  obtain ⟨x, hx, rfl⟩ := mem_map.1 he
  exact h x hx

theorem scoped_reads (payable : Bool) (k : Nat) (forms : List ArgForm) :
    AllScoped P (valueCheck payable ++
      bindings (tempsFrom "param" k forms.length) (arguments 4 forms)) :=
  allScoped_append.2 ⟨scoped_valueCheck payable, scoped_bindings mentions_arguments⟩

theorem allBinds_reads (payable : Bool) (k : Nat) (forms : List ArgForm) :
    allBinds (valueCheck payable ++
      bindings (tempsFrom "param" k forms.length) (arguments 4 forms)) =
      tempsFrom "param" k forms.length := by
  rw [allBinds_append, allBinds_valueCheck, allBinds_bindings (by simp), nil_append]

theorem numbered_reads (payable : Bool) (k : Nat) (forms : List ArgForm) :
    Numbered k (allDeclared (valueCheck payable ++
      bindings (tempsFrom "param" k forms.length) (arguments 4 forms))) (k + forms.length) := by
  rw [allDeclared_append, allDeclared_valueCheck, allDeclared_bindings (by simp)]
  exact numbered_tempsFrom "param" k forms.length

theorem CaseCode.numbered (h : CaseCode f k code k') : Numbered k (allDeclared code) k' := by
  cases h with
  | @silent forms _ _ =>
    rw [allDeclared_append]
    exact (numbered_reads f.isPayable k forms).append .nil
  | @answering forms answer _ _ _ hanswer =>
    rw [allDeclared_append, allDeclared_append]
    refine ((numbered_reads f.isPayable k forms).append ?_).append hanswer.numbered
    simpa [declared] using numbered_tempsFrom "ret" (k + forms.length) f.returns.length

theorem CaseCode.scoped (h : CaseCode f k code k') : AllScoped P code := by
  cases h with
  | @silent forms _ _ =>
    refine allScoped_append.2 ⟨scoped_reads f.isPayable k forms, ?_⟩
    rw [allBinds_reads]
    refine allScoped_cons.2 ⟨mentions_invocation f fun x hx => .inr hx, ?_⟩
    simp [allScoped_cons]
  | @answering forms answer _ _ _ hanswer =>
    refine allScoped_append.2 ⟨allScoped_append.2
      ⟨scoped_reads f.isPayable k forms, ?_⟩, hanswer.scoped fun x hx => .inr ?_⟩
    · rw [allBinds_reads]
      exact allScoped_cons.2 ⟨mentions_invocation f fun x hx => .inr hx, allScoped_nil⟩
    · rw [allBinds_append]
      exact mem_append_right _ (by simpa [binds] using hx)

theorem CasesCode.numbered {cases : List (Literal × List Stmt)} (h : CasesCode fs k cases k') :
    Numbered k (casesDeclared cases) k' := by
  induction h with
  | nil => exact .nil
  | cons hcode _ ih => exact hcode.numbered.append ih

theorem CasesCode.scoped {cases : List (Literal × List Stmt)} (h : CasesCode fs k cases k') :
    CasesScoped P cases := by
  induction h with
  | nil => trivial
  | cons hcode _ ih => exact ⟨hcode.scoped, ih⟩

/-! ## Entry code -/

theorem scoped_special (s : Special) : AllScoped P s.code := by
  refine allScoped_append.2 ⟨scoped_valueCheck s.payable, ?_⟩
  simp [allScoped_cons]

theorem allDeclared_special (s : Special) : allDeclared s.code = [] := by
  unfold Special.code
  split <;> rfl

/-- Entry code reads variables where they are seen, and all that it declares has a number of its
own. -/
theorem wellScoped_entryCode (h : entryCode target g functions receive fallback = .ok (code, g')) :
    WellScoped code := by
  obtain ⟨sorted, cases, k, -, -, hcases, rfl⟩ := entryCode_eq h
  have hselection : AllScoped (fun _ => False) (selection cases) ∧
      (allDeclared (selection cases)).Nodup := by
    unfold selection
    split
    · exact ⟨allScoped_nil, .nil⟩
    · have hswitch : Scoped (fun _ => False)
          (.switch (Op.shr (num 224) (call "calldataload" [num 0])) cases none) :=
        ⟨by simp [Op.shr], hcases.scoped⟩
      refine ⟨allScoped_cons.2 ⟨⟨by simp [Op.isZero, Op.lt],
        allScoped_cons.2 ⟨hswitch, allScoped_nil⟩⟩, allScoped_nil⟩, ?_⟩
      simpa [declared] using hcases.numbered.nodup
  have hreception : ∀ P, AllScoped P (reception receive) ∧
      allDeclared (reception receive) = [] := by
    intro P
    cases receive with
    | none => exact ⟨allScoped_nil, rfl⟩
    | some r =>
      refine ⟨allScoped_cons.2 ⟨⟨by simp [Op.isZero], scoped_special r⟩, allScoped_nil⟩, ?_⟩
      simpa [reception, declared] using allDeclared_special r
  have hremainder : ∀ P, AllScoped P (remainder fallback) ∧
      allDeclared (remainder fallback) = [] := by
    intro P
    cases fallback with
    | none => exact ⟨by simp [remainder, allScoped_cons, Op.revertEmpty, Op.revert], rfl⟩
    | some f => exact ⟨scoped_special f, allDeclared_special f⟩
  refine ⟨allScoped_append.2 ⟨allScoped_append.2
    ⟨hselection.1, (hreception _).1⟩, (hremainder _).1⟩, ?_⟩
  rw [routing, allDeclared_append, allDeclared_append, (hreception fun _ => False).2,
    (hremainder fun _ => False).2, append_nil, append_nil]
  exact hselection.2

end

end ContractYul.Dispatch
