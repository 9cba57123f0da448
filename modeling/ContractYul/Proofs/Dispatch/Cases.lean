import ContractYul.Dispatch
import ContractYul.Proofs.Outcome
import ContractYul.Proofs.Routine.Closed
import ContractYul.Proofs.Text.Digits

/-!
# The code of entry points, written out

Entry code is constructed with a counter for its variables and a registry of routines. What comes
out depends on the counter alone: variables are numbered from it in the order in which they are
made. `CaseCode` says what the case of a function is, with the variables of its arguments, then
those of its results, then those that hold the ends of the encoded answer. A case calls its function,
with as many arguments and results as are declared, and routines that it puts to use.

Main statements: `entryCode_eq`, the entry code of a contract is `routing` of cases that each are the
`CaseCode` of a function; `build_order_independent`, the order of the functions does not matter.
-/

open List

namespace ContractYul.Dispatch

open Yul Outcome Stmt

/-! ## Steps of a construction -/

section

variable {α β : Type}

theorem exists_of_bind {f : α → Build β} (h : (m >>= f) s = .ok (b, s'')) :
    ∃ a s', m s = .ok (a, s') ∧ f a s' = .ok (b, s'') := by
  obtain ⟨⟨a, s'⟩, ha, h⟩ := bind_eq_ok.1 h
  exact ⟨a, s', ha, h⟩

theorem eq_of_pure (h : (pure a : Build α) s = .ok (b, s')) : a = b ∧ s = s' :=
  pair_inj h

theorem lift_eq_ok {x : Outcome α} (h : (liftM x : Build α) s = .ok (a, s')) :
    x = .ok a ∧ s = s' := by
  obtain ⟨a', ha, h⟩ := bind_eq_ok.1 h
  obtain ⟨rfl, rfl⟩ : a' = a ∧ s = s' := by simpa using pure_eq_ok.1 h
  exact ⟨ha, rfl⟩

theorem mapM_lift_eq_ok {f : α → Outcome β} {as : List α}
    (h : as.mapM (fun a => (liftM (f a) : Build β)) s = .ok (bs, s')) :
    as.mapM f = .ok bs ∧ s = s' := by
  induction as generalizing bs s with
  | nil =>
    obtain ⟨rfl, rfl⟩ := eq_of_pure h
    exact ⟨rfl, rfl⟩
  | cons a as ih =>
    rw [mapM_cons] at h
    obtain ⟨b, s₁, hfirst, h⟩ := exists_of_bind h
    obtain ⟨hb, rfl⟩ := lift_eq_ok hfirst
    obtain ⟨bs, s₂, hrest, h⟩ := exists_of_bind h
    obtain ⟨rfl, rfl⟩ := eq_of_pure h
    obtain ⟨hbs, rfl⟩ := ih hrest
    refine ⟨?_, rfl⟩
    rw [mapM_cons]
    exact bind_eq_ok.2 ⟨b, hb, bind_eq_ok.2 ⟨bs, hbs, rfl⟩⟩

end

/-! ## Variables -/

def tempName (stem : String) (i : Nat) : String :=
  stem ++ "_" ++ toString i

def tempsFrom (stem : String) (k count : Nat) : List String :=
  (range' k count).map (tempName stem)

@[simp]
theorem length_tempsFrom (stem : String) (k count : Nat) :
    (tempsFrom stem k count).length = count := by
  simp [tempsFrom]

theorem tempsFrom_succ (stem : String) (k count : Nat) :
    tempsFrom stem k (count + 1) = tempName stem k :: tempsFrom stem (k + 1) count := by
  simp [tempsFrom, range'_succ]

variable {stem : String} {s : State} {target : Target} {code : List Stmt}

theorem eq_of_temp (h : temp stem s = .ok (name, s')) :
    name = tempName stem s.counter ∧ s' = { s with counter := s.counter + 1 } := by
  cases h
  exact ⟨rfl, rfl⟩

/-- The number stands behind the last underscore. -/
theorem tempName_injective (h : tempName stem i = tempName stem' j) : stem = stem' ∧ i = j := by
  have hlist := congrArg String.toList h
  have hsplit : ∀ (stem : String) (i : Nat), (tempName stem i).toList =
      stem.toList ++ '_' :: (toString i).toList := by
    intro stem i
    rw [tempName, String.toList_append, String.toList_append, append_assoc]
    rfl
  rw [hsplit, hsplit] at hlist
  obtain ⟨hfront, hback⟩ := Text.split_at_last (Text.underscore_notMem_toString i)
    (Text.underscore_notMem_toString j) hlist
  exact ⟨String.toList_inj.1 hfront, toString_injective (String.toList_inj.1 hback)⟩

theorem nodup_tempsFrom (stem : String) (k count : Nat) : (tempsFrom stem k count).Nodup :=
  (nodup_range' (s := k)).map_on fun _ _ _ _ h => (tempName_injective h).2

theorem tempName_notMem {i k count : Nat} (h : stem ≠ stem') :
    tempName stem i ∉ tempsFrom stem' k count := by
  intro hmem
  obtain ⟨j, -, heq⟩ := mem_map.1 hmem
  exact h (tempName_injective heq).1.symm

/-! ## What entry code calls -/

/-- What entry code may call: routines in use and the functions of a contract. -/
def Callee (functions : List Call) (g : Registry) (c : Call) : Prop :=
  g.Callee c ∨ c ∈ functions

instance (functions : List Call) (g : Registry) : Instructed (Callee functions g) where
  instruction _ h := .inl (.inl h)

theorem Callee.mono (h : g.Grows g') (hc : Callee functions g c) : Callee functions g' c :=
  hc.imp_left h.includes.callee

section

variable {C : Call → Prop} [Instructed C]

theorem linked_offsetFrom : (offsetFrom base bytes).Linked C 1 := by
  unfold offsetFrom
  split <;> simp

theorem linked_rejectValue : rejectValue.Linked C := by
  simp [rejectValue, instructed C ⟨"callvalue", 0, 1⟩ (by decide)]

theorem linked_return {start length : Expr} (hstart : start.Linked C 1)
    (hlength : length.Linked C 1) : (run "return" [start, length]).Linked C := by
  simpa [instructed C ⟨"return", 2, 0⟩ (by decide)] using ⟨hstart, hlength⟩

end

/-! ## Arguments -/

def argument (head : Nat) : ArgForm → Expr
  | .word => call "calldataload" [num head]
  | .dynamic unit => FixedRoutine.abiDecodeCalldataDynamic.call [num head, num unit]
  | .inlined count => FixedRoutine.abiDecodeCalldataWords.call [num head, num count]

def arguments : (head : Nat) → List ArgForm → List Expr
  | _, [] => []
  | head, form :: rest => argument head form :: arguments (head + form.headSize) rest

@[simp]
theorem length_arguments (head : Nat) (forms : List ArgForm) :
    (arguments head forms).length = forms.length := by
  induction forms generalizing head with
  | nil => rfl
  | cons form forms ih => simp [arguments, ih]

theorem readArgument_eq {head : Nat} (h : readArgument target head form s = .ok (e, s')) :
    e = argument head form ∧ s'.counter = s.counter ∧ s.registry.Grows s'.registry ∧
      e.Linked s'.registry.Callee 1 := by
  -- a routine that is called has just been put to use
  have huse : ∀ r : FixedRoutine, s.registry.Grows (s.registry.add target (.fixed r)) ∧
      (s.registry.add target (.fixed r)).contains (.fixed r) := fun r =>
    ⟨Registry.grows_add target rfl, Registry.contains_add target rfl⟩
  cases form with
  | word =>
    cases h
    exact ⟨rfl, rfl, .refl,
      linked_call.2 ⟨instructed _ ⟨"calldataload", 1, 1⟩ (by decide), by simp⟩⟩
  | dynamic unit =>
    cases h
    obtain ⟨hgrows, hused⟩ := huse .abiDecodeCalldataDynamic
    exact ⟨rfl, rfl, hgrows, linked_call.2 ⟨.inr ⟨_, hused, rfl⟩, by simp⟩⟩
  | inlined count =>
    cases h
    obtain ⟨hgrows, hused⟩ := huse .abiDecodeCalldataWords
    exact ⟨rfl, rfl, hgrows, linked_call.2 ⟨.inr ⟨_, hused, rfl⟩, by simp⟩⟩

def formsOf (params : List Abi.Param) : Outcome (List ArgForm) :=
  params.mapM fun p => ArgForm.ofTy p.ty

theorem readArguments_eq {head : Nat} {params : List Abi.Param} {args : List (String × Expr)}
    (h : readArguments target head params s = .ok (args, s')) :
    ∃ forms, formsOf params = .ok forms ∧
      args = (tempsFrom "param" s.counter forms.length).zip (arguments head forms) ∧
      s'.counter = s.counter + forms.length ∧ s.registry.Grows s'.registry ∧
      ∀ e ∈ arguments head forms, e.Linked s'.registry.Callee 1 := by
  induction params generalizing head args s with
  | nil =>
    obtain ⟨rfl, rfl⟩ := eq_of_pure h
    exact ⟨[], rfl, rfl, rfl, .refl, forall_mem_nil _⟩
  | cons p rest ih =>
    obtain ⟨form, s₁, hlifted, h⟩ := exists_of_bind h
    obtain ⟨hform, rfl⟩ := lift_eq_ok hlifted
    obtain ⟨name, s₂, hname, h⟩ := exists_of_bind h
    obtain ⟨rfl, rfl⟩ := eq_of_temp hname
    obtain ⟨value, s₃, hvalue, h⟩ := exists_of_bind h
    obtain ⟨rfl, hcounter, hgrows, hlinked⟩ := readArgument_eq hvalue
    have hcounter : s₃.counter = s.counter + 1 := hcounter
    obtain ⟨more, s₄, hmore, h⟩ := exists_of_bind h
    obtain ⟨rfl, rfl⟩ := eq_of_pure h
    obtain ⟨forms, hforms, rfl, hcounter', hgrows', hrest⟩ := ih hmore
    rw [hcounter] at hcounter' ⊢
    refine ⟨form :: forms, ?_, ?_, by rw [length_cons]; omega, hgrows.trans hgrows',
      forall_mem_cons.2 ⟨hlinked.mono fun _ => hgrows'.includes.callee, hrest⟩⟩
    · rw [formsOf, mapM_cons, hform]
      exact bind_eq_ok.2 ⟨form, rfl, bind_eq_ok.2 ⟨forms, hforms, rfl⟩⟩
    · rfl

def bindings (names : List String) (values : List Expr) : List Stmt :=
  (names.zip values).map fun q => .letOne q.1 q.2

/-! ## Answers -/

def storeResults (pos : String) (results : List String) : List Stmt :=
  results.zipIdx.map fun (r, i) => Op.mstore (offsetFrom pos (32 * i)) (ident r)

/-- What a case does with the results of its function; the variables are numbered from `k`. -/
inductive Answer (types : List Ty) (results : List String) (k : Nat) : List Stmt → Nat → Prop
  /-- All results are words. -/
  | words (htypes : types.all Ty.isValue) :
    Answer types results k
      ([.letOne (tempName "memPos" k) (Op.mload Op.freePointer)] ++
        storeResults (tempName "memPos" k) results ++
        [.run "return" [ident (tempName "memPos" k), num (32 * results.length)]]) (k + 1)
  /-- The results are encoded by their shapes. -/
  | encoded {codes : List Nat} {shape : Expr} (htypes : ¬ types.all Ty.isValue)
    (hcodes : types.mapM Shape.ofTy = .ok codes) (hshape : Shape.literal codes 2 = .ok shape) :
    Answer types results k
      [.letOne (tempName "memPos" k) (Op.mload Op.freePointer),
       .letOne (tempName "memEnd" (k + 1)) (call (RoutineFamily.abiEncode.name results.length)
         ([ident (tempName "memPos" k), shape] ++ results.map ident)),
       .run "return" [ident (tempName "memPos" k),
         Op.sub (ident (tempName "memEnd" (k + 1))) (ident (tempName "memPos" k))]] (k + 2)

theorem answer_of_returnResults {types : List Ty} {results : List String}
    (h : returnResults target types results s = .ok (code, s')) :
    Answer types results s.counter code s'.counter ∧ s.registry.Grows s'.registry ∧
      AllLinked s'.registry.Callee code := by
  have hstart : ∀ (g : Registry) (pos : String),
      (letOne pos (Op.mload Op.freePointer)).Linked g.Callee := by simp [Op.freePointer]
  obtain ⟨pos, s₁, hpos, h⟩ := exists_of_bind h
  obtain ⟨rfl, rfl⟩ := eq_of_temp hpos
  split at h
  · rename_i htypes
    obtain ⟨rfl, rfl⟩ := eq_of_pure h
    refine ⟨.words htypes, .refl, allUse_append.2 ⟨allUse_append.2 ⟨?_, ?_⟩, ?_⟩⟩
    · exact ⟨hstart _ _, trivial⟩
    · exact allUse_map.2 fun q _ => Op.uses_mstore.2 ⟨linked_offsetFrom, trivial⟩
    · exact ⟨linked_return trivial trivial, trivial⟩
  · rename_i htypes
    obtain ⟨codes, s₂, hlifted, h⟩ := exists_of_bind h
    obtain ⟨hcodes, rfl⟩ := mapM_lift_eq_ok hlifted
    obtain ⟨_, s₃, huse, h⟩ := exists_of_bind h
    cases huse
    obtain ⟨shape, s₄, hliteral, h⟩ := exists_of_bind h
    obtain ⟨hshape, rfl⟩ := lift_eq_ok hliteral
    obtain ⟨stop, s₅, hstop, h⟩ := exists_of_bind h
    obtain ⟨rfl, rfl⟩ := eq_of_temp hstop
    obtain ⟨rfl, rfl⟩ := eq_of_pure h
    refine ⟨.encoded htypes hcodes hshape, Registry.grows_add target rfl, hstart _ _, ?_,
      linked_return trivial (Op.fits_sub.2 ⟨trivial, trivial⟩), trivial⟩
    refine linked_call.2 ⟨.inr ⟨_, Registry.contains_add target rfl, ?_⟩, forall_mem_append.2
      ⟨by simpa using linked_shape hshape, forall_mem_map.2 fun _ _ => trivial⟩⟩
    -- the encoder takes the position and the shape in front of the results
    rw [length_append, length_map, Nat.add_comm]
    rfl

/-! ## Cases -/

def valueCheck (payable : Bool) : List Stmt :=
  if payable then [] else [rejectValue]

def invocation (f : Abi.Function) (names : List String) : Expr :=
  call f.irName (names.map ident)

inductive CaseCode (f : Abi.Function) (k : Nat) : List Stmt → Nat → Prop
  | silent {forms : List ArgForm} (hforms : formsOf f.params = .ok forms) (hreturns : f.returns = []) :
    CaseCode f k
      (valueCheck f.isPayable ++
        bindings (tempsFrom "param" k forms.length) (arguments 4 forms) ++
        [.eval (invocation f (tempsFrom "param" k forms.length)),
         .run "return" [num 0, num 0]])
      (k + forms.length)
  | answering {forms : List ArgForm} {answer : List Stmt} {k' : Nat}
    (hforms : formsOf f.params = .ok forms) (hreturns : f.returns ≠ [])
    (hanswer : Answer f.returns (tempsFrom "ret" (k + forms.length) f.returns.length)
      (k + forms.length + f.returns.length) answer k') :
    CaseCode f k
      (valueCheck f.isPayable ++
        bindings (tempsFrom "param" k forms.length) (arguments 4 forms) ++
        [.declare (tempsFrom "ret" (k + forms.length) f.returns.length)
          (some (invocation f (tempsFrom "param" k forms.length)))] ++ answer)
      k'

theorem mapM_temp {α : Type} {as : List α} {names : List String}
    (h : as.mapM (fun _ => temp stem) s = .ok (names, s')) :
    names = tempsFrom stem s.counter as.length ∧
      s' = { s with counter := s.counter + as.length } := by
  induction as generalizing names s with
  | nil =>
    obtain ⟨rfl, rfl⟩ := eq_of_pure h
    exact ⟨rfl, rfl⟩
  | cons a as ih =>
    rw [mapM_cons] at h
    obtain ⟨name, s₁, hname, h⟩ := exists_of_bind h
    obtain ⟨rfl, rfl⟩ := eq_of_temp hname
    obtain ⟨names, s₂, hnames, h⟩ := exists_of_bind h
    obtain ⟨rfl, rfl⟩ := eq_of_pure h
    obtain ⟨rfl, rfl⟩ := ih hnames
    rw [length_cons, tempsFrom_succ, Nat.add_comm as.length, Nat.add_assoc]
    exact ⟨rfl, rfl⟩

section

theorem linked_valueCheck (payable : Bool) :
    AllLinked (Callee functions g) (valueCheck payable) := by
  unfold valueCheck
  split
  · exact trivial
  · simpa using linked_rejectValue

theorem linked_reads {head : Nat} (payable : Bool)
    (h : ∀ e ∈ arguments head forms, e.Linked g.Callee 1) : AllLinked (Callee functions g)
      (valueCheck payable ++ bindings names (arguments head forms)) := by
  refine allUse_append.2 ⟨linked_valueCheck payable, allUse_map.2 fun q hq => ?_⟩
  exact (h _ (of_mem_zip hq).2).mono fun _ hc => .inl hc

theorem linked_invocation (hnames : names.length = f.params.length)
    (hf : ⟨f.irName, f.params.length, f.returns.length⟩ ∈ functions) :
    (invocation f names).Linked (Callee functions g) f.returns.length := by
  refine linked_call.2 ⟨.inr ?_, forall_mem_map.2 fun _ _ => trivial⟩
  rw [length_map, hnames]
  exact hf

end

theorem caseCode_of_functionCase {f : Abi.Function} (h : functionCase target f s = .ok (code, s')) :
    CaseCode f s.counter code s'.counter ∧ s.registry.Grows s'.registry ∧
      ∀ functions : List Call, ⟨f.irName, f.params.length, f.returns.length⟩ ∈ functions →
        AllLinked (Callee functions s'.registry) code := by
  obtain ⟨args, s₁, hargs, h⟩ := exists_of_bind h
  obtain ⟨forms, hforms, rfl, hcounter, hgrows, hreads⟩ := readArguments_eq hargs
  obtain ⟨results, s₂, hresults, h⟩ := exists_of_bind h
  obtain ⟨rfl, rfl⟩ := mapM_temp hresults
  have hnames : ((tempsFrom "param" s.counter forms.length).zip (arguments 4 forms)).map
      (fun q => ident q.1) = (tempsFrom "param" s.counter forms.length).map ident := by
    have hfst : ((tempsFrom "param" s.counter forms.length).zip (arguments 4 forms)).map (·.1) =
        tempsFrom "param" s.counter forms.length := map_fst_zip (by simp)
    nth_rewrite 2 [← hfst]
    rw [List.map_map]
    rfl
  have hcount : (tempsFrom "param" s.counter forms.length).length = f.params.length := by
    rw [length_tempsFrom, (mapM_eq_ok.1 hforms).length_eq]
  rw [hcounter] at h
  split at h
  · rename_i hempty
    obtain ⟨rfl, rfl⟩ := eq_of_pure h
    have hreturns : f.returns = [] := by
      rw [isEmpty_iff_length_eq_zero, length_tempsFrom] at hempty
      exact length_eq_zero_iff.1 hempty
    rw [hnames]
    refine ⟨?_, hgrows, fun functions hf => allUse_append.2
      ⟨linked_reads f.isPayable hreads, ?_, linked_return trivial trivial, trivial⟩⟩
    · rw [hreturns]
      exact .silent hforms hreturns
    · have hcall := linked_invocation (g := s₁.registry) hcount hf
      rwa [hreturns] at hcall
  · rename_i hempty
    obtain ⟨answer, s₃, hanswer, h⟩ := exists_of_bind h
    obtain ⟨rfl, rfl⟩ := eq_of_pure h
    have hreturns : f.returns ≠ [] := fun hnil => hempty (by simp [hnil, tempsFrom])
    obtain ⟨hanswer, hgrows', hlinked⟩ := answer_of_returnResults hanswer
    rw [hnames]
    refine ⟨.answering hforms hreturns hanswer, hgrows.trans hgrows', fun functions hf => ?_⟩
    refine allUse_append.2 ⟨allUse_append.2 ⟨?_, ?_⟩, hlinked.mono fun _ hc => .inl hc⟩
    · exact linked_reads f.isPayable fun e he => (hreads e he).mono fun _ => hgrows'.includes.callee
    · have hcall := linked_invocation (g := s₃.registry) hcount hf
      rw [← length_tempsFrom "ret" (s.counter + forms.length) f.returns.length] at hcall
      exact ⟨hcall, trivial⟩

/-! ## Entry code -/

inductive CasesCode : List Abi.Function → Nat → List (Literal × List Stmt) → Nat → Prop
  | nil {k : Nat} : CasesCode [] k [] k
  | cons {f : Abi.Function} {fs : List Abi.Function} {k k₁ k' : Nat} {code : List Stmt}
    {cases : List (Literal × List Stmt)} (hcode : CaseCode f k code k₁)
    (hcases : CasesCode fs k₁ cases k') :
    CasesCode (f :: fs) k ((.number (Abi.selectorText f.selector), code) :: cases) k'

/-- The part of the entry code that leads to functions. -/
def selection (cases : List (Literal × List Stmt)) : List Stmt :=
  if cases.isEmpty then []
  else [.ifThen (Op.isZero (Op.lt (call "calldatasize" []) (num 4)))
    [.switch (Op.shr (num 224) (call "calldataload" [num 0])) cases none]]

def reception : Option Special → List Stmt
  | some r => [.ifThen (Op.isZero (call "calldatasize" [])) r.code]
  | none => []

def remainder : Option Special → List Stmt
  | some f => f.code
  | none => [Op.revertEmpty]

def routing (cases : List (Literal × List Stmt)) (receive fallback : Option Special) : List Stmt :=
  selection cases ++ reception receive ++ remainder fallback

theorem casesCode_of_cases {code : List (Literal × List Stmt)}
    (h : cases target (fs.map fun f => (f.selector, f)) s = .ok (code, s')) :
    CasesCode fs s.counter code s'.counter ∧ s.registry.Grows s'.registry ∧
      ∀ functions : List Call,
        (∀ f ∈ fs, ⟨f.irName, f.params.length, f.returns.length⟩ ∈ functions) →
          ∀ q ∈ code, AllLinked (Callee functions s'.registry) q.2 := by
  unfold cases at h
  induction fs generalizing code s with
  | nil =>
    obtain ⟨rfl, rfl⟩ := eq_of_pure h
    exact ⟨.nil, .refl, fun _ _ => forall_mem_nil _⟩
  | cons f fs ih =>
    rw [map_cons, mapM_cons] at h
    obtain ⟨first, s₁, hfirst, h⟩ := exists_of_bind h
    obtain ⟨body, s₂, hbody, hfirst⟩ := exists_of_bind hfirst
    obtain ⟨rfl, rfl⟩ := eq_of_pure hfirst
    obtain ⟨rest, s₃, hrest, h⟩ := exists_of_bind h
    obtain ⟨rfl, rfl⟩ := eq_of_pure h
    obtain ⟨hcase, hgrows, hlinked⟩ := caseCode_of_functionCase hbody
    obtain ⟨hcases, hgrows', hmore⟩ := ih hrest
    refine ⟨.cons hcase hcases, hgrows.trans hgrows', fun functions hfs => ?_⟩
    obtain ⟨hf, hfs⟩ := forall_mem_cons.1 hfs
    exact forall_mem_cons.2 ⟨(hlinked functions hf).mono fun _ hc => hc.mono hgrows',
      hmore functions hfs⟩

/-- Whether selectors are distinct, from each other and from those before, decides the check. A
refusal names two functions of one selector. -/
theorem checkSelectors_cases (earlier fs : List (Nat × Abi.Function)) :
    (checkSelectors earlier fs = .ok () ∧
      (fs.map (·.1)).Nodup ∧ ∀ q ∈ fs, ∀ e ∈ earlier, e.1 ≠ q.1) ∨
    (¬ ((fs.map (·.1)).Nodup ∧ ∀ q ∈ fs, ∀ e ∈ earlier, e.1 ≠ q.1) ∧
      ∃ a ∈ earlier ++ fs, ∃ b ∈ fs, a.1 = b.1 ∧ checkSelectors earlier fs =
        .error (.inconsistent
          (.sharedSelector (Abi.selectorText b.1) a.2.signature b.2.signature))) := by
  induction fs generalizing earlier with
  | nil => exact .inl ⟨rfl, nodup_nil, forall_mem_nil _⟩
  | cons q fs ih =>
    obtain ⟨selector, f⟩ := q
    rw [checkSelectors]
    cases hfound : earlier.find? (·.1 == selector) with
    | some g =>
      obtain ⟨selector', g⟩ := g
      have hmem := mem_of_find?_eq_some hfound
      have hsame : selector' = selector := by simpa using find?_some hfound
      exact .inr ⟨fun h => h.2 _ mem_cons_self _ hmem hsame,
        _, mem_append_left _ hmem, _, mem_cons_self, hsame, rfl⟩
    | none =>
      -- the head is compared with what follows it once it stands among the earlier ones
      have hshift : ((((selector, f) :: fs).map (·.1)).Nodup ∧
          ∀ q ∈ (selector, f) :: fs, ∀ e ∈ earlier, e.1 ≠ q.1) ↔
          (fs.map (·.1)).Nodup ∧ ∀ q ∈ fs, ∀ e ∈ (selector, f) :: earlier, e.1 ≠ q.1 := by
        simp only [forall_mem_cons]
        grind
      rw [hshift]
      obtain hok | ⟨hnot, a, ha, b, hb, hsame, herror⟩ := ih ((selector, f) :: earlier)
      · exact .inl hok
      · refine .inr ⟨hnot, a, ?_, b, mem_cons_of_mem _ hb, hsame, herror⟩
        simpa [or_left_comm] using ha

theorem map_selector_eq (functions : List Abi.Function) :
    (functions.map fun f => (f.selector, f)).map (·.1) = functions.map (·.selector) := by
  simp

theorem checkSelectors_eq_ok {functions : List Abi.Function} :
    checkSelectors [] (functions.map fun f => (f.selector, f)) = .ok () ↔
      (functions.map (·.selector)).Nodup := by
  rw [← map_selector_eq]
  obtain ⟨hok, hnodup, -⟩ | ⟨hnot, _, _, _, _, _, herror⟩ :=
    checkSelectors_cases [] (functions.map fun f => (f.selector, f))
  · exact iff_of_true hok hnodup
  · refine iff_of_false (fun hok => ?_) fun hnodup => hnot ⟨hnodup, fun _ _ => forall_mem_nil _⟩
    rw [hok] at herror
    cases herror

/-- The entry code of a contract has a case for each function, in some order, and the selectors of
its functions are distinct. -/
theorem exists_routing {g g' : Registry} {functions : List Abi.Function}
    (h : entryCode target g functions receive fallback = .ok (code, g')) :
    ∃ sorted cases k, sorted.Perm functions ∧ (functions.map (·.selector)).Nodup ∧
      CasesCode sorted 0 cases k ∧ code = routing cases receive fallback ∧ g.Grows g' ∧
      ∀ calls : List Call,
        (∀ f ∈ functions, ⟨f.irName, f.params.length, f.returns.length⟩ ∈ calls) →
          ∀ q ∈ cases, AllLinked (Callee calls g') q.2 := by
  obtain ⟨⟨_, s⟩, hbuild, h⟩ := bind_eq_ok.1 h
  cases h
  obtain ⟨_, s₁, hlifted, hbuild⟩ := exists_of_bind hbuild
  obtain ⟨hcheck, rfl⟩ := lift_eq_ok hlifted
  obtain ⟨cases, s₂, hcases, hbuild⟩ := exists_of_bind hbuild
  obtain ⟨rfl, rfl⟩ := eq_of_pure hbuild
  have hnodup := checkSelectors_eq_ok.1 hcheck
  set keyed := functions.map fun f => (f.selector, f) with hkeyed
  have hperm : (keyed.mergeSort fun a b => a.1 ≤ b.1).Perm keyed := mergeSort_perm _ _
  have hsorted : ((keyed.mergeSort fun a b => a.1 ≤ b.1).map (·.2)).Perm functions := by
    refine (hperm.map (·.2)).trans (Perm.of_eq ?_)
    simp [hkeyed, Function.comp_def]
  -- a pair is made from its function, so sorting pairs sorts functions
  have hsame : ((keyed.mergeSort fun a b => a.1 ≤ b.1).map (·.2)).map (fun f => (f.selector, f)) =
      keyed.mergeSort fun a b => a.1 ≤ b.1 := by
    rw [List.map_map]
    refine (map_congr_left fun q hq => ?_).trans (map_id _)
    obtain ⟨f, -, rfl⟩ := mem_map.1 (hperm.mem_iff.1 hq)
    rfl
  rw [← hsame] at hcases
  obtain ⟨hcode, hgrows, hlinked⟩ := casesCode_of_cases hcases
  exact ⟨_, cases, s₂.counter, hsorted, hnodup, hcode, rfl, hgrows, fun calls hcalls =>
    hlinked calls fun f hf => hcalls f (hsorted.mem_iff.1 hf)⟩

theorem entryCode_eq (h : entryCode target g functions receive fallback = .ok (code, g')) :
    ∃ sorted cases k, sorted.Perm functions ∧ (functions.map (·.selector)).Nodup ∧
      CasesCode sorted 0 cases k ∧ code = routing cases receive fallback := by
  obtain ⟨sorted, cases, k, hperm, hnodup, hcases, hcode, -⟩ := exists_routing h
  exact ⟨sorted, cases, k, hperm, hnodup, hcases, hcode⟩

/-- Pairs with distinct numbers have one order by their numbers. -/
theorem mergeSort_eq_of_perm {keyed keyed' : List (Nat × Abi.Function)}
    (hnodup : (keyed.map (·.1)).Nodup) (hperm : keyed'.Perm keyed) :
    (keyed'.mergeSort fun a b => a.1 ≤ b.1) = keyed.mergeSort fun a b => a.1 ≤ b.1 := by
  have htrans : ∀ a b c : Nat × Abi.Function, decide (a.1 ≤ b.1) = true →
      decide (b.1 ≤ c.1) = true → decide (a.1 ≤ c.1) = true := fun a b c => by
    simpa using Nat.le_trans
  have htotal : ∀ a b : Nat × Abi.Function, (decide (a.1 ≤ b.1) || decide (b.1 ≤ a.1)) = true :=
    fun a b => by simpa using Nat.le_total a.1 b.1
  have hsorted : ∀ fs : List (Nat × Abi.Function),
      (fs.mergeSort fun a b => a.1 ≤ b.1).Pairwise fun a b => a.1 ≤ b.1 := fun fs => by
    simpa using pairwise_mergeSort htrans htotal fs
  refine Perm.eq_of_pairwise (fun a b ha hb hab hba => ?_) (hsorted keyed') (hsorted keyed)
    (((mergeSort_perm _ _).trans hperm).trans (mergeSort_perm _ _).symm)
  refine inj_on_of_nodup_map hnodup ?_ ?_ (Nat.le_antisymm hab hba)
  · exact hperm.mem_iff.1 ((mergeSort_perm _ _).mem_iff.1 ha)
  · exact (mergeSort_perm _ _).mem_iff.1 hb

/-- Entry code does not depend on the order in which functions with distinct selectors are declared:
from every state the construction gives the same code, variables and routines, or the same error. Of
functions that share a selector it gives none, and names two of them. -/
theorem build_order_independent (target : Target) (functions : List Abi.Function)
    (receive fallback : Option Special) :
    ((functions.map (·.selector)).Nodup → ∀ functions' : List Abi.Function,
      functions'.Perm functions →
        build target functions' receive fallback = build target functions receive fallback) ∧
    (¬ (functions.map (·.selector)).Nodup → ∀ s : State,
      ∃ f ∈ functions, ∃ g ∈ functions, f.selector = g.selector ∧
        build target functions receive fallback s = .error (.inconsistent
          (.sharedSelector (Abi.selectorText f.selector) f.signature g.signature))) := by
  constructor
  · intro hnodup functions' hperm
    have hnodup' : (functions'.map (·.selector)).Nodup := (hperm.map _).nodup_iff.2 hnodup
    have hsort := mergeSort_eq_of_perm ((map_selector_eq functions).symm ▸ hnodup)
      (hperm.map fun f => (f.selector, f))
    unfold build
    dsimp only
    rw [checkSelectors_eq_ok.2 hnodup, checkSelectors_eq_ok.2 hnodup', hsort]
  · intro hshared s
    obtain ⟨-, hnodup, -⟩ | ⟨-, a, ha, b, hb, hsame, herror⟩ :=
      checkSelectors_cases [] (functions.map fun f => (f.selector, f))
    · exact absurd (map_selector_eq functions ▸ hnodup) hshared
    · obtain ⟨f, hf, rfl⟩ := List.mem_map.1 ha
      obtain ⟨g, hg, rfl⟩ := List.mem_map.1 hb
      have hsame : f.selector = g.selector := hsame
      refine ⟨f, hf, g, hg, hsame, ?_⟩
      unfold build
      rw [herror, hsame]
      rfl

def toll (name : String) : Abi.Function :=
  ⟨name, "fun_" ++ name, name ++ "(uint256)", [⟨"amount", "number", .uint 256⟩], [.uint 256],
    .payable⟩

theorem build_order_independent_tolls :
    ([toll "pay", toll "owe"].map (·.selector)).Nodup ∧
    build .shanghai [toll "owe", toll "pay"] none none =
      build .shanghai [toll "pay", toll "owe"] none none ∧
    ∀ s, build .shanghai [toll "pay", toll "pay"] none none s = .error (.inconsistent
      (.sharedSelector (Abi.selectorText (toll "pay").selector) "pay(uint256)" "pay(uint256)")) := by
  have hpay : (toll "pay").selector = 0xc290d691 := by decide +kernel
  have howe : (toll "owe").selector = 0x2f65361c := by decide +kernel
  have hnodup : ([toll "pay", toll "owe"].map (·.selector)).Nodup := by simp [hpay, howe]
  refine ⟨hnodup, (build_order_independent .shanghai _ none none).1 hnodup _ (.swap _ _ _), fun s => ?_⟩
  obtain ⟨f, hf, g, hg, -, herror⟩ :=
    (build_order_independent .shanghai [toll "pay", toll "pay"] none none).2 (by simp) s
  obtain rfl : f = toll "pay" := by simpa using hf
  obtain rfl : g = toll "pay" := by simpa using hg
  exact herror

end ContractYul.Dispatch
