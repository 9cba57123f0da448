import ContractYul.Proofs.Coding.Encoding

/-!
# The data of calls

A call of another contract carries a selector and the standard encoding of its arguments. The routines
that make calls put these bytes behind the memory in use, where none of the arguments lies, and hand
over exactly these bytes.
-/

open List

namespace ContractYul.Coding

open Yul Machine FixedRoutine RoutineFamily

def selectorBytes (sel : Word) : List UInt8 :=
  (Word.toBytes (sel <<< 224)).take 4

@[simp]
theorem length_selectorBytes (sel : Word) : (selectorBytes sel).length = 4 := by
  simp [selectorBytes]

def callData (sel : Word) (ds : List Datum) : List UInt8 :=
  selectorBytes sel ++ encoding ds

theorem length_callData (sel : Word) (ds : List Datum) :
    (callData sel ds).length = 4 + (encoding ds).length := by
  rw [callData, length_append, length_selectorBytes]

section

variable {target : Target}

/-- The data of a call are written to a place behind the arguments. -/
theorem apply_abiEncodeSelector (ctx : Context)
    (h : Includes functions target (.family .abiEncodeSelector codes.length)) (sel : Word)
    (w : World) (hbelow : Forall₂ (Datum.Below w.memory dst.toNat) codes vs)
    (hcodes : ∀ code ∈ codes, code < 3) (hcount : codes.length ≤ 128)
    (hend : dst.toNat + (callData sel (dataOf w.memory codes vs)).length < 2 ^ 256)
    (hlimit : (tails (dataOf w.memory codes vs)).length ≤ n) :
    ∃ m', (within ctx functions (n + 4)).apply
        (abiEncodeSelector.name codes.length) (dst :: sel :: shapeWord codes :: vs) w =
          .ok ([BitVec.ofNat 256 (dst.toNat + (callData sel (dataOf w.memory codes vs)).length)],
            w.withMemory m') ∧
      m'.Has dst.toNat (callData sel (dataOf w.memory codes vs)) := by
  rw [length_callData] at hend ⊢
  have hvs : vs.length = codes.length := hbelow.length_eq.symm
  set M := within ctx functions (n + 3)
  set f := abiEncodeSelectorDef codes.length
  set σ := entry f (dst :: sel :: shapeWord codes :: vs) w
  have hnodup : (f.params ++ f.returns).Nodup :=
    (abiEncodeSelector.scoped_definition codes.length).2.of_append_left
  have hparams : f.params = "dst" :: "sel" :: "shapes" :: numbered "a" codes.length :=
    rfl
  have hargs : f.params.length = (dst :: sel :: shapeWord codes :: vs).length := by
    simp [hparams, hvs, numbered]
  obtain ⟨hvars, hreturns⟩ := forall₂_vars_entry hnodup hargs
  obtain ⟨hdst, hvars⟩ := forall₂_cons.1 hvars
  obtain ⟨hsel, hvars⟩ := forall₂_cons.1 hvars
  obtain ⟨hshapes, hnames⟩ := forall₂_cons.1 hvars
  have hworld : σ.world = w := world_setAll _ _
  -- the selector is written as a whole word, of which four bytes stay
  set m₁ := w.memory.write dst.toNat (Word.toBytes (sel <<< 224))
  have hsame : ∀ a < dst.toNat, m₁ a = w.memory a := fun a ha => Memory.write_of_lt ha
  have hdata : dataOf m₁ codes vs = dataOf w.memory codes vs := dataOf_congr hbelow hsame
  have hplace : (dst + 4#256).toNat = dst.toNat + 4 := Word.toNat_add_ofNat (by omega)
  have hbelow' : Forall₂ (Datum.Below m₁ (dst + 4#256).toNat) codes vs :=
    hbelow.imp fun _ _ hv => (hv.congr hsame).mono (by omega)
  obtain ⟨m', hencode, hencoded, hfront⟩ := apply_abiEncode ctx (n := n)
    (h.needed (by simp [Routine.needs])) (w.withMemory m₁) hbelow' hcodes hcount
    (by rw [World.memory_withMemory, hdata]; omega) (by rw [World.memory_withMemory, hdata]; omega)
  rw [World.memory_withMemory, hdata] at hencode
  rw [World.memory_withMemory, hdata] at hencoded
  rw [hplace] at hencode hencoded hfront
  refine ⟨m', ?_, Memory.has_append.2 ⟨?_, ?_⟩⟩
  · have hend : (σ.vars "end").isSome :=
      Option.isSome_iff_exists.2 ⟨_, hreturns "end" mem_cons_self⟩
    rw [← Nat.add_assoc]
    refine h.returns (f := f) rfl hargs (.cons (exec_mstore (yields_ident.2 hdst)
      ((yields_ident.2 hsel).shl (show 224 ≤ 256 by decide))) ?_)
    rw [hworld]
    refine .cons (exec_assignOne_call hend (.cons ((yields_var hdst).add (yields_num (by decide)))
      (.cons (yields_var hshapes) (forall₂_yields_idents hnames))) hencode) ?_
    exact .nil ⟨results_eq (.cons (by simp) .nil), rfl⟩
  · have hword : m₁.Has dst.toNat (selectorBytes sel ++ (Word.toBytes (sel <<< 224)).drop 4) := by
      exact Memory.has_write _ _ _
    refine (Memory.has_append.1 hword).1.congr fun a _ ha => hfront a ?_
    simpa using ha
  · exact hencoded

/-! ## Calls -/

/-- The families of calls, with the instruction of each and its parameters between the address and
the selector. -/
inductive CallForm : RoutineFamily → String → List String → Prop
  | call : CallForm .call "call" ["value"]
  | staticCall : CallForm .staticCall "staticcall" []
  | delegateCall : CallForm .delegateCall "delegatecall" []

variable {opcode : String} {value : List String}

theorem CallForm.definition_eq (h : CallForm f opcode value) (arity : Nat) :
    f.definition arity = externalCallDef f opcode value arity := by
  cases h <;> rfl

theorem CallForm.needs (h : CallForm f opcode value) (arity : Nat) :
    Routine.family .abiEncodeSelector arity ∈ (Routine.family f arity).needs := by
  cases h <;> simp [Routine.needs]

/-- Control goes to another contract. The results are its answer and the bytes that it gave back, as
an object. -/
def handOver (m : Machine) (opcode : String) (args : List Word) (w : World) :
    Run (List Word × World) := do
  let (answer, w) ← m.applyOne opcode args w
  let (data, w) ← m.applyOne returndataToMemory.name [] w
  return ([answer, data], w)

def writingCode (arity : Nat) : List Stmt :=
  [.letOne "pos" (Op.mload Op.freePointer),
   .letOne "end" (call (abiEncodeSelector.name arity)
     (ident "pos" :: ("sel" :: "shapes" :: numbered "a" arity).map ident))]

def handedOver (value : List String) : List Expr :=
  call "gas" [] :: (("target" :: value).map ident ++
    [ident "pos", Op.sub (ident "end") (ident "pos"), num 0, num 0])

theorem body_externalCallDef (f : RoutineFamily) (opcode : String) (value : List String) (arity : Nat) :
    (externalCallDef f opcode value arity).body =
      writingCode arity ++ [.assignOne "success" (call opcode (handedOver value)),
        .assignOne "ret" (returndataToMemory.call [])] := rfl

/-- A call hands over the data of the call, which stand behind the memory in use. -/
theorem apply_externalCall (hform : CallForm f opcode value)
    (h : Includes functions target (.family f codes.length)) (w : World)
    (hamounts : value.length = amounts.length)
    (hbelow : Forall₂ (Datum.Below w.memory w.freeMemory.toNat) codes vs)
    (hcodes : ∀ code ∈ codes, code < 3) (hcount : codes.length ≤ 128)
    (hend : w.freeMemory.toNat + (callData sel (dataOf w.memory codes vs)).length < 2 ^ 256)
    (hlimit : (tails (dataOf w.memory codes vs)).length ≤ n) :
    ∃ m', (within ctx functions (n + 5)).apply (f.name codes.length)
        (callee :: amounts ++ sel :: shapeWord codes :: vs) w =
          handOver (within ctx functions (n + 4)) opcode
            (ctx.gas w.gasReads :: callee :: amounts ++
              [w.freeMemory, BitVec.ofNat 256 (callData sel (dataOf w.memory codes vs)).length,
                0#256, 0#256])
            { w with memory := m', gasReads := w.gasReads + 1 } ∧
      m'.Has w.freeMemory.toNat (callData sel (dataOf w.memory codes vs)) := by
  have hvs : vs.length = codes.length := hbelow.length_eq.symm
  set M := within ctx functions (n + 4)
  set routine := externalCallDef f opcode value codes.length
  set args := callee :: amounts ++ sel :: shapeWord codes :: vs
  set σ := entry routine args w
  set data := callData sel (dataOf w.memory codes vs)
  have hdef : f.definition codes.length = routine := hform.definition_eq _
  have hnodup : (routine.params ++ routine.returns).Nodup := by
    rw [← hdef]
    exact (f.scoped_definition codes.length).2.of_append_left
  have hparams : routine.params = ("target" :: value) ++
      ("sel" :: "shapes" :: numbered "a" codes.length) := by
    simp [routine, externalCallDef]
  have hargs : routine.params.length = args.length := by
    simp [hparams, args, hvs, hamounts, numbered]
  obtain ⟨hvars, hreturns⟩ := forall₂_vars_entry (w := w) hnodup hargs
  rw [hparams] at hvars
  have hlength : ("target" :: value).length = (callee :: amounts).length := by simp [hamounts]
  have hfront : Forall₂ (fun x v => σ.vars x = some v) ("target" :: value)
      (callee :: amounts) := by
    have htake := forall₂_take_append _ (callee :: amounts) _ hvars
    rwa [take_left' hlength] at htake
  have hback : Forall₂ (fun x v => σ.vars x = some v)
      ("sel" :: "shapes" :: numbered "a" codes.length)
      (sel :: shapeWord codes :: vs) := by
    have hdrop := forall₂_drop_append _ (callee :: amounts) _ hvars
    rwa [drop_left' hlength] at hdrop
  have hpos : "pos" ∉ "target" :: value := by cases hform <;> decide
  have hstop : "end" ∉ "target" :: value := by cases hform <;> decide
  have hworld : σ.world = w := world_setAll _ _
  -- the data are written
  set σ₁ := σ.set "pos" w.freeMemory
  have hback₁ : Forall₂ (fun x v => σ₁.vars x = some v)
      ("sel" :: "shapes" :: numbered "a" codes.length)
      (sel :: shapeWord codes :: vs) :=
    forall₂_vars_set hback (not_mem_cons_of_ne_of_not_mem (by decide)
      (not_mem_cons_of_ne_of_not_mem (by decide) (notMem_numbered (by decide))))
  obtain ⟨m', hencode, hdata⟩ := apply_abiEncodeSelector ctx
    (h.needed (hform.needs codes.length)) sel w hbelow hcodes hcount hend hlimit
  set stop := BitVec.ofNat 256 (w.freeMemory.toNat + data.length)
  set τ := (Config.mk σ₁.vars (w.withMemory m')).set "end" stop
  have hwriting : M.Runs (writingCode codes.length) σ τ := by
    have hplace : M.Yields σ (Op.mload Op.freePointer) w.freeMemory := hworld ▸ .freeMemory
    have hworld₁ : σ₁.world = w := hworld
    refine .cons (exec_letOne hplace) (.cons (exec_letOne_call (.cons (yields_ident.2 (by rfl))
      (forall₂_yields_idents hback₁)) ?_) .nil)
    rw [hworld₁]
    exact hencode
  -- what is handed over is evaluated, the gas last
  have hfront' : Forall₂ (fun x v => τ.vars x = some v) ("target" :: value)
      (callee :: amounts) :=
    forall₂_vars_set (forall₂_vars_set hfront hpos) hstop
  have hsize : stop - w.freeMemory = BitVec.ofNat 256 data.length := Word.ofNat_add_sub hend
  have hgiven : M.evalArgs (handedOver value) τ =
      .ok (ctx.gas w.gasReads :: callee :: amounts ++
        [w.freeMemory, BitVec.ofNat 256 data.length, 0#256, 0#256],
          ⟨τ.vars, { w with memory := m', gasReads := w.gasReads + 1 }⟩) := by
    have hpos : M.Yields τ (ident "pos") w.freeMemory := yields_ident.2 (by simp [τ, σ₁])
    have hstop : M.Yields τ (ident "end") stop := yields_ident.2 (by simp [τ])
    have hzero : M.Yields τ (num 0) 0#256 := yields_num (by decide)
    have hsizes : M.Yields τ (Op.sub (ident "end") (ident "pos")) (BitVec.ofNat 256 data.length) :=
      hsize ▸ hstop.sub hpos
    have hrest : Forall₂ (M.Yields τ) (("target" :: value).map ident ++
        [ident "pos", Op.sub (ident "end") (ident "pos"), num 0, num 0])
        (callee :: amounts ++ [w.freeMemory, BitVec.ofNat 256 data.length, 0#256, 0#256]) :=
      rel_append (forall₂_yields_idents hfront')
        (.cons hpos (.cons hsizes (.cons hzero (.cons hzero .nil))))
    rw [handedOver, evalArgs, evalArgs_eq hrest]
    have hgas : M.eval (call "gas" []) τ = .ok ([ctx.gas w.gasReads],
        ⟨τ.vars, { w with memory := m', gasReads := w.gasReads + 1 }⟩) :=
      eval_call .nil rfl
    rfl
  refine ⟨m', ?_, hdata⟩
  have happly : (within ctx functions (n + 5)).apply (f.name codes.length) args w = _ :=
    h.apply_eq (congrArg some hdef) hargs
  have hsuccess : (τ.vars "success").isSome := by
    have := hreturns "success" mem_cons_self
    simp [τ, σ₁, σ, this]
  have hret : τ.vars "ret" = some 0#256 := by
    simpa [τ, σ₁] using hreturns "ret" (mem_cons_of_mem _ mem_cons_self)
  rw [happly, body_externalCallDef, hwriting.execAll_append, execAll_cons, andThen,
    exec_assignOne_of_evalArgs hsuccess hgiven, handOver]
  simp only [bind, Except.bind, pure, Except.pure]
  cases M.applyOne opcode _ _ with
  | error stop => rfl
  | ok q =>
    obtain ⟨answer, w₁⟩ := q
    have hlast : M.execAll [.assignOne "ret" (returndataToMemory.call [])]
        ((Config.mk τ.vars w₁).set "success" answer) = _ :=
      (congrFun (M.execAll_singleton _) _).trans
        (exec_assignOne_of_evalArgs (by simp [hret]) rfl)
    simp only [hlast, bind, Except.bind, pure, Except.pure]
    cases M.applyOne returndataToMemory.name [] w₁ with
    | error stop => rfl
    | ok q => rfl

end

end ContractYul.Coding
