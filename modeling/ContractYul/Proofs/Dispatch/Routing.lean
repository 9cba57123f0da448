import ContractYul.Proofs.Dispatch.Entries

/-!
# Where a call leads

A call is led to one entry of a contract by its data: to the function whose selector the data start
with, else to the receive entry when there are no data, else to the fallback entry, else nowhere.

The switch compares numbers, while a selector is four bytes of a hash. The two agree because four
bytes stand for one number each, and because data that are too short never come to the switch.

Main statement: `entry_code_routes`.
-/

open List

namespace ContractYul

namespace Yul

/-! ## Code behind code that ends -/

theorem inBlock_of_ended {r : Run Empty} (h : body σ = r.ended) : inBlock body σ = r.ended := by
  cases r with
  | error stop =>
    rw [inBlock, h]
    rfl
  | ok a => cases a

theorem andThen_of_ended {r : Run Empty} (h : first σ = r.ended) :
    andThen first second σ = r.ended := by
  cases r with
  | error stop =>
    rw [andThen, h]
    rfl
  | ok a => cases a

theorem inBlock_of_next {body : Effect} (h : body σ = .ok (.next, σ)) :
    inBlock body σ = .ok (.next, σ) := by
  rw [inBlock, h]
  exact congrArg (fun τ => Except.ok (Flow.next, τ)) (σ.leave_world σ.world)

theorem andThen_of_next (h : first σ = .ok (.next, σ)) : andThen first second σ = second σ := by
  rw [andThen, h]
  rfl

theorem firstBytes_eq {data : List UInt8} (h : 4 ≤ data.length) :
    Word.ofBytes (slice data 0 32) >>> 224 = BitVec.ofNat 256 (bigEndian (data.take 4)) := by
  have hsplit : slice data 0 32 = data.take 4 ++ slice data 4 28 := by
    have hfirst : slice data 0 4 = data.take 4 := by
      have hpart := (hasPart_append_left (data.take 4) (data.drop 4)).slice_eq
      rwa [take_append_drop, length_take, min_eq_left h] at hpart
    rw [← hfirst]
    simp [slice, range_succ]
  have hlength : (data.take 4).length = 4 := by simpa using h
  have hhigh : bigEndian (data.take 4) < 2 ^ 32 := by
    have hlt := bigEndian_lt (data.take 4)
    rw [hlength] at hlt
    exact hlt
  have hlow : bigEndian (slice data 4 28) < 2 ^ 224 := by
    have hlt := bigEndian_lt (slice data 4 28)
    rw [slice, length_map] at hlt
    exact hlt.trans_eq (by norm_num)
  apply BitVec.eq_of_toNat_eq
  rw [BitVec.toNat_ushiftRight, Word.toNat_ofBytes (by simp [slice]), hsplit, bigEndian_append,
    BitVec.toNat_ofNat, slice,
    length_map, length_range, ← slice]
  omega

end Yul

namespace Dispatch

open Yul Machine

/-! ## Selectors -/

theorem length_selector (signature : String) : ((Abi.topic signature).take 4).length = 4 := by
  rfl

theorem selector_lt (f : Abi.Function) : f.selector < 2 ^ 32 := by
  have hlt := bigEndian_lt ((Abi.topic f.signature).take 4)
  rw [length_selector] at hlt
  exact hlt

def Selects (data : List UInt8) (f : Abi.Function) : Prop :=
  4 ≤ data.length ∧ data.take 4 = (Abi.topic f.signature).take 4

theorem selects_iff (h : 4 ≤ data.length) :
    Selects data f ↔ bigEndian (data.take 4) = f.selector := by
  have hlength : (data.take 4).length = 4 := by simpa using h
  constructor
  · rintro ⟨-, hsame⟩
    rw [hsame]
    rfl
  · intro hsame
    exact ⟨h, bigEndian_injective (hlength.trans (length_selector _).symm) hsame⟩

section

variable (m : Machine)

/-! ## The switch -/

theorem literal_selectorText (hn : n < 2 ^ 32) :
    m.context.literal (.number (Abi.selectorText n)) = .ok (BitVec.ofNat 256 n) :=
  yields_literal.1
    (yields_numText (numberOf?_hexPadded 8 n) (by omega) : m.Yields ⟨fun _ => none, default⟩ _ _)

theorem execCases_cons (hn : n < 2 ^ 32) (hk : k < 2 ^ 32) (otherwise : Effect) (body : List Stmt)
    (cases : List (Literal × List Stmt)) (σ : Config) :
    m.execCases (BitVec.ofNat 256 n) otherwise ((.number (Abi.selectorText k), body) :: cases) σ =
      if n = k then inBlock (m.execAll body) σ
      else m.execCases (BitVec.ofNat 256 n) otherwise cases σ := by
  have hword : BitVec.ofNat 256 n = BitVec.ofNat 256 k ↔ n = k := by
    constructor
    · intro h
      have hvalue := congrArg BitVec.toNat h
      rwa [BitVec.toNat_ofNat, BitVec.toNat_ofNat, Nat.mod_eq_of_lt (by omega),
        Nat.mod_eq_of_lt (by omega)] at hvalue
    · rintro rfl
      rfl
  rw [execCases, literal_selectorText m hk]
  exact if_congr hword rfl rfl

theorem execCases_of_mem {cases : List (Literal × List Stmt)} (hcases : CasesCode fs k cases k')
    (hnodup : (fs.map (·.selector)).Nodup) (hf : f ∈ fs) (otherwise : Effect) (σ : Config) :
    ∃ forms, formsOf f.params = .ok forms ∧
      m.execCases (BitVec.ofNat 256 f.selector) otherwise cases σ =
        (enterFunction m f forms σ.world).ended := by
  induction hcases with
  | nil => cases hf
  | @cons g fs _ _ _ _ _ hcode _ ih =>
    obtain ⟨hfresh, hnodup⟩ := nodup_cons.1 hnodup
    rw [execCases_cons m (selector_lt f) (selector_lt g)]
    rcases mem_cons.1 hf with rfl | hf
    · obtain ⟨forms, hforms, henter⟩ := execAll_caseCode m σ hcode
      refine ⟨forms, hforms, ?_⟩
      rw [if_pos rfl]
      exact inBlock_of_ended henter
    · have hne : f.selector ≠ g.selector := fun heq =>
        hfresh (mem_map.2 ⟨f, hf, heq⟩)
      rw [if_neg hne]
      exact ih hnodup hf

theorem execCases_of_forall_ne {cases : List (Literal × List Stmt)}
    (hcases : CasesCode fs k cases k') (hn : n < 2 ^ 32) (hne : ∀ f ∈ fs, n ≠ f.selector)
    (otherwise : Effect) (σ : Config) :
    m.execCases (BitVec.ofNat 256 n) otherwise cases σ = otherwise σ := by
  induction hcases with
  | nil => rw [execCases]
  | @cons g fs _ _ _ _ _ _ _ ih =>
    rw [execCases_cons m hn (selector_lt g), if_neg (hne g mem_cons_self)]
    exact ih fun f hf => hne f (mem_cons_of_mem _ hf)

theorem exec_switch {m : Machine} {σ : Config} {e : Expr} {v : Word}
    {cases : List (Literal × List Stmt)} (he : m.Yields σ e v) :
    m.exec (.switch e cases none) σ = m.execCases v (fun σ => .ok (.next, σ)) cases σ := by
  unfold Yields at he
  simp [exec, evalOne, he, single]

/-! ## The guard of the switch -/

theorem yields_dataSize (σ : Config) : m.Yields σ (call "calldatasize" [])
    (BitVec.ofNat 256 m.context.callData.length) :=
  eval_call .nil rfl

variable {m} {cases : List (Literal × List Stmt)}

theorem execAll_selection_of_short (h : m.context.callData.length < 4) :
    m.execAll (selection cases) σ = .ok (.next, σ) := by
  unfold selection
  split
  · exact Runs.nil
  · have hshort : (BitVec.ofNat 256 m.context.callData.length).ult 4#256 = true := by
      rw [BitVec.ult, decide_eq_true_eq, BitVec.toNat_ofNat, Nat.mod_eq_of_lt (by omega)]
      exact h
    have hguard := ((yields_dataSize m σ).lt (yields_num (n := 4) (by decide))).isZero
    rw [hshort] at hguard
    rw [execAll_singleton]
    exact exec_ifThen_of_zero hguard

theorem execAll_selection_of_long (h : 4 ≤ m.context.callData.length)
    (hdata : m.context.callData.length < 2 ^ 256) :
    m.execAll (selection cases) σ =
      inBlock (m.execCases (BitVec.ofNat 256 (bigEndian (m.context.callData.take 4)))
        (fun σ => .ok (.next, σ)) cases) σ := by
  unfold selection
  split
  · rename_i hempty
    obtain rfl := isEmpty_iff.1 hempty
    refine Runs.nil.trans (inBlock_of_next ?_).symm
    rw [execCases]
  · have hlong : (BitVec.ofNat 256 m.context.callData.length).ult 4#256 = false := by
      rw [BitVec.ult, decide_eq_false_iff_not, BitVec.toNat_ofNat, Nat.mod_eq_of_lt hdata]
      exact not_lt.2 h
    have hguard := ((yields_dataSize m σ).lt (yields_num (n := 4) (by decide))).isZero
    have hzero : m.Yields σ (num 0) 0#256 := yields_num (by decide)
    have hfirst := hzero.callDataLoad.shr (show 224 < 2 ^ 256 by decide)
    rw [hlong] at hguard
    rw [show (0#256).toNat = 0 from rfl, firstBytes_eq h] at hfirst
    rw [execAll_singleton, exec_ifThen_of_ne hguard (by decide),
      execAll_singleton, inBlock, exec_switch hfirst, inBlock]

/-! ## Entries outside the switch -/

theorem execAll_reception_of_empty (h : m.context.callData = []) :
    m.execAll (reception (some r)) σ = (enterSpecial m r σ.world).ended := by
  have hguard := (yields_dataSize m σ).isZero
  rw [h] at hguard
  rw [reception, execAll_singleton, exec_ifThen_of_ne hguard (by decide)]
  refine inBlock_of_ended ?_
  have hcode := execAll_special m r σ []
  rwa [append_nil] at hcode

theorem execAll_reception_of_data (h : m.context.callData ≠ [])
    (hdata : m.context.callData.length < 2 ^ 256) :
    m.execAll (reception (some r)) σ = .ok (.next, σ) := by
  have hsize : BitVec.ofNat 256 m.context.callData.length ≠ 0#256 := by
    intro hzero
    have hvalue := congrArg BitVec.toNat hzero
    rw [BitVec.toNat_ofNat, Nat.mod_eq_of_lt hdata] at hvalue
    exact h (length_eq_zero_iff.1 hvalue)
  have hguard := (yields_dataSize m σ).isZero
  rw [beq_false_of_ne hsize] at hguard
  rw [reception, execAll_singleton]
  exact exec_ifThen_of_zero hguard

def enterRemainder (m : Machine) : Option Special → World → Run Empty
  | some s, w => enterSpecial m s w
  | none, w => .error (.halted (.revert []) w)

theorem execAll_remainder (fallback : Option Special) :
    m.execAll (remainder fallback) σ = (enterRemainder m fallback σ.world).ended := by
  cases fallback with
  | some s =>
    have hcode := execAll_special m s σ []
    rwa [append_nil] at hcode
  | none =>
    rfl

end

/-! ## The whole entry code -/

section

theorem execAll_of_selects (h : entryCode target g functions receive fallback = .ok (code, g'))
    (m : Machine) (hdata : m.context.callData.length < 2 ^ 256) (σ : Config) (hf : f ∈ functions)
    (hselects : Selects m.context.callData f) :
    ∃ forms, formsOf f.params = .ok forms ∧
      m.execAll code σ = (enterFunction m f forms σ.world).ended := by
  obtain ⟨sorted, cases, k, hperm, hnodup, hcases, rfl⟩ := entryCode_eq h
  have hsorted : (sorted.map (·.selector)).Nodup := (hperm.map _).nodup_iff.2 hnodup
  have hlong := hselects.1
  rw [selects_iff hlong] at hselects
  obtain ⟨forms, hforms, henter⟩ := execCases_of_mem m hcases hsorted (hperm.mem_iff.2 hf)
    (fun σ => .ok (.next, σ)) σ
  refine ⟨forms, hforms, ?_⟩
  rw [routing, append_assoc, execAll_append]
  refine andThen_of_ended ?_
  rw [execAll_selection_of_long hlong hdata, hselects]
  exact inBlock_of_ended henter

end

/-- Entry code leads every call to one entry, and nothing runs after that. -/
theorem entry_code_routes {target : Target} {g g' : Registry} {functions : List Abi.Function}
    {receive fallback : Option Special} {code : List Stmt}
    (h : entryCode target g functions receive fallback = .ok (code, g')) (m : Machine)
    (hdata : m.context.callData.length < 2 ^ 256) (σ : Config) :
    (∀ f ∈ functions, Selects m.context.callData f →
      ∃ forms, formsOf f.params = .ok forms ∧
        m.execAll code σ = (enterFunction m f forms σ.world).ended) ∧
    ((∀ f ∈ functions, ¬ Selects m.context.callData f) →
      (∀ r, receive = some r → m.context.callData = [] →
        m.execAll code σ = (enterSpecial m r σ.world).ended) ∧
      (receive = none ∨ m.context.callData ≠ [] →
        m.execAll code σ = (enterRemainder m fallback σ.world).ended)) := by
  constructor
  · exact fun f hf hselects => execAll_of_selects h m hdata σ hf hselects
  · intro hnone
    obtain ⟨sorted, cases, k, hperm, -, hcases, rfl⟩ := entryCode_eq h
    have hpass : m.execAll (selection cases) σ = .ok (.next, σ) := by
      rcases lt_or_ge m.context.callData.length 4 with hshort | hlong
      · exact execAll_selection_of_short hshort
      · have hbytes := bigEndian_lt (m.context.callData.take 4)
        rw [List.length_take, min_eq_left hlong] at hbytes
        have hne : ∀ f ∈ sorted, bigEndian (m.context.callData.take 4) ≠ f.selector := fun f hf heq =>
          hnone f (hperm.mem_iff.1 hf) ((selects_iff hlong).2 heq)
        rw [execAll_selection_of_long hlong hdata]
        exact inBlock_of_next (execCases_of_forall_ne m hcases hbytes hne _ σ)
    have hroute : m.execAll (routing cases receive fallback) σ =
        andThen (m.execAll (reception receive)) (m.execAll (remainder fallback)) σ := by
      rw [routing, List.append_assoc, execAll_append, andThen_of_next hpass, execAll_append]
    rw [hroute]
    constructor
    · rintro r rfl hempty
      exact andThen_of_ended (execAll_reception_of_empty hempty)
    · intro hother
      have hskip : m.execAll (reception receive) σ = .ok (.next, σ) := by
        cases receive with
        | none => exact Machine.Runs.nil
        | some r => exact execAll_reception_of_data (hother.resolve_left nofun) hdata
      rw [andThen_of_next hskip, execAll_remainder]

def bell : Abi.Function :=
  ⟨"ring", "fun_ring", "ring()", [], [], .nonPayable⟩

def ringing (value : Word) : Machine :=
  ⟨{ (default : Context) with callData := (Abi.topic "ring()").take 4, callValue := value },
    fun _ _ w => .ok ([], w), 0⟩

theorem entry_code_routes_bell : ∃ code g',
    entryCode .shanghai .empty [bell] (some ⟨"fun_receive", true⟩) none = .ok (code, g') ∧
      ∀ σ : Config,
        (ringing 0#256).execAll code σ = .error (.halted (.return []) σ.world) ∧
        (ringing 1#256).execAll code σ = .error (.halted (.revert []) σ.world) := by
  obtain ⟨⟨code, g'⟩, hcode, -⟩ := Outcome.exists_of_map_toOption
    (show (entryCode .shanghai .empty [bell] (some ⟨"fun_receive", true⟩) none).toOption.map
      (fun _ => ()) = some () by decide +kernel)
  have hdata : ((Abi.topic "ring()").take 4).length = 4 := length_selector _
  have hselects : Selects ((Abi.topic "ring()").take 4) bell := ⟨hdata.ge, List.take_take⟩
  have henter : ∀ (value : Word) (σ : Config), ∃ forms, formsOf bell.params = .ok forms ∧
      (ringing value).execAll code σ = (enterFunction (ringing value) bell forms σ.world).ended :=
    fun value σ => (entry_code_routes hcode (ringing value) (by
      show ((Abi.topic "ring()").take 4).length < _
      omega) σ).1 bell List.mem_cons_self hselects
  refine ⟨code, g', hcode, fun σ => ⟨?_, ?_⟩⟩
  · obtain ⟨forms, hforms, h⟩ := henter 0#256 σ
    obtain rfl := Except.ok.inj hforms
    rw [h]
    rfl
  · obtain ⟨forms, hforms, h⟩ := henter 1#256 σ
    rw [h]
    rfl

/-- A receive entry that takes no value reverts when some is sent. -/
theorem receive_refuses_value : ∃ code g',
    entryCode .shanghai .empty [] (some ⟨"fun_receive", false⟩) none = .ok (code, g') ∧
      ∀ (m : Machine) (σ : Config), m.context.callData = [] → m.context.callValue = 1#256 →
        m.execAll code σ = .error (.halted (.revert []) σ.world) := by
  obtain ⟨⟨code, g'⟩, hcode, -⟩ := Outcome.exists_of_map_toOption
    (show (entryCode .shanghai .empty [] (some ⟨"fun_receive", false⟩) none).toOption.map
      (fun _ => ()) = some () by decide +kernel)
  obtain ⟨sorted, cases, k, hperm, -, hcases, rfl⟩ := entryCode_eq hcode
  obtain rfl := List.perm_nil.1 hperm
  cases hcases
  refine ⟨_, g', hcode, fun m σ hempty hvalue => ?_⟩
  have hrefused : enterSpecial m ⟨"fun_receive", false⟩ σ.world =
      .error (.halted (.revert []) σ.world) := by
    rw [enterSpecial, refuseValue, if_neg (by simp [hvalue])]
    rfl
  have hroute : routing [] (some ⟨"fun_receive", false⟩) none =
      reception (some ⟨"fun_receive", false⟩) ++ remainder none := rfl
  rw [hroute, execAll_append, andThen_of_ended (execAll_reception_of_empty hempty), hrefused]
  rfl

end Dispatch

end ContractYul
