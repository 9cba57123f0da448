import ContractYul.Proofs.Compilation.Schemes
import ContractYul.Proofs.Yul.Running

/-!
# Runs of routines on memory

What routines do on a machine whose table of functions includes them: allocation moves the end of the
memory in use, and copying brings bytes to a place apart from them, with one instruction or word by
word, in a counted loop.
-/

namespace ContractYul

open Yul Machine FixedRoutine Memory

/-! ## Tables of functions -/

def Includes (functions : String → Option Function) (target : Target) (r : Routine) : Prop :=
  ∀ s ∈ r.closure, functions s.name = s.definition? target

def tableOf (target : Target) (rs : List Routine) (name : String) : Option Function :=
  (rs.find? (·.name == name)).bind (·.definition? target)

/-- A table of routines with all that they need includes each of them. -/
theorem includes_tableOf (hneeds : ∀ r ∈ rs, ∀ s ∈ r.needs, s ∈ rs) (hr : r ∈ rs) (target : Target) :
    Includes (tableOf target rs) target r := by
  intro s hs
  have hsome : (rs.find? (·.name == s.name)).isSome :=
    List.find?_isSome.2 ⟨s, Routine.of_mem_closure hneeds hr hs, beq_self_eq_true s.name⟩
  obtain ⟨t, ht⟩ := Option.isSome_iff_exists.1 hsome
  have hname : t.name = s.name := by simpa using List.find?_some ht
  obtain rfl := Routine.name_injective hname
  rw [tableOf, ht, Option.bind_some]

namespace Routine

theorem underscore_mem_name (r : Routine) : '_' ∈ r.name.toList := by
  cases r with
  | fixed r =>
    have hall : ∀ r ∈ all, '_' ∈ r.name.toList := by decide +kernel
    exact hall r (mem_allFixed r)
  | panic code =>
    rw [name, panicName, String.toList_append]
    exact List.mem_append_left _ (by decide)
  | family f arity =>
    rw [name, RoutineFamily.name, String.toList_append, String.toList_append]
    exact List.mem_append_left _ (List.mem_append_right _ (by decide))
  | loadStruct s =>
    show '_' ∈ ("storage_load_struct_" ++ s).toList
    rw [String.toList_append]
    exact List.mem_append_left _ (by simp)
  | storeStruct s =>
    show '_' ∈ ("storage_store_struct_" ++ s).toList
    rw [String.toList_append]
    exact List.mem_append_left _ (by simp)

theorem instruction?_name (ctx : Context) (r : Routine) : ctx.instruction? r.name = none := by
  have hplain : ∀ name ∈ instructionNames, '_' ∉ name.toList := by decide +kernel
  exact ctx.instruction?_eq_none fun hname => hplain r.name hname r.underscore_mem_name

end Routine

section

variable {w : World}

theorem Includes.needed (h : Includes functions target r) (hs : s ∈ r.needs) :
    Includes functions target s :=
  fun t ht => h t (Routine.mem_closure_iff.2 (.inr ⟨s, hs, ht⟩))

theorem Includes.apply_eq (h : Includes functions target r) (hf : r.definition? target = some f)
    (hargs : f.params.length = args.length) :
    (within ctx functions (n + 1)).apply r.name args w = (do
      let (_, σ) ← (within ctx functions n).execAll f.body (entry f args w)
      return (← results σ f.returns, σ.world)) :=
  apply_within_eq (r.instruction?_name ctx) ((h r r.self_mem_closure).trans hf) hargs

theorem Includes.returns (h : Includes functions target r) (hf : r.definition? target = some f)
    (hargs : f.params.length = args.length)
    (hrun : (within ctx functions n).Ends f.body (entry f args w) fun σ =>
      results σ f.returns = .ok rs ∧ σ.world = w') :
    (within ctx functions (n + 1)).apply r.name args w = .ok (rs, w') := by
  obtain ⟨σ, hrun, hresults, rfl⟩ := hrun
  exact apply_within (r.instruction?_name ctx) ((h r r.self_mem_closure).trans hf) hargs hrun
    hresults

/-! ## Allocation -/

def Yul.World.freeMemory (w : World) : Word :=
  w.memory.readWord 64#256

def Yul.Memory.withFree (m : Memory) (free : Word) : Memory :=
  m.write 64 free.toBytes

theorem apply_allocateMemory (ctx : Context)
    (h : Includes functions target (.fixed .allocateMemory)) (size : Word) (w : World) :
    (within ctx functions (n + 1)).apply allocateMemory.name [size] w =
      .ok ([w.freeMemory], w.withMemory
        (w.memory.withFree (w.freeMemory + ((size + 31#256) &&& ~~~31#256)))) := by
  refine h.returns rfl rfl ?_
  refine .cons (exec_assignOne (by rfl) .freeMemory) ?_
  refine .cons (exec_mstore (yields_num (by decide))
    ((yields_ident.2 (by rfl)).add (yields_ident.2 (by rfl)).roundUp)) ?_
  exact .nil ⟨rfl, rfl⟩

/-! ## Counted loops -/

namespace Yul

def Config.atRound (vars : String → Option Word) (counter : String) (w : World) (i : Nat) : Config :=
  (Config.mk vars w).set counter (BitVec.ofNat 256 i)

namespace Machine

variable {m : Machine} {counter : String}

theorem evalOne_lt_limit (hi : i < 2 ^ 256) (hlimit : limit < 2 ^ 256)
    (hcounter : m.Yields σ (ident counter) (BitVec.ofNat 256 i))
    (hbound : m.Yields σ bound (BitVec.ofNat 256 limit)) :
    m.evalOne (Op.lt (ident counter) bound) σ = .ok (.ofBool (i < limit), σ) := by
  rw [(hcounter.lt hbound).evalOne_eq, BitVec.ult, BitVec.toNat_ofNat, BitVec.toNat_ofNat,
    Nat.mod_eq_of_lt hlimit, Nat.mod_eq_of_lt hi]

theorem yields_atRound {x : String} (hfresh : vars counter = none) (w : World) (i : Nat)
    (hx : vars x = some v) : m.Yields (.atRound vars counter w i) (ident x) v := by
  refine yields_ident.2 ?_
  have hne : x ≠ counter := by
    rintro rfl
    rw [hfresh] at hx
    cases hx
  simpa [Config.atRound, hne] using hx

theorem yields_counter {w : World} :
    m.Yields (.atRound vars counter w i) (ident counter) (BitVec.ofNat 256 i) :=
  yields_ident.2 (if_pos rfl)

/-- A counted loop goes through the worlds that its rounds lead to. -/
theorem runs_countLoop {W : Nat → World} {i : Nat → Nat} (hfresh : vars counter = none)
    (hindex : i 0 = 0 ∧ ∀ k, i (k + 1) = i k + step) (hlimit : limit < 2 ^ 256)
    (hcount : ∀ k ≤ n, i k < 2 ^ 256 ∧ (i k < limit ↔ k < n))
    (hrounds : n < m.rounds) (hbound : ∀ k ≤ n,
      m.Yields (.atRound vars counter (W k) (i k)) bound (BitVec.ofNat 256 limit))
    (hround : ∀ k < n, m.exec s (.atRound vars counter (W k) (i k)) =
      .ok (.next, .atRound vars counter (W (k + 1)) (i k))) :
    m.Runs [Op.countLoop counter bound step [s]] ⟨vars, W 0⟩ ⟨vars, W n⟩ := by
  have hcondition : ∀ k ≤ n, m.evalOne (Op.lt (ident counter) bound)
      (.atRound vars counter (W k) (i k)) =
        .ok (.ofBool (k < n), .atRound vars counter (W k) (i k)) := fun k hk => by
    rw [evalOne_lt_limit (hcount k hk).1 hlimit yields_counter (hbound k hk),
      decide_eq_decide.2 (hcount k hk).2]
  have hstep : ∀ k < n, ∀ σ, σ = Config.atRound vars counter (W k) (i k) → ∃ v σ₁ σ₂ σ₃,
      m.evalOne (Op.lt (ident counter) bound) σ = .ok (v, σ₁) ∧ v ≠ 0#256 ∧
      inBlock (m.execAll [s]) σ₁ = .ok (.next, σ₂) ∧
      inBlock (m.execAll [.assignOne counter (Op.add (ident counter) (num step))]) σ₂ =
        .ok (.next, σ₃) ∧ σ₃ = .atRound vars counter (W (k + 1)) (i (k + 1)) := by
    rintro k hk _ rfl
    have hkept : (Config.atRound vars counter (W (k + 1)) (i k)).leave
        (.atRound vars counter (W k) (i k)) = .atRound vars counter (W (k + 1)) (i k) :=
      Config.leave_world _ _
    have hbody := (Runs.cons (hround k hk) .nil).inBlock
    rw [hkept] at hbody
    have hnext := (hcount (k + 1) hk).1
    rw [hindex.2] at hnext
    have hpost := (Runs.cons (m := m) (σ := .atRound vars counter (W (k + 1)) (i k))
      (exec_assignOne (x := counter) (if_pos rfl)
        (yields_counter.add (yields_num (n := step) (by omega)))) .nil).inBlock
    rw [Config.leave_of_vars fun y hy => Config.vars_set_none (by simp [Config.atRound])
      (fun _ hx => hx) hy] at hpost
    refine ⟨_, _, _, _, hcondition k hk.le, ?_, hbody, hpost, ?_⟩
    · rw [decide_eq_true hk]
      decide
    · rw [Config.atRound, Config.set_set, hindex.2, Config.atRound, BitVec.ofNat_add]
  have hstop : ∀ σ, σ = Config.atRound vars counter (W n) (i n) → ∃ σ',
      m.evalOne (Op.lt (ident counter) bound) σ = .ok (0#256, σ') ∧
        σ' = .atRound vars counter (W n) (i n) := by
    rintro _ rfl
    have hlast := hcondition n le_rfl
    rw [decide_eq_false (Nat.lt_irrefl n)] at hlast
    exact ⟨_, hlast, rfl⟩
  have hinit : m.execAll [.letOne counter (num 0)] ⟨vars, W 0⟩ =
      .ok (.next, .atRound vars counter (W 0) (i 0)) := by
    rw [execAll_singleton, hindex.1]
    exact exec_letOne (yields_num (by decide))
  obtain ⟨_, hrounds, rfl⟩ := iterate_of_invariant hstep hstop (Nat.zero_le n) hrounds rfl
  have hleave : (Config.atRound vars counter (W n) (i n)).leave ⟨vars, W 0⟩ =
      ⟨vars, W n⟩ := by
    rw [Config.mk.injEq]
    refine ⟨funext fun y => ?_, rfl⟩
    by_cases hy : y = counter
    · simp [hy, hfresh]
    · cases hvar : vars y <;> simp [Config.atRound, hy, hvar]
  rw [Runs, execAll_singleton, Op.countLoop, exec, inBlock, andThen, hinit, ← hleave]
  exact congrArg (· >>= fun q => .ok (q.1, q.2.leave ⟨vars, W 0⟩)) hrounds

end Machine

end Yul

/-! ## Copies -/

/-- Memory in which the first `count` bytes of a part of `m` were copied to a place, and nothing but
the words that were begun there was changed. -/
structure Copied (m : Memory) (source place count : Nat) (m' : Memory) : Prop where
  front : ∀ a < place, m' a = m a
  back : ∀ a, place + roundUp count ≤ a → m' a = m a
  bytes : ∀ i < count, m' (place + i) = m (source + i)

theorem Copied.has {source place count : Nat} (h : Copied m source place count m') :
    m'.Has place (m.read source count) := by
  refine Memory.has_iff.2 fun i hi => ?_
  rw [h.bytes i (by simpa using hi)]
  simp [Memory.read]

/-- One more word is copied. The bytes of the part are still as they were, as only words in front of
this one were written; what is read beyond the end of the part does not count. -/
theorem Copied.next {source place length k : Nat}
    (h : Copied m source place (min length (32 * k)) m') (hk : 32 * k < length)
    (hapart : source + length ≤ place ∨ place + length ≤ source) :
    Copied m source place (min length (32 * (k + 1)))
      (m'.write (place + 32 * k) (m'.read (source + 32 * k) 32)) := by
  have hdone : roundUp (min length (32 * k)) = 32 * k := by
    unfold roundUp
    omega
  have hnext : roundUp (min length (32 * (k + 1))) = 32 * (k + 1) := by
    unfold roundUp
    omega
  have hback := h.back
  refine ⟨fun a ha => ?_, fun a ha => ?_, fun i hi => ?_⟩
  · rw [write_of_lt (by omega), h.front a ha]
  · rw [write_of_ge (by rw [length_read]; omega), hback a (by omega)]
  · by_cases hold : i < 32 * k
    · rw [write_of_lt (by omega), h.bytes i (by omega)]
    · obtain ⟨j, rfl⟩ := Nat.exists_eq_add_of_le (Nat.le_of_not_lt hold)
      rw [← Nat.add_assoc, write_read _ _ _ (by omega), ← Nat.add_assoc]
      rcases hapart with hbehind | hbefore
      · exact h.front _ (by omega)
      · exact hback _ (by omega)

/-- Memory after some words of a part were copied to a place, one after the other. -/
def Yul.Memory.copyWords (m : Memory) (src dst : Word) : Nat → Memory
  | 0 => m
  | k + 1 => (m.copyWords src dst k).write (dst + BitVec.ofNat 256 (32 * k)).toNat
      ((m.copyWords src dst k).readWord (src + BitVec.ofNat 256 (32 * k))).toBytes

theorem copied_copyWords {src dst length : Word}
    (hapart : src.toNat + length.toNat ≤ dst.toNat ∨ dst.toNat + length.toNat ≤ src.toNat)
    (hsource : src.toNat + length.toNat ≤ 2 ^ 256) (hend : dst.toNat + length.toNat ≤ 2 ^ 256)
    (hk : 32 * k < length.toNat + 32) :
    Copied m src.toNat dst.toNat (min length.toNat (32 * k)) (m.copyWords src dst k) := by
  induction k with
  | zero => exact ⟨fun _ _ => rfl, fun _ _ => rfl, by simp⟩
  | succ k ih =>
    have hplace : (dst + BitVec.ofNat 256 (32 * k)).toNat = dst.toNat + 32 * k :=
      Word.toNat_add_ofNat (by omega)
    have hread : (src + BitVec.ofNat 256 (32 * k)).toNat = src.toNat + 32 * k :=
      Word.toNat_add_ofNat (by omega)
    rw [copyWords, toBytes_readWord, hplace, hread]
    exact (ih (by omega)).next (by omega) hapart

/-- Bytes are copied to a place apart from them. -/
theorem apply_copyMemory (h : Includes functions target (.fixed .copyMemory)) {src dst length : Word}
    (w : World)
    (hapart : src.toNat + length.toNat ≤ dst.toNat ∨ dst.toNat + length.toNat ≤ src.toNat)
    (hsource : src.toNat + length.toNat ≤ 2 ^ 256) (hend : dst.toNat + length.toNat ≤ 2 ^ 256)
    (hlimit : length.toNat < n) :
    ∃ m, (within ctx functions (n + 1)).apply copyMemory.name
        [src, dst, length] w = .ok ([], w.withMemory m) ∧
      Copied w.memory src.toNat dst.toNat length.toNat m := by
  cases target with
  | cancun =>
    refine ⟨_, h.returns rfl rfl (.cons (exec_run (.cons (yields_ident.2 (by rfl))
      (.cons (yields_ident.2 (by rfl)) (.cons (yields_ident.2 (by rfl)) .nil))) rfl) (.nil ⟨rfl, rfl⟩)),
      fun a ha => write_of_lt ha, fun a ha => ?_, fun i hi => write_read _ _ _ hi⟩
    have hle := le_roundUp length.toNat
    exact write_of_ge (by rw [length_read]; omega)
  | shanghai =>
    set count := (length.toNat + 31) / 32
    have hcopied := copied_copyWords (m := w.memory) (k := count) hapart hsource hend (by omega)
    rw [min_eq_left (by omega)] at hcopied
    have hsize : BitVec.ofNat 256 length.toNat = length := by simp
    refine ⟨_, h.returns rfl rfl (.append (runs_countLoop
      (W := fun k => w.withMemory (w.memory.copyWords src dst k)) (i := (32 * ·)) (n := count)
      (by rfl) ⟨rfl, fun _ => rfl⟩ length.isLt (fun k hk => ?_)
      (by rw [rounds_within]; omega) (fun k _ => yields_ident.2 (by rw [hsize]; rfl))
      fun k _ => ?_) (.nil ⟨rfl, rfl⟩)), hcopied⟩
    · omega
    · exact exec_mstore (.add (yields_ident.2 (by rfl)) yields_counter)
        (.mload (.add (yields_ident.2 (by rfl)) yields_counter))

end

end ContractYul
