import ContractYul.Proofs.Coding.Layout
import ContractYul.Proofs.Dispatch.Entries
import ContractYul.Proofs.Routine.Running

/-!
# Runs of encoding routines

The routines that encode write the standard encoding of what their arguments stand for, behind
everything that the arguments stand for.
-/

open List hiding set_set

namespace ContractYul.Coding

open Yul Machine FixedRoutine RoutineFamily Memory Datum Config

/-! ## Memory with encoded values -/

/-- Memory in which values were written, with the front part at `head` and the back part at `tail`.
Nothing else in front of the back part was changed. -/
structure Written (m : Memory) (head offset tail : Nat) (ds : List Datum) (m' : Memory) : Prop where
  heads : m'.Has head (heads offset ds)
  tails : m'.Has tail (tails ds)
  front : ∀ a < tail, a < head ∨ head + 32 * ds.length ≤ a → m' a = m a

section

variable {head tail : Nat}

theorem Written.nil (m : Memory) (head offset tail : Nat) : Written m head offset tail [] m :=
  ⟨has_nil _ _, has_nil _ _, fun _ _ _ => rfl⟩

theorem Written.cons (h : Written m head offset tail [d] m₁)
    (hrest : Written m₁ (head + 32) (offset + d.tail.length) (tail + d.tail.length) ds m₂)
    (hroom : head + 32 * (ds.length + 1) ≤ tail) : Written m head offset tail (d :: ds) m₂ where
  heads := by
    have hfirst : m₁.Has head (d.head offset).toBytes := heads_singleton offset d ▸ h.heads
    refine has_append.2 ⟨hfirst.congr fun a hle hlt => hrest.front a ?_ ?_, ?_⟩
    · rw [Word.length_toBytes] at hlt
      omega
    · exact .inl hlt
    · exact hrest.heads
  tails := by
    have hfirst : m₁.Has tail d.tail := tails_singleton d ▸ h.tails
    refine has_append.2 ⟨hfirst.congr fun a hle hlt => hrest.front a hlt ?_, hrest.tails⟩
    exact .inr (by omega)
  front a ha hfree := by
    rw [length_cons] at hfree
    rw [hrest.front a (by omega) (by omega), h.front a ha (by simp; omega)]

theorem written_word :
    Written m head offset tail [.word v] (m.write head v.toBytes) where
  heads := by
    exact has_write _ _ _
  tails := has_nil _ _
  front a _ hfree := by
    rcases hfree with hlt | hge
    · exact write_of_lt hlt
    · exact write_of_ge (by simpa using hge)

/-- An object is written: its place in the front part, its length, its content, and zeros that cover
what copying leaves behind the content. -/
theorem written_object {length : Word} (hsource : source + size ≤ head) (hhead : head + 32 ≤ tail)
    (hcopied : Copied ((m.write head (Word.toBytes (BitVec.ofNat 256 offset))).write tail length.toBytes)
      source (tail + 32) size m₃) :
    Written m head offset tail [.object length (m.read source size)]
      (m₃.write (tail + 32 + size) (Word.toBytes 0#256)) := by
  have hsame : ∀ a < tail + 32, m₃.write (tail + 32 + size) (Word.toBytes 0#256) a =
      (m.write head (Word.toBytes (BitVec.ofNat 256 offset))).write tail length.toBytes a := fun a ha => by
    rw [Memory.write_of_lt (by omega), hcopied.front a ha]
  refine ⟨?_, ?_, fun a ha hfree => ?_⟩
  · rw [heads_singleton]
    refine (Memory.has_write m head _).congr fun a _ ha => ?_
    rw [Word.length_toBytes] at ha
    rw [hsame a (by omega), Memory.write_of_lt (by omega)]
    rfl
  · rw [tails_singleton]
    refine Memory.has_append.2 ⟨?_, Memory.has_append.2 ⟨?_, ?_⟩⟩
    · have hlength := Memory.has_write (m.write head (Word.toBytes (BitVec.ofNat 256 offset))) tail
        length.toBytes
      refine hlength.congr fun a _ ha => ?_
      exact hsame a ha
    · -- the content was copied from where nothing had been written
      have hcontent : m₃.Has (tail + 32) (m.read source size) := by
        refine Memory.has_iff.2 fun i hi => ?_
        have hi : i < size := by simpa using hi
        rw [hcopied.bytes i hi, Memory.write_of_lt (by omega), Memory.write_of_lt (by omega)]
        simp [Memory.read]
      refine hcontent.congr fun a _ ha => Memory.write_of_lt ?_
      simpa using ha
    · rw [Memory.length_read]
      have hzeros : (m₃.write (tail + 32 + size) (Word.toBytes 0#256)).Has (tail + 32 + size)
          (replicate (roundUp size - size) 0 ++
            replicate (32 - (roundUp size - size)) 0) := by
        have hle := roundUp_le size
        rw [replicate_append_replicate, Nat.add_sub_cancel' (by omega)]
        exact Memory.has_write _ _ _
      exact (Memory.has_append.1 hzeros).1
  · rw [hsame a (by omega), Memory.write_of_lt ha]
    rcases hfree with hlt | hge
    · exact Memory.write_of_lt hlt
    · exact Memory.write_of_ge (by simpa using hge)

end

/-! ## Single values -/

section

variable {ctx : Context} {functions : String → Option Function} {target : Target} {n : Nat}
  {m : Machine} {σ : Config} {code : Nat}

variable {value : Word}

/-- The size of an object is its length, times 32 for an object of words. -/
theorem runs_size (hcode : code < 4) (hne : code ≠ 0) (hvalue : σ.vars "value" = some value)
    (hshape : σ.vars "shape" = some (BitVec.ofNat 256 code)) :
    m.Runs [.letOne "length" (Op.mload (ident "value")), .letOne "size" (ident "length"),
        .ifThen (Op.eq (ident "shape") (num 2))
          [.assignOne "size" (Op.mul (ident "length") (num 32))]] σ
      ((σ.set "length" (σ.world.memory.readWord value)).set "size"
        (σ.world.memory.readWord value * BitVec.ofNat 256 (unit code))) := by
  set length := σ.world.memory.readWord value
  set τ := (σ.set "length" length).set "size" length
  have hcondition : m.Yields τ (Op.eq (ident "shape") (num 2))
      (.ofBool (BitVec.ofNat 256 code == 2#256)) :=
    (yields_ident.2 (by simpa [τ] using hshape)).eq (yields_num (by decide))
  refine .cons (exec_letOne (yields_ident.2 hvalue).mload)
    (.cons (exec_letOne (yields_ident.2 (by rfl))) (.cons ?_ .nil))
  by_cases hwords : code = 2
  · subst hwords
    have hlength : m.Yields τ (ident "length") length := yields_ident.2 (by simp [τ])
    rw [exec_ifThen_of_ne hcondition (by decide), (Runs.cons (exec_assignOne (v := length)
      (by simp [τ]) (hlength.mul (yields_num (by decide)))) .nil).inBlock,
      leave_of_vars fun y hy => vars_set_none (by simp [τ]) (fun _ hx => hx) hy,
      set_set]
    rfl
  · have hone : length * BitVec.ofNat 256 (unit code) = length := by
      rw [unit, if_neg hwords]
      exact BitVec.mul_one _
    have hother : (BitVec.ofNat 256 code == 2#256) = false := by
      obtain rfl | rfl : code = 1 ∨ code = 3 := by omega
      · decide
      · decide
    rw [hother] at hcondition
    rw [hone]
    exact exec_ifThen_of_zero hcondition

def objectCode : List Stmt :=
  [Op.mstore (ident "head") (Op.sub (ident "tail") (ident "base")),
   .letOne "length" (Op.mload (ident "value")),
   .letOne "size" (ident "length"),
   .ifThen (Op.eq (ident "shape") (num 2))
     [.assignOne "size" (Op.mul (ident "length") (num 32))],
   Op.mstore (ident "tail") (ident "length"),
   copyMemory.run
     [Op.dataOf (ident "value"), Op.dataOf (ident "tail"), ident "size"],
   Op.mstore (Op.add (Op.dataOf (ident "tail")) (ident "size")) (num 0),
   .assignOne "newTail" (Op.add (Op.dataOf (ident "tail")) (Op.roundUp (ident "size")))]

structure ItemVars (head base tail value : Word) (code : Nat) (σ : Config) : Prop where
  head : σ.vars "head" = some head
  base : σ.vars "base" = some base
  tail : σ.vars "tail" = some tail
  shape : σ.vars "shape" = some (BitVec.ofNat 256 code)
  value : σ.vars "value" = some value
  newTail : (σ.vars "newTail").isSome

theorem ends_objectCode (h : Includes functions target (.fixed .copyMemory)) {head base tail : Word}
    (hσ : ItemVars head base tail value code σ) (hcode : code < 4) (hne : code ≠ 0)
    (hbelow : Below σ.world.memory head.toNat code value)
    (hhead : head.toNat + 32 ≤ tail.toNat) (hbase : base.toNat ≤ tail.toNat)
    (hend : tail.toNat + (read σ.world.memory code value).tail.length < 2 ^ 256)
    (hlimit : (read σ.world.memory code value).tail.length ≤ n) :
    (within ctx functions (n + 1)).Ends objectCode σ fun σ' => σ'.vars "newTail" =
        some (BitVec.ofNat 256 (tail.toNat + (read σ.world.memory code value).tail.length)) ∧
      ∃ m', σ'.world = σ.world.withMemory m' ∧
        Written σ.world.memory head.toNat (tail.toNat - base.toNat) tail.toNat
          [.read σ.world.memory code value] m' := by
  have hroom := hbelow hne
  rw [read_of_ne hne] at hend hlimit ⊢
  rw [length_tail_object, length_read] at hend hlimit ⊢
  generalize hlength : σ.world.memory.readWord value = length at *
  generalize hbytes : length.toNat * unit code = bytes at *
  have hrounded := le_roundUp bytes
  -- the size of the object is no more than a word
  have hsize : (length * BitVec.ofNat 256 (unit code)).toNat = bytes := by
    rw [toNat_mul_unit (by omega), hbytes]
  generalize hproduct : length * BitVec.ofNat 256 (unit code) = size at *
  have hsource : (value + 32#256).toNat = value.toNat + 32 := Word.toNat_add_ofNat (by omega)
  have hplace : (tail + 32#256).toNat = tail.toNat + 32 := Word.toNat_add_ofNat (by omega)
  have hstop : (tail + 32#256 + size).toNat = tail.toNat + 32 + bytes := by
    rw [BitVec.toNat_add_of_lt (by omega), hplace, hsize]
  have hoffset : tail - base = BitVec.ofNat 256 (tail.toNat - base.toNat) := by
    apply BitVec.eq_of_toNat_eq
    rw [BitVec.toNat_sub_of_le hbase, BitVec.toNat_ofNat, Nat.mod_eq_of_lt (by omega)]
  have hnew : tail + 32#256 + ((size + 31#256) &&& ~~~31#256) =
      BitVec.ofNat 256 (tail.toNat + (32 + roundUp bytes)) := by
    apply BitVec.eq_of_toNat_eq
    have hround : ((size + 31#256) &&& ~~~31#256).toNat = roundUp bytes := by
      rw [Word.toNat_roundUp (by omega), hsize]
    rw [BitVec.toNat_add_of_lt (by omega), hround, BitVec.toNat_ofNat]
    omega
  -- the place in the front part, and the size
  refine .cons (exec_mstore (yields_ident.2 hσ.head)
    ((yields_ident.2 hσ.tail).sub (yields_ident.2 hσ.base))) ?_
  rw [hoffset]
  set m₁ := σ.world.memory.write head.toNat
    (Word.toBytes (BitVec.ofNat 256 (tail.toNat - base.toNat)))
  have hsame : m₁.readWord value = length :=
    (hbelow.readWord_eq hne fun a ha => write_of_lt ha).trans hlength
  refine .append (runs_size (σ := ⟨σ.vars, σ.world.withMemory m₁⟩) hcode hne hσ.value hσ.shape) ?_
  rw [World.memory_withMemory, hsame, hproduct]
  set τ := ((mk σ.vars (σ.world.withMemory m₁)).set "length" length).set "size" size
  have htail : τ.vars "tail" = some tail := by simpa [τ] using hσ.tail
  have hsize' : τ.vars "size" = some size := by simp [τ]
  obtain ⟨old, hold⟩ := Option.isSome_iff_exists.1 hσ.newTail
  -- the length and the content
  refine .cons (exec_mstore (yields_ident.2 htail)
    (yields_ident.2 (show τ.vars "length" = some length by simp [τ]))) ?_
  set m₂ := m₁.write tail.toNat length.toBytes
  have hapart : (value + 32#256).toNat + size.toNat ≤ (tail + 32#256).toNat := by omega
  obtain ⟨m₃, hcopy, hcopied⟩ := apply_copyMemory (n := n) h (σ.world.withMemory m₂) (.inl hapart)
    (by omega) (by omega) (by omega)
  rw [hsource, hplace, hsize] at hcopied
  refine .cons (exec_run (.cons (yields_var (by simpa [τ] using hσ.value)).dataOf
    (.cons (yields_var htail).dataOf (.cons (yields_var hsize') .nil))) hcopy) ?_
  refine .cons (exec_mstore ((yields_var htail).dataOf.add (yields_var hsize'))
    (yields_num (by decide))) ?_
  refine .cons (exec_assignOne (by simpa [τ] using hold)
    ((yields_var htail).dataOf.add (yields_var hsize').roundUp)) ?_
  rw [hnew, hstop]
  exact .nil ⟨by simp, _, rfl, written_object (by omega) hhead hcopied⟩

/-- A value is written, and the routine gives where its part in the back ends. -/
theorem apply_abiEncodeItem (h : Includes functions target (.fixed .abiEncodeItem))
    {head base tail : Word} (w : World) (hcode : code < 4)
    (hbelow : Datum.Below w.memory head.toNat code value) (hhead : head.toNat + 32 ≤ tail.toNat)
    (hbase : base.toNat ≤ tail.toNat)
    (hend : tail.toNat + (Datum.read w.memory code value).tail.length < 2 ^ 256)
    (hlimit : (Datum.read w.memory code value).tail.length ≤ n) :
    ∃ m', (within ctx functions (n + 2)).apply abiEncodeItem.name
        [head, base, tail, BitVec.ofNat 256 code, value] w =
          .ok ([BitVec.ofNat 256 (tail.toNat + (Datum.read w.memory code value).tail.length)],
            w.withMemory m') ∧
      Written w.memory head.toNat (tail.toNat - base.toNat) tail.toNat
        [.read w.memory code value] m' := by
  set σ := (entry abiEncodeItemDef
    [head, base, tail, BitVec.ofNat 256 code, value] w).set "newTail" tail with hσ
  have hvars : ItemVars head base tail value code σ :=
    ⟨by rfl, by rfl, by rfl, by rfl, by rfl, by rfl⟩
  -- the block of the shape is left with the new end in its variable
  obtain ⟨σ', hrun, hnew, m', hworld, hwritten⟩ : (within ctx functions (n + 1)).Ends
      (if BitVec.ofNat 256 code = 0#256 then [Op.mstore (ident "head") (ident "value")]
        else objectCode) σ fun σ' => σ'.vars "newTail" =
          some (BitVec.ofNat 256 (tail.toNat + (Datum.read w.memory code value).tail.length)) ∧
        ∃ m', σ'.world = w.withMemory m' ∧ Written w.memory head.toNat (tail.toNat - base.toNat)
          tail.toNat [.read w.memory code value] m' := by
    by_cases hzero : code = 0
    · subst hzero
      have hname : σ.vars "newTail" = some tail := by simp [hσ]
      refine .cons (exec_mstore (yields_ident.2 hvars.head) (yields_ident.2 hvars.value)) (.nil ?_)
      exact ⟨by simpa [Datum.read_zero, Datum.tail] using hname, _, rfl, written_word⟩
    · have hne : BitVec.ofNat 256 code ≠ 0#256 := by
        obtain rfl | rfl | rfl : code = 1 ∨ code = 2 ∨ code = 3 := by omega
        · decide
        · decide
        · decide
      rw [if_neg hne]
      exact ends_objectCode (h.needed (by decide)) hvars hcode hzero hbelow hhead hbase hend hlimit
  refine ⟨m', h.returns rfl rfl ?_, hwritten⟩
  refine .cons (exec_assignOne (by rfl) (yields_ident.2 (by rfl))) ?_
  refine .cons ((exec_switch_zero (yields_ident.2 hvars.shape)).trans hrun.inBlock) ?_
  refine .nil ⟨results_eq (.cons ?_ .nil), hworld⟩
  rw [vars_leave, if_pos (by rfl), hnew]

end

/-! ## Codes -/

def shapeWord (codes : List Nat) : Word :=
  BitVec.ofNat 256 (Shape.word 2 codes)

variable {i : Nat}

theorem word_lt (b : Nat) (codes : List Nat) : Shape.word b codes < (2 ^ b) ^ codes.length := by
  induction codes with
  | nil => exact Nat.one_pos
  | cons code codes ih =>
    have hdigit : code % 2 ^ b < 2 ^ b := Nat.mod_lt _ (by positivity)
    have hrest := Nat.mul_le_mul_left (2 ^ b) (Nat.succ_le_of_lt ih)
    rw [Nat.mul_succ, ← pow_succ'] at hrest
    show code % 2 ^ b + 2 ^ b * Shape.word b codes < _
    rw [length_cons]
    omega

theorem word_lt_word (h : codes.length * b ≤ 256) : Shape.word b codes < 2 ^ 256 :=
  calc Shape.word b codes < (2 ^ b) ^ codes.length := word_lt b codes
    _ = 2 ^ (codes.length * b) := by rw [← pow_mul, Nat.mul_comm]
    _ ≤ 2 ^ 256 := Nat.pow_le_pow_right (by decide) h

theorem toNat_shapeWord (h : codes.length ≤ 128) : (shapeWord codes).toNat = Shape.word 2 codes :=
  Nat.mod_eq_of_lt (word_lt_word (by omega))

theorem yields_codeAt {m : Machine} (hb : b < 256) (hi : b * i < 2 ^ 256) (hs : σ.vars x = some s) :
    m.Yields σ (codeAt x b i (2 ^ b - 1))
      (BitVec.ofNat 256 (s.toNat / (2 ^ b) ^ i % 2 ^ b)) := by
  have hshifted : m.Yields σ
      (if b * i = 0 then ident x else Op.shr (num (b * i)) (ident x)) (s >>> (b * i)) := by
    split
    · rename_i hzero
      rw [hzero]
      exact yields_ident.2 hs
    · exact .shr hi (yields_ident.2 hs)
  have hlimit : 2 ^ b < 2 ^ 256 := Nat.pow_lt_pow_right (by decide) hb
  have hdigit : s.toNat / (2 ^ b) ^ i % 2 ^ b < 2 ^ b := Nat.mod_lt _ (by positivity)
  have hvalue : s >>> (b * i) &&& BitVec.ofNat 256 (2 ^ b - 1) =
      BitVec.ofNat 256 (s.toNat / (2 ^ b) ^ i % 2 ^ b) := by
    apply BitVec.eq_of_toNat_eq
    rw [BitVec.toNat_and, BitVec.toNat_ofNat, BitVec.toNat_ofNat, Nat.mod_eq_of_lt (by omega),
      Nat.mod_eq_of_lt (a := _ % 2 ^ b) (by omega), Nat.and_two_pow_sub_one_eq_mod,
      BitVec.toNat_ushiftRight, Nat.shiftRight_eq_div_pow, pow_mul]
  rw [← hvalue]
  exact hshifted.both (yields_num (by omega))

theorem shiftedCodes (hcode : code < base) (h : s / base ^ i = Shape.word b (code :: codes))
    (hbase : 2 ^ b = base) :
    s / base ^ i % base = code ∧ s / base ^ (i + 1) = Shape.word b codes := by
  have hword : Shape.word b (code :: codes) = code % base + base * Shape.word b codes := by
    rw [← hbase]
    rfl
  rw [pow_succ, ← Nat.div_div_eq_div_mul, h, hword, Nat.mod_eq_of_lt hcode]
  exact ⟨by rw [Nat.add_mul_mod_self_left, Nat.mod_eq_of_lt hcode],
    by rw [Nat.add_mul_div_left _ _ (by omega), Nat.div_eq_of_lt hcode, Nat.zero_add]⟩

def codesIn (s : Nat) (i count : Nat) : List Nat :=
  (range' i count).map fun j => s / 4 ^ j % 4

@[simp]
theorem length_codesIn (s i count : Nat) : (codesIn s i count).length = count := by
  simp [codesIn]

theorem codesIn_succ (s i count : Nat) :
    codesIn s i (count + 1) = s / 4 ^ i % 4 :: codesIn s (i + 1) count := by
  rw [codesIn, range'_succ, map_cons, codesIn]

theorem codesIn_of_word (hcodes : ∀ code ∈ codes, code < 3) (h : s / 4 ^ i = Shape.word 2 codes) :
    codesIn s i codes.length = codes := by
  induction codes generalizing i with
  | nil => rfl
  | cons code codes ih =>
    obtain ⟨hcode, hcodes⟩ := forall_mem_cons.1 hcodes
    obtain ⟨hfirst, hrest⟩ := shiftedCodes (Nat.lt_succ_of_lt hcode) h rfl
    rw [length_cons, codesIn_succ, hfirst, ih hcodes hrest]

/-! ## Lists of values -/

section

def itemsCode (i : Nat) (names : List String) : List Stmt :=
  (names.zipIdx i).map fun (a, i) =>
    .assignOne "tail"
      (abiEncodeItem.call
        [Op.add (ident "dst") (num (32 * i)), ident "base", ident "tail",
         codeAt "shapes" 2 i 3, ident a])

/-- The variables of an encoding, when the next part in the back goes to `tail`. -/
structure EncodingVars (dst tail s : Word) (σ : Config) : Prop where
  place : σ.vars "dst" = some dst
  base : σ.vars "base" = some dst
  back : σ.vars "tail" = some tail
  shapes : σ.vars "shapes" = some s

theorem EncodingVars.next {tail : Word} (h : EncodingVars dst tail s σ) (w : World) (tail' : Word) :
    EncodingVars dst tail' s ((Config.mk σ.vars w).set "tail" tail') :=
  ⟨h.place, h.base, by simp, h.shapes⟩

theorem runs_itemsCode (ctx : Context) (h : Includes functions target (.fixed .abiEncodeItem))
    {m : Memory} {tail : Word} (hbelow : Forall₂ (Below m dst.toNat) codes vs)
    (hsame : ∀ a < dst.toNat, σ.world.memory a = m a)
    (hnames : Forall₂ (fun x v => σ.vars x = some v) names vs) (hfresh : "tail" ∉ names)
    (hσ : EncodingVars dst tail s σ) (hcodes : codesIn s.toNat i codes.length = codes)
    (hroom : dst.toNat + 32 * (i + codes.length) ≤ tail.toNat)
    (hend : tail.toNat + (tails (dataOf m codes vs)).length < 2 ^ 256)
    (hlimit : (tails (dataOf m codes vs)).length ≤ n) :
    ∃ m', (within ctx functions (n + 2)).Runs (itemsCode i names) σ
        ((Config.mk σ.vars (σ.world.withMemory m')).set "tail"
          (BitVec.ofNat 256 (tail.toNat + (tails (dataOf m codes vs)).length))) ∧
      Written σ.world.memory (dst.toNat + 32 * i) (tail.toNat - dst.toNat) tail.toNat
        (dataOf m codes vs) m' := by
  induction hbelow generalizing names i tail σ with
  | nil =>
    obtain rfl := forall₂_nil_right_iff.1 hnames
    refine ⟨σ.world.memory, ?_, .nil _ _ _ _⟩
    have htail : BitVec.ofNat 256 (tail.toNat + (tails (dataOf m [] [])).length) = tail := by
      simp [tails]
    have hsame : σ.world.withMemory σ.world.memory = σ.world := rfl
    rw [htail, hsame, Config.set_of_vars hσ.back]
    exact .nil
  | @cons code v codes vs hv hvs ih =>
    obtain ⟨name, names, hname, hrest, rfl⟩ := forall₂_cons_right_iff.1 hnames
    rw [length_cons] at hcodes hroom
    rw [dataOf_cons, tails_cons, length_append] at hend hlimit ⊢
    rw [codesIn_succ] at hcodes
    obtain ⟨hfirst, hcodes⟩ := cons.inj hcodes
    have hcode : code < 4 := by omega
    set d := read m code v with hd
    have hread : read σ.world.memory code v = d := hv.read_eq hsame
    have hhead : (dst + BitVec.ofNat 256 (32 * i)).toNat = dst.toNat + 32 * i :=
      Word.toNat_add_ofNat (by omega)
    set M := within ctx functions (n + 2)
    obtain ⟨m₁, happly, hwritten⟩ : ∃ m₁, M.apply abiEncodeItem.name
        [dst + BitVec.ofNat 256 (32 * i), dst, tail, BitVec.ofNat 256 code, v] σ.world =
          .ok ([BitVec.ofNat 256 (tail.toNat + d.tail.length)], σ.world.withMemory m₁) ∧
        Written σ.world.memory (dst.toNat + 32 * i) (tail.toNat - dst.toNat) tail.toNat [d] m₁ := by
      have hbelow := (hv.congr hsame).mono (Nat.le_add_right dst.toNat (32 * i))
      rw [← hhead] at hbelow ⊢
      rw [← hread] at hend hlimit ⊢
      exact apply_abiEncodeItem h σ.world hcode hbelow (by omega) (by omega) (by omega) (by omega)
    have hshape : M.Yields σ (codeAt "shapes" 2 i 3) (BitVec.ofNat 256 code) := by
      rw [← hfirst]
      exact yields_codeAt (b := 2) (by decide) (by omega) hσ.shapes
    have hexec := exec_assignOne_call (m := M) (x := "tail") (by rw [hσ.back]; rfl)
      (.cons ((yields_ident.2 hσ.place).add (yields_num (by omega)))
        (.cons (yields_ident.2 hσ.base) (.cons (yields_ident.2 hσ.back)
          (.cons hshape (.cons (yields_ident.2 hname) .nil))))) happly
    have htail : (BitVec.ofNat 256 (tail.toNat + d.tail.length)).toNat =
        tail.toNat + d.tail.length := Nat.mod_eq_of_lt (by omega)
    generalize BitVec.ofNat 256 (tail.toNat + d.tail.length) = tail₁ at hexec htail
    set σ₁ := (Config.mk σ.vars (σ.world.withMemory m₁)).set "tail" tail₁
    -- nothing was written over the values that are still to come
    have hsame₁ : ∀ a < dst.toNat, σ₁.world.memory a = m a := fun a ha =>
      (hwritten.front a (by omega) (.inl (by omega))).trans (hsame a ha)
    have hnames₁ : Forall₂ (fun x v => σ₁.vars x = some v) names vs :=
      forall₂_vars_set hrest fun hmem => hfresh (mem_cons_of_mem _ hmem)
    obtain ⟨m₂, hruns, hwritten₂⟩ := ih hsame₁ hnames₁
      (fun hmem => hfresh (mem_cons_of_mem _ hmem)) (hσ.next _ tail₁) hcodes (by omega) (by omega)
      (by omega)
    have hlast : tail₁.toNat + (tails (dataOf m codes vs)).length =
        tail.toNat + (d.tail.length + (tails (dataOf m codes vs)).length) := by omega
    rw [hlast] at hruns
    refine ⟨m₂, .cons hexec ?_, hwritten.cons ?_ ?_⟩
    · rw [← Config.set_set (v := tail₁)]
      exact hruns
    · have hplace : dst.toNat + 32 * i + 32 = dst.toNat + 32 * (i + 1) := by omega
      have hoffset : tail.toNat - dst.toNat + d.tail.length = tail₁.toNat - dst.toNat := by omega
      rw [hoffset, ← htail]
      exact hwritten₂
    · rw [length_dataOf hvs.length_eq]
      omega

/-! ## Whole encodings -/

theorem notMem_numbered {x stem : String} {count : Nat} (h : endsInDigit x = false) :
    x ∉ numbered stem count := fun hmem => by
  simpa [h] using endsInDigit_of_mem hmem

/-- Values that end below a place are encoded at the place, each as the word of codes tells, and nothing
in front of it is changed. -/
theorem apply_abiEncode_codes (ctx : Context)
    (h : Includes functions target (.family .abiEncode codes.length)) (w : World)
    (hbelow : Forall₂ (Below w.memory dst.toNat) codes vs)
    (hcodes : codesIn s.toNat 0 codes.length = codes)
    (hend : dst.toNat + (encoding (dataOf w.memory codes vs)).length < 2 ^ 256)
    (hlimit : (tails (dataOf w.memory codes vs)).length ≤ n) :
    ∃ m', (within ctx functions (n + 3)).apply (abiEncode.name codes.length)
        (dst :: s :: vs) w =
          .ok ([BitVec.ofNat 256 (dst.toNat + (encoding (dataOf w.memory codes vs)).length)],
            w.withMemory m') ∧
      m'.Has dst.toNat (encoding (dataOf w.memory codes vs)) ∧
      ∀ a < dst.toNat, m' a = w.memory a := by
  have hlength := length_dataOf (m := w.memory) hbelow.length_eq
  rw [length_encoding, hlength] at hend ⊢
  have hvs : vs.length = codes.length := hbelow.length_eq.symm
  generalize hds : dataOf w.memory codes vs = ds at *
  set M := within ctx functions (n + 2)
  set f := abiEncodeDef codes.length
  set σ := entry f (dst :: s :: vs) w
  have hnodup : (f.params ++ f.returns).Nodup :=
    (abiEncode.scoped_definition codes.length).2.of_append_left
  have hparams : f.params = "dst" :: "shapes" :: numbered "a" codes.length := rfl
  have hargs : f.params.length = (dst :: s :: vs).length := by
    simp [hparams, hvs, numbered]
  obtain ⟨hvars, hreturns⟩ := forall₂_vars_entry hnodup hargs
  obtain ⟨hdst, hvars⟩ := forall₂_cons.1 hvars
  obtain ⟨hshapes, hnames⟩ := forall₂_cons.1 hvars
  have hreturn : σ.vars "end" = some 0#256 := hreturns "end" mem_cons_self
  -- the back part starts behind the words of the front part
  have htail : (dst + BitVec.ofNat 256 (32 * codes.length)).toNat = dst.toNat + 32 * codes.length :=
    Word.toNat_add_ofNat (by omega)
  set tail := dst + BitVec.ofNat 256 (32 * codes.length)
  set τ := (σ.set "base" dst).set "tail" tail
  have hworld : τ.world = w := world_setAll _ _
  have hτ : EncodingVars dst tail s τ :=
    ⟨by simpa [τ] using hdst, by simp [τ], by simp [τ], by simpa [τ] using hshapes⟩
  have hnames : Forall₂ (fun x v => τ.vars x = some v)
      (numbered "a" codes.length) vs :=
    forall₂_vars_set (forall₂_vars_set hnames (notMem_numbered (by decide)))
      (notMem_numbered (by decide))
  obtain ⟨m', hitems, hwritten⟩ := runs_itemsCode ctx (n := n) (i := 0)
    (h.needed (by simp [Routine.needs])) hbelow (fun _ _ => by rw [hworld]) hnames
    (notMem_numbered (by decide)) hτ hcodes (by omega) (by rw [hds]; omega) (by rw [hds]; omega)
  rw [hds, hworld] at hitems hwritten
  set stop := BitVec.ofNat 256 (tail.toNat + (tails ds).length)
  refine ⟨m', ?_, ?_, fun a ha => hwritten.front a (by omega) (.inl (by omega))⟩
  · have hstop : BitVec.ofNat 256 (dst.toNat + (32 * codes.length + (tails ds).length)) = stop := by
      rw [← Nat.add_assoc, ← htail]
    rw [hstop]
    refine h.returns rfl hargs (.append (Runs.append (.cons (exec_letOne (yields_ident.2 hdst))
      (.cons (exec_letOne (.add (yields_ident.2 hdst) (yields_num (by omega)))) .nil)) hitems) ?_)
    refine .cons (exec_assignOne (by simpa [τ] using hreturn) (yields_ident.2 (by rfl))) ?_
    exact .nil ⟨results_eq (.cons (by simp) .nil), rfl⟩
  · have hheads := hwritten.heads
    have hoffset : tail.toNat - dst.toNat = 32 * ds.length := by omega
    rw [hoffset] at hheads
    refine has_append.2 ⟨hheads, ?_⟩
    rw [length_heads, hlength, ← htail]
    exact hwritten.tails

/-- Values that end below a place are encoded at the place, and nothing in front of it is changed. -/
theorem apply_abiEncode (ctx : Context)
    (h : Includes functions target (.family .abiEncode codes.length)) (w : World)
    (hbelow : Forall₂ (Below w.memory dst.toNat) codes vs)
    (hcodes : ∀ code ∈ codes, code < 3) (hcount : codes.length ≤ 128)
    (hend : dst.toNat + (encoding (dataOf w.memory codes vs)).length < 2 ^ 256)
    (hlimit : (tails (dataOf w.memory codes vs)).length ≤ n) :
    ∃ m', (within ctx functions (n + 3)).apply (abiEncode.name codes.length)
        (dst :: shapeWord codes :: vs) w =
          .ok ([BitVec.ofNat 256 (dst.toNat + (encoding (dataOf w.memory codes vs)).length)],
            w.withMemory m') ∧
      m'.Has dst.toNat (encoding (dataOf w.memory codes vs)) ∧
      ∀ a < dst.toNat, m' a = w.memory a := by
  refine apply_abiEncode_codes ctx h w hbelow (codesIn_of_word hcodes ?_) hend hlimit
  rw [toNat_shapeWord hcount, pow_zero, Nat.div_one]

end

end ContractYul.Coding
