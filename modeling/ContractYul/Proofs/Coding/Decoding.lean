import ContractYul.Proofs.Coding.Encoding

/-!
# Runs of decoding routines

Encoded values are found again: a word in the front part, an object by the distance that its word in
the front part gives. Arguments are decoded from call data into fresh memory, one after the other, so
that what was decoded before stays. The results of a call are decoded from an object in memory, in
which they stay where they are.
-/

open List hiding tail head

namespace ContractYul.Coding

open Yul Machine FixedRoutine RoutineFamily Memory Datum Dispatch

/-! ## Where encoded values stand -/

/-- Bytes in which values are encoded, the front part at `head`. Distances are counted from `base`,
and the back part is at the distance `offset`. -/
structure EncodedAt (data : List UInt8) (base head offset : Nat) (ds : List Datum) : Prop where
  heads : HasPart data head (heads offset ds)
  tails : HasPart data (base + offset) (tails ds)

section

variable {head : Nat}

theorem encodedAt_encoding (ds : List Datum) : EncodedAt (encoding ds) 0 0 (32 * ds.length) ds where
  heads := hasPart_append_left _ _
  tails := by
    have hback := hasPart_append_right (heads (32 * ds.length) ds) (tails ds)
    rw [length_heads] at hback
    rwa [Nat.zero_add]

theorem EncodedAt.behind (front : List UInt8) (h : EncodedAt data base head offset ds) :
    EncodedAt (front ++ data) (front.length + base) (front.length + head) offset ds where
  heads := (hasPart_append_right front data).trans h.heads
  tails := by
    rw [Nat.add_assoc]
    exact (hasPart_append_right front data).trans h.tails

theorem EncodedAt.first (h : EncodedAt data base head offset (d :: ds)) :
    HasPart data head (d.head offset).toBytes ∧ HasPart data (base + offset) d.tail :=
  ⟨h.heads.trans (hasPart_append_left _ _), h.tails.trans (hasPart_append_left _ _)⟩

theorem EncodedAt.rest (h : EncodedAt data base head offset (d :: ds)) :
    EncodedAt data base (head + 32) (offset + d.tail.length) ds where
  heads := by
    have hrest := h.heads.trans (hasPart_append_right (d.head offset).toBytes _)
    rwa [Word.length_toBytes] at hrest
  tails := by
    rw [← Nat.add_assoc]
    exact h.tails.trans (hasPart_append_right d.tail _)

end

/-- An object stands at the front of its copy in the back part. -/
theorem hasPart_tail_object (length : Word) (content : List UInt8) :
    HasPart (object length content).tail 0 (length.toBytes ++ content) := by
  rw [tail, padded, ← append_assoc]
  exact hasPart_append_left _ _

/-! ## Objects behind the memory in use -/

/-- The end of the memory in use after room for an object of `size` bytes was handed out. -/
def allocatedEnd (free size : Word) : Word :=
  free + ((size + 32#256 + 31#256) &&& ~~~31#256)

/-- The allocated end, when at most the last sum wraps around. -/
theorem toNat_allocatedEnd (hsize : size.toNat + 63 < 2 ^ 256) :
    (allocatedEnd free size).toNat = (free.toNat + roundUp (32 + size.toNat)) % 2 ^ 256 := by
  have hsum : (size + 32#256).toNat = size.toNat + 32 := Word.toNat_add_ofNat (by omega)
  rw [allocatedEnd, BitVec.toNat_add, Word.toNat_roundUp (by omega), hsum, Nat.add_comm size.toNat]

/-- Memory after an object was put behind the memory in use, in room for `size` bytes. -/
def placedMemory (m : Memory) (free length size : Word) (content : List UInt8) : Memory :=
  ((m.withFree (allocatedEnd free size)).write free.toNat length.toBytes).write
    (free + 32#256).toNat content

/-- Memory in which bytes were put behind the memory in use, of which the end is now `stop`. -/
structure Placed (m : Memory) (free : Nat) (bytes : List UInt8) (stop : Word) (m' : Memory) :
    Prop where
  bytes : m'.Has free bytes
  stop : m'.readWord 64#256 = stop
  kept : ∀ a, 96 ≤ a → a < free → m' a = m a

/-- The length and the content of an object are put behind the memory in use, and it ends where the
object does. -/
theorem placed_placedMemory (length : Word) (hsize : size.toNat = content.length)
    (hlow : 96 ≤ free.toNat) (hfits : free.toNat + (32 + roundUp content.length) < 2 ^ 256) :
    Placed m free.toNat (length.toBytes ++ content)
      (BitVec.ofNat 256 (free.toNat + (32 + roundUp content.length)))
      (placedMemory m free length size content) := by
  have hle := le_roundUp content.length
  have hplace : (free + 32#256).toNat = free.toNat + 32 := Word.toNat_add_ofNat (by omega)
  have hstop : allocatedEnd free size =
      BitVec.ofNat 256 (free.toNat + (32 + roundUp content.length)) := by
    apply BitVec.eq_of_toNat_eq
    have hround : roundUp (32 + content.length) = 32 + roundUp content.length := by
      unfold roundUp
      omega
    rw [toNat_allocatedEnd (by omega), hsize, hround, BitVec.toNat_ofNat]
  unfold placedMemory
  rw [hplace, hstop]
  generalize BitVec.ofNat 256 (free.toNat + (32 + roundUp content.length)) = stop
  refine ⟨has_append.2 ⟨?_, ?_⟩, Has.readWord_eq ?_, fun a hlow hlt => ?_⟩
  · refine (has_write (m.withFree stop) free.toNat length.toBytes).congr fun a _ ha => ?_
    exact write_of_lt ha
  · exact has_write _ _ _
  · refine (has_write m 64 (Word.toBytes stop)).congr fun a _ ha => ?_
    rw [Word.length_toBytes] at ha
    rw [write_of_lt (by omega), write_of_lt (by omega)]
    rfl
  · rw [write_of_lt (by omega), write_of_lt hlt]
    exact write_of_ge (by rwa [Word.length_toBytes])

/-- Code that puts an object behind the memory in use, with a copy of its content. -/
def placingCode (pointer length size copy : String) (source : Expr) : List Stmt :=
  [.assignOne pointer (allocateMemory.call [Op.add (ident size) (num 32)]),
   Op.mstore (ident pointer) (ident length),
   .run copy [Op.dataOf (ident pointer), source, ident size]]

section

variable {ctx : Context} {code head : Nat} {s payload : Word}

theorem ends_placingCode (copy : String) (h : Includes functions target (.fixed .allocateMemory))
    {pointer length size : String} (hworld : σ.world = w) (hpointer : (σ.vars pointer).isSome)
    (hlength : σ.vars length = some len) (hsize : σ.vars size = some bytes)
    (hapart : length ≠ pointer ∧ size ≠ pointer)
    (hsource : ∀ w', (within ctx functions (n + 1)).Yields
      ⟨(σ.set pointer w.freeMemory).vars, w'⟩ source start)
    (hcopy : ∀ m' place, (within ctx functions (n + 1)).apply copy [place, start, bytes]
      (w.withMemory m') = .ok ([], w.withMemory (m'.write place.toNat content))) :
    (within ctx functions (n + 1)).Ends (placingCode pointer length size copy source) σ fun σ' =>
      results σ' [pointer] = .ok [w.freeMemory] ∧
        σ'.world = w.withMemory (placedMemory w.memory w.freeMemory len bytes content) := by
  subst hworld
  refine .cons (exec_assignOne_call hpointer (.cons ((yields_ident.2 hsize).add
    (yields_num (by decide))) .nil) (apply_allocateMemory ctx h (bytes + 32#256) σ.world)) ?_
  refine .cons (exec_mstore (yields_ident.2 (if_pos rfl))
    (yields_ident.2 ((if_neg hapart.1).trans hlength))) ?_
  refine .cons (exec_run (.cons (yields_ident.2 (if_pos rfl)).dataOf (.cons (hsource _)
    (.cons (yields_ident.2 ((if_neg hapart.2).trans hsize)) .nil))) (hcopy _ _)) ?_
  exact .nil ⟨results_eq (.cons (if_pos rfl) .nil), rfl⟩

/-! ## Arguments in call data -/

def callWord (ctx : Context) (position : Word) : Word :=
  .ofBytes (slice ctx.callData position.toNat 32)

/-- Where the object of a front word starts: distances are counted behind the selector. -/
def objectStart (ctx : Context) (head : Word) : Word :=
  4#256 + callWord ctx head

def objectLength (ctx : Context) (head : Word) : Word :=
  callWord ctx (objectStart ctx head)

def decodedMemory (ctx : Context) (m : Memory) (free head unit : Word) : Memory :=
  let length := objectLength ctx head
  let size := length * unit
  ((m.withFree (allocatedEnd free size)).write free.toNat length.toBytes).write
    (free + 32#256).toNat
    (slice ctx.callData (objectStart ctx head + 32#256).toNat size.toNat)

/-- Decoding ends for every call data and every front word. -/
theorem apply_decodeCalldata (ctx : Context)
    (h : Includes functions target (.fixed .abiDecodeCalldataDynamic)) (head unit : Word)
    (w : World) :
    (within ctx functions (n + 2)).apply abiDecodeCalldataDynamic.name
        [head, unit] w =
      .ok ([w.freeMemory], w.withMemory (decodedMemory ctx w.memory w.freeMemory head unit)) := by
  have hload : ∀ {τ : Config} {x : String} {v : Word}, τ.vars x = some v →
      (within ctx functions (n + 1)).Yields τ (call "calldataload" [ident x]) (callWord ctx v) := by
    intro τ x v hx
    have hword := (yields_ident.2 hx).callDataLoad (m := within ctx functions (n + 1))
    rwa [context_within] at hword
  refine h.returns rfl rfl ?_
  -- where the object stands and how long it is
  refine .cons (exec_letOne ((yields_num (by decide)).add (hload (by rfl)))) ?_
  refine .cons (exec_letOne (hload (by rfl))) ?_
  refine .cons (exec_letOne ((yields_ident.2 (by rfl)).mul (yields_ident.2 (by rfl)))) ?_
  -- the object itself
  exact ends_placingCode "calldatacopy" (h.needed (by decide)) rfl (by rfl) (by rfl) (by rfl)
    (by decide) (fun _ => (yields_ident.2 (by rfl)).add (yields_num (by decide))) fun _ _ => rfl

theorem placed_decodedMemory {free length : Word} (hdata : ctx.callData.length < 2 ^ 256)
    (hhead : HasPart ctx.callData head (Word.toBytes (BitVec.ofNat 256 offset)))
    (htail : HasPart ctx.callData (4 + offset) (object length content).tail)
    (hshape : (object length content).HasShape code) (hlow : 96 ≤ free.toNat)
    (hfits : free.toNat + (object length content).tail.length < 2 ^ 256) :
    Placed m free.toNat (length.toBytes ++ content)
      (BitVec.ofNat 256 (free.toNat + (object length content).tail.length))
      (decodedMemory ctx m free (BitVec.ofNat 256 head) (BitVec.ofNat 256 (unit code))) := by
  obtain ⟨-, hcontent⟩ := hshape
  have hhead_le := hhead.length_le
  have htail_le := htail.length_le
  rw [length_tail_object] at hfits htail_le ⊢
  have hle := le_roundUp content.length
  have hobject := htail.trans (hasPart_tail_object length content)
  have hbytes : HasPart ctx.callData (4 + offset + 32) content := by
    have hback := hobject.trans (hasPart_append_right length.toBytes content)
    rwa [Word.length_toBytes] at hback
  have hhead_eq : (BitVec.ofNat 256 head).toNat = head := Nat.mod_eq_of_lt (by omega)
  have hoffset_eq : (BitVec.ofNat 256 offset).toNat = offset := Nat.mod_eq_of_lt (by omega)
  have hfour : (4#256).toNat = 4 := rfl
  have hstart : (objectStart ctx (BitVec.ofNat 256 head)).toNat = 4 + offset := by
    rw [objectStart, callWord, hhead_eq, hhead.ofBytes_slice, BitVec.toNat_add_of_lt (by omega),
      hoffset_eq, hfour]
  have hlength : objectLength ctx (BitVec.ofNat 256 head) = length := by
    rw [objectLength, callWord, hstart]
    exact (hobject.trans (hasPart_append_left _ _)).ofBytes_slice
  have hsource : (objectStart ctx (BitVec.ofNat 256 head) + 32#256).toNat = 4 + offset + 32 := by
    rw [Word.toNat_add_ofNat (by omega), hstart]
  have hsize : (length * BitVec.ofNat 256 (unit code)).toNat = content.length := by
    rw [toNat_mul_unit (by omega), hcontent]
  dsimp only [decodedMemory]
  rw [hlength, hsource, hsize, hbytes.slice_eq]
  exact placed_placedMemory length hsize hlow hfits

/-! ## Lists of arguments -/

/-- How a parameter is read, by the code of its shape. -/
def formOf (code : Nat) : ArgForm :=
  if code = 0 then .word else .dynamic (unit code)

theorem headSize_formOf (code : Nat) : (formOf code).headSize = 32 := by
  unfold formOf
  split <;> rfl

theorem formOf_of_shape (h : Shape.ofTy t = .ok code) :
    ArgForm.ofTy t = .ok (formOf code) ∧ code < 3 ∧ (code = 0 ↔ t.isValue) := by
  unfold Shape.ofTy at h
  unfold ArgForm.ofTy
  split at h
  · rename_i hvalue
    cases h
    rw [if_pos hvalue]
    exact ⟨rfl, by decide, by simp [hvalue]⟩
  · rename_i hvalue
    split at h
    · cases h
      exact ⟨rfl, by decide, by simp [hvalue]⟩
    · cases h
      exact ⟨rfl, by decide, by simp [hvalue]⟩
    · split at h
      · rename_i helem
        cases h
        exact ⟨if_pos helem, by decide, by simp [hvalue]⟩
      · cases h
    · cases h

/-- The first argument stands for its value, in every memory that has what is in use after it was
read. -/
theorem takeArgument_encoded
    (h : code ≠ 0 → Includes functions target (.fixed .abiDecodeCalldataDynamic))
    (hdata : ctx.callData.length < 2 ^ 256) (hat : EncodedAt ctx.callData 4 head offset (d :: ds))
    (hshape : d.HasShape code) (w : World) (hlow : 96 ≤ w.freeMemory.toNat)
    (hfits : w.freeMemory.toNat + d.tail.length < 2 ^ 256) :
    ∃ args v m', inTurn (((formOf code).reader head).2.map wordOf) = .ok args ∧
      (within ctx functions (n + 2)).applyOne ((formOf code).reader head).1 args w =
        .ok (v, w.withMemory m') ∧
      (m'.readWord 64#256).toNat = w.freeMemory.toNat + d.tail.length ∧
      (∀ a, 96 ≤ a → a < w.freeMemory.toNat → m' a = w.memory a) ∧
      ∀ m'', (∀ a, 96 ≤ a → a < w.freeMemory.toNat + d.tail.length → m'' a = m' a) →
        read m'' code v = d ∧
          Below m'' (w.freeMemory.toNat + d.tail.length) code v := by
  obtain ⟨hhead, htail⟩ := hat.first
  have hhead_le := hhead.length_le
  have hposition : wordOf head = .ok (BitVec.ofNat 256 head) := wordOf_of_lt (by omega)
  cases d with
  | word v =>
    obtain rfl : code = 0 := hshape
    have hload : (within ctx functions (n + 2)).applyOne "calldataload"
        [BitVec.ofNat 256 head] w = .ok (v, w) := by
      have hnumber : (BitVec.ofNat 256 head).toNat = head := Nat.mod_eq_of_lt (by omega)
      have hword : Word.ofBytes (slice ctx.callData (BitVec.ofNat 256 head).toNat 32) = v := by
        rw [hnumber]
        exact hhead.ofBytes_slice
      rw [← hword]
      rfl
    have hargs : inTurn [wordOf head] = .ok [BitVec.ofNat 256 head] := by
      rw [hposition]
      rfl
    exact ⟨_, v, w.memory, hargs, hload, rfl, fun _ _ _ => rfl,
      fun _ _ => ⟨rfl, fun hne => absurd rfl hne⟩⟩
  | object length content =>
    have hne : code ≠ 0 := hshape.1
    have happly := apply_decodeCalldata ctx (n := n) (h hne) (BitVec.ofNat 256 head)
      (BitVec.ofNat 256 (unit code)) w
    have hplaced := placed_decodedMemory (m := w.memory) hdata hhead htail hshape hlow hfits
    have hform : formOf code = .dynamic (unit code) := if_neg hne
    have hunit : unit code < 2 ^ 256 := by
      unfold unit
      split <;> decide
    have hargs : inTurn [wordOf head, wordOf (unit code)] =
        .ok [BitVec.ofNat 256 head, BitVec.ofNat 256 (unit code)] := by
      rw [hposition, wordOf_of_lt hunit]
      rfl
    rw [hform]
    refine ⟨_, w.freeMemory, _, hargs, applyOne_eq happly, ?_, hplaced.kept, fun m'' hsame => ?_⟩
    · rw [hplaced.stop]
      exact Nat.mod_eq_of_lt hfits
    · have hle := le_roundUp content.length
      rw [length_tail_object] at hsame ⊢
      have hbytes : m''.Has w.freeMemory.toNat (length.toBytes ++ content) := by
        refine hplaced.bytes.congr fun a hge hlt => hsame a (by omega) ?_
        rw [length_append, Word.length_toBytes] at hlt
        omega
      refine ⟨read_of_has hshape hbytes, fun _ => ?_⟩
      rw [(has_append.1 hbytes).1.readWord_eq, ← hshape.2]
      omega

/-- The arguments of a call stand for the values that are encoded in its data, with objects in memory
that is in use afterwards. What was in memory before stays. -/
theorem takeArguments_encoded
    (h : ∀ code ∈ codes, code ≠ 0 → Includes functions target (.fixed .abiDecodeCalldataDynamic))
    (hdata : ctx.callData.length < 2 ^ 256) (hat : EncodedAt ctx.callData 4 head offset ds)
    (hshapes : Forall₂ HasShape codes ds) (w : World) (hlow : 96 ≤ w.freeMemory.toNat)
    (hfits : w.freeMemory.toNat + (tails ds).length < 2 ^ 256) :
    ∃ vs m', takeArguments (within ctx functions (n + 2)) head (codes.map formOf) w =
        .ok (vs, w.withMemory m') ∧
      dataOf m' codes vs = ds ∧
      Forall₂ (Below m' (w.freeMemory.toNat + (tails ds).length)) codes vs ∧
      (m'.readWord 64#256).toNat = w.freeMemory.toNat + (tails ds).length ∧
      ∀ a, 96 ≤ a → a < w.freeMemory.toNat → m' a = w.memory a := by
  induction hshapes generalizing head offset w with
  | nil => exact ⟨[], w.memory, rfl, rfl, .nil, rfl, fun _ _ _ => rfl⟩
  | @cons code d codes ds hshape _ ih =>
    obtain ⟨hfirst, hrest⟩ := forall_mem_cons.1 h
    rw [tails_cons, length_append] at hfits ⊢
    obtain ⟨args, v, m₁, hargs, happly, hfree, hkept, hread⟩ :=
      takeArgument_encoded (n := n) hfirst hdata hat hshape w hlow (by omega)
    have hfree : (w.withMemory m₁).freeMemory.toNat = w.freeMemory.toNat + d.tail.length := hfree
    obtain ⟨vs, m₂, hothers, hvs, hbelow, hfree', hkept'⟩ :=
      ih hrest hat.rest (w.withMemory m₁) (by omega) (by omega)
    rw [hfree] at hbelow hfree' hkept'
    rw [Nat.add_assoc] at hbelow hfree'
    obtain ⟨hv, hvbelow⟩ := hread m₂ hkept'
    refine ⟨v :: vs, m₂, ?_, ?_, .cons (hvbelow.mono (by omega)) hbelow, hfree', fun a hle hlt => ?_⟩
    · rw [map_cons, takeArguments, hargs, headSize_formOf]
      simp only [bind, Except.bind, happly, hothers]
      rfl
    · rw [dataOf_cons, hv, hvs]
    · rw [hkept' a hle (by omega)]
      exact hkept a hle hlt

/-! ## Results in memory -/

/-- The word in the front part of encoded values with number `i`. -/
def frontWord (m : Memory) (payload : Word) (i : Nat) : Word :=
  m.readWord (payload + BitVec.ofNat 256 (32 * i))

/-- The word that is decoded for a value, by its code: the one in the front part, or the place that
this one leads to. -/
def decodedWord (m : Memory) (payload s : Word) (i : Nat) : Word :=
  if s.toNat / 4 ^ i % 4 = 0 then frontWord m payload i else payload + frontWord m payload i

def valuesCode (i : Nat) (names : List String) : List Stmt :=
  (names.zipIdx i).map fun (v, i) => decodeValue v i

theorem exec_decodeValue {m : Machine} (hstart : σ.vars "payload" = some payload)
    (hshapes : σ.vars "shapes" = some s) (hi : 32 * i < 2 ^ 256) (hx : (σ.vars x).isSome) :
    m.exec (decodeValue x i) σ =
      .ok (.next, σ.set x (decodedWord σ.world.memory payload s i)) := by
  have hpayload : m.Yields σ (ident "payload") payload := yields_ident.2 hstart
  have hload : m.Yields σ (Op.mload (Op.add (ident "payload") (num (32 * i))))
      (frontWord σ.world.memory payload i) := (hpayload.add (yields_num hi)).mload
  have hassign : ∀ {e u}, m.Yields σ e u →
      inBlock (m.execAll [.assignOne x e]) σ = .ok (.next, σ.set x u) := by
    intro e u he
    obtain ⟨old, hold⟩ := Option.isSome_iff_exists.1 hx
    rw [(Runs.cons (exec_assignOne hold he) .nil).inBlock,
      Config.leave_of_vars fun y hy => Config.vars_set_none hx (fun _ hz => hz) hy]
  have hshape : m.Yields σ (codeAt "shapes" 2 i 3) (BitVec.ofNat 256 (s.toNat / 4 ^ i % 4)) :=
    yields_codeAt (b := 2) (by decide) (by omega) hshapes
  have hswitch : m.exec (decodeValue x i) σ = _ := exec_switch_zero hshape
  have hsmall : s.toNat / 4 ^ i % 4 < 2 ^ 256 := (Nat.mod_lt _ (by decide)).trans (by decide)
  have hcode : BitVec.ofNat 256 (s.toNat / 4 ^ i % 4) = 0#256 ↔ s.toNat / 4 ^ i % 4 = 0 := by
    rw [← BitVec.toNat_inj, BitVec.toNat_ofNat, Nat.mod_eq_of_lt hsmall]
    rfl
  rw [hswitch, decodedWord]
  by_cases hzero : s.toNat / 4 ^ i % 4 = 0
  · rw [if_pos (hcode.2 hzero), if_pos hzero]
    exact hassign hload
  · rw [if_neg (mt hcode.1 hzero), if_neg hzero]
    exact hassign (hpayload.add hload)

theorem runs_valuesCode {m : Machine} (hstart : σ.vars "payload" = some payload)
    (hshapes : σ.vars "shapes" = some s) (hi : 32 * (i + names.length) < 2 ^ 256)
    (hnames : ∀ x ∈ names, (σ.vars x).isSome) (hapart : ∀ x ∈ names, x ≠ "payload" ∧ x ≠ "shapes") :
    m.Runs (valuesCode i names) σ (σ.setAll (names.zip
      ((range' i names.length).map (decodedWord σ.world.memory payload s)))) := by
  induction names generalizing σ i with
  | nil => exact .nil
  | cons x names ih =>
    obtain ⟨hx, hnames⟩ := forall_mem_cons.1 hnames
    obtain ⟨hxa, hapart⟩ := forall_mem_cons.1 hapart
    rw [length_cons] at hi
    set u := decodedWord σ.world.memory payload s i
    have hset : ∀ y ∈ names, ((σ.set x u).vars y).isSome := fun y hy => by
      rw [Config.vars_set]
      split
      · rfl
      · exact hnames y hy
    exact .cons (exec_decodeValue hstart hshapes (by omega) hx)
      (ih (by simpa [hxa.1.symm] using hstart)
        (by simpa [hxa.2.symm] using hshapes) (by omega) hset hapart)

/-- The results of a call are decoded from every object that has room for their front part. -/
theorem apply_abiDecode_eq (ctx : Context) {arity : Nat}
    (h : Includes functions target (.family .abiDecode arity)) (harity : 32 * arity < 2 ^ 256)
    (data s : Word) (w : World) :
    (within ctx functions (n + 1)).apply (abiDecode.name arity) [data, s] w =
      if (w.memory.readWord data).toNat < 32 * arity then .error (.halted (.revert []) w)
      else .ok ((range arity).map (decodedWord w.memory (data + 32#256) s), w) := by
  set M := within ctx functions n
  set f := abiDecodeDef arity
  set σ := entry f [data, s] w
  have hnodup : (f.params ++ f.returns).Nodup :=
    (abiDecode.scoped_definition arity).2.of_append_left
  obtain ⟨hvars, hreturns⟩ := forall₂_vars_entry hnodup
    (show f.params.length = [data, s].length from rfl)
  obtain ⟨hdata, hvars⟩ := forall₂_cons.1 hvars
  obtain ⟨hword, -⟩ := forall₂_cons.1 hvars
  have hworld : σ.world = w := world_setAll _ _
  have hshort := ((yields_ident.2 hdata : M.Yields σ (ident "data") data).mload).lt
    (yields_num harity)
  rw [hworld, BitVec.ult, BitVec.toNat_ofNat, Nat.mod_eq_of_lt harity] at hshort
  split
  · rename_i hlt
    rw [decide_eq_true hlt] at hshort
    have hfirst : M.execAll f.body σ = .error (.halted (.revert []) w) := by
      rw [show f.body = .ifThen (Op.lt (Op.mload (ident "data")) (num (32 * arity)))
        [Op.revertEmpty] :: f.body.tail from rfl, execAll_cons]
      unfold andThen
      rw [exec_ifThen_of_ne hshort (by decide), ← hworld]
      rfl
    rw [show abiDecode.name arity = (Routine.family .abiDecode arity).name from rfl,
      h.apply_eq (f := f) rfl rfl, hfirst]
    rfl
  · rename_i hge
    rw [decide_eq_false hge] at hshort
    set τ := σ.set "payload" (data + 32#256)
    set names := numbered "v" arity
    have hcount : names.length = arity := by simp [names, numbered]
    have hapart : ∀ x ∈ names, x ≠ "payload" ∧ x ≠ "shapes" := fun x hx =>
      ⟨fun heq => notMem_numbered (by decide) (heq ▸ hx),
        fun heq => notMem_numbered (by decide) (heq ▸ hx)⟩
    have hnames : ∀ x ∈ names, (τ.vars x).isSome := fun x hx => by
      have hzero : σ.vars x = some 0#256 := hreturns x hx
      simp [τ, (hapart x hx).1, hzero]
    have hvalues := runs_valuesCode (m := M) (i := 0)
      (show τ.vars "payload" = some (data + 32#256) by simp [τ]) (by simpa [τ] using hword)
      (by rwa [hcount, Nat.zero_add]) hnames hapart
    rw [hcount, ← range_eq_range', show τ.world.memory = w.memory from
      congrArg World.memory hworld] at hvalues
    set us := (range arity).map (decodedWord w.memory (data + 32#256) s)
    exact h.returns rfl rfl (.append (.cons (exec_ifThen_of_zero hshort)
      (.cons (exec_letOne (yields_ident.2 hdata).dataOf) .nil)) ⟨_, hvalues,
        results_eq (forall₂_vars_setAll (nodup_numbered _ _)
          (show names.length = us.length by simp [us, hcount])), (world_setAll _ _).trans hworld⟩)

/-- Values that stand encoded in memory are decoded to words that stand for them. -/
theorem dataOf_decodedWord (hshapes : Forall₂ HasShape codes ds) (hbytes : m.Has payload.toNat data)
    (hfits : payload.toNat + data.length < 2 ^ 256) (hcodes : ∀ code ∈ codes, code < 3)
    (hs : s.toNat / 4 ^ i = Shape.word 2 codes) (hat : EncodedAt data 0 (32 * i) offset ds) :
    dataOf m codes ((range' i codes.length).map (decodedWord m payload s)) = ds := by
  induction hshapes generalizing i offset with
  | nil => rfl
  | @cons code d codes ds hshape _ ih =>
    obtain ⟨hcode, hcodes⟩ := forall_mem_cons.1 hcodes
    obtain ⟨hfirst, hs⟩ := shiftedCodes (Nat.lt_succ_of_lt hcode) hs rfl
    obtain ⟨hhead, htail⟩ := hat.first
    have hhead_le := hhead.length_le
    have htail_le := htail.length_le
    have hfront : frontWord m payload i = d.head offset := by
      refine Has.readWord_eq ?_
      rw [Word.toNat_add_ofNat (by omega)]
      exact hbytes.part hhead
    have hread : read m code (decodedWord m payload s i) = d := by
      rw [decodedWord, hfirst, hfront]
      cases d with
      | word v =>
        obtain rfl : code = 0 := hshape
        rfl
      | object length content =>
        rw [if_neg hshape.1]
        refine read_of_has hshape ?_
        rw [head, Word.toNat_add_ofNat (by omega)]
        have hobject := (hbytes.part htail).part (hasPart_tail_object length content)
        rwa [Nat.zero_add] at hobject
    rw [length_cons, range'_succ, map_cons, dataOf_cons, hread]
    exact congrArg (d :: ·) (ih hcodes hs hat.rest)

/-- The results of a call that stand encoded in an object are words that stand for the same. -/
theorem apply_abiDecode (ctx : Context)
    (h : Includes functions target (.family .abiDecode codes.length))
    (hshapes : Forall₂ HasShape codes ds) (hcodes : ∀ code ∈ codes, code < 3)
    (hcount : codes.length ≤ 128) (w : World) {data : Word}
    (hfits : data.toNat + 32 + (encoding ds).length < 2 ^ 256) (hdata : w.memory.Has data.toNat
      (Word.toBytes (BitVec.ofNat 256 (encoding ds).length) ++ encoding ds)) :
    ∃ us, (within ctx functions (n + 1)).apply (abiDecode.name codes.length)
        [data, shapeWord codes] w = .ok (us, w) ∧ us.length = codes.length ∧
      dataOf w.memory codes us = ds := by
  obtain ⟨hlength, hbytes⟩ := has_append.1 hdata
  have hplace : (data + 32#256).toNat = data.toNat + 32 := Word.toNat_add_ofNat (by omega)
  rw [Word.length_toBytes, ← hplace] at hbytes
  have henough : ¬ (w.memory.readWord data).toNat < 32 * codes.length := by
    rw [hlength.readWord_eq, BitVec.toNat_ofNat, Nat.mod_eq_of_lt (by omega), length_encoding,
      ← hshapes.length_eq]
    omega
  have happly := apply_abiDecode_eq (n := n) ctx h (by omega) data (shapeWord codes) w
  rw [if_neg henough] at happly
  refine ⟨_, happly, by simp, ?_⟩
  rw [range_eq_range']
  exact dataOf_decodedWord hshapes hbytes (by omega) hcodes (by rw [toNat_shapeWord hcount]; simp)
    (encodedAt_encoding ds)

/-- The bytes that a call gave back are put behind the memory in use, as an object. -/
theorem apply_returndataToMemory (ctx : Context)
    (h : Includes functions target (.fixed .returndataToMemory)) (w : World)
    (hlow : 96 ≤ w.freeMemory.toNat)
    (hfits : w.freeMemory.toNat + (32 + roundUp w.returnData.length) < 2 ^ 256) :
    ∃ m', (within ctx functions (n + 2)).apply returndataToMemory.name [] w =
        .ok ([w.freeMemory], w.withMemory m') ∧
      Placed w.memory w.freeMemory.toNat
        (Word.toBytes (BitVec.ofNat 256 w.returnData.length) ++ w.returnData)
        (BitVec.ofNat 256 (w.freeMemory.toNat + (32 + roundUp w.returnData.length))) m' := by
  have hle := le_roundUp w.returnData.length
  set M := within ctx functions (n + 1)
  set bytes := BitVec.ofNat 256 w.returnData.length
  have hbytes : bytes.toNat = w.returnData.length := Nat.mod_eq_of_lt (by omega)
  have hcopied : ∀ m' place, M.apply "returndatacopy" [place, 0#256, bytes] (w.withMemory m') =
      .ok ([], w.withMemory (m'.write place.toNat w.returnData)) := by
    intro m' place
    have hslice : slice w.returnData (0#256).toNat bytes.toNat = w.returnData := by
      have hwhole : HasPart w.returnData 0 w.returnData := ⟨[], [], by simp, rfl⟩
      rw [hbytes]
      exact hwhole.slice_eq
    have hroom : (0#256).toNat + bytes.toNat ≤ w.returnData.length := by simp [hbytes]
    have happly : M.apply "returndatacopy" [place, 0#256, bytes] (w.withMemory m') =
        .ok ([], w.withMemory (m'.write place.toNat
          (slice w.returnData (0#256).toNat bytes.toNat))) := if_pos hroom
    rw [happly, hslice]
  refine ⟨_, h.returns rfl rfl (.cons (exec_letOne_call .nil rfl) ?_),
    placed_placedMemory bytes hbytes hlow hfits⟩
  exact ends_placingCode _ (h.needed (by decide)) rfl (by rfl) (by rfl) (by rfl) (by decide)
    (fun _ => yields_num (by decide)) hcopied

end

end ContractYul.Coding
