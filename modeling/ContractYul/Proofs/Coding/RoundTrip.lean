import ContractYul.Proofs.Coding.Calls
import ContractYul.Proofs.Coding.Decoding

/-!
# Calls and answers arrive

The caller of a function encodes the arguments and decodes the results with routines of its own, the
entry code of the called contract decodes the arguments and encodes the results in another way. Both
follow one layout, so that each side finds what the other has put there: words are the same words, and
objects have the same length and the same content, at places of their own.

Main statement: `call_roundTrip`.
-/

open List

namespace ContractYul.Coding

open Yul Outcome Machine FixedRoutine RoutineFamily Shape Dispatch

/-! ## Answers -/

theorem storeWords_has (hfits : pos.toNat + 32 * (i + vs.length) < 2 ^ 256) :
    ∃ m', storeWords pos i vs w = .ok (w.withMemory m') ∧
      m'.Has (pos.toNat + 32 * i) (vs.flatMap Word.toBytes) ∧
      ∀ a < pos.toNat + 32 * i, m' a = w.memory a := by
  induction vs generalizing i w with
  | nil => exact ⟨w.memory, rfl, Memory.has_nil _ _, fun _ _ => rfl⟩
  | cons v vs ih =>
    rw [length_cons] at hfits
    have hplace : (pos + BitVec.ofNat 256 (32 * i)).toNat = pos.toNat + 32 * i :=
      Word.toNat_add_ofNat (by omega)
    set m₁ := w.memory.write (pos.toNat + 32 * i) v.toBytes
    obtain ⟨m', hstore, hrest, hfront⟩ := ih (i := i + 1) (by omega)
    refine ⟨m', ?_, Memory.has_append.2 ⟨?_, ?_⟩, fun a ha => ?_⟩
    · rw [storeWords, wordOf_of_lt (by omega)]
      dsimp only [bind, Except.bind]
      rw [hplace]
      exact hstore
    · refine (Memory.has_write w.memory _ v.toBytes).congr fun a _ ha => hfront a ?_
      rwa [Word.length_toBytes] at ha
    · rwa [Word.length_toBytes]
    · rw [hfront a (by omega)]
      exact Memory.write_of_lt ha

theorem encoding_words (hcodes : ∀ code ∈ codes, code = 0) (hlength : codes.length = vs.length) :
    encoding (dataOf m codes vs) = vs.flatMap Word.toBytes := by
  have hparts : ∀ offset, heads offset (dataOf m codes vs) = vs.flatMap Word.toBytes ∧
      tails (dataOf m codes vs) = [] := by
    induction codes generalizing vs with
    | nil =>
      obtain rfl := length_eq_zero_iff.1 hlength.symm
      exact fun _ => ⟨rfl, rfl⟩
    | cons code codes ih =>
      obtain ⟨v, vs, rfl⟩ := exists_cons_of_length_eq_add_one hlength.symm
      obtain ⟨rfl, hrest⟩ := forall_mem_cons.1 hcodes
      intro offset
      obtain ⟨hheads, htails⟩ := ih hrest (by simpa using hlength) offset
      rw [dataOf_cons, tails_cons, htails]
      exact ⟨congrArg (v.toBytes ++ ·) hheads, rfl⟩
  rw [encoding, (hparts _).1, (hparts 0).2, append_nil]

section

variable {ctx : Context} {functions : String → Option Function} {target : Target} {n : Nat}
  {types : List Ty} {codes : List Nat} {vs : List Word}

theorem codes_lt (hcodes : types.mapM ofTy = .ok codes) : ∀ code ∈ codes, code < 3 := by
  intro code hcode
  obtain ⟨t, -, ht⟩ := exists_of_mem_mapM hcodes hcode
  exact (formOf_of_shape ht).2.1

theorem all_isValue_iff (hcodes : types.mapM ofTy = .ok codes) :
    types.all Ty.isValue ↔ ∀ code ∈ codes, code = 0 := by
  have hall := mapM_eq_ok.1 hcodes
  clear hcodes
  induction hall with
  | nil => simp
  | cons hfirst _ ih =>
    rw [all_cons, Bool.and_eq_true, forall_mem_cons]
    exact and_congr (formOf_of_shape hfirst).2.2.symm ih

theorem wordOf_shapes (hcount : codes.length ≤ 128) :
    wordOf (word 2 codes) = .ok (shapeWord codes) := by
  rw [← toNat_shapeWord hcount, wordOf_of_lt (shapeWord codes).isLt, BitVec.ofNat_toNat,
    BitVec.setWidth_eq]

theorem answer_encoding (ctx : Context) (hcodes : types.mapM ofTy = .ok codes)
    (hcount : codes.length ≤ 128)
    (h : ∀ code ∈ codes, code ≠ 0 → Includes functions target (.family .abiEncode codes.length))
    (w : World) (hbelow : Forall₂ (Datum.Below w.memory w.freeMemory.toNat) codes vs)
    (hfits : w.freeMemory.toNat + (encoding (dataOf w.memory codes vs)).length < 2 ^ 256)
    (hlimit : (tails (dataOf w.memory codes vs)).length ≤ n) :
    ∃ w', answer (within ctx functions (n + 3)) types vs w =
      .error (.halted (.return (encoding (dataOf w.memory codes vs))) w') := by
  have hall := mapM_eq_ok.1 hcodes
  have hlength : vs.length = types.length := hbelow.length_eq.symm.trans hall.length_eq.symm
  rw [answer, if_neg (not_not.2 hlength)]
  by_cases hnil : types = []
  · subst hnil
    obtain rfl := forall₂_nil_left_iff.1 hall
    obtain rfl := forall₂_nil_left_iff.1 hbelow
    exact ⟨w, rfl⟩
  rw [if_neg hnil]
  by_cases hwords : types.all Ty.isValue
  · -- words are stored one by one
    rw [encoding_words ((all_isValue_iff hcodes).1 hwords) hbelow.length_eq] at hfits ⊢
    have hbytes : (vs.flatMap Word.toBytes).length = 32 * vs.length := by
      simp [Nat.mul_comm]
    obtain ⟨m', hstore, hhas, -⟩ := storeWords_has
      (show w.freeMemory.toNat + 32 * (0 + vs.length) < 2 ^ 256 by omega)
    rw [Nat.add_zero] at hhas
    refine ⟨w.withMemory m', ?_⟩
    have hsize : (BitVec.ofNat 256 (32 * vs.length)).toNat = (vs.flatMap Word.toBytes).length := by
      rw [hbytes]
      exact Nat.mod_eq_of_lt (by omega)
    rw [if_pos hwords, answerWords, show w.memory.readWord 64#256 = w.freeMemory from rfl,
      hstore, wordOf_of_lt (by omega)]
    dsimp only [bind, Except.bind]
    rw [hsize, World.memory_withMemory, hhas.read_eq]
  · obtain ⟨code, hcode, hne⟩ : ∃ code ∈ codes, code ≠ 0 := by
      by_contra hnone
      push Not at hnone
      exact hwords ((all_isValue_iff hcodes).2 hnone)
    obtain ⟨m', hencode, hhas, -⟩ := apply_abiEncode ctx (h code hcode hne) w hbelow
      (codes_lt hcodes) hcount hfits hlimit
    refine ⟨w.withMemory m', ?_⟩
    rw [if_neg hwords, hcodes]
    dsimp only
    rw [answerEncoded, wordOf_shapes hcount, show w.memory.readWord 64#256 = w.freeMemory from rfl,
      ← hbelow.length_eq]
    dsimp only [bind, Except.bind]
    rw [applyOne_eq hencode]
    dsimp only
    rw [Word.ofNat_add_sub hfits, BitVec.toNat_ofNat, Nat.mod_eq_of_lt (by omega),
      World.memory_withMemory, hhas.read_eq]

end

/-! ## The side of the caller -/

/-- Words stand for values below the end of the memory in use, and there is room for their encoding
behind it. -/
structure Held (codes : List Nat) (vs : List Word) (w : World) : Prop where
  below : Forall₂ (Datum.Below w.memory w.freeMemory.toNat) codes vs
  room : w.freeMemory.toNat + (4 + (encoding (dataOf w.memory codes vs)).length) < 2 ^ 256

/-- The routines of a caller make given data of a selector and arguments, wherever they are put behind
the memory in use, and hand them over to other contracts. -/
def Sends (target : Target) (codes : List Nat) (shapes sel : Word) (vs : List Word) (w : World)
    (data : List UInt8) : Prop :=
  ∀ (ctx : Context) (functions : String → Option Function) (n : Nat), data.length + 5 ≤ n →
    (Includes functions target (.family .abiEncodeSelector codes.length) →
      ∀ dst : Word, w.freeMemory.toNat ≤ dst.toNat → dst.toNat + data.length < 2 ^ 256 →
        ∃ m', (within ctx functions n).apply
            (abiEncodeSelector.name codes.length) (dst :: sel :: shapes :: vs) w =
              .ok ([BitVec.ofNat 256 (dst.toNat + data.length)], w.withMemory m') ∧
          m'.Has dst.toNat data) ∧
    ∀ f opcode value, CallForm f opcode value → Includes functions target (.family f codes.length) →
      ∀ (callee : Word) (amounts : List Word), value.length = amounts.length →
        ∃ m', (within ctx functions n).apply (f.name codes.length)
            (callee :: amounts ++ sel :: shapes :: vs) w =
              handOver (within ctx functions (n - 1)) opcode
                (ctx.gas w.gasReads :: callee :: amounts ++
                  [w.freeMemory, BitVec.ofNat 256 data.length, 0#256, 0#256])
                { w with memory := m', gasReads := w.gasReads + 1 } ∧
          m'.Has w.freeMemory.toNat data

/-- The routines of a caller find given values in the bytes that a call gave back, and in every object
with these bytes. -/
def Unpacks (target : Target) (codes : List Nat) (shapes : Word) (bytes : List UInt8)
    (ds : List Datum) : Prop :=
  ∀ (ctx : Context) (functions : String → Option Function) (n : Nat) (w : World), 2 ≤ n →
    Includes functions target (.family .abiDecode codes.length) →
    (∀ object : Word, object.toNat + 32 + bytes.length < 2 ^ 256 →
      w.memory.Has object.toNat (Word.toBytes (BitVec.ofNat 256 bytes.length) ++ bytes) →
        ∃ us, (within ctx functions n).apply (abiDecode.name codes.length)
            [object, shapes] w = .ok (us, w) ∧ us.length = codes.length ∧
          dataOf w.memory codes us = ds) ∧
    (Includes functions target (.fixed .returndataToMemory) → w.returnData = bytes →
      96 ≤ w.freeMemory.toNat → w.freeMemory.toNat + (32 + roundUp bytes.length) < 2 ^ 256 →
        ∃ object w' us, (within ctx functions n).apply returndataToMemory.name
            [] w = .ok ([object], w') ∧
          (within ctx functions n).apply (abiDecode.name codes.length)
            [object, shapes] w' = .ok (us, w') ∧ us.length = codes.length ∧
          dataOf w'.memory codes us = ds)

/-! ## The side of the called contract -/

/-- A contract to which a call with given data comes: it takes the value that is sent, and its memory
has room for the arguments. -/
structure Called (target : Target) (f : Abi.Function) (codes : List Nat) (data : List UInt8)
    (ctx : Context) (functions : String → Option Function) (w : World) : Prop where
  callData : ctx.callData = data
  value : f.isPayable ∨ ctx.callValue = 0#256
  routine : ∀ code ∈ codes, code ≠ 0 →
    Includes functions target (.fixed .abiDecodeCalldataDynamic)
  low : 96 ≤ w.freeMemory.toNat
  room : w.freeMemory.toNat + data.length < 2 ^ 256

/-- The code of a case calls its function with words that stand for given values, with objects in memory
that was not in use before and is now. When the function ends the call, the code does so, too; what
the function gives is returned in bytes in which a caller finds it. -/
def Serves (target : Target) (f : Abi.Function) (code : List Stmt) (params results : List Nat)
    (returned : Word) (data : List UInt8) (ds : List Datum) : Prop :=
  ∀ (ctx : Context) (functions : String → Option Function) (n : Nat) (σ : Config), 2 ≤ n →
    Called target f params data ctx functions σ.world →
    ∃ args m, dataOf m params args = ds ∧
      Forall₂ (Datum.Below m (m.readWord 64#256).toNat) params args ∧
      (m.readWord 64#256).toNat ≤ σ.world.freeMemory.toNat + data.length ∧
      (∀ a, 96 ≤ a → a < σ.world.freeMemory.toNat → m a = σ.world.memory a) ∧
      (∀ stop, (within ctx functions n).apply f.irName args (σ.world.withMemory m) =
          .error stop → (within ctx functions n).execAll code σ = .error stop) ∧
      ∀ rs w, (within ctx functions n).apply f.irName args (σ.world.withMemory m) =
          .ok (rs, w) → Held results rs w →
        (∀ code ∈ results, code ≠ 0 →
          Includes functions target (.family .abiEncode results.length)) →
        (encoding (dataOf w.memory results rs)).length + 3 ≤ n →
        ∃ bytes w', (within ctx functions n).execAll code σ =
            .error (.halted (.return bytes) w') ∧
          Unpacks target results returned bytes (dataOf w.memory results rs)

/-! ## The two sides together -/

section

variable {target : Target} {codes : List Nat} {vs : List Word}

theorem sends_callData (hcodes : ∀ code ∈ codes, code < 3) (hcount : codes.length ≤ 128)
    (sel : Word) (h : Held codes vs w) :
    Sends target codes (shapeWord codes) sel vs w (callData sel (dataOf w.memory codes vs)) := by
  intro ctx functions n hn
  have hroom := h.room
  rw [← length_callData sel] at hroom
  have htails : (tails (dataOf w.memory codes vs)).length + 5 ≤ n := by
    rw [length_callData, length_encoding] at hn
    omega
  obtain ⟨k, rfl⟩ := Nat.exists_eq_add_of_le' (show 5 ≤ n by omega)
  refine ⟨fun hincludes dst hdst hend => ?_, fun f opcode value hform hincludes callee amounts ha => ?_⟩
  · exact apply_abiEncodeSelector _ hincludes sel w
      (h.below.imp fun _ _ hv => hv.mono hdst) hcodes hcount hend (by omega)
  · exact apply_externalCall hform hincludes w ha h.below hcodes hcount hroom (by omega)

theorem unpacks_encoding (hcodes : ∀ code ∈ codes, code < 3) (hcount : codes.length ≤ 128)
    (hshapes : Forall₂ Datum.HasShape codes ds) :
    Unpacks target codes (shapeWord codes) (encoding ds) ds := by
  intro ctx functions n w hn hincludes
  obtain ⟨k, rfl⟩ := Nat.exists_eq_add_of_le' hn
  refine ⟨fun object hfits hobject => ?_, fun hreturned hbytes hlow hfits => ?_⟩
  · exact apply_abiDecode _ hincludes hshapes hcodes hcount w hfits hobject
  · rw [← hbytes] at hfits
    obtain ⟨m', hplace, hplaced⟩ := apply_returndataToMemory ctx hreturned w hlow
      hfits
    have hobject := hplaced.bytes
    rw [hbytes] at hobject hfits
    have hle := le_roundUp (encoding ds).length
    obtain ⟨us, hdecode, hcounted, hus⟩ := apply_abiDecode ctx hincludes
      hshapes hcodes hcount (w.withMemory m') (by omega) hobject
    exact ⟨w.freeMemory, w.withMemory m', us, hplace, hdecode, hcounted, hus⟩

theorem yields_shapeWord (h : literal codes 2 = .ok shape) :
    codes.length ≤ 128 ∧ ∀ (m : Machine) (σ : Config), m.Yields σ shape (shapeWord codes) := by
  have hcount : codes.length ≤ 128 := by
    unfold literal at h
    split at h
    · cases h
    · omega
  refine ⟨hcount, fun m σ => ?_⟩
  have hgives := gives_shape m (σ := σ) h
  rwa [wordOf_shapes hcount] at hgives

/-- The digits of a shape word are its codes, with 0 behind the last one. -/
theorem word_digit (hcodes : ∀ code ∈ codes, code < 2 ^ bits) (i : Nat) :
    word bits codes / (2 ^ bits) ^ i % 2 ^ bits = codes.getD i 0 := by
  induction codes generalizing i with
  | nil => simp [word]
  | cons code codes ih =>
    obtain ⟨hcode, hcodes⟩ := forall_mem_cons.1 hcodes
    have hstart : word bits (code :: codes) / (2 ^ bits) ^ 0 = word bits (code :: codes) := by simp
    obtain ⟨hfirst, hrest⟩ := shiftedCodes hcode hstart rfl
    cases i with
    | zero => exact hfirst
    | succ i =>
      rw [Nat.zero_add, pow_one] at hrest
      rw [pow_succ', ← Nat.div_div_eq_div_mul, hrest, ih hcodes]
      rfl

/-- A list of codes that fits in a word has a literal, from which the code of each position is read
back. -/
theorem shape_literal_codes {bits : Nat} (hbits : bits = 2 ∨ bits = 8)
    (hcodes : ∀ code ∈ codes, code < 2 ^ bits) :
    ((∃ err, literal codes bits = .error err) ↔ codes.length * bits > 256) ∧
    ∀ e, literal codes bits = .ok e → ∃ (text : String) (w : Word), e = numText text ∧
      (∀ (m : Machine) (σ : Config), m.Yields σ e w) ∧
      ∀ (m : Machine) (σ : Config) (x : String) (i : Nat), σ.vars x = some w →
        bits * i < 2 ^ 256 →
        m.Yields σ (codeAt x bits i (2 ^ bits - 1)) (BitVec.ofNat 256 (codes.getD i 0)) := by
  by_cases hroom : codes.length * bits > 256
  · have hliteral : literal codes bits = _ := if_pos hroom
    rw [hliteral]
    exact ⟨iff_of_true ⟨_, rfl⟩ hroom, fun e h => by cases h⟩
  have hliteral : literal codes bits = _ := if_neg hroom
  have hword : word bits codes < 2 ^ 256 := word_lt_word (Nat.not_lt.1 hroom)
  rw [hliteral]
  refine ⟨iff_of_false (by simp) hroom, fun e h => ?_⟩
  cases h
  refine ⟨_, _, rfl, fun m σ => yields_numText (numberOf?_literal (Nat.not_lt.1 hroom)) hword, ?_⟩
  intro m σ x i hx hi
  have hdigit := yields_codeAt (m := m) (b := bits) (by omega) hi hx
  rwa [BitVec.toNat_ofNat, Nat.mod_eq_of_lt hword, word_digit hcodes] at hdigit

theorem shape_literal_codes_two :
    (∀ code ∈ [1, 0, 2], code < 2 ^ 2) ∧ literal [1, 0, 2] 2 = .ok (numText "0x21") ∧
    ∃ (text : String) (w : Word), numText "0x21" = numText text ∧
      (∀ (m : Machine) (σ : Config), m.Yields σ (numText "0x21") w) ∧
      ∀ (m : Machine) (σ : Config) (x : String) (i : Nat), σ.vars x = some w → 2 * i < 2 ^ 256 →
        m.Yields σ (codeAt x 2 i 3) (BitVec.ofNat 256 ([1, 0, 2].getD i 0)) :=
  have hcodes : ∀ code ∈ [1, 0, 2], code < 2 ^ 2 := by decide
  have hliteral : literal [1, 0, 2] 2 = .ok (numText "0x21") :=
    congrArg (fun text => Except.ok (numText text))
      (by decide : literalText (placeCodes 2 0 [1, 0, 2] (replicate 32 0)) = "0x21")
  ⟨hcodes, hliteral, (shape_literal_codes (.inl rfl) hcodes).2 _ hliteral⟩

variable {f : Abi.Function} {code : List Stmt} {s s' : State} {params results : List Nat}

theorem formsOf_eq (h : (f.params.map (·.ty)).mapM ofTy = .ok params) :
    formsOf f.params = .ok (params.map formOf) := by
  have hall := forall₂_map_left_iff.1 (mapM_eq_ok.1 h)
  refine mapM_eq_ok.2 (forall₂_map_right_iff.2 (hall.imp fun p code hp => ?_))
  exact (formOf_of_shape hp).1

theorem serves_callData (hcase : functionCase target f s = .ok (code, s'))
    (hparams : (f.params.map (·.ty)).mapM ofTy = .ok params)
    (hresults : f.returns.mapM ofTy = .ok results) (hcount : results.length ≤ 128) (sel : Word)
    (hshapes : Forall₂ Datum.HasShape params ds) (hdata : (callData sel ds).length < 2 ^ 256) :
    Serves target f code params results (shapeWord results) (callData sel ds) ds := by
  intro ctx functions n σ hn hcalled
  obtain ⟨k, rfl⟩ := Nat.exists_eq_add_of_le' hn
  set M := within ctx functions (k + 2)
  have hroom := hcalled.room
  have hat : EncodedAt ctx.callData 4 4 (32 * ds.length) ds := by
    have hbehind := (encodedAt_encoding ds).behind (selectorBytes sel)
    rwa [hcalled.callData]
  have htails : (tails ds).length ≤ (callData sel ds).length := by
    rw [length_callData, length_encoding]
    omega
  obtain ⟨args, m, htaken, hds, hbelow, hfree, hkept⟩ := takeArguments_encoded hcalled.routine
    (by rwa [hcalled.callData]) hat hshapes σ.world hcalled.low (by omega)
  -- the code reads the arguments, calls the function and answers
  obtain ⟨forms, hforms, hexec⟩ :=
    execAll_caseCode M σ (caseCode_of_functionCase hcase).1
  obtain rfl : params.map formOf = forms := Except.ok.inj ((formsOf_eq hparams).symm.trans hforms)
  have hvalue : refuseValue M f.isPayable σ.world = .ok () :=
    if_pos (by rw [context_within]; exact hcalled.value)
  rw [enterFunction, hvalue] at hexec
  dsimp only [bind, Except.bind] at hexec
  rw [htaken] at hexec
  rw [← hfree] at hbelow
  refine ⟨args, m, hds, hbelow, by omega, hkept, fun stop hstop => ?_,
    fun rs w hw hheld hincludes hlimit => ?_⟩
  · dsimp only at hexec
    rw [hexec, hstop]
    rfl
  · have hroom := hheld.room
    rw [length_encoding] at hlimit
    obtain ⟨j, hj⟩ : ∃ j, k + 2 = j + 3 := ⟨k - 1, by omega⟩
    have hM : M = within ctx functions (j + 3) := by rw [← hj]
    obtain ⟨w', hanswer⟩ := answer_encoding ctx (n := j) hresults hcount hincludes w
      hheld.below (by omega) (by omega)
    rw [← hM] at hanswer
    dsimp only at hexec
    rw [hw] at hexec
    dsimp only at hexec
    rw [hanswer] at hexec
    refine ⟨_, w', hexec, unpacks_encoding (codes_lt hresults) hcount ?_⟩
    exact hasShape_dataOf hheld.below.length_eq

/-- A call passes on what its arguments stand for, and gives back what the results stand for. The
shapes of both are told by literals. -/
theorem call_roundTrip (hcase : Dispatch.functionCase target f s = .ok (code, s'))
    (hparams : (f.params.map (·.ty)).mapM Shape.ofTy = .ok params)
    (hresults : f.returns.mapM Shape.ofTy = .ok results) {shape shape' : Expr}
    (hshape : Shape.literal params 2 = .ok shape) (hshape' : Shape.literal results 2 = .ok shape') :
    ∃ passed returned,
      (∀ (m : Machine) (σ : Config), m.Yields σ shape passed ∧ m.Yields σ shape' returned) ∧
      ∀ (sel : Word) (vs : List Word) (w : World), Held params vs w →
        Sends target params passed sel vs w (callData sel (dataOf w.memory params vs)) ∧
          Serves target f code params results returned (callData sel (dataOf w.memory params vs))
            (dataOf w.memory params vs) := by
  obtain ⟨hcount, hyields⟩ := yields_shapeWord hshape
  obtain ⟨hcount', hyields'⟩ := yields_shapeWord hshape'
  refine ⟨shapeWord params, shapeWord results, fun m σ => ⟨hyields m σ, hyields' m σ⟩, ?_⟩
  intro sel vs w hheld
  refine ⟨sends_callData (codes_lt hparams) hcount sel hheld, ?_⟩
  refine serves_callData hcase hparams hresults hcount' sel
    (hasShape_dataOf hheld.below.length_eq) ?_
  have hroom := hheld.room
  rw [length_callData]
  omega

end

/-- A function that takes bytes, words and an address, and gives bytes. -/
def courier : Abi.Function :=
  ⟨"carry", "fun_carry", "carry(bytes,uint256[],address)",
    [⟨"note", "bytes", .bytes⟩, ⟨"sums", "u256[]", .array (.uint 256) none⟩,
      ⟨"to", "address", .address⟩],
    [.bytes], .nonPayable⟩

/-- A world with three bytes at 128, one word at 192, and memory in use up to 256. -/
def loaded : World :=
  { (default : World) with
    memory := fun a => ([(94, 1), (159, 3), (160, 97), (161, 98), (162, 99), (223, 1), (255, 7)].lookup
      a).getD 0 }

def carry : Function :=
  ⟨"fun_carry", ["note", "sums", "to"], ["back"], [.assignOne "back" (ident "note")]⟩

def carrying : String → Option Function := fun name =>
  [carry, abiDecodeCalldataDynamicDef, allocateMemoryDef,
    abiEncodeDef 1, abiEncodeItemDef,
    copyMemoryDef .shanghai].find? (·.name == name)

def cargo : List Datum :=
  [.object 3#256 [97, 98, 99], .object 1#256 (Word.toBytes 7#256), .word 5#256]

theorem includes_carrying (hr : r = .fixed .abiDecodeCalldataDynamic ∨ r = .family .abiEncode 1) :
    Includes carrying .shanghai r := by
  intro s hs
  have hmem : s ∈ [.fixed .abiDecodeCalldataDynamic, .fixed .allocateMemory, .family .abiEncode 1,
      .fixed .abiEncodeItem, .fixed .copyMemory] := by
    refine Routine.of_mem_closure (P := (· ∈ _)) (by decide) ?_ hs
    rcases hr with rfl | rfl <;> decide
  simp only [mem_cons, not_mem_nil, or_false] at hmem
  rcases hmem with rfl | rfl | rfl | rfl | rfl <;> rfl

theorem call_roundTrip_courier : ∃ code s' passed returned bytes w,
    Dispatch.functionCase .shanghai courier ⟨.empty, 0⟩ = .ok (code, s') ∧
      Held [1, 2, 0] [128#256, 192#256, 5#256] loaded ∧
      Sends .shanghai [1, 2, 0] passed 0x12345678#256 [128#256, 192#256, 5#256] loaded
        (callData 0x12345678#256 cargo) ∧
      (Machine.within { (default : Context) with callData := callData 0x12345678#256 cargo } carrying
        120).execAll code ⟨fun _ => none, loaded⟩ = .error (.halted (.return bytes) w) ∧
      Unpacks .shanghai [1] returned bytes [.object 3#256 [97, 98, 99]] := by
  obtain ⟨⟨code, s'⟩, hcase, -⟩ := exists_of_map_toOption
    (show (Dispatch.functionCase .shanghai courier ⟨.empty, 0⟩).toOption.map (fun _ => ()) =
      some () by decide +kernel)
  have hheld : Held [1, 2, 0] [128#256, 192#256, 5#256] loaded :=
    ⟨.cons (fun _ => by decide +kernel) (.cons (fun _ => by decide +kernel)
      (.cons (fun h => absurd rfl h) .nil)), by decide +kernel⟩
  have hcargo : dataOf loaded.memory [1, 2, 0] [128#256, 192#256, 5#256] = cargo := by
    decide +kernel
  have hparams : (courier.params.map (·.ty)).mapM Shape.ofTy = .ok [1, 2, 0] := rfl
  have hresults : courier.returns.mapM Shape.ofTy = .ok [1] := rfl
  obtain ⟨passed, returned, -, h⟩ := call_roundTrip hcase hparams hresults rfl rfl
  obtain ⟨hsends, hserves⟩ := h 0x12345678#256 [128#256, 192#256, 5#256] loaded hheld
  rw [hcargo] at hsends hserves
  set ctx : Context := { (default : Context) with callData := callData 0x12345678#256 cargo }
  have hcalled : Called .shanghai courier [1, 2, 0] (callData 0x12345678#256 cargo) ctx carrying
      loaded :=
    ⟨rfl, .inr rfl, fun _ _ _ => includes_carrying (.inl rfl), by decide +kernel, by decide +kernel⟩
  obtain ⟨args, m, hdata, hbelow, hfree, -, -, hanswer⟩ :=
    hserves ctx carrying 120 ⟨fun _ => none, loaded⟩ (by decide) hcalled
  obtain ⟨note, _, hnote, hrest, rfl⟩ := List.forall₂_cons_left_iff.1 hbelow
  obtain ⟨sums, _, -, hlast, rfl⟩ := List.forall₂_cons_left_iff.1 hrest
  obtain ⟨receiver, _, -, hnil, rfl⟩ := List.forall₂_cons_left_iff.1 hlast
  obtain rfl := List.forall₂_nil_left_iff.1 hnil
  -- the function gives its first argument back
  have happly : (Machine.within ctx carrying 120).apply courier.irName [note, sums, receiver]
      (loaded.withMemory m) = .ok ([note], loaded.withMemory m) := by
    set σ := Machine.entry carry [note, sums, receiver] (loaded.withMemory m)
    have hruns : (Machine.within ctx carrying 119).Runs carry.body σ (σ.set "back" note) :=
      .cons (exec_assignOne (v := 0#256) rfl (yields_ident.2 rfl)) .nil
    exact apply_within (f := carry) rfl rfl rfl hruns rfl
  have hback : dataOf m [1] [note] = [.object 3#256 [97, 98, 99]] :=
    congrArg ([·]) (List.cons.inj hdata).1
  have hroom : Held [1] [note] (loaded.withMemory m) := by
    refine ⟨.cons hnote .nil, ?_⟩
    rw [World.memory_withMemory, hback]
    have hcount : loaded.freeMemory.toNat + (callData 0x12345678#256 cargo).length = 484 := by
      decide +kernel
    have hsize : (encoding [.object 3#256 [97, 98, 99]]).length = 96 := by decide +kernel
    dsimp only at hfree
    rw [hsize]
    show (m.readWord 64#256).toNat + (4 + 96) < 2 ^ 256
    omega
  obtain ⟨bytes, w, hexec, hunpacks⟩ := hanswer _ _ happly hroom
    (fun _ _ _ => includes_carrying (.inr rfl)) (by
      rw [World.memory_withMemory, hback]
      decide +kernel)
  rw [World.memory_withMemory, hback] at hunpacks
  exact ⟨code, s', passed, returned, bytes, w, hcase, hheld, hsends, hexec, hunpacks⟩

end ContractYul.Coding
