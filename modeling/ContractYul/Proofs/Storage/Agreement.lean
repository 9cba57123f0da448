import ContractYul.Compilation
import ContractYul.Proofs.Lowering.Elements
import ContractYul.Proofs.Storage.OwnSlot

/-!
# Elements and copies of arrays

An array of values in storage is read and written in two ways: element by element, through the bytes
of the element in its slot, and as a whole, by copying words. The two agree on types whose words are
the same in a slot as in memory. They do not on byte strings shorter than a word, which stand at the
other end of a slot, and where bytes above a value are not those that its word has.

Main statement: `element_copy_agree_iff`.
-/

namespace ContractYul.Lowering

open Yul Machine

/-- An element of an array of values in storage, as lowering meets it. -/
structure ArrayAccess where
  slot : Yul.Expr
  /-- Bytes of the place of the array, which mean nothing for an array. -/
  offset : Nat
  size : Nat
  elem : Ty
  length : Option Nat
  index : Value
  /-- What messages call the array. -/
  name : String

namespace ArrayAccess

def place (a : ArrayAccess) : Place :=
  .storage a.slot a.offset a.size (.array a.elem a.length) false

def element (a : ArrayAccess) : Lower Place :=
  indexPlace a.place a.index a.name

/-- Elements are values, and a literal index is in range. -/
structure Valid (a : ArrayAccess) : Prop where
  wellFormed : a.elem.WellFormed
  isValue : a.elem.isValue
  literal : ∀ n i, a.length = some n → a.index.expr.literalValue? = some i → i < n

/-- Where the code of an access runs: the array lies at a slot that stays the same, no element lies
where its length does, the index is in range, and loops may go round for every element. -/
structure Reaches (a : ArrayAccess) (ctx : Yul.Context) (functions : String → Option Yul.Function)
    (limit n : Nat) (σ : Config) (base i : Word) (count : Nat) : Prop where
  slot : Steady (within ctx functions (limit + 3)) n σ a.slot base
  apart : a.length = none → ∀ j < count, base ≠ dataSlot ctx base + BitVec.ofNat 256 j
  below : i.toNat < count
  rounds : count ≤ limit

/-- An element is written through its place and the whole array is then copied to memory. The copy has
the words of the slots from before, and for the element the word that the slot has after a write of
the value to its bytes. -/
def WrittenThenCopied (a : ArrayAccess) (value : Yul.Expr) (env : Env) (st : State) : Prop :=
  ∃ copy code₁ st₁ code₂ st₂,
    Produces (do store (← a.element) value) env st () code₁ st₁ ∧
    Produces (load a.place) env st₁ copy code₂ st₂ ∧
    ∀ (ctx : Yul.Context) (functions : String → Option Yul.Function) (limit : Nat) (σ : Config)
      (base i v : Word), Supplied functions env.options.target st₂.progress →
      a.Reaches ctx functions limit st.counter σ base i (countOf σ.world base a.length) →
      (within ctx functions (limit + 3)).Yields σ a.index.expr i →
      (∀ τ, Beside st.counter σ τ → (within ctx functions (limit + 3)).Yields τ value v) →
      σ.world.Room (countOf σ.world base a.length) →
      ∃ σ' pointer, (within ctx functions (limit + 3)).Runs (code₁ ++ code₂) σ σ' ∧
        (within ctx functions (limit + 3)).Yields σ' copy.expr pointer ∧
        σ'.world.memory.HasArray pointer (countOf σ.world base a.length) fun j =>
          if j = i.toNat then writtenWord a.elem 0 a.elem.byteSize
            (σ.world.storage (firstSlot ctx base a.length + i)) v
          else σ.world.storage (firstSlot ctx base a.length + BitVec.ofNat 256 j)

/-- An array in memory is copied to the whole array, and an element is then read through its place.
What is read is the value that stands in the bytes of the element of the array in memory. -/
def CopiedThenRead (a : ArrayAccess) (value : Yul.Expr) (env : Env) (st : State) : Prop :=
  ∃ read code₁ st₁ code₂ st₂,
    Produces (store a.place value) env st () code₁ st₁ ∧
    Produces (do load (← a.element)) env st₁ read code₂ st₂ ∧
    ∀ (ctx : Yul.Context) (functions : String → Option Yul.Function) (limit : Nat) (σ : Config)
      (base i pointer : Word), Supplied functions env.options.target st₂.progress →
      a.Reaches ctx functions limit st.counter σ base i (countIn σ.world.memory pointer a.length) →
      Steady (within ctx functions (limit + 3)) st.counter σ a.index.expr i →
      (within ctx functions (limit + 3)).Yields σ value pointer →
      pointer.toNat + 32 + 32 * countIn σ.world.memory pointer a.length ≤ 2 ^ 256 →
      ∃ σ', (within ctx functions (limit + 3)).Runs (code₁ ++ code₂) σ σ' ∧
        (within ctx functions (limit + 3)).Yields σ' read.expr
          (readWord a.elem 0 a.elem.byteSize (σ.world.memory.element pointer i.toNat))

variable {a : ArrayAccess}

/-- A write to an element leaves the number of elements as it is. -/
theorem Reaches.countOf_setSlot (h : a.Reaches ctx functions limit n σ base i count) (w : World)
    (v : Word) :
    countOf (w.setSlot false (firstSlot ctx base a.length + i) v) base a.length =
      countOf w base a.length := by
  cases hlength : a.length with
  | none =>
    have hne := h.apart hlength i.toNat h.below
    rw [BitVec.ofNat_toNat, BitVec.setWidth_eq] at hne
    simp only [countOf, firstSlot, World.storage_setSlot, if_neg hne]
  | some n => rfl

theorem storage_setSlot_add (hcount : count ≤ 2 ^ 256) (hj : j < count) (w : World)
    (first i v : Word) :
    (w.setSlot false (first + i) v).storage (first + BitVec.ofNat 256 j) =
      if j = i.toNat then v else w.storage (first + BitVec.ofNat 256 j) := by
  have hi : BitVec.ofNat 256 i.toNat = i := by simp
  rw [World.storage_setSlot]
  by_cases heq : j = i.toNat
  · rw [if_pos (by rw [heq, hi]), if_pos heq]
  · have hne := Word.add_ofNat_ne first (show j < 2 ^ 256 by omega) i.isLt heq
    rw [hi] at hne
    rw [if_neg hne, if_neg heq]

theorem writtenThenCopied (h : a.Valid) (value : Yul.Expr) (env : Env)
    (st : State) : a.WrittenThenCopied value env st := by
  obtain ⟨e, code, st₀, helement, hlocates⟩ :=
    exists_elementCode h.isValue h.literal a.slot a.offset a.size a.name env st
  have hproduces := helement.bind (f := (store · value))
    (produces_storeElement h.isValue h.wellFormed _ _)
  obtain ⟨st₂, hload, huses⟩ := produces_load h.isValue a.length a.slot a.offset a.size env _
  refine ⟨_, _, _, _, st₂, hproduces, hload, ?_⟩
  intro ctx functions limit σ base i v hsupplied hreaches hindex hvalue hroom
  set m := within ctx functions (limit + 3)
  set first := firstSlot ctx base a.length
  set count := countOf σ.world base a.length with hcount
  have hbound : count < 2 ^ 256 := by
    unfold World.Room at hroom
    omega
  obtain ⟨hpos, hfit⟩ := Ty.byteSize_bounds h.wellFormed
  -- the element is located and written
  obtain ⟨σ₁, hrun, hbeside, hslot⟩ := hlocates ctx functions limit σ base i
    (fun r hr => hsupplied r (hload.routines r hr)) hreaches.slot hindex hreaches.below hbound
  have hstorage : σ₁.world.storage = σ.world.storage := hbeside.storage_eq
  have hold : σ₁.world.slots false (first + i) = σ.world.storage (first + i) := congrFun hstorage _
  have hwrite : m.exec (storageWrite e 0 a.elem.byteSize a.elem false value) σ₁ = _ :=
    exec_storageWrite a.elem false hpos (by omega) hslot (hvalue σ₁ hbeside)
  rw [hold] at hwrite
  set word := writtenWord a.elem 0 a.elem.byteSize (σ.world.storage (first + i)) v
  -- the array is copied
  have hcount' : countOf (σ₁.withSlot false (first + i) word).world base a.length = count := by
    rw [hcount, Config.withSlot, hreaches.countOf_setSlot]
    cases a.length with
    | none => rw [countOf, countOf, hstorage]
    | some n => rfl
  have hfree : (σ₁.withSlot false (first + i) word).world.freeMemory = σ.world.freeMemory :=
    hbeside.freeMemory_eq
  obtain ⟨memory, hcopy, harray⟩ := runs_copyCall ctx limit (tempName _) hsupplied huses
    (hreaches.slot (σ₁.withSlot false (first + i) word) hbeside.vars)
    (by rw [hcount']; exact hreaches.rounds)
    (by rw [World.Room, hfree, hcount']; exact hroom)
  refine ⟨_, _, (hrun.append (.cons hwrite .nil)).append hcopy,
    yields_ident.2 (by rw [Config.vars_set, if_pos rfl]), ?_⟩
  rw [hcount'] at harray
  refine ⟨harray.length, fun j hj => ?_⟩
  refine (harray.element j hj).trans ?_
  rw [Config.withSlot, storage_setSlot_add hbound.le hj, hstorage]

theorem copiedThenRead (h : a.Valid) (value : Yul.Expr) (env : Env)
    (st : State) : a.CopiedThenRead value env st := by
  obtain ⟨st₁, hstore, huses⟩ := produces_store h.isValue a.length a.slot a.offset a.size value env st
  obtain ⟨e, code, st₂, helement, hlocates⟩ :=
    exists_elementCode h.isValue h.literal a.slot a.offset a.size a.name env st₁
  have hproduces := helement.bind (produces_loadElement h.isValue h.wellFormed _)
  refine ⟨_, _, st₁, _, st₂, hstore, hproduces, ?_⟩
  intro ctx functions limit σ base i pointer hsupplied hreaches hindex hvalue hobject
  obtain ⟨hpos, hfit⟩ := Ty.byteSize_bounds h.wellFormed
  -- the array is copied
  obtain ⟨w, hrestore, hcount, hwords⟩ := runs_restoreCall ctx limit
    (fun r hr => hsupplied r (hproduces.routines r hr)) huses hreaches.slot.yields hvalue
    hreaches.rounds hobject hreaches.apart
  -- the element is located and read
  have hkept : ∀ x, ¬ IsTemp st.counter x → (Config.mk σ.vars w).vars x = σ.vars x :=
    fun _ _ => rfl
  obtain ⟨σ₂, hrun, hbeside, hslot⟩ := hlocates ctx functions limit ⟨σ.vars, w⟩ base i hsupplied
    (hreaches.slot.later hstore.counter hkept) (hindex.later hstore.counter hkept).yields
    (hcount ▸ hreaches.below) (by rw [hcount]; omega)
  have hread : (within ctx functions (limit + 3)).Yields σ₂
      (storageRead e 0 a.elem.byteSize a.elem false) _ :=
    yields_storageRead a.elem false hpos (by omega) hslot
  have hword : σ₂.world.slots false (firstSlot ctx base a.length + i) =
      σ.world.memory.element pointer i.toNat := by
    have helement := hwords i.toNat hreaches.below
    rw [BitVec.ofNat_toNat] at helement
    rw [← helement]
    exact congrFun hbeside.storage_eq _
  rw [hword] at hread
  refine ⟨σ₂, hrestore.append ?_, hread⟩
  rw [List.append_nil]
  exact hrun

/-- Element access and copies of the whole array follow the bytes of the element and the words of the
slots. The word of the slot of a value is the value just when the bytes above the value were those of
its word and it is no byte string shorter than a word, unless it is zero; the value that stands in the
bytes of a word is the word except for such byte strings. So the two agree on all values of types that
are stored as they are, and only on some of the others. -/
theorem element_copy_agree_iff {a : ArrayAccess} (h : a.Valid) (value : Yul.Expr) (env : Env)
    (st : State) :
    a.WrittenThenCopied value env st ∧ a.CopiedThenRead value env st ∧
    ∀ old v, a.elem.CanonicalWord v →
      (writtenWord a.elem 0 a.elem.byteSize old v = v ↔
        old >>> (8 * a.elem.byteSize) = v >>> (8 * a.elem.byteSize) ∧
          (a.elem.IsShortBytes → v = 0#256)) ∧
      (readWord a.elem 0 a.elem.byteSize v = v ↔ (a.elem.IsShortBytes → v = 0#256)) ∧
      (a.elem.StoredAsIs → a.elem.CanonicalWord old →
        writtenWord a.elem 0 a.elem.byteSize old v = v) := by
  refine ⟨writtenThenCopied h value env st, copiedThenRead h value env st, fun old v hv => ?_⟩
  exact ⟨writtenWord_eq_iff hv (Ty.byteSize_bounds h.wellFormed).2, readWord_eq_iff h.wellFormed hv,
    fun hraw hold => writtenWord_of_storedAsIs h.wellFormed hraw hold hv⟩

/-! ## An array of numbers -/

def ofNumbers : ArrayAccess where
  slot := num 5
  offset := 0
  size := 32
  elem := .uint 16
  length := none
  index := ⟨ident "var_i", .uint 256⟩
  name := "numbers"

def arrayRoutines : List Routine :=
  [.fixed .allocateMemory, .fixed .arrayDataSlot, .fixed .storageArrayIndex,
    .fixed .storageLoadWords, .fixed .storageLoadArray, .panic outOfBoundsCode]

def arrayTable : String → Option Yul.Function :=
  tableOf .cancun arrayRoutines

/-- The numbers are three. -/
def numbersState : Config where
  vars x := if x = "var_i" then some 1#256 else if x = "var_v" then some 7#256 else none
  world := { (default : World) with
    storage := fun k => if k = 5#256 then 3#256 else 0#256
    memory := Memory.write (fun _ => 0) 64 (Word.toBytes 128#256) }

def numbersEnv : Env :=
  bareEnv "Numbers"

theorem valid_ofNumbers : ofNumbers.Valid :=
  ⟨⟨by decide, by decide, rfl⟩, rfl, fun _ _ hlength => nomatch hlength⟩

/-- The routines that an element and a copy of the array need are in the table. -/
theorem supplied_ofNumbers
    (hwrite : Produces (do store (← ofNumbers.element) (ident "var_v")) numbersEnv { progress := {} }
      () code₁ st₁) (hload : Produces (load ofNumbers.place) numbersEnv st₁ copy code₂ st₂) :
    Supplied arrayTable .cancun st₂.progress :=
  supplied_tableOf (hwrite.bind (f := fun _ => load ofNumbers.place) hload) (by decide +kernel)
    (by decide) .cancun

theorem reaches_ofNumbers :
    ofNumbers.Reaches .hashing arrayTable 3 0 numbersState 5#256 1#256 3
    where
  slot _ _ := yields_num (by decide)
  apart _ := by
    rw [dataSlot_five]
    decide +kernel
  below := by decide
  rounds := le_rfl

theorem element_copy_agree_numbers : ofNumbers.Valid ∧ ∃ copy code₁ st₁ code₂ st₂,
    Produces (do store (← ofNumbers.element) (ident "var_v")) numbersEnv { progress := {} } () code₁
      st₁ ∧
    Produces (load ofNumbers.place) numbersEnv st₁ copy code₂ st₂ ∧
    ∃ σ' pointer, (Machine.within .hashing arrayTable 6).Runs (code₁ ++ code₂) numbersState σ' ∧
      (Machine.within .hashing arrayTable 6).Yields σ' copy.expr pointer ∧
      σ'.world.memory.readWord pointer = 3#256 ∧ σ'.world.memory.element pointer 1 = 7#256 := by
  obtain ⟨⟨copy, code₁, st₁, code₂, st₂, hwrite, hload, hrun⟩, -, hwords⟩ :=
    element_copy_agree_iff valid_ofNumbers (ident "var_v") numbersEnv { progress := {} }
  have hvalue : ∀ τ, Beside 0 numbersState τ →
      (Machine.within .hashing arrayTable 6).Yields τ (ident "var_v") 7#256 := fun τ hτ =>
    Machine.yields_ident.2 (hτ.vars "var_v" (not_isTemp_of_head (by decide)))
  have hroom : numbersState.world.Room 3 := by
    have hfree : numbersState.world.freeMemory = 128#256 := by decide +kernel
    rw [World.Room, hfree]
    decide
  obtain ⟨σ', pointer, hruns, hpointer, harray⟩ := hrun .hashing arrayTable 3 numbersState
    5#256 1#256 7#256 (supplied_ofNumbers hwrite hload) reaches_ofNumbers
    (Machine.yields_ident.2 rfl) hvalue hroom
  refine ⟨valid_ofNumbers, copy, code₁, st₁, code₂, st₂, hwrite, hload, σ', pointer, hruns,
    hpointer, harray.length, ?_⟩
  have hseven : Ty.CanonicalWord (.uint 16) 7#256 := by simp [Ty.CanonicalWord]
  have hold : Ty.CanonicalWord (.uint 16)
      (numbersState.world.storage (firstSlot .hashing 5#256 ofNumbers.length + 1#256)) := by
    rw [show firstSlot .hashing 5#256 ofNumbers.length = _ from dataSlot_five]
    show BitVec.toNat _ < 2 ^ 16
    decide +kernel
  have helement := harray.element 1 (by decide)
  rw [if_pos (show 1 = (1#256).toNat from rfl)] at helement
  exact helement.trans ((hwords _ _ hseven).2.2 trivial hold)

end ArrayAccess

/-! ## An array of tags -/

/-- A class with an array of byte strings shorter than a word. -/
def tagged : Source.File where
  path := "tagged"
  classes := [
    { name := "Tagged"
      fields := [{ name := "tags", ty := "bytes4[2]" }]
      methods := [
        { name := "keep", params := [⟨"v", "bytes4"⟩], returns := ["bytes4[2]"]
          visibility := .private
          body := some [
            .expr (.assign .assign (.index (.member .this "tags") (.number "0")) (.ident "v")),
            .ret (some (.member .this "tags"))] },
        { name := "fill", params := [⟨"vs", "bytes4[2]"⟩], returns := ["bytes4"]
          visibility := .private
          body := some [
            .expr (.assign .assign (.member .this "tags") (.ident "vs")),
            .ret (some (.index (.member .this "tags") (.number "0")))] }] }]

def tag : Word :=
  0x61626364#256 <<< 224

/-- A world without storage and with an array of two tags in memory. -/
def taggedWorld : World :=
  { (default : World) with
    storage := fun _ => 0#256
    memory := Memory.write (Memory.write (fun _ => 0) 64 (Word.toBytes 224#256)) 128
      (Word.toBytes 2#256 ++ tag.toBytes ++ tag.toBytes) }

def runTagged (c : Compiled) (name : String) (args : List Word) : Option (List Word × World) :=
  let functions := Yul.Stmt.definedFunction? c.object.deployed
  ((within default functions 8).runFunction functions name args taggedWorld).toOption

/-- A tag that is written to an element stands at the other end of the word in a copy of the array,
and is not read from its element after the array was copied to storage. -/
theorem short_bytes_not_copied : Ty.CanonicalWord (.fixedBytes 4) tag ∧
    ∃ c, compile {} tagged [] "Tagged" = .ok c ∧
      (runTagged c "fun_keep" [tag]).map (fun r => r.1.map (r.2.memory.element · 0)) =
        some [0x61626364#256] ∧
      taggedWorld.memory.element 128#256 0 = tag ∧
      (runTagged c "fun_fill" [128#256]).map (·.1) = some [0#256] := by
  have hcanonical : Ty.CanonicalWord (.fixedBytes 4) tag := by
    show tag.toNat % 2 ^ (256 - 8 * 4) = 0
    decide +kernel
  refine ⟨hcanonical, ?_⟩
  obtain ⟨c, hc, hruns⟩ := Outcome.exists_of_map_toOption
    (show (compile {} tagged [] "Tagged").toOption.map (fun c =>
      ((runTagged c "fun_keep" [tag]).map (fun r => r.1.map (r.2.memory.element · 0)),
        (runTagged c "fun_fill" [128#256]).map (·.1))) =
      some (some [0x61626364#256], some [0#256]) by decide +kernel)
  obtain ⟨hkeep, hfill⟩ := Prod.mk.inj hruns
  exact ⟨c, hc, hkeep, by decide +kernel, hfill⟩

end ContractYul.Lowering
