import ContractYul.Proofs.Lowering.Elements
import ContractYul.Proofs.Routine.Mappings

/-!
# Entries of nested mappings

An entry of a mapping of mappings is reached level by level: the place of the entry of one level is the
mapping of the next. The code for a level hashes the key and the slot of the mapping and keeps the
result in a temporary.

Main statement: `EntryAccess.nested_entries_distinct`. Two accesses to mappings of one type lead to the
same slot only if they start from the same slot and have the same keys.
-/

open List

namespace ContractYul.Lowering

open Yul Machine

/-! ## States while keys are hashed -/

/-- Nothing changed but temporaries with numbers above `n`, the words of memory for hashing, and memory
that is not in use. -/
structure KeepsUsed (n : Nat) (σ τ : Config) : Prop where
  vars : ∀ x, ¬ IsTemp n x → τ.vars x = σ.vars x
  world : ∃ memory, τ.world = σ.world.withMemory memory ∧
    ∀ a, 64 ≤ a → a < σ.world.freeMemory.toNat → memory a = σ.world.memory a

namespace KeepsUsed

theorem refl (n : Nat) (σ : Config) : KeepsUsed n σ σ :=
  ⟨fun _ _ => rfl, σ.world.memory, rfl, fun _ _ _ => rfl⟩

theorem memory_eq (h : KeepsUsed n σ τ) (hlow : 64 ≤ a) (ha : a < σ.world.freeMemory.toNat) :
    τ.world.memory a = σ.world.memory a := by
  obtain ⟨memory, hworld, hsame⟩ := h.world
  rw [hworld, World.memory_withMemory, hsame a hlow ha]

/-- The end of the memory in use stays, as its word is in use itself. -/
theorem freeMemory_eq (h : KeepsUsed n σ τ) (hused : 96 ≤ σ.world.freeMemory.toNat) :
    τ.world.freeMemory = σ.world.freeMemory :=
  Memory.readWord_congr fun a (hle : 64 ≤ a) (hlt : a < 96) => h.memory_eq hle (by omega)

theorem trans (h : KeepsUsed n σ τ) (h' : KeepsUsed k τ ρ) (hk : n ≤ k)
    (hused : 96 ≤ σ.world.freeMemory.toNat) : KeepsUsed n σ ρ where
  vars x hx := (h'.vars x fun ht => hx (ht.mono hk)).trans (h.vars x hx)
  world := by
    have hfree := h.freeMemory_eq hused
    obtain ⟨memory, hworld, hsame⟩ := h.world
    obtain ⟨memory', hworld', hsame'⟩ := h'.world
    refine ⟨memory', by rw [hworld', hworld, World.withMemory_withMemory], fun a hlow ha => ?_⟩
    rw [hsame' a hlow (by rwa [hfree]), hworld, World.memory_withMemory, hsame a hlow ha]

theorem set_temp (n : Nat) (σ : Config) (v : Word)
    (hsame : ∀ a, 64 ≤ a → a < σ.world.freeMemory.toNat → memory a = σ.world.memory a) :
    KeepsUsed n σ ((Config.mk σ.vars (σ.world.withMemory memory)).set (tempName (n + 1)) v) where
  vars _ := vars_set_temp
  world := ⟨memory, rfl, hsame⟩

end KeepsUsed

/-- An expression has a word as its value, also while keys are hashed. -/
def Lasts (m : Machine) (n : Nat) (σ : Config) (e : Yul.Expr) (v : Word) : Prop :=
  ∀ τ, KeepsUsed n σ τ → m.Yields τ e v

section

theorem Lasts.yields (h : Lasts m n σ e v) : m.Yields σ e v :=
  h σ (.refl n σ)

theorem Lasts.later (h : Lasts m n σ e v) (hk : n ≤ k) (hσ : KeepsUsed n σ τ)
    (hused : 96 ≤ σ.world.freeMemory.toNat) : Lasts m k τ e v :=
  fun _ hρ => h _ (hσ.trans hρ hk hused)

theorem lasts_temp (h : σ.vars (tempName n) = some v) : Lasts m n σ (ident (tempName n)) v :=
  fun _ hτ => yields_ident.2 ((hτ.vars _ (not_isTemp_temp n)).trans h)

end

/-! ## Levels -/

/-- A level of a nested mapping: the type of its keys, and the value that an access takes for the key. -/
structure Level where
  key : Ty
  index : Value

/-- The value of a level stands for a key, also while keys are hashed. -/
def Level.Keyed (m : Machine) (n : Nat) (σ : Config) (l : Level) (k : Key) : Prop :=
  k.OfType l.key ∧ ∃ v, Lasts m n σ l.index.expr v ∧
    k.At σ.world.memory σ.world.freeMemory.toNat v

theorem Level.Keyed.later {l : Level} {key : Key} (h : l.Keyed m n σ key) (hk : n ≤ k)
    (hσ : KeepsUsed n σ τ) (hused : 96 ≤ σ.world.freeMemory.toNat) : l.Keyed m k τ key := by
  obtain ⟨htype, v, hv, hat⟩ := h
  refine ⟨htype, v, hv.later hk hσ hused, ?_⟩
  rw [hσ.freeMemory_eq hused]
  exact hat.congr fun a hlow ha => hσ.memory_eq hlow ha

def nested (value : Ty) (levels : List Level) : Ty :=
  levels.foldr (fun l t => .mapping l.key t) value

def entryPlace (name : String) (base : Place) (levels : List Level) : Lower Place :=
  levels.foldlM (fun place l => indexPlace place l.index name) base

def Enters (target : Target) (n : Nat) (p : Progress) (slot : Yul.Expr) (levels : List Level)
    (code : List Yul.Stmt) (e : Yul.Expr) : Prop :=
  ∀ (ctx : Yul.Context) (functions : String → Option Yul.Function) (limit : Nat) (σ : Config)
    (base : Word) (keys : List Key), Supplied functions target p →
    Lasts (within ctx functions (limit + 3)) n σ slot base →
    Forall₂ (Level.Keyed (within ctx functions (limit + 3)) n σ) levels keys →
    96 ≤ σ.world.freeMemory.toNat → (∀ k ∈ keys, k.size ≤ limit) →
    ∃ σ', (within ctx functions (limit + 3)).Runs code σ σ' ∧ KeepsUsed n σ σ' ∧
      (within ctx functions (limit + 3)).Yields σ' e (entrySlot ctx.keccak base keys)

theorem produces_mappingEntry (slot : Yul.Expr) (offset size : Nat) (key value : Ty)
    (transient : Bool) (index : Value) (name : String) (env : Env) (st : State) : ∃ st',
    Produces (indexPlace (.storage slot offset size (.mapping key value) transient) index name) env
      st (wholeSlot (ident (tempName (st.counter + 1))) value transient)
      [.letOne (tempName (st.counter + 1)) ((hashRoutine key).call [index.expr, slot])] st' ∧
    st'.counter = st.counter + 1 ∧ st'.progress.registry.contains (.fixed (hashRoutine key)) :=
  ⟨_, (produces_routine _ _).bind (produces_capture_call.bind (produces_pure _)), rfl,
    Registry.contains_add _ rfl⟩

theorem runs_mappingEntry {l : Level} {slot : Yul.Expr} {base : Word} (ctx : Yul.Context)
    (hsupplied : Supplied functions target p)
    (huses : p.registry.contains (.fixed (hashRoutine l.key)))
    (hslot : (within ctx functions (limit + 3)).Yields σ slot base)
    (hkey : l.Keyed (within ctx functions (limit + 3)) n σ key) (hsize : key.size ≤ limit) :
    ∃ σ', (within ctx functions (limit + 3)).Runs
        [.letOne (tempName (n + 1)) ((hashRoutine l.key).call [l.index.expr, slot])] σ σ' ∧
      KeepsUsed n σ σ' ∧
      σ'.vars (tempName (n + 1)) = some (ctx.keccak (key.toBytes ++ base.toBytes)) := by
  obtain ⟨htype, v, hv, hat⟩ := hkey
  obtain ⟨memory, happly, hsame⟩ :=
    apply_hashRoutine ctx (hsupplied _ huses) htype base σ.world hat hsize
  have hexec : (within ctx functions (limit + 3)).exec (.letOne (tempName (n + 1))
      ((hashRoutine l.key).call [l.index.expr, slot])) σ = _ :=
    exec_letOne_call (.cons hv.yields (.cons hslot .nil)) happly
  exact ⟨_, .cons hexec .nil, .set_temp n σ _ hsame, by simp⟩

theorem exists_entryCode (levels : List Level) (slot : Yul.Expr) (offset size : Nat) (value : Ty)
    (transient : Bool) (name : String) (env : Env) (st : State) :
    ∃ e offset' size' code st',
      Produces (entryPlace name (.storage slot offset size (nested value levels) transient) levels)
        env st (.storage e offset' size' value transient) code st' ∧
      Enters env.options.target st.counter st'.progress slot levels code e := by
  induction levels generalizing slot offset size st with
  | nil =>
    refine ⟨slot, offset, size, [], st, produces_pure _, ?_⟩
    intro ctx functions limit σ base keys _ hslot hkeys _ _
    obtain rfl := forall₂_nil_left_iff.1 hkeys
    exact ⟨σ, .nil, .refl _ σ, hslot.yields⟩
  | cons l levels ih =>
    obtain ⟨st₁, hfirst, hcounter, huses⟩ := produces_mappingEntry slot offset size l.key
      (nested value levels) transient l.index name env st
    obtain ⟨e, offset', size', code, st', hrest, henters⟩ :=
      ih (ident (tempName (st.counter + 1))) 0 (slotSize (nested value levels)) st₁
    refine ⟨e, offset', size', [.letOne (tempName (st.counter + 1))
      ((hashRoutine l.key).call [l.index.expr, slot])] ++ code, st', ?_, ?_⟩
    · unfold entryPlace
      exact hfirst.bind hrest
    · intro ctx functions limit σ base keys hsupplied hslot hkeys hused hsizes
      obtain ⟨key, keys, hkey, hothers, rfl⟩ := forall₂_cons_left_iff.1 hkeys
      obtain ⟨hsize, hsizes⟩ := forall_mem_cons.1 hsizes
      obtain ⟨σ₁, hrun, hkeeps, htemp⟩ := runs_mappingEntry ctx
        hsupplied (hrest.routines _ huses) hslot.yields hkey hsize
      -- the next level starts from the slot in the temporary
      have hle : st.counter ≤ st₁.counter := by omega
      have hused₁ : 96 ≤ σ₁.world.freeMemory.toNat := by rwa [hkeeps.freeMemory_eq hused]
      have hslot₁ : Lasts (within ctx functions (limit + 3)) st₁.counter σ₁
          (ident (tempName (st.counter + 1))) (ctx.keccak (key.toBytes ++ base.toBytes)) := by
        rw [hcounter]
        exact lasts_temp htemp
      obtain ⟨σ', hrun', hkeeps', hyields⟩ := henters ctx functions limit σ₁ _ keys hsupplied hslot₁
        (hothers.imp fun _ _ h => h.later hle hkeeps hused) hused₁ hsizes
      exact ⟨σ', hrun.append hrun', hkeeps.trans hkeeps' hle hused, hyields⟩

/-! ## Accesses -/

structure EntryAccess where
  slot : Yul.Expr
  offset : Nat
  size : Nat
  value : Ty
  transient : Bool
  levels : List Level
  name : String

namespace EntryAccess

def base (a : EntryAccess) : Place :=
  .storage a.slot a.offset a.size (nested a.value a.levels) a.transient

def entry (a : EntryAccess) : Lower Place :=
  entryPlace a.name a.base a.levels

/-- Where the code of an access runs: the mapping lies at a slot, the values of the levels stand for
keys, and loops may go round for every byte of a key. -/
structure Reaches (a : EntryAccess) (ctx : Yul.Context) (functions : String → Option Yul.Function)
    (limit n : Nat) (σ : Config) (place : Word) (keys : List Key) : Prop where
  slot : Lasts (within ctx functions (limit + 3)) n σ a.slot place
  indices : Forall₂ (Level.Keyed (within ctx functions (limit + 3)) n σ) a.levels keys
  used : 96 ≤ σ.world.freeMemory.toNat
  rounds : ∀ k ∈ keys, k.size ≤ limit

theorem Reaches.ofType {a : EntryAccess} {ctx : Yul.Context} {keys : List Key}
    (h : a.Reaches ctx functions limit n σ place keys) :
    Forall₂ Key.OfType (a.levels.map (·.key)) keys :=
  forall₂_map_left_iff.2 (h.indices.imp fun _ _ hkey => hkey.1)

/-- The code for an entry computes a slot, and leaves the memory in use behind the words for hashing as
it is. The slots of two entries of mappings with the same types of keys are the same only for the same
keys in mappings at the same slot, when no two of the byte strings that are hashed collide. -/
theorem nested_entries_distinct {a b : EntryAccess}
    (htypes : a.levels.map (·.key) = b.levels.map (·.key)) (env : Env) (st₁ st₂ : State) :
    ∃ e₁ offset₁ size₁ code₁ st₁' e₂ offset₂ size₂ code₂ st₂',
      Produces a.entry env st₁ (.storage e₁ offset₁ size₁ a.value a.transient) code₁ st₁' ∧
      Produces b.entry env st₂ (.storage e₂ offset₂ size₂ b.value b.transient) code₂ st₂' ∧
      ∀ (ctx : Yul.Context) (functions : String → Option Yul.Function) (limit : Nat)
        (σ₁ σ₂ : Config) (s₁ s₂ : Word) (keys₁ keys₂ : List Key),
        Supplied functions env.options.target st₁'.progress →
        Supplied functions env.options.target st₂'.progress →
        a.Reaches ctx functions limit st₁.counter σ₁ s₁ keys₁ →
        b.Reaches ctx functions limit st₂.counter σ₂ s₂ keys₂ →
        ∃ τ₁ τ₂ u₁ u₂,
          (Machine.within ctx functions (limit + 3)).Runs code₁ σ₁ τ₁ ∧
          KeepsUsed st₁.counter σ₁ τ₁ ∧
          (Machine.within ctx functions (limit + 3)).Yields τ₁ e₁ u₁ ∧
          (Machine.within ctx functions (limit + 3)).Runs code₂ σ₂ τ₂ ∧
          KeepsUsed st₂.counter σ₂ τ₂ ∧
          (Machine.within ctx functions (limit + 3)).Yields τ₂ e₂ u₂ ∧
          (Set.InjOn ctx.keccak {p | p ∈ entryHashes ctx.keccak s₁ keys₁ ∨
              p ∈ entryHashes ctx.keccak s₂ keys₂} →
            (u₁ = u₂ ↔ s₁ = s₂ ∧ keys₁ = keys₂)) := by
  obtain ⟨e₁, offset₁, size₁, code₁, st₁', hproduces₁, henters₁⟩ :=
    exists_entryCode a.levels a.slot a.offset a.size a.value a.transient a.name env st₁
  obtain ⟨e₂, offset₂, size₂, code₂, st₂', hproduces₂, henters₂⟩ :=
    exists_entryCode b.levels b.slot b.offset b.size b.value b.transient b.name env st₂
  refine ⟨e₁, offset₁, size₁, code₁, st₁', e₂, offset₂, size₂, code₂, st₂', hproduces₁, hproduces₂,
    fun ctx functions limit σ₁ σ₂ s₁ s₂ keys₁ keys₂ hsupplied₁ hsupplied₂ ha hb => ?_⟩
  obtain ⟨τ₁, hrun₁, hkeeps₁, hyields₁⟩ := henters₁ ctx functions limit σ₁ s₁ keys₁ hsupplied₁
    ha.slot ha.indices ha.used ha.rounds
  obtain ⟨τ₂, hrun₂, hkeeps₂, hyields₂⟩ := henters₂ ctx functions limit σ₂ s₂ keys₂ hsupplied₂
    hb.slot hb.indices hb.used hb.rounds
  refine ⟨τ₁, τ₂, _, _, hrun₁, hkeeps₁, hyields₁, hrun₂, hkeeps₂, hyields₂, fun hhash => ?_⟩
  have hkeys₂ := hb.ofType
  rw [← htypes] at hkeys₂
  exact entrySlot_eq_iff ha.ofType hkeys₂ hhash

/-! ## A mapping of scores -/

/-- An entry of a mapping by names of mappings by numbers. -/
def ofScores : EntryAccess where
  slot := num 5
  offset := 0
  size := 32
  value := .uint 8
  transient := false
  levels := [⟨.string, ident "var_name", .string⟩, ⟨.uint 256, ident "var_i", .uint 256⟩]
  name := "scores"

def scoresRoutines : List Routine :=
  [.fixed .copyMemory, .fixed .mappingSlot, .fixed .mappingSlotBytes]

def scoresTable : String → Option Yul.Function :=
  tableOf .cancun scoresRoutines

def scoresWorld : World :=
  { (default : World) with
    memory := Memory.write (Memory.write (fun _ => 0) 64 (Word.toBytes 160#256)) 128
      (Word.toBytes 0#256) }

theorem freeMemory_scoresWorld : scoresWorld.freeMemory = 160#256 := by decide +kernel

def scoresState (i : Word) : Config where
  vars x := if x = "var_i" then some i else if x = "var_name" then some 128#256 else none
  world := scoresWorld

theorem supplied_ofScores
    (h : Produces ofScores.entry (bareEnv "Scores") { progress := {} } place code st) :
    Supplied scoresTable .cancun st.progress :=
  supplied_tableOf h (by decide +kernel) (by decide) .cancun

theorem reaches_ofScores (i : Word) :
    ofScores.Reaches .hashing scoresTable 2 0 (scoresState i) 5#256 [.bytes [], .word i] where
  slot _ _ := yields_num (by decide)
  indices := by
    have hname : scoresWorld.memory.Has 128 (Word.toBytes 0#256 ++ []) := Memory.has_write _ _ _
    refine .cons ⟨rfl, 128#256, fun τ hτ => ?_, ?_⟩ (.cons ⟨rfl, i, fun τ hτ => ?_, rfl⟩ .nil)
    · exact yields_ident.2 (hτ.vars "var_name" (not_isTemp_of_head (by decide)))
    · rw [scoresState, freeMemory_scoresWorld]
      exact ⟨by decide, by decide, by decide, hname⟩
    · exact yields_ident.2 (hτ.vars "var_i" (not_isTemp_of_head (by decide)))
  used := by
    rw [scoresState, freeMemory_scoresWorld]
    decide
  rounds := by simp [Key.size]

/-- What is hashed in the second step for the score of the empty name. The first step gives the place
where the elements of an array would start. -/
def scoreBytes (i : Word) : List UInt8 :=
  i.toBytes ++ Word.toBytes (dataSlot .hashing 5#256)

theorem entryHashes_scores (i : Word) :
    entryHashes Context.hashing.keccak 5#256 [.bytes [], .word i] =
      [Word.toBytes 5#256, scoreBytes i] := rfl

theorem injOn_scores : Set.InjOn Context.hashing.keccak
    {p | p ∈ entryHashes Context.hashing.keccak 5#256 [.bytes [], .word 1#256] ∨
      p ∈ entryHashes Context.hashing.keccak 5#256 [.bytes [], .word 2#256]} := by
  have hname : (dataSlot .hashing 5#256).toNat % 4 = 0 := by
    rw [dataSlot_five]
    rfl
  -- one hash at a time, since the evaluation of each takes much memory
  have hone : (Context.hashing.keccak (scoreBytes 1#256)).toNat % 4 = 2 := by
    rw [scoreBytes, dataSlot_five]
    decide +kernel
  have htwo : (Context.hashing.keccak (scoreBytes 2#256)).toNat % 4 = 1 := by
    rw [scoreBytes, dataSlot_five]
    decide +kernel
  have hnodup : ([Word.toBytes 5#256, scoreBytes 1#256, scoreBytes 2#256].map
      fun p => (Context.hashing.keccak p).toNat % 4).Nodup := by
    rw [dataSlot] at hname
    simp [hname, hone, htwo]
  refine fun p hp q hq heq => List.inj_on_of_nodup_map hnodup ?_ ?_ (congrArg (·.toNat % 4) heq)
  all_goals grind [entryHashes_scores]

/-- The scores of one name under two numbers have different slots. -/
theorem nested_entries_distinct_scores : ∃ e offset size code st,
    Produces ofScores.entry (bareEnv "Scores") { progress := {} }
      (.storage e offset size (.uint 8) false) code st ∧
    ∃ τ₁ τ₂ u₁ u₂,
      (Machine.within .hashing scoresTable 5).Runs code (scoresState 1#256) τ₁ ∧
      (Machine.within .hashing scoresTable 5).Yields τ₁ e u₁ ∧
      (Machine.within .hashing scoresTable 5).Runs code (scoresState 2#256) τ₂ ∧
      (Machine.within .hashing scoresTable 5).Yields τ₂ e u₂ ∧ u₁ ≠ u₂ := by
  obtain ⟨e₁, offset₁, size₁, code₁, st₁, e₂, offset₂, size₂, code₂, st₂, h₁, h₂, hruns⟩ :=
    nested_entries_distinct (a := ofScores) (b := ofScores) rfl (bareEnv "Scores") { progress := {} }
      { progress := {} }
  obtain ⟨hplace, rfl⟩ := Outcome.pair_inj (h₁.run.symm.trans h₂.run)
  obtain ⟨rfl, rfl, rfl, -, -⟩ := Place.storage.inj hplace
  obtain rfl : code₁ = code₂ := List.append_cancel_left (h₁.code_eq.symm.trans h₂.code_eq)
  obtain ⟨τ₁, τ₂, u₁, u₂, hrun₁, -, hu₁, hrun₂, -, hu₂, hiff⟩ := hruns .hashing scoresTable 2
    (scoresState 1#256) (scoresState 2#256) 5#256 5#256 _ _ (supplied_ofScores h₁)
    (supplied_ofScores h₁) (reaches_ofScores 1#256) (reaches_ofScores 2#256)
  refine ⟨e₁, offset₁, size₁, code₁, st₁, h₁, τ₁, τ₂, u₁, u₂, hrun₁, hu₁, hrun₂, hu₂, fun heq => ?_⟩
  exact absurd ((hiff injOn_scores).1 heq).2 (by decide)

end EntryAccess

end ContractYul.Lowering
