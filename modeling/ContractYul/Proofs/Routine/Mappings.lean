import ContractYul.Proofs.Routine.Arrays

/-!
# Slots of entries of mappings

The slot of an entry is the hash of its key and of the slot of the mapping. A key that is a word is
hashed in the first two words of memory, a byte string behind the memory in use, without padding. For a
mapping of mappings the slot of an entry of one level is the slot of the mapping of the next.

Main statements:
* `entrySlot_eq_iff`: entries with other keys or of other mappings have other slots;
* `apply_hashRoutine`: what the routines for both kinds of keys compute, and which memory they leave.
-/

open List

namespace ContractYul

open Yul Machine FixedRoutine Memory

/-! ## Keys -/

inductive Key where
  | word (w : Word)
  | bytes (content : List UInt8)
  deriving DecidableEq

namespace Key

def toBytes : Key → List UInt8
  | word w => w.toBytes
  | bytes content => content

def size : Key → Nat
  | word _ => 0
  | bytes content => content.length

def OfType (t : Ty) : Key → Prop
  | word _ => t.isBytesLike = false
  | bytes _ => t.isBytesLike

/-- A word stands for a key: it is the key, or the address of an object in the memory in use that has
its bytes. There is room for the bytes and a word behind the memory in use. -/
def At (m : Memory) (top : Nat) (v : Word) : Key → Prop
  | word w => v = w
  | bytes content => 64 ≤ v.toNat ∧ v.toNat + 32 + content.length ≤ top ∧
      top + content.length + 32 ≤ 2 ^ 256 ∧
      m.Has v.toNat (Word.toBytes (BitVec.ofNat 256 content.length) ++ content)

theorem At.congr {k : Key} (h : k.At m top v) (hsame : ∀ a, 64 ≤ a → a < top → m' a = m a) :
    k.At m' top v := by
  cases k with
  | word w => exact h
  | bytes content =>
    obtain ⟨hlow, htop, hroom, hhas⟩ := h
    refine ⟨hlow, htop, hroom, hhas.congr fun a hle hlt => hsame a (by omega) ?_⟩
    rw [length_append, Word.length_toBytes] at hlt
    omega

theorem toBytes_inj {k l : Key} (hk : k.OfType t) (hl : l.OfType t) :
    k.toBytes = l.toBytes ↔ k = l := by
  refine ⟨fun h => ?_, fun h => congrArg toBytes h⟩
  cases k with
  | word w =>
    cases l with
    | word u =>
      have hword := congrArg Word.ofBytes h
      rw [toBytes, toBytes, Word.ofBytes_toBytes, Word.ofBytes_toBytes] at hword
      rw [hword]
    | bytes content => exact absurd (hk.symm.trans hl) (by decide)
  | bytes content =>
    cases l with
    | word u => exact absurd (hl.symm.trans hk) (by decide)
    | bytes other => exact congrArg bytes h

end Key

/-! ## Slots -/

def entrySlot (hash : List UInt8 → Word) : Word → List Key → Word
  | slot, [] => slot
  | slot, k :: ks => entrySlot hash (hash (k.toBytes ++ slot.toBytes)) ks

def entryHashes (hash : List UInt8 → Word) : Word → List Key → List (List UInt8)
  | _, [] => []
  | slot, k :: ks =>
    (k.toBytes ++ slot.toBytes) :: entryHashes hash (hash (k.toBytes ++ slot.toBytes)) ks

/-- What is hashed ends in the slot, so it tells the key and the slot. -/
theorem preimage_inj {k l : Key} (hk : k.OfType t) (hl : l.OfType t) {s s' : Word} :
    k.toBytes ++ s.toBytes = l.toBytes ++ s'.toBytes ↔ s = s' ∧ k = l := by
  constructor
  · intro h
    obtain ⟨hkey, hslot⟩ := append_inj' h (by rw [Word.length_toBytes, Word.length_toBytes])
    have hword := congrArg Word.ofBytes hslot
    rw [Word.ofBytes_toBytes, Word.ofBytes_toBytes] at hword
    exact ⟨hword, (Key.toBytes_inj hk hl).1 hkey⟩
  · rintro ⟨rfl, rfl⟩
    rfl

/-- Two entries of nested mappings with the same types of keys have one slot only if they are the same
entry of the same mapping, when no two of the byte strings that are hashed for them collide. -/
theorem entrySlot_eq_iff {hash : List UInt8 → Word} (hks : Forall₂ Key.OfType ts ks)
    (hls : Forall₂ Key.OfType ts ls)
    (hhash : Set.InjOn hash {p | p ∈ entryHashes hash s ks ∨ p ∈ entryHashes hash s' ls}) :
    entrySlot hash s ks = entrySlot hash s' ls ↔ s = s' ∧ ks = ls := by
  induction hks generalizing ls s s' with
  | nil =>
    obtain rfl := forall₂_nil_left_iff.1 hls
    simp [entrySlot]
  | @cons t k ts ks hk _ ih =>
    obtain ⟨l, ls, hl, hrest, rfl⟩ := forall₂_cons_left_iff.1 hls
    have hfirst : hash (k.toBytes ++ s.toBytes) = hash (l.toBytes ++ s'.toBytes) ↔ s = s' ∧ k = l :=
      (hhash.eq_iff (.inl mem_cons_self) (.inr mem_cons_self)).trans (preimage_inj hk hl)
    have hbehind := ih hrest (hhash.mono fun p hp =>
      hp.imp (mem_cons_of_mem _) (mem_cons_of_mem _))
    rw [entrySlot, entrySlot, hbehind, hfirst, cons.injEq, and_assoc]

/-! ## Routines -/

def hashRoutine (t : Ty) : FixedRoutine :=
  if t.isBytesLike then .mappingSlotBytes else .mappingSlot

section

/-- A key that is a word is hashed in the first two words of memory. -/
theorem apply_mappingSlot (ctx : Context) (h : Includes functions target (.fixed .mappingSlot))
    (key slot : Word) (w : World) :
    (within ctx functions (n + 1)).apply mappingSlot.name [key, slot] w =
      .ok ([ctx.keccak (key.toBytes ++ slot.toBytes)],
        w.withMemory ((w.memory.write 0 key.toBytes).write 32 slot.toBytes)) := by
  have hbytes : ((w.memory.write 0 key.toBytes).write 32 slot.toBytes).Has 0
      (key.toBytes ++ slot.toBytes) := by
    refine has_append.2 ⟨?_, ?_⟩
    · refine (has_write w.memory 0 key.toBytes).congr fun a _ ha => write_of_lt ?_
      rwa [Word.length_toBytes] at ha
    · exact has_write _ _ _
  refine h.returns rfl rfl ?_
  refine .cons (exec_mstore (yields_num (by decide)) (yields_ident.2 (by rfl))) ?_
  refine .cons (exec_mstore (yields_num (by decide)) (yields_ident.2 (by rfl))) ?_
  refine .cons (exec_assignOne (by rfl) (.keccak (context_within ..) (yields_num (by decide))
    (yields_num (by decide)) hbytes (by simp))) ?_
  exact .nil ⟨rfl, rfl⟩

/-- A byte string is hashed behind the memory in use. -/
theorem apply_mappingSlotBytes (ctx : Context)
    (h : Includes functions target (.fixed .mappingSlotBytes)) (slot : Word) (w : World)
    (hkey : (Key.bytes content).At w.memory w.freeMemory.toNat key) (hlimit : content.length < n) :
    ∃ m', (within ctx functions (n + 2)).apply mappingSlotBytes.name
        [key, slot] w = .ok ([ctx.keccak (content ++ slot.toBytes)], w.withMemory m') ∧
      ∀ a < w.freeMemory.toNat, m' a = w.memory a := by
  obtain ⟨-, htop, hroom, hhas⟩ := hkey
  obtain ⟨hword, hcontent⟩ := has_append.1 hhas
  set length := BitVec.ofNat 256 content.length
  set pos := w.freeMemory
  have hlength : length.toNat = content.length := Nat.mod_eq_of_lt (by omega)
  have hsource : (key + 32#256).toNat = key.toNat + 32 := Word.toNat_add_ofNat (by omega)
  have hplace : (pos + length).toNat = pos.toNat + content.length := by
    rw [BitVec.toNat_add_of_lt (by omega), hlength]
  have hsize : (length + 32#256).toNat = content.length + 32 := by
    rw [Word.toNat_add_ofNat (by omega), hlength]
  obtain ⟨m₁, hcopy, hcopied⟩ : ∃ m₁, (within ctx functions (n + 1)).apply copyMemory.name
      [key + 32#256, pos, length] w = .ok ([], w.withMemory m₁) ∧ _ :=
    apply_copyMemory (h.needed (by decide)) w (.inl (by omega))
      (by omega) (by omega) (by omega)
  rw [hsource, hlength] at hcopied
  set m₂ := m₁.write (pos + length).toNat slot.toBytes
  -- the bytes and the slot stand one behind the other
  have hbytes : m₂.Has pos.toNat (content ++ slot.toBytes) := by
    have hread : w.memory.read (key.toNat + 32) content.length = content := hcontent.read_eq
    have hcopy := hcopied.has
    rw [hread] at hcopy
    refine has_append.2 ⟨hcopy.congr fun a _ ha => write_of_lt (by omega), ?_⟩
    rw [← hplace]
    exact has_write _ _ _
  refine ⟨m₂, h.returns rfl rfl ?_, fun a ha =>
    (write_of_lt (by omega)).trans (hcopied.front a ha)⟩
  refine .cons (exec_letOne (w := length) ?_) ?_
  · rw [← hword.readWord_eq]
    exact (yields_ident.2 (by rfl)).mload
  refine .cons (exec_letOne .freeMemory) ?_
  refine .cons (exec_run (.cons (yields_ident.2 (by rfl)).dataOf (.cons (yields_ident.2 (by rfl))
    (.cons (yields_ident.2 (by rfl)) .nil))) hcopy) ?_
  refine .cons (exec_mstore ((yields_ident.2 (by rfl)).add (yields_ident.2 (by rfl)))
    (yields_ident.2 (by rfl))) ?_
  refine .cons (exec_assignOne (by rfl) (.keccak (context_within ..) (yields_ident.2 (by rfl))
    ((yields_ident.2 (by rfl)).add (yields_num (by decide))) hbytes (by simp [hsize]))) ?_
  exact .nil ⟨rfl, rfl⟩

/-- The routine for keys of a type hashes a key and a slot, and leaves the memory in use behind the words
for hashing as it is. -/
theorem apply_hashRoutine (ctx : Context) {k : Key}
    (h : Includes functions target (.fixed (hashRoutine t))) (hk : k.OfType t) (slot : Word)
    (w : World) (hat : k.At w.memory w.freeMemory.toNat v) (hlimit : k.size ≤ n) :
    ∃ m', (within ctx functions (n + 3)).apply (hashRoutine t).name [v, slot] w =
        .ok ([ctx.keccak (k.toBytes ++ slot.toBytes)], w.withMemory m') ∧
      ∀ a, 64 ≤ a → a < w.freeMemory.toNat → m' a = w.memory a := by
  cases k with
  | word key =>
    have hroutine : hashRoutine t = .mappingSlot := if_neg (Bool.eq_false_iff.1 hk)
    have hv : v = key := hat
    rw [hroutine] at h ⊢
    rw [hv]
    refine ⟨_, apply_mappingSlot ctx h key slot w, fun a ha _ => ?_⟩
    rw [write_of_ge (by rw [Word.length_toBytes]; omega),
      write_of_ge (by rw [Word.length_toBytes]; omega)]
  | bytes content =>
    have hroutine : hashRoutine t = .mappingSlotBytes := if_pos hk
    rw [hroutine] at h ⊢
    obtain ⟨m', happly, hsame⟩ :=
      apply_mappingSlotBytes ctx h slot w hat (Nat.lt_succ_of_le hlimit)
    exact ⟨m', happly, fun a _ ha => hsame a ha⟩

end

end ContractYul
