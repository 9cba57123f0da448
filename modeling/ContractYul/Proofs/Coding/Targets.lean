import ContractYul.Proofs.Coding.Encoding
import Mathlib.Order.Interval.Set.Disjoint

/-!
# Copies and encodings on both targets

A newer machine copies memory with one instruction, an older one word by word, so that its last word
may reach beyond the bytes that were asked for. The excess stays within the words that were begun, and
an encoding writes zeros over it before it goes on.

Main statement: `targets_copy_alike`.
-/

namespace ContractYul.Coding

open Yul

/-- Parts of memory of one length that have no byte in common lie one behind the other. -/
theorem behind_of_disjoint {source place length : Nat}
    (h : Disjoint (Set.Ico source (source + length)) (Set.Ico place (place + length))) :
    source + length ≤ place ∨ place + length ≤ source := by
  rw [Set.Ico_disjoint_Ico] at h
  omega

theorem eq_of_has {m m' : Memory} (h : m.Has start bytes) (h' : m'.Has start bytes)
    (hle : start ≤ a) (hlt : a < start + bytes.length) : m a = m' a := by
  obtain ⟨i, rfl⟩ := Nat.exists_eq_add_of_le hle
  rw [Memory.has_iff.1 h i (by omega), Memory.has_iff.1 h' i (by omega)]

/-- On both targets a copy brings bytes to a place apart from them and changes nothing but the words
that are begun there. Values that end below a place are encoded to the same bytes up to the same end,
whatever the shapes that a word tells for them. -/
theorem targets_copy_alike (ctx : Context) (n : Nat) (w : World) :
    (∀ target functions, Includes functions target (.fixed .copyMemory) →
      ∀ src dst length : Word,
        Disjoint (Set.Ico src.toNat (src.toNat + length.toNat))
          (Set.Ico dst.toNat (dst.toNat + length.toNat)) →
        src.toNat + length.toNat ≤ 2 ^ 256 → dst.toNat + length.toNat ≤ 2 ^ 256 →
        length.toNat < n →
        ∃ m, (Machine.within ctx functions (n + 1)).apply FixedRoutine.copyMemory.name
            [src, dst, length] w = .ok ([], w.withMemory m) ∧
          Copied w.memory src.toNat dst.toNat length.toNat m) ∧
    ∀ newer older arity, Includes newer .cancun (.family .abiEncode arity) →
      Includes older .shanghai (.family .abiEncode arity) →
      ∀ (dst shapes : Word) (vs : List Word),
        List.Forall₂ (Datum.Below w.memory dst.toNat) (codesIn shapes.toNat 0 arity) vs →
        ∀ ds, dataOf w.memory (codesIn shapes.toNat 0 arity) vs = ds →
        dst.toNat + (encoding ds).length < 2 ^ 256 → (tails ds).length ≤ n →
        ∃ stop m m',
          (Machine.within ctx newer (n + 3)).apply (RoutineFamily.abiEncode.name arity)
            (dst :: shapes :: vs) w = .ok ([stop], w.withMemory m) ∧
          (Machine.within ctx older (n + 3)).apply (RoutineFamily.abiEncode.name arity)
            (dst :: shapes :: vs) w = .ok ([stop], w.withMemory m') ∧
          stop.toNat = dst.toNat + (encoding ds).length ∧
          ∀ a, dst.toNat ≤ a → a < stop.toNat → m a = m' a := by
  refine ⟨fun target functions h src dst length hdisjoint hsource hend hlimit => ?_,
    fun newer older arity hnewer holder dst shapes vs hbelow ds hds hend hlimit => ?_⟩
  · exact apply_copyMemory h w (behind_of_disjoint hdisjoint) hsource hend hlimit
  · have hcount := length_codesIn shapes.toNat 0 arity
    generalize hcodes : codesIn shapes.toNat 0 arity = codes at *
    subst hcount
    rw [← hds] at hend hlimit ⊢
    obtain ⟨m, happly, hhas, -⟩ := apply_abiEncode_codes ctx hnewer w hbelow hcodes hend hlimit
    obtain ⟨m', happly', hhas', -⟩ := apply_abiEncode_codes ctx holder w hbelow hcodes hend hlimit
    have hstop : (BitVec.ofNat 256
        (dst.toNat + (encoding (dataOf w.memory codes vs)).length)).toNat =
        dst.toNat + (encoding (dataOf w.memory codes vs)).length := Nat.mod_eq_of_lt hend
    refine ⟨_, m, m', happly, happly', hstop, fun a hle hlt => ?_⟩
    rw [hstop] at hlt
    exact eq_of_has hhas hhas' hle hlt

def pairEncoders (target : Target) : String → Option Function :=
  tableOf target [.family .abiEncode 2, .fixed .abiEncodeItem, .fixed .copyMemory]

theorem includes_pairEncoders (target : Target)
    (hr : r = .family .abiEncode 2 ∨ r = .fixed .copyMemory) :
    Includes (pairEncoders target) target r := by
  refine includes_tableOf (by decide) ?_ target
  rcases hr with rfl | rfl <;> decide

def lettered : World :=
  { (default : World) with
    memory := fun a => ([(159, 3), (160, 97), (161, 98), (162, 99), (223, 1), (255, 7)].lookup
      a).getD 0 }

/-- The letters are copied to a place in front of them. With codes 3 and 2 they and the word are
encoded behind both. -/
theorem targets_copy_alike_letters :
    (∃ m, (Machine.within default (pairEncoders .shanghai) 201).apply FixedRoutine.copyMemory.name
        [160#256, 150#256, 3#256] lettered = .ok ([], lettered.withMemory m) ∧
      m.Has 150 [97, 98, 99] ∧ m 182 = 0) ∧
    ∃ stop m m',
      (Machine.within default (pairEncoders .cancun) 203).apply (RoutineFamily.abiEncode.name 2)
        [256#256, 11#256, 128#256, 192#256] lettered = .ok ([stop], lettered.withMemory m) ∧
      (Machine.within default (pairEncoders .shanghai) 203).apply (RoutineFamily.abiEncode.name 2)
        [256#256, 11#256, 128#256, 192#256] lettered = .ok ([stop], lettered.withMemory m') ∧
      stop.toNat = 448 ∧ ∀ a, 256 ≤ a → a < stop.toNat → m a = m' a := by
  obtain ⟨hcopies, hencodes⟩ := targets_copy_alike default 200 lettered
  constructor
  · obtain ⟨m, happly, hcopied⟩ := hcopies .shanghai _ (includes_pairEncoders _ (.inr rfl)) 160#256
      150#256 3#256 (by rw [Set.Ico_disjoint_Ico]; decide) (by decide) (by decide) (by decide)
    refine ⟨m, happly, ?_, ?_⟩
    · exact hcopied.has
    · exact hcopied.back 182 (by decide)
  · have hbelow : List.Forall₂ (Datum.Below lettered.memory (256#256).toNat) [3, 2]
        [128#256, 192#256] :=
      .cons (fun _ => by decide +kernel) (.cons (fun _ => by decide +kernel) .nil)
    have hlength : (encoding (dataOf lettered.memory [3, 2] [128#256, 192#256])).length = 192 := by
      decide +kernel
    obtain ⟨stop, m, m', hnewer, holder, hstop, hsame⟩ := hencodes _ _ 2
      (includes_pairEncoders .cancun (.inl rfl)) (includes_pairEncoders .shanghai (.inl rfl)) 256#256
      11#256 [128#256, 192#256] hbelow (dataOf lettered.memory [3, 2] [128#256, 192#256]) rfl
      (by rw [hlength]; decide) (by decide +kernel)
    refine ⟨stop, m, m', hnewer, holder, ?_, hsame⟩
    rw [hstop, hlength]
    rfl

end ContractYul.Coding
