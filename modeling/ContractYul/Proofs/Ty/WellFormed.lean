import ContractYul.Proofs.Outcome
import ContractYul.Ty.Canonical
import Mathlib.Algebra.Group.Nat.Defs

/-!
# Types that are read from text

The text of a type never gives an integer of an odd width, an empty tuple, an array of no elements
or a mapping with a key that cannot be hashed. `WellFormed` says so at every node of a type.

Main statements:
* `wellFormed_parse`: a type that is read from text is well formed;
* `storageSlots_pos`: a well-formed type takes at least one slot, when every struct does;
* `storageSlots_wrapping`: a count in 64 bits is the remainder of the count without a bound;
* `parse_bounds`: so sizes of what is read are in range, and a count of slots is, up to where it wraps
  around.
-/

namespace ContractYul.Ty

open Outcome

/-! ## Well-formed types -/

mutual

/-- Widths, lengths and keys are in range at every node. -/
def WellFormed : Ty → Prop
  | .uint bits | .int bits => 0 < bits ∧ bits ≤ 256 ∧ bits % 8 = 0
  | .fixedBytes n => 0 < n ∧ n ≤ 32
  | .array elem length =>
    elem.WellFormed ∧ length ≠ some 0 ∧ (length = none → elem.isMapping = false)
  | .mapping key value => key.isKey = true ∧ key.WellFormed ∧ value.WellFormed
  | .tuple elems => elems ≠ [] ∧ AllWellFormed elems
  | _ => True

def AllWellFormed : List Ty → Prop
  | [] => True
  | t :: rest => t.WellFormed ∧ AllWellFormed rest

end

theorem allWellFormed_iff : AllWellFormed ts ↔ ∀ t ∈ ts, t.WellFormed := by
  induction ts with
  | nil => simp [AllWellFormed]
  | cons t rest ih => simp [AllWellFormed, ih]

/-! ## Reading keeps types well formed -/

variable {text : List Char}

theorem splitTopLevel_ne_nil (h : splitTopLevel depth current text = some parts) : parts ≠ [] := by
  fun_induction splitTopLevel depth current text generalizing parts with
  | case1 =>
    rw [← Option.some.inj h]
    simp
  | case2 => simp at h
  | case3 _ _ _ _ _ ih => exact ih h
  | case4 => simp at h
  | case5 _ _ _ _ _ _ ih => exact ih h
  | case6 =>
    obtain ⟨tail, -, rfl⟩ := Option.map_eq_some_iff.1 h
    simp
  | case7 _ _ _ _ _ _ _ ih => exact ih h

theorem readLength_bounds (h : readLength text = .ok (some n)) : n ≠ 0 ∧ n < 2 ^ 64 := by
  unfold readLength at h
  simp only at h
  split at h
  · simp at h
  · split at h
    · simp at h
    · simp at h
    · rename_i m hne hread
      obtain rfl : m = n := by simpa using h
      exact ⟨hne, of_decide_eq_true (Option.filter_eq_some_iff.1 hread).2⟩

def Form.Sound (text : List Char) : Form → Prop
  | .tuple parts => parts ≠ []
  | .array _ length => ∀ n, length = some n → n ≠ 0 ∧ n < 2 ^ 64
  | .mapping _ _ => True
  | .name => text ≠ [] ∧ ∀ c ∈ text, isPunctuation c = false

theorem sound_outermost (h : outermost text = .ok form) : form.Sound text := by
  unfold outermost at h
  split at h
  · simp at h
  rename_i htext
  split at h
  · -- a tuple form comes from pieces, and there is at least one
    unfold tupleForm at h
    split at h
    · simp at h
    rename_i hsplit
    split at h
    · simp at h
    · cases h
      exact splitTopLevel_ne_nil hsplit
  split at h
  · unfold arrayForm at h
    split at h
    · simp at h
    split at h
    · simp at h
    · obtain ⟨length, hlength, rfl⟩ := map_eq_ok.1 h
      rintro n rfl
      exact readLength_bounds hlength
  split at h
  · unfold mappingForm at h
    split at h
    · split at h
      · simp at h
      · cases h
        trivial
      · simp at h
    · simp at h
  · split at h
    · simp at h
    · rename_i hplain
      cases h
      exact ⟨by simpa using htext, by simpa using hplain⟩

theorem readWidth_bounds {max step width : Nat} (h : readWidth text digits max step = .ok width) :
    0 < width ∧ width ≤ max ∧ width % step = 0 := by
  unfold readWidth at h
  split at h
  · simp at h
  · rename_i n _
    split at h
    · simp at h
    · rename_i hbounds
      obtain rfl : n = width := by simpa using h
      simp at hbounds
      omega

def isElementary : Ty → Bool
  | .array _ _ | .mapping _ _ | .tuple _ | .struct _ | .contract _ => false
  | _ => true

theorem wellFormed_elementary (h : elementary text = .ok (some t)) :
    t.WellFormed ∧ t.isElementary := by
  unfold elementary at h
  split at h
  · rename_i word hword
    obtain rfl : word = t := by simpa using h
    unfold word? at hword
    split at hword <;> simp at hword <;> subst hword <;> simp [WellFormed, isElementary]
  split at h
  · obtain ⟨width, hwidth, h⟩ := bind_eq_ok.1 h
    obtain rfl := Option.some.inj (pure_eq_ok.1 h)
    exact ⟨readWidth_bounds hwidth, rfl⟩
  split at h
  · obtain ⟨width, hwidth, h⟩ := bind_eq_ok.1 h
    obtain rfl := Option.some.inj (pure_eq_ok.1 h)
    exact ⟨readWidth_bounds hwidth, rfl⟩
  split at h
  · obtain ⟨width, hwidth, h⟩ := bind_eq_ok.1 h
    obtain rfl := Option.some.inj (pure_eq_ok.1 h)
    have hbounds := readWidth_bounds hwidth
    exact ⟨⟨hbounds.1, hbounds.2.1⟩, rfl⟩
  · simp at h

/-- What holds of elementary types and of what names stand for, and is kept when types are put
together as text allows it, holds of what is read. -/
theorem parseWith_induction {P : Ty → Prop} (helementary : ∀ t, t.WellFormed → t.isElementary → P t)
    (hname : ∀ text t, outermost (Text.trim text) = .ok .name →
      elementary (Text.trim text) = .ok none →
      lookup (String.ofList (Text.trim text)) = .ok t → P t)
    (htuple : ∀ elems, elems ≠ [] → (∀ t ∈ elems, P t) → P (.tuple elems))
    (harray : ∀ t length, P t → (∀ n, length = some n → n ≠ 0 ∧ n < 2 ^ 64) →
      (length = none → t.isMapping = false) → P (.array t length))
    (hmapping : ∀ k v, k.isKey = true → P k → P v → P (.mapping k v))
    (h : parseWith lookup cs = .ok t) : P t := by
  fun_induction parseWith lookup cs generalizing t
  case case1 => simp at h
  case case2 cs text parts hform ih =>
    obtain ⟨elems, helems, h⟩ := bind_eq_ok.1 h
    cases h
    refine htuple elems ?_ fun t ht => ?_
    · rintro rfl
      exact sound_outermost hform (by simpa using (mapM_eq_ok.1 helems).length_eq)
    · obtain ⟨⟨p, hp⟩, -, hpt⟩ := exists_of_mem_mapM helems ht
      exact ih p hp hpt
  case case3 cs text elem length hform ih =>
    obtain ⟨e, he, h⟩ := bind_eq_ok.1 h
    split at h
    · simp at h
    · rename_i hchecked
      cases h
      refine harray e length (ih he) (sound_outermost hform) ?_
      rintro rfl
      simpa using hchecked
  case case4 cs text key value hform ihKey ihValue =>
    obtain ⟨k, hk, h⟩ := bind_eq_ok.1 h
    split at h
    · simp at h
    · rename_i hkey
      obtain ⟨v, hv, h⟩ := bind_eq_ok.1 h
      cases h
      exact hmapping k v (by simpa using hkey) (ihKey hk) (ihValue hv)
  case case5 cs text hform =>
    obtain ⟨known, hknown, h⟩ := bind_eq_ok.1 h
    cases known with
    | some known =>
      obtain rfl := pure_eq_ok.1 h
      obtain ⟨hformed, hatom⟩ := wellFormed_elementary hknown
      exact helementary known hformed hatom
    | none => exact hname cs t hform hknown h

/-- Reading keeps well-formedness, when names stand for well-formed types. -/
theorem wellFormed_parseWith (hlookup : ∀ name t, lookup name = .ok t → t.WellFormed)
    {cs : List Char} (h : parseWith lookup cs = .ok t) : t.WellFormed := by
  refine parseWith_induction (fun _ hformed _ => hformed) (fun _ t _ _ => hlookup _ t)
    (fun elems hne helems => ⟨hne, allWellFormed_iff.2 helems⟩) (fun t length ht hlength hkeyed => ?_)
    (fun k v hkey hk hv => ⟨hkey, hk, hv⟩) h
  exact ⟨ht, fun hzero => (hlength 0 hzero).1 rfl, hkeyed⟩

end ContractYul.Ty

namespace ContractYul

open Outcome

theorem TypeNames.wellFormed_resolve {names : TypeNames} (h : names.resolve depth name = .ok t) :
    t.WellFormed := by
  induction depth generalizing name t with
  | zero =>
    rw [resolve] at h
    split at h <;> simp at h <;> subst h <;> simp [Ty.WellFormed]
  | succ depth ih =>
    rw [resolve] at h
    split at h
    · cases h
      simp [Ty.WellFormed]
    · cases h
      trivial
    · cases h
      trivial
    · simp at h
    · obtain ⟨u, hu, h⟩ := bind_eq_ok.1 h
      split at h
      · cases h
        exact Ty.wellFormed_parseWith (fun _ _ => ih) hu
      · simp at h

namespace Ty

theorem wellFormed_parse {names : TypeNames} (h : parse names text = .ok t) : t.WellFormed :=
  wellFormed_parseWith (fun _ _ => TypeNames.wellFormed_resolve) h

/-! ## Sizes -/

variable {structSlots : String → Option Nat}

mutual

/-- A well-formed type takes at least one slot, when every struct does. -/
theorem storageSlots_pos (hstructs : ∀ name n, structSlots name = some n → 0 < n) :
    ∀ {t : Ty} {n : Nat}, t.WellFormed → t.storageSlots .unbounded structSlots = .ok n → 0 < n
  | .struct name, n, _, h => by
    rw [storageSlots] at h
    split at h
    · rename_i hslots
      exact hstructs name n (Except.ok.inj h ▸ hslots)
    · simp at h
  | .array elem (some length), n, hwf, h => by
    rw [storageSlots] at h
    obtain ⟨slots, hslots, h⟩ := bind_eq_ok.1 h
    cases h
    have hslots_pos : 0 < slots := storageSlots_pos hstructs hwf.1 hslots
    have hlength_pos : 0 < length := Nat.pos_of_ne_zero fun hzero => hwf.2.1 (by rw [hzero])
    exact Nat.mul_pos hslots_pos hlength_pos
  | .tuple elems, n, hwf, h => by
    rw [storageSlots] at h
    have hlength := length_le_storageSlotsFrom hstructs hwf.2 h
    have := List.length_pos_iff.2 hwf.1
    omega
  | .uint _, n, _, h | .int _, n, _, h | .address, n, _, h | .bool, n, _, h
  | .fixedBytes _, n, _, h | .bytes, n, _, h | .string, n, _, h | .array _ none, n, _, h
  | .mapping _ _, n, _, h | .contract _, n, _, h | .functionRef, n, _, h => by
    simp [storageSlots] at h
    omega

theorem length_le_storageSlotsFrom (hstructs : ∀ name n, structSlots name = some n → 0 < n) :
    ∀ {total n : Nat} {ts : List Ty}, AllWellFormed ts →
      storageSlotsFrom .unbounded structSlots total ts = .ok n → total + ts.length ≤ n
  | _, _, [], _, h => Nat.le_of_eq (Except.ok.inj h)
  | total, n, t :: rest, hwf, h => by
    rw [storageSlotsFrom] at h
    obtain ⟨first, hfirst, h⟩ := bind_eq_ok.1 h
    have hfirst_pos : 0 < first := storageSlots_pos hstructs hwf.1 hfirst
    have hrest : total + first + rest.length ≤ n := length_le_storageSlotsFrom hstructs hwf.2 h
    rw [List.length_cons]
    omega

end

mutual

/-- A count in 64 bits is the remainder of the count without a bound. -/
theorem storageSlots_wrapping (hstructs : ∀ name n, structSlots name = some n → n < 2 ^ 64) :
    ∀ (t : Ty), t.storageSlots .wrapping structSlots =
      (t.storageSlots .unbounded structSlots).map (· % 2 ^ 64)
  | .struct name => by
    rw [storageSlots, storageSlots]
    cases hslots : structSlots name with
    | none => rfl
    | some n => exact congrArg Except.ok (Nat.mod_eq_of_lt (hstructs name n hslots)).symm
  | .array elem (some length) => by
    rw [storageSlots, storageSlots, storageSlots_wrapping hstructs elem]
    cases elem.storageSlots .unbounded structSlots with
    | error e => rfl
    | ok n => exact congrArg Except.ok (Nat.mod_mul_mod n length (2 ^ 64))
  | .tuple elems => by
    rw [storageSlots, storageSlots]
    exact storageSlotsFrom_wrapping hstructs 0 elems
  | .uint _ | .int _ | .address | .bool | .fixedBytes _ | .bytes | .string | .array _ none
  | .mapping _ _ | .contract _ | .functionRef => rfl

theorem storageSlotsFrom_wrapping (hstructs : ∀ name n, structSlots name = some n → n < 2 ^ 64) :
    ∀ (total : Nat) (ts : List Ty), storageSlotsFrom .wrapping structSlots (total % 2 ^ 64) ts =
      (storageSlotsFrom .unbounded structSlots total ts).map (· % 2 ^ 64)
  | _, [] => rfl
  | total, t :: rest => by
    rw [storageSlotsFrom, storageSlotsFrom, storageSlots_wrapping hstructs t]
    cases t.storageSlots .unbounded structSlots with
    | error e => rfl
    | ok n =>
      have hsum : (total % 2 ^ 64 + n % 2 ^ 64) % 2 ^ 64 = (total + n) % 2 ^ 64 := by omega
      show storageSlotsFrom .wrapping structSlots ((total % 2 ^ 64 + n % 2 ^ 64) % 2 ^ 64) rest = _
      rw [hsum, storageSlotsFrom_wrapping hstructs (total + n) rest]
      rfl

end

theorem byteSize_bounds {t : Ty} (h : t.WellFormed) : 0 < t.byteSize ∧ t.byteSize ≤ 32 := by
  cases t <;> simp [WellFormed, byteSize] at h ⊢ <;> omega

end Ty

end ContractYul
