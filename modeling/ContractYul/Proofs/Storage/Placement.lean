import ContractYul.Proofs.Storage.Check

/-!
# Where the second pass puts fields

The second pass places fields one by one from a cursor. `Cursor.Passed` are the bytes behind the
cursor. A field that is neither pinned nor immutable, a *floating* field, goes to bytes ahead of the
cursor that no pin covers, and the cursor then is behind it (`placeField_floating`). A pinned field
goes to its pin and an immutable one to the range of immutable fields; neither moves the cursor back.

Every entry of a layout was placed from a cursor at or after the start (`forall₂_placeFields`), so
that what one step says carries over to all entries.
-/

open List

namespace ContractYul.Storage

open Storage.Field

/-! ## Free regions -/

theorem le_freeRegion (length start : Nat) (pins : List Pin) (hpins : Separated pins) :
    start ≤ freeRegion length start pins := by
  induction pins generalizing start with
  | nil => simp [freeRegion]
  | cons p rest ih =>
    rw [freeRegion]
    split
    · rename_i hmeets
      simp only [Bool.and_eq_true, decide_eq_true_eq] at hmeets
      have := ih p.stop hpins.tail
      omega
    · exact ih start hpins.tail

variable {pins : List Pin} {c : Cursor} {f : Field}

theorem freeRegion_of_before {length start : Nat}
    (h : ∀ p ∈ pins, start + max length 1 ≤ p.start) : freeRegion length start pins = start := by
  induction pins with
  | nil => rfl
  | cons p rest ih =>
    have hp := h p (by simp)
    rw [freeRegion, if_neg (by simp only [Bool.and_eq_true, decide_eq_true_eq]; omega)]
    exact ih fun q hq => h q (by simp [hq])

theorem freeRegion_free (length start : Nat) (hpins : Separated pins) :
    ∀ p ∈ pins, freeRegion length start pins + max length 1 ≤ p.start ∨
      p.stop ≤ freeRegion length start pins := by
  induction pins generalizing start with
  | nil => simp
  | cons p rest ih =>
    have hbehind := (pairwise_cons.1 hpins.behind).1
    have hrest := hpins.tail
    intro q hq
    rw [freeRegion]
    split
    · rcases mem_cons.1 hq with rfl | hq
      · exact .inr (le_freeRegion _ _ _ hrest)
      · exact ih _ hrest q hq
    · rename_i hmeets
      simp only [Bool.and_eq_true, decide_eq_true_eq, not_and, Nat.not_lt] at hmeets
      by_cases hstop : p.stop ≤ start
      · rcases mem_cons.1 hq with rfl | hq
        · exact .inr (Nat.le_trans hstop (le_freeRegion _ _ _ hrest))
        · exact ih _ hrest q hq
      · -- the region ends in front of `p`, so in front of all later pins too
        have hnonempty := hpins.nonempty p (by simp)
        have hfront := hmeets ⟨hnonempty, by omega⟩
        have hall : ∀ r ∈ rest, start + max length 1 ≤ r.start := by
          intro r hr
          have := hbehind r hr
          omega
        rw [freeRegion_of_before hall]
        rcases mem_cons.1 hq with rfl | hq
        · exact .inl hfront
        · exact .inl (hall q hq)

/-! ## Bytes of a location -/

namespace Slot

/-- The bytes of slots that a location takes: its own bytes for a packed scalar, and else all bytes
of its slots. -/
def Covers (s : Slot) (slot byte : Nat) : Prop :=
  if s.isPacked then slot = s.slot ∧ s.byteOffset ≤ byte ∧ byte < s.byteOffset + s.byteSize
  else s.slot ≤ slot ∧ slot < s.slot + s.span ∧ byte < 32

instance (s : Slot) (slot byte : Nat) : Decidable (s.Covers slot byte) := by
  unfold Covers
  infer_instance

def Disjoint (a b : Slot) : Prop :=
  ∀ slot byte, a.Covers slot byte → ¬ b.Covers slot byte

theorem Covers.slot_bounds {s : Slot} {slot byte : Nat} (h : s.Covers slot byte)
    (hspan : 0 < s.span) : s.slot ≤ slot ∧ slot < s.slot + s.span := by
  unfold Covers at h
  split at h <;> omega

end Slot

theorem SlotKind.of_scalar (h : SlotKind.ofTy t = .scalar) :
    t.isValue = true ∧ t ≠ .functionRef ∧ ∀ c : Catalog, c.slotsOf t = .ok 1 := by
  cases t with
  | array elem length => cases length <;> simp [SlotKind.ofTy] at h
  | _ => simp_all [SlotKind.ofTy, Ty.isValue, Catalog.slotsOf, Ty.storageSlots]

theorem Field.isPacked_locate (f : Field) (slot offset : Nat) :
    (f.locate slot offset).isPacked = (SlotKind.ofTy f.ty == .scalar && f.ty.canPack) := by
  by_cases hkind : SlotKind.ofTy f.ty = .scalar
  · obtain ⟨hvalue, hfunction, -⟩ := SlotKind.of_scalar hkind
    have hmin : min f.ty.byteSize 32 < 32 ↔ f.ty.byteSize < 32 := by omega
    simp [Slot.isPacked, locate, hkind, Ty.canPack, hvalue, hfunction, hmin]
  · simp [Slot.isPacked, locate, hkind]

theorem Field.locate_zero_within (f : Field) (slot : Nat) :
    (f.locate slot 0).byteOffset + (f.locate slot 0).byteSize ≤ 32 := by
  simp only [locate]
  split <;> omega

/-! ## The cursor -/

namespace Cursor

def Passed (c : Cursor) (slot byte : Nat) : Prop :=
  slot < c.slot ∨ slot = c.slot ∧ byte < c.offset

/-- A cursor whose slot, once begun, is free of pins. -/
structure Open (pins : List Pin) (c : Cursor) : Prop where
  offset_le : c.offset ≤ 32
  free : 0 < c.offset → ∀ p ∈ pins, c.slot < p.start ∨ p.stop ≤ c.slot

structure Le (c c' : Cursor) : Prop where
  passed : ∀ slot byte, c.Passed slot byte → c'.Passed slot byte
  flush_le : c.flush.slot ≤ c'.flush.slot
  nextImmutable_le : c.nextImmutable ≤ c'.nextImmutable

theorem Le.refl (c : Cursor) : c.Le c :=
  ⟨fun _ _ h => h, Nat.le_refl _, Nat.le_refl _⟩

theorem Le.trans {a b : Cursor} (hab : a.Le b) (hbc : b.Le c) : a.Le c :=
  ⟨fun slot byte h => hbc.passed slot byte (hab.passed slot byte h),
    Nat.le_trans hab.flush_le hbc.flush_le, Nat.le_trans hab.nextImmutable_le hbc.nextImmutable_le⟩

theorem open_start (pins : List Pin) : start.Open pins :=
  ⟨by simp [start], by simp [start]⟩

theorem open_flush (h : c.Open pins) : c.flush.Open pins := by
  unfold flush
  split
  · exact ⟨by simp, by simp⟩
  · exact h

theorem flush_slot (c : Cursor) : c.flush.slot = if 0 < c.offset then c.slot + 1 else c.slot := by
  unfold flush
  split <;> rfl

theorem flush_flush (c : Cursor) : c.flush.flush = c.flush := by
  unfold flush
  by_cases h : c.offset > 0 <;> simp [h]

/-- Leaving a slot begun moves the cursor forward. -/
theorem le_flush : c.Le c.flush := by
  refine ⟨?_, Nat.le_of_eq (by rw [flush_flush]), ?_⟩
  · intro slot byte h
    unfold flush
    split
    · rcases h with h | ⟨h, -⟩ <;> exact .inl (by simp only; omega)
    · exact h
  · unfold flush
    split <;> exact Nat.le_refl _

/-- A cursor at the start of a slot at or after another cursor is no less far. -/
theorem le_of_flush_le (hslot : c.flush.slot ≤ c'.slot) (hoffset : c'.offset = 0)
    (hnext : c.nextImmutable ≤ c'.nextImmutable) : c.Le c' := by
  have hflush : c'.flush = c' := by simp [flush, hoffset]
  refine ⟨?_, by rwa [hflush], hnext⟩
  intro slot byte h
  rw [flush_slot] at hslot
  left
  rcases h with h | h <;> split at hslot <;> omega

end Cursor

/-! ## Placing one field -/

/-- What a step promises of a location that it takes from the free space: the location is ahead of
the cursor before it, behind the cursor after it, and apart from all pins. -/
structure Fits (pins : List Pin) (c c' : Cursor) (s : Slot) : Prop where
  ahead : ∀ slot byte, s.Covers slot byte → ¬ c.Passed slot byte
  behind : ∀ slot byte, s.Covers slot byte → c'.Passed slot byte
  free : ∀ p ∈ pins, s.slot + s.span ≤ p.start ∨ p.stop ≤ s.slot
  within : s.byteOffset + s.byteSize ≤ 32
  le : c.Le c'
  isOpen : c'.Open pins
  stop : c'.flush.slot = s.slot + s.span

/-- A field whose type, span and width belong together. -/
structure Field.Sized (f : Field) : Prop where
  span_pos : 0 < f.span
  scalar : SlotKind.ofTy f.ty = .scalar → f.span = 1
  byteSize_pos : 0 < f.ty.byteSize

theorem placeWhole_fits (hpins : Separated pins) (hf : f.Sized)
    (hpack : (SlotKind.ofTy f.ty == .scalar && f.ty.canPack) = false) :
    Fits pins c (placeWhole pins c f).1 (placeWhole pins c f).2 := by
  have hle := le_freeRegion f.span c.flush.slot pins hpins
  have hfree := freeRegion_free f.span c.flush.slot hpins
  have hspan := hf.span_pos
  simp only [placeWhole]
  generalize freeRegion f.span c.flush.slot pins = start at hle hfree
  have hcovers : ∀ slot byte, (f.locate start 0).Covers slot byte ↔
      start ≤ slot ∧ slot < start + f.span ∧ byte < 32 := by
    intro slot byte
    rw [Slot.Covers, isPacked_locate, hpack]
    rfl
  refine ⟨?_, ?_, ?_, ?_, ?_, ?_, ?_⟩
  · intro slot byte h hpassed
    have hcover := (hcovers slot byte).1 h
    have hstart : c.slot ≤ start ∧ (0 < c.offset → c.slot < start) := by
      rw [Cursor.flush_slot] at hle
      split at hle <;> omega
    rcases hpassed with h | h <;> omega
  · intro slot byte h
    have hcover := (hcovers slot byte).1 h
    exact .inl hcover.2.1
  · intro p hp
    have := hfree p hp
    rw [Nat.max_eq_left hspan] at this
    exact this
  · exact f.locate_zero_within start
  · exact Cursor.le_of_flush_le (by simp only; omega) rfl (Nat.le_refl _)
  · exact ⟨by simp, by simp⟩
  · rfl

/-- A packed scalar goes behind its predecessor while the slot has room. -/
theorem placePacked_of_room (hoffset : 0 < c.offset)
    (hroom : c.offset + min f.ty.byteSize 32 ≤ 32) :
    placePacked pins c f =
      ({ c with offset := c.offset + min f.ty.byteSize 32 }, f.locate c.slot c.offset) := by
  have hne : c.offset ≠ 0 := by omega
  simp [placePacked, Nat.not_lt.2 hroom, hne]

/-- A packed scalar that finds no room goes to byte zero of the next free slot. -/
theorem placePacked_of_full (hfull : c.offset = 0 ∨ 32 < c.offset + min f.ty.byteSize 32) :
    placePacked pins c f =
      ({ c with
          slot := freeRegion 1 c.flush.slot pins
          offset := min f.ty.byteSize 32 },
        f.locate (freeRegion 1 c.flush.slot pins) 0) := by
  by_cases hoffset : c.offset = 0
  · have hroom : ¬ 32 < min f.ty.byteSize 32 := by omega
    simp [placePacked, Cursor.flush, hoffset, hroom]
  · have hroom : c.offset + min f.ty.byteSize 32 > 32 := by omega
    have hpos : 0 < c.offset := by omega
    simp [placePacked, Cursor.flush, hroom, hpos]

/-- A packed scalar fits into a slot without pins at or ahead of the cursor. -/
theorem fits_packed {start offset : Nat} (hf : f.Sized)
    (hpack : (SlotKind.ofTy f.ty == .scalar && f.ty.canPack) = true)
    (hroom : offset + min f.ty.byteSize 32 ≤ 32)
    (hahead : c.slot < start ∨ c.slot = start ∧ c.offset ≤ offset)
    (hfree : ∀ p ∈ pins, start < p.start ∨ p.stop ≤ start) :
    Fits pins c { c with slot := start, offset := offset + min f.ty.byteSize 32 }
      (f.locate start offset) := by
  have hkind : SlotKind.ofTy f.ty = .scalar := by
    simp only [Bool.and_eq_true, beq_iff_eq] at hpack
    exact hpack.1
  have hspan := hf.scalar hkind
  have hsize : 0 < offset + min f.ty.byteSize 32 := by
    have := hf.byteSize_pos
    omega
  have hcovers : ∀ slot byte, (f.locate start offset).Covers slot byte ↔
      slot = start ∧ offset ≤ byte ∧ byte < offset + min f.ty.byteSize 32 := by
    intro slot byte
    rw [Slot.Covers, isPacked_locate, hpack]
    simp [locate, hkind]
  refine ⟨?_, ?_, ?_, ?_, ⟨?_, ?_, Nat.le_refl _⟩, ⟨hroom, fun _ => hfree⟩, ?_⟩
  · intro slot byte h hpassed
    have hcover := (hcovers slot byte).1 h
    rcases hpassed with h | h <;> omega
  · intro slot byte h
    have hcover := (hcovers slot byte).1 h
    exact .inr ⟨hcover.1, hcover.2.2⟩
  · intro p hp
    have := hfree p hp
    simp only [locate]
    omega
  · simpa [locate, hkind] using hroom
  · -- bytes behind the old cursor lie in earlier slots, or in front of the field in its own
    intro slot byte h
    rcases hahead with hslot | ⟨rfl, hoffset⟩
    · left
      rcases h with h | h <;> simp only <;> omega
    · rcases h with h | h
      · exact .inl h
      · exact .inr ⟨h.1, by simp only; omega⟩
  · rw [Cursor.flush_slot, Cursor.flush_slot, if_pos hsize]
    show (if 0 < c.offset then c.slot + 1 else c.slot) ≤ start + 1
    split <;> omega
  · simp [Cursor.flush, hsize, locate, hspan]

theorem placePacked_fits (hpins : Separated pins) (hopen : c.Open pins) (hf : f.Sized)
    (hpack : (SlotKind.ofTy f.ty == .scalar && f.ty.canPack) = true) :
    Fits pins c (placePacked pins c f).1 (placePacked pins c f).2 := by
  by_cases hroom : 0 < c.offset ∧ c.offset + min f.ty.byteSize 32 ≤ 32
  · obtain ⟨hoffset, hroom⟩ := hroom
    rw [placePacked_of_room hoffset hroom]
    exact fits_packed hf hpack hroom (.inr ⟨rfl, Nat.le_refl _⟩) (hopen.free hoffset)
  · have hfull : c.offset = 0 ∨ 32 < c.offset + min f.ty.byteSize 32 := by omega
    have hle := le_freeRegion 1 c.flush.slot pins hpins
    have hfree := freeRegion_free 1 c.flush.slot hpins
    rw [placePacked_of_full hfull]
    generalize freeRegion 1 c.flush.slot pins = start at hle hfree
    -- a slot begun is left behind
    have hahead : c.slot < start ∨ c.slot = start ∧ c.offset ≤ 0 := by
      rw [Cursor.flush_slot] at hle
      split at hle <;> omega
    have hfits : Fits pins c { c with slot := start, offset := 0 + min f.ty.byteSize 32 }
        (f.locate start 0) :=
      fits_packed hf hpack (by omega) hahead fun p hp => (hfree p hp).imp_left fun h => by omega
    rwa [Nat.zero_add] at hfits

/-! ## The ways to place a field -/

def Field.Floating (f : Field) : Prop :=
  f.decl.storage ≠ .immutable ∧ f.decl.slot = none

theorem placeField_immutable (h : f.decl.storage = .immutable) :
    placeField pins c f =
      ({ c with nextImmutable := c.nextImmutable + f.span }, f.locate c.nextImmutable 0) := by
  simp [placeField, h]

theorem placeField_pinned (h : f.pin? = some p) :
    placeField pins c f = (c.flush, f.locate p.start 0) := by
  obtain ⟨hstorage, slot, hslot, rfl⟩ := pin?_eq_some.1 h
  simp [placeField, hstorage, hslot]

/-- A floating field goes to free space ahead of the cursor. -/
theorem placeField_floating (hpins : Separated pins) (hopen : c.Open pins) (hf : f.Sized)
    (hfloating : f.Floating) :
    Fits pins c (placeField pins c f).1 (placeField pins c f).2 := by
  obtain ⟨hstorage, hslot⟩ := hfloating
  cases hpack : (SlotKind.ofTy f.ty == .scalar && f.ty.canPack) with
  | true =>
    simpa [placeField, hstorage, hslot, hpack] using placePacked_fits hpins hopen hf hpack
  | false =>
    simpa [placeField, hstorage, hslot, hpack] using placeWhole_fits hpins hf hpack

theorem Field.kinds (f : Field) :
    f.decl.storage = .immutable ∨ (∃ p, f.pin? = some p) ∨ f.Floating := by
  by_cases hstorage : f.decl.storage = .immutable
  · exact .inl hstorage
  · cases hslot : f.decl.slot with
    | none => exact .inr (.inr ⟨hstorage, hslot⟩)
    | some slot => exact .inr (.inl ⟨_, pin?_eq_some.2 ⟨hstorage, slot, hslot, rfl⟩⟩)

/-- No step moves the cursor back or begins a pinned slot. -/
theorem placeField_le (hpins : Separated pins) (hopen : c.Open pins) (hf : f.Sized) :
    c.Le (placeField pins c f).1 ∧ (placeField pins c f).1.Open pins := by
  rcases f.kinds with himmutable | ⟨p, hpin⟩ | hfloating
  · rw [placeField_immutable himmutable]
    exact ⟨⟨fun _ _ h => h, by simp [Cursor.flush_slot], Nat.le_add_right _ _⟩,
      hopen.offset_le, hopen.free⟩
  · rw [placeField_pinned hpin]
    exact ⟨Cursor.le_flush, Cursor.open_flush hopen⟩
  · have hfits := placeField_floating hpins hopen hf hfloating
    exact ⟨hfits.le, hfits.isOpen⟩

theorem exists_locate (pins : List Pin) (c : Cursor) (f : Field) :
    ∃ slot offset, (placeField pins c f).2 = f.locate slot offset := by
  unfold placeField
  split
  · exact ⟨_, _, rfl⟩
  · split
    · exact ⟨_, _, rfl⟩
    · split <;> exact ⟨_, _, rfl⟩

theorem placeField_within (hpins : Separated pins) (hopen : c.Open pins) (hf : f.Sized) :
    (placeField pins c f).2.byteOffset + (placeField pins c f).2.byteSize ≤ 32 := by
  rcases f.kinds with himmutable | ⟨p, hpin⟩ | hfloating
  · rw [placeField_immutable himmutable]
    exact f.locate_zero_within _
  · rw [placeField_pinned hpin]
    exact f.locate_zero_within _
  · exact (placeField_floating hpins hopen hf hfloating).within

/-! ## Placing all fields -/

theorem placeFields_cons (pins : List Pin) (c : Cursor) (f : Field) (rest : List Field) :
    placeFields pins c (f :: rest) =
      (f.decl.name, (placeField pins c f).2) :: placeFields pins (placeField pins c f).1 rest :=
  rfl

theorem map_fst_placeFields (pins : List Pin) (c : Cursor) (fields : List Field) :
    (placeFields pins c fields).map (·.1) = fields.map (·.decl.name) := by
  induction fields generalizing c with
  | nil => rfl
  | cons f rest ih => rw [placeFields_cons, map_cons, map_cons, ih]

/-- Every entry was placed by a step from a cursor at or after the first. -/
theorem forall₂_placeFields {fields : List Field} (hpins : Separated pins) (hopen : c.Open pins)
    (hf : ∀ f ∈ fields, f.Sized) :
    Forall₂ (fun f e => e.1 = f.decl.name ∧
        ∃ c', c.Le c' ∧ c'.Open pins ∧ e.2 = (placeField pins c' f).2)
      fields (placeFields pins c fields) := by
  induction fields generalizing c with
  | nil => exact .nil
  | cons f rest ih =>
    obtain ⟨hle, hopen'⟩ := placeField_le hpins hopen (hf f (by simp))
    refine .cons ⟨rfl, c, .refl c, hopen, rfl⟩ ?_
    refine (ih hopen' fun g hg => hf g (by simp [hg])).imp ?_
    rintro g e ⟨hname, c', hle', hopen'', hplaced⟩
    exact ⟨hname, c', hle.trans hle', hopen'', hplaced⟩

theorem exists_of_mem_placeFields (hpins : Separated pins) (hopen : c.Open pins)
    (hf : ∀ f ∈ fields, f.Sized) (he : e ∈ placeFields pins c fields) :
    ∃ f ∈ fields, e.1 = f.decl.name ∧
      ∃ c', c.Le c' ∧ c'.Open pins ∧ e.2 = (placeField pins c' f).2 := by
  have hall := forall₂_placeFields hpins hopen hf
  obtain ⟨i, hi, rfl⟩ := getElem_of_mem he
  have hi' : i < fields.length := by rw [hall.length_eq]; exact hi
  exact ⟨fields[i], getElem_mem hi', hall.get hi' hi⟩

end ContractYul.Storage
