import ContractYul.Proofs.Storage.Placement

/-!
# Locations of a layout are disjoint

A layout has one location for each field with state, in the order of the fields. No byte of a slot
belongs to two locations that are both immutable or both not, even when the two are a persistent and
a transient field, which live in different storages.

The immutable range starts at a fixed slot. Nothing keeps the other locations below it: only the
first slot of a pin is compared with it. They stay below it exactly when every pinned region and the
last floating location end there (`below_immutable_range_iff`).
-/

open List

namespace ContractYul.Storage

open Source Outcome Storage.Field

/-! ## Entries and fields -/

variable {c : Cursor} {transientSupported : Bool} {fields : List Field} {pins : List Pin}
  {f : Field}

/-- Checked fields have spans and widths that belong to their types. -/
theorem Checked.sized {c : Catalog} (h : Checked c transientSupported fields) :
    ∀ f ∈ fields, f.Sized := by
  intro f hf
  have hadm := h.admitted f hf
  refine ⟨h.span_pos f hf, ?_, (Ty.byteSize_bounds (Ty.wellFormed_parse hadm.typeOf)).1⟩
  intro hscalar
  have hone := (SlotKind.of_scalar hscalar).2.2 c
  exact Except.ok.inj (hadm.slots.symm.trans hone)

theorem covers_pinned (hf : f.Sized) (hp : f.pin? = some p)
    (h : (placeField pins c f).2.Covers slot byte) : p.start ≤ slot ∧ slot < p.stop := by
  rw [placeField_pinned hp] at h
  obtain ⟨-, start, -, rfl⟩ := pin?_eq_some.1 hp
  exact h.slot_bounds hf.span_pos

theorem Field.Sized.span_placeField (hf : f.Sized) (pins : List Pin) (c : Cursor) :
    0 < (placeField pins c f).2.span := by
  obtain ⟨slot, offset, hlocate⟩ := exists_locate pins c f
  rw [hlocate]
  exact hf.span_pos

theorem covers_floating (hpins : Separated pins) (hopen : c.Open pins) (hf : f.Sized)
    (hfloating : f.Floating) (hp : p ∈ pins) (h : (placeField pins c f).2.Covers slot byte) :
    slot < p.start ∨ p.stop ≤ slot := by
  have hfits := placeField_floating hpins hopen hf hfloating
  have hbounds := h.slot_bounds (hf.span_placeField pins c)
  have hfree := hfits.free p hp
  omega

/-- A location is disjoint from every later one of its kind. -/
theorem placeField_disjoint (hpins : Separated pins) (hopen : c.Open pins) (hopen' : c'.Open pins)
    (hf : f.Sized) (hg : g.Sized) (hle : (placeField pins c f).1.Le c')
    (hmem : ∀ p, f.pin? = some p ∨ g.pin? = some p → p ∈ pins)
    (hapart : ∀ p q, f.pin? = some p → g.pin? = some q → p.Apart q)
    (hsame : f.decl.storage = .immutable ↔ g.decl.storage = .immutable) :
    (placeField pins c f).2.Disjoint (placeField pins c' g).2 := by
  intro slot byte hcf hcg
  rcases f.kinds with hfi | ⟨p, hp⟩ | hff
  · -- immutable fields come one after the other in a range of their own
    have hgi := hsame.1 hfi
    rw [placeField_immutable hfi] at hcf hle
    rw [placeField_immutable hgi] at hcg
    have hbf := hcf.slot_bounds hf.span_pos
    have hbg := hcg.slot_bounds hg.span_pos
    have hnext := hle.nextImmutable_le
    simp only [locate] at hbf hbg hnext
    omega
  · have hbf := covers_pinned hf hp hcf
    rcases g.kinds with hgi | ⟨q, hq⟩ | hgf
    · exact (pin?_eq_some.1 hp).1 (hsame.2 hgi)
    · have hbg := covers_pinned hg hq hcg
      rcases hapart p q hp hq with h | h <;> omega
    · have := covers_floating hpins hopen' hg hgf (hmem p (.inl hp)) hcg
      omega
  · rcases g.kinds with hgi | ⟨q, hq⟩ | hgf
    · exact hff.1 (hsame.2 hgi)
    · have hbg := covers_pinned hg hq hcg
      have := covers_floating hpins hopen hf hff (hmem q (.inr hq)) hcf
      omega
    · -- the later floating field is ahead of a cursor that the earlier one is behind
      have hpassed := (placeField_floating hpins hopen hf hff).behind slot byte hcf
      exact (placeField_floating hpins hopen' hg hgf).ahead slot byte hcg (hle.passed _ _ hpassed)

theorem immutable_placeField (pins : List Pin) (c : Cursor) (f : Field) :
    (placeField pins c f).2.immutable = (f.decl.storage == .immutable) := by
  obtain ⟨slot, offset, hlocate⟩ := exists_locate pins c f
  rw [hlocate]
  rfl

theorem pairwise_placeFields (hpins : Separated pins) (hopen : c.Open pins)
    (hf : ∀ f ∈ fields, f.Sized) (hmem : ∀ p ∈ fields.filterMap pin?, p ∈ pins)
    (hapart : (fields.filterMap pin?).Pairwise Pin.Apart) :
    (placeFields pins c fields).Pairwise fun a b =>
      a.2.immutable = b.2.immutable → a.2.Disjoint b.2 := by
  induction fields generalizing c with
  | nil => exact .nil
  | cons f rest ih =>
    have hfirst := hf f (by simp)
    have hrest : ∀ g ∈ rest, g.Sized := fun g hg => hf g (by simp [hg])
    obtain ⟨-, hopen'⟩ := placeField_le hpins hopen hfirst
    have hsub : (rest.filterMap pin?).Sublist ((f :: rest).filterMap pin?) :=
      (sublist_cons_self f rest).filterMap _
    rw [placeFields_cons]
    refine pairwise_cons.2 ⟨?_, ih hopen' hrest (fun p hp => hmem p (hsub.subset hp))
      (hapart.sublist hsub)⟩
    intro e he hsame
    obtain ⟨g, hg, -, c', hle, hopen'', hplaced⟩ := exists_of_mem_placeFields hpins hopen' hrest he
    rw [hplaced] at hsame ⊢
    refine placeField_disjoint hpins hopen hopen'' hfirst (hrest g hg) hle ?_ ?_ ?_
    · rintro p (hp | hp)
      · exact hmem p (mem_filterMap.2 ⟨f, by simp, hp⟩)
      · exact hmem p (mem_filterMap.2 ⟨g, by simp [hg], hp⟩)
    · intro p q hp hq
      rw [filterMap_cons_some hp] at hapart
      exact (pairwise_cons.1 hapart).1 q (mem_filterMap.2 ⟨g, hg, hq⟩)
    · rw [immutable_placeField, immutable_placeField] at hsame
      rw [← beq_iff_eq, hsame, beq_iff_eq]

/-! ## The layout of a lineage -/

structure Slot.Holds (c : Catalog) (owner : String) (decl : FieldDecl) (s : Slot) : Prop where
  owner_eq : s.owner = owner
  typeText_eq : s.typeText = decl.ty
  typeOf : c.typeOf decl.ty = .ok s.ty
  slots : c.slotsOf s.ty = .ok s.span
  transient_iff : s.transient = true ↔ decl.storage = .transient
  immutable_iff : s.immutable = true ↔ decl.storage = .immutable
  pinned : ∀ pin, decl.slot = some pin → decl.storage ≠ .immutable →
    s.slot = pin ∧ s.byteOffset = 0
  span_pos : 1 ≤ s.span
  within : s.byteOffset + s.byteSize ≤ 32

theorem allocate_eq_ok {c : Catalog} (h : allocate c l transientSupported = .ok layout) :
    ∃ fields, checkFields c l transientSupported = .ok fields ∧
      layout.slots = placeFields (pinsOf fields) .start fields := by
  obtain ⟨fields, hfields, h⟩ := bind_eq_ok.1 h
  cases h
  exact ⟨fields, hfields, rfl⟩

/-- The entry that a checked field gets is as its declaration asks for it. -/
theorem holds_placeField {c : Catalog} (hpins : Separated pins) (hopen : cur.Open pins)
    (hf : f.Sized) (hadm : f.Admitted c transientSupported) :
    (placeField pins cur f).2.Holds c f.owner f.decl := by
  obtain ⟨slot, offset, hlocate⟩ := exists_locate pins cur f
  have hwithin := placeField_within hpins hopen hf
  have hpinned : ∀ pin, f.decl.slot = some pin → f.decl.storage ≠ .immutable →
      (placeField pins cur f).2.slot = pin ∧ (placeField pins cur f).2.byteOffset = 0 := by
    intro pin hslot hstorage
    rw [placeField_pinned (pin?_eq_some.2 ⟨hstorage, pin, hslot, rfl⟩)]
    exact ⟨rfl, rfl⟩
  rw [hlocate] at hwithin hpinned ⊢
  exact ⟨rfl, rfl, hadm.typeOf, hadm.slots, by simp [locate], by simp [locate],
    hpinned, hf.span_pos, hwithin⟩

/-- A layout has one entry for each field with state, in order and under its name, as the field asks
for it, and any two entries that are both immutable or both not are disjoint, where slots are counted
without a bound or no type is counted as taking none. -/
theorem allocate_disjoint {file : File} {available : List File} {counting : Ty.Counting}
    {c : Catalog} {l : Lineage} {transientSupported : Bool} {layout : Layout}
    (hc : Catalog.ofFile file available counting = .ok c)
    (hcounts : counting = .unbounded ∨ Sized c (statefulFields l))
    (h : allocate c l transientSupported = .ok layout) :
    Forall₂ (fun field e => e.1 = field.2.name ∧ e.2.Holds c field.1 field.2)
        (statefulFields l) layout.slots ∧
      (layout.slots.map (·.1)).Nodup ∧
      layout.slots.Pairwise fun a b => a.2.immutable = b.2.immutable → a.2.Disjoint b.2 := by
  obtain ⟨fields, hfields, hslots⟩ := allocate_eq_ok h
  obtain ⟨hstateful, hchecked⟩ := walk_checked (sized_of_ofFile hc hcounts) hfields
  have hsized := hchecked.sized
  have hpins := separated_pinsOf hchecked
  have hplaced := forall₂_placeFields hpins (Cursor.open_start _) hsized
  rw [hslots]
  refine ⟨?_, ?_, ?_⟩
  · rw [← hstateful, forall₂_map_left_iff]
    refine (forall₂_and_left _ _ |>.2 ⟨fun f hf => hf, hplaced⟩).imp ?_
    rintro f e ⟨hf, hname, cur, -, hopen, heq⟩
    refine ⟨hname, ?_⟩
    rw [heq]
    exact holds_placeField hpins hopen (hsized f hf) (hchecked.admitted f hf)
  · rw [map_fst_placeFields]
    exact hchecked.nodup
  · exact pairwise_placeFields hpins (Cursor.open_start _) hsized
      (fun p hp => hchecked.perm.mem_iff.2 hp) hchecked.apart

/-- A class with a pin that closes a slot begun and stands in the way of a region. -/
def pinnedClass : ClassDecl where
  name := "Pinned"
  fields :=
    [{ name := "flag", ty := "bool" },
     { name := "admin", ty := "address", slot := some 2 },
     { name := "pair", ty := "u256[2]" },
     { name := "lock", ty := "u8", storage := .transient },
     { name := "deployer", ty := "address", storage := .immutable }]

def pinnedCatalog : Catalog where
  classes := ⟨[("Pinned", pinnedClass)], by simp⟩

theorem ofFile_pinned :
    Catalog.ofFile { path := "a.ts", classes := [pinnedClass] } [] = .ok pinnedCatalog :=
  rfl

instance (c : Catalog) (d : String × FieldDecl) :
    Decidable (∀ t, c.typeOf d.2.ty = .ok t → c.slotsOf t ≠ .ok 0) :=
  decidable_of_iff ((c.typeOf d.2.ty >>= c.slotsOf).toOption ≠ some 0) (by
    cases c.typeOf d.2.ty with
    | error e => simp [Except.toOption]
    | ok t => cases h : c.slotsOf t <;> simp [h, Except.toOption])

instance (c : Catalog) (ds : List (String × FieldDecl)) : Decidable (Sized c ds) :=
  inferInstanceAs (Decidable (∀ d ∈ ds, _))

theorem sized_pinned : Sized pinnedCatalog (statefulFields ⟨[], pinnedClass⟩) := by
  decide +kernel

/-- The pair moves behind the pin, and all five locations are disjoint. -/
theorem allocate_disjoint_pinned :
    Catalog.ofFile { path := "a.ts", classes := [pinnedClass] } [] = .ok pinnedCatalog ∧
    ∃ layout, allocate pinnedCatalog ⟨[], pinnedClass⟩ true = .ok layout ∧
      layout.slots.map (fun e => (e.1, e.2.slot, e.2.byteOffset, e.2.byteSize, e.2.span)) =
        [("flag", 0, 0, 1, 1), ("admin", 2, 0, 20, 1), ("pair", 3, 0, 32, 2), ("lock", 5, 0, 1, 1),
          ("deployer", immutableBase, 0, 20, 1)] ∧
      layout.slots.Pairwise fun a b => a.2.immutable = b.2.immutable → a.2.Disjoint b.2 := by
  obtain ⟨layout, hlayout, hslots⟩ := exists_of_map_toOption
    (show (allocate pinnedCatalog ⟨[], pinnedClass⟩ true).toOption.map (fun layout =>
        layout.slots.map fun e => (e.1, e.2.slot, e.2.byteOffset, e.2.byteSize, e.2.span)) =
      some [("flag", 0, 0, 1, 1), ("admin", 2, 0, 20, 1), ("pair", 3, 0, 32, 2), ("lock", 5, 0, 1, 1),
        ("deployer", immutableBase, 0, 20, 1)] by decide +kernel)
  exact ⟨ofFile_pinned, layout, hlayout, hslots,
    (allocate_disjoint ofFile_pinned (.inr sized_pinned) hlayout).2.2⟩

/-! ## The immutable range -/

def cursorAfter (pins : List Pin) (c : Cursor) (fields : List Field) : Cursor :=
  fields.foldl (fun c f => (placeField pins c f).1) c

/-- Locations of fields that are not immutable end below a bound exactly when their pins and the
cursor behind them do. -/
theorem placeFields_below_iff (bound : Nat) (hpins : Separated pins) (hopen : c.Open pins)
    (hf : ∀ f ∈ fields, f.Sized) :
    (c.flush.slot ≤ bound ∧ ∀ e ∈ placeFields pins c fields, e.2.immutable = false →
        e.2.slot + e.2.span ≤ bound) ↔
      (∀ p ∈ fields.filterMap pin?, p.stop ≤ bound) ∧
        (cursorAfter pins c fields).flush.slot ≤ bound := by
  induction fields generalizing c with
  | nil => simp [placeFields, cursorAfter]
  | cons f rest ih =>
    have hfirst := hf f (by simp)
    obtain ⟨hle, hopen'⟩ := placeField_le hpins hopen hfirst
    have hrest := ih hopen' fun g hg => hf g (by simp [hg])
    have himmutable : (placeField pins c f).2.immutable ↔ f.decl.storage = .immutable := by
      rw [immutable_placeField, beq_iff_eq]
    rw [placeFields_cons, forall_mem_cons, cursorAfter, foldl_cons, ← cursorAfter]
    rcases f.kinds with hfi | ⟨p, hp⟩ | hff
    · have hnone : f.pin? = none := by simp [pin?, hfi]
      have hflush : (placeField pins c f).1.flush.slot = c.flush.slot := by
        rw [placeField_immutable hfi, Cursor.flush_slot, Cursor.flush_slot]
      rw [filterMap_cons_none hnone, ← hrest, hflush]
      simp [himmutable.2 hfi]
    · have hflush : (placeField pins c f).1.flush.slot = c.flush.slot := by
        rw [placeField_pinned hp, Cursor.flush_flush]
      have hstop : (placeField pins c f).2.slot + (placeField pins c f).2.span = p.stop := by
        rw [placeField_pinned hp]
        obtain ⟨-, slot, -, rfl⟩ := pin?_eq_some.1 hp
        rfl
      have hkept : (placeField pins c f).2.immutable = false := by
        rw [Bool.eq_false_iff]
        exact fun h => (pin?_eq_some.1 hp).1 (himmutable.1 h)
      rw [filterMap_cons_some hp, forall_mem_cons, and_assoc, ← hrest, hflush, hstop]
      tauto
    · have hnone : f.pin? = none := by simp [pin?, hff.2]
      have hstop := (placeField_floating hpins hopen hfirst hff).stop
      have hkept : (placeField pins c f).2.immutable = false := by
        rw [Bool.eq_false_iff]
        exact fun h => hff.1 (himmutable.1 h)
      -- the cursor behind a floating field is at its end
      rw [filterMap_cons_none hnone, ← hrest, ← hstop, hkept]
      have := hle.flush_le
      constructor
      · rintro ⟨-, hend, hall⟩
        exact ⟨hend rfl, hall⟩
      · rintro ⟨hend, hall⟩
        exact ⟨Nat.le_trans this hend, fun _ => hend, hall⟩

theorem immutable_slot_ge (hpins : Separated pins) (hf : ∀ f ∈ fields, f.Sized)
    (he : e ∈ placeFields pins .start fields) (himmutable : e.2.immutable = true) :
    immutableBase ≤ e.2.slot := by
  obtain ⟨f, hfm, -, c, hle, hopen, heq⟩ :=
    exists_of_mem_placeFields hpins (Cursor.open_start _) hf he
  rw [heq] at himmutable ⊢
  rw [placeField_immutable (by simpa [immutable_placeField] using himmutable)]
  exact hle.nextImmutable_le

/-- The locations of persistent and transient fields stay below the immutable range exactly when
every pinned region ends below it and so does the last floating location; then no immutable field
shares a byte with any of them. Again slots are counted without a bound or no type is counted as
taking none. -/
theorem below_immutable_range_iff {file : File} {available : List File} {counting : Ty.Counting}
    {c : Catalog} {l : Lineage} {transientSupported : Bool} {fields : List Field} {layout : Layout}
    (hc : Catalog.ofFile file available counting = .ok c)
    (hcounts : counting = .unbounded ∨ Sized c (statefulFields l))
    (hfields : checkFields c l transientSupported = .ok fields)
    (h : allocate c l transientSupported = .ok layout) :
    ((∀ e ∈ layout.slots, e.2.immutable = false →
        ∀ slot, e.2.slot ≤ slot → slot < e.2.slot + e.2.span → slot < immutableBase) ↔
      (∀ p ∈ pinsOf fields, p.stop ≤ immutableBase) ∧
        (cursorAfter (pinsOf fields) .start fields).flush.slot ≤ immutableBase) ∧
    ((∀ p ∈ pinsOf fields, p.stop ≤ immutableBase) →
      (cursorAfter (pinsOf fields) .start fields).flush.slot ≤ immutableBase →
      ∀ a ∈ layout.slots, ∀ b ∈ layout.slots, a.2.immutable = true → b.2.immutable = false →
        a.2.Disjoint b.2) := by
  obtain ⟨fields', hfields', hslots⟩ := allocate_eq_ok h
  obtain rfl := Except.ok.inj (hfields.symm.trans hfields')
  obtain ⟨-, hchecked⟩ := walk_checked (sized_of_ofFile hc hcounts) hfields
  have hsized := hchecked.sized
  have hpins := separated_pinsOf hchecked
  have hopen := Cursor.open_start (pinsOf fields)
  have hspan : ∀ e ∈ placeFields (pinsOf fields) .start fields, 0 < e.2.span := by
    intro e he
    obtain ⟨f, hf, -, c', -, -, heq⟩ := exists_of_mem_placeFields hpins hopen hsized he
    exact heq ▸ (hsized f hf).span_placeField _ c'
  have hbelow := placeFields_below_iff immutableBase hpins hopen hsized
  simp only [← hchecked.perm.mem_iff] at hbelow
  rw [hslots]
  refine ⟨?_, ?_⟩
  · rw [← hbelow]
    constructor
    · intro hall
      refine ⟨Nat.zero_le _, fun e he hkept => ?_⟩
      have hlast := hall e he hkept (e.2.slot + e.2.span - 1)
      have := hspan e he
      omega
    · rintro ⟨-, hall⟩ e he hkept slot - hslot
      have := hall e he hkept
      omega
  · intro hstops hcursor a ha b hb himmutable hkept slot byte hca hcb
    have hge := immutable_slot_ge hpins hsized ha himmutable
    have hlt := (hbelow.2 ⟨hstops, hcursor⟩).2 b hb hkept
    have hba := hca.slot_bounds (hspan a ha)
    have hbb := hcb.slot_bounds (hspan b hb)
    omega

/-- Small pins and few fields leave the immutable range alone. -/
theorem below_immutable_range_pinned :
    ∃ fields layout, Catalog.ofFile { path := "a.ts", classes := [pinnedClass] } [] =
        .ok pinnedCatalog ∧
      checkFields pinnedCatalog ⟨[], pinnedClass⟩ true = .ok fields ∧
      allocate pinnedCatalog ⟨[], pinnedClass⟩ true = .ok layout ∧
      (∀ p ∈ pinsOf fields, p.stop ≤ immutableBase) ∧
      (cursorAfter (pinsOf fields) .start fields).flush.slot = 6 ∧
      (∀ e ∈ layout.slots, e.2.immutable = false →
        ∀ slot, e.2.slot ≤ slot → slot < e.2.slot + e.2.span → slot < immutableBase) ∧
      ∀ a ∈ layout.slots, ∀ b ∈ layout.slots, a.2.immutable = true → b.2.immutable = false →
        a.2.Disjoint b.2 := by
  obtain ⟨fields, hfields, hbounds⟩ := exists_of_map_toOption
    (show (checkFields pinnedCatalog ⟨[], pinnedClass⟩ true).toOption.map (fun fields =>
        decide ((∀ p ∈ pinsOf fields, p.stop ≤ immutableBase) ∧
          (cursorAfter (pinsOf fields) .start fields).flush.slot = 6)) = some true
      by decide +kernel)
  obtain ⟨hstops, hcursor⟩ := of_decide_eq_true hbounds
  have hlayout : allocate pinnedCatalog ⟨[], pinnedClass⟩ true =
      .ok ⟨placeFields (pinsOf fields) .start fields⟩ :=
    bind_eq_ok.2 ⟨fields, hfields, rfl⟩
  have hcursor_le : (cursorAfter (pinsOf fields) .start fields).flush.slot ≤ immutableBase := by
    rw [hcursor]
    decide
  obtain ⟨hiff, hdisjoint⟩ := below_immutable_range_iff ofFile_pinned (.inr sized_pinned)
    hfields hlayout
  exact ⟨fields, _, ofFile_pinned, hfields, hlayout, hstops, hcursor, hiff.2 ⟨hstops, hcursor_le⟩,
    hdisjoint hstops hcursor_le⟩

/-- A class with a pinned region that starts in the last slot below the immutable range. -/
def overreachingClass : ClassDecl where
  name := "Overreaching"
  fields :=
    [{ name := "limits", ty := "u256[2]", slot := some (immutableBase - 1) },
     { name := "deployer", ty := "address", storage := .immutable }]

def overreachingCatalog : Catalog where
  classes := ⟨[("Overreaching", overreachingClass)], by simp⟩

/-- The layout is allocated, and the second element of the region lies on the immutable field. -/
theorem immutable_range_overlap :
    Catalog.ofFile { path := "a.ts", classes := [overreachingClass] } [] =
      .ok overreachingCatalog ∧
    ∃ layout, allocate overreachingCatalog ⟨[], overreachingClass⟩ true = .ok layout ∧
      ∃ a ∈ layout.slots, ∃ b ∈ layout.slots, a.2.immutable = true ∧ b.2.immutable = false ∧
        a.2.Covers immutableBase 0 ∧ b.2.Covers immutableBase 0 := by
  obtain ⟨layout, hlayout, hoverlap⟩ := exists_of_map_toOption
    (show (allocate overreachingCatalog ⟨[], overreachingClass⟩ true).toOption.map (fun layout =>
        decide (∃ a ∈ layout.slots, ∃ b ∈ layout.slots, a.2.immutable = true ∧
          b.2.immutable = false ∧ a.2.Covers immutableBase 0 ∧ b.2.Covers immutableBase 0)) =
      some true by decide +kernel)
  exact ⟨rfl, layout, hlayout, of_decide_eq_true hoverlap⟩

end ContractYul.Storage
