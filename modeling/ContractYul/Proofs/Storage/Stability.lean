import ContractYul.Proofs.Storage.Disjoint

/-!
# Layouts that stay

When a class gets new fields, the fields that it had must keep their locations, or a contract that is
deployed would read one field as another. Constants have no location, and immutable fields neither
move the cursor nor count as pins, so that what is not one of them is placed as if they were not there
(`places_placeFields`). A field is placed by the cursor and the pins of all fields; fields behind it
that have no pin do not change either.

Main statement: `allocate_stable`.
-/

open List

namespace ContractYul.Storage

open Source Storage.Field

/-! ## Fields with a place in storage -/

def isStored (decl : FieldDecl) : Bool :=
  decl.storage == .persistent || decl.storage == .transient

/-- The fields of a lineage with a place in storage, from the base to the derived class. -/
def storedFields (l : Lineage) : List FieldDecl :=
  (l.classes.flatMap (·.fields)).filter isStored

/-- Where a location is and how much it takes. -/
def Slot.place (s : Slot) : Nat × Nat × Nat × Nat :=
  (s.slot, s.byteOffset, s.byteSize, s.span)

def stored (fields : List Field) : List Field :=
  fields.filter fun f => isStored f.decl

def places (entries : List (String × Slot)) : List (String × Nat × Nat × Nat × Nat) :=
  entries.map fun e => (e.1, e.2.place)

variable {f g : Field} {l : Lineage} {fields fields' : List Field} {c : Catalog}
  {transientSupported : Bool} {c' : Cursor} {layout : Layout}

theorem isStored_iff (h : f.decl.storage ≠ .constant) :
    isStored f.decl = true ↔ f.decl.storage ≠ .immutable := by
  unfold isStored
  cases hstorage : f.decl.storage <;> simp_all

/-- Checked fields of a lineage with a place in storage come from the declarations that have one. -/
theorem map_decl_stored (h : fields.map (fun f => (f.owner, f.decl)) = statefulFields l) :
    (stored fields).map (·.decl) = storedFields l := by
  have hdecls : fields.map (·.decl) =
      (l.classes.flatMap (·.fields)).filter (·.storage != .constant) := by
    have hsnd := congrArg (map Prod.snd) h
    rw [map_map] at hsnd
    rw [show fields.map (·.decl) = _ from hsnd, statefulFields, map_flatMap, filter_flatMap]
    simp [Function.comp_def]
  have hfilter : (stored fields).map (·.decl) = (fields.map (·.decl)).filter isStored := by
    rw [filter_map]
    rfl
  rw [hfilter, hdecls, filter_filter]
  refine filter_congr fun d _ => ?_
  unfold isStored
  cases d.storage <;> rfl

/-! ## Pins -/

/-- The pins of fields are those that they ask for, in whatever fields these are. -/
theorem pinsOf_eq_of_filterMap (h : fields.filterMap pin? = fields'.filterMap pin?) :
    pinsOf fields = pinsOf fields' := by
  have hfold : ∀ fields : List Field, pinsOf fields =
      (fields.filterMap pin?).foldl (fun pins p => insertPin p pins) [] := fun fields => by
    rw [pinsOf, foldl_filterMap]
    congr
    funext pins f
    cases f.pin? <;> rfl
  rw [hfold, hfold, h]

structure Field.Same (f g : Field) : Prop where
  decl : f.decl = g.decl
  ty : f.ty = g.ty
  span : f.span = g.span

theorem Field.Same.pin?_eq (h : f.Same g) : f.pin? = g.pin? := by
  unfold pin?
  rw [h.decl, h.span]

theorem Field.Admitted.same (hf : f.Admitted c transientSupported)
    (hg : g.Admitted c transientSupported) (h : f.decl = g.decl) : f.Same g := by
  have hty : f.ty = g.ty := by
    have hread := hf.typeOf
    rw [h] at hread
    exact Except.ok.inj (hread.symm.trans hg.typeOf)
  have hspan : f.span = g.span := by
    have hslots := hf.slots
    rw [hty] at hslots
    exact Except.ok.inj (hslots.symm.trans hg.slots)
  exact ⟨h, hty, hspan⟩

theorem filterMap_pin?_stored (h : ∀ f ∈ fields, f.decl.storage ≠ .constant) :
    (stored fields).filterMap pin? = fields.filterMap pin? := by
  rw [stored, filterMap_filter]
  refine filterMap_congr fun f hf => ?_
  split
  · rfl
  · rename_i hstored
    rw [isStored_iff (h f hf)] at hstored
    simp [pin?, hstored]

theorem filterMap_pin?_of_same (h : Forall₂ Same fields fields') :
    fields.filterMap pin? = fields'.filterMap pin? := by
  induction h with
  | nil => rfl
  | cons hfirst _ ih => rw [filterMap_cons, filterMap_cons, hfirst.pin?_eq, ih]

/-! ## Places -/

structure Cursor.Same (c c' : Cursor) : Prop where
  slot : c.slot = c'.slot
  offset : c.offset = c'.offset

theorem Cursor.Same.flush {c : Cursor} (h : c.Same c') : c.flush.Same c'.flush := by
  unfold Cursor.flush
  rw [h.offset]
  split
  · exact ⟨congrArg (· + 1) h.slot, rfl⟩
  · exact h

theorem Field.Same.place_locate (h : f.Same g) (slot offset : Nat) :
    (f.locate slot offset).place = (g.locate slot offset).place := by
  simp only [Slot.place, locate, h.ty, h.span]

theorem placeField_congr (pins : List Pin) {c : Cursor} (hsame : f.Same g)
    (hf : f.decl.storage ≠ .immutable) (h : c.Same c') :
    (placeField pins c f).2.place = (placeField pins c' g).2.place ∧
      (placeField pins c f).1.Same (placeField pins c' g).1 := by
  have hg : g.decl.storage ≠ .immutable := hsame.decl ▸ hf
  cases hpin : f.pin? with
  | some p =>
    rw [placeField_pinned hpin, placeField_pinned (hsame.pin?_eq ▸ hpin)]
    exact ⟨hsame.place_locate _ _, h.flush⟩
  | none =>
    have hslot : f.decl.slot = none := by simpa [pin?, hf] using hpin
    have hslot' : g.decl.slot = none := hsame.decl ▸ hslot
    simp only [placeField, beq_iff_eq, hf, hslot, hslot', if_false, ← hsame.ty]
    split
    · by_cases hroom : 0 < c.offset ∧ c.offset + min f.ty.byteSize 32 ≤ 32
      · have hroom' : 0 < c'.offset ∧ c'.offset + min g.ty.byteSize 32 ≤ 32 := by
          rwa [← h.offset, ← hsame.ty]
        rw [placePacked_of_room hroom.1 hroom.2, placePacked_of_room hroom'.1 hroom'.2, h.slot,
          h.offset, hsame.ty]
        exact ⟨hsame.place_locate _ _, rfl, rfl⟩
      · rw [placePacked_of_full (by omega), placePacked_of_full (by rw [← h.offset, ← hsame.ty]; omega),
          h.flush.slot, hsame.ty]
        exact ⟨hsame.place_locate _ _, rfl, rfl⟩
    · simp only [placeWhole, h.flush.slot, hsame.span]
      exact ⟨hsame.place_locate _ _, rfl, rfl⟩

theorem places_placeFields {c : Cursor} (hfields : ∀ f ∈ fields, f.decl.storage ≠ .constant)
    (hsame : Forall₂ Same (stored fields) fields') (h : c.Same c') :
    places ((placeFields pins c fields).filter fun e => !e.2.immutable) =
      places (placeFields pins c' fields') := by
  induction fields generalizing c c' fields' with
  | nil =>
    obtain rfl := forall₂_nil_left_iff.1 hsame
    rfl
  | cons f rest ih =>
    obtain ⟨hfirst, hrest⟩ := forall_mem_cons.1 hfields
    have hkept := isStored_iff hfirst
    rw [placeFields_cons, filter_cons, immutable_placeField]
    by_cases hf : f.decl.storage = .immutable
    · have hdropped : stored (f :: rest) = stored rest :=
        filter_cons_of_neg (by rw [hkept]; exact not_not.2 hf)
      rw [hdropped] at hsame
      rw [placeField_immutable hf, hf]
      exact ih hrest hsame ⟨h.slot, h.offset⟩
    · have hstays : stored (f :: rest) = f :: stored rest :=
        filter_cons_of_pos (hkept.2 hf)
      rw [hstays] at hsame
      obtain ⟨g, fields', hg, hothers, rfl⟩ := forall₂_cons_left_iff.1 hsame
      obtain ⟨hplace, hnext⟩ := placeField_congr pins hg hf h
      rw [beq_eq_false_iff_ne.2 hf]
      simp only [places, Bool.not_false, if_true, map_cons, hg.decl, hplace]
      exact congrArg _ (ih hrest hothers hnext)

/-- Fields that come later do not move those before them. -/
theorem isPrefix_placeFields (pins : List Pin) (c : Cursor) (fields more : List Field) :
    placeFields pins c fields <+: placeFields pins c (fields ++ more) := by
  induction fields generalizing c with
  | nil => exact nil_prefix
  | cons f rest ih =>
    exact (prefix_cons_inj _).2 (ih _)

/-! ## Two layouts -/

theorem Layout.get?_of_mem {s : Slot} (hnodup : (layout.slots.map (·.1)).Nodup)
    (h : (name, s) ∈ layout.slots) : layout.get? name = some s := by
  obtain ⟨front, back, hsplit⟩ := append_of_mem h
  rw [hsplit, map_append, nodup_append] at hnodup
  refine lookup_eq_some_iff.2 ⟨front, back, hsplit, fun e he => bne_iff_ne.2 ?_⟩
  exact (hnodup.2.2 e.1 (mem_map_of_mem he) name mem_cons_self).symm

theorem Layout.get?_of_mem_places {place : Nat × Nat × Nat × Nat}
    (hnodup : (layout.slots.map (·.1)).Nodup)
    (h : (name, place) ∈ places (layout.slots.filter fun e => !e.2.immutable)) :
    ∃ s, layout.get? name = some s ∧ s.place = place := by
  obtain ⟨⟨name', s⟩, hmem, heq⟩ := mem_map.1 h
  obtain ⟨rfl, rfl⟩ := Prod.mk.inj heq
  exact ⟨s, Layout.get?_of_mem hnodup (mem_of_mem_filter hmem), rfl⟩

structure Stored (c : Catalog) (l : Lineage) (transientSupported : Bool) (layout : Layout)
    (fields : List Field) : Prop where
  decls : fields.map (·.decl) = storedFields l
  admitted : ∀ f ∈ fields, f.Admitted c transientSupported
  nodup : (layout.slots.map (·.1)).Nodup
  placed : ∀ {fields'}, Forall₂ Same fields fields' →
    places (layout.slots.filter fun e => !e.2.immutable) =
      places (placeFields (pinsOf fields) .start fields')

theorem stored_of_allocate (h : allocate c l transientSupported = .ok layout) :
    ∃ fields, Stored c l transientSupported layout fields := by
  obtain ⟨fields, hfields, hslots⟩ := allocate_eq_ok h
  obtain ⟨hstateful, hwalked⟩ := walk_walked hfields
  have hstate : ∀ f ∈ fields, f.decl.storage ≠ .constant := by
    intro f hf
    have hmem : (f.owner, f.decl) ∈ statefulFields l := by
      rw [← hstateful]
      exact mem_map.2 ⟨f, hf, rfl⟩
    obtain ⟨cls, -, hmem⟩ := mem_flatMap.1 hmem
    obtain ⟨d, hd, heq⟩ := mem_map.1 hmem
    obtain ⟨-, rfl⟩ := Prod.mk.inj heq
    simpa using (mem_filter.1 hd).2
  refine ⟨stored fields, map_decl_stored hstateful,
    fun f hf => hwalked.admitted f (mem_of_mem_filter hf), ?_, fun hsame => ?_⟩
  · rw [hslots, map_fst_placeFields]
    exact hwalked.nodup
  · rw [hslots, pinsOf_eq_of_filterMap (filterMap_pin?_stored hstate)]
    exact places_placeFields hstate hsame ⟨rfl, rfl⟩

theorem Stored.map_fst_places (h : Stored c l transientSupported layout fields) :
    (places (layout.slots.filter fun e => !e.2.immutable)).map (·.1) =
      (fields.map (·.decl)).map (·.name) := by
  rw [h.placed (forall₂_same.2 fun f _ => ⟨rfl, rfl, rfl⟩), places, map_map, map_map]
  exact map_fst_placeFields _ _ _

/-- A field with a place in storage keeps its place when constants and immutable fields come and go,
and when fields without a pin come behind all others. -/
theorem allocate_stable {c : Catalog} {l l' : Lineage} {transientSupported : Bool}
    {layout layout' : Layout} (h : allocate c l transientSupported = .ok layout)
    (h' : allocate c l' transientSupported = .ok layout') {extra : List FieldDecl}
    (hfields : storedFields l' = storedFields l ++ extra) (hextra : ∀ d ∈ extra, d.slot = none) :
    ∀ d ∈ storedFields l, ∃ s s', layout.get? d.name = some s ∧ layout'.get? d.name = some s' ∧
      s.slot = s'.slot ∧ s.byteOffset = s'.byteOffset ∧ s.byteSize = s'.byteSize ∧
      s.span = s'.span := by
  obtain ⟨fields, hstored⟩ := stored_of_allocate h
  obtain ⟨fields', hstored'⟩ := stored_of_allocate h'
  rw [← hstored.decls, ← hstored'.decls] at hfields
  obtain ⟨kept, added, rfl, hkept, hadded⟩ := map_eq_append_iff.1 hfields
  -- fields of one declaration are the same in both
  have hsame : Forall₂ Field.Same fields kept := by
    have hdecls : Forall₂ (fun f g : Field => f.decl = g.decl) fields kept :=
      forall₂_map_right_iff.1 (forall₂_map_left_iff.1
        (forall₂_eq_eq_eq ▸ hkept.symm))
    refine forall₂_iff_zip.2 ⟨hdecls.length_eq, fun {f g} hmem => ?_⟩
    obtain ⟨hf, hg⟩ := of_mem_zip hmem
    exact (hstored.admitted f hf).same (hstored'.admitted g (mem_append_left _ hg))
      ((forall₂_iff_zip.1 hdecls).2 hmem)
  have hpins : pinsOf fields = pinsOf (kept ++ added) := by
    refine pinsOf_eq_of_filterMap ?_
    have hnone : added.filterMap Field.pin? = [] := by
      refine filterMap_eq_nil_iff.2 fun f hf => ?_
      have hslot := hextra f.decl (hadded ▸ mem_map_of_mem hf)
      simp [Field.pin?, hslot]
    rw [filterMap_append, hnone, append_nil, filterMap_pin?_of_same hsame]
  have hfront : places (layout.slots.filter fun e => !e.2.immutable) <+:
      places (layout'.slots.filter fun e => !e.2.immutable) := by
    rw [hstored.placed hsame, hstored'.placed (forall₂_same.2 fun f _ => ⟨rfl, rfl, rfl⟩), hpins]
    exact (isPrefix_placeFields _ _ kept added).map _
  intro d hd
  have hname : d.name ∈ (places (layout.slots.filter fun e => !e.2.immutable)).map (·.1) := by
    rw [hstored.map_fst_places, hstored.decls]
    exact mem_map_of_mem hd
  obtain ⟨⟨name, place⟩, hmem, rfl⟩ := mem_map.1 hname
  obtain ⟨s, hs, hplace⟩ := Layout.get?_of_mem_places hstored.nodup hmem
  obtain ⟨s', hs', hplace'⟩ := Layout.get?_of_mem_places hstored'.nodup (hfront.subset hmem)
  have hsame := hplace.trans hplace'.symm
  simp only [Slot.place, Prod.mk.injEq] at hsame
  exact ⟨s, s', hs, hs', hsame⟩

def firstVault : ClassDecl where
  name := "Vault"
  fields :=
    [{ name := "open", ty := "bool" },
     { name := "admin", ty := "address", slot := some 1 },
     { name := "limits", ty := "u256[2]" },
     { name := "lock", ty := "u8", storage := .transient }]

def signedBase : ClassDecl where
  name := "Signed"
  fields :=
    [{ name := "version", ty := "u8", storage := .constant },
     { name := "signer", ty := "address", storage := .immutable }]

def laterVault : ClassDecl where
  name := "Vault"
  fields :=
    [{ name := "open", ty := "bool" },
     { name := "deployer", ty := "address", storage := .immutable, slot := some 0 },
     { name := "admin", ty := "address", slot := some 1 },
     { name := "limits", ty := "u256[2]" },
     { name := "lock", ty := "u8", storage := .transient },
     { name := "scale", ty := "u256", storage := .constant },
     { name := "paused", ty := "bool" },
     { name := "total", ty := "u256" }]

theorem allocate_stable_vault : ∃ layout layout' extra,
    allocate {} ⟨[], firstVault⟩ true = .ok layout ∧
      allocate {} ⟨[signedBase], laterVault⟩ true = .ok layout' ∧
      storedFields ⟨[signedBase], laterVault⟩ = storedFields ⟨[], firstVault⟩ ++ extra ∧
      (∀ d ∈ extra, d.slot = none) ∧
      layout'.slots.map (fun e => (e.1, e.2.slot, e.2.byteOffset)) =
        [("signer", immutableBase, 0), ("open", 0, 0), ("deployer", immutableBase + 1, 0),
          ("admin", 1, 0), ("limits", 2, 0), ("lock", 4, 0), ("paused", 4, 1), ("total", 5, 0)] ∧
      ∀ d ∈ storedFields ⟨[], firstVault⟩, ∃ s s',
        layout.get? d.name = some s ∧ layout'.get? d.name = some s' ∧
          s.slot = s'.slot ∧ s.byteOffset = s'.byteOffset ∧ s.byteSize = s'.byteSize ∧
          s.span = s'.span := by
  obtain ⟨layout, hlayout, -⟩ := Outcome.exists_of_map_toOption
    (show (allocate {} ⟨[], firstVault⟩ true).toOption.map (fun _ => ()) = some () by decide +kernel)
  obtain ⟨layout', hlayout', hslots⟩ := Outcome.exists_of_map_toOption
    (show (allocate {} ⟨[signedBase], laterVault⟩ true).toOption.map (fun layout =>
        layout.slots.map fun e => (e.1, e.2.slot, e.2.byteOffset)) =
      some [("signer", immutableBase, 0), ("open", 0, 0), ("deployer", immutableBase + 1, 0),
        ("admin", 1, 0), ("limits", 2, 0), ("lock", 4, 0), ("paused", 4, 1), ("total", 5, 0)]
      by decide +kernel)
  have hfields : storedFields ⟨[signedBase], laterVault⟩ = storedFields ⟨[], firstVault⟩ ++
      [{ name := "paused", ty := "bool" }, { name := "total", ty := "u256" }] := rfl
  have hextra : ∀ d ∈ ([{ name := "paused", ty := "bool" }, { name := "total", ty := "u256" }] :
      List FieldDecl), d.slot = none := by simp
  exact ⟨layout, layout', _, hlayout, hlayout', hfields, hextra, hslots,
    allocate_stable hlayout hlayout' hfields hextra⟩

end ContractYul.Storage
