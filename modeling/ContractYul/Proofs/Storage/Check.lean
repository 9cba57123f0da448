import ContractYul.Proofs.Catalog.Sizes
import ContractYul.Storage.Layout
import Mathlib.Data.List.Induction

/-!
# What the first pass of a layout establishes

The first pass walks the fields of a lineage and refuses the first one that does not fit with those
before it. `Checked` is what then holds of the fields, and it is an invariant of the walk: it holds
of no fields, and `checked_append` shows that a field that passes its check keeps it.

The pins of checked fields are disjoint regions. Sorted by their start they lie one behind the other
(`separated_pinsOf`), which is what the search for free regions relies on. A pin takes the place of
one with the same start, which would lose a pin if an empty region could start where another does; so
all of this is about fields whose types are not counted as taking no slot (`Sized`).
-/

open List

namespace ContractYul.Storage

open Source Outcome Storage.Field

/-! ## Pins -/

def Pin.Covers (p : Pin) (slot : Nat) : Prop :=
  p.start ≤ slot ∧ slot < p.stop

def Pin.Apart (p q : Pin) : Prop :=
  p.stop ≤ q.start ∨ q.stop ≤ p.start

variable {p : Pin} {pins : List Pin} {fields : List Field} {f : Field} {c : Catalog}
  {transientSupported : Bool}

theorem Pin.Apart.symm (h : p.Apart q) : q.Apart p :=
  Or.symm h

theorem perm_insertPin {pins : List Pin} (h : ∀ q ∈ pins, p.start ≠ q.start) :
    (insertPin p pins).Perm (p :: pins) := by
  induction pins with
  | nil => exact .refl _
  | cons q rest ih =>
    obtain ⟨hq, hrest⟩ := forall_mem_cons.1 h
    rw [insertPin]
    split
    · exact .refl _
    · exact ((ih hrest).cons q).trans (.swap p q rest)

theorem subset_insertPin (p : Pin) (pins : List Pin) : insertPin p pins ⊆ p :: pins := by
  induction pins with
  | nil => exact fun _ h => h
  | cons q rest ih =>
    rw [insertPin]
    split
    · exact fun _ h => h
    · split
      · exact cons_subset_cons p (subset_cons_self q rest)
      · refine cons_subset.2 ⟨by simp, fun r hr => ?_⟩
        rcases mem_cons.1 (ih hr) with rfl | hr <;> simp [*]

theorem pairwise_insertPin (h : pins.Pairwise fun a b => a.start < b.start) :
    (insertPin p pins).Pairwise fun a b => a.start < b.start := by
  induction pins with
  | nil => simp [insertPin]
  | cons q rest ih =>
    obtain ⟨hq, hrest⟩ := pairwise_cons.1 h
    rw [insertPin]
    split
    · rename_i hlt
      refine pairwise_cons.2 ⟨fun b hb => ?_, h⟩
      rcases mem_cons.1 hb with rfl | hb
      · exact hlt
      · exact Nat.lt_trans hlt (hq b hb)
    · split
      · rename_i heq
        exact pairwise_cons.2 ⟨fun b hb => heq ▸ hq b hb, hrest⟩
      · refine pairwise_cons.2 ⟨fun b hb => ?_, ih hrest⟩
        rcases mem_cons.1 (subset_insertPin p rest hb) with rfl | hb
        · omega
        · exact hq b hb

theorem pinsOf_append (fields : List Field) (f : Field) :
    pinsOf (fields ++ [f]) = f.pin?.elim (pinsOf fields) fun p => insertPin p (pinsOf fields) := by
  rw [pinsOf, foldl_append]
  cases hpin : f.pin? <;> simp [pinsOf, hpin]

theorem pairwise_pinsOf (fields : List Field) :
    (pinsOf fields).Pairwise fun a b => a.start < b.start := by
  induction fields using reverseRecOn with
  | nil => exact .nil
  | append_singleton fields f ih =>
    rw [pinsOf_append]
    cases f.pin? with
    | none => exact ih
    | some p => exact pairwise_insertPin ih

/-- Pins with starts of their own are all kept. -/
theorem perm_pinsOf (h : (fields.filterMap pin?).Pairwise fun p q => p.start ≠ q.start) :
    (pinsOf fields).Perm (fields.filterMap pin?) := by
  induction fields using reverseRecOn with
  | nil => exact .refl _
  | append_singleton fields f ih =>
    rw [filterMap_append, pairwise_append] at h
    obtain ⟨hfields, -, hlast⟩ := h
    rw [pinsOf_append, filterMap_append]
    cases hpin : f.pin? with
    | none => simpa [hpin] using ih hfields
    | some p =>
      have hnew : ∀ q ∈ pinsOf fields, p.start ≠ q.start := fun q hq =>
        (hlast q ((ih hfields).mem_iff.1 hq) p (by simp [hpin])).symm
      have hperm := (perm_insertPin hnew).trans ((ih hfields).cons p)
      simpa [hpin] using hperm.trans (perm_append_singleton p _).symm

theorem Field.pin?_eq_some :
    f.pin? = some p ↔ f.decl.storage ≠ .immutable ∧
      ∃ slot, f.decl.slot = some slot ∧ p = ⟨slot, slot + f.span, f.decl.name⟩ := by
  unfold pin?
  split
  · simp_all
  · simp only [Option.map_eq_some_iff, eq_comm (b := p)]
    simp_all

/-- A pin passes its check when it starts below the immutable range and apart from all others. -/
theorem checkPin_eq_ok :
    checkPin pins p = .ok () ↔ p.start < immutableBase ∧ ∀ q ∈ pins, p.Apart q := by
  unfold checkPin
  split
  · simp only [reduceCtorEq, false_iff]
    omega
  · have hstart : p.start < immutableBase := by omega
    split
    · rename_i q hq
      have hmem := mem_of_find?_eq_some hq
      have hov := find?_some hq
      simp only [Bool.and_eq_true, decide_eq_true_eq] at hov
      simp only [reduceCtorEq, false_iff, not_and]
      intro _ hall
      rcases hall q hmem with h | h <;> omega
    · rename_i hnone
      refine iff_of_true rfl ⟨hstart, fun q hq => ?_⟩
      have := find?_eq_none.1 hnone q hq
      simp only [Bool.and_eq_true, decide_eq_true_eq] at this
      unfold Pin.Apart
      omega

/-! ## Checked fields -/

/-- What the check of a field says about the field alone. -/
structure Field.Admitted (c : Catalog) (transientSupported : Bool) (f : Field) : Prop where
  typeOf : c.typeOf f.decl.ty = .ok f.ty
  slots : c.slotsOf f.ty = .ok f.span
  transient : f.decl.storage = .transient → transientSupported = true
  pin_lt : ∀ p, f.pin? = some p → p.start < immutableBase

/-- What the first pass establishes of the fields it has walked, whatever their sizes. -/
structure Walked (c : Catalog) (transientSupported : Bool) (fields : List Field) : Prop where
  admitted : ∀ f ∈ fields, f.Admitted c transientSupported
  nodup : (fields.map (·.decl.name)).Nodup

/-- What it establishes of fields that take a slot. -/
structure Checked (c : Catalog) (transientSupported : Bool) (fields : List Field) : Prop
    extends Walked c transientSupported fields where
  apart : (fields.filterMap pin?).Pairwise Pin.Apart
  span_pos : ∀ f ∈ fields, 0 < f.span

theorem Checked.nonempty (h : Checked c transientSupported fields)
    (hp : p ∈ fields.filterMap pin?) : p.start < p.stop := by
  obtain ⟨f, hf, hpin⟩ := mem_filterMap.1 hp
  obtain ⟨-, slot, -, rfl⟩ := pin?_eq_some.1 hpin
  exact Nat.lt_add_of_pos_right (h.span_pos f hf)

theorem Checked.perm (h : Checked c transientSupported fields) :
    (pinsOf fields).Perm (fields.filterMap pin?) := by
  refine perm_pinsOf (h.apart.imp_of_mem fun {p q} hp hq hapart => ?_)
  have hp := h.nonempty hp
  have hq := h.nonempty hq
  rcases hapart with hapart | hapart <;> omega

/-- A field passes its check exactly when it is admitted, has a name of its own and a pin apart from
the pins before it. -/
theorem checkField_eq_ok {owner : String} {decl : FieldDecl} :
    checkField c transientSupported earlier owner decl = .ok f ↔
      f.owner = owner ∧ f.decl = decl ∧ f.Admitted c transientSupported ∧
        decl.name ∉ earlier.map (·.decl.name) ∧
        ∀ p, f.pin? = some p → ∀ q ∈ pinsOf earlier, p.Apart q := by
  unfold checkField
  split
  · rename_i first hfirst
    have hname : first.decl.name = decl.name := by simpa using find?_some hfirst
    have hmem : decl.name ∈ earlier.map (·.decl.name) :=
      mem_map.2 ⟨first, mem_of_find?_eq_some hfirst, hname⟩
    simp only [reduceCtorEq, false_iff]
    rintro ⟨-, -, -, hnew, -⟩
    exact hnew hmem
  rename_i hnone
  have hnew : decl.name ∉ earlier.map (·.decl.name) := by
    intro hmem
    obtain ⟨g, hg, hname⟩ := mem_map.1 hmem
    exact find?_eq_none.1 hnone g hg (by simpa using hname)
  split
  · rename_i htransient
    simp only [Bool.and_eq_true, beq_iff_eq, Bool.not_eq_true'] at htransient
    simp only [reduceCtorEq, false_iff]
    rintro ⟨-, rfl, hadm, -, -⟩
    simpa [htransient.2] using hadm.transient htransient.1
  rename_i htransient
  simp only [Bool.and_eq_true, beq_iff_eq, Bool.not_eq_true', not_and, Bool.not_eq_false] at htransient
  constructor
  · intro h
    obtain ⟨ty, hty, h⟩ := bind_eq_ok.1 h
    obtain ⟨span, hspan, h⟩ := bind_eq_ok.1 h
    dsimp only at h
    split at h
    · rename_i p hp
      obtain ⟨_, hcheck, h⟩ := bind_eq_ok.1 h
      obtain rfl := pure_eq_ok.1 h
      obtain ⟨hlt, hapart⟩ := checkPin_eq_ok.1 hcheck
      exact ⟨rfl, rfl, ⟨hty, hspan, htransient, by simpa [hp] using hlt⟩, hnew,
        by simpa [hp] using hapart⟩
    · rename_i hnone
      obtain rfl := pure_eq_ok.1 h
      exact ⟨rfl, rfl, ⟨hty, hspan, htransient, by simp [hnone]⟩, hnew, by simp [hnone]⟩
  · rintro ⟨rfl, rfl, hadm, -, hapart⟩
    refine bind_eq_ok.2 ⟨f.ty, hadm.typeOf, bind_eq_ok.2 ⟨f.span, hadm.slots, ?_⟩⟩
    dsimp only
    split
    · rename_i p hp
      exact bind_eq_ok.2 ⟨(), checkPin_eq_ok.2 ⟨hadm.pin_lt p hp, hapart p hp⟩, rfl⟩
    · rfl

theorem walked_append {owner : String} {decl : FieldDecl}
    (hwalked : Walked c transientSupported earlier)
    (h : checkField c transientSupported earlier owner decl = .ok f) :
    Walked c transientSupported (earlier ++ [f]) := by
  obtain ⟨-, rfl, hadm, hnew, -⟩ := checkField_eq_ok.1 h
  refine ⟨forall_mem_append.2 ⟨hwalked.admitted, by simpa using hadm⟩, ?_⟩
  rw [map_append, map_singleton, nodup_append]
  refine ⟨hwalked.nodup, by simp, fun a ha b hb hab => ?_⟩
  rw [mem_singleton.1 hb] at hab
  exact hnew (hab ▸ ha)

theorem checked_append {owner : String} {decl : FieldDecl}
    (hchecked : Checked c transientSupported earlier)
    (hsized : ∀ t, c.typeOf decl.ty = .ok t → c.slotsOf t ≠ .ok 0)
    (h : checkField c transientSupported earlier owner decl = .ok f) :
    Checked c transientSupported (earlier ++ [f]) := by
  obtain ⟨-, rfl, hadm, -, hapart⟩ := checkField_eq_ok.1 h
  refine ⟨walked_append hchecked.toWalked h, ?_, ?_⟩
  · rw [filterMap_append]
    refine pairwise_append.2 ⟨hchecked.apart, ?_, ?_⟩
    · cases hpin : f.pin? <;> simp [hpin]
    · intro q hq p hp
      obtain ⟨g, hg, hpin⟩ := mem_filterMap.1 hp
      rw [mem_singleton.1 hg] at hpin
      exact (hapart p hpin q (hchecked.perm.mem_iff.2 hq)).symm
  · refine forall_mem_append.2 ⟨hchecked.span_pos, forall_mem_singleton.2 ?_⟩
    refine Nat.pos_of_ne_zero fun hzero => hsized f.ty hadm.typeOf ?_
    rw [hadm.slots, hzero]

/-- A walk over declarations gives a field for each, in their order, with what every step keeps. -/
theorem walk_spec {P : List Field → Prop} (hnil : P [])
    (hnext : ∀ earlier d f, d ∈ ds → checkField c transientSupported earlier d.1 d.2 = .ok f →
      P earlier → P (earlier ++ [f]))
    (h : ds.foldlM (fun earlier d => do
      return earlier ++ [← checkField c transientSupported earlier d.1 d.2]) [] = .ok fields) :
    fields.map (fun f => (f.owner, f.decl)) = ds ∧ P fields := by
  have hwalk : ∀ (todo : List (String × FieldDecl)) (earlier : List Field), todo ⊆ ds →
      todo.foldlM (fun earlier d => do
        return earlier ++ [← checkField c transientSupported earlier d.1 d.2]) earlier
          = .ok fields → P earlier →
      fields.map (fun f => (f.owner, f.decl)) = earlier.map (fun f => (f.owner, f.decl)) ++ todo ∧
        P fields := by
    intro todo
    induction todo with
    | nil =>
      intro earlier _ h hearlier
      cases h
      exact ⟨by simp, hearlier⟩
    | cons next todo ih =>
      intro earlier htodo h hearlier
      obtain ⟨hmem, htodo⟩ := cons_subset.1 htodo
      obtain ⟨walked, hwalked, h⟩ := bind_eq_ok.1 h
      obtain ⟨f, hf, hwalked⟩ := bind_eq_ok.1 hwalked
      cases hwalked
      obtain ⟨hfields, hall⟩ := ih _ htodo h (hnext earlier next f hmem hf hearlier)
      obtain ⟨howner, hdecl, -⟩ := checkField_eq_ok.1 hf
      exact ⟨by simpa [howner, hdecl] using hfields, hall⟩
  simpa using hwalk ds [] (Subset.refl ds) h hnil

/-- No type of some fields is counted as taking no slot. -/
def Sized (c : Catalog) (ds : List (String × FieldDecl)) : Prop :=
  ∀ d ∈ ds, ∀ t, c.typeOf d.2.ty = .ok t → c.slotsOf t ≠ .ok 0

theorem walk_walked (h : ds.foldlM (fun earlier d => do
      return earlier ++ [← checkField c transientSupported earlier d.1 d.2]) [] = .ok fields) :
    fields.map (fun f => (f.owner, f.decl)) = ds ∧ Walked c transientSupported fields :=
  walk_spec ⟨by simp, by simp⟩ (fun _ _ _ _ hf hwalked => walked_append hwalked hf) h

theorem walk_checked (hsized : Sized c ds) (h : ds.foldlM (fun earlier d => do
      return earlier ++ [← checkField c transientSupported earlier d.1 d.2]) [] = .ok fields) :
    fields.map (fun f => (f.owner, f.decl)) = ds ∧ Checked c transientSupported fields :=
  walk_spec ⟨⟨by simp, by simp⟩, by simp, by simp⟩
    (fun _ d _ hd hf hchecked => checked_append hchecked (hsized d hd) hf) h

/-- Where slots are counted without a bound, every type takes one. -/
theorem sized_of_ofFile {counting : Ty.Counting} (hc : Catalog.ofFile file available counting = .ok c)
    (h : counting = .unbounded ∨ Sized c ds) : Sized c ds := by
  rcases h with rfl | h
  · exact fun d _ t ht hzero => Nat.lt_irrefl 0 (Catalog.storageSlots_pos hc ht hzero)
  · exact h

/-! ## Pins one behind the other -/

/-- Regions that lie one behind the other, none of them empty. -/
structure Separated (pins : List Pin) : Prop where
  nonempty : ∀ p ∈ pins, p.start < p.stop
  behind : pins.Pairwise fun p q => p.stop ≤ q.start

theorem Separated.tail (h : Separated (p :: pins)) : Separated pins :=
  ⟨fun q hq => h.nonempty q (mem_cons_of_mem _ hq), (pairwise_cons.1 h.behind).2⟩

theorem separated_pinsOf (h : Checked c transientSupported fields) : Separated (pinsOf fields) := by
  refine ⟨fun p hp => h.nonempty (h.perm.mem_iff.1 hp), ?_⟩
  have hapart : (pinsOf fields).Pairwise Pin.Apart :=
    (h.perm.pairwise_iff Pin.Apart.symm).2 h.apart
  -- of two regions that are apart the one that starts first also stops first
  refine (hapart.and (pairwise_pinsOf fields)).imp_of_mem ?_
  rintro p q hp hq ⟨hpq | hqp, hlt⟩
  · exact hpq
  · have := h.nonempty (h.perm.mem_iff.1 hq)
    omega

end ContractYul.Storage
