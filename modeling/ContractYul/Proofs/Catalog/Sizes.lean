import ContractYul.Catalog.Basic
import ContractYul.Proofs.Ty.WellFormed

/-!
# Sizes of structs in a catalog

A struct takes at least one slot, even one without fields. The table of struct layouts is filled
depth first, and every layout that goes into it was made by `place`; so the bound holds of a whole
catalog, and with it, where slots are counted without a bound, every type that the catalog can read
has a size of its own.

Main statement: `Catalog.storageSlots_pos`.
-/

namespace ContractYul

open Outcome OrderedMap

/-! ## Entries of a map -/

theorem mem_insertEntry {entries : List (String × α)} (h : e ∈ insertEntry key value entries) :
    e = (key, value) ∨ e ∈ entries := by
  induction entries with
  | nil => exact .inl (List.mem_singleton.1 h)
  | cons entry rest ih =>
    obtain ⟨k, v⟩ := entry
    rw [insertEntry] at h
    split at h
    · rename_i hkey
      subst hkey
      exact (List.mem_cons.1 h).imp_right (List.mem_cons_of_mem _)
    · rcases List.mem_cons.1 h with rfl | h
      · exact .inr List.mem_cons_self
      · exact (ih h).imp_right (List.mem_cons_of_mem _)

theorem OrderedMap.mem_of_get? {m : OrderedMap α} (h : m.get? key = some value) :
    (key, value) ∈ m.entries := by
  obtain ⟨before, after, hsplit, -⟩ := List.lookup_eq_some_iff.1 h
  simp [hsplit]

theorem OrderedMap.mem_keys_insert {m : OrderedMap α} :
    other ∈ (m.insert key value).keys ↔ other = key ∨ other ∈ m.keys := by
  rw [keys_insert]
  split
  · rename_i hkey
    exact ⟨.inr, fun h => h.elim (fun h => h ▸ hkey) id⟩
  · rw [List.mem_append, List.mem_singleton, or_comm]

namespace StructLayout

/-! ## The table of layouts -/

def Table.Sized (table : Table) : Prop :=
  ∀ e ∈ table.entries, 0 < e.2.slots

variable {counting : Ty.Counting} {table : Table} {name : String}

theorem Table.Sized.slots?_pos (h : table.Sized) {n : Nat}
    (hn : table.slots? name = some n) : 0 < n := by
  obtain ⟨layout, hget, rfl⟩ := Option.map_eq_some_iff.1 hn
  exact h _ (mem_of_get? hget)

theorem Table.Sized.insert (h : table.Sized) (hslots : 0 < layout.slots) :
    Table.Sized (table.insert name layout) := by
  intro e he
  rcases mem_insertEntry he with rfl | he
  · exact hslots
  · exact h e he

theorem place_slots_pos {fields : List (String × String × Ty)}
    (h : place counting table name fields = .ok layout) : 0 < layout.slots := by
  obtain ⟨⟨placed, total⟩, -, h⟩ := bind_eq_ok.1 h
  cases h
  exact Nat.lt_of_lt_of_le Nat.zero_lt_one (Nat.le_max_right _ _)

/-- Laying out a struct puts it into the table, and keeps what putting in one struct keeps. -/
theorem add_invariant {P : Table → Prop} (hinsert : ∀ table name fields layout,
      place counting table name fields = .ok layout → P table → P (table.insert name layout))
    {d : Declarations} (h : add counting d depth above table name = .ok table') (hP : P table) :
    name ∈ table'.keys ∧ P table' := by
  have hthere : ∀ {table table' : Table} {name : String}, P table → table.contains name = true →
      (.ok table : Outcome Table) = .ok table' → name ∈ table'.keys ∧ P table' := by
    rintro table table' name hP hmem h
    cases h
    exact ⟨by simpa [contains] using hmem, hP⟩
  induction depth generalizing above table table' name with
  | zero =>
    rw [add] at h
    split at h
    · exact hthere hP ‹_› h
    · split at h <;> simp at h
  | succ depth ih =>
    rw [add] at h
    split at h
    · exact hthere hP ‹_› h
    split at h
    · simp at h
    split at h
    · simp at h
    · obtain ⟨⟨inner, fields⟩, hinner, h⟩ := bind_eq_ok.1 h
      obtain ⟨layout, hlayout, h⟩ := bind_eq_ok.1 h
      cases h
      refine ⟨mem_keys_insert.2 (.inl rfl), hinsert inner name fields layout hlayout ?_⟩
      -- each field lays out the structs that its type embeds
      refine foldlM_invariant (fun s : Table × _ => P s.1) hinner hP ?_
      rintro ⟨t, fs⟩ ⟨field, text⟩ ⟨t', fs'⟩ - hstep ht
      obtain ⟨ty, -, hstep⟩ := bind_eq_ok.1 hstep
      obtain ⟨u, hu, hstep⟩ := bind_eq_ok.1 hstep
      cases hstep
      exact foldlM_invariant P hu ht fun _ _ _ _ hadd hP => (ih hadd hP).2

theorem sized_all (h : all counting d = .ok table) : table.Sized :=
  foldlM_invariant Table.Sized h (fun _ he => by simp [empty] at he)
    fun _ _ _ _ hadd hsized => (add_invariant (fun _ _ _ _ hlayout hsized =>
      hsized.insert (place_slots_pos hlayout)) hadd hsized).2

end StructLayout

namespace Catalog

/-! ## Catalogs of files -/

variable {c c' : Catalog} {file : Source.File} {available : List Source.File}
  {counting : Ty.Counting}

/-- An error adds to the errors of a catalog and to nothing else. -/
theorem addError_cases (h : c.addError f = .ok c') : ∃ errors, c' = { c with errors } := by
  obtain ⟨params, -, h⟩ := bind_eq_ok.1 h
  obtain ⟨types, -, h⟩ := bind_eq_ok.1 h
  exact ⟨_, (pure_eq_ok.1 h).symm⟩

theorem addComment_cases (h : c.addComment comment = .ok c') :
    (Binding.ofComment? comment = none ∧ c' = c) ∨
    ∃ b key, Binding.ofComment? comment = some b ∧ c.bindingKey b.target = .ok key ∧
      c' = { c with extensions := c.extensions.insert ⟨key, b.library⟩ } := by
  unfold addComment at h
  split at h
  · rename_i hnone
    exact .inl ⟨hnone, (Except.ok.inj h).symm⟩
  · rename_i b hb
    split at h
    · simp at h
    · obtain ⟨key, hkey, h⟩ := bind_eq_ok.1 h
      exact .inr ⟨b, key, hb, hkey, (pure_eq_ok.1 h).symm⟩

/-- What errors and bindings keep holds of a catalog when it holds of its declarations and their
layouts. -/
theorem ofFile_invariant {P : Catalog → Prop} (h : ofFile file available counting = .ok c)
    (hstart : ∀ d layouts, Declarations.ofFile file available = .ok d →
      StructLayout.all counting d = .ok layouts → P { toDeclarations := d, layouts, counting })
    (herror : ∀ c f c', c.addError f = .ok c' → P c → P c')
    (hbinding : ∀ c extensions, P c → P { c with extensions }) : P c := by
  obtain ⟨d, hd, h⟩ := bind_eq_ok.1 h
  obtain ⟨layouts, hlayouts, h⟩ := bind_eq_ok.1 h
  obtain ⟨c₁, herrors, h⟩ := bind_eq_ok.1 h
  have hfirst : P c₁ := foldlM_invariant P herrors (hstart d layouts hd hlayouts)
    fun c f c' _ => herror c f c'
  refine foldlM_invariant P h hfirst fun c comment c' _ hstep hc => ?_
  rcases addComment_cases hstep with ⟨-, rfl⟩ | ⟨_, _, -, -, rfl⟩
  · exact hc
  · exact hbinding c _ hc

theorem made_ofFile (h : ofFile file available counting = .ok c) :
    Declarations.ofFile file available = .ok c.toDeclarations ∧
      StructLayout.all counting c.toDeclarations = .ok c.layouts ∧ c.counting = counting := by
  refine ofFile_invariant (P := fun c => Declarations.ofFile file available = .ok c.toDeclarations ∧
    StructLayout.all counting c.toDeclarations = .ok c.layouts ∧ c.counting = counting) h
    (fun _ _ hd hlayouts => ⟨hd, hlayouts, rfl⟩) ?_ fun _ _ hc => hc
  intro c f c' hstep hc
  obtain ⟨errors, rfl⟩ := addError_cases hstep
  exact hc

/-- A type that a catalog reads takes at least one slot, counted without a bound. -/
theorem storageSlots_pos (hc : ofFile file available .unbounded = .ok c)
    (ht : c.typeOf text = .ok t) (hn : c.slotsOf t = .ok n) : 0 < n := by
  obtain ⟨-, hlayouts, hcounting⟩ := made_ofFile hc
  rw [slotsOf, hcounting] at hn
  exact Ty.storageSlots_pos (fun _ _ => (StructLayout.sized_all hlayouts).slots?_pos)
    (Ty.wellFormed_parse ht) hn

end Catalog

end ContractYul
