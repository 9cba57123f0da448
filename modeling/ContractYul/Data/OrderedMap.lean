/-!
# Ordered maps

Maps from names to values that remember the order in which names first came in. Setting a name
again replaces its value and keeps its place.

Main statement: `keys_insert` says which names a map has after an insertion, and in which order.
-/

namespace ContractYul

def insertEntry {α : Type} (key : String) (value : α) : List (String × α) → List (String × α)
  | [] => [(key, value)]
  | (k, v) :: rest =>
    if k = key then (k, value) :: rest else (k, v) :: insertEntry key value rest

theorem map_fst_insertEntry {α : Type} (key : String) (value : α) (entries : List (String × α)) :
    (insertEntry key value entries).map (·.1) =
      if key ∈ entries.map (·.1) then entries.map (·.1) else entries.map (·.1) ++ [key] := by
  induction entries with
  | nil => simp [insertEntry]
  | cons e rest ih =>
    obtain ⟨k, v⟩ := e
    by_cases h : k = key
    · simp [insertEntry, h]
    · have h' : key ≠ k := fun e => h e.symm
      simp only [insertEntry, h, if_false, List.map_cons, ih, List.mem_cons, h', false_or]
      split <;> simp

structure OrderedMap (α : Type) where
  entries : List (String × α)
  nodup_keys : (entries.map (·.1)).Nodup

namespace OrderedMap

variable {α : Type}

def empty : OrderedMap α :=
  ⟨[], by simp⟩

instance : Inhabited (OrderedMap α) := ⟨empty⟩

def keys (m : OrderedMap α) : List String :=
  m.entries.map (·.1)

def values (m : OrderedMap α) : List α :=
  m.entries.map (·.2)

def size (m : OrderedMap α) : Nat :=
  m.entries.length

def get? (m : OrderedMap α) (key : String) : Option α :=
  m.entries.lookup key

def contains (m : OrderedMap α) (key : String) : Bool :=
  m.keys.contains key

def indexOf? (m : OrderedMap α) (key : String) : Option Nat :=
  m.keys.findIdx? (· == key)

def insert (m : OrderedMap α) (key : String) (value : α) : OrderedMap α where
  entries := insertEntry key value m.entries
  nodup_keys := by
    rw [map_fst_insertEntry]
    split
    · exact m.nodup_keys
    · rename_i h
      exact List.nodup_append.2 ⟨m.nodup_keys, by simp, by
        intro a ha b hb e
        simp at hb
        subst hb
        exact h (e ▸ ha)⟩

def insertNew (m : OrderedMap α) (key : String) (value : α) : OrderedMap α :=
  if m.contains key then m else m.insert key value

theorem keys_insert (m : OrderedMap α) (key : String) (value : α) :
    (m.insert key value).keys = if key ∈ m.keys then m.keys else m.keys ++ [key] :=
  map_fst_insertEntry key value m.entries

end OrderedMap

end ContractYul
