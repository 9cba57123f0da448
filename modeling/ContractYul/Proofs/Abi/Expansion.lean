import ContractYul.Abi.Entry
import ContractYul.Proofs.Bounded
import ContractYul.Proofs.Catalog.Structs

/-!
# Described types

A parameter is described by a type text and, where that starts with `tuple`, by components. The
`expansion` of a description puts the components back into the text. It is the canonical name of the
type: the description takes the brackets of arrays off from the outside and carries them along, the
canonical name puts them on from the inside, and both go down to the same innermost type and fail for
the same reason.

Structs are followed to a bounded depth, and a description fails as endless where the bound is reached.
A bound above the number of structs is as good as any other (`bound_irrelevant`).

Main statement: `expansion_describe`.
-/

namespace ContractYul

open Outcome

namespace Abi

/-! ## Expanding descriptions -/

def tupleSuffix? (type : String) : Option String :=
  (Ty.dropWord? ['t', 'u', 'p', 'l', 'e'] type.toList).map String.ofList

mutual

/-- The text of a described type, with its components in parentheses in place of a leading
`tuple`. -/
def ParamEntry.expansion : ParamEntry → String
  | .mk _ type components _ =>
    match tupleSuffix? type with
    | some suffix => Ty.parenthesize (expansions components) ++ suffix
    | none => type

def expansions : List ParamEntry → List String
  | [] => []
  | p :: rest => p.expansion :: expansions rest

end

theorem expansions_eq_map (ps : List ParamEntry) : expansions ps = ps.map ParamEntry.expansion := by
  induction ps with
  | nil => rfl
  | cons p rest ih => rw [expansions, ih, List.map_cons]

variable {type : String}

theorem tupleSuffix?_eq_some : tupleSuffix? type = some suffix ↔ type = "tuple" ++ suffix := by
  rw [tupleSuffix?, Option.map_eq_some_iff]
  constructor
  · rintro ⟨rest, hrest, rfl⟩
    rw [← String.toList_inj, Ty.dropWord?_eq_some.1 hrest]
    simp
  · rintro rfl
    exact ⟨suffix.toList, Ty.dropWord?_eq_some.2 (by simp), by simp⟩

/-- A type text that does not look like a tuple, whatever follows it. -/
def IsPlain (type : String) : Prop :=
  ∃ c rest, type.toList = c :: rest ∧ c ≠ 't'

theorem IsPlain.append (h : IsPlain type) (suffix : String) : IsPlain (type ++ suffix) := by
  obtain ⟨c, rest, htype, hc⟩ := h
  exact ⟨c, rest ++ suffix.toList, by rw [String.toList_append, htype]; rfl, hc⟩

theorem IsPlain.tupleSuffix? (h : IsPlain type) : tupleSuffix? type = none := by
  obtain ⟨c, rest, htype, hc⟩ := h
  rw [Abi.tupleSuffix?, htype, Ty.dropWord?, if_neg (Ne.symm hc)]
  rfl

theorem ParamEntry.expansion_tuple (name suffix : String) (components : List ParamEntry) :
    (ParamEntry.mk name ("tuple" ++ suffix) components none).expansion =
      Ty.parenthesize (expansions components) ++ suffix := by
  rw [expansion, tupleSuffix?_eq_some.2 rfl]

theorem ParamEntry.expansion_withIndexed (p : ParamEntry) (indexed : Bool) :
    (p.withIndexed indexed).expansion = p.expansion := by
  obtain ⟨name, type, components, _⟩ := p
  rw [withIndexed, expansion, expansion]

/-! ## Descriptions and canonical names -/

def isLeaf : Ty → Bool
  | .array _ _ | .struct _ | .tuple _ => false
  | _ => true

theorem isPlain_canonicalWith (hleaf : isLeaf t = true) (h : t.canonicalWith expand = .ok type) :
    IsPlain type := by
  cases t with
  | array _ _ | struct _ | tuple _ => cases hleaf
  | mapping _ _ => cases h
  | uint _ | int _ | fixedBytes _ =>
    cases h
    exact ⟨_, _, String.toList_append .., by decide⟩
  | address | bool | bytes | string | contract _ | functionRef =>
    cases h
    exact ⟨_, _, rfl, by decide⟩

theorem expansion_leaf (hleaf : isLeaf t = true) :
    (describeWith components name suffix t).map ParamEntry.expansion =
      (t.canonicalWith expand).map (· ++ suffix) := by
  have hleaf' : describeWith components name suffix t =
      (t.canonicalWith expand).map fun type => .mk name (type ++ suffix) [] none := by
    cases t with
    | array _ _ | struct _ | tuple _ => cases hleaf
    | _ => rfl
  rw [hleaf']
  cases htype : t.canonicalWith expand with
  | error e => rfl
  | ok type =>
    have hplain := (isPlain_canonicalWith hleaf htype).append suffix
    show Except.ok (ParamEntry.mk name (type ++ suffix) [] none).expansion = _
    rw [ParamEntry.expansion, hplain.tupleSuffix?]
    rfl

theorem map_append_empty (x : Outcome String) : x.map (· ++ "") = x := by
  cases x with
  | error e => rfl
  | ok type => exact congrArg Except.ok String.append_empty

mutual

/-- The brackets that are carried along come after the canonical name. -/
theorem expansion_describeWith (hexpand : ∀ s fields, names.named s = some (.struct fields) →
      (components s).map (fun ps => Ty.parenthesize (expansions ps)) = expand s) (name : String) :
    ∀ (suffix : String) {t : Ty}, t.Printable names →
      (describeWith components name suffix t).map ParamEntry.expansion =
        (t.canonicalWith expand).map (· ++ suffix)
  | suffix, .array elem length, hprint => by
    rw [describeWith, expansion_describeWith hexpand name _ hprint.1, Ty.canonicalWith]
    cases elem.canonicalWith expand with
    | error e => rfl
    | ok type => exact congrArg Except.ok (String.append_assoc ..).symm
  | suffix, .struct s, hprint => by
    obtain ⟨-, fields, hfields⟩ := hprint
    rw [describeWith, Ty.canonicalWith, ← hexpand s fields hfields]
    cases components s with
    | error e => rfl
    | ok ps => exact congrArg Except.ok (ParamEntry.expansion_tuple name suffix ps)
  | suffix, .tuple elems, hprint => by
    rw [describeWith, Ty.canonicalWith, ← expansions_describeAllWith hexpand hprint]
    cases describeAllWith components elems with
    | error e => rfl
    | ok ps => exact congrArg Except.ok (ParamEntry.expansion_tuple name suffix ps)
  | _, .uint _, _ | _, .int _, _ | _, .address, _ | _, .bool, _ | _, .fixedBytes _, _ | _, .bytes, _
  | _, .string, _ | _, .mapping _ _, _ | _, .contract _, _ | _, .functionRef, _ =>
    expansion_leaf rfl

theorem expansions_describeAllWith (hexpand : ∀ s fields, names.named s = some (.struct fields) →
      (components s).map (fun ps => Ty.parenthesize (expansions ps)) = expand s) :
    ∀ {ts : List Ty}, Ty.AllPrintable names ts →
      (describeAllWith components ts).map expansions = Ty.canonicalAllWith expand ts
  | [], _ => rfl
  | t :: rest, hprint => by
    have hfirst := (expansion_describeWith hexpand "" "" hprint.1).trans (map_append_empty _)
    rw [describeAllWith, Ty.canonicalAllWith, ← hfirst,
      ← expansions_describeAllWith hexpand hprint.2]
    cases describeWith components "" "" t with
    | error e => rfl
    | ok p => cases describeAllWith components rest <;> rfl

end

theorem expansions_structComponents (depth : Nat) (hs : names.named s = some (.struct fields)) :
    (structComponents names depth s).map (fun ps => Ty.parenthesize (expansions ps)) =
      names.canonicalStruct depth s := by
  induction depth generalizing s fields with
  | zero => rfl
  | succ depth ih =>
    have hfields : (fields.mapM fun field => Ty.parse names field.2 >>= fun t =>
          describeWith (structComponents names depth) field.1 "" t).map (List.map ParamEntry.expansion) =
        fields.mapM fun field =>
          Ty.parse names field.2 >>= (Ty.canonicalWith (names.canonicalStruct depth)) := by
      refine map_mapM fun field _ => ?_
      cases ht : Ty.parse names field.2 with
      | error e => rfl
      | ok t =>
        exact (expansion_describeWith (fun _ _ h => ih h) field.1 ""
          (Ty.printable_parse ht)).trans (map_append_empty _)
    rw [structComponents, TypeNames.canonicalStruct, hs]
    simp only [expansions_eq_map]
    show _ = (fields.mapM fun field => Ty.parse names field.2 >>=
      Ty.canonicalWith (names.canonicalStruct depth)).map Ty.parenthesize
    rw [← hfields, map_map]
    rfl

theorem expansion_within (depth : Nat) (ht : t.Printable names) (name : String) :
    (describeWith (structComponents names depth) name "" t).map ParamEntry.expansion =
      t.canonicalWith (names.canonicalStruct depth) :=
  (expansion_describeWith (fun _ _ => expansions_structComponents depth) name "" ht).trans
    (map_append_empty _)

theorem expansion_describe (ht : t.Printable names) (name : String) :
    (ParamEntry.describe names name t).map ParamEntry.expansion = t.canonicalName names :=
  expansion_within _ ht name

/-! ## How deep structs are followed -/

mutual

/-- A type that was read is described by the structs of the table. -/
theorem describeWith_below (h : ∀ s fields, names.named s = some (.struct fields) →
      Below (components s) (components' s)) (name : String) :
    ∀ (suffix : String) {t : Ty}, t.Printable names →
      Below (describeWith components name suffix t) (describeWith components' name suffix t)
  | suffix, .array elem length, hprint => by
    rw [describeWith, describeWith]
    exact describeWith_below h name _ hprint.1
  | suffix, .struct s, hprint => by
    obtain ⟨-, fields, hfields⟩ := hprint
    rw [describeWith, describeWith]
    exact (h s fields hfields).bind fun _ => .refl _
  | suffix, .tuple elems, hprint => by
    rw [describeWith, describeWith]
    exact (describeAllWith_below h hprint).bind fun _ => .refl _
  | _, .uint _, _ | _, .int _, _ | _, .address, _ | _, .bool, _ | _, .fixedBytes _, _ | _, .bytes, _
  | _, .string, _ | _, .mapping _ _, _ | _, .contract _, _ | _, .functionRef, _ => .refl _

theorem describeAllWith_below (h : ∀ s fields, names.named s = some (.struct fields) →
      Below (components s) (components' s)) : ∀ {ts : List Ty}, Ty.AllPrintable names ts →
      Below (describeAllWith components ts) (describeAllWith components' ts)
  | [], _ => .refl _
  | t :: rest, hprint => by
    rw [describeAllWith, describeAllWith]
    refine (describeWith_below h "" "" hprint.1).bind fun p => ?_
    exact (describeAllWith_below h hprint.2).bind fun _ => .refl _

end

theorem structComponents_below (h : ∀ s fields, names.named s = some (.struct fields) →
      Below (structComponents names depth s) (structComponents names depth' s)) (name : String) :
    Below (structComponents names (depth + 1) name) (structComponents names (depth' + 1) name) := by
  rw [structComponents, structComponents]
  split
  · refine Below.mapM ?_
    rintro ⟨field, text⟩ -
    cases ht : Ty.parse names text with
    | error e => exact .inr (by simp only [ht, error_bind])
    | ok t =>
      simp only [ht, ok_bind]
      exact describeWith_below h field "" (Ty.printable_parse ht)
  · exact .refl _

/-- From as many levels as there are structs on, more levels make no difference. -/
theorem structComponents_eq_of_le {d : Declarations} (hdepth : d.structs.size ≤ depth)
    (hname : d.named? name = some (.struct fields)) :
    structComponents (d.typeNames structSlots) depth name =
      structComponents (d.typeNames structSlots) d.structs.size name := by
  have hbelow : ∀ depth s, Below (structComponents (d.typeNames structSlots) depth s)
      (structComponents (d.typeNames structSlots) (depth + 1) s) := by
    intro depth
    induction depth with
    | zero => exact fun s => .inl rfl
    | succ depth ih => exact structComponents_below fun s _ _ => ih s
  have hsize : d.structs.size = d.structs.keys.length := (List.length_map _).symm
  rw [hsize] at hdepth ⊢
  refine eq_of_length_le (fun depth s _ => hbelow depth s) (fun depth hsame s _ => ?_) hdepth name
    (Declarations.mem_structs_of_named? hname)
  refine Below.antisymm (structComponents_below (fun s fields hs => ?_) s)
    (structComponents_below (fun s fields hs => ?_) s)
  · exact .inr (hsame s (Declarations.mem_structs_of_named? hs)).symm
  · exact .inr (hsame s (Declarations.mem_structs_of_named? hs))

/-- The bound on the depth plays no part in descriptions and canonical names. -/
theorem bound_irrelevant {d : Declarations} (hdepth : d.structs.size ≤ depth)
    (ht : t.Printable (d.typeNames structSlots)) (name : String) :
    describeWith (structComponents (d.typeNames structSlots) depth) name "" t =
        ParamEntry.describe (d.typeNames structSlots) name t ∧
      t.canonicalWith ((d.typeNames structSlots).canonicalStruct depth) =
        t.canonicalName (d.typeNames structSlots) := by
  have hdescribe : describeWith (structComponents (d.typeNames structSlots) depth) name "" t =
      ParamEntry.describe (d.typeNames structSlots) name t :=
    Below.antisymm
      (describeWith_below (fun s _ hs => .inr (structComponents_eq_of_le hdepth hs).symm) name "" ht)
      (describeWith_below (fun s _ hs => .inr (structComponents_eq_of_le hdepth hs)) name "" ht)
  refine ⟨hdescribe, ?_⟩
  rw [← expansion_within depth ht name, hdescribe]
  exact expansion_describe ht name

end Abi

end ContractYul
