import ContractYul.Proofs.Catalog.Keys
import ContractYul.Proofs.Ty.Printing

/-!
# Which libraries are bound to a type

A catalog keeps a binding under the short text of its type. Types are read back from their short
text, so two types of a catalog with the same text are one type, and a binding reaches the type that
it names. The key `*` is kept apart for bindings to every type; the text of a type can be `*` too,
when a contract of that name is reached through an alias.

Main statement: `types_print_and_bind`.
-/

open List

namespace ContractYul

open Outcome

namespace Catalog

/-! ## Bindings of comments -/

variable {c : Catalog}

def Binds (c : Catalog) (comments : List String) (e : Extension) : Prop :=
  ∃ comment ∈ comments, ∃ b, Binding.ofComment? comment = some b ∧ e.library = b.library ∧
    c.bindingKey b.target = .ok e.typeKey

theorem binds_cons : c.Binds (comment :: rest) e ↔ c.Binds [comment] e ∨ c.Binds rest e := by
  simp [Binds]

/-- Comments add the bindings that they make, and leave what types stand for as it is. -/
theorem foldlM_addComment (h : comments.foldlM addComment c = .ok c') :
    c'.names = c.names ∧ ∀ e, e ∈ c'.extensions ↔ e ∈ c.extensions ∨ c.Binds comments e := by
  induction comments generalizing c with
  | nil =>
    cases h
    simp [Binds]
  | cons comment rest ih =>
    rw [foldlM_cons, bind_eq_ok] at h
    obtain ⟨c₁, hstep, h⟩ := h
    obtain ⟨hnames, hmem⟩ := ih h
    rcases addComment_cases hstep with ⟨hnone, rfl⟩ | ⟨b, key, hb, hkey, rfl⟩
    · refine ⟨hnames, fun e => (hmem e).trans (or_congr_right ?_)⟩
      simp [Binds, hnone]
    · refine ⟨hnames, fun e => ?_⟩
      have hfirst : e ∈ c.extensions.insert ⟨key, b.library⟩ ↔
          c.Binds [comment] e ∨ e ∈ c.extensions := by
        rw [mem_insert_iff]
        refine or_congr_left ⟨?_, ?_⟩
        · rintro rfl
          exact ⟨comment, mem_singleton.2 rfl, b, hb, rfl, hkey⟩
        · rintro ⟨_, hcomment, b', hb', hlibrary, hkey'⟩
          obtain rfl := mem_singleton.1 hcomment
          obtain rfl := Option.some.inj (hb.symm.trans hb')
          obtain ⟨typeKey, library⟩ := e
          obtain rfl : library = b.library := hlibrary
          rw [Except.ok.inj (hkey.symm.trans hkey')]
      -- later comments are read with the same types, whatever is bound by then
      calc e ∈ c'.extensions
          ↔ e ∈ c.extensions.insert ⟨key, b.library⟩ ∨ c.Binds rest e := hmem e
        _ ↔ (c.Binds [comment] e ∨ e ∈ c.extensions) ∨ c.Binds rest e := or_congr_left hfirst
        _ ↔ e ∈ c.extensions ∨ c.Binds [comment] e ∨ c.Binds rest e :=
          or_assoc.trans or_left_comm
        _ ↔ e ∈ c.extensions ∨ c.Binds (comment :: rest) e := or_congr_right binds_cons.symm

theorem mem_boundTo (h : ofFile file available = .ok c) :
    library ∈ c.boundTo key ↔
      c.Binds (Declarations.visibleComments file available) ⟨key, library⟩ := by
  obtain ⟨d, -, h⟩ := bind_eq_ok.1 h
  obtain ⟨layouts, -, h⟩ := bind_eq_ok.1 h
  obtain ⟨c₁, herrors, h⟩ := bind_eq_ok.1 h
  have hnone : c₁.extensions = [] := by
    refine foldlM_invariant (fun c : Catalog => c.extensions = []) herrors rfl ?_
    intro c f c' _ hstep hc
    obtain ⟨errors, rfl⟩ := addError_cases hstep
    exact hc
  obtain ⟨hnames, hmem⟩ := foldlM_addComment h
  have hbinds : ∀ e, e ∈ c.extensions ↔
      c.Binds (Declarations.visibleComments file available) e := by
    intro e
    rw [hmem e, hnone]
    simp [Binds, bindingKey, typeOf, hnames]
  rw [boundTo, mem_sortedSet, ← hbinds]
  constructor
  · intro hl
    obtain ⟨e, he, rfl⟩ := mem_map.1 hl
    obtain ⟨hmem, hkey⟩ := mem_filter.1 he
    obtain rfl : e.typeKey = key := by simpa using hkey
    exact hmem
  · intro he
    exact mem_map.2 ⟨_, mem_filter.2 ⟨he, by simp⟩, rfl⟩

/-! ## Types and their bindings -/

/-- A binding is kept under the key `*`, or under the text of the type that it names. -/
theorem bindingKey_eq_ok :
    c.bindingKey target = .ok key ↔
      (target = "*" ∧ key = "*") ∨
        (target ≠ "*" ∧ ∃ t, c.typeOf target = .ok t ∧ t.describe = key) := by
  unfold bindingKey
  by_cases htarget : target = "*"
  · simp [htarget, eq_comm]
  · simp [htarget, map_eq_ok]

theorem describe_injective {names : TypeNames} (h : Ty.parse names text = .ok t)
    (h' : Ty.parse names text' = .ok t') (htext : t.describe = t'.describe) : t = t' := by
  have hread := Ty.parse_describe h
  rw [htext, Ty.parse_describe h'] at hread
  exact (Except.ok.inj hread).symm

/-- Types print and reparse to themselves over every table of names, so that types with the same
text are one type. Hence a library can be called on the values of a type exactly when a visible
comment binds it to every type or to a type that is equal; the text `*` alone stands for both. -/
theorem types_print_and_bind :
    (∀ (names : TypeNames) (text : String) (t : Ty), Ty.parse names text = .ok t →
      Ty.parse names t.describe = .ok t ∧
      ∀ (text' : String) (t' : Ty), Ty.parse names text' = .ok t' →
        t.describe = t'.describe → t = t') ∧
    ∀ (file : Source.File) (available : List Source.File) (c : Catalog),
      ofFile file available = .ok c → ∀ (text : String) (t : Ty), c.typeOf text = .ok t →
      ∀ library, library ∈ c.extensionsFor t ↔
        ∃ comment ∈ Declarations.visibleComments file available, ∃ b,
          Binding.ofComment? comment = some b ∧ b.library = library ∧
          (b.target = "*" ∨ ∃ declared, c.typeOf b.target = .ok declared ∧
            (t = declared ∨ declared.describe = "*")) := by
  refine ⟨fun names text t ht => ⟨Ty.parse_describe ht, fun _ _ => describe_injective ht⟩, ?_⟩
  intro file available c hc text t ht library
  rw [extensionsFor, List.mem_append, mem_boundTo hc, mem_boundTo hc]
  constructor
  · rintro (⟨comment, hcomment, b, hb, rfl, hkey⟩ | ⟨comment, hcomment, b, hb, rfl, hkey⟩)
    · refine ⟨comment, hcomment, b, hb, rfl, ?_⟩
      rcases bindingKey_eq_ok.1 hkey with ⟨htarget, -⟩ | ⟨-, declared, hdeclared, htext⟩
      · exact .inl htarget
      · exact .inr ⟨declared, hdeclared, .inl (describe_injective ht hdeclared htext.symm)⟩
    · refine ⟨comment, hcomment, b, hb, rfl, ?_⟩
      rcases bindingKey_eq_ok.1 hkey with ⟨htarget, -⟩ | ⟨-, declared, hdeclared, htext⟩
      · exact .inl htarget
      · exact .inr ⟨declared, hdeclared, .inr htext⟩
  · rintro ⟨comment, hcomment, b, hb, rfl, hbound⟩
    by_cases htarget : b.target = "*"
    · exact .inr ⟨comment, hcomment, b, hb, rfl, bindingKey_eq_ok.2 (.inl ⟨htarget, rfl⟩)⟩
    · rcases hbound with hstar | ⟨declared, hdeclared, rfl | hstar⟩
      · exact absurd hstar htarget
      · exact .inl ⟨comment, hcomment, b, hb, rfl,
          bindingKey_eq_ok.2 (.inr ⟨htarget, t, hdeclared, rfl⟩)⟩
      · exact .inr ⟨comment, hcomment, b, hb, rfl,
          bindingKey_eq_ok.2 (.inr ⟨htarget, declared, hdeclared, hstar⟩)⟩

/-- A library `Sums` that a comment binds to a type, beside a contract and an alias of it. -/
def binding (contract target : String) : Source.File where
  path := "ledger.ts"
  classes :=
    [{ name := "Sums"
       methods := [{ name := "total", isStatic := true }] },
     { name := contract }]
  aliases := [⟨"Peer", contract⟩]
  comments := ["@using Sums for " ++ target]

/-- The library is bound to the arrays of pairs that the comment names, however it spells them, and
not to the numbers in them. -/
theorem types_print_and_bind_pairs : ∃ c t,
    ofFile (binding "Ledger" "[ u8,Peer ] [+2]") [] = .ok c ∧
    c.typeOf "[ u8,Peer ] [+2]" = .ok t ∧
    t = .array (.tuple [.uint 8, .contract "Ledger"]) (some 2) ∧
    t.describe = "[u8, Ledger][2]" ∧ Ty.parse c.names t.describe = .ok t ∧
    "Sums" ∈ c.extensionsFor t ∧ "Sums" ∉ c.extensionsFor (.uint 8) := by
  obtain ⟨c, hc, heval⟩ := exists_of_map_toOption
    (show (ofFile (binding "Ledger" "[ u8,Peer ] [+2]") []).toOption.map (fun c =>
        ((c.typeOf "[ u8,Peer ] [+2]").toOption, (c.typeOf "u8").toOption)) =
      some (some (.array (.tuple [.uint 8, .contract "Ledger"]) (some 2)), some (.uint 8)) by
        decide +kernel)
  obtain ⟨hpairs, hsmall⟩ := Prod.mk.inj heval
  have hpairs := eq_ok_of_toOption hpairs
  have hsmall := eq_ok_of_toOption hsmall
  have hcomment : Binding.ofComment? "@using Sums for [ u8,Peer ] [+2]" =
      some ⟨"Sums", "[ u8,Peer ] [+2]"⟩ := by rfl
  obtain ⟨hprint, hbind⟩ := types_print_and_bind
  refine ⟨c, _, hc, hpairs, rfl, by decide +kernel, (hprint c.names _ _ hpairs).1, ?_, ?_⟩
  · exact (hbind _ _ c hc _ _ hpairs "Sums").2
      ⟨_, List.mem_singleton.2 rfl, _, hcomment, rfl, .inr ⟨_, hpairs, .inl rfl⟩⟩
  · intro hmem
    obtain ⟨comment, hvisible, b, hb, -, hbound⟩ := (hbind _ _ c hc _ _ hsmall "Sums").1 hmem
    obtain rfl : comment = "@using Sums for [ u8,Peer ] [+2]" := List.mem_singleton.1 hvisible
    obtain rfl := Option.some.inj (hcomment.symm.trans hb)
    rcases hbound with hstar | ⟨declared, hdeclared, hbound⟩
    · exact absurd hstar (by decide)
    · obtain rfl := Except.ok.inj (hpairs.symm.trans hdeclared)
      rcases hbound with hsame | hstar
      · cases hsame
      · exact absurd hstar (by decide +kernel)

/-- The library is bound to a contract only, under another name than `*`, and can be called on
numbers nevertheless: the contract is called `*`. -/
theorem starred_contract_binds_all : ∃ c,
    ofFile (binding "*" "Peer") [] = .ok c ∧ c.typeOf "Peer" = .ok (.contract "*") ∧
    c.typeOf "u256" = .ok (.uint 256) ∧
    (∀ comment ∈ Declarations.visibleComments (binding "*" "Peer") [],
      (Binding.ofComment? comment).map (·.target) = some "Peer") ∧
    "Sums" ∈ c.extensionsFor (.uint 256) := by
  obtain ⟨c, hc, heval⟩ := exists_of_map_toOption
    (show (ofFile (binding "*" "Peer") []).toOption.map (fun c =>
        ((c.typeOf "Peer").toOption, (c.typeOf "u256").toOption, c.extensionsFor (.uint 256))) =
      some (some (.contract "*"), some (.uint 256), ["Sums"]) by decide +kernel)
  obtain ⟨hpeer, hrest⟩ := Prod.mk.inj heval
  obtain ⟨hnumber, hextensions⟩ := Prod.mk.inj hrest
  refine ⟨c, hc, eq_ok_of_toOption hpeer, eq_ok_of_toOption hnumber, by decide +kernel, ?_⟩
  rw [hextensions]
  exact List.mem_singleton.2 rfl

end Catalog

end ContractYul
