import ContractYul.Proofs.Bounded
import ContractYul.Proofs.Catalog.Structs
import ContractYul.Proofs.Lineage.Ancestry

/-!
# Methods that other contracts find

A call of a method of a contract is lowered for the method of an interface, or for a method that a
search finds that goes up from a class to its parents. The search passes at most so many classes as
there are, and loses nothing by that: it goes on in one class only, so it would pass the same classes
again. But of several parents that a class composes, it goes on in one where a search of its own
finds the method, and nothing bounds these searches. Where a class that composes others is its own
ancestor, the search may not end.

Main statement: `contractMethod_answers`. A name that no class exposes need not be unknown, as
`contractMethod_reads_field` shows: the class may have a readable field of that name.
-/

open List

namespace ContractYul.Catalog

open Source Lineage Outcome
open Relation (ReflTransGen TransGen)

variable {c : Catalog} {contract method name owner parent : String} {cls next p : ClassDecl}
  {d m : MethodDecl} {depth rounds n : Nat} {inner inner' : ClassDecl → Outcome (Option MethodDecl)}

theorem mem_values (h : c.class? name = some cls) : cls ∈ c.classes.values :=
  mem_map.2 ⟨(name, cls), OrderedMap.mem_of_get? h, rfl⟩

theorem length_values (c : Catalog) : c.classes.values.length = c.classes.size :=
  length_map _

/-! ## The class where the search goes on -/

section Find

variable {α : Type} {f g : α → Outcome Bool} {xs : List α} {x : α}

theorem findM?_spec {result : Outcome (Option α)} (h : xs.findM? f = result) :
    (∃ x ∈ xs, f x = .ok true ∧ result = .ok (some x)) ∨
      (∀ x ∈ xs, f x = .ok false) ∧ result = .ok none ∨
      ∃ x ∈ xs, ∃ e, f x = .error e ∧ result = .error e := by
  subst h
  induction xs with
  | nil => exact .inr (.inl ⟨by simp, rfl⟩)
  | cons x xs ih =>
    rw [findM?]
    cases hx : f x with
    | error e => exact .inr (.inr ⟨x, mem_cons_self, e, hx, rfl⟩)
    | ok found =>
      cases found with
      | true => exact .inl ⟨x, mem_cons_self, hx, rfl⟩
      | false =>
        rcases ih with ⟨y, hy, hf, hresult⟩ | ⟨hall, hresult⟩ | ⟨y, hy, e, hf, hresult⟩
        · exact .inl ⟨y, mem_cons_of_mem x hy, hf, hresult⟩
        · exact .inr (.inl ⟨forall_mem_cons.2 ⟨hx, hall⟩, hresult⟩)
        · exact .inr (.inr ⟨y, mem_cons_of_mem x hy, e, hf, hresult⟩)

theorem findM?_below (h : ∀ x ∈ xs, Below (f x) (g x)) : Below (xs.findM? f) (xs.findM? g) := by
  induction xs with
  | nil => exact .refl _
  | cons x xs ih =>
    obtain ⟨hx, hxs⟩ := forall_mem_cons.1 h
    rw [findM?, findM?]
    refine hx.bind fun found => ?_
    cases found with
    | true => exact .refl _
    | false => exact ih hxs

end Find

/-- The parents of a class that composes others, in the order in which they are searched. -/
def searched (c : Catalog) (parents : List String) : List ClassDecl :=
  parents.reverse.filterMap c.class?

theorem mem_searched {parents : List String} (h : cls.heritage = some (.compose parents)) :
    p ∈ c.searched parents ↔ ∃ parent ∈ cls.parents, c.class? parent = some p := by
  simp [searched, ClassDecl.parents, h, Heritage.parents]

theorem nextClass_compose {parents : List String} (h : cls.heritage = some (.compose parents)) :
    c.nextClass inner cls = (c.searched parents).findM? fun p => do return (← inner p).isSome := by
  rw [nextClass, h]
  rfl

/-- Where a search goes on behind a class: in its only parent, or in one where the inner search finds
the method. It ends where no inner search does, and fails where one of several fails. -/
inductive GoesOn (c : Catalog) (inner : ClassDecl → Outcome (Option MethodDecl)) (cls : ClassDecl) :
    Outcome (Option ClassDecl) → Prop
  | parent {parent : String} {next : ClassDecl} (hparent : parent ∈ cls.parents)
      (hnext : c.class? parent = some next)
      (h : cls.parents = [parent] ∨ ∃ m, inner next = .ok (some m)) :
      GoesOn c inner cls (.ok (some next))
  | nowhere (h : ∀ parent ∈ cls.parents, ∀ p, c.class? parent = some p → inner p = .ok none) :
      GoesOn c inner cls (.ok none)
  | fails {parents : List String} {parent : String} {p : ClassDecl} {e : CompileError}
      (hcompose : cls.heritage = some (.compose parents)) (hparent : parent ∈ cls.parents)
      (hp : c.class? parent = some p) (h : inner p = .error e) : GoesOn c inner cls (.error e)

theorem goesOn_of_nextClass (h : c.nextClass inner cls = result) : GoesOn c inner cls result := by
  rcases hheritage : cls.heritage with _ | only | parents
  · simp only [nextClass, hheritage] at h
    exact h ▸ .nowhere (by simp [ClassDecl.parents, hheritage])
  · have hparents : cls.parents = [only] := by
      simp [ClassDecl.parents, hheritage, Heritage.parents]
    simp only [nextClass, hheritage] at h
    subst h
    cases honly : c.class? only with
    | none => exact .nowhere (by simp [hparents, honly])
    | some next => exact .parent (by simp [hparents]) honly (.inl hparents)
  · rw [nextClass_compose hheritage] at h
    rcases findM?_spec h with ⟨p, hp, hfound, rfl⟩ | ⟨hall, rfl⟩ | ⟨p, hp, e, herror, rfl⟩
    · obtain ⟨parent, hparent, hnext⟩ := (mem_searched hheritage).1 hp
      obtain ⟨r, hr, hsome⟩ := bind_eq_ok.1 hfound
      obtain ⟨m, rfl⟩ := Option.isSome_iff_exists.1 (pure_eq_ok.1 hsome)
      exact .parent hparent hnext (.inr ⟨m, hr⟩)
    · refine .nowhere fun parent hparent p hp => ?_
      obtain ⟨r, hr, hnone⟩ := bind_eq_ok.1
        (hall p ((mem_searched hheritage).2 ⟨parent, hparent, hp⟩))
      obtain rfl : r = none := by simpa using pure_eq_ok.1 hnone
      exact hr
    · obtain ⟨parent, hparent, hp⟩ := (mem_searched hheritage).1 hp
      rcases bind_eq_error.1 herror with herror | ⟨_, -, herror⟩
      · exact .fails hheritage hparent hp herror
      · cases herror

theorem nextClass_below (h : ∀ p ∈ c.classes.values, Below (inner p) (inner' p)) :
    Below (c.nextClass inner cls) (c.nextClass inner' cls) := by
  rcases hheritage : cls.heritage with _ | only | parents
  · exact .inr (by simp [nextClass, hheritage])
  · exact .inr (by simp [nextClass, hheritage])
  · rw [nextClass_compose hheritage, nextClass_compose hheritage]
    refine findM?_below fun p hp => (h p ?_).bind fun _ => .refl _
    obtain ⟨parent, -, hp⟩ := (mem_searched hheritage).1 hp
    exact mem_values hp

/-! ## Passing classes -/

theorem climb_succ (c : Catalog) (method : String) (inner : ClassDecl → Outcome (Option MethodDecl))
    (rounds : Nat) (cls : ClassDecl) : c.climb method inner (rounds + 1) cls =
      (exposed? cls method).elim
        (c.nextClass inner cls >>= fun next => next.elim (.ok none) (c.climb method inner rounds))
        (.ok ∘ some) := by
  rw [climb]
  cases exposed? cls method with
  | some m => rfl
  | none => rcases c.nextClass inner cls with e | _ | next <;> rfl

/-- A search that settles more in its inner searches settles no other outcomes. -/
theorem climb_below (h : ∀ p ∈ c.classes.values, Below (inner p) (inner' p)) :
    Below (c.climb method inner rounds cls) (c.climb method inner' rounds cls) := by
  induction rounds generalizing cls with
  | zero => exact .refl _
  | succ rounds ih =>
    rw [climb_succ, climb_succ]
    cases exposed? cls method with
    | some m => exact .refl _
    | none =>
      refine (nextClass_below h).bind fun next => ?_
      cases next with
      | none => exact .refl _
      | some next => exact ih

theorem climb_kept (rounds : Nat) (cls : ClassDecl) : c.climb method inner rounds cls = .ok none ∨
    c.climb method inner (rounds + 1) cls = c.climb method inner rounds cls := by
  induction rounds generalizing cls with
  | zero => exact .inl rfl
  | succ rounds ih =>
    rw [climb_succ, climb_succ]
    cases exposed? cls method with
    | some m => exact .inr rfl
    | none =>
      rcases c.nextClass inner cls with e | _ | next
      · exact .inr rfl
      · exact .inl rfl
      · exact ih next

/-- A search that passes as many classes as there are and finds nothing would find nothing on passing
more. -/
theorem climb_eq_none (hcls : cls ∈ c.classes.values)
    (h : c.climb method inner (c.classes.size + 1) cls = .ok none) (rounds : Nat) :
    c.climb method inner rounds cls = .ok none := by
  rw [← length_values] at h
  refine eq_open_of_length_le (fun rounds key _ => climb_kept rounds key)
    (fun rounds hsame key _ => ?_) (Nat.le_succ _) hcls h rounds
  rw [climb_succ, climb_succ c method inner rounds]
  cases exposed? key method with
  | some m => rfl
  | none =>
    rcases hnext : c.nextClass inner key with e | _ | next
    · rfl
    · rfl
    · cases goesOn_of_nextClass hnext with
      | parent _ hnext _ => exact hsame next (mem_values hnext)

/-! ## What is exposed -/

/-- A class or an ancestor of it exposes a method. -/
def Exposes (c : Catalog) (name method : String) (d : MethodDecl) : Prop :=
  ∃ owner cls, Reaches c.class? name owner ∧ c.class? owner = some cls ∧ exposed? cls method = some d

/-- What the search finds is exposed by the class or an ancestor. -/
theorem exposes_of_climb (hcls : c.class? name = some cls)
    (h : c.climb method inner rounds cls = .ok (some d)) : c.Exposes name method d := by
  induction rounds generalizing name cls with
  | zero => cases h
  | succ rounds ih =>
    rw [climb_succ] at h
    cases hexposed : exposed? cls method with
    | some m =>
      rw [hexposed] at h
      cases h
      exact ⟨name, cls, .refl, hcls, hexposed⟩
    | none =>
      rw [hexposed] at h
      obtain ⟨next, hnext, h⟩ := bind_eq_ok.1 h
      cases next with
      | none => cases h
      | some next =>
        cases goesOn_of_nextClass hnext with
        | parent hparent hnext _ =>
          obtain ⟨owner, o, hreaches, howner, hd⟩ := ih hnext h
          exact ⟨owner, o, .head ⟨cls, hcls, hparent⟩ hreaches, howner, hd⟩

theorem exposes_of_searchWithin (hcls : c.class? name = some cls)
    (h : c.searchWithin method depth cls = .ok (some d)) : c.Exposes name method d := by
  cases depth with
  | zero => cases h
  | succ depth => exact exposes_of_climb hcls h

/-! ## The search -/

theorem searchWithin_below (c : Catalog) (method : String) (depth : Nat) (cls : ClassDecl) :
    Below (c.searchWithin method depth cls) (c.searchWithin method (depth + 1) cls) := by
  induction depth generalizing cls with
  | zero => exact .inl rfl
  | succ depth ih => exact climb_below fun p _ => ih p

theorem searchWithin_next (hsame : ∀ p ∈ c.classes.values,
      c.searchWithin method (depth + 1) p = c.searchWithin method depth p) (cls : ClassDecl) :
    c.searchWithin method (depth + 2) cls = c.searchWithin method (depth + 1) cls :=
  Below.antisymm (climb_below fun p hp => .inr (hsame p hp).symm)
    (climb_below fun p hp => .inr (hsame p hp))

/-- More searches inside one another than there are classes make no difference. -/
theorem searchWithin_eq_search (hcls : cls ∈ c.classes.values) (h : c.classes.size ≤ depth) :
    c.searchWithin method depth cls = c.search method cls := by
  rw [search, ← length_values]
  rw [← length_values] at h
  exact eq_of_length_le (fun depth key _ => searchWithin_below c method depth key)
    (fun _ hsame key _ => searchWithin_next hsame key) h cls hcls

theorem searchWithin_endless (hcls : cls ∈ c.classes.values)
    (h : c.search method cls = .error .endless) (depth : Nat) :
    c.searchWithin method depth cls = .error .endless := by
  rw [search, ← length_values] at h
  exact eq_open_of_length_le (fun depth key _ => searchWithin_below c method depth key)
    (fun _ hsame key _ => searchWithin_next hsame key) (Nat.le_refl _) hcls h depth

/-- A search that ends without a method has missed none. -/
theorem not_exposes (hcls : c.class? name = some cls)
    (h : c.searchWithin method depth cls = .ok none) (d : MethodDecl) : ¬ c.Exposes name method d := by
  rintro ⟨owner, o, hreaches, howner, hd⟩
  induction depth generalizing name cls with
  | zero => cases h
  | succ depth ih =>
    have hnone := climb_eq_none (mem_values hcls) h
    clear h
    induction hreaches using ReflTransGen.head_induction_on generalizing cls with
    | refl =>
      obtain rfl := Option.some.inj (hcls.symm.trans howner)
      simpa [climb_succ, hd] using hnone 1
    | @head name parent hparent hrest ihrest =>
      obtain ⟨cls', hcls', hparent⟩ := hparent
      obtain rfl := Option.some.inj (hcls.symm.trans hcls')
      obtain ⟨p, hp⟩ : ∃ p, c.class? parent = some p := by
        rcases hrest.cases_head with rfl | ⟨_, ⟨p, hp, -⟩, -⟩
        · exact ⟨o, howner⟩
        · exact ⟨p, hp⟩
      cases hexposed : exposed? cls method with
      | some m => simpa [climb_succ, hexposed] using hnone 1
      | none =>
        have hgoes := fun rounds => hnone (rounds + 1)
        simp only [climb_succ, hexposed, Option.elim_none] at hgoes
        obtain ⟨next, hnext, -⟩ := bind_eq_ok.1 (hgoes 0)
        simp only [hnext, ok_bind] at hgoes
        cases goesOn_of_nextClass hnext with
        | nowhere hall => exact ih hp (hall parent hparent p hp) hrest
        | @parent only next _ hnext hfound =>
          rcases hfound with honly | ⟨m, hm⟩
          · -- the only parent is the one that leads to the method
            obtain rfl : parent = only := by simpa [honly] using hparent
            obtain rfl := Option.some.inj (hp.symm.trans hnext)
            exact ihrest hp hgoes
          · -- the search passes what the inner search passes
            rcases searchWithin_below c method depth next with hendless | hsame
            · cases hendless.symm.trans hm
            · cases (hgoes _).symm.trans (hsame.trans hm)

/-! ## Searches that end -/

theorem climb_eq_error (hcls : c.class? name = some cls)
    (h : c.climb method inner rounds cls = .error e) : ∃ owner o parents parent p,
      Reaches c.class? name owner ∧ c.class? owner = some o ∧
      o.heritage = some (.compose parents) ∧ parent ∈ o.parents ∧ c.class? parent = some p ∧
      inner p = .error e := by
  induction rounds generalizing name cls with
  | zero => cases h
  | succ rounds ih =>
    rw [climb_succ] at h
    cases hexposed : exposed? cls method with
    | some m =>
      rw [hexposed] at h
      cases h
    | none =>
      rw [hexposed] at h
      rcases bind_eq_error.1 h with h | ⟨next, hnext, h⟩
      · cases goesOn_of_nextClass h with
        | fails hcompose hparent hp herror =>
          exact ⟨name, cls, _, _, _, .refl, hcls, hcompose, hparent, hp, herror⟩
      · cases next with
        | none => cases h
        | some next =>
          cases goesOn_of_nextClass hnext with
          | parent hparent hnext _ =>
            obtain ⟨owner, o, parents, hup, hrest⟩ := ih hnext h
            exact ⟨owner, o, parents, hup, hrest.imp fun _ h => ⟨.head ⟨cls, hcls, hparent⟩ h.1, h.2⟩⟩

theorem eq_endless_of_searchWithin (hcls : c.class? name = some cls)
    (h : c.searchWithin method depth cls = .error e) : e = .endless := by
  induction depth generalizing name cls with
  | zero => exact (Except.error.inj h).symm
  | succ depth ih =>
    obtain ⟨_, _, _, _, p, -, -, -, -, hp, herror⟩ := climb_eq_error hcls h
    exact ih hp herror

theorem mem_of_full {past : List String} (hnodup : past.Nodup)
    (hpast : ∀ q ∈ past, q ∈ c.classes.keys) (hfull : c.classes.size ≤ past.length)
    (hname : name ∈ c.classes.keys) : name ∈ past := by
  have hlength : c.classes.keys.length ≤ past.length := by
    rwa [OrderedMap.keys, length_map]
  exact ((subperm_of_subset hnodup hpast).perm_of_length_le hlength).mem_iff.2 hname

/-- No class that composes others, up from a class, is its own ancestor. -/
def ComposesUp (c : Catalog) (name : String) : Prop :=
  ∀ owner o parents, Reaches c.class? name owner → c.class? owner = some o →
    o.heritage = some (.compose parents) → ¬ HasAncestor c.class? owner owner

/-- The composing classes that searches started from on the way, `past`, are distinct, so there are
no more of them than classes. -/
theorem searchWithin_ends {past : List String} (hcls : c.class? name = some cls)
    (hup : c.ComposesUp name)
    (hnodup : past.Nodup)
    (hpast : ∀ q ∈ past, (∃ o parents, c.class? q = some o ∧ o.heritage = some (.compose parents)) ∧
      HasAncestor c.class? q name)
    (hdepth : c.classes.size ≤ depth + past.length) :
    c.searchWithin method depth cls ≠ .error .endless := by
  induction depth generalizing name cls past with
  | zero =>
    have hmem : name ∈ past := by
      refine mem_of_full hnodup (fun q hq => ?_) (by simpa using hdepth)
        (OrderedMap.mem_keys_of_get? hcls)
      obtain ⟨⟨o, _, ho, -⟩, -⟩ := hpast q hq
      exact OrderedMap.mem_keys_of_get? ho
    obtain ⟨⟨o, parents, ho, hcompose⟩, hcycle⟩ := hpast name hmem
    exact absurd hcycle (hup name o parents .refl ho hcompose)
  | succ depth ih =>
    intro h
    obtain ⟨owner, o, parents, parent, p, hreaches, howner, hcompose, hparent, hp, hinner⟩ :=
      climb_eq_error hcls h
    have hstep : HasParent c.class? owner parent := ⟨o, howner, hparent⟩
    have hnew : owner ∉ past := fun hmem =>
      hup owner o parents hreaches howner hcompose ((hpast owner hmem).2.trans_left hreaches)
    refine ih hp ?_ (nodup_cons.2 ⟨hnew, hnodup⟩) (forall_mem_cons.2 ⟨?_, fun q hq => ?_⟩) ?_ hinner
    · exact fun _ _ _ hreaches' => hup _ _ _ ((hreaches.tail hstep).trans hreaches')
    · exact ⟨⟨o, parents, howner, hcompose⟩, .single hstep⟩
    · exact ⟨(hpast q hq).1, ((hpast q hq).2.trans_left hreaches).tail hstep⟩
    · rw [length_cons]
      omega

/-! ## The main statement -/

/-- The answers to a request for a method of a contract. -/
inductive Answers (c : Catalog) (contract method : String) : Outcome ExternalMethod → Prop
  | interface {i : InterfaceDecl} {d : MethodDecl} (hi : c.interfaces.get? contract = some i)
      (hd : i.methods.find? (·.name == method) = some d) : Answers c contract method (c.externalOf d)
  | notInInterface {i : InterfaceDecl} (hi : c.interfaces.get? contract = some i)
      (hnone : ∀ d ∈ i.methods, d.name ≠ method) :
      Answers c contract method (.error (.unknownMember method (.contract contract)))
  | exposed {d : MethodDecl} (hi : c.interfaces.get? contract = none)
      (hd : c.Exposes contract method d) : Answers c contract method (c.externalOf d)
  | field {cls : ClassDecl} {f : FieldDecl} (hi : c.interfaces.get? contract = none)
      (hcls : c.class? contract = some cls) (hnone : ∀ d, ¬ c.Exposes contract method d)
      (hf : cls.fields.find? (fun f => f.name == method && f.visibility.isExternal) = some f) :
      Answers c contract method (do
        let ty ← c.typeOf f.ty
        c.externalMethod method ty.getterShape.1 [ty.getterShape.2] .view)
  | unknown {cls : ClassDecl} (hi : c.interfaces.get? contract = none)
      (hcls : c.class? contract = some cls) (hnone : ∀ d, ¬ c.Exposes contract method d)
      (hfields : ∀ f ∈ cls.fields, f.name = method → ¬ f.visibility.isExternal) :
      Answers c contract method (.error (.unknownMember method (.contract contract)))
  | unresolved (hi : c.interfaces.get? contract = none) (hcls : c.class? contract = none) :
      Answers c contract method (.error (.unresolvedReference .interface contract))
  | endless {cls : ClassDecl} (hi : c.interfaces.get? contract = none)
      (hcls : c.class? contract = some cls)
      (hcycle : ¬ c.ComposesUp contract)
      (h : ∀ depth, c.searchWithin method depth cls = .error .endless) :
      Answers c contract method (.error .endless)

/-- A request for a method of a contract is answered with a method that the contract exposes if there
is one, or the search for it does not end, however many searches may be inside one another. That
takes a class up from the contract that composes others and is its own ancestor; classes that extend
one another in a cycle do no harm. -/
theorem contractMethod_answers (c : Catalog) (contract method : String) :
    Answers c contract method (c.contractMethod contract method) ∧
      ∀ cls, c.class? contract = some cls →
        (c.ComposesUp contract → ∃ found, c.search method cls = .ok found) ∧
        ∀ depth, c.classes.size ≤ depth →
          c.searchWithin method depth cls = c.search method cls := by
  have hends : ∀ cls, c.class? contract = some cls → c.ComposesUp contract →
      c.search method cls ≠ .error .endless := fun cls hcls hup =>
    searchWithin_ends hcls hup nodup_nil (by simp) (Nat.le_refl _)
  refine ⟨?_, fun cls hcls => ⟨fun hup => ?_, fun depth => searchWithin_eq_search (mem_values hcls)⟩⟩
  · unfold contractMethod
    split
    · rename_i i hi
      split
      · exact .interface hi ‹_›
      · rename_i hnone
        exact .notInInterface hi (by simpa using hnone)
    · rename_i hi
      split
      · exact .unresolved hi ‹_›
      · rename_i cls hcls
        cases hsearch : c.search method cls with
        | error e =>
          obtain rfl := eq_endless_of_searchWithin hcls hsearch
          exact .endless hi hcls (fun hup => hends cls hcls hup hsearch)
            (searchWithin_endless (mem_values hcls) hsearch)
        | ok found =>
          rw [ok_bind]
          cases found with
          | some m => exact .exposed hi (exposes_of_searchWithin hcls hsearch)
          | none =>
            have hnone := not_exposes hcls hsearch
            dsimp only
            split
            · rename_i hfields
              exact .unknown hi hcls hnone (by simpa using hfields)
            · exact .field hi hcls hnone ‹_›
  · cases hsearch : c.search method cls with
    | ok found => exact ⟨found, rfl⟩
    | error e =>
      obtain rfl := eq_endless_of_searchWithin hcls hsearch
      exact absurd hsearch (hends cls hcls hup)

/-- Two classes that extend one another, and one that composes both. -/
def circle : Catalog where
  classes := ((OrderedMap.empty.insert "Ring" { name := "Ring", heritage := some (.extends "Band") }
    ).insert "Band" { name := "Band", heritage := some (.extends "Ring") }
    ).insert "Chain" { name := "Chain", heritage := some (.compose ["Ring", "Band"]) }

theorem composesUp_circle : circle.ComposesUp "Chain" := by
  intro owner o parents _ howner hcompose hcycle
  have hchain : ∀ e ∈ circle.classes.entries, "Chain" ∉ e.2.parents ∧
      ∀ parents, e.2.heritage = some (.compose parents) → e.1 = "Chain" := by
    simp [circle, OrderedMap.insert, OrderedMap.empty, insertEntry, ClassDecl.parents,
      Heritage.parents]
  obtain rfl := (hchain _ (OrderedMap.mem_of_get? howner)).2 parents hcompose
  obtain ⟨_, -, cls, hcls, hparent⟩ := TransGen.tail'_iff.1 hcycle
  exact (hchain _ (OrderedMap.mem_of_get? hcls)).1 hparent

/-- The search goes round, and comes to an end without a method. -/
theorem contractMethod_answers_circle :
    circle.ComposesUp "Chain" ∧
    circle.contractMethod "Chain" "m" = .error (.unknownMember "m" (.contract "Chain")) ∧
    Answers circle "Chain" "m" (.error (.unknownMember "m" (.contract "Chain"))) ∧
    ∃ cls found, circle.class? "Chain" = some cls ∧ circle.search "m" cls = .ok found := by
  obtain ⟨hanswers, hsearch⟩ := contractMethod_answers circle "Chain" "m"
  obtain ⟨found, hfound⟩ := (hsearch _ rfl).1 composesUp_circle
  exact ⟨composesUp_circle, rfl, hanswers, _, found, rfl, hfound⟩

def half (name other : String) : ClassDecl where
  name := name
  heritage := some (.compose [other])

/-- Two classes that compose one another. -/
def knot : Catalog where
  classes := (OrderedMap.empty.insert "Left" (half "Left" "Right")).insert "Right"
    (half "Right" "Left")

/-- A search of one is a search of the other, at any depth, although no method is exposed. -/
theorem search_endless_knot :
    knot.class? "Left" = some (half "Left" "Right") ∧
    (∀ depth, knot.searchWithin "m" depth (half "Left" "Right") = .error .endless) ∧
    knot.contractMethod "Left" "m" = .error .endless := by
  have hround : ∀ depth, knot.searchWithin "m" depth (half "Left" "Right") = .error .endless ∧
      knot.searchWithin "m" depth (half "Right" "Left") = .error .endless := by
    intro depth
    induction depth with
    | zero => exact ⟨rfl, rfl⟩
    | succ depth ih =>
      have hleft : knot.searched ["Left"] = [half "Left" "Right"] := rfl
      have hright : knot.searched ["Right"] = [half "Right" "Left"] := rfl
      constructor
      · rw [searchWithin, climb_succ, nextClass_compose rfl, hright, findM?, ih.2]
        rfl
      · rw [searchWithin, climb_succ, nextClass_compose rfl, hleft, findM?, ih.1]
        rfl
  exact ⟨rfl, fun depth => (hround depth).1, rfl⟩

/-- A class with a readable field and no methods. -/
def readable : Catalog :=
  { classes := OrderedMap.empty.insert "Token"
      { name := "Token", fields := [{ name := "supply", ty := "u256", visibility := .public }] } }

/-- The name of a readable field is no unknown member, although no class exposes a method of that
name. -/
theorem contractMethod_reads_field :
    (∀ d, ¬ readable.Exposes "Token" "supply" d) ∧
      (readable.contractMethod "Token" "supply").toOption.map (·.signature) = some "supply()" := by
  refine ⟨?_, by decide +kernel⟩
  exact not_exposes rfl (show readable.searchWithin "supply" 1 _ = .ok none from rfl)

end ContractYul.Catalog
