import ContractYul.Lineage
import ContractYul.Proofs.Catalog.Keys
import Mathlib.Data.List.Nodup
import Mathlib.Data.List.Perm.Subperm
import Mathlib.Logic.Relation

/-!
# Lines of ancestors

The line of a class is made by going up to the parents of the class, to theirs, and so on, on every
way separately, and by joining what comes back. A class that is met again on its own way up is
refused; a class that is met again on another way stays where it first came up.

A list of classes is a `Line` when each class comes after its parents. Joining keeps this, so what
there is to say about the order of a line follows from how a line is extended.

Main statement: `linearization_topological`.
-/

open List

namespace ContractYul.Lineage

open Source Outcome
open Relation (TransGen ReflTransGen)

/-! ## Ancestors -/

def HasParent (class? : String → Option ClassDecl) (name parent : String) : Prop :=
  ∃ c, class? name = some c ∧ parent ∈ c.parents

def HasAncestor (class? : String → Option ClassDecl) : String → String → Prop :=
  TransGen (HasParent class?)

def Reaches (class? : String → Option ClassDecl) : String → String → Prop :=
  ReflTransGen (HasParent class?)

def namesOf (line : List ClassDecl) : List String :=
  line.map (·.name)

@[simp]
theorem namesOf_append (line next : List ClassDecl) :
    namesOf (line ++ next) = namesOf line ++ namesOf next :=
  map_append

variable {name : String} {line : List ClassDecl} {l : Lineage}

@[simp]
theorem mem_namesOf_singleton : name ∈ namesOf [c] ↔ name = c.name :=
  mem_singleton

/-! ## Lines -/

/-- Classes that come after their parents, each found under its name and none of them twice. -/
inductive Line (class? : String → Option ClassDecl) : List ClassDecl → Prop
  | nil : Line class? []
  | snoc {line : List ClassDecl} {c : ClassDecl} :
      Line class? line → class? c.name = some c → c.name ∉ namesOf line →
      (∀ parent ∈ c.parents, parent ∈ namesOf line) → Line class? (line ++ [c])

namespace Line

theorem nodup (h : Line class? line) : (namesOf line).Nodup := by
  induction h with
  | nil => exact nodup_nil
  | snoc _ _ hfresh _ ih =>
    rw [namesOf_append]
    refine nodup_append.2 ⟨ih, nodup_singleton _, ?_⟩
    rintro x hx y hy rfl
    exact hfresh (mem_namesOf_singleton.1 hy ▸ hx)

theorem found (h : Line class? line) (hc : c ∈ line) : class? c.name = some c := by
  induction h with
  | nil => cases hc
  | snoc _ hfound _ _ ih =>
    rcases mem_append.1 hc with hc | hc
    · exact ih hc
    · rwa [mem_singleton.1 hc]

theorem parent_mem (h : Line class? line) (hname : name ∈ namesOf line)
    (hparent : HasParent class? name name') : name' ∈ namesOf line := by
  induction h with
  | nil => cases hname
  | snoc _ hfound _ hparents ih =>
    rw [namesOf_append] at hname ⊢
    rcases mem_append.1 hname with hname | hname
    · exact mem_append_left _ (ih hname)
    · obtain rfl := mem_namesOf_singleton.1 hname
      obtain ⟨c, hc, hmem⟩ := hparent
      obtain rfl := Option.some.inj (hfound.symm.trans hc)
      exact mem_append_left _ (hparents _ hmem)

theorem reached_mem (h : Line class? line) (hname : name ∈ namesOf line)
    (hreaches : Reaches class? name name') : name' ∈ namesOf line := by
  induction hreaches with
  | refl => exact hname
  | tail _ hparent ih => exact h.parent_mem ih hparent

theorem front {front back : List ClassDecl} (h : Line class? (front ++ back)) :
    Line class? front := by
  generalize hline : front ++ back = line at h
  induction h generalizing back with
  | nil => exact (append_eq_nil_iff.1 hline).1 ▸ .nil
  | @snoc line c hline' hfound hfresh hparents ih =>
    rcases eq_nil_or_concat back with rfl | ⟨back, last, rfl⟩
    · rw [append_nil] at hline
      exact hline ▸ .snoc hline' hfound hfresh hparents
    · rw [concat_eq_append, ← append_assoc] at hline
      exact ih (append_inj_left' hline rfl)

theorem ancestor_mem_front {front back : List ClassDecl} (h : Line class? (front ++ c :: back))
    (hancestor : HasAncestor class? c.name name) : name ∈ namesOf front := by
  rw [append_cons] at h
  have hfront : Line class? (front ++ [c]) := h.front
  obtain ⟨parent, hparent, hreaches⟩ := TransGen.head'_iff.1 hancestor
  refine hfront.front.reached_mem ?_ hreaches
  obtain ⟨c', hc', hmem⟩ := hparent
  have hfound : class? c.name = some c := hfront.found (by simp)
  obtain rfl := Option.some.inj (hfound.symm.trans hc')
  -- the last class of a line has its parents before it
  generalize hline : front ++ [c] = line at hfront
  cases hfront with
  | nil => simp at hline
  | snoc _ _ _ hparents =>
    obtain ⟨rfl, hlast⟩ := append_inj' hline rfl
    obtain rfl := singleton_injective hlast
    exact hparents _ hmem

theorem acyclic (h : Line class? line) (hname : name ∈ namesOf line) :
    ¬ HasAncestor class? name name := by
  intro hcycle
  obtain ⟨c, hc, rfl⟩ := mem_map.1 hname
  obtain ⟨front, back, rfl⟩ := append_of_mem hc
  have hagain : c.name ∈ namesOf front := h.ancestor_mem_front hcycle
  have hnodup := h.nodup
  rw [namesOf_append] at hnodup
  exact (nodup_append.1 hnodup).2.2 _ hagain _ mem_cons_self rfl

end Line

/-! ## Joining -/

variable {next : List ClassDecl}

theorem mem_namesOf_join :
    name ∈ namesOf (join line next) ↔ name ∈ namesOf line ∨ name ∈ namesOf next := by
  rw [join, namesOf_append, mem_append]
  refine ⟨?_, ?_⟩
  · rintro (h | h)
    · exact .inl h
    · obtain ⟨c, hc, rfl⟩ := mem_map.1 h
      exact .inr (mem_map_of_mem (mem_filter.1 hc).1)
  · rintro (h | h)
    · exact .inl h
    · by_cases hmem : name ∈ namesOf line
      · exact .inl hmem
      · obtain ⟨c, hc, rfl⟩ := mem_map.1 h
        refine .inr (mem_map_of_mem (mem_filter.2 ⟨hc, ?_⟩))
        simpa [namesOf] using hmem

theorem join_snoc_of_mem (h : c.name ∈ namesOf line) :
    join line (next ++ [c]) = join line next := by
  have hany : line.any (·.name == c.name) = true := by simpa [namesOf] using h
  simp [join, hany]

theorem join_snoc_of_notMem (h : c.name ∉ namesOf line) :
    join line (next ++ [c]) = join line next ++ [c] := by
  have hany : line.any (·.name == c.name) = false := by
    simpa [namesOf] using h
  simp [join, hany]

@[simp]
theorem join_nil_left (next : List ClassDecl) : join [] next = next := by
  simp [join]

theorem Line.join (hline : Line class? line)
    (hnext : Line class? next) : Line class? (Lineage.join line next) := by
  induction hnext with
  | nil => simpa [Lineage.join] using hline
  | @snoc next c _ hfound hfresh hparents ih =>
    by_cases hmem : c.name ∈ namesOf line
    · rwa [join_snoc_of_mem hmem]
    · rw [join_snoc_of_notMem hmem]
      refine .snoc ih hfound ?_ fun parent hparent => ?_
      · rw [mem_namesOf_join]
        exact not_or.2 ⟨hmem, hfresh⟩
      · exact mem_namesOf_join.2 (.inr (hparents parent hparent))

/-! ## The way up -/

def joinParent (class? : String → Option ClassDecl) (depth : Nat) (below : List String)
    (c : ClassDecl) (line : List ClassDecl) (parent : String) : Outcome (List ClassDecl) :=
  match class? parent with
  | none => .error (.unresolvedAncestor parent c.name)
  | some p => do
    return Lineage.join line (← ofClassWithin class? depth (c.name :: below) p).classes

variable {depth depth' : Nat} {below : List String} {c : ClassDecl}

theorem ofClassWithin_of_mem (h : c.name ∈ below) :
    ofClassWithin class? (depth + 1) below c = .error (.cyclicInheritance c.name) := by
  rw [ofClassWithin, if_pos (by simpa using h)]

theorem ofClassWithin_of_notMem (h : c.name ∉ below) :
    ofClassWithin class? (depth + 1) below c =
      (c.parents.foldlM (joinParent class? depth below c) []).map (⟨·, c⟩) := by
  rw [ofClassWithin, if_neg (by simpa using h)]
  show (foldlM (joinParent class? depth below c) [] c.parents >>= fun line =>
    pure (Lineage.mk line c)) = _
  cases c.parents.foldlM (joinParent class? depth below c) [] <;> rfl

theorem joinParent_eq_ok :
    joinParent class? depth below c line parent = .ok line' ↔
      ∃ p l, class? parent = some p ∧
        ofClassWithin class? depth (c.name :: below) p = .ok l ∧
        line' = Lineage.join line l.classes := by
  unfold joinParent
  cases hp : class? parent with
  | none => simp
  | some p =>
    simp only [bind_eq_ok, pure_eq_ok, Option.some.injEq, exists_and_left, exists_eq_left']
    exact exists_congr fun l => and_congr_right fun _ => eq_comm

/-- What a success means: the class was not met before, and its ancestors come from its parents. -/
theorem ofClassWithin_eq_ok :
    ofClassWithin class? (depth + 1) below c = .ok l ↔
      c.name ∉ below ∧ l.derived = c ∧
        c.parents.foldlM (joinParent class? depth below c) [] = .ok l.ancestors := by
  by_cases hmem : c.name ∈ below
  · simp [ofClassWithin_of_mem hmem, hmem]
  · rw [ofClassWithin_of_notMem hmem, map_eq_ok]
    obtain ⟨ancestors, derived⟩ := l
    simp only [hmem, not_false_eq_true, true_and, Lineage.mk.injEq]
    constructor
    · rintro ⟨line, hline, rfl, rfl⟩
      exact ⟨rfl, hline⟩
    · rintro ⟨rfl, hline⟩
      exact ⟨ancestors, hline, rfl, rfl⟩

/-! ## Success -/

/-- A lookup finds classes under their own names, which are among given ones. -/
structure Finds (class? : String → Option ClassDecl) (keys : List String) : Prop where
  named {name : String} {c : ClassDecl} : class? name = some c → c.name = name
  known {name : String} {c : ClassDecl} : class? name = some c → name ∈ keys

variable {keys : List String}

/-- The lines of parents, joined to a line, have the parents and else only ancestors of theirs that
were not met on the way up. -/
theorem line_joinParents (hfinds : Finds class? keys) (hup : ∀ p l, class? p.name = some p →
      ofClassWithin class? depth (c.name :: below) p = .ok l →
      l.derived = p ∧ Line class? l.classes ∧
        ∀ name ∈ namesOf l.classes, Reaches class? p.name name ∧ name ∉ c.name :: below)
    {parents : List String} (h : parents.foldlM (joinParent class? depth below c) line = .ok line')
    (hline : Line class? line) :
    Line class? line' ∧ (∀ name ∈ namesOf line, name ∈ namesOf line') ∧
      (∀ parent ∈ parents, parent ∈ namesOf line') ∧
      ∀ name ∈ namesOf line', name ∈ namesOf line ∨
        (∃ parent ∈ parents, Reaches class? parent name) ∧ name ∉ c.name :: below := by
  induction parents generalizing line with
  | nil =>
    cases h
    exact ⟨hline, fun _ h => h, by simp, fun _ h => .inl h⟩
  | cons parent parents ih =>
    rw [foldlM_cons, bind_eq_ok] at h
    obtain ⟨joined, hjoined, h⟩ := h
    obtain ⟨p, l, hp, hl, rfl⟩ := joinParent_eq_ok.1 hjoined
    obtain rfl := hfinds.named hp
    obtain ⟨hderived, hlineage, hnames⟩ := hup p l hp hl
    obtain ⟨hline', hkept, hparents, honly⟩ := ih h (hline.join hlineage)
    refine ⟨hline', fun name hname => hkept name (mem_namesOf_join.2 (.inl hname)), ?_, ?_⟩
    · refine forall_mem_cons.2 ⟨hkept _ (mem_namesOf_join.2 (.inr ?_)), hparents⟩
      exact mem_map.2 ⟨p, by simp [classes, hderived], rfl⟩
    · intro name hname
      rcases honly name hname with hjoin | ⟨⟨parent, hparent, hreaches⟩, hapart⟩
      · rcases mem_namesOf_join.1 hjoin with hold | hnew
        · exact .inl hold
        · obtain ⟨hreaches, hapart⟩ := hnames name hnew
          exact .inr ⟨⟨p.name, by simp, hreaches⟩, hapart⟩
      · exact .inr ⟨⟨parent, by simp [hparent], hreaches⟩, hapart⟩

/-- A class that has a line is at its end, behind its ancestors, and no name on the way up to it is
among them. -/
theorem line_ofClassWithin (hfinds : Finds class? keys) (hc : class? c.name = some c)
    (h : ofClassWithin class? depth below c = .ok l) :
    l.derived = c ∧ Line class? l.classes ∧
      ∀ name ∈ namesOf l.classes, Reaches class? c.name name ∧ name ∉ below := by
  induction depth generalizing below c l with
  | zero => cases h
  | succ depth ih =>
    obtain ⟨hapart, rfl, hfold⟩ := ofClassWithin_eq_ok.1 h
    obtain ⟨hline, -, hparents, honly⟩ :=
      line_joinParents hfinds (fun p l hp hl => ih hp hl) hfold .nil
    have hancestor : ∀ name ∈ namesOf l.ancestors,
        HasAncestor class? l.derived.name name ∧ name ∉ l.derived.name :: below := by
      intro name hname
      rcases honly name hname with hnil | ⟨⟨parent, hparent, hreaches⟩, hapart⟩
      · cases hnil
      · exact ⟨TransGen.head' ⟨l.derived, hc, hparent⟩ hreaches, hapart⟩
    refine ⟨rfl, .snoc hline hc (fun hmem => (hancestor _ hmem).2 mem_cons_self) hparents, ?_⟩
    intro name hname
    rw [classes, namesOf_append] at hname
    rcases mem_append.1 hname with hname | hname
    · obtain ⟨hreaches, hapart⟩ := hancestor name hname
      exact ⟨hreaches.to_reflTransGen, fun hmem => hapart (mem_cons_of_mem _ hmem)⟩
    · obtain rfl := mem_namesOf_singleton.1 hname
      exact ⟨ReflTransGen.refl, hapart⟩

theorem length_le_of_below (hnodup : below.Nodup) (hknown : ∀ name ∈ below, name ∈ keys) :
    below.length ≤ keys.length :=
  (subperm_of_subset hnodup hknown).length_le

/-- A class whose ancestors are all found, with no way from one of them back to itself, has a line.
The way up is never longer than the list of names. -/
theorem exists_ofClassWithin (hfinds : Finds class? keys) (hnodup : below.Nodup)
    (hknown : ∀ name ∈ below, name ∈ keys) (hdepth : keys.length < below.length + depth)
    (hc : class? c.name = some c)
    (hresolves : ∀ name, Reaches class? c.name name → (class? name).isSome)
    (hacyclic : ∀ name, Reaches class? c.name name → ¬ HasAncestor class? name name)
    (hbelow : ∀ name ∈ below, HasAncestor class? name c.name) :
    ∃ l, ofClassWithin class? depth below c = .ok l := by
  induction depth generalizing below c with
  | zero =>
    have hlength := length_le_of_below hnodup hknown
    omega
  | succ depth ih =>
    have hapart : c.name ∉ below := fun hmem => hacyclic _ .refl (hbelow _ hmem)
    rw [ofClassWithin_of_notMem hapart]
    have hjoin : ∀ line, ∀ parent ∈ c.parents, ∃ line',
        joinParent class? depth below c line parent = .ok line' := by
      intro line parent hparent
      have hup : HasParent class? c.name parent := ⟨c, hc, hparent⟩
      obtain ⟨p, hp⟩ := Option.isSome_iff_exists.1 (hresolves parent (.single hup))
      obtain rfl := hfinds.named hp
      have hnodup' : (c.name :: below).Nodup := nodup_cons.2 ⟨hapart, hnodup⟩
      obtain ⟨l, hl⟩ := ih hnodup'
        (forall_mem_cons.2 ⟨hfinds.known hc, hknown⟩) (by simp only [length_cons]; omega)
        hp (fun name h => hresolves name (.head hup h)) (fun name h => hacyclic name (.head hup h))
        (forall_mem_cons.2 ⟨.single hup, fun name hname => (hbelow name hname).tail hup⟩)
      exact ⟨_, joinParent_eq_ok.2 ⟨p, l, hp, hl, rfl⟩⟩
    obtain ⟨line, hline⟩ := exists_foldlM [] hjoin
    exact ⟨_, map_eq_ok.2 ⟨line, hline, rfl⟩⟩

/-! ## The bound on the way up -/

/-- A line is the same when more levels are allowed, and when fewer classes are known to be below. -/
theorem ofClassWithin_mono (hbelow : ∀ name ∈ below', name ∈ below) (hdepth : depth ≤ depth')
    (h : ofClassWithin class? depth below c = .ok l) :
    ofClassWithin class? depth' below' c = .ok l := by
  induction depth generalizing depth' below below' c l with
  | zero => cases h
  | succ depth ih =>
    obtain ⟨depth', rfl⟩ : ∃ k, depth' = k + 1 := ⟨depth' - 1, by omega⟩
    obtain ⟨hapart, hderived, hfold⟩ := ofClassWithin_eq_ok.1 h
    refine ofClassWithin_eq_ok.2 ⟨fun hmem => hapart (hbelow _ hmem), hderived, ?_⟩
    refine foldlM_mono (fun line parent line' hstep => ?_) hfold
    obtain ⟨p, l, hp, hl, rfl⟩ := joinParent_eq_ok.1 hstep
    refine joinParent_eq_ok.2 ⟨p, l, hp, ih ?_ (by omega) hl, rfl⟩
    exact cons_subset_cons c.name hbelow

/-- As many levels as there are names are enough: further levels change nothing, whether the class
has a line or not. -/
theorem ofClassWithin_stable (hfinds : Finds class? keys) (hnodup : below.Nodup)
    (hknown : ∀ name ∈ below, name ∈ keys) (hdepth : keys.length < below.length + depth)
    (hdepth' : keys.length < below.length + depth') (hc : class? c.name = some c) :
    ofClassWithin class? depth below c = ofClassWithin class? depth' below c := by
  have hlength := length_le_of_below hnodup hknown
  induction depth generalizing depth' below c with
  | zero => omega
  | succ depth ih =>
    obtain ⟨depth', rfl⟩ : ∃ k, depth' = k + 1 := ⟨depth' - 1, by omega⟩
    by_cases hmem : c.name ∈ below
    · rw [ofClassWithin_of_mem hmem, ofClassWithin_of_mem hmem]
    have hnodup' : (c.name :: below).Nodup := nodup_cons.2 ⟨hmem, hnodup⟩
    have hknown' := forall_mem_cons.2 ⟨hfinds.known hc, hknown⟩
    have hsame : joinParent class? depth below c = joinParent class? depth' below c := by
      funext line parent
      unfold joinParent
      cases hp : class? parent with
      | none => rfl
      | some p =>
        obtain rfl := hfinds.named hp
        have hroom : keys.length < (c.name :: below).length + depth' := by
          simp only [length_cons]
          omega
        have hup := ih hnodup' hknown' (by simp only [length_cons]; omega) hroom hp
          (length_le_of_below hnodup' hknown')
        simp only [hup]
    rw [ofClassWithin_of_notMem hmem, ofClassWithin_of_notMem hmem, hsame]

/-! ## Lines in a catalog -/

theorem finds_ofFile (h : Catalog.ofFile file available = .ok catalog) :
    Finds catalog.class? catalog.classes.keys where
  named := Catalog.name_of_class? (Catalog.keyed_ofFile h)
  known hc := mem_map_of_mem (OrderedMap.mem_of_get? hc)

/-- The line of the first parent is the front of the line of all of them. -/
theorem prefix_joinParents {parents : List String}
    (h : parents.foldlM (joinParent class? depth below c) line = .ok line') : line <+: line' := by
  refine foldlM_invariant (line <+: ·) h (prefix_refl _) ?_
  intro joined parent joined' _ hstep hprefix
  obtain ⟨p, l, -, -, rfl⟩ := joinParent_eq_ok.1 hstep
  exact hprefix.trans (prefix_append _ _)

theorem exists_first_parent {count : Nat} (h : ofClass class? count c = .ok l)
    (hparents : c.parents = parent :: rest) :
    ∃ p lp, class? parent = some p ∧ ofClass class? count p = .ok lp ∧
      lp.classes <+: l.ancestors ∧ (rest = [] → l.ancestors = lp.classes) := by
  obtain ⟨-, -, hfold⟩ := ofClassWithin_eq_ok.1 h
  rw [hparents, foldlM_cons, bind_eq_ok] at hfold
  obtain ⟨first, hfirst, hrest⟩ := hfold
  obtain ⟨p, lp, hp, hlp, rfl⟩ := joinParent_eq_ok.1 hfirst
  rw [join_nil_left] at hrest
  refine ⟨p, lp, hp, ofClassWithin_mono (nil_subset _) (Nat.le_succ _) hlp,
    prefix_joinParents hrest, ?_⟩
  rintro rfl
  exact (pure_eq_ok.1 hrest).symm

/-- The order of the line of a class among the classes that a lookup finds. -/
structure Topological (class? : String → Option ClassDecl) (count : Nat) (c : ClassDecl)
    (l : Lineage) : Prop where
  /-- The class comes last. -/
  last : l.classes.getLast? = some c
  /-- No class comes twice. -/
  nodup : (namesOf l.classes).Nodup
  /-- The line has the class and its ancestors, and nothing else. -/
  mem_iff : ∀ d, d ∈ l.classes ↔ ∃ name, Reaches class? c.name name ∧ class? name = some d
  /-- Every class comes after all of its ancestors. -/
  ordered : ∀ front d back, l.classes = front ++ d :: back →
    ∀ name, HasAncestor class? d.name name → name ∈ namesOf front
  /-- The line of a class with one parent is that of the parent with the class behind it. -/
  extended : ∀ parent, c.heritage = some (.extends parent) → ∃ p lp, class? parent = some p ∧
    ofClass class? count p = .ok lp ∧ l.classes = lp.classes ++ [c]
  /-- The line of a class with several parents starts with that of the first. -/
  composed : ∀ parent rest, c.heritage = some (.compose (parent :: rest)) →
    ∃ p lp, class? parent = some p ∧ ofClass class? count p = .ok lp ∧ lp.classes <+: l.classes

theorem topological_ofClass (hfinds : Finds class? keys) (hc : class? c.name = some c)
    (h : ofClass class? keys.length c = .ok l) : Topological class? keys.length c l := by
  obtain ⟨hderived, hline, hnames⟩ := line_ofClassWithin hfinds hc h
  have hlast : c ∈ l.classes := by simp [classes, hderived]
  refine ⟨by simp [classes, hderived], hline.nodup, fun d => ?_, ?_, ?_, ?_⟩
  · constructor
    · intro hd
      exact ⟨d.name, (hnames _ (mem_map_of_mem hd)).1, hline.found hd⟩
    · rintro ⟨name, hreaches, hd⟩
      obtain ⟨d', hd', rfl⟩ :=
        mem_map.1 (hline.reached_mem (mem_map_of_mem hlast) hreaches)
      obtain rfl := Option.some.inj ((hline.found hd').symm.trans hd)
      exact hd'
  · intro front d back hsplit name hancestor
    exact (hsplit ▸ hline).ancestor_mem_front hancestor
  · intro parent hheritage
    have hparents : c.parents = [parent] := by
      simp [ClassDecl.parents, hheritage, Heritage.parents]
    obtain ⟨p, lp, hp, hlp, -, hall⟩ := exists_first_parent h hparents
    exact ⟨p, lp, hp, hlp, by rw [classes, hall rfl, hderived]⟩
  · intro parent rest hheritage
    have hparents : c.parents = parent :: rest := by
      simp [ClassDecl.parents, hheritage, Heritage.parents]
    obtain ⟨p, lp, hp, hlp, hprefix, -⟩ := exists_first_parent h hparents
    exact ⟨p, lp, hp, hlp, hprefix.trans (prefix_append _ _)⟩

theorem nodup_ofClass (h : Catalog.ofFile file available = .ok catalog)
    (hc : catalog.class? name = some c) (hl : ofClass catalog.class? catalog.classes.size c = .ok l) :
    (namesOf l.classes).Nodup := by
  have hfinds := finds_ofFile h
  obtain rfl := hfinds.named hc
  obtain ⟨-, hline, -⟩ := line_ofClassWithin hfinds hc hl
  exact hline.nodup

/-- The way up from a class of a catalog always ends: more levels than `ofClass` allows change
nothing. It ends in a line just when all names on it are those of classes and none of them is its own
ancestor, and the line has the class and its ancestors, each once and behind its own ancestors. -/
theorem linearization_topological {file : File} {available : List File} {catalog : Catalog}
    {name : String} {c : ClassDecl} (h : Catalog.ofFile file available = .ok catalog)
    (hc : catalog.class? name = some c) :
    (∀ depth, catalog.classes.size + 2 ≤ depth →
      ofClassWithin catalog.class? depth [] c = ofClass catalog.class? catalog.classes.size c) ∧
    ((∃ l, ofClass catalog.class? catalog.classes.size c = .ok l) ↔
      (∀ name, Reaches catalog.class? c.name name → (catalog.class? name).isSome) ∧
        ∀ name, Reaches catalog.class? c.name name → ¬ HasAncestor catalog.class? name name) ∧
    ∀ l, ofClass catalog.class? catalog.classes.size c = .ok l →
      Topological catalog.class? catalog.classes.size c l := by
  have hfinds := finds_ofFile h
  obtain rfl := hfinds.named hc
  have hsize : catalog.classes.size = catalog.classes.keys.length := by
    simp [OrderedMap.size, OrderedMap.keys]
  rw [hsize]
  refine ⟨fun depth hdepth => ?_, ⟨?_, ?_⟩, fun l hl => topological_ofClass hfinds hc hl⟩
  · exact ofClassWithin_stable hfinds List.nodup_nil (List.forall_mem_nil _)
      (by simp only [List.length_nil]; omega) (by simp only [List.length_nil]; omega) hc
  · rintro ⟨l, hl⟩
    obtain ⟨hderived, hline, -⟩ := line_ofClassWithin hfinds hc hl
    have hmem : c.name ∈ namesOf l.classes := List.mem_map.2 ⟨c, by simp [classes, hderived], rfl⟩
    refine ⟨fun name hreaches => ?_, fun name hreaches => ?_⟩
    · obtain ⟨d, hd, rfl⟩ := List.mem_map.1 (hline.reached_mem hmem hreaches)
      exact Option.isSome_iff_exists.2 ⟨d, hline.found hd⟩
    · exact hline.acyclic (hline.reached_mem hmem hreaches)
  · rintro ⟨hresolves, hacyclic⟩
    exact exists_ofClassWithin hfinds List.nodup_nil (List.forall_mem_nil _)
      (by simp only [List.length_nil]; omega) hc hresolves hacyclic (List.forall_mem_nil _)

/-- A class with two parents that have an ancestor in common. -/
def diamond : File where
  path := "diamond"
  classes := [
    { name := "Ownable" },
    { name := "Pausable", heritage := some (.extends "Ownable") },
    { name := "Mintable", heritage := some (.extends "Ownable") },
    { name := "Token", heritage := some (.compose ["Pausable", "Mintable", "Ownable"]) }]

theorem linearization_topological_diamond : ∃ catalog c l,
    Catalog.ofFile diamond [] = .ok catalog ∧ catalog.class? "Token" = some c ∧
      ofClass catalog.class? catalog.classes.size c = .ok l ∧
      namesOf l.classes = ["Ownable", "Pausable", "Mintable", "Token"] ∧
      Topological catalog.class? catalog.classes.size c l ∧
      ∀ name, Reaches catalog.class? c.name name → ¬ HasAncestor catalog.class? name name := by
  let names (catalog : Catalog) : Option (List String) :=
    (catalog.class? "Token").bind fun c =>
      (ofClass catalog.class? catalog.classes.size c).toOption.map (namesOf ·.classes)
  have hfound : (Catalog.ofFile diamond []).toOption.map names =
      some (some ["Ownable", "Pausable", "Mintable", "Token"]) := by decide +kernel
  obtain ⟨catalog, hcatalog, hnames⟩ := exists_of_map_toOption hfound
  obtain ⟨c, hc, hnames⟩ := Option.bind_eq_some_iff.1 hnames
  obtain ⟨l, hl, hnames⟩ := exists_of_map_toOption hnames
  obtain ⟨-, hok, htopological⟩ := linearization_topological hcatalog hc
  exact ⟨catalog, c, l, hcatalog, hc, hl, hnames, htopological l hl, (hok.1 ⟨l, hl⟩).2⟩

end ContractYul.Lineage
