import ContractYul.Lineage
import ContractYul.Proofs.Outcome
import Mathlib.Data.List.Nodup

/-!
# Methods of a line of classes

Which declaration a name stands for in a line of classes. A method belongs to one class. Calls by name
reach its first body there, and its last body is what is lowered under the plain name. A body of
another class is lowered under the name with its class, and is what `super` reaches behind it.

Main statements: `mem_finalMethods`, what is lowered under a plain name, and `called_of_superTarget`,
what `super` stands for. The functions that `super` stands for are put into a table class by class;
`superTarget_eq_nearest` says that looking there is the same as looking for the nearest body.
-/

open List

namespace ContractYul.Lineage

open Source (ClassDecl MethodDecl ConstructorDecl)

variable {l : Lineage} {c owner : ClassDecl} {name : String} {m : MethodDecl}
  {q : ClassDecl × MethodDecl}

/-! ## Bodies of a class -/

structure Implements (c : ClassDecl) (method : String) (m : MethodDecl) : Prop where
  mem : m ∈ c.methods
  name : m.name = method
  body : m.body.isSome

def bodies (c : ClassDecl) (name : String) : List MethodDecl :=
  c.methods.filter fun m => m.name == name && m.body.isSome

theorem mem_bodies : m ∈ bodies c name ↔ Implements c name m := by
  simp only [bodies, mem_filter, Bool.and_eq_true, beq_iff_eq]
  exact ⟨fun ⟨hmem, hname, hbody⟩ => ⟨hmem, hname, hbody⟩, fun h => ⟨h.mem, h.name, h.body⟩⟩

theorem bodied?_eq_head? : c.bodied? name = (bodies c name).head? :=
  head?_filter.symm

theorem lastBodied_eq_getLast? :
    (c.methods.reverse.find? fun m => m.name == name && m.body.isSome) =
      (bodies c name).getLast? := by
  rw [← head?_filter, filter_reverse, head?_reverse, bodies]

theorem of_bodied? (h : c.bodied? name = some m) : Implements c name m := by
  rw [bodied?_eq_head?] at h
  exact mem_bodies.1 (mem_of_head? h)

theorem hasBody_iff : hasBody c name ↔ ∃ m, Implements c name m := by
  rw [hasBody, bodied?_eq_head?, isSome_head?]
  refine ⟨fun h => ?_, fun ⟨m, hm⟩ => ne_nil_of_mem (mem_bodies.2 hm)⟩
  obtain ⟨m, hm⟩ := exists_mem_of_ne_nil _ h
  exact ⟨m, mem_bodies.1 hm⟩

theorem mem_of_method? (h : c.method? name = some m) : m ∈ c.methods ∧ m.name = name :=
  ⟨mem_of_find?_eq_some h, by simpa using find?_some h⟩

/-! ## The owner of a method -/

theorem mem_of_owner? (h : l.owner? name = some c) :
    c ∈ l.classes ∧ ∃ m ∈ c.methods, m.name = name := by
  rcases Option.or_eq_some_iff.1 h with h | ⟨-, h⟩
  · obtain ⟨m, hm⟩ := hasBody_iff.1 (find?_some (p := (hasBody · name)) h)
    exact ⟨mem_reverse.1 (mem_of_find?_eq_some h), m, hm.mem, hm.name⟩
  · obtain ⟨m, hm⟩ := Option.isSome_iff_exists.1
      (find?_some (p := fun c : ClassDecl => (c.method? name).isSome) h)
    exact ⟨mem_reverse.1 (mem_of_find?_eq_some h), m, mem_of_method? hm⟩

theorem mem_methodNames (hc : c ∈ l.classes) (hm : m ∈ c.methods) : m.name ∈ l.methodNames := by
  refine mem_eraseDups.2 (mem_flatMap.2 ⟨c, hc, ?_⟩)
  exact mem_map.2 ⟨m, hm, rfl⟩

theorem exists_owner? (h : name ∈ l.methodNames) : ∃ owner, l.owner? name = some owner := by
  obtain ⟨c, hc, hname⟩ := mem_flatMap.1 (mem_eraseDups.1 h)
  obtain ⟨m, hm, rfl⟩ := mem_map.1 hname
  have hdeclared : (l.classes.reverse.find? fun c => (c.method? m.name).isSome).isSome := by
    refine find?_isSome.2 ⟨c, mem_reverse.2 hc, ?_⟩
    exact find?_isSome.2 ⟨m, hm, by simp⟩
  refine Option.isSome_iff_exists.1 ?_
  rw [owner?, Option.isSome_or, hdeclared, Bool.or_true]

theorem exists_declared (howner : l.owner? name = some owner) :
    ∃ m, owner.method? name = some m := by
  obtain ⟨-, m, hm, rfl⟩ := mem_of_owner? howner
  exact Option.isSome_iff_exists.1 (find?_isSome.2 ⟨m, hm, by simp⟩)

/-! ## What a name is found as -/

/-- A method is found as the first body of its owner, or else its first declaration. -/
theorem method?_eq (howner : l.owner? name = some owner) :
    l.method? name = ((bodies owner name).head?.or (owner.method? name)).map (owner, ·) := by
  rw [← bodied?_eq_head?]
  cases h : (owner.bodied? name).or (owner.method? name) <;> simp [method?, howner, h]

theorem owner?_of_method? (h : l.method? name = some q) : l.owner? name = some q.1 := by
  obtain ⟨owner, howner, h⟩ := Option.bind_eq_some_iff.1 h
  obtain ⟨m, -, h⟩ := Option.bind_eq_some_iff.1 h
  cases h
  exact howner

theorem notMem_methodNames (h : l.method? name = none) : name ∉ l.methodNames := fun hname => by
  obtain ⟨owner, howner⟩ := exists_owner? hname
  obtain ⟨m, hm⟩ := exists_declared howner
  simp [method?_eq howner, hm] at h

/-! ## What is lowered under a plain name -/

/-- The last body for a name, or else the first declaration. -/
theorem mem_of_choice (h : (bodies c name).getLast?.or (c.method? name) = some m) :
    m ∈ c.methods ∧ m.name = name := by
  rcases Option.or_eq_some_iff.1 h with h | ⟨-, h⟩
  · have hm := mem_bodies.1 (mem_of_getLast? h)
    exact ⟨hm.mem, hm.name⟩
  · exact mem_of_method? h

/-- A method is lowered under its plain name from the last body of its owner, or else its first
declaration. -/
theorem mem_finalMethods : q ∈ l.finalMethods ↔ l.owner? q.2.name = some q.1 ∧
    (bodies q.1 q.2.name).getLast?.or (q.1.method? q.2.name) = some q.2 := by
  simp only [finalMethods, mem_filterMap, lastBodied_eq_getLast?]
  constructor
  · rintro ⟨name, -, hq⟩
    obtain ⟨owner, howner, hq⟩ := Option.bind_eq_some_iff.1 hq
    obtain ⟨m, hm, hq⟩ := Option.bind_eq_some_iff.1 hq
    cases hq
    rw [(mem_of_choice hm).2]
    exact ⟨howner, hm⟩
  · rintro ⟨howner, hm⟩
    refine ⟨q.2.name, mem_methodNames (mem_of_owner? howner).1 (mem_of_choice hm).1, ?_⟩
    simp [howner, hm]

theorem owner?_of_final (hq : q ∈ l.finalMethods) : l.owner? q.2.name = some q.1 :=
  (mem_finalMethods.1 hq).1

theorem final_iff (howner : l.owner? name = some owner)
    (hm : (bodies owner name).getLast?.or (owner.method? name) = some m) :
    q ∈ l.finalMethods ∧ q.2.name = name ↔ q = (owner, m) := by
  rw [mem_finalMethods]
  constructor
  · rintro ⟨⟨howner', hm'⟩, rfl⟩
    obtain rfl := Option.some.inj (howner'.symm.trans howner)
    exact Prod.ext rfl (Option.some.inj (hm'.symm.trans hm))
  · rintro rfl
    have hname := (mem_of_choice hm).2
    exact ⟨⟨hname ▸ howner, by rwa [hname]⟩, hname⟩

/-- A method that is lowered under its plain name is declared by a class of the line. -/
theorem mem_of_final (hq : q ∈ l.finalMethods) : q.1 ∈ l.classes ∧ q.2 ∈ q.1.methods :=
  ⟨(mem_of_owner? (owner?_of_final hq)).1, (mem_of_choice (mem_finalMethods.1 hq).2).1⟩

theorem eq_of_final_name (hq : q ∈ l.finalMethods) (hq' : q' ∈ l.finalMethods)
    (hname : q.2.name = q'.2.name) : q = q' := by
  obtain ⟨howner, hm⟩ := mem_finalMethods.1 hq'
  exact (final_iff howner hm).1 ⟨hq, hname⟩

/-- Each method that is declared is lowered once under its plain name. -/
theorem map_name_finalMethods (l : Lineage) : l.finalMethods.map (·.2.name) = l.methodNames := by
  rw [finalMethods, map_filterMap]
  refine (filterMap_congr fun name hname => ?_).trans filterMap_some
  obtain ⟨owner, howner⟩ := exists_owner? hname
  obtain ⟨declared, hdeclared⟩ := exists_declared howner
  obtain ⟨m, hm⟩ : ∃ m, (bodies owner name).getLast?.or (owner.method? name) = some m :=
    Option.isSome_iff_exists.1 (by simp [hdeclared])
  simp [howner, lastBodied_eq_getLast?, hm, (mem_of_choice hm).2]

theorem exists_final_of_owner? (h : l.owner? name = some c) :
    ∃ q ∈ l.finalMethods, q.2.name = name := by
  obtain ⟨hc, m, hm, rfl⟩ := mem_of_owner? h
  exact mem_map.1 (map_name_finalMethods l ▸ mem_methodNames hc hm)

theorem exists_final_of_hasBody (howner : l.owner? name = some c) (hbody : hasBody c name) :
    ∃ m, Implements c name m ∧ (c, m) ∈ l.finalMethods := by
  obtain ⟨m, hm⟩ := hasBody_iff.1 hbody
  obtain ⟨final, hfinal⟩ : ∃ final, (bodies c name).getLast? = some final :=
    Option.isSome_iff_exists.1 (by simpa using ne_nil_of_mem (mem_bodies.2 hm))
  exact ⟨final, mem_bodies.1 (mem_of_getLast? hfinal),
    ((final_iff howner (by rw [hfinal, Option.some_or])).2 rfl).1⟩

/-! ## What `super` reaches -/

/-- A method that is not overridden belongs to the one class that declares it. -/
theorem owner?_of_notMem (hc : c ∈ l.classes) (hm : m ∈ c.methods) (h : m.name ∉ l.overridden) :
    l.owner? m.name = some c := by
  obtain ⟨owner, howner⟩ := exists_owner? (mem_methodNames hc hm)
  obtain ⟨hmem, m', hm', hname⟩ := mem_of_owner? howner
  have hcount : ¬ 2 ≤ l.classes.countP fun c => (c.method? m.name).isSome := fun hle =>
    h (mem_sortedSet.2 (mem_filter.2 ⟨mem_methodNames hc hm, by simpa using hle⟩))
  have hdeclares : ∀ d ∈ l.classes, ∀ m' ∈ d.methods, m'.name = m.name →
      d ∈ l.classes.filter fun c => (c.method? m.name).isSome := fun d hd m' hm' hname =>
    mem_filter.2 ⟨hd, find?_isSome.2 ⟨m', hm', by simpa using hname⟩⟩
  rw [countP_eq_length_filter] at hcount
  obtain ⟨d, hd⟩ : ∃ d, (l.classes.filter fun c => (c.method? m.name).isSome) = [d] :=
    length_eq_one_iff.1 (by
      have := length_pos_of_mem (hdeclares c hc m hm rfl)
      omega)
  have hsame := hdeclares c hc m hm rfl
  have hsame' := hdeclares owner hmem m' hm' hname
  rw [hd, mem_singleton] at hsame hsame'
  rw [howner, hsame, hsame']

theorem mem_renamed (hc : c ∈ l.classes) (hm : Implements c name m)
    (howns : ¬ l.owns c.name name) : (c, m, renamedName c.name name) ∈ l.renamedMethods := by
  obtain rfl := hm.name
  have hoverridden : m.name ∈ l.overridden := by
    by_contra hnot
    exact howns (by simp [owns, owner?_of_notMem hc hm.mem hnot])
  refine mem_flatMap.2 ⟨c, hc, mem_map.2 ⟨m, mem_filter.2 ⟨hm.mem, ?_⟩, rfl⟩⟩
  simpa [hm.body, hoverridden] using howns

/-! ### The table of targets -/

section Targets

variable {targets : SuperTargets} {d : ClassDecl} {above front back rest : List ClassDecl}
  {className caller method target : String}

theorem lookup_insertEach (f : String → Option String) (names : List String) :
    (names.foldl (fun targets method => (f method).elim targets fun target =>
        ((className, method), target) :: targets) targets).lookup (caller, method) =
      (if caller = className ∧ method ∈ names then f method else none).or
        (targets.lookup (caller, method)) := by
  induction names generalizing targets with
  | nil => simp
  | cons first names ih =>
    rw [foldl_cons, ih]
    by_cases hkey : caller = className ∧ method = first
    · obtain ⟨rfl, rfl⟩ := hkey
      cases f method
      · simp
      · by_cases hmem : method ∈ names <;> simp [hmem]
    · have hmem : caller = className ∧ method ∈ first :: names ↔
          caller = className ∧ method ∈ names := by grind
      have hne : ((caller, method) == (className, first)) = false := by simpa using hkey
      simp only [hmem]
      cases f first <;> simp [lookup_cons, hne]

theorem lookup_insertMissing (methods : List MethodDecl) :
    (methods.foldl (fun targets m =>
        if m.body.isSome && (targets.lookup (className, m.name)).isNone then
          ((className, m.name), functionName m.name) :: targets
        else targets) targets).lookup (caller, method) =
      (targets.lookup (caller, method)).or
        (if caller = className ∧ ∃ m ∈ methods, m.name = method ∧ m.body.isSome then
          some (functionName method) else none) := by
  induction methods generalizing targets with
  | nil => simp
  | cons first methods ih =>
    rw [foldl_cons, ih]
    by_cases hkey : caller = className ∧ method = first.name ∧ first.body.isSome
    · obtain ⟨rfl, rfl, hbody⟩ := hkey
      cases htargets : targets.lookup (caller, first.name) <;> simp [hbody, htargets]
    · have hmem : (caller = className ∧ ∃ m ∈ first :: methods, m.name = method ∧ m.body.isSome) ↔
          caller = className ∧ ∃ m ∈ methods, m.name = method ∧ m.body.isSome := by grind
      simp only [hmem]
      split
      · rename_i hnew
        have hne : ((caller, method) == (className, first.name)) = false := by
          rw [Bool.and_eq_true] at hnew
          rw [beq_eq_false_iff_ne, ne_eq, Prod.mk.injEq]
          exact fun h => hkey ⟨h.1, h.2, hnew.1⟩
        simp [lookup_cons, hne]
      · rfl

theorem lookup_addSuperTargets_of_ne (h : caller ≠ className) :
    (l.addSuperTargets className above targets).lookup (caller, method) =
      targets.lookup (caller, method) := by
  simp [addSuperTargets, lookup_insertMissing, lookup_insertEach, h]

/-- The first entries of a class lead to the nearest body. -/
theorem lookup_addSuperTargets (habove : above ⊆ l.classes)
    (hnew : targets.lookup (className, method) = none) :
    (l.addSuperTargets className above targets).lookup (className, method) =
      l.nearestTarget? above method := by
  rw [addSuperTargets, lookup_insertMissing, lookup_insertEach, hnew]
  cases hfind : above.reverse.find? (hasBody · method) with
  | none =>
    have hbody : ¬ ∃ m ∈ above.flatMap (·.methods), m.name = method ∧ m.body.isSome := by
      rintro ⟨m, hm, hname, hbody⟩
      obtain ⟨c, hc, hm⟩ := mem_flatMap.1 hm
      exact find?_eq_none.1 hfind c (mem_reverse.2 hc) (hasBody_iff.2 ⟨m, hm, hname, hbody⟩)
    have hnone : l.nearestTarget? above method = none := by simp [nearestTarget?, hfind]
    rw [hnone, ite_self, if_neg fun h => hbody h.2]
    rfl
  | some c =>
    obtain ⟨m, hm⟩ := hasBody_iff.1 (find?_some (p := (hasBody · method)) hfind)
    have hc := mem_reverse.1 (mem_of_find?_eq_some hfind)
    obtain rfl := hm.name
    by_cases hoverridden : m.name ∈ l.overridden
    · simp [nearestTarget?, hfind, hoverridden]
    · -- a method that is declared once has its plain name
      have hbody : ∃ m' ∈ above.flatMap (·.methods), m'.name = m.name ∧ m'.body.isSome :=
        ⟨m, mem_flatMap.2 ⟨c, hc, hm.mem⟩, rfl, hm.body⟩
      have howns : l.owns c.name m.name := by
        simp [owns, owner?_of_notMem (habove hc) hm.mem hoverridden]
      rw [if_neg fun h => hoverridden h.2, if_pos ⟨rfl, hbody⟩]
      simp [nearestTarget?, hfind, irName, howns]

theorem lookup_superTargetsFrom (h : caller ∉ rest.map (·.name)) :
    (l.superTargetsFrom above rest targets).lookup (caller, method) =
      targets.lookup (caller, method) := by
  induction rest generalizing above targets with
  | nil => rfl
  | cons c rest ih =>
    rw [map_cons, mem_cons, not_or] at h
    rw [superTargetsFrom, ih h.2, lookup_addSuperTargets_of_ne h.1]

theorem superTargetsFrom_append : l.superTargetsFrom above (front ++ back) targets =
    l.superTargetsFrom (above ++ front) back (l.superTargetsFrom above front targets) := by
  induction front generalizing above targets with
  | nil => simp [superTargetsFrom]
  | cons c front ih => simp [superTargetsFrom, ih]

section

variable (hnodup : (l.classes.map (·.name)).Nodup)

include hnodup

theorem before_eq (hsplit : l.classes = front ++ d :: back) : l.before d.name = front.reverse := by
  rw [hsplit, map_append] at hnodup
  obtain ⟨-, -, hapart⟩ := nodup_append.1 hnodup
  have hfront : ∀ c ∈ front, (c.name != d.name) = true := fun c hc =>
    bne_iff_ne.2 (hapart c.name (mem_map_of_mem hc) d.name mem_cons_self)
  have hcontains : l.contains d.name := by
    rw [contains, hsplit]
    simp
  rw [before, if_pos hcontains, hsplit, takeWhile_append_of_pos hfront]
  simp

theorem lookup_superTargets (hsplit : l.classes = front ++ d :: back) :
    l.superTargets.lookup (d.name, method) = l.nearestTarget? front method := by
  rw [hsplit, map_append, map_cons, nodup_middle, nodup_cons, mem_append, not_or] at hnodup
  rw [superTargets, hsplit, superTargetsFrom_append, superTargetsFrom,
    lookup_superTargetsFrom hnodup.1.2, nil_append]
  refine lookup_addSuperTargets (fun c hc => ?_) (lookup_superTargetsFrom hnodup.1.1)
  rw [hsplit]
  exact mem_append_left _ hc

/-- The table leads to the nearest body above a class. -/
theorem superTarget_eq_nearest : l.superTarget className method =
    ((l.before className).find? (hasBody · method)).elim
      (.error (.missingSuperImplementation className method))
      fun c => .ok (l.irName c.name method) := by
  by_cases h : className ∈ l.classes.map (·.name)
  · obtain ⟨d, hd, rfl⟩ := mem_map.1 h
    obtain ⟨front, back, hsplit⟩ := append_of_mem hd
    rw [superTarget, lookup_superTargets hnodup hsplit, before_eq hnodup hsplit, nearestTarget?]
    cases front.reverse.find? (hasBody · method) <;> rfl
  · have hnone : l.superTargets.lookup (className, method) = none := lookup_superTargetsFrom h
    have hcontains : ¬ l.contains className := by simpa [contains] using h
    rw [superTarget, hnone, before, if_neg hcontains]
    rfl

end

/-- A function has the plain name of a method, or the name that a class has for it. -/
def Names (l : Lineage) (method target : String) : Prop :=
  target = functionName method ∨ ∃ className, target = l.irName className method

/-- Whatever the classes, `super` stands for a function with a name of its method. -/
theorem names_of_superTargets (h : l.superTargets.lookup (caller, method) = some target) :
    l.Names method target := by
  have hfrom : ∀ above rest targets,
      (∀ target, targets.lookup (caller, method) = some target → l.Names method target) → ∀ target,
        (l.superTargetsFrom above rest targets).lookup (caller, method) = some target →
          l.Names method target := by
    intro above rest
    induction rest generalizing above with
    | nil => exact fun _ => id
    | cons c rest ih =>
      refine fun targets hold => ih _ _ fun target h => ?_
      rw [addSuperTargets, lookup_insertMissing, lookup_insertEach] at h
      rcases Option.or_eq_some_iff.1 h with h | ⟨-, h⟩
      · rcases Option.or_eq_some_iff.1 h with h | ⟨-, h⟩
        · obtain ⟨-, h⟩ := Option.ite_none_right_eq_some.1 h
          obtain ⟨c, -, rfl⟩ := Option.map_eq_some_iff.1 h
          exact .inr ⟨c.name, rfl⟩
        · exact hold target h
      · exact .inl (Option.some.inj (Option.ite_none_right_eq_some.1 h).2).symm
  exact hfrom [] l.classes [] (by simp) target h

end Targets

theorem mem_classes_of_mem_before (h : c ∈ l.before className) : c ∈ l.classes := by
  unfold before at h
  split at h
  · exact (takeWhile_sublist _).mem (mem_reverse.1 h)
  · cases h

/-- The body that `super` is checked against is the first body of the class that it reaches. -/
theorem bodied?_of_find {classes : List ClassDecl}
    (hc : classes.find? (hasBody · name) = some c)
    (hm : classes.findSome? (·.bodied? name) = some m) : c.bodied? name = some m := by
  obtain ⟨hbody, front, back, rfl, hfront⟩ := find?_eq_some_iff_append.1 hc
  have hnone : front.findSome? (·.bodied? name) = none :=
    findSome?_eq_none_iff.2 fun b hb => by simpa [hasBody] using hfront b hb
  obtain ⟨m', hm'⟩ := Option.isSome_iff_exists.1 hbody
  rw [findSome?_append, hnone, findSome?_cons, hm'] at hm
  exact hm'.trans hm

/-- A parent method is called under its plain name as the body that is found by the name, and under
the name with its class as the body that is lowered so. -/
theorem called_of_superTarget (hnodup : (l.classes.map (·.name)).Nodup)
    (h : l.superTarget className name = .ok target)
    (hm : (l.before className).findSome? (·.bodied? name) = some m) :
    (∃ owner, l.method? name = some (owner, m) ∧ target = functionName name) ∨
      ∃ c, (c, m, target) ∈ l.renamedMethods := by
  rw [superTarget_eq_nearest hnodup] at h
  cases hfind : (l.before className).find? (hasBody · name) with
  | none =>
    rw [hfind] at h
    cases h
  | some c =>
    rw [hfind] at h
    cases h
    have hbodied := bodied?_of_find hfind hm
    have hc : c ∈ l.classes := mem_classes_of_mem_before (mem_of_find?_eq_some hfind)
    unfold irName
    split
    · rename_i howns
      obtain ⟨owner, howner, hsame⟩ := (Option.any_eq_true _ _).1 howns
      obtain rfl : owner = c :=
        inj_on_of_nodup_map hnodup (mem_of_owner? howner).1 hc (by simpa using hsame)
      refine .inl ⟨owner, ?_, rfl⟩
      rw [method?_eq howner, ← bodied?_eq_head?, hbodied]
      rfl
    · rename_i howns
      exact .inr ⟨c, mem_renamed hc (of_bodied? hbodied) howns⟩

theorem mem_of_firstConstructor? {classes : List ClassDecl} {q : ClassDecl × ConstructorDecl}
    (h : firstConstructor? classes = some q) : q.1 ∈ classes ∧ q.1.constructor = some q.2 := by
  obtain ⟨c, hc, hq⟩ := exists_of_findSome?_eq_some h
  obtain ⟨ctor, hctor, rfl⟩ := Option.map_eq_some_iff.1 hq
  exact ⟨hc, hctor⟩

end ContractYul.Lineage
