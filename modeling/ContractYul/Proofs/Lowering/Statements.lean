import ContractYul.Proofs.Lowering.Expressions

/-!
# Statements

While the code of a function is lowered, the names of its variables stay apart from the names that
temporaries are yet to get, and from those of a guard that waits for its call. A variable is named
after the source, and no such name is that of a temporary. A `try` reserves temporaries for its
guard before its body is lowered. What is written for a statement mentions variables where they are
seen, each name that it declares was free, and it calls what there is when it ends. A log takes at
most four topics, since an event with more indexed fields is refused.

Main statement: `writes_lowerStmt`.
-/

open List

namespace ContractYul.Lowering

open Yul Outcome Stmt
open Lowers (Any)

/-! ## Events -/

/-- An event with its signature takes at most as many topics as a log can have. -/
theorem indexed_eventOf {catalog : Catalog} (h : catalog.eventOf decl = .ok event) :
    event.fields.countP (·.indexed) ≤ Abi.maxIndexed event.anonymous := by
  obtain ⟨fields, -, h⟩ := bind_eq_ok.1 h
  simp only at h
  split at h
  · cases h
  · rename_i hle
    obtain ⟨types, -, h⟩ := bind_eq_ok.1 h
    cases h
    exact Nat.le_of_not_lt hle

theorem countP_zip_le (p : α → Bool) (as : List α) (bs : List β) :
    (as.zip bs).countP (fun q => p q.1) ≤ as.countP p := by
  induction as generalizing bs with
  | nil => simp
  | cons a as ih =>
    cases bs with
    | nil => simp
    | cons b bs =>
      simp only [zip_cons_cons, countP_cons]
      exact Nat.add_le_add_right (ih bs) _

theorem mem_instructions_log (hn : n ≤ 4) : ⟨"log" ++ toString n, n + 2, 0⟩ ∈ instructions := by
  have hall : ∀ n ∈ range 5, ⟨"log" ++ toString n, n + 2, 0⟩ ∈ instructions := by decide
  exact hall n (mem_range.2 (Nat.lt_succ_of_le hn))

theorem isCalm_log (n : Nat) : IsCalm ("log" ++ toString n) := by
  have hlist : ("log" ++ toString n).toList = ['l', 'o', 'g'] ++ (toString n).toList :=
    String.toList_append
  refine ⟨fun hmem => ?_, ?_⟩
  -- the instructions for storage start with other letters
  · have hfirst : ∀ name ∈ storageInstructions, name.toList.head? ≠ some 'l' := by decide
    exact hfirst _ hmem (by rw [hlist]; rfl)
  · simp

namespace Lowers

variable {env : Env} {κ : Stage} {v : Value} {topics : List Yul.Expr}
  {data : List Value} {args : List Operand}

theorem topicOf (hv : PlainValue env κ v) : Lowers env κ (Lowering.topicOf v) (Known env 1) := by
  unfold Lowering.topicOf
  split
  · exact (capture hv.known).bind fun _ _ _ hv => pure hv.known
  · refine (referenceHash? hv).bind fun κ₁ hash? h₁ hhash => ?_
    cases hash? with
    | none => exact throw
    | some hash => exact (captureFresh (hhash hash rfl)).bind fun _ _ _ hv => pure hv.known

theorem emitLog {start length : Yul.Expr} (hcount : topics.length ≤ 4) (hstart : Known env 1 κ start)
    (hlength : Known env 1 κ length) (htopics : ∀ e ∈ topics, Known env 1 κ e) :
    Lowers env κ (Lowering.emit (logOf start length topics)) Any := by
  refine emit (fits_run.2 ⟨Stage.uses_instruction ?_ (isCalm_log _), ?_⟩)
  · exact mem_instructions_log hcount
  · exact forall_mem_append.2 ⟨by simpa using ⟨hstart, hlength⟩, htopics⟩

theorem logData (hcount : topics.length ≤ 4) (htopics : ∀ e ∈ topics, Known env 1 κ e)
    (hdata : PlainValues env κ data) : Lowers env κ (Lowering.logData topics data) Any := by
  unfold Lowering.logData
  split
  · exact emitLog hcount fits_num fits_num htopics
  · refine shapeLiteral.bind fun κ₁ shape h₁ hshape => ?_
    refine freeMemory.bind fun κ₂ start h₂ hstart => ?_
    have hdata := stays_plainValues _ _ _ (h₁.trans h₂) hdata
    have hargs : ∀ e ∈ [start.expr, shape] ++ data.map (·.expr), Known env 1 κ₂ e := by
      refine forall_mem_append.2 ⟨?_, known_exprs hdata⟩
      simpa using ⟨hstart.known, hshape.later h₂⟩
    refine (family ?_ hargs).bind fun κ₃ encoded h₃ hencoded => ?_
    · rw [length_append, length_map, Nat.add_comm]
      rfl
    refine (bindFresh hencoded).bind fun κ₄ stop h₄ hstop => ?_
    have hstart := (hstart.later (h₃.trans h₄)).known
    refine emitLog hcount hstart (Op.fits_sub.2 ⟨fits_ident.2 hstop.1, hstart⟩) fun e he => ?_
    exact (htopics e he).later (h₁.trans (h₂.trans (h₃.trans h₄)))

theorem emitEvent {name : String} (h : AllSound env args) :
    Lowers env κ (Lowering.emitEvent name args) Any := by
  refine read_bind ?_
  dsimp only
  split
  · exact throw
  · refine succeeded.bind fun κ₁ event h₁ hevent => attempt.bind fun κ₂ _ h₂ _ => ?_
    refine (orderedAs h).bind fun κ₃ values h₃ hvalues => ?_
    have hvalue : ∀ p ∈ event.fields.zip values, PlainValue env κ₃ p.2 := fun p hp =>
      hvalues.2 p.2 (of_mem_zip hp).2
    rw [partition_eq_filter_filter]
    refine (mapM (T := Known env 1) (fun _ _ _ h he => he.later h) fun κ' h p hp => ?_).bind
      fun κ₄ topics h₄ htopics => logData ?_ ?_ ?_
    · exact topicOf ((hvalue p (mem_filter.1 hp).1).later h)
    -- one topic for the signature, and one for each indexed field
    · have hindexed := indexed_eventOf hevent
      have hzip := countP_zip_le (fun f : Abi.EventField => f.indexed) event.fields values
      rw [length_append, htopics.1, ← countP_eq_length_filter]
      revert hindexed
      cases event.anonymous <;> simp [Abi.maxIndexed] <;> omega
    · refine forall_mem_append.2 ⟨?_, htopics.2⟩
      split <;> simp
    · intro v hv
      obtain ⟨p, hp, rfl⟩ := mem_map.1 hv
      exact (hvalue p (mem_filter.1 hp).1).later h₄

end Lowers

/-! ## Code in hand -/

/-- Code that may be written in a function: it mentions what is known and what it declares, and uses
what may be used. -/
structure Stage.Ready (env : Env) (κ : Stage) (code : List Yul.Stmt) : Prop where
  seen : κ.naming.strict → AllScoped κ.Knows code
  uses : κ.Allows env code

namespace Stage

variable {env : Env} {κ κ' : Stage} {code more post body : List Yul.Stmt}
  {c : Yul.Expr}

theorem CanWrite.ready (h : κ.CanWrite env code) : κ.Ready env code :=
  ⟨h.seen, h.uses⟩

theorem Ready.canWrite (h : κ.Ready env code) (hjumps : κ.naming.jumps) : κ.CanWrite env code :=
  ⟨⟨h.seen, .inl hjumps⟩, h.uses⟩

theorem ready_bare (hs : ∀ {P}, s.Scoped P) (huses : ∀ {A}, s.Uses A) : κ.Ready env [s] :=
  ⟨fun _ => allScoped_cons.2 ⟨hs, allScoped_nil⟩, huses, trivial⟩

namespace Ready

theorem nil : κ.Ready env [] :=
  CanWrite.nil.ready

theorem later (hcode : κ.Ready env code) (h : κ.Extends env.catalog κ') : κ'.Ready env code :=
  ⟨fun hs => (hcode.seen (h.naming.strict ▸ hs)).mono (Naming.Knows.mono h.naming),
    hcode.uses.later h⟩

theorem append (hcode : κ.Ready env code) (hmore : (κ.behind code).Ready env more) :
    κ.Ready env (code ++ more) where
  seen hs := allScoped_append.2
    ⟨hcode.seen hs, (hmore.seen hs).mono fun _ hx => Naming.knows_of_seeing hx⟩
  uses := hcode.uses.append hmore.uses

theorem block (h : κ.Ready env code) : κ.Ready env [.block code] where
  seen hs := allScoped_cons.2 ⟨h.seen hs, allScoped_nil⟩
  uses := h.uses.block

theorem ifThen (hc : Known env 1 κ c) (h : κ.Ready env code) : κ.Ready env [.ifThen c code] where
  seen hs := allScoped_cons.2 ⟨⟨hc.mentions, h.seen hs⟩, allScoped_nil⟩
  uses := h.uses.ifThen hc

theorem rounds (hc : Known env 1 κ c) (hpost : κ.Ready env post) (hbody : κ.Ready env body) :
    κ.Ready env [.loop [] c post body] where
  seen hs := allScoped_cons.2 ⟨⟨trivial, hc.mentions.mono fun _ => .inl,
    (hpost.seen hs).mono fun _ => .inl, (hbody.seen hs).mono fun _ => .inl⟩, allScoped_nil⟩
  uses := .loop trivial hc hpost.uses hbody.uses

/-- The initial part of a loop may as well stand in front of it. -/
theorem loop (h : κ.Ready env (code ++ [.loop [] c post body])) :
    κ.Ready env [.loop code c post body] where
  seen hs := allScoped_cons.2 ⟨scoped_loop (h.seen hs), allScoped_nil⟩
  uses := by
    obtain ⟨hcode, ⟨-, hc, hpost, hbody⟩, -⟩ := allUse_append.1 h.uses
    have hsame : (κ.behind (code ++ [.loop [] c post body])).bindings =
        (κ.behind [.loop code c post body]).bindings := by simp [behind]
    have hloop : AllUse ((κ.behind (code ++ [.loop [] c post body])).Uses env false)
        [.loop code c post body] := ⟨⟨hcode, hc, hpost, hbody⟩, trivial⟩
    exact hloop.mono fun u hu => ⟨hu.linked, hsame ▸ hu.licensed, hu.quiet⟩

/-- Code that ends by leaving the loop when a value is zero. -/
theorem breakUnless (h : κ.Ready env code) (hc : Known env 1 (κ.behind code) c) :
    κ.Ready env (code ++ [Lowering.breakUnless c]) := by
  exact h.append (.ifThen (Op.fits_isZero.2 hc) (ready_bare trivial trivial))

end Ready

end Stage

/-! ## Pieces of a function -/

/-- Lowering in a function, where control may lead elsewhere and the return variables are known. -/
def Proceeds {α : Type} (env : Env) (κ : Stage) (m : Lower α)
    (R : Stage → α → Prop) : Prop :=
  κ.naming.jumps → (∀ r ∈ env.returns, κ.Knows r.1) → Moves env κ m R

/-- Lowering of a statement: it leaves nothing in hand, and no guard that waits. -/
def Writes (env : Env) (m : Lower Unit) : Prop :=
  ∀ κ : Stage, Proceeds env κ m fun κ' _ => κ.Holds κ' []

abbrev AllWrite (env : Env) (parts : List (Lower Unit)) : Prop :=
  ∀ m ∈ parts, Writes env m

namespace Proceeds

variable {α β : Type} {env : Env} {κ κ₁ : Stage} {m : Lower α}
  {R S : Stage → α → Prop} {names : List String} {code : List Yul.Stmt}
  {parts : List (Lower Unit)}

theorem of_moves (hm : Moves env κ m R) : Proceeds env κ m R :=
  fun _ _ => hm

theorem of_lowers (hm : Lowers env κ m R) : Proceeds env κ m fun κ' a => κ.Holds κ' [] ∧ R κ' a :=
  of_moves (Moves.weaken hm fun _ _ _ h => ⟨h.1.toHolds, h.2⟩)

theorem pure (h : R κ a) : Proceeds env κ (pure a) R :=
  of_moves (Moves.pure h)

theorem throw : Proceeds env κ (throw e : Lower α) R :=
  of_moves Moves.throw

theorem weaken (hm : Proceeds env κ m R)
    (h : ∀ κ' a, κ.Extends env.catalog κ' → R κ' a → S κ' a) : Proceeds env κ m S :=
  fun hjumps hreturns => (hm hjumps hreturns).weaken h

theorem bind (hm : Proceeds env κ m R)
    (hf : ∀ κ' a, κ.Extends env.catalog κ' → R κ' a → Proceeds env κ' (f a) T) :
    Proceeds env κ (m >>= f) T := by
  intro hjumps hreturns
  refine (hm hjumps hreturns).bind fun κ' a h ha => ?_
  exact hf κ' a h ha (h.naming.jumps ▸ hjumps) fun r hr => (hreturns r hr).later h

theorem read_bind (hf : (∀ r ∈ env.returns, κ.Knows r.1) → Proceeds env κ (f env) R) :
    Proceeds env κ (read >>= f) R :=
  fun hjumps hreturns => Moves.read_bind (hf hreturns hjumps hreturns)

theorem get_bind (hf : ∀ st, Proceeds env κ (f st) R) : Proceeds env κ (get >>= f) R :=
  fun hjumps hreturns => Moves.get_bind fun st _ => hf st hjumps hreturns

theorem before [Decidable c] {m : Lower Unit} (hthen : c → Proceeds env κ (m >>= rest) R)
    (helse : ¬ c → Proceeds env κ (rest ()) R) :
    Proceeds env κ (if c then m >>= rest else rest ()) R := by
  split
  · exact hthen ‹c›
  · exact helse ‹¬ c›

theorem throwIf [Decidable c] (hrest : Proceeds env κ (rest ()) R) :
    Proceeds env κ (if c then MonadExcept.throw e >>= rest else rest ()) R :=
  before (fun _ => Proceeds.bind (R := fun _ _ => False) throw fun _ _ _ h => h.elim) fun _ => hrest

/-- A statement comes first, and what was in hand stays there. -/
theorem after {m : Lower Unit} (hm : Writes env m)
    (hf : ∀ κ', κ.Extends env.catalog κ' → κ.Holds κ' [] → Proceeds env κ' (f ()) T) :
    Proceeds env κ (m >>= f) T :=
  (hm κ).bind fun κ' _ h hh => hf κ' h hh

/-! ### Writing code -/

theorem put (hh : κ.Holds κ₁ (allDeclared code ++ names)) (hcode : κ₁.Ready env code) :
    Proceeds env κ₁ (emitAll code) fun κ₂ _ => κ.Holds κ₂ names :=
  fun hjumps _ => (Moves.put hh (hcode.canWrite hjumps)).weaken fun _ _ _ h => h.1

theorem putOne (hh : κ.Holds κ₁ (s.declared ++ names)) (hs : κ₁.Ready env [s]) :
    Proceeds env κ₁ (emit s) fun κ₂ _ => κ.Holds κ₂ names := by
  have hh : κ.Holds κ₁ (allDeclared [s] ++ names) := by simpa using hh
  exact put hh hs

/-! ### Blocks -/

abbrev InHand (env : Env) (κ κ' : Stage) (code : List Yul.Stmt) : Prop :=
  κ.Holds κ' (allDeclared code) ∧ κ'.Ready env code

theorem inScope (hm : Proceeds env (κ.within ([] :: κ.naming.scopes)) m fun κ' _ =>
    (κ.within ([] :: κ.naming.scopes)).Holds κ' []) :
    Proceeds env κ (Lowering.inScope m) fun κ' r => InHand env κ κ' r.1 := by
  intro hjumps hreturns
  have hinner := (hm hjumps hreturns).weaken (S := fun κ' _ => κ.Holds κ' [] ∧ True)
    fun _ _ _ h => ⟨⟨h.inHand, h.pending, h.inScope⟩, trivial⟩
  refine (Moves.inScope hinner).weaken ?_
  rintro κ' r - ⟨κ₁, -, hholds, -, -, hwrite, -⟩
  exact ⟨hholds, hwrite.ready⟩

theorem runAll (hparts : AllWrite env parts) :
    Proceeds env κ (Lowering.runAll parts) fun κ' _ => κ.Holds κ' [] := by
  induction parts generalizing κ with
  | nil => exact pure (Naming.Takes.refl κ.naming).toHolds
  | cons p parts ih =>
    obtain ⟨hp, hrest⟩ := forall_mem_cons.1 hparts
    refine after hp fun κ' _ hh => (ih hrest).weaken fun κ'' _ _ hh' => ?_
    exact hh.trans hh'

theorem blockOf (hparts : AllWrite env parts) :
    Proceeds env κ (Lowering.blockOf parts) (InHand env κ) :=
  (inScope (runAll hparts)).bind fun _ _ _ h => pure h

end Proceeds

/-! ## Variables -/

theorem freeName_eq_append (declared : List String) (base : String) :
    ∃ suffix, freeName declared base = base ++ suffix := by
  unfold freeName
  extract_lets numberedNames
  cases hfree : (base :: numberedNames).find? (!declared.contains ·) with
  | none => exact ⟨"", String.append_empty.symm⟩
  | some x =>
    rcases mem_cons.1 (mem_of_find?_eq_some hfree) with rfl | hx
    · exact ⟨"", String.append_empty.symm⟩
    · obtain ⟨i, -, rfl⟩ := mem_map.1 hx
      exact ⟨"_" ++ toString (i + 1), String.append_assoc⟩

theorem freeName_notMem (declared : List String) (base : String) :
    freeName declared base ∉ declared := by
  unfold freeName
  extract_lets numberedNames
  cases hfree : (base :: numberedNames).find? (!declared.contains ·) with
  | some x => simpa using find?_some hfree
  | none =>
    have hused : ∀ x ∈ numberedNames, x ∈ declared := fun x hx => by
      simpa using find?_eq_none.1 hfree x (mem_cons_of_mem _ hx)
    have hnodup : numberedNames.Nodup := by
      refine Nodup.map (fun i j hij => ?_) nodup_range
      exact Nat.succ.inj (toString_of_append_eq hij)
    have hlength := (hnodup.subperm hused).length_le
    simp only [numberedNames, length_map, length_range] at hlength
    omega

theorem isVariable_freeName (declared : List String) (name : String) :
    IsVariable (freeName declared ("var_" ++ name)) := by
  obtain ⟨suffix, hname⟩ := freeName_eq_append declared ("var_" ++ name)
  exact ⟨name ++ suffix, by rw [hname, String.append_assoc]⟩

theorem not_isTemp_freeName (declared : List String) (name : String) (n : Nat) :
    ¬ IsTemp n (freeName declared ("var_" ++ name)) :=
  (isVariable_freeName declared name).not_isTemp

theorem mem_scopeNames_bindVariable (h : x ∈ scopeNames (bindVariable name v scopes)) :
    x = v.irName ∨ x ∈ scopeNames scopes := by
  cases scopes with
  | nil => exact .inr h
  | cons scope outer => simpa [scopeNames, bindVariable] using h

/-- A variable is in scope from its declaration on, and not in its own initial value. -/
theorem Moves.declareWith (hv : Known env 1 κ v.expr) :
    Moves env κ (Lowering.declareWith name v) fun κ' _ => κ.Holds κ' [] := by
  rintro st a st' ⟨hst, hprogress⟩ hrun
  cases hrun
  set x := freeName st.declared ("var_" ++ name)
  set Γ := κ.naming
  set Γ' : Naming := { Γ.seeing [x] with
    declared := x :: st.declared, scopes := bindVariable name ⟨x, v.ty⟩ st.scopes }
  have hle : Γ ≤ Γ' := ⟨Nat.le_refl _, fun _ h => .inr h,
    fun y hy => mem_cons_of_mem _ (hst.declared ▸ hy), fun _ h => .inl h, rfl, rfl⟩
  have hmade : Γ.MadeBy Γ' x := .inr ⟨mem_cons_self, fun hx =>
    freeName_notMem _ _ (hst.declared.symm ▸ hx), isVariable_freeName _ _⟩
  have hformed : Γ'.strict → Γ'.WellFormed := by
    intro hs
    have hformed := hst.wellFormed hs
    have hfresh : ¬ Γ.Reserved x := by
      rintro (ht | hp)
      · exact not_isTemp_freeName _ _ _ ht
      · exact not_isTemp_freeName _ _ _ (hformed.guard x hp)
    refine ⟨?_, fun y hy => .inl (hformed.waiting y hy), hformed.guard, ?_, hformed.hand⟩
    · intro y hy
      rcases mem_scopeNames_bindVariable hy with rfl | hy
      · exact fun _ => ⟨.inr (mem_singleton.2 rfl), hfresh⟩
      · exact (hformed.scope y (hst.scopes ▸ hy)).mono hle y
    · rintro y (hy | hy)
      · exact hformed.made y hy
      · rw [mem_singleton.1 hy]
        exact not_isTemp_freeName _ _ _
  refine ⟨{ κ with naming := Γ', bindings := κ.bindings ++ [(x, v.expr)] },
    ⟨⟨hle, .refl, subset_append_left _ _, rfl⟩,
    ⟨⟨hformed, hst.counter, hst.pending, rfl, rfl⟩, hprogress⟩, [.letOne x v.expr], rfl,
    ⟨fun hs => ⟨hv.mentions.mono fun _ h => h hs, trivial⟩, .inr ?_, fun y hy => hy, [x],
      nodup_singleton x, ?_, .refl _⟩, ⟨hv.uses fun _ hu => ?_, trivial⟩, ?_⟩, .refl _,
    fun _ h => h, fun y hy => ?_⟩
  · exact ⟨⟨fun _ _ => trivial, hv.mentions.mono fun _ _ => trivial⟩, trivial⟩
  · exact forall_mem_singleton.2 hmade
  · exact ⟨hu.linked, hu.licensed.mono (subset_append_left _ _), hu.quiet⟩
  · simp
  · rcases mem_scopeNames_bindVariable hy with rfl | hy
    · exact .inr (isVariable_freeName _ _)
    · exact .inl (hst.scopes ▸ hy)

namespace Writes

variable {env : Env} {κ : Stage} {m : Lower Unit} {parts : List (Lower Unit)}
  {o : Operand}

theorem of_lowers (hm : ∀ {κ : Stage}, Lowers env κ m R) : Writes env m := fun _ =>
  (Proceeds.of_lowers hm).weaken fun _ _ _ h => h.1

theorem pure : Writes env (pure ()) :=
  of_lowers (R := Any) (Lowers.pure trivial)

theorem emit (hs : ∀ {κ : Stage}, κ.Ready env [s]) (hdeclared : s.declared = []) :
    Writes env (Lowering.emit s) := by
  intro κ
  refine Proceeds.putOne ?_ hs
  rw [hdeclared]
  exact (Naming.Takes.refl κ.naming).toHolds

theorem commented (hm : Writes env m) : Writes env (Lowering.commented text m) := by
  intro κ
  refine Proceeds.read_bind fun _ => ?_
  split
  · have hcomment : Writes env (Lowering.emit (.comment text)) :=
      emit (Stage.ready_bare trivial trivial) rfl
    refine Proceeds.after hcomment fun κ₁ _ hh => ?_
    exact (hm κ₁).weaken fun _ _ _ hh' => hh.trans hh'
  · exact hm κ

/-! ## Declarations -/

variable {init : Option Operand}

theorem initialValue (hinit : ∀ o ∈ init, o.Sound env) :
    Lowers env κ (Lowering.initialValue name ty init) (PlainValue env) := by
  unfold Lowering.initialValue
  split
  · exact (hinit _ rfl).valueAs
  · refine (hinit _ rfl).value.bind fun _ v _ hv => ?_
    split
    · exact Lowers.throw
    · exact Lowers.pure hv
  · exact Lowers.zeroValue.bind fun _ _ _ he => Lowers.pure he
  · exact Lowers.throw

theorem declareAll {pairs : List (String × Value)} (hvalues : ∀ p ∈ pairs, PlainValue env κ p.2) :
    Proceeds env κ (pairs.forM fun p =>
      if p.1 == "" || p.1 == "_" then Pure.pure () else Lowering.declareWith p.1 p.2)
      fun κ' _ => κ.Holds κ' [] := by
  induction pairs generalizing κ with
  | nil => exact Proceeds.pure (Naming.Takes.refl κ.naming).toHolds
  | cons p pairs ih =>
    obtain ⟨hp, hrest⟩ := forall_mem_cons.1 hvalues
    refine Proceeds.bind (R := fun κ' _ => κ.Holds κ' []) ?_ fun κ₁ _ h₁ hh => ?_
    · show Proceeds env κ
        (if p.1 == "" || p.1 == "_" then Pure.pure () else Lowering.declareWith p.1 p.2) _
      split
      · exact Proceeds.pure (Naming.Takes.refl κ.naming).toHolds
      · exact Proceeds.of_moves (Moves.declareWith hp.known)
    · exact (ih fun p hp => (hrest p hp).later h₁).weaken fun _ _ _ hh' => hh.trans hh'

theorem destructure {names : List String}
    (hinit : ∀ o ∈ init, o.Sound env) : Writes env (Lowering.destructure names init) := by
  intro κ
  unfold Lowering.destructure
  split
  · exact Proceeds.throw
  · refine (Proceeds.of_lowers (hinit _ rfl).values).bind fun κ₁ values _ ⟨hh, hvalues⟩ => ?_
    refine (Proceeds.of_lowers Lowers.attempt).bind fun κ₂ _ h₂ ⟨hh₂, _⟩ => ?_
    refine (declareAll fun p hp => ?_).weaken fun _ _ _ hh₃ => (hh.trans hh₂).trans hh₃
    exact (hvalues p.2 (of_mem_zip hp).2).later h₂

theorem varDecl (hinit : ∀ o ∈ init, o.Sound env) :
    Writes env (Lowering.varDecl names ty init) := by
  unfold Lowering.varDecl
  split
  · have hty : ∀ {κ : Stage}, Lowers env κ (ty.mapM resolve) Any := by
      intro κ
      cases ty with
      | none => exact Lowers.pure trivial
      | some text => exact Lowers.resolve.bind fun _ _ _ _ => Lowers.pure trivial
    intro κ
    refine (Proceeds.of_lowers hty).bind fun κ₁ ty _ ⟨hh₁, _⟩ => ?_
    refine (Proceeds.of_lowers (initialValue hinit)).bind fun κ₂ v _ ⟨hh₂, hv⟩ => ?_
    exact (Proceeds.of_moves (Moves.declareWith hv.known)).weaken fun _ _ _ hh₃ =>
      (hh₁.trans hh₂).trans hh₃
  · exact destructure hinit

/-! ## Branches and loops -/

theorem block (hparts : AllWrite env parts) :
    Writes env (Lowering.blockOf parts >>= fun code => Lowering.emit (.block code)) := by
  intro κ
  exact (Proceeds.blockOf hparts).bind fun κ₁ code _ ⟨hh, hcode⟩ =>
    Proceeds.putOne (by simpa [declared] using hh) hcode.block

theorem branch (ho : o.Sound env) (hthen : AllWrite env thenBranch)
    (helse : ∀ parts ∈ elseBranch, AllWrite env parts) :
    Writes env (Lowering.branch o thenBranch elseBranch) := by
  intro κ
  refine (Proceeds.of_lowers ho.value).bind fun κ₁ c _ ⟨hh₁, hc⟩ => ?_
  cases elseBranch with
  | none =>
    refine (Proceeds.blockOf hthen).bind fun κ₂ code h₂ ⟨hh₂, hcode⟩ => ?_
    exact Proceeds.putOne (hh₁.trans hh₂) (.ifThen (hc.later h₂).known hcode)
  | some elseBranch =>
    refine (Proceeds.of_moves Moves.conditionTemp).bind fun κ₂ chosen h₂ ht => ?_
    refine (Proceeds.of_moves (Lowers.declareOne ht (hc.later h₂).known)).bind
      fun κ₃ _ h₃ ⟨ht, hchosen, _⟩ => ?_
    have hh₃ := hh₁.trans ht.toHolds
    refine (Proceeds.blockOf hthen).bind fun κ₄ code h₄ ⟨hh₄, hcode⟩ => ?_
    have hchosen : Known env 1 κ₄ (ident chosen) := hchosen.later h₄
    refine (Proceeds.putOne (hh₃.trans hh₄) (.ifThen hchosen hcode)).bind fun κ₅ _ h₅ hh₅ => ?_
    refine (Proceeds.blockOf (helse _ rfl)).bind fun κ₆ code' h₆ ⟨hh₆, hcode'⟩ => ?_
    exact Proceeds.putOne (hh₅.trans hh₆)
      (.ifThen (Op.fits_isZero.2 (hchosen.later (h₅.trans h₆))) hcode')

theorem loopCondition (hcondition : ∀ o ∈ condition, o.Sound env) :
    Moves env κ (Lowering.loopCondition condition)
      fun κ' r => Proceeds.InHand env κ κ' r.2 ∧ Known env 1 κ' r.1 := by
  cases condition with
  | none => exact Moves.pure ⟨⟨(Naming.Takes.refl κ.naming).toHolds, .nil⟩, fits_num⟩
  | some condition =>
    refine (Lowers.collect Lowers.stays_plainValue (hcondition _ rfl).value).bind fun κ₁ r _ hr => ?_
    obtain ⟨prelude, c⟩ := r
    obtain ⟨ht, hprelude, hc⟩ := hr
    show Moves env κ₁ (if prelude.isEmpty then _ else _) _
    split
    · rename_i hempty
      obtain ⟨ht, hc⟩ := Lowers.of_empty hempty ht hc
      exact Moves.pure ⟨⟨ht.toHolds, .nil⟩, hc.known⟩
    · refine Moves.pure ⟨⟨?_, hprelude.ready.breakUnless hc.known⟩, fits_num⟩
      simpa [breakUnless, declared] using ht.toHolds

theorem whileLoop (ho : o.Sound env) (hbody : AllWrite env body) :
    Writes env (Lowering.whileLoop o body) := by
  intro κ
  have hcondition : ∀ o' ∈ some o, o'.Sound env := by
    rintro _ ⟨⟩
    exact ho
  refine (Proceeds.of_moves (loopCondition hcondition)).bind fun κ₁ r _ ⟨⟨hh₁, hhead⟩, hc⟩ => ?_
  refine (Proceeds.blockOf hbody).bind fun κ₂ code h₂ ⟨hh₂, hcode⟩ => ?_
  refine Proceeds.putOne ((hh₁.trans hh₂).perm ?_) ?_
  · simpa [declared] using perm_append_comm
  · exact .rounds (hc.later h₂) .nil ((hhead.later h₂).append (hcode.later Stage.extends_behind))

theorem doWhileLoop (ho : o.Sound env) (hbody : AllWrite env body) :
    Writes env (Lowering.doWhileLoop body o) := by
  intro κ
  refine (Proceeds.blockOf hbody).bind fun κ₁ code _ ⟨hh₁, hcode⟩ => ?_
  refine (Proceeds.of_moves (Lowers.collect Lowers.stays_plainValue ho.value)).bind
    fun κ₂ r h₂ ⟨ht, hprelude, hc⟩ => ?_
  refine Proceeds.putOne
    ((hh₁.trans ht.toHolds).perm ?_) (.rounds fits_num .nil ?_)
  · simpa [declared, breakUnless] using perm_append_comm
  · rw [append_assoc]
    exact (hcode.later h₂).append
      ((hprelude.ready.breakUnless hc.known).later Stage.extends_behind)

end Writes

/-- A piece of lowering takes no notice of the code that is there, and leaves it as it is. -/
def Framed {α : Type} (m : Lower α) : Prop :=
  ∀ env st a st', m env st = .ok (a, st') → st'.code = st.code ∧
    ∀ code, m env { st with code := code } = .ok (a, { st' with code := code })

namespace Framed

variable {α β : Type} {m : Lower α}

theorem pure : Framed (pure a : Lower α) := by
  intro env st a' st' hrun
  cases hrun
  exact ⟨rfl, fun _ => rfl⟩

theorem bind (hm : Framed m) (hf : ∀ a, Framed (f a)) : Framed (m >>= f) := by
  intro env st b st'' hrun
  obtain ⟨⟨a, st'⟩, hfirst, hrun⟩ := bind_eq_ok.1 hrun
  obtain ⟨hcode, hframe⟩ := hm env st a st' hfirst
  obtain ⟨hcode', hframe'⟩ := hf a env st' b st'' hrun
  exact ⟨hcode'.trans hcode, fun code => bind_eq_ok.2 ⟨_, hframe code, hframe' code⟩⟩

theorem collect : Framed (Lowering.collect m) := by
  intro env st r st' hrun
  obtain ⟨st₁, hinner, hcode, rfl⟩ := collect_eq_ok.1 hrun
  exact ⟨rfl, fun code => collect_eq_ok.2 ⟨st₁, hinner, hcode, rfl⟩⟩

theorem inScope : Framed (Lowering.inScope m) := by
  intro env st r st' hrun
  obtain ⟨st₁, hinner, hcode, rfl⟩ := inScope_eq_ok.1 hrun
  exact ⟨rfl, fun code => inScope_eq_ok.2 ⟨st₁, hinner, hcode, rfl⟩⟩

theorem loopCondition : Framed (Lowering.loopCondition condition) := by
  cases condition with
  | none => exact pure
  | some condition =>
    refine collect.bind fun r => ?_
    show Framed (if r.1.isEmpty then Pure.pure _ else Pure.pure _)
    split
    · exact pure
    · exact pure

theorem blockOf : Framed (Lowering.blockOf parts) :=
  inScope.bind fun _ => pure

/-- The state is the same whether code is written in front of a statement or becomes a part of it. -/
theorem inScope_collect (hm : Framed m) (build : List Yul.Stmt → α → Yul.Stmt)
    (hrun : Lowering.inScope (do
      let (code, ()) ← Lowering.collect init
      let a ← m
      emit (build code a)) env st = .ok (r, st')) :
    ∃ code a, r.1 = [build code a] ∧ Lowering.inScope (do
      init
      let a ← m
      emit (build [] a)) env st = .ok ((code ++ [build [] a], ()), st') := by
  obtain ⟨st₃, hinner, hr, rfl⟩ := inScope_eq_ok.1 hrun
  obtain ⟨⟨⟨code, _⟩, st₁'⟩, hcollect, hinner⟩ := bind_eq_ok.1 hinner
  obtain ⟨st₁, hinit, rfl, rfl⟩ := collect_eq_ok.1 hcollect
  obtain ⟨⟨a, st₂⟩, ha, hemit⟩ := bind_eq_ok.1 hinner
  obtain rfl : { st₂ with code := st₂.code ++ [build st₁.code a] } = st₃ :=
    congrArg Prod.snd (Except.ok.inj hemit)
  obtain ⟨hcode, hframe⟩ := hm env _ a st₂ ha
  refine ⟨st₁.code, a, ?_, inScope_eq_ok.2 ⟨{ st₂ with code := st₁.code ++ [build [] a] }, ?_, rfl, rfl⟩⟩
  · rw [hr, hcode]
    rfl
  · exact bind_eq_ok.2 ⟨((), st₁), hinit, bind_eq_ok.2 ⟨_, hframe st₁.code, rfl⟩⟩

end Framed

namespace Writes

variable {env : Env} {o : Operand}

/-- The parts of a loop but the initial one: its condition, what runs after a round, and a round. -/
def loopParts (condition update : Option Operand) (body : List (Lower Unit)) :
    Lower (Yul.Expr × List Yul.Stmt × List Yul.Stmt) := do
  let (c, head) ← Lowering.loopCondition condition
  let (post, ()) ← collect (match update with
    | some u => u.discard
    | none => Pure.pure ())
  let body ← Lowering.blockOf body
  return (c, post, head ++ body)

variable {condition update : Option Operand} {body : List (Lower Unit)}

theorem framed_loopParts : Framed (loopParts condition update body) :=
  Framed.loopCondition.bind fun _ => Framed.collect.bind fun _ => Framed.blockOf.bind fun _ =>
    Framed.pure

theorem forLoop_eq : Lowering.forLoop init condition update body = (do
      let (code, ()) ← inScope (do
        let (code, ()) ← collect init
        let p ← loopParts condition update body
        Lowering.emit (.loop code p.1 p.2.1 p.2.2))
      emitAll code) := by
  unfold Lowering.forLoop loopParts
  simp only [bind_assoc]
  rfl

theorem proceeds_loopParts (hcondition : ∀ o ∈ condition, o.Sound env)
    (hupdate : ∀ o ∈ update, o.Sound env) (hbody : AllWrite env body) :
    Proceeds env κ (loopParts condition update body) fun κ' p =>
      κ.Holds κ' (allDeclared p.2.1 ++ allDeclared p.2.2) ∧ Known env 1 κ' p.1 ∧
        κ'.Ready env p.2.1 ∧ κ'.Ready env p.2.2 := by
  refine (Proceeds.of_moves (loopCondition hcondition)).bind fun κ₁ r _ hr => ?_
  obtain ⟨⟨hh₁, hhead⟩, hc⟩ := hr
  refine (Proceeds.of_moves (Lowers.collect Lowers.stays_any ?_)).bind fun κ₂ q h₂ hq => ?_
  · cases update with
    | none => exact Lowers.pure trivial
    | some u => exact (hupdate u rfl).discard
  obtain ⟨ht, hpost, -⟩ := hq
  refine (Proceeds.blockOf hbody).bind fun κ₃ code h₃ hblock => ?_
  obtain ⟨hh₃, hcode⟩ := hblock
  refine Proceeds.pure ⟨?_, hc.later (h₂.trans h₃), hpost.ready.later h₃, ?_⟩
  · refine ((hh₁.trans ht.toHolds).trans hh₃).perm (perm_append_comm.trans (.of_eq ?_))
    simp
  · exact (hhead.later (h₂.trans h₃)).append (hcode.later Stage.extends_behind)

/-- The other parts of a loop are lowered as if the initial part had been written in front of it. -/
theorem forLoop (hinit : Writes env init) (hcondition : ∀ o ∈ condition, o.Sound env)
    (hupdate : ∀ o ∈ update, o.Sound env) (hbody : AllWrite env body) :
    Writes env (Lowering.forLoop init condition update body) := by
  intro κ
  have hflat : Proceeds env κ (inScope (do
      init
      let p ← loopParts condition update body
      Lowering.emit (.loop [] p.1 p.2.1 p.2.2))) fun κ' r => Proceeds.InHand env κ κ' r.1 := by
    refine Proceeds.inScope (Proceeds.after hinit fun κ₁ _ hh₁ => ?_)
    refine (proceeds_loopParts hcondition hupdate hbody).bind fun κ₂ p _ hp => ?_
    obtain ⟨hh₂, hc, hpost, hround⟩ := hp
    refine Proceeds.putOne ?_ (.rounds hc hpost hround)
    simpa [declared] using hh₁.trans hh₂
  rw [forLoop_eq]
  refine Proceeds.bind (R := fun κ' r => Proceeds.InHand env κ κ' r.1) ?_ fun κ₁ r _ hr => ?_
  · intro hjumps hreturns st r st' hst hrun
    obtain ⟨code, p, hr, hrun⟩ := framed_loopParts.inScope_collect
      (fun code p => .loop code p.1 p.2.1 p.2.2) hrun
    obtain ⟨κ', hstep, hholds, hready⟩ := hflat hjumps hreturns st _ st' hst hrun
    refine ⟨κ', hstep, ?_⟩
    show κ.Holds κ' (allDeclared r.1) ∧ κ'.Ready env r.1
    rw [hr, allDeclared_cons, declared_loop]
    exact ⟨by simpa using hholds, hready.loop⟩
  · exact Proceeds.put (by simpa using hr.1) hr.2

/-! ## Returns and failures -/

section

variable {κ : Stage}

theorem sound_operand : (operand e).Sound env :=
  sound_denoteWithin maxExpansions e

theorem allSound_operands {es : List Source.Expr} : AllSound env (es.map operand) :=
  forall_mem_map.2 fun _ _ => sound_operand

theorem sound_of_mem_map {e : Option Source.Expr} : ∀ o ∈ e.map operand, o.Sound env := by
  intro o ho
  obtain ⟨e, rfl, rfl⟩ := Option.map_eq_some_iff.1 ho
  exact sound_operand

variable {value : Source.Expr}

theorem returnedValues : Lowers env κ (Lowering.returnedValues types value) (PlainValues env) := by
  unfold Lowering.returnedValues
  split
  · exact (Lowers.orderedAs allSound_operands).weaken fun _ _ _ hvs => hvs.2
  · exact sound_operand.values

theorem assignAll {returns : List (String × Ty)} (hreturns : ∀ r ∈ returns, κ.Knows r.1)
    (hvalues : PlainValues env κ values) :
    Lowers env κ (emitAll ((returns.zip values).map fun p => .assignOne p.1.1 p.2.expr)) Any := by
  refine Lowers.emitAll (allFit_iff.2 fun s hs => ?_)
  obtain ⟨p, hp, rfl⟩ := mem_map.1 hs
  obtain ⟨hname, hvalue⟩ := of_mem_zip hp
  exact fits_assignOne.2 ⟨hreturns _ hname, (hvalues _ hvalue).known⟩

theorem setReturns : Writes env (Lowering.setReturns value) := by
  intro κ
  refine Proceeds.read_bind fun hreturns => ?_
  split
  · exact Proceeds.throw
  · rename_i name ty heq
    rw [heq] at hreturns
    have hset : Lowers env κ (do
        let v ← (operand value).valueAs ty
        Lowering.emit (.assignOne name v.expr)) Any := by
      refine sound_operand.valueAs.bind fun κ₁ v h₁ hv => Lowers.emit ?_
      have hname := (hreturns (name, ty) (mem_singleton.2 rfl)).later h₁
      exact fits_assignOne.2 ⟨hname, hv.known⟩
    exact (Proceeds.of_lowers hset).weaken fun _ _ _ h => h.1
  · have hset : Lowers env κ (do
        let values ← Lowering.returnedValues (env.returns.map (·.2)) value
        checkArity ("return of " ++ env.function) env.returns.length values.length
        emitAll ((env.returns.zip values).map fun p => .assignOne p.1.1 p.2.expr)) Any := by
      refine returnedValues.bind fun κ₁ values h₁ hvalues => ?_
      refine Lowers.attempt.bind fun κ₂ _ h₂ _ => ?_
      exact assignAll (fun r hr => (hreturns r hr).later (h₁.trans h₂))
        (Lowers.stays_plainValues _ _ _ h₂ hvalues)
    exact (Proceeds.of_lowers hset).weaken fun _ _ _ h => h.1

theorem returnStmt {value : Option Source.Expr} : Writes env (Lowering.returnStmt value) := by
  have hleave : Writes env (Lowering.emit .leave) :=
    emit (Stage.ready_bare trivial trivial) rfl
  cases value with
  | none => exact hleave
  | some value =>
    intro κ
    exact Proceeds.after setReturns fun κ₁ _ hh =>
      (hleave κ₁).weaken fun _ _ _ hh' => hh.trans hh'

theorem throwStmt : Writes env (Lowering.throwStmt error) := by
  unfold Lowering.throwStmt
  split
  · split
    · exact of_lowers (Lowers.revertFor allSound_operands)
    · exact of_lowers sound_operand.revert
  · exact of_lowers sound_operand.revert

end

/-! ## Guarded calls -/

section

variable {κ : Stage}

/-- The variables of a guard are temporaries made for it; they are reserved until the call. -/
theorem openGuard : Moves env κ Lowering.openGuard fun κ' r =>
    κ'.naming.inHand = κ.naming.inHand ∧ κ'.naming.scopes = κ.naming.scopes ∧
      κ'.naming.own r.1 ∧ κ'.naming.own r.2 := by
  rintro st r st' ⟨hst, hprogress⟩ hrun
  cases hrun
  rw [hst.counter]
  set Γ := κ.naming
  set success := "_" ++ toString (Γ.counter + 1)
  set result := "_" ++ toString (Γ.counter + 1 + 1)
  set Γ' : Naming := { Γ.seeing [success, result] with
    counter := Γ.counter + 1 + 1, pending := [success, result] }
  -- both are named by numbers above the old counter and not above the new one
  have hmade : ∀ x ∈ [success, result], MadeBetween Γ.counter (Γ.counter + 1 + 1) x := by
    intro x hx
    rcases mem_pair.1 hx with rfl | rfl
    · refine ⟨⟨_, Nat.lt_succ_self _, .inl rfl⟩, fun ht => ?_⟩
      exact not_isTemp_temp (Γ.counter + 1) (ht.mono (Nat.le_succ _))
    · exact ⟨⟨_, by omega, .inl rfl⟩, not_isTemp_temp (Γ.counter + 1 + 1)⟩
  have hne : success ≠ result := fun h => by
    have := toString_of_append_eq h
    omega
  have hle : Γ ≤ Γ' := ⟨Nat.le_add_right Γ.counter 2, fun x hx => .inl (hmade x hx).1,
    fun _ h => h, fun _ h => .inl h, rfl, rfl⟩
  have hformed : Γ'.strict → Γ'.WellFormed := by
    intro hs
    have hformed := hst.wellFormed hs
    refine ⟨fun x hx => (hformed.scope x hx).mono hle x, fun x hx => .inr hx,
      fun x hx => (hmade x hx).1.mono (Nat.zero_le _), ?_,
      fun x hx hr => hformed.hand x hx (hr.anti hle)⟩
    rintro x (hx | hx)
    · exact fun ht => hformed.made x hx (ht.mono (Nat.le_add_right Γ.counter 2))
    · exact (hmade x hx).2
  set code : List Yul.Stmt := [.letOne success (num 0), .letOne result (num emptyMemory)] with hcode
  refine ⟨{ κ with naming := Γ', bindings := κ.bindings ++ allBindings code }, ⟨⟨hle, .refl,
    subset_append_left _ _, rfl⟩, ⟨⟨hformed, rfl, rfl, hst.declared, hst.scopes⟩, hprogress⟩, code,
    by simp [hcode], ⟨fun _ => ⟨trivial, trivial, trivial⟩, .inr ?_, fun x hx => hx, [success, result],
      by simpa using hne, fun x hx => .inl (hmade x hx), .refl _⟩, by simp [hcode], rfl⟩, rfl, rfl,
    .inr (by simp), .inr (by simp)⟩
  exact ⟨⟨fun _ _ => trivial, trivial⟩, ⟨fun _ _ => trivial, trivial⟩, trivial⟩

theorem closeGuard : Moves env κ
    (modifyGet fun st => (st.guard, { st with guard := none }) : Lower (Option Guard)) fun κ' _ =>
      κ.Takes κ' [] ∧ κ'.naming.pending = [] ∧ ∀ x, κ.naming.own x → κ'.Knows x := by
  intro st guard st' hst hrun
  cases hrun
  exact Moves.unguarded env hst rfl

theorem runGuarded (hparts : AllWrite env parts) :
    Proceeds env κ (Lowering.runGuarded parts)
      fun κ' rest => κ.Holds κ' [] ∧ AllWrite env rest := by
  induction parts generalizing κ with
  | nil => exact Proceeds.pure ⟨(Naming.Takes.refl κ.naming).toHolds, forall_mem_nil _⟩
  | cons part rest ih =>
    obtain ⟨hpart, hrest⟩ := forall_mem_cons.1 hparts
    refine Proceeds.after hpart fun κ₁ _ hh₁ => Proceeds.get_bind fun st => ?_
    split
    · exact Proceeds.pure ⟨hh₁, hrest⟩
    · exact (ih hrest).weaken fun _ _ _ ⟨hh₂, hrest⟩ => ⟨hh₁.trans hh₂, hrest⟩

theorem handle {handler : List (Lower Unit)} {binding : Option String} {result : String}
    (hresult : κ.Knows result) (hhandler : AllWrite env handler) :
    Proceeds env κ (Lowering.blockOf ((match binding with
      | some name => Lowering.declareWith name ⟨ident result, .bytes⟩
      | none => Pure.pure ()) :: handler)) (Proceeds.InHand env κ) := by
  set κ₀ := κ.within ([] :: κ.naming.scopes)
  refine Proceeds.bind (Proceeds.inScope (Proceeds.bind (R := fun κ' _ => κ₀.Holds κ' []) ?_ ?_))
    fun _ _ _ h => Proceeds.pure h
  · cases binding with
    | none => exact Proceeds.pure (Naming.Takes.refl κ₀.naming).toHolds
    | some name => exact Proceeds.of_moves (Moves.declareWith (fits_ident.2 hresult))
  · intro κ₁ _ _ hh₁
    exact (Proceeds.runAll hhandler).weaken fun _ _ _ hh₂ => hh₁.trans hh₂

theorem tryStmt {body handler : List (Lower Unit)} {binding : Option String}
    (hbody : AllWrite env body) (hhandler : AllWrite env handler) :
    Writes env (Lowering.tryStmt body binding handler) := by
  intro κ
  refine Proceeds.read_bind fun _ => Proceeds.get_bind fun st => Proceeds.throwIf ?_
  refine (Proceeds.of_moves openGuard).bind fun κ₁ names _ hnames => ?_
  obtain ⟨success, result⟩ := names
  obtain ⟨hhand₁, hscopes₁, hsuccess, hresult⟩ := hnames
  refine (runGuarded hbody).bind fun κ₂ rest h₂ ⟨hh₂, hrest⟩ => ?_
  refine (Proceeds.of_moves closeGuard).bind fun κ₃ guard h₃ ⟨ht₃, hpending, hknown⟩ => ?_
  have hh₃ : κ.Holds κ₃ [] := by
    have hh := hh₂.trans ht₃.toHolds
    exact ⟨hhand₁ ▸ hh.inHand, by simp [hpending], hscopes₁ ▸ hh.inScope⟩
  have hsuccess : Known env 1 κ₃ (ident success) := hknown success (h₂.naming.own _ hsuccess)
  have hresult := hknown result (h₂.naming.own _ hresult)
  refine Proceeds.throwIf ?_
  refine (Proceeds.blockOf hrest).bind fun κ₄ onSuccess h₄ ⟨hh₄, hcode⟩ => ?_
  -- the handler comes behind the rest of the body, if there is one
  have hhandle : ∀ κ₅, κ₃.Extends env.catalog κ₅ → κ.Holds κ₅ [] → Proceeds env κ₅ (do
      let code ← Lowering.blockOf ((match binding with
        | some name => Lowering.declareWith name ⟨ident result, .bytes⟩
        | none => Pure.pure ()) :: handler)
      Lowering.emit (.ifThen (Op.isZero (ident success)) code)) fun κ' _ => κ.Holds κ' [] := by
    intro κ₅ h₅ hh₅
    refine (handle (hresult.later h₅) hhandler).bind fun κ₆ code h₆ ⟨hh₆, hcode⟩ => ?_
    exact Proceeds.putOne (hh₅.trans hh₆)
      (.ifThen (Op.fits_isZero.2 (hsuccess.later (h₅.trans h₆))) hcode)
  refine Proceeds.before (fun _ => ?_) fun hempty => ?_
  · refine (Proceeds.putOne (hh₃.trans hh₄)
      (.ifThen (hsuccess.later h₄) hcode)).bind fun κ₅ _ h₅ hh₅ => ?_
    exact hhandle κ₅ (h₄.trans h₅) hh₅
  · obtain rfl : onSuccess = [] := by simpa using hempty
    exact hhandle κ₄ h₄ (hh₃.trans hh₄)

end

end Writes

/-! ## All statements -/

section

variable {env : Env}

mutual

/-- What a statement writes reads and assigns names where they are seen, declares names that are new,
calls what there is, and touches what may be touched. -/
theorem writes_lowerStmt : ∀ s, Writes env (lowerStmt s)
  | .varDecl names ty init => by
    rw [lowerStmt]
    exact .commented (.varDecl Writes.sound_of_mem_map)
  | .expr e => by
    rw [lowerStmt]
    exact .of_lowers Writes.sound_operand.discard
  | .ifElse condition thenBranch elseBranch => by
    rw [lowerStmt]
    exact .commented (.branch Writes.sound_operand (writes_lowerAll thenBranch)
      (writes_lowerAllOption elseBranch))
  | .whileLoop condition body => by
    rw [lowerStmt]
    exact .commented (.whileLoop Writes.sound_operand (writes_lowerAll body))
  | .doWhile body condition => by
    rw [lowerStmt]
    exact .commented (.doWhileLoop Writes.sound_operand (writes_lowerAll body))
  | .forLoop init condition update body => by
    rw [lowerStmt]
    exact .commented (.forLoop (writes_lowerOption init) Writes.sound_of_mem_map
      Writes.sound_of_mem_map (writes_lowerAll body))
  | .breakLoop => by
    rw [lowerStmt]
    exact .emit (Stage.ready_bare trivial trivial) rfl
  | .continueLoop => by
    rw [lowerStmt]
    exact .emit (Stage.ready_bare trivial trivial) rfl
  | .ret value => by
    rw [lowerStmt]
    exact .commented .returnStmt
  | .block body | .unchecked body => by
    rw [lowerStmt]
    exact .block (writes_lowerAll body)
  | .emit event args => by
    rw [lowerStmt]
    exact .commented (.of_lowers (Lowers.emitEvent Writes.allSound_operands))
  | .throw error => by
    rw [lowerStmt]
    exact .commented .throwStmt
  | .tryCatch body binding handler => by
    rw [lowerStmt]
    exact .commented (.tryStmt (writes_lowerAll body) (writes_lowerAll handler))

theorem writes_lowerAll : ∀ body, AllWrite env (lowerAll body)
  | [] => by
    rw [lowerAll]
    exact forall_mem_nil _
  | s :: rest => by
    rw [lowerAll]
    exact forall_mem_cons.2 ⟨writes_lowerStmt s, writes_lowerAll rest⟩

theorem writes_lowerAllOption :
    ∀ body, ∀ parts ∈ lowerAllOption body, AllWrite env parts
  | none => by
    rw [lowerAllOption]
    rintro _ ⟨⟩
  | some body => by
    rw [lowerAllOption]
    rintro _ ⟨⟩
    exact writes_lowerAll body

theorem writes_lowerOption : ∀ s, Writes env (lowerOption s)
  | none => by
    rw [lowerOption]
    exact .pure
  | some s => by
    rw [lowerOption]
    exact writes_lowerStmt s

end

end

end ContractYul.Lowering
