import ContractYul.Proofs.Tracing.ReadOnly

/-!
# Transient fields

What code does to fields that last for one transaction only. A word of such a field is read by `tload`
and written by `tstore`. Copies of all that lies in such a field, `push` and `pop` are refused. Two
reads remain that go to the storage that lasts: `length` of an array or a byte string, and the check
of an index against that length.

* `KeepsApart`: what code does to storage is done to fields, and of a transient field nothing is
  changed in the storage that lasts, and only lengths are read there.
* `Written.keepsApart`: it holds of functions, getters and initial values.
* `refuses_transientReference`: what would copy or clear a transient reference is refused.
-/

namespace ContractYul.Lowering

open Yul Outcome

section

variable {field : String} {place : Place} {i : Invocation}

def Place.LiesIn (transient : Bool) (place : Place) : Prop :=
  ∃ slot offset size ty, place = .storage slot offset size ty transient

theorem Located.liesIn (h : Located context mode owner K write field path place) :
    ∃ s, context.layout.get? field = some s ∧ Covers s path place ∧ place.LiesIn s.transient := by
  obtain ⟨-, s, hs, hcovers⟩ := h.exists_field
  refine ⟨s, hs, hcovers, ?_⟩
  clear hcovers
  induction h with
  | field _ h _ =>
    obtain rfl := Option.some.inj (hs.symm.trans h)
    exact ⟨_, _, _, _, rfl⟩
  | member _ _ _ ih | mapping _ _ ih | element _ _ _ ih | position _ _ _ _ ih | computed _ _ _ ih
  | pushed _ _ _ ih =>
    obtain ⟨_, _, _, _, hplace⟩ := ih hs
    obtain ⟨-, -, -, -, htransient⟩ := Place.storage.inj hplace
    rw [← htransient]
    exact ⟨_, _, _, _, rfl⟩

/-- A read of the length of what lies at a place, as code asks for it or for the check of an index. -/
def ReadsLength (place : Place) (i : Invocation) : Prop :=
  ∃ slot offset size ty transient, place = .storage slot offset size ty transient ∧
    ty.isValue = false ∧
    (i = ⟨loadName false, [slot]⟩ ∨ ∃ rest, i = ⟨FixedRoutine.storageArrayIndex.name, slot :: rest⟩)

theorem Touches.transient (h : Touches write place i) (hplace : place.LiesIn true) :
    i.name = wordName write true ∨ write = false ∧ ReadsLength place i := by
  obtain ⟨_, _, _, _, rfl⟩ := hplace
  cases h with
  | load | store => exact .inl rfl
  | length hty => exact .inr ⟨rfl, _, _, _, _, _, rfl, hty, .inl rfl⟩
  | index hty => exact .inr ⟨rfl, _, _, _, _, _, rfl, hty, .inr ⟨_, rfl⟩⟩

/-- A value is read and changed by the instructions for its storage. -/
theorem Touches.value {transient : Bool} (h : Touches write place i) (hplace : place.LiesIn transient)
    (hty : place.ty.isValue = true) : i.name = wordName write transient := by
  obtain ⟨_, _, _, _, rfl⟩ := hplace
  cases h with
  | load | store => rfl
  | length hty' | index hty' | routine _ hty' | data hty' =>
    exact absurd (hty.symm.trans hty') (by decide)

end

/-- What code does to storage is done to located places. A transient field is changed by `tstore`
only, and it is read by `tload` but for its lengths. A value has no length. -/
def KeepsApart (context : Context) (mode : Mode) (owner : Owner) (code : List Yul.Stmt) : Prop :=
  ∀ i ∈ Stmt.allInvocations code, ∀ write, UsesStorage write i.name →
    ∃ field s path place, context.layout.get? field = some s ∧
      Located context mode owner (Stmt.allBindings code) write field path place ∧
      Touches write place i ∧
      (s.transient = true → i.name = wordName write true ∨ write = false ∧ ReadsLength place i) ∧
      (s.ty.isValue = true → i.name = wordName write s.transient)

theorem Lowered.keepsApart (h : Lowered env within p st) :
    KeepsApart env.toContext env.mode env.owner st.code := by
  intro i hi write huse
  obtain ⟨field, path, place, hplace, htouches⟩ := h.licensed i hi write huse
  obtain ⟨s, hs, hcovers, hlies⟩ := hplace.liesIn
  refine ⟨field, s, path, place, hs, hplace, htouches,
    fun htransient => htouches.transient (htransient ▸ hlies),
    fun hty => ?_⟩
  rcases hcovers with ⟨-, hplace⟩ | ⟨-, hno⟩
  · exact htouches.value hlies (hplace ▸ hty)
  · exact absurd (hty.symm.trans hno) (by decide)

/-! ## Code of a contract -/

/-- Code that is written for a contract: the body of a function or of a getter, or the code that sets
initial values. -/
inductive Written (context : Context) : Mode → Owner → List Yul.Stmt → Prop
  | function {className function : String} {mode : Mode} {owner : Owner}
    {params : List Source.Param} {returns : List String} {body : List Source.Stmt}
    {p p' : Progress} {f : Yul.Function}
    (h : functionOf className function mode owner params returns body context p = .ok (f, p')) :
    Written context mode owner f.body
  | getter {c : Source.ClassDecl} {field : Source.FieldDecl} {p p' : Progress} {f : Yul.Function}
    (h : getter c field context p = .ok (f, p')) : Written context .runtime .contract f.body
  | initializers {region : String} {p p' : Progress} {code : List Yul.Stmt}
    (h : initializers region context p = .ok (code, p')) :
    Written context .initializer .contract code

variable {context : Context} {mode : Mode} {owner : Owner} {code : List Yul.Stmt}

theorem Written.keepsApart (h : Written context mode owner code) :
    KeepsApart context mode owner code := by
  cases h with
  | function h =>
    obtain ⟨⟨r, p₁⟩, hrun, h⟩ := bind_eq_ok.1 h
    cases h
    obtain ⟨st, hlower, hcode, -⟩ := inFunction_eq_ok hrun
    exact hcode ▸ (lowered_signatureAndBody hlower).1.keepsApart
  | getter h =>
    obtain ⟨⟨ty, p₁⟩, hty, h⟩ := bind_eq_ok.1 h
    obtain ⟨⟨r, p₂⟩, hrun, h⟩ := bind_eq_ok.1 h
    cases h
    obtain ⟨st, hlower, hcode, -⟩ := inFunction_eq_ok hrun
    exact hcode ▸ (lowered_getterValue hlower).1.keepsApart
  | initializers h =>
    obtain ⟨⟨r, p₁⟩, hrun, h⟩ := bind_eq_ok.1 h
    cases h
    obtain ⟨st, hlower, hcode, -⟩ := inFunction_eq_ok hrun
    exact hcode ▸ (Moves.lowered (Lowers.initializeFields fun _ => trivial) hlower).keepsApart

/-! ## Refused uses -/

/-- What lies in a transient place as a whole is neither copied nor cleared, and it does not grow. -/
theorem refuses_transientReference (hty : ty.isValue = false) (env : Env) (slot : Yul.Expr)
    (offset size : Nat) : let place := Place.storage slot offset size ty true
    let error := CompileError.unsupported (.transientReference ty)
    Refuses env error (load place) ∧ (∀ v, Refuses env error (store place v)) ∧
      Refuses env error (clear place) ∧
      growableArray place = .error (.unknownMember "push/pop" (.value ty)) := by
  refine ⟨fun st => ?_, fun v st => ?_, fun st => ?_, ?_⟩
  · simp only [load, hty]
    rfl
  · simp only [store, hty]
    rfl
  · simp only [clear, Place.ty, hty]
    rfl
  · unfold growableArray
    split
    · rename_i h
      cases (Place.storage.inj h).2.2.2.2
    · rfl

/-- Of a transient field code changes nothing in the storage that lasts, and there it reads lengths
only. What would copy, clear or grow a transient reference is refused in every state. A routine uses
storage only when it counts as one that does, and the check of an index only loads a word. -/
theorem transient_lengths_alone_misread (h : Written context mode owner code) :
    KeepsApart context mode owner code ∧
      (∀ (ty : Ty), ty.isValue = false → ∀ (env : Env) (slot : Yul.Expr) (offset size : Nat),
        let place := Place.storage slot offset size ty true
        let error := CompileError.unsupported (.transientReference ty)
        Refuses env error (load place) ∧ (∀ v, Refuses env error (store place v)) ∧
          Refuses env error (clear place) ∧
          growableArray place = .error (.unknownMember "push/pop" (.value ty))) ∧
      (∀ (target : Target) (r : Routine) (f : Yul.Function), r.definition? target = some f →
        ∀ i ∈ Stmt.allInvocations f.body, ∀ write, UsesStorage write i.name →
          (∃ write, UsesStorage write r.name) ∧
            (r = .fixed .storageArrayIndex → i.name = loadName false)) := by
  refine ⟨h.keepsApart, fun ty hty env slot offset size =>
    refuses_transientReference hty env slot offset size, ?_⟩
  intro target r f hf i hi write huse
  refine ⟨?_, ?_⟩
  · cases hr : r.changesStorage? with
    | none => exact absurd huse (Routine.not_usesStorage_of_definition hf hr hi)
    | some write => exact ⟨write, usesStorage_name.2 hr⟩
  · rintro rfl
    obtain rfl := Option.some.inj hf
    exact Routine.name_of_storageArrayIndex hi huse

/-- Code that asks how many marks there are. -/
def countBody : List Source.Stmt :=
  [.ret (some (.member (.member .this "marks") "length"))]

/-- A ledger with marks that last for one transaction, and a method that counts them. -/
def ledger : Source.File where
  path := "ledger"
  classes := [{ name := "Ledger"
                fields := [{ name := "marks", ty := "u256[]", storage := .transient }]
                methods := [{ name := "count", returns := ["u256"], body := some countBody }] }]

def counted : Outcome (Context × Yul.Function) := do
  let context ← Compilation.contextOf {} ledger [] "Ledger"
  let (f, _) ← functionOf "Ledger" "fun_count" .runtime .contract [] ["u256"] countBody context {}
  return (context, f)

def transientSlot? (context : Context) (field : String) : Option (Bool × Nat) :=
  (context.layout.get? field).map fun s => (s.transient, s.slot)

def callsOf (f : Yul.Function) : List (String × List (Option Nat)) :=
  (Stmt.allInvocations f.body).map fun i => (i.name, i.args.map Expr.literalValue?)

theorem exists_counted : ∃ context f, counted = .ok (context, f) ∧
    transientSlot? context "marks" = some (true, 0) ∧ callsOf f = [("sload", [some 0])] := by
  obtain ⟨⟨context, f⟩, hcounted, hfacts⟩ := exists_of_map_toOption
    (show counted.toOption.map (fun q => (transientSlot? q.1 "marks", callsOf q.2)) =
      some (some (true, 0), [("sload", [some 0])]) by decide +kernel)
  exact ⟨context, f, hcounted, Prod.mk.inj hfacts⟩

theorem transient_lengths_alone_misread_ledger : ∃ context f, counted = .ok (context, f) ∧
    KeepsApart context .runtime .contract f.body := by
  obtain ⟨context, f, hcounted, -⟩ := exists_counted
  obtain ⟨_, -, hlowered⟩ := bind_eq_ok.1 hcounted
  obtain ⟨⟨f, p⟩, hf, hpair⟩ := bind_eq_ok.1 hlowered
  obtain ⟨rfl, rfl⟩ := pair_inj hpair
  exact ⟨_, f, hcounted, (transient_lengths_alone_misread (.function hf)).1⟩

/-- The length of a transient array is loaded from the storage that lasts. -/
theorem transient_length_loaded_by_sload : ∃ context f, counted = .ok (context, f) ∧
    transientSlot? context "marks" = some (true, 0) ∧ ("sload", [some 0]) ∈ callsOf f := by
  obtain ⟨context, f, hcounted, hslot, hcalls⟩ := exists_counted
  exact ⟨context, f, hcounted, hslot, hcalls ▸ List.mem_singleton_self _⟩

end ContractYul.Lowering
