import ContractYul.Proofs.Lowering.Naming
import ContractYul.Proofs.Yul.Evaluation

/-!
# Captures

Values that are calls are bound to fresh temporaries before other code runs. `Captures` says what is
written for a list of values; the code changes no names but new temporaries, and each value then
stands for the word that it had before.

Main statement: `Captures.exec`.
-/

open List

namespace ContractYul.Lowering

open Yul Machine Outcome

def tempName (n : Nat) : String :=
  "_" ++ toString n

theorem madeBetween_temp (h : n + 1 ≤ k) : MadeBetween n k (tempName (n + 1)) :=
  ⟨⟨n + 1, Nat.lt_succ_self n, .inl rfl⟩, fun ht => not_isTemp_temp (n + 1) (ht.mono h)⟩

inductive Captures : Nat → List Value → List Yul.Stmt → List Value → Nat → Prop
  | nil {n : Nat} : Captures n [] [] [] n
  | keep {n k : Nat} {v : Value} {vs vs' : List Value} {code : List Yul.Stmt}
      (hv : v.expr.isCall = false) (hrest : Captures n vs code vs' k) :
      Captures n (v :: vs) code (v :: vs') k
  | bind {n k : Nat} {v : Value} {vs vs' : List Value} {code : List Yul.Stmt}
      (hv : v.expr.isCall) (hrest : Captures (n + 1) vs code vs' k) :
      Captures n (v :: vs) (.letOne (tempName (n + 1)) v.expr :: code)
        (⟨ident (tempName (n + 1)), v.ty⟩ :: vs') k

theorem captureFresh_run (v : Value) (env : Env) (st : State) :
    captureFresh v env st = .ok (⟨ident (tempName (st.counter + 1)), v.ty⟩,
      { st with
        counter := st.counter + 1
        code := st.code ++ [.letOne (tempName (st.counter + 1)) v.expr] }) :=
  rfl

theorem captures_captureCalls (h : captureCalls vs env st = .ok (vs', st')) :
    ∃ code, Captures st.counter vs code vs' st'.counter ∧
      st' = { st with counter := st'.counter, code := st.code ++ code } := by
  induction vs generalizing st vs' with
  | nil =>
    obtain ⟨rfl, rfl⟩ : [] = vs' ∧ st = st' := pair_inj h
    exact ⟨[], .nil, by simp⟩
  | cons v vs ih =>
    unfold captureCalls at h
    rw [mapM_cons] at h
    obtain ⟨⟨v₁, st₁⟩, hv, h⟩ := bind_eq_ok.1 h
    obtain ⟨⟨vs₁, st₂⟩, hvs, h⟩ := bind_eq_ok.1 h
    obtain ⟨rfl, rfl⟩ : v₁ :: vs₁ = vs' ∧ st₂ = st' := pair_inj h
    obtain ⟨code, hcode, hst⟩ := ih hvs
    unfold capture at hv
    split at hv
    · rename_i hcall
      rw [captureFresh_run] at hv
      cases hv
      refine ⟨_, .bind hcall hcode, ?_⟩
      rw [hst]
      simp
    · rename_i hcall
      obtain ⟨rfl, rfl⟩ : v = v₁ ∧ st = st₁ := pair_inj hv
      exact ⟨code, .keep (by simpa using hcall) hcode, hst⟩

namespace Captures

theorem le (h : Captures n vs code vs' k) : n ≤ k := by
  induction h with
  | nil => exact Nat.le_refl _
  | keep _ _ ih => exact ih
  | bind _ _ ih => omega

theorem length_eq (h : Captures n vs code vs' k) : vs'.length = vs.length := by
  induction h with
  | nil => rfl
  | keep _ _ ih => simp [ih]
  | bind _ _ ih => simp [ih]

theorem kept (h : Captures n vs code vs' k) :
    Forall₂ (fun v v' => (v.expr.isCall = false → v' = v) ∧ v'.expr.isCall = false) vs vs' := by
  induction h with
  | nil => exact .nil
  | keep hv _ ih => exact .cons ⟨fun _ => rfl, hv⟩ ih
  | bind hv _ ih => exact .cons ⟨fun hfalse => by simp [hv] at hfalse, rfl⟩ ih

theorem notCall (h : Captures n vs code vs' k) : ∀ v ∈ vs', v.expr.isCall = false := by
  induction h with
  | nil => simp
  | keep hv _ ih => exact forall_mem_cons.2 ⟨hv, ih⟩
  | bind _ _ ih => exact forall_mem_cons.2 ⟨rfl, ih⟩

theorem plain (h : Captures n vs code vs' k) (hnew : ∀ x, MadeBetween n k x → P x)
    (hvs : ∀ v ∈ vs, v.expr.Plain P) : ∀ v ∈ vs', v.expr.Plain P := by
  induction h with
  | nil => exact hvs
  | keep hv _ ih =>
    obtain ⟨hfirst, hvs⟩ := forall_mem_cons.1 hvs
    exact forall_mem_cons.2 ⟨hfirst, ih hnew hvs⟩
  | @bind n k _ _ _ _ _ hrest ih =>
    have htemp : MadeBetween n k (tempName (n + 1)) := madeBetween_temp hrest.le
    refine forall_mem_cons.2 ⟨hnew _ htemp, ih ?_ (forall_mem_cons.1 hvs).2⟩
    exact fun x hx => hnew x (hx.earlier (Nat.le_succ n))

/-- The code of captures changes new temporaries only, and what a value had before it has after.
Values are compared with those in `σ₀`, where the first of the captures began. -/
theorem exec {m : Machine} (hm : m.Quiet) (h : Captures n vs code vs' k) (σ₀ : Config)
    (hvs : ∀ v ∈ vs, v.expr.Plain fun x => ¬ IsTemp n x)
    (hcalls : ∀ v ∈ vs, v.expr.isCall → ∃ w, m.Yields σ₀ v.expr w)
    (hsame : ∀ v ∈ vs, ∀ w, m.Yields σ₀ v.expr w → m.Yields σ v.expr w) :
    ∃ σ', m.execAll code σ = .ok (.next, σ') ∧ σ'.Agree (fun x => ¬ MadeBetween n k x) σ ∧
      Forall₂ (fun v v' => (v.expr.isCall = false → v' = v) ∧
        ∀ w, m.Yields σ₀ v.expr w → m.Yields σ' v'.expr w) vs vs' := by
  induction h generalizing σ with
  | nil => exact ⟨σ, rfl, .refl σ, .nil⟩
  | @keep n k v _ _ _ hv hrest ih =>
    obtain ⟨hfirst, hvs⟩ := forall_mem_cons.1 hvs
    obtain ⟨hsameFirst, hsame⟩ := forall_mem_cons.1 hsame
    obtain ⟨σ', hrun, hagree, hyields⟩ := ih hvs (forall_mem_cons.1 hcalls).2 hsame
    refine ⟨σ', hrun, hagree, .cons ⟨fun _ => rfl, fun w hw => ?_⟩ hyields⟩
    have hplain := hfirst.mono fun x hx (hmade : MadeBetween n k x) => hx hmade.1
    exact yields_of_agree hm hplain hagree (hsameFirst w hw)
  | @bind n k v vs _ code hv hrest ih =>
    obtain ⟨hfirst, hvs⟩ := forall_mem_cons.1 hvs
    obtain ⟨hsameFirst, hsame⟩ := forall_mem_cons.1 hsame
    obtain ⟨hcall, hcalls⟩ := forall_mem_cons.1 hcalls
    obtain ⟨w, hw⟩ := hcall hv
    -- the temporary is set first; the other values do not mention it
    have hnew : MadeBetween n (n + 1) (tempName (n + 1)) := madeBetween_temp (Nat.le_refl _)
    have hstart : (σ.set (tempName (n + 1)) w).Agree (fun x => ¬ MadeBetween n (n + 1) x) σ :=
      Config.agree_set (fun h => h hnew) w
    obtain ⟨σ', hrun, hagree, hyields⟩ := ih
      (fun u hu => (hvs u hu).mono fun x hx ht => hx (ht.mono (Nat.le_succ n))) hcalls
      (fun u hu y hy => yields_of_agree hm
        ((hvs u hu).mono fun x hx (hmade : MadeBetween n (n + 1) x) => hx hmade.1) hstart
        (hsame u hu y hy))
    refine ⟨σ', ?_, ?_, .cons ⟨fun hfalse => by simp [hv] at hfalse, fun y hy => ?_⟩ hyields⟩
    · rw [Machine.execAll, andThen, exec_letOne (hsameFirst w hw)]
      exact hrun
    · refine (hagree.mono fun x hx hmade => ?_).trans (hstart.mono fun x hx hmade => ?_)
      · exact hx (hmade.earlier (Nat.le_succ n))
      · exact hx (hmade.later hrest.le)
    · obtain rfl : w = y := by
        unfold Machine.Yields at hw hy
        simpa [hw] using hy
      have hkept : ¬ MadeBetween (n + 1) k (tempName (n + 1)) := fun hmade =>
        not_isTemp_temp (n + 1) hmade.1
      refine yields_of_agree hm (fits_ident.2 hkept) hagree (yields_ident.2 ?_)
      simp [Config.set]

end Captures

/-- A function of a class without members. -/
def bareEnv (name : String) : Env where
  catalog := {}
  lineage := ⟨[], { name }⟩
  layout := ⟨[]⟩
  options := {}
  className := name
  function := "f"
  mode := .runtime
  owner := .contract

end ContractYul.Lowering
