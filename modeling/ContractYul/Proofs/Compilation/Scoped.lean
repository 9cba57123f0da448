import ContractYul.Proofs.Compilation.Closed
import ContractYul.Proofs.Dispatch.Scoped

/-!
# Scopes in compiled code

The deployed part of a compiled class reads and assigns variables where they are seen. No function
declares a name twice, and neither does the entry code.

The part is made of entry code, of functions that are lowered from declarations of the source, and of
routines, each of which is scoped on its own.
-/

namespace ContractYul

open Source (ClassDecl MethodDecl)
open Yul (Stmt)

theorem Yul.Stmt.WellScoped.append_definitions {fs : List Yul.Function}
    (hcode : Stmt.WellScoped code) (hfs : ∀ f ∈ fs, f.Scoped) :
    Stmt.WellScoped (code ++ fs.map Yul.Function.toStmt) := by
  refine ⟨Stmt.allScoped_append.2 ⟨hcode.1, Stmt.allScoped_of_forall fun s hs => ?_⟩, ?_⟩
  · obtain ⟨f, hf, rfl⟩ := List.mem_map.1 hs
    exact hfs f hf
  · have hnone : Stmt.allDeclared (fs.map Yul.Function.toStmt) = [] := by
      rw [Stmt.allDeclared_map]
      exact List.flatMap_eq_nil_iff.2 fun _ _ => rfl
    rw [Stmt.allDeclared_append, hnone, List.append_nil]
    exact hcode.2

namespace Compilation

open Lowering

variable {context : Lowering.Context}

namespace Assembly.Valid

variable {a : Assembly}

theorem orderly_lowered (h : a.Valid context) :
    ∀ f ∈ a.exposed.definitions ++ a.served, Orderly f := by
  refine List.forall_mem_append.2 ⟨h.exposed.definitions.orderly, fun f hf => ?_⟩
  obtain ⟨r, -, hserves⟩ := exists_of_forall₂ h.served.flip hf
  exact hserves.orderly

theorem scoped_shared (h : a.Valid context) : ∀ f ∈ a.shared, f.Scoped := by
  refine List.forall_mem_append.2 ⟨fun f hf => (h.orderly_lowered f hf).scopes, fun f hf => ?_⟩
  obtain ⟨e, he, rfl⟩ := List.mem_map.1 hf
  exact h.scopes e he

theorem wellScoped_entry (h : a.Valid context) : Stmt.WellScoped a.entry := by
  obtain ⟨g, g', hcode⟩ := h.exists_entryCode
  exact Dispatch.wellScoped_entryCode hcode

theorem wellScoped_deployed (h : a.Valid context) (className : String) :
    Stmt.WellScoped (a.object className).deployed := by
  refine Stmt.WellScoped.append_definitions ⟨?_, ?_⟩ h.scoped_shared
  · refine Stmt.allScoped_append.2 ⟨?_, h.wellScoped_entry.1.mono fun _ => .inl⟩
    simp [initMemory, Yul.Op.mstore, Yul.Op.freePointer, Stmt.allScoped_cons]
  · exact h.wellScoped_entry.2

end Assembly.Valid

/-- The deployed part of a compiled class reads and assigns a variable only behind its declaration,
in the same function and in a block around the use. Parameters, results and all other variables of a
function have different names, in whatever blocks they are declared, and so have those of the entry
code. -/
theorem deployed_code_scoped {options : Options} {file : Source.File}
    {available : List Source.File} {className : String} {c : Compiled}
    (h : compile options file available className = .ok c) :
    Stmt.WellScoped c.object.deployed := by
  obtain ⟨context, -, a, ha, hobject⟩ := exists_assembly h
  rw [hobject]
  exact ha.wellScoped_deployed className

/-- A class whose method declares variables of the same name in blocks within each other and beside
each other, and checks the condition of its loop with temporaries. -/
def shadowing : Source.File where
  path := "shadowing"
  classes := [
    { name := "Shadowing"
      methods := [
        { name := "sum", params := [⟨"n", "u256"⟩, ⟨"all", "bool"⟩], returns := ["u256"]
          body := some [
            .varDecl ["x"] (some "u256") (some (.number "1")),
            .forLoop (some (.varDecl ["i"] (some "u256") (some (.number "0"))))
              (some (.binary .and (.ident "all")
                (.binary .lt (.update .increment false (.ident "i")) (.ident "n"))))
              none
              [.varDecl ["x"] (some "u256") (some (.ident "i")),
               .ifElse (.binary .lt (.ident "x") (.ident "n"))
                 [.varDecl ["n"] (some "u256") (some (.ident "x"))]
                 (some [.varDecl ["n"] (some "u256") (some (.number "2"))])],
            .ret (some (.ident "x"))] }] }]

def variablesOf (code : List Stmt) : List String :=
  code.flatMap fun
    | .function _ params returns body => params ++ returns ++ Stmt.allDeclared body
    | _ => []

theorem deployed_code_scoped_shadowing :
    ∃ c, compile { emitAbi := false } shadowing [] "Shadowing" = .ok c ∧
      variablesOf c.object.deployed = ["var_n", "var_all", "ret_0", "var_x", "var_i", "_2", "_1",
        "var_x_1", "__cond_3", "var_n_1", "var_n_2"] ∧
      Stmt.allDeclared c.object.deployed = ["param_0", "param_1", "ret_2", "memPos_3"] ∧
      Stmt.WellScoped c.object.deployed := by
  obtain ⟨c, hc, hnames⟩ := Outcome.exists_of_map_toOption
    (show (compile { emitAbi := false } shadowing [] "Shadowing").toOption.map
      (fun c => (variablesOf c.object.deployed, Stmt.allDeclared c.object.deployed)) =
        some (["var_n", "var_all", "ret_0", "var_x", "var_i", "_2", "_1", "var_x_1", "__cond_3",
          "var_n_1", "var_n_2"], ["param_0", "param_1", "ret_2", "memPos_3"]) by decide +kernel)
  obtain ⟨hvariables, hdeclared⟩ := Prod.mk.inj hnames
  exact ⟨c, hc, hvariables, hdeclared, deployed_code_scoped hc⟩

end Compilation

end ContractYul
