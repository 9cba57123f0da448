import ContractYul.Json.Reader
import ContractYul.Target

/-!
# Options

What a compilation can be told. Options are read from JSON; a missing key keeps its default and an
unknown key is passed over.
-/

namespace ContractYul

inductive RevertStrings where
  | keep | strip
  deriving DecidableEq

def RevertStrings.word : RevertStrings → String
  | .keep => "keep"
  | .strip => "strip"

def RevertStrings.ofWord? (word : String) : Option RevertStrings :=
  [keep, strip].find? (·.word == word)

structure Options where
  target : Target := .cancun
  revertStrings : RevertStrings := .keep
  /-- Public fields can be read from outside. -/
  publicGetters : Bool := true
  /-- Code is commented. -/
  debugComments : Bool := false
  /-- The ABI description is made. -/
  emitAbi : Bool := true

namespace Options

def ofJson? (j : Json) : Option Options := do
  let members ← j.members?
  return {
    target := ← Json.defaulted? (fun v => v.string?.bind Target.ofWord?) .cancun members
      "evm_version"
    revertStrings := ← Json.defaulted? (fun v => v.string?.bind RevertStrings.ofWord?) .keep members
      "revert_strings"
    publicGetters := ← Json.defaulted? Json.bool? true members "public_getters"
    debugComments := ← Json.defaulted? Json.bool? false members "debug_comments"
    emitAbi := ← Json.defaulted? Json.bool? true members "emit_abi" }

def read? (text : String) : Option Options := do
  ofJson? (← Json.parse? text)

def toJson (o : Options) : Json :=
  .object [("evm_version", .string o.target.word), ("revert_strings", .string o.revertStrings.word),
    ("public_getters", .bool o.publicGetters), ("debug_comments", .bool o.debugComments),
    ("emit_abi", .bool o.emitAbi)]

end Options

end ContractYul
