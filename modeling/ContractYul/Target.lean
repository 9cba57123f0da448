/-!
# Targets

The two machine versions that code is made for. The newer one has transient storage and an
instruction that copies memory.
-/

namespace ContractYul

inductive Target where
  | shanghai | cancun
  deriving DecidableEq

namespace Target

def word : Target → String
  | .shanghai => "shanghai"
  | .cancun => "cancun"

def ofWord? (word : String) : Option Target :=
  [shanghai, cancun].find? (·.word == word)

def supportsTransient (t : Target) : Bool :=
  t == .cancun

end Target

end ContractYul
