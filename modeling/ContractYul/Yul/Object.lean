import ContractYul.Yul.Printer
import ContractYul.Hash.Sha256

/-!
# Objects

What one compiled class amounts to: the code that runs at deployment, the code that stays, and the
names of the objects whose creation code has to be linked in. The fingerprint of an object is the
SHA-256 hash of its printed form.
-/

namespace ContractYul.Yul

def deployedName (name : String) : String :=
  name ++ "_deployed"

structure Object where
  name : String
  /-- Code that runs once, at deployment. -/
  creation : List Stmt
  /-- Code of the deployed contract. -/
  deployed : List Stmt
  /-- Objects to be linked in. -/
  links : List String

/-- Names of the functions defined at the top level of the deployed code. -/
def Object.deployedFunctions (o : Object) : List String :=
  o.deployed.filterMap fun
    | .function name _ _ _ => some name
    | _ => none

/-- Number of statements at the top level of both parts. -/
def Object.statementCount (o : Object) : Nat :=
  o.creation.length + o.deployed.length

def Object.render (o : Object) : String :=
  "object " ++ quote o.name ++ " \x7b\n" ++
  String.join (o.links.map fun dep => indent 1 ++ "// links object " ++ quote dep ++ "\n") ++
  indent 1 ++ "code \x7b\n" ++
  renderBlock 2 o.creation ++
  indent 1 ++ "\x7d\n" ++
  indent 1 ++ "object " ++ quote (deployedName o.name) ++ " \x7b\n" ++
  indent 2 ++ "code \x7b\n" ++
  renderBlock 3 o.deployed ++
  indent 2 ++ "\x7d\n" ++
  indent 1 ++ "\x7d\n" ++
  "\x7d\n"

def Object.fingerprint (o : Object) : String :=
  Text.hexEncode (sha256 (Text.utf8 o.render))

end ContractYul.Yul
