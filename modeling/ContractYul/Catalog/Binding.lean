import ContractYul.Ty.Parser

/-!
# Bindings of library functions to types

A comment `@using Library for Type` makes the functions of a library callable on values of a type,
or of every type when the type is `*`. The binding may stand anywhere in a comment and reaches to
its end, with an optional semicolon.
-/

namespace ContractYul.Catalog

structure Binding where
  library : String
  target : String

namespace Binding

def isNameStart (c : Char) : Bool :=
  c.isAlpha || c == '_'

def isNamePart (c : Char) : Bool :=
  c.isAlphanum || c == '_'

def afterBlanks? : List Char → Option (List Char)
  | c :: rest => if Text.isBlank c then some (Text.trimStart rest) else none
  | [] => none

/-- The target of a binding: a line without the semicolon that may end it. -/
def target? (text : List Char) : Option (List Char) :=
  let target := match text.reverse with
    | ';' :: c :: rest => Text.trimEnd (c :: rest).reverse
    | _ => text
  if target.isEmpty || target.contains '\n' then none else some target

def atStart? (text : List Char) : Option Binding := do
  let rest ← Ty.dropWord? "@using".toList text
  let rest ← afterBlanks? rest
  let name := rest.takeWhile isNamePart
  if !(name.head?.any isNameStart) then none
  let rest ← afterBlanks? (rest.dropWhile isNamePart)
  let rest ← Ty.dropWord? "for".toList rest
  let rest ← afterBlanks? rest
  let target ← target? rest
  return ⟨String.ofList name, String.ofList target⟩

def first? : List Char → Option Binding
  | [] => none
  | c :: rest => (atStart? (c :: rest)).or (first? rest)

def ofComment? (comment : String) : Option Binding :=
  first? (Text.trim comment.toList)

end Binding

end ContractYul.Catalog
