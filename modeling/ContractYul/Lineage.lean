import ContractYul.Data.SortedSet
import ContractYul.Error
import ContractYul.Source.Basic

/-!
# Lineages

A class and its ancestors in one line, from the base to the class itself: the lines of the parents
are joined in the order in which the parents are listed, each class where it first comes up.

A method that several classes of the line declare belongs to the last one with a body. That body
has the plain name of the method; earlier bodies have a name with their class in it and are reached
through `super`.
-/

namespace ContractYul

open Source

/-! ## Names of functions -/

def functionName (method : String) : String :=
  "fun_" ++ method

def renamedName (className method : String) : String :=
  "fun_" ++ className ++ "_" ++ method

def constructorName (className : String) : String :=
  "constructor_" ++ className

/-! ## Joining lines -/

structure Lineage where
  ancestors : List ClassDecl
  derived : ClassDecl

namespace Lineage

def classes (l : Lineage) : List ClassDecl :=
  l.ancestors ++ [l.derived]

def join (line next : List ClassDecl) : List ClassDecl :=
  line ++ next.filter fun c => !line.any (·.name == c.name)

/-- The line of a class with ancestors at most `depth` levels up; `below` are the classes on the way
to this one. -/
def ofClassWithin (class? : String → Option ClassDecl) :
    (depth : Nat) → (below : List String) → ClassDecl → Outcome Lineage
  | 0, _, c => .error (.cyclicInheritance c.name)
  | depth + 1, below, c =>
    if below.contains c.name then .error (.cyclicInheritance c.name)
    else do
      let ancestors ← c.parents.foldlM (fun line parent =>
          match class? parent with
          | none => .error (.unresolvedAncestor parent c.name)
          | some p => do
            return join line (← ofClassWithin class? depth (c.name :: below) p).classes)
        []
      return ⟨ancestors, c⟩

/-- The line of a class among `count` classes. A way through distinct classes is at most that long,
and the step after it meets a class again. -/
def ofClass (class? : String → Option ClassDecl) (count : Nat) (c : ClassDecl) : Outcome Lineage :=
  ofClassWithin class? (count + 2) [] c

/-! ## Methods -/

def hasBody (c : ClassDecl) (method : String) : Bool :=
  (c.bodied? method).isSome

def contains (l : Lineage) (name : String) : Bool :=
  l.classes.any (·.name == name)

/-- The class that a method belongs to: the last one with a body, or else the last that declares
it. -/
def owner? (l : Lineage) (method : String) : Option ClassDecl :=
  (l.classes.reverse.find? (hasBody · method)).or
    (l.classes.reverse.find? fun c => (c.method? method).isSome)

def methodNames (l : Lineage) : List String :=
  distinct (l.classes.flatMap fun c => c.methods.map (·.name))

/-- Names of the methods that two or more classes declare, in alphabetical order. -/
def overridden (l : Lineage) : List String :=
  sortedSet (l.methodNames.filter fun m => 2 ≤ l.classes.countP fun c => (c.method? m).isSome)

/-- The method that calls by name reach: the first body in the class that owns it. -/
def method? (l : Lineage) (name : String) : Option (ClassDecl × MethodDecl) := do
  let owner ← l.owner? name
  return (owner, ← (owner.bodied? name).or (owner.method? name))

/-- Every method with its owner, in the order of first declaration. Where the owner has several
bodies for a method this is the last. -/
def finalMethods (l : Lineage) : List (ClassDecl × MethodDecl) :=
  l.methodNames.filterMap fun name => do
    let owner ← l.owner? name
    let bodied := owner.methods.reverse.find? fun m => m.name == name && m.body.isSome
    return (owner, ← bodied.or (owner.method? name))

def owns (l : Lineage) (className method : String) : Bool :=
  (l.owner? method).any (·.name == className)

def irName (l : Lineage) (className method : String) : String :=
  if l.owns className method then functionName method else renamedName className method

def renamedMethods (l : Lineage) : List (ClassDecl × MethodDecl × String) :=
  l.classes.flatMap fun c =>
    (c.methods.filter fun m =>
        m.body.isSome && l.overridden.contains m.name && !l.owns c.name m.name).map fun m =>
      (c, m, renamedName c.name m.name)

def before (l : Lineage) (className : String) : List ClassDecl :=
  if l.contains className then (l.classes.takeWhile (·.name != className)).reverse else []

/-- Functions that `super` stands for, by the class it is used in and the method; a later entry
stands in front. -/
abbrev SuperTargets := List ((String × String) × String)

def nearestTarget? (l : Lineage) (above : List ClassDecl) (method : String) : Option String :=
  (above.reverse.find? (hasBody · method)).map fun c => l.irName c.name method

/-- The entries of a class. A method that several classes declare leads to its nearest body. Any
other method with a body above the class is declared once, and has its plain name. -/
def addSuperTargets (l : Lineage) (className : String) (above : List ClassDecl)
    (targets : SuperTargets) : SuperTargets :=
  let targets := l.overridden.foldl (fun targets method =>
      (l.nearestTarget? above method).elim targets fun target =>
        ((className, method), target) :: targets)
    targets
  (above.flatMap (·.methods)).foldl (fun targets m =>
      if m.body.isSome && (targets.lookup (className, m.name)).isNone then
        ((className, m.name), functionName m.name) :: targets
      else targets)
    targets

def superTargetsFrom (l : Lineage) :
    (above : List ClassDecl) → List ClassDecl → SuperTargets → SuperTargets
  | _, [], targets => targets
  | above, c :: rest, targets =>
    superTargetsFrom l (above ++ [c]) rest (l.addSuperTargets c.name above targets)

def superTargets (l : Lineage) : SuperTargets :=
  l.superTargetsFrom [] l.classes []

def superTarget (l : Lineage) (className method : String) : Outcome String :=
  match l.superTargets.lookup (className, method) with
  | some target => .ok target
  | none => .error (.missingSuperImplementation className method)

/-! ## Constructors -/

def firstConstructor? (classes : List ClassDecl) : Option (ClassDecl × ConstructorDecl) :=
  classes.findSome? fun c => c.constructor.map (c, ·)

def effectiveConstructor? (l : Lineage) : Option (ClassDecl × ConstructorDecl) :=
  firstConstructor? l.classes.reverse

def parentConstructor? (l : Lineage) (className : String) : Option (ClassDecl × ConstructorDecl) :=
  firstConstructor? (l.before className)

end Lineage

end ContractYul
