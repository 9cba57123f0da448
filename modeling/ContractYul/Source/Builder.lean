import ContractYul.Source.Basic

/-!
# Building declarations

Functions that make declarations step by step. Each adds to what is there or sets one part of it.
-/

namespace ContractYul.Source

/-! ## Files -/

namespace File

def addClass (f : File) (c : ClassDecl) : File :=
  { f with classes := f.classes ++ [c] }

def addInterface (f : File) (i : InterfaceDecl) : File :=
  { f with interfaces := f.interfaces ++ [i] }

def addEnum (f : File) (name : String) (members : List String) : File :=
  { f with enums := f.enums ++ [⟨name, members⟩] }

def addFunction (f : File) (g : FunctionDecl) : File :=
  { f with functions := f.functions ++ [g] }

def addAlias (f : File) (name underlying : String) : File :=
  { f with aliases := f.aliases ++ [⟨name, underlying⟩] }

def addImport (f : File) (path : String) (names : List String) : File :=
  { f with imports := f.imports ++ [⟨path, names⟩] }

def addComment (f : File) (comment : String) : File :=
  { f with comments := f.comments ++ [comment] }

end File

/-! ## Classes and interfaces -/

namespace ClassDecl

def inherits (c : ClassDecl) (heritage : Heritage) : ClassDecl :=
  { c with heritage := heritage }

def addField (c : ClassDecl) (f : FieldDecl) : ClassDecl :=
  { c with fields := c.fields ++ [f] }

def addMethod (c : ClassDecl) (m : MethodDecl) : ClassDecl :=
  { c with methods := c.methods ++ [m] }

def setConstructor (c : ClassDecl) (k : ConstructorDecl) : ClassDecl :=
  { c with constructor := k }

def addEvent (c : ClassDecl) (e : EventDecl) : ClassDecl :=
  { c with events := c.events ++ [e] }

end ClassDecl

def InterfaceDecl.addField (i : InterfaceDecl) (name ty : String) : InterfaceDecl :=
  { i with fields := i.fields ++ [⟨name, ty⟩] }

namespace MethodDecl

def addParam (m : MethodDecl) (name ty : String) : MethodDecl :=
  { m with params := m.params ++ [⟨name, ty⟩] }

def addReturn (m : MethodDecl) (ty : String) : MethodDecl :=
  { m with returns := m.returns ++ [ty] }

end MethodDecl

/-! ## Code -/

namespace Expr

def num (n : Nat) : Expr :=
  .number (toString n)

def method (object : Expr) (name : String) (args : List Expr) : Expr :=
  .call (.member object name) args

def postIncrement (target : Expr) : Expr :=
  .update .increment false target

end Expr

def Stmt.letOne (name : String) (ty : Option String) (init : Option Expr) : Stmt :=
  .varDecl [name] ty init

end ContractYul.Source
