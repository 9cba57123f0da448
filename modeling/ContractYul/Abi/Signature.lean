import ContractYul.Hash.Keccak
import ContractYul.Source.Basic
import ContractYul.Ty.Canonical

/-!
# Signatures, selectors and topics

What a contract shows to the outside is identified by the hash of its signature: functions and
custom errors by the first four bytes, events by the whole.
-/

namespace ContractYul.Abi

def signature (name : String) (types : List String) : String :=
  name ++ Ty.parenthesize types

def topic (signature : String) : List UInt8 :=
  keccak256 (Text.utf8 signature)

/-- First four bytes of the hash of a signature, as a number. -/
def selector (signature : String) : Nat :=
  ((topic signature).take 4).foldl (fun n b => n * 256 + b.toNat) 0

def selectorText (selector : Nat) : String :=
  "0x" ++ Text.hexPadded 8 selector

/-! ## What a contract shows -/

structure Param where
  name : String
  typeText : String
  ty : Ty

def Param.resolve (names : TypeNames) (p : Source.Param) : Outcome Param := do
  return ⟨p.name, p.ty, ← Ty.parse names p.ty⟩

def Param.isDynamicArray (p : Param) : Bool :=
  match p.ty with
  | .array _ none => true
  | _ => false

structure Function where
  name : String
  /-- The target function that the dispatcher calls. -/
  irName : String
  signature : String
  params : List Param
  returns : List Ty
  mutability : Source.Mutability

def Function.make (names : TypeNames) (name irName : String) (params : List Param)
    (returns : List Ty) (mutability : Source.Mutability) : Outcome Function := do
  let types ← params.mapM fun p => p.ty.canonicalName names
  return ⟨name, irName, Abi.signature name types, params, returns, mutability⟩

def Function.selector (f : Function) : Nat :=
  Abi.selector f.signature

def Function.isPayable (f : Function) : Bool :=
  f.mutability == .payable

/-- Some returned value is encoded behind an offset. -/
def Function.returnsDynamic (f : Function) : Bool :=
  f.returns.any Ty.isDynamic

structure EventField where
  name : String
  ty : Ty
  indexed : Bool

structure Event where
  name : String
  signature : String
  fields : List EventField
  anonymous : Bool

def Event.topic (e : Event) : List UInt8 :=
  Abi.topic e.signature

/-- Most indexed fields an event may have; a named one spends a topic on its signature. -/
def maxIndexed (anonymous : Bool) : Nat :=
  if anonymous then 4 else 3

structure CustomError where
  name : String
  signature : String
  params : List (String × Ty)

def CustomError.selector (e : CustomError) : Nat :=
  Abi.selector e.signature

end ContractYul.Abi
