/-!
# Types of the contract language

A type is read from text once and then known by its descriptor. This module holds the descriptor
and the questions that need no declarations: width, packing, whether a value is encoded out of
line, numeric bounds, and the short text that messages show.
-/

namespace ContractYul

inductive Ty where
  /-- Unsigned integer of `bits` bits. -/
  | uint (bits : Nat)
  /-- Signed integer of `bits` bits. -/
  | int (bits : Nat)
  | address
  | bool
  /-- Byte string of fixed length, left-aligned in a word. -/
  | fixedBytes (size : Nat)
  | bytes
  | string
  /-- Array, of fixed length when one is given. -/
  | array (elem : Ty) (length : Option Nat)
  /-- Key to value map; lives in storage only. -/
  | mapping (key value : Ty)
  | tuple (elems : List Ty)
  | struct (name : String)
  /-- Interface or class; an address at run time. -/
  | contract (name : String)
  /-- External function: an address with a selector. -/
  | functionRef
  deriving Inhabited

namespace Ty

/-! ## Equality -/

mutual

def same : Ty → Ty → Bool
  | .uint m, .uint n => m == n
  | .int m, .int n => m == n
  | .address, .address => true
  | .bool, .bool => true
  | .fixedBytes m, .fixedBytes n => m == n
  | .bytes, .bytes => true
  | .string, .string => true
  | .array s m, .array t n => same s t && m == n
  | .mapping j s, .mapping k t => same j k && same s t
  | .tuple ss, .tuple ts => sameList ss ts
  | .struct m, .struct n => m == n
  | .contract m, .contract n => m == n
  | .functionRef, .functionRef => true
  | _, _ => false

def sameList : List Ty → List Ty → Bool
  | [], [] => true
  | s :: ss, t :: ts => same s t && sameList ss ts
  | _, _ => false

end

mutual

theorem eq_of_same : ∀ {a b : Ty}, same a b = true → a = b
  | .uint _, b, h => by cases b <;> simp_all [same]
  | .int _, b, h => by cases b <;> simp_all [same]
  | .address, b, h => by cases b <;> simp_all [same]
  | .bool, b, h => by cases b <;> simp_all [same]
  | .fixedBytes _, b, h => by cases b <;> simp_all [same]
  | .bytes, b, h => by cases b <;> simp_all [same]
  | .string, b, h => by cases b <;> simp_all [same]
  | .struct _, b, h => by cases b <;> simp_all [same]
  | .contract _, b, h => by cases b <;> simp_all [same]
  | .functionRef, b, h => by cases b <;> simp_all [same]
  | .array s m, b, h => by
    cases b <;> simp [same] at h
    exact congr (congrArg _ (eq_of_same h.1)) h.2
  | .mapping j s, b, h => by
    cases b <;> simp [same] at h
    exact congr (congrArg _ (eq_of_same h.1)) (eq_of_same h.2)
  | .tuple ss, b, h => by
    cases b <;> simp [same] at h
    exact congrArg _ (eq_of_sameList h)

theorem eq_of_sameList : ∀ {as bs : List Ty}, sameList as bs = true → as = bs
  | [], bs, h => by cases bs <;> simp_all [sameList]
  | a :: as, bs, h => by
    cases bs <;> simp [sameList] at h
    exact congr (congrArg _ (eq_of_same h.1)) (eq_of_sameList h.2)

end

mutual

theorem same_self : ∀ a : Ty, same a a = true
  | .uint _ | .int _ | .address | .bool | .fixedBytes _ | .bytes | .string | .struct _
  | .contract _ | .functionRef => by simp [same]
  | .array s _ => by simp [same, same_self s]
  | .mapping j s => by simp [same, same_self j, same_self s]
  | .tuple ss => by simp [same, sameList_self ss]

theorem sameList_self : ∀ as : List Ty, sameList as as = true
  | [] => by simp [sameList]
  | a :: as => by simp [sameList, same_self a, sameList_self as]

end

instance : DecidableEq Ty := fun a b =>
  if h : same a b = true then isTrue (eq_of_same h) else isFalse fun e => h (e ▸ same_self a)

/-! ## Classes of types -/

/-- A type whose values fill at most a word and are copied as such. -/
def isValue : Ty → Bool
  | .uint _ | .int _ | .address | .bool | .fixedBytes _ | .contract _ | .functionRef => true
  | _ => false

def isSigned : Ty → Bool
  | .int _ => true
  | _ => false

def isBytesLike : Ty → Bool
  | .bytes | .string => true
  | _ => false

def isMapping : Ty → Bool
  | .mapping _ _ => true
  | _ => false

def isStruct : Ty → Bool
  | .struct _ => true
  | _ => false

def isKey (t : Ty) : Bool :=
  (t.isValue && t != .functionRef) || t.isBytesLike

/-- Width of a stored value in bytes, a whole word for what is no value. -/
def byteSize : Ty → Nat
  | .uint bits | .int bits => bits / 8
  | .address | .contract _ => 20
  | .bool => 1
  | .fixedBytes n => n
  | .functionRef => 24
  | _ => 32

/-- Values narrower than a word share slots with their neighbours. -/
def canPack (t : Ty) : Bool :=
  t.isValue && t != .functionRef && t.byteSize < 32

mutual

/-- A type whose values are encoded out of line, behind an offset. -/
def isDynamic : Ty → Bool
  | .bytes | .string => true
  | .array _ none => true
  | .array elem (some _) => elem.isDynamic
  | .tuple elems => anyDynamic elems
  | _ => false

def anyDynamic : List Ty → Bool
  | [] => false
  | t :: rest => t.isDynamic || anyDynamic rest

end

/-! ## Masks and bounds -/

/-- A word literal with the low `n` bytes set. -/
def maskText (n : Nat) : String :=
  "0x" ++ String.join (List.replicate n "ff")

/-- The mask of the low `byteSize` bytes, when the type is narrower than a word. -/
def mask? (t : Ty) : Option String :=
  if t.byteSize < 32 && t.isValue then some (maskText t.byteSize) else none

/-- Inclusive bounds of an integer type as literals. For a signed type `min` is the literal whose
complement is the least value. -/
structure Bounds where
  min : String
  max : String
  negativeMin : Bool

def bounds? : Ty → Option Bounds
  | .uint bits => some ⟨"0", maskText (bits / 8), false⟩
  | .int bits =>
    let top := "0x7f" ++ String.join (List.replicate (bits / 8 - 1) "ff")
    some ⟨top, top, true⟩
  | _ => none

/-! ## Text -/

mutual

/-- Short text of a type, as messages show it. -/
def describe : Ty → String
  | .uint bits => "u" ++ toString bits
  | .int bits => "i" ++ toString bits
  | .address => "address"
  | .bool => "bool"
  | .fixedBytes n => "bytes" ++ toString n
  | .bytes => "bytes"
  | .string => "string"
  | .array e (some n) => e.describe ++ "[" ++ toString n ++ "]"
  | .array e none => e.describe ++ "[]"
  | .mapping k v => "Mapping<" ++ k.describe ++ ", " ++ v.describe ++ ">"
  | .tuple es => "[" ++ String.intercalate ", " (describeAll es) ++ "]"
  | .struct n => n
  | .contract n => n
  | .functionRef => "Function"

def describeAll : List Ty → List String
  | [] => []
  | t :: rest => t.describe :: describeAll rest

end

/-- Keys that reach a value inside a field, one per level of mapping or array, and the type of
what they reach. -/
def getterShape : Ty → List Ty × Ty
  | .mapping key value =>
    let (keys, result) := value.getterShape
    (key :: keys, result)
  | .array elem _ =>
    let (keys, result) := elem.getterShape
    (.uint 256 :: keys, result)
  | t => ([], t)

end Ty

end ContractYul
