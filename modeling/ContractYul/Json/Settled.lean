import ContractYul.Json.Reader

/-!
# Settled values

A reader that knows what it looks for passes over the rest of a value. A settled value is one of
which every part has been read: all its strings are texts, all its numbers are within the range of
double precision, and of several members with one key only the last is left.
-/

namespace ContractYul.Json

/-- The least number that double precision rounds to infinity. -/
def doubleLimit : Nat := Nat.pow 2 1024 - Nat.pow 2 970

/-- The number `digits * 10 ^ (exponent - fraction)` is below the limit of double precision. Powers
of ten are formed only where the number of digits does not decide. -/
def isInRange (digits fraction : Nat) (exponent : Int) : Bool :=
  let shift := exponent - fraction
  let order := shift + (Nat.toDigits 10 digits).length
  digits == 0 || order < 309 ||
    (order == 309 && digits * Nat.pow 10 shift.toNat < doubleLimit * Nat.pow 10 (-shift).toNat)

/-- The exponent part of a number, zero when there is none. -/
def exponentOf (cs : List Char) : Int :=
  match cs with
  | _ :: '-' :: digits => -((Text.digits? 10 digits).getD 0 : Int)
  | _ :: '+' :: digits => (Text.digits? 10 digits).getD 0
  | _ :: digits => (Text.digits? 10 digits).getD 0
  | [] => 0

/-- The text of a number is within the range of double precision. -/
def isDouble (text : String) : Bool :=
  let (mantissa, exponent) := text.toList.span fun c => c != 'e' && c != 'E'
  let (whole, fraction) := (mantissa.filter (· != '-')).span (· != '.')
  let fraction := fraction.drop 1
  isInRange ((Text.digits? 10 (whole ++ fraction)).getD 0) fraction.length (exponentOf exponent)

/-- Sets a member in place of earlier ones of its key. -/
def setMember (members : List (String × Json)) (key : String) (v : Json) : List (String × Json) :=
  members.filter (·.1 != key) ++ [(key, v)]

mutual

/-- The settled value, `none` when there is a part that cannot be read. -/
def settled? : Json → Option Json
  | .unreadable => none
  | .number text => if isDouble text then some (.number text) else none
  | .array items => (settledItems? items).map .array
  | .object members => (settledMembers? [] members).map .object
  | j => some j

def settledItems? : List Json → Option (List Json)
  | [] => some []
  | j :: rest => do
    let v ← settled? j
    return v :: (← settledItems? rest)

def settledMembers? (done : List (String × Json)) :
    List (String × Json) → Option (List (String × Json))
  | [] => some done
  | (key, j) :: rest => do
    let v ← settled? j
    settledMembers? (setMember done key v) rest

end

end ContractYul.Json
