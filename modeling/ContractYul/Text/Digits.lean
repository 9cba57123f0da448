/-!
# Digits

Reading natural numbers in a base, bounded from above, as the literals and lengths of type text
and code are read: a sign `+` may stand in front, at least one digit must follow, and a value at
or above the bound is refused.
-/

namespace ContractYul.Text

def hexDigit? (c : Char) : Option Nat :=
  if '0' ≤ c ∧ c ≤ '9' then some (c.toNat - '0'.toNat)
  else if 'a' ≤ c ∧ c ≤ 'f' then some (c.toNat - 'a'.toNat + 10)
  else if 'A' ≤ c ∧ c ≤ 'F' then some (c.toNat - 'A'.toNat + 10)
  else none

def digit? (base : Nat) (c : Char) : Option Nat :=
  (hexDigit? c).filter (· < base)

def isDecimal (c : Char) : Bool :=
  '0' ≤ c && c ≤ '9'

def isHex (c : Char) : Bool :=
  (hexDigit? c).isSome

/-- Value of a digit string read from the left after `acc`, `none` at a character that is no
digit. -/
def digitsFrom? (base : Nat) : Nat → List Char → Option Nat
  | acc, [] => some acc
  | acc, c :: cs => do digitsFrom? base (acc * base + (← digit? base c)) cs

def digits? (base : Nat) : List Char → Option Nat
  | [] => none
  | cs => digitsFrom? base 0 cs

def readBelow? (base bound : Nat) (cs : List Char) : Option Nat :=
  let digits := match cs with
    | '+' :: rest => rest
    | rest => rest
  (digits? base digits).filter (· < bound)

def dropZeros (cs : List Char) : List Char :=
  cs.dropWhile (· == '0')

end ContractYul.Text
