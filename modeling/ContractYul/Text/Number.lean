import ContractYul.Text.Hex

/-!
# Integer literals

An integer literal is decimal, hexadecimal after `0x`, or scientific: digits, an optional fraction
and an exponent that makes a whole number of it. Underscores may separate digits anywhere and an
`n` may stand at the end. The canonical text of a literal is what the target language prints: the
value without leading zeros, hexadecimal if and only if it was written so. Values fill at most a
word of 256 bits.
-/

namespace ContractYul.Text

/-- The digits of the greatest word. -/
def maxWord : List Char :=
  "115792089237316195423570985008687907853269984665640564039457584007913129639935".toList

structure Scientific where
  whole : List Char
  fraction : List Char
  exponent : List Char

namespace Scientific

def exponent? : List Char → Option (List Char)
  | c :: digits =>
    if (c == 'e' || c == 'E') && !digits.isEmpty && digits.all isDecimal then some digits else none
  | [] => none

/-- The fraction after a point, of at least one digit, and what follows it; without a point there
is no fraction. -/
def fraction? : List Char → Option (List Char × List Char)
  | '.' :: rest =>
    let digits := rest.takeWhile isDecimal
    if digits.isEmpty then none else some (digits, rest.dropWhile isDecimal)
  | rest => some ([], rest)

def read? (cs : List Char) : Option Scientific := do
  let whole := cs.takeWhile isDecimal
  if whole.isEmpty then none
  else
    let (fraction, rest) ← fraction? (cs.dropWhile isDecimal)
    return ⟨whole, fraction, ← exponent? rest⟩

/-- The digits of the value, when it is a whole number and the exponent is not beyond what is read. An
exponent of a value that is not zero may count the digits of the greatest word. -/
def expand? (s : Scientific) : Option (List Char) := do
  let exponent ← readBelow? 10 (Nat.pow 2 64) s.exponent
  let fraction := (dropZeros s.fraction.reverse).reverse
  if fraction.length > exponent then none
  else if (dropZeros s.whole).isEmpty && fraction.isEmpty then some ['0']
  else if exponent > maxWord.length then none
  else some (s.whole ++ fraction ++ List.replicate (exponent - fraction.length) '0')

end Scientific

/-- A literal without separators and without an `n` at the end. -/
def bareLiteral (text : String) : List Char :=
  match (text.toList.filter (· != '_')).reverse with
  | 'n' :: rest => rest.reverse
  | rest => rest.reverse

def decimalDigits? (cs : List Char) : Option (List Char) :=
  match Scientific.read? cs with
  | some s => s.expand?
  | none => if !cs.isEmpty && cs.all isDecimal then some cs else none

/-- The text of digits from which the zeros in front were dropped. -/
def textOf (digits : List Char) : String :=
  if digits.isEmpty then "0" else String.ofList digits

/-- Digits are compared with those of the greatest word by their number and then one by one. -/
def decimalText? (cs : List Char) : Option String := do
  let digits := dropZeros (← decimalDigits? cs)
  if digits.length > maxWord.length || (digits.length == maxWord.length && maxWord < digits) then none
  else some (textOf digits)

def hexText? (cs : List Char) : Option String :=
  let digits := dropZeros cs
  if cs.isEmpty || !cs.all isHex || digits.length > 64 then none
  else some ("0x" ++ textOf (digits.map Char.toLower))

def normalizeNumber? (text : String) : Option String :=
  match bareLiteral text with
  | '0' :: 'x' :: digits | '0' :: 'X' :: digits => hexText? digits
  | cs => decimalText? cs

end ContractYul.Text
