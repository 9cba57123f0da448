import ContractYul.Json.Basic
import ContractYul.Text.Digits

/-!
# Reading JSON text

The text is cut into tokens by an automaton that takes one character at a time, and the tokens
are put together by a second one that keeps the containers still open. Both are folds, so reading
ends on every text.

A string is well formed when its escapes are, but it stands for a text only if its code units pair
up. One that does not is no fault of the text as a whole: it becomes an unreadable part, which is
refused only where it is asked for.
-/

namespace ContractYul.Json

/-! ## Tokens -/

inductive Token where
  | openBrace
  | closeBrace
  | openBracket
  | closeBracket
  | colon
  | comma
  /-- A string, `none` when it stands for no text. -/
  | string (s : Option String)
  | atom (value : Json)

structure StringPart where
  /-- The characters in reverse, `none` once half of a surrogate pair has stood alone. -/
  text : Option (List Char) := some []
  /-- A leading surrogate whose trailing half has to follow. -/
  high : Option Nat := none

inductive LexMode where
  /-- Between tokens. -/
  | between
  /-- In a string. -/
  | inString (part : StringPart)
  /-- After a backslash in a string. -/
  | escaped (part : StringPart)
  /-- In the four digits of a code unit; `missing` of them are still to come. -/
  | unit (part : StringPart) (missing value : Nat)
  /-- In a number or a word, whose characters are kept in reverse. -/
  | inWord (text : List Char)

def isLayout (c : Char) : Bool :=
  c == ' ' || c == '\t' || c == '\n' || c == '\r'

def dropDigits? (cs : List Char) : Option (List Char) :=
  match cs with
  | c :: rest => if Text.isDecimal c then some (rest.dropWhile Text.isDecimal) else none
  | [] => none

def isExponent (cs : List Char) : Bool :=
  match cs with
  | [] => true
  | e :: rest =>
    (e == 'e' || e == 'E') &&
      match rest with
      | '+' :: digits => dropDigits? digits == some []
      | '-' :: digits => dropDigits? digits == some []
      | digits => dropDigits? digits == some []

def isFractionExponent (cs : List Char) : Bool :=
  match cs with
  | '.' :: rest =>
    match dropDigits? rest with
    | some tail => isExponent tail
    | none => false
  | tail => isExponent tail

/-- An unsigned number of the JSON grammar: no zero in front of another digit. -/
def isUnsigned (cs : List Char) : Bool :=
  match cs with
  | '0' :: rest => isFractionExponent rest
  | cs =>
    match dropDigits? cs with
    | some tail => isFractionExponent tail
    | none => false

def isNumber (cs : List Char) : Bool :=
  match cs with
  | '-' :: rest => isUnsigned rest
  | cs => isUnsigned cs

def wordToken? (cs : List Char) : Option Token :=
  if cs = ['n', 'u', 'l', 'l'] then some (.atom .null)
  else if cs = ['t', 'r', 'u', 'e'] then some (.atom (.bool true))
  else if cs = ['f', 'a', 'l', 's', 'e'] then some (.atom (.bool false))
  else if isNumber cs then some (.atom (.number (String.ofList cs)))
  else none

def punctuation? (c : Char) : Option Token :=
  if c = '\x7b' then some .openBrace
  else if c = '\x7d' then some .closeBrace
  else if c = '[' then some .openBracket
  else if c = ']' then some .closeBracket
  else if c = ':' then some .colon
  else if c = ',' then some .comma
  else none

namespace StringPart

/-- The text when no trailing surrogate follows, in reverse. -/
def withoutPair (part : StringPart) : Option (List Char) :=
  if part.high.isSome then none else part.text

def push (part : StringPart) (c : Char) : StringPart :=
  { text := part.withoutPair.map (c :: ·) }

/-- Adds the code unit `value`, joining the halves of a surrogate pair. -/
def pushUnit (part : StringPart) (value : Nat) : StringPart :=
  if 0xd800 ≤ value && value < 0xdc00 then { text := part.withoutPair, high := some value }
  else if 0xdc00 ≤ value && value < 0xe000 then
    match part.high with
    | some h =>
      let c := Char.ofNat (0x10000 + (h - 0xd800) * 0x400 + (value - 0xdc00))
      { text := part.text.map (c :: ·) }
    | none => { text := none }
  else part.push (Char.ofNat value)

def finish (part : StringPart) : Option String :=
  part.withoutPair.map fun text => String.ofList text.reverse

end StringPart

def simpleEscape? (c : Char) : Option Char :=
  if c = '"' then some '"'
  else if c = '\\' then some '\\'
  else if c = '/' then some '/'
  else if c = 'b' then some (Char.ofNat 8)
  else if c = 'f' then some (Char.ofNat 12)
  else if c = 'n' then some '\n'
  else if c = 'r' then some '\r'
  else if c = 't' then some '\t'
  else none

def lexBetween (c : Char) : Option (LexMode × List Token) :=
  if isLayout c then some (.between, [])
  else if c = '"' then some (.inString {}, [])
  else match punctuation? c with
    | some t => some (.between, [t])
    | none => some (.inWord [c], [])

def lexStep : LexMode → Char → Option (LexMode × List Token)
  | .between, c => lexBetween c
  | .inString part, c =>
    if c = '\\' then some (.escaped part, [])
    else if c = '"' then some (.between, [.string part.finish])
    else if c.toNat < 32 then none
    else some (.inString (part.push c), [])
  | .escaped part, c =>
    if c = 'u' then some (.unit part 4 0, [])
    else (simpleEscape? c).map fun e => (.inString (part.push e), [])
  | .unit part missing value, c => do
    let value := value * 16 + (← Text.hexDigit? c)
    if missing ≤ 1 then
      return (.inString (part.pushUnit value), [])
    return (.unit part (missing - 1) value, [])
  | .inWord text, c =>
    if isLayout c || c == '"' || (punctuation? c).isSome then do
      let word ← wordToken? text.reverse
      let (mode, tokens) ← lexBetween c
      return (mode, word :: tokens)
    else some (.inWord (c :: text), [])

def lexFrom : LexMode → List Char → Option (List Token)
  | .between, [] => some []
  | .inWord text, [] => (wordToken? text.reverse).map ([·])
  | _, [] => none
  | mode, c :: rest => do
    let (next, tokens) ← lexStep mode c
    return tokens ++ (← lexFrom next rest)

/-! ## Values -/

/-- A container that is still open, its parts in reverse. -/
inductive Frame where
  | array (items : List Json)
  /-- An object; a key is `none` when it stands for no text. -/
  | object (members : List (Option String × Json)) (key : Option String)

inductive Expect where
  /-- A value. -/
  | value
  /-- A value or the end of an array that has no element yet. -/
  | firstItem
  /-- A key. -/
  | key
  /-- A key or the end of an object that has no member yet. -/
  | firstKey
  /-- The colon after a key. -/
  | colon (key : Option String)
  /-- A comma, or the end of the innermost container. -/
  | separator
  /-- Nothing: the value is complete. -/
  | finished (value : Json)

/-- Open containers, innermost first, and what may come next. Members of an object whose next key
has not been read are kept with no key. -/
structure Partial where
  frames : List Frame
  expect : Expect

def closeObject (members : List (Option String × Json)) : Json :=
  match members.reverse.mapM fun (key, v) => key.map (·, v) with
  | some members => .object members
  | none => .unreadable

def Partial.place (frames : List Frame) (v : Json) : Partial :=
  match frames with
  | [] => ⟨[], .finished v⟩
  | .array items :: outer => ⟨.array (v :: items) :: outer, .separator⟩
  | .object members key :: outer => ⟨.object ((key, v) :: members) none :: outer, .separator⟩

def Partial.value? (frames : List Frame) : Token → Option Partial
  | .atom v => some (Partial.place frames v)
  | .string (some s) => some (Partial.place frames (.string s))
  | .string none => some (Partial.place frames .unreadable)
  | .openBracket => some ⟨.array [] :: frames, .firstItem⟩
  | .openBrace => some ⟨.object [] none :: frames, .firstKey⟩
  | _ => none

def Partial.step (p : Partial) (t : Token) : Option Partial :=
  match p.expect, t, p.frames with
  | .firstItem, .closeBracket, .array items :: outer => some (place outer (.array items.reverse))
  | .value, t, frames => value? frames t
  | .firstItem, t, frames => value? frames t
  | .firstKey, .closeBrace, .object members _ :: outer => some (place outer (closeObject members))
  | .firstKey, .string k, frames => some ⟨frames, .colon k⟩
  | .key, .string k, frames => some ⟨frames, .colon k⟩
  | .colon k, .colon, .object members _ :: outer => some ⟨.object members k :: outer, .value⟩
  | .separator, .comma, .array items :: outer => some ⟨.array items :: outer, .value⟩
  | .separator, .comma, .object members k :: outer => some ⟨.object members k :: outer, .key⟩
  | .separator, .closeBracket, .array items :: outer => some (place outer (.array items.reverse))
  | .separator, .closeBrace, .object members _ :: outer => some (place outer (closeObject members))
  | _, _, _ => none

/-- The value of a JSON text, `none` when it is none. Parts of the value may be unreadable. -/
def parse? (s : String) : Option Json := do
  let tokens ← lexFrom .between s.toList
  let final ← tokens.foldlM Partial.step ⟨[], .value⟩
  match final.expect with
  | .finished v => some v
  | _ => none

/-! ## Taking values apart -/

def string? : Json → Option String
  | .string s => some s
  | _ => none

def bool? : Json → Option Bool
  | .bool b => some b
  | _ => none

def array? : Json → Option (List Json)
  | .array items => some items
  | _ => none

def natBelow? (bound : Nat) : Json → Option Nat
  | .number text => (Text.digits? 10 text.toList).filter (· < bound)
  | _ => none

def list? {α : Type} (f : Json → Option α) (j : Json) : Option (List α) :=
  j.array? >>= (·.mapM f)

def strings? : Json → Option (List String) :=
  list? string?

def members? : Json → Option (List (String × Json))
  | .object members => some members
  | _ => none

/-- The member of a key, `some none` when there is none, `none` when the key is repeated. -/
def member? (members : List (String × Json)) (key : String) : Option (Option Json) :=
  match members.filter (·.1 == key) with
  | [] => some none
  | [(_, v)] => some (some v)
  | _ => none

def required? {α : Type} (f : Json → Option α) (members : List (String × Json)) (key : String) :
    Option α := do
  f (← (← member? members key))

def defaulted? {α : Type} (f : Json → Option α) (default : α) (members : List (String × Json))
    (key : String) : Option α := do
  match ← member? members key with
  | none => some default
  | some v => f v

def optional? {α : Type} (f : Json → Option α) (members : List (String × Json)) (key : String) :
    Option (Option α) := do
  match ← member? members key with
  | none | some .null => some none
  | some v => (f v).map some

end ContractYul.Json
