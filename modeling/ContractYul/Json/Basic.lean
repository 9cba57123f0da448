/-!
# JSON values

A value keeps the order of its object's members and every repetition of a key, and a number keeps
its text, so that what a text says is neither reordered nor rounded. A part of a text can be well
formed and still stand for no value; it is kept as such, so that whoever does not need it can pass
it over. Printing has two forms: the compact one without blanks, and the pretty one with a member or
element per line.
-/

namespace ContractYul

inductive Json where
  | null
  | bool (b : Bool)
  | number (text : String)
  | string (s : String)
  | array (items : List Json)
  | object (members : List (String × Json))
  /-- A string that has half of a surrogate pair alone, or an object with such a key. -/
  | unreadable
  deriving Inhabited

namespace Json

def nat (n : Nat) : Json :=
  .number (toString n)

def strings (ss : List String) : Json :=
  .array (ss.map .string)

def ofOption {α : Type} (f : α → Json) : Option α → Json
  | none => .null
  | some a => f a

/-! ## Printing -/

def escapeChar (c : Char) : List Char :=
  if c = '"' then ['\\', '"']
  else if c = '\\' then ['\\', '\\']
  else if c = '\n' then ['\\', 'n']
  else if c = '\r' then ['\\', 'r']
  else if c = '\t' then ['\\', 't']
  else if c.toNat = 8 then ['\\', 'b']
  else if c.toNat = 12 then ['\\', 'f']
  else if c.toNat < 32 then
    ['\\', 'u', '0', '0', Nat.digitChar (c.toNat / 16), Nat.digitChar (c.toNat % 16)]
  else [c]

def quote (s : String) : String :=
  "\"" ++ String.ofList (s.toList.flatMap escapeChar) ++ "\""

mutual

/-- The text without blanks. What cannot be read is left out as `null`. -/
def compact : Json → String
  | .null | .unreadable => "null"
  | .bool true => "true"
  | .bool false => "false"
  | .number text => text
  | .string s => quote s
  | .array items => "[" ++ String.intercalate "," (compactItems items) ++ "]"
  | .object members => "\x7b" ++ String.intercalate "," (compactMembers members) ++ "\x7d"

def compactItems : List Json → List String
  | [] => []
  | j :: rest => compact j :: compactItems rest

def compactMembers : List (String × Json) → List String
  | [] => []
  | (k, v) :: rest => (quote k ++ ":" ++ compact v) :: compactMembers rest

end

/-- A line break followed by two blanks per level. -/
def newline (level : Nat) : String :=
  "\n" ++ String.ofList (List.replicate (2 * level) ' ')

mutual

/-- The text with one element or member per line, at a nesting level. What cannot be read is left
out as `null`. -/
def prettyAt (level : Nat) : Json → String
  | .array [] => "[]"
  | .object [] => "\x7b\x7d"
  | .array items =>
    "[" ++ String.intercalate "," (prettyItems (level + 1) items) ++ newline level ++ "]"
  | .object members =>
    "\x7b" ++ String.intercalate "," (prettyMembers (level + 1) members) ++ newline level ++ "\x7d"
  | .null | .unreadable => "null"
  | .bool true => "true"
  | .bool false => "false"
  | .number text => text
  | .string s => quote s

def prettyItems (level : Nat) : List Json → List String
  | [] => []
  | j :: rest => (newline level ++ prettyAt level j) :: prettyItems level rest

def prettyMembers (level : Nat) : List (String × Json) → List String
  | [] => []
  | (k, v) :: rest =>
    (newline level ++ quote k ++ ": " ++ prettyAt level v) :: prettyMembers level rest

end

/-- The text with two blanks of indentation per level. -/
def pretty (j : Json) : String :=
  prettyAt 0 j

end Json

end ContractYul
