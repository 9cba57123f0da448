import ContractYul.Error
import ContractYul.Text.Blank

/-!
# Reading types from text

A type text is taken apart at its outermost form: a tuple `[A, B]`, an array `T[]` or `T[n]`, a
mapping `Mapping<K, V>`, or a name. The parts are shorter than the text, so reading ends. A name is
an elementary type or stands for a declaration; type aliases are followed to a depth that the name
table gives, which is enough for every table whose aliases form no circle.

Main statement: `outermost_parts_lt`, the parts of a form are shorter than the text.
-/

namespace ContractYul

inductive NamedType where
  /-- An enum with its number of members. -/
  | enum (members : Nat)
  /-- A struct with its fields and their type texts. -/
  | struct (fields : List (String × String))
  /-- Another name for a value type. -/
  | alias (underlying : String)
  /-- An interface or class. -/
  | contract

structure TypeNames where
  named : String → Option NamedType
  /-- Slots of a struct whose layout is known. -/
  structSlots : String → Option Nat
  /-- Longest chain of aliases that is followed; a longer one has no end. -/
  aliasDepth : Nat
  /-- Deepest nesting of structs that is followed. -/
  structDepth : Nat

def TypeNames.none : TypeNames :=
  ⟨fun _ => Option.none, fun _ => Option.none, 0, 0⟩

namespace Ty

/-! ## Brackets -/

/-- Splits at the bracket that closes one already open: what is inside, in reverse, and what
follows. -/
def untilClose (opening closing : Char) :
    (depth : Nat) → (inside : List Char) → List Char → Option (List Char × List Char)
  | _, _, [] => Option.none
  | depth, inside, c :: rest =>
    if c = closing then
      match depth with
      | 0 => some (inside, rest)
      | depth + 1 => untilClose opening closing depth (c :: inside) rest
    else if c = opening then untilClose opening closing (depth + 1) (c :: inside) rest
    else untilClose opening closing depth (c :: inside) rest

def isOpening (c : Char) : Bool :=
  c == '<' || c == '[' || c == '('

def isClosing (c : Char) : Bool :=
  c == '>' || c == ']' || c == ')'

/-- Splits at the commas outside brackets and trims the pieces; `current` is the piece begun, in
reverse. `none` when the brackets do not balance. -/
def splitTopLevel : (depth : Nat) → (current : List Char) → List Char → Option (List (List Char))
  | 0, current, [] => some [Text.trim current.reverse]
  | _ + 1, _, [] => Option.none
  | depth, current, c :: rest =>
    if isOpening c then splitTopLevel (depth + 1) (c :: current) rest
    else if isClosing c then
      match depth with
      | 0 => Option.none
      | depth + 1 => splitTopLevel depth (c :: current) rest
    else if c == ',' && depth == 0 then
      (splitTopLevel 0 [] rest).map (Text.trim current.reverse :: ·)
    else splitTopLevel depth (c :: current) rest

def dropWord? : List Char → List Char → Option (List Char)
  | [], text => some text
  | _ :: _, [] => Option.none
  | w :: word, c :: text => if w = c then dropWord? word text else Option.none

/-! ## The outermost form -/

inductive Form where
  | tuple (parts : List (List Char))
  | array (elem : List Char) (length : Option Nat)
  | mapping (key value : List Char)
  | name

def readLength (text : List Char) : Except Malformation (Option Nat) :=
  let text := Text.trim text
  if text.isEmpty then .ok Option.none
  else match Text.readBelow? 10 (Nat.pow 2 64) (text.filter (· != '_')) with
    | Option.none => .error .lengthNotInteger
    | some 0 => .error .zeroLength
    | some n => .ok (some n)

def tupleBody? : List Char → Option (List Char)
  | '[' :: rest =>
    match untilClose '[' ']' 0 [] rest with
    | some (inside, []) => some inside.reverse
    | _ => Option.none
  | _ => Option.none

def tupleForm (body : List Char) : Except Malformation Form :=
  match splitTopLevel 0 [] body with
  | Option.none => .error .unbalanced
  | some parts => if parts.any (·.isEmpty) then .error .emptyTupleElement else .ok (.tuple parts)

def arrayForm (reversed : List Char) : Except Malformation Form :=
  match untilClose ']' '[' 0 [] reversed with
  | Option.none => .error .unbalanced
  | some (inside, before) =>
    if (Text.trim before).isEmpty then .error .arrayWithoutElement
    else (readLength inside).map (.array before.reverse)

def mappingForm (rest : List Char) : Except Malformation Form :=
  match rest.reverse with
  | '>' :: reversed =>
    match splitTopLevel 0 [] reversed.reverse with
    | Option.none => .error .unbalanced
    | some [key, value] => .ok (.mapping key value)
    | some _ => .error .mappingArity
  | _ => .error .missingClose

def mappingBody? (text : List Char) : Option (List Char) :=
  (dropWord? "Mapping<".toList text).or (dropWord? "Map<".toList text)

def isPunctuation (c : Char) : Bool :=
  "<>,[]() ".toList.contains c

def outermost (text : List Char) : Except Malformation Form :=
  if text.isEmpty then .error .emptyType
  else match tupleBody? text with
    | some body => tupleForm body
    | Option.none =>
      match text.reverse with
      | ']' :: reversed => arrayForm reversed
      | _ =>
        match mappingBody? text with
        | some rest => mappingForm rest
        | Option.none => if text.any isPunctuation then .error .punctuation else .ok .name

/-! ### Parts are shorter than the text -/

theorem length_untilClose {opening closing : Char} {text : List Char} :
    ∀ {depth : Nat} {inside a b : List Char},
      untilClose opening closing depth inside text = some (a, b) →
        a.length + b.length < inside.length + text.length := by
  induction text with
  | nil => intro depth inside a b h; simp [untilClose] at h
  | cons c rest ih =>
    intro depth inside a b h
    rw [untilClose.eq_def] at h
    simp only at h
    split at h
    · cases depth with
      | zero => simp at h; obtain ⟨rfl, rfl⟩ := h; simp
      | succ d => have := ih h; simp at this ⊢; omega
    · split at h
      · have := ih h; simp at this ⊢; omega
      · have := ih h; simp at this ⊢; omega

theorem length_of_mem_splitTopLevel {text : List Char} :
    ∀ {depth : Nat} {current : List Char} {parts : List (List Char)},
      splitTopLevel depth current text = some parts →
        ∀ p ∈ parts, p.length ≤ current.length + text.length := by
  induction text with
  | nil =>
    intro depth current parts h p hp
    cases depth with
    | zero =>
      simp [splitTopLevel] at h
      subst h
      simp at hp
      subst hp
      simpa using Text.length_trim_le current.reverse
    | succ d => simp [splitTopLevel] at h
  | cons c rest ih =>
    intro depth current parts h p hp
    rw [splitTopLevel.eq_def] at h
    simp only at h
    split at h
    · have := ih h p hp; simp at this ⊢; omega
    · split at h
      · cases depth with
        | zero => simp at h
        | succ d => have := ih h p hp; simp at this ⊢; omega
      · split at h
        · simp only [Option.map_eq_some_iff] at h
          obtain ⟨tail, ht, rfl⟩ := h
          rcases List.mem_cons.1 hp with rfl | hp
          · have := Text.length_trim_le current.reverse; simp at this ⊢; omega
          · have := ih ht p hp; simp at this ⊢; omega
        · have := ih h p hp; simp at this ⊢; omega

theorem length_dropWord? {word : List Char} :
    ∀ {text rest : List Char}, dropWord? word text = some rest →
      rest.length + word.length = text.length := by
  induction word with
  | nil => intro text rest h; simp [dropWord?] at h; simp [h]
  | cons w word ih =>
    intro text rest h
    cases text with
    | nil => simp [dropWord?] at h
    | cons c text =>
      simp only [dropWord?] at h
      split at h
      · have := ih h; simp; omega
      · simp at h

def Form.parts : Form → List (List Char)
  | .tuple parts => parts
  | .array elem _ => [elem]
  | .mapping key value => [key, value]
  | .name => []

theorem outermost_parts_lt {text : List Char} {form : Form} (h : outermost text = .ok form) :
    ∀ p ∈ form.parts, p.length < text.length := by
  unfold outermost at h
  split at h
  · simp at h
  split at h
  · -- a tuple: the pieces lie between the brackets
    rename_i body hb
    unfold tupleBody? at hb
    split at hb
    · split at hb
      · rename_i rest inside hu
        simp at hb
        subst hb
        have hlen := length_untilClose hu
        unfold tupleForm at h
        split at h
        · simp at h
        · rename_i parts hs
          split at h
          · simp at h
          · simp at h
            subst h
            intro p hp
            have := length_of_mem_splitTopLevel hs p hp
            simp at this hlen ⊢
            omega
      · simp at hb
    · simp at hb
  · split at h
    · -- an array: the element stands before the last bracket
      rename_i reversed hr
      have hlen : text.length = reversed.length + 1 := by
        have := congrArg List.length hr
        simpa using this
      unfold arrayForm at h
      split at h
      · simp at h
      · rename_i inside before hu
        have := length_untilClose hu
        split at h
        · simp at h
        · unfold readLength at h
          simp only [Except.map] at h
          split at h
          · simp at h
          · rename_i l hl
            simp at h
            subst h
            intro p hp
            simp [Form.parts] at hp
            subst hp
            simp at this ⊢
            omega
    · split at h
      · -- a mapping: key and value stand after the opening word
        rename_i rest hm
        have hrest : rest.length < text.length := by
          unfold mappingBody? at hm
          rcases Option.or_eq_some_iff.1 hm with hm | ⟨_, hm⟩
          · have := length_dropWord? hm; simp at this; omega
          · have := length_dropWord? hm; simp at this; omega
        unfold mappingForm at h
        split at h
        · rename_i reversed hr
          have hlen : rest.length = reversed.length + 1 := by
            have := congrArg List.length hr
            simpa using this
          split at h
          · simp at h
          · rename_i key value hs
            simp at h
            subst h
            intro p hp
            have := length_of_mem_splitTopLevel hs p (by simpa [Form.parts] using hp)
            simp at this
            omega
          · simp at h
        · simp at h
      · split at h
        · simp at h
        · simp at h
          subst h
          intro p hp
          simp [Form.parts] at hp

/-! ## Names -/

/-- The digits after a word in front, if there are digits and nothing else. -/
def widthAfter? (word : String) (text : List Char) : Option (List Char) :=
  (dropWord? word.toList text).filter fun d => !d.isEmpty && d.all Text.isDecimal

def readWidth (text digits : List Char) (max step : Nat) : Outcome Nat :=
  match Text.readBelow? 10 (Nat.pow 2 32) digits with
  | Option.none => .error (.malformedType (String.ofList text) .widthNotNumber)
  | some width =>
    if width = 0 || width > max || width % step != 0 then
      .error (.invalidWidth (String.ofList text) width)
    else .ok width

def word? (name : String) : Option Ty :=
  match name with
  | "number" | "bigint" | "uint" | "u256" => some (.uint 256)
  | "int" => some (.int 256)
  | "address" | "Address" => some .address
  | "bool" | "boolean" => some .bool
  | "bytes" => some .bytes
  | "string" => some .string
  | "Function" => some .functionRef
  | _ => Option.none

def elementary (text : List Char) : Outcome (Option Ty) :=
  match word? (String.ofList text) with
  | some t => .ok (some t)
  | Option.none =>
    match (widthAfter? "uint" text).or (widthAfter? "u" text) with
    | some digits => do return some (.uint (← readWidth text digits 256 8))
    | Option.none =>
      match (widthAfter? "int" text).or (widthAfter? "i" text) with
      | some digits => do return some (.int (← readWidth text digits 256 8))
      | Option.none =>
        match widthAfter? "bytes" text with
        | some digits => do return some (.fixedBytes (← readWidth text digits 32 1))
        | Option.none => .ok Option.none

/-! ## Reading -/

/-- Reads a type, given what names stand for. -/
def parseWith (lookup : String → Outcome Ty) (cs : List Char) : Outcome Ty :=
  let text := Text.trim cs
  match _hform : outermost text with
  | .error reason => .error (.malformedType (String.ofList text) reason)
  | .ok (.tuple parts) => do
    let elems ← parts.attach.mapM fun ⟨p, _⟩ => parseWith lookup p
    return .tuple elems
  | .ok (.array elem length) => do
    let t ← parseWith lookup elem
    if t.isMapping && length.isNone then
      .error (.malformedType (String.ofList text) .arrayOfMappings)
    else return .array t length
  | .ok (.mapping key value) => do
    let k ← parseWith lookup key
    if !k.isKey then .error (.malformedType (String.ofList text) .mappingKey)
    else return .mapping k (← parseWith lookup value)
  | .ok .name => do
    match ← elementary text with
    | some t => return t
    | Option.none => lookup (String.ofList text)
termination_by cs.length
decreasing_by
  all_goals
    refine Nat.lt_of_lt_of_le (outermost_parts_lt _hform _ ?_) (Text.length_trim_le cs)
    simp_all [Form.parts]

end Ty

namespace TypeNames

/-- What a name stands for, with at most `depth` aliases inside one another. -/
def resolve (names : TypeNames) : (depth : Nat) → String → Outcome Ty
  | depth, name =>
    match names.named name with
    | some (.enum _) => .ok (.uint 8)
    | some (.struct _) => .ok (.struct name)
    | some .contract => .ok (.contract name)
    | Option.none => .error (.unresolvedReference .type name)
    | some (.alias underlying) =>
      match depth with
      | 0 => .error .endless
      | depth + 1 => do
        let t ← Ty.parseWith (resolve names depth) underlying.toList
        if t.isValue then return t else .error (.malformedType name .aliasOfReference)

end TypeNames

def Ty.parse (names : TypeNames) (text : String) : Outcome Ty :=
  Ty.parseWith (names.resolve names.aliasDepth) text.toList

end ContractYul
