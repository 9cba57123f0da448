import ContractYul.Proofs.Text.Digits
import ContractYul.Proofs.Ty.WellFormed

/-!
# Types read back from their text

The short text of a type is itself the text of a type. Tuples start with a bracket, arrays end with
one, mappings hold both parts between angle brackets, and a reader that looks for the bracket that
closes another, from the front or from the back, finds it only because the text of every part is
`Balanced`: it goes through the reader without leaving a trace in the depth that is counted.

Main statements:
* `printable_parse`: what is read from text has lengths in range and names that can be read again;
* `parse_describe`: such a type is read back from its short text, over every table of names.
-/

open List

namespace ContractYul.Ty

open Outcome Text

/-! ## Single characters -/

section Characters

theorem untilClose_cons_of_ne (hclose : c ≠ closing) (hopen : c ≠ opening) :
    untilClose opening closing depth inside (c :: rest) =
      untilClose opening closing depth (c :: inside) rest := by
  rw [untilClose.eq_def]
  simp [hclose, hopen]

theorem untilClose_cons_opening (hne : opening ≠ closing) :
    untilClose opening closing depth inside (opening :: rest) =
      untilClose opening closing (depth + 1) (opening :: inside) rest := by
  rw [untilClose.eq_def]
  simp [hne]

theorem untilClose_cons_closing :
    untilClose opening closing (depth + 1) inside (closing :: rest) =
      untilClose opening closing depth (closing :: inside) rest := by
  rw [untilClose.eq_def]
  simp

theorem untilClose_zero_closing :
    untilClose opening closing 0 inside (closing :: rest) = some (inside, rest) := by
  rw [untilClose.eq_def]
  simp

theorem splitTopLevel_cons_opening (hopen : isOpening c = true) :
    splitTopLevel depth current (c :: rest) = splitTopLevel (depth + 1) (c :: current) rest := by
  rw [splitTopLevel.eq_def]
  simp [hopen]

theorem splitTopLevel_cons_closing (hopen : isOpening c = false) (hclose : isClosing c = true) :
    splitTopLevel (depth + 1) current (c :: rest) = splitTopLevel depth (c :: current) rest := by
  rw [splitTopLevel.eq_def]
  simp [hopen, hclose]

theorem splitTopLevel_cons_of_ne (hopen : isOpening c = false) (hclose : isClosing c = false)
    (hcomma : c = ',' → 0 < depth) :
    splitTopLevel depth current (c :: rest) = splitTopLevel depth (c :: current) rest := by
  have hsplit : ¬ (c = ',' ∧ depth = 0) := fun ⟨hc, hzero⟩ => (hcomma hc).ne' hzero
  rw [splitTopLevel.eq_def]
  simp [hopen, hclose, hsplit]

theorem splitTopLevel_cons_comma :
    splitTopLevel 0 current (',' :: rest) =
      (splitTopLevel 0 [] rest).map (trim current.reverse :: ·) := by
  rw [splitTopLevel.eq_def]
  simp [isOpening, isClosing]

end Characters

/-! ## Balanced texts -/

inductive BracketPair : Char → Char → Prop
  | angle : BracketPair '<' '>'
  | square : BracketPair '[' ']'

/-- Texts whose brackets close in turn. A comma outside of brackets stands only where `commas`
allows it. -/
inductive Balanced : (commas : Bool) → List Char → Prop
  | nil {commas : Bool} : Balanced commas []
  | char {commas : Bool} {c : Char} {rest : List Char} (hopen : isOpening c = false)
      (hclose : isClosing c = false) (hcomma : c = ',' → commas = true)
      (hrest : Balanced commas rest) : Balanced commas (c :: rest)
  | group {commas : Bool} {o c : Char} {inside rest : List Char} (hpair : BracketPair o c)
      (hinside : Balanced true inside) (hrest : Balanced commas rest) :
      Balanced commas (o :: (inside ++ c :: rest))

namespace Balanced

theorem append (h : Balanced commas s) (h' : Balanced commas s') : Balanced commas (s ++ s') := by
  induction h with
  | nil => exact h'
  | char hopen hclose hcomma _ ih => exact .char hopen hclose hcomma (ih h')
  | group hpair hinside _ _ ih =>
    rw [cons_append, append_assoc]
    exact .group hpair hinside (ih h')

theorem allowCommas (h : Balanced commas s) : Balanced true s := by
  induction h with
  | nil => exact .nil
  | char hopen hclose _ _ ih => exact .char hopen hclose (fun _ => rfl) ih
  | group hpair hinside _ _ ih => exact .group hpair hinside ih

theorem of_plain (h : ∀ c ∈ s, isPunctuation c = false) : Balanced commas s := by
  induction s with
  | nil => exact .nil
  | cons c rest ih =>
    have hc : isPunctuation c = false := h c mem_cons_self
    have hrest : Balanced commas rest := ih fun d hd => h d (mem_cons_of_mem c hd)
    simp only [isPunctuation, String.reduceToList, contains_eq_mem, decide_eq_false_iff_not,
      mem_cons, not_or] at hc
    refine .char ?_ ?_ ?_ hrest
    · simp [isOpening, hc]
    · simp [isClosing, hc]
    · exact fun hcomma => absurd hcomma hc.2.2.1

/-- The search for a closing bracket runs over a balanced text. -/
theorem untilClose_append (h : Balanced commas s) (depth : Nat) (inside rest : List Char) :
    untilClose '[' ']' depth inside (s ++ rest) =
      untilClose '[' ']' depth (s.reverse ++ inside) rest := by
  induction h generalizing depth inside rest with
  | nil => rfl
  | @char _ c tail hopen hclose _ _ ih =>
    have hne : c ≠ ']' ∧ c ≠ '[' := by
      constructor <;> rintro rfl <;> simp [isOpening, isClosing] at hopen hclose
    rw [cons_append, untilClose_cons_of_ne hne.1 hne.2, ih]
    simp
  | @group _ o c middle tail hpair _ _ ihInside ihRest =>
    rw [cons_append, append_assoc, cons_append]
    cases hpair with
    | angle =>
      rw [untilClose_cons_of_ne (by decide) (by decide), ihInside,
        untilClose_cons_of_ne (by decide) (by decide), ihRest]
      simp
    | square =>
      rw [untilClose_cons_opening (by decide), ihInside, untilClose_cons_closing, ihRest]
      simp

/-- The search for an opening bracket runs over a balanced text from behind. -/
theorem untilClose_reverse_append (h : Balanced commas s) (depth : Nat) (inside rest : List Char) :
    untilClose ']' '[' depth inside (s.reverse ++ rest) =
      untilClose ']' '[' depth (s ++ inside) rest := by
  induction h generalizing depth inside rest with
  | nil => rfl
  | @char _ c tail hopen hclose _ _ ih =>
    have hne : c ≠ '[' ∧ c ≠ ']' := by
      constructor <;> rintro rfl <;> simp [isOpening, isClosing] at hopen hclose
    rw [reverse_cons, append_assoc, ih, singleton_append, untilClose_cons_of_ne hne.1 hne.2]
    rfl
  | @group _ o c middle tail hpair _ _ ihInside ihRest =>
    have hsplit : (o :: (middle ++ c :: tail)).reverse ++ rest =
        tail.reverse ++ c :: (middle.reverse ++ o :: rest) := by simp
    rw [hsplit, ihRest]
    cases hpair with
    | angle =>
      rw [untilClose_cons_of_ne (by decide) (by decide), ihInside,
        untilClose_cons_of_ne (by decide) (by decide)]
      simp
    | square =>
      rw [untilClose_cons_opening (by decide), ihInside, untilClose_cons_closing]
      simp

/-- Splitting at commas runs over a balanced text: it has none outside of brackets, or the text is
itself inside of brackets. -/
theorem splitTopLevel_append (h : Balanced commas s) (hdepth : commas = true → 0 < depth)
    (current rest : List Char) :
    splitTopLevel depth current (s ++ rest) = splitTopLevel depth (s.reverse ++ current) rest := by
  induction h generalizing depth current rest with
  | nil => rfl
  | @char _ c tail hopen hclose hcomma _ ih =>
    rw [cons_append,
      splitTopLevel_cons_of_ne hopen hclose (fun hc => hdepth (hcomma hc)), ih hdepth]
    simp
  | @group _ o c middle tail hpair _ _ ihInside ihRest =>
    have hpair' : isOpening o = true ∧ isOpening c = false ∧ isClosing c = true := by
      cases hpair <;> decide
    rw [cons_append, append_assoc, cons_append,
      splitTopLevel_cons_opening hpair'.1, ihInside (fun _ => Nat.succ_pos depth),
      splitTopLevel_cons_closing hpair'.2.1 hpair'.2.2, ihRest hdepth]
    simp

end Balanced

/-! ## Texts without blanks at the ends -/

/-- A text that is not empty and starts and ends with a character that is not blank. -/
structure Edged (s : List Char) : Prop where
  ne_nil : s ≠ []
  head : ∀ c ∈ s.head?, isBlank c = false
  last : ∀ c ∈ s.getLast?, isBlank c = false

namespace Edged

theorem trim_eq (h : Edged s) : trim s = s := by
  have hfront : ∀ {cs : List Char}, (∀ c ∈ cs.head?, isBlank c = false) →
      cs.dropWhile isBlank = cs := by
    intro cs hcs
    cases cs with
    | nil => rfl
    | cons c rest => rw [dropWhile_cons_of_neg (by simp [hcs c rfl])]
  have hback : s.reverse.dropWhile isBlank = s.reverse :=
    hfront (by simpa using h.last)
  rw [trim, trimStart, hfront h.head, trimEnd, hback, reverse_reverse]

theorem trim_append (h : Edged s) (hlead : ∀ c ∈ lead, isBlank c = true) :
    trim (lead ++ s) = s := by
  have hdrop : trimStart (lead ++ s) = trimStart s :=
    dropWhile_append_of_pos hlead
  rw [trim, hdrop]
  exact h.trim_eq

/-- Whatever stands between two such texts, the whole is one. -/
theorem surround (h : Edged s) (h' : Edged s') (middle : List Char) :
    Edged (s ++ (middle ++ s')) where
  ne_nil := by simp [h.ne_nil]
  head c hc := h.head c (by
    obtain ⟨d, rest, rfl⟩ := exists_cons_of_ne_nil h.ne_nil
    simpa using hc)
  last c hc := h'.last c (by
    rwa [getLast?_append_of_ne_nil _ (by simp [h'.ne_nil]),
      getLast?_append_of_ne_nil _ h'.ne_nil] at hc)

theorem reverse (h : Edged s) : Edged s.reverse where
  ne_nil := by simp [h.ne_nil]
  head c hc := h.last c (by rwa [head?_reverse] at hc)
  last c hc := h.head c (by rwa [getLast?_reverse] at hc)

end Edged

variable {names : TypeNames}

theorem edged_trim (hne : trim s ≠ []) : Edged (trim s) where
  ne_nil := hne
  head c hc := by
    -- trimming the end keeps the front
    obtain ⟨tail, htail⟩ : trim s <+: trimStart s := rdropWhile_prefix isBlank _
    have hstart := head?_dropWhile_not isBlank s
    have hhead : (s.dropWhile isBlank).head? = some c := by
      obtain ⟨d, rest, hd⟩ := exists_cons_of_ne_nil hne
      rw [hd] at hc htail
      rw [show s.dropWhile isBlank = d :: rest ++ tail from htail.symm]
      simpa using hc
    simpa [hhead] using hstart
  last c hc := by
    rw [trim, trimEnd, getLast?_reverse] at hc
    have hend := head?_dropWhile_not isBlank (trimStart s).reverse
    rw [Option.mem_def.1 hc] at hend
    simpa using hend

theorem trim_trim (s : List Char) : trim (trim s) = trim s := by
  by_cases hne : trim s = []
  · rw [hne]
    rfl
  · exact (edged_trim hne).trim_eq

/-! ## The outermost form of a text that is put together -/

theorem dropWord?_eq_some : dropWord? word text = some rest ↔ text = word ++ rest := by
  induction word generalizing text with
  | nil => simp [dropWord?]
  | cons w word ih =>
    cases text with
    | nil => simp [dropWord?]
    | cons c text =>
      by_cases hc : w = c
      · simp [dropWord?, hc, ih]
      · simp [dropWord?, hc, Ne.symm hc]

theorem outermost_plain (hne : s ≠ [])
    (h : ∀ c ∈ s, isPunctuation c = false) : outermost s = .ok .name := by
  have hbrackets : '[' ∉ s ∧ ']' ∉ s ∧ '<' ∉ s := by
    refine ⟨?_, ?_, ?_⟩ <;> intro hmem <;> exact absurd (h _ hmem) (by decide)
  have htuple : tupleBody? s = none := by
    unfold tupleBody?
    split
    · exact absurd mem_cons_self hbrackets.1
    · rfl
  have hmapping : mappingBody? s = none := by
    have hword : ∀ word : List Char, '<' ∈ word → dropWord? word s = none := by
      intro word hword
      cases hdrop : dropWord? word s with
      | none => rfl
      | some rest =>
        rw [dropWord?_eq_some.1 hdrop] at hbrackets
        exact absurd (mem_append_left rest hword) hbrackets.2.2
    simp [mappingBody?, hword]
  have hany : s.any isPunctuation = false := by simpa using h
  unfold outermost
  rw [if_neg (by simp [hne]), htuple]
  simp only
  split
  · rename_i reversed hreverse
    have hmem : ']' ∈ s.reverse := hreverse ▸ mem_cons_self
    exact absurd (mem_reverse.1 hmem) hbrackets.2.1
  · simp [hmapping, hany]

/-- A balanced text with something behind it is no tuple: the bracket that closes its first one, if
it starts with one, is not the last character. -/
theorem tupleBody?_append (h : Balanced commas s) (hs : s ≠ []) (hbehind : behind ≠ []) :
    tupleBody? (s ++ behind) = none := by
  cases h with
  | nil => exact absurd rfl hs
  | @char _ c rest hopen _ _ _ =>
    unfold tupleBody?
    split
    · rename_i hcons
      obtain ⟨rfl, -⟩ := cons.inj hcons
      simp [isOpening] at hopen
    · rfl
  | @group _ o c inside rest hpair hinside _ =>
    cases hpair with
    | angle => rfl
    | square =>
      rw [cons_append, append_assoc, cons_append]
      simp only [tupleBody?, hinside.untilClose_append, untilClose_zero_closing]
      split
      · rename_i hfound
        simp [hbehind] at hfound
      · rfl

theorem outermost_array {elem lengthText : List Char} {length : Option Nat}
    (helem : Balanced false elem) (hedged : Edged elem) (hlength : Balanced true lengthText)
    (hread : readLength lengthText = .ok length) :
    outermost (elem ++ '[' :: (lengthText ++ [']'])) = .ok (.array elem length) := by
  have htuple : tupleBody? (elem ++ '[' :: (lengthText ++ [']'])) = none :=
    tupleBody?_append helem hedged.ne_nil (by simp)
  have hreverse : (elem ++ '[' :: (lengthText ++ [']'])).reverse =
      ']' :: (lengthText.reverse ++ '[' :: elem.reverse) := by simp
  have htrim : (trim elem.reverse).isEmpty = false := by
    rw [hedged.reverse.trim_eq]
    simp [hedged.ne_nil]
  unfold outermost
  rw [htuple, hreverse]
  simp only [arrayForm, hlength.untilClose_reverse_append, untilClose_zero_closing,
    append_nil, htrim, hread]
  simp [Except.map]

/-- Texts that are joined by commas are split again. -/
theorem splitTopLevel_intercalate (hbalanced : ∀ p ∈ part :: parts, Balanced false p)
    (hedged : ∀ p ∈ part :: parts, Edged p) (hlead : ∀ c ∈ lead, isBlank c = true) :
    splitTopLevel 0 lead (", ".toList.intercalate (part :: parts)) = some (part :: parts) := by
  induction parts generalizing part lead with
  | nil =>
    have htrim : trim (part.reverse ++ lead).reverse = part := by
      rw [reverse_append, reverse_reverse]
      exact (hedged part mem_cons_self).trim_append (by simpa using hlead)
    have hscan : splitTopLevel 0 lead (part ++ []) = splitTopLevel 0 (part.reverse ++ lead) [] :=
      (hbalanced part mem_cons_self).splitTopLevel_append (by simp) lead []
    rw [append_nil] at hscan
    rw [intercalate_singleton, hscan, splitTopLevel, htrim]
  | cons next parts ih =>
    have htrim : trim (part.reverse ++ lead).reverse = part := by
      rw [reverse_append, reverse_reverse]
      exact (hedged part mem_cons_self).trim_append (by simpa using hlead)
    have hjoin : ", ".toList.intercalate (part :: next :: parts) =
        part ++ ',' :: ' ' :: ", ".toList.intercalate (next :: parts) := by
      simp
    have hspace : ∀ c ∈ [' '], isBlank c = true := by simp [isBlank, blankRanges]
    -- the space after a comma goes to the next part, where it is trimmed
    rw [hjoin, (hbalanced part mem_cons_self).splitTopLevel_append (by simp),
      splitTopLevel_cons_comma, htrim,
      splitTopLevel_cons_of_ne (by decide) (by decide) (fun h => absurd h (by decide)),
      ih (fun p hp => hbalanced p (mem_cons_of_mem part hp))
        (fun p hp => hedged p (mem_cons_of_mem part hp)) hspace]
    rfl

theorem outermost_mapping (hkey : Balanced false key) (hvalue : Balanced false value)
    (hkeyEdged : Edged key) (hvalueEdged : Edged value) :
    outermost ("Mapping<".toList ++ (", ".toList.intercalate [key, value] ++ ['>'])) =
      .ok (.mapping key value) := by
  have hbody : mappingBody? ("Mapping<".toList ++ (", ".toList.intercalate [key, value] ++ ['>'])) =
      some (", ".toList.intercalate [key, value] ++ ['>']) := by
    rw [mappingBody?, dropWord?_eq_some.2 rfl, Option.some_or]
  have hsplit : splitTopLevel 0 [] (", ".toList.intercalate [key, value]) = some [key, value] :=
    splitTopLevel_intercalate (by simp [hkey, hvalue]) (by simp [hkeyEdged, hvalueEdged]) (by simp)
  unfold outermost
  rw [if_neg (by simp), show tupleBody? _ = none from rfl]
  simp only
  split
  · rename_i hreverse
    simp at hreverse
  · rw [hbody]
    simp only [mappingForm, reverse_append, reverse_singleton, singleton_append,
      reverse_reverse, hsplit]

theorem balanced_intercalate (h : ∀ p ∈ parts, Balanced false p) :
    Balanced true (", ".toList.intercalate parts) := by
  induction parts with
  | nil => exact .nil
  | cons part parts ih =>
    have hpart : Balanced true part := (h part mem_cons_self).allowCommas
    cases parts with
    | nil => simpa using hpart
    | cons next parts =>
      have hjoin : ", ".toList.intercalate (part :: next :: parts) =
          part ++ ',' :: ' ' :: ", ".toList.intercalate (next :: parts) := by
        simp
      exact hpart.append (.char rfl rfl (fun _ => rfl) (.char rfl rfl (fun _ => rfl)
        (ih fun p hp => h p (mem_cons_of_mem part hp))))

theorem outermost_tuple (hne : parts ≠ []) (hbalanced : ∀ p ∈ parts, Balanced false p)
    (hedged : ∀ p ∈ parts, Edged p) :
    outermost ('[' :: (", ".toList.intercalate parts ++ [']'])) = .ok (.tuple parts) := by
  have hbody : tupleBody? ('[' :: (", ".toList.intercalate parts ++ [']'])) =
      some (", ".toList.intercalate parts) := by
    simp only [tupleBody?, (balanced_intercalate hbalanced).untilClose_append,
      untilClose_zero_closing, append_nil, reverse_reverse]
  have hsplit : splitTopLevel 0 [] (", ".toList.intercalate parts) = some parts := by
    obtain ⟨part, others, rfl⟩ := exists_cons_of_ne_nil hne
    exact splitTopLevel_intercalate hbalanced hedged (by simp)
  have hempty : parts.any (·.isEmpty) = false := by
    rw [any_eq_false]
    intro p hp
    simp [(hedged p hp).ne_nil]
  unfold outermost
  rw [hbody]
  simp only [tupleForm, hsplit, hempty]
  rfl

/-! ## Types whose text can be read -/

structure IsName (name : String) : Prop where
  trimmed : trim name.toList = name.toList
  form : outermost name.toList = .ok .name
  declared : elementary name.toList = .ok none

mutual

/-- Lengths are in range, and names are declared ones that can be read, at every node. -/
def Printable (names : TypeNames) : Ty → Prop
  | .array elem length => elem.Printable names ∧ ∀ n, length = some n → n < 2 ^ 64
  | .mapping key value => key.Printable names ∧ value.Printable names
  | .tuple elems => AllPrintable names elems
  | .struct name => IsName name ∧ ∃ fields, names.named name = some (.struct fields)
  | .contract name => IsName name ∧ names.named name = some .contract
  | _ => True

def AllPrintable (names : TypeNames) : List Ty → Prop
  | [] => True
  | t :: rest => t.Printable names ∧ AllPrintable names rest

end

theorem allPrintable_iff : AllPrintable names ts ↔ ∀ t ∈ ts, t.Printable names := by
  induction ts with
  | nil => simp [AllPrintable]
  | cons t rest ih => simp [AllPrintable, ih]

/-- Reading gives printable types, when names that can be read stand for such types. -/
theorem printable_parseWith {lookup : String → Outcome Ty}
    (hlookup : ∀ name t, IsName name → lookup name = .ok t → t.Printable names)
    (h : parseWith lookup cs = .ok t) : t.Printable names := by
  refine parseWith_induction (fun t _ hatom => ?_) (fun text t hform hnone ht => ?_)
    (fun elems _ helems => allPrintable_iff.2 helems)
    (fun t length ht hlength _ => ⟨ht, fun n hn => (hlength n hn).2⟩)
    (fun k v _ hk hv => ⟨hk, hv⟩) h
  · cases t <;> simp [isElementary, Printable] at hatom ⊢
  · refine hlookup _ t ⟨?_, ?_, ?_⟩ ht <;> rw [String.toList_ofList]
    · exact trim_trim text
    · exact hform
    · exact hnone

end ContractYul.Ty

namespace ContractYul

open Outcome

theorem TypeNames.resolve_cases {names : TypeNames} {name : String}
    (h : names.resolve depth name = .ok t) :
    t = .uint 8 ∨ (∃ fields, names.named name = some (.struct fields) ∧ t = .struct name) ∨
      (names.named name = some .contract ∧ t = .contract name) ∨
      ∃ below underlying, depth = below + 1 ∧ t.isValue = true ∧
        Ty.parseWith (names.resolve below) underlying = .ok t := by
  rw [resolve.eq_def] at h
  simp only at h
  split at h
  · exact .inl (Except.ok.inj h).symm
  · rename_i fields hfields
    exact .inr (.inl ⟨fields, hfields, (Except.ok.inj h).symm⟩)
  · rename_i hcontract
    exact .inr (.inr (.inl ⟨hcontract, (Except.ok.inj h).symm⟩))
  · simp at h
  · split at h
    · simp at h
    · rename_i below
      obtain ⟨u, hu, h⟩ := bind_eq_ok.1 h
      split at h
      · rename_i hvalue
        cases h
        exact .inr (.inr (.inr ⟨below, _, rfl, hvalue, hu⟩))
      · simp at h

theorem TypeNames.printable_resolve {names : TypeNames} {name : String} (hname : Ty.IsName name)
    (h : names.resolve depth name = .ok t) : t.Printable names := by
  induction depth using Nat.strongRecOn generalizing name t with
  | ind depth ih =>
    rcases resolve_cases h with
      rfl | ⟨fields, hfields, rfl⟩ | ⟨hcontract, rfl⟩ | ⟨below, underlying, rfl, -, hread⟩
    · simp [Ty.Printable]
    · exact ⟨hname, fields, hfields⟩
    · exact ⟨hname, hcontract⟩
    · exact Ty.printable_parseWith (fun _ _ => ih below (Nat.lt_succ_self below)) hread

namespace Ty

theorem printable_parse (h : parse names text = .ok t) : t.Printable names :=
  printable_parseWith (fun _ _ => TypeNames.printable_resolve) h

/-! ## Reading the text of a type -/

/-- A text that reads as a type, wherever it stands as a part of another. -/
structure ReadsBack (lookup : String → Outcome Ty) (s : List Char) (t : Ty) : Prop where
  balanced : Balanced false s
  edged : Edged s
  read : parseWith lookup s = .ok t

variable {lookup : String → Outcome Ty}

theorem readsBack_plain (hplain : ∀ c ∈ s, isPunctuation c = false) (hedged : Edged s)
    (h : elementary s = .ok (some t) ∨
      elementary s = .ok none ∧ lookup (String.ofList s) = .ok t) : ReadsBack lookup s t := by
  have hform : outermost (Text.trim s) = .ok .name := by
    rw [hedged.trim_eq]
    exact outermost_plain hedged.ne_nil hplain
  refine ⟨.of_plain hplain, hedged, ?_⟩
  rw [parseWith]
  split
  all_goals
    rename_i hcase
    rw [hform] at hcase
    cases hcase
  rw [hedged.trim_eq]
  rcases h with h | ⟨h, hlookup⟩
  · rw [h]
    rfl
  · rw [h, ← hlookup]
    rfl

theorem readsBack_name (name : String) (hname : IsName name) (h : lookup name = .ok t) :
    ReadsBack lookup name.toList t := by
  obtain ⟨hne, hplain⟩ := sound_outermost hname.form
  refine readsBack_plain hplain ?_ (.inr ⟨hname.declared, by rwa [String.ofList_toList]⟩)
  rw [← hname.trimmed]
  exact edged_trim (by rwa [hname.trimmed])

theorem plain_of_isDigit (h : c.isDigit = true) :
    isPunctuation c = false ∧ Text.isBlank c = false ∧ c ≠ '_' ∧ c ≠ '+' := by
  have hother : ∀ d ∈ ['<', '>', ',', '[', ']', '(', ')', ' ', '_', '+'], d.isDigit = false := by
    simp
  have hne : ∀ d ∈ ['<', '>', ',', '[', ']', '(', ')', ' ', '_', '+'], c ≠ d := by
    rintro d hd rfl
    simp [hother c hd] at h
  have hbounds : 48 ≤ c.toNat ∧ c.toNat ≤ 57 := by
    simp only [Char.isDigit, Bool.and_eq_true, decide_eq_true_eq] at h
    exact h
  refine ⟨?_, ?_, hne '_' (by simp), hne '+' (by simp)⟩
  · simp [isPunctuation, hne]
  · simp [Text.isBlank, Text.blankRanges]
    omega

theorem edged_word (hne : s ≠ []) (h : ∀ c ∈ s, Text.isBlank c = false) : Edged s :=
  ⟨hne, fun c hc => h c (mem_of_mem_head? hc), fun c hc => h c (mem_of_mem_getLast? hc)⟩

theorem edged_of_digits (hne : s ≠ []) (h : ∀ c ∈ s, c.isDigit = true) : Edged s :=
  edged_word hne fun c hc => (plain_of_isDigit (h c hc)).2.1

/-- A decimal text reads back as the length it was printed from. -/
theorem readLength_toDigits (hzero : n ≠ 0) (hn : n < 2 ^ 64)
    (hdigit : ∀ c ∈ Nat.toDigits 10 n, c.isDigit = true) :
    readLength (Nat.toDigits 10 n) = .ok (some n) := by
  have hne : Nat.toDigits 10 n ≠ [] := Nat.toDigits_ne_nil
  have hunderscores : (Nat.toDigits 10 n).filter (· != '_') = Nat.toDigits 10 n := by
    rw [filter_eq_self]
    intro c hc
    simp [(plain_of_isDigit (hdigit c hc)).2.2.1]
  have hread : Text.readBelow? 10 (Nat.pow 2 64) (Nat.toDigits 10 n) = some n := by
    unfold Text.readBelow?
    split
    · rename_i rest heq
      exact absurd rfl (plain_of_isDigit (hdigit '+' (heq ▸ mem_cons_self))).2.2.2
    · simp only
      rw [Text.digits?_of_ne_nil hne, Text.digitsFrom?_toDigits (by decide) (by decide)]
      simpa using hn
  simp only [readLength, (edged_of_digits hne hdigit).trim_eq, hunderscores, hread]
  simp

theorem ReadsBack.array {length : Option Nat} (h : ReadsBack lookup s t)
    (hlength : ∀ n, length = some n → n ≠ 0 ∧ n < 2 ^ 64)
    (hmapping : length = none → t.isMapping = false) :
    ReadsBack lookup (s ++ (arraySuffix length).toList) (.array t length) := by
  have hinside : ∃ inside, (arraySuffix length).toList = '[' :: (inside ++ [']']) ∧
      (∀ c ∈ inside, isPunctuation c = false) ∧ readLength inside = .ok length := by
    cases length with
    | none => exact ⟨[], rfl, by simp, rfl⟩
    | some n =>
      obtain ⟨hzero, hn⟩ := hlength n rfl
      have hdigit : ∀ c ∈ Nat.toDigits 10 n, c.isDigit = true := fun c hc =>
        Nat.isDigit_of_mem_toDigits (by decide) (by decide) hc
      refine ⟨Nat.toDigits 10 n, ?_, fun c hc => (plain_of_isDigit (hdigit c hc)).1,
        readLength_toDigits hzero hn hdigit⟩
      simp [arraySuffix]
  obtain ⟨inside, htext, hplain, hread⟩ := hinside
  have hform := outermost_array h.balanced h.edged (.of_plain hplain) hread
  have hedged : Edged (s ++ '[' :: (inside ++ [']'])) :=
    h.edged.surround (edged_word (by simp) (by simp; decide)) ('[' :: inside)
  rw [htext]
  refine ⟨h.balanced.append (.group .square (.of_plain hplain) .nil), hedged, ?_⟩
  rw [← hedged.trim_eq] at hform
  rw [parseWith]
  split
  all_goals
    rename_i hcase
    rw [hform] at hcase
    cases hcase
  have hcheck : t.isMapping = true → length ≠ none := fun hmap hnone => by
    simp [hmapping hnone] at hmap
  simpa [h.read] using hcheck

theorem ReadsBack.mapping (h : ReadsBack lookup s t) (h' : ReadsBack lookup s' t')
    (hkey : t.isKey = true) :
    ReadsBack lookup ("Mapping<".toList ++ (", ".toList.intercalate [s, s'] ++ ['>']))
      (.mapping t t') := by
  have hform := outermost_mapping h.balanced h'.balanced h.edged h'.edged
  have hedged : Edged ("Mapping<".toList ++ (", ".toList.intercalate [s, s'] ++ ['>'])) :=
    Edged.surround (edged_word (by simp) (by simp; decide)) (edged_word (by simp) (by simp; decide)) _
  have hbalanced : Balanced true (", ".toList.intercalate [s, s']) :=
    balanced_intercalate (by simp [h.balanced, h'.balanced])
  have hword : Balanced false "Mapping".toList := .of_plain (by simp [isPunctuation])
  refine ⟨hword.append (.group .angle hbalanced .nil), hedged, ?_⟩
  rw [← hedged.trim_eq] at hform
  rw [parseWith]
  split
  all_goals
    rename_i hcase
    rw [hform] at hcase
    cases hcase
  simp [h.read, h'.read, hkey]

theorem ReadsBack.tuple (hne : elems ≠ []) (h : ∀ t ∈ elems, ReadsBack lookup (text t) t) :
    ReadsBack lookup ('[' :: (", ".toList.intercalate (elems.map text) ++ [']'])) (.tuple elems) := by
  have hbalanced : ∀ p ∈ elems.map text, Balanced false p :=
    forall_mem_map.2 fun t ht => (h t ht).balanced
  have hedges : ∀ p ∈ elems.map text, Edged p := forall_mem_map.2 fun t ht => (h t ht).edged
  have hform := outermost_tuple (by simpa using hne) hbalanced hedges
  have hedged : Edged ('[' :: (", ".toList.intercalate (elems.map text) ++ [']'])) :=
    Edged.surround (s := ['[']) (edged_word (by simp) (by simp; decide))
      (edged_word (by simp) (by simp; decide)) _
  have hread : (elems.map text).attach.mapM (fun p => parseWith lookup p.1) = .ok elems := by
    rw [mapM_eq_ok,
      ← forall₂_map_left_iff (R := fun p t => parseWith lookup p = .ok t),
      attach_map_subtype_val, forall₂_map_left_iff, forall₂_same]
    exact fun t ht => (h t ht).read
  refine ⟨.group .square (balanced_intercalate hbalanced) .nil, hedged, ?_⟩
  rw [← hedged.trim_eq] at hform
  rw [parseWith]
  split
  all_goals
    rename_i hcase
    rw [hform] at hcase
    cases hcase
  rw [hread]
  rfl

theorem readsBack_numbered {n : Nat} (hword : Edged word.toList)
    (hplain : ∀ c ∈ word.toList, isPunctuation c = false)
    (h : elementary (word ++ toString n).toList = .ok (some t)) :
    ReadsBack lookup (word ++ toString n).toList t := by
  have hdigit : ∀ c ∈ Nat.toDigits 10 n, c.isDigit = true := fun c hc =>
    Nat.isDigit_of_mem_toDigits (by decide) (by decide) hc
  have htext : (word ++ toString n).toList = word.toList ++ ([] ++ Nat.toDigits 10 n) := by
    simp
  refine readsBack_plain ?_ ?_ (.inl h)
  · intro c hc
    rw [htext, mem_append] at hc
    rcases hc with hc | hc
    · exact hplain c hc
    · exact (plain_of_isDigit (hdigit c hc)).1
  · rw [htext]
    exact hword.surround (edged_of_digits Nat.toDigits_ne_nil hdigit) []

/-- The integers and the byte strings of fixed length are few, and each is read from its word. -/
theorem elementary_numbered (hpos : 0 < k) (hk : k ≤ 32) :
    elementary ("u" ++ toString (8 * k)).toList = .ok (some (.uint (8 * k))) ∧
    elementary ("i" ++ toString (8 * k)).toList = .ok (some (.int (8 * k))) ∧
    elementary ("bytes" ++ toString k).toList = .ok (some (.fixedBytes k)) := by
  have hall : ∀ k ∈ range' 1 32,
      (elementary ("u" ++ toString (8 * k)).toList).toOption = some (some (.uint (8 * k))) ∧
      (elementary ("i" ++ toString (8 * k)).toList).toOption = some (some (.int (8 * k))) ∧
      (elementary ("bytes" ++ toString k).toList).toOption = some (some (.fixedBytes k)) := by
    decide +kernel
  obtain ⟨hu, hi, hbytes⟩ := hall k (by rw [mem_range'_1]; omega)
  exact ⟨eq_ok_of_toOption hu, eq_ok_of_toOption hi, eq_ok_of_toOption hbytes⟩

theorem describeAll_eq_map (ts : List Ty) : describeAll ts = ts.map describe := by
  induction ts with
  | nil => rfl
  | cons t rest ih => rw [describeAll, ih, map_cons]

mutual

theorem readsBack_describe {depth : Nat} :
    ∀ {t : Ty}, t.WellFormed → t.Printable names →
      ReadsBack (names.resolve depth) t.describe.toList t
  | .uint bits, hwf, _ => by
    obtain ⟨hpos, hle, hmod⟩ := hwf
    obtain ⟨k, rfl⟩ := Nat.dvd_of_mod_eq_zero hmod
    exact readsBack_numbered (edged_word (by simp) (by simp; decide)) (by simp [isPunctuation])
      (elementary_numbered (by omega) (by omega)).1
  | .int bits, hwf, _ => by
    obtain ⟨hpos, hle, hmod⟩ := hwf
    obtain ⟨k, rfl⟩ := Nat.dvd_of_mod_eq_zero hmod
    exact readsBack_numbered (edged_word (by simp) (by simp; decide)) (by simp [isPunctuation])
      (elementary_numbered (by omega) (by omega)).2.1
  | .fixedBytes n, hwf, _ =>
    readsBack_numbered (edged_word (by simp) (by simp; decide)) (by simp [isPunctuation])
      (elementary_numbered hwf.1 hwf.2).2.2
  | .address, _, _ | .bool, _, _ | .bytes, _, _ | .string, _, _ | .functionRef, _, _ =>
    readsBack_plain (by simp [isPunctuation, describe])
      (edged_word (by simp [describe]) (by simp [describe]; decide)) (.inl rfl)
  | .array elem length, hwf, hprint => by
    have helem : ReadsBack (names.resolve depth) elem.describe.toList elem :=
      readsBack_describe hwf.1 hprint.1
    have htext : (Ty.array elem length).describe.toList =
        elem.describe.toList ++ (arraySuffix length).toList := by
      cases length <;> simp [describe, arraySuffix]
    rw [htext]
    refine helem.array (fun n hn => ⟨?_, hprint.2 n hn⟩) hwf.2.2
    rintro rfl
    exact hwf.2.1 hn
  | .mapping key value, hwf, hprint => by
    have hkey : ReadsBack (names.resolve depth) key.describe.toList key :=
      readsBack_describe hwf.2.1 hprint.1
    have hvalue : ReadsBack (names.resolve depth) value.describe.toList value :=
      readsBack_describe hwf.2.2 hprint.2
    have htext : (Ty.mapping key value).describe.toList = "Mapping<".toList ++
        (", ".toList.intercalate [key.describe.toList, value.describe.toList] ++ ['>']) := by
      simp [describe, intercalate]
    rw [htext]
    exact hkey.mapping hvalue hwf.1
  | .tuple elems, hwf, hprint => by
    have htext : (Ty.tuple elems).describe.toList = '[' ::
        (", ".toList.intercalate (elems.map fun t => t.describe.toList) ++ [']']) := by
      simp [describe, describeAll_eq_map, String.toList_intercalate, Function.comp_def]
    rw [htext]
    exact .tuple hwf.1 (readsBack_describeAll hwf.2 hprint)
  | .struct name, _, hprint => by
    obtain ⟨hname, fields, hfields⟩ := hprint
    exact readsBack_name name hname (by rw [TypeNames.resolve, hfields])
  | .contract name, _, hprint => by
    obtain ⟨hname, hcontract⟩ := hprint
    exact readsBack_name name hname (by rw [TypeNames.resolve, hcontract])

theorem readsBack_describeAll :
    ∀ {ts : List Ty}, AllWellFormed ts → AllPrintable names ts →
      ∀ t ∈ ts, ReadsBack (names.resolve depth) t.describe.toList t
  | [], _, _ => by simp
  | t :: rest, hwf, hprint => by
    have ht : ReadsBack (names.resolve depth) t.describe.toList t :=
      readsBack_describe hwf.1 hprint.1
    exact forall_mem_cons.2 ⟨ht, readsBack_describeAll hwf.2 hprint.2⟩

end

theorem parse_describe (h : parse names text = .ok t) : parse names t.describe = .ok t :=
  (readsBack_describe (wellFormed_parse h) (printable_parse h)).read

end Ty

end ContractYul
