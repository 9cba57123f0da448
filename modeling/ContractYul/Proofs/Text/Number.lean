import ContractYul.Proofs.Text.Digits
import ContractYul.Text.Number

/-!
# Values of integer literals

`Denotes` says which number a literal stands for, by the positions of its digits: a row of decimal
digits, of hexadecimal ones behind `0x`, or a row with a point and an exponent. Reading a literal moves
digits across the point, drops zeros and adds others; none of this changes the number. An exponent is
read up to a limit of its own, also where the digits behind the point make up for it.

Main statements:
* `normalizeNumber?_exact`: the canonical text of a literal stands for the same number, and is its own
  canonical text;
* `isSome_normalizeNumber?_iff`: which literals are read.

Both rest on what the rows of digits stand for: `decimalText?_eq_some_iff` and `hexText?_eq_some_iff` say
that cutting, comparing and lowering the characters of a row writes its number anew.
-/

open List

namespace ContractYul.Text

variable {base n k z : Nat} {cs ds : List Char}

/-- A row of digits in a base, of either case, stands for a number. -/
def Numeral (base : Nat) (cs : List Char) (n : Nat) : Prop :=
  cs ≠ [] ∧ ∃ ds, Digits base cs ds ∧ n = Nat.ofDigits base ds.reverse

/-- Without a fraction there is no point. -/
def Scientific.text (s : Scientific) (e : Char) : List Char :=
  s.whole ++ (if s.fraction = [] then [] else '.' :: s.fraction) ++ e :: s.exponent

/-- The number `n` that a literal with the exponent `k` stands for. -/
inductive Denotes : List Char → Nat → Nat → Prop where
  | decimal {cs : List Char} {n : Nat} (h : Numeral 10 cs n) : Denotes cs 0 n
  | hexadecimal {x : Char} {cs : List Char} {n : Nat} (hx : x = 'x' ∨ x = 'X')
      (h : Numeral 16 cs n) : Denotes ('0' :: x :: cs) 0 n
  | scientific {s : Scientific} {e : Char} {m k n : Nat} (hwhole : s.whole ≠ [])
      (h : Numeral 10 (s.whole ++ s.fraction) m) (he : e = 'e' ∨ e = 'E')
      (hexponent : Numeral 10 s.exponent k) (hn : n * 10 ^ s.fraction.length = m * 10 ^ k) :
      Denotes (s.text e) k n

/-- A text without underscores and without an `n` at its end. -/
def Strips (text : String) (cs : List Char) : Prop :=
  text.toList.filter (· != '_') = cs ++ ['n'] ∨
    text.toList.filter (· != '_') = cs ∧ cs.getLast? ≠ some 'n'

/-- Digits without zeros in front, but for zero itself, in lower case, hexadecimal ones behind `0x`. -/
def Canonical (cs : List Char) : Prop :=
  ∃ ds : List Nat, ds ≠ [] ∧ (ds.head? = some 0 → ds = [0]) ∧
    ((∀ d ∈ ds, d < 10) ∧ cs = ds.map Nat.digitChar ∨
      (∀ d ∈ ds, d < 16) ∧ cs = '0' :: 'x' :: ds.map Nat.digitChar)

/-! ## Rows of digits -/

theorem digits?_eq_some_iff (hbase : base ≤ 16) : digits? base cs = some n ↔ Numeral base cs n := by
  by_cases hne : cs = []
  · simp [hne, digits?, Numeral]
  · rw [digits?_of_ne_nil hne, digitsFrom?_eq_some_iff hbase]
    simp [Numeral, hne, Nat.ofDigits_append]

theorem numeral_toDigits (hbase : 1 < base) (hsixteen : base ≤ 16) (n : Nat) :
    Numeral base (Nat.toDigits base n) n :=
  (digits?_eq_some_iff hsixteen).1 ((digits?_of_ne_nil Nat.toDigits_ne_nil).trans
    (digitsFrom?_toDigits hbase hsixteen n))

theorem Numeral.mem (h : Numeral base cs n) {c : Char} (hc : c ∈ cs) :
    ∃ d < base, c.toLower = d.digitChar := by
  obtain ⟨-, ds, hds, -⟩ := h
  obtain ⟨i, hi, rfl⟩ := getElem_of_mem hc
  exact ⟨_, hds.get hi (hds.length_eq ▸ hi)⟩

theorem Numeral.notMem (hbase : base ≤ 16) (h : Numeral base cs n) {c : Char}
    (hc : c ∈ ['_', 'n', 'x', 'X']) : c ∉ cs := by
  have hchars : ∀ d < 16, d.digitChar ∉ ['_', 'n', 'x'] := by decide
  intro hmem
  obtain ⟨d, hd, hlower⟩ := h.mem hmem
  refine hchars d (hd.trans_le hbase) (hlower ▸ ?_)
  simp only [mem_cons, not_mem_nil, or_false] at hc
  rcases hc with rfl | rfl | rfl | rfl <;> decide

theorem Numeral.unique {m : Nat} (h : Numeral base cs n) (hbase : base ≤ 16) (h' : Numeral base cs m) :
    n = m :=
  Option.some.inj (((digits?_eq_some_iff hbase).2 h).symm.trans ((digits?_eq_some_iff hbase).2 h'))

/-- The rows that stand for a number are those of digits. -/
theorem exists_numeral_iff (hbase : base ≤ 16) :
    (∃ n, Numeral base cs n) ↔ cs ≠ [] ∧ ∀ c ∈ cs, (digit? base c).isSome := by
  constructor
  · rintro ⟨n, hn⟩
    refine ⟨hn.1, fun c hc => ?_⟩
    obtain ⟨d, hd⟩ := hn.mem hc
    exact Option.isSome_iff_exists.2 ⟨d, (digit?_eq_some_iff hbase).2 hd⟩
  · rintro ⟨hne, h⟩
    have hread : ∀ acc, (digitsFrom? base acc cs).isSome := by
      clear hne
      induction cs with
      | nil => exact fun _ => rfl
      | cons c cs ih =>
        intro acc
        obtain ⟨d, hd⟩ := Option.isSome_iff_exists.1 (h c mem_cons_self)
        simpa [digitsFrom?, hd] using ih (fun c hc => h c (mem_cons_of_mem _ hc)) _
    obtain ⟨n, hn⟩ := Option.isSome_iff_exists.1 (hread 0)
    exact ⟨n, (digits?_eq_some_iff hbase).1 ((digits?_of_ne_nil hne).trans hn)⟩

theorem Numeral.isDecimal (h : Numeral 10 cs n) : ∀ c ∈ cs, isDecimal c := fun c hc =>
  isDecimal_iff.2 (((exists_numeral_iff (by decide)).1 ⟨n, h⟩).2 c hc)

theorem exists_numeral_of_isDecimal (hne : cs ≠ []) (h : ∀ c ∈ cs, Text.isDecimal c) :
    ∃ n, Numeral 10 cs n :=
  (exists_numeral_iff (by decide)).2 ⟨hne, fun c hc => isDecimal_iff.1 (h c hc)⟩

theorem Numeral.digitsFrom? (hbase : base ≤ 16) (h : Numeral base cs n) :
    Text.digitsFrom? base 0 cs = some n :=
  (digits?_of_ne_nil h.1).symm.trans ((digits?_eq_some_iff hbase).2 h)

/-! ## Parts of a literal -/

namespace Scientific

variable {s : Scientific}

structure Formed (s : Scientific) : Prop where
  whole : s.whole ≠ []
  exponent : s.exponent ≠ []
  decimal : ∀ c ∈ s.whole ++ s.fraction ++ s.exponent, isDecimal c

theorem exponent?_eq_some_iff : exponent? cs = some ds ↔
    ds ≠ [] ∧ (∀ c ∈ ds, isDecimal c) ∧ ∃ e, (e = 'e' ∨ e = 'E') ∧ cs = e :: ds := by
  cases cs with
  | nil => simp [exponent?]
  | cons c cs => simp [exponent?]; grind

theorem span_isDecimal {xs rest : List Char} {c : Char} (hxs : ∀ c ∈ xs, isDecimal c)
    (hc : isDecimal c = false) : (xs ++ c :: rest).takeWhile isDecimal = xs ∧
      (xs ++ c :: rest).dropWhile isDecimal = c :: rest := by
  simp [takeWhile_append_of_pos hxs, dropWhile_append_of_pos hxs, hc]

theorem read?_text (hs : s.Formed) {e : Char} (he : e = 'e' ∨ e = 'E') : read? (s.text e) = some s := by
  have hdecimal := hs.decimal
  simp only [mem_append, or_imp, forall_and] at hdecimal
  obtain ⟨⟨hwhole, hfraction⟩, hdigits⟩ := hdecimal
  have hexponent : exponent? (e :: s.exponent) = some s.exponent :=
    exponent?_eq_some_iff.2 ⟨hs.exponent, hdigits, e, he, rfl⟩
  have hmark : isDecimal e = false ∧ e ≠ '.' := by rcases he with rfl | rfl <;> decide
  have hread : ∀ rest c, isDecimal c = false →
      fraction? (c :: rest) = some (s.fraction, e :: s.exponent) →
      read? (s.whole ++ c :: rest) = some s := by
    intro rest c hc h
    simp [read?, span_isDecimal hwhole hc, hs.whole, h, hexponent]
  unfold text
  by_cases hempty : s.fraction = []
  · rw [if_pos hempty, append_nil]
    exact hread _ e hmark.1 (by simp [fraction?, hempty, hmark.2])
  · rw [if_neg hempty, append_assoc]
    refine hread _ '.' (by decide) ?_
    simp [fraction?, span_isDecimal hfraction hmark.1, hempty]

theorem formed_of_read? (h : read? cs = some s) :
    s.Formed ∧ ∃ e, (e = 'e' ∨ e = 'E') ∧ cs = s.text e := by
  have htaken : ∀ xs : List Char, ∀ c ∈ xs.takeWhile isDecimal, isDecimal c :=
    fun _ _ hc => mem_takeWhile_imp hc
  unfold read? at h
  dsimp only at h
  split at h
  · cases h
  · rename_i hwhole
    obtain ⟨⟨fraction, rest⟩, hfraction, h⟩ := Option.bind_eq_some_iff.1 h
    obtain ⟨exponent, hexponent, h⟩ := Option.bind_eq_some_iff.1 h
    obtain rfl := Option.some.inj h
    obtain ⟨hne, hdigits, e, he, rfl⟩ := exponent?_eq_some_iff.1 hexponent
    have hparts : (∀ c ∈ fraction, isDecimal c) ∧ cs.dropWhile isDecimal =
        (if fraction = [] then [] else '.' :: fraction) ++ e :: exponent := by
      unfold fraction? at hfraction
      split at hfraction <;> grind [takeWhile_append_dropWhile]
    refine ⟨⟨by simpa using hwhole, hne, ?_⟩, e, he, ?_⟩
    · simp only [mem_append, or_imp, forall_and]
      exact ⟨⟨htaken cs, hparts.1⟩, hdigits⟩
    · rw [text, append_assoc, ← hparts.2, takeWhile_append_dropWhile]

theorem readBelow?_exponent (hs : s.Formed) (bound : Nat) :
    readBelow? 10 bound s.exponent = some k ↔ Numeral 10 s.exponent k ∧ k < bound := by
  have hplain : readBelow? 10 bound s.exponent = (digits? 10 s.exponent).filter (· < bound) := by
    unfold readBelow?
    split
    · rename_i rest hplus
      exact absurd (hs.decimal '+' (by simp [hplus])) (by decide)
    · rfl
  rw [hplain, Option.filter_eq_some_iff, digits?_eq_some_iff (by decide), decide_eq_true_iff]

/-- A fraction is its digits without zeros at the end, followed by zeros. -/
theorem exists_kept (s : Scientific) : ∃ z,
    s.fraction = (dropZeros s.fraction.reverse).reverse ++ replicate z '0' := by
  refine ⟨(s.fraction.reverse.takeWhile (· == '0')).length, ?_⟩
  have hzeros : s.fraction.reverse.takeWhile (· == '0') = replicate _ '0' :=
    eq_replicate_iff.2 ⟨rfl, fun c hc => by simpa using mem_takeWhile_imp hc⟩
  rw [← reverse_replicate, ← hzeros, ← reverse_append, dropZeros, takeWhile_append_dropWhile,
    reverse_reverse]

theorem Formed.decimal_kept (hs : s.Formed) :
    ∀ c ∈ s.whole ++ (dropZeros s.fraction.reverse).reverse, isDecimal c := by
  intro c hc
  obtain ⟨z, hz⟩ := s.exists_kept
  refine hs.decimal c (mem_append_left _ ?_)
  rw [hz, ← append_assoc]
  exact mem_append_left _ hc

/-- Digits that are kept behind the point make no multiple of ten. -/
theorem not_ten_dvd {cs : List Char} (h : digits? 10 (s.whole ++ (dropZeros cs).reverse) = some n)
    (hne : dropZeros cs ≠ []) : ¬ 10 ∣ n := by
  obtain ⟨c, rest, hkept⟩ := exists_cons_of_ne_nil hne
  have hlast : c ≠ '0' := by
    have hhead := head?_dropWhile_not (· == '0') cs
    rw [dropZeros] at hkept
    simpa [hkept] using hhead
  rw [hkept, reverse_cons, ← append_assoc, digits?_of_ne_nil (by simp), digitsFrom?_append] at h
  obtain ⟨a, -, h⟩ := Option.bind_eq_some_iff.1 h
  obtain ⟨d, hd, h⟩ := Option.bind_eq_some_iff.1 h
  obtain rfl := Option.some.inj h
  have hlt := ((digit?_eq_some_iff (by decide)).1 hd).1
  rintro ⟨q, hq⟩
  obtain rfl : d = 0 := by omega
  exact hlast (eq_zero_of_digit? hd)

/-- The number of the digits that are written out. -/
def value? (s : Scientific) : Option Nat :=
  s.expand?.bind (digits? 10)

theorem value?_eq {a : Nat}
    (ha : digits? 10 (s.whole ++ (dropZeros s.fraction.reverse).reverse) = some a)
    (hwhole : s.whole ≠ []) : s.value? = (readBelow? 10 (2 ^ 64) s.exponent).bind fun k =>
      if (dropZeros s.fraction.reverse).length > k then none else if a = 0 then some 0
      else if k > 78 then none else some (a * 10 ^ (k - (dropZeros s.fraction.reverse).length)) := by
  set kept := dropZeros s.fraction.reverse with hkept
  have hmax : maxWord.length = 78 := rfl
  have hzero : ((dropZeros s.whole).isEmpty && kept.reverse.isEmpty) = true ↔ a = 0 := by
    by_cases hnil : kept = []
    · rw [hnil, reverse_nil, append_nil, digits?_of_ne_nil hwhole] at ha
      have hdigits := lower_dropZeros (by decide) (by decide) ha
      have hiff : dropZeros s.whole = [] ↔ a = 0 := by
        rw [← map_eq_nil_iff, hdigits, ite_eq_left_iff]
        simp [Nat.toDigits_ne_nil]
      simp [hnil, hiff]
    · have hne : a ≠ 0 := fun h => not_ten_dvd ha hnil (h ▸ dvd_zero 10)
      simp [hnil, hne]
  have hdigits : ∀ j, digits? 10 (s.whole ++ kept.reverse ++ replicate j '0') = some (a * 10 ^ j) := by
    intro j
    rw [digits?_of_ne_nil (by simp [hwhole]), digitsFrom?_append,
      ← digits?_of_ne_nil (by simp [hwhole]), ha, Option.bind_some, digitsFrom?_zeros (by decide)]
  unfold value? expand?
  rw [← hkept, hmax]
  simp only [hzero, length_reverse, Option.bind_eq_bind, Option.bind_assoc]
  congr 1
  funext k
  split
  · rfl
  split
  · rfl
  split
  · rfl
  · exact hdigits _

/-- The digits that are left of a fraction stand for the same number when the zeros are put back. -/
theorem value?_eq_some_iff (hs : s.Formed) : s.value? = some n ↔
    ∃ m k, Numeral 10 (s.whole ++ s.fraction) m ∧ Numeral 10 s.exponent k ∧
      n * 10 ^ s.fraction.length = m * 10 ^ k ∧ k < 2 ^ 64 ∧ (n = 0 ∨ k ≤ 78) := by
  obtain ⟨z, hz⟩ := s.exists_kept
  obtain ⟨a, hnumeral⟩ := exists_numeral_of_isDecimal (by simp [hs.whole]) hs.decimal_kept
  have ha := (digits?_eq_some_iff (by decide)).2 hnumeral
  have hmantissa : ∀ m, Numeral 10 (s.whole ++ s.fraction) m ↔ a * 10 ^ z = m := by
    intro m
    rw [← digits?_eq_some_iff (by decide), hz, ← append_assoc, digits?_of_ne_nil (by simp [hs.whole]),
      digitsFrom?_append, ← digits?_of_ne_nil (by simp [hs.whole]), ha, Option.bind_some,
      digitsFrom?_zeros (by decide), Option.some.injEq]
  have hlength : s.fraction.length = (dropZeros s.fraction.reverse).length + z := by
    conv_lhs => rw [hz]
    simp
  have hcancel : ∀ k, n * 10 ^ s.fraction.length = a * 10 ^ z * 10 ^ k ↔
      n * 10 ^ (dropZeros s.fraction.reverse).length = a * 10 ^ k := by
    intro k
    rw [hlength, pow_add, ← mul_assoc, mul_right_comm a, Nat.mul_left_inj (by positivity)]
  simp only [value?_eq ha hs.whole, Option.bind_eq_some_iff, readBelow?_exponent hs, hmantissa,
    exists_and_left, exists_eq_left', hcancel, and_assoc]
  refine exists_congr fun k => and_congr_right fun _ => ?_
  set kept := dropZeros s.fraction.reverse with hkept
  rw [and_left_comm]
  refine and_congr_right fun _ => ?_
  constructor
  · intro h
    split at h
    · cases h
    split at h
    · rename_i hzero
      obtain rfl := Option.some.inj h
      simp [hzero]
    split at h
    · cases h
    · rename_i hle _ hsmall
      obtain rfl := Option.some.inj h
      refine ⟨?_, .inr (Nat.le_of_not_lt hsmall)⟩
      obtain ⟨j, rfl⟩ := Nat.exists_eq_add_of_le (Nat.le_of_not_lt hle)
      rw [Nat.add_sub_cancel_left, pow_add, mul_assoc]
      exact congrArg _ (mul_comm _ _)
  · rintro ⟨hn, hsmall⟩
    have hle : kept.length ≤ k := by
      by_contra hlt
      obtain ⟨j, hj⟩ := Nat.exists_eq_add_of_lt (Nat.lt_of_not_le hlt)
      have hne : kept ≠ [] := by
        rintro hnil
        simp [hnil] at hlt
      rw [hj, pow_succ, pow_add, mul_comm (10 ^ k), ← mul_assoc, mul_right_comm,
        ← mul_assoc, Nat.mul_left_inj (by positivity)] at hn
      exact not_ten_dvd ha hne ⟨n * 10 ^ j, by rw [← hn]; ring⟩
    obtain ⟨j, rfl⟩ := Nat.exists_eq_add_of_le hle
    obtain rfl : n = a * 10 ^ j := by
      rwa [pow_add, mul_comm (10 ^ _), ← mul_assoc, Nat.mul_left_inj (by positivity)] at hn
    rw [if_neg (Nat.not_lt.2 hle), Nat.add_sub_cancel_left]
    split
    · rename_i hzero
      simp [hzero]
    · rename_i hzero
      exact if_neg (Nat.not_lt.2 (hsmall.resolve_left (by simp [hzero])))

theorem formed_of_numerals {m : Nat} (hwhole : s.whole ≠ []) (h : Numeral 10 (s.whole ++ s.fraction) m)
    (hexponent : Numeral 10 s.exponent k) : s.Formed :=
  ⟨hwhole, hexponent.1, forall_mem_append.2 ⟨h.isDecimal, hexponent.isDecimal⟩⟩

theorem Formed.notMem_text (hs : s.Formed) (he : e = 'e' ∨ e = 'E') {c : Char}
    (hc : isDecimal c = false ∧ c ∉ ['.', 'e', 'E']) : c ∉ s.text e := by
  intro hmem
  have hdecimal := hs.decimal c
  unfold text at hmem
  split at hmem <;> grind

theorem Formed.exists_numeral (hs : s.Formed) (h : s.expand? = some ds) : ∃ n, Numeral 10 ds n := by
  obtain ⟨k, -, h⟩ := Option.bind_eq_some_iff.1 h
  dsimp only at h
  split at h
  · cases h
  split at h
  · obtain rfl := Option.some.inj h
    exact ⟨0, (digits?_eq_some_iff (by decide)).1 (by decide)⟩
  split at h
  · cases h
  · obtain rfl := Option.some.inj h
    refine exists_numeral_of_isDecimal (by simp [hs.whole]) (forall_mem_append.2 ⟨hs.decimal_kept, ?_⟩)
    exact fun c hc => eq_of_mem_replicate hc ▸ by decide

end Scientific

/-! ## Literals -/

theorem decimalDigits?_numeral (h : Numeral 10 cs n) : decimalDigits? cs = some cs := by
  unfold decimalDigits?
  split
  · rename_i s hread
    obtain ⟨-, e, he, rfl⟩ := Scientific.formed_of_read? hread
    have hmark := h.isDecimal e (by simp [Scientific.text])
    rcases he with rfl | rfl <;> cases hmark
  · simpa [h.1] using h.isDecimal

theorem exists_numeral_of_decimalDigits? (h : decimalDigits? cs = some ds) : ∃ n, Numeral 10 ds n := by
  unfold decimalDigits? at h
  split at h
  · rename_i s hread
    exact (Scientific.formed_of_read? hread).1.exists_numeral h
  · split at h
    · rename_i hdecimal
      obtain rfl := Option.some.inj h
      simp only [Bool.and_eq_true, Bool.not_eq_true', isEmpty_eq_false_iff, all_eq_true] at hdecimal
      exact exists_numeral_of_isDecimal hdecimal.1 hdecimal.2
    · cases h

theorem textOf_dropZeros (hbase : 1 < base) (hsixteen : base ≤ 16) (h : Numeral base cs n) :
    textOf ((dropZeros cs).map Char.toLower) = String.ofList (Nat.toDigits base n) := by
  rw [lower_dropZeros hbase hsixteen (h.digitsFrom? hsixteen), textOf]
  split_ifs <;> simp_all

theorem length_dropZeros_le_iff (hbase : 1 < base) (hsixteen : base ≤ 16) (h : Numeral base cs n)
    (hk : 0 < k) : (dropZeros cs).length ≤ k ↔ n < base ^ k := by
  rw [← length_map (f := Char.toLower), lower_dropZeros hbase hsixteen (h.digitsFrom? hsixteen)]
  split
  · rename_i hzero
    simpa [hzero] using Nat.pow_pos (by omega)
  · exact Nat.length_toDigits_le_iff hbase hk

theorem lower_decimal (h : ∀ c ∈ cs, isDecimal c) : cs.map Char.toLower = cs := by
  have hlower : ∀ c ∈ cs, c.toLower = id c := by
    intro c hc
    have hdecimal : '0' ≤ c ∧ c ≤ '9' := by simpa [isDecimal] using h c hc
    exact dif_neg fun hupper => absurd (UInt32.le_trans hupper.1 hdecimal.2) (by decide)
  rw [map_congr_left hlower, map_id]

/-- Digits pass the comparison with those of the greatest word when their number is a word. -/
theorem compared_iff (h : Numeral 10 cs n) : ((dropZeros cs).length > maxWord.length ||
      ((dropZeros cs).length == maxWord.length && maxWord < dropZeros cs)) = true ↔ 2 ^ 256 ≤ n := by
  have hread := h.digitsFrom? (by decide)
  rw [← digitsFrom?_dropZeros (by decide)] at hread
  have hmax : maxWord.length = 78 ∧ digitsFrom? 10 0 maxWord = some (2 ^ 256 - 1) := by decide +kernel
  have hupper := length_dropZeros_le_iff (k := 78) (by decide) (by decide) h (by decide)
  have hlower := length_dropZeros_le_iff (k := 77) (by decide) (by decide) h (by decide)
  simp only [hmax.1, Bool.or_eq_true, Bool.and_eq_true, decide_eq_true_eq, beq_iff_eq]
  by_cases hlength : (dropZeros cs).length = 78
  · have hcompare := digitsFrom?_lt_iff (hmax.1.trans hlength.symm) hmax.2 hread
    have hlt : maxWord < dropZeros cs ↔ 2 ^ 256 - 1 < n :=
      ⟨fun hless => hcompare.2 (.inr ⟨rfl, hless⟩),
        fun hn => ((hcompare.1 hn).resolve_left (by simp)).2⟩
    rw [hlt]
    omega
  · omega

theorem decimalText?_eq_some_iff {s : String} : decimalText? cs = some s ↔
    ∃ n < 2 ^ 256, (decimalDigits? cs).bind (digits? 10) = some n ∧ s = toString n := by
  unfold decimalText?
  cases hdigits : decimalDigits? cs with
  | none => simp
  | some ds =>
    obtain ⟨n, hn⟩ := exists_numeral_of_decimalDigits? hdigits
    have hlower : (dropZeros ds).map Char.toLower = dropZeros ds :=
      lower_decimal fun c hc => hn.isDecimal c ((dropWhile_suffix _).subset hc)
    have htext : textOf (dropZeros ds) = toString n := by
      rw [← hlower, textOf_dropZeros (by decide) (by decide) hn]
      rfl
    simp only [Option.bind_eq_bind, Option.bind_some, (digits?_eq_some_iff (by decide)).2 hn,
      compared_iff hn, htext, Option.some.injEq]
    constructor
    · intro h
      split at h
      · cases h
      · exact ⟨n, Nat.lt_of_not_le ‹_›, rfl, (Option.some.inj h).symm⟩
    · rintro ⟨_, hlt, rfl, rfl⟩
      rw [if_neg (Nat.not_le.2 hlt)]

theorem isHex_iff {c : Char} : isHex c ↔ (digit? 16 c).isSome := by
  have hlt : ∀ d ∈ hexDigit? c, d < 16 := by
    intro d hd
    have hrange : ∀ {x y : Char}, x ≤ c ∧ c ≤ y → x.toNat ≤ c.toNat ∧ c.toNat ≤ y.toNat := id
    unfold hexDigit? at hd
    grind
  unfold isHex digit?
  cases hread : hexDigit? c with
  | none => simp
  | some d => simpa using hlt d hread

theorem hexText?_eq_some_iff {s : String} : hexText? cs = some s ↔
    ∃ n < 2 ^ 256, Numeral 16 cs n ∧ s = "0x" ++ hexPadded 0 n := by
  have hform : (cs.isEmpty || !cs.all isHex) = false ↔ ∃ n, Numeral 16 cs n := by
    rw [exists_numeral_iff (by decide)]
    simp [isHex_iff]
  have hword : (16 : Nat) ^ 64 = 2 ^ 256 := by norm_num
  unfold hexText?
  by_cases hread : ∃ n, Numeral 16 cs n
  · obtain ⟨n, hn⟩ := hread
    have hlength := length_dropZeros_le_iff (k := 64) (by decide) (by decide) hn (by decide)
    have htext : textOf ((dropZeros cs).map Char.toLower) = hexPadded 0 n := by
      simp [textOf_dropZeros (by decide) (by decide) hn, hexPadded]
    rw [hword, ← Nat.not_lt] at hlength
    simp only [htext, hform.2 ⟨n, hn⟩, Bool.false_or, decide_eq_true_eq]
    constructor
    · intro h
      split at h
      · cases h
      · exact ⟨n, hlength.1 ‹_›, hn, (Option.some.inj h).symm⟩
    · rintro ⟨m, hlt, hm, rfl⟩
      obtain rfl := hn.unique (by decide) hm
      rw [if_neg (hlength.2 hlt)]
  · have hrefused : (cs.isEmpty || !cs.all isHex) = true := by rwa [← hform, Bool.not_eq_false] at hread
    simp only [hrefused, Bool.true_or, if_true]
    refine iff_of_false (by simp) ?_
    rintro ⟨n, -, hn, -⟩
    exact hread ⟨n, hn⟩

theorem strips_iff {text : String} : Strips text cs ↔ cs = bareLiteral text := by
  unfold Strips bareLiteral
  generalize text.toList.filter (· != '_') = kept
  rcases eq_nil_or_concat kept with rfl | ⟨rest, c, rfl⟩
  · simp; grind
  · by_cases hc : c = 'n'
    · simp [hc]; grind
    · simp [hc]; grind

theorem normalizeNumber?_eq {text : String} (hx : 'x' ∉ bareLiteral text)
    (hX : 'X' ∉ bareLiteral text) : normalizeNumber? text = decimalText? (bareLiteral text) := by
  unfold normalizeNumber?
  split
  · rename_i heq
    exact absurd (by simp [heq]) hx
  · rename_i heq
    exact absurd (by simp [heq]) hX
  · rfl

theorem normalizeNumber?_of_decimal {text : String} (h : Numeral 10 (bareLiteral text) n)
    (hn : n < 2 ^ 256) : normalizeNumber? text = some (toString n) := by
  rw [normalizeNumber?_eq (h.notMem (by decide) (by simp)) (h.notMem (by decide) (by simp))]
  refine decimalText?_eq_some_iff.2 ⟨n, hn, ?_, rfl⟩
  rw [decimalDigits?_numeral h]
  exact (digits?_eq_some_iff (by decide)).2 h

theorem normalizeNumber?_of_hexadecimal {text : String} (hbare : bareLiteral text = '0' :: x :: cs)
    (hx : x = 'x' ∨ x = 'X') (h : Numeral 16 cs n) (hn : n < 2 ^ 256) :
    normalizeNumber? text = some ("0x" ++ hexPadded 0 n) := by
  have hread := hexText?_eq_some_iff.2 ⟨n, hn, h, rfl⟩
  rcases hx with rfl | rfl <;> simpa only [normalizeNumber?, hbare] using hread

theorem toList_hexText (n : Nat) : ("0x" ++ hexPadded 0 n).toList = '0' :: 'x' :: Nat.toDigits 16 n := by
  simp [hexPadded, String.toList_append]

theorem bareLiteral_eq_self {s : String} (hs : s.toList = cs) (h : '_' ∉ cs) (h' : 'n' ∉ cs) :
    bareLiteral s = cs := by
  subst hs
  refine (strips_iff.1 (.inr ⟨filter_eq_self.2 fun c hc => ?_, fun hlast => ?_⟩)).symm
  · simpa using ne_of_mem_of_not_mem hc h
  · exact h' (mem_of_getLast? hlast)

theorem normalizeNumber?_toString (hn : n < 2 ^ 256) :
    normalizeNumber? (toString n) = some (toString n) := by
  have hnumeral : Numeral 10 (Nat.toDigits 10 n) n := numeral_toDigits (by decide) (by decide) n
  have hbare := bareLiteral_eq_self (s := toString n) Nat.toList_repr
    (hnumeral.notMem (by decide) (by simp)) (hnumeral.notMem (by decide) (by simp))
  exact normalizeNumber?_of_decimal (hbare ▸ hnumeral) hn

theorem normalizeNumber?_hexText (hn : n < 2 ^ 256) :
    normalizeNumber? ("0x" ++ hexPadded 0 n) = some ("0x" ++ hexPadded 0 n) := by
  have hnumeral : Numeral 16 (Nat.toDigits 16 n) n := numeral_toDigits (by decide) (by decide) n
  have hbare := bareLiteral_eq_self (toList_hexText n)
    (by simpa using hnumeral.notMem (by decide) (by simp))
    (by simpa using hnumeral.notMem (by decide) (by simp))
  exact normalizeNumber?_of_hexadecimal hbare (.inl rfl) hnumeral hn

/-- What is written for a literal is the decimal or the hexadecimal text of its number. -/
theorem exists_of_normalizeNumber? {text s : String} (h : normalizeNumber? text = some s) :
    ∃ n < 2 ^ 256, (∃ k, Denotes (bareLiteral text) k n) ∧
      (s = toString n ∨ s = "0x" ++ hexPadded 0 n) := by
  have hhex : ∀ {x cs}, x = 'x' ∨ x = 'X' → hexText? cs = some s → ∃ n < 2 ^ 256,
      (∃ k, Denotes ('0' :: x :: cs) k n) ∧ (s = toString n ∨ s = "0x" ++ hexPadded 0 n) := by
    intro x cs hx h
    obtain ⟨n, hn, hnumeral, rfl⟩ := hexText?_eq_some_iff.1 h
    exact ⟨n, hn, ⟨0, .hexadecimal hx hnumeral⟩, .inr rfl⟩
  unfold normalizeNumber? at h
  split at h
  · rename_i hbare
    exact hbare ▸ hhex (.inl rfl) h
  · rename_i hbare
    exact hbare ▸ hhex (.inr rfl) h
  · obtain ⟨n, hn, hread, rfl⟩ := decimalText?_eq_some_iff.1 h
    refine ⟨n, hn, ?_, .inl rfl⟩
    unfold decimalDigits? at hread
    split at hread
    · rename_i s hs
      obtain ⟨hformed, e, he, htext⟩ := Scientific.formed_of_read? hs
      obtain ⟨m, k, hm, hk, hvalue, -⟩ := (Scientific.value?_eq_some_iff hformed).1 hread
      exact ⟨k, htext ▸ .scientific hformed.whole hm he hk hvalue⟩
    · obtain ⟨ds, hds, hread⟩ := Option.bind_eq_some_iff.1 hread
      split at hds
      · obtain rfl := Option.some.inj hds
        exact ⟨0, .decimal ((digits?_eq_some_iff (by decide)).1 hread)⟩
      · cases hds

/-- A literal that is accepted stands for a number below the bound of words. Its canonical text stands
for the same number, and is its own canonical text. -/
theorem normalizeNumber?_exact {text s : String} (h : normalizeNumber? text = some s) :
    ∃ cs k n, Strips text cs ∧ Denotes cs k n ∧ n < 2 ^ 256 ∧ Denotes s.toList 0 n ∧
      Canonical s.toList ∧ normalizeNumber? s = some s := by
  obtain ⟨n, hn, ⟨k, hdenotes⟩, rfl | rfl⟩ := exists_of_normalizeNumber? h
  all_goals refine ⟨_, k, n, strips_iff.2 rfl, hdenotes, hn, ?_, ?_, ?_⟩
  · rw [Nat.toString_eq_repr, Nat.toList_repr]
    exact .decimal (numeral_toDigits (by decide) (by decide) n)
  · obtain ⟨ds, hne, hhead, hlt, htext, -⟩ := exists_toDigits (show 1 < 10 by decide) n
    exact ⟨ds, hne, hhead, .inl ⟨hlt, Nat.toList_repr.trans htext⟩⟩
  · exact normalizeNumber?_toString hn
  · exact toList_hexText n ▸ .hexadecimal (.inl rfl) (numeral_toDigits (by decide) (by decide) n)
  · obtain ⟨ds, hne, hhead, hlt, htext, -⟩ := exists_toDigits (show 1 < 16 by decide) n
    exact ⟨ds, hne, hhead, .inr ⟨hlt, (toList_hexText n).trans (by rw [htext])⟩⟩
  · exact normalizeNumber?_hexText hn

/-- Separators, a fraction with a zero at its end, an exponent and an `n`. -/
theorem normalizeNumber?_exact_scientific : normalizeNumber? "0_02.50E3n" = some "2500" ∧
    ∃ cs k n, Strips "0_02.50E3n" cs ∧ Denotes cs k n ∧ n < 2 ^ 256 ∧ Denotes "2500".toList 0 n ∧
      Canonical "2500".toList ∧ normalizeNumber? "2500" = some "2500" := by
  have hread : normalizeNumber? "0_02.50E3n" = some "2500" := rfl
  exact ⟨hread, normalizeNumber?_exact hread⟩

/-- A literal of a number below the bound of words is read unless its exponent is beyond the limit for
numbers that are not zero, or for all. -/
theorem isSome_normalizeNumber?_iff {text : String} (hstrips : Strips text cs)
    (hdenotes : Denotes cs k n) (hn : n < 2 ^ 256) :
    (normalizeNumber? text).isSome ↔ k < 2 ^ 64 ∧ (n = 0 ∨ k ≤ 78) := by
  obtain rfl := strips_iff.1 hstrips
  generalize hbare : bareLiteral text = cs at hdenotes
  cases hdenotes with
  | decimal h => simp [normalizeNumber?_of_decimal (hbare ▸ h) hn]
  | hexadecimal hx h => simp [normalizeNumber?_of_hexadecimal hbare hx h hn]
  | @scientific s e m k n hwhole h he hk hvalue =>
    have hs := Scientific.formed_of_numerals hwhole h hk
    have hread : decimalDigits? (s.text e) = s.expand? := by
      rw [decimalDigits?, Scientific.read?_text hs he]
    rw [normalizeNumber?_eq (hbare ▸ hs.notMem_text he (by decide))
      (hbare ▸ hs.notMem_text he (by decide)), hbare, Option.isSome_iff_exists]
    simp only [decimalText?_eq_some_iff, hread]
    constructor
    · rintro ⟨_, n', -, hvalue', -⟩
      obtain ⟨m', k', h', hk', hvalue', hlimit⟩ := (Scientific.value?_eq_some_iff hs).1 hvalue'
      obtain rfl := h.unique (by decide) h'
      obtain rfl := hk.unique (by decide) hk'
      obtain rfl : n = n' := by
        rwa [← hvalue, Nat.mul_left_inj (by positivity), eq_comm] at hvalue'
      exact hlimit
    · exact fun hlimit => ⟨_, n, hn,
        (Scientific.value?_eq_some_iff hs).2 ⟨m, k, h, hk, hvalue, hlimit⟩, rfl⟩

/-- A fraction with an exponent below the limit. -/
theorem isSome_normalizeNumber?_iff_fraction : Strips "2.5e1" "2.5e1".toList ∧
    Denotes "2.5e1".toList 1 25 ∧ (normalizeNumber? "2.5e1").isSome := by
  have hstrips : Strips "2.5e1" "2.5e1".toList := strips_iff.2 rfl
  have hdenotes : Denotes "2.5e1".toList 1 25 := by
    have hdigits : Numeral 10 ['2', '5'] 25 := (digits?_eq_some_iff (by decide)).1 (by decide)
    have hexponent : Numeral 10 ['1'] 1 := (digits?_eq_some_iff (by decide)).1 (by decide)
    exact .scientific (s := ⟨['2'], ['5'], ['1']⟩) (by decide) hdigits (.inl rfl) hexponent rfl
  exact ⟨hstrips, hdenotes, (isSome_normalizeNumber?_iff hstrips hdenotes (by decide)).2 (by decide)⟩

/-- A number that is a word is refused where the digits behind the point make up for the exponent. -/
theorem normalizeNumber?_refuses_exponent : Strips "0.001e79" "0.001e79".toList ∧
    Denotes "0.001e79".toList 79 (10 ^ 76) ∧ 10 ^ 76 < 2 ^ 256 ∧
      normalizeNumber? "0.001e79" = none := by
  have hdigits : Numeral 10 ['0', '0', '0', '1'] 1 := (digits?_eq_some_iff (by decide)).1 (by decide)
  have hexponent : Numeral 10 ['7', '9'] 79 := (digits?_eq_some_iff (by decide)).1 (by decide)
  refine ⟨strips_iff.2 rfl, ?_, by decide, rfl⟩
  exact .scientific (s := ⟨['0'], ['0', '0', '1'], ['7', '9']⟩) (by decide) hdigits (.inl rfl)
    hexponent rfl

end ContractYul.Text
