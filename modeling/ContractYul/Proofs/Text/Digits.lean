import ContractYul.Proofs.Yul.Semantics
import ContractYul.Ty.Basic
import Mathlib

/-!
# Numbers written in code

Code holds numbers as text. Reading such a text gives back the number it was written from: the
decimal text of a number, and the mask of a number of bytes.
-/

open List

namespace ContractYul.Text

variable {base n : Nat} {cs ds : List Char}

/-- A row of digits in a base, of either case. -/
abbrev Digits (base : Nat) (cs : List Char) (ds : List Nat) : Prop :=
  Forall₂ (fun c d => d < base ∧ c.toLower = d.digitChar) cs ds

theorem digit?_eq_some_iff (hbase : base ≤ 16) :
    digit? base c = some d ↔ d < base ∧ c.toLower = d.digitChar := by
  have hascii : ∀ k < 128, ∀ d < 16,
      hexDigit? (Char.ofNat k) = some d ↔ (Char.ofNat k).toLower = d.digitChar := by decide
  have hchar : ∀ d < 16, d.digitChar.toNat < 128 := by decide
  rw [digit?, Option.filter_eq_some_iff, decide_eq_true_iff, and_comm]
  refine and_congr_right fun hd => ?_
  by_cases hc : c.toNat < 128
  · simpa using hascii c.toNat hc d (by omega)
  · have hlow : ∀ {x : Char}, x.toNat < 128 → ¬ c ≤ x := fun hx hle =>
      hc (Nat.lt_of_le_of_lt hle hx)
    have hupper : ¬ (c.val ≥ 'A'.val ∧ c.val ≤ 'Z'.val) := fun h => hlow (x := 'Z') (by decide) h.2
    rw [hexDigit?, if_neg (fun h => hlow (by decide) h.2), if_neg (fun h => hlow (by decide) h.2),
      if_neg (fun h => hlow (by decide) h.2), Char.toLower, dif_neg hupper]
    refine iff_of_false (by simp) fun h => ?_
    exact hc (h ▸ hchar d (by omega))

theorem digitsFrom?_eq_some_iff (hbase : base ≤ 16) : digitsFrom? base acc cs = some n ↔
    ∃ ds, Digits base cs ds ∧ n = Nat.ofDigits base (ds.reverse ++ [acc]) := by
  induction cs generalizing acc with
  | nil => simp [digitsFrom?, eq_comm]
  | cons c cs ih =>
    have hvalue : ∀ (d : Nat) (ds : List Nat), Nat.ofDigits base (ds.reverse ++ [acc * base + d]) =
        Nat.ofDigits base ((d :: ds).reverse ++ [acc]) := by
      intro d ds
      simp only [reverse_cons, Nat.ofDigits_append, Nat.ofDigits_singleton, length_append,
        length_reverse, length_singleton]
      ring
    simp only [digitsFrom?, Option.bind_eq_bind, Option.bind_eq_some_iff, digit?_eq_some_iff hbase, ih,
      forall₂_cons_left_iff, hvalue]
    constructor
    · rintro ⟨d, hd, ds, hds, rfl⟩
      exact ⟨d :: ds, ⟨d, ds, hd, hds, rfl⟩, rfl⟩
    · rintro ⟨_, ⟨d, ds, hd, hds, rfl⟩, rfl⟩
      exact ⟨d, hd, ds, hds, rfl⟩

theorem digitsFrom?_append (base : Nat) (xs ys : List Char) (acc : Nat) :
    digitsFrom? base acc (xs ++ ys) =
      (digitsFrom? base acc xs).bind fun n => digitsFrom? base n ys := by
  induction xs generalizing acc with
  | nil => rfl
  | cons c xs ih =>
    cases hc : digit? base c with
    | none => simp [digitsFrom?, hc]
    | some d => simpa [digitsFrom?, hc] using ih (acc * base + d)

/-- The digits of a number stand for it, without zeros in front. -/
theorem exists_toDigits (hbase : 1 < base) (n : Nat) :
    ∃ ds : List Nat, ds ≠ [] ∧ (ds.head? = some 0 → ds = [0]) ∧ (∀ d ∈ ds, d < base) ∧
      Nat.toDigits base n = ds.map Nat.digitChar ∧ n = Nat.ofDigits base ds.reverse := by
  induction n using Nat.strongRecOn with
  | ind n ih =>
    by_cases hn : n < base
    · exact ⟨[n], by simp, by simp, by simpa, by simp [Nat.toDigits_of_lt_base hn], by simp⟩
    · -- The last digit is the remainder, the digits before it are those of the quotient.
      have hle : base ≤ n := Nat.le_of_not_lt hn
      have hquotient : n / base ≠ 0 := (Nat.div_pos hle (by omega)).ne'
      obtain ⟨ds, hne, hhead, hlt, htext, hvalue⟩ := ih _ (Nat.div_lt_self (by omega) hbase)
      refine ⟨ds ++ [n % base], by simp, fun hzero => ?_, ?_, ?_, ?_⟩
      · rw [head?_append_of_ne_nil _ hne] at hzero
        rw [hhead hzero] at hvalue
        exact absurd (by simpa using hvalue) hquotient
      · exact forall_mem_append.2 ⟨hlt, by simpa using Nat.mod_lt n (by omega)⟩
      · rw [Nat.toDigits_of_base_le hbase hle, htext]
        simp
      · rw [reverse_append, Nat.ofDigits_append, ← hvalue]
        simp [Nat.mod_add_div]

/-- The digits of a number in a base read back as the number. -/
theorem digitsFrom?_toDigits (hbase : 1 < base) (hsixteen : base ≤ 16) (n : Nat) :
    digitsFrom? base 0 (Nat.toDigits base n) = some n := by
  have hlower : ∀ d < 16, d.digitChar.toLower = d.digitChar := by decide
  obtain ⟨ds, -, -, hlt, htext, hvalue⟩ := exists_toDigits hbase n
  refine (digitsFrom?_eq_some_iff hsixteen).2 ⟨ds, ?_, by simpa [Nat.ofDigits_append] using hvalue⟩
  rw [htext]
  exact forall₂_map_left_iff.2 (forall₂_same.2 fun d hd =>
    ⟨hlt d hd, hlower d ((hlt d hd).trans_le hsixteen)⟩)

theorem digitsFrom?_zeros (hbase : 0 < base) (z acc : Nat) :
    digitsFrom? base acc (replicate z '0') = some (acc * base ^ z) := by
  induction z generalizing acc with
  | zero => simp [digitsFrom?]
  | succ z ih =>
    have hzero : digit? base '0' = some 0 := by
      simpa [digit?, Option.filter_eq_some_iff] using ⟨(by decide : hexDigit? '0' = some 0), hbase⟩
    rw [replicate_succ]
    simp only [digitsFrom?, hzero, Option.bind_eq_bind, Option.bind_some, ih, Nat.add_zero]
    rw [pow_succ', mul_assoc]

theorem digitsFrom?_dropZeros (hbase : 0 < base) (cs : List Char) :
    digitsFrom? base 0 (dropZeros cs) = digitsFrom? base 0 cs := by
  have hzeros : cs.takeWhile (· == '0') = replicate (cs.takeWhile (· == '0')).length '0' :=
    eq_replicate_of_mem fun c hc => by simpa using mem_takeWhile_imp hc
  conv_rhs => rw [← takeWhile_append_dropWhile (p := (· == '0')) (l := cs), hzeros]
  rw [digitsFrom?_append, digitsFrom?_zeros hbase, Nat.zero_mul]
  rfl

theorem isDecimal_iff {c : Char} : isDecimal c ↔ (digit? 10 c).isSome := by
  have hrange : ∀ {x y : Char}, x ≤ c ∧ c ≤ y → x.toNat ≤ c.toNat ∧ c.toNat ≤ y.toNat := id
  unfold isDecimal digit? hexDigit?
  grind

theorem toNat_of_digit? {c : Char} (h : digit? 10 c = some n) : c.toNat = n + 48 := by
  obtain ⟨hread, hlt⟩ := Option.filter_eq_some_iff.1 h
  have hrange : ∀ {x y : Char}, x ≤ c ∧ c ≤ y → x.toNat ≤ c.toNat ∧ c.toNat ≤ y.toNat := id
  unfold hexDigit? at hread
  grind

theorem eq_zero_of_digit? (h : digit? base c = some 0) : c = '0' := by
  obtain ⟨hread, -⟩ := Option.filter_eq_some_iff.1 h
  have hten : digit? 10 c = some 0 := by simp [digit?, hread]
  exact Char.toNat_inj.1 (toNat_of_digit? hten)

theorem toDigits_append_of_digitsFrom? (hbase : 1 < base) (hsixteen : base ≤ 16) {acc : Nat}
    (hacc : 0 < acc) (h : digitsFrom? base acc cs = some n) :
    0 < n ∧ Nat.toDigits base acc ++ cs.map Char.toLower = Nat.toDigits base n := by
  induction cs generalizing acc with
  | nil =>
    obtain rfl := Option.some.inj h
    simpa using hacc
  | cons c cs ih =>
    obtain ⟨d, hd, h⟩ := Option.bind_eq_some_iff.1 h
    obtain ⟨hlt, hlower⟩ := (digit?_eq_some_iff hsixteen).1 hd
    have hrest := ih (Nat.lt_of_lt_of_le (Nat.mul_pos hacc (by omega)) (Nat.le_add_right _ d)) h
    rw [Nat.mul_comm, ← Nat.toDigits_append_toDigits hbase hacc hlt, Nat.toDigits_of_lt_base hlt] at hrest
    simpa [hlower] using hrest

/-- Dropping the zeros in front leaves the digits of the number, and nothing of zero. -/
theorem lower_dropZeros (hbase : 1 < base) (hsixteen : base ≤ 16) (h : digitsFrom? base 0 cs = some n) :
    (dropZeros cs).map Char.toLower = if n = 0 then [] else Nat.toDigits base n := by
  rw [← digitsFrom?_dropZeros (by omega)] at h
  cases hcs : dropZeros cs with
  | nil =>
    rw [hcs] at h
    simp [← Option.some.inj h]
  | cons c rest =>
    have hc : c ≠ '0' := by
      have hhead := head?_dropWhile_not (· == '0') cs
      rw [dropZeros] at hcs
      simpa [hcs] using hhead
    rw [hcs] at h
    obtain ⟨d, hd, h⟩ := Option.bind_eq_some_iff.1 h
    obtain ⟨hlt, hlower⟩ := (digit?_eq_some_iff hsixteen).1 hd
    have hpos : 0 < d := Nat.pos_of_ne_zero fun hzero => hc (eq_zero_of_digit? (hzero ▸ hd))
    obtain ⟨hn, hdigits⟩ := toDigits_append_of_digitsFrom? hbase hsixteen (by omega) h
    rw [if_neg hn.ne', ← hdigits, Nat.zero_mul, Nat.zero_add, Nat.toDigits_of_lt_base hlt, map_cons,
      hlower]
    rfl

/-- Rows of the same number of digits compare as their numbers do. -/
theorem digitsFrom?_lt_iff {a b m : Nat} (hlength : cs.length = ds.length)
    (hcs : digitsFrom? 10 a cs = some m) (hds : digitsFrom? 10 b ds = some n) :
    m < n ↔ a < b ∨ a = b ∧ cs < ds := by
  induction cs generalizing ds a b with
  | nil =>
    obtain rfl := length_eq_zero_iff.1 hlength.symm
    obtain rfl := Option.some.inj hcs
    obtain rfl := Option.some.inj hds
    simp
  | cons c cs ih =>
    cases ds with
    | nil => cases hlength
    | cons d ds =>
      obtain ⟨x, hx, hcs⟩ := Option.bind_eq_some_iff.1 hcs
      obtain ⟨y, hy, hds⟩ := Option.bind_eq_some_iff.1 hds
      have hlt : c < d ↔ c.toNat < d.toNat := Iff.rfl
      have hsmall : x < 10 ∧ y < 10 :=
        ⟨((digit?_eq_some_iff (by decide)).1 hx).1, ((digit?_eq_some_iff (by decide)).1 hy).1⟩
      rw [ih (Nat.succ.inj hlength) hcs hds, cons_lt_cons_iff, hlt, ← Char.toNat_inj,
        toNat_of_digit? hx, toNat_of_digit? hy]
      grind

theorem isDigit_of_mem_toString {n : Nat} (h : c ∈ (toString n).toList) : c.isDigit := by
  rw [Nat.toString_eq_repr, Nat.toList_repr] at h
  exact Nat.isDigit_of_mem_toDigits (by decide) (by decide) h

theorem digits?_of_ne_nil (h : cs ≠ []) : digits? base cs = digitsFrom? base 0 cs := by
  cases cs with
  | nil => exact absurd rfl h
  | cons => rfl

theorem digitsFrom?_replicate_f (k acc : Nat) :
    digitsFrom? 16 acc (replicate k 'f') = some (acc * 16 ^ k + (16 ^ k - 1)) := by
  induction k generalizing acc with
  | zero => simp [digitsFrom?]
  | succ k ih =>
    have hf : digit? 16 'f' = some 15 := by decide
    rw [replicate_succ]
    simp only [digitsFrom?, hf, Option.bind_eq_bind, Option.bind_some, ih, Option.some.injEq]
    rw [pow_succ]
    have hsplit : (acc * 16 + 15) * 16 ^ k = acc * (16 ^ k * 16) + 15 * 16 ^ k := by ring
    omega

/-- Leading zeros do not change the number that is read. -/
theorem digitsFrom?_hexPadded (width n : Nat) :
    digitsFrom? 16 0 (hexPadded width n).toList = some n := by
  rw [hexPadded, String.toList_ofList, digitsFrom?_append, digitsFrom?_zeros (by decide), Nat.zero_mul]
  exact digitsFrom?_toDigits (by decide) (by decide) n

/-! ## Numbered names -/

theorem underscore_notMem_toString (n : Nat) : '_' ∉ (toString n).toList :=
  fun hmem => absurd (isDigit_of_mem_toString hmem) (by decide)

/-- Two lists that are split at their last occurrence of a character have the same parts. -/
theorem split_at_last {c : Char} {front front' back back' : List Char} (hback : c ∉ back)
    (hback' : c ∉ back') (h : front ++ c :: back = front' ++ c :: back') :
    front = front' ∧ back = back' := by
  rcases append_eq_append_iff.1 h with ⟨middle, rfl, hmiddle⟩ | ⟨middle, rfl, hmiddle⟩
  · cases middle with
    | nil => simpa using hmiddle
    | cons d middle =>
      obtain ⟨rfl, rfl⟩ := cons.inj hmiddle
      exact absurd (mem_append_right _ mem_cons_self) hback
  · cases middle with
    | nil => simpa using hmiddle.symm
    | cons d middle =>
      obtain ⟨rfl, rfl⟩ := cons.inj hmiddle
      exact absurd (mem_append_right _ mem_cons_self) hback'

end ContractYul.Text

namespace ContractYul.Yul

theorem numberOf?_toString (n : Nat) : numberOf? (toString n) = some n := by
  have hread : Text.digits? 10 (Nat.toDigits 10 n) = some n := by
    rw [Text.digits?_of_ne_nil Nat.toDigits_ne_nil]
    exact Text.digitsFrom?_toDigits (by decide) (by decide) n
  unfold numberOf?
  split
  · rename_i digits heq
    -- A hexadecimal text has an `x`, which no decimal digit is.
    have hx : 'x' ∈ (toString n).toList := by
      rw [heq]
      simp
    exact absurd (Text.isDigit_of_mem_toString hx) (by decide)
  · rwa [Nat.toString_eq_repr, Nat.toList_repr]

theorem toString_injective {m n : Nat} (h : toString m = toString n) : m = n := by
  have hread := congrArg numberOf? h
  rw [numberOf?_toString, numberOf?_toString] at hread
  exact Option.some.inj hread

theorem numberOf?_hexPadded (width n : Nat) :
    numberOf? ("0x" ++ Text.hexPadded width n) = some n := by
  have htext : ("0x" ++ Text.hexPadded width n).toList =
      '0' :: 'x' :: (Text.hexPadded width n).toList := by
    rw [String.toList_append]
    rfl
  have hne : (Text.hexPadded width n).toList ≠ [] := by
    rw [Text.hexPadded]
    simp
  unfold numberOf?
  rw [htext]
  exact (Text.digits?_of_ne_nil hne).trans (Text.digitsFrom?_hexPadded width n)

theorem toList_maskText (n : Nat) :
    (Ty.maskText n).toList = '0' :: 'x' :: replicate (2 * n) 'f' := by
  have hpairs : ((replicate n "ff").flatMap String.toList) = replicate (2 * n) 'f' := by
    induction n with
    | zero => rfl
    | succ n ih =>
      rw [replicate_succ, flatMap_cons, ih, Nat.mul_succ, Nat.add_comm, replicate_add]
      rfl
  simp [Ty.maskText, String.toList_join, hpairs]

/-- The mask of some bytes is the greatest number of so many bytes. -/
theorem numberOf?_maskText (hn : 0 < n) : numberOf? (Ty.maskText n) = some (2 ^ (8 * n) - 1) := by
  have hne : replicate (2 * n) 'f' ≠ [] := by simp; omega
  have hpow : 16 ^ (2 * n) = 2 ^ (8 * n) := by
    rw [show (16 : Nat) = 2 ^ 4 by rfl, ← pow_mul, show 4 * (2 * n) = 8 * n by ring]
  unfold numberOf?
  rw [toList_maskText]
  simp [Text.digits?_of_ne_nil hne, Text.digitsFrom?_replicate_f, hpow]

end ContractYul.Yul
