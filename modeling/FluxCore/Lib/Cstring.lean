import Mathlib.Algebra.Order.Ring.Int
import Mathlib.Data.List.Basic

/-!
# Strings of the C Library

A string is the list of its characters without the final NUL, and a pointer into a string is
the list from there on. The module has the functions of the C library that programs use to take
strings apart (`strtoul`, `strtol`, `strtok_r`, `strstr`), and what they do to a string that was
put together: a decimal numeral is read back, the first item of a separated list is split off.
-/

namespace Cstring

open List

/-- What holds of the characters of a string is decided by running through the string, and not
through all characters. -/
instance (priority := high) decidableForallMem (s : List Char) (p : Char → Prop)
    [DecidablePred p] : Decidable (∀ c ∈ s, p c) :=
  decidableBAll p s

/-- `isspace` in the C locale. -/
def isspace (c : Char) : Bool := c.toNat = 32 || 9 ≤ c.toNat && c.toNat ≤ 13

variable {c : Char}

theorem toNat_of_isDigit (h : c.isDigit = true) : 48 ≤ c.toNat ∧ c.toNat ≤ 57 := by
  simpa [Char.isDigit, UInt32.le_iff_toNat_le] using h

theorem isspace_of_isDigit (h : c.isDigit = true) : isspace c = false := by
  have hc := toNat_of_isDigit h
  simp only [isspace, Bool.or_eq_false_iff, Bool.and_eq_false_iff, decide_eq_false_iff_not]
  omega

/-! ### Numerals -/

/-- The text of a number that `%u` prints. -/
def decimal (n : ℕ) : List Char := Nat.toDigits 10 n

theorem isDigit_of_mem_decimal (h : c ∈ decimal n) : c.isDigit = true :=
  Nat.isDigit_of_mem_toDigits (by decide) (by decide) h

theorem decimal_ne_nil (n : ℕ) : decimal n ≠ [] := Nat.toDigits_ne_nil

/-- What `strtoul` and `strtol` read with base 10: blanks, a sign and digits. The result has
the sign, the value of the digits and what follows them; it is `none` if there is no digit. -/
def scanNumber (s : List Char) : Option (Bool × ℕ × List Char) :=
  let body := s.dropWhile isspace
  let neg := body.head? = some '-'
  let digits := if neg ∨ body.head? = some '+' then body.tail else body
  if (digits.takeWhile Char.isDigit).isEmpty then none
  else some (neg, Nat.ofDigitChars 10 (digits.takeWhile Char.isDigit) 0,
    digits.dropWhile Char.isDigit)

/-- The result of `strtoul` or `strtol`: the value, the end pointer, and whether `errno` is
`ERANGE`. -/
structure Parsed (α : Type) where
  value : α
  endptr : List Char
  erange : Bool
deriving DecidableEq

/-- `strtoul` with base 10. The value of a number with a sign is negated in the type. -/
def strtoul (s : List Char) : Parsed ℕ :=
  match scanNumber s with
  | none => ⟨0, s, false⟩
  | some (neg, n, rest) =>
    if n ≥ 2 ^ 64 then ⟨2 ^ 64 - 1, rest, true⟩
    else ⟨if neg then (2 ^ 64 - n) % 2 ^ 64 else n, rest, false⟩

/-- `strtol` with base 10. -/
def strtol (s : List Char) : Parsed ℤ :=
  match scanNumber s with
  | none => ⟨0, s, false⟩
  | some (false, n, rest) => if n ≥ 2 ^ 63 then ⟨2 ^ 63 - 1, rest, true⟩ else ⟨n, rest, false⟩
  | some (true, n, rest) => if n > 2 ^ 63 then ⟨-2 ^ 63, rest, true⟩ else ⟨-n, rest, false⟩

/-- The string does not go on with a digit. -/
def NoDigit (s : List Char) : Prop := ∀ c ∈ s.head?, c.isDigit = false

variable {rest : List Char}

theorem scanNumber_digits (hne : digits ≠ []) (hdigs : ∀ c ∈ digits, c.isDigit = true)
    (hrest : NoDigit rest) :
    scanNumber (digits ++ rest) = some (false, Nat.ofDigitChars 10 digits 0, rest) := by
  obtain ⟨d, ds, rfl⟩ := exists_cons_of_ne_nil hne
  have hd : d.isDigit = true := hdigs d (mem_cons_self ..)
  have hdrop : (d :: ds ++ rest).dropWhile isspace = d :: ds ++ rest := by
    rw [cons_append, dropWhile_cons, isspace_of_isDigit hd]
    rfl
  have hsign : ¬ (d = '-') ∧ ¬ (d = '+') := by
    constructor
    · rintro rfl
      exact absurd hd (by decide)
    · rintro rfl
      exact absurd hd (by decide)
  have htake : rest.takeWhile Char.isDigit = [] := by
    cases rest with
    | nil => rfl
    | cons c rest => rw [takeWhile_cons, hrest c rfl]; rfl
  have hskip : rest.dropWhile Char.isDigit = rest := by
    cases rest with
    | nil => rfl
    | cons c rest => rw [dropWhile_cons, hrest c rfl]; rfl
  have htakeAll : (d :: ds ++ rest).takeWhile Char.isDigit = d :: ds := by
    rw [takeWhile_append_of_pos hdigs, htake, append_nil]
  have hdropAll : (d :: ds ++ rest).dropWhile Char.isDigit = rest := by
    rw [dropWhile_append_of_pos hdigs, hskip]
  have hhead : (d :: ds ++ rest).head? = some d := rfl
  simp only [scanNumber, hdrop, hhead, Option.some.injEq, hsign.1, hsign.2, or_self, if_false,
    htakeAll, hdropAll, isEmpty_cons, decide_false, Bool.false_eq_true]

theorem strtoul_digits (hne : digits ≠ []) (hdigs : ∀ c ∈ digits, c.isDigit = true)
    (hrest : NoDigit rest) : strtoul (digits ++ rest) =
      if Nat.ofDigitChars 10 digits 0 ≥ 2 ^ 64 then ⟨2 ^ 64 - 1, rest, true⟩
      else ⟨Nat.ofDigitChars 10 digits 0, rest, false⟩ := by
  rw [strtoul, scanNumber_digits hne hdigs hrest]
  simp only [Bool.false_eq_true, if_false]

/-- **A numeral is read back,** up to what follows it. -/
theorem strtoul_decimal (hn : n < 2 ^ 64) (hrest : NoDigit rest) :
    strtoul (decimal n ++ rest) = ⟨n, rest, false⟩ := by
  have hvl : Nat.ofDigitChars 10 (decimal n) 0 = n := Nat.ofDigitChars_ten_toDigits
  rw [strtoul_digits (decimal_ne_nil n) (fun _ => isDigit_of_mem_decimal) hrest, hvl,
    if_neg (not_le.mpr hn)]

theorem strtol_decimal (hn : n < 2 ^ 63) (hrest : NoDigit rest) :
    strtol (decimal n ++ rest) = ⟨n, rest, false⟩ := by
  have hvl : Nat.ofDigitChars 10 (decimal n) 0 = n := Nat.ofDigitChars_ten_toDigits
  rw [strtol, scanNumber_digits (decimal_ne_nil n) (fun _ => isDigit_of_mem_decimal) hrest]
  simp only [hvl, if_neg (not_le.mpr hn)]

/-! ### Up to a character -/

theorem span_at (hs : c ∉ s) (rest : List Char) :
    (s ++ c :: rest).takeWhile (· ≠ c) = s ∧ (s ++ c :: rest).dropWhile (· ≠ c) = c :: rest := by
  have hall : ∀ x ∈ s, decide (x ≠ c) = true := fun x hx => by
    rw [decide_eq_true_eq]
    rintro rfl
    exact hs hx
  rw [takeWhile_append_of_pos hall, dropWhile_append_of_pos hall]
  simp

/-! ### Items of a list -/

/-- `strtok_r` with one separator: the next item and what follows its separator. -/
def strtokR (sep : Char) (s : List Char) : Option (List Char × List Char) :=
  let item := s.dropWhile (· = sep)
  if item.isEmpty then none
  else some (item.takeWhile (· ≠ sep), (item.dropWhile (· ≠ sep)).tail)

theorem length_strtokR_lt (h : strtokR sep s = some (item, rest)) : rest.length < s.length := by
  rw [strtokR] at h
  split_ifs at h with hemp
  cases h
  rw [List.isEmpty_iff] at hemp
  have hpos := length_pos_of_ne_nil hemp
  have hfst := (dropWhile_sublist (l := s) (· = sep)).length_le
  have hsec :=
    (dropWhile_sublist (l := s.dropWhile (· = sep)) (· ≠ sep)).length_le
  rw [length_tail]
  omega

theorem strtokR_item {sep : Char} {item : List Char} (hne : item ≠ []) (hsep : sep ∉ item)
    {tail : List Char} (htail : tail = [] ∨ tail.head? = some sep) :
    strtokR sep (item ++ tail) = some (item, tail.tail) := by
  have hall : ∀ c ∈ item, decide (c ≠ sep) = true := fun c hc => by
    rw [decide_eq_true_eq]
    rintro rfl
    exact hsep hc
  have hskip : (item ++ tail).dropWhile (· = sep) = item ++ tail := by
    obtain ⟨c, cs, rfl⟩ := exists_cons_of_ne_nil hne
    have hc := hall c (mem_cons_self ..)
    rw [decide_eq_true_eq] at hc
    rw [cons_append, dropWhile_cons, decide_eq_false hc]
    rfl
  have hend : tail.takeWhile (· ≠ sep) = [] ∧ tail.dropWhile (· ≠ sep) = tail := by
    rcases htail with rfl | hhead
    · exact ⟨rfl, rfl⟩
    obtain ⟨rest, rfl⟩ : ∃ rest, tail = sep :: rest := by
      cases tail with
      | nil => cases hhead
      | cons c rest =>
        cases hhead
        exact ⟨rest, rfl⟩
    simp
  have hemp : (item ++ tail).isEmpty = false := by
    simp [hne]
  rw [strtokR, hskip, hemp, takeWhile_append_of_pos hall,
    dropWhile_append_of_pos hall, hend.1, hend.2, append_nil]
  rfl

/-- The list of the items with a separator between them. -/
def joined (sep : Char) : List (List Char) → List Char
  | [] => []
  | item :: items => item ++ items.flatMap (sep :: ·)

/-- **A list is taken apart** item by item. -/
theorem strtokR_joined (hne : item ≠ []) (hsep : sep ∉ item) (items : List (List Char)) :
    strtokR sep (joined sep (item :: items)) = some (item, joined sep items) := by
  rw [joined, strtokR_item hne hsep]
  · cases items with
    | nil => rfl
    | cons next items => rw [flatMap_cons, joined, cons_append, tail_cons]
  · cases items with
    | nil => exact .inl rfl
    | cons next items => exact .inr rfl

theorem mem_joined (h : c ∈ joined sep items) : c = sep ∨ ∃ item ∈ items, c ∈ item := by
  cases items with
  | nil => cases h
  | cons item items =>
    simp only [joined, mem_append, mem_flatMap, mem_cons] at h ⊢
    rcases h with hc | ⟨next, hnext, rfl | hc⟩
    · exact .inr ⟨item, .inl rfl, hc⟩
    · exact .inl rfl
    · exact .inr ⟨next, .inr hnext, hc⟩

/-! ### Search -/

/-- `strstr`: the place of the first occurrence, as what is before it and what is from there
on. -/
def strstr (needle : List Char) : List Char → Option (List Char × List Char)
  | [] => if needle.isPrefixOf [] then some ([], []) else none
  | c :: cs =>
    if needle.isPrefixOf (c :: cs) then some ([], c :: cs)
    else (strstr needle cs).map fun found => (c :: found.1, found.2)

theorem strstr_append (h : strstr needle s = some (before, found)) : s = before ++ found := by
  induction s generalizing before with
  | nil =>
    rw [strstr] at h
    split_ifs at h
    cases h
    rfl
  | cons c cs ih =>
    rw [strstr] at h
    split_ifs at h
    · cases h
      rfl
    obtain ⟨⟨before', found'⟩, hrest, heq⟩ := Option.map_eq_some_iff.mp h
    cases heq
    rw [ih hrest, cons_append]

theorem strstr_of_starts (h : needle <+: s) : strstr needle s = some ([], s) := by
  cases s with
  | nil | cons c cs => rw [strstr, if_pos (List.isPrefixOf_iff_prefix.mpr h)]

theorem strstr_of_not_starts (h : ¬ needle <+: c :: cs) :
    strstr needle (c :: cs) = (strstr needle cs).map fun found => (c :: found.1, found.2) := by
  rw [strstr, if_neg (mt isPrefixOf_iff_prefix.mp h)]

end Cstring
