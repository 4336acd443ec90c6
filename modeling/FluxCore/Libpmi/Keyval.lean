import FluxCore.Lib.Cstring

/-!
# Lines of Keys and Values

`keyval.c`: a line is a sequence of `key=value` that are separated by blanks, and a field is found
by a search for its key. An occurrence of the key counts if an `=` follows it and it is at the
start of the line or after a blank.

The search goes from one match of `strstr` to the next, which is a walk along the positions of
the line (`parseValFrom_skip`, `parseValFrom_found`). In particular it passes over a whole field
that does not have the key (`parseValFrom_field`), whatever its value is, as long as there is
no blank in it.
-/

namespace FluxCore.Libpmi.Keyval

open Cstring List

/-- The results of the functions other than `EKV_SUCCESS`. -/
inductive Ekv
  | nokey
  | valLen
  | valNomatch
  | valParse
deriving DecidableEq, Repr

/-- The loop of `parse_val` from a pointer on. The flag says that the pointer is at the start of
the line or after a blank. -/
def parseValFrom (key : List Char) (start : Bool) (cp : List Char) : Option (List Char) :=
  match _h : strstr key cp with
  | none => none
  | some (before, found) =>
    let start := before.getLast?.elim start isspace
    if found[key.length]? = some '=' ∧ start then some (found.drop (key.length + 1))
    else
      match found with
      | [] => none
      | c :: rest => parseValFrom key (isspace c) rest
termination_by cp.length
decreasing_by
  have := congrArg length (strstr_append (by assumption))
  simp only [length_append, length_cons] at this
  omega

/-- `parse_val`. -/
def parseVal (s key : List Char) : Option (List Char) := parseValFrom key true s

/-- `keyval_parse_uint`. -/
def keyvalParseUint (s key : List Char) : Except Ekv ℕ :=
  match parseVal s key with
  | none => .error .nokey
  | some cp =>
    let i := strtoul cp
    if i.endptr.head?.any (!isspace ·) then .error .valParse else .ok (i.value % 2 ^ 32)

/-- The value of an `int` that a larger number is assigned to. -/
def toInt (i : ℤ) : ℤ := (i + 2 ^ 31) % 2 ^ 32 - 2 ^ 31

/-- `keyval_parse_int`. -/
def keyvalParseInt (s key : List Char) : Except Ekv ℤ :=
  match parseVal s key with
  | none => .error .nokey
  | some cp =>
    let i := strtol cp
    if i.endptr.head?.any (!isspace ·) then .error .valParse else .ok (toInt i.value)

/-- The copy of the characters up to one that ends the value, for an array of length `len`. -/
def copyWhile (p : Char → Bool) (cp : List Char) (len : ℕ) : Except Ekv (List Char) :=
  let val := cp.takeWhile p
  if len ≤ val.length then .error .valLen else .ok val

/-- `keyval_parse_word`. -/
def keyvalParseWord (s key : List Char) (len : ℕ) : Except Ekv (List Char) :=
  match parseVal s key with
  | none => .error .nokey
  | some cp => copyWhile (!isspace ·) cp len

/-- `keyval_parse_isword`. What follows the word is not looked at. -/
def keyvalParseIsword (s key word : List Char) : Except Ekv Unit :=
  match parseVal s key with
  | none => .error .nokey
  | some cp => if word.isPrefixOf cp then .ok () else .error .valNomatch

/-- `keyval_parse_string`. -/
def keyvalParseString (s key : List Char) (len : ℕ) : Except Ekv (List Char) :=
  match parseVal s key with
  | none => .error .nokey
  | some cp => copyWhile (· ≠ '\n') cp len

/-! ### The search -/

variable {key : List Char}

theorem prefix_and_eq_iff : (key <+: cp ∧ cp[key.length]? = some '=') ↔ key ++ ['='] <+: cp := by
  constructor
  · rintro ⟨⟨rest, rfl⟩, heq⟩
    rw [List.getElem?_append_right le_rfl, Nat.sub_self] at heq
    cases rest with
    | nil => cases heq
    | cons c rest =>
      cases heq
      exact ⟨rest, by simp⟩
  · rintro ⟨rest, rfl⟩
    refine ⟨⟨'=' :: rest, by simp⟩, ?_⟩
    rw [append_assoc, List.getElem?_append_right le_rfl, Nat.sub_self]
    rfl

theorem parseValFrom_strstr_some (h : strstr key cp = some (before, found)) :
    parseValFrom key start cp =
      if found[key.length]? = some '=' ∧ before.getLast?.elim start isspace then
        some (found.drop (key.length + 1))
      else found.head?.bind fun c => parseValFrom key (isspace c) found.tail := by
  rw [parseValFrom]
  split
  · rename_i h'
    rw [h] at h'
    cases h'
  rename_i h'
  rw [h] at h'
  cases h'
  cases found <;> rfl

theorem parseValFrom_strstr_none (h : strstr key cp = none) :
    parseValFrom key start cp = none := by
  rw [parseValFrom]
  split
  · rfl
  rename_i h'
  rw [h] at h'
  cases h'

/-- **A position that does not count is passed.** -/
theorem parseValFrom_skip (h : ¬ (key ++ ['='] <+: c :: cs ∧ start = true)) :
    parseValFrom key start (c :: cs) = parseValFrom key (isspace c) cs := by
  by_cases hkey : key <+: c :: cs
  · rw [parseValFrom_strstr_some (strstr_of_starts hkey), if_neg]
    · rfl
    · rintro ⟨heq, hstart⟩
      exact h ⟨prefix_and_eq_iff.mp ⟨hkey, heq⟩, hstart⟩
  cases hrest : strstr key cs with
  | none =>
    rw [parseValFrom_strstr_none hrest, parseValFrom_strstr_none]
    rw [strstr_of_not_starts hkey, hrest, Option.map_none]
  | some result =>
    obtain ⟨before, found⟩ := result
    have hlast : (c :: before).getLast?.elim start isspace =
        before.getLast?.elim (isspace c) isspace := by
      cases before <;> simp [getLast?_cons]
    have hcons : strstr key (c :: cs) = some (c :: before, found) := by
      rw [strstr_of_not_starts hkey, hrest, Option.map_some]
    rw [parseValFrom_strstr_some hcons, parseValFrom_strstr_some hrest, hlast]

/-- **A position that counts is found.** -/
theorem parseValFrom_found (val rest : List Char) :
    parseValFrom key true (key ++ '=' :: val ++ rest) = some (val ++ rest) := by
  rw [append_assoc, cons_append]
  have hat : (key ++ '=' :: (val ++ rest))[key.length]? = some '=' := by simp
  rw [parseValFrom_strstr_some (strstr_of_starts (prefix_append _ _)), if_pos ⟨hat, rfl⟩]
  simp [drop_append]

variable {rest : List Char}

theorem parseValFrom_word (hw : ∀ d ∈ w, isspace d = false) (hc : isspace c = true) :
    parseValFrom key false (w ++ c :: rest) = parseValFrom key true rest := by
  induction w with
  | nil =>
    rw [nil_append, parseValFrom_skip (by simp), hc]
  | cons d w ih =>
    rw [cons_append, parseValFrom_skip (by simp), hw d (mem_cons_self ..)]
    exact ih fun e he => hw e (mem_cons_of_mem _ he)

/-- **A field of another key is passed**, whatever its value is. -/
theorem parseValFrom_field (hkey : ¬ key ++ ['='] <+: other ++ '=' :: val ++ c :: rest)
    (hoth : ∀ d ∈ other, isspace d = false) (hval : ∀ d ∈ val, isspace d = false)
    (hc : isspace c = true) :
    parseValFrom key true (other ++ '=' :: val ++ c :: rest) = parseValFrom key true rest := by
  have hword : ∀ d ∈ other ++ '=' :: val, isspace d = false := by
    intro d hd
    rcases mem_append.mp hd with hd | hd
    · exact hoth d hd
    rcases mem_cons.mp hd with rfl | hd
    · rfl
    · exact hval d hd
  cases hw : other ++ '=' :: val with
  | nil => simp at hw
  | cons d w =>
    rw [hw, cons_append] at hkey
    rw [hw] at hword
    rw [cons_append, parseValFrom_skip fun h => hkey h.1, hword d (mem_cons_self ..)]
    exact parseValFrom_word (fun e he => hword e (mem_cons_of_mem _ he)) hc

/-! ### Values -/

theorem copyWhile_append (hval : ∀ d ∈ val, p d = true) (hc : p c = false)
    (hlen : val.length < len) : copyWhile p (val ++ c :: rest) len = .ok val := by
  have htake : (val ++ c :: rest).takeWhile p = val := by
    rw [takeWhile_append_of_pos hval, takeWhile_cons_of_neg (by simp [hc]), append_nil]
  rw [copyWhile, htake, if_neg (by omega)]

theorem keyvalParseInt_decimal (h : parseVal s key = some (decimal n ++ c :: rest))
    (hn : n < 2 ^ 31) (hc : isspace c = true) : keyvalParseInt s key = .ok n := by
  have hrest : NoDigit (c :: rest) := by
    rintro d ⟨⟩
    by_contra hd
    rw [isspace_of_isDigit (Bool.not_eq_false _ ▸ hd)] at hc
    cases hc
  have hint : toInt n = n := by
    rw [toInt]
    omega
  rw [keyvalParseInt, h]
  dsimp only
  rw [strtol_decimal (by omega) hrest, hint]
  simp [hc]

end FluxCore.Libpmi.Keyval
