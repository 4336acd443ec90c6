import FluxCore.Lib.Cstring
import Mathlib.Data.List.TakeWhile

/-!
# Signatures of the Mechanism `none`

`sign_none.c`. A wrapped jobspec is `HEADER.PAYLOAD.none` with the header and the payload in
base64. The decoded header is a vector of strings that each end with a NUL, keys and values in
turn. A pointer into the decoded header is the list of the bytes from there on, and a read
where there are none is a read `outOfBounds`.

The decoder of base64 is a parameter. Against any decoder, `signNoneUnwrap` reads outside of
the decoded bytes exactly if there are none, and it accepts exactly the inputs that carry a user
id (`Carries`) below 2^64, of which it returns the lower 32 bits.
-/

namespace FluxCore.Libjob.SignNone

open Cstring List

/-- What ends a function other than by success: a read outside of the decoded bytes, or
`EINVAL`. -/
inductive Stop
  | outOfBounds
  | inval
deriving DecidableEq, Repr

/-- The character NUL. -/
def nul : Char := '\x00'

/-- The string at a pointer, and what follows its NUL. -/
def cstringAt (p : List Char) : Except Stop (List Char × List Char) :=
  if nul ∈ p then .ok (p.takeWhile (· ≠ nul), (p.dropWhile (· ≠ nul)).tail)
  else .error .outOfBounds

/-- The pointers `val_version`, `val_userid` and `val_mech` of `header_decode`, as strings. -/
structure Vals where
  version : Option (List Char)
  userid : Option (List Char)
  mech : Option (List Char)
deriving DecidableEq

/-- The assignment of a value to the variable of its key. -/
def Vals.set (vals : Vals) (key val : List Char) : Except Stop Vals :=
  if key = "version".toList then .ok { vals with version := some val }
  else if key = "userid".toList then .ok { vals with userid := some val }
  else if key = "mech".toList then .ok { vals with mech := some val }
  else .error .inval

theorem length_cstringAt (h : cstringAt p = .ok (s, rest)) : rest.length < p.length := by
  rw [cstringAt] at h
  split_ifs at h with hnul
  cases h
  have hle := (dropWhile_sublist (l := p) (· ≠ nul)).length_le
  have hpos : 0 < p.length := length_pos_of_mem hnul
  rw [length_tail]
  omega

/-- The loop of `header_decode` over keys and values with `argz_next`; nothing is left at the end
of the vector. -/
def parseEntries (p : List Char) (vals : Vals) : Except Stop Vals :=
  if p = [] then .ok vals
  else
    match _hkey : cstringAt p with
    | .error e => .error e
    | .ok (key, entry) =>
      if entry = [] then .error .inval
      else
        match _hval : cstringAt entry with
        | .error e => .error e
        | .ok (val, next) =>
          match vals.set key val with
          | .error e => .error e
          | .ok vals => parseEntries next vals
termination_by p.length
decreasing_by
  have h1 := length_cstringAt (by assumption : cstringAt p = _)
  have h2 := length_cstringAt (by assumption : cstringAt entry = _)
  omega

/-- The numeral of a user id, after its first character: no sign and no blank is allowed, and the
64 bits of the value are cut to 32. -/
def parseNumeral (numeral : List Char) : Except Stop ℕ :=
  if ¬ numeral.head?.any Char.isDigit then .error .inval
  else
    let n := strtoul numeral
    if n.erange ∨ n.endptr ≠ [] then .error .inval else .ok (n.value % 2 ^ 32)

/-- The part of `header_decode` that looks at the values. -/
def checkVals (vals : Vals) : Except Stop ℕ :=
  if vals.version ≠ some "i1".toList ∨ vals.mech ≠ some "snone".toList then .error .inval
  else
    match vals.userid with
    | none => .error .inval
    | some val => if val.head? ≠ some 'i' then .error .inval else parseNumeral val.tail

section Functions

variable (decode : List Char → Option (List Char))

/-- `header_decode`: the user id. -/
def headerDecode (src : List Char) : Except Stop ℕ :=
  match decode src with
  | none => .error .inval
  | some dst =>
    match dst.getLast? with
    | none => .error .outOfBounds
    | some c =>
      if c ≠ nul then .error .inval
      else do
        let vals ← parseEntries dst ⟨none, none, none⟩
        checkVals vals

/-- `payload_decode`. -/
def payloadDecode (src : List Char) : Except Stop (List Char) :=
  match decode src with
  | none => .error .inval
  | some payload => .ok payload

/-- The second half of `sign_none_unwrap`: what follows the header is the payload and the
mechanism. -/
def unwrapPayload (input : List Char) : Except Stop (List Char) :=
  if '.' ∉ input then .error .inval
  else if input.dropWhile (· ≠ '.') ≠ ".none".toList then .error .inval
  else payloadDecode decode (input.takeWhile (· ≠ '.'))

/-- `sign_none_unwrap`: the payload and the user id. The pointers for the results are not
`NULL`. -/
def signNoneUnwrap (input : Option (List Char)) : Except Stop (List Char × ℕ) :=
  match input with
  | none => .error .inval
  | some input =>
    if '.' ∉ input then .error .inval
    else do
      let userid ← headerDecode decode (input.takeWhile (· ≠ '.'))
      let payload ← unwrapPayload decode (input.dropWhile (· ≠ '.')).tail
      .ok (payload, userid)

end Functions

section Wrap

variable (encode : List Char → List Char)

/-- The bytes that `header_encode` encodes: the text with its colons replaced by NULs. -/
def headerBytes (userid : ℕ) : List Char :=
  ("version:i1:userid:i".toList ++ decimal userid ++ ":mech:snone:".toList).map fun c =>
    if c = ':' then nul else c

/-- `sign_none_wrap`, for a payload that is there. -/
def signNoneWrap (payload : List Char) (userid : ℕ) : List Char :=
  encode (headerBytes userid) ++ '.' :: (encode payload ++ ".none".toList)

/-- The result of `sign_none_wrap`, with the lengths that it has in variables of type `int`:
there is no memory for an encoded payload whose length is negative, and `asprintf` fails if the
text is too long. -/
def signNoneWrapResult (payload : List Char) (userid : ℕ) : Option (List Char) :=
  if 2 ^ 31 ≤ (encode payload).length + 1 then none
  else if 2 ^ 31 ≤ (signNoneWrap encode payload userid).length then none
  else some (signNoneWrap encode payload userid)

end Wrap

/-! ### Vectors of keys and values -/

/-- The bytes of a list of keys and values. -/
def entriesText (entries : List (List Char × List Char)) : List Char :=
  entries.flatMap fun e => e.1 ++ nul :: (e.2 ++ [nul])

/-- The keys and values are strings. -/
def NulFree (entries : List (List Char × List Char)) : Prop :=
  ∀ e ∈ entries, nul ∉ e.1 ∧ nul ∉ e.2

/-- The keys of a header. -/
def Known (key : List Char) : Prop :=
  key = "version".toList ∨ key = "userid".toList ∨ key = "mech".toList

/-- The value that a key has last. -/
def lastVal (key : List Char) (entries : List (List Char × List Char))
    (found : Option (List Char)) : Option (List Char) :=
  entries.foldl (fun found e => if e.1 = key then some e.2 else found) found

/-- The decoded header **carries** the user id `n`: it is a list of known keys with values, the
last version is `i1`, the last mechanism `snone`, and the last user id `i` and the decimal
numeral of `n`. -/
def Carries (header : List Char) (n : ℕ) : Prop :=
  ∃ entries digits, header = entriesText entries ∧ NulFree entries ∧ (∀ e ∈ entries, Known e.1) ∧
    lastVal "version".toList entries none = some "i1".toList ∧
    lastVal "mech".toList entries none = some "snone".toList ∧
    lastVal "userid".toList entries none = some ('i' :: digits) ∧
    digits ≠ [] ∧ (∀ c ∈ digits, c.isDigit = true) ∧ Nat.ofDigitChars 10 digits 0 = n

theorem cstringAt_append (hs : nul ∉ s) (rest : List Char) :
    cstringAt (s ++ nul :: rest) = .ok (s, rest) := by
  obtain ⟨htake, hdrop⟩ := span_at hs rest
  rw [cstringAt, if_pos (mem_append_right _ (mem_cons_self ..)), htake, hdrop, tail_cons]

theorem parseEntries_pair (hkey : nul ∉ key) (hval : nul ∉ val) (next : List Char) (vals : Vals) :
    parseEntries (key ++ nul :: (val ++ nul :: next)) vals =
      vals.set key val >>= parseEntries next := by
  rw [parseEntries, if_neg (by simp)]
  split
  · rename_i e h
    rw [cstringAt_append hkey] at h
    cases h
  rename_i key' entry h
  rw [cstringAt_append hkey] at h
  cases h
  rw [if_neg (by simp)]
  split
  · rename_i e h
    rw [cstringAt_append hval] at h
    cases h
  rename_i val' next' h
  rw [cstringAt_append hval] at h
  cases h
  cases vals.set key val <;> rfl

theorem parseEntries_odd (hkey : nul ∉ key) (vals : Vals) :
    parseEntries (key ++ [nul]) vals = .error .inval := by
  rw [parseEntries, if_neg (by simp)]
  split
  · rename_i e h
    rw [cstringAt_append hkey] at h
    cases h
  rename_i key' entry h
  rw [cstringAt_append hkey] at h
  cases h
  rw [if_pos rfl]

theorem entriesText_cons (e : List Char × List Char) (entries : List (List Char × List Char)) :
    entriesText (e :: entries) = e.1 ++ nul :: (e.2 ++ nul :: entriesText entries) := by
  simp [entriesText]

variable {entries : List (List Char × List Char)}

theorem parseEntries_entriesText (hfree : NulFree entries) (vals : Vals) :
    parseEntries (entriesText entries) vals =
      entries.foldlM (fun vals e => vals.set e.1 e.2) vals := by
  induction entries generalizing vals with
  | nil =>
    rw [entriesText, flatMap_nil, parseEntries, if_pos rfl]
    rfl
  | cons e entries ih =>
    obtain ⟨⟨hkey, hval⟩, hrest⟩ := forall_mem_cons.mp hfree
    rw [entriesText_cons, parseEntries_pair hkey hval, foldlM_cons]
    exact congrArg _ (funext (ih hrest))

theorem Vals.set_error {vals : Vals} {key val : List Char} {e : Stop}
    (h : vals.set key val = .error e) : e = .inval := by
  rw [set] at h
  split_ifs at h
  cases h
  rfl

theorem ends_of_append (h : (s ++ nul :: rest).getLast? = some nul) :
    rest = [] ∨ rest.getLast? = some nul := by
  by_cases hrest : rest = []
  · exact .inl hrest
  · rw [getLast?_append_of_ne_nil _ (by simp), getLast?_cons_of_ne_nil hrest] at h
    exact .inr h

theorem entries_or_inval {p : List Char} (hlast : p = [] ∨ p.getLast? = some nul) :
    (∃ entries, NulFree entries ∧ p = entriesText entries) ∨
      ∀ vals, parseEntries p vals = .error .inval := by
  induction hn : p.length using Nat.strong_induction_on generalizing p with
  | _ n ih =>
    rcases hlast with rfl | hlast
    · exact .inl ⟨[], forall_mem_nil _, rfl⟩
    obtain ⟨key, entry, rfl, hkey⟩ := eq_append_cons_of_mem
      (mem_of_mem_getLast? hlast)
    rcases ends_of_append hlast with rfl | hlast'
    · exact .inr (parseEntries_odd hkey)
    obtain ⟨val, next, rfl, hval⟩ := eq_append_cons_of_mem
      (mem_of_mem_getLast? hlast')
    have hsh : next.length < n := by
      simp only [length_append, length_cons] at hn
      omega
    rcases ih _ hsh (ends_of_append hlast') rfl with ⟨entries, hfree, rfl⟩ | hinval
    · refine .inl ⟨(key, val) :: entries, ?_, (entriesText_cons (key, val) entries).symm⟩
      exact forall_mem_cons.mpr ⟨⟨hkey, hval⟩, hfree⟩
    refine .inr fun vals => ?_
    rw [parseEntries_pair hkey hval]
    cases hset : vals.set key val with
    | error e =>
      rw [Vals.set_error hset]
      rfl
    | ok vals' => exact hinval vals'

instance (key : List Char) : Decidable (Known key) :=
  inferInstanceAs (Decidable (_ ∨ _ ∨ _))

theorem foldlM_set (entries : List (List Char × List Char)) (vals : Vals) :
    entries.foldlM (fun vals e => vals.set e.1 e.2) vals = if ∀ e ∈ entries, Known e.1 then
        .ok ⟨lastVal "version".toList entries vals.version,
          lastVal "userid".toList entries vals.userid, lastVal "mech".toList entries vals.mech⟩
      else .error .inval := by
  induction entries generalizing vals with
  | nil =>
    rw [if_pos (forall_mem_nil _)]
    rfl
  | cons e entries ih =>
    rw [foldlM_cons]
    by_cases hkn : Known e.1
    · have hset : ∃ vals', vals.set e.1 e.2 = .ok vals' ∧
          vals'.version = (if e.1 = "version".toList then some e.2 else vals.version) ∧
          vals'.userid = (if e.1 = "userid".toList then some e.2 else vals.userid) ∧
          vals'.mech = (if e.1 = "mech".toList then some e.2 else vals.mech) := by
        rw [Vals.set]
        rcases hkn with h | h | h
        · rw [h]
          exact ⟨_, if_pos rfl, rfl, rfl, rfl⟩
        · rw [h]
          exact ⟨_, (if_neg (by decide)).trans (if_pos rfl), rfl, rfl, rfl⟩
        · rw [h]
          exact ⟨_, (if_neg (by decide)).trans ((if_neg (by decide)).trans (if_pos rfl)),
            rfl, rfl, rfl⟩
      obtain ⟨vals', hset, hver, huid, hmech⟩ := hset
      have hall : (∀ e' ∈ e :: entries, Known e'.1) ↔ ∀ e' ∈ entries, Known e'.1 := by
        rw [forall_mem_cons, and_iff_right hkn]
      rw [hset, if_congr hall rfl rfl]
      simp only [lastVal, foldl_cons, ← hver, ← huid, ← hmech]
      exact ih vals'
    · have hset : vals.set e.1 e.2 = .error .inval := by
        rw [Known, not_or, not_or] at hkn
        rw [Vals.set, if_neg hkn.1, if_neg hkn.2.1, if_neg hkn.2.2]
      rw [hset, if_neg fun h => hkn (h e (mem_cons_self ..))]
      rfl

/-! ### The user id -/

theorem strtoul_accepts_iff (hhead : numeral.head?.any Char.isDigit = true) (u : ℕ) :
    (strtoul numeral).erange = false ∧ (strtoul numeral).endptr = [] ∧
        u = (strtoul numeral).value % 2 ^ 32 ↔
      (∀ c ∈ numeral, c.isDigit = true) ∧ Nat.ofDigitChars 10 numeral 0 < 2 ^ 64 ∧
        u = Nat.ofDigitChars 10 numeral 0 % 2 ^ 32 := by
  generalize hdigs : numeral.takeWhile Char.isDigit = digits
  generalize htail : numeral.dropWhile Char.isDigit = tail
  have happend : numeral = digits ++ tail := by
    rw [← hdigs, ← htail, takeWhile_append_dropWhile]
  have hall : ∀ c ∈ digits, c.isDigit = true := by
    rw [← hdigs]
    exact fun c hc => mem_takeWhile_imp hc
  have hne : digits ≠ [] := by
    rw [← hdigs]
    cases numeral with
    | nil => cases hhead
    | cons d ds =>
      have hd : d.isDigit = true := hhead
      rw [takeWhile_cons, hd]
      exact cons_ne_nil _ _
  have hend : NoDigit tail := by
    intro c hc
    rw [← htail] at hc
    have := List.head?_dropWhile_not Char.isDigit numeral
    rw [hc] at this
    simpa using this
  rw [happend, strtoul_digits hne hall hend]
  have hmem : (∀ c ∈ digits ++ tail, c.isDigit = true) ↔ tail = [] := by
    constructor
    · intro h
      cases tail with
      | nil => rfl
      | cons c cs =>
        have hc := h c (mem_append_right _ (mem_cons_self ..))
        rw [hend c rfl] at hc
        cases hc
    · rintro rfl
      rwa [append_nil]
  rw [hmem]
  by_cases htail' : tail = []
  · subst htail'
    rw [append_nil]
    split_ifs with hbig
    · constructor
      · rintro ⟨h, -⟩
        cases h
      · rintro ⟨-, hlt, -⟩
        exact absurd hbig (not_le.mpr hlt)
    · exact ⟨fun h => ⟨rfl, not_le.mp hbig, h.2.2⟩, fun h => ⟨rfl, rfl, h.2.2⟩⟩
  · have hno : ∀ v e, (⟨v, tail, e⟩ : Parsed ℕ).endptr ≠ [] := fun _ _ => htail'
    refine iff_of_false (fun h => ?_) fun h => htail' h.1
    split_ifs at h
    · exact hno _ _ h.2.1
    · exact hno _ _ h.2.1

theorem parseNumeral_ok_iff (numeral : List Char) (u : ℕ) :
    parseNumeral numeral = .ok u ↔ numeral ≠ [] ∧ (∀ c ∈ numeral, c.isDigit = true) ∧
      Nat.ofDigitChars 10 numeral 0 < 2 ^ 64 ∧ u = Nat.ofDigitChars 10 numeral 0 % 2 ^ 32 := by
  rw [parseNumeral]
  by_cases hhead : numeral.head?.any Char.isDigit = true
  · have hne : numeral ≠ [] := by
      rintro rfl
      cases hhead
    rw [if_neg (not_not.mpr hhead), and_iff_right hne, ← strtoul_accepts_iff hhead u]
    dsimp only
    split_ifs with hbad
    · refine iff_of_false (fun h => nomatch h) fun h => ?_
      rcases hbad with hbad | hbad
      · rw [h.1] at hbad
        cases hbad
      · exact hbad h.2.1
    · rw [not_or, not_not, Bool.not_eq_true] at hbad
      rw [and_iff_right hbad.1, and_iff_right hbad.2, Except.ok.injEq, eq_comm]
  · rw [if_pos hhead]
    refine iff_of_false (fun h => nomatch h) fun ⟨hne, hdigs, _⟩ => ?_
    obtain ⟨d, ds, rfl⟩ := exists_cons_of_ne_nil hne
    exact hhead (hdigs d (mem_cons_self ..))

theorem checkVals_ok_iff (vals : Vals) (u : ℕ) :
    checkVals vals = .ok u ↔ vals.version = some "i1".toList ∧ vals.mech = some "snone".toList ∧
      ∃ digits, vals.userid = some ('i' :: digits) ∧ digits ≠ [] ∧
        (∀ c ∈ digits, c.isDigit = true) ∧ Nat.ofDigitChars 10 digits 0 < 2 ^ 64 ∧
        u = Nat.ofDigitChars 10 digits 0 % 2 ^ 32 := by
  simp only [← parseNumeral_ok_iff]
  rw [checkVals]
  split_ifs with hfst
  · refine iff_of_false (fun h => nomatch h) fun h => ?_
    rcases hfst with hver | hmech
    · exact hver h.1
    · exact hmech h.2.1
  rw [not_or, not_not, not_not] at hfst
  rw [and_iff_right hfst.1, and_iff_right hfst.2]
  cases vals.userid with
  | none => exact iff_of_false (fun h => nomatch h) fun ⟨_, h, _⟩ => nomatch h
  | some val =>
    dsimp only
    split_ifs with hi
    · refine iff_of_false (fun h => nomatch h) ?_
      rintro ⟨digits, heq, -⟩
      cases heq
      exact hi rfl
    rw [not_not] at hi
    cases val with
    | nil => cases hi
    | cons c numeral =>
      cases hi
      constructor
      · exact fun h => ⟨numeral, rfl, h⟩
      · rintro ⟨digits, heq, h⟩
        cases heq
        exact h

theorem checkVals_ne_outOfBounds (vals : Vals) : checkVals vals ≠ .error .outOfBounds := by
  rw [checkVals]
  split_ifs
  · exact fun h => nomatch h
  cases vals.userid with
  | none => exact fun h => nomatch h
  | some val =>
    dsimp only [parseNumeral]
    split_ifs <;> exact fun h => nomatch h

/-! ### Headers -/

variable {decode : List Char → Option (List Char)}

theorem parseEntries_ok_iff (hfree : NulFree entries) :
    parseEntries (entriesText entries) ⟨none, none, none⟩ = if ∀ e ∈ entries, Known e.1 then
        .ok ⟨lastVal "version".toList entries none, lastVal "userid".toList entries none,
          lastVal "mech".toList entries none⟩
      else .error .inval := by
  rw [parseEntries_entriesText hfree, foldlM_set]

theorem Carries.unique (hn : Carries header n) (hm : Carries header m) : n = m := by
  obtain ⟨entries, digits, rfl, hfree, hkn, -, -, huid, -, -, rfl⟩ := hn
  obtain ⟨entries', digits', htext, hfree', hkn', -, -, huid', -, -, rfl⟩ := hm
  have hparse := parseEntries_ok_iff hfree
  rw [htext, parseEntries_ok_iff hfree', if_pos hkn, if_pos hkn', huid, huid',
    Except.ok.injEq, Vals.mk.injEq] at hparse
  cases hparse.2.1
  rfl

theorem getLast?_entriesText (hne : entries ≠ []) :
    (entriesText entries).getLast? = some nul := by
  obtain ⟨entries, e, rfl⟩ := (eq_nil_or_concat entries).resolve_left hne
  have htext : entriesText (entries.concat e) =
      entriesText entries ++ (e.1 ++ nul :: e.2) ++ [nul] := by
    simp [entriesText, flatMap_append]
  rw [htext, getLast?_concat]

theorem headerDecode_of_getLast? (hdec : decode src = some header)
    (hlast : header.getLast? = some nul) :
    headerDecode decode src = parseEntries header ⟨none, none, none⟩ >>= checkVals := by
  rw [headerDecode, hdec]
  simp only [hlast, ne_eq, not_true, if_false]

/-- **What `header_decode` accepts.** -/
theorem headerDecode_ok_iff (src : List Char) (u : ℕ) : headerDecode decode src = .ok u ↔
      ∃ header n, decode src = some header ∧ Carries header n ∧ n < 2 ^ 64 ∧ u = n % 2 ^ 32 := by
  constructor
  · intro h
    cases hdec : decode src with
    | none =>
      rw [headerDecode, hdec] at h
      cases h
    | some header =>
      have hlast : header.getLast? = some nul := by
        rw [headerDecode, hdec] at h
        cases hlast : header.getLast? with
        | none =>
          simp only [hlast] at h
          cases h
        | some c =>
          simp only [hlast] at h
          split_ifs at h with hc
          rw [not_not.mp hc]
      rw [headerDecode_of_getLast? hdec hlast] at h
      rcases entries_or_inval (.inr hlast) with ⟨entries, hfree, rfl⟩ | hinval
      · rw [parseEntries_ok_iff hfree] at h
        split_ifs at h with hkn
        · obtain ⟨hver, hmech, digits, huid, hne, hdigs, hlt, rfl⟩ :=
            (checkVals_ok_iff _ u).mp h
          exact ⟨_, _, rfl, ⟨entries, digits, rfl, hfree, hkn, hver, hmech, huid,
            hne, hdigs, rfl⟩, hlt, rfl⟩
        · cases h
      · rw [hinval] at h
        cases h
  · rintro ⟨header, n, hdec, ⟨entries, digits, rfl, hfree, hkn, hver, hmech, huid,
      hne, hdigs, rfl⟩, hlt, rfl⟩
    have hents : entries ≠ [] := by
      rintro rfl
      cases hver
    rw [headerDecode_of_getLast? hdec (getLast?_entriesText hents),
      parseEntries_ok_iff hfree, if_pos hkn]
    exact (checkVals_ok_iff _ _).mpr ⟨hver, hmech, digits, huid, hne, hdigs, hlt, rfl⟩

/-- **Where `header_decode` reads outside of the decoded bytes.** -/
theorem headerDecode_outOfBounds_iff (src : List Char) :
    headerDecode decode src = .error .outOfBounds ↔ decode src = some [] := by
  cases hdec : decode src with
  | none =>
    rw [headerDecode, hdec]
    exact iff_of_false (fun h => nomatch h) (fun h => nomatch h)
  | some header =>
    cases hlast : header.getLast? with
    | none =>
      rw [getLast?_eq_none_iff] at hlast
      rw [hlast, headerDecode, hdec, hlast]
      exact iff_of_true rfl rfl
    | some c =>
      have hne : some header ≠ some [] := by
        rintro h
        cases h
        cases hlast
      refine iff_of_false (fun h => ?_) hne
      by_cases hc : c = nul
      · subst hc
        rw [headerDecode_of_getLast? hdec hlast] at h
        rcases entries_or_inval (.inr hlast) with ⟨entries, hfree, rfl⟩ | hinval
        · rw [parseEntries_ok_iff hfree] at h
          split_ifs at h
          · exact checkVals_ne_outOfBounds _ h
          · cases h
        · rw [hinval] at h
          cases h
      · rw [headerDecode, hdec] at h
        simp only [hlast, ne_eq, hc, not_false_iff, if_true] at h
        cases h

/-! ### Inputs -/

/-- The input is a header and a payload, both of them decoded, and the mechanism. -/
def Splits (decode : List Char → Option (List Char)) (input header payload : List Char) : Prop :=
  ∃ h p, input = h ++ '.' :: (p ++ ".none".toList) ∧ '.' ∉ h ∧ '.' ∉ p ∧
    decode h = some header ∧ decode p = some payload

/-- The text before the first period is decoded to no bytes at all. -/
def EmptyHeader (decode : List Char → Option (List Char)) (input : List Char) : Prop :=
  ∃ h rest, input = h ++ '.' :: rest ∧ '.' ∉ h ∧ decode h = some []

theorem unwrapPayload_ok_iff (rest payload : List Char) :
    unwrapPayload decode rest = .ok payload ↔
      ∃ p, rest = p ++ ".none".toList ∧ '.' ∉ p ∧ decode p = some payload := by
  by_cases hdot : '.' ∈ rest
  · obtain ⟨p, mech, rfl, hp⟩ := eq_append_cons_of_mem hdot
    obtain ⟨htake, hdrop⟩ := span_at hp mech
    rw [unwrapPayload, if_neg (not_not.mpr hdot), htake, hdrop, payloadDecode]
    constructor
    · intro h
      split_ifs at h with hnone
      cases hpay : decode p with
      | none =>
        rw [hpay] at h
        cases h
      | some bytes =>
        rw [hpay] at h
        cases h
        exact ⟨p, by rw [not_not.mp hnone], hp, hpay⟩
    · rintro ⟨p', heq, hp', hpay⟩
      obtain ⟨htake', hdrop'⟩ := span_at hp' ['n', 'o', 'n', 'e']
      have heq' : p ++ '.' :: mech = p' ++ '.' :: ['n', 'o', 'n', 'e'] := heq
      rw [heq', htake'] at htake
      rw [heq', hdrop'] at hdrop
      rw [← htake, ← hdrop, hpay]
      rfl
  · rw [unwrapPayload, if_pos hdot]
    refine iff_of_false (fun h => nomatch h) ?_
    rintro ⟨p, rfl, -, -⟩
    exact hdot (mem_append_right _ (by decide))

theorem unwrapPayload_ne_outOfBounds (rest : List Char) :
    unwrapPayload decode rest ≠ .error .outOfBounds := by
  unfold unwrapPayload payloadDecode
  split_ifs
  · exact fun h => nomatch h
  · cases decode (rest.takeWhile (· ≠ '.')) <;> exact fun h => nomatch h
  · exact fun h => nomatch h

theorem signNoneUnwrap_eq (hh : '.' ∉ h) (rest : List Char) :
    signNoneUnwrap decode (some (h ++ '.' :: rest)) = headerDecode decode h >>= fun userid =>
        unwrapPayload decode rest >>= fun payload => .ok (payload, userid) := by
  obtain ⟨htake, hdrop⟩ := span_at hh rest
  have hin : ¬ '.' ∉ h ++ '.' :: rest := not_not.mpr
    (mem_append_right _ (mem_cons_self ..))
  simp only [signNoneUnwrap, if_neg hin, htake, hdrop, tail_cons]

/-- **What `sign_none_unwrap` accepts.** -/
theorem signNoneUnwrap_ok_iff (input payload : List Char) (u : ℕ) :
    signNoneUnwrap decode (some input) = .ok (payload, u) ↔
      ∃ header n, Splits decode input header payload ∧ Carries header n ∧ n < 2 ^ 64 ∧
        u = n % 2 ^ 32 := by
  constructor
  · intro hok
    by_cases hdot : '.' ∈ input
    · obtain ⟨h, rest, rfl, hh⟩ := eq_append_cons_of_mem hdot
      rw [signNoneUnwrap_eq hh] at hok
      cases hhdr : headerDecode decode h with
      | error e =>
        rw [hhdr] at hok
        cases hok
      | ok userid =>
        cases hrest : unwrapPayload decode rest with
        | error e =>
          rw [hhdr, hrest] at hok
          cases hok
        | ok bytes =>
          rw [hhdr, hrest] at hok
          cases hok
          obtain ⟨header, n, hdec, hcar, hlt, hu⟩ :=
            (headerDecode_ok_iff h u).mp hhdr
          obtain ⟨p, rfl, hp, hpay⟩ := (unwrapPayload_ok_iff rest payload).mp hrest
          exact ⟨header, n, ⟨h, p, rfl, hh, hp, hdec, hpay⟩, hcar, hlt, hu⟩
    · rw [signNoneUnwrap, if_pos hdot] at hok
      cases hok
  · rintro ⟨header, n, ⟨h, p, rfl, hh, hp, hdec, hpay⟩, hcar, hlt, rfl⟩
    have hhdr : headerDecode decode h = .ok (n % 2 ^ 32) :=
      (headerDecode_ok_iff h _).mpr ⟨header, n, hdec, hcar, hlt, rfl⟩
    have hrest : unwrapPayload decode (p ++ ".none".toList) = .ok payload :=
      (unwrapPayload_ok_iff _ _).mpr ⟨p, rfl, hp, hpay⟩
    rw [signNoneUnwrap_eq hh, hhdr, hrest]
    rfl

/-- **Where `sign_none_unwrap` reads outside of the decoded bytes.** -/
theorem signNoneUnwrap_outOfBounds_iff (input : List Char) :
    signNoneUnwrap decode (some input) = .error .outOfBounds ↔ EmptyHeader decode input := by
  constructor
  · intro hout
    by_cases hdot : '.' ∈ input
    · obtain ⟨h, rest, rfl, hh⟩ := eq_append_cons_of_mem hdot
      refine ⟨h, rest, rfl, hh, (headerDecode_outOfBounds_iff h).mp ?_⟩
      rw [signNoneUnwrap_eq hh] at hout
      cases hhdr : headerDecode decode h with
      | error e =>
        rw [hhdr] at hout
        cases hout
        rfl
      | ok userid =>
        cases hrest : unwrapPayload decode rest with
        | error e =>
          rw [hhdr, hrest] at hout
          cases hout
          exact absurd hrest (unwrapPayload_ne_outOfBounds rest)
        | ok bytes =>
          rw [hhdr, hrest] at hout
          cases hout
    · rw [signNoneUnwrap, if_pos hdot] at hout
      cases hout
  · rintro ⟨h, rest, rfl, hh, hemp⟩
    rw [signNoneUnwrap_eq hh, (headerDecode_outOfBounds_iff h).mpr hemp]
    rfl

theorem Splits.unique (h : Splits decode input header payload)
    (h' : Splits decode input header' payload') : header = header' := by
  obtain ⟨a, p, rfl, ha, -, hdec, -⟩ := h
  obtain ⟨a', p', heq, ha', -, hdec', -⟩ := h'
  have htake := (span_at ha (p ++ ".none".toList)).1
  rw [heq, (span_at ha' (p' ++ ".none".toList)).1] at htake
  rw [htake, hdec] at hdec'
  exact Option.some.inj hdec'

/-- Unwrapping is **exact** on an input: all reads are within the decoded bytes, and a user id
that is returned is the one that the header carries. -/
def Exact (decode : List Char → Option (List Char)) (input : List Char) : Prop :=
  signNoneUnwrap decode (some input) ≠ .error .outOfBounds ∧
    ∀ payload u, signNoneUnwrap decode (some input) = .ok (payload, u) →
      ∃ header, Splits decode input header payload ∧ Carries header u

/-- **Where the signer's id is exact:** the header is not empty after decoding, and the user id it
carries does not need more than 32 bits, or it needs more than 64. -/
theorem unwrap_exact_iff (decode : List Char → Option (List Char)) (input : List Char) :
    Exact decode input ↔ ¬ EmptyHeader decode input ∧
      ∀ header payload n, Splits decode input header payload → Carries header n →
        n < 2 ^ 32 ∨ 2 ^ 64 ≤ n := by
  rw [Exact, ne_eq, signNoneUnwrap_outOfBounds_iff]
  refine and_congr_right fun _ => ⟨fun hex header payload n hspl hcar => ?_,
    fun hsmall payload u hok => ?_⟩
  · by_contra hrange
    rw [not_or, not_lt, not_le] at hrange
    obtain ⟨header', hspl', hcar'⟩ := hex payload (n % 2 ^ 32)
      ((signNoneUnwrap_ok_iff _ _ _).mpr ⟨header, n, hspl, hcar, hrange.2, rfl⟩)
    rw [← hspl.unique hspl'] at hcar'
    have heq := hcar.unique hcar'
    have hmod := Nat.mod_lt n (show 0 < 2 ^ 32 by decide)
    omega
  · obtain ⟨header, n, hspl, hcar, hlt, rfl⟩ := (signNoneUnwrap_ok_iff _ _ _).mp hok
    have hn : n < 2 ^ 32 := (hsmall header payload n hspl hcar).resolve_right
      (not_le.mpr hlt)
    rw [Nat.mod_eq_of_lt hn]
    exact ⟨header, hspl, hcar⟩

/-! ### Wrapping -/

/-- The keys and values that `header_encode` writes. -/
def ownEntries (userid : ℕ) : List (List Char × List Char) :=
  [("version".toList, "i1".toList), ("userid".toList, 'i' :: decimal userid),
    ("mech".toList, "snone".toList)]

theorem headerBytes_eq (userid : ℕ) : headerBytes userid = entriesText (ownEntries userid) := by
  have hdigs : (decimal userid).map (fun c => if c = ':' then nul else c) = decimal userid := by
    refine (map_congr_left fun c hc => if_neg ?_).trans (List.map_id _)
    rintro rfl
    exact absurd (isDigit_of_mem_decimal hc) (by decide)
  have hbef : "version:i1:userid:i".toList.map (fun c => if c = ':' then nul else c) =
      "version".toList ++ nul :: ("i1".toList ++ nul :: ("userid".toList ++ [nul, 'i'])) := by
    decide
  have hbehind : ":mech:snone:".toList.map (fun c => if c = ':' then nul else c) =
      nul :: ("mech".toList ++ nul :: ("snone".toList ++ [nul])) := by
    decide
  unfold headerBytes ownEntries
  rw [map_append, map_append, hdigs, hbef, hbehind, entriesText_cons,
    entriesText_cons, entriesText_cons]
  simp only [entriesText, flatMap_nil, append_assoc, cons_append, nil_append]

theorem carries_headerBytes (userid : ℕ) : Carries (headerBytes userid) userid := by
  have hnul : nul ∉ 'i' :: decimal userid := by
    rw [mem_cons]
    rintro (h | h)
    · exact absurd h (by decide)
    · exact absurd (isDigit_of_mem_decimal h) (by decide)
  refine ⟨ownEntries userid, decimal userid, headerBytes_eq userid, ?_, ?_, rfl, rfl, rfl,
    decimal_ne_nil userid, fun c => isDigit_of_mem_decimal, Nat.ofDigitChars_ten_toDigits⟩
  · simp only [NulFree, ownEntries, forall_mem_cons]
    exact ⟨⟨by decide, by decide⟩, ⟨by decide, hnul⟩, ⟨by decide, by decide⟩, forall_mem_nil _⟩
  · simp only [ownEntries, forall_mem_cons]
    exact ⟨.inl rfl, .inr (.inl rfl), .inr (.inr rfl), forall_mem_nil _⟩

/-- **What is wrapped is unwrapped,** with the payload and the user id. -/
theorem signNoneUnwrap_signNoneWrap (hinv : ∀ bytes, decode (encode bytes) = some bytes)
    (hdot : ∀ bytes, '.' ∉ encode bytes) (payload : List Char) (huid : userid < 2 ^ 32) :
    signNoneUnwrap decode (some (signNoneWrap encode payload userid)) =
      .ok (payload, userid) := by
  have hspl : Splits decode (signNoneWrap encode payload userid) (headerBytes userid)
      payload :=
    ⟨encode (headerBytes userid), encode payload, rfl, hdot _, hdot _, hinv _, hinv _⟩
  exact (signNoneUnwrap_ok_iff _ _ _).mpr ⟨headerBytes userid, userid, hspl,
    carries_headerBytes userid, huid.trans (by decide), (Nat.mod_eq_of_lt huid).symm⟩

/-- An encoding in which no dot occurs. -/
def encodePairs (bytes : List Char) : List Char :=
  bytes.flatMap fun c => if c = '.' then ['a', 'a'] else ['c', c]

/-- The decoder of `encodePairs`. -/
def decodePairs : List Char → Option (List Char)
  | a :: b :: rest => (decodePairs rest).map ((if a = 'a' then '.' else b) :: ·)
  | _ => some []

theorem decodePairs_encodePairs (bytes : List Char) :
    decodePairs (encodePairs bytes) = some bytes := by
  induction bytes with
  | nil => rfl
  | cons c bytes ih =>
    rw [encodePairs, flatMap_cons, ← encodePairs]
    split_ifs with hc <;> simp [decodePairs, ih, hc]

theorem dot_notMem_encodePairs (bytes : List Char) : '.' ∉ encodePairs bytes := by
  intro h
  obtain ⟨c, -, hc⟩ := mem_flatMap.1 h
  split_ifs at hc with hdot
  · exact absurd hc (by decide)
  · simp [Ne.symm hdot] at hc

theorem length_encodePairs (bytes : List Char) : (encodePairs bytes).length = bytes.length * 2 := by
  induction bytes with
  | nil => rfl
  | cons c bytes ih =>
    rw [encodePairs, flatMap_cons, ← encodePairs, length_append, ih, length_cons]
    split_ifs <;> simp only [length_cons, length_nil] <;> omega

theorem not_wrapped (h : 2 ^ 31 ≤ n * 2 + 1) (c : Char) (userid : ℕ) :
    signNoneWrapResult encodePairs (replicate n c) userid = none := by
  rw [signNoneWrapResult, length_encodePairs, length_replicate, if_pos h]

/-- The value of a character of base64. -/
def sextet (c : Char) : Option ℕ :=
  if 'A' ≤ c ∧ c ≤ 'Z' then some (c.toNat - 65)
  else if 'a' ≤ c ∧ c ≤ 'z' then some (c.toNat - 97 + 26)
  else if '0' ≤ c ∧ c ≤ '9' then some (c.toNat - 48 + 52)
  else if c = '+' then some 62
  else if c = '/' then some 63
  else none

/-- Base64 with padding. The bits that are not used are 0. -/
def decodeBase64 : List Char → Option (List Char)
  | [] => some []
  | [a, b, '=', '='] => do
      let x := (← sextet a) * 64 + (← sextet b)
      if x % 16 = 0 then some [Char.ofNat (x / 16)] else none
  | [a, b, c, '='] => do
      let x := ((← sextet a) * 64 + (← sextet b)) * 64 + (← sextet c)
      if x % 4 = 0 then some [Char.ofNat (x / 1024), Char.ofNat (x / 4 % 256)] else none
  | a :: b :: c :: d :: rest => do
      let x := (((← sextet a) * 64 + (← sextet b)) * 64 + (← sextet c)) * 64 + (← sextet d)
      let bytes ← decodeBase64 rest
      some (Char.ofNat (x / 65536) :: Char.ofNat (x / 256 % 256) :: Char.ofNat (x % 256) ::
        bytes)
  | _ => none

/-- The keys and values of a header with the user id 4294967296. -/
def largeId : List (List Char × List Char) :=
  [("version".toList, "i1".toList), ("userid".toList, "i4294967296".toList),
    ("mech".toList, "snone".toList)]

/-- The text of that header in base64. -/
def largeIdText : List Char :=
  "dmVyc2lvbgBpMQB1c2VyaWQAaTQyOTQ5NjcyOTYAbWVjaABzbm9uZQA=".toList

/-- The header with the payload `x`. -/
def largeIdInput : List Char := largeIdText ++ '.' :: ("eA==".toList ++ ".none".toList)

theorem carries_largeId : Carries (entriesText largeId) 4294967296 :=
  ⟨largeId, "4294967296".toList, rfl, by unfold NulFree; decide, by decide, by decide, by decide,
    by decide, by decide, by decide, by decide +kernel⟩

theorem splits_largeId : Splits decodeBase64 largeIdInput (entriesText largeId) ['x'] :=
  ⟨largeIdText, "eA==".toList, rfl, by decide, by decide, by decide +kernel, by decide +kernel⟩

/-- **The id of the signer is cut to 32 bits,** so that 4294967296 passes for 0; and a header
without bytes is read before its start. -/
theorem large_id_passes_for_root :
    signNoneUnwrap decodeBase64 (some largeIdInput) = .ok (['x'], 0) ∧
      ¬ Exact decodeBase64 largeIdInput ∧
      signNoneUnwrap decodeBase64 (some ['.']) = .error .outOfBounds ∧
      ¬ Exact decodeBase64 ['.'] := by
  have hroot : signNoneUnwrap decodeBase64 (some largeIdInput) = .ok (['x'], 0) := by
    decide +kernel
  have hout : signNoneUnwrap decodeBase64 (some ['.']) = .error .outOfBounds := by
    decide +kernel
  refine ⟨hroot, fun hex => ?_, hout, fun hex => hex.1 hout⟩
  obtain ⟨header, hspl, hcar⟩ := hex.2 _ _ hroot
  rw [← splits_largeId.unique hspl] at hcar
  exact absurd (carries_largeId.unique hcar) (by decide)

end FluxCore.Libjob.SignNone
