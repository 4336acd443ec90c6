import FluxCore.Lib.Cstring
import FluxCore.Libidset

/-!
# Idsets as Strings

`idset_encode` and `idset_decode`. The encoder walks through the members once, with a look at the
next one; with ranges it keeps the range that is still open in `lo` and `hi`. It starts with a
bracket if brackets are wanted and removes it again if there were not two members. The decoder
takes the list apart at its commas and adds the ids of each range from the upper end down, with an
unsigned counter that passes from 0 to `UINT_MAX`.

What both have in common is a list of ranges, and its text (`rangeText`): without ranges each
member is a range of its own, and with them the ranges are the `runs` of the members. A list of
ranges is decoded to their union whatever it is (`decode_body`).
-/

namespace FluxCore.Libidset

open Cstring List

/-- `IDSET_FLAG_BRACKETS`. -/
def flagBrackets : ℕ := 2

/-- `IDSET_FLAG_RANGE`. -/
def flagRange : ℕ := 4

/-- `INT_MAX`. -/
def intMax : ℕ := 2 ^ 31 - 1

/-! ### `idset_encode` -/

/-- `catprintf`, with the text that is to be appended. The string may still be `NULL`. -/
def catprintf (s : Option (List Char)) (text : List Char) : Option (List Char) :=
  some (s.getD [] ++ text)

/-- The text of `catrange` without the separator. -/
def rangeText (lo hi : ℕ) : List Char :=
  if lo = hi then decimal lo else decimal lo ++ '-' :: decimal hi

/-- `catrange`. -/
def catrange (s : Option (List Char)) (lo hi : ℕ) (sep : List Char) : Option (List Char) :=
  catprintf s (rangeText lo hi ++ sep)

/-- The text of `%d` for an unsigned number. -/
def signedText (id : ℕ) : List Char :=
  if id < 2 ^ 31 then decimal id else '-' :: decimal (2 ^ 32 - id)

/-- One more member, in an `int` that stops at `INT_MAX`. -/
def countUp (count : ℕ) : ℕ := if count < intMax then count + 1 else count

/-- The variables of `encode_ranged`. -/
structure Ranged where
  str : Option (List Char)
  count : ℕ
  lo : ℕ
  hi : ℕ
  first : Bool

/-- The first half of a turn of the loop of `encode_ranged`: the next id starts the first range,
or is in the open range, or starts a new one. -/
def Ranged.take (st : Ranged) (id : ℕ) : Ranged :=
  if st.first then { st with first := false }
  else if id = (st.hi + 1) % 2 ^ 32 then { st with hi := (st.hi + 1) % 2 ^ 32 }
  else { st with str := catrange st.str st.lo st.hi [','], lo := id, hi := id }

/-- The second half: the range is written at the last id. -/
def Ranged.finish (st : Ranged) (last : Bool) : Ranged :=
  let st := if last then { st with str := catrange st.str st.lo st.hi [] } else st
  { st with count := countUp st.count }

/-- One turn of the loop of `encode_ranged`. -/
def encodeRangedStep (last : Bool) (st : Ranged) (id : ℕ) : Ranged := (st.take id).finish last

/-- One turn of the loop of `encode_simple`. -/
def encodeSimpleStep (last : Bool) (st : Option (List Char) × ℕ) (id : ℕ) :
    Option (List Char) × ℕ :=
  (catprintf st.1 (signedText id ++ if last then [] else [',']), countUp st.2)

section Functions

variable {V : Type} (S : SuccSet V)

/-- `encode_ranged`: the string and the count. -/
def encodeRanged (idset : Idset V) (s : Option (List Char)) : Option (List Char) × ℕ :=
  let id := S.succ idset.T 0
  let st := S.foldFrom
    (fun st id => encodeRangedStep (S.succ idset.T (id + 1) = S.bound idset.T) st id) idset.T id
    { str := s, count := 0, lo := id, hi := id, first := true }
  (st.str, st.count)

/-- `encode_simple`: the string and the count. The loop ends at the size of the tree, and no
search goes beyond. -/
def encodeSimple (idset : Idset V) (s : Option (List Char)) : Option (List Char) × ℕ :=
  S.foldFrom
    (fun st id => encodeSimpleStep (S.succ idset.T (id + 1) = S.bound idset.T) st id) idset.T
    (S.succ idset.T 0) (s, 0)

/-- `idset_encode`. -/
def idsetEncode (idset : Option (Idset V)) (flags : ℕ) : Except Errno (List Char) := do
  validateIdsetFlags flags (flagBrackets ||| flagRange)
  match idset with
  | none => .error .EINVAL
  | some idset =>
    let str := if flags &&& flagBrackets ≠ 0 then catprintf none ['['] else none
    let res := if flags &&& flagRange ≠ 0 then encodeRanged S idset str
      else encodeSimple S idset str
    let str := if flags &&& flagBrackets ≠ 0 ∧ res.2 > 1 then catprintf res.1 [']'] else res.1
    let str := str.getD []
    .ok (if res.2 ≤ 1 ∧ str.head? = some '[' then str.tail else str)

/-! ### `idset_decode` -/

/-- `parse_range`: the upper and the lower end. -/
def parseRange (s : List Char) : Option (ℕ × ℕ) :=
  let n := strtoul s
  if n.value ≥ uintMax ∨ n.endptr = s ∨ (n.endptr ≠ [] ∧ n.endptr.head? ≠ some '-') then none
  else if n.endptr.head? = some '-' then
    let s := n.endptr.tail
    let m := strtoul s
    if m.value ≥ uintMax ∨ m.endptr = s ∨ m.endptr ≠ [] then none
    else if m.value ≥ n.value then some (m.value, n.value) else some (n.value, m.value)
  else some (n.value, n.value)

/-- `trim_brackets`. -/
def trimBrackets (s : List Char) : List Char :=
  let p := if s.head? = some '[' then s.tail else s
  if p.getLast? = some ']' then p.dropLast else p

/-- The loop that sets the ids from `i` down to `lo`. The counter is unsigned: what comes after 0
is `UINT_MAX`. -/
def setDown (lo i : ℕ) (idset : Idset V) : Except Errno (Idset V) :=
  if i ≥ lo ∧ i ≠ uintMax then
    match idsetSet S (some idset) i with
    | .error e => .error e
    | .ok idset => setDown lo (if i = 0 then uintMax else i - 1) idset
  else .ok idset
termination_by if i = uintMax then 0 else i + 1
decreasing_by split_ifs <;> omega

/-- The loop of `idset_decode` over the items of the list. -/
def decodeItems (s : List Char) (idset : Idset V) : Except Errno (Idset V) :=
  match _h : strtokR ',' s with
  | none => .ok idset
  | some (tok, rest) =>
    match parseRange tok with
    | none => .error .EINVAL
    | some (hi, lo) =>
      match setDown S lo hi idset with
      | .error e => .error e
      | .ok idset => decodeItems rest idset
termination_by s.length
decreasing_by exact length_strtokR_lt (by assumption)

/-- `idset_decode`. -/
def idsetDecode (str : Option (List Char)) : Except Errno (Idset V) :=
  match str with
  | none => .error .EINVAL
  | some str => do
      let idset ← idsetCreate S 0 flagAutogrow
      decodeItems S (trimBrackets str) idset

end Functions

/-! ### The text of a list of ranges -/

/-- The text between the brackets. -/
def bodyText (ranges : List (ℕ × ℕ)) : List Char :=
  joined ',' (ranges.map fun r => rangeText r.1 r.2)

/-- The ids of a list of ranges. -/
def idsOf (ranges : List (ℕ × ℕ)) : Finset ℕ :=
  ranges.foldr (fun r ids => Finset.Icc r.1 r.2 ∪ ids) ∅

/-- The ranges of a list of ids whose last range so far is from `lo` to `hi`. -/
def runs (lo hi : ℕ) : List ℕ → List (ℕ × ℕ)
  | [] => [(lo, hi)]
  | id :: ids => if id = hi + 1 then runs lo id ids else (lo, hi) :: runs id id ids

theorem mem_rangeText (h : c ∈ rangeText lo hi) : c.isDigit = true ∨ c = '-' := by
  rw [rangeText] at h
  split_ifs at h
  · exact .inl (isDigit_of_mem_decimal h)
  rcases mem_append.mp h with h | h
  · exact .inl (isDigit_of_mem_decimal h)
  rcases mem_cons.mp h with rfl | h
  · exact .inr rfl
  · exact .inl (isDigit_of_mem_decimal h)

theorem rangeText_ne_nil (lo hi : ℕ) : rangeText lo hi ≠ [] := by
  rw [rangeText]
  split_ifs
  · exact decimal_ne_nil lo
  · simp

theorem not_mem_rangeText (hdig : c.isDigit = false) (hc : c ≠ '-') : c ∉ rangeText lo hi := by
  intro h
  rcases mem_rangeText h with h | h
  · rw [hdig] at h
    cases h
  · exact hc h

theorem not_mem_bodyText {ranges : List (ℕ × ℕ)} {c : Char} (hdig : c.isDigit = false)
    (hc : c ≠ '-') (hcomma : c ≠ ',') : c ∉ bodyText ranges := by
  intro h
  rcases mem_joined h with h | ⟨item, hitem, h⟩
  · exact hcomma h
  · obtain ⟨r, -, rfl⟩ := List.mem_map.mp hitem
    exact not_mem_rangeText hdig hc h

/-- **A range is read back.** -/
theorem parseRange_rangeText (hle : lo ≤ hi) (hhi : hi < uintMax) :
    parseRange (rangeText lo hi) = some (hi, lo) := by
  have hlo : lo < 2 ^ 64 ∧ ¬ lo ≥ uintMax := by
    rw [uintMax] at *
    omega
  have hhi' : hi < 2 ^ 64 ∧ ¬ hi ≥ uintMax := by
    rw [uintMax] at *
    omega
  have hend : NoDigit [] := fun _ h => by cases h
  have hdash : NoDigit ('-' :: decimal hi) := fun c hc => by
    cases hc
    decide
  have hsec := strtoul_decimal hhi'.1 hend
  rw [append_nil] at hsec
  rw [rangeText]
  split_ifs with heq
  · subst heq
    simp only [parseRange, hsec, hhi'.2, (decimal_ne_nil _).symm, ne_eq, not_true,
      false_and, or_self, if_false, List.head?_nil, reduceCtorEq]
  have hne : ('-' :: decimal hi) ≠ decimal lo ++ '-' :: decimal hi := by
    intro h
    have := congrArg length h
    have hpos := length_pos_of_ne_nil (decimal_ne_nil lo)
    rw [length_append] at this
    omega
  simp only [parseRange, strtoul_decimal hlo.1 hdash, hlo.2, hne, ne_eq, List.head?_cons,
    not_true, and_false, or_self, if_false, if_true, tail_cons, hsec, hhi'.2,
    (decimal_ne_nil hi).symm, ge_iff_le, hle]

/-! ### Decoding -/

variable {V : Type} {S : SuccSet V} {idset : Idset V} {s : Finset ℕ}

theorem Represents.setDown (h : Represents S idset s) (lo : ℕ) (hhi : hi < 2 ^ 30) :
    ∃ idset', Libidset.setDown S lo hi idset = .ok idset' ∧
      Represents S idset' (s ∪ Finset.Icc lo hi) := by
  induction hi generalizing idset s with
  | zero =>
    rw [Libidset.setDown]
    by_cases hlo : lo = 0
    · obtain ⟨idset', hset, h'⟩ := h.set hhi
      rw [if_pos ⟨by omega, by decide⟩, hset, if_pos rfl]
      dsimp only
      rw [Libidset.setDown, if_neg (fun hcond => hcond.2 rfl)]
      refine ⟨idset', rfl, ?_⟩
      rwa [hlo, Finset.Icc_self, Finset.union_comm, ← Finset.insert_eq]
    · rw [if_neg (by omega), Finset.Icc_eq_empty (by omega), Finset.union_empty]
      exact ⟨idset, rfl, h⟩
  | succ hi ih =>
    rw [Libidset.setDown]
    by_cases hlo : lo ≤ hi + 1
    · obtain ⟨idset', hset, h'⟩ := h.set hhi
      rw [if_pos ⟨hlo, by rw [uintMax]; omega⟩, hset]
      obtain ⟨idset'', hdown, h''⟩ := ih h' (by omega)
      have hunion : insert (hi + 1) s ∪ Finset.Icc lo hi = s ∪ Finset.Icc lo (hi + 1) := by
        ext y
        simp only [Finset.mem_union, Finset.mem_insert, Finset.mem_Icc, or_assoc,
          or_left_comm (a := y = hi + 1)]
        refine or_congr_right ?_
        omega
      exact ⟨idset'', hdown, hunion ▸ h''⟩
    · rw [if_neg (fun hcond => hlo hcond.1), Finset.Icc_eq_empty hlo, Finset.union_empty]
      exact ⟨idset, rfl, h⟩

/-- **A list of ranges is decoded to its ids.** -/
theorem Represents.decodeItems (ranges : List (ℕ × ℕ))
    (hrngs : ∀ r ∈ ranges, r.1 ≤ r.2 ∧ r.2 < 2 ^ 30) (h : Represents S idset s) :
    ∃ idset', Libidset.decodeItems S (bodyText ranges) idset = .ok idset' ∧
      Represents S idset' (s ∪ idsOf ranges) := by
  induction ranges generalizing idset s with
  | nil =>
    refine ⟨idset, ?_, by rwa [idsOf, foldr_nil, Finset.union_empty]⟩
    rw [Libidset.decodeItems]
    rfl
  | cons r ranges ih =>
    obtain ⟨⟨hle, hhi⟩, hrest⟩ := forall_mem_cons.mp hrngs
    obtain ⟨idset', hdown, h'⟩ := h.setDown r.1 hhi
    obtain ⟨idset'', hits, h''⟩ := ih hrest h'
    have htok : strtokR ',' (bodyText (r :: ranges)) =
        some (rangeText r.1 r.2, bodyText ranges) :=
      strtokR_joined (rangeText_ne_nil _ _) (not_mem_rangeText (by decide) (by decide)) _
    have hparse : parseRange (rangeText r.1 r.2) = some (r.2, r.1) :=
      parseRange_rangeText hle (by rw [uintMax]; omega)
    refine ⟨idset'', ?_, ?_⟩
    · rw [Libidset.decodeItems]
      split
      · rename_i hnone
        rw [htok] at hnone
        cases hnone
      rename_i tok rest hsome
      rw [htok] at hsome
      cases hsome
      rw [hparse]
      dsimp only
      rw [hdown]
      exact hits
    · rwa [idsOf, foldr_cons, ← Finset.union_assoc]

theorem trimBrackets_bracketed : trimBrackets ('[' :: (body ++ [']'])) = body := by
  simp [trimBrackets]

theorem trimBrackets_body (hopen : '[' ∉ body) (hclose : ']' ∉ body) :
    trimBrackets body = body := by
  have hhead : ¬ body.head? = some '[' := fun h => hopen (mem_of_mem_head? h)
  have hlast : ¬ body.getLast? = some ']' := fun h => hclose (mem_of_mem_getLast? h)
  rw [trimBrackets, if_neg hhead, if_neg hlast]

/-! ### Encoding -/

theorem bodyText_cons_cons (r r' : ℕ × ℕ) (ranges : List (ℕ × ℕ)) :
    bodyText (r :: r' :: ranges) = rangeText r.1 r.2 ++ ',' :: bodyText (r' :: ranges) := by
  simp [bodyText, joined]

theorem runs_ne_nil (lo hi : ℕ) (ids : List ℕ) : runs lo hi ids ≠ [] := by
  induction ids generalizing lo hi with
  | nil => exact cons_ne_nil _ _
  | cons id ids ih =>
    rw [runs]
    split_ifs
    · exact ih _ _
    · exact cons_ne_nil _ _

theorem foldLast_encodeSimpleStep (ids : List ℕ) (hids : ∀ id ∈ ids, id < 2 ^ 30)
    (str : Option (List Char)) (count : ℕ) :
    (SuccSet.foldLast encodeSimpleStep (str, count) ids).1.getD [] =
      str.getD [] ++ bodyText (ids.map fun id => (id, id)) := by
  induction ids generalizing str count with
  | nil => exact (append_nil _).symm
  | cons id ids ih =>
    obtain ⟨hid, hrest⟩ := forall_mem_cons.mp hids
    have htext : signedText id = rangeText id id := by
      rw [signedText, if_pos (by omega), rangeText, if_pos rfl]
    rw [SuccSet.foldLast, encodeSimpleStep, ih hrest, htext]
    cases ids with
    | nil => simp [catprintf, bodyText, joined]
    | cons id' ids =>
      rw [map_cons, map_cons, map_cons, bodyText_cons_cons]
      simp [catprintf]

theorem Ranged.take_text {st : Ranged} (hfst : st.first = false) (hhi : st.hi < 2 ^ 30)
    (id : ℕ) (ids : List ℕ) :
    (st.take id).str.getD [] ++ bodyText (runs (st.take id).lo (st.take id).hi ids) =
      st.str.getD [] ++ bodyText (runs st.lo st.hi (id :: ids)) := by
  have hmod : (st.hi + 1) % 2 ^ 32 = st.hi + 1 := Nat.mod_eq_of_lt (by omega)
  rw [take, hfst, hmod, if_neg Bool.false_ne_true, runs]
  by_cases hnext : id = st.hi + 1
  · rw [if_pos hnext, if_pos hnext, hnext]
  rw [if_neg hnext, if_neg hnext]
  obtain ⟨r, rs, hruns⟩ := exists_cons_of_ne_nil (runs_ne_nil id id ids)
  simp only [hruns, bodyText_cons_cons, catrange, catprintf, Option.getD_some,
    append_assoc, cons_append, nil_append]

theorem foldLast_encodeRangedStep (ids : List ℕ) (hids : ∀ id ∈ ids, id < 2 ^ 30) (st : Ranged)
    (hfst : st.first = false) (hhi : st.hi < 2 ^ 30) :
    (SuccSet.foldLast encodeRangedStep (st.finish ids.isEmpty) ids).str.getD [] =
      st.str.getD [] ++ bodyText (runs st.lo st.hi ids) := by
  induction ids generalizing st with
  | nil => simp [SuccSet.foldLast, Ranged.finish, catrange, catprintf, runs, bodyText, joined]
  | cons id ids ih =>
    obtain ⟨hid, hrest⟩ := forall_mem_cons.mp hids
    have hfst' : ((st.finish false).take id).first = false := by
      simp only [Ranged.take, Ranged.finish, Bool.false_eq_true, if_false, hfst]
      split_ifs <;> rfl
    have hhi' : ((st.finish false).take id).hi < 2 ^ 30 := by
      simp only [Ranged.take, Ranged.finish, Bool.false_eq_true, if_false, hfst]
      split_ifs with hnext
      · exact hnext ▸ hid
      · exact hid
    rw [SuccSet.foldLast, isEmpty_cons, encodeRangedStep, ih hrest _ hfst' hhi']
    exact Ranged.take_text (show (st.finish false).first = false from hfst) hhi id ids

/-! ### The runs of a list of ids -/

theorem mem_idsOf {ranges : List (ℕ × ℕ)} {y : ℕ} :
    y ∈ idsOf ranges ↔ ∃ r ∈ ranges, r.1 ≤ y ∧ y ≤ r.2 := by
  induction ranges with
  | nil => simp [idsOf]
  | cons r ranges ih =>
    rw [idsOf, foldr_cons, Finset.mem_union, Finset.mem_Icc, ← idsOf, ih]
    simp

/-- **Runs are maximal:** each range is not empty, and between two of them an id is missing. -/
theorem runs_spec (hle : lo ≤ hi) (hsrt : (hi :: ids).Pairwise (· < ·)) :
    (∀ r ∈ runs lo hi ids, lo ≤ r.1 ∧ r.1 ≤ r.2 ∧ r.2 ∈ hi :: ids) ∧
      (runs lo hi ids).Pairwise (fun r r' => r.2 + 1 < r'.1) ∧
      ∀ y, y ∈ idsOf (runs lo hi ids) ↔ (lo ≤ y ∧ y ≤ hi) ∨ y ∈ ids := by
  induction ids generalizing lo hi with
  | nil =>
    refine ⟨by simp [runs, hle], by simp [runs], fun y => ?_⟩
    simp [runs, idsOf]
  | cons id ids ih =>
    obtain ⟨hfst, hrest⟩ := pairwise_cons.mp hsrt
    have hlt : hi < id := hfst id (mem_cons_self ..)
    rw [runs]
    split_ifs with hnext
    · obtain ⟨hrngs, hpair, hids⟩ := ih (show lo ≤ id by omega) hrest
      refine ⟨fun r hr => ?_, hpair, fun y => ?_⟩
      · obtain ⟨h1, h2, h3⟩ := hrngs r hr
        exact ⟨h1, h2, mem_cons_of_mem _ h3⟩
      · rw [hids, mem_cons, ← or_assoc]
        refine or_congr_left ?_
        omega
    · obtain ⟨hrngs, hpair, hids⟩ := ih (le_refl id) hrest
      refine ⟨fun r hr => ?_, ?_, fun y => ?_⟩
      · rcases mem_cons.mp hr with rfl | hr
        · exact ⟨le_rfl, hle, mem_cons_self ..⟩
        · obtain ⟨h1, h2, h3⟩ := hrngs r hr
          exact ⟨by omega, h2, mem_cons_of_mem _ h3⟩
      · refine pairwise_cons.mpr ⟨fun r hr => ?_, hpair⟩
        have := (hrngs r hr).1
        show hi + 1 < r.1
        omega
      · rw [idsOf, foldr_cons, Finset.mem_union, Finset.mem_Icc, ← idsOf, hids, mem_cons]
        refine or_congr_right (or_congr_left ?_)
        omega

/-! ### The round trip -/

/-- The flags of `idset_encode`. -/
def encodeFlags (brackets range : Bool) : ℕ :=
  (if brackets then flagBrackets else 0) ||| (if range then flagRange else 0)

/-- The ranges that stand for a list of ids. -/
def rangesOf (range : Bool) (ids : List ℕ) : List (ℕ × ℕ) :=
  match range, ids with
  | false, ids => ids.map fun id => (id, id)
  | true, [] => []
  | true, id :: ids => runs id id ids

theorem countUp_iterate (n : ℕ) : countUp^[n] 0 = min n intMax := by
  induction n with
  | zero => rfl
  | succ n ih =>
    rw [Function.iterate_succ_apply', ih, countUp]
    split_ifs <;> omega

theorem encode_loop (hids : ∀ id ∈ S.members idset.T, id < 2 ^ 30) (range : Bool)
    (str : Option (List Char)) :
    let res := if range then encodeRanged S idset str else encodeSimple S idset str
    res.1.getD [] = str.getD [] ++
        bodyText (rangesOf range (S.listFrom idset.T (S.succ idset.T 0))) ∧
      res.2 = min (S.members idset.T).card intMax := by
  have hlist : ∀ id ∈ S.listFrom idset.T (S.succ idset.T 0), id < 2 ^ 30 := fun id hid =>
    hids id ((S.mem_listFrom_succ _).mp hid).1
  rw [← S.length_listFrom_succ_zero]
  cases range with
  | false =>
    simp only [Bool.false_eq_true, if_false, encodeSimple,
      S.foldFrom_eq_foldLast encodeSimpleStep _ (S.succ_le_bound _)]
    refine ⟨foldLast_encodeSimpleStep _ hlist _ _, ?_⟩
    rw [SuccSet.foldLast_iterate Prod.snd countUp (fun _ _ _ => rfl), countUp_iterate]
  | true =>
    simp only [if_true, encodeRanged,
      S.foldFrom_eq_foldLast encodeRangedStep _ (S.succ_le_bound _)]
    constructor
    · generalize hids' : S.listFrom idset.T (S.succ idset.T 0) = ids at hlist ⊢
      cases ids with
      | nil => exact (append_nil _).symm
      | cons id ids =>
        obtain ⟨hid, hrest⟩ := forall_mem_cons.mp hlist
        have hhead : S.succ idset.T 0 = id := by
          rw [SuccSet.listFrom] at hids'
          split_ifs at hids'
          exact (List.cons.inj hids').1
        rw [SuccSet.foldLast, encodeRangedStep, hhead]
        exact foldLast_encodeRangedStep ids hrest
          { str := str, count := 0, lo := id, hi := id, first := false } rfl hid
    · rw [SuccSet.foldLast_iterate Ranged.count countUp, countUp_iterate]
      intro last st id
      simp only [encodeRangedStep, Ranged.finish, Ranged.take]
      split_ifs <;> rfl

/-- **The text of an idset.** -/
theorem idsetEncode_eq (hids : ∀ id ∈ S.members idset.T, id < 2 ^ 30) (brackets range : Bool) :
    let body := bodyText (rangesOf range (S.listFrom idset.T (S.succ idset.T 0)))
    idsetEncode S (some idset) (encodeFlags brackets range) =
      .ok (if brackets ∧ 1 < (S.members idset.T).card then '[' :: (body ++ [']']) else body) := by
  have hval : validateIdsetFlags (encodeFlags brackets range) (flagBrackets ||| flagRange) =
      .ok () := by
    cases brackets <;> cases range <;> rfl
  have hbrk : (encodeFlags brackets range &&& flagBrackets ≠ 0) = (brackets = true) := by
    cases brackets <;> cases range <;> decide
  have hrange : (encodeFlags brackets range &&& flagRange ≠ 0) = (range = true) := by
    cases brackets <;> cases range <;> decide
  have hcnt : ∀ n : ℕ, min n intMax > 1 ↔ 1 < n := fun n => by
    rw [intMax]
    omega
  obtain ⟨hstr, hlen⟩ := encode_loop hids range (if brackets then catprintf none ['['] else none)
  have hopen : '[' ∉ bodyText (rangesOf range (S.listFrom idset.T (S.succ idset.T 0))) :=
    not_mem_bodyText (by decide) (by decide) (by decide)
  simp only [idsetEncode, hval, hbrk, hrange]
  generalize (if range = true then encodeRanged S idset _ else encodeSimple S idset _) = res
    at hstr hlen ⊢
  generalize bodyText (rangesOf range (S.listFrom idset.T (S.succ idset.T 0))) = body
    at hstr hopen ⊢
  have hhead : ¬ body.head? = some '[' := fun h => hopen (mem_of_mem_head? h)
  have hfew : res.2 ≤ 1 ↔ ¬ 1 < (S.members idset.T).card := by
    rw [← hcnt, hlen, not_lt]
  have hmany : res.2 > 1 ↔ 1 < (S.members idset.T).card := by
    rw [hlen, hcnt]
  simp only [hfew, hmany, bind, Except.bind]
  cases brackets with
  | false =>
    simp only [Bool.false_eq_true, if_false, Option.getD_none, nil_append] at hstr
    simp only [Bool.false_eq_true, false_and, if_false, hstr, hhead, and_false]
  | true =>
    simp only [if_true, catprintf, Option.getD_none, nil_append, Option.getD_some] at hstr
    by_cases hcard : 1 < (S.members idset.T).card
    · simp only [hcard, true_and, if_true, catprintf, Option.getD_some, hstr, not_true,
        false_and, if_false]
      rfl
    · simp only [hcard, and_false, if_false, hstr, not_false_iff, true_and]
      rfl

theorem rangesOf_spec {ids : List ℕ} (hsrt : ids.Pairwise (· < ·))
    (hids : ∀ id ∈ ids, id < 2 ^ 30) (range : Bool) :
    (∀ r ∈ rangesOf range ids, r.1 ≤ r.2 ∧ r.2 < 2 ^ 30) ∧
      (∀ y, y ∈ idsOf (rangesOf range ids) ↔ y ∈ ids) ∧
      (range = true → (rangesOf range ids).Pairwise (fun r r' => r.2 + 1 < r'.1)) := by
  cases range with
  | false =>
    refine ⟨fun r hr => ?_, fun y => ?_, fun h => nomatch h⟩
    · obtain ⟨id, hid, rfl⟩ := List.mem_map.mp hr
      exact ⟨le_rfl, hids id hid⟩
    · rw [mem_idsOf, rangesOf]
      simp only [List.mem_map, exists_exists_and_eq_and]
      constructor
      · rintro ⟨id, hid, hle, hge⟩
        rwa [le_antisymm hge hle]
      · exact fun hy => ⟨y, hy, le_rfl, le_rfl⟩
  | true =>
    cases ids with
    | nil => exact ⟨forall_mem_nil _, fun y => by simp [rangesOf, idsOf],
        fun _ => List.Pairwise.nil⟩
    | cons id ids =>
      obtain ⟨hrngs, hpair, hmem⟩ := runs_spec (le_refl id) hsrt
      refine ⟨fun r hr => ?_, fun y => ?_, fun _ => hpair⟩
      · obtain ⟨-, hle, hin⟩ := hrngs r hr
        exact ⟨hle, hids _ hin⟩
      · rw [rangesOf, hmem, mem_cons]
        refine or_congr_left ?_
        omega

/-- **Idset strings are canonical and lossless.** For every set of ids below 2^30 and all flags,
the encoder succeeds and the decoder gives back the set; the brackets are there exactly if they
are wanted and there are two members; and with ranges, the ranges are disjoint, in order and
cannot be joined. -/
theorem idset_strings_lossless (S : SuccSet V) (idset : Idset V)
    (hids : ∀ id ∈ S.members idset.T, id < 2 ^ 30) (brackets range : Bool) : ∃ text ranges,
      idsetEncode S (some idset) (encodeFlags brackets range) = .ok text ∧
      (∃ idset', idsetDecode S (some text) = .ok idset' ∧
        S.members idset'.T = S.members idset.T) ∧
      text = (if brackets ∧ 1 < (S.members idset.T).card then '[' :: (bodyText ranges ++ [']'])
        else bodyText ranges) ∧
      '[' ∉ bodyText ranges ∧ ']' ∉ bodyText ranges ∧ (range = true → (∀ r ∈ ranges, r.1 ≤ r.2) ∧
        ranges.Pairwise (fun r r' => r.2 + 1 < r'.1) ∧
        ∀ id, id ∈ S.members idset.T ↔ ∃ r ∈ ranges, r.1 ≤ id ∧ id ≤ r.2) := by
  have hlist : ∀ id ∈ S.listFrom idset.T (S.succ idset.T 0), id < 2 ^ 30 := fun id hid =>
    hids id ((S.mem_listFrom_succ _).mp hid).1
  obtain ⟨hrngs, hmem, hpair⟩ := rangesOf_spec (S.listFrom_sorted 0) hlist range
  have hopen : '[' ∉ bodyText (rangesOf range (S.listFrom idset.T (S.succ idset.T 0))) :=
    not_mem_bodyText (by decide) (by decide) (by decide)
  have hclose : ']' ∉ bodyText (rangesOf range (S.listFrom idset.T (S.succ idset.T 0))) :=
    not_mem_bodyText (by decide) (by decide) (by decide)
  have hset : idsOf (rangesOf range (S.listFrom idset.T (S.succ idset.T 0))) =
      S.members idset.T := by
    ext y
    rw [hmem, S.mem_listFrom_succ]
    exact and_iff_left (Nat.zero_le y)
  refine ⟨_, _, idsetEncode_eq hids brackets range, ?_, rfl, hopen, hclose, fun h => ?_⟩
  · obtain ⟨fresh, hcre, hfr⟩ := represents_create (S := S) (show 0 < 2 ^ 20 by decide)
    obtain ⟨idset', hdec, h'⟩ := hfr.decodeItems _ hrngs
    refine ⟨idset', ?_, ?_⟩
    · have htrim : trimBrackets (if brackets ∧ 1 < (S.members idset.T).card then
            '[' :: (bodyText (rangesOf range (S.listFrom idset.T (S.succ idset.T 0))) ++ [']'])
          else bodyText (rangesOf range (S.listFrom idset.T (S.succ idset.T 0)))) =
          bodyText (rangesOf range (S.listFrom idset.T (S.succ idset.T 0))) := by
        split_ifs
        · exact trimBrackets_bracketed
        · exact trimBrackets_body hopen hclose
      rw [idsetDecode, hcre, htrim]
      exact hdec
    · rw [h'.members, hset, Finset.empty_union]
  · refine ⟨fun r hr => (hrngs r hr).1, hpair h, fun id => ?_⟩
    rw [← mem_idsOf, hset]

/-- The set of 0, 1, 2 and 5 with ranges and brackets. -/
theorem idset_strings_lossless_four : let idset : Idset Libflux.Rpc.Veb :=
      ⟨[0, 1, 2, 5].foldl Libflux.Rpc.vebput (Libflux.Rpc.vebnew 8 false), flagAutogrow⟩
    idsetEncode veb (some idset) 6 = .ok ['[', '0', '-', '2', ',', '5', ']'] ∧
      ∃ text, idsetEncode veb (some idset) 6 = .ok text ∧
        ∃ idset', idsetDecode veb (some text) = .ok idset' ∧
          veb.members idset'.T = veb.members idset.T := by
  intro idset
  refine ⟨by decide +kernel, ?_⟩
  obtain ⟨text, -, hencode, hdec, -⟩ :=
    idset_strings_lossless veb idset (by decide) true true
  exact ⟨text, hencode, hdec⟩

end FluxCore.Libidset
