import Mathlib.Order.Interval.Finset.Nat
import FluxCore.Lib.SuccSet
import FluxCore.Libflux.Tagpool
import FluxCore.Util.Blobref

/-!
# Sets of Ids

The functions of `libidset/idset.c`. An idset is a van Emde Boas tree, of which only the laws of
`SuccSet` are used, and its flags. Ids are of type `unsigned int`, and the size of a tree is
one too: sums and sizes are taken modulo `2 ^ 32` where they may not fit. Allocations do not
fail. A pointer to an idset may be `NULL`, here `none`.

An idset stands for a finite set (`Represents`), and every operation is that on finite sets.
The queries are right with two exceptions. The bound `M` of the tree passes for a member: the
search for `M` ends with `M` because there is no member. And the id that follows `UINT_MAX`
is 0, so that the search for what is larger starts over.
-/

namespace FluxCore.Libidset

open Function

/-- `UINT_MAX`. -/
def uintMax : ℕ := 2 ^ 32 - 1

/-- `IDSET_INVALID_ID`. -/
def invalidId : ℕ := uintMax - 1

/-- `IDSET_FLAG_AUTOGROW`. -/
def flagAutogrow : ℕ := 1

/-- `IDSET_DEFAULT_SIZE`. -/
def defaultSize : ℕ := 1024

/-- `struct idset`. -/
structure Idset (V : Type) where
  T : V
  flags : ℕ

/-- `valid_id`. -/
def validId (id : ℕ) : Bool := !(id == uintMax || id == invalidId)

/-- `validate_idset_flags`. -/
def validateIdsetFlags (flags allowed : ℕ) : Except Errno Unit :=
  if flags &&& allowed ≠ flags then .error .EINVAL else .ok ()

/-- `normalize_range`. -/
def normalizeRange (lo hi : ℕ) : ℕ × ℕ := if hi < lo then (hi, lo) else (lo, hi)

/-- The loop of `idset_grow` that doubles the size. A size of 0 would never grow (`doubling`);
no tree for ids below `2 ^ 30` has it. -/
def doubled (newsize size : ℕ) : ℕ :=
  if newsize < size ∧ 0 < newsize then doubled (newsize <<< 1) size else newsize
termination_by size - newsize
decreasing_by rw [Nat.shiftLeft_eq]; omega

section Functions

variable {V : Type} (S : SuccSet V)

/-- `idset_create`. -/
def idsetCreate (size flags : ℕ) : Except Errno (Idset V) := do
  validateIdsetFlags flags flagAutogrow
  let size := if size = 0 then defaultSize else size
  .ok { T := S.empty (size % 2 ^ 32), flags := flags }

/-- `idset_copy`. -/
def idsetCopy : Option (Idset V) → Except Errno (Idset V)
  | none => .error .EINVAL
  | some idset => .ok { T := idset.T, flags := idset.flags }

/-- `idset_grow`. The members move to a tree of the new size. -/
def idsetGrow (idset : Idset V) (size : ℕ) : Except Errno (Idset V) :=
  let newsize := doubled (S.bound idset.T) size
  if newsize > S.bound idset.T then
    if idset.flags &&& flagAutogrow = 0 then .error .EINVAL
    else
      let T := S.foldFrom S.put idset.T (S.succ idset.T 0) (S.empty (newsize % 2 ^ 32))
      .ok { idset with T := T }
  else .ok idset

/-- `idset_set`. -/
def idsetSet (idset : Option (Idset V)) (id : ℕ) : Except Errno (Idset V) :=
  match idset with
  | none => .error .EINVAL
  | some idset => do
      if !validId id then .error .EINVAL
      else
        let idset ← idsetGrow S idset ((id + 1) % 2 ^ 32)
        .ok { idset with T := S.put idset.T id }

/-- The loop of `idset_range_set`. -/
def putRange (T : V) (id hi : ℕ) : V :=
  if id ≤ hi then putRange (S.put T id) (id + 1) hi else T
termination_by hi + 1 - id

/-- `idset_range_set`. -/
def idsetRangeSet (idset : Option (Idset V)) (lo hi : ℕ) : Except Errno (Idset V) :=
  match idset with
  | none => .error .EINVAL
  | some idset => do
      if !validId lo || !validId hi then .error .EINVAL
      else
        let (lo, hi) := normalizeRange lo hi
        let idset ← idsetGrow S idset ((hi + 1) % 2 ^ 32)
        .ok { idset with T := putRange S idset.T lo hi }

/-- `idset_clear`. -/
def idsetClear (idset : Option (Idset V)) (id : ℕ) : Except Errno (Idset V) :=
  match idset with
  | none => .error .EINVAL
  | some idset =>
    if !validId id then .error .EINVAL else .ok { idset with T := S.del idset.T id }

/-- The loop of `idset_range_clear`. -/
def delRange (T : V) (id hi : ℕ) : V :=
  if id ≤ hi ∧ id < S.bound T then delRange (S.del T id) (id + 1) hi else T
termination_by hi + 1 - id

/-- `idset_range_clear`. -/
def idsetRangeClear (idset : Option (Idset V)) (lo hi : ℕ) : Except Errno (Idset V) :=
  match idset with
  | none => .error .EINVAL
  | some idset =>
    if !validId lo || !validId hi then .error .EINVAL
    else
      let (lo, hi) := normalizeRange lo hi
      .ok { idset with T := delRange S idset.T lo hi }

/-- `idset_test`. -/
def idsetTest (idset : Option (Idset V)) (id : ℕ) : Bool :=
  match idset with
  | none => false
  | some idset => if !validId id then false else S.succ idset.T id == id

/-- `idset_first`. -/
def idsetFirst (idset : Option (Idset V)) : ℕ :=
  match idset with
  | none => invalidId
  | some idset =>
    let next := S.succ idset.T 0
    if next = S.bound idset.T then invalidId else next

/-- `idset_next`. -/
def idsetNext (idset : Option (Idset V)) (prev : ℕ) : ℕ :=
  match idset with
  | none => invalidId
  | some idset =>
    let next := S.succ idset.T ((prev + 1) % 2 ^ 32)
    if next = S.bound idset.T then invalidId else next

/-- `idset_count`. -/
def idsetCount (idset : Option (Idset V)) : ℕ :=
  match idset with
  | none => 0
  | some idset => S.foldFrom (fun count _ => count + 1) idset.T (S.succ idset.T 0) 0

end Functions

/-! ### Sequences of operations -/

/-- An operation on idsets that are named by numbers. -/
inductive Op
  | create (name size : ℕ)
  | set (name id : ℕ)
  | rangeSet (name lo hi : ℕ)
  | clear (name id : ℕ)
  | rangeClear (name lo hi : ℕ)
  | copy (name orig : ℕ)

/-- The sizes are below `2 ^ 20`, and the ids below `2 ^ 30`. -/
def Op.InRange : Op → Prop
  | create _ size => size < 2 ^ 20
  | set _ id | clear _ id => id < 2 ^ 30
  | rangeSet _ lo hi | rangeClear _ lo hi => lo < 2 ^ 30 ∧ hi < 2 ^ 30
  | copy _ _ => True

instance : DecidablePred Op.InRange := fun op => by
  cases op <;> unfold Op.InRange <;> infer_instance

/-- What an operation makes of a named idset: a function that fails leaves it as it is. -/
def change {V : Type} (pool : ℕ → Option (Idset V)) (name : ℕ) :
    Except Errno (Idset V) → ℕ → Option (Idset V)
  | .ok idset => update pool name (some idset)
  | .error _ => pool

/-- An operation on the idsets. -/
def Op.apply {V : Type} (S : SuccSet V) (pool : ℕ → Option (Idset V)) : Op → ℕ → Option (Idset V)
  | create name size => update pool name (idsetCreate S size flagAutogrow).toOption
  | set name id => change pool name (idsetSet S (pool name) id)
  | rangeSet name lo hi => change pool name (idsetRangeSet S (pool name) lo hi)
  | clear name id => change pool name (idsetClear S (pool name) id)
  | rangeClear name lo hi => change pool name (idsetRangeClear S (pool name) lo hi)
  | copy name orig => update pool name (idsetCopy (pool orig)).toOption

/-- The ids between two ids, in any order. -/
def between (lo hi : ℕ) : Finset ℕ := Finset.Icc (min lo hi) (max lo hi)

/-- The operation on finite sets. -/
def Op.spec (sets : ℕ → Option (Finset ℕ)) : Op → ℕ → Option (Finset ℕ)
  | create name _ => update sets name (some ∅)
  | set name id => update sets name ((sets name).map (insert id))
  | rangeSet name lo hi => update sets name ((sets name).map (· ∪ between lo hi))
  | clear name id => update sets name ((sets name).map (·.erase id))
  | rangeClear name lo hi => update sets name ((sets name).map (· \ between lo hi))
  | copy name orig => update sets name (sets orig)

/-- The idsets after a sequence of operations. -/
def runOps {V : Type} (S : SuccSet V) (ops : List Op) : ℕ → Option (Idset V) :=
  ops.foldl (Op.apply S) fun _ => none

/-- The sets after a sequence of operations. -/
def specOps (ops : List Op) : ℕ → Option (Finset ℕ) :=
  ops.foldl Op.spec fun _ => none

/-- The least element of a set, or the invalid id. -/
def least (s : Finset ℕ) : ℕ := if h : s.Nonempty then s.min' h else invalidId

/-- The least of the larger elements of a set, or the invalid id. -/
def nextLarger (s : Finset ℕ) (prev : ℕ) : ℕ := least {x ∈ s | prev < x}

/-! ### The operations keep the set -/

variable {V : Type} {S : SuccSet V} {idset idset' : Idset V} {id lo hi : ℕ}

/-- The idset stands for the set. Its tree has a size that has been doubled at most until an id
below `2 ^ 30` has fitted. -/
structure Represents (S : SuccSet V) (idset : Idset V) (s : Finset ℕ) : Prop where
  members : S.members idset.T = s
  pos : 0 < S.bound idset.T
  bound_lt : S.bound idset.T < 2 ^ 31
  flags : idset.flags = flagAutogrow

theorem validId_of_lt (h : id < invalidId) : validId id = true := by
  simp only [validId, uintMax, invalidId, Bool.not_eq_true', Bool.or_eq_false_iff,
    beq_eq_false_iff_ne] at h ⊢
  omega

theorem le_doubled (size : ℕ) (h : 0 < newsize) :
    newsize ≤ doubled newsize size ∧ size ≤ doubled newsize size := by
  fun_induction doubled newsize size with
  | case1 newsize hlt ih =>
    have htwice : newsize <<< 1 = newsize * 2 := Nat.shiftLeft_eq newsize 1
    obtain ⟨hle, hsize⟩ := ih (by omega)
    exact ⟨by omega, hsize⟩
  | case2 newsize hlt => omega

theorem doubled_lt (h : newsize < 2 * bound) (hsize : size ≤ bound) :
    doubled newsize size < 2 * bound := by
  fun_induction doubled newsize size with
  | case1 newsize hlt ih =>
    have htwice : newsize <<< 1 = newsize * 2 := Nat.shiftLeft_eq newsize 1
    exact ih (by omega)
  | case2 newsize hlt => exact h

theorem members_foldFrom_put (hemp : S.members T' = ∅) (hle : S.bound T ≤ S.bound T') :
    S.members (S.foldFrom S.put T (S.succ T 0) T') = S.members T ∧
      S.bound (S.foldFrom S.put T (S.succ T 0) T') = S.bound T' := by
  refine S.foldFrom_induct (x := 0)
    (fun s T'' => S.members T'' = s ∧ S.bound T'' = S.bound T') ?_ T' ?_
  · rintro s T'' y hy - ⟨rfl, hbd⟩
    have hlt : y < S.bound T'' := by
      have := S.lt_bound T y hy
      omega
    rw [S.members_put, if_pos hlt, S.bound_put]
    exact ⟨rfl, hbd⟩
  · simpa using hemp

theorem grow_ok (hauto : idset.flags &&& flagAutogrow ≠ 0) (hpos : 0 < S.bound idset.T)
    (hid : id + 1 < 2 ^ 32) (hlt : doubled (S.bound idset.T) (id + 1) < 2 ^ 32) :
    ∃ idset', idsetGrow S idset ((id + 1) % 2 ^ 32) = .ok idset' ∧
      S.members idset'.T = S.members idset.T ∧
      S.bound idset'.T = doubled (S.bound idset.T) (id + 1) ∧ idset'.flags = idset.flags := by
  obtain ⟨hle, -⟩ := le_doubled (id + 1) hpos
  rw [Nat.mod_eq_of_lt hid, idsetGrow]
  by_cases hgrow : doubled (S.bound idset.T) (id + 1) > S.bound idset.T
  · obtain ⟨hmbs, hbd⟩ := members_foldFrom_put (S := S) (T := idset.T)
      (S.members_empty (doubled (S.bound idset.T) (id + 1))) (by rwa [S.bound_empty])
    rw [S.bound_empty] at hbd
    simp only [hgrow, if_true, hauto, if_false, Nat.mod_eq_of_lt hlt]
    exact ⟨_, rfl, hmbs, hbd, rfl⟩
  · simp only [hgrow, if_false]
    exact ⟨_, rfl, rfl, by omega, rfl⟩

theorem Represents.grow (h : Represents S idset s) (hid : id < 2 ^ 30) :
    ∃ idset', idsetGrow S idset ((id + 1) % 2 ^ 32) = .ok idset' ∧ Represents S idset' s ∧
      id < S.bound idset'.T := by
  have hauto : idset.flags &&& flagAutogrow ≠ 0 := by
    rw [h.flags]
    decide
  obtain ⟨hle, hfits⟩ := le_doubled (id + 1) h.pos
  have hlt : doubled (S.bound idset.T) (id + 1) < 2 * 2 ^ 30 := doubled_lt h.bound_lt hid
  have hid' : id + 1 < 2 ^ 32 := by omega
  obtain ⟨idset', hgrow, hmbs, hbd, hflg⟩ := grow_ok hauto h.pos hid' (by omega)
  rw [← hbd] at hle hfits hlt
  have hpos := h.pos
  exact ⟨idset', hgrow,
    ⟨hmbs.trans h.members, by omega, by omega, hflg.trans h.flags⟩, hfits⟩

theorem members_putRange (T : V) (id : ℕ) (hhi : hi < S.bound T) :
    S.members (putRange S T id hi) = S.members T ∪ Finset.Icc id hi ∧
      S.bound (putRange S T id hi) = S.bound T := by
  fun_induction putRange S T id hi with
  | case1 T id hle ih =>
    obtain ⟨hmbs, hbd⟩ := ih (by rwa [S.bound_put])
    rw [hmbs, hbd, S.bound_put]
    refine ⟨?_, rfl⟩
    ext y
    rw [Finset.mem_union, S.mem_put_iff, Finset.mem_union, Finset.mem_Icc, Finset.mem_Icc,
      or_assoc]
    refine or_congr_right ?_
    omega
  | case2 T id hle =>
    rw [Finset.Icc_eq_empty hle, Finset.union_empty]
    exact ⟨rfl, rfl⟩

theorem members_delRange (T : V) (id hi : ℕ) :
    S.members (delRange S T id hi) = S.members T \ Finset.Icc id hi ∧
      S.bound (delRange S T id hi) = S.bound T := by
  fun_induction delRange S T id hi with
  | case1 T id hle ih =>
    obtain ⟨hmbs, hbd⟩ := ih
    rw [hmbs, hbd, S.bound_del]
    refine ⟨?_, rfl⟩
    ext y
    rw [Finset.mem_sdiff, S.mem_del_iff, Finset.mem_sdiff, Finset.mem_Icc, Finset.mem_Icc,
      and_assoc]
    refine and_congr_right fun _ => ?_
    omega
  | case2 T id hle =>
    refine ⟨?_, rfl⟩
    ext y
    rw [Finset.mem_sdiff, Finset.mem_Icc]
    refine ⟨fun hy => ⟨hy, ?_⟩, And.left⟩
    have := S.lt_bound T y hy
    omega

theorem normalizeRange_eq (lo hi : ℕ) : normalizeRange lo hi = (min lo hi, max lo hi) := by
  rw [normalizeRange]
  split_ifs with h
  · rw [min_eq_right h.le, max_eq_left h.le]
  · rw [min_eq_left (not_lt.1 h), max_eq_right (not_lt.1 h)]

theorem represents_create (h : size < 2 ^ 20) :
    ∃ idset, idsetCreate S size flagAutogrow = .ok idset ∧ Represents S idset ∅ := by
  refine ⟨_, rfl, S.members_empty _, ?_, ?_, rfl⟩
  · rw [S.bound_empty, defaultSize]
    split_ifs <;> omega
  · rw [S.bound_empty, defaultSize]
    split_ifs <;> omega

section

variable (h : Represents S idset s)
include h

theorem Represents.set (hid : id < 2 ^ 30) :
    ∃ idset', idsetSet S (some idset) id = .ok idset' ∧ Represents S idset' (insert id s) := by
  obtain ⟨idset', hgrow, h', hlt⟩ := h.grow hid
  refine ⟨{ idset' with T := S.put idset'.T id }, ?_, ?_, ?_, ?_, h'.flags⟩
  · rw [idsetSet, validId_of_lt (hid.trans (by decide)), hgrow]
    rfl
  · rw [S.members_put, if_pos hlt, h'.members]
  · rw [S.bound_put]
    exact h'.pos
  · rw [S.bound_put]
    exact h'.bound_lt

theorem Represents.rangeSet (hlo : lo < 2 ^ 30) (hhi : hi < 2 ^ 30) :
    ∃ idset', idsetRangeSet S (some idset) lo hi = .ok idset' ∧
      Represents S idset' (s ∪ between lo hi) := by
  obtain ⟨idset', hgrow, h', hlt⟩ := h.grow (max_lt hlo hhi)
  obtain ⟨hmbs, hbd⟩ := members_putRange idset'.T (min lo hi) hlt
  refine ⟨{ idset' with T := putRange S idset'.T (min lo hi) (max lo hi) }, ?_, ?_, ?_, ?_,
    h'.flags⟩
  · rw [idsetRangeSet, validId_of_lt (hlo.trans (by decide)), validId_of_lt (hhi.trans (by decide))]
    simp only [normalizeRange_eq, hgrow]
    rfl
  · rw [hmbs, h'.members, between]
  · rw [hbd]
    exact h'.pos
  · rw [hbd]
    exact h'.bound_lt

theorem Represents.clear (hid : id < 2 ^ 30) :
    ∃ idset', idsetClear S (some idset) id = .ok idset' ∧ Represents S idset' (s.erase id) := by
  refine ⟨{ idset with T := S.del idset.T id }, ?_, ?_, ?_, ?_, h.flags⟩
  · rw [idsetClear, validId_of_lt (hid.trans (by decide))]
    rfl
  · ext y
    rw [S.mem_del_iff, h.members, Finset.mem_erase, and_comm]
  · rw [S.bound_del]
    exact h.pos
  · rw [S.bound_del]
    exact h.bound_lt

theorem Represents.rangeClear (hlo : lo < 2 ^ 30) (hhi : hi < 2 ^ 30) :
    ∃ idset', idsetRangeClear S (some idset) lo hi = .ok idset' ∧
      Represents S idset' (s \ between lo hi) := by
  obtain ⟨hmbs, hbd⟩ := members_delRange (S := S) idset.T (min lo hi) (max lo hi)
  refine ⟨{ idset with T := delRange S idset.T (min lo hi) (max lo hi) }, ?_, ?_, ?_, ?_, h.flags⟩
  · rw [idsetRangeClear, validId_of_lt (hlo.trans (by decide)), validId_of_lt (hhi.trans (by decide))]
    simp only [normalizeRange_eq]
    rfl
  · rw [hmbs, h.members, between]
  · rw [hbd]
    exact h.pos
  · rw [hbd]
    exact h.bound_lt

end

/-! ### Whole sequences -/

/-- The idsets stand for the sets. -/
def Refines (S : SuccSet V) (pool : ℕ → Option (Idset V)) (sets : ℕ → Option (Finset ℕ)) : Prop :=
  ∀ name, Option.Rel (Represents S) (pool name) (sets name)

section Steps

theorem Refines.update (h : Refines S pool sets) (name : ℕ)
    (ho : Option.Rel (Represents S) o o') :
    Refines S (update pool name o) (update sets name o') := by
  intro name'
  by_cases heq : name' = name
  · subst heq
    rw [update_self, update_self]
    exact ho
  · rw [update_of_ne heq, update_of_ne heq]
    exact h name'

theorem Refines.change (h : Refines S pool sets) (name : ℕ)
    (f : Option (Idset V) → Except Errno (Idset V)) (g : Finset ℕ → Finset ℕ)
    (hnone : f none = .error .EINVAL)
    (hsome : ∀ idset s, Represents S idset s →
      ∃ idset', f (some idset) = .ok idset' ∧ Represents S idset' (g s)) :
    Refines S (change pool name (f (pool name))) (Function.update sets name ((sets name).map g))
    := by
  have hname := h name
  cases hp : pool name with
  | none =>
    rw [hp] at hname
    cases hs : sets name with
    | some s =>
      rw [hs] at hname
      cases hname
    | none =>
      rw [hnone, Option.map_none, ← hs, update_eq_self]
      exact h
  | some idset =>
    rw [hp] at hname
    cases hs : sets name with
    | none =>
      rw [hs] at hname
      cases hname
    | some s =>
      rw [hs] at hname
      cases hname with
      | some hrep =>
        obtain ⟨idset', hf, hrep'⟩ := hsome _ _ hrep
        rw [hf]
        exact h.update name (.some hrep')

/-- **One operation** on idsets is that on the sets. -/
theorem Refines.apply (h : Refines S pool sets) {op : Op} (hop : op.InRange) :
    Refines S (op.apply S pool) (op.spec sets) := by
  cases op with
  | create name size =>
    obtain ⟨idset, hcre, hrep⟩ := represents_create (S := S) hop
    rw [Op.apply, hcre]
    exact h.update name (.some hrep)
  | set name id =>
    exact h.change name (fun i => idsetSet S i id) _ rfl fun _ _ hrep => hrep.set hop
  | rangeSet name lo hi =>
    exact h.change name (fun i => idsetRangeSet S i lo hi) _ rfl
      fun _ _ hrep => hrep.rangeSet hop.1 hop.2
  | clear name id =>
    exact h.change name (fun i => idsetClear S i id) _ rfl fun _ _ hrep => hrep.clear hop
  | rangeClear name lo hi =>
    exact h.change name (fun i => idsetRangeClear S i lo hi) _ rfl
      fun _ _ hrep => hrep.rangeClear hop.1 hop.2
  | copy name orig =>
    refine h.update name ?_
    have horig := h orig
    cases hp : pool orig <;> rw [hp] at horig
    · exact horig
    · exact horig

/-- **A sequence of operations** on idsets is that on the sets. -/
theorem refines_runOps (hops : ∀ op ∈ ops, op.InRange) :
    Refines S (runOps S ops) (specOps ops) := by
  induction ops using List.reverseRecOn with
  | nil => exact fun _ => .none
  | append_singleton ops op ih =>
    rw [runOps, specOps, List.foldl_append, List.foldl_append]
    refine Refines.apply (ih fun op' hop' => hops op' ?_) (hops op ?_)
    · exact List.mem_append_left _ hop'
    · exact List.mem_append_right _ (List.mem_singleton_self op)

end Steps

/-! ### The queries -/

section

variable (h : Represents S idset s)
include h

theorem Represents.search (id : ℕ) :
    (if S.succ idset.T id = S.bound idset.T then invalidId else S.succ idset.T id)
      = least {x ∈ s | id ≤ x} := by
  have hmbs := h.members
  subst hmbs
  rcases S.succ_spec idset.T id with ⟨hmem, hle, hlst⟩ | ⟨hnone, hsucc⟩
  · have hin : S.succ idset.T id ∈ ({x ∈ S.members idset.T | id ≤ x} : Finset ℕ) :=
      Finset.mem_filter.2 ⟨hmem, hle⟩
    rw [if_neg (S.lt_bound _ _ hmem).ne, least, dif_pos ⟨_, hin⟩]
    refine le_antisymm (Finset.le_min' _ _ _ fun y hy => ?_) (Finset.min'_le _ _ hin)
    obtain ⟨hy, hidy⟩ := Finset.mem_filter.1 hy
    exact hlst y hy hidy
  · have hemp : ¬ ({x ∈ S.members idset.T | id ≤ x} : Finset ℕ).Nonempty := by
      rintro ⟨y, hy⟩
      obtain ⟨hy, hidy⟩ := Finset.mem_filter.1 hy
      exact absurd (hnone y hy) hidy.not_gt
    rw [if_pos hsucc, least, dif_neg hemp]

theorem Represents.first : idsetFirst S (some idset) = least s := by
  have hall : ({x ∈ s | 0 ≤ x} : Finset ℕ) = s := Finset.filter_true_of_mem fun x _ => x.zero_le
  rw [idsetFirst, h.search, hall]

theorem Represents.count : idsetCount S (some idset) = s.card := by
  rw [← h.members]
  refine S.foldFrom_induct (x := 0) (fun s count => count = s.card) ?_ 0 ?_
  · rintro s count y - hy rfl
    exact (Finset.card_insert_of_notMem hy).symm
  · simp

theorem Represents.test_iff (id : ℕ) :
    idsetTest S (some idset) id = decide (id ∈ s) ↔ id ≠ S.bound idset.T := by
  have hlt : ∀ x ∈ s, x < S.bound idset.T := by
    rw [← h.members]
    exact S.lt_bound idset.T
  have hbd := h.bound_lt
  rw [idsetTest]
  by_cases hval : validId id = true
  · have hself := S.succ_eq_self_iff (T := idset.T) (x := id)
    rw [h.members] at hself
    rw [hval, Bool.not_true, if_neg Bool.false_ne_true, beq_eq_decide, decide_eq_decide, hself]
    constructor
    · rintro hiff rfl
      exact absurd (hlt _ (hiff.1 (.inr rfl))) (lt_irrefl _)
    · intro hne
      exact or_iff_left hne
  · have hlarge : id = uintMax ∨ id = invalidId := by
      simpa [validId, Classical.or_iff_not_imp_left] using hval
    have hge : 2 ^ 31 < id := by
      rcases hlarge with rfl | rfl <;> decide
    have hnot : id ∉ s := fun hid => by
      have := hlt id hid
      omega
    rw [Bool.not_eq_true] at hval
    rw [hval, Bool.not_false, if_pos rfl, decide_eq_false hnot]
    exact iff_of_true rfl (by omega)

theorem Represents.next_iff (hid : id ≤ uintMax) :
    idsetNext S (some idset) id = nextLarger s id ↔ (id = uintMax → s = ∅) := by
  have hbd := h.bound_lt
  have hlt : ∀ x ∈ s, x < S.bound idset.T := by
    rw [← h.members]
    exact S.lt_bound idset.T
  rw [idsetNext, h.search, nextLarger]
  by_cases hmax : id = uintMax
  · have hnone : ({x ∈ s | id < x} : Finset ℕ) = ∅ := by
      refine Finset.filter_false_of_mem fun x hx => ?_
      have := hlt x hx
      rw [hmax, uintMax]
      omega
    have hall : ({x ∈ s | (id + 1) % 2 ^ 32 ≤ x} : Finset ℕ) = s := by
      refine Finset.filter_true_of_mem fun x _ => ?_
      rw [hmax, uintMax]
      omega
    rw [hnone, hall]
    constructor
    · intro hlst _
      by_contra hne
      have hs : s.Nonempty := Finset.nonempty_iff_ne_empty.2 hne
      have hmin := hlt _ (s.min'_mem hs)
      rw [least, least, dif_pos hs, dif_neg Finset.not_nonempty_empty] at hlst
      rw [hlst, invalidId, uintMax] at hmin
      omega
    · intro hemp
      rw [hemp hmax]
  · have hmod : (id + 1) % 2 ^ 32 = id + 1 := by
      rw [uintMax] at hid hmax
      omega
    rw [hmod]
    exact iff_of_true rfl fun heq => absurd heq hmax

end

/-- **An idset is the finite set** that the operations make, for every query but two: a test of
the size of the tree is true, and the id after `UINT_MAX` is the first of the set. -/
theorem queries_right_iff (S : SuccSet V) (ops : List Op) (hops : ∀ op ∈ ops, op.InRange)
    (name : ℕ) (s : Finset ℕ) (hs : specOps ops name = some s) :
    ∃ idset, runOps S ops name = some idset ∧ idsetFirst S (some idset) = least s ∧
      idsetCount S (some idset) = s.card ∧ ∀ id ≤ uintMax,
        (idsetTest S (some idset) id = decide (id ∈ s) ∧
            idsetNext S (some idset) id = nextLarger s id) ↔
          id ≠ S.bound idset.T ∧ (id = uintMax → s = ∅) := by
  have href := refines_runOps (S := S) hops name
  rw [hs] at href
  cases hrun : runOps S ops name with
  | none =>
    rw [hrun] at href
    cases href
  | some idset =>
    rw [hrun] at href
    cases href with
    | some h =>
      refine ⟨idset, rfl, h.first, h.count, fun id hid => ?_⟩
      rw [h.test_iff, h.next_iff hid]

/-! ### Trees as sets -/

theorem search_least (T : Libflux.Rpc.Veb) (h : x + places = T.M) : x ≤ T.search places x ∧
      ∀ y, x ≤ y → y < T.M → T.mem y = true → T.search places x ≤ y := by
  induction places generalizing x with
  | zero => exact ⟨by rw [Libflux.Rpc.Veb.search]; omega, fun y hxy hy _ => by omega⟩
  | succ places ih =>
    rw [Libflux.Rpc.Veb.search]
    by_cases hx : T.mem x = true
    · rw [if_pos hx]
      exact ⟨le_rfl, fun y hxy _ _ => hxy⟩
    rw [if_neg hx]
    obtain ⟨hle, hlst⟩ := ih (x := x + 1) (by omega)
    refine ⟨by omega, fun y hxy hy hmem => hlst y ?_ hy hmem⟩
    rcases Nat.eq_or_lt_of_le hxy with rfl | hlt
    · exact absurd hmem hx
    · exact hlt

open Libflux.Rpc in
/-- The trees of the pool of matchtags have the laws. -/
def veb : SuccSet Veb where
  bound := Veb.M
  members T := {x ∈ Finset.range T.M | T.mem x}
  empty M := vebnew M false
  put := vebput
  del := vebdel
  succ := vebsucc
  lt_bound T x hx := Finset.mem_range.1 (Finset.mem_filter.1 hx).1
  bound_empty _ := rfl
  members_empty _ := Finset.filter_false_of_mem fun _ _ => Bool.false_ne_true
  bound_put _ _ := rfl
  members_put T x := by
    ext y
    by_cases hx : x < T.M
    · rw [if_pos hx]
      simp only [vebput, Finset.mem_filter, Finset.mem_range, Bool.or_eq_true, decide_eq_true_eq,
        Finset.mem_insert]
      constructor
      · rintro ⟨hy, rfl | hmem⟩
        · exact .inl rfl
        · exact .inr ⟨hy, hmem⟩
      · rintro (rfl | ⟨hy, hmem⟩)
        · exact ⟨hx, .inl rfl⟩
        · exact ⟨hy, .inr hmem⟩
    · rw [if_neg hx]
      simp only [vebput, Finset.mem_filter, Finset.mem_range, Bool.or_eq_true, decide_eq_true_eq]
      refine and_congr_right fun hy => or_iff_right ?_
      rintro rfl
      exact hx hy
  bound_del _ _ := rfl
  members_del T x := by
    ext y
    by_cases hx : x < T.M
    · rw [if_pos hx]
      simp only [vebdel, Finset.mem_filter, Finset.mem_range, Bool.and_eq_true, decide_eq_true_eq,
        Finset.mem_erase]
      exact and_left_comm
    rw [if_neg hx]
    simp only [vebdel, Finset.mem_filter, Finset.mem_range, Bool.and_eq_true, decide_eq_true_eq]
    refine and_congr_right fun hy => and_iff_right ?_
    rintro rfl
    exact hx hy
  succ_spec T x := by
    simp only [Finset.mem_filter, Finset.mem_range, vebsucc]
    by_cases hx : x ≤ T.M
    · have hsum : x + (T.M - x) = T.M := Nat.add_sub_cancel' hx
      obtain ⟨hle, hleast⟩ := search_least T hsum
      rcases T.search_spec hsum with hfound | ⟨hend, hnone⟩
      · exact .inl ⟨hfound, hle, fun y hy hxy => hleast y hxy hy.1 hy.2⟩
      refine .inr ⟨fun y hy => ?_, hend⟩
      by_contra hxy
      rw [hnone y (not_lt.1 hxy) hy.1] at hy
      exact Bool.false_ne_true hy.2
    · rw [Nat.sub_eq_zero_of_le (not_le.1 hx).le, Veb.search]
      exact .inr ⟨fun y hy => hy.1.trans (not_le.1 hx), rfl⟩

/-- An idset for one id, that grows once. -/
def grown : List Op := [.create 0 1, .rangeSet 0 0 1, .copy 1 0, .clear 1 0]

/-- The queries about the copy, in which only the id 1 is left. -/
theorem queries_right_iff_grown : ∃ idset, runOps veb grown 1 = some idset ∧
    idsetFirst veb (some idset) = least {1} ∧ idsetCount veb (some idset) = 1 ∧ ∀ id ≤ uintMax,
      (idsetTest veb (some idset) id = decide (id ∈ ({1} : Finset ℕ)) ∧
          idsetNext veb (some idset) id = nextLarger {1} id) ↔
        id ≠ veb.bound idset.T ∧ (id = uintMax → ({1} : Finset ℕ) = ∅) :=
  queries_right_iff veb grown (by decide) 1 {1} (by decide)

/-- **The size passes for a member,** and the search past the last id starts over: the idset is
the set of 0 in a tree of size 1. -/
theorem size_passes_for_member : specOps [.create 0 1, .set 0 0] 0 = some {0} ∧
      idsetTest veb (runOps veb [.create 0 1, .set 0 0] 0) 1 = true ∧ 1 ∉ ({0} : Finset ℕ) ∧
      idsetNext veb (runOps veb [.create 0 1, .set 0 0] 0) uintMax = 0 ∧
      nextLarger {0} uintMax = invalidId :=
  ⟨by decide, by decide +kernel, by decide, by decide +kernel, by decide⟩

/-! ### Growing to any id

The size is doubled in 64 bits and the new tree has a size of 32 bits. A size of `2 ^ 32` or more
is cut, so that the id never fits; and a tree that has come to the size 0 in this way is never
doubled enough. -/

/-- The loop of `idset_grow` on a `size_t`, if it ends within a number of turns. -/
def doubling : ℕ → ℕ → ℕ → Option ℕ
  | 0, _, _ => none
  | turns + 1, newsize, size =>
    if newsize < size then doubling turns ((newsize <<< 1) % 2 ^ 64) size else some newsize

/-- `idset_set` of an idset that is not `NULL`, if the loop of `idset_grow` ends within a number
of turns. -/
def idsetSetWithin (S : SuccSet V) (turns : ℕ) (idset : Idset V) (id : ℕ) :
    Option (Except Errno (Idset V)) :=
  if !validId id then some (.error .EINVAL)
  else
    (doubling turns (S.bound idset.T) ((id + 1) % 2 ^ 32)).map fun _ => idsetSet S (some idset) id

theorem doubling_zero (turns : ℕ) {size : ℕ} (h : 0 < size) : doubling turns 0 size = none := by
  induction turns with
  | zero => rfl
  | succ turns ih =>
    rw [doubling, if_pos h]
    exact ih

/-- The loop ends with the size that `idset_grow` takes. -/
theorem doubling_eq_doubled {newsize size : ℕ} (hpos : 0 < newsize) (hsize : size < 2 ^ 32) :
    ∃ turns, doubling turns newsize size = some (doubled newsize size) := by
  fun_induction doubled newsize size with
  | case1 newsize hlt ih =>
    have htwice : newsize <<< 1 = newsize * 2 := Nat.shiftLeft_eq newsize 1
    obtain ⟨turns, htns⟩ := ih (by omega)
    refine ⟨turns + 1, ?_⟩
    rw [doubling, if_pos hlt.1, Nat.mod_eq_of_lt (by omega), htns]
  | case2 newsize hlt => exact ⟨1, by rw [doubling, if_neg (by omega)]⟩

/-- A tree that is too large for its size is too small for the id. -/
theorem bound_of_cut (hauto : idset.flags &&& flagAutogrow ≠ 0) (hpos : 0 < S.bound idset.T)
    (hM : S.bound idset.T < 2 ^ 32) (hid : id < invalidId)
    (hcut : 2 ^ 32 ≤ doubled (S.bound idset.T) (id + 1))
    (h : idsetSet S (some idset) id = .ok idset') : S.bound idset'.T ≤ id := by
  have hid' : id < 2 ^ 32 - 2 := hid
  have hlt : doubled (S.bound idset.T) (id + 1) < 2 * (id + 1) := by
    refine doubled_lt ?_ le_rfl
    by_contra hle
    rw [doubled, if_neg (by omega)] at hcut
    omega
  have hgrow : doubled (S.bound idset.T) (id + 1) > S.bound idset.T := by omega
  have hbd (T : V) :
      S.bound (S.foldFrom S.put idset.T (S.succ idset.T 0) T) = S.bound T :=
    S.foldFrom_induct (x := 0) (fun _ T' => S.bound T' = S.bound T)
      (fun _ T' y _ _ hT' => (S.bound_put T' y).trans hT') T rfl
  rw [idsetSet, validId_of_lt hid, idsetGrow, Nat.mod_eq_of_lt (by omega : id + 1 < 2 ^ 32)] at h
  simp only [hgrow, if_true, hauto, if_false, Bool.not_true, Bool.false_eq_true] at h
  cases h
  rw [S.bound_put, hbd, S.bound_empty]
  omega

/-- **An idset takes every id** for which its size, doubled until the id fits, is below
`2 ^ 32`; and no other. -/
theorem set_within_iff (S : SuccSet V) (idset : Idset V)
    (hauto : idset.flags &&& flagAutogrow ≠ 0) (hM : S.bound idset.T < 2 ^ 32) (id : ℕ)
    (hid : id < invalidId) :
    (∃ turns idset', idsetSetWithin S turns idset id = some (.ok idset') ∧
        S.members idset'.T = insert id (S.members idset.T)) ↔
      0 < S.bound idset.T ∧ doubled (S.bound idset.T) (id + 1) < 2 ^ 32 := by
  have hid' : id + 1 < 2 ^ 32 := by
    rw [invalidId, uintMax] at hid
    omega
  have hval := validId_of_lt hid
  simp only [idsetSetWithin, hval, Nat.mod_eq_of_lt hid', Bool.not_true, Bool.false_eq_true,
    if_false]
  constructor
  · rintro ⟨turns, idset', hset, hmbs⟩
    obtain ⟨newsize, htns, hset⟩ := Option.map_eq_some_iff.1 hset
    have hpos : 0 < S.bound idset.T := by
      by_contra hzero
      rw [Nat.eq_zero_of_not_pos hzero, doubling_zero turns (Nat.succ_pos id)] at htns
      cases htns
    refine ⟨hpos, ?_⟩
    by_contra hcut
    have hle := bound_of_cut hauto hpos hM hid (not_lt.1 hcut) hset
    have hmem : id ∈ S.members idset'.T := by
      rw [hmbs]
      exact Finset.mem_insert_self _ _
    exact absurd (S.lt_bound _ _ hmem) hle.not_gt
  · rintro ⟨hpos, hlt⟩
    obtain ⟨turns, htns⟩ := doubling_eq_doubled hpos hid'
    obtain ⟨idset', hgrow, hmbs, hbd, -⟩ := grow_ok hauto hpos hid' hlt
    refine ⟨turns, { idset' with T := S.put idset'.T id }, ?_, ?_⟩
    · rw [htns, idsetSet, hval, hgrow]
      rfl
    · rw [S.members_put, if_pos, hmbs]
      rw [hbd]
      exact (le_doubled (id + 1) hpos).2

/-- An idset of one id takes the id 3. -/
theorem set_within_iff_three :
    ∃ turns idset', idsetSetWithin veb turns ⟨veb.empty 1, flagAutogrow⟩ 3 = some (.ok idset') ∧
      veb.members idset'.T = insert 3 (veb.members (veb.empty 1)) :=
  (set_within_iff veb ⟨veb.empty 1, flagAutogrow⟩ (by decide) (by decide) 3 (by decide)).2
    ⟨by decide, by decide +kernel⟩

/-- **The id `2 ^ 31` leaves nothing** of an idset of one id: its size is now 0, and no turn of
the loop will change that. -/
theorem set_cut_to_zero :
    ((idsetSetWithin veb 33 ⟨veb.empty 1, flagAutogrow⟩ (2 ^ 31)).map fun result =>
        result.toOption.map fun idset => (veb.bound idset.T, idsetTest veb (some idset) (2 ^ 31)))
      = some (some (0, false)) ∧
      ∀ turns, idsetSetWithin veb turns ⟨veb.empty 0, flagAutogrow⟩ 0 = none :=
  ⟨by decide +kernel, fun turns => by
    rw [idsetSetWithin, show veb.bound (veb.empty 0) = 0 from rfl, doubling_zero turns (by decide)]
    rfl⟩

end FluxCore.Libidset
