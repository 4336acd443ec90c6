import Mathlib.Data.Finset.Basic
import Mathlib.Data.Multiset.Bind
import FluxCore.Lib.KeyedList

/-!
# Pairs in Buckets

A finite relation between indices and values, kept as a list of buckets: one bucket for each
value, with the set of its indices. The file says which pairs a list of buckets stands for
(`pairs`), how the pairs change when indices are added to the bucket of a value, and that the
buckets are determined by their pairs, up to their order.
-/

theorem Multiset.mem_sum_map {α β : Type*} {l : List β} {f : β → Multiset α} {a : α} :
    a ∈ (l.map f).sum ↔ ∃ x ∈ l, a ∈ f x := by
  induction l with
  | nil => simp
  | cons x l ih => simp [ih]

/-- The indices that go with one value. -/
structure Bucket (ι α : Type*) where
  ids : Finset ι
  value : α

namespace Bucket

open List

variable {ι α : Type*} {l : List (Bucket ι α)} {g : Bucket ι α} {v : α} {id : ι}

/-- The pairs of indices and values that a list of buckets stands for. -/
def pairs (l : List (Bucket ι α)) : Multiset (ι × α) :=
  (l.map fun g => g.ids.val.map fun id => (id, g.value)).sum

@[simp] theorem pairs_nil : pairs ([] : List (Bucket ι α)) = 0 := rfl

@[simp] theorem pairs_cons :
    pairs (g :: l) = (g.ids.val.map fun id => (id, g.value)) + pairs l := sum_cons

theorem mem_pairs : (id, v) ∈ pairs l ↔ ∃ g ∈ l, g.value = v ∧ id ∈ g.ids := by
  rw [pairs, Multiset.mem_sum_map]
  refine exists_congr fun g => and_congr_right fun _ => ?_
  rw [Multiset.mem_map]
  constructor
  · rintro ⟨id, hid, heq⟩
    cases heq
    exact ⟨rfl, hid⟩
  · rintro ⟨rfl, hid⟩
    exact ⟨id, hid, rfl⟩

/-! ### Buckets from their pairs -/

theorem mem_iff_pairs (hnd : (l.map value).Nodup) (hne : ∀ g ∈ l, g.ids.Nonempty) :
    g ∈ l ↔ g.ids.Nonempty ∧ ∀ id, id ∈ g.ids ↔ (id, g.value) ∈ pairs l := by
  have hsame : ∀ g' ∈ l, g' ∈ l → ∀ g'' ∈ l, g'.value = g''.value → g' = g'' :=
    fun g' hg' _ g'' hg'' => inj_on_of_nodup_map hnd hg' hg''
  constructor
  · refine fun hg => ⟨hne g hg, fun id => ⟨fun hid => mem_pairs.2 ⟨g, hg, rfl, hid⟩, fun hid => ?_⟩⟩
    obtain ⟨g', hg', hvl, hid⟩ := mem_pairs.1 hid
    exact hsame g' hg' hg' g hg hvl ▸ hid
  · rintro ⟨⟨id, hid⟩, hall⟩
    obtain ⟨g', hg', hvl, -⟩ := mem_pairs.1 ((hall id).1 hid)
    have hids : g.ids = g'.ids := by
      ext id
      rw [hall, mem_pairs]
      constructor
      · rintro ⟨g'', hg'', hvl', hid⟩
        exact hsame g'' hg'' hg'' g' hg' (hvl'.trans hvl.symm) ▸ hid
      · exact fun hid => ⟨g', hg', hvl, hid⟩
    obtain rfl : g = g' := by
      cases g
      cases g'
      cases hvl
      cases hids
      rfl
    exact hg'

theorem nodup_ids (hnd : ((pairs l).map Prod.fst).Nodup) (hne : ∀ g ∈ l, g.ids.Nonempty) :
    (l.map Bucket.ids).Nodup := by
  induction l with
  | nil => exact nodup_nil
  | cons g l ih =>
    rw [pairs_cons, Multiset.map_add, Multiset.nodup_add] at hnd
    rw [map_cons, nodup_cons]
    refine ⟨fun hmem => ?_, ih hnd.2.1 fun g' hg' => hne g' (mem_cons_of_mem g hg')⟩
    obtain ⟨g', hg', hids⟩ := List.mem_map.1 hmem
    obtain ⟨id, hid⟩ := hne g mem_cons_self
    have hleft : id ∈ (g.ids.val.map fun id => (id, g.value)).map Prod.fst :=
      Multiset.mem_map.2 ⟨(id, g.value), Multiset.mem_map.2 ⟨id, hid, rfl⟩, rfl⟩
    have hright : id ∈ (pairs l).map Prod.fst :=
      Multiset.mem_map.2 ⟨(id, g'.value), mem_pairs.2 ⟨g', hg', rfl, hids ▸ hid⟩, rfl⟩
    exact Multiset.disjoint_left.1 hnd.2.2 hleft hright

/-! ### Adding -/

section Adding

variable [DecidableEq α]

theorem find?_of_mem (hnd : (l.map value).Nodup) (hg : g ∈ l) :
    l.find? (·.value = g.value) = some g := by
  cases hfind : l.find? (·.value = g.value) with
  | none =>
    have hnone := List.find?_eq_none.1 hfind g hg
    exact absurd (decide_eq_true rfl) hnone
  | some g' =>
    obtain ⟨hg', hvl⟩ := KeyedList.find?_key hfind
    rw [inj_on_of_nodup_map hnd hg' hg hvl]

/-- There is a bucket for the value `v`, if only an empty one. -/
def addValue (v : α) (l : List (Bucket ι α)) : List (Bucket ι α) :=
  if v ∈ l.map value then l else ⟨∅, v⟩ :: l

theorem mem_addValue : v ∈ (addValue v l).map value := by
  rw [addValue]
  split
  · assumption
  · exact mem_cons_self

theorem nodup_addValue (h : (l.map value).Nodup) : ((addValue v l).map value).Nodup := by
  rw [addValue]
  split
  · exact h
  · exact nodup_cons.2 ⟨‹_›, h⟩

@[simp] theorem pairs_addValue : pairs (addValue v l) = pairs l := by
  rw [addValue]
  split
  · rfl
  · rw [pairs_cons]
    exact zero_add _

theorem mem_of_mem_addValue (hg : g ∈ addValue v l) (hv : g.value ≠ v) : g ∈ l := by
  rw [addValue] at hg
  split at hg
  · exact hg
  · exact (mem_cons.1 hg).resolve_left fun h => hv (congrArg value h)

variable [DecidableEq ι] {ids : Finset ι}

/-- Indices are added to the bucket of the value `v`. -/
def addIds (v : α) (ids : Finset ι) (l : List (Bucket ι α)) : List (Bucket ι α) :=
  KeyedList.replace value v (fun g => { g with ids := g.ids ∪ ids }) l

theorem addIds_cons : addIds v ids (g :: l)
    = (if g.value = v then { g with ids := g.ids ∪ ids } else g) :: addIds v ids l := rfl

@[simp] theorem map_addIds : (addIds v ids l).map value = l.map value :=
  KeyedList.map_replace fun _ => rfl

theorem pairs_addIds (hnd : (l.map value).Nodup) (hv : v ∈ l.map value)
    (hnew : ∀ id ∈ ids, (id, v) ∉ pairs l) :
    pairs (addIds v ids l) = pairs l + ids.val.map fun id => (id, v) := by
  induction l with
  | nil => exact absurd hv not_mem_nil
  | cons g l ih =>
    rw [map_cons, nodup_cons] at hnd
    rw [addIds_cons, pairs_cons, pairs_cons]
    by_cases hg : g.value = v
    · have hrest : addIds v ids l = l := KeyedList.replace_of_notMem (hg ▸ hnd.1)
      have hdisj : Disjoint g.ids ids := by
        refine Finset.disjoint_left.2 fun id hid hid' => hnew id hid' ?_
        exact mem_pairs.2 ⟨g, mem_cons_self, hg, hid⟩
      rw [if_pos hg, hrest, ← Finset.disjUnion_eq_union _ _ hdisj, Finset.disjUnion_val,
        Multiset.map_add, hg]
      exact add_right_comm _ _ _
    · have hrest := ih hnd.2 ((mem_cons.1 hv).resolve_left (Ne.symm hg)) fun id hid h =>
        hnew id hid (pairs_cons ▸ Multiset.mem_add.2 (.inr h))
      rw [if_neg hg, hrest, add_assoc]

theorem mem_addIds_addValue (hg : g ∈ addIds v ids (addValue v l)) :
    g ∈ l ∨ g.value = v ∧ ids ⊆ g.ids ∧ ∀ id ∈ g.ids, id ∈ ids ∨ ∃ g' ∈ l, id ∈ g'.ids := by
  obtain ⟨hg, hv⟩ | ⟨g', hg', hv, rfl⟩ := KeyedList.mem_replace hg
  · exact .inl (mem_of_mem_addValue hg hv)
  refine .inr ⟨hv, Finset.subset_union_right, fun id hid => ?_⟩
  rcases Finset.mem_union.1 hid with hid | hid
  · have hpair : (id, v) ∈ pairs (addValue v l) := mem_pairs.2 ⟨g', hg', hv, hid⟩
    rw [pairs_addValue] at hpair
    obtain ⟨g'', hg'', -, hid⟩ := mem_pairs.1 hpair
    exact .inr ⟨g'', hg'', hid⟩
  · exact .inl hid

end Adding

end Bucket
