import Mathlib.Data.List.Nodup

/-!
# Lists of Records with Distinct Keys

A list whose elements are known by a key. One element is changed in place (`replace`), or
taken out with a filter. The lemmas say what becomes of the keys, and of the number of elements
with a property.
-/

namespace KeyedList

open List

variable {α κ : Type*} [DecidableEq κ] (key : α → κ) {l : List α} {a : α} {k : κ}

/-- The element with the key `k` is changed. -/
def replace (k : κ) (f : α → α) (l : List α) : List α :=
  l.map fun x => if key x = k then f x else x

variable {key}

theorem map_replace (hf : ∀ x, key (f x) = key x) : (replace key k f l).map key = l.map key := by
  rw [replace, List.map_map]
  refine map_congr_left fun x _ => ?_
  rw [Function.comp_apply]
  split_ifs
  · exact hf x
  · rfl

theorem mem_replace (hy : y ∈ replace key k f l) :
    y ∈ l ∧ key y ≠ k ∨ ∃ x ∈ l, key x = k ∧ y = f x := by
  obtain ⟨x, hx, rfl⟩ := List.mem_map.1 hy
  by_cases hk : key x = k
  · exact .inr ⟨x, hx, hk, if_pos hk⟩
  · rw [if_neg hk]
    exact .inl ⟨hx, hk⟩

theorem find?_key (h : l.find? (key · = k) = some a) : a ∈ l ∧ key a = k := by
  have hk := List.find?_some h
  exact ⟨List.mem_of_find?_eq_some h, of_decide_eq_true hk⟩

theorem find?_isSome_iff : (l.find? (key · = k)).isSome ↔ k ∈ l.map key := by
  rw [List.find?_isSome, List.mem_map]
  simp only [decide_eq_true_eq]

theorem replace_of_notMem (h : k ∉ l.map key) : replace key k f l = l := by
  have hid : ∀ x ∈ l, (if key x = k then f x else x) = x := fun x hx =>
    if_neg fun heq => h (List.mem_map.2 ⟨x, hx, heq⟩)
  exact (map_congr_left hid).trans (List.map_id' l)

theorem countP_replace (hnd : (l.map key).Nodup) (ha : a ∈ l) (f : α → α) (p : α → Bool) :
    (replace key (key a) f l).countP p + (if p a then 1 else 0)
      = l.countP p + (if p (f a) then 1 else 0) := by
  induction l with
  | nil => cases ha
  | cons b l ih =>
    rw [map_cons, nodup_cons] at hnd
    have hcons : replace key (key a) f (b :: l)
        = (if key b = key a then f b else b) :: replace key (key a) f l := rfl
    rw [hcons, countP_cons, countP_cons]
    rcases mem_cons.1 ha with rfl | ha
    · rw [replace_of_notMem hnd.1, if_pos rfl]
      omega
    have hb : key b ≠ key a := fun heq => hnd.1 (List.mem_map.2 ⟨a, ha, heq.symm⟩)
    have := ih hnd.2 ha
    rw [if_neg hb]
    omega

theorem countP_remove (hnd : (l.map key).Nodup) (ha : a ∈ l) (p : α → Bool) :
    (l.filter (key · ≠ key a)).countP p + (if p a then 1 else 0) = l.countP p := by
  induction l with
  | nil => cases ha
  | cons b l ih =>
    rw [map_cons, nodup_cons] at hnd
    rcases mem_cons.1 ha with rfl | ha
    · have hrest : l.filter (key · ≠ key a) = l := by
        refine filter_eq_self.2 fun x hx => ?_
        exact decide_eq_true fun heq => hnd.1 (List.mem_map.2 ⟨x, hx, heq⟩)
      rw [filter_cons_of_neg (by simp), hrest, countP_cons]
    have hb : key b ≠ key a := fun heq => hnd.1 (List.mem_map.2 ⟨a, ha, heq.symm⟩)
    have := ih hnd.2 ha
    rw [filter_cons_of_pos (by simpa using hb), countP_cons, countP_cons]
    omega

end KeyedList
