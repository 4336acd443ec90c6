import Mathlib.Data.List.Chain
import Mathlib.Data.List.Nodup

/-!
# Trees on Numbers

A rooted tree whose vertices are numbers, given by the parent of each vertex. The root has
no parent, and every other vertex has a smaller one. The file has the order of the tree
(`Below`), simple paths, and the nearest ancestor with a property.
-/

namespace NumberedTree

variable (parent : ℕ → Option ℕ)

/-- `Below a b`: the vertex `b` is `a` or below `a`. -/
inductive Below (a : ℕ) : ℕ → Prop
  | refl : Below a a
  | step {b c : ℕ} (h : parent b = some c) (hc : Below a c) : Below a b

/-- Two vertices are joined by an edge. -/
def Adjacent (a b : ℕ) : Prop := parent a = some b ∨ parent b = some a

/-- A simple path from `a` to `b`. -/
structure IsPath (a b : ℕ) (path : List ℕ) : Prop where
  head : path.head? = some a
  last : path.getLast? = some b
  chain : path.IsChain (Adjacent parent)
  nodup : path.Nodup

/-- The nearest vertex with the property `P` among `r` and the vertices above it. -/
structure Nearest (P : ℕ → Prop) (r a : ℕ) : Prop where
  below : Below parent a r
  holds : P a
  least : ∀ b, Below parent b r → P b → Below parent b a

variable {parent} {a b c x : ℕ}

theorem below_iff : Below parent a b ↔ a = b ∨ ∃ c, parent b = some c ∧ Below parent a c := by
  constructor
  · rintro (_ | ⟨hp, hc⟩)
    · exact .inl rfl
    · exact .inr ⟨_, hp, hc⟩
  · rintro (rfl | ⟨c, hp, hc⟩)
    · exact .refl
    · exact .step hp hc

theorem Below.le (hlt : ∀ i p, parent i = some p → p < i) (h : Below parent a b) : a ≤ b := by
  induction h with
  | refl => exact le_rfl
  | step hp _ ih => exact ih.trans (hlt _ _ hp).le

theorem Below.trans (h : Below parent a b) (hc : Below parent b c) : Below parent a c := by
  induction hc with
  | refl => exact h
  | step hp _ ih => exact .step hp ih

/-- The vertices above one vertex lie on one path. -/
theorem Below.total (ha : Below parent a x) (hb : Below parent b x) :
    Below parent a b ∨ Below parent b a := by
  induction ha with
  | refl => exact .inr hb
  | step hp ha ih =>
    rcases below_iff.1 hb with rfl | ⟨d, hd, hbd⟩
    · exact .inl (.step hp ha)
    rw [hp] at hd
    cases hd
    exact ih hbd

theorem isPath_singleton (a : ℕ) : IsPath parent a a [a] :=
  ⟨rfl, rfl, .singleton a, List.nodup_singleton a⟩

theorem IsPath.cons (h : IsPath parent a b path) (hadj : Adjacent parent x a) (hx : x ∉ path) :
    IsPath parent x b (x :: path) := by
  obtain ⟨hhead, hlast, hchain, hnd⟩ := h
  cases path with
  | nil => cases hhead
  | cons y path =>
    cases hhead
    refine ⟨rfl, ?_, List.isChain_cons_cons.2 ⟨hadj, hchain⟩, List.nodup_cons.2 ⟨hx, hnd⟩⟩
    rw [List.getLast?_cons_cons]
    exact hlast

theorem nearest_self (h : P r) : Nearest parent P r r :=
  ⟨.refl, h, fun _ hb _ => hb⟩

theorem Nearest.step (h : Nearest parent P p a) (hp : parent r = some p) (hr : ¬ P r) :
    Nearest parent P r a := by
  refine ⟨.step hp h.below, h.holds, fun b hb hPb => ?_⟩
  rcases below_iff.1 hb with rfl | ⟨c, hc, hb⟩
  · exact absurd hPb hr
  rw [hp] at hc
  cases hc
  exact h.least b hb hPb

end NumberedTree
