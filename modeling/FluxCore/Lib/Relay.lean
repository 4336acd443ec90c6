import Mathlib.Data.List.Infix
import Mathlib.Data.Set.Insert

/-!
# Relaying a Stream down a Tree

Node `0` is the root of a tree whose links are queues. The root takes items from outside, and
every node hands on what it takes, in order, to those of its children that have joined. A node
may join at any time, and sees nothing of what its parent has taken before. What a node has
taken is then at all times a contiguous piece of what the root has taken.
-/

/-- A tree of relays: the items each node has taken, the queue on the link from its parent, and
the nodes that have joined. -/
@[ext]
structure Relay (α : Type) where
  log : ℕ → List α
  link : ℕ → List α
  joined : Set ℕ

namespace Relay

variable {α : Type} (parent : ℕ → ℕ)

open Classical in
/-- A node takes an item, and puts it on the links to its children that have joined. -/
noncomputable def take (s : Relay α) (r : ℕ) (x : α) : Relay α where
  log := Function.update s.log r (s.log r ++ [x])
  link c := if c ≠ 0 ∧ parent c = r ∧ c ∈ s.joined then s.link c ++ [x] else s.link c
  joined := s.joined

/-- The steps of the tree: the root takes an item, a node joins, or a node takes the oldest item
on the link from its parent. -/
inductive Step : Relay α → Relay α → Prop
  | inject (s : Relay α) (x : α) : Step s (s.take parent 0 x)
  | join (s : Relay α) (c : ℕ) : Step s { s with joined := insert c s.joined }
  | relay (s : Relay α) {c : ℕ} {x : α} {rest : List α} (hc : c ≠ 0) (hx : s.link c = x :: rest) :
      Step s (take parent { s with link := Function.update s.link c rest } c x)

/-- What a node has taken, and then what is on its link, is what its parent has taken since the
node has joined. -/
structure Coherent (s : Relay α) : Prop where
  suffix : ∀ c, c ≠ 0 → s.log c ++ s.link c <:+ s.log (parent c)
  apart : ∀ c, c ≠ 0 → c ∉ s.joined → s.log c = [] ∧ s.link c = []

variable {parent}

variable {s : Relay α}

theorem Coherent.joined_of_link (h : s.Coherent parent) (hc : c ≠ 0) (hx : s.link c = x :: rest) :
    c ∈ s.joined := by
  by_contra hjoined
  have hnil := (h.apart c hc hjoined).2
  rw [hx] at hnil
  cases hnil

section

variable (hparent : ∀ c, c ≠ 0 → parent c < c)
include hparent

/-- Taking an item keeps a tree coherent, where the item comes next in what the node is to
take. -/
theorem coherent_take (hnext : r ≠ 0 → s.log r ++ x :: s.link r <:+ s.log (parent r))
    (hoths : ∀ c, c ≠ 0 → c ≠ r → s.log c ++ s.link c <:+ s.log (parent c))
    (hjoined : r ≠ 0 → r ∈ s.joined)
    (hapart : ∀ c, c ≠ 0 → c ∉ s.joined → s.log c = [] ∧ s.link c = []) :
    (s.take parent r x).Coherent parent := by
  have hself : (s.take parent r x).log r = s.log r ++ [x] := Function.update_self ..
  have hoth : ∀ c, c ≠ r → (s.take parent r x).log c = s.log c :=
    fun c hc => Function.update_of_ne hc _ _
  have hidle : ∀ c, parent c ≠ r → (s.take parent r x).link c = s.link c :=
    fun c hc => if_neg fun h => hc h.2.1
  have hout : ∀ c, c ∉ s.joined → (s.take parent r x).link c = s.link c :=
    fun c hc => if_neg fun h => hc h.2.2
  refine ⟨fun c hc => ?_, fun c hc hcj => ?_⟩
  · by_cases hcr : c = r
    · subst hcr
      have hne : parent c ≠ c := (hparent c hc).ne
      rw [hself, hoth _ hne, hidle c hne, List.append_assoc]
      exact hnext hc
    · rw [hoth c hcr]
      by_cases hp : parent c = r
      · by_cases hcj : c ∈ s.joined
        · have hlink : (s.take parent r x).link c = s.link c ++ [x] := if_pos ⟨hc, hp, hcj⟩
          have hsuf := hoths c hc hcr
          rw [hp] at hsuf ⊢
          rw [hlink, hself, ← List.append_assoc]
          exact List.suffix_append_self_iff.2 hsuf
        · rw [hout c hcj, (hapart c hc hcj).1, (hapart c hc hcj).2]
          exact List.nil_suffix
      · rw [hoth _ hp, hidle c hp]
        exact hoths c hc hcr
  · have hcr : c ≠ r := by
      rintro rfl
      exact hcj (hjoined hc)
    rw [hoth c hcr, hout c hcj]
    exact hapart c hc hcj

/-- **Every step keeps a tree coherent.** -/
theorem Step.coherent (hst : Step parent s t) (h : s.Coherent parent) : t.Coherent parent := by
  cases hst with
  | inject x =>
    exact coherent_take hparent (fun h0 => absurd rfl h0) (fun c hc _ => h.suffix c hc)
      (fun h0 => absurd rfl h0) h.apart
  | join c =>
    exact ⟨h.suffix, fun d hd hdj => h.apart d hd fun hj => hdj (Set.mem_insert_of_mem c hj)⟩
  | @relay c x rest hc hx =>
    have hcj := h.joined_of_link hc hx
    refine coherent_take hparent (fun _ => ?_) (fun d hd hdc => ?_) (fun _ => hcj)
      (fun d hd hdj => ?_)
    · have hsuf := h.suffix c hc
      rw [hx] at hsuf
      simpa using hsuf
    · simpa [hdc] using h.suffix d hd
    · have hdc : d ≠ c := by
        rintro rfl
        exact hdj hcj
      simpa [hdc] using h.apart d hd hdj

/-- **What a node has taken is a contiguous piece of what the root has taken.** -/
theorem Coherent.log_infix (h : s.Coherent parent) (c : ℕ) :
    s.log c <:+: s.log 0 := by
  induction c using Nat.strong_induction_on with
  | _ c ih =>
    by_cases hc : c = 0
    · rw [hc]
    have hbef : s.log c <:+: s.log c ++ s.link c := (List.prefix_append _ _).isInfix
    have hsuf : s.log c ++ s.link c <:+: s.log (parent c) := (h.suffix c hc).isInfix
    exact (hbef.trans hsuf).trans (ih (parent c) (hparent c hc))

theorem Coherent.stream_infix (h : s.Coherent parent) (hc : c ≠ 0) :
    s.log c ++ s.link c <:+: s.log 0 :=
  (h.suffix c hc).isInfix.trans (h.log_infix hparent (parent c))

end

end Relay
