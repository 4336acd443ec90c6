import FluxCore.Kvs.Proc
import Mathlib.Data.List.Nodup

/-!
# The Discipline of the Ready Queues

Only the head of a ready queue is ever worked on, and everything behind it is as it was when
it was added. `QueueOk` states the discipline for one queue, and the operations of the
transaction manager keep it.
-/

namespace FluxCore.Kvs

open List

/-- A transaction that has not been worked on. -/
structure Kvstxn.Fresh (kt : Kvstxn ℕ) : Prop where
  blocked : kt.blocked = false
  state : kt.state = .init
  errnum : kt.errnum = none
  auxErrnum : kt.auxErrnum = none
  missingRefs : kt.missingRefs = []
  dirty : kt.dirtyCacheEntries = []

/-- A transaction that has stalled and whose lists have been drained. -/
structure Kvstxn.Stalled (kt : Kvstxn ℕ) : Prop where
  blocked : kt.blocked = true
  processing : kt.processing = true
  errnum : kt.errnum = none
  missingRefs : kt.missingRefs = []
  state : kt.state = .loadRoot ∨ kt.state = .applyOps ∨
    kt.state = .preFinished ∧ kt.dirtyCacheEntries = []

/-- **The discipline of a ready queue**, without its head: what stands behind the head is
fresh. -/
structure QueueWf (ns : String) (bound : ℕ) (ready : List (Kvstxn ℕ)) : Prop where
  wf : ReadyWf ready
  mem : ∀ kt ∈ ready, kt.id.ns = ns ∧ kt.id.num < bound
  nodup : (ready.map (·.id)).Nodup
  tail : ∀ kt ∈ ready.tail, kt.Fresh

/-- **The discipline of a ready queue:** also the head is fresh, or it has stalled. -/
structure QueueOk (ns : String) (bound : ℕ) (ready : List (Kvstxn ℕ)) : Prop
    extends QueueWf ns bound ready where
  head : ∀ kt ∈ ready.head?, kt.Fresh ∨ kt.Stalled

variable {ns : String} {bound : ℕ} {ready rest : List (Kvstxn ℕ)} {kt kt' : Kvstxn ℕ}

theorem QueueOk.mono (h : QueueOk ns bound ready) (hb : bound ≤ bound') :
    QueueOk ns bound' ready :=
  { h with mem := fun kt hkt => ⟨(h.mem kt hkt).1, (h.mem kt hkt).2.trans_le hb⟩ }

section

variable (h : QueueWf ns bound (kt :: rest))
include h

theorem QueueWf.rest_id_ne (hx : x ∈ rest) :
    x.id ≠ kt.id := by
  intro he
  have := (nodup_cons.1 h.nodup).1
  exact this (List.mem_map.2 ⟨x, hx, he⟩)

theorem QueueWf.replace_head (hsame : kt.SameEntry kt') :
    QueueWf ns bound (kt' :: rest) where
  wf := h.wf.replace_head hsame.content hsame.merged hsame.mergeComponent
  mem x hx := by
    rcases mem_cons.1 hx with rfl | hx
    · rw [hsame.id]
      exact h.mem kt mem_cons_self
    · exact h.mem x (mem_cons_of_mem _ hx)
  nodup := by
    have := h.nodup
    rwa [map_cons, ← hsame.id, ← map_cons] at this
  tail := h.tail

theorem QueueWf.setProcessing :
    QueueWf ns bound (kt.setProcessing :: rest) where
  wf := h.wf.setProcessing
  mem x hx := by
    rcases mem_cons.1 hx with rfl | hx
    · exact h.mem kt mem_cons_self
    · exact h.mem x (mem_cons_of_mem _ hx)
  nodup := h.nodup
  tail := h.tail

theorem QueueWf.ok_of_head (hok : kt.Fresh ∨ kt.Stalled) :
    QueueOk ns bound (kt :: rest) :=
  { h with head := fun x hx => by cases hx; exact hok }

end

theorem QueueOk.nil : QueueOk ns bound [] where
  wf := .single (by simp)
  mem := by simp
  nodup := by simp
  tail := by simp
  head := by simp

theorem QueueOk.add (h : QueueOk ns bound ready) (name : String) (ops : List (Option (Op ℕ)))
    (flags : ℕ) (members : List ℕ) : QueueOk ns (bound + 1)
      (kvstxnMgrAddTransaction ready ⟨ns, bound⟩ name ops flags members) := by
  have hfresh : (kvstxnCreate ⟨ns, bound⟩ name ops flags members : Kvstxn ℕ).Fresh :=
    ⟨rfl, rfl, rfl, rfl, rfl, rfl⟩
  refine { wf := ?wf, mem := ?mem, nodup := ?nodup, tail := ?tail, head := ?head }
  case wf => exact h.wf.add _ _ _ _ _
  case mem =>
    intro x hx
    rcases mem_append.1 hx with hx | hx
    · exact ⟨(h.mem x hx).1, (h.mem x hx).2.trans (Nat.lt_succ_self _)⟩
    · rw [mem_singleton.1 hx]
      exact ⟨rfl, Nat.lt_succ_self _⟩
  case nodup =>
    rw [kvstxnMgrAddTransaction, map_append, map_singleton]
    refine concat_eq_append ▸ List.Nodup.concat (fun hmem => ?_) h.nodup
    obtain ⟨x, hx, hid⟩ := List.mem_map.1 hmem
    have := (h.mem x hx).2
    rw [hid] at this
    exact absurd this (Nat.lt_irrefl _)
  case tail =>
    intro x hx
    cases ready with
    | nil => cases hx
    | cons y ready =>
      rcases mem_append.1 hx with hx | hx
      · exact h.tail x hx
      · rw [mem_singleton.1 hx]
        exact hfresh
  case head =>
    intro x hx
    cases ready with
    | nil =>
      cases hx
      exact .inl hfresh
    | cons y ready => exact h.head x hx

theorem Kvstxn.Fresh.setProcessing (h : kt.Fresh) : kt.setProcessing.Fresh := { h with }

theorem Kvstxn.Fresh.toComponent (h : kt.Fresh) : kt.toComponent.Fresh := { h with }

theorem Kvstxn.Fresh.release (h : kt.Fresh) : kt.release.Fresh := { h with }

theorem QueueOk.merge (h : QueueOk ns bound ready) (hfresh : ∀ kt ∈ ready, kt.Fresh) :
    QueueOk ns (bound + 1) (kvstxnMgrMergeReadyTransactions ⟨ns, bound⟩ ready) ∧
      ∀ kt ∈ kvstxnMgrMergeReadyTransactions ⟨ns, bound⟩ ready, kt.Fresh := by
  obtain ⟨hwf, -⟩ := h.wf.merge ⟨ns, bound⟩
  suffices hall : (∀ kt ∈ kvstxnMgrMergeReadyTransactions ⟨ns, bound⟩ ready,
      kt.id.ns = ns ∧ kt.id.num < bound + 1 ∧ kt.Fresh) ∧
      ((kvstxnMgrMergeReadyTransactions ⟨ns, bound⟩ ready).map (·.id)).Nodup by
    obtain ⟨hall, hnd⟩ := hall
    refine ⟨⟨⟨hwf, fun kt hkt => ⟨(hall kt hkt).1, (hall kt hkt).2.1⟩, hnd,
      fun kt hkt => (hall kt (mem_of_mem_tail hkt)).2.2⟩,
      fun kt hkt => .inl (hall kt (mem_of_mem_head? hkt)).2.2⟩, fun kt hkt => (hall kt hkt).2.2⟩
  have hold : ∀ kt ∈ ready, kt.id.ns = ns ∧ kt.id.num < bound + 1 ∧ kt.Fresh := fun kt hkt =>
    ⟨(h.mem kt hkt).1, (h.mem kt hkt).2.trans (Nat.lt_succ_self _), hfresh kt hkt⟩
  rw [kvstxnMgrMergeReadyTransactions.eq_def]
  split
  · rename_i first second others
    split
    · set all := first :: second :: others with hall
      set p := kvstxnMergeable (ρ := ℕ) first.flags
      have hspl : all.takeWhile p ++ all.dropWhile p = all := takeWhile_append_dropWhile
      have hids : ((all.takeWhile p).map Kvstxn.toComponent ++ all.dropWhile p).map (·.id)
          = all.map (·.id) := by
        conv_rhs => rw [← hspl]
        rw [map_append, map_append, List.map_map]
        rfl
      constructor
      · intro x hx
        rw [cons_append] at hx
        rcases mem_cons.1 hx with rfl | hx
        · rw [foldl_kvstxnMerge]
          exact ⟨rfl, Nat.lt_succ_self _, ⟨rfl, rfl, rfl, rfl, rfl, rfl⟩⟩
        rcases mem_append.1 hx with hx | hx
        · obtain ⟨y, hy, rfl⟩ := List.mem_map.1 hx
          obtain ⟨h1, h2, h3⟩ := hold y ((List.takeWhile_prefix p).mem hy)
          exact ⟨h1, h2, h3.toComponent⟩
        · exact hold x ((dropWhile_suffix p).mem hx)
      · rw [cons_append, map_cons, hids, foldl_kvstxnMerge, nodup_cons]
        refine ⟨fun hmem => ?_, h.nodup⟩
        obtain ⟨x, hx, hid⟩ := List.mem_map.1 hmem
        have := (h.mem x hx).2
        rw [hid] at this
        exact absurd this (Nat.lt_irrefl _)
    · exact ⟨hold, h.nodup⟩
  · exact ⟨hold, h.nodup⟩

theorem mem_remove (hp : kt.processing = true)
    (hx : x ∈ kvstxnMgrRemoveTransaction (kt :: rest) kt fallback) :
    ∃ y ∈ rest, x = y ∨ x = y.release := by
  rw [kvstxnMgrRemoveTransaction, if_pos hp] at hx
  simp only [eraseP_cons, decide_true, cond_true] at hx
  split_ifs at hx
  · rcases mem_append.1 hx with hx | hx
    · obtain ⟨y, hy, rfl⟩ := List.mem_map.1 hx
      exact ⟨y, (List.takeWhile_prefix _).mem hy, .inr rfl⟩
    · exact ⟨x, (dropWhile_suffix _).mem hx, .inl rfl⟩
  · exact ⟨x, (dropWhile_suffix _).mem hx, .inl rfl⟩
  · exact ⟨x, hx, .inl rfl⟩

theorem remove_ids_sublist (hp : kt.processing = true) (fallback : Bool) :
    ((kvstxnMgrRemoveTransaction (kt :: rest) kt fallback).map (·.id)).Sublist
      (rest.map (·.id)) := by
  rw [kvstxnMgrRemoveTransaction, if_pos hp]
  simp only [eraseP_cons, decide_true, cond_true]
  split_ifs
  · rw [map_append, List.map_map]
    have : (fun x : Kvstxn ℕ => x.id) ∘ Kvstxn.release = fun x => x.id := rfl
    rw [this, ← map_append, takeWhile_append_dropWhile]
  · exact ((dropWhile_suffix _).sublist).map _
  · exact List.Sublist.refl _

/-- **Removing the head**, for good or as a fallback, keeps the discipline. -/
theorem QueueWf.remove (h : QueueWf ns bound (kt :: rest)) (hp : kt.processing = true)
    (hf : fallback = true → kt.merged = true) :
    QueueOk ns bound (kvstxnMgrRemoveTransaction (kt :: rest) kt fallback) ∧
      ∀ x ∈ kvstxnMgrRemoveTransaction (kt :: rest) kt fallback, x.Fresh := by
  have hfresh : ∀ x ∈ kvstxnMgrRemoveTransaction (kt :: rest) kt fallback, x.Fresh := by
    intro x hx
    obtain ⟨y, hy, rfl | rfl⟩ := mem_remove hp hx
    · exact h.tail x hy
    · exact (h.tail y hy).release
  refine ⟨⟨⟨?_, ?_, ?_, fun x hx => hfresh x (mem_of_mem_tail hx)⟩,
    fun x hx => .inl (hfresh x (mem_of_mem_head? hx))⟩, hfresh⟩
  · cases fallback with
    | true => exact (h.wf.remove_fallback hp (hf rfl)).1
    | false => exact (h.wf.remove hp).1
  · intro x hx
    obtain ⟨y, hy, rfl | rfl⟩ := mem_remove hp hx
    · exact h.mem x (mem_cons_of_mem _ hy)
    · exact h.mem y (mem_cons_of_mem _ hy)
  · exact (remove_ids_sublist hp fallback).nodup (nodup_cons.1 h.nodup).2

theorem QueueOk.mark (h : QueueOk ns bound ready) {ks : List TxnId} (errnum : Errno)
    (hks : ∀ kt ∈ ready, kt.id ∈ ks → kt.blocked = true) : QueueOk ns bound (ready.map fun kt =>
      if kt.id ∈ ks then { kt with auxErrnum := some errnum } else kt) := by
  set f := fun kt : Kvstxn ℕ => if kt.id ∈ ks then { kt with auxErrnum := some errnum } else kt
  have hf (kt : Kvstxn ℕ) : f kt = { kt with auxErrnum := (f kt).auxErrnum } := by
    simp only [f]
    split_ifs <;> rfl
  cases ready with
  | nil => exact QueueOk.nil
  | cons kt rest =>
    have hrest : rest.map f = rest := by
      conv_rhs => rw [← List.map_id rest]
      refine map_congr_left fun x hx => if_neg fun hx' => ?_
      have := hks x (mem_cons_of_mem _ hx) hx'
      rw [(h.tail x hx).blocked] at this
      cases this
    have hsame : kt.SameEntry (f kt) := by
      rw [hf]
      exact ⟨rfl, rfl, rfl, rfl, rfl⟩
    rw [map_cons, hrest]
    refine (h.toQueueWf.replace_head hsame).ok_of_head ?_
    rcases h.head kt rfl with hfr | hst
    · refine .inl ?_
      have : f kt = kt := if_neg fun hx' => by
        have := hks kt mem_cons_self hx'
        rw [hfr.blocked] at this
        cases this
      rwa [this]
    · refine .inr ?_
      rw [hf]
      exact { hst with }

end FluxCore.Kvs
