import FluxCore.Kvs.Treq
import Mathlib.Data.List.Nodup

/-!
# One Response for Each Request

A commit or fence request is answered in one of two places: by its handler, which reports
an error, or by `finalize_transaction_bynames`, which answers the copies that the handlers
have saved. The two exclude each other as long as no surplus fence request arrives on
rank 0, since a handler saves a request after its other checks and reports nothing more
afterwards (`answered_at_most_once`). The handler of a surplus request on rank 0 saves the
request first and then reports that the fence is full, and so the request is answered again
when the fence completes (`surplus_fence_answered_twice`).
-/

namespace FluxCore.Kvs.Instance

open List Option

/-- The requests that are saved under a name on a rank. -/
def State.saved (s : State) (rank : ℕ) (name : String) : List ℕ :=
  (s.treqs rank name).elim [] Treq.requests

/-- The requests that have been answered. -/
def State.answered (s : State) : List ℕ := s.answers.map Prod.fst

/-- A fence request is surplus if rank 0 has counted all requests of its fence before it
arrives there. -/
def Surplus (s : State) : Label → Prop
  | .fenceRequest rank name nprocs flags _ =>
    rank = 0 ∧ ∃ tr, s.treqs 0 name = some tr ∧ tr.nprocs = nprocs ∧ tr.flags = flags ∧
      (tr.count : ℤ) = nprocs
  | _ => False

/-- Every request is in at most one place: it has been answered, once, or it is saved, once,
under one name on one rank. -/
structure Accounted (s : State) : Prop where
  once : s.answered.Nodup
  nodup : ∀ r n, (s.saved r n).Nodup
  apart : ∀ q r n r' n', q ∈ s.saved r n → q ∈ s.saved r' n' → r = r' ∧ n = n'
  unanswered : ∀ q r n, q ∈ s.saved r n → q ∉ s.answered
  answered_lt : ∀ q ∈ s.answered, q < s.nextReq
  saved_lt : ∀ q r n, q ∈ s.saved r n → q < s.nextReq

theorem Accounted.init (h : s = {}) : Accounted s := by
  subst h
  constructor <;> simp [State.answered, State.saved]

section Step

variable {s t : State}

theorem Accounted.frame (h : Accounted s) (hans : t.answers = s.answers)
    (hsav : ∀ r n, t.saved r n = s.saved r n) (hnext : t.nextReq = s.nextReq) :
    Accounted t := by
  have ha : t.answered = s.answered := congrArg (List.map Prod.fst) hans
  constructor
  case once => exact ha ▸ h.once
  case nodup => exact fun r n => hsav r n ▸ h.nodup r n
  case apart =>
    intro q r n r' n' hq hq'
    rw [hsav] at hq hq'
    exact h.apart q r n r' n' hq hq'
  case unanswered =>
    intro q r n hq
    rw [hsav] at hq
    exact ha ▸ h.unanswered q r n hq
  case answered_lt =>
    rw [ha, hnext]
    exact h.answered_lt
  case saved_lt =>
    intro q r n hq
    rw [hsav] at hq
    exact hnext ▸ h.saved_lt q r n hq

theorem Accounted.refuse (h : Accounted s) (hans : t.answers = (s.nextReq, e) :: s.answers)
    (hsav : ∀ r n, t.saved r n = s.saved r n) (hnext : t.nextReq = s.nextReq + 1) :
    Accounted t := by
  have ha : t.answered = s.nextReq :: s.answered := congrArg (List.map Prod.fst) hans
  constructor
  case once =>
    rw [ha, nodup_cons]
    exact ⟨fun hq => (h.answered_lt _ hq).ne rfl, h.once⟩
  case nodup => exact fun r n => hsav r n ▸ h.nodup r n
  case apart =>
    intro q r n r' n' hq hq'
    rw [hsav] at hq hq'
    exact h.apart q r n r' n' hq hq'
  case unanswered =>
    intro q r n hq hmem
    rw [hsav] at hq
    rw [ha, mem_cons] at hmem
    rcases hmem with rfl | hmem
    · exact (h.saved_lt _ r n hq).ne rfl
    · exact h.unanswered q r n hq hmem
  case answered_lt =>
    rw [ha, hnext]
    exact forall_mem_cons.2
      ⟨Nat.lt_succ_self _, fun q hq => Nat.lt_succ_of_lt (h.answered_lt q hq)⟩
  case saved_lt =>
    intro q r n hq
    rw [hsav] at hq
    rw [hnext]
    exact Nat.lt_succ_of_lt (h.saved_lt q r n hq)

theorem Accounted.save (h : Accounted s) (hans : t.answers = s.answers)
    (hsav : ∀ r n, t.saved r n
      = if r = rank ∧ n = name then s.nextReq :: s.saved rank name else s.saved r n)
    (hnext : t.nextReq = s.nextReq + 1) : Accounted t := by
  have ha : t.answered = s.answered := congrArg (List.map Prod.fst) hans
  have hmem : ∀ q r n, q ∈ t.saved r n →
      (q = s.nextReq ∧ r = rank ∧ n = name) ∨ q ∈ s.saved r n := by
    intro q r n hq
    rw [hsav] at hq
    split at hq
    · rename_i heq
      rcases mem_cons.1 hq with hq | hq
      · exact .inl ⟨hq, heq⟩
      · exact .inr (heq.1 ▸ heq.2 ▸ hq)
    · exact .inr hq
  constructor
  case once => exact ha ▸ h.once
  case nodup =>
    intro r n
    rw [hsav]
    split
    · exact nodup_cons.2 ⟨fun hq => (h.saved_lt _ _ _ hq).ne rfl, h.nodup _ _⟩
    · exact h.nodup r n
  case apart =>
    intro q r n r' n' hq hq'
    rcases hmem q r n hq with ⟨rfl, rfl, rfl⟩ | hq
    · rcases hmem _ r' n' hq' with ⟨-, rfl, rfl⟩ | hq'
      · exact ⟨rfl, rfl⟩
      · exact absurd rfl (h.saved_lt _ _ _ hq').ne
    rcases hmem q r' n' hq' with ⟨rfl, -, -⟩ | hq'
    · exact absurd rfl (h.saved_lt _ _ _ hq).ne
    · exact h.apart q r n r' n' hq hq'
  case unanswered =>
    intro q r n hq hans'
    rw [ha] at hans'
    rcases hmem q r n hq with ⟨rfl, -, -⟩ | hq
    · exact (h.answered_lt _ hans').ne rfl
    · exact h.unanswered q r n hq hans'
  case answered_lt =>
    rw [ha, hnext]
    exact fun q hq => Nat.lt_succ_of_lt (h.answered_lt q hq)
  case saved_lt =>
    intro q r n hq
    rw [hnext]
    rcases hmem q r n hq with ⟨rfl, -, -⟩ | hq
    · exact Nat.lt_succ_self _
    · exact Nat.lt_succ_of_lt (h.saved_lt q r n hq)

theorem answers_foldl_respond (l : List ℕ) (errnum : Option Errno) (s : State) :
    l.foldl (fun s req => s.respond req errnum) s
      = { s with answers := (l.map fun q => (q, errnum)).reverse ++ s.answers } := by
  induction l generalizing s with
  | nil => rfl
  | cons q l ih =>
    rw [foldl_cons, ih]
    simp [State.respond]

theorem Accounted.finalize (h : Accounted s) (htr : s.treqs rank name = some tr)
    (errnum : Option Errno) : Accounted
      ((tr.requests.foldl (fun s req => s.respond req errnum) s).removeTreq rank name) := by
  rw [answers_foldl_respond]
  set t := State.removeTreq { s with answers := _ } rank name with hdef
  have hfd : s.saved rank name = tr.requests := by rw [State.saved, htr, elim_some]
  have ha : t.answered = tr.requests.reverse ++ s.answered := by
    rw [State.answered, hdef]
    simp [State.removeTreq, State.answered, Function.comp_def]
  have hmem : ∀ q r n, q ∈ t.saved r n → q ∈ s.saved r n ∧ ¬ (r = rank ∧ n = name) := by
    intro q r n hq
    have hq : q ∈ (if r = rank ∧ n = name then none else s.treqs r n).elim [] Treq.requests := hq
    split at hq
    · cases hq
    · exact ⟨hq, by assumption⟩
  constructor
  case once =>
    rw [ha, nodup_append']
    refine ⟨nodup_reverse.2 (hfd ▸ h.nodup rank name), h.once, fun q hq hq' => ?_⟩
    rw [mem_reverse, ← hfd] at hq
    exact h.unanswered q rank name hq hq'
  case nodup =>
    intro r n
    change ((if r = rank ∧ n = name then none else s.treqs r n).elim [] Treq.requests).Nodup
    split
    · exact nodup_nil
    · exact h.nodup r n
  case apart =>
    intro q r n r' n' hq hq'
    exact h.apart q r n r' n' (hmem q r n hq).1 (hmem q r' n' hq').1
  case unanswered =>
    intro q r n hq hans
    obtain ⟨hq, hne⟩ := hmem q r n hq
    rw [ha, mem_append, mem_reverse, ← hfd] at hans
    rcases hans with hans | hans
    · exact hne (h.apart q r n rank name hq hans)
    · exact h.unanswered q r n hq hans
  case answered_lt =>
    intro q hq
    rw [ha, mem_append, mem_reverse, ← hfd] at hq
    exact hq.elim (h.saved_lt q rank name) (h.answered_lt q)
  case saved_lt => exact fun q r n hq => h.saved_lt q r n (hmem q r n hq).1

theorem Accounted.finalizeTransactionBynames (h : Accounted s) (rank : ℕ)
    (errnum : Option Errno) (names : List String) :
    Accounted (State.finalizeTransactionBynames rank errnum names s) := by
  induction names generalizing s with
  | nil => exact h
  | cons name names ih =>
    rw [State.finalizeTransactionBynames]
    split
    · exact ih h
    · rename_i tr htr
      exact ih (h.finalize htr errnum)

/-- Counting a request on rank 0 answers and saves nothing; it fails only if all requests
have been counted before. -/
theorem addFenceOps_saved (h : s.addFenceOps tr name ops req = some (t, o)) :
    ((tr.count : ℤ) = tr.nprocs ∧ t = s) ∨
      (o = none ∧ t.answers = s.answers ∧ t.nextReq = s.nextReq ∧
        ∀ r n, t.saved r n = if r = 0 ∧ n = name then tr.requests else s.saved r n) := by
  have hset : ∀ (tr' : Treq) r n, tr'.requests = tr.requests →
      (s.setTreq 0 name tr').saved r n = if r = 0 ∧ n = name then tr.requests else s.saved r n := by
    intro tr' r n heq
    simp only [State.saved, State.setTreq]
    split
    · exact heq
    · rfl
  rw [State.addFenceOps, treqAddRequestOps] at h
  by_cases hfull : (tr.count : ℤ) = tr.nprocs
  · rw [if_pos hfull] at h
    cases h
    exact .inl ⟨hfull, rfl⟩
  rw [if_neg hfull] at h
  dsimp only at h
  split at h
  · split at h
    · cases h
    · cases h
      exact .inr ⟨rfl, rfl, rfl, fun r n => hset _ r n rfl⟩
  · cases h
    exact .inr ⟨rfl, rfl, rfl, fun r n => hset _ r n rfl⟩

/-- The record that a handler works with is the one that is filed, or a new one with no
requests. -/
theorem requests_of_filed (h : (s.treqs rank name).elim (treqCreate nprocs flags) .ok = .ok tr) :
    s.saved rank name = tr.requests ∧ (s.treqs rank name = some tr ∨ (tr.count : ℤ) ≠ tr.nprocs) := by
  rw [State.saved]
  cases hfile : s.treqs rank name with
  | some tr' =>
    rw [hfile] at h
    cases h
    exact ⟨rfl, .inl rfl⟩
  | none =>
    rw [hfile, elim_none, treqCreate] at h
    split at h
    · cases h
    rename_i hpos
    cases h
    refine ⟨rfl, .inr ?_⟩
    change (0 : ℤ) ≠ nprocs
    omega

section

variable (h : Accounted s)
include h

theorem Accounted.commitRequest (rank flags : ℕ) (ops : List (Option (Op Empty))) :
    Accounted (s.commitRequestCb rank ops flags) := by
  simp only [State.commitRequestCb]
  split
  · exact h.refuse rfl (fun _ _ => rfl) rfl
  rename_i hnone
  set name := treqRankName rank (s.seq rank)
  have hsav : s.saved rank name = [] := by
    have hnone : s.treqs rank name = none := hnone
    rw [State.saved, hnone, elim_none]
  have hset : ∀ (tr : Treq) r n, tr.requests = [s.nextReq] → (s.setTreq rank name tr).saved r n
        = if r = rank ∧ n = name then s.nextReq :: s.saved rank name else s.saved r n := by
    intro tr r n heq
    simp only [State.saved, State.setTreq] at hsav ⊢
    split
    · rw [hsav]
      exact heq
    · rfl
  split
  · exact h.save rfl (fun r n => hset _ r n rfl) rfl
  · exact h.save rfl (fun r n => hset _ r n rfl) rfl

theorem Accounted.fenceRequest (hroom : ¬ Surplus s (.fenceRequest rank name nprocs flags ops))
    (ht : s.fenceRequestCb rank name nprocs flags ops = some t) : Accounted t := by
  simp only [State.fenceRequestCb] at ht
  split at ht
  · cases ht
    exact h.refuse rfl (fun _ _ => rfl) rfl
  rename_i tr htr
  obtain ⟨hsav, hfd⟩ := requests_of_filed htr
  split at ht
  · cases ht
    exact h.refuse rfl (fun _ _ => rfl) rfl
  rename_i hagr
  push Not at hagr
  have hset : ∀ r n, ({ s with nextReq := s.nextReq + 1 }.setTreq rank name
      (treqAddRequestCopy tr s.nextReq)).saved r n
        = if r = rank ∧ n = name then s.nextReq :: s.saved rank name else s.saved r n := by
    intro r n
    rw [hsav]
    simp only [State.saved, State.setTreq, treqAddRequestCopy]
    split <;> rfl
  by_cases hrank : rank = 0
  · subst hrank
    rw [if_pos rfl] at ht
    obtain ⟨⟨t', o⟩, hadd, ht⟩ := map_eq_some_iff.1 ht
    rcases addFenceOps_saved hadd with ⟨hfull, -⟩ | ⟨rfl, hans, hnext, hs⟩
    · have hfull : (tr.count : ℤ) = tr.nprocs := hfull
      refine absurd ⟨rfl, tr, ?_, hagr.2, hagr.1, hfull.trans hagr.2⟩ hroom
      exact hfd.resolve_right fun hne => hne hfull
    cases ht
    have hs' : ∀ r n, t'.saved r n
        = if r = 0 ∧ n = name then s.nextReq :: s.saved 0 name else s.saved r n := by
      intro r n
      rw [hs, hset]
      split
      · rw [hsav]
        rfl
      · rfl
    exact h.save hans hs' hnext
  · rw [if_neg hrank] at ht
    cases ht
    exact h.save rfl hset rfl

theorem Accounted.relay (ht : s.relayCb m = some t) : Accounted t := by
  simp only [State.relayCb] at ht
  split at ht
  · cases ht
    exact h.frame rfl (fun _ _ => rfl) rfl
  split at ht
  · cases ht
    exact h.frame rfl (fun _ _ => rfl) rfl
  rename_i tr htr
  obtain ⟨hsav, -⟩ := requests_of_filed htr
  have hset : ∀ r n, (s.setTreq 0 m.name tr).saved r n = s.saved r n := by
    intro r n
    simp only [State.saved, State.setTreq] at hsav ⊢
    split
    · rename_i heq
      rw [heq.1, heq.2, hsav]
      rfl
    · rfl
  split at ht
  · cases ht
    exact h.frame rfl hset rfl
  obtain ⟨⟨t', o⟩, hadd, ht⟩ := map_eq_some_iff.1 ht
  have ht' : Accounted t' := by
    rcases addFenceOps_saved hadd with ⟨-, rfl⟩ | ⟨-, hans, hnext, hs⟩
    · exact h.frame rfl hset rfl
    refine h.frame hans (fun r n => ?_) hnext
    rw [hs, hset]
    split
    · rename_i heq
      rw [heq.1, heq.2, hsav]
    · rfl
  cases o with
  | some e =>
    cases ht
    exact ht'.frame rfl (fun _ _ => rfl) rfl
  | none =>
    cases ht
    exact ht'

theorem Accounted.finish (ht : s.finish errnum = some t) : Accounted t := by
  obtain ⟨r, -, ht⟩ := map_eq_some_iff.1 ht
  cases errnum with
  | none =>
    cases ht
    exact h.frame rfl (fun _ _ => rfl) rfl
  | some e =>
    subst ht
    dsimp only
    split <;> exact h.frame rfl (fun _ _ => rfl) rfl

theorem Accounted.step (hl : ¬ Surplus s l) (ht : machine.step l s = some t) :
    Accounted t := by
  cases l with
  | commitRequest rank ops flags =>
    cases ht
    exact h.commitRequest rank flags ops
  | fenceRequest rank name nprocs flags ops => exact h.fenceRequest hl ht
  | relay i =>
    obtain ⟨m, -, ht⟩ := bind_eq_some_iff.1 ht
    have h' : Accounted { s with relays := s.relays.eraseIdx i } :=
      h.frame rfl (fun _ _ => rfl) rfl
    exact h'.relay ht
  | merge =>
    obtain ⟨r, -, rfl⟩ := map_eq_some_iff.1 ht
    exact h.frame rfl (fun _ _ => rfl) rfl
  | finish errnum => exact h.finish ht
  | event rank i =>
    obtain ⟨ev, -, rfl⟩ := map_eq_some_iff.1 ht
    refine Accounted.finalizeTransactionBynames ?_ rank ev.errnum ev.names
    exact h.frame rfl (fun _ _ => rfl) rfl

end

end Step

/-- **At most one response:** in every run without surplus fence requests on rank 0, no
request is answered twice. -/
theorem answered_at_most_once {s : State}
    (hs : machine.Reach (fun s l => ¬ Surplus s l) (fun s => s = {}) s) :
    (s.answers.map Prod.fst).Nodup := by
  have h : Accounted s :=
    hs.invariant Accounted (fun _ => .init) fun _ _ _ _ h hl ht => h.step hl ht
  exact h.once

/-- A fence of two processes on rank 0 and a commit, answered when their events arrive. -/
theorem answered_at_most_once_fence :
    ∃ s, machine.Reach (fun s l => ¬ Surplus s l) (fun s => s = {}) s ∧
      s.answers = [(2, none), (0, none), (1, none)] ∧ (s.answers.map Prod.fst).Nodup := by
  have h0 : machine.Reach (fun s l => ¬ Surplus s l) (fun s => s = {}) {} := .start rfl
  have h1 := h0.step (Label.fenceRequest 0 "f" 2 0 []) (by simp [Surplus]) rfl
  have h2 := h1.step (Label.fenceRequest 0 "f" 2 0 [])
    (by simp [Surplus, State.setTreq, treqAddRequestCopy]) rfl
  have h3 := h2.step (Label.commitRequest 0 [] 0) (fun h => h) rfl
  have h4 := h3.step (Label.finish none) (fun h => h) rfl
  have h5 := h4.step (Label.finish none) (fun h => h) rfl
  have h6 := h5.step (Label.event 0 0) (fun h => h) rfl
  have h7 := h6.step (Label.event 0 0) (fun h => h) rfl
  exact ⟨_, h7, rfl, answered_at_most_once h7⟩

/-- A second process enters a fence of one on rank 0: it is told that the fence is full, and
when the fence is committed it is answered again, with success. -/
theorem surplus_fence_answered_twice : ∃ s, machine.Reach (fun _ _ => True) (fun s => s = {}) s ∧
      s.answers = [(0, none), (1, none), (1, some .EOVERFLOW)] := by
  have hrun : (machine.run [.fenceRequest 0 "f" 1 0 [], .fenceRequest 0 "f" 1 0 [],
      .finish none, .event 0 0] {}).map (fun s => s.answers)
        = some [(0, none), (1, none), (1, some .EOVERFLOW)] := by decide
  obtain ⟨s, hs, heq⟩ := map_eq_some_iff.1 hrun
  exact ⟨s, .of_run (.start rfl) hs, heq⟩

end FluxCore.Kvs.Instance
