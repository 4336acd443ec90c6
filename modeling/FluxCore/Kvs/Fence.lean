import FluxCore.Kvs.Treq
import Mathlib.Data.List.Induction

/-!
# Fences on the Leader

Rank 0 counts the requests of a fence, those it receives itself and those that are relayed
to it, and queues one transaction with the operations of all of them. This file says what
has to be counted in terms of the requests alone: `lifetime` is the list of the requests
for a name since it was last finalized, `accepted` those of them that count. The machine
`leader` is rank 0 receiving fence requests in any order; the rest of the module changes
the records of fences only by finalizing names, which may happen at any time. Its records
and its queue are what the requests say (`fence_atomic`).
-/

namespace FluxCore.Kvs.Instance

open List Option

/-! ### Fence requests -/

/-- The payload of a `kvs.fence` or `kvs.relayfence` request. -/
structure FenceRequest where
  name : String
  nprocs : ℤ
  flags : ℕ
  ops : List (Option (Op Empty))

/-- What rank 0 sees of its fences. A relayed request comes with its number. -/
inductive Arrival
  | fence (r : FenceRequest)
  | relayfence (r : FenceRequest) (req : ℕ)
  | finalize (errnum : Option Errno) (names : List String)

/-- Rank 0 and its fences. -/
def leader : Machine State Arrival where
  step
    | .fence r, s => s.fenceRequestCb 0 r.name r.nprocs r.flags r.ops
    | .relayfence r req, s => s.relayCb ⟨r.name, r.ops, r.flags, some r.nprocs, req⟩
    | .finalize errnum names, s => some (State.finalizeTransactionBynames 0 errnum names s)

/-- The request that arrives. -/
def Arrival.request : Arrival → Option FenceRequest
  | .fence r => some r
  | .relayfence r _ => some r
  | .finalize _ _ => none

/-- The arrival ends the life of the record of a name. -/
def Arrival.ends (name : String) : Arrival → Prop
  | .finalize _ names => name ∈ names
  | _ => False

instance (name : String) (a : Arrival) : Decidable (a.ends name) := by
  cases a <;> unfold Arrival.ends <;> infer_instance

/-! ### What counts -/

/-- The requests for a name since it was last finalized. -/
def lifetime (name : String) (ls : List Arrival) : List FenceRequest :=
  ls.foldl (fun rs a => if a.ends name then []
    else rs ++ a.request.toList.filter (·.name = name)) []

/-- The request that sets the number of processes and the flags of the fence: the first
one with a number of processes that is not refused. -/
def opener (rs : List FenceRequest) : Option FenceRequest := rs.find? (0 < ·.nprocs)

/-- The request agrees with the number of processes and the flags of the fence. -/
def FenceRequest.agrees (r₀ r : FenceRequest) : Bool :=
  r.nprocs = r₀.nprocs ∧ r.flags = r₀.flags

/-- The requests that count: the first `nprocs` of those that agree. -/
def accepted (rs : List FenceRequest) : List FenceRequest :=
  (opener rs).elim [] fun r₀ => (rs.filter r₀.agrees).take r₀.nprocs.toNat

/-- The request `r` is accepted after the requests `rs` of its name. -/
def Accepts (rs : List FenceRequest) (r : FenceRequest) : Prop :=
  accepted (rs ++ [r]) = accepted rs ++ [r]

/-- The request `r` is the last one of `nprocs` accepted requests. -/
def Completes (rs : List FenceRequest) (r : FenceRequest) : Prop :=
  Accepts rs r ∧ ((accepted rs).length : ℤ) + 1 = r.nprocs

theorem lifetime_snoc (name : String) (ls : List Arrival) (a : Arrival) :
    lifetime name (ls ++ [a]) = if a.ends name then []
      else lifetime name ls ++ a.request.toList.filter (·.name = name) := by
  rw [lifetime, foldl_append]
  rfl

theorem lifetime_request (ls : List Arrival) (ha : a.request = some r) : lifetime name (ls ++ [a])
      = if r.name = name then lifetime name ls ++ [r] else lifetime name ls := by
  have hends : ¬ a.ends name := by
    cases a with
    | finalize errnum names => cases ha
    | _ => exact fun h => h
  rw [lifetime_snoc, if_neg hends, ha]
  by_cases hname : r.name = name <;> simp [hname]

theorem accepted_of_unopened (h : opener rs = none) (r : FenceRequest) :
    (0 < r.nprocs → opener (rs ++ [r]) = some r ∧ accepted (rs ++ [r]) = [r]) ∧
      (r.nprocs ≤ 0 → opener (rs ++ [r]) = none) := by
  have hnone : ∀ x ∈ rs, ¬ 0 < x.nprocs := by simpa [opener] using h
  constructor
  · intro hpos
    have hopen : opener (rs ++ [r]) = some r := by
      rw [opener, List.find?_append]
      rw [opener] at h
      simp [h, hpos]
    have hfilt : rs.filter r.agrees = [] := by
      rw [filter_eq_nil_iff]
      intro x hx hagr
      simp only [FenceRequest.agrees, Bool.decide_and, Bool.and_eq_true, decide_eq_true_eq]
        at hagr
      exact hnone x hx (hagr.1 ▸ hpos)
    refine ⟨hopen, ?_⟩
    rw [accepted, hopen, elim_some, filter_append, hfilt, nil_append,
      filter_cons_of_pos (by simp [FenceRequest.agrees]), filter_nil]
    exact take_of_length_le (by simp; omega)
  · intro hle
    rw [opener, List.find?_append]
    rw [opener] at h
    simp [h, not_lt.2 hle]

variable {r₀ : FenceRequest}

theorem accepted_of_opened (h : opener rs = some r₀) (r : FenceRequest) :
    opener (rs ++ [r]) = some r₀ ∧
      accepted (rs ++ [r]) = if r₀.agrees r ∧ ((accepted rs).length : ℤ) < r₀.nprocs
        then accepted rs ++ [r] else accepted rs := by
  have hpos : 0 < r₀.nprocs := by simpa using List.find?_some h
  have hopen : opener (rs ++ [r]) = some r₀ := by
    rw [opener, List.find?_append]
    rw [opener] at h
    rw [h, some_or]
  refine ⟨hopen, ?_⟩
  simp only [accepted, h, hopen, elim_some, filter_append]
  cases hagr : r₀.agrees r with
  | false => simp [hagr]
  | true =>
    rw [filter_cons_of_pos hagr, filter_nil, take_append, length_take]
    split_ifs with hroom
    · have hlt : (rs.filter r₀.agrees).length < r₀.nprocs.toNat := by omega
      rw [take_of_length_le (l := [r]) (by simp; omega)]
    have hfull : r₀.nprocs.toNat - (rs.filter r₀.agrees).length = 0 := by
      simp only [true_and] at hroom
      omega
    rw [hfull, take_zero, append_nil]

theorem accepted_of_opener_eq_none (h : opener rs = none) : accepted rs = [] := by
  rw [accepted, h, elim_none]

theorem accepted_of_not_accepts (h : ¬ Accepts rs r) :
    opener (rs ++ [r]) = opener rs ∧ accepted (rs ++ [r]) = accepted rs := by
  cases hopen : opener rs with
  | none =>
    have hnil := accepted_of_opener_eq_none hopen
    rcases lt_or_ge 0 r.nprocs with hpos | hle
    · refine absurd ?_ h
      rw [Accepts, ((accepted_of_unopened hopen r).1 hpos).2, hnil, nil_append]
    · have hopen' := (accepted_of_unopened hopen r).2 hle
      exact ⟨hopen', (accepted_of_opener_eq_none hopen').trans hnil.symm⟩
  | some r₀ =>
    obtain ⟨hopen', hacc⟩ := accepted_of_opened hopen r
    refine ⟨hopen', ?_⟩
    split at hacc
    · exact absurd hacc h
    · exact hacc

/-- All requests of the fence have been accepted. -/
def Full (rs : List FenceRequest) : Prop :=
  ∃ r₀, opener rs = some r₀ ∧ ((accepted rs).length : ℤ) = r₀.nprocs

theorem Completes.full (h : Completes rs r) : ¬ Full rs ∧ Full (rs ++ [r]) := by
  obtain ⟨hacc, hlast⟩ := h
  have hlen : ((accepted (rs ++ [r])).length : ℤ) = r.nprocs := by
    rw [hacc, length_append, length_singleton]
    push_cast
    exact hlast
  cases hopen : opener rs with
  | none =>
    have hpos : 0 < r.nprocs := by omega
    refine ⟨fun ⟨r₀, hr₀, _⟩ => ?_, r, ((accepted_of_unopened hopen r).1 hpos).1, hlen⟩
    rw [hopen] at hr₀
    cases hr₀
  | some r₀ =>
    obtain ⟨hopen', hif⟩ := accepted_of_opened hopen r
    have hroom : r₀.agrees r ∧ ((accepted rs).length : ℤ) < r₀.nprocs := by
      by_contra hno
      rw [if_neg hno, hacc] at hif
      have := congrArg length hif
      simp at this
    have hn : r.nprocs = r₀.nprocs := by
      have := hroom.1
      simp only [FenceRequest.agrees, decide_eq_true_eq] at this
      exact this.1
    refine ⟨fun ⟨r₁, hr₁, hfull⟩ => ?_, r₀, hopen', hlen.trans hn⟩
    rw [hopen, some.injEq] at hr₁
    subst hr₁
    exact hroom.2.ne hfull

theorem Full.snoc (h : Full rs) (r : FenceRequest) : Full (rs ++ [r]) := by
  obtain ⟨r₀, hopen, hlen⟩ := h
  obtain ⟨hopen', hacc⟩ := accepted_of_opened hopen r
  refine ⟨r₀, hopen', ?_⟩
  rw [hacc, if_neg fun hc => hc.2.ne hlen]
  exact hlen

/-! ### The record of a fence -/

/-- The record `tr` of a fence that was opened by `r₀` has counted the requests `acc`. -/
structure Tallies (r₀ : FenceRequest) (acc : List FenceRequest) (tr : Treq) : Prop where
  pos : 0 < r₀.nprocs
  room : (acc.length : ℤ) ≤ r₀.nprocs
  nprocs : tr.nprocs = r₀.nprocs
  flags : tr.flags = r₀.flags
  count : tr.count = acc.length
  ops : tr.ops = acc.flatMap FenceRequest.ops
  processed : tr.processed = decide ((acc.length : ℤ) = r₀.nprocs)

/-- What is filed for a fence with the requests `rs`. -/
def Records (rs : List FenceRequest) : Option Treq → Prop
  | none => opener rs = none
  | some tr => ∃ r₀, opener rs = some r₀ ∧ Tallies r₀ (accepted rs) tr

/-- The transactions of the queue: the names, operations and flags of each. -/
def State.queued (s : State) : List (List String × List (Option (Op Empty)) × ℕ) :=
  s.ready.map fun kt => (kt.names, kt.ops, kt.flags)

theorem Tallies.new (h : treqCreate r.nprocs r.flags = .ok tr) : Tallies r [] tr := by
  rw [treqCreate] at h
  split at h
  · cases h
  rename_i hpos
  cases h
  push Not at hpos
  exact ⟨hpos, hpos.le, rfl, rfl, rfl, rfl, by simpa using hpos.ne⟩

theorem Tallies.addRequestCopy (h : Tallies r₀ acc tr) (req : ℕ) :
    Tallies r₀ acc (treqAddRequestCopy tr req) :=
  { h with }

/-- The handlers of both kinds of requests count in the same way: a request that comes too
late is refused, another one is added to the record, and the last one queues the
transaction. -/
theorem Tallies.addFenceOps (h : Tallies r₀ acc tr) (hagr : r₀.agrees r) (s : State) (req : ℕ) :
    ((acc.length : ℤ) = r₀.nprocs ∧
      s.addFenceOps tr r.name r.ops req = some (s, some .EOVERFLOW)) ∨
    ((acc.length : ℤ) < r₀.nprocs ∧ ∃ t tr', s.addFenceOps tr r.name r.ops req = some (t, none) ∧
      Tallies r₀ (acc ++ [r]) tr' ∧ t.treqs = (s.setTreq 0 r.name tr').treqs ∧
      t.answers = s.answers ∧ t.events = s.events ∧
      t.queued = s.queued ++ if (acc.length : ℤ) + 1 = r.nprocs
        then [([r.name], (acc ++ [r]).flatMap FenceRequest.ops, r.flags)] else []) := by
  obtain ⟨hn, hf⟩ : r.nprocs = r₀.nprocs ∧ r.flags = r₀.flags := by
    simpa [FenceRequest.agrees] using hagr
  have hcnt : (tr.count : ℤ) = acc.length := congrArg Nat.cast h.count
  rw [State.addFenceOps, treqAddRequestOps, hcnt, h.nprocs]
  by_cases hfull : (acc.length : ℤ) = r₀.nprocs
  · exact .inl ⟨hfull, by rw [if_pos hfull]⟩
  have hlt : (acc.length : ℤ) < r₀.nprocs := lt_of_le_of_ne h.room hfull
  have hops : tr.ops ++ r.ops = (acc ++ [r]).flatMap FenceRequest.ops := by
    rw [h.ops, flatMap_append, flatMap_singleton]
  have hlen : tr.count + 1 = (acc ++ [r]).length := by
    rw [h.count, length_append, length_singleton]
  have hroom : ((acc ++ [r]).length : ℤ) ≤ r₀.nprocs := by
    rw [length_append, length_singleton]
    push_cast
    omega
  refine .inr ⟨hlt, ?_⟩
  rw [if_neg hfull]
  simp only [treqCountReached, hlen, h.processed, decide_eq_true_eq, hfull, decide_false,
    Bool.false_eq_true, if_false]
  have hlast : ((acc ++ [r]).length : ℤ) = r₀.nprocs ↔ (acc.length : ℤ) + 1 = r.nprocs := by
    rw [length_append, length_singleton, hn]
    push_cast
    exact Iff.rfl
  by_cases hall : ((acc ++ [r]).length : ℤ) = r₀.nprocs
  · rw [if_pos hall]
    refine ⟨_, _, rfl, ?_, rfl, rfl, rfl, ?_⟩
    · exact ⟨h.pos, hroom, rfl, h.flags, rfl, hops, (decide_eq_true hall).symm⟩
    · rw [if_pos (hlast.1 hall), hf, ← h.flags, ← hops]
      simp [State.queued, State.addTransaction, State.setTreq, kvstxnMgrAddTransaction,
        kvstxnCreate]
  · rw [if_neg hall]
    refine ⟨_, _, rfl, ?_, rfl, rfl, rfl, ?_⟩
    · exact ⟨h.pos, hroom, rfl, h.flags, rfl, hops, (decide_eq_false hall).symm⟩
    · rw [if_neg (fun hc => hall (hlast.2 hc)), append_nil]
      rfl

theorem Records.map (h : Records rs o) :
    o.map (fun tr => (tr.count, tr.ops)) = (opener rs).map fun _ =>
      ((accepted rs).length, (accepted rs).flatMap FenceRequest.ops) := by
  cases o with
  | none =>
    have h : opener rs = none := h
    rw [h]
    rfl
  | some tr =>
    obtain ⟨r₀, hopen, htly⟩ := h
    rw [hopen, map_some, map_some, htly.count, htly.ops]

/-- The record that a handler works with has counted the accepted requests, and says
whether the next one is accepted. -/
theorem Records.found (h : Records rs o)
    (htr : o.elim (treqCreate r.nprocs r.flags) .ok = .ok tr) :
    ∃ r₀, opener (rs ++ [r]) = some r₀ ∧ Tallies r₀ (accepted rs) tr ∧
      (accepted (rs ++ [r]) = if r₀.agrees r ∧ ((accepted rs).length : ℤ) < r₀.nprocs
        then accepted rs ++ [r] else accepted rs) ∧
      (o = some tr ∨ r₀.agrees r) := by
  cases o with
  | some tr' =>
    cases htr
    obtain ⟨r₀, hopen, htly⟩ := h
    obtain ⟨hopen', hacc⟩ := accepted_of_opened hopen r
    exact ⟨r₀, hopen', htly, hacc, .inl rfl⟩
  | none =>
    have hnew := Tallies.new htr
    obtain ⟨hopen, hacc⟩ := (accepted_of_unopened h r).1 hnew.pos
    have hnil := accepted_of_opener_eq_none h
    have hself : r.agrees r := by simp [FenceRequest.agrees]
    refine ⟨r, hopen, hnil ▸ hnew, ?_, .inr hself⟩
    rw [hacc, hnil, if_pos ⟨hself, by simpa using hnew.pos⟩, nil_append]

theorem Records.refused (h : Records rs o)
    (he : o.elim (treqCreate r.nprocs r.flags) .ok = .error e) :
    o = none ∧ opener (rs ++ [r]) = none := by
  cases o with
  | some tr => cases he
  | none =>
    rw [elim_none, treqCreate] at he
    split at he
    · rename_i hle
      exact ⟨rfl, (accepted_of_unopened h r).2 hle⟩
    · cases he

/-! ### The arrival of a request -/

/-- What the arrival of the request `r` after the requests `rs` for the same name does: the
record is the one of all requests, an error is reported if the request is not accepted, and
a transaction is queued if it is the last one. -/
structure Entered (rs : List FenceRequest) (r : FenceRequest) (s t : State) : Prop where
  record : Records (rs ++ [r]) (t.treqs 0 r.name)
  others : ∀ n, n ≠ r.name → t.treqs 0 n = s.treqs 0 n
  reported : (t.answers ≠ s.answers ∨ t.events ≠ s.events) ↔ ¬ Accepts rs r
  last : Completes rs r → t.queued
    = s.queued ++ [([r.name], (accepted (rs ++ [r])).flatMap FenceRequest.ops, r.flags)]
  other : ¬ Completes rs r → t.queued = s.queued

section Enter

variable {rs : List FenceRequest} {r : FenceRequest} {s t : State}

theorem Entered.rejected (hrec : Records (rs ++ [r]) (t.treqs 0 r.name))
    (hoths : ∀ n, n ≠ r.name → t.treqs 0 n = s.treqs 0 n)
    (hrept : t.answers ≠ s.answers ∨ t.events ≠ s.events)
    (hacc : accepted (rs ++ [r]) = accepted rs ∨ accepted (rs ++ [r]) = [])
    (hqd : t.queued = s.queued) : Entered rs r s t := by
  have hnot : ¬ Accepts rs r := by
    intro h
    rw [Accepts] at h
    rcases hacc with hacc | hacc
    · have := congrArg length (hacc.symm.trans h)
      simp at this
    · simp [hacc] at h
  exact ⟨hrec, hoths, ⟨fun _ => hnot, fun _ => hrept⟩, fun hc => absurd hc.1 hnot,
    fun _ => hqd⟩

theorem broadcast_events_ne (s : State) (ev : Event) : (s.broadcast ev).events ≠ s.events := by
  intro h
  have := congrArg length (congrFun h 0)
  simp [State.broadcast] at this

/-- Both handlers end with counting the request; `s` is the state before the handler, `u`
the state in which it counts, and a refusal is reported by `report`. -/
theorem Entered.count (u : State) (req : ℕ) (report : State → Errno → State)
    (hopen : opener (rs ++ [r]) = some r₀) (htly : Tallies r₀ (accepted rs) tr)
    (hacc : accepted (rs ++ [r]) = if r₀.agrees r ∧ ((accepted rs).length : ℤ) < r₀.nprocs
      then accepted rs ++ [r] else accepted rs) (hagr : r₀.agrees r)
    (hu : u.treqs 0 r.name = some tr) (hoths : ∀ n, n ≠ r.name → u.treqs 0 n = s.treqs 0 n)
    (hans : u.answers = s.answers) (hev : u.events = s.events) (hqd : u.queued = s.queued)
    (htreqs : ∀ e, (report u e).treqs = u.treqs) (hrdy : ∀ e, (report u e).ready = u.ready)
    (hrept : ∀ e, (report u e).answers ≠ s.answers ∨ (report u e).events ≠ s.events) :
    ∃ t o, u.addFenceOps tr r.name r.ops req = some (t, o) ∧
      Entered rs r s (o.elim t (report t)) := by
  rcases htly.addFenceOps hagr u req with ⟨hfull, hadd⟩ |
    ⟨hlt, t, tr', hadd, htly', ht, hta, hte, htq⟩
  · have hsame : accepted (rs ++ [r]) = accepted rs := by
      rw [hacc, if_neg fun h => h.2.ne hfull]
    refine ⟨u, some .EOVERFLOW, hadd, .rejected ?_ ?_ (hrept _) (.inl hsame) ?_⟩
    · rw [elim_some, htreqs, hu]
      exact ⟨r₀, hopen, hsame ▸ htly⟩
    · intro n hn
      rw [elim_some, htreqs, hoths n hn]
    · rw [elim_some, State.queued, hrdy]
      exact hqd
  · have hmore : accepted (rs ++ [r]) = accepted rs ++ [r] := by
      rw [hacc, if_pos ⟨hagr, hlt⟩]
    refine ⟨t, none, hadd, ?_⟩
    rw [elim_none]
    constructor
    case record =>
      rw [ht, State.setTreq]
      simp only [and_self, if_true]
      exact ⟨r₀, hopen, hmore ▸ htly'⟩
    case others =>
      intro n hn
      rw [ht, State.setTreq]
      simp only [hn, and_false, if_false]
      exact hoths n hn
    case reported =>
      refine ⟨fun h => ?_, fun h => absurd hmore h⟩
      rw [hta, hte, hans, hev] at h
      exact absurd rfl (h.resolve_right (absurd rfl))
    case last =>
      intro hc
      rw [htq, if_pos hc.2, hqd, hmore]
    case other =>
      intro hc
      rw [htq, if_neg fun hl => hc ⟨hmore, hl⟩, append_nil, hqd]

theorem Tallies.agrees_iff (h : Tallies r₀ acc tr) :
    r₀.agrees r ↔ ¬ (tr.flags ≠ r.flags ∨ tr.nprocs ≠ r.nprocs) := by
  simp only [FenceRequest.agrees, h.flags, h.nprocs, decide_eq_true_eq, not_or, ne_eq, not_not]
  exact ⟨fun hc => ⟨hc.2.symm, hc.1.symm⟩, fun hc => ⟨hc.2.symm, hc.1.symm⟩⟩

theorem Records.fenceRequest (h : Records rs (s.treqs 0 r.name)) :
    ∃ t, s.fenceRequestCb 0 r.name r.nprocs r.flags r.ops = some t ∧ Entered rs r s t := by
  have hresp : ∀ (u : State) e, (u.respond s.nextReq (some e)).answers ≠ u.answers :=
    fun u e => cons_ne_self _ _
  simp only [State.fenceRequestCb]
  split
  · rename_i e he
    obtain ⟨hnone, hopen⟩ := h.refused he
    refine ⟨_, rfl, .rejected ?_ (fun _ _ => rfl) (.inl (hresp s e)) (.inr ?_) rfl⟩
    · simp only [State.respond, hnone]
      exact hopen
    · exact accepted_of_opener_eq_none hopen
  rename_i tr htr
  obtain ⟨r₀, hopen, htly, hacc, hfd⟩ := h.found htr
  split
  · rename_i hne
    have hdis : ¬ r₀.agrees r := fun hc => htly.agrees_iff.1 hc hne
    have hsame : accepted (rs ++ [r]) = accepted rs := by rw [hacc, if_neg fun hc => hdis hc.1]
    refine ⟨_, rfl, .rejected ?_ (fun _ _ => rfl) (.inl (hresp s _)) (.inl hsame) rfl⟩
    simp only [State.respond, hfd.resolve_right hdis]
    exact ⟨r₀, hopen, hsame ▸ htly⟩
  rename_i heq
  have hagr : r₀.agrees r := htly.agrees_iff.2 heq
  set u := { s with nextReq := s.nextReq + 1 }.setTreq 0 r.name
    (treqAddRequestCopy tr s.nextReq) with hu
  obtain ⟨t, o, hadd, hent⟩ := Entered.count (s := s) u s.nextReq
    (fun u e => u.respond s.nextReq (some e)) hopen (htly.addRequestCopy s.nextReq) hacc
    hagr (by simp [hu, State.setTreq]) (fun n hn => by simp [hu, State.setTreq, hn]) rfl rfl
    rfl (fun _ => rfl) (fun _ => rfl) (fun e => .inl (hresp u e))
  refine ⟨_, by rw [if_true, hadd]; rfl, ?_⟩
  cases o with
  | none | some e => exact hent

theorem Records.relay (h : Records rs (s.treqs 0 r.name)) (req : ℕ) :
    ∃ t, s.relayCb ⟨r.name, r.ops, r.flags, some r.nprocs, req⟩ = some t ∧ Entered rs r s t := by
  simp only [State.relayCb]
  split
  · rename_i e he
    obtain ⟨hnone, hopen⟩ := h.refused he
    refine ⟨_, rfl, .rejected ?_ (fun _ _ => rfl) (.inr (broadcast_events_ne s _)) (.inr ?_) rfl⟩
    · simp only [State.broadcast, hnone]
      exact hopen
    · exact accepted_of_opener_eq_none hopen
  rename_i tr htr
  obtain ⟨r₀, hopen, htly, hacc, hfd⟩ := h.found htr
  set u := s.setTreq 0 r.name tr with hu
  have htreq : u.treqs 0 r.name = some tr := by simp [hu, State.setTreq]
  have hoths : ∀ n, n ≠ r.name → u.treqs 0 n = s.treqs 0 n := by
    intro n hn
    simp [hu, State.setTreq, hn]
  split
  · rename_i hne
    have hdis : ¬ r₀.agrees r := fun hc => htly.agrees_iff.1 hc hne
    have hsame : accepted (rs ++ [r]) = accepted rs := by rw [hacc, if_neg fun hc => hdis hc.1]
    refine ⟨_, rfl, .rejected ?_ hoths (.inr (broadcast_events_ne u _)) (.inl hsame) rfl⟩
    simp only [State.broadcast, htreq]
    exact ⟨r₀, hopen, hsame ▸ htly⟩
  rename_i heq
  have hagr : r₀.agrees r := htly.agrees_iff.2 heq
  obtain ⟨t, o, hadd, hent⟩ := Entered.count u req
    (fun u e => u.broadcast ⟨[r.name], some e⟩) hopen htly hacc hagr htreq hoths rfl rfl
    rfl (fun _ => rfl) (fun _ => rfl) (fun e => .inr (broadcast_events_ne u _))
  refine ⟨_, by rw [hadd]; rfl, ?_⟩
  cases o with
  | none | some e => exact hent

end Enter

/-! ### Runs -/

theorem finalizeTransactionBynames_treqs (errnum : Option Errno) (names : List String) (s : State) :
    (State.finalizeTransactionBynames 0 errnum names s).ready = s.ready ∧
      ∀ n, (State.finalizeTransactionBynames 0 errnum names s).treqs 0 n
        = if n ∈ names then none else s.treqs 0 n := by
  have hrsp : ∀ (l : List ℕ) (s : State),
      (l.foldl (fun s req => s.respond req errnum) s).ready = s.ready ∧
        (l.foldl (fun s req => s.respond req errnum) s).treqs = s.treqs := by
    intro l
    induction l with
    | nil => exact fun s => ⟨rfl, rfl⟩
    | cons q l ih => exact fun s => ih (s.respond q errnum)
  induction names generalizing s with
  | nil => exact ⟨rfl, fun n => by simp [State.finalizeTransactionBynames]⟩
  | cons name names ih =>
    rw [State.finalizeTransactionBynames]
    split
    · rename_i hnone
      refine ⟨(ih s).1, fun n => ?_⟩
      rw [(ih s).2]
      grind
    rename_i tr hsome
    obtain ⟨hrdy, htreqs⟩ := hrsp tr.requests s
    obtain ⟨hr, ht⟩ := ih ((tr.requests.foldl (fun s req => s.respond req errnum) s).removeTreq
      0 name)
    refine ⟨hr.trans hrdy, fun n => ?_⟩
    rw [ht]
    simp only [State.removeTreq, htreqs]
    grind

/-- The records of all names are those of the arrivals `ls`. -/
def Tallied (ls : List Arrival) (s : State) : Prop :=
  ∀ name, Records (lifetime name ls) (s.treqs 0 name)

theorem Entered.tallied (h : Tallied ls s) (ha : a.request = some r)
    (hent : Entered (lifetime r.name ls) r s t) : Tallied (ls ++ [a]) t := by
  intro name
  rw [lifetime_request ls ha]
  by_cases hname : r.name = name
  · subst hname
    rw [if_pos rfl]
    exact hent.record
  · rw [if_neg hname, hent.others name (Ne.symm hname)]
    exact h name

theorem Tallied.request (h : Tallied ls s) (ha : a.request = some r) :
    ∃ t, leader.step a s = some t ∧ Tallied (ls ++ [a]) t ∧
      Entered (lifetime r.name ls) r s t := by
  cases a with
  | fence r' =>
    cases ha
    obtain ⟨t, ht, hent⟩ := (h r.name).fenceRequest
    exact ⟨t, ht, hent.tallied h rfl, hent⟩
  | relayfence r' req =>
    cases ha
    obtain ⟨t, ht, hent⟩ := (h r.name).relay req
    exact ⟨t, ht, hent.tallied h rfl, hent⟩
  | finalize errnum names => cases ha

theorem Tallied.finalize (h : Tallied ls s) (ha : a.request = none) :
    ∃ t, leader.step a s = some t ∧ Tallied (ls ++ [a]) t ∧ t.queued = s.queued := by
  cases a with
  | fence r | relayfence r req => cases ha
  | finalize errnum names =>
    obtain ⟨hrdy, htreqs⟩ := finalizeTransactionBynames_treqs errnum names s
    refine ⟨_, rfl, fun name => ?_, congrArg (List.map _) hrdy⟩
    rw [htreqs, lifetime_snoc]
    by_cases hmem : name ∈ names
    · rw [if_pos hmem, if_pos (show Arrival.ends name (.finalize errnum names) from hmem)]
      exact rfl
    · rw [if_neg hmem, if_neg (show ¬ Arrival.ends name (.finalize errnum names) from hmem)]
      simpa [Arrival.request] using h name

theorem Tallied.run (ls : List Arrival) : ∃ s, leader.run ls {} = some s ∧ Tallied ls s := by
  induction ls using reverseRec with
  | nil => exact ⟨{}, rfl, fun _ => rfl⟩
  | append_singleton ls a ih =>
    obtain ⟨s, hs, h⟩ := ih
    have hnext : ∃ t, leader.step a s = some t ∧ Tallied (ls ++ [a]) t := by
      cases ha : a.request with
      | none =>
        obtain ⟨t, ht, h', -⟩ := h.finalize ha
        exact ⟨t, ht, h'⟩
      | some r =>
        obtain ⟨t, ht, h', -⟩ := h.request ha
        exact ⟨t, ht, h'⟩
    obtain ⟨t, ht, h'⟩ := hnext
    refine ⟨t, ?_, h'⟩
    rw [leader.run_append, hs, bind_some, Machine.run, ht]
    rfl

/-- The number of queued transactions of a name. -/
def State.rounds (s : State) (name : String) : ℕ := s.queued.countP (·.1 = [name])

open Classical in
/-- As long as the record of a name lives, at most one transaction of this name is queued,
and none if the fence is full already. -/
theorem Tallied.rounds_le (h : Tallied ls s) (hpost : ∀ a ∈ post, ¬ a.ends name)
    (ht : leader.run post s = some t) :
    t.rounds name ≤ s.rounds name + if Full (lifetime name ls) then 0 else 1 := by
  induction post generalizing ls s with
  | nil =>
    cases ht
    exact Nat.le_add_right _ _
  | cons a post ih =>
    obtain ⟨u, hu, ht⟩ := bind_eq_some_iff.1 ht
    have hrest : ∀ a ∈ post, ¬ a.ends name := fun b hb => hpost b (mem_cons_of_mem a hb)
    have key : ∀ h' : Tallied (ls ++ [a]) u, (u.rounds name = s.rounds name ∧
          (Full (lifetime name ls) → Full (lifetime name (ls ++ [a])))) ∨
        (u.rounds name = s.rounds name + 1 ∧ ¬ Full (lifetime name ls) ∧
          Full (lifetime name (ls ++ [a]))) →
        t.rounds name ≤ s.rounds name + if Full (lifetime name ls) then 0 else 1 := by
      intro h' hcase
      have := ih h' hrest ht
      rcases hcase with ⟨heq, hfull⟩ | ⟨heq, hnot, hfull⟩
      · rw [heq] at this
        by_cases hold : Full (lifetime name ls)
        · rw [if_pos (hfull hold)] at this
          rwa [if_pos hold]
        · rw [if_neg hold]
          split_ifs at this <;> omega
      · rw [if_neg hnot]
        rw [if_pos hfull] at this
        omega
    cases ha : a.request with
    | none =>
      obtain ⟨u', hu', h', hq⟩ := h.finalize ha
      cases hu.symm.trans hu'
      refine key h' (.inl ⟨congrArg (countP _) hq, fun hfull => ?_⟩)
      rw [lifetime_snoc, if_neg (hpost a mem_cons_self), ha]
      simpa using hfull
    | some r =>
      obtain ⟨u', hu', h', hent⟩ := h.request ha
      cases hu.symm.trans hu'
      rw [lifetime_request ls ha] at key
      by_cases hname : r.name = name
      · subst hname
        rw [if_pos rfl] at key
        by_cases hc : Completes (lifetime r.name ls) r
        · refine key h' (.inr ⟨?_, hc.full⟩)
          rw [State.rounds, hent.last hc, countP_append]
          simp [State.rounds]
        · refine key h' (.inl ⟨?_, fun hfull => hfull.snoc r⟩)
          rw [State.rounds, hent.other hc, State.rounds]
      · rw [if_neg hname] at key
        refine key h' (.inl ⟨?_, id⟩)
        by_cases hc : Completes (lifetime r.name ls) r
        · rw [State.rounds, hent.last hc, countP_append]
          simp [State.rounds, hname]
        · rw [State.rounds, hent.other hc, State.rounds]

/-- **Fences are atomic.** Whatever arrives on rank 0, and in whatever order:
* a request is reported as refused exactly if it is not among the first `nprocs` requests
  that agree with the one that has opened the fence, and then it changes neither the count
  nor the operations of the record;
* the arrival of the last one of these requests queues a transaction with the operations of
  all of them, in the order in which they were accepted, and no other arrival queues one;
* at most one transaction of a name is queued until the name is finalized. -/
theorem fence_atomic (ls : List Arrival) : ∃ s, leader.run ls {} = some s ∧
      (∀ a r, a.request = some r → ∃ t, leader.step a s = some t ∧
        ((t.answers ≠ s.answers ∨ t.events ≠ s.events) ↔ ¬ Accepts (lifetime r.name ls) r) ∧
        (¬ Accepts (lifetime r.name ls) r → (t.treqs 0 r.name).map (fun tr => (tr.count, tr.ops))
            = (s.treqs 0 r.name).map fun tr => (tr.count, tr.ops)) ∧
        (Completes (lifetime r.name ls) r → t.queued = s.queued ++
          [([r.name], (accepted (lifetime r.name ls ++ [r])).flatMap FenceRequest.ops, r.flags)]) ∧
        (¬ Completes (lifetime r.name ls) r → t.queued = s.queued)) ∧
      (∀ a, a.request = none → ∃ t, leader.step a s = some t ∧ t.queued = s.queued) ∧
      ∀ name post t, (∀ a ∈ post, ¬ a.ends name) → leader.run post s = some t →
        t.rounds name ≤ s.rounds name + 1 := by
  obtain ⟨s, hs, h⟩ := Tallied.run ls
  refine ⟨s, hs, fun a r ha => ?_, fun a ha => ?_, fun name post t hpost ht => ?_⟩
  · obtain ⟨t, ht, -, hent⟩ := h.request ha
    refine ⟨t, ht, hent.reported, fun hno => ?_, hent.last, hent.other⟩
    obtain ⟨hopen, hacc⟩ := accepted_of_not_accepts hno
    rw [hent.record.map, (h r.name).map, hopen, hacc]
  · obtain ⟨t, ht, -, hq⟩ := h.finalize ha
    exact ⟨t, ht, hq⟩
  · refine (h.rounds_le hpost ht).trans (Nat.add_le_add_left ?_ _)
    split_ifs <;> omega

/-- A fence of two processes on rank 0 and elsewhere, a request with other flags, and a
third process. -/
example : (leader.run [.fence ⟨"f", 2, 0, [none]⟩, .fence ⟨"f", 2, 1, [none, none, none]⟩,
    .relayfence ⟨"f", 2, 0, [none, none]⟩ 7, .fence ⟨"f", 2, 0, [none]⟩] {}).map
      (fun s => (s.queued.map fun kt => (kt.1, kt.2.1.length), s.answers))
    = some ([(["f"], 3)], [(2, some .EOVERFLOW), (1, some .EINVAL)]) := rfl

end FluxCore.Kvs.Instance
