import FluxCore.Kvs.Treq
import Mathlib.Data.List.Perm.Basic

/-!
# The Life of a Name

Answers are matched with transactions by name only. The first part of this file says when
names cannot be confused: a request is `Separate` if its name is not in use on any rank, in
any message or in the ready queue, or if it joins the round of a fence that is still open
for it. `Ordered` and `Agrees` then describe the life of a name: a fence gathers its
requests, the transaction is queued with all of them, and an event is sent that every rank
uses to answer exactly these requests. The rest of the file shows that filing a request,
its arrival on rank 0, the end of a transaction and the arrival of an event keep names in
order.
-/

namespace FluxCore.Kvs.Instance

open List Option

/-! ### Separate requests -/

/-- The part of the state in which names live: what the ranks have filed, the relayed
requests on their way, the ready queue as a list of requests, and the events on their
way. -/
structure Net where
  treqs : ℕ → String → Option Treq
  relays : List Relay
  queue : List (Kvstxn.Content Empty)
  events : ℕ → List Event

/-- The names of a state. -/
def State.net (s : State) : Net := ⟨s.treqs, s.relays, entries s.ready, s.events⟩

/-- No transaction of this name is queued, and no event about it is on its way. -/
structure Quiet (w : Net) (name : String) : Prop where
  queue : ∀ e ∈ w.queue, name ∉ e.names
  event : ∀ r, ∀ ev ∈ w.events r, name ∉ ev.names

/-- The number of relayed requests of this name that are on their way. -/
def inflight (w : Net) (name : String) : ℕ := w.relays.countP fun m => m.name = name

/-- The number of requests of this name that rank 0 has counted. -/
def counted (w : Net) (name : String) : ℕ := (w.treqs 0 name).elim 0 Treq.count

/-- The name is not in use anywhere. -/
structure Fresh (w : Net) (name : String) : Prop where
  quiet : Quiet w name
  relays : ∀ m ∈ w.relays, m.name ≠ name
  treqs : ∀ r, w.treqs r name = none

/-- All requests of this name belong to a fence that has not been queued yet, and agree on
the number of processes and the flags. -/
structure Agreed (w : Net) (name : String) (nprocs : ℤ) (flags : ℕ) : Prop where
  quiet : Quiet w name
  relays : ∀ m ∈ w.relays, m.name = name → m.nprocs = some nprocs ∧ m.flags = flags
  treqs : ∀ r tr, w.treqs r name = some tr →
    tr.nprocs = nprocs ∧ tr.flags = flags ∧ tr.processed = false

/-- The condition on requests: the name of a commit is fresh, and a fence joins a round in
which there are fewer requests than processes; or else the request is refused by the rank
that receives it. -/
def Separate (s : State) : Label → Prop
  | .commitRequest rank _ _ =>
    (s.treqs rank (treqRankName rank (s.seq rank))).isSome ∨
      Fresh s.net (treqRankName rank (s.seq rank))
  | .fenceRequest rank name nprocs flags _ =>
    (∃ tr, s.treqs rank name = some tr ∧ (tr.flags ≠ flags ∨ tr.nprocs ≠ nprocs)) ∨
      (s.treqs rank name = none ∧ nprocs ≤ 0) ∨ Agreed s.net name nprocs flags ∧
        (counted s.net name + inflight s.net name : ℤ) < nprocs
  | _ => True

/-- The initial state of an instance. -/
def State.Init (s : State) : Prop := s = {}

/-! ### The invariant -/

/-- The operations of request `q` are on their way to a commit under `name`. -/
def At (w : Net) (q : ℕ) (name : String) : Prop :=
  (∃ m ∈ w.relays, m.name = name ∧ m.req = q) ∨
  (∃ tr, w.treqs 0 name = some tr ∧ tr.processed = false ∧ q ∈ tr.members) ∨
  (∃ e ∈ w.queue, name ∈ e.names ∧ q ∈ e.members)

/-- A fence is gathering its requests. Every request that a rank has filed under the name
is on its way to rank 0 or has arrived there. -/
structure Gathering (w : Net) (name : String) (nprocs : ℤ) (flags : ℕ) : Prop
    extends Agreed w name nprocs flags where
  room : (counted w name + inflight w name : ℤ) ≤ nprocs
  covered : ∀ r tr q, w.treqs r name = some tr → q ∈ tr.requests → At w q name

/-- A commit is on its way to rank 0, and its request is the only one of the name. -/
structure Committing (w : Net) (m : Relay) : Prop where
  quiet : Quiet w m.name
  once : inflight w m.name = 1
  treqs : w.treqs 0 m.name = none
  covered : ∀ r tr q, w.treqs r m.name = some tr → q ∈ tr.requests → q = m.req

/-- **The names are in order:** every name is gathering, committing, queued or announced,
and the requests filed under it are those that its transaction holds. -/
structure Ordered (w : Net) : Prop where
  single : ∀ e ∈ w.queue, ∃ name, e.names = [name]
  nodup : (w.queue.flatMap (·.names)).Nodup
  one_name : ∀ q name name', At w q name → At w q name' → name = name'
  queued : ∀ e ∈ w.queue, ∀ name ∈ e.names, ∀ r tr q, w.treqs r name = some tr →
    q ∈ tr.requests → q ∈ e.members
  relay_commit : ∀ m ∈ w.relays, m.nprocs = none → Committing w m
  relay_fence : ∀ m ∈ w.relays, ∀ nprocs, m.nprocs = some nprocs →
    Gathering w m.name nprocs m.flags
  treq_fence : ∀ name tr, w.treqs 0 name = some tr → tr.processed = false →
    Gathering w name tr.nprocs tr.flags
  accounted : ∀ r name tr, w.treqs r name = some tr → (∃ m ∈ w.relays, m.name = name) ∨
      (∃ tr, w.treqs 0 name = some tr ∧ tr.processed = false) ∨
      (∃ e ∈ w.queue, name ∈ e.names) ∨ ∃ ev ∈ w.events r, name ∈ ev.names

/-- **Answers agree with effects:** what has been answered, and what the events on their
way will answer. `bound` is the number of the next request. -/
structure Agrees (w : Net) (bound : ℕ) (answers : List (ℕ × Option Errno))
    (committed : List ℕ) : Prop where
  live_lt : ∀ q name, At w q name → q < bound
  committed_lt : ∀ q ∈ committed, q < bound
  answered_lt : ∀ a ∈ answers, a.1 < bound
  filed_lt : ∀ r name tr q, w.treqs r name = some tr → q ∈ tr.requests → q < bound
  live_not_committed : ∀ q name, At w q name → q ∉ committed
  success : ∀ q, (q, none) ∈ answers → q ∈ committed
  failure : ∀ q e, (q, some e) ∈ answers → q ∉ committed ∧ ∀ name, ¬ At w q name
  event_success : ∀ r, ∀ ev ∈ w.events r, ev.errnum = none → ∀ name ∈ ev.names, ∀ tr q,
    w.treqs r name = some tr → q ∈ tr.requests → q ∈ committed
  event_failure : ∀ r, ∀ ev ∈ w.events r, ev.errnum ≠ none → ∀ name ∈ ev.names, ∀ tr q,
    w.treqs r name = some tr → q ∈ tr.requests → q ∉ committed ∧ ∀ name, ¬ At w q name

/-- What the answer `e` says about request `q` is right. -/
def Told (w : Net) (committed : List ℕ) (q : ℕ) (e : Option Errno) : Prop :=
  (e = none → q ∈ committed) ∧ (e ≠ none → q ∉ committed ∧ ∀ name, ¬ At w q name)

section Step

variable {w' : Net}

theorem Agrees.told_answer (h : Agrees w bound answers committed) (hq : (q, e) ∈ answers) :
    q < bound ∧ Told w committed q e := by
  refine ⟨h.answered_lt _ hq, fun he => h.success q (he ▸ hq), fun he => ?_⟩
  obtain ⟨e, rfl⟩ := ne_none_iff_exists'.1 he
  exact h.failure q e hq

theorem Agrees.told_event (h : Agrees w bound answers committed) (he : ev ∈ w.events r)
    (hn : n ∈ ev.names) (ht : w.treqs r n = some t) (hq : q ∈ t.requests) :
    q < bound ∧ Told w committed q ev.errnum :=
  ⟨h.filed_lt r n t q ht hq, fun hnone => h.event_success r ev he hnone n hn t q ht hq,
    fun hsome => h.event_failure r ev he hsome n hn t q ht hq⟩

/-- Answers keep agreeing if a step commits only requests that were on their way and are not
any more, and if what it adds to the answers and the events is right. -/
theorem Agrees.step (h : Agrees w bound answers committed) (hle : bound ≤ bound')
    (hat : ∀ q n, At w' q n → At w q n ∨ bound ≤ q ∧ q < bound')
    (hcom : committed ⊆ committed')
    (hdone : ∀ q ∈ committed', q ∈ committed ∨ (∃ n, At w q n) ∧ ∀ n, ¬ At w' q n)
    (hfd : ∀ r n t q, w'.treqs r n = some t → q ∈ t.requests →
      w.treqs r n = some t ∨ q < bound')
    (hans : ∀ q e, (q, e) ∈ answers' → q < bound ∧ Told w committed q e ∨
      q < bound' ∧ Told w' committed' q e)
    (hevent : ∀ r, ∀ ev ∈ w'.events r, ∀ n ∈ ev.names, ∀ t q, w'.treqs r n = some t →
      q ∈ t.requests → q < bound ∧ Told w committed q ev.errnum ∨
        Told w' committed' q ev.errnum) :
    Agrees w' bound' answers' committed' := by
  have htold {q : ℕ} {e : Option Errno} (ht : q < bound ∧ Told w committed q e) :
      Told w' committed' q e := by
    refine ⟨fun he => hcom (ht.2.1 he), fun he => ?_⟩
    obtain ⟨hnot, hno⟩ := ht.2.2 he
    refine ⟨fun hq => ?_, fun n hq => ?_⟩
    · rcases hdone q hq with hq | ⟨⟨n, hn⟩, -⟩
      · exact hnot hq
      · exact hno n hn
    · rcases hat q n hq with hq | hq
      · exact hno n hq
      · omega
  have hanswer (q : ℕ) (e : Option Errno) (hq : (q, e) ∈ answers') :
      q < bound' ∧ Told w' committed' q e := by
    rcases hans q e hq with hold | hnew
    · exact ⟨hold.1.trans_le hle, htold hold⟩
    · exact hnew
  have htells (r : ℕ) (ev : Event) (he : ev ∈ w'.events r) (n : String) (hn : n ∈ ev.names)
      (t : Treq) (q : ℕ) (ht : w'.treqs r n = some t) (hq : q ∈ t.requests) :=
    (hevent r ev he n hn t q ht hq).elim htold id
  constructor
  case live_lt =>
    intro q n hq
    rcases hat q n hq with hq | hq
    · exact (h.live_lt q n hq).trans_le hle
    · exact hq.2
  case committed_lt =>
    intro q hq
    rcases hdone q hq with hq | ⟨⟨n, hn⟩, -⟩
    · exact (h.committed_lt q hq).trans_le hle
    · exact (h.live_lt q n hn).trans_le hle
  case answered_lt => exact fun a ha => (hanswer a.1 a.2 ha).1
  case filed_lt =>
    intro r n t q ht hq
    rcases hfd r n t q ht hq with ht | hlt
    · exact (h.filed_lt r n t q ht hq).trans_le hle
    · exact hlt
  case live_not_committed =>
    intro q n hq hmem
    rcases hdone q hmem with hmem | hno
    · rcases hat q n hq with hq | hq
      · exact h.live_not_committed q n hq hmem
      · have := h.committed_lt q hmem
        omega
    · exact hno.2 n hq
  case success => exact fun q hq => (hanswer q none hq).2.1 rfl
  case failure => exact fun q e hq => (hanswer q (some e) hq).2.2 (some_ne_none e)
  case event_success =>
    exact fun r ev he hnone n hn t q ht hq => (htells r ev he n hn t q ht hq).1 hnone
  case event_failure =>
    exact fun r ev he hsome n hn t q ht hq => (htells r ev he n hn t q ht hq).2 hsome

end Step

/-! ### Requests on their way to the queue

The steps from a request to the ready queue change what is filed under one name on one
rank, the relayed requests of that name, and at most append a transaction of that name to
the queue. -/

/-- The names after such a step. -/
def Net.put (w : Net) (rank : ℕ) (name : String) (tr : Option Treq) (relays : List Relay)
    (queue : List (Kvstxn.Content Empty)) : Net where
  treqs := fun r n => if r = rank ∧ n = name then tr else w.treqs r n
  relays := relays
  queue := queue
  events := w.events

section Put

variable {w w' : Net} {relays : List Relay} {queue : List (Kvstxn.Content Empty)}

@[simp, grind =] theorem Net.put_treqs (r : ℕ) (n : String) :
    (w.put rank name tr relays queue).treqs r n
      = if r = rank ∧ n = name then tr else w.treqs r n := rfl

@[simp, grind =] theorem Net.put_relays : (w.put rank name tr relays queue).relays = relays := rfl

@[simp, grind =] theorem Net.put_queue : (w.put rank name tr relays queue).queue = queue := rfl

@[simp, grind =] theorem Net.put_events :
    (w.put rank name tr relays queue).events = w.events := rfl

/-- The step concerns only this name. -/
structure Concerns (w : Net) (name : String) (relays : List Relay)
    (queue : List (Kvstxn.Content Empty)) : Prop where
  mem_relays : ∀ m : Relay, m.name ≠ name → (m ∈ relays ↔ m ∈ w.relays)
  count : ∀ n, n ≠ name → relays.countP (fun m => m.name = n) = inflight w n
  append : queue = w.queue ∨ ∃ ops members, queue = w.queue ++ [⟨[name], ops, members⟩]

section

variable (hc : Concerns w name relays queue) (hn : n ≠ name)
include hc hn

theorem Concerns.mem_queue (he : n ∈ e.names) : e ∈ queue ↔ e ∈ w.queue := by
  have := hc.append
  grind

theorem Concerns.quiet (h : Quiet w n) :
    Quiet (w.put rank name tr relays queue) n := by
  refine ⟨fun e he hmem => ?_, h.event⟩
  exact h.queue e ((hc.mem_queue hn hmem).1 he) hmem

theorem Concerns.at_iff (q : ℕ) :
    At (w.put rank name tr relays queue) q n ↔ At w q n := by
  have hr := hc.mem_relays
  have hq := fun e => hc.mem_queue (e := e) hn
  grind [At]

theorem Concerns.gathering (h : Gathering w n nprocs flags) :
    Gathering (w.put rank name tr relays queue) n nprocs flags := by
  refine ⟨⟨hc.quiet hn h.quiet, ?_, ?_⟩, ?_, ?_⟩
  · intro m hm hmn
    exact h.relays m ((hc.mem_relays m (hmn ▸ hn)).1 hm) hmn
  · intro r t ht
    exact h.treqs r t (by simpa [hn] using ht)
  · have hroom := h.room
    rw [← hc.count n hn] at hroom
    simpa [counted, inflight, hn] using hroom
  · intro r t q ht hq
    exact (hc.at_iff hn q).2 (h.covered r t q (by simpa [hn] using ht) hq)

end

theorem Concerns.committing (hc : Concerns w name relays queue) (hn : m.name ≠ name)
    (h : Committing w m) : Committing (w.put rank name tr relays queue) m := by
  refine ⟨hc.quiet hn h.quiet, ?_, ?_, ?_⟩
  · exact (hc.count m.name hn).trans h.once
  · simpa [hn] using h.treqs
  · intro r t q ht hq
    exact h.covered r t q (by simpa [hn] using ht) hq

theorem Ordered.put (hw : w' = w.put rank name tr relays queue) (h : Ordered w)
    (hc : Concerns w name relays queue) (hqt : Quiet w name)
    (hat : ∀ q, At w' q name → At w q name ∨ ∀ n, ¬ At w q n)
    (hcommit : ∀ m ∈ relays, m.name = name → m.nprocs = none → Committing w' m)
    (hfence : ∀ m ∈ relays, m.name = name → ∀ nprocs, m.nprocs = some nprocs →
      Gathering w' name nprocs m.flags)
    (htreq : ∀ t, w'.treqs 0 name = some t → t.processed = false →
      Gathering w' name t.nprocs t.flags)
    (hqd : ∀ e ∈ queue, name ∈ e.names → ∀ r t q, w'.treqs r name = some t →
      q ∈ t.requests → q ∈ e.members)
    (hacct : ∀ r t, w'.treqs r name = some t → (∃ m ∈ relays, m.name = name) ∨
      (∃ t, w'.treqs 0 name = some t ∧ t.processed = false) ∨ ∃ e ∈ queue, name ∈ e.names) :
    Ordered w' := by
  have hoth (q : ℕ) (n : String) (hn : n ≠ name) : At w' q n ↔ At w q n := by
    rw [hw, hc.at_iff hn]
  subst hw
  constructor
  case single =>
    intro e he
    rcases hc.append with rfl | ⟨ops, members, rfl⟩
    · exact h.single e he
    rcases mem_append.1 he with he | he
    · exact h.single e he
    · rw [mem_singleton.1 he]
      exact ⟨name, rfl⟩
  case nodup =>
    rcases hc.append with rfl | ⟨ops, members, rfl⟩
    · exact h.nodup
    simp only [Net.put_queue, flatMap_append, flatMap_singleton]
    refine nodup_append.2 ⟨h.nodup, by simp, ?_⟩
    rintro n hn n' hn' rfl
    obtain ⟨e, he, hmem⟩ := mem_flatMap.1 hn
    rw [mem_singleton.1 hn'] at hmem
    exact hqt.queue e he hmem
  case one_name =>
    have hmix (q : ℕ) (n : String) (h1 : At w q n) (h2 : At w q name ∨ ∀ n, ¬ At w q n) :
        n = name := by
      rcases h2 with h2 | h2
      · exact h.one_name q n name h1 h2
      · exact absurd h1 (h2 n)
    intro q n n' hn hn'
    by_cases h1 : n = name <;> by_cases h2 : n' = name
    · exact h1.trans h2.symm
    · exact h1.trans (hmix q n' ((hoth q n' h2).1 hn') (hat q (h1 ▸ hn))).symm
    · exact (hmix q n ((hoth q n h1).1 hn) (hat q (h2 ▸ hn'))).trans h2.symm
    · exact h.one_name q n n' ((hoth q n h1).1 hn) ((hoth q n' h2).1 hn')
  case queued =>
    intro e he n hn r t q ht hq
    by_cases hname : n = name
    · subst hname
      exact hqd e he hn r t q ht hq
    · exact h.queued e ((hc.mem_queue hname hn).1 he) n hn r t q (by simpa [hname] using ht) hq
  case relay_commit =>
    intro m hm hnone
    by_cases hname : m.name = name
    · exact hcommit m hm hname hnone
    · exact hc.committing hname (h.relay_commit m ((hc.mem_relays m hname).1 hm) hnone)
  case relay_fence =>
    intro m hm nprocs hsome
    by_cases hname : m.name = name
    · rw [hname]
      exact hfence m hm hname nprocs hsome
    · exact hc.gathering hname (h.relay_fence m ((hc.mem_relays m hname).1 hm) nprocs hsome)
  case treq_fence =>
    intro n t ht hp
    by_cases hname : n = name
    · subst hname
      exact htreq t ht hp
    · exact hc.gathering hname (h.treq_fence n t (by simpa [hname] using ht) hp)
  case accounted =>
    intro r n t ht
    by_cases hname : n = name
    · subst hname
      rcases hacct r t ht with ha | ha | ha
      · exact .inl ha
      · exact .inr (.inl ha)
      · exact .inr (.inr (.inl ha))
    · have hacc := h.accounted r n t (by simpa [hname] using ht)
      have hr := hc.mem_relays
      have hq := fun e => hc.mem_queue (e := e) hname
      grind

/-- Answers keep agreeing if no operations are on their way that were not before, but for
those of new requests. -/
theorem Agrees.put (hw : w' = w.put rank name tr relays queue)
    (h : Agrees w bound answers committed) (hc : Concerns w name relays queue)
    (hqt : Quiet w name) (hle : bound ≤ bound')
    (hat : ∀ q, At w' q name → At w q name ∨ bound ≤ q ∧ q < bound')
    (hfd : ∀ t ∈ tr, ∀ q ∈ t.requests, q < bound') : Agrees w' bound' answers committed := by
  subst hw
  refine h.step hle ?_ (fun _ hq => hq) (fun _ => .inl) ?_ (fun _ _ hq => .inl (h.told_answer hq)) ?_
  · intro q n hq
    by_cases hn : n = name
    · subst hn
      exact hat q hq
    · exact .inl ((hc.at_iff hn q).1 hq)
  · intro r n t q ht hq
    rw [Net.put_treqs] at ht
    split at ht
    · exact .inr (hfd t ht q hq)
    · exact .inl ht
  · intro r ev he n hn t q ht hq
    have hne : n ≠ name := by
      rintro rfl
      exact hqt.event r ev he hn
    exact .inl (h.told_event he hn (by simpa [hne] using ht) hq)

/-- The names are in order, and the answers agree with them. -/
structure Sound (w : Net) (bound : ℕ) (answers : List (ℕ × Option Errno)) (committed : List ℕ) :
    Prop where
  ordered : Ordered w
  agrees : Agrees w bound answers committed

theorem Sound.fresh_or (h : Sound w bound answers committed)
    (hat : At w q name ∨ bound ≤ q ∧ q < bound') : At w q name ∨ ∀ n, ¬ At w q n :=
  hat.imp_right fun hq n hn => (h.agrees.live_lt q n hn).not_ge hq.1

/-- A fence that goes on gathering keeps the names in order. -/
theorem Sound.put_gathering (hw : w' = w.put rank name tr relays w.queue)
    (h : Sound w bound answers committed) (hc : Concerns w name relays w.queue)
    (hle : bound ≤ bound') (hat : ∀ q, At w' q name → At w q name ∨ bound ≤ q ∧ q < bound')
    (hfd : ∀ t ∈ tr, ∀ q ∈ t.requests, q < bound') (hg : Gathering w' name nprocs flags)
    (hacct : (∃ m ∈ relays, m.name = name) ∨
      ∃ t, w'.treqs 0 name = some t ∧ t.processed = false) :
    Sound w' bound' answers committed := by
  have hqt : Quiet w name := by
    subst hw
    exact { hg.quiet with }
  refine ⟨h.ordered.put hw hc hqt (fun q hq => h.fresh_or (hat q hq)) ?_ ?_ ?_ ?_ ?_,
    h.agrees.put hw hc hqt hle hat hfd⟩
  · intro m hm hn hnone
    rw [(hg.relays m (hw ▸ hm) hn).1] at hnone
    cases hnone
  · intro m hm hn np hnp
    obtain ⟨hnprocs, hflg⟩ := hg.relays m (hw ▸ hm) hn
    rw [hnprocs] at hnp
    cases hnp
    rw [hflg]
    exact hg
  · intro t ht hp
    obtain ⟨h1, h2, -⟩ := hg.treqs 0 t ht
    rw [h1, h2]
    exact hg
  · intro e he hn
    exact absurd hn (hqt.queue e he)
  · intro r t ht
    exact hacct.imp_right .inl

theorem at_put_queued (hqt : Quiet w name) (hnone : ∀ m ∈ relays, m.name ≠ name)
    (hdone : tr.all Treq.processed = true) (q : ℕ) :
    At (w.put 0 name tr relays (w.queue ++ [⟨[name], ops, members⟩])) q name ↔
      q ∈ members := by
  constructor
  · rintro (⟨m, hm, hn, -⟩ | ⟨t, ht, hp, -⟩ | ⟨e, he, hn, hq⟩)
    · exact absurd hn (hnone m hm)
    · rw [Net.put_treqs, if_pos ⟨rfl, rfl⟩] at ht
      rw [ht] at hdone
      cases hp.symm.trans hdone
    · rcases mem_append.1 he with he | he
      · exact absurd hn (hqt.queue e he)
      · rw [mem_singleton.1 he] at hq
        exact hq
  · exact fun hq => .inr (.inr ⟨_, mem_append_right _ mem_cons_self, mem_cons_self, hq⟩)

/-- A name whose transaction is queued with all its requests stays in order. -/
theorem Sound.put_queued (hw : w' = w.put 0 name tr relays (w.queue ++ [⟨[name], ops, members⟩]))
    (h : Sound w bound answers committed)
    (hc : Concerns w name relays (w.queue ++ [⟨[name], ops, members⟩])) (hqt : Quiet w name)
    (hnone : ∀ m ∈ relays, m.name ≠ name) (hdone : tr.all Treq.processed = true)
    (hle : bound ≤ bound') (hat : ∀ q ∈ members, At w q name ∨ bound ≤ q ∧ q < bound')
    (hfd : ∀ r t, r = 0 ∧ t ∈ tr ∨ w.treqs r name = some t → ∀ q ∈ t.requests, q ∈ members) :
    Sound w' bound' answers committed := by
  have hat' (q : ℕ) (hq : At w' q name) : At w q name ∨ bound ≤ q ∧ q < bound' := by
    rw [hw, at_put_queued hqt hnone hdone] at hq
    exact hat q hq
  have hlt (q : ℕ) (hq : q ∈ members) : q < bound' := by
    rcases hat q hq with hq | hq
    · exact (h.agrees.live_lt q name hq).trans_le hle
    · exact hq.2
  refine ⟨h.ordered.put hw hc hqt (fun q hq => h.fresh_or (hat' q hq)) ?_ ?_ ?_ ?_ ?_,
    h.agrees.put hw hc hqt hle hat' fun t ht q hq => hlt q (hfd 0 t (.inl ⟨rfl, ht⟩) q hq)⟩
  all_goals subst hw
  · intro m hm hn
    exact absurd hn (hnone m hm)
  · intro m hm hn
    exact absurd hn (hnone m hm)
  · intro t ht hp
    rw [Net.put_treqs, if_pos ⟨rfl, rfl⟩] at ht
    rw [ht] at hdone
    cases hp.symm.trans hdone
  · intro e he hn r t q ht hq
    rcases mem_append.1 he with he | he
    · exact absurd hn (hqt.queue e he)
    rw [mem_singleton.1 he]
    rw [Net.put_treqs] at ht
    split at ht
    · rename_i hr
      exact hfd r t (.inl ⟨hr.1, ht⟩) q hq
    · exact hfd r t (.inr ht) q hq
  · intro r t _
    exact .inr (.inr ⟨_, mem_append_right _ mem_cons_self, mem_cons_self⟩)

end Put

/-! ### Filing a request -/

section File

/-- `tr` is what a rank has filed under a name, or a new record for a fence. -/
def FiledOrNew (w : Net) (rank : ℕ) (name : String) (nprocs : ℤ) (flags : ℕ) (tr : Treq) : Prop :=
  w.treqs rank name = some tr ∨
    w.treqs rank name = none ∧ tr = { nprocs := nprocs, flags := flags }

theorem FiledOrNew.filed (h : FiledOrNew w rank name nprocs flags tr) (hq : q ∈ tr.requests) :
    w.treqs rank name = some tr := by
  rcases h with h | ⟨-, rfl⟩
  · exact h
  · cases hq

theorem Fresh.filedOrNew (h : Fresh w name) (rank : ℕ) (nprocs : ℤ) (flags : ℕ) :
    FiledOrNew w rank name nprocs flags { nprocs := nprocs, flags := flags } :=
  .inr ⟨h.treqs rank, rfl⟩

theorem concerns_send (m : Relay) : Concerns w m.name (w.relays ++ [m]) w.queue where
  mem_relays := by
    intro m' hm'
    simp only [mem_append, mem_singleton, or_iff_left_iff_imp]
    rintro rfl
    exact absurd rfl hm'
  count := by
    intro n hn
    simp [inflight, countP_append, hn.symm]
  append := .inl rfl

theorem Ordered.covered_of_agreed (h : Ordered w) (ha : Agreed w name nprocs flags)
    (htr : w.treqs r name = some tr) (hq : q ∈ tr.requests) : At w q name := by
  rcases h.accounted r name tr htr with ⟨m, hm, hn⟩ | ⟨tr0, h0, hp⟩ | ⟨e, he, hn⟩ | ⟨ev, he, hn⟩
  · obtain ⟨hnp, -⟩ := ha.relays m hm hn
    exact hn ▸ (h.relay_fence m hm nprocs hnp).covered r tr q (hn ▸ htr) hq
  · exact (h.treq_fence name tr0 h0 hp).covered r tr q htr hq
  · exact absurd hn (ha.quiet.queue e he)
  · exact absurd hn (ha.quiet.event r ev he)

/-- The names after a rank has filed the request of a fence and sent it to rank 0. -/
def Net.fileFence (w : Net) (rank : ℕ) (m : Relay) (tr : Treq) : Net :=
  w.put rank m.name (some (treqAddRequestCopy tr m.req)) (w.relays ++ [m]) w.queue

theorem at_fileFence (hf : FiledOrNew w rank m.name nprocs flags tr) (q : ℕ) (n : String) :
    At (w.fileFence rank m tr) q n ↔ At w q n ∨ (q = m.req ∧ n = m.name) := by
  rcases hf with hf | ⟨hf, rfl⟩ <;> grind [At, Net.fileFence, treqAddRequestCopy]

theorem counted_fileFence (hf : FiledOrNew w rank m.name nprocs flags tr) :
    counted (w.fileFence rank m tr) m.name = counted w m.name := by
  rcases hf with hf | ⟨hf, rfl⟩ <;> grind [counted, Net.fileFence, treqAddRequestCopy]

theorem inflight_fileFence : inflight (w.fileFence rank m tr) m.name = inflight w m.name + 1 := by
  simp [inflight, Net.fileFence, countP_append]

theorem Ordered.gathering_fileFence (h : Ordered w) (ha : Agreed w m.name nprocs m.flags)
    (hroom : (counted w m.name + inflight w m.name : ℤ) < nprocs)
    (hf : FiledOrNew w rank m.name nprocs m.flags tr) (hm : m.nprocs = some nprocs) :
    Gathering (w.fileFence rank m tr) m.name nprocs m.flags := by
  refine ⟨⟨{ ha.quiet with }, ?_, ?_⟩, ?_, ?_⟩
  · intro m' hm' hn
    rcases mem_append.1 hm' with hm' | hm'
    · exact ha.relays m' hm' hn
    · rw [mem_singleton.1 hm']
      exact ⟨hm, rfl⟩
  · intro r t ht
    have := ha.treqs
    rcases hf with hf | ⟨hf, rfl⟩ <;> grind [Net.fileFence, treqAddRequestCopy]
  · rw [counted_fileFence hf, inflight_fileFence]
    push_cast
    omega
  · intro r t q ht hq
    have hcov (r : ℕ) (t : Treq) (q : ℕ) (ht : w.treqs r m.name = some t) (hq : q ∈ t.requests) :
        At w q m.name := h.covered_of_agreed ha ht hq
    rw [at_fileFence hf]
    rcases hf with hf | ⟨hf, rfl⟩ <;> grind [Net.fileFence, treqAddRequestCopy]

theorem at_send (hf : FiledOrNew w rank m.name nprocs flags tr) (hm : m.req = bound) (q : ℕ)
    (hq : At (w.fileFence rank m tr) q m.name) :
    At w q m.name ∨ bound ≤ q ∧ q < bound + 1 := by
  rcases (at_fileFence hf q m.name).1 hq with hq | ⟨rfl, -⟩
  · exact .inl hq
  · exact .inr ⟨hm.ge, hm ▸ Nat.lt_succ_self _⟩

section

variable {m : Relay} (h : Sound w bound answers committed) (hm : m.req = bound)
include h hm

theorem Sound.filed_send (hf : FiledOrNew w rank m.name nprocs flags tr) :
    ∀ t ∈ some (treqAddRequestCopy tr m.req), ∀ q ∈ t.requests, q < bound + 1 := by
  rintro - ⟨⟩ q hq
  rcases mem_cons.1 hq with rfl | hq
  · exact hm ▸ Nat.lt_succ_self _
  · exact Nat.lt_succ_of_lt (h.agrees.filed_lt rank m.name tr q (hf.filed hq) hq)

theorem Sound.fileFence (ha : Agreed w m.name nprocs m.flags)
    (hroom : (counted w m.name + inflight w m.name : ℤ) < nprocs)
    (hf : FiledOrNew w rank m.name nprocs m.flags tr) (hnp : m.nprocs = some nprocs) :
    Sound (w.fileFence rank m tr) (bound + 1) answers committed :=
  h.put_gathering rfl (concerns_send m) (Nat.le_succ _) (at_send hf hm) (h.filed_send hm hf)
    (h.ordered.gathering_fileFence ha hroom hf hnp)
    (.inl ⟨m, mem_append_right _ mem_cons_self, rfl⟩)

end

/-- The names after a rank other than 0 has filed a commit and sent it to rank 0. -/
def Net.fileCommit (w : Net) (rank : ℕ) (m : Relay) : Net :=
  w.put rank m.name (some (treqAddRequestCopy { nprocs := 1, flags := m.flags } m.req))
    (w.relays ++ [m]) w.queue

theorem Sound.fileCommit (h : Sound w bound answers committed) (hreq : m.req = bound)
    (hrank : rank ≠ 0) (hfr : Fresh w m.name) (hm : m.nprocs = none) :
    Sound (w.fileCommit rank m) (bound + 1) answers committed := by
  have hf := hfr.filedOrNew rank 1 m.flags
  have hat := at_send hf hreq
  have hunique (m' : Relay) (hm' : m' ∈ w.relays ++ [m]) (hn : m'.name = m.name) : m' = m := by
    rcases mem_append.1 hm' with hm' | hm'
    · exact absurd hn (hfr.relays m' hm')
    · exact mem_singleton.1 hm'
  have htreq (r : ℕ) (t : Treq) (ht : (w.fileCommit rank m).treqs r m.name = some t) :
      r = rank ∧ t = treqAddRequestCopy { nprocs := 1, flags := m.flags } m.req := by
    have := hfr.treqs r
    grind [Net.fileCommit]
  refine ⟨h.ordered.put rfl (concerns_send m) hfr.quiet (fun q hq => h.fresh_or (hat q hq))
    ?_ ?_ ?_ ?_ ?_, h.agrees.put rfl (concerns_send m) hfr.quiet (Nat.le_succ _) hat
      (h.filed_send hreq hf)⟩
  · intro m' hm' hn _
    rw [hunique m' hm' hn]
    refine ⟨{ hfr.quiet with }, ?_, ?_, ?_⟩
    · have : w.relays.countP (fun x => x.name = m.name) = 0 :=
        countP_eq_zero.2 fun x hx => by simpa using hfr.relays x hx
      simp [inflight, countP_append, this, Net.fileCommit]
    · simpa [hrank.symm, Net.fileCommit] using hfr.treqs 0
    · intro r t q ht hq
      obtain ⟨-, rfl⟩ := htreq r t ht
      simpa [treqAddRequestCopy] using hq
  · intro m' hm' hn np hnp
    rw [hunique m' hm' hn, hm] at hnp
    cases hnp
  · intro t ht
    exact absurd (htreq 0 t ht).1.symm hrank
  · intro e he hn
    exact absurd hn (hfr.quiet.queue e he)
  · intro r t ht
    exact .inl ⟨m, mem_append_right _ mem_cons_self, rfl⟩

/-- The names after rank 0 has filed a commit and queued it. -/
def Net.queueCommit (w : Net) (name : String) (tr : Treq) (ops : List (Option (Op Empty)))
    (q : ℕ) : Net :=
  w.put 0 name (some { treqAddRequestCopy tr q with processed := true }) w.relays
    (w.queue ++ [⟨[name], ops, [q]⟩])

theorem concerns_queue (name : String) (ops : List (Option (Op Empty))) (members : List ℕ) :
    Concerns w name w.relays (w.queue ++ [⟨[name], ops, members⟩]) :=
  ⟨fun _ _ => Iff.rfl, fun _ _ => rfl, .inr ⟨ops, members, rfl⟩⟩

theorem Sound.queueCommit (h : Sound w q answers committed) (htr : tr.requests = [])
    (hfr : Fresh w name) (ops : List (Option (Op Empty))) :
    Sound (w.queueCommit name tr ops q) (q + 1) answers committed := by
  refine h.put_queued rfl (concerns_queue name ops [q]) hfr.quiet hfr.relays rfl
    (Nat.le_succ _) ?_ ?_
  · intro q' hq'
    rw [mem_singleton.1 hq']
    exact .inr ⟨le_rfl, Nat.lt_succ_self _⟩
  · intro r t ht q' hq'
    have := hfr.treqs r
    grind [treqAddRequestCopy]

end File

/-! ### Arrival at rank 0 -/

section Arrive

variable {w : Net} {i : ℕ} {m : Relay}

theorem perm_eraseIdx {α : Type} {l : List α} {x : α} (h : l[i]? = some x) :
    (x :: l.eraseIdx i).Perm l := by
  obtain ⟨hi, rfl⟩ := List.getElem?_eq_some_iff.1 h
  exact getElem_cons_eraseIdx_perm hi

section

variable (hi : w.relays[i]? = some m)
include hi

theorem mem_relays_iff (m' : Relay) :
    m' ∈ w.relays ↔ m' = m ∨ m' ∈ w.relays.eraseIdx i := by
  rw [← (perm_eraseIdx hi).mem_iff, mem_cons]

theorem inflight_eq (n : String) : inflight w n
      = (w.relays.eraseIdx i).countP (fun m => m.name = n) + if m.name = n then 1 else 0 := by
  rw [inflight, ← (perm_eraseIdx hi).countP_eq, countP_cons]
  simp

theorem concerns_arrive
    (hq : queue = w.queue ∨ ∃ ops members, queue = w.queue ++ [⟨[m.name], ops, members⟩]) :
    Concerns w m.name (w.relays.eraseIdx i) queue where
  mem_relays := by
    intro m' hm'
    rw [mem_relays_iff hi]
    constructor
    · exact .inr
    · rintro (rfl | h)
      · exact absurd rfl hm'
      · exact h
  count := by
    intro n hn
    rw [inflight_eq hi, if_neg hn.symm, Nat.add_zero]
  append := hq

theorem no_relay_left (h : inflight w m.name = 1) (hm' : m' ∈ w.relays.eraseIdx i) :
    m'.name ≠ m.name := by
  rw [inflight_eq hi, if_pos rfl, Nat.add_eq_right, countP_eq_zero] at h
  simpa using h m' hm'

theorem mem_relays_of_getElem? : m ∈ w.relays :=
  (mem_relays_iff hi m).2 (.inl rfl)

end

/-- The names after `relaycommit_request_cb`. -/
def Net.arriveCommit (w : Net) (i : ℕ) (m : Relay) : Net :=
  w.put 0 m.name none (w.relays.eraseIdx i) (w.queue ++ [⟨[m.name], m.ops, [m.req]⟩])

theorem Sound.arriveCommit (h : Sound w bound answers committed) (hi : w.relays[i]? = some m)
    (hm : m.nprocs = none) : Sound (w.arriveCommit i m) bound answers committed := by
  have hmem := mem_relays_of_getElem? hi
  have hc := h.ordered.relay_commit m hmem hm
  refine h.put_queued rfl (concerns_arrive hi (.inr ⟨m.ops, [m.req], rfl⟩)) hc.quiet
    (fun _ => no_relay_left hi hc.once) rfl le_rfl ?_ ?_
  · intro q hq
    rw [mem_singleton.1 hq]
    exact .inl (.inl ⟨m, hmem, rfl, rfl⟩)
  · rintro r t (⟨-, ⟨⟩⟩ | ht) q hq
    rw [hc.covered r t q ht hq]
    exact mem_cons_self

/-- What `treq_add_request_ops` makes of the record of a fence. -/
def arrived (tr : Treq) (m : Relay) : Treq :=
  { tr with ops := tr.ops ++ m.ops, count := tr.count + 1, members := tr.members ++ [m.req] }

/-- The names after `relayfence_request_cb` has counted a request. -/
def Net.arriveFence (w : Net) (i : ℕ) (m : Relay) (tr : Treq) : Net :=
  w.put 0 m.name (some (arrived tr m)) (w.relays.eraseIdx i) w.queue

/-- The names after `relayfence_request_cb` has counted the last request. -/
def Net.arriveLast (w : Net) (i : ℕ) (m : Relay) (tr : Treq) : Net :=
  w.put 0 m.name (some { arrived tr m with processed := true }) (w.relays.eraseIdx i)
    (w.queue ++ [⟨[m.name], (arrived tr m).ops, (arrived tr m).members⟩])

theorem Gathering.count_eq (hf : FiledOrNew w 0 m.name nprocs m.flags tr) :
    counted w m.name = tr.count := by
  rcases hf with hf | ⟨hf, rfl⟩ <;> simp [counted, hf]

section

variable (hg : Gathering w m.name nprocs m.flags) (hf : FiledOrNew w 0 m.name nprocs m.flags tr)
include hg hf

/-- The operations of a fence are those that have been counted and those that are on their
way. -/
theorem Gathering.at_iff (hi : w.relays[i]? = some m) (q : ℕ) :
    At w q m.name ↔ q ∈ (arrived tr m).members ∨
      ∃ m' ∈ w.relays.eraseIdx i, m'.name = m.name ∧ m'.req = q := by
  have hq := hg.quiet.queue
  have ht := hg.treqs 0 tr
  simp only [At, mem_relays_iff hi, arrived, mem_append, mem_singleton]
  rcases hf with hf | ⟨hf, rfl⟩ <;> grind

theorem Gathering.processed_eq : tr.processed = false := by
  rcases hf with hf | ⟨-, rfl⟩
  · exact (hg.treqs 0 tr hf).2.2
  · rfl

theorem at_arriveFence (hi : w.relays[i]? = some m) (q : ℕ) :
    At (w.arriveFence i m tr) q m.name ↔ At w q m.name := by
  have hp := hg.processed_eq hf
  have hq := hg.quiet.queue
  rw [hg.at_iff hf hi]
  simp only [At, Net.arriveFence, Net.put_relays, Net.put_treqs, Net.put_queue]
  grind [arrived]

theorem Gathering.arriveFence (hi : w.relays[i]? = some m) :
    Gathering (w.arriveFence i m tr) m.name nprocs m.flags := by
  have hp := hg.processed_eq hf
  refine ⟨⟨{ hg.quiet with }, ?_, ?_⟩, ?_, ?_⟩
  · intro m' hm'
    exact hg.relays m' ((mem_relays_iff hi m').2 (.inr hm'))
  · intro r t ht
    have := hg.treqs
    rcases hf with hf | ⟨hf, rfl⟩ <;> grind [Net.arriveFence, arrived]
  · have hroom := hg.room
    rw [inflight_eq hi, if_pos rfl, Gathering.count_eq hf] at hroom
    simp only [counted, inflight, Net.arriveFence, Net.put_treqs, and_self, if_true,
      elim_some, arrived, Net.put_relays]
    push_cast at hroom ⊢
    omega
  · intro r t q ht hq
    rw [at_arriveFence hg hf hi]
    have hcov := hg.covered
    rcases hf with hf | ⟨hf, rfl⟩ <;> grind [Net.arriveFence, arrived]

theorem Sound.arriveFence (h : Sound w bound answers committed) (hi : w.relays[i]? = some m) :
    Sound (w.arriveFence i m tr) bound answers committed := by
  refine h.put_gathering rfl (concerns_arrive hi (.inl rfl)) le_rfl
    (fun q hq => .inl ((at_arriveFence hg hf hi q).1 hq)) ?_ (hg.arriveFence hf hi)
    (.inr ⟨arrived tr m, by simp [Net.arriveFence], (hg.processed_eq hf :)⟩)
  rintro - ⟨⟩ q hq
  exact h.agrees.filed_lt 0 m.name tr q (hf.filed hq) hq

variable (hi : w.relays[i]? = some m) (hcount : ((arrived tr m).count : ℤ) = nprocs)
include hi hcount

theorem Gathering.inflight_last : inflight w m.name = 1 := by
  have hroom := hg.room
  rw [Gathering.count_eq hf] at hroom
  have hpos := inflight_eq hi m.name
  rw [if_pos rfl] at hpos
  simp only [arrived] at hcount
  push_cast at hcount
  omega

theorem Gathering.at_last (q : ℕ) :
    At w q m.name ↔ q ∈ (arrived tr m).members := by
  rw [hg.at_iff hf hi, or_iff_left]
  rintro ⟨m', hm', hn, -⟩
  exact no_relay_left hi (hg.inflight_last hf hi hcount) hm' hn

theorem Sound.arriveLast (h : Sound w bound answers committed) :
    Sound (w.arriveLast i m tr) bound answers committed := by
  have hat := hg.at_last hf hi hcount
  refine h.put_queued rfl (concerns_arrive hi (.inr ⟨_, _, rfl⟩)) hg.quiet
    (fun _ => no_relay_left hi (hg.inflight_last hf hi hcount)) rfl le_rfl ?_ ?_
  · exact fun q hq => .inl ((hat q).2 hq)
  · rintro r t (⟨-, ⟨⟩⟩ | ht) q hq
    · exact (hat q).1 (hg.covered 0 tr q (hf.filed hq) hq)
    · exact (hat q).1 (hg.covered r t q ht hq)

end

end Arrive

/-! ### The end of a transaction -/

section Close

variable {w : Net} {ev : Event}

/-- The names after the transactions at the front of the queue have ended and the event
about them has been sent. -/
def Net.close (w : Net) (rest : List (Kvstxn.Content Empty)) (ev : Event) : Net :=
  { w with queue := rest, events := fun r => w.events r ++ [ev] }

theorem at_of_close (hq : w.queue = front ++ rest) (h : At (w.close rest ev) q n) : At w q n := by
  rcases h with h | h | ⟨e, he, hn⟩
  · exact .inl h
  · exact .inr (.inl h)
  · exact .inr (.inr ⟨e, hq ▸ mem_append_right _ he, hn⟩)

theorem quiet_close (hq : w.queue = front ++ rest)
    (hev : ev.names = (Kvstxn.Content.concat front).names) (h : Quiet w n) :
    Quiet (w.close rest ev) n := by
  refine ⟨fun e he => h.queue e (hq ▸ mem_append_right _ he), fun r ev' hev' hn => ?_⟩
  rcases mem_append.1 hev' with hev' | hev'
  · exact h.event r ev' hev' hn
  rw [mem_singleton.1 hev', hev] at hn
  obtain ⟨e, he, hn⟩ := Kvstxn.Content.mem_concat_names.1 hn
  exact h.queue e (hq ▸ mem_append_left _ he) hn

theorem at_close_of_quiet (hqt : Quiet w n) (h : At w q n) : At (w.close rest ev) q n := by
  rcases h with h | h | ⟨e, he, hn, -⟩
  · exact .inl h
  · exact .inr (.inl h)
  · exact absurd hn (hqt.queue e he)

section

variable (hq : w.queue = front ++ rest) (hev : ev.names = (Kvstxn.Content.concat front).names)
include hq hev

theorem Gathering.close (h : Gathering w n nprocs flags) :
    Gathering (w.close rest ev) n nprocs flags :=
  ⟨⟨quiet_close hq hev h.quiet, h.relays, h.treqs⟩, h.room,
    fun r t q ht hmem => at_close_of_quiet h.quiet (h.covered r t q ht hmem)⟩

theorem Committing.close (h : Committing w m) :
    Committing (w.close rest ev) m :=
  { h with quiet := quiet_close hq hev h.quiet }

end

theorem Ordered.close (h : Ordered w) (hq : w.queue = front ++ rest)
    (hev : ev.names = (Kvstxn.Content.concat front).names) : Ordered (w.close rest ev) := by
  have hmem (e : Kvstxn.Content Empty) (he : e ∈ rest) : e ∈ w.queue :=
    hq ▸ mem_append_right _ he
  constructor
  case single => exact fun e he => h.single e (hmem e he)
  case nodup =>
    have hn := h.nodup
    rw [hq, flatMap_append] at hn
    exact (nodup_append.1 hn).2.1
  case one_name =>
    exact fun q n n' hn hn' => h.one_name q n n' (at_of_close hq hn) (at_of_close hq hn')
  case queued => exact fun e he => h.queued e (hmem e he)
  case relay_commit => exact fun m hm hnone => (h.relay_commit m hm hnone).close hq hev
  case relay_fence => exact fun m hm np hnp => (h.relay_fence m hm np hnp).close hq hev
  case treq_fence => exact fun n t ht hp => (h.treq_fence n t ht hp).close hq hev
  case accounted =>
    intro r n t ht
    rcases h.accounted r n t ht with ha | ha | ⟨e, he, hn⟩ | ⟨ev', hev', hn⟩
    · exact .inl ha
    · exact .inr (.inl ha)
    · rw [hq] at he
      rcases mem_append.1 he with he | he
      · refine .inr (.inr (.inr ⟨ev, mem_append_right _ mem_cons_self, ?_⟩))
        rw [hev]
        exact Kvstxn.Content.mem_concat_names.2 ⟨e, he, hn⟩
      · exact .inr (.inr (.inl ⟨e, he, hn⟩))
    · exact .inr (.inr (.inr ⟨ev', mem_append_left _ hev', hn⟩))

section

variable (h : Ordered w) (hq : w.queue = front ++ rest)
  (hmem : q ∈ (Kvstxn.Content.concat front).members)
include h hq hmem

theorem Ordered.at_front :
    ∃ e ∈ front, ∃ name ∈ e.names, q ∈ e.members ∧ At w q name := by
  obtain ⟨e, he, hqe⟩ := Kvstxn.Content.mem_concat_members.1 hmem
  have hew : e ∈ w.queue := hq ▸ mem_append_left _ he
  obtain ⟨name, hname⟩ := h.single e hew
  have hn : name ∈ e.names := hname ▸ mem_cons_self
  exact ⟨e, he, name, hn, hqe, .inr (.inr ⟨e, hew, hn, hqe⟩)⟩

theorem Ordered.not_at_close (n : String) :
    ¬ At (w.close rest ev) q n := by
  intro hat
  obtain ⟨e, he, name, hn, -, hat0⟩ := h.at_front hq hmem
  have hew : e ∈ w.queue := hq ▸ mem_append_left _ he
  obtain rfl : n = name := h.one_name q n name (at_of_close hq hat) hat0
  rcases hat with ⟨m, hm, rfl, -⟩ | ⟨t, ht, hp, -⟩ | ⟨e', he', hn', -⟩
  · cases hnp : m.nprocs with
    | none => exact (h.relay_commit m hm hnp).quiet.queue e hew hn
    | some np => exact (h.relay_fence m hm np hnp).quiet.queue e hew hn
  · exact (h.treq_fence n t ht hp).quiet.queue e hew hn
  have hnd := h.nodup
  rw [hq, flatMap_append] at hnd
  exact (nodup_append.1 hnd).2.2 n (mem_flatMap.2 ⟨e, he, hn⟩) n
    (mem_flatMap.2 ⟨e', he', hn'⟩) rfl

end

/-- The requests that a rank has filed under a name of an ended transaction belong to
it. -/
theorem Ordered.filed_front (h : Ordered w) (hq : w.queue = front ++ rest)
    (hn : n ∈ (Kvstxn.Content.concat front).names) (ht : w.treqs r n = some t)
    (hmem : q ∈ t.requests) : q ∈ (Kvstxn.Content.concat front).members := by
  obtain ⟨e, he, hne⟩ := Kvstxn.Content.mem_concat_names.1 hn
  exact Kvstxn.Content.mem_concat_members.2
    ⟨e, he, h.queued e (hq ▸ mem_append_left _ he) n hne r t q ht hmem⟩

section

variable (h : Agrees w bound answers committed) (ho : Ordered w) (hq : w.queue = front ++ rest)
  (hev : ev.names = (Kvstxn.Content.concat front).names)
include h ho hq hev

theorem Agrees.close (hcom : committed ⊆ committed')
    (hdone : ∀ q ∈ committed', q ∈ committed ∨ q ∈ (Kvstxn.Content.concat front).members)
    (hevent : ∀ q ∈ (Kvstxn.Content.concat front).members, q ∉ committed →
      (∀ n, ¬ At (w.close rest ev) q n) → Told (w.close rest ev) committed' q ev.errnum) :
    Agrees (w.close rest ev) bound answers committed' := by
  have hfront (q : ℕ) (hmem : q ∈ (Kvstxn.Content.concat front).members) :
      (∃ n, At w q n) ∧ ∀ n, ¬ At (w.close rest ev) q n := by
    obtain ⟨-, -, name, -, -, hat⟩ := ho.at_front hq hmem
    exact ⟨⟨name, hat⟩, ho.not_at_close hq hmem⟩
  refine h.step le_rfl (fun q n hat => .inl (at_of_close hq hat)) hcom ?_
    (fun _ _ _ _ ht _ => .inl ht) (fun _ _ hq => .inl (h.told_answer hq)) ?_
  · exact fun q hmem => (hdone q hmem).imp_right (hfront q)
  · intro r ev' hev' n hn t q ht hmem
    rcases mem_append.1 hev' with hev' | hev'
    · exact .inl (h.told_event hev' hn ht hmem)
    rw [mem_singleton.1 hev'] at hn ⊢
    have hmem := ho.filed_front hq (hev ▸ hn) ht hmem
    obtain ⟨⟨name, hat⟩, hno⟩ := hfront q hmem
    exact .inr (hevent q hmem (h.live_not_committed q name hat) hno)

theorem Agrees.close_success (hnone : ev.errnum = none) : Agrees (w.close rest ev) bound answers
      (committed ++ (Kvstxn.Content.concat front).members) := by
  refine h.close ho hq hev (subset_append_left ..) (fun _ => mem_append.1) fun q hmem _ _ => ?_
  exact ⟨fun _ => mem_append_right _ hmem, absurd hnone⟩

theorem Agrees.close_failure (hsome : ev.errnum ≠ none) :
    Agrees (w.close rest ev) bound answers committed :=
  h.close ho hq hev (fun _ hq => hq) (fun _ => .inl) fun _ _ hcom hno =>
    ⟨fun hnone => absurd hnone hsome, fun _ => ⟨hcom, hno⟩⟩

end

end Close

/-! ### The arrival of an event -/

section Deliver

variable {w : Net}

/-- The names after a rank has received an event. -/
def Net.deliver (w : Net) (rank i : ℕ) (ev : Event) : Net :=
  { w with treqs := fun r n => if r = rank ∧ n ∈ ev.names then none else w.treqs r n,
           events := fun r => if r = rank then (w.events r).eraseIdx i else w.events r }

@[simp, grind =] theorem Net.deliver_treqs (r : ℕ) (n : String) : (w.deliver rank i ev).treqs r n
      = if r = rank ∧ n ∈ ev.names then none else w.treqs r n := rfl

@[simp, grind =] theorem Net.deliver_relays : (w.deliver rank i ev).relays = w.relays := rfl

@[simp, grind =] theorem Net.deliver_queue : (w.deliver rank i ev).queue = w.queue := rfl

theorem treqs_of_deliver {r : ℕ} {t : Treq} (h : (w.deliver rank i ev).treqs r n = some t) :
    w.treqs r n = some t := by
  grind

theorem mem_events_of_deliver (h : ev' ∈ (w.deliver rank i ev).events r) : ev' ∈ w.events r := by
  simp only [Net.deliver] at h
  split at h
  · exact mem_of_mem_eraseIdx h
  · exact h

theorem quiet_deliver (h : Quiet w n) : Quiet (w.deliver rank i ev) n :=
  ⟨h.queue, fun r ev' hev' => h.event r ev' (mem_events_of_deliver hev')⟩

theorem treqs_deliver_of_quiet (hi : (w.events rank)[i]? = some ev) (h : Quiet w n) (r : ℕ) :
    (w.deliver rank i ev).treqs r n = w.treqs r n := by
  have := h.event rank ev (mem_of_getElem? hi)
  simp [this]

theorem Ordered.at_deliver (h : Ordered w) (hi : (w.events rank)[i]? = some ev) (q : ℕ)
    (n : String) : At (w.deliver rank i ev) q n ↔ At w q n := by
  simp only [At, Net.deliver_relays, Net.deliver_queue]
  refine or_congr Iff.rfl (or_congr ?_ Iff.rfl)
  constructor
  · rintro ⟨t, ht, hp, hq⟩
    exact ⟨t, treqs_of_deliver ht, hp, hq⟩
  · rintro ⟨t, ht, hp, hq⟩
    have hqt := (h.treq_fence n t ht hp).quiet
    exact ⟨t, (treqs_deliver_of_quiet hi hqt 0).trans ht, hp, hq⟩

theorem Ordered.gathering_deliver (h : Ordered w) (hi : (w.events rank)[i]? = some ev)
    {nprocs : ℤ} {flags : ℕ} (hg : Gathering w n nprocs flags) :
    Gathering (w.deliver rank i ev) n nprocs flags := by
  have htr := treqs_deliver_of_quiet hi hg.quiet
  refine ⟨⟨quiet_deliver hg.quiet, hg.relays, fun r t ht => ?_⟩, ?_, fun r t q ht hq => ?_⟩
  · exact hg.treqs r t ((htr r).symm.trans ht)
  · rw [counted, htr]
    exact hg.room
  · exact (h.at_deliver hi q n).2 (hg.covered r t q ((htr r).symm.trans ht) hq)

theorem Committing.deliver (hi : (w.events rank)[i]? = some ev) {m : Relay}
    (hc : Committing w m) : Committing (w.deliver rank i ev) m := by
  have htr := treqs_deliver_of_quiet hi hc.quiet
  refine ⟨quiet_deliver hc.quiet, hc.once, (htr 0).trans hc.treqs, fun r t q ht hq => ?_⟩
  exact hc.covered r t q ((htr r).symm.trans ht) hq

theorem Ordered.deliver (h : Ordered w) (hi : (w.events rank)[i]? = some ev) :
    Ordered (w.deliver rank i ev) := by
  constructor
  case single => exact h.single
  case nodup => exact h.nodup
  case one_name =>
    intro q n n' hn hn'
    exact h.one_name q n n' ((h.at_deliver hi q n).1 hn) ((h.at_deliver hi q n').1 hn')
  case queued =>
    exact fun e he n hn r t q ht => h.queued e he n hn r t q (treqs_of_deliver ht)
  case relay_commit => exact fun m hm hnone => (h.relay_commit m hm hnone).deliver hi
  case relay_fence =>
    exact fun m hm np hnp => h.gathering_deliver hi (h.relay_fence m hm np hnp)
  case treq_fence =>
    exact fun n t ht hp =>
      h.gathering_deliver hi (h.treq_fence n t (treqs_of_deliver ht) hp)
  case accounted =>
    intro r n t ht
    rcases h.accounted r n t (treqs_of_deliver ht) with ha | ⟨t0, h0, hp⟩ | ha | ⟨ev', hev', hn⟩
    · exact .inl ha
    · have hqt := (h.treq_fence n t0 h0 hp).quiet
      exact .inr (.inl ⟨t0, (treqs_deliver_of_quiet hi hqt 0).trans h0, hp⟩)
    · exact .inr (.inr (.inl ha))
    refine .inr (.inr (.inr ⟨ev', ?_, hn⟩))
    by_cases hr : r = rank
    · subst hr
      have hne : ev' ≠ ev := by
        rintro rfl
        simp [hn] at ht
      simp only [Net.deliver, if_true]
      have := (perm_eraseIdx hi).mem_iff.2 hev'
      rcases mem_cons.1 this with hc | hc
      · exact absurd hc hne
      · exact hc
    · simpa [Net.deliver, hr] using hev'

theorem Agrees.deliver {bound : ℕ} {answers answers' : List (ℕ × Option Errno)}
    {committed : List ℕ} (h : Agrees w bound answers committed) (ho : Ordered w)
    (hi : (w.events rank)[i]? = some ev)
    (hans : ∀ a, a ∈ answers' ↔ a ∈ answers ∨
      a.2 = ev.errnum ∧ ∃ n ∈ ev.names, ∃ t, w.treqs rank n = some t ∧ a.1 ∈ t.requests) :
    Agrees (w.deliver rank i ev) bound answers' committed := by
  refine h.step le_rfl (fun q n hq => .inl ((ho.at_deliver hi q n).1 hq)) (fun _ hq => hq)
    (fun _ => .inl) (fun r n t q ht _ => .inl (treqs_of_deliver ht)) ?_ ?_
  · intro q e ha
    rcases (hans _).1 ha with ha | ⟨rfl, n, hn, t, ht, hq⟩
    · exact .inl (h.told_answer ha)
    · exact .inl (h.told_event (mem_of_getElem? hi) hn ht hq)
  · intro r ev' hev' n hn t q ht hq
    exact .inl (h.told_event (mem_events_of_deliver hev') hn (treqs_of_deliver ht) hq)

end Deliver

end FluxCore.Kvs.Instance
