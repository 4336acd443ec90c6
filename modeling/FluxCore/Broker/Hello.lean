import Mathlib.Algebra.BigOperators.Ring.Finset
import Mathlib.Algebra.Order.BigOperators.Group.Finset
import Mathlib.Algebra.Order.Group.Int
import FluxCore.Broker.Reduce
import FluxCore.Broker.Topology
import FluxCore.Lib.Machine
import FluxCore.Lib.Net

/-!
# The Hello Protocol

At startup every broker counts itself, and the counts are reduced over the tree: a rank adds up
its own count and those of the ranks below, and sends the sum to its parent in a `hello.join`
request. Rank 0 adds up what comes in. When the sums are sent is a matter of the high-water mark
and of the timer of the reduction handle, on each rank by itself.

The brokers of an instance are a machine: a rank calls `hello_start`, the timer of a rank fires,
or a request is handled. No count is lost or counted twice on the way, so the count on rank 0 is
the size of the instance in the end, and never more than the number of ranks that have started.
-/

namespace FluxCore.Broker

open List Option

/-- A `hello.join` request. -/
structure Join where
  count : ℤ
  batch : ℤ
deriving DecidableEq

/-- The attributes `hello.hwm` and `hello.timeout` of a rank. -/
structure HelloAttrs where
  hwm : ℤ
  timeout : ℚ

/-- The state of the protocol on a rank, apart from its reduction handle. The requests `joins`
have been sent upstream by the present call. -/
structure Hello where
  size : ℕ := 1
  count : ℤ := 0
  joins : List Join := []

namespace Reduce

/-- How many items can be popped. -/
def pending {α : Type} (r : Reduce α) : ℕ := r.items.length + r.oldItem.toList.length

theorem pending_pop {α : Type} {r r' : Reduce α} {item : α} (h : r.pop = (some item, r')) :
    r'.pending < r.pending := by
  rw [pop] at h
  split at h
  · obtain ⟨hold, rfl⟩ := Prod.mk.inj h
    simp [pending, hold]
  obtain ⟨hhead, rfl⟩ := Prod.mk.inj h
  obtain ⟨rest, hrest⟩ := List.head?_eq_some_iff.1 hhead
  simp [pending, hrest]

end Reduce

namespace Hello

/-- The loop of `r_reduce`: pop counts, and add them up. -/
def rReduceLoop (r : Reduce ℤ) (count : ℤ) : Reduce ℤ × ℤ :=
  match h : r.pop with
  | (some i, r') =>
    have := Reduce.pending_pop h
    if i > 0 then rReduceLoop r' (count + i) else (r', count)
  | (none, r') => (r', count)
termination_by r.pending

/-- `r_reduce`: pop all counts, and push their sum. -/
def rReduce : ReduceOp ℤ Hello := fun r batch hello =>
  if batch ≠ 0 then none
  else
    let (r, count) := rReduceLoop r 0
    some (if count > 0 then r.push count else r, hello)

/-- `r_sink`: pop one count, and add it to the global one. -/
def rSink : ReduceOp ℤ Hello := fun r batch hello =>
  let (item, r) := r.pop
  let count := item.getD 0
  if batch ≠ 0 ∨ ¬ count > 0 then none
  else some (r, { hello with count := hello.count + count })

/-- `r_forward`: pop one count, and send it upstream. -/
def rForward : ReduceOp ℤ Hello := fun r batch hello =>
  let (item, r) := r.pop
  let count := item.getD 0
  if batch ≠ 0 ∨ ¬ count > 0 then none
  else some (r, { hello with joins := hello.joins ++ [{ count, batch }] })

/-- `r_itemweight`. -/
def rItemweight (item : ℤ) : ℤ := item

/-- The callbacks of the reduction. -/
def reduceOps : ReduceOps ℤ Hello where
  reduce := some rReduce
  sink := some rSink
  forward := some rForward
  itemweight := some rItemweight

/-- `hello_complete`. -/
def complete (hello : Hello) : Prop := hello.size = hello.count

/-- `hello_start`: create the reduction handle, and append the count of the rank itself. -/
def start (hello : Hello) (rank size : ℕ) (attrs : Option HelloAttrs) :
    Option (Reduce ℤ × Hello) :=
  let hello := { hello with size }
  let hwm := attrs.elim 1 (·.hwm)
  let timeout := attrs.elim 0 (·.timeout)
  (Reduce.create reduceOps rank timeout (hwm > 0) (timeout > 0)).bind fun r =>
    (r.setHwm (UInt32.ofInt hwm)).append reduceOps hello 1 0

/-- `join_request`. -/
def joinRequest (hello : Hello) (r : Reduce ℤ) (msg : Join) : Option (Reduce ℤ × Hello) :=
  if msg.batch ≠ 0 ∨ msg.count ≤ 0 then none
  else r.append reduceOps hello msg.count msg.batch

/-! ### The brokers of an instance -/

/-- The protocol on one rank: there is a reduction handle once the rank has started. -/
structure Node where
  hello : Hello := {}
  reduce : Option (Reduce ℤ) := none

/-- The state of an instance: its ranks, the requests in flight, and if a broker has failed an
assertion or has exited. -/
structure Instance where
  net : Net Node Join := ⟨fun _ => {}, []⟩
  aborted : Bool := false

/-- What happens: a rank calls `hello_start`, the timer of a rank fires, or the request at a
place in the list of those in flight is handled. -/
inductive Label
  | start (i : ℕ) (attrs : Option HelloAttrs)
  | timer (i : ℕ)
  | join (k : ℕ)

variable (top : Topology)

/-- The end of a call on a rank: its requests go to the parent. -/
def finish (s : Instance) (net : Net Node Join) (i : ℕ) : Option (Reduce ℤ × Hello) → Instance
  | some (r, hello) =>
    let node := { hello := { hello with joins := [] }, reduce := some r }
    { s with net := net.act i node (hello.joins.map fun msg => (top.parent i, msg)) }
  | none => { s with aborted := true }

/-- The brokers of an instance. A rank starts once, and handles requests only after it. -/
def protocol : Machine Instance Label where
  step
    | .start i attrs, s =>
      let node := s.net.node i
      if i < top.size ∧ node.reduce.isNone then
        some (finish top s s.net i (node.hello.start i top.size attrs))
      else none
    | .timer i, s =>
      let node := s.net.node i
      match node.reduce with
      | some r =>
        if i < top.size ∧ r.timerArmed then
          some (finish top s s.net i (r.timerCb reduceOps node.hello))
        else none
      | none => none
    | .join k, s =>
      match s.net.flight[k]? with
      | some (i, msg) =>
        let node := s.net.node i
        match node.reduce with
        | some r => some (finish top s (s.net.take k) i (node.hello.joinRequest r msg))
        | none => none
      | none => none

/-- How many ranks have called `hello_start`. -/
def Instance.started (s : Instance) : ℕ :=
  ((Finset.range top.size).filter fun i => (s.net.node i).reduce.isSome).card

/-- The protocol begins with no rank started. -/
def Start (s : Instance) : Prop := s = {}

/-! ### One call -/

/-- A reduction handle between two calls: at most one count is kept, and no straggler. -/
structure Idle (r : Reduce ℤ) : Prop where
  oldItem : r.oldItem = none
  oldFlag : r.oldFlag = false
  batchnum : r.batchnum = 0
  items : r.items = [] ∨ ∃ c > 0, r.items = [c]

/-- What a rank has counted and sent. -/
def worth (hello : Hello) : ℤ := hello.count + (hello.joins.map Join.count).sum

/-- A call that brings the count `c` to a rank: what is not kept in the handle goes to the
global count on rank 0, and into requests on the other ranks. -/
structure Moves (c : ℤ) (r : Reduce ℤ) (hello : Hello) (r' : Reduce ℤ) (hello' : Hello) :
    Prop where
  idle : Idle r'
  rank : r'.rank = r.rank
  balance : r'.items.sum + hello'.worth = r.items.sum + hello.worth + c
  count_le : hello.count ≤ hello'.count
  count_eq : r.rank ≠ 0 → hello'.count = hello.count
  joins : ∀ msg ∈ hello'.joins, msg ∈ hello.joins ∨ 0 < msg.count ∧ msg.batch = 0
  joins_eq : r.rank = 0 → hello'.joins = hello.joins
  size : hello'.size = hello.size

/-- A call has a result, and moves its count. -/
def Works (c : ℤ) (r : Reduce ℤ) (hello : Hello) (result : Option (Reduce ℤ × Hello)) : Prop :=
  ∃ r' hello', result = some (r', hello') ∧ Moves c r hello r' hello'

variable {r r' : Reduce ℤ} {hello hello' : Hello} {c d : ℤ}

theorem Moves.trans (h : Moves c r hello r' hello') (h' : Moves d r' hello' r'' hello'') :
    Moves (c + d) r hello r'' hello'' where
  idle := h'.idle
  rank := h'.rank.trans h.rank
  balance := by rw [h'.balance, h.balance, add_assoc]
  count_le := h.count_le.trans h'.count_le
  count_eq hr := (h'.count_eq (h.rank ▸ hr)).trans (h.count_eq hr)
  joins msg hmsg := (h'.joins msg hmsg).elim (h.joins msg) .inr
  joins_eq hr := (h'.joins_eq (h.rank.trans hr)).trans (h.joins_eq hr)
  size := h'.size.trans h.size

theorem Moves.kept (hidle : Idle r') (hrank : r'.rank = r.rank)
    (hsum : r'.items.sum = r.items.sum + c) : Moves c r hello r' hello where
  idle := hidle
  rank := hrank
  balance := by omega
  count_le := le_rfl
  count_eq _ := rfl
  joins _ := .inl
  joins_eq _ := rfl
  size := rfl

/-- The state of a rank after a count has been handed on. -/
def credit (hello : Hello) (rank : ℕ) (c : ℤ) : Hello :=
  if rank > 0 then { hello with joins := hello.joins ++ [{ count := c, batch := 0 }] }
  else { hello with count := hello.count + c }

theorem Moves.handed (hidle : Idle r') (hrank : r'.rank = r.rank) (hd : 0 < d)
    (hsum : r'.items.sum + d = r.items.sum + c) : Moves c r hello r' (hello.credit r.rank d) := by
  rw [credit]
  split
  · rename_i hpos
    exact {
      idle := hidle
      rank := hrank
      balance := by
        simp only [worth, map_append, sum_append, map_cons, map_nil, sum_singleton]
        omega
      count_le := le_rfl
      count_eq := fun _ => rfl
      joins := fun msg hmsg => (mem_append.1 hmsg).imp_right fun h => by
        rw [mem_singleton.1 h]
        exact ⟨hd, rfl⟩
      joins_eq := fun h => absurd h hpos.ne'
      size := rfl }
  · rename_i hzero
    exact {
      idle := hidle
      rank := hrank
      balance := by
        simp only [worth]
        omega
      count_le := by
        simp only
        omega
      count_eq := fun h => absurd (Nat.pos_of_ne_zero h) hzero
      joins := fun _ => .inl
      joins_eq := fun _ => rfl
      size := rfl }

theorem handOn_eq (hpop : r.pop = (some item, r')) (hitem : 0 < item) :
    r.handOn reduceOps hello 0 = some (r', hello.credit r.rank item) := by
  have hguard : ¬ ((0 : ℤ) ≠ 0 ∨ ¬ item > 0) := by omega
  rw [Reduce.handOn, credit]
  split_ifs with hrank
  · simp only [reduceOps, rForward, hpop, getD_some]
    rw [if_neg hguard]
  · simp only [reduceOps, rSink, hpop, getD_some]
    rw [if_neg hguard]

theorem flushCurrent_works (h : Idle r) : Works 0 r hello (r.flushCurrent reduceOps hello) := by
  rw [Reduce.flushCurrent]
  obtain hnil | ⟨c, hc, hcons⟩ := h.items
  · rw [hnil]
    exact ⟨_, _, rfl, .kept { h with items := .inl hnil } rfl (add_zero _).symm⟩
  have hpop : r.pop = (some c, { r with items := [] }) := by
    rw [Reduce.pop, h.oldFlag, hcons]
    rfl
  rw [hcons, h.batchnum, handOn_eq hpop hc]
  refine ⟨_, _, rfl, .handed { h with items := .inl rfl } rfl hc ?_⟩
  rw [hcons]
  simp [Reduce.markFlushed]

theorem flushOld_works (h : Idle r) (hc : 0 < c) :
    Works c r hello (r.flushOld reduceOps hello c 0) := by
  rw [Reduce.flushOld, h.oldItem]
  have hpop : ({ r with oldItem := some c, oldFlag := true } : Reduce ℤ).pop
      = (some c, { r with oldItem := none, oldFlag := true }) := rfl
  simp only [isSome_none, Bool.false_eq_true, if_false]
  rw [handOn_eq hpop hc]
  exact ⟨_, _, rfl, .handed ⟨rfl, rfl, h.batchnum, h.items⟩ rfl hc rfl⟩

theorem rReduceLoop_eq (items : List ℤ) (hpos : ∀ c ∈ items, 0 < c) (hits : r.items = items)
    (hold : r.oldFlag = false) (count : ℤ) :
    rReduceLoop r count = ({ r with items := [] }, count + items.sum) := by
  induction items generalizing r count with
  | nil =>
    have hpop : r.pop = (none, { r with items := [] }) := by
      rw [Reduce.pop, hold, hits]
      rfl
    rw [rReduceLoop]
    split
    · rename_i h
      cases hpop.symm.trans h
    rename_i h
    cases hpop.symm.trans h
    rw [sum_nil, add_zero]
  | cons c items ih =>
    have hpop : r.pop = (some c, { r with items := items }) := by
      rw [Reduce.pop, hold, hits]
      rfl
    rw [rReduceLoop]
    split
    · rename_i h
      cases hpop.symm.trans h
      have hrest := ih (r := { r with items := items })
        (fun d hd => hpos d (mem_cons_of_mem c hd)) rfl hold (count + c)
      rw [if_pos (hpos c mem_cons_self), hrest, sum_cons, add_assoc]
    · rename_i h
      cases hpop.symm.trans h

theorem rReduce_eq (hold : r.oldFlag = false) (hc : 0 < c) (hd : 0 < d)
    (hits : r.items = [c, d]) :
    rReduce r 0 hello = some ({ r with items := [c + d] }, hello) := by
  have hpos : ∀ e ∈ [c, d], 0 < e := by
    intro e he
    simp only [mem_cons, not_mem_nil, or_false] at he
    omega
  have hsum : (0 : ℤ) + [c, d].sum = c + d := by simp
  rw [rReduce, if_neg (not_not.2 rfl), rReduceLoop_eq [c, d] hpos hits hold, hsum]
  dsimp only
  rw [if_pos (by omega)]
  rfl

theorem Works.bind (h : Works c r hello result)
    (hf : ∀ r' hello', Idle r' → Works 0 r' hello' (f (r', hello'))) :
    Works c r hello (result.bind f) := by
  obtain ⟨r', hello', rfl, hmv⟩ := h
  obtain ⟨r'', hello'', heq, hmv'⟩ := hf r' hello' hmv.idle
  exact ⟨r'', hello'', heq, add_zero c ▸ hmv.trans hmv'⟩

theorem works_same (h : Idle r) : Works 0 r hello (some (r, hello)) :=
  ⟨r, hello, rfl, .kept h rfl (add_zero _).symm⟩

theorem flushHwm_works (h : Idle r) : Works 0 r hello (r.flushHwm reduceOps hello) := by
  rw [Reduce.flushHwm]
  split
  · exact flushCurrent_works h
  · exact works_same h

theorem flushUnheld_works (h : Idle r) :
    Works 0 r hello (r.armTimer.flushUnheld reduceOps hello) := by
  have harm : Idle r.armTimer ∧ r.armTimer.items = r.items ∧ r.armTimer.rank = r.rank := by
    rw [Reduce.armTimer]
    split
    · exact ⟨{ h with }, rfl, rfl⟩
    · exact ⟨h, rfl, rfl⟩
  have hmv : Moves 0 r hello r.armTimer hello :=
    .kept harm.1 harm.2.2 (by rw [harm.2.1, add_zero])
  have hfls : Works 0 r.armTimer hello (r.armTimer.flushUnheld reduceOps hello) := by
    rw [Reduce.flushUnheld]
    split
    · exact flushCurrent_works harm.1
    · exact works_same harm.1
  obtain ⟨r', hello', heq, hmv'⟩ := hfls
  exact ⟨r', hello', heq, hmv.trans hmv'⟩

theorem reduceItems_works (h : Idle r) (hc : 0 < c) (count : UInt32) : Works c r hello
      (({ r with count, items := c :: r.items } : Reduce ℤ).reduceItems reduceOps hello) := by
  obtain hnil | ⟨d, hd, hcons⟩ := h.items
  · refine ⟨{ r with count, items := [c] }, hello, ?_, ?_⟩
    · rw [hnil]
      rfl
    · refine .kept { h with items := .inr ⟨c, hc, rfl⟩ } rfl ?_
      rw [hnil, sum_singleton, sum_nil, zero_add]
  refine ⟨{ r with count, items := [c + d] }, hello, ?_, ?_⟩
  · rw [hcons]
    have hreduce : rReduce { r with count, items := [c, d] } 0 hello
        = some ({ r with count, items := [c + d] }, hello) := rReduce_eq h.oldFlag hc hd rfl
    rw [← h.batchnum] at hreduce
    exact hreduce
  · refine .kept { h with items := .inr ⟨c + d, by omega, rfl⟩ } rfl ?_
    rw [hcons, sum_singleton, sum_singleton, add_comm]

theorem appendCurrent_works (h : Idle r) (hc : 0 < c) :
    Works c r hello (r.appendCurrent reduceOps hello c (rItemweight c) 0) := by
  rw [Reduce.appendCurrent, if_neg (not_not.2 h.batchnum.symm)]
  refine (reduceItems_works h hc _).bind fun r' hello' h' => ?_
  exact (flushHwm_works h').bind fun r'' hello'' h'' => flushUnheld_works h''

/-- **Appending:** no assertion fails, and the count is kept or handed on. -/
theorem append_works (h : Idle r) (hc : 0 < c) :
    Works c r hello (r.append reduceOps hello c 0) := by
  have hold : ¬ 0 < r.batchnum - 1 := by
    rw [h.batchnum]
    omega
  have hlast : ¬ 0 = r.batchnum - 1 := by
    rw [h.batchnum]
    omega
  have hnext : ¬ 0 > r.batchnum := by
    rw [h.batchnum]
    omega
  rw [Reduce.append, if_neg hold, if_neg hlast]
  by_cases hflsd : 0 = r.batchnum ∧ r.flushed = true
  · rw [if_pos hflsd]
    let r₁ : Reduce ℤ := { r with count := r.count + UInt32.ofInt (rItemweight c) }
    have hidle : Idle r₁ := { h with }
    obtain ⟨r', hello', heq, hmv⟩ : Works c r₁ hello (r₁.flushOld reduceOps hello c 0) :=
      flushOld_works hidle hc
    exact ⟨r', hello', heq, { hmv with }⟩
  · rw [if_neg hflsd, if_neg hnext]
    exact appendCurrent_works h hc

theorem create_eq (rank : ℕ) (hwm : ℤ) (timeout : ℚ) :
    Reduce.create reduceOps rank timeout (hwm > 0) (timeout > 0)
      = some { rank, hwmflush := hwm > 0, timedflush := timeout > 0 } := by
  rw [Reduce.create, if_neg]
  rintro (⟨-, h⟩ | ⟨h, h'⟩)
  · exact nomatch h
  · exact absurd h' (not_le.2 (of_decide_eq_true h))

/-- **Starting:** the handle of a rank begins with its own count. -/
theorem start_works (hello : Hello) (rank size : ℕ) (attrs : Option HelloAttrs) :
    ∃ r : Reduce ℤ, r.items = [] ∧ r.rank = rank ∧
      Works 1 r { hello with size } (hello.start rank size attrs) := by
  rw [start, create_eq, bind_some]
  exact ⟨_, rfl, rfl, append_works ⟨rfl, rfl, rfl, .inl rfl⟩ one_pos⟩

/-- **Handling a request:** the count of the request is kept or handed on. -/
theorem joinRequest_works (h : Idle r) (hcnt : 0 < msg.count) (hbatch : msg.batch = 0) :
    Works msg.count r hello (hello.joinRequest r msg) := by
  rw [joinRequest, if_neg (by omega), hbatch]
  exact append_works h hcnt

/-! ### Whole runs -/

/-- What a rank holds: its global count, and the counts in its handle. -/
def Node.held (node : Node) : ℤ := node.hello.count + node.reduce.elim 0 (·.items.sum)

/-- What a rank holds, less the count that it has brought in. -/
def Node.balance (node : Node) : ℤ := node.held - if node.reduce.isSome then 1 else 0

/-- A rank between two calls. Only rank 0 has a global count. -/
structure NodeOk (i : ℕ) (node : Node) : Prop where
  idle : ∀ r ∈ node.reduce, Idle r
  rank : ∀ r ∈ node.reduce, r.rank = i
  size : node.reduce.isSome → node.hello.size = top.size
  joins : node.hello.joins = []
  nonneg : 0 ≤ node.hello.count
  root : i ≠ 0 ∨ top.size ≤ i → node.hello.count = 0

/-- What the ranks hold and the requests carry, less what has been brought in. -/
def excess (net : Net Node Join) : ℤ :=
  net.total top.size (fun _ node => node.balance) fun p => p.2.count

/-- **The invariant:** what the ranks hold and the requests carry is what has been brought in. -/
structure Counted (s : Instance) : Prop where
  aborted : s.aborted = false
  nodes : ∀ i, NodeOk top i (s.net.node i)
  flight : ∀ p ∈ s.net.flight, p.1 < top.size ∧ 0 < p.2.count ∧ p.2.batch = 0
  total : excess top s.net = 0

variable {top} {s t : Instance} {i : ℕ}

theorem Counted.finish (haborted : s.aborted = false) (hi : i < top.size)
    (hns : ∀ j, NodeOk top j (net.node j))
    (hfl : ∀ p ∈ net.flight, p.1 < top.size ∧ 0 < p.2.count ∧ p.2.batch = 0)
    (hrank : r.rank = i) (hworks : Works c r hello result) (hsize : hello.size = top.size)
    (hjoins : hello.joins = []) (hcnt : hello.count = (net.node i).hello.count)
    (htot : excess top net + (r.items.sum + hello.count + c - 1) = (net.node i).balance) :
    Counted top (Hello.finish top s net i result) := by
  obtain ⟨r', hello', rfl, hmv⟩ := hworks
  refine ⟨haborted, Net.forall_act ?_ hns, ?_, ?_⟩
  · refine ⟨?_, ?_, fun _ => hmv.size.trans hsize, rfl, ?_, fun h => ?_⟩
    · rintro _ ⟨⟩
      exact hmv.idle
    · rintro _ ⟨⟩
      exact hmv.rank.trans hrank
    · exact (hns i).nonneg.trans (hcnt ▸ hmv.count_le)
    · have hne : i ≠ 0 := h.resolve_right (not_le.2 hi)
      exact (hmv.count_eq (hrank ▸ hne)).trans (hcnt.trans ((hns i).root h))
  · intro p hp
    rcases mem_append.1 hp with hp | hp
    · exact hfl p hp
    obtain ⟨msg, hmsg, rfl⟩ := List.mem_map.1 hp
    -- Rank 0 sends no request, and the parent of another rank is a rank.
    have hne : i ≠ 0 := by
      intro h
      rw [hmv.joins_eq (hrank.trans h), hjoins] at hmsg
      exact not_mem_nil hmsg
    refine ⟨(top.parent_lt i hne).trans hi, (hmv.joins msg hmsg).resolve_left fun h => ?_⟩
    rw [hjoins] at h
    exact not_mem_nil h
  · let node' : Node := { hello := { hello' with joins := [] }, reduce := some r' }
    let out := hello'.joins.map fun msg => (top.parent i, msg)
    have hact : excess top (net.act i node' out) + (net.node i).balance
        = excess top net + (node'.balance + (out.map fun p => p.2.count).sum) :=
      Net.total_act net _ _ node' out hi
    have hout : (out.map fun p => p.2.count) = hello'.joins.map Join.count := List.map_map
    have hnew : node'.balance + (out.map fun p => p.2.count).sum
        = r.items.sum + hello.count + c - 1 := by
      have hsum := hmv.balance
      simp only [worth, hjoins, map_nil, sum_nil, add_zero] at hsum
      simp only [hout, node', Node.balance, Node.held, elim_some, isSome_some, if_true]
      omega
    rw [hnew, htot] at hact
    exact add_eq_right.1 hact

theorem counted_start (hs : Start s) : Counted top s := by
  cases hs
  have hnone : ∀ r ∈ (none : Option (Reduce ℤ)), False := fun r => not_mem_none r
  refine ⟨rfl, fun i => ⟨fun r hr => (hnone r hr).elim, fun r hr => (hnone r hr).elim, nofun, rfl,
    le_rfl, fun _ => rfl⟩, forall_mem_nil _, ?_⟩
  simp [excess, Net.total, Node.balance, Node.held]

theorem Counted.step (h : Counted top s) (ht : (protocol top).step l s = some t) :
    Counted top t := by
  cases l with
  | start i attrs =>
    simp only [protocol, ite_none_right_eq_some, some_inj] at ht
    obtain ⟨⟨hi, hnone⟩, rfl⟩ := ht
    rw [isNone_iff_eq_none] at hnone
    obtain ⟨r, hits, hrank, hworks⟩ := start_works (s.net.node i).hello i top.size attrs
    refine .finish h.aborted hi h.nodes h.flight hrank hworks rfl (h.nodes i).joins rfl ?_
    rw [h.total, hits, Node.balance, Node.held, hnone]
    simp
  | timer i =>
    simp only [protocol] at ht
    split at ht
    · rename_i r hr
      simp only [ite_none_right_eq_some, some_inj] at ht
      obtain ⟨⟨hi, -⟩, rfl⟩ := ht
      refine .finish h.aborted hi h.nodes h.flight ((h.nodes i).rank r hr)
        (flushCurrent_works ((h.nodes i).idle r hr))
        ((h.nodes i).size (isSome_of_mem hr)) (h.nodes i).joins rfl ?_
      rw [h.total, Node.balance, Node.held, hr]
      simp
      omega
    · cases ht
  | join k =>
    simp only [protocol] at ht
    split at ht
    · rename_i i msg hk
      split at ht
      · rename_i r hr
        cases ht
        obtain ⟨hi, hcnt, hbatch⟩ := h.flight _ (mem_of_getElem? hk)
        have htake : excess top (s.net.take k) + msg.count = excess top s.net :=
          Net.total_take _ _ _ hk
        refine .finish h.aborted hi h.nodes (Net.forall_take h.flight) ((h.nodes i).rank r hr)
          (joinRequest_works ((h.nodes i).idle r hr) hcnt hbatch)
          ((h.nodes i).size (isSome_of_mem hr)) (h.nodes i).joins rfl ?_
        have hbal : ((s.net.take k).node i).balance
            = (s.net.node i).hello.count + r.items.sum - 1 := by
          change (s.net.node i).balance = _
          rw [Node.balance, Node.held, hr]
          rfl
        rw [h.total] at htake
        rw [hbal]
        omega
      · cases ht
    · cases ht

theorem Counted.of_reach (hs : (protocol top).Reach (fun _ _ => True) Start s) : Counted top s :=
  hs.invariant (Counted top) (fun _ => counted_start) fun _ _ _ _ h _ ht => h.step ht

theorem Counted.sum_held (h : Counted top s) : ∑ i ∈ Finset.range top.size, (s.net.node i).held
      + (s.net.flight.map fun p => p.2.count).sum = s.started top := by
  have hsum : ∑ i ∈ Finset.range top.size, (s.net.node i).balance
      = ∑ i ∈ Finset.range top.size, (s.net.node i).held - s.started top := by
    rw [Instance.started, ← Finset.sum_boole, ← Finset.sum_sub_distrib]
    rfl
  have htot := h.total
  rw [excess, Net.total, hsum] at htot
  omega

theorem Idle.sum_nonneg (h : Idle r) : 0 ≤ r.items.sum := by
  obtain hnil | ⟨c, hc, hcons⟩ := h.items
  · rw [hnil, sum_nil]
  · rw [hcons, sum_singleton]
    exact hc.le

theorem NodeOk.count_le_held (h : NodeOk top i node) : node.hello.count ≤ node.held := by
  rw [Node.held, le_add_iff_nonneg_right]
  cases hr : node.reduce with
  | none => exact le_rfl
  | some r => exact (h.idle r hr).sum_nonneg

theorem NodeOk.held_nonneg (h : NodeOk top i node) : 0 ≤ node.held :=
  h.nonneg.trans h.count_le_held

theorem Counted.count_le (h : Counted top s) : (s.net.node 0).hello.count ≤ s.started top := by
  rcases Nat.eq_zero_or_pos top.size with hzero | hpos
  · rw [(h.nodes 0).root (.inr hzero.le)]
    exact Int.natCast_nonneg _
  have hfl : 0 ≤ (s.net.flight.map fun p => p.2.count).sum := by
    refine List.sum_nonneg fun x hx => ?_
    obtain ⟨p, hp, rfl⟩ := List.mem_map.1 hx
    exact (h.flight p hp).2.1.le
  calc (s.net.node 0).hello.count
      ≤ (s.net.node 0).held := (h.nodes 0).count_le_held
    _ ≤ ∑ i ∈ Finset.range top.size, (s.net.node i).held :=
        Finset.single_le_sum (fun i _ => (h.nodes i).held_nonneg) (Finset.mem_range.2 hpos)
    _ ≤ s.started top := by
        rw [← h.sum_held]
        exact le_add_of_nonneg_right hfl

theorem Counted.count_eq (h : Counted top s) (hfl : s.net.flight = [])
    (hits : ∀ i < top.size, ∀ r ∈ (s.net.node i).reduce, r.items = []) :
    (s.net.node 0).hello.count = s.started top := by
  have hheld : ∀ i ∈ Finset.range top.size, (s.net.node i).held = (s.net.node i).hello.count := by
    intro i hi
    rw [Node.held, add_eq_left]
    cases hr : (s.net.node i).reduce with
    | none => rfl
    | some r => rw [elim_some, hits i (Finset.mem_range.1 hi) r hr, sum_nil]
  rw [← h.sum_held, hfl, map_nil, sum_nil, add_zero, Finset.sum_congr rfl hheld]
  symm
  refine Finset.sum_eq_single 0 (fun i _ hne => (h.nodes i).root (.inl hne)) fun hnot => ?_
  exact (h.nodes 0).root (.inr (not_lt.1 fun hlt => hnot (Finset.mem_range.2 hlt)))

/-- **The hello protocol counts every rank once.** No assertion fails and no broker exits. The
count on rank 0 is at most the number of ranks that have started, and it is the size of the
instance once all ranks have started and no request or count is on its way. -/
theorem counts_every_rank_once (hs : (protocol top).Reach (fun _ _ => True) Start s) :
    s.aborted = false ∧ (s.net.node 0).hello.count ≤ s.started top ∧
      (s.started top = top.size → s.net.flight = [] →
        (∀ i < top.size, ∀ r ∈ (s.net.node i).reduce, r.items = []) →
          (s.net.node 0).hello.count = top.size) := by
  have h := Counted.of_reach hs
  refine ⟨h.aborted, h.count_le, fun hall hfl hits => ?_⟩
  rw [h.count_eq hfl hits, hall]

/-- **A complete hello is over.** Once the count on rank 0 is the size of the instance, every rank
has started and no count is on its way. -/
theorem complete_settled (hs : (protocol top).Reach (fun _ _ => True) Start s)
    (hroot : (s.net.node 0).reduce.isSome) (hcmp : (s.net.node 0).hello.complete) :
    s.started top = top.size ∧ s.net.flight = [] := by
  have h := Counted.of_reach hs
  have hle : s.started top ≤ top.size :=
    (Finset.card_filter_le _ _).trans (Finset.card_range _).le
  have hcnt := h.count_le
  have hheld := (h.nodes 0).count_le_held
  rw [← hcmp, (h.nodes 0).size hroot] at hcnt hheld
  refine ⟨by omega, eq_nil_iff_forall_not_mem.2 fun p hp => ?_⟩
  -- Rank 0 holds all counts, and a request has a positive one.
  have hrank : 0 < top.size := Nat.zero_lt_of_lt (h.flight p hp).1
  have hnodes := Finset.single_le_sum (f := fun i => (s.net.node i).held)
    (fun i _ => (h.nodes i).held_nonneg) (Finset.mem_range.2 hrank)
  have hfl : 0 < (s.net.flight.map fun p => p.2.count).sum :=
    List.sum_pos _ (List.forall_mem_map.2 fun q hq => (h.flight q hq).2.1)
      (mt map_eq_nil_iff.1 (ne_nil_of_mem hp))
  have hsum := h.sum_held
  omega

/-- A chain of three brokers. -/
def chain : Topology where
  size := 3
  parent i := i - 1
  parent_lt i hi := by omega

/-- The ranks of the chain start from the middle. Rank 1 keeps its count until its timer fires;
the count of rank 2 comes after that, and is passed on by itself. -/
def straggler : List Label :=
  [.start 1 (some { hwm := 5, timeout := 1 }), .timer 1, .start 0 none, .start 2 none, .join 0,
    .join 0, .join 0]

/-- All ranks have started, and no request or count is on its way. -/
def Instance.quiet (top : Topology) (s : Instance) : Bool :=
  s.started top = top.size ∧ s.net.flight = [] ∧
    ∀ i < top.size, ∀ r ∈ (s.net.node i).reduce.toList, r.items = []

/-- All three ranks have been counted then. -/
theorem counts_every_rank_once_straggler :
    ∃ s, (protocol chain).run straggler {} = some s ∧ s.started chain = 3 ∧
      (s.net.node 0).hello.count = 3 := by
  have hrun : ((protocol chain).run straggler {}).map (·.quiet chain) = some true := by
    decide +kernel
  obtain ⟨s, hs, hqt⟩ := map_eq_some_iff.1 hrun
  obtain ⟨hstrt, hfl, hits⟩ := of_decide_eq_true hqt
  have hrch : (protocol chain).Reach (fun _ _ => True) Start s := .of_run (.start rfl) hs
  refine ⟨s, hs, hstrt, (counts_every_rank_once hrch).2.2 hstrt hfl ?_⟩
  exact fun i hi r hr => hits i hi r (mem_toList.2 hr)

/-- The hello of the chain is complete then. -/
theorem complete_settled_straggler :
    ∃ s, (protocol chain).run straggler {} = some s ∧ s.started chain = 3 ∧ s.net.flight = [] := by
  have hrun : ((protocol chain).run straggler {}).map (fun s => decide
      ((s.net.node 0).reduce.isSome ∧ ((s.net.node 0).hello.size : ℤ) = (s.net.node 0).hello.count))
        = some true := by
    decide +kernel
  obtain ⟨s, hs, hcmp⟩ := map_eq_some_iff.1 hrun
  obtain ⟨hroot, hcmp⟩ := of_decide_eq_true hcmp
  exact ⟨s, hs, complete_settled (.of_run (.start rfl) hs) hroot hcmp⟩

end Hello

end FluxCore.Broker
