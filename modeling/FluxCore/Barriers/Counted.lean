import Mathlib.Algebra.Order.BigOperators.Group.List
import Mathlib.Algebra.Order.Group.Nat
import FluxCore.Barriers

/-!
# The Counts on One Rank

A count of a barrier is spent once it has terminated the barrier, though it stays until the exit
event is handled. The other counts are of clients that still wait to be joined by the rest. Such
counts are found only where all exit events that were sent have been before: in a barrier of a
module that has handled them, or behind them in its inbox.
-/

namespace FluxCore.Barriers

open List Option

/-- Is the message an exit event? -/
def Msg.isExit : Msg → Bool
  | .enter _ => false
  | .exit _ => true

/-- The count in a message. -/
def Msg.worth : Msg → ℕ
  | .enter req => req.count
  | .exit _ => 0

/-- The number of exit events in an inbox. -/
def exits (inbox : List Msg) : ℕ := inbox.countP Msg.isExit

@[simp] theorem exits_nil : exits [] = 0 := rfl

@[simp] theorem exits_append (l l' : List Msg) : exits (l ++ l') = exits l + exits l' :=
  countP_append

@[simp] theorem exits_enter (req : Enter) (l : List Msg) : exits (.enter req :: l) = exits l :=
  countP_cons_of_neg (by simp [Msg.isExit])

@[simp] theorem exits_exit (errnum : ℕ) (l : List Msg) :
    exits (.exit errnum :: l) = exits l + 1 :=
  countP_cons_of_pos rfl

/-- The count of a barrier, unless it has terminated the barrier. -/
def unspent (barrier : Option Barrier) : ℕ :=
  barrier.elim 0 fun b => if b.count = b.nprocs then 0 else b.count

/-- The count of a barrier. -/
def countOf (barrier : Option Barrier) : ℕ := barrier.elim 0 Barrier.count

/-- The clients that have entered on a rank. -/
def clientsOf (barrier : Option Barrier) : List ℕ := barrier.elim [] Barrier.clients

variable {rest : List Msg}

namespace Module

/-- The counts on a rank that have not terminated the barrier. -/
def held (m : Module) : ℕ := unspent m.barrier + (m.inbox.map Msg.worth).sum

/-- The exit events that the broker has passed to the module. -/
def through (m : Module) : ℕ := m.handled + exits m.inbox

/-- A module in an instance in which `sent` exit events have been sent and the barrier has
`size` clients: counts that have not terminated the barrier are behind all these events. Such
a count of a barrier is `armed` for being passed upstream. -/
structure Ok (size sent : ℕ) (armed : Prop) (m : Module) : Prop where
  nprocs : ∀ b, m.barrier = some b → b.nprocs = size ∧ 0 < size
  msg : ∀ req, .enter req ∈ m.inbox → 0 < req.count ∧ req.nprocs = size
  current : unspent m.barrier ≠ 0 → m.handled = sent ∧ armed
  done : ∀ b, m.barrier = some b → b.count = b.nprocs → m.handled < sent
  inbox : ∀ pre req post, m.inbox = pre ++ .enter req :: post → m.handled + exits pre = sent

variable {size sent : ℕ} {armed armed' : Prop} {m : Module}

section

variable (h : m.Ok size sent armed)
include h

theorem Ok.mono (harm : armed → armed') : m.Ok size sent armed' :=
  { h with current := fun hne => (h.current hne).imp_right harm }

theorem Ok.notMem_of_held (hheld : m.held = 0) (req : Enter) :
    .enter req ∉ m.inbox := by
  intro hreq
  have hzero : (m.inbox.map Msg.worth).sum = 0 := by
    rw [held] at hheld
    omega
  have hworth : Msg.worth (.enter req) = 0 :=
    sum_eq_zero_iff.1 hzero _ (List.mem_map_of_mem hreq)
  have := (h.msg req hreq).1
  rw [Msg.worth] at hworth
  omega

theorem Ok.sent_succ (hheld : m.held = 0) :
    m.Ok size (sent + 1) armed where
  nprocs := h.nprocs
  msg := h.msg
  current hne := by
    rw [held] at hheld
    omega
  done b hb hcnt := Nat.lt_succ_of_lt (h.done b hb hcnt)
  inbox pre req post heq := by
    have hmem : .enter req ∈ m.inbox := by
      rw [heq]
      exact mem_append_right _ (mem_cons_self ..)
    exact absurd hmem (h.notMem_of_held hheld req)

/-- A message is put at the end of the inbox: an exit event, or a request if all exit events that
were sent have been passed on before. -/
theorem Ok.receive {msg : Msg}
    (hreq : ∀ req, msg = .enter req → 0 < req.count ∧ req.nprocs = size ∧ m.through = sent) :
    ({ m with inbox := m.inbox ++ [msg] } : Module).Ok size sent armed where
  nprocs := h.nprocs
  msg req hmem := by
    rcases mem_append.1 hmem with hmem | hmem
    · exact h.msg req hmem
    · obtain ⟨hpos, hn, -⟩ := hreq req (mem_singleton.1 hmem).symm
      exact ⟨hpos, hn⟩
  current := h.current
  done := h.done
  inbox pre req post heq := by
    rcases eq_nil_or_concat post with rfl | ⟨init, last, rfl⟩
    · obtain ⟨rfl, hmsg⟩ := append_inj' heq rfl
      exact (hreq req (singleton_inj.1 hmsg)).2.2
    have hinit : m.inbox = pre ++ .enter req :: init := by
      have hall : m.inbox ++ [msg] = (pre ++ .enter req :: init) ++ [last] := by
        simpa using heq
      exact (append_inj' hall rfl).1
    exact h.inbox pre req init hinit

theorem Ok.inbox_tail {msg : Msg} (hib : m.inbox = msg :: rest) (pre : List Msg) (req : Enter)
    (post : List Msg) (heq : rest = pre ++ .enter req :: post) :
    m.handled + exits [msg] + exits pre = sent := by
  have := h.inbox (msg :: pre) req post (by rw [hib, heq, cons_append])
  rw [← singleton_append, exits_append] at this
  omega

/-- **An exit event is handled:** the barrier is forgotten, and no count is lost with it. -/
theorem Ok.exit {errnum : ℕ} {rest : List Msg} (hib : m.inbox = .exit errnum :: rest)
    (hsent : m.through ≤ sent) : unspent m.barrier = 0 ∧
      ({ m with barrier := none, inbox := rest, handled := m.handled + 1 } : Module).Ok
        size sent armed := by
  have hlt : m.handled < sent := by
    rw [through, hib, exits_exit] at hsent
    omega
  refine ⟨?_, ?_⟩
  · by_contra hne
    have := (h.current hne).1
    omega
  · refine ⟨fun b hb => (nomatch hb), fun req hreq => ?_, fun hne => absurd rfl hne,
      fun b hb => (nomatch hb), fun pre req post heq => ?_⟩
    · exact h.msg req (hib ▸ mem_cons_of_mem _ hreq)
    · exact h.inbox_tail hib pre req post heq

/-- A request at the head of the inbox: all exit events that were sent have been handled, and
the count of the barrier has not terminated it. -/
theorem Ok.current_of_head (hib : m.inbox = .enter req :: rest) :
    m.handled = sent ∧ unspent m.barrier = countOf m.barrier := by
  have hsent : m.handled = sent := h.inbox [] req rest hib
  refine ⟨hsent, ?_⟩
  cases hb : m.barrier with
  | none => rfl
  | some b =>
    refine if_neg fun hcnt => ?_
    have := h.done b hb hcnt
    omega

/-- **A request is counted**, and the barrier is not yet complete. -/
theorem Ok.add {req : Enter} (hib : m.inbox = .enter req :: rest) {b : Barrier}
    (hn : b.nprocs = size) (hpos : 0 < size) (hne : b.count ≠ b.nprocs) (harm : armed') :
    ({ m with barrier := some b, inbox := rest } : Module).Ok size sent armed' where
  nprocs b' hb' := by
    obtain rfl := some.inj hb'
    exact ⟨hn, hpos⟩
  msg req hreq := h.msg req (hib ▸ mem_cons_of_mem _ hreq)
  current _ := ⟨(h.current_of_head hib).1, harm⟩
  done b' hb' hcnt := by
    obtain rfl := some.inj hb'
    exact absurd hcnt hne
  inbox pre req post heq := by
    have := h.inbox_tail hib pre req post heq
    simpa using this

/-- **A request completes the barrier**, and an exit event is sent. No other count is left. -/
theorem Ok.finish (hib : m.inbox = .enter req :: rest) (hn : b.nprocs = size) (hpos : 0 < size)
    (hcnt : b.count = b.nprocs) (hrest : (rest.map Msg.worth).sum = 0) :
    ({ m with barrier := some b, inbox := rest } : Module).Ok size (sent + 1) armed' := by
  have hspent : unspent (some b) = 0 := if_pos hcnt
  have hmsg : ∀ req, .enter req ∈ rest → 0 < req.count ∧ req.nprocs = size :=
    fun req hreq => h.msg req (hib ▸ mem_cons_of_mem _ hreq)
  refine ⟨fun b' hb' => ?_, hmsg, fun hne => absurd hspent hne, fun b' hb' _ => ?_,
    fun pre req post heq => ?_⟩
  · obtain rfl := some.inj hb'
    exact ⟨hn, hpos⟩
  · exact Nat.lt_succ_of_le (h.current_of_head hib).1.le
  · have hmem : .enter req ∈ rest := by
      change rest = _ at heq
      rw [heq]
      exact mem_append_right _ (mem_cons_self ..)
    have hworth : Msg.worth (.enter req) = 0 :=
      sum_eq_zero_iff.1 hrest _ (List.mem_map_of_mem hmem)
    exact absurd hworth (hmsg req hmem).1.ne'

theorem Ok.prepend (hpos : 0 < req.count) (hn : req.nprocs = size) (hsent : m.handled = sent) :
    ({ m with inbox := .enter req :: m.inbox } : Module).Ok size sent armed where
  nprocs := h.nprocs
  msg req' hreq' := by
    rcases mem_cons.1 hreq' with heq | hreq'
    · cases heq
      exact ⟨hpos, hn⟩
    · exact h.msg req' hreq'
  current := h.current
  done := h.done
  inbox pre req' post heq := by
    rcases cons_eq_append_iff.1 heq with ⟨rfl, -⟩ | ⟨pre', rfl, hrest⟩
    · exact hsent
    · rw [exits_enter]
      exact h.inbox pre' req' post hrest

/-- **The timer fires:** the count is passed upstream, with nothing kept back. -/
theorem Ok.timeout (armed' : Prop) (hguard : ∀ b, m.barrier = some b → b.count ≠ b.nprocs) :
    ({ m with barrier := (timeoutCb m.barrier).1 } : Module).Ok size sent armed' ∧
      unspent (timeoutCb m.barrier).1 = 0 ∧
      unspent m.barrier = ((timeoutCb m.barrier).2.toList.map Enter.count).sum ∧
      ∀ req ∈ (timeoutCb m.barrier).2, 0 < req.count ∧ req.nprocs = size ∧ m.handled = sent := by
  cases hb : m.barrier with
  | none =>
    refine ⟨⟨fun b hb => (nomatch hb), h.msg, fun hne => absurd rfl hne, fun b hb => (nomatch hb),
      h.inbox⟩, rfl, rfl, fun req hreq => nomatch hreq⟩
  | some b =>
    obtain ⟨hn, hpos⟩ := h.nprocs b hb
    have hne := hguard b hb
    have huns : unspent m.barrier = b.count := by
      rw [hb]
      exact if_neg hne
    have hzero : unspent (some { b with count := 0 }) = 0 := by simp [unspent]
    rw [timeoutCb]
    split
    · rename_i hcnt
      refine ⟨⟨?_, h.msg, fun hne => absurd hzero hne, ?_, h.inbox⟩, hzero, ?_, ?_⟩
      · rintro b' hb'
        obtain rfl := some.inj hb'
        exact ⟨hn, hpos⟩
      · rintro b' hb' hzero
        obtain rfl := some.inj hb'
        change 0 = b.nprocs at hzero
        omega
      · rw [← hb, huns]
        simp
      · rintro req hreq
        obtain rfl := some.inj hreq
        exact ⟨hcnt, hn, (h.current (by omega)).1⟩
    · rename_i hcnt
      have hbzero : b.count = 0 := by omega
      have hnone : unspent (some b) = 0 := by
        rw [← hb, huns, hbzero]
      refine ⟨⟨?_, h.msg, fun hne => absurd hnone hne, ?_, h.inbox⟩, hnone, hnone, ?_⟩
      · rintro b' hb'
        obtain rfl := some.inj hb'
        exact ⟨hn, hpos⟩
      · rintro b' hb' hcnt
        obtain rfl := some.inj hb'
        exact absurd hcnt hne
      · rintro req hreq
        cases hreq

end

end Module

end FluxCore.Barriers
