import FluxCore.Broker.Topology
import FluxCore.Lib.Machine
import FluxCore.Lib.Net

/-!
# The Barrier Module

A client enters a named barrier with a request to the module on its rank, which counts it. A rank
whose count reaches `nprocs` sends an exit event; on the other ranks a timer is armed, and when
it fires the counts are passed upstream and start again from zero. The exit event goes up to rank
0 and from there to all ranks, where the module answers the clients that have entered and forgets
the barrier, so that the name can be used again.

The modules of an instance are a machine. Different barriers share only the timer of a rank, so
the state is kept by name: a `Slot` has what all ranks and links have of one barrier. Requests on
their way up may overtake each other, and a client's request is handled when the client enters;
events and counts reach the module on a rank in the order in which its broker has passed them.
-/

namespace FluxCore.Barriers

/-- `barrier_t`. The clients are those that have entered on this rank. -/
structure Barrier where
  nprocs : ℕ
  count : ℕ := 0
  clients : List ℕ := []
deriving DecidableEq

/-- A `barrier.enter` request. -/
structure Enter where
  count : ℕ
  nprocs : ℕ
deriving DecidableEq

/-- What a module receives from its broker: a request of a module downstream, or an exit event
with its `errnum`. -/
inductive Msg
  | enter (req : Enter)
  | exit (errnum : ℕ)
deriving DecidableEq

/-- `EEXIST`. -/
def eexist : ℕ := 17

/-- `ECONNABORTED`. -/
def econnaborted : ℕ := 103

/-! ### The handlers of a module -/

/-- What comes of a request: the barrier, the state of the timer, the exit events that are sent
and the clients that are answered, each with an `errnum`. -/
structure Reply where
  barrier : Barrier
  armed : Bool
  exits : List ℕ := []
  answers : List (ℕ × ℕ) := []
deriving DecidableEq

/-- `barrier_add_client`. -/
def barrierAddClient (b : Barrier) (sender : ℕ) : Option Barrier :=
  if sender ∈ b.clients then none else some { b with clients := b.clients ++ [sender] }

/-- The end of `enter_request_cb`: the request is counted, and the barrier is terminated or the
timer is armed. -/
def addCount (rank : ℕ) (armed : Bool) (b : Barrier) (count : ℕ) : Reply :=
  let b := { b with count := b.count + count }
  if b.count = b.nprocs then { barrier := b, armed, exits := [0] }
  else { barrier := b, armed := armed || decide (rank > 0) }

/-- `enter_request_cb`. The sender is known if it is a client, and not a module downstream. -/
def enterRequestCb (rank : ℕ) (armed : Bool) (barrier : Option Barrier) (sender : Option ℕ)
    (req : Enter) : Reply :=
  let b := barrier.getD { nprocs := req.nprocs }
  match sender with
  | none => addCount rank armed b req.count
  | some client =>
    match barrierAddClient b client with
    | none =>
      { barrier := b, armed, exits := [econnaborted], answers := [(client, eexist)] }
    | some b => addCount rank armed b req.count

/-- `exit_event_cb`: the answers to the clients that have entered. The barrier is forgotten. -/
def exitEventCb (barrier : Option Barrier) (errnum : ℕ) : List (ℕ × ℕ) :=
  barrier.elim [] fun b => b.clients.map fun client => (client, errnum)

/-- `timeout_cb`, for one barrier: the barrier afterwards, and the request that is sent. -/
def timeoutCb (barrier : Option Barrier) : Option Barrier × Option Enter :=
  match barrier with
  | none => (none, none)
  | some b =>
    if b.count > 0 then
      (some { b with count := 0 }, some { count := b.count, nprocs := b.nprocs })
    else (some b, none)

/-! ### The modules of an instance -/

/-- The module on a rank, as far as one barrier goes: the barrier if it is known, what the broker
has passed to the module and it has not yet handled, and how many exit events it has handled. -/
structure Module where
  barrier : Option Barrier := none
  inbox : List Msg := []
  handled : ℕ := 0
deriving DecidableEq

/-- One barrier in an instance: the modules and the requests on their way to a rank; the exit
events on the way up, on the links down from the parent of a rank, and all that were published;
how often each client has entered and was answered with success; and the other answers. -/
structure Slot where
  net : Net Module Enter := ⟨fun _ => {}, []⟩
  rising : List ℕ := []
  down : ℕ → List ℕ := fun _ => []
  published : List ℕ := []
  entered : ℕ → ℕ := fun _ => 0
  answered : ℕ → ℕ := fun _ => 0
  refused : List (ℕ × ℕ) := []

/-- Who uses the barriers: the clients of each barrier and the ranks they are on. -/
structure Users (N : Type) (top : Broker.Topology) where
  members : N → Finset ℕ
  rank : ℕ → ℕ
  rank_lt : ∀ n, ∀ c ∈ members n, rank c < top.size
  size_pos : 0 < top.size

/-- The state of an instance: its barriers, and the ranks whose timer is armed. -/
structure System (N : Type) where
  slot : N → Slot := fun _ => {}
  armed : ℕ → Bool := fun _ => false

/-- What happens: a client enters a barrier; the timer of a rank fires; a request reaches the
broker it is for; an exit event reaches rank 0, or the broker of another rank from its parent; or
the module on a rank handles the oldest message of a barrier. -/
inductive Label (N : Type)
  | enter (n : N) (client : ℕ)
  | timer (r : ℕ)
  | arrive (n : N) (k : ℕ)
  | publish (n : N) (k : ℕ)
  | relay (n : N) (r : ℕ)
  | handle (n : N) (r : ℕ)

namespace Slot

/-- Clients are answered. -/
def answer (s : Slot) (answers : List (ℕ × ℕ)) : Slot :=
  { s with
      answered := fun c => s.answered c + answers.count (c, 0)
      refused := s.refused ++ answers.filter fun a => a.2 ≠ 0 }

/-- The end of `enter_request_cb` on a rank. -/
def settle (s : Slot) (r : ℕ) (m : Module) (reply : Reply) : Slot :=
  answer
    { s with
        net := s.net.act r { m with barrier := some reply.barrier } []
        rising := s.rising ++ reply.exits } reply.answers

variable (top : Broker.Topology)

/-- The broker of a rank handles an exit event: it goes to the children, and to the module. -/
def handleEvent (s : Slot) (r errnum : ℕ) : Slot :=
  { s with
      net := s.net.act r
        { s.net.node r with inbox := (s.net.node r).inbox ++ [.exit errnum] } []
      down := fun c => if c ≠ 0 ∧ top.parent c = r then s.down c ++ [errnum] else s.down c }

/-- The timer of a rank fires. -/
def timeout (s : Slot) (r : ℕ) : Slot :=
  let m := s.net.node r
  let res := timeoutCb m.barrier
  { s with
      net := s.net.act r { m with barrier := res.1 }
        (res.2.toList.map fun req => (top.parent r, req)) }

/-- A request reaches the broker it is for. -/
def arrive (s : Slot) (k : ℕ) : Option Slot :=
  match s.net.flight[k]? with
  | some (r, req) =>
    let m := s.net.node r
    some { s with net := (s.net.take k).act r { m with inbox := m.inbox ++ [.enter req] } [] }
  | none => none

/-- An exit event reaches rank 0. -/
def publish (s : Slot) (k : ℕ) : Option Slot :=
  match s.rising[k]? with
  | some errnum =>
    some (handleEvent top
      { s with
          rising := s.rising.eraseIdx k
          published := s.published ++ [errnum] } 0 errnum)
  | none => none

/-- An exit event reaches a rank from its parent. -/
def relay (s : Slot) (r : ℕ) : Option Slot :=
  match s.down r with
  | errnum :: rest =>
    some (handleEvent top { s with down := Function.update s.down r rest } r errnum)
  | [] => none

/-- A client enters. -/
def enter (s : Slot) (r : ℕ) (armed : Bool) (client nprocs : ℕ) : Slot × Bool :=
  let m := s.net.node r
  let reply := enterRequestCb r armed m.barrier (some client) { count := 1, nprocs }
  let entered := Function.update s.entered client (s.entered client + 1)
  (settle { s with entered } r m reply, reply.armed)

/-- The module on a rank handles its oldest message. -/
def handle (s : Slot) (r : ℕ) (armed : Bool) : Option (Slot × Bool) :=
  let m := s.net.node r
  match m.inbox with
  | [] => none
  | .enter req :: rest =>
    let reply := enterRequestCb r armed m.barrier none req
    some (s.settle r { m with inbox := rest } reply, reply.armed)
  | .exit errnum :: rest =>
    let m' := { m with barrier := none, inbox := rest, handled := m.handled + 1 }
    some (answer { s with net := s.net.act r m' [] } (exitEventCb m.barrier errnum), armed)

end Slot

section

variable {N : Type} [DecidableEq N] {top : Broker.Topology}

/-- A new state of one barrier, and of the timer of one rank. -/
def System.set (s : System N) (n : N) (r : ℕ) (res : Slot × Bool) : System N where
  slot := Function.update s.slot n res.1
  armed := Function.update s.armed r res.2

/-- A new state of one barrier. -/
def System.setSlot (s : System N) (n : N) (slot : Slot) : System N :=
  { s with slot := Function.update s.slot n slot }

/-- The modules of an instance as a machine. A client may enter if it has been answered as often
as it has entered. -/
def machine (users : Users N top) : Machine (System N) (Label N) where
  step l s :=
    match l with
    | .enter n client =>
      if client ∈ users.members n ∧ (s.slot n).entered client = (s.slot n).answered client then
        let r := users.rank client
        some (s.set n r ((s.slot n).enter r (s.armed r) client (users.members n).card))
      else none
    | .timer r =>
      if r < top.size ∧ s.armed r then
        some
          { slot := fun n => (s.slot n).timeout top r
            armed := Function.update s.armed r false }
      else none
    | .arrive n k => ((s.slot n).arrive k).map (s.setSlot n)
    | .publish n k => ((s.slot n).publish top k).map (s.setSlot n)
    | .relay n r =>
      if r ≠ 0 ∧ r < top.size then ((s.slot n).relay top r).map (s.setSlot n) else none
    | .handle n r =>
      if r < top.size then ((s.slot n).handle r (s.armed r)).map (s.set n r) else none

end

end FluxCore.Barriers
