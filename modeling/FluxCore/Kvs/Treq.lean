import FluxCore.Kvs.Mgr
import FluxCore.Lib.Machine

/-!
# Commit and Fence Requests

A `kvs.commit` or `kvs.fence` request is filed on the rank that receives it under the name
of its transaction: a name that is made up from the rank and a counter for a commit, and
the name that the user has chosen for a fence. Ranks other than 0 relay the request to
rank 0, where a fence gathers its operations until the number of processes is reached and
the transaction is put into the ready queue. When rank 0 has finished a transaction it
sends an event with the names of the transaction, and each rank answers the requests that
it has filed under these names.

The machine of this file is the KVS modules of all ranks for one namespace that all of
them know. How a transaction of the ready queue ends is left open here: the label `finish`
carries the outcome.
-/

namespace FluxCore.Kvs

/-- `struct treq`. The field `members` is history: the requests whose operations have been
added. -/
structure Treq where
  nprocs : ℤ
  flags : ℕ
  count : ℕ := 0
  requests : List ℕ := []
  ops : List (Option (Op Empty)) := []
  processed : Bool := false
  members : List ℕ := []

/-- `treq_create`. -/
def treqCreate (nprocs : ℤ) (flags : ℕ) : Except Errno Treq :=
  if nprocs ≤ 0 then .error .EINVAL else .ok { nprocs := nprocs, flags := flags }

/-- The name that `treq_create_rank` makes up. -/
def treqRankName (rank seq : ℕ) : String := "treq." ++ toString rank ++ "." ++ toString seq

/-- `treq_count_reached`. -/
def treqCountReached (tr : Treq) : Bool := (tr.count : ℤ) = tr.nprocs

/-- `treq_add_request_ops`, for the operations of request `req`. -/
def treqAddRequestOps (tr : Treq) (ops : List (Option (Op Empty))) (req : ℕ) :
    Except Errno Treq :=
  if (tr.count : ℤ) = tr.nprocs then .error .EOVERFLOW
  else
    .ok { tr with ops := tr.ops ++ ops, count := tr.count + 1, members := tr.members ++ [req] }

/-- `treq_add_request_copy`. -/
def treqAddRequestCopy (tr : Treq) (req : ℕ) : Treq := { tr with requests := req :: tr.requests }

namespace Instance

/-- A `kvs.relaycommit` or, with `nprocs`, a `kvs.relayfence` request. -/
structure Relay where
  name : String
  ops : List (Option (Op Empty))
  flags : ℕ
  nprocs : Option ℤ
  req : ℕ

/-- A `kvs.setroot` or, with `errnum`, a `kvs.error` event. -/
structure Event where
  names : List String
  errnum : Option Errno

/-- The state of all ranks. `events` are those that a rank has not received yet; requests
are numbered; `answers` and `committed` are history: the responses that were sent and the
requests whose operations were committed. -/
structure State where
  seq : ℕ → ℕ := fun _ => 0
  treqs : ℕ → String → Option Treq := fun _ _ => none
  relays : List Relay := []
  ready : List (Kvstxn Empty) := []
  events : ℕ → List Event := fun _ => []
  nextReq : ℕ := 0
  nextTxn : ℕ := 0
  answers : List (ℕ × Option Errno) := []
  committed : List ℕ := []

/-- What can happen. A relayed request and an event are chosen by their position among
those that are on their way. -/
inductive Label
  | commitRequest (rank : ℕ) (ops : List (Option (Op Empty))) (flags : ℕ)
  | fenceRequest (rank : ℕ) (name : String) (nprocs : ℤ) (flags : ℕ)
      (ops : List (Option (Op Empty)))
  | relay (i : ℕ)
  | merge
  | finish (errnum : Option Errno)
  | event (rank : ℕ) (i : ℕ)

namespace State

variable (s : State)

/-- `flux_respond`. -/
def respond (req : ℕ) (errnum : Option Errno) : State :=
  { s with answers := (req, errnum) :: s.answers }

/-- File `tr` under `name` on a rank. -/
def setTreq (rank : ℕ) (name : String) (tr : Treq) : State :=
  { s with treqs := fun r n => if r = rank ∧ n = name then some tr else s.treqs r n }

/-- `treq_mgr_remove_transaction`. -/
def removeTreq (rank : ℕ) (name : String) : State :=
  { s with treqs := fun r n => if r = rank ∧ n = name then none else s.treqs r n }

/-- `kvstxn_mgr_add_transaction` on rank 0. -/
def addTransaction (name : String) (ops : List (Option (Op Empty))) (flags : ℕ)
    (members : List ℕ) : State :=
  { s with ready := kvstxnMgrAddTransaction s.ready ⟨"", s.nextTxn⟩ name ops flags members,
           nextTxn := s.nextTxn + 1 }

/-- `setroot_event_send` and `error_event_send`. -/
def broadcast (ev : Event) : State := { s with events := fun r => s.events r ++ [ev] }

/-- The last part of `relayfence_request_cb`, and of `fence_request_cb` on rank 0: add the
operations to `tr`, and put the transaction into the ready queue when its count is
reached. The error is left to the caller; `none` is the failure of the assertion that the
transaction has not been processed before. -/
def addFenceOps (tr : Treq) (name : String) (ops : List (Option (Op Empty))) (req : ℕ) :
    Option (State × Option Errno) :=
  match treqAddRequestOps tr ops req with
  | .error e => some (s, some e)
  | .ok tr =>
    if treqCountReached tr then
      if tr.processed then none
      else
        some ((s.setTreq 0 name { tr with processed := true }).addTransaction name tr.ops
          tr.flags tr.members, none)
    else some (s.setTreq 0 name tr, none)

/-- `commit_request_cb`. -/
def commitRequestCb (rank : ℕ) (ops : List (Option (Op Empty))) (flags : ℕ) : State :=
  let req := s.nextReq
  let name := treqRankName rank (s.seq rank)
  let s := { s with nextReq := req + 1,
                    seq := fun r => if r = rank then s.seq r + 1 else s.seq r }
  match s.treqs rank name with
  | some _ => s.respond req (some .EEXIST)
  | none =>
    let tr := treqAddRequestCopy { nprocs := 1, flags := flags } req
    if rank = 0 then
      (s.setTreq rank name { tr with processed := true }).addTransaction name ops flags [req]
    else
      { s.setTreq rank name tr with
        relays := s.relays ++ [⟨name, ops, flags, none, req⟩] }

/-- `fence_request_cb`. -/
def fenceRequestCb (rank : ℕ) (name : String) (nprocs : ℤ) (flags : ℕ)
    (ops : List (Option (Op Empty))) : Option State :=
  let req := s.nextReq
  let s := { s with nextReq := req + 1 }
  match (s.treqs rank name).elim (treqCreate nprocs flags) .ok with
  | .error e => some (s.respond req (some e))
  | .ok tr =>
    if tr.flags ≠ flags ∨ tr.nprocs ≠ nprocs then some (s.respond req (some .EINVAL))
    else
      let tr := treqAddRequestCopy tr req
      let s := s.setTreq rank name tr
      if rank = 0 then
        (s.addFenceOps tr name ops req).map fun r =>
          match r with
          | (s, some e) => s.respond req (some e)
          | (s, none) => s
      else some { s with relays := s.relays ++ [⟨name, ops, flags, some nprocs, req⟩] }

/-- `relaycommit_request_cb` and `relayfence_request_cb`. An error is sent to everyone who
waits for the name. -/
def relayCb (m : Relay) : Option State :=
  match m.nprocs with
  | none => some (s.addTransaction m.name m.ops m.flags [m.req])
  | some nprocs =>
    match (s.treqs 0 m.name).elim (treqCreate nprocs m.flags) .ok with
    | .error e => some (s.broadcast ⟨[m.name], some e⟩)
    | .ok tr =>
      let s := s.setTreq 0 m.name tr
      if tr.flags ≠ m.flags ∨ tr.nprocs ≠ nprocs then
        some (s.broadcast ⟨[m.name], some .EINVAL⟩)
      else
        (s.addFenceOps tr m.name m.ops m.req).map fun r =>
          match r with
          | (s, some e) => s.broadcast ⟨[m.name], some e⟩
          | (s, none) => s

/-- The end of `kvstxn_apply` for the head of the ready queue. -/
def finish (errnum : Option Errno) : Option State :=
  (kvstxnMgrGetReadyTransaction s.ready).map fun r =>
    match errnum with
    | none =>
      { s with ready := kvstxnMgrRemoveTransaction r.1 r.2 false,
               committed := s.committed ++ r.2.members }.broadcast ⟨r.2.names, none⟩
    | some e =>
      let s := { s with ready := kvstxnMgrRemoveTransaction r.1 r.2 (kvstxnFallback r.2 e) }
      if kvstxnFallback r.2 e then s else s.broadcast ⟨r.2.names, some e⟩

/-- `finalize_transaction_bynames`. -/
def finalizeTransactionBynames (rank : ℕ) (errnum : Option Errno) : List String → State → State
  | [], s => s
  | name :: names, s =>
    match s.treqs rank name with
    | none => finalizeTransactionBynames rank errnum names s
    | some tr =>
      finalizeTransactionBynames rank errnum names
        ((tr.requests.foldl (fun s req => s.respond req errnum) s).removeTreq rank name)

end State

/-- The machine. -/
def machine : Machine State Label where
  step
    | .commitRequest rank ops flags, s => some (s.commitRequestCb rank ops flags)
    | .fenceRequest rank name nprocs flags ops, s => s.fenceRequestCb rank name nprocs flags ops
    | .relay i, s =>
      (s.relays[i]?).bind fun m => { s with relays := s.relays.eraseIdx i }.relayCb m
    | .merge, s =>
      (kvstxnMgrGetReadyTransaction s.ready).map fun r =>
        { s with ready := kvstxnMgrMergeReadyTransactions ⟨"", s.nextTxn⟩ r.1,
                 nextTxn := s.nextTxn + 1 }
    | .finish errnum, s => s.finish errnum
    | .event rank i, s =>
      ((s.events rank)[i]?).map fun ev =>
        State.finalizeTransactionBynames rank ev.errnum ev.names
          { s with events := fun r => if r = rank then (s.events r).eraseIdx i else s.events r }

end Instance

end FluxCore.Kvs
