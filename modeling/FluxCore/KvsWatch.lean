import FluxCore.Kvs.Key
import FluxCore.Lib.Machine
import FluxCore.Util.Message

/-!
# The kvs-watch Module

This module models `kvs-watch.c`, which follows the commits of a namespace and looks a key
up again, for each watcher, at every root at which it may have changed.

Namespaces, watchers and the futures of lookups are objects that point to each other: a
namespace lists its watchers, a watcher lists the futures of its lookups in commit order,
and the continuation of a future is called with its watcher. They are therefore kept by
address, and to follow a pointer to an object that has been destroyed is a fault, as is
the failure of an assertion. Allocations and sends do not fail.

The machine takes one turn of the reactor per step. A lookup is answered (`reply`) and its
continuation is run (`continuation`) in different turns, and the lookups of a watcher are
answered in any order.
-/

namespace FluxCore.KvsWatch

open Kvs

/-- The lookup flags that the module reads: `FLUX_KVS_WATCH`, `FLUX_KVS_WAITCREATE`,
`FLUX_KVS_WATCH_FULL` and `FLUX_KVS_WATCH_UNIQ`. -/
structure Flags where
  watch : Bool := false
  waitcreate : Bool := false
  watchFull : Bool := false
  watchUniq : Bool := false
deriving DecidableEq

/-- `struct commit`. No keys are known of a root that was not set by a `kvs.setroot`
event. -/
structure Commit where
  rootref : Blobref
  rootseq : ℤ
  keys : List String := []
deriving DecidableEq

/-- `struct namespace`. The watchers are listed by address; `getrootf` tells whether the
initial `kvs.getroot` request is outstanding. -/
structure Namespace where
  name : String
  owner : UInt32 := useridUnknown
  commit : Option Commit := none
  fatalErrnum : Option Errno := none
  errnum : Option Errno := none
  watchers : List ℕ := []
  getrootf : Bool := false

/-- Set the current commit, and the owner if it is not known yet. -/
def Namespace.setCommit (n : Namespace) (commit : Commit) (owner : UInt32) : Namespace :=
  { n with commit := some commit, owner := if n.owner = useridUnknown then owner else n.owner }

/-- A `kvs.lookup-plus` request. Without `root` it is answered at the root that the KVS has
by then. -/
structure LookupPlus where
  key : String
  namespaceName : String
  flags : Flags
  root : Option (Blobref × ℤ)
  cred : Cred

section

variable {V : Type}

/-- `struct watcher`. The lookups are listed by the address of their future. -/
structure Watcher (V : Type) where
  sender : String
  matchtag : UInt32
  cred : Cred
  key : String
  flags : Flags
  ns : ℕ
  rootseq : ℤ := -1
  cancelled : Bool := false
  mute : Bool := false
  responded : Bool := false
  initialRpcSent : Bool := false
  initialRpcReceived : Bool := false
  finished : Bool := false
  initialRootseq : ℤ := 0
  lookups : List ℕ := []
  prev : Option V := none

/-- What a lookup is answered with. -/
inductive Reply (V : Type)
  | value (val : V) (rootseq : ℤ)
  | enoent (rootseq : ℤ)
  | error (errnum : Errno)

/-- The root sequence number that a reply reports. -/
def Reply.rootseq : Reply V → Option ℤ
  | .value _ rootseq => some rootseq
  | .enoent rootseq => some rootseq
  | .error _ => none

/-- What a watcher is sent. The root sequence number of a value is history: it is the one of
the reply that the value was taken from. -/
inductive Response (V : Type)
  | value (val : V) (rootseq : ℤ)
  | error (errnum : Errno)
deriving DecidableEq

/-- The future of a lookup, with the watcher that its continuation is called with. `ran`
tells that the continuation has been called. -/
structure Future (V : Type) where
  watcher : ℕ
  initial : Bool
  request : LookupPlus
  reply : Option (Reply V) := none
  ran : Bool := false

/-- One turn of the loop of `lookup_continuation`: the reply that was handled, the watcher
before and after it, and what was sent. -/
structure Handled (V : Type) where
  watcher : ℕ
  initial : Bool
  reply : Reply V
  before : Watcher V
  after : Watcher V
  sent : List (Response V)

/-- The state of the module. The hash of namespaces has their addresses. The last four fields
are history: what each watcher was sent, the requests that were refused, the replies that
were handled and the watchers that were destroyed, with the lookups they had then. -/
structure State (V : Type) where
  names : List (String × ℕ) := []
  namespaces : ℕ → Option Namespace := fun _ => none
  watchers : ℕ → Option (Watcher V) := fun _ => none
  futures : ℕ → Option (Future V) := fun _ => none
  next : ℕ := 0
  sent : ℕ → List (Response V) := fun _ => []
  refused : List (String × UInt32 × Errno) := []
  handled : List (Handled V) := []
  destroyed : List (ℕ × List ℕ) := []

/-- Why the module stops: an assertion fails, or a destroyed object is used. -/
inductive Fault
  | assertion
  | useAfterFree
deriving DecidableEq

/-! ### Handling one reply -/

/-- `check_authorization`. -/
def checkAuthorization (ns : Namespace) (cred : Cred) : Bool :=
  cred.isOwner || (ns.owner != useridUnknown && cred.userid == ns.owner)

/-- `array_match`. -/
def arrayMatch (keys : List String) (key : String) : Bool := keys.contains key

/-- The exit `error` of `handle_lookup_response`, and `error_respond` of `watcher_respond`
up to the cleanup. -/
def Watcher.errorRespond (w : Watcher V) (errnum : Errno) : Watcher V × List (Response V) :=
  ({ w with finished := true }, if w.mute then [] else [.error errnum])

/-- `handle_initial_response`. -/
def handleInitialResponse (w : Watcher V) (val : V) (rootseq : ℤ) :
    Watcher V × List (Response V) :=
  ({ w with prev := if w.flags.watchFull || w.flags.watchUniq then some val else w.prev,
            initialRootseq := rootseq, responded := true },
    [.value val rootseq])

/-- `handle_normal_response`. -/
def handleNormalResponse (w : Watcher V) (val : V) (rootseq : ℤ) :
    Watcher V × List (Response V) :=
  ({ w with responded := true }, [.value val rootseq])

variable [DecidableEq V]

/-- `handle_compare_response`. -/
def handleCompareResponse (w : Watcher V) (val : V) (rootseq : ℤ) :
    Watcher V × List (Response V) :=
  if w.responded && w.prev = some val then (w, [])
  else ({ w with prev := some val, responded := true }, [.value val rootseq])

/-- `handle_lookup_response`, for the reply of the initial lookup and of a later one. -/
def handleLookupResponse (initial : Bool) (reply : Reply V) (w : Watcher V) :
    Watcher V × List (Response V) :=
  if initial then
    let w := { w with initialRpcReceived := true }
    match reply with
    | .enoent rootseq =>
      if w.flags.waitcreate && !w.responded then ({ w with initialRootseq := rootseq }, [])
      else w.errorRespond .ENOENT
    | .error errnum => w.errorRespond errnum
    | .value val rootseq => handleInitialResponse w val rootseq
  else
    match reply with
    | .enoent _ => w.errorRespond .ENOENT
    | .error errnum => w.errorRespond errnum
    | .value val rootseq =>
      if rootseq < w.initialRootseq then (w, [])
      else if w.mute then (w, [])
      else if w.flags.watchFull || w.flags.watchUniq then handleCompareResponse w val rootseq
      else handleNormalResponse w val rootseq

/-- One turn of the loop of `lookup_continuation`, for the watcher at address `i`. -/
def handleReady (i : ℕ) (initial : Bool) (reply : Reply V) (w : Watcher V) : Handled V :=
  let r := if w.finished then (w, []) else handleLookupResponse initial reply w
  { watcher := i, initial := initial, reply := reply, before := w, after :=
      if r.1.responded && r.1.flags.waitcreate && !r.1.flags.watch then
        { r.1 with finished := true }
      else r.1,
    sent := r.2 }

end

namespace State

section

variable {V : Type} (s : State V)

/-! ### Objects -/

/-- Write the namespace at address `i`. -/
def setNamespace (i : ℕ) (ns : Namespace) : State V :=
  { s with namespaces := Function.update s.namespaces i (some ns) }

/-- Write the watcher at address `i`. -/
def setWatcher (i : ℕ) (w : Watcher V) : State V :=
  { s with watchers := Function.update s.watchers i (some w) }

/-- Write the future at address `f`. -/
def setFuture (f : ℕ) (fut : Future V) : State V :=
  { s with futures := Function.update s.futures f (some fut) }

/-- `flux_future_destroy`. -/
def futureDestroy (f : ℕ) : State V :=
  { s with futures := Function.update s.futures f none }

/-- `flux_respond_pack` and `flux_respond_error`, to the watcher at address `i`. -/
def send (i : ℕ) (responses : List (Response V)) : State V :=
  { s with sent := Function.update s.sent i (s.sent i ++ responses) }

/-- `watcher_destroy`, of the watcher `w` at address `i`. -/
def watcherDestroy (i : ℕ) (w : Watcher V) : State V :=
  { w.lookups.foldl futureDestroy s with
    watchers := Function.update s.watchers i none, destroyed := s.destroyed ++ [(i, w.lookups)] }

/-- The loop of `namespace_destroy` over its watchers. -/
def destroyWatchers : List ℕ → State V → Except Fault (State V)
  | [], s => .ok s
  | i :: is, s =>
    match s.watchers i with
    | none => .error .useAfterFree
    | some w => destroyWatchers is (s.watcherDestroy i w)

/-- `zhash_delete` of a namespace, which is destroyed by `namespace_destroy`. -/
def deleteNamespace (name : String) : Except Fault (State V) :=
  match s.names.lookup name with
  | none => .ok s
  | some i =>
    match s.namespaces i with
    | none => .error .useAfterFree
    | some ns =>
      (destroyWatchers ns.watchers s).map fun s =>
        { s with names := s.names.filter fun p => p.1 != name,
                 namespaces := Function.update s.namespaces i none }

/-! ### Responding to watchers -/

/-- `watcher_cleanup`. -/
def watcherCleanup (ns i : ℕ) : Except Fault (State V) :=
  match s.namespaces ns, s.watchers i with
  | some n, some w =>
    let watchers := if w.lookups.isEmpty then n.watchers.erase i else n.watchers
    let t :=
      if w.lookups.isEmpty then
        (s.setNamespace ns { n with watchers := watchers }).watcherDestroy i w
      else s
    if watchers.isEmpty && !n.getrootf then t.deleteNamespace n.name else .ok t
  | _, _ => .error .useAfterFree

/-- The end of a turn of the loop of `lookup_continuation`: the responses are sent, the
watcher is updated and the future `f` is destroyed. -/
def endTurn (f : ℕ) (turn : Handled V) : State V :=
  { ((s.futureDestroy f).send turn.watcher turn.sent).setWatcher turn.watcher turn.after with
    handled := s.handled ++ [turn] }

/-- `lookupat` and `process_lookup_response`: send a lookup at the root of `commit`, or the
initial one, and queue its future. -/
def processLookupResponse (n : Namespace) (commit : Commit) (i : ℕ) (w : Watcher V) : State V :=
  { (s.setFuture s.next
      { watcher := i, initial := !w.initialRpcSent, request :=
          { key := w.key, namespaceName := n.name, flags := w.flags,
            root := if w.initialRpcSent then some (commit.rootref, commit.rootseq) else none,
            cred := w.cred } }).setWatcher i
      { w with initialRpcSent := true, lookups := w.lookups ++ [s.next],
               rootseq := commit.rootseq } with
    next := s.next + 1 }

/-- The exit `error_respond` of `watcher_respond`. -/
def errorRespond (ns i : ℕ) (w : Watcher V) (errnum : Errno) : Except Fault (State V) :=
  ((s.send i (w.errorRespond errnum).2).setWatcher i (w.errorRespond errnum).1).watcherCleanup ns i

/-- `watcher_respond`. -/
def watcherRespond (ns i : ℕ) : Except Fault (State V) :=
  match s.namespaces ns, s.watchers i with
  | some n, some w =>
    if w.finished then s.watcherCleanup ns i
    else if w.cancelled then s.errorRespond ns i w .ENODATA
    else
      match n.fatalErrnum, n.errnum, n.commit with
      | some errnum, _, _ => s.errorRespond ns i w errnum
      | none, some errnum, _ =>
        if w.flags.waitcreate && errnum = .ENOTSUP && !w.responded then
          .ok (s.setNamespace ns { n with errnum := none })
        else s.errorRespond ns i w errnum
      | none, none, none => .error .assertion
      | none, none, some commit =>
        if commit.rootseq ≤ w.rootseq then .ok s
        else if !checkAuthorization n w.cred then s.errorRespond ns i w .EPERM
        else if w.rootseq = -1 || w.flags.watchFull || arrayMatch commit.keys w.key then
          .ok (s.processLookupResponse n commit i w)
        else .ok s
  | _, _ => .error .useAfterFree

/-- The loop of `watcher_respond_ns` over the copied list of watchers. -/
def respondEach (ns : ℕ) : List ℕ → State V → Except Fault (State V)
  | [], s => .ok s
  | i :: is, s => (s.watcherRespond ns i).bind (respondEach ns is)

/-- `watcher_respond_ns`. -/
def watcherRespondNs (ns : ℕ) : Except Fault (State V) :=
  match s.namespaces ns with
  | none => .error .useAfterFree
  | some n => respondEach ns n.watchers s

/-- `watcher_cancel`. -/
def watcherCancel (ns : ℕ) (sender : String) (matchtag : UInt32) (mute : Bool) (i : ℕ) :
    Except Fault (State V) :=
  match s.watchers i with
  | none => .error .useAfterFree
  | some w =>
    if matchtag ≠ matchtagNone ∧ matchtag ≠ w.matchtag then .ok s
    else if sender = w.sender then
      (s.setWatcher i { w with cancelled := true, mute := mute }).watcherRespond ns i
    else .ok s

/-- The loop of `watcher_cancel_ns` over the copied list of watchers. -/
def cancelEach (ns : ℕ) (sender : String) (matchtag : UInt32) (mute : Bool) :
    List ℕ → State V → Except Fault (State V)
  | [], s => .ok s
  | i :: is, s =>
    (s.watcherCancel ns sender matchtag mute i).bind (cancelEach ns sender matchtag mute is)

/-- `watcher_cancel_ns`. -/
def watcherCancelNs (sender : String) (matchtag : UInt32) (mute : Bool) (ns : ℕ) :
    Except Fault (State V) :=
  match s.namespaces ns with
  | none => .error .useAfterFree
  | some n => cancelEach ns sender matchtag mute n.watchers s

/-- The loop of `watcher_cancel_all` over the copied list of names. -/
def watcherCancelAll (sender : String) (matchtag : UInt32) (mute : Bool) :
    List String → State V → Except Fault (State V)
  | [], s => .ok s
  | name :: names, s =>
    match s.names.lookup name with
    | none => .error .useAfterFree
    | some ns =>
      (s.watcherCancelNs sender matchtag mute ns).bind
        (watcherCancelAll sender matchtag mute names)

/-! ### Events and requests -/

/-- The namespace that `zhash_lookup` finds, with its address. -/
def lookupNamespace (name : String) : Option (ℕ × Namespace) :=
  (s.names.lookup name).bind fun i => (s.namespaces i).map fun n => (i, n)

/-- `removed_cb`. -/
def removedCb (name : String) : Except Fault (State V) :=
  match s.lookupNamespace name with
  | none => .ok s
  | some (i, n) => (s.setNamespace i { n with fatalErrnum := some .ENOTSUP }).watcherRespondNs i

/-- `namespace_created_cb`. -/
def namespaceCreatedCb (name : String) (rootseq : ℤ) (rootref : Blobref) (owner : UInt32) :
    Except Fault (State V) :=
  match s.lookupNamespace name with
  | none => .ok s
  | some (i, n) =>
    if n.commit.isSome then .ok s
    else
      (s.setNamespace i (n.setCommit { rootref := rootref, rootseq := rootseq } owner))
        |>.watcherRespondNs i

/-- `setroot_cb`. -/
def setrootCb (name : String) (rootseq : ℤ) (rootref : Blobref) (owner : UInt32)
    (keys : List String) : Except Fault (State V) :=
  match s.lookupNamespace name with
  | none => .ok s
  | some (i, n) =>
    if n.commit.any fun commit => decide (rootseq ≤ commit.rootseq) then .ok s
    else
      (s.setNamespace i (n.setCommit { rootref := rootref, rootseq := rootseq, keys := keys }
        owner)).watcherRespondNs i

/-- `namespace_getroot_continuation`, for the namespace at address `i`. The reply has the
sequence number, the blobref and the owner. -/
def namespaceGetrootContinuation (i : ℕ) (n : Namespace)
    (reply : Except Errno (ℤ × Blobref × UInt32)) : Except Fault (State V) :=
  if n.watchers.isEmpty then s.deleteNamespace n.name
  else if n.commit.isSome then .ok (s.setNamespace i { n with getrootf := false })
  else
    match reply with
    | .error errnum =>
      (s.setNamespace i { n with errnum := some errnum, getrootf := false }).watcherRespondNs i
    | .ok (rootseq, rootref, owner) =>
      (s.setNamespace i
        { n with commit := some { rootref := rootref, rootseq := rootseq }, owner := owner,
                 getrootf := false }).watcherRespondNs i

/-- Create a namespace, insert it into the hash and send its `kvs.getroot` request. -/
def newNamespace (name : String) : State V :=
  { s.setNamespace s.next { name := name, getrootf := true } with
    names := (name, s.next) :: s.names, next := s.next + 1 }

/-- `namespace_monitor`: the address of the namespace, which is created if it is not
monitored yet. -/
def namespaceMonitor (name : String) : ℕ × State V :=
  match s.names.lookup name with
  | some i => (i, s)
  | none => (s.next, s.newNamespace name)

/-- Thread a new watcher onto the namespace at address `i`. -/
def addWatcher (i : ℕ) (n : Namespace) (w : Watcher V) : State V :=
  { (s.setNamespace i { n with watchers := n.watchers ++ [s.next] }).setWatcher s.next w with
    next := s.next + 1 }

/-- `lookup_cb`. -/
def lookupCb (sender : String) (matchtag : UInt32) (cred : Cred) (name key : String)
    (flags : Flags) : Except Fault (State V) :=
  match kvsNamespacePrefix key with
  | .error errnum => .ok { s with refused := s.refused ++ [(sender, matchtag, errnum)] }
  | .ok split =>
    let (i, s) := s.namespaceMonitor (split.elim name Prod.fst)
    match s.namespaces i with
    | none => .error .useAfterFree
    | some n =>
      let t := s.addWatcher i n
        { sender := sender, matchtag := matchtag, cred := cred,
          key := kvsUtilNormalizeKey (split.elim key Prod.snd), flags := flags, ns := i }
      if n.commit.isSome then t.watcherRespond i s.next else .ok t

variable [DecidableEq V]

/-- The loop of `lookup_continuation` over the lookups of the watcher at address `i`: pop the
futures that are ready. -/
def popReady (i : ℕ) : List ℕ → State V → Except Fault (State V)
  | [], s => .ok s
  | f :: fs, s =>
    match s.watchers i, s.futures f with
    | some w, some fut =>
      match fut.reply with
      | none => .ok s
      | some reply =>
        popReady i fs
          (s.endTurn f (handleReady i fut.initial reply { w with lookups := fs }))
    | _, _ => .error .useAfterFree

/-- `lookup_continuation`, called with the watcher at address `i`. -/
def lookupContinuation (i : ℕ) : Except Fault (State V) :=
  match s.watchers i with
  | none => .error .useAfterFree
  | some w =>
    (popReady i w.lookups s).bind fun t =>
      match t.watchers i with
      | none => .error .useAfterFree
      | some w => if w.finished then t.watcherCleanup w.ns i else .ok t

end

end State

/-! ### The machine -/

/-- What the reactor can run into: requests, events, replies and continuations that are
due. -/
inductive Label (V : Type)
  | lookup (sender : String) (matchtag : UInt32) (cred : Cred) (name key : String) (flags : Flags)
  | cancel (sender : String) (matchtag : UInt32)
  | disconnect (sender : String)
  | setroot (name : String) (rootseq : ℤ) (rootref : Blobref) (owner : UInt32)
      (keys : List String)
  | created (name : String) (rootseq : ℤ) (rootref : Blobref) (owner : UInt32)
  | removed (name : String)
  | getroot (ns : ℕ) (reply : Except Errno (ℤ × Blobref × UInt32))
  | reply (f : ℕ) (reply : Reply V)
  | continuation (f : ℕ)

/-- A lookup at a fixed root is answered at that root. -/
def Answers {V : Type} (request : LookupPlus) (reply : Reply V) : Prop :=
  ∀ root ∈ request.root, ∀ rootseq ∈ reply.rootseq, rootseq = root.2

instance {V : Type} (request : LookupPlus) (reply : Reply V) :
    Decidable (Answers request reply) :=
  inferInstanceAs (Decidable (∀ root ∈ request.root, ∀ rootseq ∈ reply.rootseq, rootseq = root.2))

section

variable {V : Type} [DecidableEq V]

/-- One turn of the reactor, if the label is enabled. -/
def State.turn (s : State V) : Label V → Option (Except Fault (State V))
  | .lookup sender matchtag cred name key flags =>
    some (s.lookupCb sender matchtag cred name key flags)
  | .cancel sender matchtag =>
    some (State.watcherCancelAll sender matchtag false (s.names.map Prod.fst) s)
  | .disconnect sender =>
    some (State.watcherCancelAll sender matchtagNone true (s.names.map Prod.fst) s)
  | .setroot name rootseq rootref owner keys => some (s.setrootCb name rootseq rootref owner keys)
  | .created name rootseq rootref owner => some (s.namespaceCreatedCb name rootseq rootref owner)
  | .removed name => some (s.removedCb name)
  | .getroot i reply =>
    match s.namespaces i with
    | none => none
    | some n => if n.getrootf then some (s.namespaceGetrootContinuation i n reply) else none
  | .reply f reply =>
    match s.futures f with
    | none => none
    | some fut =>
      if fut.reply.isNone ∧ Answers fut.request reply then
        some (.ok (s.setFuture f { fut with reply := some reply }))
      else none
  | .continuation f =>
    match s.futures f with
    | none => none
    | some fut =>
      if fut.reply.isSome ∧ fut.ran = false then
        some ((s.setFuture f { fut with ran := true }).lookupContinuation fut.watcher)
      else none

/-- The machine. It stops at a fault. -/
def machine : Machine (Except Fault (State V)) (Label V) where
  step
    | l, .ok s => s.turn l
    | _, .error _ => none

end

end FluxCore.KvsWatch
