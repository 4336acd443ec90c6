import FluxCore.Kvs.Unroll

/-!
# The Transaction State Machine

`kvstxn_process` drives a transaction through its states: it copies the root directory,
applies the operations to the copy, unrolls and stores the copy, and finishes once the
entries it has made dirty have been handed to the caller. It stalls when a directory blob
is not in the cache, and the caller then drains `kvstxn_iter_missing_refs`; it stalls
again with dirty entries to flush, and the caller then drains
`kvstxn_iter_dirty_cache_entries`.

The death of the process (an assertion that fails, an overflow of the stack) is modelled
by `none`.
-/

namespace FluxCore.Kvs

/-- The states of a transaction. -/
inductive State
  | init
  | loadRoot
  | applyOps
  | store
  | preFinished
  | finished
deriving DecidableEq, Repr

/-- The position of a state in the enumeration of the source. -/
def State.rank : State → ℕ
  | .init => 1
  | .loadRoot => 2
  | .applyOps => 3
  | .store => 4
  | .preFinished => 5
  | .finished => 6

/-- `struct kvstxn`. Operations are `none` where `txn_decode_op` rejects the JSON value;
the three Booleans are the bits of `internal_flags`. The fields `members` and `rootcpyRef`
are history: the numbers of the requests whose operations the transaction holds, and the
reference of the directory that was copied into `rootcpy`. -/
structure Kvstxn (ρ : Type) where
  id : TxnId
  errnum : Option Errno := none
  auxErrnum : Option Errno := none
  blocked : Bool := false
  ops : List (Option (Op ρ))
  keys : List String := []
  names : List String
  flags : ℕ
  rootcpy : Option (Treeobj ρ) := none
  newroot : Blobref := ""
  missingRefs : List Blobref := []
  dirtyCacheEntries : List Blobref := []
  processing : Bool := false
  merged : Bool := false
  mergeComponent : Bool := false
  state : State := .init
  members : List ℕ := []
  rootcpyRef : Blobref := ""

/-- The results of `kvstxn_process`. -/
inductive Process
  | error
  | loadMissingRefs
  | dirtyCacheEntries
  | finished
deriving DecidableEq, Repr

variable {ρ : Type}

/-- `kvstxn_get_newroot_ref`. -/
def kvstxnGetNewrootRef (kt : Kvstxn ρ) : Option Blobref :=
  if kt.state = .finished then some kt.newroot else none

/-- `kvstxn_fallback_mergeable`. -/
def kvstxnFallbackMergeable (kt : Kvstxn ρ) : Bool := kt.merged

/-! ### Cleaning up -/

/-- `kvstxn_cleanup_dirty_cache_entry`: in the two last states before `finished`, an entry
that has not been passed to the caller is made clean and removed from the cache. -/
def kvstxnCleanupDirtyCacheEntry (state : State) (ref : Blobref) (cache : Cache) : Option Cache :=
  if state = .store ∨ state = .preFinished then
    match cache ref with
    | some entry =>
      if entry.valid && entry.dirty && entry.waitlistNotdirty.isEmpty then
        match cacheRemoveEntry (cache.set ref (cacheEntryClearDirty entry)) ref with
        | (cache, true) => some cache
        | (_, false) => none
      else none
    | none => none
  else some cache

/-- `cleanup_dirty_cache_list`. -/
def cleanupDirtyCacheList (state : State) : List Blobref → Cache → Option Cache
  | [], cache => some cache
  | ref :: refs, cache =>
    (kvstxnCleanupDirtyCacheEntry state ref cache).bind (cleanupDirtyCacheList state refs)

/-! ### Keys for the `kvs.setroot` event -/

/-- `get_key_for_setroot`. -/
def getKeyForSetroot (key : String) : Option String :=
  match kvsNamespacePrefix key with
  | .error _ => none
  | .ok none => some (kvsUtilNormalizeKey key)
  | .ok (some (_, suffix)) => some (kvsUtilNormalizeKey suffix)

/-- `keys_from_ops`. -/
def keysFromOps (ops : List (Option (Op ρ))) : Option (List String) :=
  ops.mapM fun op => op.bind fun op => getKeyForSetroot op.key

/-! ### The states -/

section Machine

variable [DecidableEq ρ] (c : Codec) (ns : String) (stack depth epoch : ℕ)

/-- The working copy, the missing references found so far, and the memory. -/
structure Applied (ρ : Type) where
  rootcpy : Treeobj ρ
  missingRefs : List Blobref
  work : Work ρ

/-- The loop of the state `APPLY_OPS`: apply each operation in sequence to the root copy.
A missing reference is recorded and the loop goes on with the next operation. -/
def applyOps : List (Option (Op ρ)) → Applied ρ → Applied ρ × Option Fail
  | [], a => (a, none)
  | none :: _, a => (a, some (.errno .EPROTO))
  | some op :: ops, a =>
    match kvstxnLinkDirent c epoch ns op stack op.key a.rootcpy a.work with
    | (root, w, .fail f) => ({ a with rootcpy := root, work := w }, some f)
    | (root, w, .success) => applyOps ops { a with rootcpy := root, work := w }
    | (root, w, .stall ref) =>
      applyOps ops { rootcpy := root, missingRefs := ref :: a.missingRefs, work := w }

/-- The state of a transaction and the memory, as `kvstxn_process` changes them. -/
structure Processing (ρ : Type) where
  kt : Kvstxn ρ
  mem : Mem ρ

/-- The result of one state: stop with a result, or fall through to the next state. -/
inductive Next (ρ : Type)
  | ret (p : Processing ρ) (result : Process)
  | fall (p : Processing ρ)

/-- Return `KVSTXN_PROCESS_ERROR` with an `errno`. -/
def Processing.fail (p : Processing ρ) (e : Errno) : Next ρ :=
  .ret { p with kt := { p.kt with errnum := some e } } .error

/-- `stall_load`. -/
def Processing.stallLoad (p : Processing ρ) : Next ρ :=
  .ret { p with kt := { p.kt with blocked := true } } .loadMissingRefs

/-- `stall_store`. -/
def Processing.stallStore (p : Processing ρ) : Next ρ :=
  .ret { p with kt := { p.kt with blocked := true } } .dirtyCacheEntries

/-- `KVSTXN_STATE_INIT` and `KVSTXN_STATE_LOAD_ROOT`: make a copy of the root directory. -/
def processLoadRoot (rootdirRef : Blobref) (p : Processing ρ) : Next ρ :=
  if !p.kt.missingRefs.isEmpty then p.stallLoad
  else
    let cache := cacheLookup p.mem.cache rootdirRef epoch
    let p := { p with kt := { p.kt with state := .loadRoot }, mem := { p.mem with cache := cache } }
    match cache rootdirRef with
    | none => Processing.stallLoad { p with kt := { p.kt with missingRefs := [rootdirRef] } }
    | some entry =>
      if !entry.valid then
        Processing.stallLoad { p with kt := { p.kt with missingRefs := [rootdirRef] } }
      else
        match cacheEntryGetTreeobj c entry with
        | none => p.fail .ENOTRECOVERABLE
        | some rootdir =>
          .fall { p with kt := { p.kt with rootcpy := some rootdir.copy, state := .applyOps,
                                           rootcpyRef := rootdirRef } }

/-- `KVSTXN_STATE_APPLY_OPS`. -/
def processApplyOps (p : Processing ρ) : Option (Next ρ) :=
  if !p.kt.missingRefs.isEmpty then some p.stallLoad
  else
    match p.kt.rootcpy with
    | none => none
    | some rootcpy =>
      let (a, f) := applyOps c ns stack epoch p.kt.ops
        { rootcpy := rootcpy, missingRefs := [],
          work := { p.mem with self := p.kt.id, dirtyCacheEntries := p.kt.dirtyCacheEntries } }
      let p : Processing ρ :=
        { kt := { p.kt with rootcpy := some a.rootcpy, missingRefs := a.missingRefs,
                            dirtyCacheEntries := a.work.dirtyCacheEntries }
          mem := a.work.toMem }
      match f with
      | some .crash => none
      | some (.errno e) => some (Processing.fail { p with kt := { p.kt with missingRefs := [] } } e)
      | none =>
        if !p.kt.missingRefs.isEmpty then some p.stallLoad
        else some (.fall { p with kt := { p.kt with state := .store } })

/-- The body of `KVSTXN_STATE_STORE`: unroll the root copy and store it. -/
def storeRoot (rootcpy : Treeobj ρ) (w : Work ρ) : Treeobj ρ × Work ρ × Except Fail Blobref :=
  match rootcpy with
  | .dir dir =>
    match kvstxnUnroll c epoch depth dir w with
    | (dir, w, some f) => (.dir dir, w, .error f)
    | (dir, w, none) =>
      match storeCache c epoch (.tree (.dir dir.plain)) w with
      | (w, .error e) => (.dir dir, w, .error (.errno e))
      | (w, .ok newroot) => (.dir dir, w, .ok newroot)
  | root => (root, w, .error .crash)

/-- `KVSTXN_STATE_STORE`. -/
def processStore (p : Processing ρ) : Option (Next ρ) :=
  match p.kt.rootcpy with
  | none => none
  | some rootcpy =>
    match storeRoot c depth epoch rootcpy
        { p.mem with self := p.kt.id, dirtyCacheEntries := p.kt.dirtyCacheEntries } with
    | (_, _, .error .crash) => none
    | (rootcpy, w, .error (.errno e)) =>
      (cleanupDirtyCacheList p.kt.state w.dirtyCacheEntries w.cache).map fun cache =>
        Processing.fail
          { kt := { p.kt with rootcpy := some rootcpy, dirtyCacheEntries := [] }
            mem := { w.toMem with cache := cache } } e
    | (_, w, .ok newroot) =>
      some (.fall
        { kt := { p.kt with rootcpy := none, newroot := newroot, state := .preFinished,
                            dirtyCacheEntries := w.dirtyCacheEntries }
          mem := w.toMem })

/-- `KVSTXN_STATE_PRE_FINISHED`. -/
def processPreFinished (p : Processing ρ) : Next ρ :=
  if !p.kt.dirtyCacheEntries.isEmpty then p.stallStore
  else
    match keysFromOps p.kt.ops with
    | none => p.fail .ENOMEM
    | some keys => .fall { p with kt := { p.kt with keys := keys, state := .finished } }

/-- Go on with the next state, or stop. -/
def Next.andThen (n : Next ρ) (f : Processing ρ → Option (Processing ρ × Process)) :
    Option (Processing ρ × Process) :=
  match n with
  | .ret p result => some (p, result)
  | .fall p => f p

/-- The part of the `switch` from `KVSTXN_STATE_PRE_FINISHED` on. -/
def processFromPreFinished (p : Processing ρ) : Option (Processing ρ × Process) :=
  (processPreFinished p).andThen fun p => some (p, .finished)

/-- The part of the `switch` from `KVSTXN_STATE_STORE` on. -/
def processFromStore (p : Processing ρ) : Option (Processing ρ × Process) :=
  (processStore c depth epoch p).bind fun n => n.andThen processFromPreFinished

/-- The part of the `switch` from `KVSTXN_STATE_APPLY_OPS` on. -/
def processFromApplyOps (p : Processing ρ) : Option (Processing ρ × Process) :=
  (processApplyOps c ns stack epoch p).bind fun n => n.andThen (processFromStore c depth epoch)

/-- `kvstxn_process`. -/
def kvstxnProcess (rootdirRef : Blobref) (p : Processing ρ) : Option (Processing ρ × Process) :=
  if p.kt.errnum.isSome then some (p, .error)
  else if !p.kt.processing then
    some ({ p with kt := { p.kt with errnum := some .EINVAL } }, .error)
  else
    match p.kt.state with
    | .init | .loadRoot =>
      (processLoadRoot c epoch rootdirRef p).andThen
        (processFromApplyOps c ns stack depth epoch)
    | .applyOps => processFromApplyOps c ns stack depth epoch p
    | .store => processFromStore c depth epoch p
    | .preFinished => processFromPreFinished p
    | .finished => some (p, .finished)

end Machine

/-! ### Draining the lists -/

/-- The loop over a list of references that stops at the first callback that fails and
then cleans up the rest. The callback works on some state of the caller. -/
def iterRefs {σ : Type} (cb : Blobref → σ → Option (σ × Option Errno))
    (cleanup : List Blobref → σ → Option σ) : List Blobref → σ → Option (σ × Option Errno)
  | [], s => some (s, none)
  | ref :: refs, s =>
    (cb ref s).bind fun r =>
      match r with
      | (s, some e) => (cleanup refs s).map fun s => (s, some e)
      | (s, none) => iterRefs cb cleanup refs s

/-- `kvstxn_iter_missing_refs`: hand each missing reference to the callback. When a
callback fails the rest of the list is dropped. -/
def kvstxnIterMissingRefs {σ : Type} (cb : Blobref → σ → Option (σ × Option Errno))
    (kt : Kvstxn ρ) (s : σ) : Option (Kvstxn ρ × σ × Option Errno) :=
  if kt.state ≠ .loadRoot ∧ kt.state ≠ .applyOps then some (kt, s, some .EINVAL)
  else
    (iterRefs cb (fun _ s => some s) kt.missingRefs s).map fun r =>
      ({ kt with missingRefs := [] }, r)

/-- `kvstxn_iter_dirty_cache_entries`: hand each dirty entry to the callback. When a
callback fails the entries that are left are cleaned up with `cleanup`. -/
def kvstxnIterDirtyCacheEntries {σ : Type} (cb : Blobref → σ → Option (σ × Option Errno))
    (cleanup : List Blobref → σ → Option σ) (kt : Kvstxn ρ) (s : σ) :
    Option (Kvstxn ρ × σ × Option Errno) :=
  if kt.state ≠ .preFinished then some (kt, s, some .EINVAL)
  else
    (iterRefs cb cleanup kt.dirtyCacheEntries s).map fun r =>
      ({ kt with dirtyCacheEntries := [] }, r)

end FluxCore.Kvs
