import FluxCore.Kvs.Cache
import FluxCore.Kvs.Key

/-!
# Applying One Operation to the Working Copy

This module models the part of `modules/kvs/kvstxn.c` that links a directory entry into
the working copy of the root directory: `store_cache`, `kvstxn_append` and
`kvstxn_link_dirent`. All of it is state passing over `Work`, which holds the blob cache,
the directory objects that operations own, and the list of entries the transaction has
made dirty.

The walk down a key is a recursion along its components. The source follows a symbolic
link by calling `kvstxn_link_dirent` again with the key it has put together; here the
walk returns `restart` with that key, and `kvstxnLinkDirent` starts again at the root. The
number of restarts is bounded by the size of the C stack, the parameter `stack`; a chain
of links that exceeds it kills the process, which is the outcome `crash`.
-/

namespace FluxCore.Kvs

/-- How a computation fails: with an `errno`, or with the death of the process (an
assertion or an overflow of the stack). -/
inductive Fail
  | errno (e : Errno)
  | crash
deriving DecidableEq, Repr

/-- One operation of a transaction: it assigns `dirent` to `key`. The null entry, `none`,
removes the key. -/
structure Op (ρ : Type) where
  key : String
  flags : ℕ
  dirent : Option (Treeobj ρ)
deriving DecidableEq

variable {ρ : Type}

/-- `flags & FLUX_KVS_APPEND`. -/
def Op.append (op : Op ρ) : Bool := op.flags.testBit 5

/-- The memory that transactions work on. `objs` holds the directory objects that
operations own; `noopStores` the blobs whose store found the blob already in the cache
(the source keeps their number); `woken` the waiters that were released, with the entry
that they waited for; `entered` is history, the directory objects of operations that a
walk has gone into or that have been unrolled. -/
structure Mem (ρ : Type) where
  cache : Cache
  objs : ρ → Dir ρ
  noopStores : List Bytes := []
  woken : List (Blobref × TxnId) := []
  entered : List ρ := []

/-- The memory, as a transaction works on it, and its `dirty_cache_entries_list`. -/
structure Work (ρ : Type) extends Mem ρ where
  self : TxnId
  dirtyCacheEntries : List Blobref := []

variable (c : Codec) (epoch : ℕ)

/-! ### Storing blobs -/

/-- What `store_cache` is given: a base64 string (`is_raw`) or a tree object. -/
inductive Storable
  | raw (xdata : String)
  | tree (o : Treeobj Empty)
deriving DecidableEq

/-- The contents of the blob to store. -/
def Storable.data : Storable → Except Errno Bytes
  | .raw xdata =>
    if xdata = "" then .ok []
    else
      match c.sodiumBase642bin xdata with
      | some data => .ok data
      | none => .error .EPROTO
  | .tree o => if o.validate then .ok (c.jsonDumps o) else .error .EINVAL

/-- Put contents under their blobref into the cache, unless they are there. The result is
true if the entry has to be flushed to the content store. -/
def storeData (data : Bytes) (w : Work ρ) : Work ρ × Bool :=
  let ref := c.blobrefHash data
  let cache := cacheLookup w.cache ref epoch
  let entry := (cache ref).getD {}
  if entry.valid then
    ({ w with cache := cache, noopStores := data :: w.noopStores }, false)
  else
    let (entry, waiters) := cacheEntrySetRaw entry data
    let entry := { entry with dirty := true, dirtiedBy := some w.self }
    ({ w with cache := cache.set ref entry, woken := w.woken ++ waiters.map (ref, ·) }, true)

/-- `store_cache` and the `zlist_push` that follows it in every caller. -/
def storeCache (o : Storable) (w : Work ρ) : Work ρ × Except Errno Blobref :=
  match o.data c with
  | .error e => (w, .error e)
  | .ok data =>
    let ref := c.blobrefHash data
    let (w, dirty) := storeData c epoch data w
    if dirty then ({ w with dirtyCacheEntries := ref :: w.dirtyCacheEntries }, .ok ref)
    else (w, .ok ref)

/-! ### The last component of a key -/

/-- `treeobj_validate` of an object to be linked. -/
def validateLinked (w : Work ρ) : Treeobj ρ → Bool
  | .held i => (w.objs i).validate
  | o => o.validate

/-- `treeobj_insert_entry` into a directory. -/
def treeobjInsertEntry (w : Work ρ) (dir : Dir ρ) (name : String) (obj : Treeobj ρ) :
    Except Errno (Dir ρ) :=
  if validateLinked w obj then .ok (dir.insert name obj) else .error .EINVAL

/-- `kvstxn_append`. -/
def kvstxnAppend (dirent : Treeobj ρ) (dir : Dir ρ) (name : String) (w : Work ρ) :
    Dir ρ × Work ρ × Option Errno :=
  match dirent with
  | .val data =>
    match dir.get name with
    | none => (dir.insert name (.val data), w, none)
    | some (.valref refs) =>
      match storeCache c epoch (.raw data) w with
      | (w, .error e) => (dir, w, some e)
      | (w, .ok ref) =>
        match treeobjInsertEntry w dir name (.valref (refs ++ [ref])) with
        | .error e => (dir, w, some e)
        | .ok dir => (dir, w, none)
    | some (.val data0) =>
      match storeCache c epoch (.raw data0) w with
      | (w, .error e) => (dir, w, some e)
      | (w, .ok ref1) =>
        match storeCache c epoch (.raw data) w with
        | (w, .error e) => (dir, w, some e)
        | (w, .ok ref2) => (dir.insert name (.valref [ref1, ref2]), w, none)
    | some (.symlink _) => (dir, w, some .EOPNOTSUPP)
    | some (.dir _) => (dir, w, some .EISDIR)
    | some (.held _) => (dir, w, some .EISDIR)
    | some (.dirref _) => (dir, w, some .EISDIR)
    | some .invalid => (dir, w, some .ENOTRECOVERABLE)
  | _ => (dir, w, some .EPROTO)

/-- The last component of the key: add, modify or delete it in the directory. -/
def linkFinal (op : Op ρ) (name : String) (dir : Dir ρ) (w : Work ρ) :
    Dir ρ × Work ρ × Option Errno :=
  match op.dirent with
  | none => (dir.erase name, w, none)
  | some dirent =>
    if op.append then kvstxnAppend c epoch dirent dir name w
    else
      match treeobjInsertEntry w dir name dirent with
      | .error e => (dir, w, some e)
      | .ok dir => (dir, w, none)

/-! ### The walk -/

/-- How a walk down a key ends. -/
inductive Walk
  | success
  | stall (ref : Blobref)
  | restart (key : String)
  | error (e : Errno)
deriving DecidableEq, Repr

/-- The walk has arrived at something that is not a directory, with `names` still to go:
`treeobj_is_dir` is checked at each intermediate component, and at the last one the
operations on directory entries fail. -/
def linkNonDir (op : Op ρ) (names : List String) : Walk :=
  if 2 ≤ names.length then .error .ENOTRECOVERABLE
  else
    match op.dirent, op.append with
    | some (.val _), true => .error .EINVAL
    | some _, true => .error .EPROTO
    | _, _ => .error .EINVAL

/-- The loop of `kvstxn_link_dirent`: link the entry under the components `names` of
directory `dir`. Missing directories are created, unless the entry is to be removed, and a
directory that stands in the cache is copied before it is changed. -/
def linkDir [DecidableEq ρ] (ns : String) (op : Op ρ) :
    List String → Dir ρ → Work ρ → Dir ρ × Work ρ × Walk
  | [], dir, w => (dir, w, .success)
  | [name], dir, w =>
    match linkFinal c epoch op name dir w with
    | (dir, w, none) => (dir, w, .success)
    | (dir, w, some e) => (dir, w, .error e)
  | name :: next :: names, dir, w =>
    let create (w : Work ρ) : Dir ρ × Work ρ × Walk :=
      if op.dirent.isNone then (dir, w, .success)
      else
        let (sub, w, out) := linkDir ns op (next :: names) .nil w
        (dir.insert name (.dir sub), w, out)
    match dir.get name with
    | none => create w
    | some (.dir sub) =>
      let (sub, w, out) := linkDir ns op (next :: names) sub w
      (dir.insert name (.dir sub), w, out)
    | some (.held i) =>
      let w := { w with entered := i :: w.entered }
      let (sub, w, out) := linkDir ns op (next :: names) (w.objs i) w
      (dir, { w with objs := Function.update w.objs i sub }, out)
    | some (.dirref [ref]) =>
      let w := { w with cache := cacheLookup w.cache ref epoch }
      match w.cache ref with
      | none => (dir, w, .stall ref)
      | some entry =>
        if !entry.valid then (dir, w, .stall ref)
        else
          match cacheEntryGetTreeobj c entry with
          | none => (dir, w, .error .ENOTRECOVERABLE)
          | some (.dir sub) =>
            let (sub, w, out) := linkDir ns op (next :: names) sub.copy w
            (dir.insert name (.dir sub), w, out)
          | some o => (dir.insert name o.copy, w, linkNonDir op (next :: names))
    | some (.dirref _) => (dir, w, .error .ENOTRECOVERABLE)
    | some (.symlink target) =>
      match checkCrossNamespace ns target with
      | .error e => (dir, w, .error e)
      | .ok suffix =>
        (dir, w, .restart (suffix.getD target ++ "." ++ joinComponents (next :: names)))
    | some (.val _) => create w
    | some (.valref _) => create w
    | some .invalid => create w

/-- How `kvstxn_link_dirent` ends. A stall reports the missing reference. -/
inductive Link
  | success
  | stall (ref : Blobref)
  | fail (f : Fail)
deriving DecidableEq, Repr

/-- `kvstxn_link_dirent`: link `(key, dirent)` into the root directory. -/
def kvstxnLinkDirent [DecidableEq ρ] (ns : String) (op : Op ρ) :
    ℕ → String → Treeobj ρ → Work ρ → Treeobj ρ × Work ρ × Link
  | 0, _, root, w => (root, w, .fail .crash)
  | stack + 1, key, root, w =>
    match checkCrossNamespace ns key with
    | .error e => (root, w, .fail (.errno e))
    | .ok suffix =>
      let name := kvsUtilNormalizeKey (suffix.getD key)
      if name = "." then (root, w, .fail (.errno .EINVAL))
      else
        match root with
        | .dir dir =>
          match linkDir c epoch ns op (components name) dir w with
          | (dir, w, .success) => (.dir dir, w, .success)
          | (dir, w, .stall ref) => (.dir dir, w, .stall ref)
          | (dir, w, .error e) => (.dir dir, w, .fail (.errno e))
          | (dir, w, .restart nkey) => kvstxnLinkDirent ns op stack nkey (.dir dir) w
        | root =>
          match linkNonDir op (components name) with
          | .error e => (root, w, .fail (.errno e))
          | _ => (root, w, .success)

end FluxCore.Kvs
