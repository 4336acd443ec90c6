import FluxCore.Kvs.Cache
import FluxCore.Kvs.Follower
import FluxCore.Kvs.Key
import FluxCore.Util.Message

/-!
# Looking up a Key

This module models `modules/kvs/lookup.c`. A lookup handle walks down a path from a root
directory; a symbolic link on the way is followed by pushing a level with the path of its
target, and the level that is done passes its directory entry to the one below. A call of
`lookup` stalls when a blob is not in the cache or a namespace is not known, and the next
call goes on where it has stopped.

A handle does not own the directory entries that it points to: they belong to a level of
the walk or to a cache entry, and are freed with it. A `Dirent` is such a pointer, with its
owner. Reading one whose owner is gone is the outcome `useAfterFree`.

The loop of `walk` runs for a number of turns that is a parameter; `running` is the outcome
of a call that has not returned by then.
-/

namespace FluxCore.Kvs.Lookup

/-- The external functions, with the base64 encoder. -/
structure Codec extends Kvs.Codec where
  /-- `sodium_bin2base64` -/
  sodiumBin2base64 : Bytes → String
  base642bin_bin2base64 : ∀ data, data ≠ [] → sodiumBase642bin (sodiumBin2base64 data) = some data
  bin2base64_nil : sodiumBin2base64 [] = ""

/-- `treeobj_create_val`. -/
def treeobjCreateVal (c : Codec) (data : Bytes) : Treeobj Empty := .val (c.sodiumBin2base64 data)

/-! ### Namespaces -/

/-- `struct kvsroot`, as far as lookups read it. -/
structure Kvsroot extends Root where
  owner : UInt32
deriving DecidableEq

/-- `kvsroot_mgr_t`: the namespaces that are known. -/
abbrev KvsrootMgr := String → Option Kvsroot

/-- `kvsroot_mgr_lookup_root_safe`. -/
def kvsrootMgrLookupRootSafe (krm : KvsrootMgr) (ns : String) : Option Kvsroot :=
  (krm ns).filter fun root => !root.remove

/-- `FLUX_ROLE_USER`. -/
def roleUser : UInt32 := 2

/-- `kvsroot_check_user` accepts the credential. -/
def kvsrootCheckUser (root : Kvsroot) (cred : Cred) : Bool :=
  cred.isOwner || (cred.rolemask &&& roleUser != 0 && cred.userid == root.owner)

/-! ### Handles -/

/-- Who owns an object that a handle points to: the level of a depth, as its `root_dirent` or
its `tmp_dirent`; a cache entry; or no one any more. -/
inductive Owner
  | rootDirent (depth : ℕ)
  | tmpDirent (depth : ℕ)
  | entry (ref : Blobref)
  | freed
deriving DecidableEq

/-- A pointer to a directory entry. -/
structure Dirent where
  obj : Treeobj Empty
  owner : Owner
deriving DecidableEq

/-- Read what the pointer points to. -/
def Dirent.read (d : Dirent) : Option (Treeobj Empty) :=
  if d.owner = .freed then none else some d.obj

/-- The owners for which `gone` holds are freed. -/
def Dirent.free (gone : Owner → Bool) (d : Dirent) : Dirent :=
  if gone d.owner then { d with owner := .freed } else d

/-- `walk_level_t`. -/
structure WalkLevel where
  depth : ℕ
  rootRef : Blobref
  dirent : Dirent
  pathcomps : List String
deriving DecidableEq

/-- The flags that a lookup reads. -/
structure Flags where
  readdir : Bool := false
  readlink : Bool := false
  treeobj : Bool := false
deriving DecidableEq

/-- The states of a handle. -/
inductive State
  | init
  | checkNamespace
  | checkRoot
  | walkInit
  | walk
  | value
  | finished
deriving DecidableEq, Repr

/-- `lookup_process_t`. -/
inductive Process
  | error
  | loadMissingNamespace
  | loadMissingRefs
  | finished
deriving DecidableEq, Repr

/-- `lookup_t`. -/
structure Handle where
  ns : String
  rootRef : Option Blobref := none
  rootSeq : ℕ := 0
  rootRefSetByUser : Bool := false
  path : String
  cred : Cred
  flags : Flags
  currentEpoch : ℕ := 0
  val : Option (Treeobj Empty) := none
  valrefMissingRefs : Option Dirent := none
  missingRef : Option Blobref := none
  missingNamespace : Option String := none
  errnum : Option Errno := none
  levels : List WalkLevel := []
  wdirent : Option Dirent := none
  state : State := .init
deriving DecidableEq

/-- `lookup_create`. -/
def lookupCreate (epoch : ℕ) (ns : String) (rootRef : Option Blobref) (rootSeq : ℕ)
    (path : String) (cred : Cred) (flags : Flags) : Except Errno Handle :=
  let create (ns path : String) : Handle :=
    { ns := ns, rootRef := rootRef, rootSeq := if rootRef.isSome then rootSeq else 0,
      rootRefSetByUser := rootRef.isSome, path := kvsUtilNormalizeKey path, cred := cred,
      flags := flags, currentEpoch := epoch }
  match kvsNamespacePrefix path with
  | .error e => .error e
  | .ok none => .ok (create ns path)
  | .ok (some (nsPrefix, suffix)) =>
    if rootRef.isSome ∧ ns ≠ nsPrefix then .error .EINVAL else .ok (create nsPrefix suffix)

/-- How a computation of the handle ends. -/
inductive Outcome (α : Type)
  | ok (a : α)
  | useAfterFree
  | running
deriving DecidableEq

/-- Go on with the result of a computation. -/
def Outcome.bind {α β : Type} (o : Outcome α) (f : α → Outcome β) : Outcome β :=
  match o with
  | .ok a => f a
  | .useAfterFree => .useAfterFree
  | .running => .running

/-- What a call returns, with the cache and the handle after it. -/
structure Return where
  cache : Cache
  lh : Handle
  result : Process

/-- `goto error` with an `errno`. -/
def fail (cache : Cache) (lh : Handle) (e : Errno) : Return :=
  ⟨cache, { lh with errnum := some e, state := .finished }, .error⟩

/-- `goto done`. -/
def done (cache : Cache) (lh : Handle) : Return :=
  ⟨cache, { lh with state := .finished }, .finished⟩

/-! ### The walk -/

/-- `SYMLINK_CYCLE_LIMIT`. -/
def symlinkCycleLimit : ℕ := 10

/-- `walk_level_create`. -/
def walkLevelCreate (rootRef : Blobref) (path : String) (depth : ℕ) : WalkLevel :=
  { depth := depth, rootRef := rootRef, dirent := ⟨.dirref [rootRef], .rootDirent depth⟩,
    pathcomps := components path }

/-- `walk_level_destroy`, as seen by a pointer to an entry. -/
def walkLevelDestroy (depth : ℕ) (d : Dirent) : Dirent :=
  d.free fun owner => owner = .rootDirent depth ∨ owner = .tmpDirent depth

/-- The results of `symlink_namespace`. A target with a prefix has a root and a path. -/
inductive SymlinkNamespace
  | error (e : Errno)
  | loadMissingNamespace (ns : String)
  | finished (root : Option (Kvsroot × String))

/-- `symlink_namespace`. -/
def symlinkNamespace (krm : KvsrootMgr) (cred : Cred) (linkpath : String) : SymlinkNamespace :=
  match kvsNamespacePrefix linkpath with
  | .error e => .error e
  | .ok none => .finished none
  | .ok (some (nsPrefix, suffix)) =>
    match krm nsPrefix with
    | none => .loadMissingNamespace nsPrefix
    | some root =>
      if kvsrootCheckUser root cred then .finished (some (root, kvsUtilNormalizeKey suffix))
      else .error .EPERM

/-- The results of `walk_symlink`: the entry that stands for the link, or a new level. -/
inductive WalkSymlink
  | error (e : Errno)
  | loadMissingNamespace (ns : String)
  | dirent (d : Dirent)
  | push (wl : WalkLevel)

/-- `walk_symlink`, for a link `d` with the given target. -/
def walkSymlink (krm : KvsrootMgr) (cred : Cred) (flags : Flags) (wl : WalkLevel) (d : Dirent)
    (target : String) : WalkSymlink :=
  if 1 < wl.pathcomps.length ∨ (!flags.readlink && !flags.treeobj) then
    if wl.depth = symlinkCycleLimit then .error .ELOOP
    else
      match symlinkNamespace krm cred target with
      | .error e => .error e
      | .loadMissingNamespace ns => .loadMissingNamespace ns
      | .finished none =>
        if target = "." then .dirent ⟨.dirref [wl.rootRef], .rootDirent wl.depth⟩
        else .push (walkLevelCreate wl.rootRef target (wl.depth + 1))
      | .finished (some (root, linkpath)) =>
        if linkpath = "." then .dirent ⟨.dirref [root.ref], .tmpDirent wl.depth⟩
        else .push (walkLevelCreate root.ref linkpath (wl.depth + 1))
  else .dirent d

/-- The first component of the path of `wl` has been resolved: a level that is done passes
its entry to the level below. -/
def unwind (wl : WalkLevel) : List WalkLevel → List WalkLevel
  | [] => [{ wl with pathcomps := wl.pathcomps.tail }]
  | wl' :: below =>
    if wl.pathcomps.length = 1 ∧ wl.depth ≠ 0 then
      unwind { wl' with dirent := walkLevelDestroy wl.depth wl.dirent } below
    else { wl with pathcomps := wl.pathcomps.tail } :: wl' :: below

/-- One turn of the loop of `walk`: go on with some levels, or return. -/
inductive Turn
  | again (levels : List WalkLevel)
  | ret (lh : Handle) (result : Process)
  | useAfterFree

/-- The error exit of `walk`. -/
def walkError (lh : Handle) (e : Errno) : Turn :=
  .ret { lh with errnum := some e, wdirent := none } .error

/-- The part of the loop that works on a directory `dir`, the contents of `ref`. -/
def walkDir (krm : KvsrootMgr) (lh : Handle) (wl : WalkLevel) (below : List WalkLevel)
    (pathcomp : String) (ref : Blobref) (dir : Dir Empty) : Turn :=
  match dir.get pathcomp with
  | none => .ret lh .finished
  | some (.symlink target) =>
    let d : Dirent := ⟨.symlink target, .entry ref⟩
    match walkSymlink krm lh.cred lh.flags wl d target with
    | .error e => walkError lh e
    | .loadMissingNamespace ns =>
      .ret { lh with missingNamespace := some ns } .loadMissingNamespace
    | .push wl' => .again (wl' :: { wl with dirent := d } :: below)
    | .dirent d => .again (unwind { wl with dirent := d } below)
  | some obj => .again (unwind { wl with dirent := ⟨obj, .entry ref⟩ } below)

/-- One turn of the loop of `walk`. -/
def walkTurn (c : Codec) (krm : KvsrootMgr) (cache : Cache) (lh : Handle) (wl : WalkLevel)
    (below : List WalkLevel) : Cache × Turn :=
  match wl.pathcomps with
  | [] => (cache, .ret { lh with wdirent := some wl.dirent } .finished)
  | pathcomp :: _ =>
    match wl.dirent.read with
    | none => (cache, .useAfterFree)
    | some (.dirref [ref]) =>
      let cache := cacheLookup cache ref lh.currentEpoch
      match cache ref with
      | none => (cache, .ret { lh with missingRef := some ref } .loadMissingRefs)
      | some entry =>
        if !entry.valid then
          (cache, .ret { lh with missingRef := some ref } .loadMissingRefs)
        else
          match cacheEntryGetTreeobj c.toCodec entry with
          | some (.dir dir) => (cache, walkDir krm lh wl below pathcomp ref dir)
          | _ =>
            if wl.depth = 0 ∧ wl.dirent.owner = .rootDirent 0 then
              (cache, walkError lh .EINVAL)
            else (cache, walkError lh .ENOTRECOVERABLE)
    | some (.val _) => (cache, .ret lh .finished)
    | some (.valref _) => (cache, .ret lh .finished)
    | some _ => (cache, walkError lh .ENOTRECOVERABLE)

/-- `walk`. -/
def walk (c : Codec) (krm : KvsrootMgr) : ℕ → Cache → Handle → Outcome Return
  | 0, _, _ => .running
  | turns + 1, cache, lh =>
    match lh.levels with
    | [] => .useAfterFree
    | wl :: below =>
      match walkTurn c krm cache lh wl below with
      | (cache, .again levels) => walk c krm turns cache { lh with levels := levels }
      | (cache, .ret lh result) => .ok ⟨cache, lh, result⟩
      | (_, .useAfterFree) => .useAfterFree

/-! ### The value -/

/-- `INT_MAX`. -/
def intMax : ℕ := 2147483647

/-- `get_multi_blobref_valref_length`: `none` is a stall, an error is an overflow. -/
def getMultiBlobrefValrefLength (epoch : ℕ) :
    List Blobref → ℕ → Cache → Cache × Except Errno (Option ℕ)
  | [], total, cache => (cache, .ok (some total))
  | ref :: refs, total, cache =>
    let cache := cacheLookup cache ref epoch
    match cache ref with
    | none => (cache, .ok none)
    | some entry =>
      if !entry.valid then (cache, .ok none)
      else if intMax - total < entry.data.length then (cache, .error .EOVERFLOW)
      else getMultiBlobrefValrefLength epoch refs (total + entry.data.length) cache

/-- `get_multi_blobref_valref_data`, called when all entries are valid. -/
def getMultiBlobrefValrefData (cache : Cache) (refs : List Blobref) : Bytes :=
  refs.flatMap fun ref => ((cache ref).getD {}).data

/-- The branch of `lookup` for a reference to a value. -/
def lookupValref (c : Codec) (cache : Cache) (lh : Handle) (d : Dirent) (refs : List Blobref) :
    Return :=
  if lh.flags.readlink then fail cache lh .EINVAL
  else if lh.flags.readdir then fail cache lh .ENOTDIR
  else
    match refs with
    | [] => fail cache lh .ENOTRECOVERABLE
    | [ref] =>
      let cache := cacheLookup cache ref lh.currentEpoch
      match cache ref with
      | none => ⟨cache, { lh with valrefMissingRefs := some d }, .loadMissingRefs⟩
      | some entry =>
        if !entry.valid then
          ⟨cache, { lh with valrefMissingRefs := some d }, .loadMissingRefs⟩
        else done cache { lh with val := some (treeobjCreateVal c entry.data) }
    | refs =>
      match getMultiBlobrefValrefLength lh.currentEpoch refs 0 cache with
      | (cache, .error e) => fail cache lh e
      | (cache, .ok none) => ⟨cache, { lh with valrefMissingRefs := some d }, .loadMissingRefs⟩
      | (cache, .ok (some _)) =>
        done cache { lh with val := some (treeobjCreateVal c
          (getMultiBlobrefValrefData cache refs)) }

/-- The branch of `lookup` for a reference to a directory. -/
def lookupDirref (c : Codec) (cache : Cache) (lh : Handle) (refs : List Blobref) : Return :=
  if lh.flags.readlink then fail cache lh .EINVAL
  else if !lh.flags.readdir then fail cache lh .EISDIR
  else
    match refs with
    | [ref] =>
      let cache := cacheLookup cache ref lh.currentEpoch
      match cache ref with
      | none => ⟨cache, { lh with missingRef := some ref }, .loadMissingRefs⟩
      | some entry =>
        if !entry.valid then ⟨cache, { lh with missingRef := some ref }, .loadMissingRefs⟩
        else
          match cacheEntryGetTreeobj c.toCodec entry with
          | some (.dir dir) => done cache { lh with val := some (.dir dir) }
          | _ => fail cache lh .ENOTRECOVERABLE
    | _ => fail cache lh .ENOTRECOVERABLE

/-- `namespace_still_valid`. -/
def namespaceStillValid (krm : KvsrootMgr) (lh : Handle) : Option Errno :=
  if lh.rootRefSetByUser then none
  else
    match kvsrootMgrLookupRootSafe krm lh.ns with
    | none => some .ENOTSUP
    | some root => if kvsrootCheckUser root lh.cred then none else some .EPERM

/-- The check that a call makes that is not the first one of its handle. -/
def replayCheck (isReplay : Bool) (krm : KvsrootMgr) (lh : Handle) : Option Errno :=
  if isReplay then namespaceStillValid krm lh else none

/-- `LOOKUP_STATE_VALUE`. -/
def lookupFromValue (c : Codec) (isReplay : Bool) (krm : KvsrootMgr) (cache : Cache)
    (lh : Handle) : Outcome Return :=
  match replayCheck isReplay krm lh with
  | some e => .ok (fail cache lh e)
  | none =>
    match lh.wdirent with
    | none => .useAfterFree
    | some d =>
      match d.read with
      | none => .useAfterFree
      | some obj =>
        if lh.flags.treeobj then .ok (done cache { lh with val := some obj })
        else
          match obj with
          | .dirref refs => .ok (lookupDirref c cache lh refs)
          | .valref refs => .ok (lookupValref c cache lh d refs)
          | .dir dir =>
            if lh.flags.readlink then .ok (fail cache lh .EINVAL)
            else if !lh.flags.readdir then .ok (fail cache lh .EISDIR)
            else .ok (done cache { lh with val := some (.dir dir) })
          | .val data =>
            if lh.flags.readlink then .ok (fail cache lh .EINVAL)
            else if lh.flags.readdir then .ok (fail cache lh .ENOTDIR)
            else .ok (done cache { lh with val := some (.val data) })
          | .symlink target =>
            if !lh.flags.readlink then .ok (fail cache lh .EPROTO)
            else if lh.flags.readdir then .ok (fail cache lh .ENOTDIR)
            else .ok (done cache { lh with val := some (.symlink target) })
          | _ => .ok (fail cache lh .ENOTRECOVERABLE)

/-! ### The call -/

/-- `LOOKUP_STATE_WALK`. -/
def lookupFromWalk (c : Codec) (turns : ℕ) (isReplay : Bool) (krm : KvsrootMgr) (cache : Cache)
    (lh : Handle) : Outcome Return :=
  match replayCheck isReplay krm lh with
  | some e => .ok (fail cache lh e)
  | none =>
    (walk c krm turns cache lh).bind fun r =>
      match r.result with
      | .error => .ok { r with lh := { r.lh with state := .finished } }
      | .loadMissingNamespace => .ok r
      | .loadMissingRefs => .ok r
      | .finished =>
        if r.lh.wdirent.isNone then .ok (done r.cache r.lh)
        else lookupFromValue c isReplay krm r.cache { r.lh with state := .value }

/-- `LOOKUP_STATE_WALK_INIT`. -/
def lookupFromWalkInit (c : Codec) (turns : ℕ) (isReplay : Bool) (krm : KvsrootMgr)
    (cache : Cache) (lh : Handle) (rootRef : Blobref) : Outcome Return :=
  lookupFromWalk c turns isReplay krm cache
    { lh with levels := walkLevelCreate rootRef lh.path 0 :: lh.levels, state := .walk }

/-- The special case of the root in `LOOKUP_STATE_CHECK_ROOT`. -/
def lookupRoot (c : Codec) (cache : Cache) (lh : Handle) (rootRef : Blobref) : Return :=
  if lh.flags.treeobj then done cache { lh with val := some (.dirref [rootRef]) }
  else if !lh.flags.readdir then fail cache lh .EISDIR
  else
    let cache := cacheLookup cache rootRef lh.currentEpoch
    match cache rootRef with
    | none => ⟨cache, { lh with missingRef := some rootRef }, .loadMissingRefs⟩
    | some entry =>
      if !entry.valid then ⟨cache, { lh with missingRef := some rootRef }, .loadMissingRefs⟩
      else
        match cacheEntryGetTreeobj c.toCodec entry with
        | none => fail cache lh .EINVAL
        | some (.dir dir) => done cache { lh with val := some (.dir dir) }
        | some _ => fail cache lh .ENOTRECOVERABLE

/-- `LOOKUP_STATE_CHECK_ROOT`. -/
def lookupFromCheckRoot (c : Codec) (turns : ℕ) (isReplay : Bool) (krm : KvsrootMgr)
    (cache : Cache) (lh : Handle) (rootRef : Blobref) : Outcome Return :=
  match replayCheck isReplay krm lh with
  | some e => .ok (fail cache lh e)
  | none =>
    if lh.path = "." then .ok (lookupRoot c cache lh rootRef)
    else lookupFromWalkInit c turns isReplay krm cache { lh with state := .walkInit } rootRef

/-- `LOOKUP_STATE_CHECK_NAMESPACE`. -/
def lookupFromCheckNamespace (c : Codec) (turns : ℕ) (isReplay : Bool) (krm : KvsrootMgr)
    (cache : Cache) (lh : Handle) : Outcome Return :=
  match lh.rootRef with
  | some rootRef =>
    lookupFromCheckRoot c turns isReplay krm cache { lh with state := .checkRoot } rootRef
  | none =>
    match kvsrootMgrLookupRootSafe krm lh.ns with
    | none =>
      .ok ⟨cache, { lh with missingNamespace := some lh.ns }, .loadMissingNamespace⟩
    | some root =>
      if !kvsrootCheckUser root lh.cred then .ok (fail cache lh .EPERM)
      else
        lookupFromCheckRoot c turns isReplay krm cache
          { lh with rootRef := some root.ref, rootSeq := root.seq, state := .checkRoot }
          root.ref

/-- `lookup`. -/
def lookup (c : Codec) (turns : ℕ) (krm : KvsrootMgr) (cache : Cache) (lh : Handle) :
    Outcome Return :=
  if lh.errnum.isSome then .ok ⟨cache, lh, .error⟩
  else
    match lh.state with
    | .init =>
      lookupFromCheckNamespace c turns false krm cache { lh with state := .checkNamespace }
    | .checkNamespace => lookupFromCheckNamespace c turns true krm cache lh
    | .checkRoot =>
      lookupFromCheckRoot c turns true krm cache lh (lh.rootRef.getD "")
    | .walkInit => lookupFromWalkInit c turns true krm cache lh (lh.rootRef.getD "")
    | .walk => lookupFromWalk c turns true krm cache lh
    | .value => lookupFromValue c true krm cache lh
    | .finished => .ok (done cache lh)

/-- `lookup_iter_missing_refs`: the references that are handed to the callback. -/
def lookupIterMissingRefs (cache : Cache) (lh : Handle) :
    Outcome (Cache × Except Errno (List Blobref)) :=
  if lh.state = .checkRoot ∨ lh.state = .walk ∨ lh.state = .value then
    match lh.valrefMissingRefs with
    | none => .ok (cache, .ok lh.missingRef.toList)
    | some d =>
      match d.read with
      | none => .useAfterFree
      | some (.valref refs) =>
        .ok (refs.foldl (fun cache ref => cacheLookup cache ref lh.currentEpoch) cache,
          .ok (refs.filter fun ref => !cache.getValid ref))
      | some _ => .ok (cache, .error .ENOTRECOVERABLE)
  else .ok (cache, .error .EINVAL)

/-! ### A handle and its surroundings -/

/-- The cache and the namespaces, with a handle. The field `results` is history: what the
calls have returned and the missing references that the caller was told, the last one
first. -/
structure Session where
  cache : Cache
  krm : KvsrootMgr
  lh : Handle
  results : List (Process × Except Errno (List Blobref)) := []

/-- What can happen: a call of the handle; a change of a cache entry, which takes its
contents once and keeps them; the expiry of a clean cache entry; a change of the
namespaces. -/
inductive Label
  | call (turns epoch : ℕ)
  | entry (ref : Blobref) (entry : CacheEntry)
  | expire (ref : Blobref)
  | krm (krm : KvsrootMgr)

/-- The objects of a cache entry are freed. -/
def Handle.free (lh : Handle) (ref : Blobref) : Handle :=
  let gone (owner : Owner) : Bool := owner = .entry ref
  { lh with
    levels := lh.levels.map fun wl => { wl with dirent := wl.dirent.free gone }
    wdirent := lh.wdirent.map fun d => d.free gone
    valrefMissingRefs := lh.valrefMissingRefs.map fun d => d.free gone }

/-- A call of `lookup`, and of `lookup_iter_missing_refs` if it has stalled on references. -/
def Session.call (c : Codec) (s : Session) (turns epoch : ℕ) : Outcome Session :=
  (lookup c turns s.krm s.cache { s.lh with currentEpoch := epoch }).bind fun r =>
    (if r.result = .loadMissingRefs then lookupIterMissingRefs r.cache r.lh
      else .ok (r.cache, .ok [])).bind fun m =>
        .ok { s with cache := m.1, lh := r.lh, results := (r.result, m.2) :: s.results }

/-- The machine. The state `none` is the end of a process that has read freed memory. -/
def machine (c : Codec) : Machine (Option Session) Label where
  step l s :=
    s.bind fun s =>
      match l with
      | .call turns epoch =>
        match s.call c turns epoch with
        | .ok t => some (some t)
        | .useAfterFree => some none
        | .running => none
      | .entry ref entry =>
        if (s.cache ref).any fun old => old.valid && !(entry.valid && entry.data == old.data)
        then none
        else some (some { s with cache := s.cache.set ref entry })
      | .expire ref =>
        match s.cache ref with
        | none => none
        | some entry =>
          if entry.valid && !entry.dirty then
            some (some { s with cache := s.cache.delete ref, lh := s.lh.free ref })
          else none
      | .krm krm => some (some { s with krm := krm })

end FluxCore.Kvs.Lookup
