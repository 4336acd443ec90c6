import FluxCore.Kvs.Lookup

/-!
# Path Resolution

What a lookup is for, as a recursion over a store that has all blobs at all times: a path is
resolved component by component, and a symbolic link is followed by resolving its target
from the root. A link in the middle of a path is always followed, one at its end unless the
flags ask for the link itself; links are followed up to a limit of nesting. `snapshot` is
the result of looking up a path from a root.

Where a target leads is the parameter `hop`, so that the recursion does not depend on the
namespaces. Two results stand for what has no meaning here: `outside` for a link that `hop`
cannot follow, and `dangling` for a followed target that ends with a link to the root.
-/

namespace FluxCore.Kvs.Lookup

/-- How the resolution of a path ends. -/
inductive Resolved
  | found (o : Treeobj Empty)
  | absent
  | error (e : Errno)
  | missing
  | outside
  | dangling
deriving DecidableEq

/-- Where the target of a symbolic link leads. -/
inductive Hop
  | follow (rootRef : Blobref) (path : String)
  | error (e : Errno)
  | outside

variable (c : Codec) (store : Blobref → Option Bytes) (flags : Flags)
  (hop : Blobref → String → Hop)

/-- The members of an object that is a directory. -/
def dirOf : Option (Treeobj Empty) → Option (Dir Empty)
  | some (.dir dir) => some dir
  | _ => none

/-- The directory under a reference: `none` if the blob is missing, `some none` if it is not
a directory. -/
def storeDir (ref : Blobref) : Option (Option (Dir Empty)) :=
  (store ref).map fun data => dirOf (if data.isEmpty then none else treeobjDecodeb c.toCodec data)

/-- The flags ask to follow a link at the end of a path. -/
def Flags.follow (flags : Flags) : Bool := !flags.readlink && !flags.treeobj

/-- Resolve a path from the entry `o`. `nested` resolves the path of a link; it is `none` at
the limit. `inner` says that the path is itself the one of a link. -/
def resolveFrom (nested : Option (Blobref → List String → Resolved)) (inner : Bool)
    (rootRef : Blobref) : List String → Treeobj Empty → Resolved
  | [], o => .found o
  | name :: rest, .dirref [ref] =>
    match storeDir c store ref with
    | none => .missing
    | some none => .error .ENOTRECOVERABLE
    | some (some dir) =>
      match dir.get name with
      | none => .absent
      | some (.symlink target) =>
        if rest ≠ [] ∨ flags.follow then
          match nested with
          | none => .error .ELOOP
          | some follow =>
            match hop rootRef target with
            | .error e => .error e
            | .outside => .outside
            | .follow ref path =>
              if path = "." then
                if inner ∧ rest = [] then .dangling
                else resolveFrom nested inner rootRef rest (.dirref [ref])
              else
                match follow ref (components path) with
                | .found o => resolveFrom nested inner rootRef rest o
                | r => r
        else resolveFrom nested inner rootRef rest (.symlink target)
      | some o => resolveFrom nested inner rootRef rest o
  | _ :: _, .val _ => .absent
  | _ :: _, .valref _ => .absent
  | _ :: _, _ => .error .ENOTRECOVERABLE

/-- Resolve a path, with `k` more levels of links below it. -/
def resolve : ℕ → Bool → Blobref → List String → Treeobj Empty → Resolved
  | 0, inner => resolveFrom c store flags hop none inner
  | k + 1, inner =>
    resolveFrom c store flags hop
      (some fun ref names => resolve k true ref names (.dirref [ref])) inner

/-- The result of a lookup. -/
inductive Snapshot
  | result (val : Option (Treeobj Empty)) (errnum : Option Errno)
  | missing
  | outside
  | dangling
deriving DecidableEq

/-- The contents of several blobs, put together. -/
def concatBlobs : List Blobref → Bytes → Snapshot
  | [], data => .result (some (treeobjCreateVal c data)) none
  | ref :: refs, data =>
    match store ref with
    | none => .missing
    | some blob =>
      if intMax - data.length < blob.length then .result none (some .EOVERFLOW)
      else concatBlobs refs (data ++ blob)

/-- The value of the entry that was found. -/
def valueOf (o : Treeobj Empty) : Snapshot :=
  if flags.treeobj then .result (some o) none
  else
    match o with
    | .dirref refs =>
      if flags.readlink then .result none (some .EINVAL)
      else if !flags.readdir then .result none (some .EISDIR)
      else
        match refs with
        | [ref] =>
          match storeDir c store ref with
          | none => .missing
          | some none => .result none (some .ENOTRECOVERABLE)
          | some (some dir) => .result (some (.dir dir)) none
        | _ => .result none (some .ENOTRECOVERABLE)
    | .valref refs =>
      if flags.readlink then .result none (some .EINVAL)
      else if flags.readdir then .result none (some .ENOTDIR)
      else
        match refs with
        | [] => .result none (some .ENOTRECOVERABLE)
        | [ref] =>
          match store ref with
          | none => .missing
          | some data => .result (some (treeobjCreateVal c data)) none
        | refs => concatBlobs c store refs []
    | .dir dir =>
      if flags.readlink then .result none (some .EINVAL)
      else if !flags.readdir then .result none (some .EISDIR)
      else .result (some (.dir dir)) none
    | .val data =>
      if flags.readlink then .result none (some .EINVAL)
      else if flags.readdir then .result none (some .ENOTDIR)
      else .result (some (.val data)) none
    | .symlink target =>
      if !flags.readlink then .result none (some .EPROTO)
      else if flags.readdir then .result none (some .ENOTDIR)
      else .result (some (.symlink target)) none
    | _ => .result none (some .ENOTRECOVERABLE)

/-- The result of the root itself. -/
def rootValue (rootRef : Blobref) : Snapshot :=
  if flags.treeobj then .result (some (.dirref [rootRef])) none
  else if !flags.readdir then .result none (some .EISDIR)
  else
    match store rootRef with
    | none => .missing
    | some data =>
      match if data.isEmpty then none else treeobjDecodeb c.toCodec data with
      | none => .result none (some .EINVAL)
      | some (.dir dir) => .result (some (.dir dir)) none
      | some _ => .result none (some .ENOTRECOVERABLE)

/-- The result of a lookup, from the end of the resolution. -/
def Resolved.value : Resolved → Snapshot
  | .found o => valueOf c store flags o
  | .absent => .result none none
  | .error e => .result none (some e)
  | .missing => .missing
  | .outside => .outside
  | .dangling => .dangling

/-- The path of a lookup, resolved from the root. A root that is not a directory is an error
of the user. -/
def resolvePath (rootRef : Blobref) (path : String) : Resolved :=
  if storeDir c store rootRef = some none then .error .EINVAL
  else resolve c store flags hop symlinkCycleLimit false rootRef (components path)
    (.dirref [rootRef])

/-- **The meaning of a lookup** of a path from a root. -/
def snapshot (rootRef : Blobref) (path : String) : Snapshot :=
  if path = "." then rootValue c store flags rootRef
  else (resolvePath c store flags hop rootRef path).value c store flags

/-- Links without a namespace prefix lead to their target, from the same root. -/
def plainHop (rootRef : Blobref) (target : String) : Hop :=
  match kvsNamespacePrefix target with
  | .ok none => .follow rootRef target
  | _ => .outside

end FluxCore.Kvs.Lookup
