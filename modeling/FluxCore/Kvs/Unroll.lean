import FluxCore.Kvs.Link

/-!
# Unrolling the Working Copy

`kvstxn_unroll` stores the directories of the working copy, depth first, and replaces
each one by a reference to its blob; values whose base64 string is longer than a blobref
are stored as well. An error in the middle leaves the directories that have been treated
unrolled, and so the functions here return the directory also when they fail.

A directory object that an operation holds is unrolled in place. Such objects can hold
one another; the nesting is followed for `depth` steps, which the number of objects
bounds unless they form a cycle, on which the source recurses until the stack overflows.
-/

namespace FluxCore.Kvs

variable {ρ : Type} [DecidableEq ρ] (c : Codec) (epoch : ℕ)

mutual
/-- One turn of the loop of `kvstxn_unroll`: the entry that takes the place of `o`. -/
def unrollEntry (unrollHeld : ρ → Work ρ → Work ρ × Option Fail) :
    Treeobj ρ → Work ρ → Treeobj ρ × Work ρ × Option Fail
  | .dir sub, w =>
    match unrollDir unrollHeld sub w with
    | (sub, w, some f) => (.dir sub, w, some f)
    | (sub, w, none) =>
      match storeCache c epoch (.tree (.dir sub.plain)) w with
      | (w, .error e) => (.dir sub, w, some (.errno e))
      | (w, .ok ref) => (.dirref [ref], w, none)
  | .held i, w =>
    match unrollHeld i w with
    | (w, some f) => (.held i, w, some f)
    | (w, none) =>
      match storeCache c epoch (.tree (.dir (w.objs i).plain)) w with
      | (w, .error e) => (.held i, w, some (.errno e))
      | (w, .ok ref) => (.dirref [ref], w, none)
  | .val data, w =>
    if blobrefMaxStringSize < data.utf8ByteSize then
      match storeCache c epoch (.raw data) w with
      | (w, .error e) => (.val data, w, some (.errno e))
      | (w, .ok ref) => (.valref [ref], w, none)
    else (.val data, w, none)
  | .valref refs, w => (.valref refs, w, none)
  | .dirref refs, w => (.dirref refs, w, none)
  | .symlink target, w => (.symlink target, w, none)
  | .invalid, w => (.invalid, w, none)

/-- The loop of `kvstxn_unroll` over the members of a directory. -/
def unrollDir (unrollHeld : ρ → Work ρ → Work ρ × Option Fail) :
    Dir ρ → Work ρ → Dir ρ × Work ρ × Option Fail
  | .nil, w => (.nil, w, none)
  | .cons name o rest, w =>
    match unrollEntry unrollHeld o w with
    | (o, w, some f) => (.cons name o rest, w, some f)
    | (o, w, none) =>
      match unrollDir unrollHeld rest w with
      | (rest, w, f) => (.cons name o rest, w, f)
end

/-- `kvstxn_unroll` of a directory object that an operation holds. -/
def unrollHeld : ℕ → ρ → Work ρ → Work ρ × Option Fail
  | 0, _, w => (w, some .crash)
  | depth + 1, i, w =>
    match unrollDir c epoch (unrollHeld depth) (w.objs i) { w with entered := i :: w.entered } with
    | (dir, w, f) => ({ w with objs := Function.update w.objs i dir }, f)

/-- `kvstxn_unroll`. -/
def kvstxnUnroll (depth : ℕ) (dir : Dir ρ) (w : Work ρ) : Dir ρ × Work ρ × Option Fail :=
  unrollDir c epoch (unrollHeld c epoch depth) dir w

end FluxCore.Kvs
