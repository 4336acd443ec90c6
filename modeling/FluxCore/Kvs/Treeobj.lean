import FluxCore.Util.Blobref

/-!
# RFC 11 Tree Objects

This module models the tree objects of `libkvs/treeobj.c`. A `Treeobj` is one of the five
kinds of the source (`val`, `valref`, `dirref`, `symlink`, `dir`); the constructor
`invalid` stands for any other JSON value that a client may send in the place of one.

A JSON directory is mutable in the source, and a directory that a client sends in an
operation is linked into the tree without being copied. The tree objects are therefore
parametrised by a type `ρ` of object identities: `held i` is a pointer to the directory
object `i` that an operation owns, and every other directory is owned by its parent and
stands in place. `Treeobj Empty` is the type of plain JSON values, the ones that are
dumped, hashed and loaded.

The members of a directory are listed in the order in which `JSON_SORT_KEYS` dumps them,
and `Dir.insert` keeps that order. The JSON library does not specify its own iteration
order, and nothing depends on it but the order in which blobs are stored.
-/

namespace FluxCore.Kvs

mutual
/-- A tree object. `held i` points to the directory object `i` owned by an operation. -/
inductive Treeobj (ρ : Type)
  | val (data : String)
  | valref (refs : List Blobref)
  | dirref (refs : List Blobref)
  | symlink (target : String)
  | dir (data : Dir ρ)
  | held (id : ρ)
  | invalid

/-- The members of a directory, in key order. -/
inductive Dir (ρ : Type)
  | nil
  | cons (name : String) (obj : Treeobj ρ) (rest : Dir ρ)
end

deriving instance DecidableEq for Treeobj, Dir

variable {ρ : Type}

@[elab_as_elim, induction_eliminator]
theorem Dir.induct {motive : Dir ρ → Prop} (nil : motive .nil)
    (cons : ∀ name obj rest, motive rest → motive (.cons name obj rest)) (d : Dir ρ) : motive d :=
  match d with
  | .nil => nil
  | .cons name obj rest => cons name obj rest (Dir.induct nil cons rest)

/-! ### Members of a directory -/

/-- `json_object_get`: the member called `name`. -/
def Dir.get : Dir ρ → String → Option (Treeobj ρ)
  | .nil, _ => none
  | .cons n o r, name => if n = name then some o else r.get name

/-- `json_object_set`: add or replace the member called `name`. -/
def Dir.insert (name : String) (obj : Treeobj ρ) : Dir ρ → Dir ρ
  | .nil => .cons name obj .nil
  | .cons n o r =>
    if n = name then .cons n obj r
    else if name < n then .cons name obj (.cons n o r)
    else .cons n o (r.insert name obj)

/-- `json_object_del`: remove the member called `name`. -/
def Dir.erase (name : String) : Dir ρ → Dir ρ
  | .nil => .nil
  | .cons n o r => if n = name then r.erase name else .cons n o (r.erase name)

theorem Dir.get_insert (d : Dir ρ) (name name' : String) (obj : Treeobj ρ) :
    (d.insert name obj).get name' = if name' = name then some obj else d.get name' := by
  induction d with
  | nil => simp [Dir.insert, Dir.get, eq_comm (a := name)]
  | cons n o r ih =>
    rw [Dir.insert]
    split_ifs <;> simp_all [Dir.get] <;> grind

/-! ### Validation -/

mutual
/-- `treeobj_validate`. A directory that an operation holds was validated when it was
linked, and every later change to it links validated objects, so the walk of the source
into it cannot fail and is left out here. -/
def Treeobj.validate : Treeobj ρ → Bool
  | .val _ => true
  | .valref refs => !refs.isEmpty && refs.all blobrefValidate
  | .dirref refs => !refs.isEmpty && refs.all blobrefValidate
  | .symlink _ => true
  | .dir d => d.validate
  | .held _ => true
  | .invalid => false

/-- Every member of a directory is a valid tree object. -/
def Dir.validate : Dir ρ → Bool
  | .nil => true
  | .cons _ o r => o.validate && r.validate
end

/-! ### Plain values and objects in memory -/

mutual
/-- `treeobj_deep_copy`: a copy owns all of its directories. -/
def Treeobj.copy : Treeobj Empty → Treeobj ρ
  | .val s => .val s
  | .valref refs => .valref refs
  | .dirref refs => .dirref refs
  | .symlink t => .symlink t
  | .dir d => .dir d.copy
  | .invalid => .invalid

/-- A copy of the members of a directory. -/
def Dir.copy : Dir Empty → Dir ρ
  | .nil => .nil
  | .cons n o r => .cons n o.copy r.copy
end

mutual
/-- The plain value of an object none of whose directories is held by an operation. -/
def Treeobj.plain : Treeobj ρ → Treeobj Empty
  | .val s => .val s
  | .valref refs => .valref refs
  | .dirref refs => .dirref refs
  | .symlink t => .symlink t
  | .dir d => .dir d.plain
  | .held _ => .dir .nil
  | .invalid => .invalid

/-- The plain value of the members of a directory. -/
def Dir.plain : Dir ρ → Dir Empty
  | .nil => .nil
  | .cons n o r => .cons n o.plain r.plain
end

end FluxCore.Kvs
