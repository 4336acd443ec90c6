import Mathlib.Data.String.Basic

/-!
# Blobref Strings

The printed names of blobs, after `libutil/blobref.c`. A blobref is the name of a hash
function, a dash, and the digest in lower case hexadecimal digits.
-/

namespace FluxCore

/-- The `errno` values that the modelled code sets itself; `other` carries the ones that
come from outside (the content store, the broker). -/
inductive Errno
  | EINVAL
  | ENOMEM
  | EPROTO
  | EISDIR
  | EOPNOTSUPP
  | ENOTRECOVERABLE
  | ENOTSUP
  | EOVERFLOW
  | EEXIST
  | EAGAIN
  | EBADE
  | ENOENT
  | ENOTDIR
  | ELOOP
  | EPERM
  | ENODATA
  | ENOSYS
  | EHOSTUNREACH
  | ETIMEDOUT
  | EFBIG
  | EIO
  | other (code : ℕ)
deriving DecidableEq, Repr

/-- A blobref, for instance `sha1-` followed by forty digits. -/
abbrev Blobref := String

/-- The raw contents of a blob. -/
abbrev Bytes := List UInt8

/-- `BLOBREF_MAX_STRING_SIZE`. -/
def blobrefMaxStringSize : ℕ := 72

/-- One row of `blobtab`: the name of a hash function and its digest length. -/
structure Blobhash where
  name : String
  hashlen : ℕ

/-- The supported hash functions. -/
def blobtab : List Blobhash :=
  [{ name := "sha1", hashlen := 20 }, { name := "sha256", hashlen := 32 }]

/-- True if `s1` begins with `s2` and a dash. -/
def prefixmatch (s1 s2 : String) : Bool :=
  (s2.toList ++ ['-']).isPrefixOf s1.toList

/-- The row of `blobtab` that `name` names or is a blobref of. -/
def lookupBlobhash (name : String) : Option Blobhash :=
  blobtab.find? fun bh => name == bh.name || prefixmatch name bh.name

/-- A lower case hexadecimal digit. -/
def isxdigitLower (c : Char) : Bool :=
  ('0' ≤ c && c ≤ '9') || ('a' ≤ c && c ≤ 'f')

/-- `blobref_validate` accepts a blobref of the right length whose digest is printed in
lower case. -/
def blobrefValidate (blobref : Blobref) : Bool :=
  match lookupBlobhash blobref with
  | none => false
  | some bh =>
    blobref.utf8ByteSize == bh.hashlen * 2 + bh.name.utf8ByteSize + 1
      && (blobref.toList.drop (bh.name.length + 1)).all isxdigitLower

example : blobrefValidate "sha1-4087718d190b373fb490b27873f61552d7f29dbe" = true := by
  decide

end FluxCore
