import FluxCore.Util.Blobref

/-!
# KVS Keys

Normalisation of keys and the `ns:NAME/` prefix, after `libkvs/kvs_util.c`, and the
cross-namespace check of `kvstxn.c`. Keys are handled as lists of characters; a key is
walked by its components, the pieces between the dots of the normalised key.
-/

namespace FluxCore.Kvs

/-- Transform duplicate path separators into a single one. -/
def dropDuplicateSep : List Char → List Char
  | '.' :: '.' :: r => dropDuplicateSep ('.' :: r)
  | c :: r => c :: dropDuplicateSep r
  | [] => []

/-- Eliminate a leading path separator, unless it is the whole key. -/
def dropLeadingSep : List Char → List Char
  | '.' :: c :: r => c :: r
  | key => key

/-- Eliminate a trailing path separator, unless it is the whole key. -/
def dropTrailingSep (key : List Char) : List Char :=
  if 2 ≤ key.length ∧ key.getLast? = some '.' then key.dropLast else key

/-- `kvs_util_normalize_key`. -/
def kvsUtilNormalizeKey (key : String) : String :=
  String.ofList (dropTrailingSep (dropLeadingSep (dropDuplicateSep key.toList)))

example : kvsUtilNormalizeKey "..a...b." = "a.b" := by decide
example : kvsUtilNormalizeKey "..." = "." := by decide

/-- The part of a key before the first slash and the part after it. -/
def splitSlash : List Char → Option (List Char × List Char)
  | [] => none
  | '/' :: r => some ([], r)
  | c :: r => (splitSlash r).map fun p => (c :: p.1, p.2)

/-- `strstr (key, "ns:")` finds something. -/
def containsNs : List Char → Bool
  | [] => false
  | c :: r => "ns:".toList.isPrefixOf (c :: r) || containsNs r

/-- `kvs_namespace_prefix`: the namespace and the rest of a key `ns:NAME/rest`, nothing
for a key without the prefix. -/
def kvsNamespacePrefix (key : String) : Except Errno (Option (String × String)) :=
  if "ns:".toList.isPrefixOf key.toList then
    match splitSlash (key.toList.drop 3) with
    | none => .error .EINVAL
    | some (ns, suffix) =>
      -- neither "ns:/", nor a namespace without a key, nor chained namespaces
      if ns.isEmpty || suffix.isEmpty || containsNs suffix then .error .EINVAL
      else .ok (some (String.ofList ns, String.ofList suffix))
  else .ok none

/-- `check_cross_namespace`: the key without its prefix, if it has one. A key of another
namespace than the transaction's is an error. -/
def checkCrossNamespace (ns key : String) : Except Errno (Option String) :=
  match kvsNamespacePrefix key with
  | .error e => .error e
  | .ok none => .ok none
  | .ok (some (nsPrefix, suffix)) => if nsPrefix = ns then .ok (some suffix) else .error .EINVAL

/-- The components of a normalised key, as the successive calls of `strchr` find them. -/
def components (key : String) : List String :=
  (key.toList.splitOn '.').map String.ofList

/-- The components of a key put together again. -/
def joinComponents (names : List String) : String := ".".intercalate names

example : checkCrossNamespace "primary" "ns:primary/a.b" = .ok (some "a.b") := by decide
example : checkCrossNamespace "primary" "ns:other/a.b" = .error .EINVAL := by decide
example : components "a.b" = ["a", "b"] := by decide
example : joinComponents ["a", "b"] = "a.b" := by decide

end FluxCore.Kvs
