import FluxCore.Kvs.Cache
import Mathlib.Data.Option.Basic

/-!
# An Instance of the External Functions

A `Codec` that can be run: SHA-1 for the hash function, the text of RFC 11 tree objects
for JSON, and base64 with padding. The printer writes the same text as `json_dumps` for
strings of printable characters without quotes and backslashes; any other character is
written as a backslash and three bytes. The parser reads back what the printer writes.
-/

namespace FluxCore.Kvs.Rfc11

open List

/-! ### SHA-1 -/

/-- Rotation of a 32-bit word to the left. -/
def rotl (x n : ℕ) : ℕ := ((x <<< n) ||| (x >>> (32 - n))) % 2 ^ 32

/-- The five words of the SHA-1 state. -/
structure Sha1 where
  a : ℕ
  b : ℕ
  c : ℕ
  d : ℕ
  e : ℕ

/-- The function and the constant of round `t`. -/
def sha1Round (t b c d : ℕ) : ℕ × ℕ :=
  if t < 20 then ((b &&& c) ||| ((2 ^ 32 - 1 - b) &&& d), 0x5A827999)
  else if t < 40 then (b ^^^ c ^^^ d, 0x6ED9EBA1)
  else if t < 60 then ((b &&& c) ||| (b &&& d) ||| (c &&& d), 0x8F1BBCDC)
  else (b ^^^ c ^^^ d, 0xCA62C1D6)

/-- The rounds of one block, over its message schedule. -/
def sha1Rounds : ℕ → List ℕ → Sha1 → Sha1
  | _, [], s => s
  | t, w :: ws, s =>
    let f := sha1Round t s.b s.c s.d
    sha1Rounds (t + 1) ws
      { a := (rotl s.a 5 + f.1 + s.e + f.2 + w) % 2 ^ 32, b := s.a, c := rotl s.b 30, d := s.c,
        e := s.d }

/-- The message schedule, newest word first. -/
def sha1Schedule : ℕ → List ℕ → List ℕ
  | 0, ws => ws
  | n + 1, ws =>
    sha1Schedule n
      (rotl (ws.getD 2 0 ^^^ ws.getD 7 0 ^^^ ws.getD 13 0 ^^^ ws.getD 15 0) 1 :: ws)

/-- Big-endian words of a list of bytes. -/
def sha1Words : List ℕ → List ℕ
  | a :: b :: c :: d :: r => (a * 2 ^ 24 + b * 2 ^ 16 + c * 2 ^ 8 + d) :: sha1Words r
  | _ => []

/-- One block. -/
def sha1Block (s : Sha1) (bytes : List ℕ) : Sha1 :=
  let r := sha1Rounds 0 (sha1Schedule 64 (sha1Words bytes).reverse).reverse s
  { a := (s.a + r.a) % 2 ^ 32, b := (s.b + r.b) % 2 ^ 32, c := (s.c + r.c) % 2 ^ 32,
    d := (s.d + r.d) % 2 ^ 32, e := (s.e + r.e) % 2 ^ 32 }

/-- The given number of blocks. -/
def sha1Blocks : ℕ → Sha1 → List ℕ → Sha1
  | 0, s, _ => s
  | k + 1, s, bytes => sha1Blocks k (sha1Block s (bytes.take 64)) (bytes.drop 64)

/-- The message with its padding. -/
def sha1Pad (bytes : List ℕ) : List ℕ :=
  bytes ++ [128] ++ replicate ((119 - bytes.length % 64) % 64) 0 ++
    (range 8).map fun i => bytes.length * 8 / 256 ^ (7 - i) % 256

/-- The digest, as five words. -/
def sha1 (data : Bytes) : List ℕ :=
  let msg := sha1Pad (data.map UInt8.toNat)
  let s := sha1Blocks (msg.length / 64)
    ⟨0x67452301, 0xEFCDAB89, 0x98BADCFE, 0x10325476, 0xC3D2E1F0⟩ msg
  [s.a, s.b, s.c, s.d, s.e]

/-- A hexadecimal digit. -/
def inttox (i : Fin 16) : Char :=
  if i.val ≤ 9 then Char.ofNat (48 + i.val) else Char.ofNat (87 + i.val)

/-- The eight hexadecimal digits of a word. -/
def hexWord (n : ℕ) : List Char :=
  (range 8).map fun i => inttox ⟨n / 16 ^ (7 - i) % 16, Nat.mod_lt _ (by decide)⟩

/-- The digits of the five words of a digest. -/
def hexDigest (s : List ℕ) : List Char :=
  hexWord (s.getD 0 0) ++ hexWord (s.getD 1 0) ++ hexWord (s.getD 2 0) ++ hexWord (s.getD 3 0)
    ++ hexWord (s.getD 4 0)

/-- `blobref_hash` with SHA-1. -/
def blobrefHash (data : Bytes) : Blobref := String.ofList ("sha1-".toList ++ hexDigest (sha1 data))

theorem isxdigitLower_inttox : ∀ i : Fin 16, isxdigitLower (inttox i) = true := by decide

theorem utf8Size_inttox : ∀ i : Fin 16, (inttox i).utf8Size = 1 := by decide

theorem mem_hexDigest (h : ch ∈ hexDigest s) : ∃ i, ch = inttox i := by
  simp only [hexDigest, hexWord, mem_append, List.mem_map] at h
  rcases h with (((⟨_, -, rfl⟩ | ⟨_, -, rfl⟩) | ⟨_, -, rfl⟩) | ⟨_, -, rfl⟩) | ⟨_, -, rfl⟩ <;>
    exact ⟨_, rfl⟩

theorem length_hexDigest (s : List ℕ) : (hexDigest s).length = 40 := by
  simp [hexDigest, hexWord]

theorem utf8ByteSize_ofList (h : ∀ ch ∈ l, ch.utf8Size = 1) :
    (String.ofList l).utf8ByteSize = l.length := by
  induction l with
  | nil => rfl
  | cons ch l ih =>
    have hc := h ch mem_cons_self
    have hl := ih fun x hx => h x (mem_cons_of_mem _ hx)
    have hcons : String.ofList (ch :: l) = String.singleton ch ++ String.ofList l := by
      apply String.toList_inj.mp
      simp
    rw [hcons, String.utf8ByteSize_append, String.utf8ByteSize_singleton, hc, hl, length_cons]
    omega

theorem validate_of_digits (hlen : l.length = 40) (hdig : ∀ ch ∈ l, ∃ i, ch = inttox i) :
    blobrefValidate (String.ofList ("sha1-".toList ++ l)) = true := by
  have hsize : (String.ofList ("sha1-".toList ++ l)).utf8ByteSize = 45 := by
    rw [utf8ByteSize_ofList]
    · simp [hlen]
    · intro ch hch
      rcases mem_append.mp hch with h | h
      · have hall : ∀ ch ∈ ['s', 'h', 'a', '1', '-'], ch.utf8Size = 1 := by
          simp [Char.utf8Size]
        exact hall ch h
      · obtain ⟨i, rfl⟩ := hdig ch h
        exact utf8Size_inttox i
  have hpre : prefixmatch (String.ofList ("sha1-".toList ++ l)) "sha1" = true := by
    simp [prefixmatch]
  have hlook : lookupBlobhash (String.ofList ("sha1-".toList ++ l))
      = some { name := "sha1", hashlen := 20 } := by
    rw [lookupBlobhash, blobtab, List.find?_cons_of_pos]
    rw [hpre, Bool.or_true]
  have hdrop : (String.ofList ("sha1-".toList ++ l)).toList.drop ("sha1".length + 1) = l := by
    rw [String.toList_ofList]
    exact drop_left' (by decide)
  rw [blobrefValidate, hlook]
  simp only [hsize, hdrop, Bool.and_eq_true, List.all_eq_true]
  refine ⟨by decide, fun ch hch => ?_⟩
  obtain ⟨i, rfl⟩ := hdig ch hch
  exact isxdigitLower_inttox i

theorem validate_blobrefHash (data : Bytes) : blobrefValidate (blobrefHash data) = true :=
  validate_of_digits (length_hexDigest _) fun _ h => mem_hexDigest h

/-! ### The text of tree objects -/

/-- The bytes of an ASCII string. -/
def ascii (s : String) : Bytes := s.toList.map fun ch => ch.toNat.toUInt8

/-- A character of a JSON string that stands for itself. -/
def isPlain (ch : Char) : Bool := 32 ≤ ch.toNat && ch.toNat < 127 && ch.toNat != 34 && ch.toNat != 92

/-- A character of a JSON string. -/
def dumpChar (ch : Char) : Bytes :=
  if isPlain ch then [ch.toNat.toUInt8]
  else [92, (ch.toNat / 65536).toUInt8, (ch.toNat / 256 % 256).toUInt8, (ch.toNat % 256).toUInt8]

/-- A JSON string without its opening quote. -/
def dumpChars : List Char → Bytes
  | [] => [34]
  | ch :: l => dumpChar ch ++ dumpChars l

/-- A JSON string. -/
def dumpString (s : String) : Bytes := 34 :: dumpChars s.toList

/-- What follows the first string of an array. -/
def dumpStringsTail : List String → Bytes
  | [] => [93]
  | s :: l => 44 :: (dumpString s ++ dumpStringsTail l)

/-- An array of strings without its opening bracket. -/
def dumpStrings : List String → Bytes
  | [] => [93]
  | s :: l => dumpString s ++ dumpStringsTail l

mutual
/-- A tree object. -/
def dumps : Treeobj Empty → Bytes
  | .val data => ascii "\x7b\"data\":" ++ dumpString data ++ ascii ",\"type\":\"val\",\"ver\":1\x7d"
  | .symlink target =>
    ascii "\x7b\"data\":" ++ dumpString target ++ ascii ",\"type\":\"symlink\",\"ver\":1\x7d"
  | .valref refs =>
    ascii "\x7b\"data\":" ++ 91 :: dumpStrings refs ++ ascii ",\"type\":\"valref\",\"ver\":1\x7d"
  | .dirref refs =>
    ascii "\x7b\"data\":" ++ 91 :: dumpStrings refs ++ ascii ",\"type\":\"dirref\",\"ver\":1\x7d"
  | .dir d => ascii "\x7b\"data\":" ++ 123 :: dumpMembers d ++ ascii ",\"type\":\"dir\",\"ver\":1\x7d"
  | .invalid => ascii "null"

/-- The members of a JSON object without the opening brace. -/
def dumpMembers : Dir Empty → Bytes
  | .nil => [125]
  | .cons name o rest => dumpString name ++ 58 :: dumps o ++ dumpMembersTail rest

/-- What follows the first member of a JSON object. -/
def dumpMembersTail : Dir Empty → Bytes
  | .nil => [125]
  | .cons name o rest => 44 :: (dumpString name ++ 58 :: dumps o ++ dumpMembersTail rest)
end

/-! ### Reading it back -/

/-- Read a string whose opening quote has been read. -/
def loadChars : Bytes → Option (List Char × Bytes)
  | [] => none
  | x :: r =>
    if x = 34 then some ([], r)
    else if x = 92 then
      match r with
      | a :: b :: d :: r =>
        (loadChars r).map fun p =>
          (Char.ofNat (a.toNat * 65536 + b.toNat * 256 + d.toNat) :: p.1, p.2)
      | _ => none
    else (loadChars r).map fun p => (Char.ofNat x.toNat :: p.1, p.2)

/-- Read a string. -/
def loadString : Bytes → Option (String × Bytes)
  | [] => none
  | x :: r => if x = 34 then (loadChars r).map fun p => (String.ofList p.1, p.2) else none

/-- Read a fixed text. -/
def skip : Bytes → Bytes → Option Bytes
  | [], r => some r
  | x :: l, y :: r => if x = y then skip l r else none
  | _ :: _, [] => none

/-- Read what follows the first string of an array. -/
def loadStringsTail : ℕ → Bytes → Option (List String × Bytes)
  | 0, _ => none
  | _ + 1, [] => none
  | n + 1, x :: r =>
    if x = 93 then some ([], r)
    else if x = 44 then do
      let (s, r) ← loadString r
      let (l, r) ← loadStringsTail n r
      pure (s :: l, r)
    else none

/-- Read an array whose opening bracket has been read. -/
def loadStrings (n : ℕ) : Bytes → Option (List String × Bytes)
  | [] => none
  | x :: r =>
    if x = 93 then some ([], r)
    else do
      let (s, r) ← loadString (x :: r)
      let (l, r) ← loadStringsTail n r
      pure (s :: l, r)

/-- The type and the version of an object whose data is a string. -/
def loadStringType (s : String) (r : Bytes) : Option (Treeobj Empty × Bytes) :=
  match skip (ascii ",\"type\":\"val\",\"ver\":1\x7d") r with
  | some r => some (.val s, r)
  | none => (skip (ascii ",\"type\":\"symlink\",\"ver\":1\x7d") r).map fun r => (.symlink s, r)

/-- The type and the version of an object whose data is an array. -/
def loadArrayType (l : List String) (r : Bytes) : Option (Treeobj Empty × Bytes) :=
  match skip (ascii ",\"type\":\"valref\",\"ver\":1\x7d") r with
  | some r => some (.valref l, r)
  | none => (skip (ascii ",\"type\":\"dirref\",\"ver\":1\x7d") r).map fun r => (.dirref l, r)

mutual
/-- Read a tree object. -/
def load : ℕ → Bytes → Option (Treeobj Empty × Bytes)
  | 0, _ => none
  | n + 1, r =>
    match skip (ascii "null") r with
    | some r => some (.invalid, r)
    | none => do
        match ← skip (ascii "\x7b\"data\":") r with
        | [] => none
        | x :: r =>
          if x = 91 then
            let (l, r) ← loadStrings n r
            loadArrayType l r
          else if x = 123 then
            let (d, r) ← loadMembers n r
            let r ← skip (ascii ",\"type\":\"dir\",\"ver\":1\x7d") r
            pure (.dir d, r)
          else
            let (s, r) ← loadString (x :: r)
            loadStringType s r

/-- Read the members of an object whose opening brace has been read. -/
def loadMembers : ℕ → Bytes → Option (Dir Empty × Bytes)
  | 0, _ => none
  | _ + 1, [] => none
  | n + 1, x :: r =>
    if x = 125 then some (.nil, r)
    else loadMember n (x :: r)

/-- Read one member and what follows it. -/
def loadMember : ℕ → Bytes → Option (Dir Empty × Bytes)
  | 0, _ => none
  | n + 1, r => do
      let (name, r) ← loadString r
      let r ← skip [58] r
      let (o, r) ← load n r
      match r with
      | [] => none
      | x :: r =>
        if x = 125 then pure (.cons name o .nil, r)
        else if x = 44 then
          let (rest, r) ← loadMember n r
          pure (.cons name o rest, r)
        else none
end

theorem skip_append (l r : Bytes) : skip l (l ++ r) = some r := by
  induction l with
  | nil => rfl
  | cons x l ih => simp [skip, ih]

theorem loadChars_dumpChars (l : List Char) (r : Bytes) :
    loadChars (dumpChars l ++ r) = some (l, r) := by
  induction l with
  | nil =>
    rw [loadChars.eq_def]
    simp [dumpChars]
  | cons ch l ih =>
    rw [loadChars.eq_def]
    by_cases hp : isPlain ch = true
    · have hb : 32 ≤ ch.toNat ∧ ch.toNat < 127 ∧ ch.toNat ≠ 34 ∧ ch.toNat ≠ 92 := by
        simpa [isPlain, and_assoc] using hp
      have hval : ch.toNat.toUInt8.toNat = ch.toNat := by
        simp only [Nat.toUInt8, UInt8.toNat_ofNat']
        omega
      have h34 : ch.toNat.toUInt8 ≠ 34 := by
        intro he
        rw [he] at hval
        exact hb.2.2.1 hval.symm
      have h92 : ch.toNat.toUInt8 ≠ 92 := by
        intro he
        rw [he] at hval
        exact hb.2.2.2 hval.symm
      simp [dumpChars, dumpChar, hp, h34, h92, ih, hval]
    · have hlt : ch.toNat < 16777216 := by
        have := ch.valid
        simp only [UInt32.isValidChar, Nat.isValidChar] at this
        change ch.val.toNat < _
        omega
      have h1 : (ch.toNat / 65536).toUInt8.toNat = ch.toNat / 65536 := by
        simp only [Nat.toUInt8, UInt8.toNat_ofNat']
        omega
      have h2 : (ch.toNat / 256 % 256).toUInt8.toNat = ch.toNat / 256 % 256 := by
        simp only [Nat.toUInt8, UInt8.toNat_ofNat']
        omega
      have h3 : (ch.toNat % 256).toUInt8.toNat = ch.toNat % 256 := by
        simp only [Nat.toUInt8, UInt8.toNat_ofNat']
        omega
      have hsum : ch.toNat / 65536 * 65536 + ch.toNat / 256 % 256 * 256 + ch.toNat % 256
          = ch.toNat := by omega
      simp [dumpChars, dumpChar, hp, ih, h1, h2, h3, hsum]

theorem loadString_dumpString (s : String) (r : Bytes) :
    loadString (dumpString s ++ r) = some (s, r) := by
  simp [dumpString, loadString, loadChars_dumpChars]

theorem loadStringsTail_dump (l : List String) (r : Bytes) (hn : l.length < n) :
    loadStringsTail n (dumpStringsTail l ++ r) = some (l, r) := by
  induction l generalizing n with
  | nil =>
    obtain ⟨n, rfl⟩ : ∃ m, n = m + 1 := ⟨n - 1, by omega⟩
    simp [dumpStringsTail, loadStringsTail]
  | cons s l ih =>
    obtain ⟨n, rfl⟩ : ∃ m, n = m + 1 := ⟨n - 1, by omega⟩
    have hl := ih (n := n) (by simpa using hn)
    simp [dumpStringsTail, loadStringsTail, loadString_dumpString, hl]

theorem loadStrings_dump (l : List String) (r : Bytes) (hn : l.length < n) :
    loadStrings n (dumpStrings l ++ r) = some (l, r) := by
  cases l with
  | nil => simp [dumpStrings, loadStrings]
  | cons s l =>
    have hs := loadString_dumpString s (dumpStringsTail l ++ r)
    have hl := loadStringsTail_dump l r (n := n) (by simp at hn; omega)
    rw [dumpString, cons_append] at hs
    simp [dumpStrings, dumpString, loadStrings, hs, hl]

theorem loadStringType_val (s : String) (r : Bytes) :
    loadStringType s (ascii ",\"type\":\"val\",\"ver\":1\x7d" ++ r) = some (.val s, r) := by
  rw [loadStringType, skip_append]

theorem loadStringType_symlink (s : String) (r : Bytes) :
    loadStringType s (ascii ",\"type\":\"symlink\",\"ver\":1\x7d" ++ r) = some (.symlink s, r) := by
  have hval : skip (ascii ",\"type\":\"val\",\"ver\":1\x7d")
      (ascii ",\"type\":\"symlink\",\"ver\":1\x7d" ++ r) = none := by
    simp [ascii, skip]
  rw [loadStringType, hval, skip_append, Option.map_some]

theorem loadArrayType_valref (l : List String) (r : Bytes) :
    loadArrayType l (ascii ",\"type\":\"valref\",\"ver\":1\x7d" ++ r) = some (.valref l, r) := by
  rw [loadArrayType, skip_append]

theorem loadArrayType_dirref (l : List String) (r : Bytes) :
    loadArrayType l (ascii ",\"type\":\"dirref\",\"ver\":1\x7d" ++ r) = some (.dirref l, r) := by
  have hval : skip (ascii ",\"type\":\"valref\",\"ver\":1\x7d")
      (ascii ",\"type\":\"dirref\",\"ver\":1\x7d" ++ r) = none := by
    simp [ascii, skip]
  rw [loadArrayType, hval, skip_append, Option.map_some]

mutual
/-- Enough steps for reading an object back. -/
def fuel : Treeobj Empty → ℕ
  | .valref refs => refs.length + 2
  | .dirref refs => refs.length + 2
  | .dir d => fuelMembers d + 2
  | _ => 2

/-- Enough steps for reading the members of an object back. -/
def fuelMembers : Dir Empty → ℕ
  | .nil => 1
  | .cons _ o rest => fuel o + fuelMembers rest + 2
end

theorem skip_null (r : Bytes) : skip (ascii "null") (ascii "\x7b\"data\":" ++ r) = none := by
  simp [ascii, skip]

mutual
theorem load_dumps (o : Treeobj Empty) (r : Bytes) {n : ℕ} (hn : fuel o ≤ n) :
    load n (dumps o ++ r) = some (o, r) := by
  obtain ⟨n, rfl⟩ : ∃ m, n = m + 1 := ⟨n - 1, by cases o <;> simp [fuel] at hn <;> omega⟩
  cases o with
  | held i => exact i.elim
  | invalid => simp [dumps, load, skip_append]
  | val data =>
    have hs := loadString_dumpString data (ascii ",\"type\":\"val\",\"ver\":1\x7d" ++ r)
    rw [dumpString, cons_append] at hs
    simp [dumps, load, skip_null, skip_append, dumpString, hs, loadStringType_val]
  | symlink target =>
    have hs := loadString_dumpString target (ascii ",\"type\":\"symlink\",\"ver\":1\x7d" ++ r)
    rw [dumpString, cons_append] at hs
    simp [dumps, load, skip_null, skip_append, dumpString, hs, loadStringType_symlink]
  | valref refs =>
    have hl := loadStrings_dump refs (ascii ",\"type\":\"valref\",\"ver\":1\x7d" ++ r) (n := n)
      (by simp [fuel] at hn; omega)
    simp [dumps, load, skip_null, skip_append, hl, loadArrayType_valref]
  | dirref refs =>
    have hl := loadStrings_dump refs (ascii ",\"type\":\"dirref\",\"ver\":1\x7d" ++ r) (n := n)
      (by simp [fuel] at hn; omega)
    simp [dumps, load, skip_null, skip_append, hl, loadArrayType_dirref]
  | dir d =>
    cases d with
    | nil =>
      obtain ⟨n, rfl⟩ : ∃ m, n = m + 1 := ⟨n - 1, by simp [fuel] at hn; omega⟩
      simp [dumps, dumpMembers, load, loadMembers, skip_null, skip_append]
    | cons name o rest =>
      obtain ⟨n, rfl⟩ : ∃ m, n = m + 1 := ⟨n - 1, by simp [fuel] at hn; omega⟩
      have hm := loadMember_dump name o rest (ascii ",\"type\":\"dir\",\"ver\":1\x7d" ++ r)
        (n := n) (by simp [fuel] at hn; omega)
      simp only [dumpString, append_assoc, cons_append] at hm
      simp [dumps, dumpMembers, load, loadMembers, skip_null, skip_append, dumpString, hm]
termination_by sizeOf o

theorem loadMember_dump (name : String) (o : Treeobj Empty) (rest : Dir Empty) (r : Bytes)
    {n : ℕ} (hn : fuelMembers (.cons name o rest) ≤ n) :
    loadMember n (dumpString name ++ 58 :: dumps o ++ dumpMembersTail rest ++ r)
      = some (.cons name o rest, r) := by
  rw [fuelMembers] at hn
  obtain ⟨n, rfl⟩ : ∃ m, n = m + 1 := ⟨n - 1, by omega⟩
  have hs := loadString_dumpString name (58 :: (dumps o ++ (dumpMembersTail rest ++ r)))
  have ho := load_dumps o (dumpMembersTail rest ++ r) (n := n) (by omega)
  cases rest with
  | nil =>
    simp only [dumpMembersTail, cons_append, nil_append] at hs ho
    simp [loadMember, dumpMembersTail, hs, ho, skip]
  | cons name' o' rest' =>
    have hm := loadMember_dump name' o' rest' r (n := n) (by omega)
    simp only [dumpMembersTail, append_assoc, cons_append] at hs ho hm
    simp [loadMember, dumpMembersTail, hs, ho, skip, hm]
termination_by 1 + sizeOf o + sizeOf rest
end

theorem length_lt_dumpStringsTail (l : List String) : l.length < (dumpStringsTail l).length := by
  induction l with
  | nil => simp [dumpStringsTail]
  | cons s l ih =>
    simp only [dumpStringsTail, length_cons, length_append]
    omega

theorem length_lt_dumpStrings (l : List String) : l.length < (dumpStrings l).length + 1 := by
  cases l with
  | nil => simp [dumpStrings]
  | cons s l =>
    have := length_lt_dumpStringsTail l
    simp only [dumpStrings, dumpString, length_cons, length_append]
    omega

mutual
theorem fuel_le_dumps (o : Treeobj Empty) : fuel o ≤ (dumps o).length := by
  cases o with
  | held i => exact i.elim
  | invalid | val data | symlink target => simp [fuel, dumps, ascii]
  | valref refs | dirref refs =>
    have := length_lt_dumpStrings refs
    simp [fuel, dumps, ascii]; omega
  | dir d =>
    have := fuelMembers_le_dumpMembers d
    simp [fuel, dumps, ascii]; omega

theorem fuelMembers_le_dumpMembers (d : Dir Empty) : fuelMembers d ≤ (dumpMembers d).length := by
  cases d with
  | nil => simp [fuelMembers, dumpMembers]
  | cons name o rest =>
    have h1 := fuel_le_dumps o
    have h2 := fuelMembers_le_dumpMembersTail rest
    simp only [fuelMembers, dumpMembers, dumpString, length_cons, length_append]
    omega

theorem fuelMembers_le_dumpMembersTail (d : Dir Empty) :
    fuelMembers d ≤ (dumpMembersTail d).length := by
  cases d with
  | nil => simp [fuelMembers, dumpMembersTail]
  | cons name o rest =>
    have h1 := fuel_le_dumps o
    have h2 := fuelMembers_le_dumpMembersTail rest
    simp only [fuelMembers, dumpMembersTail, dumpString, length_cons, length_append]
    omega
end

/-- Read a text that holds one tree object and nothing else. -/
def jsonLoadb (buf : Bytes) : Option (Treeobj Empty) :=
  match load buf.length buf with
  | some (o, []) => some o
  | _ => none

/-- **Round trip:** a tree object is read back from its text. -/
theorem jsonLoadb_dumps (o : Treeobj Empty) : jsonLoadb (dumps o) = some o := by
  have h := load_dumps o [] (fuel_le_dumps o)
  rw [append_nil] at h
  rw [jsonLoadb, h]

theorem dumps_ne_nil (o : Treeobj Empty) : dumps o ≠ [] := by
  intro h
  have := fuel_le_dumps o
  rw [h] at this
  cases o <;> simp [fuel] at this

/-! ### Base64 -/

/-- The value of a base64 digit. -/
def base64Digit (ch : Char) : Option ℕ :=
  if ch.isUpper then some (ch.toNat - 65)
  else if ch.isLower then some (ch.toNat - 71)
  else if ch.isDigit then some (ch.toNat + 4)
  else if ch = '+' then some 62
  else if ch = '/' then some 63
  else none

/-- The bytes of a padded base64 text. -/
def base64Decode : List Char → Option Bytes
  | [] => some []
  | a :: b :: x :: y :: l => do
      let i ← base64Digit a
      let j ← base64Digit b
      let first := (i * 4 + j / 16).toUInt8
      if y = '=' then
        guard (l = [])
        if x = '=' then
          guard (j % 16 = 0)
          pure [first]
        else
          let k ← base64Digit x
          guard (k % 4 = 0)
          pure [first, (j % 16 * 16 + k / 4).toUInt8]
      else
        let k ← base64Digit x
        let n ← base64Digit y
        let rest ← base64Decode l
        pure (first :: (j % 16 * 16 + k / 4).toUInt8 :: (k % 4 * 64 + n).toUInt8 :: rest)
  | _ => none

/-- `sodium_base642bin` for the original, padded alphabet. -/
def sodiumBase642bin (s : String) : Option Bytes := base64Decode s.toList

example : sodiumBase642bin "Zmx1eA==" = some (ascii "flux") := by decide

theorem sodiumBase642bin_ne_nil (hs : s ≠ "") : sodiumBase642bin s ≠ some [] := by
  have hl : s.toList ≠ [] := by simpa using hs
  rw [sodiumBase642bin]
  generalize s.toList = l at hl
  intro h
  match l with
  | [] => exact hl rfl
  | [_] | [_, _] | [_, _, _] => simp [base64Decode] at h
  | a :: b :: x :: y :: l =>
    simp only [base64Decode, Option.bind_eq_bind, Option.bind_eq_some_iff] at h
    obtain ⟨i, -, j, -, h⟩ := h
    split_ifs at h <;> simp [Option.bind_eq_some_iff] at h

/-- The base64 digit with the given value. -/
def base64Char (n : ℕ) : Char :=
  if n < 26 then Char.ofNat (n + 65)
  else if n < 52 then Char.ofNat (n + 71)
  else if n < 62 then Char.ofNat (n - 4)
  else if n = 62 then '+'
  else '/'

theorem base64Digit_base64Char : ∀ n : Fin 64, base64Digit (base64Char n) = some n.val := by
  decide

theorem base64Char_ne_pad : ∀ n : Fin 64, base64Char n ≠ '=' := by
  decide

/-- The padded base64 text of some bytes. -/
def base64Encode : Bytes → List Char
  | [] => []
  | [a] => [base64Char (a.toNat / 4), base64Char (a.toNat % 4 * 16), '=', '=']
  | [a, b] =>
    [base64Char (a.toNat / 4), base64Char (a.toNat % 4 * 16 + b.toNat / 16),
      base64Char (b.toNat % 16 * 4), '=']
  | a :: b :: d :: l =>
    base64Char (a.toNat / 4) :: base64Char (a.toNat % 4 * 16 + b.toNat / 16) ::
      base64Char (b.toNat % 16 * 4 + d.toNat / 64) :: base64Char (d.toNat % 64) ::
      base64Encode l

/-- `sodium_bin2base64` for the original, padded alphabet. -/
def sodiumBin2base64 (data : Bytes) : String := String.ofList (base64Encode data)

theorem base64Decode_base64Encode (l : Bytes) : base64Decode (base64Encode l) = some l := by
  have hdigit : ∀ n, n < 64 → base64Digit (base64Char n) = some n :=
    fun n hn => base64Digit_base64Char ⟨n, hn⟩
  have hpad : ∀ n, n < 64 → base64Char n ≠ '=' := fun n hn => base64Char_ne_pad ⟨n, hn⟩
  have hbyte : ∀ (a : UInt8) (n : ℕ), n = a.toNat → n.toUInt8 = a := by
    rintro a n rfl
    exact UInt8.ofNat_toNat
  induction l using base64Encode.induct with
  | case1 => rfl
  | case2 a =>
    have ha := a.toNat_lt
    simp only [base64Encode, base64Decode, hdigit _ (show a.toNat / 4 < 64 by omega),
      hdigit _ (show a.toNat % 4 * 16 < 64 by omega), Option.bind_eq_bind, Option.bind_some,
      guard, if_true]
    rw [if_pos (by omega), hbyte a _ (by omega)]
    rfl
  | case3 a b =>
    have ha := a.toNat_lt
    have hb := b.toNat_lt
    simp only [base64Encode, base64Decode, hdigit _ (show a.toNat / 4 < 64 by omega),
      hdigit _ (show a.toNat % 4 * 16 + b.toNat / 16 < 64 by omega),
      hdigit _ (show b.toNat % 16 * 4 < 64 by omega),
      hpad _ (show b.toNat % 16 * 4 < 64 by omega), Option.bind_eq_bind, Option.bind_some,
      guard, if_true, if_false]
    rw [if_pos (by omega), hbyte a _ (by omega), hbyte b _ (by omega)]
    rfl
  | case4 a b d l ih =>
    have ha := a.toNat_lt
    have hb := b.toNat_lt
    have hd := d.toNat_lt
    simp only [base64Encode, base64Decode, hdigit _ (show a.toNat / 4 < 64 by omega),
      hdigit _ (show a.toNat % 4 * 16 + b.toNat / 16 < 64 by omega),
      hdigit _ (show b.toNat % 16 * 4 + d.toNat / 64 < 64 by omega),
      hdigit _ (show d.toNat % 64 < 64 by omega),
      hpad _ (show d.toNat % 64 < 64 by omega), ih, Option.bind_eq_bind, Option.bind_some,
      if_false]
    rw [hbyte a _ (by omega), hbyte b _ (by omega), hbyte d _ (by omega)]
    rfl

theorem sodiumBase642bin_sodiumBin2base64 (data : Bytes) :
    sodiumBase642bin (sodiumBin2base64 data) = some data := by
  rw [sodiumBase642bin, sodiumBin2base64, String.toList_ofList]
  exact base64Decode_base64Encode data

/-- **The codec of a Flux instance** with its default hash function. -/
def codec : Codec where
  blobrefHash := blobrefHash
  jsonDumps := dumps
  jsonLoadb := jsonLoadb
  sodiumBase642bin := sodiumBase642bin
  validate_hash := validate_blobrefHash
  load_dumps := jsonLoadb_dumps
  dumps_ne_nil := dumps_ne_nil
  base642bin_ne_nil := fun _ => sodiumBase642bin_ne_nil

end FluxCore.Kvs.Rfc11
