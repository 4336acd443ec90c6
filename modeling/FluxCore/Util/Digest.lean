import FluxCore.Util.Blobref
import Mathlib.Data.FinEnum

/-!
# Digests and Blobrefs

The conversions of `libutil/blobref.c` between a digest and its printed form, on the bytes of
C strings (`FluxCore.Util.Blobref` has the blobrefs of the KVS, as text).
**Blobrefs are in bijection with the digests of the supported hash functions** (`blobref_iff`):
the functions that take a blobref apart accept the strings that are printed, and no others.
-/

namespace FluxCore.Digest

open List

/-- `BLOBREF_MAX_DIGEST_SIZE`. -/
def blobrefMaxDigestSize : ℕ := 32

/-- The name of a hash function, as a C string. -/
def name (bh : Blobhash) : Bytes := bh.name.toList.map fun c => c.toNat.toUInt8

/-- `lookup_blobhash`: the string is a name, or it begins with one and a dash. -/
def lookupBlobhash (s : Bytes) : Option Blobhash :=
  blobtab.find? fun bh => s == name bh || (name bh ++ [45]).isPrefixOf s

def isxdigitLower (c : UInt8) : Bool := (48 ≤ c && c ≤ 57) || (97 ≤ c && c ≤ 102)

def xtoint (c : UInt8) : UInt8 :=
  if 48 ≤ c ∧ c ≤ 57 then c - 48 else if 65 ≤ c ∧ c ≤ 70 then c - 65 + 0xA else c - 97 + 0xA

def inttox (i : UInt8) : UInt8 := if i ≤ 9 then 48 + i else 97 + i - 0xa

/-- The value of two digits. -/
abbrev byte (hi lo : UInt8) : UInt8 := xtoint hi <<< 4 ||| xtoint lo

/-- The loop of `blobref_strtohash`. The terminator of the string is no digit. -/
def readDigest : ℕ → Bytes → Option Bytes
  | 0, _ => some []
  | n + 1, hi :: lo :: s =>
    if isxdigitLower hi ∧ isxdigitLower lo then
      (readDigest n s).map (byte hi lo :: ·)
    else none
  | _ + 1, _ => none

/-- `blobref_strtohash` with a buffer of `size` bytes; `none` is EINVAL. -/
def blobrefStrtohash (blobref : Bytes) (size : ℕ) : Option Bytes :=
  match lookupBlobhash blobref with
  | none => none
  | some bh =>
    if size < bh.hashlen then none
    else if blobref.length ≠ bh.hashlen * 2 + (name bh).length + 1 then none
    else readDigest bh.hashlen (blobref.drop ((name bh).length + 1))

/-- The loop of `hashtostr`. -/
def printDigest (hash : Bytes) : Bytes :=
  hash.flatMap fun b : UInt8 => [inttox (b >>> 4), inttox (b &&& 0xf)]

/-- `blobref_hashtostr` with a buffer of `size` bytes. -/
def blobrefHashtostr (hashtype hash : Bytes) (size : ℕ) : Option Bytes :=
  match lookupBlobhash hashtype with
  | none => none
  | some bh =>
    if hash.length ≠ bh.hashlen ∨ size < bh.hashlen * 2 + (name bh).length + 2 then none
    else some (name bh ++ 45 :: printDigest hash)

def blobrefValidate (blobref : Bytes) : Bool :=
  match lookupBlobhash blobref with
  | none => false
  | some bh => blobref.length == bh.hashlen * 2 + (name bh).length + 1 &&
      (blobref.drop ((name bh).length + 1)).all isxdigitLower

/-! ### Digits -/

theorem isxdigitLower_inttox : ∀ b : UInt8, isxdigitLower (inttox (b >>> 4)) ∧
    isxdigitLower (inttox (b &&& 0xf)) ∧ byte (inttox (b >>> 4)) (inttox (b &&& 0xf)) = b := by
  decide +kernel

theorem exists_inttox : ∀ c : UInt8, isxdigitLower c → ∃ i : Fin 16, c = inttox (.ofNat i) := by
  decide +kernel

theorem inttox_byte (hi : isxdigitLower c) (lo : isxdigitLower d) :
    inttox (byte c d >>> 4) = c ∧ inttox (byte c d &&& 0xf) = d := by
  obtain ⟨i, rfl⟩ := exists_inttox c hi
  obtain ⟨j, rfl⟩ := exists_inttox d lo
  revert i j
  decide +kernel

theorem printDigest_cons (b : UInt8) (hash : Bytes) : printDigest (b :: hash) =
    inttox (b >>> 4) :: inttox (b &&& 0xf) :: printDigest hash := rfl

theorem exists_pair {s : Bytes} (hs : s.length = (n + 1) * 2) :
    ∃ hi lo t, s = hi :: lo :: t ∧ t.length = n * 2 := by
  match s with
  | [] | [_] => grind
  | hi :: lo :: t =>
    rw [length_cons, length_cons] at hs
    exact ⟨hi, lo, t, rfl, by omega⟩

/-- The loops are inverse to each other on strings of the right length. -/
theorem readDigest_eq_some_iff {hash : Bytes} (hs : s.length = n * 2) :
    readDigest n s = some hash ↔ hash.length = n ∧ s = printDigest hash := by
  induction n generalizing s hash with
  | zero =>
    rw [eq_nil_of_length_eq_zero hs, length_eq_zero_iff, readDigest, Option.some_inj, eq_comm]
    exact ⟨fun h => ⟨h, by rw [h]; rfl⟩, fun h => h.1⟩
  | succ n ih =>
    obtain ⟨hi, lo, s, rfl, hs'⟩ := exists_pair hs
    rw [readDigest]
    constructor
    · intro h
      split_ifs at h with hx
      obtain ⟨hash', hr, rfl⟩ := Option.map_eq_some_iff.1 h
      obtain ⟨hl, rfl⟩ := (ih hs').1 hr
      obtain ⟨h1, h2⟩ := inttox_byte hx.1 hx.2
      refine ⟨by rw [length_cons, hl], ?_⟩
      rw [printDigest_cons, h1, h2]
    · rintro ⟨hl, hp⟩
      obtain ⟨b, hash, rfl⟩ := exists_cons_of_length_eq_add_one hl
      obtain ⟨rfl, rfl, rfl⟩ : hi = _ ∧ lo = _ ∧ s = printDigest hash := by
        simpa [printDigest_cons] using hp
      obtain ⟨h1, h2, hb⟩ := isxdigitLower_inttox b
      rw [if_pos ⟨h1, h2⟩, (ih hs').2 ⟨by simpa using hl, rfl⟩, Option.map_some, hb]

theorem isSome_readDigest (hs : s.length = n * 2) :
    (readDigest n s).isSome ↔ s.all isxdigitLower := by
  induction n generalizing s with
  | zero => simp [eq_nil_of_length_eq_zero hs, readDigest]
  | succ n ih =>
    obtain ⟨hi, lo, s, rfl, hs'⟩ := exists_pair hs
    rw [readDigest, all_cons, all_cons]
    split_ifs with hx
    · rw [Option.isSome_map, hx.1, hx.2, Bool.true_and, Bool.true_and, ih hs']
    · grind

/-! ### Hash functions -/

theorem mem_of_lookupBlobhash (h : lookupBlobhash s = some bh) :
    bh ∈ blobtab ∧ (s = name bh ∨ ∃ t, s = name bh ++ 45 :: t) := by
  refine ⟨mem_of_find?_eq_some h, ?_⟩
  have hp := find?_some h
  rw [Bool.or_eq_true, beq_iff_eq, isPrefixOf_iff_prefix] at hp
  refine hp.imp_right fun ⟨t, ht⟩ => ⟨t, ?_⟩
  rw [← ht, append_assoc, singleton_append]

theorem lookupBlobhash_name (hb : bh ∈ blobtab) :
    lookupBlobhash (name bh) = some bh ∧ ∀ t, lookupBlobhash (name bh ++ 45 :: t) = some bh := by
  simp only [blobtab, mem_cons, not_mem_nil, or_false] at hb
  rcases hb with rfl | rfl <;> exact ⟨rfl, fun _ => rfl⟩

theorem hashlen_le (hb : bh ∈ blobtab) :
    bh.hashlen ≤ blobrefMaxDigestSize ∧
      bh.hashlen * 2 + (name bh).length + 2 ≤ blobrefMaxStringSize := by
  simp only [blobtab, mem_cons, not_mem_nil, or_false] at hb
  rcases hb with rfl | rfl <;> decide

theorem drop_name (bh : Blobhash) (t : Bytes) :
    (name bh ++ 45 :: t).drop ((name bh).length + 1) = t := by
  simp

theorem length_printDigest (hash : Bytes) : (printDigest hash).length = hash.length * 2 := by
  simp [printDigest]

/-! ### Blobrefs -/

/-- **A digest is read from its printed form, and from nothing else.** -/
theorem blobrefStrtohash_eq_some_iff {s hash : Bytes} :
    blobrefStrtohash s blobrefMaxDigestSize = some hash ↔
      ∃ bh ∈ blobtab, hash.length = bh.hashlen ∧ s = name bh ++ 45 :: printDigest hash := by
  rw [blobrefStrtohash]
  constructor
  · intro h
    split at h
    · cases h
    rename_i bh hbh
    split_ifs at h with hm hl
    obtain ⟨hb, rfl | ⟨t, rfl⟩⟩ := mem_of_lookupBlobhash hbh
    · omega
    have ht : t.length = bh.hashlen * 2 := by
      rw [length_append, length_cons] at hl
      omega
    rw [drop_name, readDigest_eq_some_iff ht] at h
    exact ⟨bh, hb, h.1, by rw [h.2]⟩
  · rintro ⟨bh, hb, hl, rfl⟩
    have hp : (printDigest hash).length = bh.hashlen * 2 := by rw [length_printDigest, hl]
    simp only [(lookupBlobhash_name hb).2]
    rw [if_neg (hashlen_le hb).1.not_gt, if_neg, drop_name, (readDigest_eq_some_iff hp).2 ⟨hl, rfl⟩]
    rw [length_append, length_cons, hp]
    omega

theorem blobrefHashtostr_eq_some_iff {hash : Bytes} (hb : bh ∈ blobtab) :
    blobrefHashtostr (name bh) hash blobrefMaxStringSize = some s ↔
      hash.length = bh.hashlen ∧ s = name bh ++ 45 :: printDigest hash := by
  have hsize := (hashlen_le hb).2.not_gt
  simp only [blobrefHashtostr, (lookupBlobhash_name hb).1]
  split_ifs with h
  · simp [h.resolve_right hsize]
  · rw [not_or, not_not] at h
    rw [Option.some_inj, eq_comm, and_iff_right h.1]

theorem blobrefValidate_iff (s : Bytes) :
    blobrefValidate s ↔ (blobrefStrtohash s blobrefMaxDigestSize).isSome := by
  rw [blobrefValidate, blobrefStrtohash]
  split
  · simp
  rename_i bh hbh
  have hb := (mem_of_lookupBlobhash hbh).1
  rw [if_neg (hashlen_le hb).1.not_gt]
  split_ifs with hl
  · simp [hl]
  · rw [not_not] at hl
    rw [isSome_readDigest (by rw [length_drop, hl]; omega), hl, beq_self_eq_true, Bool.true_and]

/-- **Blobrefs and digests are in bijection:** a string is valid iff a digest can be read from
it iff it is the printed form of a digest, and a printed digest is read as it was. -/
theorem blobref_iff (s : Bytes) :
    (blobrefValidate s ↔ (blobrefStrtohash s blobrefMaxDigestSize).isSome) ∧
    (blobrefValidate s ↔ ∃ bh ∈ blobtab, ∃ hash, hash.length = bh.hashlen ∧
      blobrefHashtostr (name bh) hash blobrefMaxStringSize = some s) ∧
    ∀ bh ∈ blobtab, ∀ hash, hash.length = bh.hashlen →
      ∃ t, blobrefHashtostr (name bh) hash blobrefMaxStringSize = some t ∧
        blobrefStrtohash t blobrefMaxDigestSize = some hash := by
  refine ⟨blobrefValidate_iff s, ?_, fun bh hb hash hl => ?_⟩
  · rw [blobrefValidate_iff, Option.isSome_iff_exists]
    constructor
    · rintro ⟨hash, h⟩
      obtain ⟨bh, hb, hl, hs⟩ := blobrefStrtohash_eq_some_iff.1 h
      exact ⟨bh, hb, hash, hl, (blobrefHashtostr_eq_some_iff hb).2 ⟨hl, hs⟩⟩
    · rintro ⟨bh, hb, hash, -, h⟩
      exact ⟨hash, blobrefStrtohash_eq_some_iff.2 ⟨bh, hb, (blobrefHashtostr_eq_some_iff hb).1 h⟩⟩
  · exact ⟨_, (blobrefHashtostr_eq_some_iff hb).2 ⟨hl, rfl⟩,
      blobrefStrtohash_eq_some_iff.2 ⟨bh, hb, hl, rfl⟩⟩

end FluxCore.Digest
