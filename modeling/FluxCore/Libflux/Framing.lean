import FluxCore.Util.Blobref
import Mathlib.Algebra.Order.BigOperators.Group.List
import Mathlib.Tactic.Ring

/-!
# Message Framing

The encoding of a message as a string of bytes, after `libflux/message.c`: every frame is
prefixed by its length, which is one byte below 255, or 255 and four bytes in network order.

Pointers into a buffer are offsets. The encoder returns what it has written, also when it
fails. The decoder reads through `slice`, and a read outside of the buffer is the outcome
`outOfBounds`. Sizes are those of objects in memory; where the source subtracts them the
difference is taken as a `size_t` (`sizeSub`).
-/

namespace FluxCore.Libflux

open List

/-- The difference of two values of type `size_t`. -/
def sizeSub (a b : ℕ) : ℕ := if b ≤ a then a - b else 2 ^ 64 - (b - a)

theorem sizeSub_of_le (h : b ≤ a) : sizeSub a b = a - b := if_pos h

/-- The bytes of `htonl (n)`. -/
def htonl (n : ℕ) : Bytes :=
  [UInt8.ofNat (n / 2 ^ 24), UInt8.ofNat (n / 2 ^ 16), UInt8.ofNat (n / 2 ^ 8), UInt8.ofNat n]

/-- `ntohl` of four bytes. -/
def ntohl : Bytes → ℕ
  | [a, b, c, d] => a.toNat * 2 ^ 24 + b.toNat * 2 ^ 16 + c.toNat * 2 ^ 8 + d.toNat
  | _ => 0

@[simp] theorem length_htonl (n : ℕ) : (htonl n).length = 4 := rfl

theorem ntohl_htonl (h : n < 2 ^ 32) : ntohl (htonl n) = n := by
  simp only [htonl, ntohl, UInt8.toNat_ofNat']
  omega

theorem exists_of_length_four (h : bs.length = 4) : ∃ a b c d, bs = [a, b, c, d] := by
  match bs, h with
  | [a, b, c, d], _ => exact ⟨a, b, c, d, rfl⟩

theorem htonl_ntohl (h : bs.length = 4) : htonl (ntohl bs) = bs ∧ ntohl bs < 2 ^ 32 := by
  obtain ⟨a, b, c, d, rfl⟩ := exists_of_length_four h
  have ha := a.toNat_lt
  have hb := b.toNat_lt
  have hc := c.toNat_lt
  have hd := d.toNat_lt
  have hbyte : ∀ (n : ℕ) (x : UInt8), n % 256 = x.toNat → UInt8.ofNat n = x := by
    intro n x hx
    apply UInt8.toNat_inj.1
    rw [UInt8.toNat_ofNat']
    exact hx
  refine ⟨?_, ?_⟩
  · simp only [ntohl, htonl, List.cons.injEq, and_true]
    refine ⟨hbyte _ _ ?_, hbyte _ _ ?_, hbyte _ _ ?_, hbyte _ _ ?_⟩ <;> omega
  · simp only [ntohl]
    omega

/-! ### The encoder -/

/-- The prefix of a frame. -/
def lengthPrefix (n : ℕ) : Bytes := if n < 255 then [UInt8.ofNat n] else 255 :: htonl n

/-- A frame with its prefix. -/
def encodeFrame (frame : Bytes) : Bytes := lengthPrefix frame.length ++ frame

/-- `flux_msg_encode_size`. -/
def fluxMsgEncodeSize (frames : List Bytes) : ℕ :=
  (frames.map fun frame => (if frame.length < 255 then 1 else 1 + 4) + frame.length).sum

/-- The loop of `flux_msg_encode`, with what has been written to the buffer. -/
def encodeLoop (size : ℕ) : List Bytes → Bytes → Bytes × Option Errno
  | [], written => (written, none)
  | frame :: frames, written =>
    let n := frame.length
    let need := if n < 255 then n + 1 else n + 1 + 4
    if sizeSub size written.length < need then (written, some .EINVAL)
    else encodeLoop size frames (written ++ encodeFrame frame)

/-- `flux_msg_encode` into a buffer of `size` bytes: what is written from the start of the
buffer on, and the error. -/
def fluxMsgEncode (frames : List Bytes) (size : ℕ) : Bytes × Option Errno :=
  encodeLoop size frames []

/-- The encoding of a list of frames. -/
def encoding (frames : List Bytes) : Bytes := frames.flatMap encodeFrame

theorem length_encodeFrame (frame : Bytes) :
    (encodeFrame frame).length = (if frame.length < 255 then 1 else 1 + 4) + frame.length := by
  rw [encodeFrame, lengthPrefix, length_append]
  split_ifs <;> rfl

theorem length_encoding (frames : List Bytes) :
    (encoding frames).length = fluxMsgEncodeSize frames := by
  rw [encoding, fluxMsgEncodeSize, length_flatMap]
  simp only [length_encodeFrame]

variable {frames : List Bytes}

theorem length_le_encodeSize (h : frame ∈ frames) : frame.length ≤ fluxMsgEncodeSize frames := by
  have hmem := List.mem_map_of_mem
    (f := fun frame : Bytes => (if frame.length < 255 then 1 else 1 + 4) + frame.length) h
  exact (Nat.le_add_left _ _).trans (le_sum_of_mem hmem)

/-- **The encoder** writes the encoding if it fits, and otherwise stops within the buffer. -/
theorem encodeLoop_spec (size : ℕ) (frames : List Bytes) (written : Bytes)
    (hw : written.length ≤ size) :
    encodeLoop size frames written = (written ++ encoding frames, none) ∧
        (written ++ encoding frames).length ≤ size ∨
      ∃ part, encodeLoop size frames written = (part, some .EINVAL) ∧ part.length ≤ size ∧
        size < (written ++ encoding frames).length := by
  induction frames generalizing written with
  | nil => exact .inl ⟨by simp [encodeLoop, encoding], by simpa [encoding] using hw⟩
  | cons frame frames ih =>
    have hlen := length_encodeFrame frame
    have henc : encoding (frame :: frames) = encodeFrame frame ++ encoding frames := rfl
    rw [henc, ← append_assoc]
    by_cases hsp : size - written.length
        < if frame.length < 255 then frame.length + 1 else frame.length + 1 + 4
    · rw [encodeLoop, sizeSub_of_le hw, if_pos hsp]
      refine .inr ⟨written, rfl, hw, ?_⟩
      rw [length_append, length_append]
      split_ifs at hsp hlen <;> omega
    rw [encodeLoop, sizeSub_of_le hw, if_neg hsp]
    refine ih _ ?_
    rw [length_append]
    split_ifs at hsp hlen <;> omega

/-! ### The decoder -/

/-- Read `n` bytes at the offset `p`. -/
def slice (buf : Bytes) (p n : ℕ) : Option Bytes :=
  if p + n ≤ buf.length then some ((buf.drop p).take n) else none

/-- The outcomes of the decoder. -/
inductive Decoded
  | ok (frames : List Bytes)
  | error (e : Errno)
  | outOfBounds
  | running
deriving DecidableEq

/-- The message with one more frame at its front. -/
def Decoded.cons (frame : Bytes) : Decoded → Decoded
  | .ok frames => .ok (frame :: frames)
  | r => r

/-- Take a frame of `n` bytes at the offset `p`, and go on after it. -/
def decodeFrame (buf : Bytes) (size : ℕ) (next : ℕ → Decoded) (p n : ℕ) : Decoded :=
  if sizeSub size p < n then .error .EINVAL
  else
    match slice buf p n with
    | none => .outOfBounds
    | some frame => .cons frame (next (p + n))

/-- The loop of `flux_msg_decode` from the offset `p` on. A turn reads at least one byte, so
that `size` turns are enough. -/
def decodeLoop (buf : Bytes) (size : ℕ) : ℕ → ℕ → Decoded
  | 0, p => if p < size then .running else .ok []
  | turns + 1, p =>
    if p < size then
      match buf[p]? with
      | none => .outOfBounds
      | some n =>
        if n = 255 then
          if sizeSub size (p + 1) < 4 then .error .EINVAL
          else
            match slice buf (p + 1) 4 with
            | none => .outOfBounds
            | some bs => decodeFrame buf size (decodeLoop buf size turns) (p + 1 + 4) (ntohl bs)
        else decodeFrame buf size (decodeLoop buf size turns) (p + 1) n.toNat
    else .ok []

/-- `flux_msg_decode` of `size` bytes at the start of `buf`. -/
def fluxMsgDecode (buf : Bytes) (size : ℕ) : Decoded := decodeLoop buf size size 0

/-! ### The grammar -/

/-- **The grammar of encoded messages**: a concatenation of frames, each with a prefix of one
of the two forms. -/
inductive Framed : Bytes → List Bytes → Prop
  | nil : Framed [] []
  | short {frame rest : Bytes} {frames : List Bytes} (h : frame.length < 255)
      (hrest : Framed rest frames) :
      Framed (UInt8.ofNat frame.length :: frame ++ rest) (frame :: frames)
  | long {frame rest : Bytes} {frames : List Bytes} (h : frame.length < 2 ^ 32)
      (hrest : Framed rest frames) :
      Framed (255 :: htonl frame.length ++ frame ++ rest) (frame :: frames)

theorem framed_encoding (h : ∀ frame ∈ frames, frame.length < 2 ^ 32) :
    Framed (encoding frames) frames := by
  induction frames with
  | nil => exact .nil
  | cons frame frames ih =>
    have hrest := ih fun f hf => h f (mem_cons_of_mem _ hf)
    have henc : encoding (frame :: frames)
        = lengthPrefix frame.length ++ frame ++ encoding frames := rfl
    rw [henc, lengthPrefix]
    split_ifs with hsh
    · exact .short hsh hrest
    · exact .long (h frame mem_cons_self) hrest

section Decode

variable {buf : Bytes} {p : ℕ}

theorem slice_of_drop (hp : p ≤ buf.length) (h : buf.drop p = a ++ b) :
    slice buf p a.length = some a ∧ p + a.length ≤ buf.length ∧ buf.drop (p + a.length) = b := by
  have hlen : buf.length = p + a.length + b.length := by
    have := congrArg length h
    rw [length_drop, length_append] at this
    omega
  refine ⟨?_, by omega, ?_⟩
  · rw [slice, if_pos (by omega), h, take_left]
  · rw [← drop_drop, h, drop_left]

theorem drop_of_slice (h : slice buf p n = some a) :
    a.length = n ∧ p + n ≤ buf.length ∧ buf.drop p = a ++ buf.drop (p + n) := by
  rw [slice] at h
  split_ifs at h with hle
  cases h
  refine ⟨by simp; omega, hle, ?_⟩
  rw [← drop_drop, take_append_drop]

theorem decodeFrame_of_drop {next : ℕ → Decoded} (hp : p ≤ buf.length)
    (h : buf.drop p = frame ++ rest)
    (hnext : next (p + frame.length) = .ok frames) :
    decodeFrame buf buf.length next p frame.length = .ok (frame :: frames) := by
  obtain ⟨hslc, hle, -⟩ := slice_of_drop hp h
  rw [decodeFrame, sizeSub_of_le hp, if_neg (by omega), hslc, hnext]
  rfl

/-- **A string of the grammar is decoded.** -/
theorem decodeLoop_of_framed (h : Framed bs frames) (hp : p ≤ buf.length)
    (hdrop : buf.drop p = bs) (htns : buf.length ≤ p + turns) :
    decodeLoop buf buf.length turns p = .ok frames := by
  induction h generalizing p turns with
  | nil =>
    have hend : ¬ p < buf.length := by
      rw [drop_eq_nil_iff] at hdrop
      omega
    cases turns <;> rw [decodeLoop, if_neg hend]
  | @short frame rest frames hsh _ ih =>
    have hcons : buf.drop p = [UInt8.ofNat frame.length] ++ (frame ++ rest) := hdrop
    obtain ⟨-, hle, hdrop'⟩ := slice_of_drop hp hcons
    obtain ⟨-, hle', hrest⟩ := slice_of_drop hle hdrop'
    rw [length_singleton] at hle hdrop' hle' hrest
    obtain ⟨turns, rfl⟩ : ∃ t, turns = t + 1 := Nat.exists_eq_succ_of_ne_zero (by omega)
    have hread : buf[p]? = some (UInt8.ofNat frame.length) := by
      rw [← List.head?_drop, hcons]
      rfl
    have hn : (UInt8.ofNat frame.length).toNat = frame.length := by
      rw [UInt8.toNat_ofNat']
      omega
    have hne : UInt8.ofNat frame.length ≠ 255 := by
      intro heq
      rw [heq] at hn
      exact absurd hn (by simpa using hsh.ne')
    rw [decodeLoop, if_pos (by omega), hread]
    dsimp only
    rw [if_neg hne, hn]
    exact decodeFrame_of_drop hle hdrop' (ih hle' hrest (by omega))
  | @long frame rest frames hlong _ ih =>
    have hcons : buf.drop p = [255] ++ (htonl frame.length ++ (frame ++ rest)) := by
      rw [hdrop]
      simp
    obtain ⟨-, hle, hdrop'⟩ := slice_of_drop hp hcons
    obtain ⟨hslc, hle', hdrop''⟩ := slice_of_drop hle hdrop'
    obtain ⟨-, hle'', hrest⟩ := slice_of_drop hle' hdrop''
    rw [length_singleton] at hle hdrop' hslc hle' hdrop'' hle'' hrest
    rw [length_htonl] at hslc hle' hdrop'' hle'' hrest
    obtain ⟨turns, rfl⟩ : ∃ t, turns = t + 1 := Nat.exists_eq_succ_of_ne_zero (by omega)
    have hread : buf[p]? = some 255 := by
      rw [← List.head?_drop, hcons]
      rfl
    rw [decodeLoop, if_pos (by omega), hread]
    dsimp only
    rw [if_pos rfl, sizeSub_of_le hle, if_neg (by omega), hslc]
    dsimp only
    rw [ntohl_htonl hlong]
    exact decodeFrame_of_drop hle' hdrop'' (ih hle'' hrest (by omega))

/-- What the decoder may answer for a string of bytes. -/
def Decoded.Sound (bs : Bytes) : Decoded → Prop
  | .ok frames => Framed bs frames
  | .error e => e = .EINVAL
  | .outOfBounds => False
  | .running => False

theorem Decoded.Sound.cons (h : r.Sound rest)
    (hfrm : ∀ frames, Framed rest frames → Framed bs (frame :: frames)) :
    (Decoded.cons frame r).Sound bs := by
  cases r with
  | ok frames => exact hfrm frames h
  | error e | outOfBounds | running => exact h

theorem decodeFrame_sound {next : ℕ → Decoded} (hp : p ≤ buf.length)
    (hnext : p + n ≤ buf.length → (next (p + n)).Sound (buf.drop (p + n)))
    (hfrm : ∀ frame frames, frame.length = n → buf.drop p = frame ++ buf.drop (p + n) →
      Framed (buf.drop (p + n)) frames → Framed bs (frame :: frames)) :
    (decodeFrame buf buf.length next p n).Sound bs := by
  rw [decodeFrame, sizeSub_of_le hp]
  split_ifs with hsp
  · rfl
  cases hslc : slice buf p n with
  | none =>
    rw [slice, if_pos (by omega)] at hslc
    cases hslc
  | some frame =>
    obtain ⟨hlen, hle, hdrop⟩ := drop_of_slice hslc
    exact (hnext hle).cons fun frames => hfrm frame frames hlen hdrop

/-- **The decoder** accepts only strings of the grammar, and reads only within the buffer. -/
theorem decodeLoop_sound (turns : ℕ) (hp : p ≤ buf.length) (htns : buf.length ≤ p + turns) :
    (decodeLoop buf buf.length turns p).Sound (buf.drop p) := by
  induction turns generalizing p with
  | zero =>
    rw [decodeLoop, if_neg (by omega), drop_of_length_le (by omega)]
    exact .nil
  | succ turns ih =>
    by_cases hlt : p < buf.length
    · have hcons : buf.drop p = buf[p] :: buf.drop (p + 1) := drop_eq_getElem_cons hlt
      rw [decodeLoop, if_pos hlt, List.getElem?_eq_getElem hlt]
      dsimp only
      by_cases hlong : buf[p] = 255
      · rw [if_pos hlong, sizeSub_of_le hlt]
        by_cases hsp : buf.length - (p + 1) < 4
        · rw [if_pos hsp]
          rfl
        rw [if_neg hsp, slice, if_pos (by omega)]
        have hslc : slice buf (p + 1) 4 = some ((buf.drop (p + 1)).take 4) :=
          if_pos (by omega)
        obtain ⟨hlen, hle, hdrop⟩ := drop_of_slice hslc
        obtain ⟨hbs, hn⟩ := htonl_ntohl hlen
        refine decodeFrame_sound hle (fun h => ih h (by omega)) ?_
        intro frame frames hfrm hdrop' hrest
        have hshp : buf.drop p = 255 :: htonl frame.length ++ frame
            ++ buf.drop (p + 1 + 4 + ntohl ((buf.drop (p + 1)).take 4)) := by
          rw [hcons, hlong, hfrm, hbs, cons_append, cons_append,
            append_assoc, ← hdrop', ← hdrop]
        rw [hshp]
        exact .long (hfrm ▸ hn) hrest
      · rw [if_neg hlong]
        refine decodeFrame_sound hlt (fun h => ih h (by omega)) ?_
        intro frame frames hfrm hdrop hrest
        have hsh : frame.length < 255 := by
          have := buf[p].toNat_lt
          have : buf[p].toNat ≠ 255 := fun h => hlong (UInt8.toNat_inj.1 h)
          omega
        have hshp : buf.drop p
            = UInt8.ofNat frame.length :: frame ++ buf.drop (p + 1 + buf[p].toNat) := by
          rw [hcons, hfrm, UInt8.ofNat_toNat, cons_append, ← hdrop]
        rw [hshp]
        exact .short hsh hrest
    · rw [decodeLoop, if_neg hlt, drop_of_length_le (by omega)]
      exact .nil

theorem fluxMsgDecode_sound (buf : Bytes) : (fluxMsgDecode buf buf.length).Sound buf :=
  decodeLoop_sound buf.length (Nat.zero_le _) (by omega)

theorem fluxMsgDecode_eq_ok_iff :
    fluxMsgDecode buf buf.length = .ok frames ↔ Framed buf frames := by
  constructor
  · intro h
    have hsnd := fluxMsgDecode_sound buf
    rw [h] at hsnd
    exact hsnd
  · intro h
    exact decodeLoop_of_framed h (Nat.zero_le _) rfl (by omega)

theorem fluxMsgDecode_ok_or_error (buf : Bytes) :
    (∃ frames, fluxMsgDecode buf buf.length = .ok frames) ∨
      fluxMsgDecode buf buf.length = .error .EINVAL := by
  have hsnd := fluxMsgDecode_sound buf
  cases hres : fluxMsgDecode buf buf.length with
  | ok frames => exact .inl ⟨frames, rfl⟩
  | error e =>
    rw [hres] at hsnd
    exact .inr (congrArg _ hsnd)
  | outOfBounds | running =>
    rw [hres] at hsnd
    exact hsnd.elim

end Decode

/-! ### The round trip -/

theorem fluxMsgEncode_of_le (h : fluxMsgEncodeSize frames ≤ size) :
    fluxMsgEncode frames size = (encoding frames, none) := by
  rcases encodeLoop_spec size frames [] (Nat.zero_le _) with ⟨hres, -⟩ | ⟨part, -, -, hlt⟩
  · exact hres
  · rw [nil_append, length_encoding] at hlt
    omega

theorem fluxMsgEncode_of_lt (h : size < fluxMsgEncodeSize frames) :
    ∃ part, fluxMsgEncode frames size = (part, some .EINVAL) ∧ part.length ≤ size := by
  rcases encodeLoop_spec size frames [] (Nat.zero_le _) with ⟨-, hle⟩ | ⟨part, hres, hle, -⟩
  · rw [nil_append, length_encoding] at hle
    omega
  · exact ⟨part, hres, hle⟩

/-- **Framing is a bijection onto its grammar.** The frames of a message are encoded into a
buffer of the computed size, which is filled, and are decoded from it; a smaller buffer is an
error, and nothing is written past its end. The decoder accepts the strings of the grammar
and no other, and every outcome is one without a read outside of the buffer. -/
theorem framing_bijection : (∀ frames : List Bytes, (∀ frame ∈ frames, frame.length < 2 ^ 32) →
      (∃ buf, fluxMsgEncode frames (fluxMsgEncodeSize frames) = (buf, none) ∧
        buf.length = fluxMsgEncodeSize frames ∧ fluxMsgDecode buf buf.length = .ok frames) ∧
      ∀ size < fluxMsgEncodeSize frames,
        ∃ part, fluxMsgEncode frames size = (part, some .EINVAL) ∧ part.length ≤ size) ∧
    ∀ buf : Bytes, (∀ frames, fluxMsgDecode buf buf.length = .ok frames ↔ Framed buf frames) ∧
      ((∃ frames, fluxMsgDecode buf buf.length = .ok frames) ∨
        fluxMsgDecode buf buf.length = .error .EINVAL) := by
  refine ⟨?_, fun buf => ⟨fun frames => fluxMsgDecode_eq_ok_iff, fluxMsgDecode_ok_or_error buf⟩⟩
  intro frames hfrms
  refine ⟨⟨encoding frames, fluxMsgEncode_of_le le_rfl, length_encoding frames, ?_⟩, ?_⟩
  · exact fluxMsgDecode_eq_ok_iff.2 (framed_encoding hfrms)
  · intro size hsize
    exact fluxMsgEncode_of_lt hsize

/-- A message with an empty frame and one of a byte. -/
theorem framing_bijection_two : (∃ buf, fluxMsgEncode [[], [7]] 3 = (buf, none) ∧ buf.length = 3 ∧
      fluxMsgDecode buf buf.length = .ok [[], [7]]) ∧
    fluxMsgDecode [0, 1, 7] 3 = .ok [[], [7]] ∧ ¬ Framed [2, 7] [[7]] := by
  refine ⟨(framing_bijection.1 [[], [7]] (by decide)).1, by decide, ?_⟩
  rw [← (framing_bijection.2 [2, 7]).1]
  decide

end FluxCore.Libflux
