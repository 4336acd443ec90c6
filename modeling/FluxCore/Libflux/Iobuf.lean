import FluxCore.Libflux.Framing

/-!
# Messages over File Descriptors

`flux_msg_sendfd` and `flux_msg_recvfd` of `libflux/message.c`, which carry a message over a
byte stream behind a header of eight bytes: a magic number and the length of the encoding.
A call that is interrupted by `EAGAIN` is resumed with the same `struct flux_msg_iobuf`.

What the system calls of one call return is given by a list: the bytes that have arrived
together or an error for `read`, the count or an error for `write`. A system call beyond the
end of the list would block, which is `EAGAIN` (on Linux also the value of `EWOULDBLOCK`).
The magic number is in the byte order of the host, which is that of both ends. Allocation
failures are left out.
-/

namespace FluxCore.Libflux

open List

/-- Where the buffer of an `iobuf` is. -/
inductive Buf
  | fixed
  | heap (cap : ℕ)
deriving DecidableEq

/-- `sizeof (io->buf_fixed)`. -/
def bufFixedSize : ℕ := 4096

/-- The size of the buffer. -/
def Buf.cap : Buf → ℕ
  | .fixed => bufFixedSize
  | .heap cap => cap

/-- `struct flux_msg_iobuf`, with the bytes that have been put into the buffer. -/
structure Iobuf where
  buf : Option Buf
  size : ℕ
  done : ℕ
  data : Bytes
deriving DecidableEq

/-- An `iobuf` after `flux_msg_iobuf_init` or `flux_msg_iobuf_clean`. -/
def Iobuf.clean : Iobuf := ⟨none, 0, 0, []⟩

/-- `IOBUF_MAGIC`, as it stands in memory. -/
def iobufMagic : Bytes := [0x12, 0x00, 0xee, 0xff]

/-! ### Receiving -/

/-- What the reads of a call find, in order. -/
abbrev Arrivals := List (Except Errno Bytes)

/-- `read` of at most `n` bytes. What does not fit is left for the next read. -/
def read (n : ℕ) : Arrivals → Except Errno Bytes × Arrivals
  | [] => (.error .EAGAIN, [])
  | .error e :: s => (.error e, s)
  | .ok bs :: s =>
    if bs.length ≤ n then (.ok bs, s) else (.ok (bs.take n), .ok (bs.drop n) :: s)

/-- Bytes that have been read into the buffer. -/
def Iobuf.put (io : Iobuf) (bs : Bytes) : Iobuf :=
  { io with done := io.done + bs.length, data := io.data ++ bs }

/-- Read at most `n` bytes into the buffer. The end of the stream is an error. -/
def readInto (io : Iobuf) (n : ℕ) (s : Arrivals) : Iobuf × Arrivals × Option Errno :=
  match read n s with
  | (.error e, s) => (io, s, some e)
  | (.ok bs, s) => if bs = [] then (io, s, some .EPROTO) else (io.put bs, s, none)

/-- The length field of a header. -/
def lengthField (data : Bytes) : ℕ := ntohl ((data.drop 4).take 4)

/-- Check a complete header, and set the size and the buffer from it. The sum is of type
`uint32_t`. -/
def Iobuf.accept (io : Iobuf) : Except Errno Iobuf :=
  if io.data.take 4 ≠ iobufMagic then .error .EPROTO
  else
    let size := (lengthField io.data + 8) % 2 ^ 32
    if size > bufFixedSize then .ok { io with size := size, buf := some (.heap size) }
    else .ok { io with size := size }

/-- The first part of a turn of the loop: the header. -/
def recvHeader (io : Iobuf) (s : Arrivals) : Iobuf × Arrivals × Option Errno :=
  if io.done < 8 then
    match readInto io (8 - io.done) s with
    | (io, s, some e) => (io, s, some e)
    | (io, s, none) =>
      if io.done = 8 then
        match io.accept with
        | .error e => (io, s, some e)
        | .ok io => (io, s, none)
      else (io, s, none)
  else (io, s, none)

/-- The second part of a turn of the loop: the body. -/
def recvBody (io : Iobuf) (s : Arrivals) : Iobuf × Arrivals × Option Errno :=
  if io.done ≥ 8 ∧ io.done < io.size then readInto io (io.size - io.done) s
  else (io, s, none)

/-- A turn of the loop. -/
def recvTurn (io : Iobuf) (s : Arrivals) : Iobuf × Arrivals × Option Errno :=
  match recvHeader io s with
  | (io, s, some e) => (io, s, some e)
  | (io, s, none) => recvBody io s

/-- The loop of `flux_msg_recvfd`, for at most the given number of turns. -/
def recvLoop : ℕ → Iobuf → Arrivals → Option (Iobuf × Arrivals × Option Errno)
  | 0, _, _ => none
  | turns + 1, io, s =>
    match recvTurn io s with
    | (io, s, some e) => some (io, s, some e)
    | (io, s, none) =>
      if io.done < io.size then recvLoop turns io s else some (io, s, none)

/-- A bound on the number of reads that find something. -/
def weight (s : Arrivals) : ℕ :=
  (s.map fun
    | .ok bs => bs.length + 1
    | .error _ => 1).sum

/-- What a call of `flux_msg_recvfd` returns and leaves: the message, the `iobuf`, what has
not been read, and the `iobuf` with which the decoder was called. -/
structure Received where
  msg : Decoded
  io : Iobuf
  rest : Arrivals
  decode : Option Iobuf
deriving DecidableEq

/-- The buffer at the start of a call. -/
def Iobuf.ready (io : Iobuf) : Iobuf :=
  match io.buf with
  | none => { io with buf := some .fixed, size := bufFixedSize }
  | some _ => io

/-- The size that is passed to the decoder, of type `size_t`. -/
def Iobuf.decodeSize (io : Iobuf) : ℕ := sizeSub io.size 8

/-- `flux_msg_recvfd`. Only what `EAGAIN` interrupts can be resumed. -/
def fluxMsgRecvfd (io : Iobuf) (s : Arrivals) : Received :=
  match recvLoop (weight s + 1) io.ready s with
  | none => ⟨.running, io, s, none⟩
  | some (io, s, some e) => ⟨.error e, if e = .EAGAIN then io else .clean, s, none⟩
  | some (io, s, none) => ⟨fluxMsgDecode (io.data.drop 8) io.decodeSize, .clean, s, some io⟩

/-- The `iobuf`s with which the decoder is called in a series of calls. -/
def decodes : Iobuf → List Arrivals → List Iobuf
  | _, [] => []
  | io, s :: calls =>
    let r := fluxMsgRecvfd io s
    r.decode.toList ++ decodes r.io calls

/-- The size passed to the decoder is the number of bytes that have been read behind the
header, and they are within the buffer. -/
def Iobuf.InBounds (io : Iobuf) : Prop :=
  io.decodeSize = io.data.length - 8 ∧ ∀ buf, io.buf = some buf → 8 + io.decodeSize ≤ buf.cap

instance (io : Iobuf) : Decidable io.InBounds :=
  decidable_of_iff
    (io.decodeSize = io.data.length - 8 ∧ ∀ buf ∈ io.buf, 8 + io.decodeSize ≤ buf.cap) Iff.rfl

/-! ### What a call reads -/

/-- The bytes that arrive. -/
def bytes (s : Arrivals) : Bytes :=
  s.flatMap fun
    | .ok bs => bs
    | .error _ => []

/-- A stream that neither fails nor ends. -/
def Plain (s : Arrivals) : Prop := ∀ r ∈ s, ∃ bs, bs ≠ [] ∧ r = .ok bs

theorem read_ok (h : read n s = (.ok bs, s')) :
    bs.length ≤ n ∧ bytes s = bs ++ bytes s' ∧ (0 < n → weight s' < weight s) ∧
      (Plain s → Plain s' ∧ (0 < n → bs ≠ [])) := by
  match s, h with
  | .ok cs :: s, h =>
    rw [read] at h
    split_ifs at h with hle
    · cases h
      refine ⟨hle, rfl, fun _ => ?_, fun hs => ⟨fun r hr => hs r (.tail _ hr), fun _ => ?_⟩⟩
      · simp only [weight, map_cons, sum_cons]
        omega
      · obtain ⟨_, hne, hcs⟩ := hs _ mem_cons_self
        cases hcs
        exact hne
    · cases h
      refine ⟨by simp, ?_, fun hn => ?_, fun hs => ⟨fun r hr => ?_, fun hn hnil => ?_⟩⟩
      · simp only [bytes, flatMap_cons, ← append_assoc, take_append_drop]
      · simp only [weight, map_cons, sum_cons, length_drop]
        omega
      · rcases mem_cons.1 hr with rfl | hr
        · refine ⟨_, fun hnil => ?_, rfl⟩
          rw [drop_eq_nil_iff] at hnil
          exact hle hnil
        · exact hs r (.tail _ hr)
      · have := congrArg length hnil
        rw [length_take, length_nil] at this
        omega

theorem read_error (h : read n s = (.error e, s')) :
    bytes s' = bytes s ∧ (Plain s → e = .EAGAIN ∧ s' = []) := by
  match s, h with
  | [], h =>
    cases h
    exact ⟨rfl, fun _ => ⟨rfl, rfl⟩⟩
  | .error _ :: s, h =>
    cases h
    refine ⟨rfl, fun hs => ?_⟩
    obtain ⟨_, -, hr⟩ := hs _ mem_cons_self
    cases hr
  | .ok cs :: s, h =>
    rw [read] at h
    split_ifs at h <;> cases h

/-- How a read into the buffer ends. -/
inductive ReadInto (io : Iobuf) (s : Arrivals) (n : ℕ) : Iobuf × Arrivals × Option Errno → Prop
  | failed {s' : Arrivals} {e : Errno} (hbytes : bytes s' = bytes s)
      (hplain : Plain s → e = .EAGAIN ∧ s' = []) : ReadInto io s n (io, s', some e)
  | ok {s' : Arrivals} {bs : Bytes} (hne : bs ≠ []) (hle : bs.length ≤ n)
      (hbytes : bytes s = bs ++ bytes s') (hweight : weight s' < weight s)
      (hplain : Plain s → Plain s') : ReadInto io s n (io.put bs, s', none)

theorem readInto_spec (io : Iobuf) (s : Arrivals) (hn : 0 < n) :
    ReadInto io s n (readInto io n s) := by
  rw [readInto]
  split
  · rename_i e s' h
    obtain ⟨hbs, hpl⟩ := read_error h
    exact .failed hbs hpl
  rename_i bs s' h
  obtain ⟨hle, hbs, hwt, hpl⟩ := read_ok h
  split_ifs with hnil
  · refine .failed ?_ fun hs => absurd hnil ((hpl hs).2 hn)
    rw [hbs, hnil, nil_append]
  · exact .ok hnil hle hbs (hwt hn) fun hs => (hpl hs).1

/-- **The state of a receive buffer** between two reads. Up to the end of the header, it is
the fixed buffer; from there on the size is what the header says. -/
structure Iobuf.Receiving (io : Iobuf) : Prop where
  done_eq : io.done = io.data.length
  header : io.done < 8 → io.buf = some .fixed ∧ io.size = bufFixedSize
  body : 8 ≤ io.done → io.data.take 4 = iobufMagic ∧
    io.size = (lengthField io.data + 8) % 2 ^ 32 ∧ io.done ≤ max 8 io.size ∧
    ∃ buf, io.buf = some buf ∧ io.size ≤ buf.cap

theorem lengthField_append (h : 8 ≤ data.length) (bs : Bytes) :
    lengthField (data ++ bs) = lengthField data := by
  rw [lengthField, lengthField, drop_append_of_le_length (by omega),
    take_append_of_le_length (by rw [length_drop]; omega)]

theorem Iobuf.accept_ok {io io' : Iobuf} (h : io.accept = .ok io') :
    io.data.take 4 = iobufMagic ∧ io'.data = io.data ∧ io'.done = io.done ∧
      io'.size = (lengthField io.data + 8) % 2 ^ 32 ∧
      (io.buf = some .fixed → ∃ buf, io'.buf = some buf ∧ io'.size ≤ buf.cap) := by
  simp only [accept] at h
  split_ifs at h with hmag hsize
  · cases h
    exact ⟨not_not.1 hmag, rfl, rfl, rfl, fun _ => ⟨_, rfl, le_rfl⟩⟩
  · cases h
    exact ⟨not_not.1 hmag, rfl, rfl, rfl, fun hbuf => ⟨_, hbuf, not_lt.1 hsize⟩⟩

theorem Iobuf.accept_error {io : Iobuf} {e : Errno} (h : io.accept = .error e) :
    e = .EPROTO ∧ io.data.take 4 ≠ iobufMagic := by
  simp only [accept] at h
  split_ifs at h with hmag hsize
  cases h
  exact ⟨rfl, hmag⟩

/-- How a part of a call ends. What has been read stands in the buffer, and a call that fails
with `EAGAIN` can be resumed. Nothing is read only from a buffer that is `idle`. -/
inductive Part (idle : Iobuf → Prop) (io : Iobuf) (s : Arrivals) :
    Iobuf × Arrivals × Option Errno → Prop
  | failed {io' : Iobuf} {s' : Arrivals} {e : Errno}
      (hdata : io'.data ++ bytes s' = io.data ++ bytes s)
      (hio : e = .EAGAIN → io'.Receiving ∧ io'.done < io'.size)
      (hplain : Plain s → e = .EAGAIN ∧ s' = [] ∨
        io'.data.length = 8 ∧ io'.data.take 4 ≠ iobufMagic) :
      Part idle io s (io', s', some e)
  | ok {io' : Iobuf} {s' : Arrivals} (hdata : io'.data ++ bytes s' = io.data ++ bytes s)
      (hio : io'.Receiving) (hplain : Plain s → Plain s')
      (hweight : weight s' < weight s ∨ io' = io ∧ s' = s ∧ idle io) :
      Part idle io s (io', s', none)

theorem Part.trans (h : Part idle io s (io', s', none)) (hr : Part idle' io' s' r) :
    Part (fun io => idle io ∧ idle' io) io s r := by
  cases h with
  | ok hdata hio hpl hwt =>
    cases hr with
    | failed hdata' hio' hpl' =>
      exact .failed (hdata'.trans hdata) hio' fun hs => hpl' (hpl hs)
    | ok hdata' hio' hpl' hwt' =>
      refine .ok (hdata'.trans hdata) hio' (fun hs => hpl' (hpl hs)) ?_
      rcases hwt with hlt | ⟨rfl, rfl, hidle⟩
      · rcases hwt' with hlt' | ⟨-, rfl, -⟩
        · exact .inl (hlt'.trans hlt)
        · exact .inl hlt
      · exact hwt'.imp_right fun ⟨hio, hs, hidle'⟩ => ⟨hio, hs, hidle, hidle'⟩

section Parts

variable {io : Iobuf} {s : Arrivals}

theorem Iobuf.Receiving.put_header (h : io.Receiving) (hlt : io.done + bs.length < 8) :
    (io.put bs).Receiving where
  done_eq := by
    simp only [put, length_append, h.done_eq]
  header _ := h.header (by omega)
  body hle := absurd hle (not_le.2 hlt)

theorem Iobuf.Receiving.put_body (h : io.Receiving) (hle : 8 ≤ io.done)
    (hsize : io.done + bs.length ≤ io.size) : (io.put bs).Receiving where
  done_eq := by
    simp only [put, length_append, h.done_eq]
  header hlt := absurd hlt (by simp only [put]; omega)
  body _ := by
    obtain ⟨hmag, hfield, -, hbuf⟩ := h.body hle
    have hlen : 8 ≤ io.data.length := h.done_eq ▸ hle
    refine ⟨?_, ?_, le_max_of_le_right hsize, hbuf⟩
    · rw [put, take_append_of_le_length (by omega), hmag]
    · simp only [put, lengthField_append hlen, hfield]

theorem Iobuf.Receiving.accept {bs : Bytes} {io' : Iobuf} (h : io.Receiving)
    (hlt : io.done < 8) (hdone : (io.put bs).done = 8) (hok : (io.put bs).accept = .ok io') :
    io'.Receiving := by
  obtain ⟨hmag, hdata, hdone', hsize, hbuf⟩ := accept_ok hok
  refine ⟨?_, fun hlt' => ?_, fun _ => ⟨?_, ?_, ?_, hbuf (h.header hlt).1⟩⟩
  · rw [hdone', hdata]
    simp only [put, length_append, h.done_eq]
  · omega
  · rw [hdata, hmag]
  · rw [hsize, hdata]
  · exact le_max_of_le_left (by omega)

theorem recvHeader_part (h : io.Receiving) :
    Part (fun io => 8 ≤ io.done) io s (recvHeader io s) := by
  rw [recvHeader]
  split_ifs with hlt
  · have hread := readInto_spec io s (n := 8 - io.done) (by omega)
    generalize readInto io (8 - io.done) s = r at hread
    cases hread with
    | failed hbs hpl =>
      have hsize : io.done < io.size := by
        rw [(h.header hlt).2, bufFixedSize]
        omega
      exact .failed (by rw [hbs]) (fun _ => ⟨h, hsize⟩) fun hs => .inl (hpl hs)
    | @ok s' bs hne hle hbs hwt hpl =>
      have hdata : (io.put bs).data ++ bytes s' = io.data ++ bytes s := by
        rw [Iobuf.put, append_assoc, ← hbs]
      dsimp only
      split_ifs with hdone
      · cases hacc : (io.put bs).accept with
        | error e =>
          obtain ⟨rfl, hmag⟩ := Iobuf.accept_error hacc
          have hlen : (io.put bs).data.length = 8 := by
            rw [← hdone, Iobuf.put, length_append, h.done_eq]
          exact .failed hdata nofun fun _ => .inr ⟨hlen, hmag⟩
        | ok io' =>
          have hdata' := (Iobuf.accept_ok hacc).2.1
          exact .ok (by rw [hdata', hdata]) (h.accept hlt hdone hacc) hpl (.inl hwt)
      · have hput : io.done + bs.length < 8 := lt_of_le_of_ne (by omega) hdone
        exact .ok hdata (h.put_header hput) hpl (.inl hwt)
  · exact .ok rfl h id (.inr ⟨rfl, rfl, not_lt.1 hlt⟩)

theorem recvBody_part (h : io.Receiving) :
    Part (fun io => ¬ (8 ≤ io.done ∧ io.done < io.size)) io s (recvBody io s) := by
  rw [recvBody]
  split_ifs with hbody
  · have hread := readInto_spec io s (n := io.size - io.done) (by omega)
    generalize readInto io (io.size - io.done) s = r at hread
    cases hread with
    | failed hbs hpl =>
      exact .failed (by rw [hbs]) (fun _ => ⟨h, hbody.2⟩) fun hs => .inl (hpl hs)
    | @ok s' bs hne hle hbs hwt hpl =>
      have hdata : (io.put bs).data ++ bytes s' = io.data ++ bytes s := by
        rw [Iobuf.put, append_assoc, ← hbs]
      exact .ok hdata (h.put_body hbody.1 (by omega)) hpl (.inl hwt)
  · exact .ok rfl h id (.inr ⟨rfl, rfl, hbody⟩)

theorem recvTurn_part (h : io.Receiving) :
    Part (fun io => 8 ≤ io.done ∧ ¬ (8 ≤ io.done ∧ io.done < io.size)) io s
      (recvTurn io s) := by
  have hpart := recvHeader_part (s := s) h
  rw [recvTurn]
  generalize recvHeader io s = r at hpart
  cases hpart with
  | failed hdata hio hpl => exact .failed hdata hio hpl
  | ok hdata hio hpl hwt =>
    exact (Part.ok hdata hio hpl hwt).trans (recvBody_part hio)

/-- **The loop** ends, with an error or with a buffer that holds as much as it has to. -/
theorem recvLoop_part (h : io.Receiving) (htns : weight s < turns) :
    ∃ r, recvLoop turns io s = some r ∧ Part (fun _ => True) io s r ∧
      (r.2.2 = none → r.1.size ≤ r.1.done) := by
  induction turns generalizing io s with
  | zero => omega
  | succ turns ih =>
    have hpart := recvTurn_part (s := s) h
    rw [recvLoop]
    generalize recvTurn io s = r at hpart
    cases hpart with
    | failed hdata hio hpl => exact ⟨_, rfl, .failed hdata hio hpl, nofun⟩
    | @ok io' s' hdata hio hpl hwt =>
      have hfst : Part (fun _ => True) io s (io', s', none) :=
        .ok hdata hio hpl (hwt.imp_right fun ⟨hio, hs, _⟩ => ⟨hio, hs, trivial⟩)
      dsimp only
      split_ifs with hmore
      · have hlt : weight s' < weight s := by
          rcases hwt with hlt | ⟨rfl, -, hidle⟩
          · exact hlt
          · exact absurd ⟨hidle.1, hmore⟩ hidle.2
        obtain ⟨r, hr, hpart, hsize⟩ := ih (s := s') hio (by omega)
        refine ⟨r, hr, ?_, hsize⟩
        simpa only [and_self] using hfst.trans hpart
      · exact ⟨_, rfl, hfst, fun _ => not_lt.1 hmore⟩

/-- A buffer from which a call may start: a clean one, or one left by `EAGAIN`. -/
def Iobuf.Resumable (io : Iobuf) : Prop := io = .clean ∨ io.Receiving ∧ io.done < io.size

theorem Iobuf.Resumable.ready (h : io.Resumable) :
    io.ready.Receiving ∧ io.ready.data = io.data := by
  rcases h with rfl | ⟨h, -⟩
  · exact ⟨⟨rfl, fun _ => ⟨rfl, rfl⟩, fun hle => absurd hle (by decide)⟩, rfl⟩
  have hrdy : io.ready = io := by
    rcases Nat.lt_or_ge io.done 8 with hlt | hle
    · rw [Iobuf.ready, (h.header hlt).1]
    · obtain ⟨-, -, -, buf, hbuf, -⟩ := h.body hle
      rw [Iobuf.ready, hbuf]
  rw [hrdy]
  exact ⟨h, rfl⟩

/-- How a call ends. -/
inductive Recvfd (io : Iobuf) (s : Arrivals) : Received → Prop
  | failed {io' : Iobuf} {s' : Arrivals} {e : Errno}
      (hdata : io'.data ++ bytes s' = io.data ++ bytes s)
      (hio : e = .EAGAIN → io'.Receiving ∧ io'.done < io'.size)
      (hplain : Plain s → e = .EAGAIN ∧ s' = [] ∨
        io'.data.length = 8 ∧ io'.data.take 4 ≠ iobufMagic) :
      Recvfd io s ⟨.error e, if e = .EAGAIN then io' else .clean, s', none⟩
  | decoded {io' : Iobuf} {s' : Arrivals}
      (hdata : io'.data ++ bytes s' = io.data ++ bytes s) (hio : io'.Receiving)
      (hplain : Plain s → Plain s') (hsize : io'.size ≤ io'.done) :
      Recvfd io s ⟨fluxMsgDecode (io'.data.drop 8) io'.decodeSize, .clean, s', some io'⟩

theorem fluxMsgRecvfd_spec (h : io.Resumable) : Recvfd io s (fluxMsgRecvfd io s) := by
  obtain ⟨hrdy, hdata⟩ := h.ready
  obtain ⟨r, hr, hpart, hsize⟩ := recvLoop_part hrdy (Nat.lt_succ_self (weight s))
  rw [fluxMsgRecvfd, hr]
  cases hpart with
  | failed hdata' hio hpl => exact .failed (by rw [hdata', hdata]) hio hpl
  | ok hdata' hio hpl hwt =>
    exact .decoded (by rw [hdata', hdata]) hio hpl (hsize rfl)

theorem fluxMsgRecvfd_resumable (h : io.Resumable) : (fluxMsgRecvfd io s).io.Resumable := by
  have hspec := fluxMsgRecvfd_spec (s := s) h
  generalize fluxMsgRecvfd io s = r at hspec ⊢
  cases hspec with
  | failed hdata hio hpl =>
    dsimp only
    split_ifs with he
    · exact .inr (hio he)
    · exact .inl rfl
  | decoded hdata hio hpl hsize => exact .inl rfl

theorem Iobuf.Receiving.inBounds_iff (h : io.Receiving) (hsize : io.size ≤ io.done) :
    io.InBounds ↔ lengthField io.data < 2 ^ 32 - 8 := by
  have hdone : 8 ≤ io.done := by
    by_contra hlt
    have := (h.header (not_le.1 hlt)).2
    rw [bufFixedSize] at this
    omega
  obtain ⟨-, hfield, hmax, buf, hbuf, hcap⟩ := h.body hdone
  have hlt : lengthField io.data < 2 ^ 32 := by
    have : ((io.data.drop 4).take 4).length = 4 := by
      rw [length_take, length_drop, ← h.done_eq]
      omega
    exact (htonl_ntohl this).2
  rw [InBounds, decodeSize, ← h.done_eq, hbuf]
  constructor
  · rintro ⟨hpsd, -⟩
    by_contra hle
    have hsmall : io.size < 8 := by omega
    rw [sizeSub, if_neg (by omega)] at hpsd
    omega
  · intro hlt
    have heq : io.size = lengthField io.data + 8 := by omega
    have hpsd : sizeSub io.size 8 = io.done - 8 := by
      rw [sizeSub_of_le (by omega)]
      omega
    refine ⟨hpsd, ?_⟩
    rintro _ ⟨⟩
    omega

end Parts

/-! ### The decoder stays in bounds -/

theorem mem_decodes (h : io.Resumable) (hmem : io' ∈ decodes io calls) :
    io'.Receiving ∧ io'.size ≤ io'.done := by
  induction calls generalizing io with
  | nil => cases hmem
  | cons s calls ih =>
    rw [decodes] at hmem
    rcases mem_append.1 hmem with hmem | hmem
    · have hspec := fluxMsgRecvfd_spec (s := s) h
      generalize fluxMsgRecvfd io s = r at hspec hmem
      cases hspec with
      | failed hdata hio hpl => cases hmem
      | decoded hdata hio hpl hsize =>
        cases mem_singleton.1 hmem
        exact ⟨hio, hsize⟩
    · exact ih (fluxMsgRecvfd_resumable h) hmem

/-- **Receiving stays in bounds exactly for lengths that do not overflow.** In a series of
calls with one `iobuf`, over any stream and any chunking of it, every call of the decoder is
given the number of bytes read behind the header, within the buffer, if and only if every
header that reaches the decoder has a length field below `2 ^ 32 - 8`. -/
theorem recvfd_inBounds_iff (calls : List Arrivals) : (∀ io ∈ decodes .clean calls, io.InBounds) ↔
      ∀ io ∈ decodes .clean calls, lengthField io.data < 2 ^ 32 - 8 := by
  refine forall₂_congr fun io hmem => ?_
  obtain ⟨hio, hsize⟩ := mem_decodes (.inl rfl) hmem
  exact hio.inBounds_iff hsize

/-- A header with the length `2 ^ 32 - 8`: the size of the buffer becomes 0, and the decoder
is told that there are `2 ^ 64 - 8` bytes behind the header. -/
theorem recvfd_not_inBounds :
    (decodes .clean [[.ok [0x12, 0x00, 0xee, 0xff, 0xff, 0xff, 0xff, 0xf8]]]).map
        (fun io => (io.decodeSize, io.data.length - 8)) = [(2 ^ 64 - 8, 0)] ∧
      ¬ ∀ io ∈ decodes .clean [[.ok [0x12, 0x00, 0xee, 0xff, 0xff, 0xff, 0xff, 0xf8]]],
        io.InBounds := by
  decide

/-! ### Sending -/

/-- Encode the message into the buffer, unless there is one from an interrupted call. -/
def Iobuf.load (io : Iobuf) (frames : List Bytes) : Except Errno Iobuf :=
  match io.buf with
  | some _ => .ok io
  | none =>
    let size := fluxMsgEncodeSize frames + 8
    let buf := if size ≤ bufFixedSize then .fixed else .heap size
    match fluxMsgEncode frames (size - 8) with
    | (_, some e) => .error e
    | (enc, none) => .ok ⟨some buf, size, 0, iobufMagic ++ htonl (size - 8) ++ enc⟩

/-- The loop of `flux_msg_sendfd`, with what has been written. -/
def sendLoop : Iobuf → List (Except Errno ℕ) → Bytes → Iobuf × Bytes × Option Errno
  | io, [], written => (io, written, some .EAGAIN)
  | io, .error e :: _, written => (io, written, some e)
  | io, .ok n :: ws, written =>
    let rc := min n (io.size - io.done)
    let written := written ++ (io.data.drop io.done).take rc
    let io := { io with done := io.done + rc }
    if io.done < io.size then sendLoop io ws written else (io, written, none)

/-- What a call of `flux_msg_sendfd` returns and leaves: the error, the `iobuf`, and what has
been written. -/
structure Sent where
  err : Option Errno
  io : Iobuf
  written : Bytes
deriving DecidableEq

/-- `flux_msg_sendfd`. Only what `EAGAIN` interrupts can be resumed. -/
def fluxMsgSendfd (io : Iobuf) (frames : List Bytes) (ws : List (Except Errno ℕ)) : Sent :=
  match io.load frames with
  | .error e => ⟨some e, if e = .EAGAIN then io else .clean, []⟩
  | .ok io =>
    match sendLoop io ws [] with
    | (io, written, some e) => ⟨some e, if e = .EAGAIN then io else .clean, written⟩
    | (_, written, none) => ⟨none, .clean, written⟩

/-- **A message on the wire**: the header and the encoding. -/
def packet (frames : List Bytes) : Bytes :=
  iobufMagic ++ htonl (fluxMsgEncodeSize frames) ++ encoding frames

theorem length_packet (frames : List Bytes) :
    (packet frames).length = fluxMsgEncodeSize frames + 8 := by
  rw [packet, length_append, length_append, length_htonl, length_encoding]
  exact Nat.add_comm _ _

/-- A buffer that holds the message, part of which has been written. -/
structure Iobuf.Sending (frames : List Bytes) (io : Iobuf) : Prop where
  buf : io.buf ≠ none
  data : io.data = packet frames
  size : io.size = io.data.length
  more : io.done < io.size

/-- What has been written of the message in the buffer. -/
def Iobuf.sent (io : Iobuf) : Bytes := io.data.take io.done

theorem Iobuf.load_spec {io : Iobuf} {frames : List Bytes} (h : io = .clean ∨ io.Sending frames) :
    ∃ io', io.load frames = .ok io' ∧ io'.Sending frames ∧ io'.sent = io.sent := by
  rcases h with rfl | h
  · have hload : clean.load frames = .ok
        ⟨some (if fluxMsgEncodeSize frames + 8 ≤ bufFixedSize then .fixed
          else .heap (fluxMsgEncodeSize frames + 8)),
          fluxMsgEncodeSize frames + 8, 0, packet frames⟩ := by
      simp only [load, clean, Nat.add_sub_cancel, fluxMsgEncode_of_le le_rfl, packet]
    exact ⟨_, hload, ⟨nofun, rfl, (length_packet frames).symm, Nat.succ_pos _⟩, rfl⟩
  · obtain ⟨buf, hbuf⟩ := Option.ne_none_iff_exists'.1 h.buf
    exact ⟨io, by rw [load, hbuf], h, rfl⟩

theorem sent_advance (io : Iobuf) (rc : ℕ) :
    { io with done := io.done + rc }.sent = io.sent ++ (io.data.drop io.done).take rc :=
  take_add

theorem sendLoop_spec (h : io.Sending frames) (ns : List ℕ) (written : Bytes) : ∃ io' out,
      sendLoop io (ns.map .ok) written = (io', written ++ out, some .EAGAIN) ∧
          io'.Sending frames ∧ io'.sent = io.sent ++ out ∨
        sendLoop io (ns.map .ok) written = (io', written ++ out, none) ∧
          io.sent ++ out = packet frames := by
  induction ns generalizing io written with
  | nil =>
    refine ⟨io, [], .inl ⟨?_, h, (append_nil _).symm⟩⟩
    rw [append_nil, map_nil, sendLoop]
  | cons n ns ih =>
    have hadv := sent_advance io (min n (io.size - io.done))
    rw [map_cons, sendLoop]
    dsimp only
    split_ifs with hmore
    · have hio : Iobuf.Sending frames { io with done := io.done + min n (io.size - io.done) } :=
        { h with more := hmore }
      obtain ⟨io', out, hres⟩ := ih hio (written ++ _)
      refine ⟨io', (io.data.drop io.done).take (min n (io.size - io.done)) ++ out, ?_⟩
      rw [← append_assoc, ← append_assoc, ← hadv]
      exact hres
    · refine ⟨_, _, .inr ⟨rfl, ?_⟩⟩
      rw [← hadv, Iobuf.sent, take_of_length_le (h.size ▸ not_lt.1 hmore), h.data]

/-- **A call of `flux_msg_sendfd`** without fatal errors writes more of the message, and
either comes to its end or can be resumed. -/
theorem fluxMsgSendfd_spec {frames : List Bytes} {io : Iobuf}
    (h : io = .clean ∨ io.Sending frames) (ns : List ℕ) : ∃ io' out,
      fluxMsgSendfd io frames (ns.map .ok) = ⟨some .EAGAIN, io', out⟩ ∧
          io'.Sending frames ∧ io'.sent = io.sent ++ out ∨
        fluxMsgSendfd io frames (ns.map .ok) = ⟨none, .clean, out⟩ ∧
          io.sent ++ out = packet frames := by
  obtain ⟨io₁, hload, hsend, hsent⟩ := Iobuf.load_spec h
  obtain ⟨io', out, ⟨hres, hio', hout⟩ | ⟨hres, hout⟩⟩ := sendLoop_spec hsend ns []
  · refine ⟨io', out, .inl ⟨?_, hio', hsent ▸ hout⟩⟩
    rw [fluxMsgSendfd, hload]
    dsimp only
    rw [hres]
    rfl
  refine ⟨io', out, .inr ⟨?_, hsent ▸ hout⟩⟩
  rw [fluxMsgSendfd, hload]
  dsimp only
  rw [hres]
  rfl

/-! ### Receiving what has been sent -/

section Packets

variable {frames : List Bytes} {io : Iobuf}

theorem drop_packet (frames : List Bytes) : (packet frames).drop 8 = encoding frames := rfl

theorem header_of_prefix (h : data <+: packet frames ++ rest) (hlen : 8 ≤ data.length) :
    data.take 8 = iobufMagic ++ htonl (fluxMsgEncodeSize frames) := by
  obtain ⟨t, ht⟩ := h
  have htake := congrArg (List.take 8) ht
  rw [take_append_of_le_length hlen] at htake
  exact htake

theorem Iobuf.Receiving.size_of_packet (h : io.Receiving)
    (hlen : fluxMsgEncodeSize frames < 2 ^ 32 - 8) (hdata : io.data <+: packet frames ++ rest)
    (hdone : 8 ≤ io.done) : io.size = (packet frames).length ∧ io.data <+: packet frames := by
  obtain ⟨-, hsize, hmax, -⟩ := h.body hdone
  have hdone_eq := h.done_eq
  have hfield : lengthField io.data = fluxMsgEncodeSize frames := by
    have htake : (io.data.drop 4).take 4 = (io.data.take 8).drop 4 := by
      rw [drop_take]
    rw [lengthField, htake, header_of_prefix hdata (by omega)]
    exact ntohl_htonl (by omega)
  have hpacket := length_packet frames
  have hsize' : io.size = (packet frames).length := by omega
  refine ⟨hsize', prefix_of_prefix_length_le hdata (prefix_append _ _) ?_⟩
  omega

/-- **A call of `flux_msg_recvfd`** over a stream that goes on with a message either reads
all there is, without completing the message, or returns the message. -/
theorem fluxMsgRecvfd_packet (h : io.Resumable) (hs : Plain s)
    (hlen : fluxMsgEncodeSize frames < 2 ^ 32 - 8)
    (hdata : io.data ++ bytes s <+: packet frames ++ rest) :
    (∃ io' decode, fluxMsgRecvfd io s = ⟨.error .EAGAIN, io', [], decode⟩ ∧ io'.Resumable ∧
        io'.data = io.data ++ bytes s) ∨
      ∃ s' decode, fluxMsgRecvfd io s = ⟨.ok frames, .clean, s', decode⟩ ∧
        packet frames ++ bytes s' = io.data ++ bytes s := by
  have hspec := fluxMsgRecvfd_spec (s := s) h
  generalize fluxMsgRecvfd io s = r at hspec
  cases hspec with
  | @failed io' s' e hdata' hio hpl =>
    rcases hpl hs with ⟨rfl, rfl⟩ | ⟨hlen', hmag⟩
    · refine .inl ⟨io', none, rfl, .inr (hio rfl), ?_⟩
      rw [← hdata']
      exact (append_nil _).symm
    have hprefix : io'.data <+: packet frames ++ rest :=
      (prefix_append _ _).trans (hdata' ▸ hdata)
    have htake : io'.data.take 4 = (io'.data.take 8).take 4 := by
      rw [take_take]
      rfl
    rw [htake, header_of_prefix hprefix hlen'.ge] at hmag
    exact absurd rfl hmag
  | @decoded io' s' hdata' hio hpl hsize =>
    have hprefix : io'.data <+: packet frames ++ rest :=
      (prefix_append _ _).trans (hdata' ▸ hdata)
    have hdone : 8 ≤ io'.done := by
      by_contra hlt
      have := (hio.header (not_le.1 hlt)).2
      rw [bufFixedSize] at this
      omega
    obtain ⟨hsize', hpre⟩ := hio.size_of_packet hlen hprefix hdone
    have hdone_eq := hio.done_eq
    have heq : io'.data = packet frames := hpre.eq_of_length_le (by omega)
    have hdec : fluxMsgDecode (io'.data.drop 8) io'.decodeSize = .ok frames := by
      have hdecodeSize : io'.decodeSize = (encoding frames).length := by
        rw [Iobuf.decodeSize, hsize', length_packet, sizeSub_of_le (by omega),
          Nat.add_sub_cancel, length_encoding]
      rw [heq, drop_packet, hdecodeSize]
      refine fluxMsgDecode_eq_ok_iff.2 (framed_encoding fun frame hmem => ?_)
      have := length_le_encodeSize hmem
      omega
    refine .inr ⟨s', some io', ?_, heq ▸ hdata'⟩
    rw [hdec]

end Packets

end FluxCore.Libflux
