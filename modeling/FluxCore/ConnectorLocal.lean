import FluxCore.Libflux.Iobuf
import FluxCore.Lib.Machine

/-!
# The Local Connector

The server side of a connection of `connector-local/local.c`, which queues messages to a
client and writes them to a socket as far as it takes them, and the client at the other end,
which reads messages with `flux_msg_recvfd`.

The machine `linkMachine` has a label for each call that touches the queue or the socket. A
label carries what the system calls of the call return: counts for `write`, and bytes for
`read`, which come from the front of what has been written and not yet read. A call may be
stopped by `EAGAIN` after any of them; there are no fatal errors of the socket. Allocations
do not fail.
-/

namespace FluxCore.ConnectorLocal

open Libflux List

/-- A message, as the list of its frames. -/
abbrev Msg := List Bytes

/-- The fields of `client_t` for output: `outqueue`, `outbuf`, and whether the watcher `outw`
is active. -/
structure Client where
  outqueue : List Msg := []
  outbuf : Iobuf := .clean
  outw : Bool := false
deriving DecidableEq

/-- What a call does: the client after it, the bytes it has written, and its error. -/
abbrev Done := Client × Bytes × Option Errno

/-- `client_send_try`. -/
def clientSendTry (c : Client) (ws : List (Except Errno ℕ)) : Done :=
  match c.outqueue with
  | [] => (c, [], none)
  | msg :: outqueue =>
    match fluxMsgSendfd c.outbuf msg ws with
    | ⟨some e, outbuf, written⟩ =>
      if e ≠ .EAGAIN then ({ c with outbuf := outbuf }, written, some e)
      else ({ c with outbuf := outbuf, outw := true }, written, none)
    | ⟨none, outbuf, written⟩ =>
      ({ c with outqueue := outqueue, outbuf := outbuf }, written, none)

/-- `client_send_nocopy`. -/
def clientSendNocopy (c : Client) (msg : Msg) (ws : List (Except Errno ℕ)) : Done :=
  clientSendTry { c with outqueue := c.outqueue ++ [msg] } ws

/-- `client_send`. The copy has the frames of the message. -/
def clientSend (c : Client) (msg : Msg) (ws : List (Except Errno ℕ)) : Done :=
  clientSendNocopy c msg ws

/-- `client_write_cb`, with `FLUX_POLLOUT` among the events or not. The error stands for the
disconnect. -/
def clientWriteCb (c : Client) (pollout : Bool) (ws : List (Except Errno ℕ)) : Done :=
  match if pollout then clientSendTry c ws else (c, [], none) with
  | (c, written, some e) => (c, written, some e)
  | (c, written, none) =>
    if c.outqueue.length = 0 then ({ c with outw := false }, written, none)
    else (c, written, none)

/-! ### The connection -/

/-- The two ends of a connection: the server's client object, the bytes in the socket, and
the `iobuf` of the reader. `queued` and `received` are the messages so far; a connection on
which a call has failed is not `connected`. -/
structure Link where
  client : Client := {}
  pipe : Bytes := []
  inbuf : Iobuf := .clean
  queued : List Msg := []
  received : List Msg := []
  connected : Bool := true
deriving DecidableEq

/-- The calls. -/
inductive Call
  | send (msg : Msg) (ns : List ℕ)
  | writeCb (pollout : Bool) (ns : List ℕ)
  | recv (chunks : List Bytes)

/-- The connection after a call of the server. -/
def Link.write (s : Link) : Done → Link
  | (client, written, err) =>
    { s with
      client := client
      pipe := s.pipe ++ written
      connected := err.isNone }

/-- The connection after a call of the reader, which leaves `pipe` in the socket. -/
def Link.read (s : Link) (r : Received) (pipe : Bytes) : Link :=
  match r.msg with
  | .ok frames =>
    { s with pipe := pipe, inbuf := r.io, received := s.received ++ [frames] }
  | .error .EAGAIN => { s with pipe := pipe, inbuf := r.io }
  | _ => { s with pipe := pipe, inbuf := r.io, connected := false }

/-- **The machine of a connection.** The write callback runs only while the watcher is
active. -/
def linkMachine : Machine Link Call where
  step
    | .send msg ns, s =>
      if s.connected then
        some ({ s with queued := s.queued ++ [msg] }.write
          (clientSend s.client msg (ns.map .ok)))
      else none
    | .writeCb pollout ns, s =>
      if s.connected ∧ s.client.outw then
        some (s.write (clientWriteCb s.client pollout (ns.map .ok)))
      else none
    | .recv chunks, s =>
      if s.connected ∧ (∀ bs ∈ chunks, bs ≠ []) ∧ chunks.flatten <+: s.pipe then
        let r := fluxMsgRecvfd s.inbuf (chunks.map .ok)
        some (s.read r (bytes r.rest ++ s.pipe.drop chunks.flatten.length))
      else none

/-- Messages whose length can be represented in the header. -/
def Sendable (_ : Link) : Call → Prop
  | .send msg _ => fluxMsgEncodeSize msg < 2 ^ 32 - 8
  | _ => True

instance (s : Link) : DecidablePred (Sendable s)
  | .send msg _ => inferInstanceAs (Decidable (fluxMsgEncodeSize msg < 2 ^ 32 - 8))
  | .writeCb _ _ => .isTrue trivial
  | .recv _ => .isTrue trivial

/-! ### The server -/

/-- The buffer is clean, or it holds the message at the head of the queue. -/
def Client.Ok (c : Client) : Prop :=
  c.outbuf = .clean ∨ ∃ msg outqueue, c.outqueue = msg :: outqueue ∧ c.outbuf.Sending msg

/-- What a call of the server does without fatal errors: some messages `sent` are taken from
the head of the queue, and what is written goes on where the last call has stopped. -/
structure Wrote (c : Client) (d : Done) (sent : List Msg) : Prop where
  err : d.2.2 = none
  ok : d.1.Ok
  queue : c.outqueue = sent ++ d.1.outqueue
  written : c.outbuf.sent ++ d.2.1 = sent.flatMap packet ++ d.1.outbuf.sent

theorem sent_clean : Iobuf.clean.sent = [] := rfl

/-- `client_send_try`. If the watcher is not active after it, it was not before, and the head
of the queue has been sent. -/
theorem clientSendTry_spec (h : c.Ok) (ns : List ℕ) :
    ∃ sent, Wrote c (clientSendTry c (ns.map .ok)) sent ∧
      ((clientSendTry c (ns.map .ok)).1.outw = true ∨
        c.outw = false ∧ (clientSendTry c (ns.map .ok)).1.outqueue = c.outqueue.tail) := by
  obtain ⟨outqueue, outbuf, outw⟩ := c
  cases outqueue with
  | nil =>
    have hcl : outbuf = .clean := by
      rcases h with h | ⟨_, _, h, _⟩
      · exact h
      · cases h
    subst hcl
    refine ⟨[], ⟨rfl, .inl rfl, rfl, rfl⟩, ?_⟩
    cases outw with
    | true => exact .inl rfl
    | false => exact .inr ⟨rfl, rfl⟩
  | cons msg outqueue =>
    have hio : outbuf = .clean ∨ outbuf.Sending msg := by
      rcases h with h | ⟨_, _, h, hsend⟩
      · exact .inl h
      · cases h
        exact .inr hsend
    rw [clientSendTry]
    obtain ⟨io', out, ⟨hres, hio', hout⟩ | ⟨hres, hout⟩⟩ := fluxMsgSendfd_spec hio ns
    · dsimp only
      rw [hres]
      exact ⟨[], ⟨rfl, .inr ⟨msg, outqueue, rfl, hio'⟩, rfl, hout.symm⟩, .inl rfl⟩
    dsimp only
    rw [hres]
    refine ⟨[msg], ⟨rfl, .inl rfl, rfl, ?_⟩, ?_⟩
    · simpa [sent_clean] using hout
    · cases outw with
      | true => exact .inl rfl
      | false => exact .inr ⟨rfl, rfl⟩

theorem clientWriteCb_spec (h : c.Ok) (hw : c.outw = true) (pollout : Bool) (ns : List ℕ) :
    ∃ sent, Wrote c (clientWriteCb c pollout (ns.map .ok)) sent ∧
      ((clientWriteCb c pollout (ns.map .ok)).1.outqueue ≠ [] →
        (clientWriteCb c pollout (ns.map .ok)).1.outw = true) := by
  have htry : ∃ sent d, (if pollout then clientSendTry c (ns.map .ok) else (c, [], none)) = d ∧
      Wrote c d sent ∧ d.1.outw = true := by
    cases pollout with
    | true =>
      obtain ⟨sent, hwr, hout | ⟨hout, -⟩⟩ := clientSendTry_spec h ns
      · exact ⟨sent, _, rfl, hwr, hout⟩
      · rw [hw] at hout
        cases hout
    | false => exact ⟨[], _, rfl, ⟨rfl, h, rfl, append_nil _⟩, hw⟩
  obtain ⟨sent, ⟨c', written, err⟩, hd, hwr, hout⟩ := htry
  obtain ⟨rfl, hok, hque, hbytes⟩ := hwr
  refine ⟨sent, ?_, ?_⟩
  · rw [clientWriteCb, hd]
    dsimp only
    split_ifs
    · exact ⟨rfl, hok, hque, hbytes⟩
    · exact ⟨rfl, hok, hque, hbytes⟩
  · rw [clientWriteCb, hd]
    dsimp only
    split_ifs with hemp
    · intro hne
      exact absurd (length_eq_zero_iff.1 hemp) hne
    · exact fun _ => hout

/-! ### The invariant -/

/-- **What the connection carries.** The messages that have been queued and not received are
the messages `flying` that have been written, and those of the queue. The bytes of `flying`
and of the written part of the queue's head are in the reader's buffer and in the socket. -/
structure Link.Carries (s : Link) (flying : List Msg) : Prop where
  connected : s.connected = true
  client : s.client.Ok
  inbuf : s.inbuf.Resumable
  sendable : ∀ msg ∈ s.queued, fluxMsgEncodeSize msg < 2 ^ 32 - 8
  queued : s.queued = s.received ++ flying ++ s.client.outqueue
  carried : s.inbuf.data ++ s.pipe = flying.flatMap packet ++ s.client.outbuf.sent

variable {s : Link} {flying : List Msg}

theorem Link.Carries.write (h : s.Carries flying) (hd : Wrote s.client d sent) :
    (s.write d).Carries (flying ++ sent) where
  connected := by
    simp only [Link.write, hd.err, Option.isNone_none]
  client := hd.ok
  inbuf := h.inbuf
  sendable := h.sendable
  queued := by
    have hq := h.queued
    rw [hd.queue] at hq
    simpa [Link.write] using hq
  carried := by
    calc s.inbuf.data ++ (s.pipe ++ d.2.1)
        = flying.flatMap packet ++ (s.client.outbuf.sent ++ d.2.1) := by
          rw [← append_assoc, h.carried, append_assoc]
      _ = (flying ++ sent).flatMap packet ++ d.1.outbuf.sent := by
          rw [hd.written, flatMap_append, append_assoc]

theorem Link.Carries.enqueue (h : s.Carries flying) (hmsg : fluxMsgEncodeSize msg < 2 ^ 32 - 8) :
    Link.Carries { s with
      queued := s.queued ++ [msg]
      client := { s.client with outqueue := s.client.outqueue ++ [msg] } } flying where
  connected := h.connected
  client := by
    rcases h.client with hcl | ⟨m, ms, hque, hsend⟩
    · exact .inl hcl
    · refine .inr ⟨m, ms ++ [msg], ?_, hsend⟩
      rw [hque, cons_append]
  inbuf := h.inbuf
  sendable m hm := by
    rcases mem_append.1 hm with hm | hm
    · exact h.sendable m hm
    · rw [mem_singleton.1 hm]
      exact hmsg
  queued := by
    rw [h.queued, append_assoc]
  carried := h.carried

theorem Iobuf.Sending.sent_prefix {msg : Msg} {io : Iobuf} (h : io.Sending msg) :
    io.sent <+: packet msg ∧ io.sent.length < (packet msg).length := by
  rw [Iobuf.sent, ← h.data]
  refine ⟨List.take_prefix _ _, ?_⟩
  have := h.more
  have := h.size
  rw [length_take]
  omega

theorem Link.Carries.start (h : s.Carries []) :
    ∃ msg, fluxMsgEncodeSize msg < 2 ^ 32 - 8 ∧ s.inbuf.data ++ s.pipe <+: packet msg ∧
      (s.inbuf.data ++ s.pipe).length < (packet msg).length := by
  have hbytes : s.inbuf.data ++ s.pipe = s.client.outbuf.sent := h.carried
  rw [hbytes]
  rcases h.client with hcl | ⟨msg, ms, hque, hsend⟩
  · rw [hcl]
    exact ⟨[], by decide, nil_prefix, by decide⟩
  refine ⟨msg, h.sendable msg ?_, Iobuf.Sending.sent_prefix hsend⟩
  rw [h.queued, hque]
  simp

theorem Link.Carries.read_again (h : s.Carries flying) (hbs : bs <+: s.pipe) (hio : io.Resumable)
    (hdata : io.data = s.inbuf.data ++ bs) :
    (s.read ⟨.error .EAGAIN, io, [], decode⟩ (s.pipe.drop bs.length)).Carries flying where
  connected := h.connected
  client := h.client
  inbuf := hio
  sendable := h.sendable
  queued := h.queued
  carried := by
    obtain ⟨t, ht⟩ := hbs
    calc io.data ++ s.pipe.drop bs.length
        = s.inbuf.data ++ s.pipe := by
          rw [hdata, ← ht, drop_left, append_assoc]
      _ = flying.flatMap packet ++ s.client.outbuf.sent := h.carried

theorem Link.Carries.read_ok (h : s.Carries (msg :: flying)) (hbs : bs <+: s.pipe)
    (hdata : packet msg ++ bytes s' = s.inbuf.data ++ bs) : (s.read ⟨.ok msg, .clean, s', decode⟩
      (bytes s' ++ s.pipe.drop bs.length)).Carries flying where
  connected := h.connected
  client := h.client
  inbuf := .inl rfl
  sendable := h.sendable
  queued := by
    rw [Link.read, h.queued]
    simp
  carried := by
    obtain ⟨t, ht⟩ := hbs
    have hbytes := h.carried
    rw [← ht, ← append_assoc, ← hdata, flatMap_cons, append_assoc,
      append_assoc, append_cancel_left_eq] at hbytes
    calc Iobuf.clean.data ++ (bytes s' ++ s.pipe.drop bs.length)
        = bytes s' ++ t := by
          rw [← ht, drop_left]
          rfl
      _ = flying.flatMap packet ++ s.client.outbuf.sent := hbytes

theorem plain_chunks {chunks : List Bytes} (h : ∀ bs ∈ chunks, bs ≠ []) :
    Plain (chunks.map .ok) ∧ bytes (chunks.map .ok) = chunks.flatten := by
  refine ⟨?_, ?_⟩
  · intro r hr
    obtain ⟨bs, hbs, rfl⟩ := List.mem_map.1 hr
    exact ⟨bs, h bs hbs, rfl⟩
  · rw [bytes, flatMap_map]
    exact flatMap_id'

/-- **A call of the reader.** -/
theorem Link.Carries.recv {chunks : List Bytes} (h : s.Carries flying)
    (hne : ∀ bs ∈ chunks, bs ≠ []) (hpipe : chunks.flatten <+: s.pipe) :
    ∃ flying', (s.read (fluxMsgRecvfd s.inbuf (chunks.map .ok))
      (bytes (fluxMsgRecvfd s.inbuf (chunks.map .ok)).rest
        ++ s.pipe.drop chunks.flatten.length)).Carries flying' := by
  obtain ⟨hpl, hflat⟩ := plain_chunks hne
  have hsub : s.inbuf.data ++ chunks.flatten <+: s.inbuf.data ++ s.pipe :=
    (prefix_append_right_inj _).2 hpipe
  cases flying with
  | nil =>
    obtain ⟨msg, hmsg, hpre, hlt⟩ := h.start
    have hdata : s.inbuf.data ++ bytes (chunks.map .ok) <+: packet msg ++ [] := by
      rw [hflat, append_nil]
      exact hsub.trans hpre
    rcases fluxMsgRecvfd_packet h.inbuf hpl hmsg hdata with
      ⟨io, decode, hres, hio, hdata'⟩ | ⟨s', decode, -, hdata'⟩
    · rw [hflat] at hdata'
      rw [hres]
      exact ⟨[], h.read_again hpipe hio hdata'⟩
    have hlen := congrArg length hdata'
    have hle := hsub.length_le
    rw [hflat, length_append] at hlen
    omega
  | cons msg flying =>
    have hmsg : fluxMsgEncodeSize msg < 2 ^ 32 - 8 := by
      refine h.sendable msg ?_
      rw [h.queued]
      simp
    have hdata : s.inbuf.data ++ bytes (chunks.map .ok)
        <+: packet msg ++ (flying.flatMap packet ++ s.client.outbuf.sent) := by
      rw [hflat, ← append_assoc, ← flatMap_cons, ← h.carried]
      exact hsub
    rcases fluxMsgRecvfd_packet h.inbuf hpl hmsg hdata with
      ⟨io, decode, hres, hio, hdata'⟩ | ⟨s', decode, hres, hdata'⟩
    · rw [hflat] at hdata'
      rw [hres]
      exact ⟨msg :: flying, h.read_again hpipe hio hdata'⟩
    rw [hflat] at hdata'
    rw [hres]
    exact ⟨flying, h.read_ok hpipe hdata'⟩

theorem Link.Carries.drained (h : s.Carries flying) (hque : s.client.outqueue = [])
    (hpipe : s.pipe = []) : s.received = s.queued := by
  have hcl : s.client.outbuf = .clean := by
    rcases h.client with hcl | ⟨_, _, hcons, _⟩
    · exact hcl
    · rw [hque] at hcons
      cases hcons
  have hdata : s.inbuf.data = flying.flatMap packet := by
    have := h.carried
    rwa [hpipe, hcl, sent_clean, append_nil, append_nil] at this
  cases flying with
  | nil =>
    rw [h.queued, hque, append_nil, append_nil]
  | cons msg flying =>
    exfalso
    have hmsg : fluxMsgEncodeSize msg < 2 ^ 32 - 8 := by
      refine h.sendable msg ?_
      rw [h.queued]
      simp
    have hlen : (packet msg).length ≤ s.inbuf.data.length := by
      rw [hdata, flatMap_cons, length_append]
      omega
    have hpacket := length_packet msg
    rcases h.inbuf with hcl | ⟨hrecv, hmore⟩
    · rw [hcl, Iobuf.clean, length_nil] at hlen
      omega
    have hdone := hrecv.done_eq
    have hpre : s.inbuf.data <+: packet msg ++ flying.flatMap packet :=
      ⟨[], by rw [append_nil, hdata, flatMap_cons]⟩
    have hsize := (hrecv.size_of_packet hmsg hpre (by omega)).1
    omega

/-- The invariant of a connection. -/
structure Link.Inv (s : Link) : Prop where
  carries : ∃ flying, s.Carries flying
  watched : s.client.outqueue ≠ [] → s.client.outw = true

theorem Link.Inv.step {t : Link} (h : s.Inv) (l : Call) (hg : Sendable s l)
    (ht : linkMachine.step l s = some t) : t.Inv := by
  obtain ⟨flying, hcar⟩ := h.carries
  cases l with
  | send msg ns =>
    simp only [linkMachine] at ht
    split_ifs at ht
    cases ht
    have hqd := hcar.enqueue hg
    obtain ⟨sent, hwr, hout⟩ := clientSendTry_spec hqd.client ns
    refine ⟨⟨flying ++ sent, hqd.write hwr⟩, fun hne => ?_⟩
    rcases hout with hout | ⟨hout, htail⟩
    · exact hout
    have hemp : s.client.outqueue = [] := by
      by_contra hne'
      exact absurd (h.watched hne') (by rw [show s.client.outw = false from hout]; decide)
    refine absurd ?_ hne
    rw [Link.write, clientSend, clientSendNocopy, htail, hemp]
    rfl
  | writeCb pollout ns =>
    simp only [linkMachine] at ht
    split_ifs at ht with hactive
    cases ht
    obtain ⟨sent, hwr, hout⟩ := clientWriteCb_spec hcar.client hactive.2 pollout ns
    exact ⟨⟨flying ++ sent, hcar.write hwr⟩, hout⟩
  | recv chunks =>
    simp only [linkMachine] at ht
    split_ifs at ht with henabled
    cases ht
    obtain ⟨-, hne, hpipe⟩ := henabled
    refine ⟨hcar.recv hne hpipe, ?_⟩
    rw [Link.read]
    split <;> exact h.watched

theorem Link.Inv.init : ({} : Link).Inv where
  carries := ⟨[], rfl, .inl rfl, .inl rfl, nofun, rfl, rfl⟩
  watched := absurd rfl

/-- **A connection is a lossless FIFO.** In every state that is reached from a new connection
by calls whose messages fit the length field, no call has failed, the messages received are
the first of the messages queued and all of them once the queue and the socket are empty,
and the write watcher is active unless the queue is empty. -/
theorem link_fifo {s : Link} (h : linkMachine.Reach Sendable (· = {}) s) :
    s.connected = true ∧ s.received <+: s.queued ∧
      (s.client.outqueue = [] → s.pipe = [] → s.received = s.queued) ∧
      (s.client.outqueue ≠ [] → s.client.outw = true) := by
  have hinv : s.Inv := by
    refine h.invariant Link.Inv ?_ fun s l t _ hs hg ht => hs.step l hg ht
    rintro s rfl
    exact Link.Inv.init
  obtain ⟨flying, hcar⟩ := hinv.carries
  refine ⟨hcar.connected, ?_, hcar.drained, hinv.watched⟩
  rw [hcar.queued, append_assoc]
  exact prefix_append _ _

/-- Two messages are queued while the socket takes only part of the first; the callback
writes the rest, and the reader is interrupted in both of them. -/
def twoMessages : List Call :=
  [.send [[1]] [5], .send [[2]] [], .writeCb true [7], .writeCb true [20],
    .recv [[0x12, 0x00, 0xee]], .recv [[0xff, 0, 0, 0, 2, 1, 1, 0x12]],
    .recv [[0x12, 0x00], [0xee, 0xff, 0, 0, 0, 2, 1, 2]]]

theorem link_fifo_twoMessages :
    ∃ s, linkMachine.Reach Sendable (· = {}) s ∧ s.received = [[[1]], [[2]]] ∧
      s.received <+: s.queued := by
  have hrun : (linkMachine.runGuarded (fun s l => decide (Sendable s l)) twoMessages {}).map
      (·.received) = some [[[1]], [[2]]] := by
    decide +kernel
  obtain ⟨s, hs, hrcv⟩ := Option.map_eq_some_iff.1 hrun
  have hrch : linkMachine.Reach Sendable (· = {}) s :=
    .of_runGuarded (fun _ _ h => of_decide_eq_true h) (.start rfl) hs
  exact ⟨s, hrch, hrcv, (link_fifo hrch).2.1⟩

end FluxCore.ConnectorLocal
