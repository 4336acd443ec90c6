import FluxCore.Libflux.Framing
import FluxCore.Util.Message

/-!
# Messages

The operations of `libflux/message.c` on the frames of a message. The last frame is the
`proto` block of twenty bytes, whose flags say which of the other parts are there: a stack of
route frames that ends with an empty frame, the topic and the payload.

A message is a `zmsg_t`, and its frames are found by position. The cursor of `zmsg_next` is
the position of the frame that the next call returns, so that after a `zmsg_remove` of the
frame under the cursor it is the frame that followed. Every use of the cursor starts with a
`zmsg_first`; that `zmsg_last` moves it is left out where nothing is read through it.
Allocations do not fail.

The second part of the file has the parts of a message as a structure (`Parts`), their
layout as frames, and each operation as a change of one part. **The operations on frames
implement those on parts.**
-/

namespace FluxCore.Libflux

open List

/-! ### czmq -/

/-- `zmsg_t`. -/
structure Zmsg where
  frames : List Bytes
  next : ℕ := 0
deriving DecidableEq

namespace Zmsg

/-- `zmsg_first`. -/
def first (z : Zmsg) : Option ℕ × Zmsg :=
  (if z.frames = [] then none else some 0, { z with next := 1 })

/-- `zmsg_next`. -/
def advance (z : Zmsg) : Option ℕ × Zmsg :=
  (if z.next < z.frames.length then some z.next else none, { z with next := z.next + 1 })

/-- `zmsg_remove`: the frame, which the caller keeps, and the message without it. -/
def remove (z : Zmsg) (i : ℕ) : Bytes × Zmsg :=
  (z.frames.getD i [], ⟨z.frames.eraseIdx i, if i < z.next then z.next - 1 else z.next⟩)

/-- `zmsg_append` and `zmsg_addmem`. -/
def append (z : Zmsg) (frame : Bytes) : Zmsg := { z with frames := z.frames ++ [frame] }

/-- `zmsg_pushmem` and `zmsg_pushstr`. -/
def push (z : Zmsg) (frame : Bytes) : Zmsg := { z with frames := frame :: z.frames }

/-- `zframe_size`. -/
def size (z : Zmsg) (i : ℕ) : ℕ := (z.frames.getD i []).length

/-- `zframe_reset`. -/
def reset (z : Zmsg) (i : ℕ) (data : Bytes) : Zmsg := { z with frames := z.frames.set i data }

end Zmsg

/-! ### The proto block -/

/-- The block has the size, the magic number and the version of the protocol. -/
def protoValid (data : Bytes) : Bool :=
  !(data.length < 20 || data[0]? != some 0x8e || data[1]? != some 1)

/-- `proto_get_type`. -/
def protoGetType (data : Bytes) : Option UInt8 := if protoValid data then data[2]? else none

/-- `proto_get_flags`. -/
def protoGetFlags (data : Bytes) : Option UInt8 := if protoValid data then data[3]? else none

/-- `proto_set_flags`. -/
def protoSetFlags (data : Bytes) (flags : UInt8) : Option Bytes :=
  if protoValid data then some (data.set 3 flags) else none

/-- Copy a number in network order to an offset of the block. -/
def protoSet (off : ℕ) (data : Bytes) (x : ℕ) : Option Bytes :=
  if protoValid data then some (data.take off ++ htonl x ++ data.drop (off + 4)) else none

/-- The number at an offset of the block. -/
def protoGet (off : ℕ) (data : Bytes) : Option ℕ :=
  if protoValid data then some (ntohl ((data.drop off).take 4)) else none

/-- `proto_set_userid`. -/
def protoSetUserid := protoSet 4

/-- `proto_set_rolemask`. -/
def protoSetRolemask := protoSet 8

/-- `proto_set_bigint`. -/
def protoSetBigint := protoSet 12

/-- `proto_set_bigint2`. -/
def protoSetBigint2 := protoSet 16

/-- `proto_get_bigint2`. -/
def protoGetBigint2 := protoGet 16

/-- `FLUX_NODEID_ANY`. -/
def nodeidAny : ℕ := 0xFFFFFFFF

/-- `proto_set_type`, for the types of messages: 1 for a request, 2 for a response, 4 for an
event and 8 for a keepalive message. -/
def protoSetType (data : Bytes) (type : ℕ) : Option Bytes :=
  if protoValid data then
    match type with
    | 1 => do
        let data ← protoSetBigint data nodeidAny
        let data ← protoSetBigint2 data matchtagNone.toNat
        some (data.set 2 1)
    | 2 => do
        let data ← protoSetBigint data 0
        some (data.set 2 2)
    | 4 => do
        let data ← protoSetBigint data 0
        let data ← protoSetBigint2 data 0
        some (data.set 2 4)
    | 8 => do
        let data ← protoSetBigint data 0
        let data ← protoSetBigint2 data 0
        some (data.set 2 8)
    | _ => none
  else none

/-- `FLUX_ROLE_NONE`. -/
def roleNone : ℕ := 0

/-- `proto_init`. -/
def protoInit (flags : UInt8) : Bytes :=
  let data := (((replicate 20 0).set 0 0x8e).set 1 1).set 3 flags
  let data := (protoSetUserid data useridUnknown.toNat).getD data
  (protoSetRolemask data roleNone).getD data

/-! ### Flags -/

/-- `FLUX_MSGFLAG_TOPIC`. -/
def msgflagTopic : UInt8 := 0x01

/-- `FLUX_MSGFLAG_PAYLOAD`. -/
def msgflagPayload : UInt8 := 0x02

/-- `FLUX_MSGFLAG_ROUTE`. -/
def msgflagRoute : UInt8 := 0x08

/-- `flux_msg_get_flags`; `none` is `EPROTO`. -/
def fluxMsgGetFlags (z : Zmsg) : Option UInt8 := z.frames.getLast?.bind protoGetFlags

/-- The outcome of an operation: the error or the id that `flux_msg_pop_route` returns, and
the message. -/
abbrev Outcome := Except Errno (Option Bytes) × Zmsg

/-- `flux_msg_set_flags`. -/
def fluxMsgSetFlags (z : Zmsg) (flags : UInt8) : Outcome :=
  match z.frames.getLast?.bind (protoSetFlags · flags) with
  | none => (.error .EINVAL, z)
  | some proto => (.ok none, ⟨z.frames.dropLast ++ [proto], z.frames.length⟩)

/-! ### The operations -/

/-- `flux_msg_create`. -/
def fluxMsgCreate (type : ℕ) : Except Errno Zmsg :=
  match protoSetType (protoInit 0) type with
  | none => .error .EINVAL
  | some proto => .ok ⟨[proto], 0⟩

/-- `flux_msg_enable_route`. -/
def fluxMsgEnableRoute (z : Zmsg) : Outcome :=
  match fluxMsgGetFlags z with
  | none => (.error .EPROTO, z)
  | some flags =>
    if flags &&& msgflagRoute ≠ 0 then (.ok none, z)
    else fluxMsgSetFlags (z.push []) (flags ||| msgflagRoute)

/-- The loop of `flux_msg_clear_route`: pop frames up to an empty one. -/
def popRoutes : List Bytes → List Bytes
  | [] => []
  | frame :: frames => if frame.length = 0 then frames else popRoutes frames

/-- `flux_msg_clear_route`. -/
def fluxMsgClearRoute (z : Zmsg) : Outcome :=
  match fluxMsgGetFlags z with
  | none => (.error .EPROTO, z)
  | some flags =>
    if flags &&& msgflagRoute = 0 then (.ok none, z)
    else fluxMsgSetFlags { z with frames := popRoutes z.frames } (flags &&& ~~~msgflagRoute)

/-- `flux_msg_push_route`. -/
def fluxMsgPushRoute (z : Zmsg) (id : Bytes) : Outcome :=
  match fluxMsgGetFlags z with
  | none => (.error .EPROTO, z)
  | some flags =>
    if flags &&& msgflagRoute = 0 then (.error .EPROTO, z) else (.ok none, z.push id)

/-- `flux_msg_pop_route`. -/
def fluxMsgPopRoute (z : Zmsg) : Outcome :=
  match fluxMsgGetFlags z with
  | none => (.error .EPROTO, z)
  | some flags =>
    if flags &&& msgflagRoute = 0 then (.error .EPROTO, z)
    else
      match z.frames with
      | [] => (.error .EPROTO, z)
      | frame :: frames =>
        if frame.length > 0 then (.ok (some frame), { z with frames := frames })
        else (.ok none, z)

/-- Advance the cursor to the first empty frame. -/
def skipRoutes : ℕ → Zmsg → Option ℕ → Option ℕ × Zmsg
  | turns + 1, z, some i =>
    if z.size i > 0 then skipRoutes turns z.advance.2 z.advance.1 else (some i, z)
  | _, z, zf => (zf, z)

/-- The first frame behind the routes and their delimiter, if the flags say that there are
any. -/
def skipRouteFrames (z : Zmsg) (flags : UInt8) : Option ℕ × Zmsg :=
  let (zf, z) := z.first
  if flags &&& msgflagRoute ≠ 0 then
    match skipRoutes z.frames.length z zf with
    | (none, z) => (none, z)
    | (some _, z) => z.advance
  else (zf, z)

/-- The second case of `flux_msg_set_topic`: a topic is added at the position of the frame
`zf`, by appending it and then the frames that are taken from there. -/
def addTopic (z : Zmsg) (i : ℕ) (flags : UInt8) (topic : Bytes) : Zmsg :=
  let (zf, z) := z.remove i
  if flags &&& msgflagPayload ≠ 0 then
    match z.advance with
    | (none, z) => (z.append (topic ++ [0])).append zf
    | (some j, z) =>
      let (zf2, z) := z.remove j
      ((z.append (topic ++ [0])).append zf).append zf2
  else (z.append (topic ++ [0])).append zf

/-- `flux_msg_set_topic`. -/
def fluxMsgSetTopic (z : Zmsg) (topic : Option Bytes) : Outcome :=
  match fluxMsgGetFlags z with
  | none => (.error .EPROTO, z)
  | some flags =>
    match skipRouteFrames z flags with
    | (none, z) => (.error .EPROTO, z)
    | (some i, z) =>
      match decide (flags &&& msgflagTopic ≠ 0), topic with
      | true, some topic => (.ok none, z.reset i (topic ++ [0]))
      | false, some topic =>
        fluxMsgSetFlags (addTopic z i flags topic) (flags ||| msgflagTopic)
      | true, none => fluxMsgSetFlags (z.remove i).2 (flags &&& ~~~msgflagTopic)
      | false, none => (.ok none, z)

/-- The first frame behind the routes and the topic, if the flags say that there is one. -/
def skipTopicFrame (z : Zmsg) (flags : UInt8) : Option ℕ × Zmsg :=
  match skipRouteFrames z flags with
  | (none, z) => (none, z)
  | (some i, z) => if flags &&& msgflagTopic ≠ 0 then z.advance else (some i, z)

/-- `flux_msg_set_payload` with a buffer that does not overlap the message. -/
def fluxMsgSetPayload (z : Zmsg) (buf : Option Bytes) (size : ℤ) : Outcome :=
  match fluxMsgGetFlags z with
  | none => (.error .EPROTO, z)
  | some flags =>
    if flags &&& msgflagPayload = 0 ∧ (buf = none ∨ size = 0) then (.ok none, z)
    else
      match skipTopicFrame z flags with
      | (none, z) => (.error .EPROTO, z)
      | (some i, z) =>
        match decide (flags &&& msgflagPayload ≠ 0), buf with
        | true, some buf =>
          if size > 0 then fluxMsgSetFlags (z.reset i (buf.take size.toNat)) flags
          else if size = 0 then
            fluxMsgSetFlags (z.remove i).2 (flags &&& ~~~msgflagPayload)
          else fluxMsgSetFlags z flags
        | false, some buf =>
          if size > 0 then
            let (zf, z) := z.remove i
            fluxMsgSetFlags ((z.append (buf.take size.toNat)).append zf)
              (flags ||| msgflagPayload)
          else fluxMsgSetFlags z flags
        | true, none => fluxMsgSetFlags (z.remove i).2 (flags &&& ~~~msgflagPayload)
        | false, none => fluxMsgSetFlags z flags

/-- `flux_msg_copy`. The payload is found as the second to last frame. -/
def fluxMsgCopy (z : Zmsg) (payload : Bool) : Outcome :=
  match fluxMsgGetFlags z with
  | none => (.error .EPROTO, z)
  | some flags =>
    if !payload ∧ flags &&& msgflagPayload ≠ 0 then
      fluxMsgSetFlags ⟨z.frames.eraseIdx (z.frames.length - 2), 0⟩ (flags &&& ~~~msgflagPayload)
    else fluxMsgSetFlags ⟨z.frames, 0⟩ flags

/-- The operations on a message. -/
inductive Op
  | enableRoute
  | pushRoute (id : { id : Bytes // id ≠ [] })
  | popRoute
  | clearRoute
  | setTopic (topic : Option Bytes)
  | setPayload (buf : Option Bytes) (size : ℤ)
  | copy (payload : Bool)

/-- An operation on the frames. -/
def Op.exec (z : Zmsg) : Op → Outcome
  | .enableRoute => fluxMsgEnableRoute z
  | .pushRoute id => fluxMsgPushRoute z id
  | .popRoute => fluxMsgPopRoute z
  | .clearRoute => fluxMsgClearRoute z
  | .setTopic topic => fluxMsgSetTopic z topic
  | .setPayload buf size => fluxMsgSetPayload z buf size
  | .copy payload => fluxMsgCopy z payload

/-! ### The parts of a message -/

/-- **The parts of a message.** Route ids are not empty. -/
structure Parts where
  routes : Option (List { id : Bytes // id ≠ [] }) := none
  topic : Option Bytes := none
  payload : Option Bytes := none
  proto : { data : Bytes // protoValid data = true }

/-- The flags for the parts. -/
def flagsOf (route topic payload : Bool) : UInt8 :=
  (if route then msgflagRoute else 0) ||| (if topic then msgflagTopic else 0)
    ||| (if payload then msgflagPayload else 0)

namespace Parts

/-- The flags of a message. -/
def flags (p : Parts) : UInt8 := flagsOf p.routes.isSome p.topic.isSome p.payload.isSome

/-- The route frames, with the delimiter. -/
def routeFrames (p : Parts) : List Bytes :=
  p.routes.elim [] fun ids => ids.map Subtype.val ++ [[]]

/-- The topic frame, a string with its terminator. -/
def topicFrames (p : Parts) : List Bytes := (p.topic.map (· ++ [0])).toList

/-- The proto block, with the flags. -/
def protoFrame (p : Parts) : Bytes := p.proto.1.set 3 p.flags

/-- **The layout** of a message. -/
def layout (p : Parts) : List Bytes :=
  p.routeFrames ++ (p.topicFrames ++ (p.payload.toList ++ [p.protoFrame]))

/-- What an operation returns, and what it does to the parts. -/
def apply (p : Parts) : Op → Except Errno (Option Bytes) × Parts
  | .enableRoute => (.ok none, { p with routes := some (p.routes.getD []) })
  | .pushRoute id =>
    match p.routes with
    | none => (.error .EPROTO, p)
    | some ids => (.ok none, { p with routes := some (id :: ids) })
  | .popRoute =>
    match p.routes with
    | none => (.error .EPROTO, p)
    | some [] => (.ok none, p)
    | some (id :: ids) => (.ok (some id.1), { p with routes := some ids })
  | .clearRoute => (.ok none, { p with routes := none })
  | .setTopic topic => (.ok none, { p with topic := topic })
  | .setPayload none _ => (.ok none, { p with payload := none })
  | .setPayload (some buf) size =>
    if size > 0 then (.ok none, { p with payload := some (buf.take size.toNat) })
    else if size = 0 then (.ok none, { p with payload := none })
    else (.ok none, p)
  | .copy payload => (.ok none, if payload then p else { p with payload := none })

/-- The frames before the proto block. -/
def body (p : Parts) : List Bytes := p.routeFrames ++ (p.topicFrames ++ p.payload.toList)

theorem layout_eq (p : Parts) : p.layout = p.body ++ [p.protoFrame] := by
  simp only [layout, body, append_assoc]

end Parts

/-! ### Flags of a layout -/

section Flags

variable (r t p : Bool)

@[simp] theorem flagsOf_and_route : flagsOf r t p &&& msgflagRoute = 0 ↔ r = false := by
  cases r <;> cases t <;> cases p <;> decide

@[simp] theorem flagsOf_and_topic : flagsOf r t p &&& msgflagTopic = 0 ↔ t = false := by
  cases r <;> cases t <;> cases p <;> decide

@[simp] theorem flagsOf_and_payload : flagsOf r t p &&& msgflagPayload = 0 ↔ p = false := by
  cases r <;> cases t <;> cases p <;> decide

@[simp] theorem flagsOf_or_route : flagsOf r t p ||| msgflagRoute = flagsOf true t p := by
  cases r <;> cases t <;> cases p <;> decide

@[simp] theorem flagsOf_or_topic : flagsOf r t p ||| msgflagTopic = flagsOf r true p := by
  cases r <;> cases t <;> cases p <;> decide

@[simp] theorem flagsOf_or_payload : flagsOf r t p ||| msgflagPayload = flagsOf r t true := by
  cases r <;> cases t <;> cases p <;> decide

@[simp] theorem flagsOf_clear_route : flagsOf r t p &&& ~~~msgflagRoute = flagsOf false t p := by
  cases r <;> cases t <;> cases p <;> decide

@[simp] theorem flagsOf_clear_topic : flagsOf r t p &&& ~~~msgflagTopic = flagsOf r false p := by
  cases r <;> cases t <;> cases p <;> decide

@[simp] theorem flagsOf_clear_payload :
    flagsOf r t p &&& ~~~msgflagPayload = flagsOf r t false := by
  cases r <;> cases t <;> cases p <;> decide

end Flags

theorem protoValid_set (data : Bytes) (f : UInt8) :
    protoValid (data.set 3 f) = protoValid data := by
  simp [protoValid]

theorem protoGetFlags_set (h : protoValid data = true) (f : UInt8) :
    protoGetFlags (data.set 3 f) = some f := by
  have hlen : 3 < data.length := by
    simp only [protoValid, Bool.not_eq_true', Bool.or_eq_false_iff, decide_eq_false_iff_not] at h
    omega
  rw [protoGetFlags, protoValid_set, if_pos h, List.getElem?_set_self hlen]

theorem getFlags_layout (p : Parts) (n : ℕ) : fluxMsgGetFlags ⟨p.layout, n⟩ = some p.flags := by
  rw [fluxMsgGetFlags, p.layout_eq, getLast?_concat]
  exact protoGetFlags_set p.proto.2 p.flags

/-- The frames have the layout of the parts. -/
def Implements (r : Outcome) (a : Except Errno (Option Bytes) × Parts) : Prop :=
  r.1 = a.1 ∧ r.2.frames = a.2.layout

theorem setFlags_implements (p : Parts) (f : UInt8) (n : ℕ)
    (h : frames = p.body ++ [p.proto.1.set 3 f]) :
    Implements (fluxMsgSetFlags ⟨frames, n⟩ p.flags) (.ok none, p) := by
  have hset : protoSetFlags (p.proto.1.set 3 f) p.flags = some p.protoFrame := by
    rw [protoSetFlags, protoValid_set, if_pos p.proto.2, set_set]
    rfl
  rw [fluxMsgSetFlags, h, getLast?_concat, Option.bind_some, hset]
  refine ⟨rfl, ?_⟩
  rw [p.layout_eq, dropLast_concat]

/-! ### Positions in a layout -/

section Positions

variable {pre post : List Bytes} {frame : Bytes} {n : ℕ}

theorem Zmsg.remove_at : Zmsg.remove ⟨pre ++ frame :: post, n⟩ pre.length
      = (frame, ⟨pre ++ post, if pre.length < n then n - 1 else n⟩) := by
  simp [Zmsg.remove, eraseIdx_append_of_length_le]

theorem Zmsg.reset_at :
    Zmsg.reset ⟨pre ++ frame :: post, n⟩ pre.length data = ⟨pre ++ data :: post, n⟩ := by
  simp [Zmsg.reset]

theorem Zmsg.size_at : Zmsg.size ⟨pre ++ frame :: post, n⟩ pre.length = frame.length := by
  simp [Zmsg.size]

theorem skipRoutes_spec (pre post : List Bytes) (ids : List { id : Bytes // id ≠ [] })
    (htns : ids.length < turns) :
    skipRoutes turns ⟨pre ++ (ids.map Subtype.val ++ [] :: post), pre.length + 1⟩
        (some pre.length)
      = (some (pre.length + ids.length),
        ⟨pre ++ (ids.map Subtype.val ++ [] :: post), pre.length + ids.length + 1⟩) := by
  induction ids generalizing pre turns with
  | nil =>
    obtain ⟨turns, rfl⟩ : ∃ t, turns = t + 1 := Nat.exists_eq_succ_of_ne_zero (by omega)
    rw [skipRoutes, map_nil, nil_append, Zmsg.size_at]
    rfl
  | cons id ids ih =>
    obtain ⟨turns, rfl⟩ : ∃ t, turns = t + 1 := Nat.exists_eq_succ_of_ne_zero (by omega)
    have hpos : id.1.length > 0 := length_pos_iff.2 id.2
    have hlt : pre.length + 1
        < (pre ++ id.1 :: (ids.map Subtype.val ++ [] :: post)).length := by
      simp
    rw [skipRoutes, map_cons, cons_append, Zmsg.size_at, if_pos hpos, Zmsg.advance, if_pos hlt]
    have hih := ih (pre ++ [id.1]) (Nat.lt_of_succ_lt_succ htns)
    simpa [Nat.add_assoc, Nat.add_comm 1] using hih

theorem skipRouteFrames_spec (p : Parts) (hrest : rest ≠ []) (n : ℕ) :
    skipRouteFrames ⟨p.routeFrames ++ rest, n⟩ p.flags
      = (some p.routeFrames.length, ⟨p.routeFrames ++ rest, p.routeFrames.length + 1⟩) := by
  obtain ⟨routes, topic, payload, proto⟩ := p
  cases routes with
  | none => simp [skipRouteFrames, Parts.routeFrames, Parts.flags, Zmsg.first, hrest]
  | some ids =>
    have htns : ids.length < (ids.map Subtype.val ++ [] :: rest).length := by
      simp
    have hskip := skipRoutes_spec [] rest ids htns
    have hrest := length_pos_iff.2 hrest
    simp only [nil_append, length_nil, Nat.zero_add] at hskip
    simp only [skipRouteFrames, Parts.routeFrames, Parts.flags, Zmsg.first, Option.elim_some,
      Option.isSome_some, ne_eq, flagsOf_and_route, append_assoc, singleton_append]
    rw [if_pos (by decide), if_neg (by simp), hskip]
    simp [Zmsg.advance]
    omega

end Positions

/-! ### Each operation changes one part -/

section Operations

variable (p : Parts) (n : ℕ)

theorem enableRoute_implements :
    Implements (fluxMsgEnableRoute ⟨p.layout, n⟩) (p.apply .enableRoute) := by
  rw [fluxMsgEnableRoute, getFlags_layout]
  obtain ⟨routes, topic, payload, proto⟩ := p
  cases routes with
  | none =>
    simp only [Parts.flags, Option.isSome_none, ne_eq, flagsOf_and_route, not_true_eq_false,
      if_false, flagsOf_or_route]
    exact setFlags_implements ⟨some [], topic, payload, proto⟩ _ n
      (congrArg ([] :: ·) (Parts.layout_eq _))
  | some ids =>
    simp only [Parts.flags, Option.isSome_some, ne_eq, flagsOf_and_route, Bool.true_eq_false,
      not_false_eq_true, if_true]
    exact ⟨rfl, rfl⟩

theorem pushRoute_implements (id : { id : Bytes // id ≠ [] }) :
    Implements (fluxMsgPushRoute ⟨p.layout, n⟩ id) (p.apply (.pushRoute id)) := by
  rw [fluxMsgPushRoute, getFlags_layout]
  obtain ⟨routes, topic, payload, proto⟩ := p
  cases routes with
  | none => simp [Parts.flags, Parts.apply, Implements]
  | some ids =>
    simp only [Parts.flags, Option.isSome_some, flagsOf_and_route, Bool.true_eq_false, if_false]
    exact ⟨rfl, rfl⟩

theorem popRoute_implements : Implements (fluxMsgPopRoute ⟨p.layout, n⟩) (p.apply .popRoute) := by
  rw [fluxMsgPopRoute, getFlags_layout]
  obtain ⟨routes, topic, payload, proto⟩ := p
  cases routes with
  | none => simp [Parts.flags, Parts.apply, Implements]
  | some ids =>
    simp only [Parts.flags, Option.isSome_some, flagsOf_and_route, Bool.true_eq_false, if_false]
    cases ids with
    | nil => exact ⟨rfl, rfl⟩
    | cons id ids =>
      have hpos : id.1.length > 0 := length_pos_iff.2 id.2
      have hlay : Parts.layout ⟨some (id :: ids), topic, payload, proto⟩
          = id.1 :: Parts.layout ⟨some ids, topic, payload, proto⟩ := rfl
      rw [hlay]
      dsimp only
      rw [if_pos hpos]
      exact ⟨rfl, rfl⟩

theorem popRoutes_spec (ids : List { id : Bytes // id ≠ [] }) (rest : List Bytes) :
    popRoutes (ids.map Subtype.val ++ [] :: rest) = rest := by
  induction ids with
  | nil => rfl
  | cons id ids ih =>
    have hpos : id.1.length ≠ 0 := (length_pos_iff.2 id.2).ne'
    rw [map_cons, cons_append, popRoutes, if_neg hpos, ih]

theorem clearRoute_implements :
    Implements (fluxMsgClearRoute ⟨p.layout, n⟩) (p.apply .clearRoute) := by
  rw [fluxMsgClearRoute, getFlags_layout]
  obtain ⟨routes, topic, payload, proto⟩ := p
  cases routes with
  | none =>
    simp only [Parts.flags, Option.isSome_none, flagsOf_and_route, if_true]
    exact ⟨rfl, rfl⟩
  | some ids =>
    simp only [Parts.flags, Option.isSome_some, flagsOf_and_route, Bool.true_eq_false, if_false,
      flagsOf_clear_route]
    refine setFlags_implements ⟨none, topic, payload, proto⟩
      (flagsOf true topic.isSome payload.isSome) n ?_
    rw [Parts.layout_eq, Parts.body, Parts.routeFrames, Option.elim_some]
    simp only [append_assoc, singleton_append]
    exact popRoutes_spec ids _

theorem addTopic_frames (routes : List Bytes) (payload : Option Bytes) (proto topic : Bytes)
    (r t : Bool) :
    (addTopic ⟨routes ++ (payload.toList ++ [proto]), routes.length + 1⟩ routes.length
        (flagsOf r t payload.isSome) topic).frames
      = routes ++ ((topic ++ [0]) :: (payload.toList ++ [proto])) := by
  cases payload with
  | none =>
    have hrem : Zmsg.remove ⟨routes ++ [proto], routes.length + 1⟩ routes.length
        = (proto, ⟨routes ++ [], if routes.length < routes.length + 1
            then routes.length + 1 - 1 else routes.length + 1⟩) := Zmsg.remove_at
    simp [addTopic, hrem, Zmsg.append]
  | some payload =>
    have hrem : Zmsg.remove ⟨routes ++ payload :: [proto], routes.length + 1⟩ routes.length
        = (payload, ⟨routes ++ [proto], if routes.length < routes.length + 1
            then routes.length + 1 - 1 else routes.length + 1⟩) := Zmsg.remove_at
    have hrem' : Zmsg.remove ⟨routes ++ [proto], routes.length + 1⟩ routes.length
        = (proto, ⟨routes ++ [], if routes.length < routes.length + 1
            then routes.length + 1 - 1 else routes.length + 1⟩) := Zmsg.remove_at
    simp [addTopic, hrem, hrem', Zmsg.advance, Zmsg.append]

theorem setTopic_implements (topic : Option Bytes) :
    Implements (fluxMsgSetTopic ⟨p.layout, n⟩ topic) (p.apply (.setTopic topic)) := by
  have hskip := skipRouteFrames_spec p
    (show p.topicFrames ++ (p.payload.toList ++ [p.protoFrame]) ≠ [] by simp) n
  rw [fluxMsgSetTopic, getFlags_layout]
  dsimp only
  rw [Parts.layout, hskip]
  obtain ⟨routes, old, payload, proto⟩ := p
  dsimp only [Parts.flags]
  cases old with
  | some old =>
    simp only [Option.isSome_some, ne_eq, flagsOf_and_topic, Bool.true_eq_false,
      not_false_eq_true, decide_true]
    cases topic with
    | some topic => exact ⟨rfl, congrArg Zmsg.frames Zmsg.reset_at⟩
    | none =>
      rw [flagsOf_clear_topic]
      refine setFlags_implements ⟨routes, none, payload, proto⟩
        (flagsOf routes.isSome true payload.isSome) _ ?_
      refine (congrArg (fun r => r.2.frames) Zmsg.remove_at).trans ?_
      simp [Parts.body, Parts.topicFrames, Parts.protoFrame, Parts.flags, Parts.routeFrames]
  | none =>
    simp only [Option.isSome_none, ne_eq, flagsOf_and_topic, not_true_eq_false, decide_false]
    cases topic with
    | none => exact ⟨rfl, rfl⟩
    | some topic =>
      rw [flagsOf_or_topic]
      refine setFlags_implements ⟨routes, some topic, payload, proto⟩
        (flagsOf routes.isSome false payload.isSome) _ ?_
      refine (addTopic_frames _ payload _ topic _ _).trans ?_
      simp [Parts.body, Parts.topicFrames, Parts.protoFrame, Parts.flags, Parts.routeFrames]

theorem skipTopicFrame_spec (hrest : rest ≠ []) :
    skipTopicFrame ⟨p.routeFrames ++ (p.topicFrames ++ rest), n⟩ p.flags
      = (some (p.routeFrames ++ p.topicFrames).length, ⟨p.routeFrames ++ (p.topicFrames ++ rest),
          (p.routeFrames ++ p.topicFrames).length + 1⟩) := by
  have hskip := skipRouteFrames_spec p (append_ne_nil_of_right_ne_nil p.topicFrames hrest) n
  rw [skipTopicFrame, hskip]
  have hlen := length_pos_iff.2 hrest
  obtain ⟨routes, topic, payload, proto⟩ := p
  cases topic with
  | none => simp [Parts.flags, Parts.topicFrames]
  | some topic => simp [Parts.flags, Parts.topicFrames, Zmsg.advance, hlen]

theorem replacePayload_implements (hp : p.payload.isSome) :
    Implements (fluxMsgSetFlags (Zmsg.reset ⟨p.layout, n⟩
      (p.routeFrames ++ p.topicFrames).length payload) p.flags)
      (.ok none, { p with payload := some payload }) := by
  obtain ⟨routes, topic, old, proto⟩ := p
  cases old with
  | none => cases hp
  | some old =>
    refine setFlags_implements ⟨routes, topic, some payload, proto⟩
      (flagsOf routes.isSome topic.isSome true) n ?_
    rw [Parts.layout, ← append_assoc]
    refine (congrArg Zmsg.frames (Zmsg.reset_at (n := n))).trans ?_
    simp [Parts.body, Parts.topicFrames, Parts.protoFrame, Parts.flags, Parts.routeFrames]

theorem removePayload_implements (hp : p.payload.isSome) :
    Implements (fluxMsgSetFlags (Zmsg.remove ⟨p.layout, n⟩
      (p.routeFrames ++ p.topicFrames).length).2 (p.flags &&& ~~~msgflagPayload))
      (.ok none, { p with payload := none }) := by
  obtain ⟨routes, topic, old, proto⟩ := p
  cases old with
  | none => cases hp
  | some old =>
    rw [Parts.flags, flagsOf_clear_payload, Parts.layout, ← append_assoc]
    refine setFlags_implements ⟨routes, topic, none, proto⟩
      (flagsOf routes.isSome topic.isSome true) _ ?_
    refine (congrArg (fun r => r.2.frames) (Zmsg.remove_at (n := n))).trans ?_
    simp [Parts.body, Parts.topicFrames, Parts.protoFrame, Parts.flags, Parts.routeFrames]

theorem addPayload_implements (hp : p.payload = none) : Implements (fluxMsgSetFlags
      (((Zmsg.remove ⟨p.layout, n⟩ (p.routeFrames ++ p.topicFrames).length).2.append payload).append
        (Zmsg.remove ⟨p.layout, n⟩ (p.routeFrames ++ p.topicFrames).length).1)
      (p.flags ||| msgflagPayload))
      (.ok none, { p with payload := some payload }) := by
  obtain ⟨routes, topic, old, proto⟩ := p
  cases hp
  rw [Parts.layout, Option.toList_none, nil_append, ← append_assoc, Zmsg.remove_at,
    Parts.flags, flagsOf_or_payload]
  refine setFlags_implements ⟨routes, topic, some payload, proto⟩
    (flagsOf routes.isSome topic.isSome false) _ ?_
  simp [Zmsg.append, Parts.body, Parts.topicFrames, Parts.protoFrame, Parts.flags, Parts.routeFrames]

theorem sameFlags_implements : Implements (fluxMsgSetFlags ⟨p.layout, n⟩ p.flags) (.ok none, p) :=
  setFlags_implements p p.flags n p.layout_eq

theorem setPayload_implements (buf : Option Bytes) (size : ℤ) :
    Implements (fluxMsgSetPayload ⟨p.layout, n⟩ buf size) (p.apply (.setPayload buf size)) := by
  have hskip : skipTopicFrame ⟨p.layout, n⟩ p.flags
      = (some (p.routeFrames ++ p.topicFrames).length,
        ⟨p.layout, (p.routeFrames ++ p.topicFrames).length + 1⟩) :=
    skipTopicFrame_spec p n (append_ne_nil_of_right_ne_nil p.payload.toList
      (cons_ne_nil p.protoFrame []))
  have hflg : p.flags &&& msgflagPayload = 0 ↔ p.payload.isSome = false := flagsOf_and_payload ..
  rw [fluxMsgSetPayload, getFlags_layout]
  dsimp only
  rw [hskip]
  cases hp : p.payload with
  | none =>
    rw [hp, Option.isSome_none] at hflg
    have hno : p.flags &&& msgflagPayload = 0 := hflg.2 rfl
    have hsame : { p with payload := none } = p := by
      rw [← hp]
    rw [hno]
    cases buf with
    | none =>
      simp only [true_or, and_self, if_true]
      exact ⟨rfl, congrArg Parts.layout hsame.symm⟩
    | some buf =>
      rcases lt_trichotomy size 0 with hneg | rfl | hpos
      · have hne : ¬ size > 0 := by omega
        have hne' : size ≠ 0 := by omega
        simp only [reduceCtorEq, hne', or_self, and_false, if_false, ne_eq, not_true_eq_false,
          decide_false, hne, Parts.apply]
        exact sameFlags_implements p _
      · simp only [or_true, and_self, if_true]
        exact ⟨rfl, congrArg Parts.layout hsame.symm⟩
      · have hne' : size ≠ 0 := by omega
        simp only [reduceCtorEq, hne', or_self, and_false, if_false, ne_eq, not_true_eq_false,
          decide_false, hpos, if_true, Parts.apply]
        exact addPayload_implements p _ hp
  | some old =>
    rw [hp, Option.isSome_some] at hflg
    have hyes : p.flags &&& msgflagPayload ≠ 0 := by
      simp [hflg]
    have hsome : p.payload.isSome := by
      rw [hp]
      rfl
    simp only [hyes, false_and, if_false, ne_eq, not_false_eq_true, decide_true]
    cases buf with
    | none => exact removePayload_implements p _ hsome
    | some buf =>
      rcases lt_trichotomy size 0 with hneg | rfl | hpos
      · have hne : ¬ size > 0 := by omega
        have hne' : size ≠ 0 := by omega
        simp only [hne, hne', if_false, Parts.apply]
        exact sameFlags_implements p _
      · exact removePayload_implements p _ hsome
      · simp only [hpos, if_true, Parts.apply]
        exact replacePayload_implements p _ hsome

theorem copy_implements (payload : Bool) :
    Implements (fluxMsgCopy ⟨p.layout, n⟩ payload) (p.apply (.copy payload)) := by
  rw [fluxMsgCopy, getFlags_layout]
  dsimp only
  split_ifs with hskip
  · obtain ⟨hcopy, hflag⟩ := hskip
    obtain ⟨routes, topic, old, proto⟩ := p
    cases old with
    | none => exact absurd ((flagsOf_and_payload _ _ _).2 rfl) hflag
    | some old =>
      rw [Parts.flags, flagsOf_clear_payload]
      cases payload with
      | true => cases hcopy
      | false =>
        refine setFlags_implements ⟨routes, topic, none, proto⟩
          (flagsOf routes.isSome topic.isSome true) 0 ?_
        have hlay : Parts.layout ⟨routes, topic, some old, proto⟩
            = Parts.body ⟨routes, topic, none, proto⟩
              ++ old :: [Parts.protoFrame ⟨routes, topic, some old, proto⟩] := by
          simp [Parts.layout, Parts.body, Parts.routeFrames, Parts.topicFrames]
        have hlen : (Parts.layout ⟨routes, topic, some old, proto⟩).length - 2
            = (Parts.body ⟨routes, topic, none, proto⟩).length := by
          simp [hlay]
        rw [hlen, hlay, eraseIdx_append_of_length_le le_rfl, Nat.sub_self]
        rfl
  · have hsame : p.apply (.copy payload) = (.ok none, p) := by
      cases payload with
      | true => rfl
      | false =>
        have hflag : p.flags &&& msgflagPayload = 0 := by
          by_contra hne
          exact hskip ⟨rfl, hne⟩
        have hnone : p.payload = none :=
          Option.isNone_iff_eq_none.1
            (Option.isSome_eq_false_iff.1 ((flagsOf_and_payload _ _ _).1 hflag))
        rw [Parts.apply, ← hnone]
        rfl
    rw [hsame]
    exact sameFlags_implements p 0

/-- **Each operation on the frames implements the one on the parts.** -/
theorem exec_implements (op : Op) : Implements (op.exec ⟨p.layout, n⟩) (p.apply op) := by
  cases op with
  | enableRoute => exact enableRoute_implements p n
  | pushRoute id => exact pushRoute_implements p n id
  | popRoute => exact popRoute_implements p n
  | clearRoute => exact clearRoute_implements p n
  | setTopic topic => exact setTopic_implements p n topic
  | setPayload buf size => exact setPayload_implements p n buf size
  | copy payload => exact copy_implements p n payload

end Operations

/-! ### Any sequence of operations -/

/-- A sequence of operations on the frames: what they return, and the message. -/
def execAll : List Op → Zmsg → List (Except Errno (Option Bytes)) × Zmsg
  | [], z => ([], z)
  | op :: ops, z =>
    let r := op.exec z
    (r.1 :: (execAll ops r.2).1, (execAll ops r.2).2)

/-- A sequence of operations on the parts. -/
def Parts.applyAll : List Op → Parts → List (Except Errno (Option Bytes)) × Parts
  | [], p => ([], p)
  | op :: ops, p =>
    let r := p.apply op
    (r.1 :: (applyAll ops r.2).1, (applyAll ops r.2).2)

theorem Parts.apply_proto (p : Parts) (op : Op) : (p.apply op).2.proto = p.proto := by
  cases op with
  | enableRoute => rfl
  | pushRoute id =>
    obtain ⟨routes, topic, payload, proto⟩ := p
    cases routes with
    | none | some ids => rfl
  | popRoute =>
    obtain ⟨routes, topic, payload, proto⟩ := p
    match routes with
    | none => rfl
    | some [] => rfl
    | some (_ :: _) => rfl
  | clearRoute => rfl
  | setTopic topic => rfl
  | setPayload buf size =>
    cases buf with
    | none => rfl
    | some buf =>
      rw [Parts.apply]
      split_ifs <;> rfl
  | copy payload => cases payload <;> rfl

theorem execAll_implements (ops : List Op) (p : Parts) (n : ℕ) :
    (execAll ops ⟨p.layout, n⟩).1 = (p.applyAll ops).1 ∧
      (execAll ops ⟨p.layout, n⟩).2.frames = (p.applyAll ops).2.layout ∧
      (p.applyAll ops).2.proto = p.proto := by
  induction ops generalizing p n with
  | nil => exact ⟨rfl, rfl, rfl⟩
  | cons op ops ih =>
    obtain ⟨hret, hfrms⟩ := exec_implements p n op
    obtain ⟨ih₁, ih₂, ih₃⟩ := ih (p.apply op).2 (op.exec ⟨p.layout, n⟩).2.next
    have hz : (op.exec ⟨p.layout, n⟩).2
        = ⟨(p.apply op).2.layout, (op.exec ⟨p.layout, n⟩).2.next⟩ := by
      rw [← hfrms]
    refine ⟨?_, ?_, ih₃.trans (p.apply_proto op)⟩
    · rw [execAll, Parts.applyAll, hz]
      exact congrArg₂ _ hret ih₁
    · rw [execAll, Parts.applyAll, hz]
      exact ih₂

theorem protoSetType_some (h : protoSetType data type = some data') : type ∈ [1, 2, 4, 8] := by
  unfold protoSetType at h
  split_ifs at h
  split at h
  · simp
  · simp
  · simp
  · simp
  · cases h

theorem fluxMsgCreate_ok (h : fluxMsgCreate type = .ok z) :
    ∃ proto, z.frames = [proto.1] ∧ z = ⟨Parts.layout { proto := proto }, 0⟩ := by
  have hblocks : ∀ type ∈ [1, 2, 4, 8], ∀ data ∈ protoSetType (protoInit 0) type,
      protoValid data = true ∧ data.set 3 (flagsOf false false false) = data := by
    decide
  rw [fluxMsgCreate] at h
  split at h
  · cases h
  rename_i data hdata
  cases h
  obtain ⟨hval, hflg⟩ := hblocks type (protoSetType_some hdata) data hdata
  have hlay : Parts.layout { proto := ⟨data, hval⟩ }
      = [data.set 3 (flagsOf false false false)] := rfl
  exact ⟨⟨data, hval⟩, rfl, by rw [hlay, hflg]⟩

/-- **The frame layout.** Take a message made by `flux_msg_create`, and any sequence of
operations. There are parts of which the operations are the changes that `Parts.apply` says,
each of one part alone, with the same return values. The frames are the routes and the
delimiter if there is a stack of routes, the topic if there is one, the payload if there is
one, and the proto block, in which nothing but the flags has changed; and the flags tell
which parts there are. -/
theorem frame_layout {type : ℕ} {z : Zmsg} (h : fluxMsgCreate type = .ok z) (ops : List Op) :
    ∃ proto, z.frames = [proto.1] ∧
      (execAll ops z).1 = (Parts.applyAll ops { proto := proto }).1 ∧
      (execAll ops z).2.frames = (Parts.applyAll ops { proto := proto }).2.layout ∧
      (Parts.applyAll ops { proto := proto }).2.proto = proto ∧
      ∃ flags, fluxMsgGetFlags (execAll ops z).2 = some flags ∧ (flags &&& msgflagRoute = 0 ↔
          (Parts.applyAll ops { proto := proto }).2.routes.isSome = false) ∧
        (flags &&& msgflagTopic = 0 ↔
          (Parts.applyAll ops { proto := proto }).2.topic.isSome = false) ∧
        (flags &&& msgflagPayload = 0 ↔
          (Parts.applyAll ops { proto := proto }).2.payload.isSome = false) := by
  obtain ⟨proto, hfrms, hz⟩ := fluxMsgCreate_ok h
  obtain ⟨hret, hlay, hproto⟩ := execAll_implements ops { proto := proto } 0
  rw [← hz] at hret hlay
  refine ⟨proto, hfrms, hret, hlay, hproto, _, ?_, flagsOf_and_route _ _ _,
    flagsOf_and_topic _ _ _, flagsOf_and_payload _ _ _⟩
  have hflg := getFlags_layout (Parts.applyAll ops { proto := proto }).2 (execAll ops z).2.next
  rw [← hlay] at hflg
  exact hflg

/-- A request with two routes, a payload and then a topic, of which one route is popped. -/
theorem frame_layout_request : ∃ z, fluxMsgCreate 1 = .ok z ∧
      (execAll [.enableRoute, .pushRoute ⟨[49], by decide⟩, .pushRoute ⟨[50], by decide⟩,
        .setPayload (some [7]) 1, .setTopic (some [97]), .popRoute] z).2.frames.dropLast
        = [[49], [], [97, 0], [7]] := by
  obtain ⟨z, hz⟩ : ∃ z, fluxMsgCreate 1 = .ok z := ⟨_, rfl⟩
  obtain ⟨proto, -, -, hlay, -, -⟩ := frame_layout hz
    [.enableRoute, .pushRoute ⟨[49], by decide⟩, .pushRoute ⟨[50], by decide⟩,
      .setPayload (some [7]) 1, .setTopic (some [97]), .popRoute]
  refine ⟨z, hz, ?_⟩
  rw [hlay]
  rfl

end FluxCore.Libflux
