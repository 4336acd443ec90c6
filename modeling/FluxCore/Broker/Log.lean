import FluxCore.Util.Blobref
import Mathlib.Data.List.Perm.Subperm

/-!
# The Log Ring

The log of a broker is a ring of numbered entries. A `log.dmesg` request asks for the first entry
that is newer than a number. If there is none yet and the request says `follow`, it is put to
sleep. An append to the ring wakes the sleeping requests one by one and hands each to the
handler again, which may put it back to sleep on the list that the append takes the requests
from. The append returns exactly if every sleeping request finds an entry
(`append_returns_iff`); if not, it takes the same requests from the list forever.
-/

namespace FluxCore.Broker.Log

open List

/-- `struct logbuf_entry`. -/
structure Entry where
  buf : Bytes
  seq : Int32
deriving DecidableEq, Inhabited

/-- A `log.dmesg` request, with the members `seq` and `follow` if it can be unpacked. -/
structure Request where
  id : ℕ
  payload : Option (Int32 × Bool)
deriving DecidableEq

/-- `struct sleeper`: a request that follows the log from a number on. -/
structure Sleeper where
  id : ℕ
  seq : Int32
deriving DecidableEq

/-- The copy of the request in a sleeper. -/
def Sleeper.msg (s : Sleeper) : Request := ⟨s.id, some (s.seq, true)⟩

inductive Response
  | entry (seq : Int32) (buf : Bytes)
  | error (errnum : Errno)
deriving DecidableEq

/-- `logbuf_t`, with the calls of sleeping handlers and the responses so far. -/
structure Logbuf where
  buf : List Entry := []
  ringSize : Int32
  seq : Int32 := 0
  sleepers : List Sleeper := []
  called : List Sleeper := []
  responses : List (Request × Response) := []
deriving DecidableEq

section Model

-- The texts that can be put into a response.
variable (packs : Bytes → Bool)

/-- `logbuf_trim`. -/
def logbufTrim (buf : List Entry) (size : Int32) : List Entry :=
  buf.drop (buf.length - size.toInt.toNat)

/-- `logbuf_get`: the first entry that is newer than a number. -/
def Logbuf.get (b : Logbuf) (seqIndex : Int32) : Option Entry :=
  b.buf.find? (seqIndex < ·.seq)

def Logbuf.respond (b : Logbuf) (msg : Request) (resp : Response) : Logbuf :=
  { b with responses := b.responses ++ [(msg, resp)] }

/-- `logbuf_sleepon`. -/
def Logbuf.sleepon (b : Logbuf) (s : Sleeper) : Logbuf :=
  { b with sleepers := b.sleepers ++ [s] }

/-- The response with an entry: an error if its text cannot be packed. -/
def entryResponse (e : Entry) : Response :=
  if packs e.buf then .entry e.seq e.buf else .error .EINVAL

/-- `dmesg_request_cb`. -/
def dmesgRequestCb (b : Logbuf) (msg : Request) : Logbuf :=
  match msg.payload with
  | none => b.respond msg (.error .EPROTO)
  | some (seq, follow) =>
    match b.get seq with
    | none => if follow then b.sleepon ⟨msg.id, seq⟩ else b.respond msg (.error .ENOENT)
    | some e => b.respond msg (entryResponse packs e)

/-- The loop of `append_new_entry` that wakes the sleepers, with a bound on its iterations. -/
def wakeSleepers : ℕ → Logbuf → Option Logbuf
  | 0, _ => none
  | fuel + 1, b =>
    match b.sleepers with
    | [] => some b
    | s :: rest => wakeSleepers fuel
        (dmesgRequestCb packs { b with sleepers := rest, called := b.called ++ [s] } s.msg)

/-- The log with an entry appended to the ring, before the sleepers are woken. -/
def Logbuf.push (b : Logbuf) (buf : Bytes) : Logbuf :=
  { b with buf := logbufTrim b.buf (b.ringSize - 1) ++ [⟨buf, b.seq⟩], seq := b.seq + 1 }

/-- `append_new_entry`. -/
def appendNewEntry (fuel : ℕ) (b : Logbuf) (buf : Bytes) : Option Logbuf :=
  if 0 < b.ringSize then wakeSleepers packs fuel (b.push buf) else some b

/-- The append returns after calling each sleeping handler at most once, and each of them has
been answered with the first entry that is newer than it asked for, or sleeps again. -/
def Returns (b : Logbuf) (buf : Bytes) : Prop :=
  ∃ fuel b' called responses, appendNewEntry packs fuel b buf = some b' ∧
    b'.called = b.called ++ called ∧ called.Subperm b.sleepers ∧
    b'.responses = b.responses ++ responses ∧ ∀ s ∈ called, s ∈ b'.sleepers ∨
      ∃ e, b'.get s.seq = some e ∧ (s.msg, .entry e.seq e.buf) ∈ responses

end Model

variable {packs : Bytes → Bool} {b b' : Logbuf} {buf : Bytes} {s : Sleeper} {e : Entry}

/-! ### One call of a sleeping handler -/

theorem dmesgRequestCb_found (h : b.get s.seq = some e) :
    dmesgRequestCb packs b s.msg = b.respond s.msg (entryResponse packs e) := by
  simp only [dmesgRequestCb, Sleeper.msg, h]

theorem dmesgRequestCb_notFound (h : b.get s.seq = none) :
    dmesgRequestCb packs b s.msg = b.sleepon s := by
  simp only [dmesgRequestCb, Sleeper.msg, h, if_true]

theorem dmesgRequestCb_frame (packs : Bytes → Bool) (b : Logbuf) (s : Sleeper) :
    (dmesgRequestCb packs b s.msg).buf = b.buf ∧
      b.sleepers ⊆ (dmesgRequestCb packs b s.msg).sleepers := by
  cases h : b.get s.seq with
  | none =>
    rw [dmesgRequestCb_notFound h]
    exact ⟨rfl, subset_append_left ..⟩
  | some e =>
    rw [dmesgRequestCb_found h]
    exact ⟨rfl, List.Subset.refl _⟩

/-! ### The loop -/

/-- **The loop does not end** while a request is on the list that finds no entry: each call for
it puts it back on the list. -/
theorem wakeSleepers_eq_none (hs : s ∈ b.sleepers) (h : b.get s.seq = none) (fuel : ℕ) :
    wakeSleepers packs fuel b = none := by
  induction fuel generalizing b with
  | zero => rfl
  | succ fuel ih =>
    rw [wakeSleepers]
    cases hl : b.sleepers with
    | nil => simp [hl] at hs
    | cons s' rest =>
      set b₁ : Logbuf := { b with sleepers := rest, called := b.called ++ [s'] }
      have hfrm := dmesgRequestCb_frame packs b₁ s'
      refine ih ?_ (by rw [Logbuf.get, hfrm.1]; exact h)
      rcases mem_cons.1 (hl ▸ hs) with rfl | hrest
      · rw [dmesgRequestCb_notFound (b := b₁) h]
        exact mem_append_right _ (mem_singleton_self _)
      · exact hfrm.2 hrest

/-- The log after every sleeping request has been answered, with the entries `found`. -/
def Logbuf.woken (packs : Bytes → Bool) (b : Logbuf) (found : Sleeper → Entry) : Logbuf :=
  { b with sleepers := [], called := b.called ++ b.sleepers, responses :=
      b.responses ++ b.sleepers.map fun s => (s.msg, entryResponse packs (found s)) }

theorem wakeSleepers_found (fuel : ℕ) (h : ∀ s ∈ b.sleepers, b.get s.seq = some (found s)) :
    wakeSleepers packs fuel b =
      if b.sleepers.length < fuel then some (b.woken packs found) else none := by
  induction fuel generalizing b with
  | zero => simp [wakeSleepers]
  | succ fuel ih =>
    rw [wakeSleepers]
    cases hl : b.sleepers with
    | nil =>
      have heq : b.woken packs found = b := by
        cases b
        cases hl
        simp [Logbuf.woken]
      simp [heq]
    | cons s rest =>
      rw [hl] at h
      have hfnd := h s (mem_cons_self ..)
      simp only
      rw [dmesgRequestCb_found (b := { b with sleepers := rest, called := b.called ++ [s] })
        hfnd, ih]
      · simp [Logbuf.respond, Logbuf.woken, hl]
      · exact fun s' hs' => h s' (mem_cons_of_mem _ hs')

theorem Sleeper.msg_injective : Function.Injective Sleeper.msg := by
  rintro ⟨i, m⟩ ⟨j, n⟩ h
  simpa [Sleeper.msg] using h

/-- **Appending returns exactly if no request asks for too much**: the ring keeps nothing, or
every sleeping request finds a newer entry in the ring with the new entry, whose text can be
put into a response. -/
theorem append_returns_iff (packs : Bytes → Bool) (b : Logbuf) (buf : Bytes) :
    Returns packs b buf ↔ b.ringSize ≤ 0 ∨
      ∀ s ∈ b.sleepers, ∃ e, (b.push buf).get s.seq = some e ∧ packs e.buf = true := by
  by_cases hring : 0 < b.ringSize
  · have hpos : ¬ b.ringSize ≤ 0 := by simpa using hring
    simp only [Returns, appendNewEntry, hring, if_true, hpos, false_or]
    constructor
    · rintro ⟨fuel, b', called, responses, hret, hcall, -, hresps, hansd⟩ s hs
      have hall : ∀ s ∈ b.sleepers, ∃ e, (b.push buf).get s.seq = some e := by
        intro s hs
        by_contra hno
        have hnone : (b.push buf).get s.seq = none := by
          simpa [Option.eq_none_iff_forall_ne_some] using hno
        rw [wakeSleepers_eq_none (b := b.push buf) hs hnone] at hret
        cases hret
      choose! found hfnd using hall
      rw [wakeSleepers_found (b := b.push buf) fuel hfnd] at hret
      split at hret
      · cases hret
        have hcall : called = b.sleepers := append_cancel_left hcall.symm
        have hresps := append_cancel_left hresps
        refine ⟨found s, hfnd s hs, ?_⟩
        rcases hansd s (hcall ▸ hs) with hsleep | ⟨e, he, hmem⟩
        · cases hsleep
        rw [← hresps] at hmem
        obtain ⟨s', -, heq⟩ := List.mem_map.1 hmem
        obtain ⟨hmsg, hent⟩ := Prod.mk.inj heq
        cases Sleeper.msg_injective hmsg
        by_contra hpack
        rw [entryResponse, if_neg hpack] at hent
        cases hent
      · cases hret
    · intro hall
      choose! found hfnd hpacks using hall
      refine ⟨b.sleepers.length + 1, (b.push buf).woken packs found, b.sleepers, _, ?_, rfl,
        List.Subperm.refl _, rfl, fun s hs => .inr ⟨found s, hfnd s hs, ?_⟩⟩
      · rw [wakeSleepers_found (b := b.push buf) _ hfnd]
        exact if_pos (Nat.lt_succ_self _)
      · refine List.mem_map.2 ⟨s, hs, ?_⟩
        rw [entryResponse, if_pos (hpacks s hs)]
  · have hneg : b.ringSize ≤ 0 := by simpa using hring
    simp only [hneg, true_or, iff_true]
    refine ⟨0, b, [], [], by simp [appendNewEntry, hring], by simp, nil_subperm, by simp, ?_⟩
    simp

/-- The first entry of a log is appended forever, if a request follows the log from the number
of that entry on. -/
theorem not_returns_first :
    ¬ Returns (fun _ => true) { ringSize := 1024, sleepers := [⟨0, 0⟩] } [] := by
  rintro ⟨fuel, b', called, responses, hret, -⟩
  rw [appendNewEntry, if_pos (by decide), wakeSleepers_eq_none (s := ⟨0, 0⟩) (by decide)
    (by decide)] at hret
  cases hret

end FluxCore.Broker.Log
