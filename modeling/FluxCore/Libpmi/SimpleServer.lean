import FluxCore.Libpmi.Keyval

/-!
# The PMI-1 Server

`simple_server.c`: the protocol engine takes a line that a client wrote and answers it through the
callbacks of its user. The results of the callbacks are given with each request (`Answers`), and
the calls that were made are part of what a request returns (`Reply`).

A client of the library never has a command of several lines in progress
(`mcmdInprogress_of_request`), so that its lines are taken as they are.
-/

namespace FluxCore.Libpmi.Simple

open Cstring Keyval

def SIMPLE_KVS_KEY_MAX : ℕ := 64
def SIMPLE_KVS_VAL_MAX : ℕ := 1024
def SIMPLE_KVS_NAME_MAX : ℕ := 64
def SIMPLE_MAX_PROTO_OVERHEAD : ℕ := 64

def SIMPLE_MAX_PROTO_LINE : ℕ :=
  SIMPLE_KVS_KEY_MAX + SIMPLE_KVS_VAL_MAX + SIMPLE_KVS_NAME_MAX + SIMPLE_MAX_PROTO_OVERHEAD

def PMI_SUCCESS : ℤ := 0
def PMI_FAIL : ℤ := -1
def PMI_ERR_INVALID_KEY : ℤ := 4
def PMI_ERR_INVALID_KEY_LENGTH : ℤ := 5
def PMI_ERR_INVALID_VAL_LENGTH : ℤ := 7
def PMI_ERR_INVALID_LENGTH : ℤ := 8

/-- What the server calls. -/
inductive Call (C : Type)
  | kvsPut (kvsname key val : List Char)
  /-- with whether the callback took the request on -/
  | kvsGet (client : C) (kvsname key : List Char) (ok : Bool)
  | barrierEnter
  | responseSend (client : C) (resp : List Char)
deriving DecidableEq, Repr

/-- The results of the callbacks while a request is handled: whether they succeed.
`barrierEnter` is `none` if the user has no such callback. -/
structure Answers where
  kvsPut : Bool
  kvsGet : Bool
  barrierEnter : Option Bool

/-- `struct pmi_simple_server`. The table `clients` has the lines of the multi-line commands
that are in progress. -/
structure Server (C : Type) where
  appnum : Int32
  kvsname : List Char
  universeSize : Int32
  localProcs : ℕ
  barrier : List C
  clients : List (C × List (List Char))

/-- What a request does: the state after it, the calls that were made, and the value that
is returned. -/
structure Reply (C : Type) where
  server : Server C
  calls : List (Call C)
  rc : ℤ

variable {C : Type} [DecidableEq C]

/-- `snprintf` into `resp`. -/
def snprintf (text : List Char) : List Char := text.take SIMPLE_MAX_PROTO_LINE

/-- `%d`. -/
def formatInt (i : ℤ) : List Char :=
  if i < 0 then '-' :: decimal i.natAbs else decimal i.natAbs

/-! ### Commands of several lines -/

/-- `mcmd_inprogress`. -/
def mcmdInprogress (pmi : Server C) (client : C) : Bool := pmi.clients.any (·.1 = client)

/-- `mcmd_begin`. -/
def mcmdBegin (pmi : Server C) (buf : List Char) (client : C) : Reply C :=
  ⟨{ pmi with clients := pmi.clients ++ [(client, [buf])] }, [], 0⟩

/-- `mcmd_execute`. -/
def mcmdExecute (pmi : Server C) (client : C) (mcmd : List (List Char)) : Reply C :=
  match mcmd.head?.map (keyvalParseIsword · "mcmd".toList "spawn".toList) with
  | some (.ok ()) =>
    ⟨pmi, [.responseSend client (snprintf "cmd=spawn_result rc=-1\n".toList)], 0⟩
  | _ => ⟨pmi, [], -1⟩

/-- `mcmd_append`. -/
def mcmdAppend (pmi : Server C) (buf : List Char) (client : C) : Reply C :=
  match pmi.clients.find? (·.1 = client) with
  | none => ⟨pmi, [], -1⟩
  | some (_, mcmd) =>
    let others := pmi.clients.filter (·.1 ≠ client)
    if buf = "endcmd\n".toList then
      mcmdExecute { pmi with clients := others } client (mcmd ++ [buf])
    else ⟨{ pmi with clients := others ++ [(client, mcmd ++ [buf])] }, [], 0⟩

/-! ### Barriers and gets -/

def barrierOut (rc : ℤ) : List Char :=
  snprintf ("cmd=barrier_out rc=".toList ++ formatInt rc ++ "\n".toList)

/-- `barrier_exit`. -/
def barrierExit (pmi : Server C) (rc : ℤ) : Reply C :=
  ⟨{ pmi with barrier := [] },
    pmi.barrier.map fun client => .responseSend client (barrierOut rc), 0⟩

/-- The line that `pmi_simple_server_kvs_get_error` sends. -/
def kvsGetError (result : ℤ) : List Char :=
  snprintf ("cmd=get_result rc=".toList ++ formatInt result ++ "\n".toList)

/-- The line that `pmi_simple_server_kvs_get_complete` sends. -/
def kvsGetComplete : Option (List Char) → List Char
  | none => kvsGetError PMI_ERR_INVALID_KEY
  | some val => snprintf ("cmd=get_result rc=0 value=".toList ++ val ++ "\n".toList)

/-! ### Requests -/

inductive Cmd
  | init
  | getMaxes
  | abort
  | finalize
  | getUniverseSize
  | getAppnum
  | getMyKvsname
  | put
  | get
  | barrierIn
  | publishName
  | unpublishName
  | lookupName
  | spawn
deriving DecidableEq, Repr

/-- The words that `cmd` is compared with, in the order of the comparisons. -/
def cmds : List (List Char × Cmd) :=
  [("init".toList, .init), ("get_maxes".toList, .getMaxes), ("abort".toList, .abort),
    ("finalize".toList, .finalize), ("get_universe_size".toList, .getUniverseSize),
    ("get_appnum".toList, .getAppnum), ("get_my_kvsname".toList, .getMyKvsname),
    ("put".toList, .put), ("get".toList, .get), ("barrier_in".toList, .barrierIn),
    ("publish_name".toList, .publishName), ("unpublish_name".toList, .unpublishName),
    ("lookup_name".toList, .lookupName)]

def isword (buf key word : List Char) : Bool := keyvalParseIsword buf key word matches .ok ()

/-- The branch of `pmi_simple_server_request` that a line takes. -/
def command (buf : List Char) : Option Cmd :=
  match cmds.find? fun c => isword buf "cmd".toList c.1 with
  | some c => some c.2
  | none => if isword buf "mcmd".toList "spawn".toList then some .spawn else none

/-- A value that is too long is answered with an error of its own; any other failure is the
end of the connection. -/
def fieldError (tooLong : ℤ) : Ekv → Option ℤ
  | .valLen => some tooLong
  | _ => none

/-- The fields of a `put`. -/
def putFields (buf : List Char) : Except (Option ℤ) (List Char × List Char × List Char) := do
  let name ← (keyvalParseWord buf "kvsname".toList SIMPLE_KVS_NAME_MAX).mapError
    (fieldError PMI_ERR_INVALID_LENGTH)
  let key ← (keyvalParseWord buf "key".toList SIMPLE_KVS_KEY_MAX).mapError
    (fieldError PMI_ERR_INVALID_KEY_LENGTH)
  let val ← (keyvalParseString buf "value".toList SIMPLE_KVS_VAL_MAX).mapError
    (fieldError PMI_ERR_INVALID_VAL_LENGTH)
  return (name, key, val)

/-- The fields of a `get`. -/
def getFields (buf : List Char) : Except (Option ℤ) (List Char × List Char) := do
  let name ← (keyvalParseWord buf "kvsname".toList SIMPLE_KVS_NAME_MAX).mapError
    (fieldError PMI_ERR_INVALID_LENGTH)
  let key ← (keyvalParseWord buf "key".toList SIMPLE_KVS_KEY_MAX).mapError
    (fieldError PMI_ERR_INVALID_KEY_LENGTH)
  return (name, key)

/-- A response with the value that is returned. -/
def respond (pmi : Server C) (client : C) (resp : List Char) (rc : ℤ) : Reply C :=
  ⟨pmi, [.responseSend client (snprintf resp)], rc⟩

/-- The label `proto`. -/
def proto (pmi : Server C) : Reply C := ⟨pmi, [], -1⟩

def initRequest (pmi : Server C) (buf : List Char) (client : C) : Reply C :=
  match keyvalParseUint buf "pmi_version".toList, keyvalParseUint buf "pmi_subversion".toList with
  | .ok version, .ok subversion =>
    if version < 1 ∨ version = 1 ∧ subversion < 1 then
      respond pmi client "cmd=response_to_init rc=-1\n".toList 0
    else
      respond pmi client
        "cmd=response_to_init rc=0 pmi_version=1 pmi_subversion=1\n".toList 0
  | _, _ => proto pmi

def putResult (result : ℤ) : List Char :=
  "cmd=put_result rc=".toList ++ formatInt result ++ "\n".toList

def putRequest (answers : Answers) (pmi : Server C) (buf : List Char) (client : C) : Reply C :=
  match putFields buf with
  | .error none => proto pmi
  | .error (some result) => respond pmi client (putResult result) 0
  | .ok (name, key, val) =>
    let result := if answers.kvsPut then PMI_SUCCESS else PMI_ERR_INVALID_KEY
    let reply := respond pmi client (putResult result) 0
    { reply with calls := .kvsPut name key val :: reply.calls }

def getRequest (answers : Answers) (pmi : Server C) (buf : List Char) (client : C) : Reply C :=
  match getFields buf with
  | .error none => proto pmi
  | .error (some result) => ⟨pmi, [.responseSend client (kvsGetError result)], 0⟩
  | .ok (name, key) =>
    let get := Call.kvsGet client name key answers.kvsGet
    if answers.kvsGet then ⟨pmi, [get], 0⟩
    else ⟨pmi, [get, .responseSend client (kvsGetError PMI_ERR_INVALID_KEY)], 0⟩

def barrierRequest (answers : Answers) (pmi : Server C) (client : C) : Reply C :=
  let pmi := { pmi with barrier := pmi.barrier ++ [client] }
  if pmi.barrier.length = pmi.localProcs then
    match answers.barrierEnter with
    | none => barrierExit pmi 0
    | some true => ⟨pmi, [.barrierEnter], 0⟩
    | some false =>
      let reply := barrierExit pmi PMI_FAIL
      { reply with calls := .barrierEnter :: reply.calls }
  else ⟨pmi, [], 0⟩

/-- `pmi_simple_server_request`. -/
def request (answers : Answers) (pmi : Server C) (buf : List Char) (client : C) : Reply C :=
  if mcmdInprogress pmi client then mcmdAppend pmi buf client
  else
    match command buf with
    | some .init => initRequest pmi buf client
    | some .getMaxes =>
      respond pmi client
        ("cmd=maxes rc=0 kvsname_max=".toList ++ decimal SIMPLE_KVS_NAME_MAX ++
          " keylen_max=".toList ++ decimal SIMPLE_KVS_KEY_MAX ++
          " vallen_max=".toList ++ decimal SIMPLE_KVS_VAL_MAX ++ "\n".toList) 0
    | some .abort => respond pmi client "\n".toList 0
    | some .finalize => respond pmi client "cmd=finalize_ack rc=0\n".toList 1
    | some .getUniverseSize =>
      respond pmi client ("cmd=universe_size rc=0 size=".toList ++
        formatInt pmi.universeSize.toInt ++ "\n".toList) 0
    | some .getAppnum =>
      respond pmi client ("cmd=appnum rc=0 appnum=".toList ++
        formatInt pmi.appnum.toInt ++ "\n".toList) 0
    | some .getMyKvsname =>
      respond pmi client ("cmd=my_kvsname rc=0 kvsname=".toList ++ pmi.kvsname ++ "\n".toList) 0
    | some .put => putRequest answers pmi buf client
    | some .get => getRequest answers pmi buf client
    | some .barrierIn => barrierRequest answers pmi client
    | some .publishName =>
      respond pmi client "cmd=publish_result rc=-1 msg=command not implemented\n".toList 0
    | some .unpublishName =>
      respond pmi client "cmd=unpublish_result rc=-1 msg=command not implemented\n".toList 0
    | some .lookupName =>
      respond pmi client "cmd=lookup_result rc=-1 msg=command not implemented\n".toList 0
    | some .spawn => mcmdBegin pmi buf client
    | none => proto pmi

/-! ### Commands in progress -/

omit [DecidableEq C] in
theorem initRequest_server (pmi : Server C) (buf : List Char) (c : C) :
    (initRequest pmi buf c).server = pmi := by
  rw [initRequest]
  split
  · split <;> rfl
  · rfl

omit [DecidableEq C] in
theorem putRequest_server (answers : Answers) (pmi : Server C) (buf : List Char) (c : C) :
    (putRequest answers pmi buf c).server = pmi := by
  rw [putRequest]
  split <;> rfl

omit [DecidableEq C] in
theorem getRequest_server (answers : Answers) (pmi : Server C) (buf : List Char) (c : C) :
    (getRequest answers pmi buf c).server = pmi := by
  rw [getRequest]
  split
  · rfl
  · rfl
  · dsimp only
    split <;> rfl

omit [DecidableEq C] in
theorem barrierRequest_clients (answers : Answers) (pmi : Server C) (c : C) :
    (barrierRequest answers pmi c).server.clients = pmi.clients := by
  rw [barrierRequest]
  dsimp only
  split
  · split <;> rfl
  · rfl

/-- A command of several lines is in progress for a client only if it was before, or if the client
has just begun one. -/
theorem mcmdInprogress_of_request {answers : Answers} {pmi : Server C} {buf : List Char} {c d : C}
    (h : mcmdInprogress (request answers pmi buf d).server c = true) :
    mcmdInprogress pmi c = true ∨ c = d ∧ command buf = some .spawn := by
  rw [request] at h
  split at h
  · rename_i hd
    by_cases hc : c = d
    · exact .inl (hc ▸ hd)
    refine .inl ?_
    simp only [mcmdAppend, mcmdExecute] at h
    split at h
    · exact h
    split at h
    · split at h <;> simp_all [mcmdInprogress]
    · grind [mcmdInprogress]
  · split at h
    case h_1 => exact .inl (initRequest_server pmi buf d ▸ h)
    case h_8 => exact .inl (putRequest_server answers pmi buf d ▸ h)
    case h_9 => exact .inl (getRequest_server answers pmi buf d ▸ h)
    case h_10 => exact .inl (by rwa [mcmdInprogress, barrierRequest_clients] at h)
    case h_14 hspawn =>
      by_cases hc : c = d
      · exact .inr ⟨hc, hspawn⟩
      · refine .inl ?_
        simpa [mcmdBegin, mcmdInprogress, Ne.symm hc] using h
    all_goals exact .inl h

end FluxCore.Libpmi.Simple
