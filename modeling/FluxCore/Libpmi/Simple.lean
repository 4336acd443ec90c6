import FluxCore.Lib.Machine
import FluxCore.Libpmi.SimpleServer

/-!
# The PMI-1 Client and its Server

`simple_client.c`: a call of the client library writes a line, reads one line and takes its result
from that. A server has clients of the library, which write the lines of the library, and others
that write any lines they like.

**Puts and gets are transparent** (`put_get_transparent`): the server calls `kvs_put` with what
the client was given, and what the server completes a get with is what the client's `kvs_get`
returns.
-/

namespace FluxCore.Libpmi.Simple

open Cstring Keyval List

/-- The calls of the library that write a line. `getMaxes` is the second line of `init`. -/
inductive Op
  | init
  | getMaxes
  | finalize
  | getAppnum
  | getUniverseSize
  | barrier
  | kvsGetMyName (length : ℕ)
  | kvsPut (kvsname key value : List Char)
  | kvsGet (kvsname key : List Char) (len : ℕ)
deriving DecidableEq, Repr

/-- The line that a call writes. -/
def Op.line : Op → List Char
  | .init => "cmd=init pmi_version=1 pmi_subversion=1\n".toList
  | .getMaxes => "cmd=get_maxes\n".toList
  | .finalize => "cmd=finalize\n".toList
  | .getAppnum => "cmd=get_appnum\n".toList
  | .getUniverseSize => "cmd=get_universe_size\n".toList
  | .barrier => "cmd=barrier_in\n".toList
  | .kvsGetMyName _ => "cmd=get_my_kvsname\n".toList
  | .kvsPut kvsname key value =>
    "cmd=put kvsname=".toList ++ kvsname ++ " key=".toList ++ key ++
      " value=".toList ++ value ++ "\n".toList
  | .kvsGet kvsname key _ =>
    "cmd=get kvsname=".toList ++ kvsname ++ " key=".toList ++ key ++ "\n".toList

/-- The loop of `dgetline`, with the number of characters that still fit. It waits at the end of
what was sent. -/
def readLine : ℕ → List Char → Option (Option (List Char) × List Char)
  | 0, fd => some (none, fd)
  | _ + 1, [] => none
  | n + 1, c :: fd =>
    if c = '\n' then some (some [c], fd)
    else (readLine n fd).map fun r => (r.1.map (c :: ·), r.2)

/-- `dgetline`. For an array without room for a character, the one before the array is looked
at. -/
def dgetline (fd : List Char) (len : ℕ) : Option (Option (List Char) × List Char) :=
  if len ≤ 1 then none else readLine (len - 1) fd

/-- The first checks of a response: its `cmd`, and that there is no `rc` other than 0. -/
def checkResponse (buf cmd : List Char) : Except ℤ Unit :=
  match keyvalParseIsword buf "cmd".toList cmd with
  | .error _ => .error PMI_FAIL
  | .ok () =>
    match keyvalParseInt buf "rc".toList with
    | .ok rc => if rc ≠ 0 then .error rc else .ok ()
    | .error _ => .ok ()

def orFail {α : Type} (r : Except Ekv α) : Except ℤ α := r.mapError fun _ => PMI_FAIL

/-- The length of the client's array, from the response to `getMaxes`. -/
def maxesResult (buf : List Char) : Except ℤ ℕ := do
  checkResponse buf "maxes".toList
  let kvsnameMax ← orFail (keyvalParseUint buf "kvsname_max".toList)
  let keylenMax ← orFail (keyvalParseUint buf "keylen_max".toList)
  let vallenMax ← orFail (keyvalParseUint buf "vallen_max".toList)
  return keylenMax + vallenMax + kvsnameMax + SIMPLE_MAX_PROTO_OVERHEAD

/-- The end of `pmi_simple_client_kvs_get`, after the line was read. -/
def kvsGetResult (buf : List Char) (len : ℕ) : Except ℤ (List Char) := do
  checkResponse buf "get_result".toList
  orFail (keyvalParseString buf "value".toList len)

/-- A word that may be a name or a key. -/
def IsWord (max : ℕ) (w : List Char) : Prop :=
  (∀ c ∈ w, isspace c = false ∧ c ≠ '\x00') ∧ w.length < max

/-- A text that may be a value. -/
def IsValue (v : List Char) : Prop :=
  (∀ c ∈ v, c ≠ '\n' ∧ c ≠ '\x00') ∧ v.length < SIMPLE_KVS_VAL_MAX

instance (max : ℕ) : DecidablePred (IsWord max) := fun w =>
  inferInstanceAs (Decidable ((∀ c ∈ w, isspace c = false ∧ c ≠ '\x00') ∧ w.length < max))

instance : DecidablePred IsValue := fun v =>
  inferInstanceAs
    (Decidable ((∀ c ∈ v, c ≠ '\n' ∧ c ≠ '\x00') ∧ v.length < SIMPLE_KVS_VAL_MAX))

/-! ### The system -/

inductive Label (C : Type)
  /-- a client of the library makes a call -/
  | call (c : C) (op : Op) (answers : Answers)
  /-- any other client writes a line -/
  | write (c : C) (buf : List Char) (answers : Answers)
  /-- `pmi_simple_server_barrier_complete` -/
  | barrierComplete (rc : Int32)

variable {C : Type} [DecidableEq C]

def step (lib : C → Bool) : Label C → Server C → Option (Server C)
  | .call c op answers, pmi =>
    if lib c = true then some (request answers pmi op.line c).server else none
  | .write c buf answers, pmi =>
    if lib c = false then some (request answers pmi buf c).server else none
  | .barrierComplete rc, pmi => some (barrierExit pmi rc.toInt).server

def machine (lib : C → Bool) : Machine (Server C) (Label C) := ⟨step lib⟩

/-- A state of a server that was new with no command in progress. -/
def Reachable (lib : C → Bool) : Server C → Prop :=
  (machine lib).Reach (fun _ _ => True) fun pmi => pmi.barrier = [] ∧ pmi.clients = []

/-! ### The lines of the client -/

theorem isword_cmd (word rest : List Char) :
    isword ("cmd=".toList ++ rest) "cmd".toList word = word.isPrefixOf rest := by
  have hval : parseVal ("cmd=".toList ++ rest) "cmd".toList = some rest :=
    parseValFrom_found [] rest
  rw [isword, keyvalParseIsword, hval]
  cases h : word.isPrefixOf rest <;> simp [h]

theorem command_cmd (rest : List Char) (h : cmds.find? (fun c => c.1.isPrefixOf rest) = some c) :
    command ("cmd=".toList ++ rest) = some c.2 := by
  have hfind : cmds.find? (fun c => isword ("cmd=".toList ++ rest) "cmd".toList c.1) =
      some c := by
    simpa only [isword_cmd] using h
  rw [command, hfind]

/-- The branch that the server takes for a call. -/
def Op.cmd : Op → Cmd
  | .init => .init
  | .getMaxes => .getMaxes
  | .finalize => .finalize
  | .getAppnum => .getAppnum
  | .getUniverseSize => .getUniverseSize
  | .barrier => .barrierIn
  | .kvsGetMyName _ => .getMyKvsname
  | .kvsPut _ _ _ => .put
  | .kvsGet _ _ _ => .get

theorem command_line (op : Op) : command op.line = some op.cmd := by
  cases op with
  | init | getMaxes | finalize | getAppnum | getUniverseSize | barrier => decide +kernel
  | kvsGetMyName length =>
    exact (by decide +kernel : command "cmd=get_my_kvsname\n".toList = some .getMyKvsname)
  | kvsPut kvsname key value =>
    exact command_cmd ("put kvsname=".toList ++ kvsname ++ " key=".toList ++ key ++
      " value=".toList ++ value ++ "\n".toList) rfl
  | kvsGet kvsname key len =>
    exact command_cmd ("get kvsname=".toList ++ kvsname ++ " key=".toList ++ key ++
      "\n".toList) rfl

theorem kvsPut_line (kvsname key value : List Char) :
    (Op.kvsPut kvsname key value).line = "cmd".toList ++ '=' :: "put".toList ++ ' ' ::
      ("kvsname".toList ++ '=' :: kvsname ++ ' ' :: ("key".toList ++ '=' :: key ++ ' ' ::
        ("value".toList ++ '=' :: value ++ "\n".toList))) := by
  unfold Op.line
  simp only [append_assoc, cons_append]
  rfl

theorem keyvalParseWord_eq {s key word rest : List Char} {c : Char} {max : ℕ}
    (h : parseVal s key = some (word ++ c :: rest)) (hword : IsWord max word)
    (hc : isspace c = true) : keyvalParseWord s key max = .ok word := by
  rw [keyvalParseWord, h]
  exact copyWhile_append (fun d hd => by simp [(hword.1 d hd).1]) (by simp [hc]) hword.2

theorem keyvalParseString_eq {s key value rest : List Char} {max : ℕ}
    (h : parseVal s key = some (value ++ '\n' :: rest)) (hvl : IsValue value)
    (hlen : value.length < max) : keyvalParseString s key max = .ok value := by
  rw [keyvalParseString, h]
  exact copyWhile_append (fun d hd => by simp [(hvl.1 d hd).1]) (by simp) hlen

/-- **The server finds the arguments of a put.** -/
theorem putFields_line {kvsname key value : List Char}
    (hkvs : IsWord SIMPLE_KVS_NAME_MAX kvsname) (hkey : IsWord SIMPLE_KVS_KEY_MAX key)
    (hvl : IsValue value) :
    putFields (Op.kvsPut kvsname key value).line = .ok (kvsname, key, value) := by
  obtain ⟨_, hname⟩ : ∃ rest, parseVal (Op.kvsPut kvsname key value).line "kvsname".toList =
      some (kvsname ++ ' ' :: rest) := by
    rw [kvsPut_line, parseVal,
      parseValFrom_field (by rintro ⟨_, h⟩; cases h) (by decide) (by decide) rfl,
      parseValFrom_found]
    exact ⟨_, rfl⟩
  obtain ⟨_, hkey'⟩ : ∃ rest, parseVal (Op.kvsPut kvsname key value).line "key".toList =
      some (key ++ ' ' :: rest) := by
    rw [kvsPut_line, parseVal,
      parseValFrom_field (by rintro ⟨_, h⟩; cases h) (by decide) (by decide) rfl,
      parseValFrom_field (by rintro ⟨_, h⟩; cases h) (by decide)
        (fun c hc => (hkvs.1 c hc).1) rfl,
      parseValFrom_found]
    exact ⟨_, rfl⟩
  obtain ⟨_, hvl'⟩ : ∃ rest, parseVal (Op.kvsPut kvsname key value).line "value".toList =
      some (value ++ '\n' :: rest) := by
    rw [kvsPut_line, parseVal,
      parseValFrom_field (by rintro ⟨_, h⟩; cases h) (by decide) (by decide) rfl,
      parseValFrom_field (by rintro ⟨_, h⟩; cases h) (by decide)
        (fun c hc => (hkvs.1 c hc).1) rfl,
      parseValFrom_field (by rintro ⟨_, h⟩; cases h) (by decide)
        (fun c hc => (hkey.1 c hc).1) rfl,
      parseValFrom_found]
    exact ⟨_, rfl⟩
  rw [putFields, keyvalParseWord_eq hname hkvs rfl, keyvalParseWord_eq hkey' hkey rfl,
    keyvalParseString_eq hvl' hvl hvl.2]
  rfl

/-! ### The answer to a get -/

theorem kvsGetComplete_some (hv : IsValue v) :
    kvsGetComplete (some v) = "cmd=get_result rc=0 value=".toList ++ v ++ ['\n'] := by
  refine take_of_length_le ?_
  have hlen : v.length < 1024 := hv.2
  have hmax : SIMPLE_MAX_PROTO_LINE = 1216 := rfl
  simp only [length_append, String.length_toList]
  rw [hmax]
  change 26 + v.length + 1 ≤ 1216
  omega

theorem kvsGetComplete_fields (hv : IsValue v) :
    kvsGetComplete (some v) = "cmd".toList ++ '=' :: "get_result".toList ++ ' ' ::
      ("rc".toList ++ '=' :: "0".toList ++ ' ' ::
        ("value".toList ++ '=' :: v ++ "\n".toList)) := by
  rw [kvsGetComplete_some hv]
  simp only [append_assoc, cons_append]
  rfl

/-- **The client reads the value that the server has sent.** -/
theorem kvsGetResult_complete {v : List Char} (hv : IsValue v) {len : ℕ} (hlen : v.length < len) :
    kvsGetResult (kvsGetComplete (some v)) len = .ok v := by
  obtain ⟨_, hcmd⟩ : ∃ rest, parseVal (kvsGetComplete (some v)) "cmd".toList =
      some ("get_result".toList ++ ' ' :: rest) := by
    rw [kvsGetComplete_fields hv, parseVal, parseValFrom_found]
    exact ⟨_, rfl⟩
  obtain ⟨_, hrc⟩ : ∃ rest, parseVal (kvsGetComplete (some v)) "rc".toList =
      some (decimal 0 ++ ' ' :: rest) := by
    rw [kvsGetComplete_fields hv, parseVal,
      parseValFrom_field (by rintro ⟨_, h⟩; cases h) (by decide) (by decide) rfl,
      parseValFrom_found]
    exact ⟨_, rfl⟩
  obtain ⟨_, hvl⟩ : ∃ rest, parseVal (kvsGetComplete (some v)) "value".toList =
      some (v ++ '\n' :: rest) := by
    rw [kvsGetComplete_fields hv, parseVal,
      parseValFrom_field (by rintro ⟨_, h⟩; cases h) (by decide) (by decide) rfl,
      parseValFrom_field (by rintro ⟨_, h⟩; cases h) (by decide) (by decide) rfl,
      parseValFrom_found]
    exact ⟨_, rfl⟩
  have hchk : checkResponse (kvsGetComplete (some v)) "get_result".toList = .ok () := by
    have hisword : keyvalParseIsword (kvsGetComplete (some v)) "cmd".toList "get_result".toList =
        .ok () := by
      rw [keyvalParseIsword, hcmd]
      exact if_pos (List.isPrefixOf_iff_prefix.mpr (prefix_append _ _))
    have hint : keyvalParseInt (kvsGetComplete (some v)) "rc".toList = .ok (0 : ℕ) :=
      keyvalParseInt_decimal hrc (by decide) rfl
    rw [checkResponse, hisword, hint]
    rfl
  rw [kvsGetResult, hchk, keyvalParseString_eq hvl hv hlen]
  rfl

theorem readLine_line (hw : '\n' ∉ w) (hn : w.length < n) (rest : List Char) :
    readLine n (w ++ '\n' :: rest) = some (some (w ++ ['\n']), rest) := by
  induction w generalizing n with
  | nil =>
    obtain ⟨n, rfl⟩ : ∃ m, n = m + 1 := ⟨n - 1, by simp at hn; omega⟩
    rfl
  | cons c w ih =>
    obtain ⟨n, rfl⟩ : ∃ m, n = m + 1 := ⟨n - 1, by simp at hn; omega⟩
    have hc : c ≠ '\n' := fun h => hw (h ▸ mem_cons_self ..)
    rw [cons_append, readLine, if_neg hc,
      ih (fun h => hw (mem_cons_of_mem _ h)) (by simpa using hn)]
    rfl

theorem dgetline_complete (hv : IsValue v) (rest : List Char) :
    dgetline (kvsGetComplete (some v) ++ rest) SIMPLE_MAX_PROTO_LINE =
      some (some (kvsGetComplete (some v)), rest) := by
  have hmem : '\n' ∉ "cmd=get_result rc=0 value=".toList ++ v := by
    rw [mem_append]
    rintro (h | h)
    · exact absurd h (by decide)
    · exact (hv.1 _ h).1 rfl
  rw [kvsGetComplete_some hv, dgetline, if_neg (by decide), append_assoc]
  refine readLine_line hmem ?_ rest
  have hlen : v.length < 1024 := hv.2
  rw [length_append]
  change 26 + v.length < 1215
  omega

/-! ### Whole runs -/

theorem Reachable.not_inprogress {lib : C → Bool} {c : C} (hlib : lib c = true) {pmi : Server C}
    (h : Reachable lib pmi) : mcmdInprogress pmi c = false := by
  refine h.invariant (fun pmi => mcmdInprogress pmi c = false) ?_ ?_
  · intro pmi hpmi
    simp [mcmdInprogress, hpmi.2]
  · intro pmi l pmi' _ hpmi _ hstep
    have hreq {answers : Answers} {buf : List Char} {d : C}
        (hbuf : c = d → command buf ≠ some .spawn) :
        mcmdInprogress (request answers pmi buf d).server c = false := by
      by_contra hc
      rcases mcmdInprogress_of_request (Bool.not_eq_false _ ▸ hc) with hc | ⟨rfl, hspawn⟩
      · simp [hpmi] at hc
      · exact hbuf rfl hspawn
    cases l with
    | call d op answers =>
      obtain ⟨-, h⟩ := Option.ite_none_right_eq_some.mp hstep
      cases h
      refine hreq fun _ => ?_
      rw [command_line]
      cases op <;> simp [Op.cmd]
    | write d buf answers =>
      obtain ⟨hd, h⟩ := Option.ite_none_right_eq_some.mp hstep
      cases h
      refine hreq fun hc => ?_
      rw [← hc, hlib] at hd
      cases hd
    | barrierComplete rc =>
      cases hstep
      exact hpmi

/-- **Puts and gets are transparent.** For a client of the library, in every state of the server
that is reached:

* the line that `kvs_put` writes makes the server call `kvs_put` once, with the name, the key
  and the value that the client was given;
* the server tells the client the length of its array, and what
  `pmi_simple_server_kvs_get_complete` then sends for a value is read by the client up to its end
  and gives that value. -/
theorem put_get_transparent {lib : C → Bool} {pmi : Server C} (h : Reachable lib pmi) {c : C}
    (hlib : lib c = true) : (∀ kvsname key value answers, IsWord SIMPLE_KVS_NAME_MAX kvsname →
      IsWord SIMPLE_KVS_KEY_MAX key → IsValue value →
      ∃ resp, (request answers pmi (Op.kvsPut kvsname key value).line c).calls =
        [.kvsPut kvsname key value, .responseSend c resp]) ∧
    (∃ line, (∀ answers, (request answers pmi Op.getMaxes.line c).calls =
        [.responseSend c line]) ∧ maxesResult line = .ok SIMPLE_MAX_PROTO_LINE) ∧
    ∀ v len rest, IsValue v → v.length < len →
      ∃ buf, dgetline (kvsGetComplete (some v) ++ rest) SIMPLE_MAX_PROTO_LINE =
        some (some buf, rest) ∧ kvsGetResult buf len = .ok v := by
  have hmcmd := h.not_inprogress hlib
  refine ⟨fun kvsname key value answers hkvs hkey hvl => ?_, ?_, ?_⟩
  · refine ⟨snprintf (putResult (if answers.kvsPut then PMI_SUCCESS else PMI_ERR_INVALID_KEY)), ?_⟩
    rw [request, hmcmd, if_neg Bool.false_ne_true, command_line]
    dsimp only [Op.cmd]
    rw [putRequest, putFields_line hkvs hkey hvl]
    rfl
  · refine ⟨snprintf ("cmd=maxes rc=0 kvsname_max=".toList ++ decimal SIMPLE_KVS_NAME_MAX ++
      " keylen_max=".toList ++ decimal SIMPLE_KVS_KEY_MAX ++
      " vallen_max=".toList ++ decimal SIMPLE_KVS_VAL_MAX ++ "\n".toList), fun answers => ?_, ?_⟩
    · rw [request, hmcmd, if_neg Bool.false_ne_true, command_line]
      rfl
    · decide +kernel
  · exact fun v len rest hv hlen =>
      ⟨_, dgetline_complete hv rest, kvsGetResult_complete hv hlen⟩

/-- A put whose value looks like other fields, and a get that is completed with such a value. -/
theorem put_get_transparent_fields :
    (∃ resp, (request ⟨true, true, none⟩ ⟨0, "flux".toList, 1, 1, [], []⟩
        (Op.kvsPut "flux".toList "key=a".toList " key=b value=c".toList).line ()).calls =
      [.kvsPut "flux".toList "key=a".toList " key=b value=c".toList, .responseSend () resp]) ∧
    ∃ buf, dgetline (kvsGetComplete (some "x cmd=get rc=1 value=y".toList) ++ [])
        SIMPLE_MAX_PROTO_LINE = some (some buf, []) ∧ kvsGetResult buf 1024 = .ok "x cmd=get rc=1 value=y".toList := by
  have hrch : Reachable (fun _ => true) (⟨0, "flux".toList, 1, 1, [], []⟩ : Server Unit) :=
    .start ⟨rfl, rfl⟩
  have hget := put_get_transparent hrch (c := ()) rfl
  exact ⟨hget.1 _ _ _ _ (by decide +kernel) (by decide +kernel) (by decide +kernel),
    hget.2.2 _ _ [] (by decide +kernel) (by decide +kernel)⟩

end FluxCore.Libpmi.Simple
