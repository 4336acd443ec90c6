import FluxCore.Lib.Machine
import FluxCore.Util.Blobref

/-!
# Broker Attributes

The table of attributes of a broker (`attr.c`). An attribute is passive, with a value in the
table, or it is active, with callbacks that read and write it. The callbacks are arbitrary: what
a call of one returns is an argument of the function that makes the call.

A value that has been read as immutable stays for as long as the attribute is not registered
again with a callback for writing, which replaces the entry without a look at its flags
(`immutable_stays`).
-/

namespace FluxCore.Broker.Attr

open Function

/-- `FLUX_ATTRFLAG_IMMUTABLE`. -/
def attrflagImmutable : UInt32 := 1

/-- `FLUX_ATTRFLAG_READONLY`. -/
def attrflagReadonly : UInt32 := 2

/-- `FLUX_ATTRFLAG_ACTIVE`. -/
def attrflagActive : UInt32 := 4

/-- `struct entry`, with the callbacks that it has. -/
structure Entry where
  val : Option String
  flags : UInt32
  set : Bool := false
  get : Bool := false

/-- The flag that keeps the value. -/
def Entry.Immutable (e : Entry) : Prop := e.flags &&& attrflagImmutable ≠ 0

instance (e : Entry) : Decidable e.Immutable := inferInstanceAs (Decidable (_ ≠ _))

/-- `attr_t`. -/
abbrev Attrs := String → Option Entry

/-- `attr_delete`. -/
def attrDelete (attrs : Attrs) (name : String) (force : Bool) : Except Errno Attrs :=
  match attrs name with
  | none => .ok attrs
  | some e =>
    if e.Immutable then .error .EPERM
    else if (e.flags &&& attrflagReadonly ≠ 0 ∨ e.flags &&& attrflagActive ≠ 0) ∧ !force then
      .error .EPERM
    else .ok (update attrs name none)

/-- `attr_add`. -/
def attrAdd (attrs : Attrs) (name : Option String) (val : Option String) (flags : UInt32) :
    Except Errno Attrs :=
  match name with
  | none => .error .EINVAL
  | some name =>
    if flags &&& attrflagActive ≠ 0 then .error .EINVAL
    else if (attrs name).isSome then .error .EEXIST
    else .ok (update attrs name (some { val := val, flags := flags }))

/-- `attr_add_active`. The value of an entry of this name is given to the new callback, and then
the entry is replaced. -/
def attrAddActive (attrs : Attrs) (name : String) (flags : UInt32) (get set : Bool)
    (result : Except Errno Unit) : Except Errno Attrs :=
  let e := { val := none, flags := flags ||| attrflagActive, get := get, set := set }
  if (attrs name).isSome then
    if !set then .error .EEXIST
    else
      match result with
      | .error errnum => .error errnum
      | .ok _ => .ok (update attrs name (some e))
  else .ok (update attrs name (some e))

/-- `attr_get`: the value, the flags, and the table. -/
def attrGet (attrs : Attrs) (name : String) (result : Except Errno (Option String)) :
    Except Errno (Option String × UInt32 × Attrs) :=
  match attrs name with
  | none => .error .ENOENT
  | some e =>
    if e.get ∧ (e.val = none ∨ ¬ e.Immutable) then
      match result with
      | .error errnum => .error errnum
      | .ok tmp => .ok (tmp, e.flags, update attrs name (some { e with val := tmp }))
    else .ok (e.val, e.flags, attrs)

/-- `attr_set`. -/
def attrSet (attrs : Attrs) (name : String) (val : Option String) (force : Bool)
    (result : Except Errno Unit) : Except Errno Attrs :=
  match attrs name with
  | none => .error .ENOENT
  | some e =>
    if e.Immutable then .error .EPERM
    else if e.flags &&& attrflagReadonly ≠ 0 ∧ !force then .error .EPERM
    else
      match e.set, result with
      | true, .error errnum => .error errnum
      | _, _ => .ok (update attrs name (some { e with val := val }))

/-- A call of one of the functions. -/
inductive Call
  | delete (name : String) (force : Bool)
  | add (name : Option String) (val : Option String) (flags : UInt32)
  | addActive (name : String) (flags : UInt32) (get set : Bool) (result : Except Errno Unit)
  | get (name : String) (result : Except Errno (Option String))
  | set (name : String) (val : Option String) (force : Bool) (result : Except Errno Unit)

/-- The table after a call, if the call succeeds. -/
def Call.apply (attrs : Attrs) : Call → Except Errno Attrs
  | delete name force => attrDelete attrs name force
  | add name val flags => attrAdd attrs name val flags
  | addActive name flags g s result => attrAddActive attrs name flags g s result
  | get name result => (attrGet attrs name result).map fun r => r.2.2
  | set name val force result => attrSet attrs name val force result

/-- **The table and its calls.** A call that fails changes nothing. -/
def attributes : Machine Attrs Call where
  step c attrs := some ((c.apply attrs).toOption.getD attrs)

/-- **The condition.** An immutable attribute is not registered again with a callback for
writing that accepts its value, and its callback for reading does not give `NULL`. -/
def Kept (attrs : Attrs) : Call → Prop
  | .addActive name _ _ set result => ∀ e ∈ attrs name, e.Immutable →
    set = false ∨ result.toOption = none
  | .get name result => ∀ e ∈ attrs name, e.Immutable → e.get → result.toOption ≠ some none
  | _ => True

/-- The attribute has a value that is not asked for again. -/
structure Frozen (name : String) (v : Option String) (attrs : Attrs) (e : Entry) : Prop where
  entry : attrs name = some e
  immutable : e.Immutable
  val : e.val = v
  cached : e.get → v ≠ none

variable {name : String} {v : Option String} {attrs attrs' : Attrs} {e : Entry} {c : Call}

theorem Frozen.get (h : Frozen name v attrs e) (result : Except Errno (Option String)) :
    attrGet attrs name result = .ok (v, e.flags, attrs) := by
  have hcad : ¬ (e.get ∧ (e.val = none ∨ ¬ e.Immutable)) := by
    rintro ⟨hget, hnone | hmut⟩
    · exact h.cached hget (h.val.symm.trans hnone)
    · exact hmut h.immutable
  rw [attrGet, h.entry]
  simp only [if_neg hcad]
  rw [h.val]

/-- What has been read as immutable is frozen. -/
theorem frozen_of_get {flags : UInt32} {result : Except Errno (Option String)}
    (hget : attrGet attrs name result = .ok (v, flags, attrs'))
    (himm : flags &&& attrflagImmutable ≠ 0) (hkept : Kept attrs (.get name result)) :
    ∃ e, Frozen name v attrs' e := by
  rw [attrGet] at hget
  split at hget
  · cases hget
  rename_i e he
  split_ifs at hget with hcall
  · cases result with
    | error errnum => cases hget
    | ok tmp =>
      cases hget
      refine ⟨_, update_self .., himm, rfl, fun _ hnone => ?_⟩
      exact hkept e he himm hcall.1 (congrArg some hnone)
  · cases hget
    exact ⟨e, he, himm, rfl, fun hget hnone => hcall ⟨hget, .inl hnone⟩⟩

/-- A call changes one entry at most, and no immutable one that has a value. -/
theorem apply_cases (hkept : Kept attrs c) (hc : c.apply attrs = .ok attrs') :
    attrs' = attrs ∨ ∃ n e', attrs' = update attrs n e' ∧
      ∀ e, attrs n = some e → e.Immutable → e.get ∧ e.val = none := by
  cases c with
  | delete n force =>
    simp only [Call.apply, attrDelete] at hc
    grind
  | add n val flags =>
    simp only [Call.apply, attrAdd] at hc
    grind
  | addActive n flags g set result =>
    simp only [Kept, Option.mem_def] at hkept
    simp only [Call.apply, attrAddActive] at hc
    grind [Except.toOption]
  | get n result =>
    simp only [Call.apply, attrGet] at hc
    grind [Except.map]
  | set n val force result =>
    simp only [Call.apply, attrSet] at hc
    grind

/-- **A call keeps what is frozen.** -/
theorem Frozen.apply (h : Frozen name v attrs e) (hkept : Kept attrs c)
    (hc : c.apply attrs = .ok attrs') : Frozen name v attrs' e := by
  obtain rfl | ⟨n, e', rfl, hmut⟩ := apply_cases hkept hc
  · exact h
  have hn : name ≠ n := by
    rintro rfl
    obtain ⟨hget, hnone⟩ := hmut e h.entry h.immutable
    exact h.cached hget (h.val.symm.trans hnone)
  exact { h with entry := (update_of_ne hn ..).trans h.entry }

/-- **Immutable attributes do not change.** Once an attribute has been read with the flag, it is
read with this value after all calls that meet the condition. -/
theorem immutable_stays {flags : UInt32} {result : Except Errno (Option String)} {t : Attrs}
    (hget : attrGet attrs name result = .ok (v, flags, attrs'))
    (himm : flags &&& attrflagImmutable ≠ 0) (hkept : Kept attrs (.get name result))
    (ht : attributes.Reach Kept (· = attrs') t) (result' : Except Errno (Option String)) :
    ∃ flags' t', attrGet t name result' = .ok (v, flags', t') := by
  obtain ⟨e, hfrozen⟩ := frozen_of_get hget himm hkept
  have hstays : Frozen name v t e := by
    refine ht.invariant (Frozen name v · e) ?_ ?_
    · rintro _ rfl
      exact hfrozen
    · intro s c u _ h hkept hstep
      cases hc : c.apply s with
      | error errnum =>
        simp only [attributes, hc, Option.some.injEq] at hstep
        exact hstep ▸ h
      | ok s' =>
        simp only [attributes, hc, Option.some.injEq] at hstep
        exact hstep ▸ h.apply hkept hc
  exact ⟨_, _, hstays.get result'⟩

/-- A table with the rank of the broker. -/
def ranked : Attrs := fun name =>
  if name = "rank" then some { val := some "0", flags := attrflagImmutable } else none

/-- The rank after an attempt to write it. -/
theorem immutable_stays_rank :
    ∃ flags t', attrGet ranked "rank" (.error .EPERM) = .ok (some "0", flags, t') :=
  immutable_stays (rfl : attrGet ranked "rank" (.ok none) = .ok (some "0", 1, ranked)) (by decide)
    (by rintro e ⟨⟩ _ ⟨⟩)
    (.step (.set "rank" (some "1") true (.ok ())) (.start rfl) trivial rfl) (.error .EPERM)

/-- **Registered again,** the rank is what the new callback says. -/
theorem rank_registered_again :
    attrGet ranked "rank" (.ok none) = .ok (some "0", attrflagImmutable, ranked) ∧
      ∃ t, attributes.run [.addActive "rank" attrflagImmutable true true (.ok ())] ranked = some t ∧
        ∃ t', attrGet t "rank" (.ok (some "1")) =
          .ok (some "1", attrflagImmutable ||| attrflagActive, t') :=
  ⟨rfl, _, rfl, _, rfl⟩

end FluxCore.Broker.Attr
