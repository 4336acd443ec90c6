import Mathlib.Data.List.AList
import Mathlib.Data.List.Sort
import FluxCore.Lib.Machine
import FluxCore.Util.Blobref

/-!
# The User Database

The `userdb` module (`modules/userdb/userdb.c`) keeps the roles of the instance's users in a
hash by userid. A client walks it with `getnext`: its first request takes a sorted copy of the
keys, kept in `iterators` under the client's uuid until the end is reported. The copy is not
changed when users are deleted, and a key whose user is gone ends the walk like the end of the
copy does. So **the users returned are in increasing order**, but
**a deleted user hides every user behind it**.
-/

namespace FluxCore.Userdb

open List

/-- FLUX_ROLE_NONE and FLUX_ROLE_OWNER. -/
def roleNone : UInt32 := 0
def roleOwner : UInt32 := 1

/-- `struct user`: its userid is also its key in the hash. -/
structure User where
  userid : UInt32
  rolemask : UInt32
  deriving DecidableEq

/-- `userdb_ctx_t`, for clients with uuids in `U`. An iterator is the keys that its list has
behind the cursor. -/
structure Ctx (U : Type) where
  defaultRolemask : UInt32
  db : AList fun _ : UInt32 => UInt32
  iterators : U → Option (List UInt32)

inductive Request (U : Type)
  | lookup (userid : UInt32)
  | addrole (userid rolemask : UInt32)
  | delrole (userid rolemask : UInt32)
  | getnext (uuid : U)
  | disconnect (uuid : U)
  deriving DecidableEq

variable {U : Type} [DecidableEq U] {c : Ctx U} {uuid : U}

/-- The answer to a request (`disconnect` has none). -/
abbrev Answer := Option (Except Errno User)

namespace Ctx

/-- `user_add`, of a user that is not there. -/
def userAdd (c : Ctx U) (userid rolemask : UInt32) : Ctx U × Answer :=
  ({ c with db := c.db.insert userid rolemask }, some (.ok ⟨userid, rolemask⟩))

def lookup (c : Ctx U) (userid : UInt32) : Ctx U × Answer :=
  match c.db.lookup userid with
  | some rolemask => (c, some (.ok ⟨userid, rolemask⟩))
  | none =>
    if c.defaultRolemask ≠ roleNone then c.userAdd userid c.defaultRolemask
    else (c, some (.error .ENOENT))

def addrole (c : Ctx U) (userid rolemask : UInt32) : Ctx U × Answer :=
  match c.db.lookup userid with
  | none =>
    let rolemask := if rolemask = roleNone then c.defaultRolemask else rolemask
    if rolemask = roleNone then (c, some (.error .EINVAL)) else c.userAdd userid rolemask
  | some old =>
    ({ c with db := c.db.insert userid (old ||| rolemask) },
      some (.ok ⟨userid, old ||| rolemask⟩))

/-- A user left without roles is deleted after the answer. -/
def delrole (c : Ctx U) (userid rolemask : UInt32) : Ctx U × Answer :=
  match c.db.lookup userid with
  | none => (c, some (.error .ENOENT))
  | some old =>
    let left := old &&& ~~~rolemask
    ({ c with db := if left = roleNone then c.db.erase userid else c.db.insert userid left },
      some (.ok ⟨userid, left⟩))

/-- The keys that a `getnext` of `uuid` has before it: a new iterator is a sorted copy of the
keys. -/
def upcoming (c : Ctx U) (uuid : U) : List UInt32 :=
  (c.iterators uuid).getD (c.db.keys.insertionSort (· ≤ ·))

def setIterator (c : Ctx U) (uuid : U) (itr : Option (List UInt32)) : Ctx U :=
  { c with iterators := Function.update c.iterators uuid itr }

def getnext (c : Ctx U) (uuid : U) : Ctx U × Answer :=
  match c.upcoming uuid with
  | [] => (c.setIterator uuid none, some (.error .ENOENT))
  | key :: itr =>
    match c.db.lookup key with
    | none => (c.setIterator uuid none, some (.error .ENOENT))
    | some rolemask => (c.setIterator uuid (some itr), some (.ok ⟨key, rolemask⟩))

def handle (c : Ctx U) : Request U → Ctx U × Answer
  | .lookup userid => c.lookup userid
  | .addrole userid rolemask => c.addrole userid rolemask
  | .delrole userid rolemask => c.delrole userid rolemask
  | .getnext uuid => c.getnext uuid
  | .disconnect uuid => (c.setIterator uuid none, none)

end Ctx

/-- The module as it is loaded (`mod_main`): the instance owner is in the database. -/
def load (U : Type) (defaultRolemask euid : UInt32) : Ctx U :=
  ⟨defaultRolemask, AList.singleton euid roleOwner, fun _ => none⟩

/-- The module as a machine that takes one request after the other. -/
def machine (U : Type) [DecidableEq U] : Machine (Ctx U) (Request U) where
  step r c := some (c.handle r).1

/-- The answers to the `getnext` requests of `uuid` in a run. -/
def answers (uuid : U) : List (Request U) → Ctx U → List (Except Errno User)
  | [], _ => []
  | r :: rs, c =>
    (if r = .getnext uuid then (c.handle r).2.toList else []) ++ answers uuid rs (c.handle r).1

/-- The user is in the database before every request of a run. -/
abbrev Throughout (userid : UInt32) : List (Request U) → Ctx U → Prop :=
  (machine U).AllSteps fun c _ _ => userid ∈ c.db.keys

/-- A `getnext` finds the next user of its copy still in the database, or none of the users
behind it are there either. -/
def Ctx.Unbroken (c : Ctx U) : Request U → Prop
  | .getnext uuid => ∀ key ∈ (c.upcoming uuid).head?, key ∈ c.db.keys ∨
      ∀ k ∈ (c.upcoming uuid).tail, k ∉ c.db.keys
  | _ => True

instance (c : Ctx U) : DecidablePred c.Unbroken
  | .getnext uuid =>
    have : Decidable (∀ k ∈ (c.upcoming uuid).tail, k ∉ c.db.keys) := decidableBAll _ _
    Option.decidableForallMem ..
  | .lookup _ | .addrole _ _ | .delrole _ _ | .disconnect _ => .isTrue trivial

/-! ### A step -/

/-- The requests other than the client's own leave its iterator alone. -/
theorem handle_iterators (hg : r ≠ .getnext uuid) (hd : r ≠ .disconnect uuid) (c : Ctx U) :
    (c.handle r).1.iterators uuid = c.iterators uuid := by
  cases r with
  | lookup userid =>
    simp only [Ctx.handle, Ctx.lookup, Ctx.userAdd]
    split
    · rfl
    · split_ifs <;> rfl
  | addrole userid rolemask =>
    simp only [Ctx.handle, Ctx.addrole, Ctx.userAdd]
    split
    · split_ifs <;> rfl
    · rfl
  | delrole userid rolemask =>
    simp only [Ctx.handle, Ctx.delrole]
    split <;> rfl
  | getnext other =>
    have hne : uuid ≠ other := fun h => hg (h ▸ rfl)
    simp only [Ctx.handle, Ctx.getnext, Ctx.setIterator]
    split
    · exact Function.update_of_ne hne ..
    · split <;> exact Function.update_of_ne hne ..
  | disconnect other =>
    have hne : uuid ≠ other := fun h => hd (h ▸ rfl)
    exact Function.update_of_ne hne ..

omit [DecidableEq U] in
/-- A copy of the keys is strictly increasing. -/
theorem sorted_keys (c : Ctx U) : (c.db.keys.insertionSort (· ≤ ·)).Pairwise (· < ·) := by
  have hle := pairwise_insertionSort (· ≤ ·) c.db.keys
  have hnd : (c.db.keys.insertionSort (· ≤ ·)).Nodup :=
    (perm_insertionSort _ _).nodup_iff.2 c.db.keys_nodup
  exact (hle.and hnd).imp fun ⟨h, hne⟩ => UInt32.lt_of_le_of_ne h hne

/-- A `getnext` with no user at its next key is answered ENOENT. -/
theorem answers_broken (rs : List (Request U))
    (h : ∀ key itr, c.upcoming uuid = key :: itr → key ∉ c.db) :
    ∃ c', answers uuid (.getnext uuid :: rs) c = .error .ENOENT :: answers uuid rs c' := by
  refine ⟨c.setIterator uuid none, ?_⟩
  rw [answers, if_pos rfl, Ctx.handle, Ctx.getnext]
  split
  · rfl
  rename_i key itr hup
  rw [AList.lookup_eq_none.2 (h key itr hup)]
  rfl

/-- A `getnext` with a user at its next key returns it and moves on. -/
theorem answers_found (rs : List (Request U)) (hup : c.upcoming uuid = key :: itr)
    (hk : c.db.lookup key = some rolemask) :
    (machine U).step (.getnext uuid) c = some (c.setIterator uuid (some itr)) ∧
      answers uuid (.getnext uuid :: rs) c
        = .ok ⟨key, rolemask⟩ :: answers uuid rs (c.setIterator uuid (some itr)) := by
  have hh : c.handle (.getnext uuid)
      = (c.setIterator uuid (some itr), some (.ok ⟨key, rolemask⟩)) := by
    rw [Ctx.handle, Ctx.getnext, hup]
    simp only [hk]
  have hs : (machine U).step (.getnext uuid) c = some (c.handle (.getnext uuid)).1 := rfl
  rw [hs, answers, if_pos rfl, hh]
  exact ⟨rfl, rfl⟩

/-! ### A run -/

/-- With the keys `itr` before the client, the users returned in a run are the first of them;
and if the walk ends unbroken, those of `itr` that were there throughout are among them. -/
def Walks (uuid : U) (rs : List (Request U)) (c : Ctx U) (itr : List UInt32) : Prop :=
  ∀ (us : List User) rest, answers uuid rs c = us.map .ok ++ rest →
    us.map User.userid <+: itr ∧ ((machine U).AllSteps (fun c r _ => c.Unbroken r) rs c →
      rest = [.error .ENOENT] → ∀ k ∈ itr, Throughout k rs c → k ∈ us.map User.userid)

theorem Walks.getnext (h : ∀ itr, Walks uuid rs (c.setIterator uuid (some itr)) itr) :
    Walks uuid (.getnext uuid :: rs) c (c.upcoming uuid) := by
  intro us rest ha
  by_cases hb : ∀ key itr, c.upcoming uuid = key :: itr → key ∉ c.db
  · obtain ⟨c', hc'⟩ := answers_broken rs hb
    rw [hc'] at ha
    cases us with
    | cons u us => cases ha
    | nil =>
      refine ⟨ nil_prefix, fun hu _ k hi hk => ?_⟩
      obtain ⟨key, itr, hup⟩ := exists_cons_of_ne_nil (ne_nil_of_mem hi)
      have hkey := hb key itr hup
      -- the first key is gone, so the others are gone too
      have hgone := (hu _ rfl).1
      simp only [Ctx.Unbroken, hup, head?_cons, Option.mem_some_iff, forall_eq', tail_cons] at hgone
      rw [hup] at hi
      rcases mem_cons.1 hi with rfl | hi
      · exact absurd (hk _ rfl).1 hkey
      · exact absurd (hk _ rfl).1 (hgone.resolve_left hkey k hi)
  push Not at hb
  obtain ⟨key, itr, hup, hkey⟩ := hb
  obtain ⟨rolemask, hl⟩ := Option.isSome_iff_exists.1 (AList.lookup_isSome.2 hkey)
  obtain ⟨hs, hf⟩ := answers_found rs hup hl
  rw [hf] at ha
  rw [hup]
  cases us with
  | nil => exact ⟨ nil_prefix, fun _ he => by rw [he] at ha; cases ha⟩
  | cons u us =>
    obtain ⟨hu, ha'⟩ := cons_eq_cons.1 ha
    cases hu
    obtain ⟨hp, hk⟩ := h itr us rest ha'
    refine ⟨prefix_cons_inj _ |>.2 hp, fun hu he k hi ht => ?_⟩
    rcases mem_cons.1 hi with rfl | hi
    · exact mem_cons_self
    · exact mem_cons_of_mem _ (hk (hu _ hs).2 he k hi (ht _ hs).2)

theorem walks (hd : .disconnect uuid ∉ rs) (hc : c.iterators uuid = some itr) :
    Walks uuid rs c itr := by
  induction rs generalizing c itr with
  | nil =>
    intro us rest ha
    obtain ⟨hus, rfl⟩ := append_eq_nil_iff.1 ha.symm
    rw [map_eq_nil_iff.1 hus]
    exact ⟨ nil_prefix, fun _ h => nomatch h⟩
  | cons r rs ih =>
    obtain ⟨hr, hrs⟩ := not_or.1 (mem_cons.not.1 hd)
    by_cases hg : r = .getnext uuid
    · subst hg
      have hup : c.upcoming uuid = itr := by rw [Ctx.upcoming, hc, Option.getD_some]
      rw [← hup]
      exact .getnext fun itr => ih hrs (Function.update_self ..)
    intro us rest ha
    rw [answers, if_neg hg, nil_append] at ha
    obtain ⟨hp, hk⟩ := ih hrs ((handle_iterators hg (Ne.symm hr) c).trans hc) us rest ha
    exact ⟨hp, fun hu he k hi ht => hk (hu _ rfl).2 he k hi (ht _ rfl).2⟩

/-- **Iteration:** a client that begins to walk the database is given users in increasing
order. If no `getnext` runs into a deleted user with others behind it, every user that was in
the database from the first `getnext` to the first ENOENT has been returned. -/
theorem walk_complete (uuid : U) (rs : List (Request U)) (us : List User) (c : Ctx U)
    (hc : c.iterators uuid = none) (hd : .disconnect uuid ∉ rs)
    (ha : answers uuid (.getnext uuid :: rs) c = us.map .ok ++ rest) :
    (us.map User.userid).Pairwise (· < ·) ∧
      ((machine U).AllSteps (fun c r _ => c.Unbroken r) (.getnext uuid :: rs) c →
        rest = [.error .ENOENT] →
        ∀ k, Throughout k (.getnext uuid :: rs) c → k ∈ us.map User.userid) := by
  have hup : c.upcoming uuid = c.db.keys.insertionSort (· ≤ ·) := by
    rw [Ctx.upcoming, hc, Option.getD_none]
  have hw : Walks uuid (.getnext uuid :: rs) c (c.upcoming uuid) :=
    .getnext fun itr => walks hd (Function.update_self ..)
  rw [hup] at hw
  obtain ⟨hp, hk⟩ := hw us rest ha
  refine ⟨(sorted_keys c).sublist hp.sublist, fun hu he k ht => hk hu he k ?_ ht⟩
  exact (mem_insertionSort _).2 (ht _ rfl).1

/-- Users 1, 2 and 3, as they are added by the instance owner 1. -/
def three : Ctx Unit :=
  (((load Unit roleNone 1).addrole 3 2).1.addrole 2 2).1

/-- User 2 is deleted after it was returned. -/
theorem walk_complete_three :
    Throughout 3 [.getnext (), .getnext (), .delrole 2 2, .getnext (), .getnext ()] three ∧
      3 ∈ ([⟨1, 1⟩, ⟨2, 2⟩, ⟨3, 2⟩] : List User).map User.userid :=
  ⟨by decide, (walk_complete () [.getnext (), .delrole 2 2, .getnext (), .getnext ()] _ three rfl
    (by decide) (by decide)).2 (by decide) rfl 3 (by decide)⟩

/-- User 2 is deleted before it was returned: the client is told that this was the end, with
user 3 there throughout. -/
theorem deleted_user_hides_rest :
    answers () [.getnext (), .delrole 2 2, .getnext ()] three = [.ok ⟨1, 1⟩, .error .ENOENT] ∧
      Throughout 3 [.getnext (), .delrole 2 2, .getnext ()] three :=
  ⟨by decide, by decide⟩

end FluxCore.Userdb
