import Lattix.Server.Database

namespace Lattix.Server
open Lib.Transactions

namespace Tables

/-- The tables after the owner of group `g` is set to `u`. -/
def withOwner (g : Nat) (u : String) (t : Tables) : Tables :=
  { t with groups := t.groups.map fun r => if r.id == g then { r with owner := u } else r }

/-- The tables after the loop over the groups `username` owns. -/
def passOn (username : String) : List Nat → Tables → Tables
  | [], t => t
  | gid :: rest, t =>
    match successor gid username t with
    | some heir => passOn username rest (t.withOwner gid heir)
    | none => passOn username rest (t.dropGroups fun r => r.id == gid)

end Tables

theorem oldest_mem {ms : List MemberRow} {m : MemberRow} (h : oldest ms = some m) : m ∈ ms := by
  induction ms generalizing m with
  | nil => simp [oldest] at h
  | cons a ms ih =>
    simp only [oldest] at h
    split at h
    · cases h
      exact List.mem_cons_self
    · rename_i o ho
      split at h
      · cases h
        exact List.mem_cons_of_mem _ (ih ho)
      · cases h
        exact List.mem_cons_self

/-- An heir is a member of the group other than the one who goes. -/
theorem successor_member {gid : Nat} {username heir : String} {t : Tables}
    (h : successor gid username t = some heir) :
    t.hasMember gid heir = true ∧ heir ≠ username := by
  obtain ⟨m, hm, rfl⟩ := Option.map_eq_some_iff.mp h
  obtain ⟨hmem, hp⟩ := List.mem_filter.mp (oldest_mem hm)
  simp only [Bool.and_eq_true, beq_iff_eq, bne_iff_ne] at hp
  exact ⟨Tables.hasMember_iff.mpr ⟨m, hmem, hp.1, rfl⟩, hp.2⟩

theorem Tables.Valid.hasUser_of_member {t : Tables} (h : t.Valid) {g : Nat} {u : String}
    (hm : t.hasMember g u = true) : t.hasUser u = true := by
  obtain ⟨m, hmem, rfl, rfl⟩ := Tables.hasMember_iff.mp hm
  exact h.memberUser m hmem

theorem Tables.Valid.updateOwner_ok {t : Tables} (h : t.Valid) {g : Nat} {u : String}
    (hm : t.hasMember g u = true) :
    t.updateOwner g u = .ok (t.withOwner g u, ()) := by
  simp [Tables.updateOwner, Tables.withOwner, h.hasUser_of_member hm]

theorem passOn_valid (username : String) (gids : List Nat) {t : Tables} (h : t.Valid) :
    (Tables.passOn username gids t).Valid := by
  induction gids generalizing t with
  | nil => exact h
  | cons gid rest ih =>
    simp only [Tables.passOn]
    split
    · rename_i heir hs
      exact ih (Tables.updateOwner_valid h (h.updateOwner_ok (successor_member hs).1))
    · exact ih (Tables.dropGroups_valid h _)

/-- The loop never raises: every heir it names has an account. -/
theorem passOn_run (username : String) (gids touched : List Nat) {c : Conn Tables}
    (h : c.working.Valid) (ht : c.inTransaction = true) :
    ∃ left, passOn username gids touched c =
      (.ok left, { c with working := Tables.passOn username gids c.working }) := by
  induction gids generalizing touched c with
  | nil => exact ⟨touched, rfl⟩
  | cons gid rest ih =>
    obtain ⟨committed, working, open_⟩ := c
    subst ht
    simp only [passOn, query_bind, Tables.passOn]
    cases hs : successor gid username working with
    | some heir =>
      have hu := h.updateOwner_ok (successor_member hs).1
      obtain ⟨left, hl⟩ := ih touched (c := ⟨committed, _, true⟩)
        (Tables.updateOwner_valid h hu) rfl
      exact ⟨left, (bind_ok (write_ok hu) _).trans hl⟩
    | none =>
      obtain ⟨left, hl⟩ := ih (touched.erase gid) (c := ⟨committed, _, true⟩)
        (Tables.dropGroups_valid h fun r => r.id == gid) rfl
      exact ⟨left, (bind_ok (write_ok (f := Tables.deleteGroup gid) rfl) _).trans hl⟩

/-- The tables `delete_user` commits. -/
def Tables.withoutUser (username : String) (t : Tables) : Tables :=
  let t' := (t.passOn username (owned username t)).dropGroups fun r => r.owner == username
  { t' with
    users := t'.users.filter fun r => r.username != username
    envelopes := t'.envelopes.filter fun e => e.sender != username && e.recipient != username
    files := t'.files.filter fun f => f.owner != username
    groupMembers := t'.groupMembers.filter fun m => m.username != username
    groupEnvelopes := t'.groupEnvelopes.filter fun e => e.sender != username }

theorem deleteUser_statement (username : String) (t : Tables) :
    Tables.deleteUser username (t.passOn username (owned username t)) =
      .ok (t.withoutUser username, ()) := rfl

theorem Tables.Valid.withoutUser {t : Tables} (h : t.Valid) (username : String) :
    (t.withoutUser username).Valid :=
  Tables.deleteUser_valid (passOn_valid username _ h) (deleteUser_statement username t)

/-- With no transaction open, an account can always be deleted. -/
theorem deleteUser_run (username : String) {c : Conn Tables} (h : c.working.Valid)
    (ht : c.inTransaction = false) :
    ∃ touched, deleteUser username c =
      (.ok touched, Conn.fresh (c.working.withoutUser username)) := by
  obtain ⟨committed, working, open_⟩ := c
  subst ht
  obtain ⟨left, hp⟩ := passOn_run username (owned username working) (joined username working)
    (c := ⟨committed, working, true⟩) h rfl
  have hb : (begin SqlError.nestedBegin : Db Unit) ⟨committed, working, false⟩ =
      (.ok (), ⟨committed, working, true⟩) := rfl
  have hd := write_ok (c := ⟨committed, working.passOn username (owned username working), true⟩)
    (deleteUser_statement username working)
  have hloop := (bind_ok hp fun touched => write (Tables.deleteUser username) >>= fun _ =>
    commit >>= fun _ => pure touched).trans (bind_ok hd _)
  refine ⟨left, except_ok ?_ _⟩
  exact (bind_ok hb _).trans hloop

/-- Inside a transaction that an earlier failure left open, deleting an account
raises and throws away whatever was pending. -/
theorem deleteUser_open {username : String} {c : Conn Tables} (ht : c.inTransaction = true) :
    deleteUser username c = (.error .nestedBegin, Conn.fresh c.committed) := by
  have hb : (begin SqlError.nestedBegin : Db Unit) c = (.error .nestedBegin, c) := by
    simp [begin, ht]
  exact (except_error (bind_error hb _) _).trans rfl

end Lattix.Server
