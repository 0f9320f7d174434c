import Lattix.Server.Calls

namespace Lattix.Server
open Lib.Transactions

/-- The calls that can raise after they have changed something: `delete_user`
rolls back what others left pending, and `create_group` may have inserted its
group before a member fails. -/
def Call.actsFirst (t : Tables) : Call → Bool
  | .deleteUser _ => true
  | .createGroup _ owner _ _ _ => t.hasUser owner
  | _ => false

theorem insertMember_grow {row : MemberRow} {t t' : Tables} {a : Unit}
    (h : t.insertMember row = .ok (t', a)) :
    t'.groups = t.groups ∧ t'.users = t.users ∧ t'.hasMember row.groupId row.username = true ∧
      ∀ g v, t.hasMember g v = true → t'.hasMember g v = true := by
  unfold Tables.insertMember at h
  split at h
  · rename_i hm
    cases h
    exact ⟨rfl, rfl, hm, fun _ _ h => h⟩
  · split at h
    · cases h
      refine ⟨rfl, rfl, by simp [Tables.hasMember], fun g v hv => ?_⟩
      obtain ⟨m, hm, he⟩ := Tables.hasMember_iff.mp hv
      exact Tables.hasMember_iff.mpr ⟨m, List.mem_append_left _ hm, he⟩
    · cases h

theorem insertMembers_groups {gid now : Nat} {roster : List String} {c c' : Conn Tables}
    {r : Except SqlError Unit} (ht : c.inTransaction = true)
    (h : (roster.forM fun u => write (Tables.insertMember ⟨gid, u, now⟩)) c = (r, c')) :
    c'.inTransaction = true ∧ c'.working.groups = c.working.groups := by
  induction roster generalizing c with
  | nil =>
    cases h
    exact ⟨ht, rfl⟩
  | cons u us ih =>
    cases hm : Tables.insertMember ⟨gid, u, now⟩ c.working with
    | error e =>
      cases (bind_error (write_error hm) _).symm.trans h
      exact ⟨rfl, rfl⟩
    | ok p =>
      obtain ⟨t, a⟩ := p
      have hk := ih (c := ⟨c.committed, t, true⟩) rfl ((bind_ok (write_ok hm) _).symm.trans h)
      exact ⟨hk.1, hk.2.trans (insertMember_grow hm).1⟩

/-- A group whose owner exists is inserted before anything of it can fail, and
the row stays behind in the open transaction. -/
theorem createGroup_error {name owner : String} {roster : List String} {icon : Option String}
    {now : Nat} {c c' : Conn Tables} {e : SqlError}
    (h : createGroup name owner roster icon now c = (.error e, c')) :
    (c.working.hasUser owner = false ∧ c' = { c with inTransaction := true }) ∨
    (c.working.hasUser owner = true ∧ c'.inTransaction = true ∧
      c'.working.hasGroup (c.working.groupSeq + 1) = true) := by
  cases ho : c.working.hasUser owner with
  | false =>
    left
    have hw : Tables.insertGroup ⟨0, name, icon, owner, now⟩ c.working = .error .foreignKey := by
      simp [Tables.insertGroup, ho]
    cases (bind_error (write_error hw) _).symm.trans h
    exact ⟨rfl, rfl⟩
  | true =>
    right
    have hw : Tables.insertGroup ⟨0, name, icon, owner, now⟩ c.working = .ok
        ({ c.working with
          groups := c.working.groups ++ [⟨c.working.groupSeq + 1, name, icon, owner, now⟩]
          groupSeq := c.working.groupSeq + 1 }, c.working.groupSeq + 1) := by
      simp [Tables.insertGroup, ho]
    have hrest := (Total.bind_error_iff fun _ => .bind .commit fun _ => .query _).mp
      ((bind_ok (write_ok hw) _).symm.trans h)
    obtain ⟨ht, hg⟩ := insertMembers_groups rfl hrest
    refine ⟨rfl, ht, Tables.hasGroup_iff.mpr
      ⟨⟨c.working.groupSeq + 1, name, icon, owner, now⟩, ?_, rfl⟩⟩
    rw [hg]
    exact List.mem_append_right _ (List.mem_singleton.mpr rfl)

/-- What a failing call leaves behind. -/
theorem failure_forms {k : Call} {c c' : Conn Tables} {e : SqlError}
    (hs : Sound Tables.Valid c) (h : exec k c = (.error e, c')) :
    (k.actsFirst c.working = false ∧ c' = { c with inTransaction := true }) ∨
    (k.actsFirst c.working = true ∧ c.inTransaction = true ∧ c' = Conn.fresh c.committed) ∨
    (k.actsFirst c.working = true ∧ c'.inTransaction = true ∧
      c'.working.hasGroup (c.working.groupSeq + 1) = true) := by
  cases k with
  | deleteUser u =>
    have hd := (Total.bind_error_iff fun _ => .pure _).mp h
    cases ht : c.inTransaction with
    | false =>
      obtain ⟨touched, hr⟩ := deleteUser_run u hs.working ht
      cases hr.symm.trans hd
    | true =>
      cases (deleteUser_open ht).symm.trans hd
      exact .inr (.inl ⟨rfl, rfl, rfl⟩)
  | createGroup name owner roster icon now =>
    rcases createGroup_error ((Total.bind_error_iff fun _ => .pure _).mp h) with h | h
    · exact .inl h
    · exact .inr (.inr h)
  | createUser | addGroupMember | setGroupOwner | storeFile =>
    have hw := (Total.bind_error_iff fun _ => .pure _).mp h
    exact .inl ⟨rfl, (write_then_error (fun _ => .commit) hw).2⟩
  | storeEnvelope | storeGroupEnvelope =>
    have hw := (Total.bind_error_iff fun _ => .pure _).mp h
    exact .inl ⟨rfl, (write_then_error (fun _ => .bind .commit fun _ => .pure _) hw).2⟩
  | setAvatar | deleteGroup | removeGroupMember =>
    exact absurd h (Total.bind (.bind (.write fun _ => ⟨_, rfl⟩) fun _ => .commit)
      fun _ => .pure _).not_error
  | deleteOrphanFiles =>
    exact absurd h (Total.bind (.bind (.write fun _ => ⟨_, rfl⟩) fun _ => .bind .commit
      fun _ => .pure _) fun _ => .pure _).not_error
  | deleteExpired now => exact absurd h (Total.bind (deleteExpired_total now) fun _ => .pure _).not_error
  | userExists =>
    exact absurd h (Total.bind (.bind (.query _) fun _ => .pure _) fun _ => .pure _).not_error
  | _ => exact absurd h (Total.bind (.query _) fun _ => .pure _).not_error

/-- An open transaction shows in the next account deletion, which raises. -/
theorem deletion_raises_iff {u : String} {c : Conn Tables} (hs : Sound Tables.Valid c) :
    (exec (.deleteUser u) c).1 = .error .nestedBegin ↔ c.inTransaction = true := by
  cases ht : c.inTransaction with
  | false =>
    obtain ⟨touched, hd⟩ := deleteUser_run u hs.working ht
    have he : exec (.deleteUser u) c = (.ok (.groupIds touched), _) := bind_ok hd _
    simp [he]
  | true =>
    have he : exec (.deleteUser u) c = (.error .nestedBegin, _) := bind_error (deleteUser_open ht) _
    simp [he]

/-- Connections that differ in having an open transaction are told apart. -/
theorem SameFuture.inTransaction {c d : Conn Tables} (hc : Sound Tables.Valid c)
    (hd : Sound Tables.Valid d) (h : SameFuture c d) : c.inTransaction = d.inTransaction := by
  have hr : (exec (.deleteUser "") c).1 = (exec (.deleteUser "") d).1 :=
    List.head_eq_of_cons_eq (h [.deleteUser ""]).1
  rw [Bool.eq_iff_iff, ← deletion_raises_iff hc, ← deletion_raises_iff hd, hr]

theorem getGroup_isSome (g : Nat) (c : Conn Tables) :
    ∃ r, exec (.getGroup g) c = (.ok (.group r), c) ∧ r.isSome = c.working.hasGroup g := by
  refine ⟨_, rfl, ?_⟩
  rw [Option.isSome_map, Bool.eq_iff_iff, List.find?_isSome]
  simp [Tables.hasGroup]

/-- So are connections that see different groups. -/
theorem SameFuture.hasGroup {c d : Conn Tables} (h : SameFuture c d) (g : Nat) :
    c.working.hasGroup g = d.working.hasGroup g := by
  have hr : (exec (.getGroup g) c).1 = (exec (.getGroup g) d).1 :=
    List.head_eq_of_cons_eq (h [.getGroup g]).1
  obtain ⟨r, hc, hrc⟩ := getGroup_isSome g c
  obtain ⟨q, hd, hqd⟩ := getGroup_isSome g d
  rw [hc, hd] at hr
  cases hr
  rw [← hrc, hqd]

/-- No group has the next id yet. -/
theorem Tables.Valid.next_group {t : Tables} (h : t.Valid) : t.hasGroup (t.groupSeq + 1) = false := by
  rw [← Bool.not_eq_true, hasGroup_iff]
  rintro ⟨g, hg, he⟩
  have := h.groupSeq g hg
  omega

/-- A failing call is harmless exactly when an earlier failure has already left
a transaction open and no statement of this call took effect. -/
theorem failed_call_harmless_iff {k : Call} {c c' : Conn Tables} {e : SqlError}
    (hs : Sound Tables.Valid c) (h : exec k c = (.error e, c')) :
    SameFuture c c' ↔ c.inTransaction = true ∧ k.actsFirst c.working = false := by
  have hs' : Sound Tables.Valid c' := by
    have := exec_keeps k c hs
    rwa [h] at this
  constructor
  · intro hf
    have ht := hf.inTransaction hs hs'
    rcases failure_forms hs h with ⟨ha, rfl⟩ | ⟨ha, ho, rfl⟩ | ⟨ha, ho, hg⟩
    · exact ⟨ht, ha⟩
    · rw [ho] at ht
      cases ht
    · rw [← hf.hasGroup, hs.working.next_group] at hg
      cases hg
  · rintro ⟨ho, ha⟩
    rcases failure_forms hs h with ⟨-, rfl⟩ | ⟨hb, -, -⟩ | ⟨hb, -, -⟩
    · have : ({ c with inTransaction := true } : Conn Tables) = c := by rw [← ho]
      rw [this]
      exact fun ks => ⟨rfl, rfl⟩
    · rw [ha] at hb
      cases hb
    · rw [ha] at hb
      cases hb

def newUser (username : String) : Call := .createUser username "" "" "" "" "" none 0

/-- The first caller's duplicate name is rejected, a second failure finds the
transaction open already, and only that one leaves no trace. -/
theorem second_failure_harmless :
    let c := (runCalls [newUser "ann", newUser "ann"] (Conn.fresh Tables.empty)).2
    SameFuture c (exec (newUser "ann") c).2 ↔
      c.inTransaction = true ∧ (newUser "ann").actsFirst c.working = false :=
  failed_call_harmless_iff (e := .primaryKey) (reached_sound _) (by decide)

/-- A duplicate registration leaves its transaction open, and the next account
deletion raises although nothing is wrong with that account. -/
theorem failed_call_not_harmless :
    ¬ ∀ (ks : List Call) (k : Call) (e : SqlError) (c' : Conn Tables),
      exec k (runCalls ks (Conn.fresh Tables.empty)).2 = (.error e, c') →
        SameFuture (runCalls ks (Conn.fresh Tables.empty)).2 c' := by
  intro h
  have hs := h [newUser "ann", newUser "bob"] (newUser "ann") .primaryKey
    (exec (newUser "ann") (runCalls [newUser "ann", newUser "bob"] (Conn.fresh .empty)).2).2
    (by decide)
  exact absurd (hs [.deleteUser "bob"]).1 (by decide)

end Lattix.Server
