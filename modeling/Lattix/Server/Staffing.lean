import Lattix.Server.Failures
import Lattix.Server.GroupRequests

namespace Lattix.Server
open Lib.Transactions

/-- The group that a departing owner has left but not yet handed over. -/
def Point.limbo : Point → Option Nat
  | .removeSuccessor groupId _ | .removeHandover groupId _ _ | .removeDrop groupId _ => some groupId
  | _ => none

/-- The three places where a deletion since an earlier call can mislead a
request, and what must still be true there. Removing a member acts on the owner
it read, unless the owner has become the one who goes. Handing over names a
member, or fails and leaves an owner who is one. Creating a group fails, if at
all, only after its owner is on the roster or before the group exists. -/
def Point.careful (roster : List String) (t : Tables) : Point → Bool
  | .removeRow groupId username group => t.groups.all fun g =>
    !(g.id == groupId && g.owner == username) || username == group.owner
  | .removeHandover groupId successor _ => t.groups.all fun g =>
    !(g.id == groupId) || t.hasMember groupId successor ||
      !t.hasUser successor && t.hasMember groupId g.owner
  | .createInsert me _ _ _ =>
    !t.hasUser me || (roster.takeWhile fun u => u != me).all fun u => t.hasUser u
  | _ => true

/-- What holds of the database between any two calls, when the group `limbo`
waits for a new owner. -/
structure Tidy (limbo : Option Nat) (c : Conn Tables) : Prop where
  valid : Sound Tables.Valid c
  staffed : Sound (Staffed limbo) c
  clean : limbo.isSome = true → c.Clean

theorem Tidy.fresh {limbo : Option Nat} {t : Tables} (h : t.Valid) (hs : Staffed limbo t) :
    Tidy limbo (Conn.fresh t) :=
  ⟨.fresh h, .fresh hs, fun _ => rfl⟩

/-- Every call the running request does not make itself leaves owners where they
are: an account deletion because it passes groups on, the others because they
touch neither groups nor rosters. -/
theorem Tidy.exec {limbo : Option Nat} {c : Conn Tables} (h : Tidy limbo c) {k : Call}
    (hk : k.onGroups = false) : Tidy limbo (exec k c).2 := by
  refine ⟨exec_keeps k c h.valid, ?_, fun hl => exec_clean hk h.valid (h.clean hl)⟩
  by_cases hd : ∃ u, k = .deleteUser u
  · obtain ⟨u, rfl⟩ := hd
    rw [Server.exec, answer_state]
    cases ht : c.inTransaction with
    | false =>
      obtain ⟨touched, hr⟩ := deleteUser_run u h.valid.working ht
      rw [hr]
      exact .fresh (withoutUser_staffed h.valid.working h.staffed.working)
    | true =>
      rw [deleteUser_open ht]
      exact .fresh h.staffed.committed
  · refine exec_keeps_of (fun t t' hs hst => ?_) c h.staffed
    obtain ⟨hg, hm⟩ := hst.same_rosters hk fun u he => hd ⟨u, he⟩
    exact hs.same hg hm

/-- The group in limbo after a call, from what the call came to. -/
def limboAfter : Except SqlError (Point ⊕ Reply) → Option Nat
  | .ok (.inl p) => p.limbo
  | _ => none

/-- The points that only look. -/
def Point.reads : Point → Bool
  | .createInsert .. | .addInsert .. | .removeRow .. | .removeHandover .. | .removeDrop .. => false
  | _ => true

theorem nextCheck_limbo (me name : String) (icon : Option String) (members todo : List String) :
    (nextCheck me name icon members todo).limbo = none := by
  cases todo <;> rfl

/-- The points that only look leave no group in limbo that was not there. -/
theorem next_reads (lower : String → String) (roster : List String) (now : Nat) {p : Point}
    (hp : p.reads = true) :
    Reads (fun r => limboAfter (.ok r) = p.limbo) (p.next lower roster now) := by
  have hq {α : Type} (f : Tables → α) : Reads (fun _ => True) (query f : Db α) :=
    .query fun _ => trivial
  have hu (u : String) : Reads (fun _ => True) (userExists u) :=
    .bind (hq _) fun _ _ => .pure trivial
  cases p with
  | createInsert | addInsert | removeRow | removeHandover | removeDrop => cases hp
  | createCheck me name icon members m todo =>
    refine .bind (hu _) fun known _ => ?_
    split
    · exact .pure (nextCheck_limbo ..)
    · exact .pure (nextCheck_limbo ..)
  | addGroup =>
    refine .bind (hq _) fun found _ => ?_
    cases found <;> exact .pure rfl
  | addMembership =>
    refine .bind (hq _) fun found _ => ?_
    split
    · split <;> exact .pure rfl
    · exact .pure rfl
  | addUser =>
    refine .bind (hu _) fun known _ => ?_
    split <;> exact .pure rfl
  | addReload =>
    refine .bind (hq _) fun found _ => ?_
    cases found <;> exact .pure rfl
  | removeGroup =>
    refine .bind (hq _) fun found _ => ?_
    cases found <;> exact .pure rfl
  | removeMembership =>
    refine .bind (hq _) fun found _ => ?_
    split
    · split <;> exact .pure rfl
    · exact .pure rfl
  | removeSuccessor =>
    refine .bind (hq _) fun found _ => ?_
    cases found with
    | none => exact .pure rfl
    | some successor =>
      dsimp only
      split <;> exact .pure rfl
/-- An owner on the roster stays there while members are only added. -/
theorem Staffed.grow {limbo : Option Nat} {t t' : Tables} (h : Staffed limbo t)
    (hg : t'.groups = t.groups)
    (hm : ∀ g v, t.hasMember g v = true → t'.hasMember g v = true) : Staffed limbo t' := by
  intro g hg' hl
  rw [hg] at hg'
  exact hm _ _ (h g hg' hl)

/-- The loop over a new roster, wherever it stops: nothing but members is
added, and the owner is among them if every name before the owner's exists. -/
theorem insertMembers_owner {gid now : Nat} (me : String) {roster : List String}
    {c c' : Conn Tables} {r : Except SqlError Unit} (hg : c.working.hasGroup gid = true)
    (h : (roster.forM fun u => write (Tables.insertMember ⟨gid, u, now⟩)) c = (r, c')) :
    c'.committed = c.committed ∧ c'.working.groups = c.working.groups ∧
      (∀ g v, c.working.hasMember g v = true → c'.working.hasMember g v = true) ∧
      (me ∈ roster → c.working.hasUser me = true →
        (∀ u ∈ roster.takeWhile fun u => u != me, c.working.hasUser u = true) →
        c'.working.hasMember gid me = true) := by
  induction roster generalizing c with
  | nil =>
    cases h
    exact ⟨rfl, rfl, fun _ _ hm => hm, fun hm => absurd hm List.not_mem_nil⟩
  | cons u us ih =>
    cases hm : Tables.insertMember ⟨gid, u, now⟩ c.working with
    | error e =>
      cases (bind_error (write_error hm) _).symm.trans h
      refine ⟨rfl, rfl, fun _ _ hm => hm, fun hin hme hall => ?_⟩
      have hu : c.working.hasUser u = true := by
        by_cases hd : u = me
        · exact hd ▸ hme
        · exact hall u (by simp [hd])
      unfold Tables.insertMember at hm
      simp only [hg, hu, Bool.and_self, ↓reduceIte] at hm
      split at hm <;> cases hm
    | ok p =>
      obtain ⟨t, a⟩ := p
      obtain ⟨hgr, hus, hnew, hkeep⟩ := insertMember_grow hm
      have hgt : t.hasGroup gid = true := by
        unfold Tables.hasGroup
        rw [hgr]
        exact hg
      obtain ⟨hc, hgs, hk, ho⟩ := ih (c := ⟨c.committed, t, true⟩) hgt
        ((bind_ok (write_ok hm) _).symm.trans h)
      refine ⟨hc, hgs.trans hgr, fun g v hv => hk g v (hkeep g v hv), fun hin hme hall => ?_⟩
      by_cases hd : u = me
      · exact hk gid me (hd ▸ hnew)
      · have hut : ∀ v, t.hasUser v = c.working.hasUser v := fun v => by
          unfold Tables.hasUser
          rw [hus]
        refine ho ((List.mem_cons.mp hin).resolve_left fun he => hd he.symm)
          ((hut me).trans hme) fun v hv => (hut v).trans (hall v ?_)
        simp [hd, hv]

theorem createGroup_staffed (name : String) {me : String} {roster : List String}
    (icon : Option String) (now : Nat) {c : Conn Tables} (hs : Sound (Staffed none) c) (hr : me ∈ roster)
    (hc : c.working.hasUser me = true →
      ∀ u ∈ roster.takeWhile fun u => u != me, c.working.hasUser u = true) :
    Sound (Staffed none) (createGroup name me roster icon now c).2 := by
  cases ho : c.working.hasUser me with
  | false =>
    have hw : Tables.insertGroup ⟨0, name, icon, me, now⟩ c.working = .error .foreignKey := by
      simp [Tables.insertGroup, ho]
    unfold createGroup
    rw [bind_error (write_error hw)]
    exact .opened hs.committed hs.working
  | true =>
    let t : Tables := { c.working with
      groups := c.working.groups ++ [⟨c.working.groupSeq + 1, name, icon, me, now⟩]
      groupSeq := c.working.groupSeq + 1 }
    have hw : Tables.insertGroup ⟨0, name, icon, me, now⟩ c.working =
        .ok (t, c.working.groupSeq + 1) := by
      simp [Tables.insertGroup, ho, t]
    have hg : t.hasGroup (c.working.groupSeq + 1) = true := by
      simp [Tables.hasGroup, t]
    unfold createGroup
    rw [bind_ok (write_ok hw)]
    cases hl : (roster.forM fun u => write (Tables.insertMember ⟨c.working.groupSeq + 1, u, now⟩))
      ⟨c.committed, t, true⟩ with
    | mk r c' =>
      obtain ⟨hcom, hgs, hk, hown⟩ := insertMembers_owner me hg hl
      have hwork : Staffed none c'.working := by
        intro g hgm _
        rw [hgs] at hgm
        rcases List.mem_append.mp hgm with hold | hnew
        · exact hk _ _ (hs.working g hold (Option.some_ne_none _))
        · cases List.mem_singleton.mp hnew
          exact hown hr ho (hc ho)
      cases r with
      | ok =>
        rw [bind_ok hl]
        exact .fresh hwork
      | error e =>
        rw [bind_error hl]
        have ht := (insertMembers_groups rfl hl).1
        exact ⟨hcom ▸ hs.committed, hwork, fun hf => by rw [ht] at hf; cases hf⟩

theorem next_valid (lower : String → String) (roster : List String) (now : Nat) (p : Point) :
    Keeps Tables.Valid (p.next lower roster now) := by
  cases hr : p.reads with
  | true => exact (next_reads lower roster now hr).keeps
  | false =>
    cases p with
    | createInsert me name icon members =>
      refine .bind (.bind (.write fun _ _ _ => Tables.insertGroup_valid) fun gid =>
        .bind (.forM fun u _ => .write fun _ _ _ => Tables.insertMember_valid) fun _ =>
          .bind .commit fun _ => .query _) fun g => ?_
      cases g <;> exact .pure _
    | addInsert =>
      exact .bind (.bind (.write fun _ _ _ => Tables.insertMember_valid) fun _ => .commit)
        fun _ => .pure _
    | removeRow =>
      refine .bind (.bind (.write fun _ _ _ => Tables.deleteMember_valid) fun _ => .commit)
        fun _ => ?_
      split <;> exact .pure _
    | removeHandover =>
      exact .bind (.bind (.write fun _ _ _ => Tables.updateOwner_valid) fun _ => .commit)
        fun _ => .pure _
    | removeDrop =>
      exact .bind (.bind (.write fun _ _ _ => Tables.deleteGroup_valid) fun _ => .commit)
        fun _ => .pure _
    | _ => cases hr

/-- A call that ends the request, or fails, leaves no group in limbo. -/
theorem limboAfter_bind {α : Type} {x : Db α} {f : α → Db (Point ⊕ Reply)} {c : Conn Tables}
    (hf : ∀ a d, limboAfter (f a d).1 = none) : limboAfter ((x >>= f) c).1 = none := by
  rw [bind_run]
  split
  · exact hf _ _
  · rfl

/-- The tables after `username` is taken off a roster. -/
def Tables.withoutMember (gid : Nat) (username : String) (t : Tables) : Tables :=
  { t with groupMembers := t.groupMembers.filter fun m =>
    !(m.groupId == gid && m.username == username) }

theorem removeGroupMember_run (gid : Nat) (username : String) (c : Conn Tables) :
    removeGroupMember gid username c =
      (.ok (), Conn.fresh (c.working.withoutMember gid username)) := rfl

theorem deleteGroup_run (gid : Nat) (c : Conn Tables) :
    deleteGroup gid c = (.ok (), Conn.fresh (c.working.dropGroups fun r => r.id == gid)) := rfl

/-- Taking a member off a roster strands at most the group that member owns. -/
theorem withoutMember_staffed {gid : Nat} {username : String} {limbo : Option Nat} {t : Tables}
    (hs : Staffed none t)
    (hl : ∀ g ∈ t.groups, g.id = gid → g.owner = username → limbo = some gid) :
    Staffed limbo (t.withoutMember gid username) := by
  intro g hg hne
  obtain ⟨m, hm, hid, hu⟩ := Tables.hasMember_iff.mp (hs g hg (Option.some_ne_none _))
  refine Tables.hasMember_iff.mpr ⟨m, List.mem_filter.mpr ⟨hm, ?_⟩, hid, hu⟩
  rw [hid, hu]
  by_contra hc
  simp only [Bool.not_eq_true, Bool.not_eq_false', Bool.and_eq_true, beq_iff_eq] at hc
  exact hne (hc.1 ▸ (hl g hg hc.1 hc.2).symm)

/-- Handing a group over leaves it with an owner on its roster, whether the
statement runs or fails. -/
theorem setGroupOwner_staffed {gid : Nat} (successor : String) {c : Conn Tables}
    (hclean : c.Clean) (hs : Staffed (some gid) c.working)
    (hc : ∀ g ∈ c.working.groups, g.id = gid → c.working.hasMember gid successor = true ∨
      c.working.hasUser successor = false ∧ c.working.hasMember gid g.owner = true)
    (hv : c.working.Valid) : Sound (Staffed none) (setGroupOwner gid successor c).2 := by
  cases ho : Tables.updateOwner gid successor c.working with
  | error e =>
    have hrun : setGroupOwner gid successor c = (.error e, { c with inTransaction := true }) :=
      bind_error (write_error ho) _
    have hst : Staffed none c.working := by
      intro g hg _
      by_cases hid : g.id = gid
      · rcases hc g hg hid with hm | ⟨-, hm⟩
        · simp [Tables.updateOwner, hv.hasUser_of_member hm] at ho
        · exact hid ▸ hm
      · exact hs g hg (by simpa using hid)
    rw [hrun]
    exact .opened (hclean ▸ hst) hst
  | ok p =>
    obtain ⟨t, a⟩ := p
    have hrun : setGroupOwner gid successor c = (.ok (), Conn.fresh t) := bind_ok (write_ok ho) _
    rw [hrun]
    refine .fresh fun g' hg' _ => ?_
    unfold Tables.updateOwner at ho
    split at ho
    · cases ho
    · rename_i hu
      cases ho
      rcases mem_withOwner (t := c.working) hg' with ⟨hid, hown⟩ | ⟨hid, hg⟩
      · have hex : (c.working.withOwner gid successor).hasGroup g'.id = true := hasGroup_of_mem hg'
        rw [hasGroup_withOwner, hid] at hex
        obtain ⟨g, hg, hgid⟩ := Tables.hasGroup_iff.mp hex
        rw [hid, hown]
        rcases hc g hg hgid with hm | ⟨hn, -⟩
        · exact hm
        · simp [hex, hn] at hu
      · exact hs g' hg (by simpa using hid)

/-- What one call of a request does to the database, when no deletion has
misled it. -/
theorem Tidy.next {lower : String → String} {roster : List String} {now : Nat} {p : Point}
    {c : Conn Tables} (h : Tidy p.limbo c) (hw : p.walks roster = true)
    (hc : p.careful roster c.working = true) :
    Tidy (limboAfter (p.next lower roster now c).1) (p.next lower roster now c).2 := by
  have hv := next_valid lower roster now p c h.valid
  cases hr : p.reads with
  | true =>
    obtain ⟨r, he, hl⟩ := next_reads lower roster now hr c
    rw [he, hl]
    exact h
  | false =>
    cases p with
    | createInsert me name icon members =>
      have hl : limboAfter ((Point.createInsert me name icon members).next lower roster now c).1 =
          none := by
        refine limboAfter_bind fun g d => ?_
        cases g <;> rfl
      have hin : me ∈ roster := by
        rw [(List.isPerm_iff.mp hw).mem_iff]
        simp
      have hall : c.working.hasUser me = true →
          ∀ u ∈ roster.takeWhile fun u => u != me, c.working.hasUser u = true := by
        intro hme
        simpa [Point.careful, hme] using hc
      have hst := createGroup_staffed name icon now h.staffed hin hall
      rw [hl]
      refine ⟨hv, ?_, nofun⟩
      rw [Point.next, bind_pure_state]
      · exact hst
      · intro g d
        cases g <;> rfl
    | addInsert groupId username =>
      have hl : limboAfter ((Point.addInsert groupId username).next lower roster now c).1 = none :=
        limboAfter_bind fun _ _ => rfl
      rw [hl]
      refine ⟨hv, ?_, nofun⟩
      refine Keeps.bind (.bind (.write fun t t' a hs he => ?_) fun _ => .commit) (fun _ => .pure _)
        c h.staffed
      obtain ⟨hg, -, -, hk⟩ := insertMember_grow he
      exact hs.grow hg hk
    | removeRow groupId username group =>
      have hval : (c.working.withoutMember groupId username).Valid :=
        Tables.deleteMember_valid h.valid.working (a := ()) rfl
      rw [Point.next, bind_ok (removeGroupMember_run groupId username c)]
      split
      · rename_i ho
        exact .fresh hval (withoutMember_staffed h.staffed.working fun _ _ _ _ => rfl)
      · rename_i ho
        refine .fresh hval (withoutMember_staffed h.staffed.working fun g hg hid hown => ?_)
        simp only [Point.careful, List.all_eq_true] at hc
        have := hc g hg
        simp [hid, hown, ho] at this
    | removeHandover groupId successor prior =>
      have hst := setGroupOwner_staffed successor (h.clean rfl) h.staffed.working
        (fun g hg hid => ?_) h.valid.working
      · have hl : limboAfter ((Point.removeHandover groupId successor prior).next lower roster now c).1 =
          none := limboAfter_bind fun _ _ => rfl
        rw [hl]
        refine ⟨hv, ?_, nofun⟩
        rw [Point.next, bind_pure_state]
        · exact hst
        · intro _ _
          rfl
      · simp only [Point.careful, List.all_eq_true] at hc
        simpa [hid] using hc g hg
    | removeDrop groupId =>
      rw [Point.next, bind_ok (deleteGroup_run groupId c)]
      refine .fresh (Tables.dropGroups_valid h.valid.working _) fun g hg _ => ?_
      obtain ⟨hg', hid⟩ := List.mem_filter.mp hg
      exact hasMember_dropGroups h.valid.working (hasGroup_of_mem hg)
        (h.staffed.working g hg' (by simpa [Point.limbo] using hid))
    | _ => cases hr

end Lattix.Server
