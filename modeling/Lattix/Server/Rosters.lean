import Lattix.Server.Calls

namespace Lattix.Server
open Lib.Transactions

/-- Every group except possibly `limbo` has its owner on its roster. -/
def Staffed (limbo : Option Nat) (t : Tables) : Prop :=
  ∀ g ∈ t.groups, some g.id ≠ limbo → t.hasMember g.id g.owner = true

/-- What the loop over the groups of `username` makes of owners and rosters. -/
structure Passed (username : String) (gids : List Nat) (t t' : Tables) : Prop where
  group : ∀ g, t'.hasGroup g = true → t.hasGroup g = true
  roster : ∀ g v, t'.hasGroup g = true → t.hasMember g v = true → t'.hasMember g v = true
  owner : ∀ g' ∈ t'.groups, (∃ g ∈ t.groups, g.id = g'.id ∧ g.owner = g'.owner ∧ g.id ∉ gids) ∨
    (g'.owner ≠ username ∧ t'.hasMember g'.id g'.owner = true)

theorem hasGroup_of_mem {t : Tables} {g : GroupRow} (h : g ∈ t.groups) : t.hasGroup g.id = true :=
  Tables.hasGroup_iff.mpr ⟨g, h, rfl⟩

theorem hasGroup_withOwner {t : Tables} {g gid : Nat} {u : String} :
    (t.withOwner gid u).hasGroup g = t.hasGroup g := by
  simp only [Tables.hasGroup, Tables.withOwner, List.any_map]
  congr 1
  funext r
  simp only [Function.comp_apply]
  split <;> rfl

/-- The rows of `withOwner`: the group's own with its new owner, the others as
they were. -/
theorem mem_withOwner {t : Tables} {gid : Nat} {u : String} {g' : GroupRow}
    (h : g' ∈ (t.withOwner gid u).groups) :
    (g'.id = gid ∧ g'.owner = u) ∨ (g'.id ≠ gid ∧ g' ∈ t.groups) := by
  obtain ⟨r, hr, rfl⟩ := List.mem_map.mp h
  by_cases hd : r.id = gid
  · left
    simp [hd]
  · right
    simp [hd, hr]

theorem hasMember_dropGroups {t : Tables} (h : t.Valid) {p : GroupRow → Bool} {g : Nat}
    {u : String} (hg : (t.dropGroups p).hasGroup g = true) (hm : t.hasMember g u = true) :
    (t.dropGroups p).hasMember g u = true := by
  obtain ⟨r, hr, rfl⟩ := Tables.hasGroup_iff.mp hg
  obtain ⟨hr, hp⟩ := List.mem_filter.mp hr
  obtain ⟨m, hmem, he, rfl⟩ := Tables.hasMember_iff.mp hm
  refine Tables.hasMember_iff.mpr ⟨m, List.mem_filter.mpr ⟨hmem, ?_⟩, he, rfl⟩
  have hn := Tables.gone_iff h hr (p := p)
  simp only [he, hn]
  exact hp

theorem hasGroup_of_dropGroups {t : Tables} {p : GroupRow → Bool} {g : Nat}
    (h : (t.dropGroups p).hasGroup g = true) : t.hasGroup g = true := by
  obtain ⟨r, hr, rfl⟩ := Tables.hasGroup_iff.mp h
  exact hasGroup_of_mem (List.mem_of_mem_filter hr)

theorem passOn_passed (username : String) (gids : List Nat) {t : Tables} (h : t.Valid) :
    Passed username gids t (t.passOn username gids) := by
  induction gids generalizing t with
  | nil =>
    exact ⟨fun _ hg => hg, fun _ _ _ hm => hm,
      fun g hg => .inl ⟨g, hg, rfl, rfl, List.not_mem_nil⟩⟩
  | cons gid rest ih =>
    simp only [Tables.passOn]
    split
    · rename_i heir hs
      obtain ⟨hm, hne⟩ := successor_member hs
      have hk := ih (Tables.updateOwner_valid h (h.updateOwner_ok hm))
      refine ⟨fun g hg => hasGroup_withOwner ▸ hk.group g hg, hk.roster, fun g' hg' => ?_⟩
      rcases hk.owner g' hg' with ⟨g, hg, hid, ho, hn⟩ | hr
      · rcases mem_withOwner hg with ⟨hd, hu⟩ | ⟨hd, hg⟩
        · right
          have hgid : g'.id = gid := hid.symm.trans hd
          have hex := hasGroup_of_mem hg'
          rw [hgid] at hex
          rw [← ho, hu, hgid]
          exact ⟨hne, hk.roster gid heir hex hm⟩
        · exact .inl ⟨g, hg, hid, ho, by simp [hd, hn]⟩
      · exact .inr hr
    · have hk := ih (Tables.dropGroups_valid h fun r => r.id == gid)
      refine ⟨fun g hg => hasGroup_of_dropGroups (hk.group g hg),
        fun g v hg hm => hk.roster g v hg (hasMember_dropGroups h (hk.group g hg) hm),
        fun g' hg' => ?_⟩
      rcases hk.owner g' hg' with ⟨g, hg, hid, ho, hn⟩ | hr
      · obtain ⟨hg, hd⟩ := List.mem_filter.mp hg
        simp only [Bool.not_eq_true', beq_eq_false_iff_ne] at hd
        exact .inl ⟨g, hg, hid, ho, by simp [hd, hn]⟩
      · exact .inr hr

/-- Deleting an account takes the groups it owns from it and leaves every other
owner where it is. -/
theorem withoutUser_staffed {username : String} {limbo : Option Nat} {t : Tables} (h : t.Valid)
    (hs : Staffed limbo t) : Staffed limbo (t.withoutUser username) := by
  intro g' hg' hl
  have hk := passOn_passed username (owned username t) h
  have hv := passOn_valid username (owned username t) h
  obtain ⟨hp, hne⟩ := List.mem_filter.mp hg'
  have hne : g'.owner ≠ username := by simpa using hne
  have hm : (t.passOn username (owned username t)).hasMember g'.id g'.owner = true := by
    rcases hk.owner g' hp with ⟨g, hg, hid, ho, -⟩ | hr
    · refine hk.roster _ _ (hasGroup_of_mem hp) ?_
      rw [← hid, ← ho]
      exact hs g hg (hid ▸ hl)
    · exact hr.2
  obtain ⟨m, hmem, he, hu⟩ := Tables.hasMember_iff.mp
    (hasMember_dropGroups hv (hasGroup_of_mem (t := Tables.dropGroups _ _) hg') hm)
  exact Tables.hasMember_iff.mpr ⟨m, List.mem_filter.mpr ⟨hmem, by simp [hu, hne]⟩, he, hu⟩

theorem Staffed.same {limbo : Option Nat} {t t' : Tables} (hg : t.groups = t'.groups)
    (hm : t.groupMembers = t'.groupMembers) (h : Staffed limbo t) : Staffed limbo t' := by
  unfold Staffed Tables.hasMember
  rw [← hg, ← hm]
  exact h

/-- A call that is not about groups changes neither groups nor rosters. -/
theorem Call.Statement.same_rosters {k : Call} (hk : k.onGroups = false)
    (hd : ∀ u, k ≠ .deleteUser u) {t t' : Tables} (h : k.Statement t t') :
    t.groups = t'.groups ∧ t.groupMembers = t'.groupMembers := by
  cases k with
  | deleteUser u => exact absurd rfl (hd u)
  | createGroup | addGroupMember | setGroupOwner | deleteGroup | removeGroupMember => cases hk
  | createUser =>
    obtain ⟨row, a, he⟩ := h
    unfold Tables.insertUser at he
    split at he
    · cases he
    · cases he
      exact ⟨rfl, rfl⟩
  | setAvatar =>
    obtain ⟨a, he⟩ := h
    cases he
    exact ⟨rfl, rfl⟩
  | storeEnvelope =>
    obtain ⟨row, a, he⟩ := h
    unfold Tables.insertEnvelope at he
    split at he
    · cases he
      exact ⟨rfl, rfl⟩
    · cases he
  | storeGroupEnvelope =>
    obtain ⟨row, a, he⟩ := h
    unfold Tables.insertGroupEnvelope at he
    split at he
    · cases he
      exact ⟨rfl, rfl⟩
    · cases he
  | storeFile =>
    obtain ⟨row, a, he⟩ := h
    unfold Tables.insertFile at he
    split at he
    · cases he
    · split at he
      · cases he
        exact ⟨rfl, rfl⟩
      · cases he
  | deleteOrphanFiles =>
    obtain ⟨p, a, he⟩ := h
    cases he
    exact ⟨rfl, rfl⟩
  | deleteExpired =>
    rcases h with ⟨a, he⟩ | ⟨a, he⟩ | ⟨p, a, he⟩ <;> cases he <;> exact ⟨rfl, rfl⟩
  | _ => cases h

/-- A call that is not about groups leaves nothing pending. -/
theorem exec_clean {k : Call} (hk : k.onGroups = false) {c : Conn Tables}
    (hs : Sound Tables.Valid c) (h : c.Clean) : (exec k c).2.Clean := by
  cases k with
  | deleteUser u =>
    rw [exec, answer_state]
    cases ht : c.inTransaction with
    | false =>
      obtain ⟨touched, hd⟩ := deleteUser_run u hs.working ht
      rw [hd]
      rfl
    | true =>
      rw [deleteUser_open ht]
      rfl
  | createGroup | addGroupMember | setGroupOwner | deleteGroup | removeGroupMember => cases hk
  | createUser | setAvatar | storeFile =>
    rw [exec, answer_state]
    exact write_commit_clean (g := fun _ => pure ()) (fun _ _ => rfl) h
  | storeEnvelope | storeGroupEnvelope | deleteOrphanFiles =>
    rw [exec, answer_state]
    exact write_commit_clean (fun _ _ => rfl) h
  | deleteExpired now =>
    rw [exec, answer_state]
    refine Total.bind_clean (.query _) (fun fids => ?_) c
    refine Total.bind_clean (.write fun _ => ⟨_, rfl⟩) fun _ => ?_
    refine Total.bind_clean (.write fun _ => ⟨_, rfl⟩) fun _ => ?_
    exact Total.bind_clean (dropBlobs_total fids 0) fun _ _ => rfl
  | _ => exact h

end Lattix.Server
