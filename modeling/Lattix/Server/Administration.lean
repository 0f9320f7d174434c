import Lattix.Lib.Runs
import Lattix.Server.Staffing

namespace Lattix.Server
open Lib.Transactions Lib.Runs

/-- Every group has members, and its owner is one of them. -/
def Administered (t : Tables) : Prop :=
  ∀ g ∈ t.groups, ∃ m ∈ t.groupMembers, m.groupId = g.id ∧ m.username = g.owner

instance (t : Tables) : Decidable (Administered t) :=
  inferInstanceAs (Decidable (∀ g ∈ t.groups, ∃ m ∈ t.groupMembers, _))

theorem staffed_none {t : Tables} : Staffed none t ↔ Administered t := by
  constructor
  · intro h g hg
    exact Tables.hasMember_iff.mp (h g hg nofun)
  · intro h g hg _
    exact Tables.hasMember_iff.mpr (h g hg)

/-- The step is not a call that a concurrent deletion has misled. -/
def Relay.careful (s : Relay) : Event → Bool
  | .call roster _ => s.running.all fun p => p.careful roster s.conn.working
  | _ => true

theorem call_conn (lower : String → String) (roster : List String) (now : Nat) (s : Relay)
    (p : Point) :
    (s.call lower roster now p).conn = (p.next lower roster now s.conn).2 ∧
    (s.call lower roster now p).running.bind Point.limbo =
      limboAfter (p.next lower roster now s.conn).1 := by
  unfold Relay.call
  split <;> rename_i h <;> rw [h] <;> exact ⟨rfl, rfl⟩

/-- What holds in every state a run of careful steps reaches. -/
def Relay.Tidy (s : Relay) : Prop := Server.Tidy (s.running.bind Point.limbo) s.conn

theorem start_limbo (r : GroupRequest) : r.start.limbo = none := by
  cases r with
  | createGroup me name members icon => exact nextCheck_limbo ..
  | addMember | removeMember => rfl

theorem empty_tidy : Relay.empty.Tidy :=
  .fresh Tables.empty_valid fun _ hg => absurd hg List.not_mem_nil

theorem step_tidy {lower : String → String} (s : Relay) (e : Event) (s' : Relay) (h : s.Tidy)
    (hc : s.careful e = true) (hs : s.step lower e = some s') : s'.Tidy := by
  cases e with
  | request r =>
    simp only [Relay.step] at hs
    split at hs
    · rename_i hr
      cases hs
      unfold Relay.Tidy at h ⊢
      simpa [hr, start_limbo] using h
    · cases hs
  | call roster now =>
    simp only [Relay.step] at hs
    split at hs
    · cases hs
    · rename_i p hr
      split at hs
      · rename_i hw
        cases hs
        obtain ⟨hconn, hl⟩ := call_conn lower roster now s p
        unfold Relay.Tidy at h ⊢
        rw [hconn, hl]
        simp only [hr, Option.bind_some] at h
        exact h.next hw (by simpa [Relay.careful, hr] using hc)
      · cases hs
  | other k =>
    simp only [Relay.step] at hs
    split at hs
    · cases hs
    · rename_i hk
      cases hs
      exact h.exec (by simpa using hk)

/-- Whatever other threads do between the calls of a request, every group is
administered again once no request is running. -/
theorem groups_stay_administered (lower : String → String) (es : List Event) {s : Relay}
    (hok : Meets (Relay.step lower) (fun s e => s.careful e = true) Relay.empty es)
    (hrun : run (Relay.step lower) Relay.empty es = some s) (hrest : s.running = none) :
    Administered s.conn.working ∧ Administered s.conn.committed := by
  have h : s.Tidy := invariant_meets step_tidy empty_tidy hok hrun
  unfold Relay.Tidy at h
  rw [hrest] at h
  exact ⟨staffed_none.mp h.staffed.working, staffed_none.mp h.staffed.committed⟩

/-- `str.lower` on the names the relay accepts, which are ASCII. -/
def asciiLower (s : String) : String := String.ofList (s.toList.map Char.toLower)

def ask (roster : List String) : Event := .call roster 0

/-- Three accounts, and a group of them that ann owns. -/
def threeInAGroup : List Event :=
  [.other (newUser "ann"), .other (newUser "bob"), .other (newUser "cat"),
    .request (.createGroup "ann" "g" ["bob", "cat"] none), ask [], ask [],
    ask ["bob", "ann", "cat"]]

/-- The owner leaves a group, undisturbed, and it passes on. -/
theorem departure_administered :
    let es := threeInAGroup ++ [.request (.removeMember 1 "ann" "ann"), ask [], ask [], ask [],
      ask [], ask []]
    ∃ s, run (Relay.step asciiLower) Relay.empty es = some s ∧
      Administered s.conn.working ∧ Administered s.conn.committed :=
  ⟨_, rfl, groups_stay_administered asciiLower (threeInAGroup ++
    [.request (.removeMember 1 "ann" "ann"), ask [], ask [], ask [], ask [], ask []])
    (by decide) rfl rfl⟩

/-- The owner removes a member while their own account is being deleted. The
deletion hands the group to that very member, and the removal, which read the
old owner, then takes the new one off the roster and hands nothing over. -/
theorem groups_not_always_administered :
    ¬ ∀ (es : List Event) (s : Relay), run (Relay.step asciiLower) Relay.empty es = some s →
      s.running = none → Administered s.conn.working := by
  intro h
  have hs := h (threeInAGroup ++ [.request (.removeMember 1 "bob" "ann"), ask [], ask [],
    .other (.deleteUser "ann"), ask []]) _ rfl rfl
  revert hs
  decide

end Lattix.Server
