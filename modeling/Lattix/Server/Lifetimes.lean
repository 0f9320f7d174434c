import Lattix.Server.Readable
import Lattix.Server.Sweeps

/-! How long an envelope is stored. -/

namespace Lattix.Server
open Lib.Transactions Lib.Runs

namespace Tables
variable {t t' : Tables}

/-- The accounts of an envelope are there, or its group and its sender's. -/
def houses (t : Tables) : Address → Bool
  | .user sender recipient => t.hasUser sender && t.hasUser recipient
  | .group groupId sender => t.hasGroup groupId && t.hasUser sender

theorem mem_items {i : Item} : i ∈ t.items ↔ (∃ e ∈ t.envelopes, (rowToEnvelope e).item = i) ∨
    ∃ e ∈ t.groupEnvelopes, (rowToGroupEnvelope e).item = i := by
  simp [items]

/-- The foreign keys of an envelope. -/
theorem Valid.houses (h : t.Valid) {i : Item} (hi : i ∈ t.items) : t.houses i.address = true := by
  rcases mem_items.mp hi with ⟨e, he, rfl⟩ | ⟨e, he, rfl⟩
  · exact Bool.and_eq_true_iff.mpr ⟨h.sender e he, h.recipient e he⟩
  · exact Bool.and_eq_true_iff.mpr ⟨h.envelopeGroup e he, h.groupSender e he⟩

/-- Rows that stay while what they refer to does. -/
structure Keeps (t t' : Tables) : Prop where
  envelope : ∀ e ∈ t.envelopes, t'.hasUser e.sender = true → t'.hasUser e.recipient = true →
    e ∈ t'.envelopes
  groupEnvelope : ∀ e ∈ t.groupEnvelopes, t'.hasGroup e.groupId = true →
    t'.hasUser e.sender = true → e ∈ t'.groupEnvelopes

theorem Keeps.grown (he : ∀ e ∈ t.envelopes, e ∈ t'.envelopes)
    (hg : ∀ e ∈ t.groupEnvelopes, e ∈ t'.groupEnvelopes) : t.Keeps t' :=
  ⟨fun e hm _ _ => he e hm, fun e hm _ _ => hg e hm⟩

theorem Keeps.same (he : t'.envelopes = t.envelopes) (hg : t'.groupEnvelopes = t.groupEnvelopes) :
    t.Keeps t' :=
  .grown (fun _ hm => he ▸ hm) fun _ hm => hg ▸ hm

theorem Keeps.item (h : t.Keeps t') {i : Item} (hi : i ∈ t.items)
    (hh : t'.houses i.address = true) : i ∈ t'.items := by
  rcases mem_items.mp hi with ⟨e, he, rfl⟩ | ⟨e, he, rfl⟩
  · obtain ⟨hs, hr⟩ := Bool.and_eq_true_iff.mp hh
    exact mem_items.mpr (.inl ⟨e, h.envelope e he hs hr, rfl⟩)
  · obtain ⟨hg, hs⟩ := Bool.and_eq_true_iff.mp hh
    exact mem_items.mpr (.inr ⟨e, h.groupEnvelope e he hg hs, rfl⟩)

/-- Only the groups that are dropped take their envelopes along. -/
theorem mem_dropGroups (h : t.Valid) {p : GroupRow → Bool} {e : GroupEnvelopeRow}
    (he : e ∈ t.groupEnvelopes) (hg : (t.dropGroups p).hasGroup e.groupId = true) :
    e ∈ (t.dropGroups p).groupEnvelopes := by
  obtain ⟨r, hr, hid⟩ := hasGroup_iff.mp hg
  obtain ⟨hr, hp⟩ := List.mem_filter.mp hr
  refine List.mem_filter.mpr ⟨he, ?_⟩
  have hgone := gone_iff h hr (p := p)
  rw [hid] at hgone
  simpa only [hgone] using hp

theorem passOn_envelopes (u : String) (gids : List Nat) :
    (t.passOn u gids).envelopes = t.envelopes := by
  induction gids generalizing t with
  | nil => rfl
  | cons gid rest ih =>
    simp only [passOn]
    split <;> exact ih

theorem mem_passOn (h : t.Valid) {u : String} {gids : List Nat} {e : GroupEnvelopeRow}
    (he : e ∈ t.groupEnvelopes) (hg : (t.passOn u gids).hasGroup e.groupId = true) :
    e ∈ (t.passOn u gids).groupEnvelopes := by
  induction gids generalizing t with
  | nil => exact he
  | cons gid rest ih =>
    simp only [passOn] at hg ⊢
    split at hg
    · rename_i heir hs
      exact ih (updateOwner_valid h (h.updateOwner_ok (successor_member hs).1)) he hg
    · have hv := dropGroups_valid h fun r => r.id == gid
      have hleft := (passOn_passed u rest hv).group _ hg
      exact ih hv (mem_dropGroups h he hleft) hg

theorem withoutUser_keeps (h : t.Valid) (u : String) : t.Keeps (t.withoutUser u) := by
  have hne : ∀ v, (t.withoutUser u).hasUser v = true → (v != u) = true := by
    intro v hv
    rw [withoutUser_hasUser] at hv
    exact (Bool.and_eq_true_iff.mp hv).2
  constructor
  · intro e he hs hr
    refine List.mem_filter.mpr ⟨?_, Bool.and_eq_true_iff.mpr ⟨hne _ hs, hne _ hr⟩⟩
    change e ∈ (t.passOn u (owned u t)).envelopes
    rwa [passOn_envelopes]
  · intro e he hg hs
    have hv := passOn_valid u (owned u t) h
    have hleft : ((t.passOn u (owned u t)).dropGroups fun r => r.owner == u).hasGroup e.groupId = true :=
      hg
    have hpassed := mem_passOn h he (hasGroup_of_dropGroups hleft)
    exact List.mem_filter.mpr ⟨mem_dropGroups hv hpassed hleft, hne _ hs⟩

theorem left_keeps (h : t.Valid) (g : Nat) (u : String) : t.Keeps (t.left g u) := by
  unfold left
  split
  · split
    · exact .same rfl rfl
    · refine ⟨fun e he _ _ => he, fun e he hg _ => ?_⟩
      exact mem_dropGroups (deleteMember_valid (a := ()) h rfl) he hg
  · exact .same rfl rfl

end Tables

theorem Outcome.keeps {R : Runtime} {d : Draws} {me : String} {t t' : Tables} {req : Request}
    {r : Response} (h : t.Valid) (ho : Outcome R d me t req r t') : t.Keeps t' := by
  cases ho with
  | looked | downloaded | avatar | created | uploaded => exact .same rfl rfl
  | deleted => exact Tables.withoutUser_keeps h me
  | message | fileMessage => exact .grown (fun _ he => List.mem_append_left _ he) fun _ he => he
  | groupMessage | groupFile => exact .grown (fun _ he => he) fun _ he => List.mem_append_left _ he
  | joined =>
    unfold Tables.withMember
    split <;> exact .same rfl rfl
  | left => exact Tables.left_keeps h _ _

namespace Service
variable {R : Runtime} {s s' : Service} {i : Item}

theorem Handled.keeps {d : Draws} {authorization : String} {req : Request} {r : Response}
    (h : s.Sane) (hd : s.Handled R d authorization req r s') : s.tables.Keeps s'.tables := by
  cases hd with
  | turnedAway | loggedOut | loggedIn => exact .same rfl rfl
  | registered hn hu ht =>
    rw [Tables.insertUser, if_neg (by simp [hn, hu])] at ht
    cases ht
    exact .same rfl rfl
  | served hme ho =>
    rw [record_tables]
    exact ho.keeps h.valid

/-- A sweep takes an envelope just when its deadline has passed. -/
theorem mem_sweep (graceSeconds now : Nat) (hi : i ∈ s.tables.items) :
    i ∈ (s.sweep graceSeconds now).tables.items ↔ Tables.due now i.expiresAt = false := by
  obtain ⟨n, t, hx, ht⟩ := deleteExpired_exact now s.conn
  obtain ⟨m, t', ho, ht'⟩ := deleteOrphanFiles_exact graceSeconds now (Conn.fresh t)
  have hs : (s.sweep graceSeconds now).tables = t' := by
    simp only [sweep, hx, ho]
    rfl
  have he : t'.envelopes = s.tables.envelopes.filter fun e => !Tables.due now e.expiresAt :=
    (congrArg Tables.envelopes ht'.rest).trans ht.envelopes
  have hg : t'.groupEnvelopes = s.tables.groupEnvelopes.filter fun e => !Tables.due now e.expiresAt :=
    (congrArg Tables.groupEnvelopes ht'.rest).trans ht.groupEnvelopes
  rw [hs, Tables.mem_items, he, hg]
  constructor
  · rintro (⟨e, hm, rfl⟩ | ⟨e, hm, rfl⟩)
    · exact (Bool.not_eq_true' _).mp (List.mem_filter.mp hm).2
    · exact (Bool.not_eq_true' _).mp (List.mem_filter.mp hm).2
  · intro hd
    rcases Tables.mem_items.mp hi with ⟨e, hm, rfl⟩ | ⟨e, hm, rfl⟩
    · exact .inl ⟨e, List.mem_filter.mpr ⟨hm, (Bool.not_eq_true' _).mpr hd⟩, rfl⟩
    · exact .inr ⟨e, List.mem_filter.mpr ⟨hm, (Bool.not_eq_true' _).mpr hd⟩, rfl⟩

/-- A request leaves what an envelope belongs to, and a sweep comes before its deadline. -/
def Lasting (R : Runtime) (i : Item) (s : Service) : Event → Prop
  | .request authorization req d =>
    (s.handle R authorization req d).2.tables.houses i.address = true
  | .sweep _ now => Tables.due now i.expiresAt = false

theorem step_lasting (e : Event) (h : s.Sane) (hi : i ∈ s.tables.items)
    (hs : s.step R e = some s') : i ∈ s'.tables.items ↔ s.Lasting R i e := by
  cases e with
  | sweep graceSeconds now =>
    cases hs
    exact mem_sweep graceSeconds now hi
  | request authorization req d =>
    have hsane := step_sane _ _ _ h hs
    simp only [step, Option.ite_none_right_eq_some] at hs
    obtain ⟨hw, hs⟩ := hs
    cases hs
    have hd : s.Handled R d authorization req _ _ :=
      handle_handled h (Bool.and_eq_true_iff.mp hw).2 req
    exact ⟨hsane.valid.houses, (hd.keeps h).item hi⟩

/-- From when it is stored an envelope is there, unchanged, in all states of a run just when every
request leaves its accounts or its group, and no sweep comes once its deadline is reached. -/
theorem stored_iff {es fs : List Event} {s t : Service} {i : Item}
    (hes : run (step R) .empty es = some s) (hi : i ∈ s.tables.items)
    (hfs : run (step R) s fs = some t) :
    (∀ gs u, gs <+: fs → run (step R) s gs = some u → i ∈ u.tables.items) ↔
      Meets (step R) (Lasting R i) s fs :=
  throughout_iff (fun s e t h hm hs => ⟨step_sane s e t h hs, step_lasting e h hm hs⟩)
    (run_sane hes) hi hfs

end Service

/-- ann writes to bob, for five seconds. -/
def annToBob : List Service.Event :=
  [signUp "ann" "t1", signUp "bob" "t2", asks "t1" (.sendMessage ⟨"bob", [], some 5⟩)]

def annsItem : Item := ⟨1, .user "ann" "bob", .message, "\x7b\x7d", some 5, 0⟩

theorem annsItem_swept : ∃ s, run (Service.step plain) .empty annToBob = some s ∧
    annsItem ∈ s.tables.items ∧
    ¬ ∀ gs u, gs <+: [.sweep 3 4, .sweep 3 5] → run (Service.step plain) s gs = some u →
      annsItem ∈ u.tables.items := by
  refine ⟨_, rfl, by decide +kernel, fun hstored => ?_⟩
  have hrun : run (Service.step plain) .empty annToBob = some _ := rfl
  have hlasting := (Service.stored_iff hrun (by decide +kernel) rfl).mp hstored
  have hdue : Tables.due 5 (some 5) = false := (hlasting.2 _ rfl).1
  exact absurd hdue (by decide)

end Lattix.Server
