import Lattix.Client.Backups

namespace Lattix.Client
open Lib.Runs

/-! Restoring into any session, wherever the backup comes from -/

/-- What a session of any account on any relay can hold, where backups made in any
of them are restored. The rows of each relay are the same for everyone. -/
inductive Reached (world : Nat → Rows) : Account → Store → Prop where
  | start {a : Account} (ha : a.rows = world a.relay) (blocked : List String) (clock : Nat) :
    Reached world a (.start blocked clock)
  | turn {a : Account} {s t : Store} {e : Store.Event} (hs : Reached world a s)
    (ht : s.step a e = some t) : Reached world a t
  | restore {a b : Account} {s t : Store} (hs : Reached world a s) (ht : Reached world b t) :
    Reached world a (s.restore t.makeBackup)

namespace Store

variable {a : Account} {world : Nat → Rows}

/-- Keys are noted for what is recorded as shown or silenced, and only a name that
every object has leaves an ingest without a conversation. -/
structure Recorded (a : Account) (s : Store) : Prop where
  filed : s.Filed a
  named : s.Named
  shown : ∀ e ∈ s.shown, e.key ∈ s.seen
  silenced : ∀ k ∈ s.silenced, k ∈ s.seen
  nowhere : ∀ i ∈ s.waiting, i.place = .convo none → (i.env.cid a.name).inherited = true

theorem refOf_isSome {c : Cid} {s : Store} (h : ∃ v ∈ s.convos, v.cid = c) : s.refOf c ≠ none := by
  obtain ⟨v, hv, hc⟩ := h
  rw [refOf, ne_eq, Option.map_eq_none_iff, List.find?_eq_none]
  intro hall
  exact hall v hv (by simpa using hc)

theorem refOf_ensure {c : Cid} {s : Store} (h : (s.ensure c).refOf c = none) :
    c.inherited = true := by
  by_contra hc
  exact refOf_isSome (ensure_there (by simpa using hc) s) h

/-- The same records, with whatever waits still in place. -/
theorem Recorded.frame {s t : Store} (h : s.Recorded a) (hf : t.Filed a) (hn : t.Named)
    (hs : t.seen = s.seen) (hsh : t.shown = s.shown) (hsi : t.silenced = s.silenced)
    (hw : ∀ i ∈ t.waiting, i.place = .convo none → i ∈ s.waiting ∨
      (i.env.cid a.name).inherited = true) : t.Recorded a := by
  refine ⟨hf, hn, ?_, ?_, fun i hi hp => ?_⟩
  · rw [hsh, hs]
    exact h.shown
  · rw [hsi, hs]
    exact h.silenced
  · rcases hw i hi hp with hi | hc
    · exact h.nowhere i hi hp
    · exact hc

theorem Recorded.ingest {s : Store} (h : s.Recorded a) {e : Envelope} (he : a.rows.has e = true)
    (load : Option Nat) : (s.ingest a.name e load).Recorded a := by
  have hf := h.filed.ingest he load
  have hn := h.named.ingest a.name e load
  have hnone : (s.ensure (e.cid a.name)).refOf (e.cid a.name) = none →
      (e.cid a.name).inherited = true := refOf_ensure
  revert hf hn
  unfold Store.ingest
  split
  · exact fun _ _ => h
  · split
    · refine fun hf hn => ⟨hf, hn, ?_, ?_, h.nowhere⟩
      · exact fun d hd => List.mem_cons_of_mem _ (h.shown d hd)
      · intro k hk
        rcases List.mem_cons.mp hk with rfl | hk
        · exact List.mem_cons_self
        · exact List.mem_cons_of_mem _ (h.silenced k hk)
    · split
      · intro hf hn
        refine h.frame hf hn (by rw [ensure_eq]) (by rw [ensure_eq]) (by rw [ensure_eq]) ?_
        intro i hi hp
        rcases List.mem_append.mp hi with hi | hi
        · rw [ensure_eq] at hi
          exact .inl hi
        · rw [List.mem_singleton.mp hi] at hp ⊢
          exact .inr (hnone (Place.convo.inj hp))
      · intro hf hn
        refine h.frame hf hn rfl rfl rfl fun i hi hp => ?_
        rcases List.mem_append.mp hi with hi | hi
        · exact .inl hi
        · rw [List.mem_singleton.mp hi] at hp
          dsimp only at hp
          split at hp <;> cases hp

theorem Recorded.sweep {s : Store} (h : s.Recorded a) (now : Nat) : (s.sweep now).Recorded a := by
  refine ⟨h.filed.sweep now, h.named.sweep now, ?_, ?_, h.nowhere⟩
  · intro e he
    obtain ⟨he, hd⟩ := List.mem_filter.mp he
    exact List.mem_filter.mpr ⟨h.shown e he, hd⟩
  · intro k hk
    obtain ⟨hk, hd⟩ := List.mem_filter.mp hk
    exact List.mem_filter.mpr ⟨h.silenced k hk, hd⟩

theorem Recorded.note {s : Store} (h : s.Recorded a) (m : Message) (ref : Nat) (e : Envelope) :
    (s.note m ref e).Recorded a := by
  refine ⟨h.filed.note m ref e, h.named.map (fun v => by split <;> rfl) rfl, ?_, ?_, h.nowhere⟩
  · intro d hd
    rcases List.mem_cons.mp hd with rfl | hd
    · exact List.mem_cons_self
    · exact List.mem_cons_of_mem _ (h.shown d hd)
  · exact fun k hk => List.mem_cons_of_mem _ (h.silenced k hk)

theorem Recorded.fewer {s : Store} (h : s.Recorded a) (i : Waiting) :
    ({ s with waiting := s.waiting.erase i } : Store).Recorded a :=
  h.frame (h.filed.fewer fun _ hj => List.mem_of_mem_erase hj) h.named rfl rfl rfl
    fun _ hj _ => .inl (List.mem_of_mem_erase hj)

theorem Recorded.pushMessage {s : Store} (h : s.Recorded a) (m : Message) (i : Waiting)
    (ref : Option Nat) : (s.pushMessage m i ref).Recorded a := by
  cases ref with
  | none =>
    refine ⟨h.filed.pushMessage m i none, h.named, ?_, ?_, h.nowhere⟩
    · exact fun d hd => List.mem_cons_of_mem _ (h.shown d hd)
    · exact fun k hk => List.mem_cons_of_mem _ (h.silenced k hk)
  | some r =>
    simp only [Store.pushMessage]
    split
    · exact (h.note m r i.env).sweep _
    · exact h.note m r i.env

theorem recorded_step {s s' : Store} {e : Store.Event} (h : s.Recorded a)
    (hs : s.step a e = some s') : s'.Recorded a := by
  have hf := filed_step s e s' h.filed hs
  have hn := named_step h.named hs
  cases store_moves hs with
  | arrived he => exact h.ingest he none
  | @rostered i =>
    refine h.frame hf hn (by rw [ensure_eq]) (by rw [ensure_eq]) (by rw [ensure_eq]) ?_
    intro j hj hp
    rcases List.mem_append.mp hj with hj | hj
    · exact .inl (List.mem_of_mem_erase hj)
    · rw [List.mem_singleton.mp hj] at hp ⊢
      exact .inr (refOf_ensure (Place.convo.inj hp))
  | @pushed i => exact (h.fewer i).pushMessage ..
  | @lost i => exact h.fewer i
  | ensured | loaded =>
    refine h.frame hf hn (by rw [ensure_eq]) (by rw [ensure_eq]) (by rw [ensure_eq]) ?_
    intro i hi _
    rw [ensure_eq] at hi
    exact .inl hi
  | @took l e rest more hl hfetch =>
    have hrest := h.filed.paged l hl
    rw [hfetch] at hrest
    have he : a.rows.has e = true := hrest e List.mem_cons_self
    have hr : (s.replace l (.paging rest more) (e :: l.taken)).Recorded a := by
      refine h.frame (h.filed.replace ?_ ?_) h.named rfl rfl rfl fun i hi _ => .inl hi
      · exact fun d hd => hrest d (List.mem_cons_of_mem _ hd)
      · intro d hd
        rcases List.mem_cons.mp hd with rfl | hd
        · exact he
        · exact h.filed.taken l hl d hd
    exact hr.ingest he _
  | swept => exact h.sweep _
  | _ => exact h.frame hf hn rfl rfl rfl fun i hi _ => .inl hi

theorem Recorded.restore {s : Store} (h : s.Recorded a) (b : Backup) : (s.restore b).Recorded a := by
  have hr := restored_restore b s
  have hseen : ∀ k ∈ s.seen, k ∈ (s.restore b).seen := fun k hk => (hr.seen k).mpr (.inl hk)
  have hf := h.filed.restore b
  have hn := h.named.restore b
  rw [hr.same] at hf hn hseen ⊢
  exact ⟨hf, hn, fun e he => hseen _ (h.shown e he), fun k hk => hseen k (h.silenced k hk), h.nowhere⟩

/-- A message is known by the id of the row it was made from. -/
def Told (world : Nat → Rows) (s : Store) : Prop :=
  ∀ c m, s.Lists c m → (world m.origin.1).has m.origin.2 = true ∧ msgKeyFor c m = m.origin.2.key

theorem reached_sound {s : Store} (h : Reached world a s) :
    a.rows = world a.relay ∧ s.Recorded a ∧ s.Told world := by
  induction h with
  | @start a ha blocked clock =>
    refine ⟨ha, ⟨(start_made a blocked clock).1, ?_, ?_, ?_, ?_⟩, ?_⟩ <;>
      simp [Store.start, Named, Told, Lists]
  | @turn a s t e _ ht ih =>
    obtain ⟨ha, hr, hm⟩ := ih
    refine ⟨ha, recorded_step hr ht, fun c m hl => ?_⟩
    rcases lists_step hr.filed ht hl with hl | ⟨d, body, hd, rfl, rfl⟩
    · exact hm c m hl
    · exact ⟨ha ▸ hd, key_made a d body⟩
  | @restore a b s t _ _ ihs iht =>
    obtain ⟨ha, hr, hm⟩ := ihs
    refine ⟨ha, hr.restore _, fun c m hl => ?_⟩
    rcases (restored_restore t.makeBackup s).added c m hl with hl | ⟨hi, -⟩
    · exact hm c m hl
    · obtain ⟨n, hn, rfl⟩ := mem_items.mp hi
      exact iht.2.2 c n hn

/-- An envelope that arrives from someone not blocked is taken up, unless it has
been shown or arrived blocked before; and what was made of it is listed, unless it
has run out. -/
def Becomes (a : Account) (e : Envelope) (u : Store) : Prop :=
  (u.blocks a.name e = false → e.key ∈ u.seen → e ∈ u.shown ∨ e.key ∈ u.silenced) ∧
    ∀ i alert u', i.env = e → u.step a (.push i alert) = some u' →
      ∀ v ∈ u.convos, i.place = .convo (some v.ref) → e.expired u.clock = true ∨
        ∃ body, a.decode e alert = some body ∧ u'.Lists (e.cid a.name) (.made a e body)

theorem push_lists {u u' : Store} (hf : u.Filed a) {i : Waiting} {alert : Bool}
    (hs : u.step a (.push i alert) = some u') {v : Chat} (hv : v ∈ u.convos)
    (hp : i.place = .convo (some v.ref)) : i.env.expired u.clock = true ∨
      ∃ body, a.decode i.env alert = some body ∧
        u'.Lists (i.env.cid a.name) (.made a i.env body) := by
  cases store_moves hs with
  | @pushed _ ref _ body hi hp' hb =>
    rw [hp] at hp'
    cases hp'
    have hn : (({ u with waiting := u.waiting.erase i } : Store).note (.made a i.env body) v.ref
        i.env).Lists (i.env.cid a.name) (.made a i.env body) :=
      lists_note.mpr (.inr ⟨rfl, v, hv, rfl, (hf.placed i hi v.ref hp).2 v hv rfl⟩)
    cases hx : i.env.expired u.clock with
    | true => exact .inl rfl
    | false =>
      refine .inr ⟨body, hb, ?_⟩
      have hd : (Message.made a i.env body).due u.clock = false := by
        rw [due_made (hf.waiting i hi), hx]
      simp only [pushMessage]
      split
      · rename_i hdue
        cases hd.symm.trans hdue
      · exact hn

/-- A key is noted of what is recorded as shown or silenced. -/
def Kept (e : Envelope) (s : Store) : Prop := e.key ∈ s.seen → e ∈ s.shown ∨ e.key ∈ s.silenced

theorem Kept.sweep {s : Store} {e : Envelope} (h : s.Kept e) (now : Nat) :
    (s.sweep now).Kept e := by
  intro hk
  obtain ⟨hk, hd⟩ := List.mem_filter.mp hk
  rcases h hk with hs | hs
  · exact .inl (List.mem_filter.mpr ⟨hs, hd⟩)
  · exact .inr (List.mem_filter.mpr ⟨hs, hd⟩)

theorem Kept.ingest {s : Store} {e : Envelope} (h : s.Kept e) (d : Envelope) (load : Option Nat) :
    (s.ingest a.name d load).Kept e := by
  apply ingest_keeps h
  · intro hk
    rcases List.mem_cons.mp hk with hk | hk
    · rw [hk]
      exact .inr List.mem_cons_self
    · exact (h hk).imp_right (List.mem_cons_of_mem _)
  · rw [ensure_eq]
    exact h
  · exact fun t place _ ht => ht

theorem kept_step {s s' : Store} {e : Envelope} {ev : Store.Event} (hr : s.Recorded a)
    (he : a.rows.has e = true)
    (hc : (e.cid a.name).inherited = false ∨ ∀ alert, a.decode e alert = none) (h : s.Kept e)
    (hs : s.step a ev = some s') : s'.Kept e := by
  cases store_moves hs with
  | arrived => exact h.ingest _ none
  | rostered | ensured | loaded =>
    rw [ensure_eq]
    exact h
  | @pushed i ref alert body hi hp hb =>
    cases ref with
    | none =>
      intro hk
      rcases List.mem_cons.mp hk with hk | hk
      · -- the envelope itself has a conversation to go to
        have hie := a.rows.unique e i.env he (hr.filed.waiting i hi) hk
        rcases hc with hc | hc
        · rw [hie, hr.nowhere i hi hp] at hc
          cases hc
        · rw [← hie, hc alert] at hb
          cases hb
      · exact h hk
    | some r =>
      have hn : (({ s with waiting := s.waiting.erase i } : Store).note (.made a i.env body) r
          i.env).Kept e := by
        intro hk
        rcases List.mem_cons.mp hk with hk | hk
        · rw [a.rows.unique e i.env he (hr.filed.waiting i hi) hk]
          exact .inl List.mem_cons_self
        · exact (h hk).imp_left (List.mem_cons_of_mem _)
      simp only [pushMessage]
      split
      · exact hn.sweep _
      · exact hn
  | @took l d rest more =>
    have hk : (s.replace l (.paging rest more) (d :: l.taken)).Kept e := h
    exact hk.ingest d _
  | swept => exact h.sweep _
  | _ => exact h

/-- Who is asked about when an envelope is checked for a block. -/
def suspect (me : String) (e : Envelope) : String :=
  match e.cid me with
  | .dm peer => peer
  | .group _ => e.sender

theorem blocks_unblocked (me : String) (e : Envelope) (s : Store) :
    ({ s with blocked := s.blocked.filter fun v => v != suspect me e } : Store).blocks me e =
      false := by
  unfold blocks suspect
  cases e.cid me <;> simp

/-- An ingest for a name that every object has is left without a conversation. -/
theorem ingest_nowhere {s : Store} (hn : s.Named) {me : String} {e : Envelope}
    (hi : (e.cid me).inherited = true) (hk : e.key ∉ s.seen) (hb : s.blocks me e = false)
    (load : Option Nat) :
    s.ingest me e load = { s with waiting := s.waiting ++ [⟨e, .convo none, load⟩] } := by
  have hens : s.ensure (e.cid me) = s := by
    unfold ensure
    rw [hi, Bool.or_true, if_pos rfl]
  have href : s.refOf (e.cid me) = none := by
    rw [refOf, Option.map_eq_none_iff, List.find?_eq_none]
    intro v hv hc
    have := hn v hv
    rw [beq_iff_eq.mp hc, hi] at this
    cases this
  unfold ingest
  rw [if_neg (by simpa using hk), if_neg (by simp [hb])]
  cases ht : e.target with
  | user recipient => simp only [hens, href]
  | group g => simp [Envelope.cid, ht, Cid.inherited] at hi

/-- Delivered once, such an envelope is noted and lost. -/
theorem lost_nowhere {s : Store} (hn : s.Named) {e : Envelope} {alert : Bool} {body : Body}
    (he : a.rows.has e = true) (hi : (e.cid a.name).inherited = true) (hk : e.key ∉ s.seen)
    (hdec : a.decode e alert = some body) :
    ∃ u, run (step a) s [.unblock (suspect a.name e), .arrive e,
        .push ⟨e, .convo none, none⟩ alert] = some u ∧
      u.blocks a.name e = false ∧ e.key ∈ u.seen ∧ u.shown = s.shown ∧
        u.silenced = s.silenced := by
  let s₁ : Store := { s with blocked := s.blocked.filter fun v => v != suspect a.name e }
  let i : Waiting := ⟨e, .convo none, none⟩
  let s₂ : Store := { s₁ with waiting := s₁.waiting ++ [i] }
  have hb : s₁.blocks a.name e = false := blocks_unblocked a.name e s
  have harrive : s₁.step a (.arrive e) = some s₂ := by
    simp only [step, he, if_true]
    rw [ingest_nowhere (s := s₁) hn hi hk hb]
  have hpush : s₂.step a (.push i alert) = some
      (({ s₂ with waiting := s₂.waiting.erase i } : Store).pushMessage (.made a e body) i none) := by
    have hmem : i ∈ s₂.waiting := List.mem_append_right _ (List.mem_singleton.mpr rfl)
    simp only [step]
    rw [if_pos hmem]
    simp only [i, hdec]
  refine ⟨_, run_cons.mpr ⟨s₁, rfl, run_cons.mpr ⟨s₂, harrive, run_cons.mpr ⟨_, hpush, rfl⟩⟩⟩, hb,
    List.mem_cons_self, rfl, rfl⟩

/-- What stands between an envelope and its place in the list after a restore: a
message of the backup from another relay with its id, or a sender named so that
`state.convos` takes a property of every object for the conversation. -/
def Clear (a : Account) (e : Envelope) (b : Backup) : Prop :=
  (∀ p ∈ b.items, p.2.origin.1 ≠ a.relay → msgKeyFor p.1 p.2 ≠ e.key) ∧
    ((e.cid a.name).inherited = false ∨ ∀ alert, a.decode e alert = none)

/-- Nothing held is lost to a restore; and an envelope that is new to the session
and not in the backup still becomes a message, whatever follows, exactly if it is
clear. -/
theorem restore_hides_none_iff {b : Account} {s t : Store} {e : Envelope}
    (hs : Reached world a s) (ht : Reached world b t) (he : a.rows.has e = true)
    (hnew : e.key ∉ s.seen) (hout : ∀ p ∈ t.makeBackup.items, p.2.origin ≠ (a.relay, e)) :
    s.Grows (s.restore t.makeBackup) ∧
      ((∀ es u, run (step a) (s.restore t.makeBackup) es = some u → u.Becomes a e) ↔
        Clear a e t.makeBackup) := by
  obtain ⟨ha, hrec, -⟩ := reached_sound hs
  obtain ⟨-, -, htold⟩ := reached_sound ht
  have hr := restored_restore t.makeBackup s
  have hrec' := hrec.restore t.makeBackup
  have hshown : (s.restore t.makeBackup).shown = s.shown := by rw [hr.same]
  have hsil : (s.restore t.makeBackup).silenced = s.silenced := by rw [hr.same]
  have hfresh : e ∉ s.shown ∧ e.key ∉ s.silenced :=
    ⟨fun h => hnew (hrec.shown e h), fun h => hnew (hrec.silenced _ h)⟩
  refine ⟨hr.grows, ?_, ?_⟩
  · intro hall
    by_cases hk : e.key ∈ (s.restore t.makeBackup).seen
    · -- delivered at once, the envelope would be passed over
      exfalso
      rcases (hall [.unblock (suspect a.name e)] _ rfl).1 (blocks_unblocked ..) hk with h | h
      · rw [hshown] at h
        exact hfresh.1 h
      · rw [hsil] at h
        exact hfresh.2 h
    · refine ⟨fun p hp _ hpk => hk ((hr.seen _).mpr (.inr ⟨p, hp, hpk⟩)), ?_⟩
      by_contra hnot
      push Not at hnot
      obtain ⟨hi, alert, hdec⟩ := hnot
      have hi : (e.cid a.name).inherited = true := by simpa using hi
      obtain ⟨body, hdec⟩ := Option.ne_none_iff_exists'.mp hdec
      obtain ⟨u, hrun, hb, hmem, hsh, hsl⟩ := lost_nowhere hrec'.named he hi hk hdec
      rcases (hall _ u hrun).1 hb hmem with h | h
      · rw [hsh, hshown] at h
        exact hfresh.1 h
      · rw [hsl, hsil] at h
        exact hfresh.2 h
  · intro hclear es u hrun
    have hkept : (s.restore t.makeBackup).Kept e := by
      intro hk
      rcases (hr.seen _).mp hk with hk | ⟨p, hp, hpk⟩
      · exact absurd hk hnew
      · exfalso
        obtain ⟨n, hn, hpn⟩ := mem_items.mp hp
        obtain ⟨hrow, hkey⟩ := htold _ n hn
        have horigin : p.2.origin = n.origin := by
          rw [hpn]
          rfl
        have hid : msgKeyFor p.1 p.2 = msgKeyFor p.1 n := by
          rw [hpn]
          rfl
        by_cases hrelay : n.origin.1 = a.relay
        · rw [hrelay, ← ha] at hrow
          have := a.rows.unique _ e hrow he (by rw [← hkey, ← hid, hpk])
          exact hout p hp (by rw [horigin, ← hrelay, ← this])
        · exact hclear.1 p hp (by rw [horigin]; exact hrelay) hpk
    have hinv := invariant (I := fun u => u.Recorded a ∧ u.Kept e)
      (fun s ev s' h hs => ⟨recorded_step h.1 hs, kept_step h.1 he hclear.2 h.2 hs⟩)
      ⟨hrec', hkept⟩ hrun
    refine ⟨fun _ => hinv.2, ?_⟩
    rintro i alert u' rfl hpush v hv hp
    exact push_lists hinv.1.filed hpush hv hp

/-- Two rows of one relay, and one of another with the id of the first. -/
def letter : Envelope := ⟨1, "carol", .user "alice", none⟩

def later : Envelope := ⟨2, "bob", .user "alice", none⟩

def elsewhere : Envelope := ⟨1, "bob", .user "alice", none⟩

def relays : Nat → Rows
  | 0 => .of [letter, later] (by decide) (by decide)
  | _ => .of [elsewhere] (by decide) (by decide)

/-- Alice's account on each relay. -/
def signedIn (relay : Nat) : Account where
  name := "alice"
  relay := relay
  rows := relays relay
  pageSize := historyPage
  decode := fun _ _ => some ⟨0, .message, some "hi", none, true⟩

/-- A session on the first relay in which Carol's message is read. -/
def kept : Store where
  clock := 0
  convos := [⟨.dm "carol", 0, [.made (signedIn 0) letter ⟨0, .message, some "hi", none, true⟩], 1⟩]
  refs := 1
  seen := [letter.key]
  blocked := []
  waiting := []
  loads := []
  loadCount := 0
  silenced := []
  hidden := []
  shown := [letter]

theorem kept_reached : Reached relays (signedIn 0) kept :=
  .turn (e := .push ⟨letter, .convo (some 0), none⟩ false)
    (.turn (e := .arrive letter) (.start rfl [] 0) rfl) rfl

/-- On the relay the backup is from, Bob's message comes through. -/
theorem restore_hides_none_home :
    (start [] 0).Grows ((start [] 0).restore kept.makeBackup) ∧
      ∀ es u, run (step (signedIn 0)) ((start [] 0).restore kept.makeBackup) es = some u →
        u.Becomes (signedIn 0) later := by
  have hs : Reached relays (signedIn 0) (start [] 0) := .start rfl [] 0
  have h := restore_hides_none_iff hs kept_reached (e := later) rfl (by decide) (by decide)
  exact ⟨h.1, h.2.mpr ⟨by decide, .inl (by decide)⟩⟩

/-- On another, one that has the id of Carol's does not. -/
theorem restore_not_always_hides_none :
    ¬ ∀ (world : Nat → Rows) (a b : Account) (s t : Store) (e : Envelope),
      Reached world a s → Reached world b t → a.rows.has e = true → e.key ∉ s.seen →
        (∀ p ∈ t.makeBackup.items, p.2.origin ≠ (a.relay, e)) →
          s.Grows (s.restore t.makeBackup) ∧
            ∀ es u, run (step a) (s.restore t.makeBackup) es = some u → u.Becomes a e := by
  intro h
  have hs := (h relays (signedIn 1) (signedIn 0) _ kept elsewhere (.start rfl [] 0) kept_reached rfl
    (by decide) (by decide)).2 [] _ rfl
  have hlost := hs.1 rfl (by decide)
  revert hlost
  decide

end Store

end Lattix.Client
