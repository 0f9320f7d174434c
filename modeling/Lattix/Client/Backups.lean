import Lattix.Client.Seen

namespace Lattix.Client
open Lib.Runs

/-- A conversation in a backup. -/
structure Saved where
  cid : Cid
  messages : List Message
deriving DecidableEq, Repr

/-- What a backup seals of the conversations and of who is blocked. -/
structure Backup where
  convos : List Saved
  blocked : List String
deriving DecidableEq, Repr

/-- The fields of a message that a backup has: not the deadline. -/
def Message.saved (m : Message) : Message :=
  { m with
    expiresAt := none
    body := { m.body with file := m.body.file.map fun f => { f with fileId := none } } }

/-- The messages of a backup with where they go, in the order they are restored. -/
def Backup.items (b : Backup) : List (Cid × Message) :=
  b.convos.flatMap fun src => src.messages.map fun m => (src.cid, m)

namespace Store

def serializeConvos (s : Store) : List Saved :=
  s.convos.map fun v => ⟨v.cid, v.messages.map Message.saved⟩

def makeBackup (s : Store) : Backup := ⟨s.serializeConvos, s.blocked⟩

def restoreMessage (c : Cid) (s : Store) (m : Message) : Store :=
  if s.seen.contains (msgKeyFor c m) then s
  else
    { s with
      seen := msgKeyFor c m :: s.seen
      convos := s.convos.map fun v =>
        if v.cid = c then { v with messages := v.messages ++ [m] } else v }

def restoreConvo (s : Store) (src : Saved) : Store :=
  let s := src.messages.foldl (restoreMessage src.cid) (s.ensure src.cid)
  { s with convos := s.convos.map fun v => if v.cid = src.cid then v.sorted else v }

/-- `onRestoreChosen`, once the backup is open. -/
def restore (b : Backup) (s : Store) : Store :=
  let s := b.convos.foldl restoreConvo s
  { s with blocked := b.blocked ++ s.blocked }

variable {a : Account}

/-! What a restore does, from its messages to all of it -/

/-- The objects stay what and where they were, with more in their lists. -/
def Grows (s t : Store) : Prop :=
  ∀ v ∈ s.convos, ∃ w ∈ t.convos, w.ref = v.ref ∧ w.cid = v.cid ∧ v.messages.Subperm w.messages

theorem Grows.refl (s : Store) : s.Grows s := fun v hv => ⟨v, hv, rfl, rfl, List.Subperm.refl _⟩

theorem Grows.trans {s t u : Store} (h : s.Grows t) (h' : t.Grows u) : s.Grows u := by
  intro v hv
  obtain ⟨w, hw, hr, hc, hp⟩ := h v hv
  obtain ⟨x, hx, hr', hc', hp'⟩ := h' w hw
  exact ⟨x, hx, hr'.trans hr, hc'.trans hc, hp.trans hp'⟩

theorem Grows.lists {s t : Store} (h : s.Grows t) {c : Cid} {m : Message} (hl : s.Lists c m) :
    t.Lists c m := by
  obtain ⟨v, hv, rfl, hm⟩ := hl
  obtain ⟨w, hw, -, hc, hp⟩ := h v hv
  exact ⟨w, hw, hc, hp.subset hm⟩

theorem grows_map {s : Store} {f : Chat → Chat}
    (hf : ∀ v, (f v).ref = v.ref ∧ (f v).cid = v.cid ∧ v.messages.Subperm (f v).messages)
    {seen : List Key} : s.Grows { s with seen := seen, convos := s.convos.map f } :=
  fun v hv => ⟨f v, List.mem_map_of_mem hv, hf v⟩

theorem ensure_grows (c : Cid) (s : Store) : s.Grows (s.ensure c) := by
  unfold ensure
  split
  · exact .refl s
  · exact fun v hv => ⟨v, List.mem_append_left _ hv, rfl, rfl, List.Subperm.refl _⟩

theorem ensure_there {c : Cid} (hc : c.inherited = false) (s : Store) :
    ∃ v ∈ (s.ensure c).convos, v.cid = c := by
  unfold ensure
  split
  · rename_i h
    simpa [hc] using h
  · exact ⟨_, List.mem_append_right _ (List.mem_singleton.mpr rfl), rfl⟩

/-- What restoring some messages comes to. -/
structure Restored (items : List (Cid × Message)) (s t : Store) : Prop where
  same : t = { s with seen := t.seen, convos := t.convos, refs := t.refs, blocked := t.blocked }
  grows : s.Grows t
  added : ∀ c m, t.Lists c m → s.Lists c m ∨ (c, m) ∈ items ∧ msgKeyFor c m ∉ s.seen
  seen : ∀ k, k ∈ t.seen ↔ k ∈ s.seen ∨ ∃ p ∈ items, msgKeyFor p.1 p.2 = k
  taken : ∀ p ∈ items, msgKeyFor p.1 p.2 ∉ s.seen → ∃ q ∈ items,
    msgKeyFor q.1 q.2 = msgKeyFor p.1 p.2 ∧ (q.1.inherited = false → t.Lists q.1 q.2)

theorem Restored.append {xs ys : List (Cid × Message)} {s t u : Store} (h : Restored xs s t)
    (h' : Restored ys t u) : Restored (xs ++ ys) s u := by
  refine ⟨?_, h.grows.trans h'.grows, ?_, ?_, ?_⟩
  · rw [h'.same, h.same]
  · intro c m hl
    rcases h'.added c m hl with hl | ⟨hm, hk⟩
    · rcases h.added c m hl with hl | ⟨hm, hk⟩
      · exact .inl hl
      · exact .inr ⟨List.mem_append_left _ hm, hk⟩
    · exact .inr ⟨List.mem_append_right _ hm, fun hs => hk ((h.seen _).mpr (.inl hs))⟩
  · intro k
    rw [h'.seen, h.seen]
    simp only [List.mem_append, or_and_right, exists_or, or_assoc]
  · intro p hp hk
    have hfirst : ∀ q ∈ xs, msgKeyFor q.1 q.2 = msgKeyFor p.1 p.2 → ∃ r ∈ xs ++ ys,
        msgKeyFor r.1 r.2 = msgKeyFor p.1 p.2 ∧ (r.1.inherited = false → u.Lists r.1 r.2) := by
      intro q hq hqk
      obtain ⟨r, hr, hrk, hl⟩ := h.taken q hq (hqk ▸ hk)
      exact ⟨r, List.mem_append_left _ hr, hrk.trans hqk, fun hc => h'.grows.lists (hl hc)⟩
    by_cases hkt : msgKeyFor p.1 p.2 ∈ t.seen
    · rcases (h.seen _).mp hkt with hs | ⟨q, hq, hqk⟩
      · exact absurd hs hk
      · exact hfirst q hq hqk
    · rcases List.mem_append.mp hp with hp | hp
      · exact hfirst p hp rfl
      · obtain ⟨q, hq, hqk, hl⟩ := h'.taken p hp hkt
        exact ⟨q, List.mem_append_right _ hq, hqk, hl⟩

theorem Restored.nothing {s t : Store}
    (hs : t = { s with seen := s.seen, convos := t.convos, refs := t.refs, blocked := t.blocked })
    (hg : s.Grows t) (hl : ∀ c m, t.Lists c m → s.Lists c m) : Restored [] s t := by
  have hseen : t.seen = s.seen := by rw [hs]
  refine ⟨?_, hg, fun c m h => .inl (hl c m h), ?_, ?_⟩
  · rw [hseen]
    exact hs
  · simp [hseen]
  · simp

theorem restored_ensure (c : Cid) (s : Store) : Restored [] s (s.ensure c) := by
  refine .nothing ?_ (ensure_grows c s) fun _ _ => lists_ensure.mp
  unfold ensure
  split <;> rfl

theorem restored_sorted (c : Cid) (s : Store) : Restored [] s
    { s with convos := s.convos.map fun v => if v.cid = c then v.sorted else v } := by
  refine .nothing rfl (grows_map fun v => ?_) fun d m => ?_
  · split
    · exact ⟨rfl, rfl, (List.perm_insertionSort _ _).symm.subperm⟩
    · exact ⟨rfl, rfl, List.Subperm.refl _⟩
  · rintro ⟨w, hw, rfl, hm⟩
    obtain ⟨v, hv, rfl⟩ := List.mem_map.mp hw
    split at hm <;> rename_i hc
    · rw [if_pos hc]
      exact ⟨v, hv, rfl, (List.perm_insertionSort _ _).subset hm⟩
    · rw [if_neg hc]
      exact ⟨v, hv, rfl, hm⟩

theorem restored_message {c : Cid} {s : Store}
    (hc : c.inherited = false → ∃ v ∈ s.convos, v.cid = c) (m : Message) :
    Restored [(c, m)] s (restoreMessage c s m) := by
  unfold restoreMessage
  split
  · rename_i hk
    have hk : msgKeyFor c m ∈ s.seen := List.contains_iff_mem.mp hk
    refine ⟨rfl, .refl s, fun _ _ h => .inl h, fun k => ?_, ?_⟩
    · simp only [List.mem_singleton, exists_eq_left, iff_self_or]
      rintro rfl
      exact hk
    · rintro p hp hn
      rw [List.mem_singleton.mp hp] at hn
      exact absurd hk hn
  · rename_i hk
    have hk : msgKeyFor c m ∉ s.seen := fun h => hk (List.contains_iff_mem.mpr h)
    refine ⟨rfl, grows_map fun v => ?_, fun d n => ?_, fun k => ?_, ?_⟩
    · split
      · exact ⟨rfl, rfl, (List.sublist_append_left _ _).subperm⟩
      · exact ⟨rfl, rfl, List.Subperm.refl _⟩
    · rintro ⟨w, hw, rfl, hn⟩
      obtain ⟨v, hv, rfl⟩ := List.mem_map.mp hw
      split at hn <;> rename_i hvc
      · rw [if_pos hvc]
        rcases List.mem_append.mp hn with hn | hn
        · exact .inl ⟨v, hv, rfl, hn⟩
        · rw [List.mem_singleton.mp hn]
          subst hvc
          exact .inr ⟨List.mem_singleton.mpr rfl, hk⟩
      · rw [if_neg hvc]
        exact .inl ⟨v, hv, rfl, hn⟩
    · simp [or_comm, eq_comm]
    · rintro p hp -
      rw [List.mem_singleton.mp hp]
      refine ⟨_, List.mem_singleton.mpr rfl, rfl, fun hi => ?_⟩
      obtain ⟨v, hv, rfl⟩ := hc hi
      refine ⟨_, List.mem_map_of_mem hv, ?_⟩
      rw [if_pos rfl]
      exact ⟨rfl, List.mem_append_right _ (List.mem_singleton.mpr rfl)⟩

theorem restored_messages {c : Cid} {s : Store}
    (hc : c.inherited = false → ∃ v ∈ s.convos, v.cid = c) (ms : List Message) :
    Restored (ms.map fun m => (c, m)) s (ms.foldl (restoreMessage c) s) := by
  induction ms generalizing s with
  | nil => exact .nothing rfl (.refl s) fun _ _ h => h
  | cons m ms ih =>
    have hm := restored_message hc m
    refine hm.append (ih fun hi => ?_)
    obtain ⟨v, hv, hvc⟩ := hc hi
    obtain ⟨w, hw, -, hwc, -⟩ := hm.grows v hv
    exact ⟨w, hw, hwc.trans hvc⟩

theorem restored_convo (s : Store) (src : Saved) :
    Restored (src.messages.map fun m => (src.cid, m)) s (restoreConvo s src) := by
  have hthere : src.cid.inherited = false → ∃ v ∈ (s.ensure src.cid).convos, v.cid = src.cid :=
    fun hi => ensure_there hi s
  have hm := restored_messages hthere src.messages
  have h := ((restored_ensure src.cid s).append hm).append (restored_sorted src.cid _)
  rwa [List.nil_append, List.append_nil] at h

theorem restored_convos (cs : List Saved) (s : Store) :
    Restored (cs.flatMap fun src => src.messages.map fun m => (src.cid, m)) s
      (cs.foldl restoreConvo s) := by
  induction cs generalizing s with
  | nil => exact .nothing rfl (.refl s) fun _ _ h => h
  | cons src cs ih => exact (restored_convo s src).append (ih _)

theorem restored_restore (b : Backup) (s : Store) : Restored b.items s (s.restore b) := by
  have h := restored_convos b.convos s
  refine ⟨?_, h.grows, h.added, h.seen, h.taken⟩
  unfold restore
  rw [h.same]

theorem Filed.sorted {s : Store} (h : s.Filed a) (c : Cid) :
    ({ s with convos := s.convos.map fun v => if v.cid = c then v.sorted else v } : Store).Filed a :=
  h.relist (fun v => by split <;> exact ⟨rfl, rfl⟩) (List.Sublist.refl _)

theorem Filed.restoreMessage {s : Store} (h : s.Filed a) (c : Cid) (m : Message) :
    (restoreMessage c s m).Filed a := by
  unfold Store.restoreMessage
  split
  · exact h
  · have hr := h.relist (f := fun v => if v.cid = c then { v with messages := v.messages ++ [m] }
      else v) (fun v => by split <;> exact ⟨rfl, rfl⟩) (List.Sublist.refl _)
    exact ⟨hr.refs, hr.below, hr.waiting, hr.placed, hr.paged, hr.taken⟩

theorem Filed.restoreMessages {s : Store} (h : s.Filed a) (c : Cid) (ms : List Message) :
    (ms.foldl (Store.restoreMessage c) s).Filed a := by
  induction ms generalizing s with
  | nil => exact h
  | cons m ms ih => exact ih (h.restoreMessage c m)

theorem Filed.restore {s : Store} (h : s.Filed a) (b : Backup) : (s.restore b).Filed a := by
  have hc : ∀ (cs : List Saved) (s : Store), s.Filed a → (cs.foldl restoreConvo s).Filed a := by
    intro cs
    induction cs with
    | nil => exact fun _ h => h
    | cons src cs ih =>
      intro s h
      exact ih _ (((h.ensure src.cid).restoreMessages src.cid src.messages).sorted src.cid)
  have := hc b.convos s h
  exact ⟨this.refs, this.below, this.waiting, this.placed, this.paged, this.taken⟩

theorem mem_items {s : Store} {p : Cid × Message} :
    p ∈ s.makeBackup.items ↔ ∃ m, s.Lists p.1 m ∧ p.2 = m.saved := by
  simp only [Backup.items, makeBackup, serializeConvos, List.mem_flatMap]
  constructor
  · rintro ⟨src, hsrc, hp⟩
    obtain ⟨v, hv, rfl⟩ := List.mem_map.mp hsrc
    obtain ⟨n, hn, rfl⟩ := List.mem_map.mp hp
    obtain ⟨m, hm, rfl⟩ := List.mem_map.mp hn
    exact ⟨m, ⟨v, hv, rfl, hm⟩, rfl⟩
  · rintro ⟨m, ⟨v, hv, hc, hm⟩, hp⟩
    refine ⟨_, List.mem_map_of_mem hv, List.mem_map.mpr ⟨m.saved, List.mem_map_of_mem hm, ?_⟩⟩
    dsimp only
    rw [hc, ← hp]

/-- What a turn leaves in the lists was there or was made of a row. -/
theorem lists_step {s s' : Store} {e : Store.Event} (hf : s.Filed a) (hs : s.step a e = some s')
    {c : Cid} {m : Message} (hl : s'.Lists c m) :
    s.Lists c m ∨ ∃ d body, a.rows.has d = true ∧ d.cid a.name = c ∧ m = .made a d body := by
  have hin : ∀ {t : Store} {d : Envelope} {load : Option Nat}, (t.ingest a.name d load).Lists c m →
      t.Lists c m := by
    intro t d load
    apply ingest_keeps (P := fun u => u.Lists c m → t.Lists c m) id id
    · exact lists_ensure.mp
    · exact fun u place _ hu => hu
  cases store_moves hs with
  | arrived => exact .inl (hin hl)
  | rostered | ensured | loaded => exact .inl (lists_ensure.mp hl)
  | @pushed i ref alert body hi hp =>
    cases ref with
    | none => exact .inl hl
    | some r =>
      have hn : (({ s with waiting := s.waiting.erase i } : Store).note (.made a i.env body) r
          i.env).Lists c m := by
        simp only [pushMessage] at hl
        split at hl
        · exact (lists_sweep.mp hl).1
        · exact hl
      rcases lists_note.mp hn with hl | ⟨rfl, v, hv, hvr, rfl⟩
      · exact .inl hl
      · exact .inr ⟨i.env, body, hf.waiting i hi, ((hf.placed i hi r hp).2 v hv hvr).symm, rfl⟩
  | @took l e rest more =>
    have hl : (s.replace l (.paging rest more) (e :: l.taken)).Lists c m := hin hl
    exact .inl hl
  | dropped => exact .inl (lists_drop.mp hl).1
  | swept => exact .inl (lists_sweep.mp hl).1
  | _ => exact .inl hl

/-- No conversation object is made under a name that every object has. -/
def Named (s : Store) : Prop := ∀ v ∈ s.convos, v.cid.inherited = false

theorem Named.ensure {s : Store} (h : s.Named) (c : Cid) : (s.ensure c).Named := by
  unfold Store.ensure
  split
  · exact h
  · rename_i hc
    intro v hv
    rcases List.mem_append.mp hv with hv | hv
    · exact h v hv
    · rw [List.mem_singleton.mp hv]
      simp only [Bool.or_eq_true, not_or, Bool.not_eq_true] at hc
      exact hc.2

theorem Named.map {s : Store} (h : s.Named) {f : Chat → Chat} (hf : ∀ v, (f v).cid = v.cid)
    {t : Store} (ht : t.convos = s.convos.map f) : t.Named := by
  intro w hw
  rw [ht] at hw
  obtain ⟨v, hv, rfl⟩ := List.mem_map.mp hw
  rw [hf]
  exact h v hv

theorem Named.sweep {s : Store} (h : s.Named) (now : Nat) : (s.sweep now).Named := by
  intro w hw
  obtain ⟨v, hv, rfl⟩ := List.mem_map.mp hw
  exact h v hv

theorem Named.ingest {s : Store} (h : s.Named) (me : String) (e : Envelope) (load : Option Nat) :
    (s.ingest me e load).Named :=
  ingest_keeps h h (h.ensure _) fun t place _ ht => ht

theorem named_step {s s' : Store} {e : Store.Event} (h : s.Named) (hs : s.step a e = some s') :
    s'.Named := by
  cases store_moves hs with
  | arrived => exact h.ingest _ _ _
  | rostered | ensured | loaded => exact h.ensure _
  | @pushed i ref alert body =>
    cases ref with
    | none => exact h
    | some r =>
      have hn : (({ s with waiting := s.waiting.erase i } : Store).note (.made a i.env body) r
          i.env).Named := h.map (fun v => by split <;> rfl) rfl
      simp only [pushMessage]
      split
      · exact hn.sweep _
      · exact hn
  | @took l e rest more =>
    have hr : (s.replace l (.paging rest more) (e :: l.taken)).Named := h
    exact hr.ingest _ _ _
  | dropped => exact fun v hv => h v (List.mem_of_mem_filter hv)
  | swept => exact h.sweep _
  | _ => exact h

theorem Named.restore {s : Store} (h : s.Named) (b : Backup) : (s.restore b).Named := by
  have hm : ∀ (c : Cid) (ms : List Message) (s : Store), s.Named →
      (ms.foldl (restoreMessage c) s).Named := by
    intro c ms
    induction ms with
    | nil => exact fun _ h => h
    | cons m ms ih =>
      intro s h
      refine ih _ ?_
      unfold restoreMessage
      split
      · exact h
      · exact h.map (fun v => by split <;> rfl) rfl
  have hc : ∀ (cs : List Saved) (s : Store), s.Named → (cs.foldl restoreConvo s).Named := by
    intro cs
    induction cs with
    | nil => exact fun _ h => h
    | cons src cs ih =>
      intro s h
      refine ih _ ?_
      exact (hm _ _ _ (h.ensure src.cid)).map (fun v => by split <;> rfl) rfl
  exact hc b.convos s h

/-- Once swept, at whatever time, no list has a message whose envelope's deadline
has passed. -/
def Gone (s : Store) : Prop :=
  ∀ now, s.clock ≤ now → ∀ c m, (s.sweep now).Lists c m → m.origin.2.expired now = false

end Store

/-- A session and the backups made in it so far. -/
structure Archive where
  store : Store
  backups : List Backup
deriving DecidableEq

inductive Archive.Event where
  | turn (e : Store.Event)
  | backup
  | restore (b : Backup)
deriving DecidableEq

namespace Archive

def start (blocked : List String) (clock : Nat) : Archive := ⟨.start blocked clock, []⟩

def step (a : Account) (s : Archive) : Event → Option Archive
  | .turn e => (s.store.step a e).map fun t => { s with store := t }
  | .backup => some { s with backups := s.backups ++ [s.store.makeBackup] }
  | .restore b => if b ∈ s.backups then some { s with store := s.store.restore b } else none

/-- A message that had a deadline is restored only where its key is still noted,
which is to say not at all. -/
def lasting (s : Archive) : Event → Bool
  | .restore b => b.items.all fun p =>
      p.2.origin.2.expires.isNone || s.store.seen.contains (msgKeyFor p.1 p.2)
  | _ => true

variable {a : Account}

/-- A message comes from a row of its conversation, with the row's deadline or none. -/
def From (a : Account) (c : Cid) (m : Message) : Prop :=
  ∃ e, a.rows.has e = true ∧ e.cid a.name = c ∧ m.id = e.id ∧ m.origin = (a.relay, e) ∧
    (m.expiresAt = e.expires ∨ m.expiresAt = none)

structure Sound (a : Account) (s : Archive) : Prop where
  filed : s.store.Filed a
  named : s.store.Named
  from_row : ∀ c m, s.store.Lists c m → From a c m
  saved : ∀ b ∈ s.backups, ∀ p ∈ b.items,
    From a p.1 p.2 ∧ p.2.expiresAt = none ∧ p.1.inherited = false

theorem From.key {c : Cid} {m : Message} (h : From a c m) : msgKeyFor c m = m.origin.2.key := by
  obtain ⟨e, -, rfl, hid, ho, -⟩ := h
  rw [ho]
  unfold msgKeyFor Envelope.cid Envelope.key
  cases e.target <;> simp [hid]

/-- The messages of one row have one origin. -/
theorem From.unique {c d : Cid} {m n : Message} (hm : From a c m) (hn : From a d n)
    (hk : msgKeyFor c m = msgKeyFor d n) : m.origin = n.origin := by
  rw [hm.key, hn.key] at hk
  obtain ⟨e, he, -, -, ho, -⟩ := hm
  obtain ⟨f, hf, -, -, ho', -⟩ := hn
  rw [ho, ho'] at hk ⊢
  rw [a.rows.unique e f he hf hk]

/-- The deadlines have all been kept. -/
theorem gone_iff {s : Archive} (h : s.Sound a) :
    s.store.Gone ↔ ∀ c m, s.store.Lists c m → m.expiresAt = m.origin.2.expires := by
  constructor
  · intro hg c m hl
    obtain ⟨e, -, -, -, ho, hx⟩ := h.from_row c m hl
    rw [ho]
    rcases hx with hx | hx
    · exact hx
    · cases hd : e.expires with
      | none => exact hx
      | some d =>
        have hs := hg (max s.store.clock d) (Nat.le_max_left ..) c m
          (Store.lists_sweep.mpr ⟨hl, by simp [Message.due, hx]⟩)
        rw [ho] at hs
        simp [Envelope.expired, hd] at hs
  · intro hkept now _ c m hl
    obtain ⟨hl, hd⟩ := Store.lists_sweep.mp hl
    unfold Message.due at hd
    rw [hkept c m hl] at hd
    exact hd

theorem sound_step (s : Archive) (e : Event) (t : Archive) (h : s.Sound a)
    (hs : s.step a e = some t) : t.Sound a := by
  cases e with
  | turn e =>
    obtain ⟨t, ht, rfl⟩ := Option.map_eq_some_iff.mp hs
    refine ⟨Store.filed_step _ e t h.filed ht, Store.named_step h.named ht, ?_, h.saved⟩
    intro c m hl
    rcases Store.lists_step h.filed ht hl with hl | ⟨d, body, hd, hc, rfl⟩
    · exact h.from_row c m hl
    · exact ⟨d, hd, hc, rfl, rfl, .inl (Store.expiresAt_made hd body)⟩
  | backup =>
    cases hs
    refine ⟨h.filed, h.named, h.from_row, ?_⟩
    intro b hb p hp
    rcases List.mem_append.mp hb with hb | hb
    · exact h.saved b hb p hp
    · rw [List.mem_singleton.mp hb] at hp
      obtain ⟨m, hl, hm⟩ := Store.mem_items.mp hp
      rw [hm]
      obtain ⟨e, he, hc, hid, ho, -⟩ := h.from_row _ m hl
      obtain ⟨v, hv, hvc, -⟩ := hl
      exact ⟨⟨e, he, hc, hid, ho, .inr rfl⟩, rfl, hvc ▸ h.named v hv⟩
  | restore b =>
    simp only [step] at hs
    split at hs
    · rename_i hb
      cases hs
      refine ⟨h.filed.restore b, h.named.restore b, ?_, h.saved⟩
      intro c m hl
      rcases (Store.restored_restore b s.store).added c m hl with hl | ⟨hm, -⟩
      · exact h.from_row c m hl
      · exact (h.saved b hb _ hm).1
    · cases hs

theorem gone_step (s : Archive) (e : Event) (t : Archive) (h : s.Sound a) (hg : s.store.Gone)
    (hs : s.step a e = some t) : t.Sound a ∧ (t.store.Gone ↔ s.lasting e = true) := by
  have ht := sound_step s e t h hs
  refine ⟨ht, ?_⟩
  rw [gone_iff ht]
  have hkept := (gone_iff h).mp hg
  cases e with
  | turn e =>
    obtain ⟨t, htt, rfl⟩ := Option.map_eq_some_iff.mp hs
    refine ⟨fun _ => rfl, fun _ c m hl => ?_⟩
    rcases Store.lists_step h.filed htt hl with hl | ⟨d, body, hd, -, rfl⟩
    · exact hkept c m hl
    · exact Store.expiresAt_made hd body
  | backup =>
    cases hs
    exact ⟨fun _ => rfl, fun _ => hkept⟩
  | restore b =>
    simp only [step] at hs
    split at hs
    · rename_i hb
      cases hs
      have hr := Store.restored_restore b s.store
      simp only [lasting, List.all_eq_true, Bool.or_eq_true, Option.isNone_iff_eq_none,
        List.contains_iff_mem]
      constructor
      · intro hall p hp
        by_contra hnot
        push Not at hnot
        obtain ⟨hx, hk⟩ := hnot
        obtain ⟨q, hq, hqk, hl⟩ := hr.taken p hp hk
        obtain ⟨hfrom, hnone, hnamed⟩ := h.saved b hb q hq
        have horigin := hfrom.unique (h.saved b hb p hp).1 hqk
        have := hall _ _ (hl hnamed)
        rw [hnone, horigin] at this
        exact hx this.symm
      · intro hall c m hl
        rcases hr.added c m hl with hl | ⟨hm, hk⟩
        · exact hkept c m hl
        · rw [(h.saved b hb _ hm).2.1]
          rcases hall _ hm with hx | hs
          · exact hx.symm
          · exact absurd hs hk
    · cases hs

theorem start_archived (a : Account) (blocked : List String) (clock : Nat) :
    (start blocked clock).Sound a ∧ (start blocked clock).store.Gone := by
  refine ⟨⟨(Store.start_made a blocked clock).1, ?_, ?_, ?_⟩, ?_⟩
  · simp [start, Store.start, Store.Named]
  · simp [start, Store.start, Store.Lists]
  · simp [start]
  · simp [start, Store.start, Store.Gone, Store.Lists, Store.sweep]

/-- What has run out stays gone, whenever it is swept for, exactly as long as
nothing is restored that had a deadline and has been forgotten. -/
theorem gone_iff_lasting (a : Account) (blocked : List String) (clock : Nat)
    (es : List Event) {s : Archive} (hrun : run (step a) (start blocked clock) es = some s) :
    (∀ as u, as <+: es → run (step a) (start blocked clock) as = some u → u.store.Gone) ↔
      Meets (step a) (fun s e => s.lasting e = true) (start blocked clock) es := by
  obtain ⟨hs, hg⟩ := start_archived a blocked clock
  exact throughout_iff gone_step hs hg hrun

/-- A message that disappears at 50. -/
def fleeting : Envelope := ⟨1, "bob", .user "alice", some 50⟩

def reader : Account where
  name := "alice"
  relay := 0
  rows := .of [fleeting] (by decide) (by decide)
  pageSize := historyPage
  decode := fun _ _ => some ⟨0, .message, some "hi", none, true⟩

/-- It is read, and a backup is made. -/
def read : List Event :=
  [.turn (.arrive fleeting), .turn (.push ⟨fleeting, .convo (some 0), none⟩ false), .backup]

def copy : Backup :=
  ⟨[⟨.dm "bob", [(Message.made reader fleeting ⟨0, .message, some "hi", none, true⟩).saved]⟩], []⟩

/-- Restored before it has run out, the message is not taken from the backup. -/
def early : List Event := read ++ [.restore copy, .turn (.tick 60), .turn .sweep]

theorem gone_restored_early :
    ∃ s, run (step reader) (start [] 0) early = some s ∧
      ∀ as u, as <+: early → run (step reader) (start [] 0) as = some u → u.store.Gone :=
  ⟨_, rfl, (gone_iff_lasting reader [] 0 early rfl).mpr (by decide)⟩

/-- Restored after that, it is there for good. -/
theorem not_always_gone :
    ¬ ∀ (a : Account) (blocked : List String) (clock : Nat) (es : List Event) (s : Archive),
      run (step a) (start blocked clock) es = some s → s.store.Gone := by
  intro h
  have hs := h reader [] 0 (read ++ [.turn (.tick 60), .turn .sweep, .restore copy]) _ rfl 60
    (Nat.le_refl _) (.dm "bob") _ ⟨_, List.mem_singleton.mpr rfl, rfl, List.mem_singleton.mpr rfl⟩
  revert hs
  decide

end Archive

end Lattix.Client
