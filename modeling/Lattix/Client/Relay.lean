import Lattix.Client.Provenance
import Lattix.Server.Calls

namespace Lattix.Client
open Lib.Pages Lib.Runs Lib.Transactions
open Server (Tables EnvelopeRow GroupEnvelopeRow Call getConversation getGroupMessages listContacts
  listGroups exec runCalls runCalls_keeps exec_keeps_of)

variable {me : String} {pageSize : Nat} {t t' : Tables} {c : Conn Tables}

/-! What the client's side has of the relay's rows and answers -/

def fromRow (r : EnvelopeRow) : Envelope := ⟨r.id, r.sender, .user r.recipient, r.expiresAt⟩

def fromGroupRow (r : GroupEnvelopeRow) : Envelope := ⟨r.id, r.sender, .group r.groupId, r.expiresAt⟩

def fromEnvelope (e : Server.Envelope) : Envelope :=
  ⟨e.id, e.sender, .user e.recipient, e.expiresAt⟩

def fromGroupEnvelope (e : Server.GroupEnvelope) : Envelope :=
  ⟨e.id, e.sender, .group e.groupId, e.expiresAt⟩

@[simp] theorem fromRow_id (r : EnvelopeRow) : (fromRow r).id = r.id := rfl
@[simp] theorem fromRow_table (r : EnvelopeRow) : (fromRow r).table = .envelopes := rfl
@[simp] theorem fromGroupRow_id (r : GroupEnvelopeRow) : (fromGroupRow r).id = r.id := rfl
@[simp] theorem fromGroupRow_table (r : GroupEnvelopeRow) :
    (fromGroupRow r).table = .groupEnvelopes := rfl

def concerns (me : String) (r : EnvelopeRow) : Bool := r.sender == me || r.recipient == me

namespace Sync

/-- The part of the relay that the client's runs talk about is the user's share
of the tables. -/
structure Mirrors (me : String) (s : Sync) (t : Tables) : Prop where
  envelopes : s.stored.filter (fun e => e.table == .envelopes) =
    (t.envelopes.filter (concerns me)).map fromRow
  groupEnvelopes : s.stored.filter (fun e => e.table == .groupEnvelopes) =
    (t.groupEnvelopes.filter fun r => s.groups.contains r.groupId).map fromGroupRow
  next : s.next .envelopes ≤ t.envelopeSeq + 1
  nextGroup : s.next .groupEnvelopes ≤ t.groupEnvelopeSeq + 1
  groups : ∀ g, g ∈ s.groups ↔ t.hasMember g me = true

theorem start_mirrors {groups : List Nat} (blocked : List String)
    (hd : ∀ r ∈ t.envelopes, concerns me r = false)
    (hg : ∀ r ∈ t.groupEnvelopes, r.groupId ∉ groups)
    (hm : ∀ g, g ∈ groups ↔ t.hasMember g me = true) : (Sync.start groups blocked).Mirrors me t := by
  refine ⟨?_, ?_, Nat.le_add_left 1 _, Nat.le_add_left 1 _, hm⟩
  · have hn : t.envelopes.filter (concerns me) = [] := by simpa using hd
    rw [hn]
    rfl
  · have hn : t.groupEnvelopes.filter (fun r => groups.contains r.groupId) = [] := by simpa using hg
    change [] = (t.groupEnvelopes.filter fun r => groups.contains r.groupId).map fromGroupRow
    rw [hn]
    rfl

/-! Reading -/

theorem sorted_table {s : Sync} (h : s.Traced me) (k : Table) (p : Envelope → Bool) :
    ((s.stored.filter fun e => e.table == k).filter p).Pairwise fun a b => a.id ≤ b.id := by
  apply List.Pairwise.filter
  apply List.Pairwise.imp_of_mem _ (h.ids.filter _)
  intro a b ha hb hlt
  simp only [List.mem_filter, beq_iff_eq] at ha hb
  exact Nat.le_of_lt (hlt (ha.2.trans hb.2.symm))

/-- A conversation is in one table. -/
theorem filter_table (cid : Cid) (now : Nat) (s : Sync) :
    (s.stored.filter fun e => e.cid me == cid && !e.expired now) =
      (s.stored.filter fun e => e.table == cid.table).filter
        fun e => e.cid me == cid && !e.expired now := by
  rw [List.filter_filter]
  apply List.filter_congr
  intro e _
  by_cases hc : e.cid me = cid
  · simp [cid_table hc]
  · simp [hc]

theorem expired_due {now : Nat} {e : Envelope} : e.expired now = Tables.due now e.expires := by
  cases he : e.expires <;> simp [Envelope.expired, Tables.due, he]

/-- A page of a 1:1 conversation is what `get_conversation` returns. -/
theorem Mirrors.page_dm {s : Sync} (h : s.Mirrors me c.working) (ht : s.Traced me) (peer : String)
    (since limit now : Nat) : ∃ es, getConversation me peer since limit now c = (.ok es, c) ∧
      s.fetchPage me limit now (.dm peer) since = es.map fromEnvelope := by
  refine ⟨_, rfl, ?_⟩
  have hrows : ((c.working.envelopes.filter (concerns me)).filter fun r =>
        decide (since < r.id) && ((fromRow r).cid me == .dm peer && !(fromRow r).expired now)) =
      c.working.envelopes.filter fun r => decide (since < r.id) &&
        (r.sender == me && r.recipient == peer || r.sender == peer && r.recipient == me) &&
        !Tables.due now r.expiresAt := by
    rw [List.filter_filter]
    apply List.filter_congr
    intro r _
    rw [Bool.eq_iff_iff]
    simp only [Bool.and_eq_true, Bool.or_eq_true, beq_iff_eq, concerns, fromRow, Envelope.cid,
      expired_due, Cid.dm.injEq]
    by_cases hm : r.sender = me
    · simp only [hm, if_true]
      grind
    · simp only [hm, if_false]
      grind
  have hs := sorted_table ht .envelopes fun e => e.cid me == .dm peer && !e.expired now
  rw [h.envelopes] at hs
  rw [fetchPage, filter_table, Cid.table, h.envelopes, page_map hs, List.map_map]
  exact congrArg (fun rows => ((rows.insertionSort fun a b => a.id ≤ b.id).take limit).map fromRow)
    hrows

/-- The same for a group the user is in. -/
theorem Mirrors.page_group {s : Sync} (h : s.Mirrors me c.working) (ht : s.Traced me) {g : Nat}
    (hg : g ∈ s.groups) (since limit now : Nat) :
    ∃ es, getGroupMessages g since limit now c = (.ok es, c) ∧
      s.fetchPage me limit now (.group g) since = es.map fromGroupEnvelope := by
  refine ⟨_, rfl, ?_⟩
  have hrows : ((c.working.groupEnvelopes.filter fun r => s.groups.contains r.groupId).filter
        fun r => decide (since < r.id) &&
          ((fromGroupRow r).cid me == .group g && !(fromGroupRow r).expired now)) =
      c.working.groupEnvelopes.filter fun r => r.groupId == g && decide (since < r.id) &&
        !Tables.due now r.expiresAt := by
    rw [List.filter_filter]
    apply List.filter_congr
    intro r _
    rw [Bool.eq_iff_iff]
    simp only [Bool.and_eq_true, beq_iff_eq, List.contains_iff_mem, fromGroupRow, Envelope.cid,
      expired_due, Cid.group.injEq]
    grind
  have hs := sorted_table ht .groupEnvelopes fun e => e.cid me == .group g && !e.expired now
  rw [h.groupEnvelopes] at hs
  rw [fetchPage, filter_table, Cid.table, h.groupEnvelopes, page_map hs, List.map_map]
  exact congrArg
    (fun rows => ((rows.insertionSort fun a b => a.id ≤ b.id).take limit).map fromGroupRow) hrows

theorem Mirrors.mem_dm {s : Sync} (h : s.Mirrors me t) {e : Envelope} (hk : e.table = .envelopes) :
    e ∈ s.stored ↔ ∃ r ∈ t.envelopes, concerns me r = true ∧ fromRow r = e := by
  have hm : e ∈ s.stored ↔ e ∈ s.stored.filter fun e => e.table == .envelopes := by
    simp [List.mem_filter, hk]
  rw [hm, h.envelopes]
  simp [List.mem_map, List.mem_filter, and_assoc]

theorem Mirrors.mem_contacts_dm {s : Sync} (h : s.Mirrors me t) {u : String} :
    .dm u ∈ s.contacts me ↔ u ≠ me ∧
      ∃ r ∈ t.envelopes, r.sender = me ∧ r.recipient = u ∨ r.recipient = me ∧ r.sender = u := by
  have hd : .dm u ∈ s.contacts me ↔ u ≠ me ∧ ∃ e ∈ s.stored, e.cid me = .dm u := by
    simp [Sync.contacts, Cid.table, and_comm]
  rw [hd]
  refine and_congr_right fun hu => ⟨?_, ?_⟩
  · rintro ⟨e, he, hc⟩
    obtain ⟨r, hr, hcon, rfl⟩ := (h.mem_dm (cid_table hc)).mp he
    simp only [concerns, Bool.or_eq_true, beq_iff_eq] at hcon
    refine ⟨r, hr, ?_⟩
    by_cases hs : r.sender = me
    · left
      simpa [fromRow, Envelope.cid, hs] using hc
    · right
      exact ⟨hcon.resolve_left hs, by simpa [fromRow, Envelope.cid, hs] using hc⟩
  · rintro ⟨r, hr, hcase⟩
    refine ⟨fromRow r, (h.mem_dm rfl).mpr ⟨r, hr, ?_, rfl⟩, ?_⟩
    · rcases hcase with ⟨hs, _⟩ | ⟨hs, _⟩
      · simp [concerns, hs]
      · simp [concerns, hs]
    · rcases hcase with ⟨hs, rfl⟩ | ⟨_, rfl⟩
      · simp [fromRow, Envelope.cid, hs]
      · simp [fromRow, Envelope.cid, hu]

/-- The conversations a client is told about are the contacts and the groups of
`GET /api/me`. -/
theorem Mirrors.contacts {s : Sync} (h : s.Mirrors me c.working) (ht : c.working.Valid) :
    ∃ us gs, listContacts me c = (.ok us, c) ∧ listGroups me c = (.ok gs, c) ∧
      ∀ cid, cid ∈ s.contacts me ↔ (∃ u ∈ us, cid = .dm u) ∨ ∃ g ∈ gs, cid = .group g.id := by
  refine ⟨_, _, rfl, rfl, ?_⟩
  intro cid
  cases cid with
  | dm u =>
    rw [h.mem_contacts_dm]
    simp only [reduceCtorEq, and_false, exists_false, or_false, Cid.dm.injEq, exists_eq_right',
      List.mem_filter, List.mem_dedup, List.mem_append, List.mem_map, bne_iff_ne, beq_iff_eq]
    grind
  | group g =>
    have hg : .group g ∈ s.contacts me ↔ c.working.hasMember g me = true := by
      rw [← h.groups]
      simp [Sync.contacts, Cid.table]
    rw [hg]
    simp only [reduceCtorEq, and_false, exists_false, false_or, List.mem_map,
      List.mem_insertionSort, List.mem_filter, Cid.group.injEq]
    constructor
    · intro hm
      obtain ⟨m, hmem, rfl, _⟩ := Tables.hasMember_iff.mp hm
      obtain ⟨r, hr, he⟩ := Tables.hasGroup_iff.mp (ht.memberGroup m hmem)
      exact ⟨_, ⟨r, ⟨hr, he ▸ hm⟩, rfl⟩, he.symm⟩
    · rintro ⟨_, ⟨r, ⟨_, hm⟩, rfl⟩, rfl⟩
      exact hm

/-! Writing -/

/-- An envelope of the user's that the relay stores is a post of the model. -/
theorem Mirrors.post_dm {s : Sync} {row : EnvelopeRow} {n : Nat} (h : s.Mirrors me t)
    (hi : Tables.insertEnvelope row t = .ok (t', n)) (hme : concerns me row = true) (pageSize : Nat)
    (own : Bool) (ho : own = true → row.sender = me) :
    ∃ s', s.step me pageSize (.post (fromRow { row with id := n }) own) = some s' ∧
      s'.Mirrors me t' := by
  unfold Tables.insertEnvelope at hi
  split at hi
  · cases hi
    have hcon : concerns me { row with id := t.envelopeSeq + 1 } = true := hme
    have hacc : s.accepts me (fromRow { row with id := t.envelopeSeq + 1 }) = true := by
      simp only [accepts, Bool.and_eq_true, decide_eq_true_eq]
      exact ⟨h.next, hme⟩
    refine ⟨_, if_pos ⟨hacc, ho⟩, ?_, ?_, ?_, ?_, h.groups⟩
    · simp [h.envelopes, hcon]
    · simpa using h.groupEnvelopes
    · simp
    · simpa using h.nextGroup
  · cases hi

/-- What others write to each other takes up numbers, no more. -/
theorem Mirrors.post_other {s : Sync} {row : EnvelopeRow} {n : Nat} (h : s.Mirrors me t)
    (hi : Tables.insertEnvelope row t = .ok (t', n)) (hme : concerns me row = false) :
    s.Mirrors me t' := by
  unfold Tables.insertEnvelope at hi
  split at hi
  · cases hi
    have hcon : concerns me { row with id := t.envelopeSeq + 1 } = false := hme
    refine ⟨?_, h.groupEnvelopes, Nat.le_succ_of_le h.next, h.nextGroup, h.groups⟩
    simpa [List.filter_append, hcon] using h.envelopes
  · cases hi

theorem Mirrors.post_group {s : Sync} {row : GroupEnvelopeRow} {n : Nat} (h : s.Mirrors me t)
    (hi : Tables.insertGroupEnvelope row t = .ok (t', n)) (hg : row.groupId ∈ s.groups)
    (pageSize : Nat) (own : Bool) (ho : own = true → row.sender = me) :
    ∃ s', s.step me pageSize (.post (fromGroupRow { row with id := n }) own) = some s' ∧
      s'.Mirrors me t' := by
  unfold Tables.insertGroupEnvelope at hi
  split at hi
  · cases hi
    have hacc : s.accepts me (fromGroupRow { row with id := t.groupEnvelopeSeq + 1 }) = true := by
      simp only [accepts, Bool.and_eq_true, decide_eq_true_eq]
      exact ⟨h.nextGroup, List.contains_iff_mem.mpr hg⟩
    refine ⟨_, if_pos ⟨hacc, ho⟩, ?_, ?_, ?_, ?_, h.groups⟩
    · simpa using h.envelopes
    · simpa [hg] using h.groupEnvelopes
    · simpa using h.next
    · simp
  · cases hi

theorem Mirrors.post_other_group {s : Sync} {row : GroupEnvelopeRow} {n : Nat} (h : s.Mirrors me t)
    (hi : Tables.insertGroupEnvelope row t = .ok (t', n)) (hg : row.groupId ∉ s.groups) :
    s.Mirrors me t' := by
  unfold Tables.insertGroupEnvelope at hi
  split at hi
  · cases hi
    refine ⟨h.envelopes, ?_, h.next, Nat.le_succ_of_le h.nextGroup, h.groups⟩
    simpa [List.filter_append, hg] using h.groupEnvelopes
  · cases hi

/-- The tables are those of a state that the model can get to from `s`. -/
def Reflected (me : String) (pageSize : Nat) (s : Sync) (t : Tables) : Prop :=
  ∃ es u, run (Sync.step me pageSize) s es = some u ∧ u.Mirrors me t

/-- The calls that take no envelope away and change no roster. -/
def adds : Call → Bool
  | .deleteUser _ | .deleteExpired _ => false
  | k => !k.onGroups

theorem Reflected.statement {s : Sync} {k : Call} (hk : adds k = true) (h : s.Reflected me pageSize t)
    (hs : k.Statement t t') : s.Reflected me pageSize t' := by
  obtain ⟨es, u, hrun, hm⟩ := h
  cases k with
  | storeEnvelope =>
    obtain ⟨row, n, hi⟩ := hs
    cases hc : concerns me row with
    | false => exact ⟨es, u, hrun, hm.post_other hi hc⟩
    | true =>
      obtain ⟨v, hv, hm⟩ := hm.post_dm hi hc pageSize false nofun
      exact ⟨_, v, run_snoc hrun hv, hm⟩
  | storeGroupEnvelope =>
    obtain ⟨row, n, hi⟩ := hs
    by_cases hg : row.groupId ∈ u.groups
    · obtain ⟨v, hv, hm⟩ := hm.post_group hi hg pageSize false nofun
      exact ⟨_, v, run_snoc hrun hv, hm⟩
    · exact ⟨es, u, hrun, hm.post_other_group hi hg⟩
  | createUser =>
    obtain ⟨row, n, hi⟩ := hs
    unfold Tables.insertUser at hi
    split at hi
    · cases hi
    · cases hi
      exact ⟨es, u, hrun, { hm with }⟩
  | setAvatar =>
    obtain ⟨n, hi⟩ := hs
    cases hi
    exact ⟨es, u, hrun, { hm with }⟩
  | storeFile =>
    obtain ⟨row, n, hi⟩ := hs
    unfold Tables.insertFile at hi
    split at hi
    · cases hi
    · split at hi
      · cases hi
        exact ⟨es, u, hrun, { hm with }⟩
      · cases hi
  | deleteOrphanFiles =>
    obtain ⟨p, n, hi⟩ := hs
    cases hi
    exact ⟨es, u, hrun, { hm with }⟩
  | deleteUser | deleteExpired | createGroup | addGroupMember | setGroupOwner | deleteGroup
  | removeGroupMember => cases hk
  | _ => cases hs

/-- Whatever anyone stores and asks for, the relay's tables stay those of a run
of the model. -/
theorem reflected_run {s : Sync} {ks : List Call} (hk : ∀ k ∈ ks, adds k = true)
    (h : s.Mirrors me t) :
    ∃ es u, run (Sync.step me pageSize) s es = some u ∧
      u.Mirrors me (runCalls ks (.fresh t)).2.working := by
  have hkeeps : ∀ k ∈ ks, Keeps (s.Reflected me pageSize) (exec k) :=
    fun k hm => exec_keeps_of fun _ _ hr hs => hr.statement (hk k hm) hs
  have hstart : Lib.Transactions.Sound (s.Reflected me pageSize) (.fresh t) :=
    .fresh ⟨[], s, rfl, h⟩
  exact (runCalls_keeps hkeeps hstart).working

end Sync
end Lattix.Client
