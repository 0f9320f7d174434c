import Lattix.Server.Staffing
import Lattix.Server.Requests

namespace Lattix.Server
open Lib.Transactions Lib.Json

namespace Tables

def withAvatar (u : String) (avatar : Option String) (t : Tables) : Tables :=
  { t with users := t.users.map fun r => if r.username == u then { r with avatar := avatar } else r }

def withEnvelope (row : EnvelopeRow) (t : Tables) : Tables :=
  { t with
    envelopes := t.envelopes ++ [{ row with id := t.envelopeSeq + 1 }]
    envelopeSeq := t.envelopeSeq + 1 }

def withGroupEnvelope (row : GroupEnvelopeRow) (t : Tables) : Tables :=
  { t with
    groupEnvelopes := t.groupEnvelopes ++ [{ row with id := t.groupEnvelopeSeq + 1 }]
    groupEnvelopeSeq := t.groupEnvelopeSeq + 1 }

def withFile (row : FileRow) (t : Tables) : Tables := { t with files := t.files ++ [row] }

def withGroup (row : GroupRow) (t : Tables) : Tables :=
  { t with
    groups := t.groups ++ [{ row with id := t.groupSeq + 1 }]
    groupSeq := t.groupSeq + 1 }

def withMembers (g now : Nat) (us : List String) (t : Tables) : Tables :=
  { t with groupMembers := t.groupMembers ++ us.map fun u => ⟨g, u, now⟩ }

def withMember (row : MemberRow) (t : Tables) : Tables :=
  if t.hasMember row.groupId row.username then t
  else { t with groupMembers := t.groupMembers ++ [row] }

def owns (u : String) (g : Nat) (t : Tables) : Bool :=
  t.groups.any fun r => r.id == g && r.owner == u

/-- The tables after `u` has left group `g`. -/
def left (g : Nat) (u : String) (t : Tables) : Tables :=
  if t.owns u g then
    match successor g u t with
    | some heir => (t.withoutMember g u).withOwner g heir
    | none => (t.withoutMember g u).dropGroups fun r => r.id == g
  else t.withoutMember g u

def uploadedBy (u fileId : String) (t : Tables) : Bool :=
  t.files.any fun f => f.id == fileId && f.owner == u

def canAccess (u fileId : String) (t : Tables) : Bool :=
  t.files.any (fun f => f.id == fileId && f.owner == u) ||
  t.envelopes.any (fun e => e.fileId == some fileId && (e.sender == u || e.recipient == u)) ||
  t.groupEnvelopes.any fun e => e.fileId == some fileId && t.hasMember e.groupId u

/-- A group as `get_group` shows it. -/
def shown (g : Nat) (t : Tables) : Option Group :=
  (t.groups.find? fun r => r.id == g).map fun r =>
    let rows := (t.groupMembers.filter fun m => m.groupId == g).filterMap fun m =>
      t.users.find? fun u => u.username == m.username
    ⟨r.id, r.name, r.icon, r.owner, r.createdAt,
      (rows.insertionSort fun a b => a.username ≤ b.username).map fun u =>
        ⟨u.username, u.kemPublicKey, u.dsaPublicKey, u.fingerprint, u.avatar⟩⟩

end Tables

/-- The answers from which something follows about the tables. -/
def telling : Request → Response → Bool
  | _, .uploaded _ => true
  | _, .envelope _ => true
  | _, .groupEnvelope _ => true
  | .createGroup .., .group _ => true
  | .addMember .., .group _ => true
  | .deleteAccount, .ok => true
  | _, .content .. => true
  | _, _ => false

/-! The rows that the send endpoints write -/

section rows
variable (R : Runtime) (d : Draws) (me : String)

def messageRow (m : SendMessageRequest) : EnvelopeRow :=
  ⟨0, me, m.recipient, .message, payloadText R m.payload, none, expiry d m.ttl, d.storedAt⟩

def fileMessageRow (m : SendFileMessageRequest) : EnvelopeRow :=
  ⟨0, me, m.recipient, .file, payloadText R (filePayload m.fileId m.filename m.mime m.size m.payload),
    some m.fileId, expiry d m.ttl, d.storedAt⟩

def groupMessageRow (g : Nat) (m : GroupMessageRequest) : GroupEnvelopeRow :=
  ⟨0, g, me, .message, payloadText R m.payload, none, expiry d m.ttl, d.storedAt⟩

def groupFileRow (g : Nat) (m : GroupFileMessageRequest) : GroupEnvelopeRow :=
  ⟨0, g, me, .file, payloadText R (filePayload m.fileId m.filename m.mime m.size m.payload),
    some m.fileId, expiry d m.ttl, d.storedAt⟩

end rows

/-- The envelope a row becomes. -/
def Tables.sent (t : Tables) (row : EnvelopeRow) : Envelope :=
  rowToEnvelope { row with id := t.envelopeSeq + 1 }

def Tables.groupSent (t : Tables) (row : GroupEnvelopeRow) : GroupEnvelope :=
  rowToGroupEnvelope { row with id := t.groupEnvelopeSeq + 1 }

/-- What a handler run for `me` can come to: its answer, and the tables then. -/
inductive Outcome (R : Runtime) (d : Draws) (me : String) (t : Tables) :
    Request → Response → Tables → Prop where
  | looked {req : Request} {r : Response} (h : telling req r = false) : Outcome R d me t req r t
  | avatar {avatar : Option String} :
    Outcome R d me t (.setAvatar avatar) (.avatar avatar) (t.withAvatar me avatar)
  | deleted : Outcome R d me t .deleteAccount .ok (t.withoutUser me)
  | message {m : SendMessageRequest} (hr : t.hasUser m.recipient = true) :
    Outcome R d me t (.sendMessage m) (.envelope (t.sent (messageRow R d me m)))
      (t.withEnvelope (messageRow R d me m))
  | fileMessage {m : SendFileMessageRequest} (hr : t.hasUser m.recipient = true)
    (ho : t.uploadedBy me m.fileId = true) :
    Outcome R d me t (.sendFileMessage m) (.envelope (t.sent (fileMessageRow R d me m)))
      (t.withEnvelope (fileMessageRow R d me m))
  | groupMessage {g : Nat} {m : GroupMessageRequest} (hm : t.hasMember g me = true) :
    Outcome R d me t (.sendGroupMessage g m)
      (.groupEnvelope (t.groupSent (groupMessageRow R d me g m)))
      (t.withGroupEnvelope (groupMessageRow R d me g m))
  | groupFile {g : Nat} {m : GroupFileMessageRequest} (hm : t.hasMember g me = true)
    (ho : t.uploadedBy me m.fileId = true) :
    Outcome R d me t (.sendGroupFile g m) (.groupEnvelope (t.groupSent (groupFileRow R d me g m)))
      (t.withGroupEnvelope (groupFileRow R d me g m))
  | created {name : String} {members : List String} {icon : Option String} {g : Group}
    (hg : g.id = t.groupSeq + 1) :
    Outcome R d me t (.createGroup name members icon) (.group g)
      ((t.withGroup ⟨0, name, icon, me, d.storedAt⟩).withMembers (t.groupSeq + 1) d.storedAt
        (walked d me (members.filter fun m => t.hasUser m)))
  | joined {groupId : Nat} {username : String} {g : Group} (hg : t.hasGroup groupId = true)
    (hu : t.hasUser username = true) :
    Outcome R d me t (.addMember groupId username) (.group g)
      (t.withMember ⟨groupId, username, d.storedAt⟩)
  | left {groupId : Nat} {username : String} (hm : t.hasMember groupId me = true)
    (ho : t.owns me groupId = true ∨ R.lower username = me) :
    Outcome R d me t (.removeMember groupId username) .ok (t.left groupId (R.lower username))
  | uploaded {chunks : List (List UInt8)} {size : Int} {row : FileRow} (hi : row.id = d.fileId)
    (ho : row.owner = me) :
    Outcome R d me t (.uploadFile chunks size) (.uploaded d.fileId) (t.withFile row)
  | downloaded {fileId : String} {f : FileRow} (hf : f ∈ t.files) (hi : f.id = fileId)
    (ha : t.canAccess me fileId = true) :
    Outcome R d me t (.downloadFile fileId) (.content f.ciphertext f.size) t

/-! The statements that go through -/

namespace Tables
variable {t : Tables}

theorem insertEnvelope_ok {row : EnvelopeRow} (hs : t.hasUser row.sender = true)
    (hr : t.hasUser row.recipient = true) :
    t.insertEnvelope row = .ok (t.withEnvelope row, t.envelopeSeq + 1) := by
  simp [insertEnvelope, withEnvelope, hs, hr]

theorem insertGroupEnvelope_ok {row : GroupEnvelopeRow} (hg : t.hasGroup row.groupId = true)
    (hs : t.hasUser row.sender = true) :
    t.insertGroupEnvelope row = .ok (t.withGroupEnvelope row, t.groupEnvelopeSeq + 1) := by
  simp [insertGroupEnvelope, withGroupEnvelope, hg, hs]

theorem insertFile_ok {row : FileRow} (hf : ∀ f ∈ t.files, f.id ≠ row.id)
    (hu : t.hasUser row.owner = true) : t.insertFile row = .ok (t.withFile row, ()) := by
  have hn : t.files.any (fun f => f.id == row.id) = false := by
    simpa [List.any_eq_false] using hf
  simp [insertFile, withFile, hn, hu]

theorem insertGroup_ok {row : GroupRow} (hu : t.hasUser row.owner = true) :
    t.insertGroup row = .ok (t.withGroup row, t.groupSeq + 1) := by
  simp [insertGroup, withGroup, hu]

theorem insertMember_ok {row : MemberRow} (hg : t.hasGroup row.groupId = true)
    (hu : t.hasUser row.username = true) : t.insertMember row = .ok (t.withMember row, ()) := by
  unfold insertMember withMember
  split
  · rfl
  · simp [hg, hu]

theorem updateOwner_ok {g : Nat} {u : String} (hu : t.hasUser u = true) :
    t.updateOwner g u = .ok (t.withOwner g u, ()) := by
  simp [updateOwner, withOwner, hu]

end Tables

/-! The storage functions with nothing pending -/

section yields
variable {t : Tables}

theorem userExists_yields (u : String) : Yields (userExists u) t (t.hasUser u) t := by
  have hu : (t.users.find? fun r => r.username == u).isSome = t.hasUser u := by
    rw [Bool.eq_iff_iff, List.find?_isSome]
    simp [Tables.hasUser]
  rw [← hu]
  exact .bind (.query _ t) (.pure t _)

theorem fileOwnedBy_yields (fileId u : String) :
    Yields (fileOwnedBy fileId u) t (t.uploadedBy u fileId) t := .query _ t

theorem requireGroupMember_yields (me : String) (g : Nat) :
    Yields (requireGroupMember me g) t (if t.hasMember g me then t.shown g else none) t := by
  refine .bind (Yields.query (Tables.shown g) t) ?_
  cases hs : t.shown g with
  | none =>
    rw [ite_self]
    exact .pure t _
  | some group =>
    refine .bind (.query _ t) ?_
    cases hm : t.hasMember g me <;> exact .pure t _

theorem shown_some {g : Nat} {group : Group} (h : t.shown g = some group) :
    ∃ r ∈ t.groups, r.id = g ∧ group.owner = r.owner := by
  obtain ⟨r, hr, hg⟩ := Option.map_eq_some_iff.mp h
  cases hg
  exact ⟨r, List.mem_of_find?_eq_some hr, by simpa using List.find?_some hr, rfl⟩

theorem storeEnvelope_yields (row : EnvelopeRow) (hs : t.hasUser row.sender = true)
    (hr : t.hasUser row.recipient = true) :
    Yields (storeEnvelope row.sender row.recipient row.kind row.payload row.fileId row.expiresAt
      row.createdAt) t (t.sent row) (t.withEnvelope row) :=
  .store (Tables.insertEnvelope_ok hs hr) (.pure _ _)

theorem storeGroupEnvelope_yields (row : GroupEnvelopeRow) (hg : t.hasGroup row.groupId = true)
    (hs : t.hasUser row.sender = true) :
    Yields (storeGroupEnvelope row.groupId row.sender row.kind row.payload row.fileId row.expiresAt
      row.createdAt) t (t.groupSent row) (t.withGroupEnvelope row) :=
  .store (Tables.insertGroupEnvelope_ok hg hs) (.pure _ _)

theorem removeGroupMember_yields (g : Nat) (u : String) :
    Yields (removeGroupMember g u) t () (t.withoutMember g u) := .store_last (a := ()) rfl

theorem deleteGroup_yields (g : Nat) :
    Yields (deleteGroup g) t () (t.dropGroups fun r => r.id == g) := .store_last (a := ()) rfl

theorem setGroupOwner_yields {g : Nat} {u : String} (h : t.hasUser u = true) :
    Yields (setGroupOwner g u) t () (t.withOwner g u) := .store_last (Tables.updateOwner_ok h)

theorem addGroupMember_yields {g now : Nat} {u : String} (hg : t.hasGroup g = true)
    (hu : t.hasUser u = true) :
    Yields (addGroupMember g u now) t () (t.withMember ⟨g, u, now⟩) :=
  .store_last (Tables.insertMember_ok hg hu)

theorem storeFile_yields {fid u : String} {data : List UInt8} {size now : Nat}
    (hf : ∀ f ∈ t.files, f.id ≠ fid) (hu : t.hasUser u = true) :
    Yields (storeFile fid u data size now) t () (t.withFile ⟨fid, u, data, size, now⟩) :=
  .store_last (Tables.insertFile_ok hf hu)

theorem deleteUser_yields (h : t.Valid) (u : String) :
    ∃ touched, Yields (deleteUser u) t touched (t.withoutUser u) :=
  deleteUser_run u (c := Conn.fresh t) h rfl

theorem existing_yields (members : List String) :
    Yields (existing members) t (members.filter fun m => t.hasUser m) t := by
  induction members with
  | nil => exact .pure t _
  | cons m ms ih =>
    refine .bind (userExists_yields m) (.bind ih ?_)
    rw [List.filter_cons]
    cases t.hasUser m <;> exact .pure t _

/-- A new group's roster, written row by row. -/
theorem insertMembers_run {g now : Nat} {us : List String} {c : Conn Tables}
    (ht : c.inTransaction = true) (hg : c.working.hasGroup g = true)
    (hu : ∀ u ∈ us, c.working.hasUser u = true) (hn : us.Nodup)
    (hm : ∀ u ∈ us, c.working.hasMember g u = false) :
    (us.forM fun u => write (Tables.insertMember ⟨g, u, now⟩)) c =
      (.ok (), { c with working := c.working.withMembers g now us }) := by
  induction us generalizing c with
  | nil =>
    obtain ⟨committed, working, open_⟩ := c
    simp only [Tables.withMembers, List.map_nil, List.append_nil]
    rfl
  | cons u us ih =>
    obtain ⟨committed, working, open_⟩ := c
    subst ht
    obtain ⟨hnu, hn⟩ := List.nodup_cons.mp hn
    have hi : working.insertMember ⟨g, u, now⟩ = .ok (working.withMembers g now [u], ()) := by
      rw [Tables.insertMember_ok hg (hu u List.mem_cons_self), Tables.withMember,
        if_neg (by simp [hm u List.mem_cons_self])]
      rfl
    have hrest := ih (c := ⟨committed, working.withMembers g now [u], true⟩) rfl hg
      (fun v hv => hu v (List.mem_cons_of_mem _ hv)) hn (fun v hv => ?_)
    · refine (bind_ok (write_ok hi) _).trans (hrest.trans ?_)
      simp [Tables.withMembers]
    · have hne : u ≠ v := fun he => hnu (he ▸ hv)
      have hv := hm v (List.mem_cons_of_mem _ hv)
      simp only [Tables.hasMember, Tables.withMembers, List.any_append, Bool.or_eq_false_iff] at hv ⊢
      exact ⟨hv, by simp [hne]⟩

theorem createGroup_yields (h : t.Valid) {me : String} {roster : List String} (name : String)
    (icon : Option String) (now : Nat) (hme : t.hasUser me = true)
    (hu : ∀ u ∈ roster, t.hasUser u = true) (hn : roster.Nodup) :
    ∃ g, g.id = t.groupSeq + 1 ∧ Yields (createGroup name me roster icon now) t (some g)
      ((t.withGroup ⟨0, name, icon, me, now⟩).withMembers (t.groupSeq + 1) now roster) := by
  let t' := t.withGroup ⟨0, name, icon, me, now⟩
  have hnone : ∀ r ∈ t.groups, r.id ≠ t.groupSeq + 1 := by
    intro r hr he
    have := h.groupSeq r hr
    omega
  have hg : t'.hasGroup (t.groupSeq + 1) = true := by
    simp [t', Tables.hasGroup, Tables.withGroup]
  have hm : ∀ u ∈ roster, t'.hasMember (t.groupSeq + 1) u = false := by
    intro u _
    rw [← Bool.not_eq_true, Tables.hasMember_iff]
    rintro ⟨m, hm, hid, -⟩
    have hmg := h.memberGroup m hm
    obtain ⟨r, hr, he⟩ := Tables.hasGroup_iff.mp hmg
    exact hnone r hr (he.trans hid)
  have hmem := @insertMembers_run _ now _ ⟨t, t', true⟩ rfl hg hu hn hm
  have hi : t.insertGroup ⟨0, name, icon, me, now⟩ = .ok (t', t.groupSeq + 1) :=
    Tables.insertGroup_ok hme
  have hw := write_ok (c := Conn.fresh t) hi
  have hfind : t'.groups.find? (fun r => r.id == t.groupSeq + 1) =
      some ⟨t.groupSeq + 1, name, icon, me, now⟩ := by
    simp only [t', Tables.withGroup, List.find?_append]
    rw [List.find?_eq_none.mpr (by simpa using hnone)]
    simp
  have hshown : ∃ g, g.id = t.groupSeq + 1 ∧
      (t'.withMembers (t.groupSeq + 1) now roster).shown (t.groupSeq + 1) = some g := by
    have hf : (t'.withMembers (t.groupSeq + 1) now roster).groups.find?
        (fun r => r.id == t.groupSeq + 1) = some ⟨t.groupSeq + 1, name, icon, me, now⟩ := hfind
    rw [Tables.shown, hf]
    exact ⟨_, rfl, rfl⟩
  obtain ⟨g, hid, hs⟩ := hshown
  refine ⟨g, hid, ?_⟩
  have hrun := (bind_ok hw fun gid => (roster.forM fun u =>
    write (Tables.insertMember ⟨gid, u, now⟩)) >>= fun _ => commit >>= fun _ => getGroup gid).trans
    ((bind_ok hmem _).trans (commit_bind _ _))
  refine hrun.trans ?_
  rw [← hs]
  rfl

end yields

theorem looks {R : Runtime} {d : Draws} {me : String} {t : Tables} {req : Request} {r : Response}
    {x : Db Response} (hx : Yields x t r t) (h : telling req r = false) :
    ∃ r t', Yields x t r t' ∧ Outcome R d me t req r t' := ⟨r, t, hx, .looked h⟩

theorem walked_mem {d : Draws} {me : String} {members : List String} {u : String} :
    u ∈ walked d me members ↔ u = me ∨ u ∈ members := by
  unfold walked
  split
  · rename_i h
    rw [(List.isPerm_iff.mp h).mem_iff, List.mem_dedup, List.mem_cons]
  · rw [List.mem_dedup, List.mem_cons]

theorem walked_nodup (d : Draws) (me : String) (members : List String) :
    (walked d me members).Nodup := by
  unfold walked
  split
  · rename_i h
    exact (List.isPerm_iff.mp h).nodup_iff.mpr (List.nodup_dedup _)
  · exact List.nodup_dedup _

section outcomes
variable {R : Runtime} {d : Draws} {me : String} {t : Tables}

theorem sendMessage_outcome (hme : t.hasUser me = true) (m : SendMessageRequest) :
    ∃ r t', Yields (sendMessageRequest R d me m) t r t' ∧ Outcome R d me t (.sendMessage m) r t' := by
  cases hu : t.hasUser m.recipient with
  | false =>
    refine looks (r := noRecipient) (.bind (userExists_yields m.recipient) ?_) rfl
    rw [hu]
    exact .pure t _
  | true =>
    refine ⟨_, _, .bind (userExists_yields m.recipient) ?_, .message hu⟩
    rw [hu]
    exact .bind (storeEnvelope_yields (messageRow R d me m) hme hu) (.pure _ _)

theorem sendFileMessage_outcome (hme : t.hasUser me = true) (m : SendFileMessageRequest) :
    ∃ r t', Yields (sendFileMessageRequest R d me m) t r t' ∧
      Outcome R d me t (.sendFileMessage m) r t' := by
  cases hu : t.hasUser m.recipient with
  | false =>
    refine looks (r := noRecipient) (.bind (userExists_yields m.recipient) ?_) rfl
    rw [hu]
    exact .pure t _
  | true =>
    cases ho : t.uploadedBy me m.fileId with
    | false =>
      refine looks (r := noFile) (.bind (userExists_yields m.recipient) ?_) rfl
      rw [hu]
      refine .bind (fileOwnedBy_yields m.fileId me) ?_
      rw [ho]
      exact .pure t _
    | true =>
      refine ⟨_, _, .bind (userExists_yields m.recipient) ?_, .fileMessage hu ho⟩
      rw [hu]
      refine .bind (fileOwnedBy_yields m.fileId me) ?_
      rw [ho]
      exact .bind (storeEnvelope_yields (fileMessageRow R d me m) hme hu) (.pure _ _)

theorem createGroup_outcome (h : t.Valid) (hme : t.hasUser me = true) (name : String)
    (members : List String) (icon : Option String) :
    ∃ r t', Yields (createGroupRequest d me name members icon) t r t' ∧
      Outcome R d me t (.createGroup name members icon) r t' := by
  have hu : ∀ u ∈ walked d me (members.filter fun m => t.hasUser m), t.hasUser u = true := by
    intro u hu
    rcases walked_mem.mp hu with rfl | hu
    · exact hme
    · exact (List.mem_filter.mp hu).2
  obtain ⟨g, hg, hy⟩ := createGroup_yields h name icon d.storedAt hme hu (walked_nodup d me _)
  exact ⟨.group g, _, .bind (existing_yields members) (.bind hy (.pure _ _)), .created hg⟩

/-- A handler that goes on only for members of the group. -/
theorem member_outcome {req : Request} {groupId : Nat} {f : Group → Db Response}
    (hno : telling req noGroup = false)
    (hf : ∀ group, t.hasMember groupId me = true → t.shown groupId = some group →
      ∃ r t', Yields (f group) t r t' ∧ Outcome R d me t req r t') :
    ∃ r t', Yields (requireGroupMember me groupId >>= fun found =>
      match found with
      | none => pure noGroup
      | some group => f group) t r t' ∧ Outcome R d me t req r t' := by
  have hr := requireGroupMember_yields (t := t) me groupId
  cases hm : t.hasMember groupId me with
  | false =>
    rw [hm] at hr
    exact looks (hr.bind (.pure t _)) hno
  | true =>
    rw [hm] at hr
    cases hs : t.shown groupId with
    | none =>
      rw [hs] at hr
      exact looks (hr.bind (.pure t _)) hno
    | some group =>
      rw [hs] at hr
      obtain ⟨r, t', hy, ho⟩ := hf group hm hs
      exact ⟨r, t', hr.bind hy, ho⟩

theorem hasGroup_of_shown {g : Nat} {group : Group} (h : t.shown g = some group) :
    t.hasGroup g = true := by
  obtain ⟨r, hr, hid, -⟩ := shown_some h
  exact Tables.hasGroup_iff.mpr ⟨r, hr, hid⟩

theorem sendGroupMessage_outcome (hme : t.hasUser me = true) (g : Nat) (m : GroupMessageRequest) :
    ∃ r t', Yields (sendGroupMessageRequest R d me g m) t r t' ∧
      Outcome R d me t (.sendGroupMessage g m) r t' := by
  refine member_outcome rfl fun group hm hs => ?_
  exact ⟨_, _, .bind (storeGroupEnvelope_yields (groupMessageRow R d me g m)
    (hasGroup_of_shown hs) hme) (.pure _ _), .groupMessage hm⟩

theorem sendGroupFile_outcome (hme : t.hasUser me = true) (g : Nat) (m : GroupFileMessageRequest) :
    ∃ r t', Yields (sendGroupFileRequest R d me g m) t r t' ∧
      Outcome R d me t (.sendGroupFile g m) r t' := by
  refine member_outcome rfl fun group hm hs => ?_
  have hown := fileOwnedBy_yields (t := t) m.fileId me
  cases ho : t.uploadedBy me m.fileId with
  | false =>
    rw [ho] at hown
    exact looks (hown.bind (.pure t _)) rfl
  | true =>
    rw [ho] at hown
    exact ⟨_, _, hown.bind (.bind (storeGroupEnvelope_yields (groupFileRow R d me g m)
      (hasGroup_of_shown hs) hme) (.pure _ _)), .groupFile hm ho⟩

theorem addMember_outcome (g : Nat) (username : String) :
    ∃ r t', Yields (addMemberRequest d me g username) t r t' ∧
      Outcome R d me t (.addMember g username) r t' := by
  refine member_outcome rfl fun group hm hs => ?_
  have hg := hasGroup_of_shown hs
  by_cases hown : group.owner ≠ me
  · rw [if_pos hown]
    exact looks (.pure t _) rfl
  rw [if_neg hown]
  have hu := userExists_yields (t := t) username
  cases hk : t.hasUser username with
  | false =>
    rw [hk] at hu
    exact looks (hu.bind (.pure t _)) rfl
  | true =>
    rw [hk] at hu
    have ha : Yields (addGroupMember g username d.storedAt) t () _ := addGroupMember_yields hg hk
    have hg' : ∃ updated, (t.withMember ⟨g, username, d.storedAt⟩).shown g = some updated := by
      have he : (t.withMember ⟨g, username, d.storedAt⟩).groups = t.groups := by
        unfold Tables.withMember
        split <;> rfl
      obtain ⟨r, hr, -⟩ := Option.map_eq_some_iff.mp hs
      rw [Tables.shown, he, hr]
      exact ⟨_, rfl⟩
    obtain ⟨updated, hup⟩ := hg'
    refine ⟨.group updated, _, hu.bind (ha.bind (Yields.bind (.query (Tables.shown g) _) ?_)),
      .joined hg hk⟩
    rw [hup]
    exact .pure _ _

theorem owns_of_shown (h : t.Valid) {g : Nat} {group : Group} (hs : t.shown g = some group)
    (u : String) : t.owns u g = decide (group.owner = u) := by
  obtain ⟨r, hr, hid, ho⟩ := shown_some hs
  rw [Bool.eq_iff_iff, decide_eq_true_iff]
  simp only [Tables.owns, List.any_eq_true, Bool.and_eq_true, beq_iff_eq]
  constructor
  · rintro ⟨r', hr', hid', rfl⟩
    have hrr : r' = r := List.inj_on_of_nodup_map h.groups hr' hr (hid'.trans hid.symm)
    exact ho.trans (congrArg GroupRow.owner hrr.symm)
  · rintro rfl
    exact ⟨r, hr, hid, ho.symm⟩

/-- Once the owner's row is gone, the oldest member is the one who follows. -/
theorem oldestGroupMember_yields (g : Nat) (u : String) :
    Yields (oldestGroupMember g) (t.withoutMember g u) (successor g u t) (t.withoutMember g u) := by
  have hf : (t.withoutMember g u).groupMembers.filter (fun m => m.groupId == g) =
      t.groupMembers.filter fun m => m.groupId == g && m.username != u := by
    rw [Tables.withoutMember, List.filter_filter]
    refine List.filter_congr fun m _ => ?_
    cases m.groupId == g <;> simp [bne]
  have hq := Yields.query (ε := SqlError) (fun t : Tables => (oldest (t.groupMembers.filter
    fun m => m.groupId == g)).map MemberRow.username) (t.withoutMember g u)
  rw [hf] at hq
  exact hq

theorem succeed_yields (h : t.Valid) (hn : t.hasUser "" = false) (g : Nat) (u : String) :
    Yields (succeed g) (t.withoutMember g u) () (match successor g u t with
      | some heir => (t.withoutMember g u).withOwner g heir
      | none => (t.withoutMember g u).dropGroups fun r => r.id == g) := by
  refine .bind (oldestGroupMember_yields g u) ?_
  cases hs : successor g u t with
  | none => exact deleteGroup_yields g
  | some heir =>
    have hu : t.hasUser heir = true := h.hasUser_of_member (successor_member hs).1
    have hne : heir ≠ "" := fun he => by simp [he, hn] at hu
    simp only [if_neg hne]
    exact setGroupOwner_yields hu

theorem shown_of_hasGroup {g : Nat} (h : t.hasGroup g = true) : ∃ group, t.shown g = some group := by
  obtain ⟨r, hr, hid⟩ := Tables.hasGroup_iff.mp h
  have hf : (t.groups.find? fun r => r.id == g).isSome = true :=
    List.find?_isSome.mpr ⟨r, hr, by simpa using hid⟩
  obtain ⟨r', hr'⟩ := Option.isSome_iff_exists.mp hf
  rw [Tables.shown, hr']
  exact ⟨_, rfl⟩

/-- A member leaves, or is removed by the owner. -/
theorem removeMember_yields (h : t.Valid) (hn : t.hasUser "" = false) {g : Nat} {username : String}
    (hm : t.hasMember g me = true) (ho : t.owns me g = true ∨ R.lower username = me) :
    Yields (removeMemberRequest R me g username) t .ok (t.left g (R.lower username)) := by
  obtain ⟨m, hmem, hid, -⟩ := Tables.hasMember_iff.mp hm
  obtain ⟨group, hs⟩ := shown_of_hasGroup (hid ▸ h.memberGroup m hmem)
  have how := owns_of_shown h hs
  have hr := requireGroupMember_yields (t := t) me g
  rw [hm, if_pos rfl, hs] at hr
  refine hr.bind ?_
  have hno : ¬(group.owner ≠ me ∧ R.lower username ≠ me) := by
    rw [how, decide_eq_true_iff] at ho
    tauto
  simp only [if_neg hno]
  refine .bind (removeGroupMember_yields g _) ?_
  by_cases hu : R.lower username = group.owner
  · rw [if_pos hu, Tables.left, how, if_pos (by simp [hu])]
    exact .bind (succeed_yields h hn g _) (.pure _ _)
  · rw [if_neg hu, Tables.left, how, if_neg (by simpa using fun he => hu he.symm)]
    exact .pure _ _

theorem removeMember_outcome (h : t.Valid) (hn : t.hasUser "" = false) (g : Nat)
    (username : String) : ∃ r t', Yields (removeMemberRequest R me g username) t r t' ∧
      Outcome R d me t (.removeMember g username) r t' := by
  by_cases ho : t.hasMember g me = true ∧ (t.owns me g = true ∨ R.lower username = me)
  · exact ⟨.ok, _, removeMember_yields h hn ho.1 ho.2, .left ho.1 ho.2⟩
  refine member_outcome rfl fun group hm hs => ?_
  have hno : group.owner ≠ me ∧ R.lower username ≠ me := by
    rw [owns_of_shown h hs, decide_eq_true_iff] at ho
    tauto
  rw [if_pos hno]
  exact looks (.pure t _) rfl

theorem uploadFile_outcome (hme : t.hasUser me = true) (hf : ∀ f ∈ t.files, f.id ≠ d.fileId)
    (chunks : List (List UInt8)) (size : Int) :
    ∃ r t', Yields (uploadFileRequest R d me chunks size) t r t' ∧
      Outcome R d me t (.uploadFile chunks size) r t' := by
  unfold uploadFileRequest
  split
  · exact looks (.pure t _) rfl
  · split
    · exact looks (.pure t _) rfl
    · rename_i data _
      have hout : Outcome R d me t (.uploadFile chunks size) (.uploaded d.fileId)
          (t.withFile ⟨d.fileId, me, data, size.toNat, d.storedAt⟩) := .uploaded rfl rfl
      exact ⟨_, _, .bind (storeFile_yields hf hme) (.pure _ _), hout⟩

theorem deleteAccount_outcome (h : t.Valid) :
    ∃ r t', Yields (deleteAccountRequest me) t r t' ∧ Outcome R d me t .deleteAccount r t' := by
  obtain ⟨touched, hd⟩ := deleteUser_yields h me
  exact ⟨.ok, _, .bind (.query _ t) (.bind hd (.pure _ _)), .deleted⟩

/-- With nothing pending and the caller's account in place, no handler raises,
and nothing is pending after it. -/
theorem handler_outcome (h : t.Valid) (hn : t.hasUser "" = false) (hme : t.hasUser me = true)
    (hf : ∀ f ∈ t.files, f.id ≠ d.fileId) (req : Request) :
    ∃ r t', Yields (handler R d me req) t r t' ∧ Outcome R d me t req r t' := by
  cases req with
  | register | login | logout => exact looks (r := .failed) (.pure t _) rfl
  | getPublicUser username =>
    have hq := Yields.query (ε := SqlError) (fun t : Tables => t.users.find? fun r =>
      r.username == R.lower username) t
    cases hs : t.users.find? fun r => r.username == R.lower username with
    | none =>
      rw [hs] at hq
      exact looks (hq.bind (.pure t _)) rfl
    | some u =>
      rw [hs] at hq
      exact looks (hq.bind (.pure t _)) rfl
  | searchUsers q =>
    show ∃ r t', Yields (searchUsersRequest R me q) t r t' ∧ _
    unfold searchUsersRequest
    split
    · exact looks (.pure t _) rfl
    · exact looks (.bind (.query _ t) (.pure t _)) rfl
  | me =>
    have hq := Yields.query (ε := SqlError) (fun t : Tables => t.users.find? fun r =>
      r.username == me) t
    cases hs : t.users.find? fun r => r.username == me with
    | none =>
      rw [hs] at hq
      exact looks (hq.bind (.pure t _)) rfl
    | some u =>
      rw [hs] at hq
      exact looks (hq.bind (.bind (.query _ t) (.bind (.query _ t) (.pure t _)))) rfl
  | setAvatar avatar =>
    exact ⟨_, _, .bind (.store_last (a := ()) rfl) (.pure _ _), .avatar⟩
  | deleteAccount => exact deleteAccount_outcome h
  | sendMessage m => exact sendMessage_outcome hme m
  | sendFileMessage m => exact sendFileMessage_outcome hme m
  | conversation peer since => exact looks (.bind (.query _ t) (.pure t _)) rfl
  | inbox since => exact looks (.bind (.query _ t) (.pure t _)) rfl
  | createGroup name members icon => exact createGroup_outcome h hme name members icon
  | listGroups => exact looks (.bind (.query _ t) (.pure t _)) rfl
  | getGroup g => exact member_outcome rfl fun group _ _ => looks (.pure t _) rfl
  | addMember g username => exact addMember_outcome g username
  | removeMember g username => exact removeMember_outcome h hn g username
  | sendGroupMessage g m => exact sendGroupMessage_outcome hme g m
  | sendGroupFile g m => exact sendGroupFile_outcome hme g m
  | groupMessages g since =>
    exact member_outcome rfl fun _ _ _ => looks (.bind (.query _ t) (.pure t _)) rfl
  | uploadFile chunks size => exact uploadFile_outcome hme hf chunks size
  | downloadFile f =>
    have ha := Yields.query (ε := SqlError) (Tables.canAccess me f) t
    have hg := Yields.query (ε := SqlError) (fun t : Tables => t.files.find? fun r => r.id == f) t
    cases hc : t.canAccess me f with
    | false =>
      rw [hc] at ha
      exact looks (ha.bind (.pure t _)) rfl
    | true =>
      rw [hc] at ha
      cases hs : t.files.find? fun r => r.id == f with
      | none =>
        rw [hs] at hg
        exact looks (ha.bind (hg.bind (.pure t _))) rfl
      | some r =>
        rw [hs] at hg
        have hout : Outcome R d me t (.downloadFile f) (.content r.ciphertext r.size) t :=
          .downloaded (List.mem_of_find?_eq_some hs) (by simpa using List.find?_some hs) hc
        exact ⟨_, t, ha.bind (hg.bind (.pure t _)), hout⟩

end outcomes

end Lattix.Server
