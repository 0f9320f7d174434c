import Mathlib.Data.List.Dedup
import Mathlib.Data.List.Sort
import Lattix.Server.Integrity

namespace Lattix.Server
open Lib.Transactions

/-- A storage function: what it does between taking and releasing `_lock`. -/
abbrev Db (α : Type) := Sql SqlError Tables α

/-! Users and the key directory -/

def createUser (username kemPublicKey dsaPublicKey fingerprint authSalt authHash : String)
    (avatar : Option String) (now : Nat) : Db Unit := do
  write (Tables.insertUser
    ⟨username, kemPublicKey, dsaPublicKey, fingerprint, authSalt, authHash, avatar, now⟩)
  commit

def getUser (username : String) : Db (Option User) :=
  query fun t => t.users.find? fun r => r.username == username

def userExists (username : String) : Db Bool := do
  return (← getUser username).isSome

def setAvatar (username : String) (avatar : Option String) : Db Unit := do
  write (Tables.updateAvatar username avatar)
  commit

/-- `a` comes first in ORDER BY joined_at ASC, username ASC. -/
def senior (a b : MemberRow) : Bool :=
  decide (a.joinedAt < b.joinedAt) || a.joinedAt == b.joinedAt && decide (a.username < b.username)

/-- ORDER BY joined_at ASC, username ASC LIMIT 1. -/
def oldest : List MemberRow → Option MemberRow
  | [] => none
  | m :: ms =>
    match oldest ms with
    | none => some m
    | some o => some (if senior o m then o else m)

/-- The member a group passes to when `username` goes. -/
def successor (gid : Nat) (username : String) (t : Tables) : Option String :=
  (oldest (t.groupMembers.filter fun m => m.groupId == gid && m.username != username)).map
    MemberRow.username

/-- The groups the user is in, owned or not. -/
def joined (username : String) (t : Tables) : List Nat :=
  (t.groupMembers.filter fun m => m.username == username).map MemberRow.groupId

/-- The groups the user owns. -/
def owned (username : String) (t : Tables) : List Nat :=
  (t.groups.filter fun g => g.owner == username).map GroupRow.id

/-- The loop of `delete_user` over the groups the user owns. -/
def passOn (username : String) : List Nat → List Nat → Db (List Nat)
  | [], touched => pure touched
  | gid :: rest, touched => do
    match ← query (successor gid username) with
    | some heir =>
      write (Tables.updateOwner gid heir)
      passOn username rest touched
    | none =>
      write (Tables.deleteGroup gid)
      passOn username rest (touched.erase gid)

/-- The one storage function with its own BEGIN and a rollback. -/
def deleteUser (username : String) : Db (List Nat) :=
  except
    (do
      begin .nestedBegin
      let touched ← query (joined username)
      let gids ← query (owned username)
      let touched ← passOn username gids touched
      write (Tables.deleteUser username)
      commit
      return touched)
    (fun e => do
      rollback
      raise e)

def replace (c : Char) (by_ : List Char) (s : List Char) : List Char :=
  s.flatMap fun d => if d = c then by_ else [d]

/-- The three chained replacements that make a query literal. -/
def escapeLike (query : List Char) : List Char :=
  replace '_' ['\\', '_'] (replace '%' ['\\', '%'] (replace '\\' ['\\', '\\'] query))

/-- SQLite's LIKE … ESCAPE '\': pattern first, letters compared without ASCII
case. A pattern that ends in the escape character matches nothing. -/
def like : List Char → List Char → Bool
  | [], text => text.isEmpty
  | '%' :: pattern, text => text.tails.any (like pattern)
  | '_' :: pattern, text =>
    match text with
    | [] => false
    | _ :: text => like pattern text
  | ['\\'], _ => false
  | '\\' :: c :: pattern, text =>
    match text with
    | [] => false
    | d :: text => c.toLower == d.toLower && like pattern text
  | c :: pattern, text =>
    match text with
    | [] => false
    | d :: text => c.toLower == d.toLower && like pattern text

/-- What a directory search shows of a user. -/
structure DirectoryEntry where
  username : String
  fingerprint : String
  avatar : Option String
deriving DecidableEq, Repr

def searchUsers (q : String) (limit : Nat) : Db (List DirectoryEntry) :=
  query fun t =>
    let hits := t.users.filter fun r =>
      like ('%' :: escapeLike q.toList ++ ['%']) r.username.toList
    ((hits.insertionSort fun a b => a.username ≤ b.username).take limit).map fun r =>
      ⟨r.username, r.fingerprint, r.avatar⟩

/-! Envelopes -/

/-- A 1:1 envelope as the API returns it. -/
structure Envelope where
  id : Nat
  sender : String
  recipient : String
  kind : Kind
  payload : String
  expiresAt : Option Nat
  createdAt : Nat
deriving DecidableEq, Repr

def rowToEnvelope (r : EnvelopeRow) : Envelope :=
  ⟨r.id, r.sender, r.recipient, r.kind, r.payload, r.expiresAt, r.createdAt⟩

def storeEnvelope (sender recipient : String) (kind : Kind) (payload : String)
    (fileId : Option String) (expiresAt : Option Nat) (now : Nat) : Db Envelope := do
  let id ← write (Tables.insertEnvelope
    ⟨0, sender, recipient, kind, payload, fileId, expiresAt, now⟩)
  commit
  return ⟨id, sender, recipient, kind, payload, expiresAt, now⟩

def getConversation (userA userB : String) (sinceId limit now : Nat) : Db (List Envelope) :=
  query fun t =>
    let rows := t.envelopes.filter fun e => decide (sinceId < e.id) &&
      (e.sender == userA && e.recipient == userB || e.sender == userB && e.recipient == userA) &&
      !Tables.due now e.expiresAt
    ((rows.insertionSort fun a b => a.id ≤ b.id).take limit).map rowToEnvelope

def getInbox (recipient : String) (sinceId limit now : Nat) : Db (List Envelope) :=
  query fun t =>
    let rows := t.envelopes.filter fun e =>
      e.recipient == recipient && decide (sinceId < e.id) && !Tables.due now e.expiresAt
    ((rows.insertionSort fun a b => a.id ≤ b.id).take limit).map rowToEnvelope

def listContacts (username : String) : Db (List String) :=
  query fun t =>
    let peers := (t.envelopes.filter fun e => e.sender == username).map EnvelopeRow.recipient ++
      (t.envelopes.filter fun e => e.recipient == username).map EnvelopeRow.sender
    peers.dedup.filter fun p => p != username

/-- The loop of `delete_expired` over the blobs that expiring envelopes named. -/
def dropBlobs : List String → Nat → Db Nat
  | [], removed => pure removed
  | fid :: rest, removed => do
    let n ← write (Tables.deleteUnreferenced fun f => f.id == fid)
    dropBlobs rest (removed + n)

def deleteExpired (now : Nat) : Db Nat := do
  let expiring ← query fun t =>
    ((t.envelopes.filter fun e => Tables.due now e.expiresAt).filterMap EnvelopeRow.fileId ++
      (t.groupEnvelopes.filter fun e => Tables.due now e.expiresAt).filterMap
        GroupEnvelopeRow.fileId).dedup
  write (Tables.deleteDueEnvelopes now)
  write (Tables.deleteDueGroupEnvelopes now)
  let removed ← dropBlobs expiring 0
  commit
  return removed

def deleteOrphanFiles (graceSeconds now : Nat) : Db Nat := do
  let n ← write (Tables.deleteUnreferenced fun f => decide (f.createdAt + graceSeconds < now))
  commit
  return n

/-! Groups -/

structure PublicUser where
  username : String
  kemPublicKey : String
  dsaPublicKey : String
  fingerprint : String
  avatar : Option String
deriving DecidableEq, Repr

/-- A group as the API returns it, with the members that still have accounts. -/
structure Group where
  id : Nat
  name : String
  icon : Option String
  owner : String
  createdAt : Nat
  members : List PublicUser
deriving DecidableEq, Repr

def getGroup (groupId : Nat) : Db (Option Group) :=
  query fun t => (t.groups.find? fun g => g.id == groupId).map fun g =>
    let rows := (t.groupMembers.filter fun m => m.groupId == groupId).filterMap fun m =>
      t.users.find? fun r => r.username == m.username
    ⟨g.id, g.name, g.icon, g.owner, g.createdAt,
      (rows.insertionSort fun a b => a.username ≤ b.username).map fun r =>
        ⟨r.username, r.kemPublicKey, r.dsaPublicKey, r.fingerprint, r.avatar⟩⟩

/-- `roster` is the set {owner, *members} in the order the interpreter walks it. -/
def createGroup (name owner : String) (roster : List String) (icon : Option String)
    (now : Nat) : Db (Option Group) := do
  let gid ← write (Tables.insertGroup ⟨0, name, icon, owner, now⟩)
  roster.forM fun u => write (Tables.insertMember ⟨gid, u, now⟩)
  commit
  getGroup gid

/-- What a user's list of groups shows of each. -/
structure GroupEntry where
  id : Nat
  name : String
  icon : Option String
  owner : String
deriving DecidableEq, Repr

def listGroups (username : String) : Db (List GroupEntry) :=
  query fun t =>
    let rows := t.groups.filter fun g => t.hasMember g.id username
    (rows.insertionSort fun a b => a.id ≤ b.id).map fun g => ⟨g.id, g.name, g.icon, g.owner⟩

def isGroupMember (groupId : Nat) (username : String) : Db Bool :=
  query fun t => t.hasMember groupId username

def groupMemberNames (groupId : Nat) : Db (List String) :=
  query fun t => (t.groupMembers.filter fun m => m.groupId == groupId).map MemberRow.username

def addGroupMember (groupId : Nat) (username : String) (now : Nat) : Db Unit := do
  write (Tables.insertMember ⟨groupId, username, now⟩)
  commit

def oldestGroupMember (groupId : Nat) : Db (Option String) :=
  query fun t => (oldest (t.groupMembers.filter fun m => m.groupId == groupId)).map
    MemberRow.username

def setGroupOwner (groupId : Nat) (username : String) : Db Unit := do
  write (Tables.updateOwner groupId username)
  commit

def deleteGroup (groupId : Nat) : Db Unit := do
  write (Tables.deleteGroup groupId)
  commit

def removeGroupMember (groupId : Nat) (username : String) : Db Unit := do
  write (Tables.deleteMember groupId username)
  commit

structure GroupEnvelope where
  id : Nat
  groupId : Nat
  sender : String
  kind : Kind
  payload : String
  expiresAt : Option Nat
  createdAt : Nat
deriving DecidableEq, Repr

def rowToGroupEnvelope (r : GroupEnvelopeRow) : GroupEnvelope :=
  ⟨r.id, r.groupId, r.sender, r.kind, r.payload, r.expiresAt, r.createdAt⟩

def storeGroupEnvelope (groupId : Nat) (sender : String) (kind : Kind) (payload : String)
    (fileId : Option String) (expiresAt : Option Nat) (now : Nat) : Db GroupEnvelope := do
  let id ← write (Tables.insertGroupEnvelope
    ⟨0, groupId, sender, kind, payload, fileId, expiresAt, now⟩)
  commit
  return ⟨id, groupId, sender, kind, payload, expiresAt, now⟩

def getGroupMessages (groupId sinceId limit now : Nat) : Db (List GroupEnvelope) :=
  query fun t =>
    let rows := t.groupEnvelopes.filter fun e =>
      e.groupId == groupId && decide (sinceId < e.id) && !Tables.due now e.expiresAt
    ((rows.insertionSort fun a b => a.id ≤ b.id).take limit).map rowToGroupEnvelope

/-! Encrypted file blobs -/

def storeFile (fileId owner : String) (ciphertext : List UInt8) (size now : Nat) : Db Unit := do
  write (Tables.insertFile ⟨fileId, owner, ciphertext, size, now⟩)
  commit

def userCanAccessFile (username fileId : String) : Db Bool :=
  query fun t =>
    t.files.any (fun f => f.id == fileId && f.owner == username) ||
    t.envelopes.any (fun e =>
      e.fileId == some fileId && (e.sender == username || e.recipient == username)) ||
    t.groupEnvelopes.any (fun e => e.fileId == some fileId && t.hasMember e.groupId username)

def fileOwnedBy (fileId username : String) : Db Bool :=
  query fun t => t.files.any fun f => f.id == fileId && f.owner == username

def getFile (fileId : String) : Db (Option FileRow) :=
  query fun t => t.files.find? fun f => f.id == fileId

end Lattix.Server
