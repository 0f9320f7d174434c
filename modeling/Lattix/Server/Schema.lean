import Mathlib.Data.List.Nodup
import Lattix.Lib.Transactions

namespace Lattix.Server

/-- The two values the relay writes to a `kind` column. -/
inductive Kind where
  | message
  | file
deriving DecidableEq, Repr

structure User where
  username : String
  kemPublicKey : String
  dsaPublicKey : String
  fingerprint : String
  authSalt : String
  authHash : String
  avatar : Option String
  createdAt : Nat
deriving DecidableEq, Repr

/-- A row of `envelopes`. Payloads are kept as the JSON text that is stored. -/
structure EnvelopeRow where
  id : Nat
  sender : String
  recipient : String
  kind : Kind
  payload : String
  fileId : Option String
  expiresAt : Option Nat
  createdAt : Nat
deriving DecidableEq, Repr

structure FileRow where
  id : String
  owner : String
  ciphertext : List UInt8
  size : Nat
  createdAt : Nat
deriving DecidableEq, Repr

structure GroupRow where
  id : Nat
  name : String
  icon : Option String
  owner : String
  createdAt : Nat
deriving DecidableEq, Repr

structure MemberRow where
  groupId : Nat
  username : String
  joinedAt : Nat
deriving DecidableEq, Repr

structure GroupEnvelopeRow where
  id : Nat
  groupId : Nat
  sender : String
  kind : Kind
  payload : String
  fileId : Option String
  expiresAt : Option Nat
  createdAt : Nat
deriving DecidableEq, Repr

/-- The six tables, each in insertion order, and the AUTOINCREMENT counters,
which SQLite keeps in a table of its own and rolls back like any other. -/
structure Tables where
  users : List User
  envelopes : List EnvelopeRow
  files : List FileRow
  groups : List GroupRow
  groupMembers : List MemberRow
  groupEnvelopes : List GroupEnvelopeRow
  envelopeSeq : Nat
  groupSeq : Nat
  groupEnvelopeSeq : Nat
deriving DecidableEq, Repr

namespace Tables

def empty : Tables := ⟨[], [], [], [], [], [], 0, 0, 0⟩

def hasUser (t : Tables) (u : String) : Bool := t.users.any fun r => r.username == u

def hasGroup (t : Tables) (g : Nat) : Bool := t.groups.any fun r => r.id == g

def hasMember (t : Tables) (g : Nat) (u : String) : Bool :=
  t.groupMembers.any fun r => r.groupId == g && r.username == u

theorem hasUser_iff {t : Tables} {u : String} :
    t.hasUser u = true ↔ ∃ r ∈ t.users, r.username = u := by
  simp [hasUser, List.any_eq_true]

theorem hasGroup_iff {t : Tables} {g : Nat} :
    t.hasGroup g = true ↔ ∃ r ∈ t.groups, r.id = g := by
  simp [hasGroup, List.any_eq_true]

theorem hasMember_iff {t : Tables} {g : Nat} {u : String} :
    t.hasMember g u = true ↔ ∃ r ∈ t.groupMembers, r.groupId = g ∧ r.username = u := by
  simp [hasMember, List.any_eq_true]

end Tables

/-- Why a statement raises: a primary key that exists, a foreign key that does
not, or a BEGIN inside an open transaction. -/
inductive SqlError where
  | primaryKey
  | foreignKey
  | nestedBegin
deriving DecidableEq, Repr

abbrev Written (α : Type) := Except SqlError (Tables × α)

namespace Tables

def insertUser (row : User) (t : Tables) : Written Unit :=
  if t.hasUser row.username then .error .primaryKey
  else .ok ({ t with users := t.users ++ [row] }, ())

def updateAvatar (u : String) (avatar : Option String) (t : Tables) : Written Unit :=
  .ok ({ t with users := t.users.map fun r =>
    if r.username == u then { r with avatar := avatar } else r }, ())

/-- DELETE FROM groups WHERE …: the cascade takes the rosters and histories. -/
def dropGroups (p : GroupRow → Bool) (t : Tables) : Tables :=
  let gone := fun g => t.groups.any fun r => r.id == g && p r
  { t with
    groups := t.groups.filter fun r => !p r
    groupMembers := t.groupMembers.filter fun m => !gone m.groupId
    groupEnvelopes := t.groupEnvelopes.filter fun e => !gone e.groupId }

def deleteGroup (g : Nat) (t : Tables) : Written Unit :=
  .ok (t.dropGroups fun r => r.id == g, ())

/-- DELETE FROM users WHERE username = ?, with every ON DELETE CASCADE. -/
def deleteUser (u : String) (t : Tables) : Written Unit :=
  let t' := t.dropGroups fun r => r.owner == u
  .ok ({ t' with
    users := t'.users.filter fun r => r.username != u
    envelopes := t'.envelopes.filter fun e => e.sender != u && e.recipient != u
    files := t'.files.filter fun f => f.owner != u
    groupMembers := t'.groupMembers.filter fun m => m.username != u
    groupEnvelopes := t'.groupEnvelopes.filter fun e => e.sender != u }, ())

/-- The row's own id is ignored: AUTOINCREMENT picks the next one. -/
def insertEnvelope (row : EnvelopeRow) (t : Tables) : Written Nat :=
  if t.hasUser row.sender && t.hasUser row.recipient then
    .ok ({ t with
      envelopes := t.envelopes ++ [{ row with id := t.envelopeSeq + 1 }]
      envelopeSeq := t.envelopeSeq + 1 }, t.envelopeSeq + 1)
  else .error .foreignKey

def insertFile (row : FileRow) (t : Tables) : Written Unit :=
  if t.files.any (fun f => f.id == row.id) then .error .primaryKey
  else if t.hasUser row.owner then .ok ({ t with files := t.files ++ [row] }, ())
  else .error .foreignKey

def insertGroup (row : GroupRow) (t : Tables) : Written Nat :=
  if t.hasUser row.owner then
    .ok ({ t with
      groups := t.groups ++ [{ row with id := t.groupSeq + 1 }]
      groupSeq := t.groupSeq + 1 }, t.groupSeq + 1)
  else .error .foreignKey

/-- INSERT OR IGNORE: an existing row is skipped, a missing parent still raises. -/
def insertMember (row : MemberRow) (t : Tables) : Written Unit :=
  if t.hasMember row.groupId row.username then .ok (t, ())
  else if t.hasGroup row.groupId && t.hasUser row.username then
    .ok ({ t with groupMembers := t.groupMembers ++ [row] }, ())
  else .error .foreignKey

def deleteMember (g : Nat) (u : String) (t : Tables) : Written Unit :=
  .ok ({ t with groupMembers := t.groupMembers.filter fun m =>
    !(m.groupId == g && m.username == u) }, ())

def updateOwner (g : Nat) (u : String) (t : Tables) : Written Unit :=
  if t.hasGroup g && !t.hasUser u then .error .foreignKey
  else .ok ({ t with groups := t.groups.map fun r =>
    if r.id == g then { r with owner := u } else r }, ())

def insertGroupEnvelope (row : GroupEnvelopeRow) (t : Tables) : Written Nat :=
  if t.hasGroup row.groupId && t.hasUser row.sender then
    .ok ({ t with
      groupEnvelopes := t.groupEnvelopes ++ [{ row with id := t.groupEnvelopeSeq + 1 }]
      groupEnvelopeSeq := t.groupEnvelopeSeq + 1 }, t.groupEnvelopeSeq + 1)
  else .error .foreignKey

/-- `expires_at IS NOT NULL AND expires_at <= ?`. -/
def due (now : Nat) : Option Nat → Bool
  | some deadline => decide (deadline ≤ now)
  | none => false

def deleteDueEnvelopes (now : Nat) (t : Tables) : Written Unit :=
  .ok ({ t with envelopes := t.envelopes.filter fun e => !due now e.expiresAt }, ())

def deleteDueGroupEnvelopes (now : Nat) (t : Tables) : Written Unit :=
  .ok ({ t with groupEnvelopes := t.groupEnvelopes.filter fun e => !due now e.expiresAt }, ())

/-- Some envelope of either kind points at the blob. -/
def referenced (t : Tables) (fid : String) : Bool :=
  t.envelopes.any (fun e => e.fileId == some fid) ||
    t.groupEnvelopes.any (fun e => e.fileId == some fid)

/-- DELETE FROM files WHERE … AND no envelope references it; the row count. -/
def deleteUnreferenced (p : FileRow → Bool) (t : Tables) : Written Nat :=
  let doomed := fun f => p f && !t.referenced f.id
  .ok ({ t with files := t.files.filter fun f => !doomed f }, (t.files.filter doomed).length)

end Tables

/-- What the schema's keys and counters guarantee. -/
structure Tables.Valid (t : Tables) : Prop where
  users : (t.users.map User.username).Nodup
  files : (t.files.map FileRow.id).Nodup
  groups : (t.groups.map GroupRow.id).Nodup
  envelopes : (t.envelopes.map EnvelopeRow.id).Nodup
  groupEnvelopes : (t.groupEnvelopes.map GroupEnvelopeRow.id).Nodup
  members : (t.groupMembers.map fun m => (m.groupId, m.username)).Nodup
  sender : ∀ e ∈ t.envelopes, t.hasUser e.sender = true
  recipient : ∀ e ∈ t.envelopes, t.hasUser e.recipient = true
  fileOwner : ∀ f ∈ t.files, t.hasUser f.owner = true
  groupOwner : ∀ g ∈ t.groups, t.hasUser g.owner = true
  memberGroup : ∀ m ∈ t.groupMembers, t.hasGroup m.groupId = true
  memberUser : ∀ m ∈ t.groupMembers, t.hasUser m.username = true
  groupSender : ∀ e ∈ t.groupEnvelopes, t.hasUser e.sender = true
  envelopeGroup : ∀ e ∈ t.groupEnvelopes, t.hasGroup e.groupId = true
  envelopeSeq : ∀ e ∈ t.envelopes, e.id ≤ t.envelopeSeq
  groupSeq : ∀ g ∈ t.groups, g.id ≤ t.groupSeq
  groupEnvelopeSeq : ∀ e ∈ t.groupEnvelopes, e.id ≤ t.groupEnvelopeSeq

end Lattix.Server
