import Lattix.Server.Rosters

namespace Lattix.Server
open Lib.Transactions

/-- How a request ends, and whom the relay tells about it. -/
inductive Reply where
  | ok (told : List String)
  | group (g : Group) (told : List String)
  | refused (status : Nat) (detail : String)
  | failed
deriving DecidableEq, Repr

/-- The three requests that change rosters, with the caller's name as the
token gives it. -/
inductive GroupRequest where
  | createGroup (me name : String) (members : List String) (icon : Option String)
  | addMember (groupId : Nat) (username me : String)
  | removeMember (groupId : Nat) (username me : String)
deriving DecidableEq, Repr

/-- Where a request stands between two database calls, with the variables its
code still needs. The call comes next. -/
inductive Point where
  | createCheck (me name : String) (icon : Option String) (members : List String) (m : String)
      (todo : List String)
  | createInsert (me name : String) (icon : Option String) (members : List String)
  | addGroup (groupId : Nat) (username me : String)
  | addMembership (groupId : Nat) (username me : String) (group : Group)
  | addUser (groupId : Nat) (username : String)
  | addInsert (groupId : Nat) (username : String)
  | addReload (groupId : Nat)
  | removeGroup (groupId : Nat) (username me : String)
  | removeMembership (groupId : Nat) (username me : String) (group : Group)
  | removeRow (groupId : Nat) (username : String) (group : Group)
  | removeSuccessor (groupId : Nat) (prior : List String)
  | removeHandover (groupId : Nat) (successor : String) (prior : List String)
  | removeDrop (groupId : Nat) (prior : List String)
deriving DecidableEq, Repr

def Group.names (g : Group) : List String := g.members.map PublicUser.username

/-- `[m for m in req.members if db.user_exists(m)]`, one name at a time. -/
def nextCheck (me name : String) (icon : Option String) (members : List String) :
    List String → Point
  | [] => .createInsert me name icon members
  | m :: todo => .createCheck me name icon members m todo

def GroupRequest.start : GroupRequest → Point
  | .createGroup me name members icon => nextCheck me name icon [] members
  | .addMember groupId username me => .addGroup groupId username me
  | .removeMember groupId username me => .removeGroup groupId username me

def groupNotFound : Reply := .refused 404 "Group not found"

/-- The next database call and what the code does up to the one after it. `lower`
is Python's `str.lower`; `roster` and `now` are what `create_group` and
`add_group_member` read from the interpreter. -/
def Point.next (lower : String → String) (roster : List String) (now : Nat) :
    Point → Db (Point ⊕ Reply)
  | .createCheck me name icon members m todo => do
    if ← userExists m then
      return .inl (nextCheck me name icon (members ++ [m]) todo)
    else
      return .inl (nextCheck me name icon members todo)
  | .createInsert me name icon _ => do
    match ← createGroup name me roster icon now with
    | some group => return .inr (.group group group.names)
    | none => return .inr .failed
  | .addGroup groupId username me => do
    match ← getGroup groupId with
    | some group => return .inl (.addMembership groupId username me group)
    | none => return .inr groupNotFound
  | .addMembership groupId username me group => do
    if ← isGroupMember groupId me then
      if group.owner = me then
        return .inl (.addUser groupId username)
      else
        return .inr (.refused 403 "Only the group owner can add members")
    else
      return .inr groupNotFound
  | .addUser groupId username => do
    if ← userExists username then
      return .inl (.addInsert groupId username)
    else
      return .inr (.refused 404 "User not found")
  | .addInsert groupId username => do
    addGroupMember groupId username now
    return .inl (.addReload groupId)
  | .addReload groupId => do
    match ← getGroup groupId with
    | some updated => return .inr (.group updated updated.names)
    | none => return .inr .failed
  | .removeGroup groupId username me => do
    match ← getGroup groupId with
    | some group => return .inl (.removeMembership groupId username me group)
    | none => return .inr groupNotFound
  | .removeMembership groupId username me group => do
    if ← isGroupMember groupId me then
      if group.owner ≠ me ∧ lower username ≠ me then
        return .inr (.refused 403 "Not allowed")
      else
        return .inl (.removeRow groupId (lower username) group)
    else
      return .inr groupNotFound
  | .removeRow groupId username group => do
    removeGroupMember groupId username
    if username = group.owner then
      return .inl (.removeSuccessor groupId group.names)
    else
      return .inr (.ok group.names)
  | .removeSuccessor groupId prior => do
    match ← oldestGroupMember groupId with
    | some successor =>
      -- Python also takes an empty name for no successor.
      if successor = "" then
        return .inl (.removeDrop groupId prior)
      else
        return .inl (.removeHandover groupId successor prior)
    | none => return .inl (.removeDrop groupId prior)
  | .removeHandover groupId successor prior => do
    setGroupOwner groupId successor
    return .inr (.ok prior)
  | .removeDrop groupId prior => do
    deleteGroup groupId
    return .inr (.ok prior)

/-- The relay's database and the group request its event loop is in. -/
structure Relay where
  conn : Conn Tables
  running : Option Point
  replies : List Reply
deriving DecidableEq

def Relay.empty : Relay := ⟨Conn.fresh .empty, none, []⟩

/-- A request arrives, the running one makes its next call, or another thread
or request makes one: an account deletion, a registration, a message. -/
inductive Event where
  | request (r : GroupRequest)
  | call (roster : List String) (now : Nat)
  | other (k : Call)
deriving DecidableEq

/-- `roster` lists the set {owner, *members} in some order. -/
def Point.walks (roster : List String) : Point → Bool
  | .createInsert me _ _ members => roster.isPerm (me :: members).dedup
  | _ => true

def Relay.call (lower : String → String) (roster : List String) (now : Nat) (s : Relay)
    (p : Point) : Relay :=
  match p.next lower roster now s.conn with
  | (.ok (.inl p'), c) => { s with conn := c, running := some p' }
  | (.ok (.inr reply), c) => ⟨c, none, reply :: s.replies⟩
  | (.error _, c) => ⟨c, none, .failed :: s.replies⟩

def Relay.step (lower : String → String) (s : Relay) : Event → Option Relay
  | .request r =>
    match s.running with
    | none => some { s with running := some r.start }
    | some _ => none
  | .call roster now =>
    match s.running with
    | none => none
    | some p => if p.walks roster then some (s.call lower roster now p) else none
  | .other k => if k.onGroups then none else some { s with conn := (exec k s.conn).2 }

end Lattix.Server
