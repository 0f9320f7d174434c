import Lattix.Lib.Json
import Lattix.Server.GroupRequests
import Lattix.Server.Tokens

namespace Lattix.Server
open Lib.Transactions Lib.Json

/-- What the relay takes from its interpreter and its settings: `str.lower` and
`str.strip`, `_hash_secret`, the printing of floats, and the upload limit. -/
structure Runtime where
  lower : String → String
  strip : String → String
  hash : String → String → String
  doubles : Doubles
  maxFileBytes : Nat

structure SendMessageRequest where
  recipient : String
  payload : List (Text × Json)
  ttl : Option Nat

structure SendFileMessageRequest extends SendMessageRequest where
  fileId : String
  filename : String
  mime : String
  size : Nat

structure GroupMessageRequest where
  payload : List (Text × Json)
  ttl : Option Nat

structure GroupFileMessageRequest extends GroupMessageRequest where
  fileId : String
  filename : String
  mime : String
  size : Nat

/-- The endpoints, with the bodies and path parameters their validators let
through. An upload comes in the chunks it is read in. -/
inductive Request where
  | register (req : RegisterRequest)
  | login (username authSecret : String)
  | logout
  | getPublicUser (username : String)
  | searchUsers (q : String)
  | me
  | setAvatar (avatar : Option String)
  | deleteAccount
  | sendMessage (req : SendMessageRequest)
  | sendFileMessage (req : SendFileMessageRequest)
  | conversation (peer : String) (since : Nat)
  | inbox (since : Nat)
  | createGroup (name : String) (members : List String) (icon : Option String)
  | listGroups
  | getGroup (groupId : Nat)
  | addMember (groupId : Nat) (username : String)
  | removeMember (groupId : Nat) (username : String)
  | sendGroupMessage (groupId : Nat) (req : GroupMessageRequest)
  | sendGroupFile (groupId : Nat) (req : GroupFileMessageRequest)
  | groupMessages (groupId since : Nat)
  | uploadFile (chunks : List (List UInt8)) (size : Int)
  | downloadFile (fileId : String)

/-- What a request draws from clocks and random sources, and from the rate
limiter, which counts by address. -/
structure Draws where
  checkedAt : Nat
  expiryFrom : Nat
  storedAt : Nat
  limited : Bool
  salt : String
  token : String
  fileId : String
  roster : List String

inductive Response where
  | ok
  | token (token username : String) (expiresAt : Nat)
  | user (u : PublicUser)
  | directory (found : List DirectoryEntry)
  | profile (username fingerprint : String) (avatar : Option String) (contacts : List String)
      (groups : List GroupEntry)
  | avatar (avatar : Option String)
  | envelope (e : Envelope)
  | envelopes (es : List Envelope)
  | group (g : Group)
  | groups (gs : List GroupEntry)
  | groupEnvelope (e : GroupEnvelope)
  | groupEnvelopes (es : List GroupEnvelope)
  | uploaded (fileId : String)
  | content (ciphertext : List UInt8) (size : Nat)
  | refused (status : Nat) (detail : String)
  | failed
deriving DecidableEq, Repr

def historyPageSize : Nat := 500

/-- `USERNAME_RE`, on a name in lower case. -/
def isUsername (u : String) : Bool :=
  decide (3 ≤ u.toList.length ∧ u.toList.length ≤ 32) &&
    u.toList.all fun c => c.isAlphanum || c = '_' || c = '.' || c = '-'

section handlers
variable (R : Runtime) (d : Draws) (me : String)

/-- `_expiry`: a ttl of zero counts as none. -/
def expiry (ttl : Option Nat) : Option Nat :=
  match ttl with
  | none => none
  | some n => if n = 0 then none else some (d.expiryFrom + n)

/-- The text a payload is stored as. -/
def payloadText (payload : List (Text × Json)) : String :=
  String.ofList (dumps R.doubles (.object payload))

/-- `payload.setdefault(k, v)` -/
def setDefault (k : Text) (v : Json) (fs : List (Text × Json)) : List (Text × Json) :=
  if k ∈ fs.map Prod.fst then fs else fs ++ [(k, v)]

/-- A file message's payload: the file id is forced, the rest only if absent. -/
def filePayload (fileId filename mime : String) (size : Nat) (payload : List (Text × Json)) :
    List (Text × Json) :=
  let payload := insert (text "file_id".toList) (.string (text fileId.toList)) payload
  let payload := setDefault (text "filename".toList) (.string (text filename.toList)) payload
  let payload := setDefault (text "mime".toList) (.string (text mime.toList)) payload
  setDefault (text "size".toList) (.number (.int size)) payload

def userNotFound : Response := .refused 404 "User not found"

def noGroup : Response := .refused 404 "Group not found"

def noFile : Response := .refused 404 "File not found"

def noRecipient : Response := .refused 404 "Recipient not found"

def getPublicUserRequest (username : String) : Db Response := do
  match ← getUser (R.lower username) with
  | none => return .refused 404 "No such user"
  | some u => return .user ⟨u.username, u.kemPublicKey, u.dsaPublicKey, u.fingerprint, u.avatar⟩

def searchUsersRequest (q : String) : Db Response := do
  if R.strip q = "" then return .directory []
  let results ← searchUsers (R.strip (R.lower q)) 25
  return .directory (results.filter fun r => r.username != me)

def meRequest : Db Response := do
  match ← getUser me with
  | none => return .refused 401 "Account no longer exists"
  | some u =>
    let contacts ← listContacts me
    let groups ← listGroups me
    return .profile me u.fingerprint u.avatar contacts groups

def setAvatarRequest (avatar : Option String) : Db Response := do
  setAvatar me avatar
  return .avatar avatar

def deleteAccountRequest : Db Response := do
  let _ ← listContacts me
  let _ ← deleteUser me
  return .ok

def sendMessageRequest (req : SendMessageRequest) : Db Response := do
  if ← userExists req.recipient then
    let env ← storeEnvelope me req.recipient .message (payloadText R req.payload) none
      (expiry d req.ttl) d.storedAt
    return .envelope env
  else return noRecipient

def sendFileMessageRequest (req : SendFileMessageRequest) : Db Response := do
  if ← userExists req.recipient then
    if ← fileOwnedBy req.fileId me then
      let payload := filePayload req.fileId req.filename req.mime req.size req.payload
      let env ← storeEnvelope me req.recipient .file (payloadText R payload) (some req.fileId)
        (expiry d req.ttl) d.storedAt
      return .envelope env
    else return noFile
  else return noRecipient

def conversationRequest (peer : String) (since : Nat) : Db Response := do
  return .envelopes (← getConversation me (R.lower peer) since historyPageSize d.storedAt)

def inboxRequest (since : Nat) : Db Response := do
  return .envelopes (← getInbox me since historyPageSize d.storedAt)

/-- The group, if it exists and the caller is in it. -/
def requireGroupMember (groupId : Nat) : Db (Option Group) := do
  match ← getGroup groupId with
  | none => return none
  | some group => if ← isGroupMember groupId me then return some group else return none

/-- `[m for m in req.members if db.user_exists(m)]` -/
def existing : List String → Db (List String)
  | [] => return []
  | m :: ms => do
    let known ← userExists m
    let rest ← existing ms
    return if known then m :: rest else rest

/-- The set {owner, *members} in the order it is walked, which is drawn. -/
def walked (members : List String) : List String :=
  if d.roster.isPerm (me :: members).dedup then d.roster else (me :: members).dedup

def createGroupRequest (name : String) (members : List String) (icon : Option String) :
    Db Response := do
  let known ← existing members
  match ← createGroup name me (walked d me known) icon d.storedAt with
  | some group => return .group group
  | none => return .failed

def getGroupRequest (groupId : Nat) : Db Response := do
  match ← requireGroupMember me groupId with
  | none => return noGroup
  | some group => return .group group

def addMemberRequest (groupId : Nat) (username : String) : Db Response := do
  match ← requireGroupMember me groupId with
  | none => return noGroup
  | some group =>
    if group.owner ≠ me then return .refused 403 "Only the group owner can add members"
    else if ← userExists username then
      addGroupMember groupId username d.storedAt
      match ← getGroup groupId with
      | some updated => return .group updated
      | none => return .failed
    else return userNotFound

/-- What becomes of a group whose owner has just left it. -/
def succeed (groupId : Nat) : Db Unit := do
  match ← oldestGroupMember groupId with
  | none => deleteGroup groupId
  -- Python also takes an empty name for no successor.
  | some successor => if successor = "" then deleteGroup groupId else setGroupOwner groupId successor

def removeMemberRequest (groupId : Nat) (username : String) : Db Response := do
  match ← requireGroupMember me groupId with
  | none => return noGroup
  | some group =>
    if group.owner ≠ me ∧ R.lower username ≠ me then return .refused 403 "Not allowed"
    else
      removeGroupMember groupId (R.lower username)
      if R.lower username = group.owner then
        succeed groupId
      return .ok

def sendGroupMessageRequest (groupId : Nat) (req : GroupMessageRequest) : Db Response := do
  match ← requireGroupMember me groupId with
  | none => return noGroup
  | some _ =>
    let env ← storeGroupEnvelope groupId me .message (payloadText R req.payload) none
      (expiry d req.ttl) d.storedAt
    return .groupEnvelope env

def sendGroupFileRequest (groupId : Nat) (req : GroupFileMessageRequest) : Db Response := do
  match ← requireGroupMember me groupId with
  | none => return noGroup
  | some _ =>
    if ← fileOwnedBy req.fileId me then
      let payload := filePayload req.fileId req.filename req.mime req.size req.payload
      let env ← storeGroupEnvelope groupId me .file (payloadText R payload) (some req.fileId)
        (expiry d req.ttl) d.storedAt
      return .groupEnvelope env
    else return noFile

def groupMessagesRequest (groupId since : Nat) : Db Response := do
  match ← requireGroupMember me groupId with
  | none => return noGroup
  | some _ => return .groupEnvelopes (← getGroupMessages groupId since historyPageSize d.storedAt)

/-- The loop that reads an upload: up to the first empty chunk, and no further
than one chunk past the limit. -/
def readChunks (limit : Nat) : List (List UInt8) → List UInt8 → Option (List UInt8)
  | [], data => some data
  | chunk :: rest, data =>
    if chunk = [] then some data
    else if limit < (data ++ chunk).length then none
    else readChunks limit rest (data ++ chunk)

def uploadFileRequest (chunks : List (List UInt8)) (size : Int) : Db Response := do
  if size < 0 ∨ (R.maxFileBytes : Int) < size then return .refused 400 "Invalid file size"
  else
    match readChunks R.maxFileBytes chunks [] with
    | none =>
      return .refused 413 s!"File exceeds {R.maxFileBytes / (1024 * 1024)} MB limit"
    | some data =>
      storeFile d.fileId me data size.toNat d.storedAt
      return .uploaded d.fileId

def downloadFileRequest (fileId : String) : Db Response := do
  if ← userCanAccessFile me fileId then
    match ← getFile fileId with
    | none => return noFile
    | some rec => return .content rec.ciphertext rec.size
  else return noFile

/-- The endpoints behind `require_user`. -/
def handler : Request → Db Response
  | .register _ | .login .. | .logout => return .failed
  | .getPublicUser username => getPublicUserRequest R username
  | .searchUsers q => searchUsersRequest R me q
  | .me => meRequest me
  | .setAvatar avatar => setAvatarRequest me avatar
  | .deleteAccount => deleteAccountRequest me
  | .sendMessage req => sendMessageRequest R d me req
  | .sendFileMessage req => sendFileMessageRequest R d me req
  | .conversation peer since => conversationRequest R d me peer since
  | .inbox since => inboxRequest d me since
  | .createGroup name members icon => createGroupRequest d me name members icon
  | .listGroups => return .groups (← listGroups me)
  | .getGroup groupId => getGroupRequest me groupId
  | .addMember groupId username => addMemberRequest d me groupId username
  | .removeMember groupId username => removeMemberRequest R me groupId username
  | .sendGroupMessage groupId req => sendGroupMessageRequest R d me groupId req
  | .sendGroupFile groupId req => sendGroupFileRequest R d me groupId req
  | .groupMessages groupId since => groupMessagesRequest d me groupId since
  | .uploadFile chunks size => uploadFileRequest R d me chunks size
  | .downloadFile fileId => downloadFileRequest me fileId

end handlers

/-- A file message that has been posted, and to whom. -/
inductive Audience where
  | user (account : Account)
  | group (groupId : Nat)
deriving DecidableEq, Repr

structure Post where
  fileId : String
  author : Account
  audience : Audience
deriving DecidableEq, Repr

/-- The relay as it answers one request after another. `registered` counts the
registrations of each name; `uploads`, `posts` and `joins` list who uploaded
which blob, what file messages were posted, and which accounts were taken into
which group. -/
structure Service where
  conn : Conn Tables
  tokens : Tokens
  registered : String → Nat
  uploads : List (String × Account)
  posts : List Post
  joins : List (Nat × Account)

namespace Service

def empty : Service := ⟨Conn.fresh .empty, [], fun _ => 0, [], [], []⟩

def tables (s : Service) : Tables := s.conn.working

/-- The account a name stands for when it exists. -/
def account (s : Service) (u : String) : Account := ⟨u, s.registered u⟩

/-- What a successful answer adds to the lists. -/
def record (d : Draws) (me : Account) (req : Request) (s : Service) : Response → Service
  | .uploaded fileId => { s with uploads := s.uploads ++ [(fileId, me)] }
  | .envelope _ =>
    match req with
    | .sendFileMessage m =>
      { s with posts := s.posts ++ [⟨m.fileId, me, .user (s.account m.recipient)⟩] }
    | _ => s
  | .groupEnvelope _ =>
    match req with
    | .sendGroupFile groupId m => { s with posts := s.posts ++ [⟨m.fileId, me, .group groupId⟩] }
    | _ => s
  | .group g =>
    match req with
    | .createGroup _ members _ =>
      let roster := walked d me.username (members.filter fun m => s.tables.hasUser m)
      { s with joins := s.joins ++ roster.map fun u => (g.id, s.account u) }
    | .addMember groupId username => { s with joins := s.joins ++ [(groupId, s.account username)] }
    | _ => s
  | .ok =>
    match req with
    | .deleteAccount =>
      { s with tokens := s.tokens.filter fun e => e.2.account.username != me.username }
    | _ => s
  | _ => s

/-- A handler's run: what it raises becomes a 500. -/
def serve (R : Runtime) (d : Draws) (me : Account) (req : Request) (s : Service) :
    Response × Service :=
  match handler R d me.username req s.conn with
  | (.ok r, c) => (r, record d me req { s with conn := c } r)
  | (.error _, c) => (.failed, { s with conn := c })

def issue (d : Draws) (a : Account) (s : Service) : Response × Service :=
  (.token d.token a.username (d.storedAt + tokenTtl),
    { s with tokens := issueToken d.storedAt d.token a s.tokens })

def tooMany : Response := .refused 429 "Too many attempts — try again later"

def nameTaken : Response := .refused 409 "Username already taken"

def register (R : Runtime) (d : Draws) (req : RegisterRequest) (s : Service) : Response × Service :=
  if d.limited then (tooMany, s)
  else
    match userExists req.username s.conn with
    | (.ok false, c) =>
      match createUser req.username req.kemPublicKey req.dsaPublicKey req.fingerprint d.salt
          (R.hash req.authSecret d.salt) req.avatar d.storedAt c with
      | (.ok _, c) =>
        let serial := s.registered req.username + 1
        issue d ⟨req.username, serial⟩ { s with
          conn := c
          registered := fun u => if u = req.username then serial else s.registered u }
      | (.error .primaryKey, c) => (nameTaken, { s with conn := c })
      | (.error _, c) => (.failed, { s with conn := c })
    | (.ok true, c) => (nameTaken, { s with conn := c })
    | (.error _, c) => (.failed, { s with conn := c })

def login (R : Runtime) (d : Draws) (username authSecret : String) (s : Service) :
    Response × Service :=
  if d.limited then (tooMany, s)
  else
    match getUser username s.conn with
    | (.ok (some user), c) =>
      if user.authHash = R.hash authSecret user.authSalt then
        issue d (s.account username) { s with conn := c }
      else (.refused 401 "Invalid credentials", { s with conn := c })
    | (.ok none, c) => (.refused 401 "Invalid credentials", { s with conn := c })
    | (.error _, c) => (.failed, { s with conn := c })

def logout (authorization : String) (s : Service) : Response × Service :=
  match bearer authorization with
  | none => (.ok, s)
  | some token => (.ok, { s with tokens := s.tokens.filter fun e => e.1 != token })

def unauthorized (authorization : String) : Response :=
  .refused 401 (match bearer authorization with
    | none => "Missing bearer token"
    | some _ => "Invalid or expired token")

/-- An endpoint behind `require_user`. -/
def guarded (R : Runtime) (authorization : String) (req : Request) (d : Draws) (s : Service) :
    Response × Service :=
  match requireUser d.checkedAt authorization s.tokens with
  | (none, ts) => (unauthorized authorization, { s with tokens := ts })
  | (some me, ts) => serve R d me req { s with tokens := ts }

/-- One request with its `Authorization` header, from arrival to answer. -/
def handle (R : Runtime) (authorization : String) (req : Request) (d : Draws) (s : Service) :
    Response × Service :=
  match req with
  | .register r => register R d r s
  | .login username authSecret => login R d username authSecret s
  | .logout => logout authorization s
  | req => guarded R authorization req d s

/-- One pass of `_sweep_loop`. -/
def sweep (graceSeconds now : Nat) (s : Service) : Service :=
  match deleteExpired now s.conn with
  | (.ok _, c) => { s with conn := (deleteOrphanFiles graceSeconds now c).2 }
  | (.error _, c) => { s with conn := c }

inductive Event where
  | request (authorization : String) (req : Request) (d : Draws)
  | sweep (graceSeconds now : Nat)

/-- A body that passes its validator, as far as names go. -/
def wellFormed : Request → Bool
  | .register req => isUsername req.username
  | _ => true

/-- Drawn tokens and file ids are new: the relay's random sources do not repeat
themselves. -/
def fresh (d : Draws) (s : Service) : Bool :=
  s.tokens.all (fun e => e.1 != d.token) && s.uploads.all fun f => f.1 != d.fileId

def step (R : Runtime) (s : Service) : Event → Option Service
  | .request authorization req d =>
    if wellFormed req && s.fresh d then some (s.handle R authorization req d).2 else none
  | .sweep graceSeconds now => some (s.sweep graceSeconds now)

end Service

end Lattix.Server
