import Lattix.Server.Deletion

namespace Lattix.Server
open Lib.Transactions

/-- A call of the storage layer. Calls that read the clock carry the time they
read, and `createGroup` the order in which its roster is walked. -/
inductive Call where
  | createUser (username kemPublicKey dsaPublicKey fingerprint authSalt authHash : String)
      (avatar : Option String) (now : Nat)
  | getUser (username : String)
  | userExists (username : String)
  | setAvatar (username : String) (avatar : Option String)
  | deleteUser (username : String)
  | searchUsers (query : String) (limit : Nat)
  | storeEnvelope (sender recipient : String) (kind : Kind) (payload : String)
      (fileId : Option String) (expiresAt : Option Nat) (now : Nat)
  | getConversation (userA userB : String) (sinceId limit now : Nat)
  | getInbox (recipient : String) (sinceId limit now : Nat)
  | listContacts (username : String)
  | deleteExpired (now : Nat)
  | deleteOrphanFiles (graceSeconds now : Nat)
  | createGroup (name owner : String) (roster : List String) (icon : Option String) (now : Nat)
  | getGroup (groupId : Nat)
  | listGroups (username : String)
  | isGroupMember (groupId : Nat) (username : String)
  | groupMemberNames (groupId : Nat)
  | addGroupMember (groupId : Nat) (username : String) (now : Nat)
  | oldestGroupMember (groupId : Nat)
  | setGroupOwner (groupId : Nat) (username : String)
  | deleteGroup (groupId : Nat)
  | removeGroupMember (groupId : Nat) (username : String)
  | storeGroupEnvelope (groupId : Nat) (sender : String) (kind : Kind) (payload : String)
      (fileId : Option String) (expiresAt : Option Nat) (now : Nat)
  | getGroupMessages (groupId sinceId limit now : Nat)
  | storeFile (fileId owner : String) (ciphertext : List UInt8) (size now : Nat)
  | userCanAccessFile (username fileId : String)
  | fileOwnedBy (fileId username : String)
  | getFile (fileId : String)
deriving DecidableEq, Repr

/-- What a storage call returns. -/
inductive Answer where
  | done
  | yes (b : Bool)
  | count (n : Nat)
  | groupIds (gs : List Nat)
  | names (us : List String)
  | name (u : Option String)
  | user (r : Option User)
  | directory (es : List DirectoryEntry)
  | envelope (e : Envelope)
  | envelopes (es : List Envelope)
  | group (g : Option Group)
  | groups (gs : List GroupEntry)
  | groupEnvelope (e : GroupEnvelope)
  | groupEnvelopes (es : List GroupEnvelope)
  | file (f : Option FileRow)
deriving DecidableEq, Repr

def answer {α : Type} (f : α → Answer) (x : Db α) : Db Answer := do
  return f (← x)

def exec : Call → Db Answer
  | .createUser u kem dsa fp salt hash avatar now =>
    answer (fun _ => .done) (createUser u kem dsa fp salt hash avatar now)
  | .getUser u => answer .user (getUser u)
  | .userExists u => answer .yes (userExists u)
  | .setAvatar u avatar => answer (fun _ => .done) (setAvatar u avatar)
  | .deleteUser u => answer .groupIds (deleteUser u)
  | .searchUsers q limit => answer .directory (searchUsers q limit)
  | .storeEnvelope s r kind payload fid expiresAt now =>
    answer .envelope (storeEnvelope s r kind payload fid expiresAt now)
  | .getConversation a b since limit now => answer .envelopes (getConversation a b since limit now)
  | .getInbox r since limit now => answer .envelopes (getInbox r since limit now)
  | .listContacts u => answer .names (listContacts u)
  | .deleteExpired now => answer .count (deleteExpired now)
  | .deleteOrphanFiles grace now => answer .count (deleteOrphanFiles grace now)
  | .createGroup name owner roster icon now =>
    answer .group (createGroup name owner roster icon now)
  | .getGroup g => answer .group (getGroup g)
  | .listGroups u => answer .groups (listGroups u)
  | .isGroupMember g u => answer .yes (isGroupMember g u)
  | .groupMemberNames g => answer .names (groupMemberNames g)
  | .addGroupMember g u now => answer (fun _ => .done) (addGroupMember g u now)
  | .oldestGroupMember g => answer .name (oldestGroupMember g)
  | .setGroupOwner g u => answer (fun _ => .done) (setGroupOwner g u)
  | .deleteGroup g => answer (fun _ => .done) (deleteGroup g)
  | .removeGroupMember g u => answer (fun _ => .done) (removeGroupMember g u)
  | .storeGroupEnvelope g s kind payload fid expiresAt now =>
    answer .groupEnvelope (storeGroupEnvelope g s kind payload fid expiresAt now)
  | .getGroupMessages g since limit now =>
    answer .groupEnvelopes (getGroupMessages g since limit now)
  | .storeFile fid owner ciphertext size now =>
    answer (fun _ => .done) (storeFile fid owner ciphertext size now)
  | .userCanAccessFile u fid => answer .yes (userCanAccessFile u fid)
  | .fileOwnedBy fid u => answer .yes (fileOwnedBy fid u)
  | .getFile fid => answer .file (getFile fid)

/-- A sequence of calls on the one connection: what each returned or raised,
and the connection left behind. -/
def runCalls : List Call → Conn Tables → List (Except SqlError Answer) × Conn Tables
  | [], c => ([], c)
  | k :: ks, c =>
    let (r, c') := exec k c
    let (rs, c'') := runCalls ks c'
    (r :: rs, c'')

/-- No later sequence of calls tells two connections apart, by what it returns
or by what it commits. -/
def SameFuture (c d : Conn Tables) : Prop :=
  ∀ ks, (runCalls ks c).1 = (runCalls ks d).1 ∧
    (runCalls ks c).2.committed = (runCalls ks d).2.committed

/-- The calls only the three group requests make. -/
def Call.onGroups : Call → Bool
  | .createGroup .. | .addGroupMember .. | .setGroupOwner .. | .deleteGroup ..
  | .removeGroupMember .. => true
  | _ => false

theorem answer_state {α : Type} (f : α → Answer) (x : Db α) (c : Conn Tables) :
    (answer f x c).2 = (x c).2 := bind_pure_state (fun _ _ => rfl) c

theorem dropBlobs_total (fids : List String) (removed : Nat) : Total (dropBlobs fids removed) := by
  induction fids generalizing removed with
  | nil => exact .pure removed
  | cons fid rest ih => exact .bind (.write fun _ => ⟨_, rfl⟩) fun n => ih (removed + n)

theorem deleteExpired_total (now : Nat) : Total (deleteExpired now) :=
  .bind (.query _) fun fids => .bind (.write fun _ => ⟨_, rfl⟩) fun _ =>
    .bind (.write fun _ => ⟨_, rfl⟩) fun _ => .bind (dropBlobs_total fids 0) fun n =>
      .bind .commit fun _ => .pure n

/-- `t'` is `t` after a statement that went through. -/
def Changes {α : Type} (f : Tables → Written α) (t t' : Tables) : Prop := ∃ a, f t = .ok (t', a)

/-- The writing statements of each call. -/
def Call.Statement : Call → Tables → Tables → Prop
  | .createUser .., t, t' => ∃ row, Changes (Tables.insertUser row) t t'
  | .setAvatar u avatar, t, t' => Changes (Tables.updateAvatar u avatar) t t'
  | .deleteUser u, t, t' => (∃ g heir, Changes (Tables.updateOwner g heir) t t') ∨
      (∃ g, Changes (Tables.deleteGroup g) t t') ∨ Changes (Tables.deleteUser u) t t'
  | .storeEnvelope .., t, t' => ∃ row, Changes (Tables.insertEnvelope row) t t'
  | .deleteExpired now, t, t' => Changes (Tables.deleteDueEnvelopes now) t t' ∨
      Changes (Tables.deleteDueGroupEnvelopes now) t t' ∨
      ∃ p, Changes (Tables.deleteUnreferenced p) t t'
  | .deleteOrphanFiles .., t, t' => ∃ p, Changes (Tables.deleteUnreferenced p) t t'
  | .createGroup .., t, t' => (∃ row, Changes (Tables.insertGroup row) t t') ∨
      ∃ row, Changes (Tables.insertMember row) t t'
  | .addGroupMember .., t, t' => ∃ row, Changes (Tables.insertMember row) t t'
  | .setGroupOwner g u, t, t' => Changes (Tables.updateOwner g u) t t'
  | .deleteGroup g, t, t' => Changes (Tables.deleteGroup g) t t'
  | .removeGroupMember g u, t, t' => Changes (Tables.deleteMember g u) t t'
  | .storeGroupEnvelope .., t, t' => ∃ row, Changes (Tables.insertGroupEnvelope row) t t'
  | .storeFile .., t, t' => ∃ row, Changes (Tables.insertFile row) t t'
  | _, _, _ => False

section Keeping

variable {P : Tables → Prop}

theorem answer_keeps {α : Type} {f : α → Answer} {x : Db α} (h : Keeps P x) :
    Keeps P (answer f x) :=
  .bind h fun a => .pure (f a)

theorem passOn_keeps {username : String}
    (h : ∀ t t', P t → (Call.deleteUser username).Statement t t' → P t')
    (gids touched : List Nat) : Keeps P (passOn username gids touched) := by
  induction gids generalizing touched with
  | nil => exact .pure touched
  | cons gid rest ih =>
    refine .bind (.query _) fun heir => ?_
    cases heir with
    | some heir =>
      exact .bind (.write fun t t' a hp he => h t t' hp (.inl ⟨gid, heir, a, he⟩)) fun _ => ih touched
    | none =>
      exact .bind (.write fun t t' a hp he => h t t' hp (.inr (.inl ⟨gid, a, he⟩))) fun _ =>
        ih (touched.erase gid)

theorem dropBlobs_keeps (h : ∀ p t t', P t → Changes (Tables.deleteUnreferenced p) t t' → P t')
    (fids : List String) (removed : Nat) : Keeps P (dropBlobs fids removed) := by
  induction fids generalizing removed with
  | nil => exact .pure removed
  | cons fid rest ih =>
    exact .bind (.write fun t t' a hp he => h _ t t' hp ⟨a, he⟩) fun n => ih (removed + n)

/-- What every statement of a call keeps, the call keeps: however far it gets,
and whether it commits, raises or rolls back. -/
theorem exec_keeps_of {k : Call} (h : ∀ t t', P t → k.Statement t t' → P t') :
    Keeps P (exec k) := by
  cases k with
  | createUser | addGroupMember | storeFile =>
    exact answer_keeps (.bind (.write fun t t' a hp he => h t t' hp ⟨_, a, he⟩) fun _ => .commit)
  | setAvatar | setGroupOwner | deleteGroup | removeGroupMember =>
    exact answer_keeps (.bind (.write fun t t' a hp he => h t t' hp ⟨a, he⟩) fun _ => .commit)
  | storeEnvelope | storeGroupEnvelope | deleteOrphanFiles =>
    exact answer_keeps (.bind (.write fun t t' a hp he => h t t' hp ⟨_, a, he⟩) fun _ =>
      .bind .commit fun _ => .pure _)
  | deleteUser username =>
    refine answer_keeps (.except ?_ fun e => .bind .rollback fun _ => .raise e)
    refine .bind (.begin _) fun _ => .bind (.query _) fun touched => .bind (.query _) fun gids =>
      .bind (passOn_keeps h gids touched) fun left => ?_
    exact .bind (.write fun t t' a hp he => h t t' hp (.inr (.inr ⟨a, he⟩))) fun _ =>
      .bind .commit fun _ => .pure left
  | deleteExpired now =>
    refine answer_keeps (.bind (.query _) fun fids => ?_)
    refine .bind (.write fun t t' a hp he => h t t' hp (.inl ⟨a, he⟩)) fun _ => ?_
    refine .bind (.write fun t t' a hp he => h t t' hp (.inr (.inl ⟨a, he⟩))) fun _ => ?_
    exact .bind (dropBlobs_keeps (fun p t t' hp he => h t t' hp (.inr (.inr ⟨p, he⟩))) fids 0)
      fun n => .bind .commit fun _ => .pure n
  | createGroup name owner roster icon now =>
    refine answer_keeps (.bind (.write fun t t' a hp he => h t t' hp (.inl ⟨_, a, he⟩)) fun gid => ?_)
    exact .bind (.forM fun u _ => .write fun t t' a hp he => h t t' hp (.inr ⟨_, a, he⟩)) fun _ =>
      .bind .commit fun _ => .query _
  | userExists => exact answer_keeps (.bind (.query _) fun _ => .pure _)
  | _ => exact answer_keeps (.query _)

theorem runCalls_keeps {ks : List Call} (hk : ∀ k ∈ ks, Keeps P (exec k)) {c : Conn Tables}
    (h : Sound P c) : Sound P (runCalls ks c).2 := by
  induction ks generalizing c with
  | nil => exact h
  | cons k ks ih =>
    exact ih (fun j hj => hk j (List.mem_cons_of_mem _ hj)) (hk k (by simp) c h)

end Keeping

theorem Call.Statement.valid {k : Call} {t t' : Tables} (h : t.Valid) (hk : k.Statement t t') :
    t'.Valid := by
  cases k with
  | createUser =>
    obtain ⟨row, a, he⟩ := hk
    exact Tables.insertUser_valid h he
  | setAvatar =>
    obtain ⟨a, he⟩ := hk
    exact Tables.updateAvatar_valid h he
  | deleteUser =>
    rcases hk with ⟨g, heir, a, he⟩ | ⟨g, a, he⟩ | ⟨a, he⟩
    · exact Tables.updateOwner_valid h he
    · exact Tables.deleteGroup_valid h he
    · exact Tables.deleteUser_valid h he
  | storeEnvelope =>
    obtain ⟨row, a, he⟩ := hk
    exact Tables.insertEnvelope_valid h he
  | deleteExpired =>
    rcases hk with ⟨a, he⟩ | ⟨a, he⟩ | ⟨p, a, he⟩
    · exact Tables.deleteDueEnvelopes_valid h he
    · exact Tables.deleteDueGroupEnvelopes_valid h he
    · exact Tables.deleteUnreferenced_valid h he
  | deleteOrphanFiles =>
    obtain ⟨p, a, he⟩ := hk
    exact Tables.deleteUnreferenced_valid h he
  | createGroup =>
    rcases hk with ⟨row, a, he⟩ | ⟨row, a, he⟩
    · exact Tables.insertGroup_valid h he
    · exact Tables.insertMember_valid h he
  | addGroupMember =>
    obtain ⟨row, a, he⟩ := hk
    exact Tables.insertMember_valid h he
  | setGroupOwner =>
    obtain ⟨a, he⟩ := hk
    exact Tables.updateOwner_valid h he
  | deleteGroup =>
    obtain ⟨a, he⟩ := hk
    exact Tables.deleteGroup_valid h he
  | removeGroupMember =>
    obtain ⟨a, he⟩ := hk
    exact Tables.deleteMember_valid h he
  | storeGroupEnvelope =>
    obtain ⟨row, a, he⟩ := hk
    exact Tables.insertGroupEnvelope_valid h he
  | storeFile =>
    obtain ⟨row, a, he⟩ := hk
    exact Tables.insertFile_valid h he
  | _ => cases hk

theorem exec_keeps (k : Call) : Keeps Tables.Valid (exec k) :=
  exec_keeps_of fun _ _ => Call.Statement.valid

theorem runCalls_sound (ks : List Call) {c : Conn Tables} (h : Sound Tables.Valid c) :
    Sound Tables.Valid (runCalls ks c).2 :=
  runCalls_keeps (fun k _ => exec_keeps k) h

/-- Every state of the relay's database: what any sequence of calls, failing
ones included, makes of an empty one. -/
theorem reached_sound (ks : List Call) :
    Sound Tables.Valid (runCalls ks (Conn.fresh Tables.empty)).2 :=
  runCalls_sound ks (.fresh Tables.empty_valid)

end Lattix.Server
