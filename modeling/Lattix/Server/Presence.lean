import Lattix.Server.Readable

namespace Lattix.Server
open Lib.Transactions Lib.Json Lib.Runs

/-! What the relay sends over its sockets -/

inductive Frame where
  | ready (username : String)
  | presence (username : String) (online : Bool)
  | envelope (e : Json)
  | groupEnvelope (e : Json)
  | group (action : String) (groupId : Nat)

def Frame.json : Frame → Json
  | .ready u => .object [(key "type", str "ready"), (key "username", str u)]
  | .presence u online =>
    .object [(key "type", str "presence"), (key "username", str u), (key "online", .bool online)]
  | .envelope e => .object [(key "type", str "envelope"), (key "envelope", e)]
  | .groupEnvelope e => .object [(key "type", str "group_envelope"), (key "envelope", e)]
  | .group action groupId => .object [(key "type", str "group"), (key "action", str action),
      (key "group_id", .number (.int groupId))]

/-- What a handler does about a send that raises: `_send_to` drops the socket and
goes on, the snapshot drops it and returns, the endpoint goes to its `finally`. -/
inductive OnError where
  | goOn
  | giveUp
  | raise
deriving DecidableEq, Repr

/-- An awaited send to a socket that is registered under `user`. -/
structure Send where
  user : String
  socket : Nat
  frame : Frame
  onError : OnError

/-- What a handler has before it, but for the sends of whole announcements.
`vouch` is `if peer in self.active` with the `_send_to` it guards, and `tell` a
turn of the snapshot's loop. -/
inductive Task where
  | send (x : Send)
  | sendTo (user : String) (f : Frame)
  | vouch (peer user : String)
  | tell (peer user : String) (ws : Nat)

/-- A part of a handler that starts with `list_contacts`. -/
inductive Announcement where
  | presence (username : String) (online : Bool)
  | snapshot (username : String) (ws : Nat)

/-- A handler between two sends: the one it awaits, if it awaits one, and what it
does after it. -/
structure Work where
  pending : Option Send
  tasks : List Task
  announcements : List Announcement

def Task.isTell : Task → Bool
  | .tell .. => true
  | _ => false

def Work.done : Work := ⟨none, [], []⟩

def Work.isDone (h : Work) : Bool :=
  h.pending.isNone && h.tasks.isEmpty && h.announcements.isEmpty

/-- What a handler is left with when its send has raised. `ready` is the first
that an endpoint sends, so announcements are all that is before it. -/
def Work.failed (h : Work) : OnError → Work
  | .goOn => { h with pending := none }
  | .giveUp => { h with pending := none, tasks := h.tasks.filter fun a => !a.isTell }
  | .raise => { h with pending := none, announcements := [] }

/-- An authenticated socket, with the handler of its endpoint and the presence
frames it has received, the last one first. `left` once the endpoint has come to
its `finally`. -/
structure Socket where
  user : String
  handler : Nat
  isOpen : Bool
  left : Bool
  told : List (String × Bool)

def Socket.receive (k : Socket) : Frame → Socket
  | .presence u online => { k with told := (u, online) :: k.told }
  | _ => k

/-- The flag of the last presence frame about `u`. -/
def Socket.last (k : Socket) (u : String) : Option Bool :=
  (k.told.find? fun p => p.1 == u).map Prod.snd

/-- The orders in which a step goes through sets and rows. -/
structure Order where
  sockets : List Nat → List Nat
  names : List String → List String
  sockets_perm : ∀ l, (sockets l).Perm l
  names_perm : ∀ l, (names l).Perm l

def Order.listed : Order := ⟨id, id, fun _ => .refl _, fun _ => .refl _⟩

def Manager.connect (u : String) (ws : Nat) (m : Manager Nat) : Manager Nat :=
  ⟨fun v => if v = u then ws :: m.active v else m.active v⟩

/-- The relay with its sockets and the handlers that send to them, of endpoints
and of requests. -/
structure LiveRelay where
  service : Service
  manager : Manager Nat
  sockets : List Socket
  handlers : List Work

namespace LiveRelay

def empty : LiveRelay := ⟨.empty, ⟨fun _ => []⟩, [], []⟩

def online (s : LiveRelay) (u : String) : Bool := !(s.manager.active u).isEmpty

def contacts (s : LiveRelay) (u : String) : List String :=
  match listContacts u s.service.conn with
  | (.ok peers, _) => peers
  | (.error _, _) => []

def isOpen (s : LiveRelay) (ws : Nat) : Bool := s.sockets[ws]?.any Socket.isOpen

/-! A handler from one send to the next -/

section handlers
variable (s : LiveRelay) (o : Order)

def sendTo (u : String) (f : Frame) : List Send :=
  (o.sockets (s.manager.active u)).map fun ws => ⟨u, ws, f, .goOn⟩

def sends : Task → List Send
  | .send x => [x]
  | .sendTo u f => s.sendTo o u f
  | .vouch peer u => if s.online peer then s.sendTo o u (.presence peer true) else []
  | .tell peer u ws => if s.online peer then [⟨u, ws, .presence peer true, .giveUp⟩] else []

/-- The first send of a list of tasks, and the tasks after it. -/
def unroll : List Task → Option (Send × List Task)
  | [] => none
  | t :: ts =>
    match s.sends o t with
    | [] => unroll ts
    | x :: xs => some (x, xs.map .send ++ ts)

def tasks : Announcement → List Task
  | .presence u online => (o.names (s.contacts u)).map fun peer => .sendTo peer (.presence u online)
  | .snapshot u ws => (o.names (s.contacts u)).map fun peer => .tell peer u ws

def announce : List Announcement → Work
  | [] => .done
  | a :: as =>
    match s.unroll o (s.tasks o a) with
    | some (x, ts) => ⟨some x, ts, as⟩
    | none => announce as

def forward (h : Work) : Work :=
  match s.unroll o h.tasks with
  | some (x, ts) => ⟨some x, ts, h.announcements⟩
  | none => s.announce o h.announcements

end handlers

/-! Requests -/

def notify (o : Order) (members : List String) (f : Frame) : List Task :=
  (o.names members.dedup).map fun u => .sendTo u f

def deliver (o : Order) (sender recipient : String) (e : Json) : List Task :=
  notify o [recipient, sender] (.envelope e) ++
    if sender ≠ recipient then [.vouch sender recipient, .vouch recipient sender] else []

/-- What a request makes the relay send. `t` are the tables it finds. -/
def pushes (clock : Nat → Double) (o : Order) (t : Tables) : Request → Response → List Task
  | req, .envelope e => deliver o e.sender e.recipient (e.item.json clock (.object req.relayed))
  | req, .groupEnvelope e =>
    notify o (((t.shown e.groupId).map Group.members).getD [] |>.map PublicUser.username)
      (.groupEnvelope (e.item.json clock (.object req.relayed)))
  | .createGroup .., .group g =>
    notify o (g.members.map PublicUser.username) (.group "created" g.id)
  | .addMember groupId _, .group g =>
    notify o (g.members.map PublicUser.username) (.group "members" groupId)
  | .removeMember groupId _, .ok =>
    notify o (((t.shown groupId).map Group.members).getD [] |>.map PublicUser.username)
      (.group "members" groupId)
  | _, _ => []

/-! Steps -/

/-- An awaited send ends. -/
def transmit (R : Runtime) (s : LiveRelay) (i : Nat) (h : Work) (x : Send) : LiveRelay :=
  if s.isOpen x.socket && (frame R x.frame.json).isSome then
    { s with
      sockets := s.sockets.modify x.socket fun k => k.receive x.frame
      handlers := s.handlers.set i { h with pending := none } }
  else
    { s with
      manager := if x.onError = .raise then s.manager else s.manager.disconnect x.user x.socket
      handlers := s.handlers.set i (h.failed x.onError) }

/-- The endpoint's `disconnect` in its `finally`. -/
def leave (s : LiveRelay) (ws : Nat) (u : String) : LiveRelay :=
  { s with
    manager := s.manager.disconnect u ws
    sockets := s.sockets.modify ws fun k => { k with left := true } }

/-- A send may be suspended before its frame goes out and after it, so a handler
takes one step to the next send and one through it. -/
inductive Event where
  | request (authorization : String) (req : Request) (d : Draws) (o : Order)
  | sweep (graceSeconds now : Nat)
  | connect (token : String) (now : Nat)
  | close (ws : Nat)
  | finish (ws : Nat) (o : Order)
  | resume (i : Nat) (o : Order)

def step (R : Runtime) (clock : Nat → Double) (s : LiveRelay) : Event → Option LiveRelay
  | .request authorization req d o =>
    match req with
    -- Runs in which no account is deleted: a deletion closes sockets of its own.
    | .deleteAccount => none
    | req => (s.service.step R (.request authorization req d)).map fun service =>
        let r := (s.service.handle R authorization req d).1
        let t : LiveRelay := { s with service }
        { t with handlers := t.handlers ++
            [t.forward o ⟨none, pushes clock o s.service.tables req r, []⟩] }
  | .sweep graceSeconds now => some { s with service := s.service.sweep graceSeconds now }
  | .connect token now =>
    let (found, tokens) := resolveToken now token s.service.tokens
    let s := { s with service := { s.service with tokens } }
    match found with
    | none => some s
    | some me =>
      let u := me.username
      let ws := s.sockets.length
      some { s with
        manager := s.manager.connect u ws
        sockets := s.sockets ++ [⟨u, s.handlers.length, true, false, []⟩]
        handlers := s.handlers ++
          [⟨some ⟨u, ws, .ready u, .raise⟩, [], [.presence u true, .snapshot u ws]⟩] }
  | .close ws =>
    if s.isOpen ws then some { s with sockets := s.sockets.modify ws ({ · with isOpen := false }) }
    else none
  | .finish ws o =>
    match s.sockets[ws]? with
    | none => none
    | some k =>
      if k.isOpen || k.left || !s.handlers[k.handler]?.any Work.isDone then none
      else
        let t := s.leave ws k.user
        if t.online k.user then some t
        else
          some { t with
            handlers := t.handlers.set k.handler (t.announce o [.presence k.user false]) }
  | .resume i o =>
    match s.handlers[i]? with
    | none => none
    | some h =>
      match h.pending with
      | some x => some (s.transmit R i h x)
      | none => if h.isDone then none
        else some { s with handlers := s.handlers.set i (s.forward o h) }

/-! What the sockets have been told -/

/-- No handler is under way, and the endpoints of closed sockets are through. -/
def Quiet (s : LiveRelay) : Prop :=
  (∀ h ∈ s.handlers, h.isDone = true) ∧ ∀ k ∈ s.sockets, k.isOpen = false → k.left = true

instance (s : LiveRelay) : Decidable s.Quiet := inferInstanceAs (Decidable (_ ∧ _))

def Truthful (s : LiveRelay) : Prop :=
  ∀ k ∈ s.sockets, k.isOpen = true → ∀ u, u ≠ k.user → ∀ b, k.last u = some b → b = s.online u

end LiveRelay

/-! What is on its way -/

def Frame.isAbout (u : String) : Frame → Bool
  | .presence v _ => v == u
  | _ => false

def Send.reaches (ws : Nat) (u : String) (x : Send) : Bool := x.socket == ws && x.frame.isAbout u

/-- What is left to do brings a presence frame about `u` to the socket `ws` of
`v`, whoever is online by then. -/
def Task.owes (v : String) (ws : Nat) (u : String) : Task → Bool
  | .send x => x.reaches ws u
  | .sendTo w f => w == v && f.isAbout u
  | _ => false

def Announcement.owes (u : String) : Announcement → Bool
  | .presence v _ => v == u
  | _ => false

def Work.owes (v : String) (ws : Nat) (u : String) (h : Work) : Bool :=
  h.pending.any (Send.reaches ws u) || h.tasks.any (Task.owes v ws u) ||
    h.announcements.any (Announcement.owes u)

namespace LiveRelay

def owed (s : LiveRelay) (v : String) (ws : Nat) (u : String) : Bool :=
  s.handlers.any (Work.owes v ws u)

/-- All sockets of `u` are closed and an endpoint of theirs is not through. -/
def leaving (s : LiveRelay) (u : String) : Bool :=
  (s.sockets.any fun k => k.user == u && !k.left) && s.sockets.all fun k => k.user != u || !k.isOpen

def due (s : LiveRelay) (v : String) (ws : Nat) (u : String) : Bool :=
  s.owed v ws u || s.leaving u

/-- An open socket that was last told otherwise about `u` is one of `peers`, or a
frame is due to it. -/
def covered (s : LiveRelay) (peers : List String) (u : String) : Bool :=
  s.sockets.zipIdx.all fun e => !e.1.isOpen || e.1.user == u ||
    (e.1.last u).all (fun online => online == s.online u) || peers.contains e.1.user ||
      s.due e.1.user e.2 u

/-- The handlers but for what is left of one of them. -/
def but (s : LiveRelay) (i : Nat) (h : Work) : LiveRelay := { s with handlers := s.handlers.set i h }

/-- Whoever is to be announced is, to whom it matters, if `peers` are told. -/
def heard (s : LiveRelay) (i : Nat) (h : Work) (peers : String → List String) : Bool :=
  h.announcements.all fun
    | .presence u _ => (s.but i .done).covered (peers u) u
    | .snapshot .. => true

/-- Whom a step announces hears of it if told otherwise; a presence frame that
reaches an open socket is true, or another one is due; and no frame to an open
socket fails. -/
def inTime (R : Runtime) (s : LiveRelay) : Event → Bool
  | .finish ws _ =>
    s.sockets[ws]?.all fun k =>
      let t := s.leave ws k.user
      t.online k.user || t.covered (t.contacts k.user) k.user
  | .resume i o =>
    s.handlers[i]?.all fun h =>
      match h.pending with
      | some x =>
        if s.isOpen x.socket then
          (frame R x.frame.json).isSome && match x.frame with
            | .presence u online => online == s.online u ||
              s.sockets[x.socket]?.all fun k =>
                (s.but i { h with pending := none }).due k.user x.socket u
            | _ => true
        else x.onError != .raise || s.heard i h fun _ => []
      | none => (s.unroll o h.tasks).isSome || s.heard i h s.contacts
  | _ => true

end LiveRelay

end Lattix.Server
