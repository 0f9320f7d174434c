import Mathlib.Data.List.Basic
import Lattix.Client.Api
import Lattix.Lib.Runs

namespace Lattix.Client.Socket
open Api Lib.Runs

/-- A session token. The relay issues none that is empty. -/
abbrev Token := { t : String // t ≠ "" }

/-- What a timer runs. A ping comes from `setInterval`, the rest from `setTimeout`. -/
inductive Task where
  | reconnect
  | ready (ws : Nat)
  | ping (ws : Nat)
  | alive (ws sent : Nat)
deriving DecidableEq, Repr

structure Timer where
  handle : Nat
  task : Task
deriving DecidableEq, Repr

/-- The fields of a `LattixApi` that its socket depends on. Sockets and timers
go by their numbers, `reauth` is whether there is a function to log in again. -/
structure Manager where
  token : Option Token
  features : Option (List String)
  ws : Option Nat
  connected : Bool
  wantSocket : Bool
  everConnected : Bool
  gen : Nat
  lastSeen : Nat
  pingSentAt : Nat
  readyTimer : Option Nat
  ping : Option Nat
  retry : Option Nat
  reauth : Bool
  reauthing : Bool
deriving DecidableEq, Repr

/-- A socket with its handlers in place, and how it was made to authenticate. -/
structure Handlers where
  ws : Nat
  messageAuth : Bool
deriving DecidableEq, Repr

/-- The object and what goes on around it: the timers still to fire, the calls of
`_openSocket` that await `health`, by their generation, the close handlers that
wait for the re-login under way, and the outcomes others were given and have
still to act on. `lastRelogin` records how the last re-login went. -/
structure World where
  api : Manager
  timers : List Timer
  handles : Nat
  sockets : Nat
  attached : List Handlers
  opening : List Nat
  waiting : Nat
  told : List Relogin
  lastRelogin : Option Relogin
deriving DecidableEq, Repr

/-- What the browser brings to a turn: the time, whether `new WebSocket` goes
through, whether the socket's `readyState` is `OPEN`, whether `send` goes through. -/
structure Browser where
  now : Nat
  constructs : Bool
  isOpen : Bool
  sends : Bool
deriving DecidableEq, Repr

/-- What comes of the function given to `setReauth`: a session, or an error with
its status, 0 if it has none. -/
inductive Reauth where
  | session (t : Token)
  | failed (status : Nat)
deriving DecidableEq, Repr

inductive Message where
  | ready
  | other
deriving DecidableEq, Repr

inductive Event where
  | setReauth
  | signIn (t : Token)
  | health (features : List String)
  | connectSocket (b : Browser)
  | reconnectNow (b : Browser)
  | back (b : Browser)
  | answered (g : Nat) (features : Option (List String)) (b : Browser)
  | fires (t : Timer) (b : Browser)
  | opened (ws : Nat) (b : Browser)
  | message (ws : Nat) (m : Message) (b : Browser)
  | closed (ws code : Nat)
  | unauthorized
  | reauthed (r : Reauth)
  | told (b : Browser)
deriving DecidableEq

def pongTimeoutMs : Nat := 10000

/-- The status with which the relay closes a socket whose token it does not know. -/
def unknownToken : Nat := 4401

def Task.socket : Task → Option Nat
  | .reconnect => none
  | .ready ws | .ping ws | .alive ws _ => some ws

/-- The socket on whose behalf something runs. -/
def Event.socket : Event → Option Nat
  | .fires t _ => t.task.socket
  | .opened ws _ | .message ws _ _ | .closed ws _ => some ws
  | _ => none

def Reauth.outcome : Reauth → Relogin
  | .session _ => .ok
  | .failed status => if status = 401 ∨ status = 403 ∨ status = 404 then .denied else .error

def Manager.supportsPong (m : Manager) : Bool := m.features.any fun fs => fs.contains "ws-pong"

namespace World

def start : World where
  api := {
    token := none
    features := none
    ws := none
    connected := false
    wantSocket := false
    everConnected := false
    gen := 0
    lastSeen := 0
    pingSentAt := 0
    readyTimer := none
    ping := none
    retry := none
    reauth := false
    reauthing := false }
  timers := []
  handles := 0
  sockets := 0
  attached := []
  opening := []
  waiting := 0
  told := []
  lastRelogin := none

/-- `clearTimeout` and `clearInterval`, on a handle that may be stale or none. -/
def clear (handle : Option Nat) (w : World) : World :=
  { w with timers := w.timers.filter fun t => some t.handle != handle }

def setTimer (task : Task) (w : World) : World :=
  { w with timers := w.timers ++ [⟨w.handles, task⟩], handles := w.handles + 1 }

def detach (ws : Nat) (w : World) : World :=
  { w with attached := w.attached.filter fun h => h.ws != ws }

def scheduleReconnect (w : World) : World :=
  let w := w.clear w.api.retry
  { w.setTimer .reconnect with api := { w.api with retry := some w.handles } }

def teardown (w : World) : World :=
  let w := (w.clear w.api.ping).clear w.api.readyTimer
  { w with api := { w.api with ping := none, ws := none, connected := false } }

def closeSocket (w : World) : World :=
  let w' := (w.clear w.api.retry).teardown
  match w.api.ws with
  | none => w'
  | some ws => w'.detach ws

/-- The rest of `_openSocket`, once the relay's features are known. -/
def makeSocket (features : List String) (b : Browser) (w : World) : World :=
  if b.constructs then
    let ws := w.sockets
    let w' := (w.setTimer (.ready ws)).setTimer (.ping ws)
    { w' with
      sockets := ws + 1
      attached := w.attached ++ [⟨ws, features.contains "ws-auth-message"⟩]
      api := { w.api with
        ws := some ws
        lastSeen := b.now
        readyTimer := some w.handles
        pingSentAt := 0
        ping := some (w.handles + 1) } }
  else w.scheduleReconnect

def openSocket (b : Browser) (w : World) : World :=
  let w := w.closeSocket
  let gen := w.api.gen + 1
  let w := { w with api := { w.api with gen := gen } }
  if w.api.token.isNone then w
  else
    match w.api.features with
    | none => { w with opening := w.opening ++ [gen] }
    | some features => w.makeSocket features b

/-- `_openSocket` after its await. -/
def resume (gen : Nat) (b : Browser) (w : World) : World :=
  if gen ≠ w.api.gen ∨ w.api.token.isNone ∨ w.api.wantSocket = false then w
  else
    match w.api.features with
    | none => w.scheduleReconnect
    | some features => w.makeSocket features b

def markConnected (w : World) : World :=
  let w := w.clear w.api.readyTimer
  if w.api.connected then w
  else { w with api := { w.api with connected := true, everConnected := true } }

/-- `_relogin`, asked for by a close handler, which waits for its outcome to act
on it, or by a request. -/
def relogin (waits : Bool) (w : World) : World :=
  if w.api.reauth then
    { w with
      api := { w.api with reauthing := true }
      waiting := if waits then w.waiting + 1 else w.waiting }
  else
    { w with
      told := if waits then w.told ++ [.denied] else w.told
      lastRelogin := some .denied }

def handleClose (ws code : Nat) (w : World) : World :=
  if w.api.ws ≠ some ws then w
  else
    let w := w.teardown
    if w.api.token.isNone ∨ w.api.wantSocket = false then w
    else if code = unknownToken then w.relogin true
    else w.scheduleReconnect

def dropSocket (ws : Nat) (w : World) : World :=
  if w.api.ws ≠ some ws then w else (w.detach ws).handleClose ws 4000

def checkAlive (b : Browser) (w : World) : World :=
  match w.api.ws with
  | none => w
  | some ws =>
    if b.isOpen = false ∨ w.api.supportsPong = false then w
    else if b.sends then w.setTimer (.alive ws b.now)
    else w.dropSocket ws

def reconnectNow (b : Browser) (w : World) : World :=
  if w.api.token.isNone then w
  else
    let w := w.clear w.api.retry
    ({ w with api := { w.api with wantSocket := true } } : World).openSocket b

def connectSocket (b : Browser) (w : World) : World :=
  if w.api.token.isNone then w
  else ({ w with api := { w.api with wantSocket := true } } : World).openSocket b

/-- The interval's callback. -/
def sendPing (ws : Nat) (b : Browser) (w : World) : World :=
  if w.api.ws ≠ some ws ∨ b.isOpen = false then w
  else if w.api.supportsPong = true ∧ w.api.connected = true ∧ w.api.pingSentAt ≠ 0 ∧
      w.api.lastSeen < w.api.pingSentAt ∧ w.api.pingSentAt + pongTimeoutMs < b.now then
    w.dropSocket ws
  else if b.sends then { w with api := { w.api with pingSentAt := b.now } }
  else w

def fire (task : Task) (b : Browser) (w : World) : World :=
  match task with
  | .reconnect => if w.api.wantSocket then w.openSocket b else w
  | .ready ws => if w.api.ws = some ws ∧ w.api.connected = false then w.dropSocket ws else w
  | .alive ws sent => if w.api.ws = some ws ∧ w.api.lastSeen < sent then w.dropSocket ws else w
  | .ping ws => w.sendPing ws b

/-- A timeout is over once it fires, an interval stays. -/
def spend (t : Timer) (w : World) : World :=
  match t.task with
  | .ping _ => w
  | _ => { w with timers := w.timers.erase t }

def onopen (h : Handlers) (b : Browser) (w : World) : World :=
  if w.api.ws ≠ some h.ws then w
  else
    let w := { w with api := { w.api with lastSeen := b.now } }
    if h.messageAuth then w else w.markConnected

def onmessage (ws : Nat) (m : Message) (b : Browser) (w : World) : World :=
  if w.api.ws ≠ some ws then w
  else
    let w := { w with api := { w.api with lastSeen := b.now } }
    match m with
    | .ready => w.markConnected
    | .other => w

/-- `_relogin` from the answer on. -/
def settle (r : Reauth) (w : World) : World :=
  { w with
    api := { w.api with
      token := match r with
        | .session t => some t
        | .failed _ => w.api.token
      reauthing := false }
    waiting := 0
    told := w.told ++ List.replicate w.waiting r.outcome
    lastRelogin := some r.outcome }

/-- A close handler once it has the outcome of the re-login. -/
def act (r : Relogin) (b : Browser) (w : World) : World :=
  if w.api.wantSocket then
    match r with
    | .ok => w.openSocket b
    | .error => w.scheduleReconnect
    | .denied | .thrown => w
  else w

def step (w : World) : Event → Option World
  | .setReauth => some { w with api := { w.api with reauth := true } }
  | .signIn t => some { w with api := { w.api with token := some t } }
  | .health features => some { w with api := { w.api with features := some features } }
  | .connectSocket b => some (w.connectSocket b)
  | .reconnectNow b => some (w.reconnectNow b)
  | .back b =>
    some (if w.api.wantSocket then
      if w.api.connected then w.checkAlive b else w.reconnectNow b
    else w)
  | .answered g features b =>
    if g ∈ w.opening then
      let w := { w with
        opening := w.opening.erase g
        api := { w.api with features := features.or w.api.features } }
      some (w.resume g b)
    else none
  | .fires t b => if t ∈ w.timers then some ((w.spend t).fire t.task b) else none
  | .opened ws b =>
    match w.attached.find? fun h => h.ws == ws with
    | none => none
    | some h => some (w.onopen h b)
  | .message ws m b =>
    if w.attached.any fun h => h.ws == ws then some (w.onmessage ws m b) else none
  | .closed ws code =>
    if w.attached.any fun h => h.ws == ws then some (w.handleClose ws code) else none
  | .unauthorized => if w.api.token.isNone then none else some (w.relogin false)
  | .reauthed r => if w.api.reauthing then some (w.settle r) else none
  | .told b =>
    match w.told with
    | [] => none
    | r :: told => some (({ w with told := told } : World).act r b)

/-- `this.ws` is connected or will be given up. -/
def alive (w : World) : Bool :=
  w.api.ws.any fun ws => w.api.connected || w.timers.any fun t => t.task == .ready ws

def armed (w : World) : Bool := w.timers.any fun t => t.task == .reconnect

/-- The latest `_openSocket` awaits `health`. -/
def awaiting (w : World) : Bool := w.opening.contains w.api.gen

/-- A close handler waits for a re-login, or has its outcome and will open a
socket or schedule one. -/
def returning (w : World) : Bool :=
  (w.api.reauthing && decide (0 < w.waiting)) || w.told.any fun r => r == .ok || r == .error

def moving (w : World) : Bool := w.alive || w.armed || w.awaiting || w.returning

/-- Where a socket is wanted and a token held, one is there or on its way, unless
the last re-login was denied. -/
def Going (w : World) : Prop :=
  w.api.wantSocket = true → w.api.token.isSome = true →
    w.moving = true ∨ w.lastRelogin = some .denied

/-- Nothing that runs for a socket other than `this.ws` changes the object. -/
def Single (w : World) : Prop :=
  ∀ e ws w', e.socket = some ws → w.api.ws ≠ some ws → w.step e = some w' → w'.api = w.api

/-- No re-login brings a session or finds the relay unreachable while the wanted
socket is neither there nor on its way. -/
def followed (w : World) : Event → Bool
  | .reauthed r => r.outcome == .denied || !w.api.wantSocket || w.moving
  | _ => true

/-- The socket is wanted only once there is a token, and nothing takes it away. -/
def Held (w : World) : Prop := w.api.wantSocket = true → w.api.token.isSome = true

structure Sound (w : World) : Prop where
  held : w.Held
  going : w.Going

theorem scheduleReconnect_moving (w : World) : w.scheduleReconnect.moving = true := by
  simp [scheduleReconnect, setTimer, moving, armed]

theorem makeSocket_moving (features : List String) (b : Browser) (w : World) :
    (w.makeSocket features b).moving = true := by
  unfold makeSocket
  split
  · simp [setTimer, moving, alive]
  · exact w.scheduleReconnect_moving

theorem Sound.of_moving {w : World} (hh : w.Held) (hm : w.moving = true) : w.Sound :=
  ⟨hh, fun _ _ => .inl hm⟩

theorem Sound.unwanted {w : World} (hw : w.api.wantSocket = false) : w.Sound := by
  refine ⟨fun h => ?_, fun h _ => ?_⟩ <;>
  · rw [hw] at h
    cases h

/-- More may have come up for the socket, and nothing else matters. -/
theorem Sound.quiet {w w' : World} (h : w.Sound)
    (ht : w.api.token.isSome = true → w'.api.token.isSome = true)
    (hw : w'.api.wantSocket = w.api.wantSocket) (hm : w.moving = true → w'.moving = true)
    (hr : w'.lastRelogin = w.lastRelogin) : w'.Sound := by
  refine ⟨fun hwant => ht (h.held (hw ▸ hwant)), fun hwant _ => ?_⟩
  rw [hw] at hwant
  rw [hr]
  rcases h.going hwant (h.held hwant) with hmove | hdenied
  · exact .inl (hm hmove)
  · exact .inr hdenied

theorem scheduleReconnect_sound {w : World} (hh : w.Held) : w.scheduleReconnect.Sound :=
  .of_moving hh w.scheduleReconnect_moving

theorem makeSocket_sound {w : World} (features : List String) (b : Browser) (hh : w.Held) :
    (w.makeSocket features b).Sound := by
  refine .of_moving ?_ (makeSocket_moving ..)
  unfold makeSocket
  split <;> exact hh

theorem closeSocket_token (w : World) : w.closeSocket.api.token = w.api.token := by
  unfold closeSocket
  split <;> rfl

theorem openSocket_sound {w : World} (b : Browser) (ht : w.api.token.isSome = true) :
    (w.openSocket b).Sound := by
  rw [← closeSocket_token] at ht
  have hn : w.closeSocket.api.token.isNone = false := by
    rw [Option.isNone_eq_false_iff]
    exact ht
  unfold openSocket
  simp only [hn, Bool.false_eq_true, if_false]
  split
  · refine .of_moving (fun _ => ht) ?_
    simp [moving, awaiting]
  · exact makeSocket_sound _ b fun _ => ht

theorem resume_sound {w : World} (gen : Nat) (b : Browser) (hh : w.Held)
    (hs : gen ≠ w.api.gen → w.Sound) : (w.resume gen b).Sound := by
  unfold resume
  split
  · rename_i hstale
    rcases hstale with hg | ht | hw
    · exact hs hg
    · refine .unwanted (Bool.eq_false_iff.mpr fun hw => ?_)
      have hsome := hh hw
      rw [Option.isNone_iff_eq_none.mp ht] at hsome
      cases hsome
    · exact .unwanted hw
  · split
    · exact scheduleReconnect_sound hh
    · exact makeSocket_sound _ b hh

/-- The end of `this.ws` is always followed up, whatever was there before. -/
theorem handleClose_sound {w : World} {ws : Nat} (code : Nat) (hws : w.api.ws = some ws)
    (hh : w.Held) : (w.handleClose ws code).Sound := by
  unfold handleClose
  simp only [hws, ne_eq, not_true_eq_false, if_false]
  split
  · rename_i hidle
    rcases hidle with ht | hw
    · refine .unwanted (Bool.eq_false_iff.mpr fun hw => ?_)
      have hsome : w.teardown.api.token.isSome = true := hh hw
      rw [Option.isNone_iff_eq_none.mp ht] at hsome
      cases hsome
    · exact .unwanted hw
  · split
    · unfold relogin
      split
      · refine .of_moving hh ?_
        simp [moving, returning]
      · exact ⟨hh, fun _ _ => .inr rfl⟩
    · exact scheduleReconnect_sound hh

theorem dropSocket_sound {w : World} {ws : Nat} (hws : w.api.ws = some ws) (hh : w.Held) :
    (w.dropSocket ws).Sound := by
  unfold dropSocket
  simp only [hws, ne_eq, not_true_eq_false, if_false]
  exact handleClose_sound 4000 hws hh

theorem markConnected_sound {w : World} {ws : Nat} (hws : w.api.ws = some ws) (hh : w.Held) :
    w.markConnected.Sound := by
  unfold markConnected
  dsimp only
  split
  · rename_i hc
    refine .of_moving hh ?_
    have ha : (w.clear w.api.readyTimer).alive = true := by
      simp only [alive, clear, hws, Option.any_some, Bool.or_eq_true]
      exact .inl hc
    simp [moving, ha]
  · refine .of_moving hh ?_
    simp [moving, alive, clear, hws]

theorem Sound.setTimer {w : World} (h : w.Sound) (task : Task) : (w.setTimer task).Sound := by
  refine h.quiet id rfl (fun hm => ?_) rfl
  simp only [moving, Bool.or_eq_true] at hm ⊢
  rcases hm with ((ha | ha) | ha) | ha
  · left; left; left
    cases hws : w.api.ws with
    | none => simp [alive, hws] at ha
    | some ws =>
      simp only [alive, hws, Option.any_some, Bool.or_eq_true] at ha
      simp only [alive, World.setTimer, hws, Option.any_some, List.any_append, Bool.or_eq_true]
      rcases ha with ha | ha
      · exact .inl ha
      · exact .inr (.inl ha)
  · left; left; right
    simp only [armed, World.setTimer, List.any_append, Bool.or_eq_true]
    exact .inl ha
  · exact .inl (.inr ha)
  · exact .inr ha

theorem Sound.checkAlive {w : World} (h : w.Sound) (b : Browser) : (w.checkAlive b).Sound := by
  unfold World.checkAlive
  split
  · exact h
  · rename_i ws hws
    split
    · exact h
    · split
      · exact h.setTimer _
      · exact dropSocket_sound hws h.held

theorem Sound.reconnectNow {w : World} (h : w.Sound) (b : Browser) :
    (w.reconnectNow b).Sound := by
  unfold World.reconnectNow
  split
  · exact h
  · rename_i ht
    refine openSocket_sound b ?_
    simpa [clear, Option.isSome_iff_ne_none] using ht

theorem Sound.connectSocket {w : World} (h : w.Sound) (b : Browser) :
    (w.connectSocket b).Sound := by
  unfold World.connectSocket
  split
  · exact h
  · rename_i ht
    refine openSocket_sound b ?_
    simpa [Option.isSome_iff_ne_none] using ht

theorem Sound.sendPing {w : World} (h : w.Sound) (ws : Nat) (b : Browser) :
    (w.sendPing ws b).Sound := by
  unfold World.sendPing
  split
  · exact h
  · rename_i hc
    push Not at hc
    split
    · exact dropSocket_sound hc.1 h.held
    · split
      · exact h.quiet id rfl id rfl
      · exact h

theorem any_erase {α : Type*} [BEq α] [LawfulBEq α] {p : α → Bool} {xs : List α} {x : α}
    (hx : p x = false) (h : xs.any p = true) : (xs.erase x).any p = true := by
  obtain ⟨y, hy, hp⟩ := List.any_eq_true.mp h
  refine List.any_eq_true.mpr ⟨y, ?_, hp⟩
  refine (List.mem_erase_of_ne ?_).mpr hy
  rintro rfl
  rw [hx] at hp
  cases hp

/-- A timer that is over takes nothing with it but what it was itself. -/
theorem Sound.spend {w : World} (h : w.Sound) {t : Timer} (hr : t.task ≠ .reconnect)
    (hws : ∀ ws, t.task = .ready ws → w.api.ws = some ws → w.api.connected = true) :
    (w.spend t).Sound := by
  have hs : ({ w with timers := w.timers.erase t } : World).Sound := by
    refine h.quiet id rfl (fun hm => ?_) rfl
    simp only [moving, Bool.or_eq_true] at hm ⊢
    rcases hm with ((ha | ha) | ha) | ha
    · left; left; left
      cases hc : w.api.ws with
      | none => simp [alive, hc] at ha
      | some ws =>
        simp only [alive, hc, Option.any_some, Bool.or_eq_true] at ha ⊢
        rcases ha with ha | ha
        · exact .inl ha
        · by_cases ht : t.task = .ready ws
          · exact .inl (hws ws ht hc)
          · exact .inr (any_erase (by simpa using ht) ha)
    · left; left; right
      exact any_erase (by simpa using hr) ha
    · exact .inl (.inr ha)
    · exact .inr ha
  unfold World.spend
  split
  · exact h
  · exact hs

theorem spend_api (t : Timer) (w : World) : (w.spend t).api = w.api := by
  unfold World.spend
  split <;> rfl

theorem Sound.fire {w : World} (h : w.Sound) (t : Timer) (b : Browser) :
    ((w.spend t).fire t.task b).Sound := by
  have hh : (w.spend t).Held := by
    unfold Held
    rw [spend_api]
    exact h.held
  cases htask : t.task with
  | reconnect =>
    simp only [World.fire]
    split
    · rename_i hw
      exact openSocket_sound b (hh hw)
    · rename_i hw
      exact .unwanted (Bool.eq_false_iff.mpr hw)
  | ready ws =>
    simp only [World.fire]
    split
    · rename_i hc
      exact dropSocket_sound hc.1 hh
    · rename_i hc
      apply h.spend
      · rw [htask]
        nofun
      · intro n hn hws
        rw [htask] at hn
        cases hn
        rw [spend_api] at hc
        simpa [hws] using hc
  | alive ws sent =>
    simp only [World.fire]
    split
    · rename_i hc
      exact dropSocket_sound hc.1 hh
    · apply h.spend <;> simp [htask]
  | ping ws =>
    simp only [World.fire]
    apply Sound.sendPing
    apply h.spend <;> simp [htask]

theorem settle_moving {w : World} {r : Reauth} (ha : w.api.reauthing = true)
    (hr : r.outcome ≠ .denied) : (w.settle r).moving = w.moving := by
  have ho : r.outcome = .ok ∨ r.outcome = .error := by
    cases r with
    | session t => exact .inl rfl
    | failed status =>
      by_cases hs : status = 401 ∨ status = 403 ∨ status = 404
      · exact absurd (if_pos hs) hr
      · exact .inr (if_neg hs)
  have hret : (w.settle r).returning = w.returning := by
    unfold returning settle
    rcases Nat.eq_zero_or_pos w.waiting with hz | hp
    · simp [ha, hz]
    · obtain ⟨n, hn⟩ := Nat.exists_eq_add_of_lt hp
      rcases ho with ho | ho <;> simp [ha, hn, ho, List.replicate_succ]
  unfold moving
  rw [hret]
  rfl

/-- The one turn after which the socket can be left to nobody. -/
theorem settle_going {w : World} {r : Reauth} (h : w.Sound) (ha : w.api.reauthing = true) :
    (w.settle r).Held ∧ ((w.settle r).Going ↔ w.followed (.reauthed r) = true) := by
  have hh : (w.settle r).Held := by
    intro hw
    have := h.held hw
    cases r <;> simp [settle, this]
  refine ⟨hh, ?_⟩
  have hl : (w.settle r).lastRelogin = some r.outcome := rfl
  unfold Going
  simp only [hl, Option.some.injEq, followed, Bool.or_eq_true, beq_iff_eq, Bool.not_eq_true']
  by_cases hr : r.outcome = .denied
  · simp [hr]
  · rw [settle_moving ha hr]
    simp only [hr, or_false, false_or]
    constructor
    · intro hg
      rcases Bool.eq_false_or_eq_true w.api.wantSocket with hw | hw
      · exact .inr (hg hw (hh hw))
      · exact .inl hw
    · rintro (hw | hm) hwant _
      · rw [show (w.settle r).api.wantSocket = w.api.wantSocket from rfl, hw] at hwant
        cases hwant
      · exact hm

theorem Sound.back {w : World} (h : w.Sound) (b : Browser) :
    (if w.api.wantSocket then
      if w.api.connected then w.checkAlive b else w.reconnectNow b
    else w).Sound := by
  split
  · split
    · exact h.checkAlive b
    · exact h.reconnectNow b
  · exact h

/-- Only the latest `_openSocket` counts as on its way, and it is the one that goes on. -/
theorem Sound.answered {w : World} (h : w.Sound) (g : Nat) (features : Option (List String))
    (b : Browser) :
    (({ w with
      opening := w.opening.erase g
      api := { w.api with features := features.or w.api.features } } : World).resume g b).Sound := by
  refine resume_sound g b h.held fun hg => h.quiet id rfl (fun hm => ?_) rfl
  simp only [moving, Bool.or_eq_true] at hm ⊢
  rcases hm with ((ha | ha) | ha) | ha
  · exact .inl (.inl (.inl ha))
  · exact .inl (.inl (.inr ha))
  · left; right
    simp only [awaiting, List.contains_iff_mem] at ha ⊢
    exact (List.mem_erase_of_ne (Ne.symm hg)).mpr ha
  · exact .inr ha

theorem Sound.onopen {w : World} (h : w.Sound) (hs : Handlers) (b : Browser) :
    (w.onopen hs b).Sound := by
  unfold World.onopen
  split
  · exact h
  · rename_i hws
    rw [ne_eq, not_not] at hws
    dsimp only
    split
    · exact h.quiet id rfl id rfl
    · exact markConnected_sound hws h.held

theorem Sound.onmessage {w : World} (h : w.Sound) (ws : Nat) (m : Message) (b : Browser) :
    (w.onmessage ws m b).Sound := by
  unfold World.onmessage
  split
  · exact h
  · rename_i hws
    rw [ne_eq, not_not] at hws
    cases m with
    | ready => exact markConnected_sound hws h.held
    | other => exact h.quiet id rfl id rfl

theorem Sound.handleClose {w : World} (h : w.Sound) (ws code : Nat) :
    (w.handleClose ws code).Sound := by
  by_cases hws : w.api.ws = some ws
  · exact handleClose_sound code hws h.held
  · unfold World.handleClose
    rw [if_pos hws]
    exact h

/-- A request that joins a re-login takes it from nobody. -/
theorem Sound.relogin {w : World} (h : w.Sound) : (w.relogin false).Sound := by
  unfold World.relogin
  split
  · refine h.quiet id rfl (fun hm => ?_) rfl
    simp only [moving, Bool.or_eq_true] at hm ⊢
    rcases hm with hm | hm
    · exact .inl hm
    · right
      simp only [returning, Bool.or_eq_true, Bool.and_eq_true] at hm ⊢
      rcases hm with ⟨-, hm⟩ | hm
      · exact .inl ⟨trivial, hm⟩
      · exact .inr hm
  · exact ⟨h.held, fun _ _ => .inr rfl⟩

/-- An outcome that was given is acted on, unless it was a denial. -/
theorem Sound.act {w : World} (h : w.Sound) {r : Relogin} {told : List Relogin}
    (htold : w.told = r :: told) (b : Browser) :
    (({ w with told := told } : World).act r b).Sound := by
  unfold World.act
  split
  · rename_i hw
    cases r with
    | ok => exact openSocket_sound b (h.held hw)
    | error => exact scheduleReconnect_sound h.held
    | denied | thrown =>
      refine h.quiet id rfl (fun hm => ?_) rfl
      simpa [moving, returning, htold, alive, armed, awaiting] using hm
  · rename_i hw
    exact .unwanted (Bool.eq_false_iff.mpr hw)

theorem step_going (w : World) (e : Event) (w' : World) (hh : w.Held) (hg : w.Going)
    (hs : w.step e = some w') : w'.Held ∧ (w'.Going ↔ w.followed e = true) := by
  have h : w.Sound := ⟨hh, hg⟩
  have hquiet : w'.Sound → w.followed e = true → w'.Held ∧ (w'.Going ↔ w.followed e = true) :=
    fun hs hr => ⟨hs.held, fun _ => hr, fun _ => hs.going⟩
  cases e with
  | setReauth | health =>
    cases hs
    exact hquiet (h.quiet id rfl id rfl) rfl
  | signIn t =>
    cases hs
    exact hquiet (h.quiet (fun _ => rfl) rfl id rfl) rfl
  | connectSocket b =>
    cases hs
    exact hquiet (h.connectSocket b) rfl
  | reconnectNow b =>
    cases hs
    exact hquiet (h.reconnectNow b) rfl
  | back b =>
    cases hs
    exact hquiet (h.back b) rfl
  | answered g features b =>
    simp only [step] at hs
    split at hs <;> cases hs
    exact hquiet (h.answered g features b) rfl
  | fires t b =>
    simp only [step] at hs
    split at hs <;> cases hs
    exact hquiet (h.fire t b) rfl
  | opened ws b =>
    simp only [step] at hs
    split at hs <;> cases hs
    exact hquiet (h.onopen _ b) rfl
  | message ws m b =>
    simp only [step] at hs
    split at hs <;> cases hs
    exact hquiet (h.onmessage ws m b) rfl
  | closed ws code =>
    simp only [step] at hs
    split at hs <;> cases hs
    exact hquiet (h.handleClose ws code) rfl
  | unauthorized =>
    simp only [step] at hs
    split at hs <;> cases hs
    exact hquiet h.relogin rfl
  | reauthed r =>
    simp only [step] at hs
    split at hs
    · rename_i ha
      cases hs
      exact settle_going h ha
    · cases hs
  | told b =>
    simp only [step] at hs
    split at hs
    · cases hs
    · rename_i r told htold
      cases hs
      exact hquiet (h.act htold b) rfl

theorem any_single (w : World) : w.Single := by
  intro e ws w' he hws hs
  cases e with
  | fires t b =>
    simp only [step] at hs
    split at hs
    · cases hs
      have hne : (w.spend t).api.ws ≠ some ws := by
        rw [spend_api]
        exact hws
      simp only [Event.socket] at he
      rw [← spend_api t w]
      cases htask : t.task <;> rw [htask] at he <;> cases he <;>
        simp [fire, sendPing, hne]
    · cases hs
  | opened n b =>
    cases he
    simp only [step] at hs
    split at hs
    · cases hs
    · rename_i h hfind
      cases hs
      have hn : h.ws = ws := by simpa using List.find?_some hfind
      simp [onopen, hn, hws]
  | message n m b =>
    cases he
    simp only [step] at hs
    split at hs <;> cases hs
    simp [onmessage, hws]
  | closed n code =>
    cases he
    simp only [step] at hs
    split at hs <;> cases hs
    simp [handleClose, hws]
  | _ => cases he

theorem start_sound : start.Sound := .unwanted rfl

/-- One socket at a time, and the wanted one never forgotten, in all states of a
run: exactly when no re-login that only requests wait for revives the session of
a manager that a denial has stopped. -/
theorem connection_kept_iff (es : List Event) {w : World} (hrun : run step start es = some w) :
    (∀ as u, as <+: es → run step start as = some u → u.Single ∧ u.Going) ↔
      Meets step (fun w e => w.followed e = true) start es := by
  simp only [any_single, true_and]
  refine throughout_iff ?_ start_sound.held start_sound.going hrun
  exact fun s a t hh hg hs => step_going s a t hh hg hs

def browser : Browser := ⟨0, true, true, true⟩

def issued : Token := ⟨"issued", by decide⟩

def renewed : Token := ⟨"renewed", by decide⟩

/-- The relay restarts under an open socket, and no longer knows the token. -/
def restarted : List Event :=
  [.setReauth, .signIn issued, .health ["ws-auth-message", "ws-pong"], .connectSocket browser,
    .opened 0 browser, .message 0 .ready browser, .closed 0 unknownToken]

/-- A request joins the re-login, which goes through. -/
def renewal : List Event :=
  restarted ++ [.unauthorized, .reauthed (.session renewed), .told browser]

theorem connection_kept_renewed :
    ∃ w, run step start renewal = some w ∧
      ∀ as u, as <+: renewal → run step start as = some u → u.Single ∧ u.Going :=
  ⟨_, rfl, (connection_kept_iff renewal rfl).mpr (by decide)⟩

/-- The re-login is denied, and a request's later one goes through: the session
is renewed, and nothing opens a socket for it. -/
theorem connection_not_always_kept :
    ¬ ∀ (es : List Event) (w : World), run step start es = some w → w.Single ∧ w.Going := by
  intro h
  have hs := (h (restarted ++ [.reauthed (.failed 403), .told browser, .unauthorized,
    .reauthed (.session renewed)]) _ rfl).2 rfl rfl
  revert hs
  decide

end World

end Lattix.Client.Socket
