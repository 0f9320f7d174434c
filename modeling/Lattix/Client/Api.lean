import Lattix.Server.Requests

namespace Lattix.Client.Api

/-- What becomes of one send: nothing in time, or an answer. -/
inductive Reply where
  | failed
  | status (code : Nat)
deriving DecidableEq, Repr

/-- What comes of `_relogin`. It rejects only if a listener of its event throws. -/
inductive Relogin where
  | ok
  | denied
  | error
  | thrown
deriving DecidableEq, Repr

/-- What one turn of the loop meets: the token it sends, the reply, the token by
then, and the outcome of a re-login, should it ask for one. -/
structure Turn where
  tokenUsed : Option String
  reply : Reply
  token : Option String
  relogin : Relogin
deriving DecidableEq, Repr

/-- How a call ends. All but the first throw. -/
inductive Ending where
  | answered (code : Nat)
  | refused (code : Nat)
  | unreachable
  | thrown
deriving DecidableEq, Repr

/-- The variables of the loop. -/
structure Loop where
  attempt : Nat
  reauthed : Bool
deriving DecidableEq, Repr

def readAttempts : Nat := 3

def retryStatuses : List Nat := [502, 503, 504]

def noReauth : List String := ["/api/login", "/api/register", "/api/logout"]

def attempts (method : String) : Nat := if method = "GET" then readAttempts else 1

/-- An empty token counts as none. -/
def bears (token : Option String) : Bool := token.any fun t => t != ""

namespace Loop

/-- What is left to do with a status once a re-login is out of question. -/
def settle (method : String) (l : Loop) (code : Nat) : Loop ⊕ Ending :=
  if 200 ≤ code ∧ code < 300 then .inr (.answered code)
  else if code ∈ retryStatuses ∧ l.attempt + 1 < attempts method then
    .inl { l with attempt := l.attempt + 1 }
  else .inr (.refused code)

/-- The body of the loop. -/
def turn (method path : String) (l : Loop) (t : Turn) : Loop ⊕ Ending :=
  match t.reply with
  | .failed =>
    if l.attempt + 1 < attempts method then .inl { l with attempt := l.attempt + 1 }
    else .inr .unreachable
  | .status code =>
    if code = 401 ∧ bears t.tokenUsed = true ∧ path ∉ noReauth ∧ l.reauthed = false then
      if t.token ≠ t.tokenUsed then .inl { l with reauthed := true }
      else
        match t.relogin with
        -- The turn does not count: attempt-- undoes the loop's attempt++.
        | .ok => .inl { l with reauthed := true }
        | .thrown => .inr .thrown
        | .denied | .error => settle method { l with reauthed := true } code
    else settle method l code

/-- How many turns there can still be. -/
def left (method : String) (l : Loop) : Nat :=
  (attempts method - l.attempt) + if l.reauthed then 0 else 1

theorem settle_again {method : String} {l l' : Loop} {code : Nat}
    (h : l.settle method code = .inl l') : code ∈ retryStatuses ∧
      l.attempt + 1 < attempts method ∧ l' = { l with attempt := l.attempt + 1 } := by
  unfold settle at h
  split at h
  · cases h
  · split at h
    · rename_i hc
      cases h
      exact ⟨hc.1, hc.2, rfl⟩
    · cases h

/-- The loop goes on only as one more attempt or, once, after a 401. -/
theorem turn_again {method path : String} {l l' : Loop} {t : Turn}
    (h : l.turn method path t = .inl l') :
    (l.attempt + 1 < attempts method ∧ l' = { l with attempt := l.attempt + 1 }) ∨
    (t.reply = .status 401 ∧ path ∉ noReauth ∧ l.reauthed = false ∧
      l' = { l with reauthed := true }) := by
  unfold turn at h
  split at h
  · split at h
    · rename_i hl
      cases h
      exact .inl ⟨hl, rfl⟩
    · cases h
  · rename_i code hr
    split at h
    · rename_i hc
      obtain ⟨rfl, -, hp, hre⟩ := hc
      split at h
      · cases h
        exact .inr ⟨hr, hp, hre, rfl⟩
      · split at h
        · cases h
          exact .inr ⟨hr, hp, hre, rfl⟩
        · cases h
        all_goals
          obtain ⟨hm, -, -⟩ := settle_again h
          exact absurd hm (by decide)
    · obtain ⟨-, hl, he⟩ := settle_again h
      exact .inl ⟨hl, he⟩

theorem turn_left {method path : String} {l l' : Loop} {t : Turn}
    (h : l.turn method path t = .inl l') : l'.left method < l.left method := by
  rcases turn_again h with ⟨hl, rfl⟩ | ⟨-, -, hr, rfl⟩
  · simp only [left]
    omega
  · simp [left, hr]

/-- The loop from its `n`-th send on: how many sends there were, and the end. -/
def run (method path : String) (env : Nat → Turn) (l : Loop) (n : Nat) : Nat × Ending :=
  match h : l.turn method path (env n) with
  | .inl l' => run method path env l' (n + 1)
  | .inr e => (n + 1, e)
termination_by l.left method
decreasing_by exact turn_left h

theorem run_inl {method path : String} {env : Nat → Turn} {l l' : Loop} {n : Nat}
    (h : l.turn method path (env n) = .inl l') :
    run method path env l n = run method path env l' (n + 1) := by
  rw [run]
  split
  · rename_i l'' h'
    rw [h] at h'
    cases h'
    rfl
  · rename_i e h'
    rw [h] at h'
    cases h'

theorem run_inr {method path : String} {env : Nat → Turn} {l : Loop} {n : Nat} {e : Ending}
    (h : l.turn method path (env n) = .inr e) : run method path env l n = (n + 1, e) := by
  rw [run]
  split
  · rename_i l'' h'
    rw [h] at h'
    cases h'
  · rename_i e' h'
    rw [h] at h'
    cases h'
    rfl

theorem run_sends {method path : String} {env : Nat → Turn} {l : Loop} {n : Nat}
    (hl : l.attempt < attempts method) :
    (run method path env l n).1 ≤ n + l.left method := by
  induction l, n using run.induct method path env with
  | case1 l n l' h ih =>
    rw [run_inl h]
    have hlt := turn_left h
    have hl' : l'.attempt < attempts method := by
      rcases turn_again h with ⟨hl', rfl⟩ | ⟨-, -, -, rfl⟩
      · exact hl'
      · exact hl
    have := ih hl'
    omega
  | case2 l n e h =>
    rw [run_inr h]
    simp only [left]
    omega

end Loop

/-- `LattixApi._req`, on what its turns meet. -/
def req (method path : String) (env : Nat → Turn) : Nat × Ending :=
  Loop.run method path env ⟨0, false⟩ 0

/-- A write is sent again only after a 401. -/
theorem write_again {method path : String} {env : Nat → Turn} (hm : method ≠ "GET")
    (h : 1 < (req method path env).1) : (env 0).reply = .status 401 ∧ path ∉ noReauth := by
  have ha : attempts method = 1 := if_neg hm
  unfold req at h
  cases ht : Loop.turn method path ⟨0, false⟩ (env 0) with
  | inl l =>
    rcases Loop.turn_again ht with ⟨hl, -⟩ | ⟨hr, hp, -, -⟩
    · rw [ha] at hl
      omega
    · exact ⟨hr, hp⟩
  | inr e =>
    rw [Loop.run_inr ht] at h
    omega

theorem req_sends (method path : String) (env : Nat → Turn) :
    (req method path env).1 ≤ attempts method + 1 := by
  have hl : 0 < attempts method := by
    unfold attempts
    split <;> decide
  have h : (req method path env).1 ≤ 0 + Loop.left method ⟨0, false⟩ := Loop.run_sends hl
  simpa [Loop.left] using h

end Lattix.Client.Api

/-! At the relay -/

namespace Lattix.Server
open Lib.Transactions

def Response.status : Response → Nat
  | .refused status _ => status
  | .failed => 500
  | _ => 200

def Request.method : Request → String
  | .register _ | .login .. | .logout | .sendMessage _ | .sendFileMessage _ | .createGroup .. |
    .addMember .. | .sendGroupMessage .. | .sendGroupFile .. | .uploadFile .. => "POST"
  | .setAvatar _ => "PUT"
  | .deleteAccount | .removeMember .. => "DELETE"
  | _ => "GET"

/-- Where the client sends a request; `encode` is encodeURIComponent. -/
def Request.path (encode : String → String) : Request → String
  | .register _ => "/api/register"
  | .login .. => "/api/login"
  | .logout => "/api/logout"
  | .getPublicUser username => "/api/users/" ++ encode username
  | .searchUsers q => "/api/users?q=" ++ encode q
  | .me | .deleteAccount => "/api/me"
  | .setAvatar _ => "/api/me/avatar"
  | .sendMessage _ => "/api/messages"
  | .sendFileMessage _ => "/api/messages/file"
  | .conversation peer since => s!"/api/conversations/{encode peer}?since={since}"
  | .inbox since => s!"/api/inbox?since={since}"
  | .createGroup .. | .listGroups => "/api/groups"
  | .getGroup groupId => s!"/api/groups/{groupId}"
  | .addMember groupId _ => s!"/api/groups/{groupId}/members"
  | .removeMember groupId username => s!"/api/groups/{groupId}/members/{encode username}"
  | .sendGroupMessage groupId _ => s!"/api/groups/{groupId}/messages"
  | .sendGroupFile groupId _ => s!"/api/groups/{groupId}/messages/file"
  | .groupMessages groupId since => s!"/api/groups/{groupId}/messages?since={since}"
  | .uploadFile .. => "/api/files"
  | .downloadFile fileId => "/api/files/" ++ encode fileId

/-- The endpoints without `require_user`. -/
def Request.open : Request → Bool
  | .register _ | .login .. | .logout => true
  | _ => false

/-- The relay takes the request up: `require_user` lets it through. -/
def Service.executes (authorization : String) (req : Request) (d : Draws) (s : Service) : Bool :=
  req.open || (requireUser d.checkedAt authorization s.tokens).1.isSome

theorem member_answers {Q : Response → Prop} {me : String} {groupId : Nat} {f : Group → Db Response}
    (hf : ∀ group, Answers Q (f group)) (hno : Q noGroup) :
    Answers Q (requireGroupMember me groupId >>= fun found =>
      match found with
      | none => pure noGroup
      | some group => f group) := by
  refine .bind fun found => ?_
  cases found with
  | none => exact .pure hno
  | some group => exact hf group

/-- Of the endpoints behind `require_user`, only one that reads answers 401. -/
theorem handler_answers (R : Runtime) (d : Draws) (me : String) {req : Request}
    (hm : req.method ≠ "GET") : Answers (fun r : Response => r.status ≠ 401) (handler R d me req) := by
  cases req with
  | getPublicUser | searchUsers | me | conversation | inbox | listGroups | getGroup
    | groupMessages | downloadFile => exact absurd rfl hm
  | register | login | logout => exact .pure (by decide)
  | setAvatar => exact .bind fun _ => .pure (by simp [Response.status])
  | deleteAccount => exact .bind fun _ => .bind fun _ => .pure (by decide)
  | sendMessage m =>
    refine .bind fun known => ?_
    cases known with
    | false => exact .pure (by decide)
    | true => exact .bind fun e => .pure (by simp [Response.status])
  | sendFileMessage m =>
    refine .bind fun known => ?_
    cases known with
    | false => exact .pure (by decide)
    | true =>
      refine .bind fun own => ?_
      cases own with
      | false => exact .pure (by decide)
      | true => exact .bind fun e => .pure (by simp [Response.status])
  | createGroup name members icon =>
    refine .bind fun known => .bind fun group => ?_
    cases group with
    | none => exact .pure (by decide)
    | some group => exact .pure (by simp [Response.status])
  | addMember groupId username =>
    refine member_answers (fun group => ?_) (by decide)
    split
    · exact .pure (by decide)
    · refine .bind fun known => ?_
      cases known with
      | false => exact .pure (by decide)
      | true =>
        refine .bind fun _ => .bind fun updated => ?_
        cases updated with
        | none => exact .pure (by decide)
        | some updated => exact .pure (by simp [Response.status])
  | removeMember groupId username =>
    refine member_answers (fun group => ?_) (by decide)
    split
    · exact .pure (by decide)
    · refine .bind fun _ => ?_
      split
      · exact .bind fun _ => .pure (by decide)
      · exact .pure (by decide)
  | sendGroupMessage groupId m =>
    exact member_answers (fun _ => .bind fun e => .pure (by simp [Response.status])) (by decide)
  | sendGroupFile groupId m =>
    refine member_answers (fun _ => .bind fun own => ?_) (by decide)
    cases own with
    | false => exact .pure (by decide)
    | true => exact .bind fun e => .pure (by simp [Response.status])
  | uploadFile chunks size =>
    show Answers _ (uploadFileRequest R d me chunks size)
    unfold uploadFileRequest
    split
    · exact .pure (by decide)
    · split
      · exact .pure (by simp [Response.status])
      · exact .bind fun _ => .pure (by simp [Response.status])

/-- A 401 to a write comes from `require_user`: nothing was executed. -/
theorem handle_unauthorized {R : Runtime} {authorization : String} {req : Request} {d : Draws}
    {s : Service} (hm : req.method ≠ "GET") (ho : req.open = false)
    (h : (s.handle R authorization req d).1.status = 401) :
    s.executes authorization req d = false := by
  have hg : s.handle R authorization req d = s.guarded R authorization req d := by
    cases req with
    | register | login | logout => cases ho
    | _ => rfl
  have hrun : ∀ me ts, (Service.serve R d me req { s with tokens := ts }).1.status ≠ 401 := by
    intro me ts
    have ha := handler_answers R d me.username hm s.conn
    unfold Service.serve
    split
    · rename_i r c he
      exact ha r (congrArg Prod.fst he)
    · simp [Response.status]
  rw [hg, Service.guarded] at h
  rw [Service.executes, ho, Bool.false_or]
  cases hr : requireUser d.checkedAt authorization s.tokens with
  | mk found ts =>
    cases found with
    | none => rfl
    | some me =>
      rw [hr] at h
      exact absurd h (hrun me ts)

end Lattix.Server

namespace Lattix.Client.Api
open Server

/-- The way of one send. It may reach the relay in some state of it, and the
client may see something else than the relay's answer: nothing, or a status of a
gateway's own. A 401 is the relay's. -/
structure Passage where
  arrived : Option (Service × Draws)
  instead : Option Reply
  genuine : instead ≠ some (.status 401)

/-- A send with what the client has and does about it. -/
structure Send where
  tokenUsed : Option String
  passage : Passage
  token : Option String
  relogin : Relogin

def authorization (token : Option String) : String :=
  match token with
  | none => ""
  | some t => if t = "" then "" else "Bearer " ++ t

section sends
variable (R : Runtime) (request : Request)

def Send.reply (x : Send) : Reply :=
  match x.passage.instead, x.passage.arrived with
  | some r, _ => r
  | none, none => .failed
  | none, some (s, d) => .status (s.handle R (authorization x.tokenUsed) request d).1.status

def Send.executed (x : Send) : Bool :=
  x.passage.arrived.any fun (s, d) => s.executes (authorization x.tokenUsed) request d

def Send.turn (x : Send) : Turn := ⟨x.tokenUsed, x.reply R request, x.token, x.relogin⟩

/-- How often the relay executes one call of the client. -/
def executions (encode : String → String) (net : Nat → Send) : Nat :=
  (List.range (req request.method (request.path encode) fun n => (net n).turn R request).1).countP
    fun n => (net n).executed request

end sends

theorem executed_rejected {R : Runtime} {request : Request} {x : Send}
    (hm : request.method ≠ "GET") (ho : request.open = false)
    (h : x.reply R request = .status 401) : x.executed request = false := by
  obtain ⟨tokenUsed, ⟨arrived, instead, genuine⟩, token, relogin⟩ := x
  cases instead with
  | some r => exact absurd (congrArg some h) genuine
  | none =>
    cases arrived with
    | none => cases h
    | some p =>
      obtain ⟨s, d⟩ := p
      have hs : (s.handle R (authorization tokenUsed) request d).1.status = 401 := by
        simpa [Send.reply] using h
      simpa [Send.executed] using handle_unauthorized hm ho hs

theorem open_path (encode : String → String) {request : Request} (ho : request.open = true) :
    request.path encode ∈ noReauth := by
  cases request with
  | register => exact .tail _ (.head _)
  | login => exact .head _
  | logout => exact .tail _ (.tail _ (.head _))
  | _ => cases ho

theorem executed_once {R : Runtime} {request : Request} (encode : String → String)
    (net : Nat → Send) (hm : request.method ≠ "GET") : executions R request encode net ≤ 1 := by
  let env := fun n => (net n).turn R request
  have hs := req_sends request.method (request.path encode) env
  have ha : attempts request.method = 1 := if_neg hm
  by_cases hgt : 1 < (req request.method (request.path encode) env).1
  · have h2 : (req request.method (request.path encode) env).1 = 2 := by omega
    obtain ⟨h401, hp⟩ := write_again hm hgt
    have ho : request.open = false := by
      rw [← Bool.not_eq_true]
      exact fun ho => hp (open_path encode ho)
    -- The first send is the one that was turned away.
    have hno := executed_rejected hm ho h401
    rw [executions, h2, show List.range 2 = [0, 1] from rfl, List.countP_cons_of_neg (by simp [hno])]
    exact List.countP_le_length
  · refine (List.countP_le_length).trans ?_
    rw [List.length_range]
    exact Nat.le_of_not_lt hgt

/-- A call is sent four times at most if it reads and twice if it writes, then
only because the relay answered 401, and what writes is executed at most once. -/
theorem requests_bounded :
    (∀ method path env, if method = "GET" then (req method path env).1 ≤ 4
      else (req method path env).1 ≤ 2 ∧
        ((req method path env).1 = 2 → (env 0).reply = .status 401)) ∧
    ∀ R request encode net, request.method = "GET" ∨ executions R request encode net ≤ 1 := by
  constructor
  · intro method path env
    have hs := req_sends method path env
    split
    · rename_i hm
      simpa [attempts, hm, readAttempts] using hs
    · rename_i hm
      refine ⟨by simpa [attempts, hm] using hs, fun h2 => ?_⟩
      have hgt : 1 < (req method path env).1 := by omega
      exact (write_again hm hgt).1
  · intro R request encode net
    by_cases hm : request.method = "GET"
    · exact .inl hm
    exact .inr (executed_once encode net hm)

end Lattix.Client.Api
