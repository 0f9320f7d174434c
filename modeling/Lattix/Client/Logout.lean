import Mathlib.Data.List.Basic
import Lattix.Client.Api
import Lattix.Lib.Runs

namespace Lattix.Client.Logout
open Api Lib.Runs

structure TokenResponse where
  token : String
  username : String
deriving DecidableEq, Repr

/-- What a call of `_req` is for: a method of the object, or the login that the
function given to `setReauth` makes. -/
inductive Caller where
  | plain (method path : String)
  | login
  | register
  | reauth
  | logout
deriving DecidableEq, Repr

/-- What a call awaits: its send, with the token that went along, the pause
before another attempt, the re-login under way, its own turn once that is
through, or the rest of what it returns or throws. -/
inductive Stage where
  | sending (tokenUsed : Option String)
  | sleeping
  | renewing (tokenUsed : Option String)
  | renewed (tokenUsed : Option String) (r : Relogin)
  | ended (e : Ending)
deriving DecidableEq, Repr

structure Call where
  caller : Caller
  loop : Loop
  stage : Stage
deriving DecidableEq, Repr

/-- The promise `_reauthing`: its login is under way, or over and not yet acted on. -/
inductive Reauthing where
  | loggingIn
  | loggedIn (t : TokenResponse)
  | failed (status : Nat)
deriving DecidableEq, Repr

structure Sent where
  method : String
  path : String
  authorization : Option String
deriving DecidableEq, Repr

/-- The session of a `LattixApi` and the calls in flight. `reauth` is whether
there is a function to log in again, and `sent` are the requests so far. -/
structure LattixApi where
  token : Option String
  username : Option String
  wantSocket : Bool
  reauth : Bool
  reauthing : Option Reauthing
  calls : List Call
  sent : List Sent
deriving DecidableEq, Repr

inductive Event where
  | setReauth
  | request (method path : String)
  | login
  | register
  | logout
  | connectSocket
  | socketUnauthorized
  | reply (i : Nat) (r : Reply)
  | wake (i : Nat)
  | resume (i : Nat)
  | finish (i : Nat) (t : Option TokenResponse)
  | settle (listenerThrows : Bool)
deriving DecidableEq, Repr

def Caller.method : Caller → String
  | .plain method _ => method
  | _ => "POST"

def Caller.path : Caller → String
  | .plain _ path => path
  | .login | .reauth => "/api/login"
  | .register => "/api/register"
  | .logout => "/api/logout"

/-- The application logs in or registers. -/
def Event.signsIn : Event → Bool
  | .login | .register => true
  | _ => false

namespace LattixApi

def start : LattixApi := ⟨none, none, false, false, none, [], []⟩

def setSession (t : TokenResponse) (s : LattixApi) : LattixApi :=
  { s with token := some t.token, username := some t.username }

def put (i : Nat) (c : Call) (s : LattixApi) : LattixApi := { s with calls := s.calls.set i c }

/-- The `Authorization` header of what is sent now. -/
def authorization (s : LattixApi) : Option String := s.token.filter fun t => t != ""

/-- `_send`, up to its await. -/
def send (c : Caller) (s : LattixApi) : LattixApi :=
  { s with sent := s.sent ++ [⟨c.method, c.path, s.authorization⟩] }

/-- A call of `_req`, up to its first await. -/
def req (c : Caller) (s : LattixApi) : LattixApi :=
  { s.send c with calls := s.calls ++ [⟨c, ⟨0, false⟩, .sending s.token⟩] }

/-- `_relogin`: an outcome at once, if there is no function to log in again. -/
def relogin (s : LattixApi) : LattixApi × Option Relogin :=
  if !s.reauth then (s, some .denied)
  else if s.reauthing.isSome then (s, none)
  else ({ s with reauthing := some .loggingIn }.req .reauth, none)

/-- A turn of the loop is over. -/
def advance (i : Nat) (c : Call) (s : LattixApi) : Loop ⊕ Ending → LattixApi
  | .inl l =>
    -- Only a further attempt comes after a pause.
    if l.attempt = c.loop.attempt then (s.send c.caller).put i ⟨c.caller, l, .sending s.token⟩
    else s.put i ⟨c.caller, l, .sleeping⟩
  | .inr e => s.put i ⟨c.caller, c.loop, .ended e⟩

/-- The turn asks for a re-login. -/
def asks (c : Call) (tokenUsed : Option String) (r : Reply) (s : LattixApi) : Bool :=
  r = .status 401 && bears tokenUsed && decide (c.caller.path ∉ noReauth) && !c.loop.reauthed &&
    s.token == tokenUsed

/-- `_req` once its send has settled. -/
def reply (i : Nat) (c : Call) (tokenUsed : Option String) (r : Reply) (s : LattixApi) : LattixApi :=
  if s.asks c tokenUsed r then
    match s.relogin with
    | (s, none) => s.put i { c with stage := .renewing tokenUsed }
    | (s, some r) => s.put i { c with stage := .renewed tokenUsed r }
  else
    s.advance i c (c.loop.turn c.caller.method c.caller.path ⟨tokenUsed, r, s.token, .error⟩)

/-- `_req` once the re-login it waited for has come to `r`. -/
def resume (i : Nat) (c : Call) (tokenUsed : Option String) (r : Relogin) (s : LattixApi) : LattixApi :=
  s.advance i c
    (c.loop.turn c.caller.method c.caller.path ⟨tokenUsed, .status 401, tokenUsed, r⟩)

/-- Who called `_req` goes on. `t` is the session in the answer, if it can be read. -/
def finish (c : Caller) (e : Ending) (t : Option TokenResponse) (s : LattixApi) : LattixApi :=
  match c with
  | .plain .. => s
  | .login | .register =>
    match e, t with
    | .answered _, some t => s.setSession t
    | _, _ => s
  | .reauth =>
    match e, t with
    | .answered _, some t => { s.setSession t with reauthing := some (.loggedIn t) }
    | .refused code, _ => { s with reauthing := some (.failed code) }
    | _, _ => { s with reauthing := some (.failed 0) }
  | .logout => { s with token := none, username := none }

/-- Those who wait for the re-login are told its outcome. -/
def tell (r : Relogin) (s : LattixApi) : LattixApi :=
  { s with
    reauthing := none
    calls := s.calls.map fun c =>
      match c.stage with
      | .renewing tokenUsed => { c with stage := .renewed tokenUsed r }
      | _ => c }

/-- `_relogin` after its await. A listener that throws is caught in the `try`. -/
def settle (listenerThrows : Bool) (s : LattixApi) : Reauthing → Option LattixApi
  | .loggingIn => none
  | .loggedIn t => some ((s.setSession t).tell (if listenerThrows then .error else .ok))
  | .failed status =>
    if status = 401 ∨ status = 403 ∨ status = 404 then
      some (s.tell (if listenerThrows then .thrown else .denied))
    else some (s.tell .error)

def step (s : LattixApi) : Event → Option LattixApi
  | .setReauth => some { s with reauth := true }
  | .request method path => some (s.req (.plain method path))
  | .login => some (s.req .login)
  | .register => some (s.req .register)
  | .logout => some ({ s with wantSocket := false }.req .logout)
  | .connectSocket => some { s with wantSocket := s.wantSocket || bears s.token }
  | .socketUnauthorized =>
    if bears s.token && s.wantSocket then some s.relogin.1 else some s
  | .reply i r =>
    match s.calls[i]? with
    | some ⟨c, l, .sending tokenUsed⟩ => some (s.reply i ⟨c, l, .sending tokenUsed⟩ tokenUsed r)
    | _ => none
  | .wake i =>
    match s.calls[i]? with
    | some ⟨c, l, .sleeping⟩ => some ((s.send c).put i ⟨c, l, .sending s.token⟩)
    | _ => none
  | .resume i =>
    match s.calls[i]? with
    | some ⟨c, l, .renewed tokenUsed r⟩ =>
      some (s.resume i ⟨c, l, .renewed tokenUsed r⟩ tokenUsed r)
    | _ => none
  | .finish i t =>
    match s.calls[i]? with
    | some ⟨c, _, .ended e⟩ => some ({ s with calls := s.calls.eraseIdx i }.finish c e t)
    | _ => none
  | .settle listenerThrows => s.reauthing.bind (s.settle listenerThrows)

end LattixApi

/-! What is left of a session -/

/-- A login or a registration, which writes the session it is answered with. -/
def Caller.signsIn : Caller → Bool
  | .login | .register | .reauth => true
  | .plain .. | .logout => false

def Stage.mayAnswer : Stage → Bool
  | .ended (.answered _) => true
  | .ended _ => false
  | _ => true

def Stage.direct : Stage → Bool
  | .sending _ | .ended _ => true
  | _ => false

def Call.mayRenew (c : Call) : Bool := c.caller.signsIn && c.stage.mayAnswer

namespace LattixApi

/-- A login, a registration or a re-login is under way that can still write its
session. -/
def mayRenew (s : LattixApi) : Bool :=
  s.calls.any Call.mayRenew ||
    match s.reauthing with
    | some (.loggedIn _) => true
    | _ => false

/-- Whatever comes, as long as the application does not log in or register: there
is no token, and no request bears one. -/
def LoggedOut (s : LattixApi) : Prop :=
  ∀ es t, (∀ e ∈ es, e.signsIn = false) → run step s es = some t →
    t.token = none ∧ ∃ later, t.sent = s.sent ++ later ∧ ∀ x ∈ later, x.authorization = none

end LattixApi

namespace LattixApi
variable {s t : LattixApi} {c : Call} {i : Nat}

/-! Logins go out once -/

theorem turn_ends {c : Caller} (hc : c.signsIn = true) (l : Loop) (t : Turn) :
    ∃ e, l.turn c.method c.path t = .inr e := by
  have hm : c.method = "POST" := by
    cases c with
    | plain method path => cases hc
    | _ => rfl
  have hp : c.path ∈ noReauth := by
    cases c with
    | plain method path => cases hc
    | _ => decide
  cases h : l.turn c.method c.path t with
  | inr e => exact ⟨e, rfl⟩
  | inl l' =>
    rcases Loop.turn_again h with ⟨hl, -⟩ | ⟨-, hno, -⟩
    · rw [hm] at hl
      exact absurd hl (by simp [attempts])
    · exact absurd hp hno

theorem asks_signIn {tokenUsed : Option String} {r : Reply} (hc : c.caller.signsIn = true) :
    s.asks c tokenUsed r = false := by
  have hp : c.caller.path ∈ noReauth := by
    cases h : c.caller with
    | plain method path =>
      rw [h] at hc
      cases hc
    | _ => decide
  simp [asks, hp]

theorem mem_put {c' : Call} (h : c' ∈ (s.put i c).calls) : c' ∈ s.calls ∨ c' = c :=
  List.mem_or_eq_of_mem_set h

theorem mem_req {caller : Caller} (h : c ∈ (s.req caller).calls) :
    c ∈ s.calls ∨ c = ⟨caller, ⟨0, false⟩, .sending s.token⟩ :=
  (List.mem_append.mp h).imp_right List.mem_singleton.mp

theorem mem_relogin (h : c ∈ s.relogin.1.calls) :
    c ∈ s.calls ∨ c = ⟨.reauth, ⟨0, false⟩, .sending s.token⟩ := by
  unfold relogin at h
  split at h
  · exact Or.inl h
  · split at h
    · exact Or.inl h
    · exact mem_req h

theorem mem_tell {r : Relogin} (h : c ∈ (s.tell r).calls) :
    c ∈ s.calls ∨ ∃ l tokenUsed, ⟨c.caller, l, .renewing tokenUsed⟩ ∈ s.calls := by
  obtain ⟨d, hd, rfl⟩ := List.mem_map.mp h
  split
  · rename_i tokenUsed hst
    refine Or.inr ⟨d.loop, tokenUsed, ?_⟩
    rw [← hst]
    exact hd
  · exact Or.inl hd

/-- Every login or registration awaits its only send, or is through with it. -/
def Direct (s : LattixApi) : Prop := ∀ c ∈ s.calls, c.caller.signsIn = true → c.stage.direct = true

theorem Direct.put (hs : s.Direct) (hc : c.caller.signsIn = true → c.stage.direct = true) :
    (s.put i c).Direct := by
  intro d hd
  rcases mem_put hd with hd | rfl
  · exact hs d hd
  · exact hc

theorem Direct.req (hs : s.Direct) (caller : Caller) : (s.req caller).Direct := by
  intro d hd
  rcases mem_req hd with hd | rfl
  · exact hs d hd
  · exact fun _ => rfl

theorem Direct.relogin (hs : s.Direct) : s.relogin.1.Direct := by
  intro d hd
  rcases mem_relogin hd with hd | rfl
  · exact hs d hd
  · exact fun _ => rfl

theorem Direct.tell (hs : s.Direct) (r : Relogin) : (s.tell r).Direct := by
  intro d hd hsign
  rcases mem_tell hd with hd | ⟨l, tokenUsed, hd⟩
  · exact hs d hd hsign
  · cases hs _ hd hsign

theorem Direct.advance (hs : s.Direct) {t : Turn} :
    (s.advance i c (c.loop.turn c.caller.method c.caller.path t)).Direct := by
  cases hsign : c.caller.signsIn with
  | true =>
    obtain ⟨e, he⟩ := turn_ends hsign c.loop t
    rw [he]
    exact hs.put fun _ => rfl
  | false =>
    have hno {P : Prop} : c.caller.signsIn = true → P := by simp [hsign]
    unfold LattixApi.advance
    split
    · split
      · exact Direct.put (s := s.send c.caller) hs hno
      · exact hs.put hno
    · exact hs.put hno

theorem Direct.finish (hs : s.Direct) (c : Caller) (e : Ending) (t : Option TokenResponse) :
    (s.finish c e t).Direct := by
  unfold LattixApi.finish
  repeat' split
  all_goals exact hs

theorem step_direct (s : LattixApi) (e : Event) (t : LattixApi) (hs : s.Direct)
    (h : s.step e = some t) : t.Direct := by
  cases e with
  | setReauth | connectSocket =>
    cases h
    exact hs
  | request | login | register =>
    cases h
    exact hs.req _
  | logout =>
    cases h
    exact Direct.req (s := { s with wantSocket := false }) hs _
  | socketUnauthorized =>
    simp only [step] at h
    split at h
    · cases h
      exact hs.relogin
    · cases h
      exact hs
  | reply i r =>
    simp only [step] at h
    split at h
    · rename_i c l tokenUsed hc
      cases h
      unfold reply
      split
      · rename_i hasks
        have hno {P : Prop} : c.signsIn = true → P := by
          intro hsign
          rw [asks_signIn hsign] at hasks
          cases hasks
        have hr := hs.relogin
        split
        all_goals
          rename_i hre
          rw [hre] at hr
          exact hr.put hno
      · exact hs.advance
    · cases h
  | wake i =>
    simp only [step] at h
    split at h
    · rename_i c l hc
      cases h
      exact Direct.put (s := s.send c) hs fun _ => rfl
    · cases h
  | resume i =>
    simp only [step] at h
    split at h
    · cases h
      exact hs.advance
    · cases h
  | finish i t =>
    simp only [step] at h
    split at h
    · cases h
      refine Direct.finish (fun d hd => hs d ?_) _ _ _
      exact List.mem_of_mem_eraseIdx hd
    · cases h
  | settle listenerThrows =>
    obtain ⟨r, -, h⟩ := Option.bind_eq_some_iff.mp h
    cases r with
    | loggingIn => cases h
    | loggedIn t =>
      cases h
      exact Direct.tell (s := s.setSession t) hs _
    | failed status =>
      simp only [settle] at h
      split at h
      all_goals
        cases h
        exact hs.tell _

/-! After a logout with no login under way -/

theorem mayRenew_iff : s.mayRenew = true ↔
    (∃ c ∈ s.calls, c.mayRenew = true) ∨ ∃ t, s.reauthing = some (.loggedIn t) := by
  rw [mayRenew, Bool.or_eq_true_iff, List.any_eq_true]
  refine or_congr_right ?_
  rcases s.reauthing with - | - | - | - <;> simp

/-- No session, nothing that brings one, and no token on what was sent since. -/
structure Over (before : List Sent) (s : LattixApi) : Prop where
  token : s.token = none
  calls : ∀ c ∈ s.calls, c.mayRenew = false
  reauthing : ∀ t, s.reauthing ≠ some (.loggedIn t)
  sent : ∃ later, s.sent = before ++ later ∧ ∀ x ∈ later, x.authorization = none

variable {before : List Sent}

theorem Over.put (hs : s.Over before) (hc : c.mayRenew = false) : (s.put i c).Over before where
  token := hs.token
  calls d hd := by
    rcases mem_put hd with hd | rfl
    · exact hs.calls d hd
    · exact hc
  reauthing := hs.reauthing
  sent := hs.sent

theorem Over.send (hs : s.Over before) (caller : Caller) : (s.send caller).Over before where
  token := hs.token
  calls := hs.calls
  reauthing := hs.reauthing
  sent := by
    obtain ⟨later, hl, hno⟩ := hs.sent
    refine ⟨later ++ [⟨caller.method, caller.path, s.authorization⟩], ?_, fun x hx => ?_⟩
    · rw [LattixApi.send, hl, List.append_assoc]
    · rcases List.mem_append.mp hx with hx | hx
      · exact hno x hx
      · cases List.mem_singleton.mp hx
        simp [authorization, hs.token]

theorem Over.req (hs : s.Over before) {caller : Caller} (hc : caller.signsIn = false) :
    (s.req caller).Over before where
  token := hs.token
  calls d hd := by
    rcases mem_req hd with hd | rfl
    · exact hs.calls d hd
    · simp [Call.mayRenew, hc]
  reauthing := hs.reauthing
  sent := (hs.send caller).sent

/-- A call whose turn is not over yet is none that could bring a session. -/
theorem Over.caller (hs : s.Over before) (hc : c ∈ s.calls) (ha : c.stage.mayAnswer = true) :
    c.caller.signsIn = false := by
  simpa [Call.mayRenew, ha] using hs.calls c hc

theorem Over.advance (hs : s.Over before) (hc : c.caller.signsIn = false) (r : Loop ⊕ Ending) :
    (s.advance i c r).Over before := by
  have hno {l : Loop} {st : Stage} : Call.mayRenew ⟨c.caller, l, st⟩ = false := by
    simp [Call.mayRenew, hc]
  unfold LattixApi.advance
  split
  · split
    · exact (hs.send c.caller).put hno
    · exact hs.put hno
  · exact hs.put hno

theorem Over.tell (hs : s.Over before) (r : Relogin) : (s.tell r).Over before where
  token := hs.token
  calls d hd := by
    rcases mem_tell hd with hd | ⟨l, tokenUsed, hd⟩
    · exact hs.calls d hd
    · have hc : d.caller.signsIn = false := hs.caller (c := ⟨d.caller, l, .renewing tokenUsed⟩) hd rfl
      simp [Call.mayRenew, hc]
  reauthing t h := by cases h
  sent := hs.sent

theorem Over.finish (hs : s.Over before) {l : Loop} {e : Ending} {caller : Caller}
    (hc : Call.mayRenew ⟨caller, l, .ended e⟩ = false) (t : Option TokenResponse) :
    (s.finish caller e t).Over before := by
  cases caller with
  | plain => exact hs
  | logout => exact ⟨rfl, hs.calls, hs.reauthing, hs.sent⟩
  | login | register =>
    cases e with
    | answered => cases hc
    | _ => exact hs
  | reauth =>
    cases e with
    | answered => cases hc
    | _ => exact ⟨hs.token, hs.calls, by simp [LattixApi.finish], hs.sent⟩

theorem step_over (s : LattixApi) (e : Event) (t : LattixApi) (hs : s.Over before)
    (he : e.signsIn = false) (h : s.step e = some t) : t.Over before := by
  cases e with
  | login | register => cases he
  | setReauth | connectSocket =>
    cases h
    exact ⟨hs.token, hs.calls, hs.reauthing, hs.sent⟩
  | request =>
    cases h
    exact hs.req rfl
  | logout =>
    cases h
    exact Over.req (s := { s with wantSocket := false })
      ⟨hs.token, hs.calls, hs.reauthing, hs.sent⟩ rfl
  | socketUnauthorized =>
    simp only [step, hs.token, bears, Option.any_none, Bool.false_and] at h
    cases h
    exact hs
  | reply i r =>
    simp only [step] at h
    split at h
    · rename_i c l tokenUsed hc
      cases h
      -- A 401 finds no token, so it is not what the call had used.
      have hasks : s.asks ⟨c, l, .sending tokenUsed⟩ tokenUsed r = false := by
        cases tokenUsed <;> simp [asks, hs.token, bears]
      have hcaller := hs.caller (List.mem_of_getElem? hc) rfl
      rw [reply, hasks]
      exact hs.advance hcaller _
    · cases h
  | wake i =>
    simp only [step] at h
    split at h
    · rename_i c l hc
      cases h
      have hcaller : c.signsIn = false := hs.caller (List.mem_of_getElem? hc) rfl
      exact (hs.send c).put (by simp [Call.mayRenew, hcaller])
    · cases h
  | resume i =>
    simp only [step] at h
    split at h
    · rename_i c l tokenUsed r hc
      cases h
      exact hs.advance (hs.caller (List.mem_of_getElem? hc) rfl) _
    · cases h
  | finish i t =>
    simp only [step] at h
    split at h
    · rename_i c l e hc
      cases h
      refine Over.finish ?_ (hs.calls _ (List.mem_of_getElem? hc)) t
      exact ⟨hs.token, fun d hd => hs.calls d (List.mem_of_mem_eraseIdx hd), hs.reauthing, hs.sent⟩
    · cases h
  | settle listenerThrows =>
    obtain ⟨r, hr, h⟩ := Option.bind_eq_some_iff.mp h
    cases r with
    | loggingIn => cases h
    | loggedIn t => exact absurd hr (hs.reauthing t)
    | failed status =>
      simp only [settle] at h
      split at h
      all_goals
        cases h
        exact hs.tell _

theorem Over.loggedOut (hs : s.Over s.sent) : s.LoggedOut := by
  intro es t hes hrun
  have ht := invariant_meets (I := Over s.sent) step_over hs (meets_labels hes) hrun
  exact ⟨ht.token, ht.sent⟩

/-! With a login under way -/

def renewal : TokenResponse := ⟨"renewed", "ann"⟩

theorem finish_renews {c : Caller} {l : Loop} {code : Nat} (hc : c.signsIn = true)
    (hi : s.calls[i]? = some ⟨c, l, .ended (.answered code)⟩) :
    ∃ t, s.step (.finish i (some renewal)) = some t ∧ t.token = some "renewed" := by
  refine ⟨_, by rw [step, hi], ?_⟩
  cases c with
  | plain | logout => cases hc
  | _ => rfl

/-- A login that is answered 200. -/
theorem reply_answers {c : Caller} {l : Loop} {tokenUsed : Option String}
    (hi : s.calls[i]? = some ⟨c, l, .sending tokenUsed⟩) :
    s.step (.reply i (.status 200)) = some (s.put i ⟨c, l, .ended (.answered 200)⟩) := by
  rw [step, hi]
  simp [reply, asks, LattixApi.advance, Loop.turn, Loop.settle]

theorem renews (hs : s.Direct) (h : s.mayRenew = true) : ¬s.LoggedOut := by
  intro hout
  rcases mayRenew_iff.mp h with ⟨⟨c, l, st⟩, hc, hm⟩ | ⟨t, ht⟩
  · obtain ⟨hsign, hans⟩ := Bool.and_eq_true_iff.mp hm
    obtain ⟨i, hi⟩ := List.mem_iff_getElem?.mp hc
    cases st with
    | sending tokenUsed =>
      have hput : (s.put i ⟨c, l, .ended (.answered 200)⟩).calls[i]? =
          some ⟨c, l, .ended (.answered 200)⟩ := by
        rw [put, List.getElem?_set_self (List.getElem?_eq_some_iff.mp hi).1]
      obtain ⟨t, ht, htoken⟩ := finish_renews hsign hput
      have hrun : run step s [.reply i (.status 200), .finish i (some renewal)] = some t :=
        run_cons.mpr ⟨_, reply_answers hi, run_cons.mpr ⟨t, ht, rfl⟩⟩
      rw [(hout _ t (by simp [Event.signsIn]) hrun).1] at htoken
      cases htoken
    | ended e =>
      cases e with
      | answered code =>
        obtain ⟨t, ht, htoken⟩ := finish_renews hsign hi
        have hrun : run step s [.finish i (some renewal)] = some t := run_cons.mpr ⟨t, ht, rfl⟩
        rw [(hout _ t (by simp [Event.signsIn]) hrun).1] at htoken
        cases htoken
      | refused | unreachable | thrown => cases hans
    | sleeping | renewing | renewed => cases hs _ hc hsign
  · have hrun : run step s [.settle false] = some ((s.setSession t).tell .ok) := by
      simp [run, step, ht, settle]
    cases (hout _ _ (by simp [Event.signsIn]) hrun).1

/-- After a logout there is no session, and no request with a token, just when no
login is under way as it completes. -/
theorem logout_final_iff {es : List Event} (hrun : run step start es = some s) {c : Call}
    (hc : s.calls[i]? = some c) (hlogout : c.caller = .logout) {r : Option TokenResponse}
    (ht : s.step (.finish i r) = some t) : t.LoggedOut ↔ s.mayRenew = false := by
  have hdirect : s.Direct := invariant step_direct (by rintro d ⟨⟩) hrun
  have htdirect := step_direct s _ t hdirect ht
  obtain ⟨caller, l, st⟩ := c
  cases hlogout
  simp only [step, hc] at ht
  split at ht
  · rename_i he
    cases he
    cases ht
    have hother : ∀ d ∈ s.calls, d.mayRenew = true → d ∈ s.calls.eraseIdx i := by
      intro d hd hm
      obtain ⟨j, hj⟩ := List.mem_iff_getElem?.mp hd
      refine List.mem_eraseIdx_iff_getElem?.mpr ⟨j, ?_, hj⟩
      rintro rfl
      cases hc.symm.trans hj
      cases hm
    constructor
    · intro hout
      rw [← Bool.not_eq_true]
      intro hm
      refine renews htdirect (mayRenew_iff.mpr ?_) hout
      exact (mayRenew_iff.mp hm).imp_left fun ⟨d, hd, hd'⟩ => ⟨d, hother d hd hd', hd'⟩
    · intro hm
      have hno : ¬((∃ d ∈ s.calls, d.mayRenew = true) ∨ ∃ t, s.reauthing = some (.loggedIn t)) := by
        rw [← mayRenew_iff, hm]
        simp
      refine Over.loggedOut ⟨rfl, fun d hd => ?_, fun t h => hno (Or.inr ⟨t, h⟩), [], ?_, ?_⟩
      · rw [← Bool.not_eq_true]
        exact fun hd' => hno (Or.inl ⟨d, List.mem_of_mem_eraseIdx hd, hd'⟩)
      · exact (List.append_nil _).symm
      · rintro x ⟨⟩
  · cases ht

/-- ann is logged in, and asks for her profile and logs out. -/
def leaving : List Event :=
  [.login, .reply 0 (.status 200), .finish 0 (some ⟨"first", "ann"⟩), .setReauth,
    .request "GET" "/api/me", .logout]

/-- Her profile comes before the relay forgets her. -/
theorem leaves_in_peace : ∃ t, run step start (leaving ++
    [.reply 0 (.status 200), .reply 1 (.status 200), .finish 1 none]) = some t ∧ t.LoggedOut := by
  have hrun : run step start (leaving ++ [.reply 0 (.status 200), .reply 1 (.status 200)]) =
      some _ := rfl
  exact ⟨_, rfl, (logout_final_iff hrun (i := 1) rfl rfl rfl).mpr rfl⟩

/-- The relay has forgotten her before: the re-login for her profile is answered
after the logout. -/
theorem logout_not_always_final : ¬∀ (es : List Event) (s t : LattixApi) (i : Nat) (c : Call)
    (r : Option TokenResponse), run step start es = some s → s.calls[i]? = some c →
      c.caller = .logout → s.step (.finish i r) = some t → t.LoggedOut := by
  intro hall
  have hout := hall (leaving ++ [.reply 0 (.status 401), .reply 1 (.status 200)]) _ _ 1 _ none
    rfl rfl rfl rfl
  have hrun := hout [.reply 1 (.status 200), .finish 1 (some ⟨"second", "ann"⟩), .settle false,
    .resume 0] _ (by decide) rfl
  cases hrun.1

end LattixApi

end Lattix.Client.Logout
