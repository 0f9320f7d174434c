import Lattix.Server.Calls

namespace Lattix.Server
open Lib.Transactions

/-- One registration of a name. The relay itself keeps only the name; `serial`
tells the successive accounts of one name apart. -/
structure Account where
  username : String
  serial : Nat
deriving DecidableEq, Repr

/-- An entry of `_tokens`, with the account it was issued for. -/
structure TokenRecord where
  account : Account
  expiresAt : Nat
deriving DecidableEq, Repr

abbrev Tokens := List (String × TokenRecord)

def tokenTtl : Nat := 60 * 60 * 12

def issueToken (now : Nat) (token : String) (account : Account) (ts : Tokens) : Tokens :=
  let kept := ts.filter fun e => !decide (e.2.expiresAt < now)
  kept.filter (fun e => e.1 != token) ++ [(token, ⟨account, now + tokenTtl⟩)]

/-- Whom a token stands for, and the store without it if it has expired. -/
def resolveToken (now : Nat) (token : String) (ts : Tokens) : Option Account × Tokens :=
  match ts.find? fun e => e.1 == token with
  | none => (none, ts)
  | some e =>
    if e.2.expiresAt < now then (none, ts.filter fun e => e.1 != token)
    else (some e.2.account, ts)

/-- `authorization[7:]` of a header that starts with "Bearer ". -/
def bearer (authorization : String) : Option String :=
  if "Bearer ".toList.isPrefixOf authorization.toList then
    some (String.ofList (authorization.toList.drop 7))
  else none

/-- The FastAPI dependency of every authenticated endpoint. -/
def requireUser (now : Nat) (authorization : String) (ts : Tokens) : Option Account × Tokens :=
  match bearer authorization with
  | none => (none, ts)
  | some token => resolveToken now token ts

structure RegisterRequest where
  username : String
  kemPublicKey : String
  dsaPublicKey : String
  fingerprint : String
  authSecret : String
  avatar : Option String
deriving DecidableEq, Repr

/-- Where a request stands between two accesses to the database or the token
store. `serve` is any authenticated endpoint but `delete_account`. -/
inductive Stage where
  | registerCheck (req : RegisterRequest)
  | registerCreate (req : RegisterRequest)
  | registerIssue (account : Account)
  | loginRead (username authSecret : String)
  | loginIssue (account : Account)
  | serve (me : Account)
  | deleteContacts (me : Account)
  | deleteRow (me : Account) (contacts : List String)
  | deleteSweep (me : Account) (contacts : List String) (groups : List Nat)
deriving DecidableEq, Repr

/-- The account in whose name a request acts. -/
def Stage.acts : Stage → Option Account
  | .serve me | .deleteContacts me | .deleteRow me _ | .deleteSweep me _ _ => some me
  | _ => none

/-- The account a request is about to issue a token for. -/
def Stage.issues : Stage → Option Account
  | .registerIssue account | .loginIssue account => some account
  | _ => none

/-- The relay: its database, token store and live sockets, and the requests in
flight. `registered` counts the registrations of each name and `finished` lists
the accounts whose deletion has run to its end. -/
structure Sessions where
  conn : Conn Tables
  tokens : Tokens
  sockets : List Account
  requests : List Stage
  registered : String → Nat
  finished : List Account

def Sessions.empty : Sessions := ⟨Conn.fresh .empty, [], [], [], fun _ => 0, []⟩

def Sessions.hasUser (s : Sessions) (u : String) : Bool := s.conn.working.hasUser u

/-- The account a name belongs to now. -/
def Sessions.holder (s : Sessions) (u : String) : Option Account :=
  if s.hasUser u then some ⟨u, s.registered u⟩ else none

/-- Arrivals, the next access of a request in flight with the values it reads
from clock and random source, and the background sweep's calls. -/
inductive Access where
  | register (req : RegisterRequest)
  | login (username authSecret : String)
  | request (authorization : String) (now : Nat)
  | deleteAccount (authorization : String) (now : Nat)
  | logout (authorization : String)
  | connect (token : String) (now : Nat)
  | disconnect (socket : Account)
  | proceed (r : Stage) (now : Nat) (salt token : String)
  | call (me : Account) (k : Call)
  | background (k : Call)
deriving DecidableEq

/-- Accounts come and go by these two calls only, each made by one endpoint. -/
def Call.onAccounts : Call → Bool
  | .createUser .. | .deleteUser .. => true
  | _ => false

/-- The request's next access, and the stage it then waits in, if any. `hash`
is `_hash_secret`: PBKDF2 of a secret under a salt. A request in `serve` has
made its calls and answers. -/
def Sessions.proceed (hash : String → String → String) (now : Nat) (salt token : String)
    (s : Sessions) : Stage → Sessions × Option Stage
  | .registerCheck req =>
    match userExists req.username s.conn with
    | (.ok false, c) => ({ s with conn := c }, some (.registerCreate req))
    | (_, c) => ({ s with conn := c }, none)
  | .registerCreate req =>
    match createUser req.username req.kemPublicKey req.dsaPublicKey req.fingerprint salt
        (hash req.authSecret salt) req.avatar now s.conn with
    | (.ok _, c) =>
      let serial := s.registered req.username + 1
      ({ s with
        conn := c
        registered := fun u => if u = req.username then serial else s.registered u },
        some (.registerIssue ⟨req.username, serial⟩))
    | (.error _, c) => ({ s with conn := c }, none)
  | .loginRead username authSecret =>
    match getUser username s.conn with
    | (.ok (some user), c) =>
      if user.authHash = hash authSecret user.authSalt then
        ({ s with conn := c }, some (.loginIssue ⟨username, s.registered username⟩))
      else ({ s with conn := c }, none)
    | (_, c) => ({ s with conn := c }, none)
  | .registerIssue account | .loginIssue account =>
    ({ s with tokens := issueToken now token account s.tokens }, none)
  | .serve _ => (s, none)
  | .deleteContacts me =>
    match listContacts me.username s.conn with
    | (.ok contacts, c) => ({ s with conn := c }, some (.deleteRow me contacts))
    | (.error _, c) => ({ s with conn := c }, none)
  | .deleteRow me contacts =>
    match deleteUser me.username s.conn with
    | (.ok groups, c) => ({ s with conn := c }, some (.deleteSweep me contacts groups))
    | (.error _, c) => ({ s with conn := c }, none)
  | .deleteSweep me _ _ =>
    -- The sweep and close_user share one turn of the event loop.
    ({ s with
      tokens := s.tokens.filter fun e => e.2.account.username != me.username
      sockets := s.sockets.filter fun a => a.username != me.username
      finished := me :: s.finished }, none)

/-- A request of stage `r` is replaced by what it waits for next. -/
def Sessions.settle (r : Stage) : Sessions × Option Stage → Sessions
  | (s, next) => { s with requests := s.requests.erase r ++ next.toList }

def Sessions.step (hash : String → String → String) (s : Sessions) : Access → Option Sessions
  | .register req => some { s with requests := s.requests ++ [.registerCheck req] }
  | .login username authSecret =>
    some { s with requests := s.requests ++ [.loginRead username authSecret] }
  | .request authorization now =>
    let (found, ts) := requireUser now authorization s.tokens
    some { s with tokens := ts, requests := s.requests ++ (found.map Stage.serve).toList }
  | .deleteAccount authorization now =>
    let (found, ts) := requireUser now authorization s.tokens
    some { s with tokens := ts, requests := s.requests ++ (found.map Stage.deleteContacts).toList }
  | .logout authorization =>
    match bearer authorization with
    | none => some s
    | some token => some { s with tokens := s.tokens.filter fun e => e.1 != token }
  | .connect token now =>
    let (found, ts) := resolveToken now token s.tokens
    some { s with tokens := ts, sockets := s.sockets ++ found.toList }
  | .disconnect socket => some { s with sockets := s.sockets.erase socket }
  | .proceed r now salt token =>
    -- secrets.token_urlsafe does not repeat a token.
    if r ∈ s.requests ∧ s.tokens.all (fun e => e.1 != token) then
      some (Sessions.settle r (s.proceed hash now salt token r))
    else none
  | .call me k =>
    if .serve me ∈ s.requests ∧ k.onAccounts = false then
      some { s with conn := (exec k s.conn).2 }
    else none
  | .background k =>
    if k.onAccounts then none else some { s with conn := (exec k s.conn).2 }

end Lattix.Server
