import Lattix.Lib.Runs
import Lattix.Server.Failures
import Lattix.Server.Tokens

namespace Lattix.Server
open Lib.Transactions Lib.Runs

/-- No token of a deleted account resolves, and nothing that was let in by a
token acts for an account other than the token's own. -/
structure Sessions.Separate (s : Sessions) : Prop where
  token : ∀ now token a, (resolveToken now token s.tokens).1 = some a → a ∉ s.finished
  request : ∀ r ∈ s.requests, ∀ a, r.acts = some a → ∀ b, s.holder a.username = some b → b = a
  socket : ∀ a ∈ s.sockets, ∀ b, s.holder a.username = some b → b = a

/-- A token is issued for an account only before its deletion has finished, and
a name is registered only when no request let in under that name is still in
flight, an unfinished deletion included. -/
def Sessions.careful (s : Sessions) : Access → Bool
  | .proceed (.registerCreate req) .. =>
    s.requests.all fun r => r.acts.all fun a => a.username != req.username
  | .proceed (.registerIssue account) .. | .proceed (.loginIssue account) .. =>
    !s.finished.contains account
  | _ => true

/-- The account exists, or is being deleted and its tokens not yet swept. -/
def Sessions.Live (s : Sessions) (a : Account) : Prop :=
  a.serial = s.registered a.username ∧
    (s.hasUser a.username = true ∨ ∃ cs gs, .deleteSweep a cs gs ∈ s.requests)

structure Sessions.Bound (s : Sessions) : Prop where
  valid : Sound Tables.Valid s.conn
  names : Sound (fun t => ∀ u, t.hasUser u = s.hasUser u) s.conn
  acts : ∀ r ∈ s.requests, ∀ a, r.acts = some a → a.serial = s.registered a.username
  gone : ∀ a cs gs, .deleteSweep a cs gs ∈ s.requests → s.hasUser a.username = false
  token : ∀ e ∈ s.tokens, e.2.account ∉ s.finished ∧ s.Live e.2.account
  socket : ∀ a ∈ s.sockets, s.Live a
  issue : ∀ r ∈ s.requests, ∀ a, r.issues = some a → a ∈ s.finished ∨ s.Live a

/-! The names in the users table -/

/-- A call other than these two neither adds nor removes an account. -/
theorem Call.Statement.same_users {k : Call} (hk : k.onAccounts = false) {t t' : Tables}
    (h : k.Statement t t') (u : String) : t'.hasUser u = t.hasUser u := by
  cases k with
  | createUser | deleteUser => cases hk
  | setAvatar =>
    obtain ⟨a, he⟩ := h
    cases he
    simp only [Tables.hasUser, List.any_map]
    congr 1
    funext r
    simp only [Function.comp_apply]
    split <;> rfl
  | storeEnvelope =>
    obtain ⟨row, a, he⟩ := h
    unfold Tables.insertEnvelope at he
    split at he
    · cases he
      rfl
    · cases he
  | storeGroupEnvelope =>
    obtain ⟨row, a, he⟩ := h
    unfold Tables.insertGroupEnvelope at he
    split at he
    · cases he
      rfl
    · cases he
  | storeFile =>
    obtain ⟨row, a, he⟩ := h
    unfold Tables.insertFile at he
    split at he
    · cases he
    · split at he
      · cases he
        rfl
      · cases he
  | createGroup =>
    rcases h with ⟨row, a, he⟩ | ⟨row, a, he⟩
    · unfold Tables.insertGroup at he
      split at he
      · cases he
        rfl
      · cases he
    · rw [Tables.hasUser, (insertMember_grow he).2.1]
      rfl
  | addGroupMember =>
    obtain ⟨row, a, he⟩ := h
    rw [Tables.hasUser, (insertMember_grow he).2.1]
    rfl
  | setGroupOwner =>
    obtain ⟨a, he⟩ := h
    unfold Tables.updateOwner at he
    split at he
    · cases he
    · cases he
      rfl
  | deleteGroup | removeGroupMember =>
    obtain ⟨a, he⟩ := h
    cases he
    rfl
  | deleteOrphanFiles =>
    obtain ⟨p, a, he⟩ := h
    cases he
    rfl
  | deleteExpired =>
    rcases h with ⟨a, he⟩ | ⟨a, he⟩ | ⟨p, a, he⟩ <;> cases he <;> rfl
  | _ => cases h

theorem createUser_run (u kem dsa fp salt hash : String) (avatar : Option String) (now : Nat)
    (c : Conn Tables) :
    (c.working.hasUser u = false ∧ ∃ t,
      createUser u kem dsa fp salt hash avatar now c = (.ok (), Conn.fresh t) ∧
      Tables.insertUser ⟨u, kem, dsa, fp, salt, hash, avatar, now⟩ c.working = .ok (t, ()) ∧
      ∀ v, t.hasUser v = (c.working.hasUser v || u == v)) ∨
    (∃ e, createUser u kem dsa fp salt hash avatar now c =
      (.error e, { c with inTransaction := true })) := by
  cases hu : c.working.hasUser u with
  | true =>
    right
    refine ⟨.primaryKey, bind_error (write_error ?_) _⟩
    simp [Tables.insertUser, hu]
  | false =>
    left
    have hi : Tables.insertUser ⟨u, kem, dsa, fp, salt, hash, avatar, now⟩ c.working =
        .ok ({ c.working with
          users := c.working.users ++ [⟨u, kem, dsa, fp, salt, hash, avatar, now⟩] }, ()) := by
      simp [Tables.insertUser, hu]
    exact ⟨rfl, _, bind_ok (write_ok hi) _, hi, fun v => by simp [Tables.hasUser]⟩

theorem passOn_users (u : String) (gids : List Nat) (t : Tables) :
    (t.passOn u gids).users = t.users := by
  induction gids generalizing t with
  | nil => rfl
  | cons gid rest ih =>
    simp only [Tables.passOn]
    split
    · rw [ih]
      rfl
    · rw [ih]
      rfl

theorem withoutUser_hasUser (u : String) (t : Tables) (v : String) :
    (t.withoutUser u).hasUser v = (t.hasUser v && v != u) := by
  have he : (t.withoutUser u).users = t.users.filter fun r => r.username != u := by
    rw [← passOn_users u (owned u t) t]
    rfl
  rw [Bool.eq_iff_iff, Tables.hasUser_iff, he, Bool.and_eq_true, Tables.hasUser_iff]
  constructor
  · rintro ⟨r, hr, rfl⟩
    obtain ⟨hr, hne⟩ := List.mem_filter.mp hr
    exact ⟨⟨r, hr, rfl⟩, hne⟩
  · rintro ⟨⟨r, hr, rfl⟩, hne⟩
    exact ⟨r, List.mem_filter.mpr ⟨hr, hne⟩, rfl⟩

theorem Sessions.Bound.separate {s : Sessions} (h : s.Bound) : s.Separate := by
  have hown : ∀ a : Account, a.serial = s.registered a.username →
      ∀ b, s.holder a.username = some b → b = a := by
    intro a ha b hb
    unfold Sessions.holder at hb
    split at hb
    · cases hb
      rw [← ha]
    · cases hb
  refine ⟨fun now token a hr => ?_, fun r hr a ha => hown a (h.acts r hr a ha),
    fun a ha => hown a (h.socket a ha).1⟩
  unfold resolveToken at hr
  split at hr
  · cases hr
  · rename_i e he
    split at hr
    · cases hr
    · cases hr
      exact (h.token e (List.mem_of_find?_eq_some he)).1

/-- Two states that differ in nothing the bookkeeping of accounts rests on. -/
structure Sessions.Quiet (s s' : Sessions) : Prop where
  registered : s'.registered = s.registered
  finished : s'.finished = s.finished
  users : ∀ u, s'.hasUser u = s.hasUser u
  sweeps : ∀ a cs gs, .deleteSweep a cs gs ∈ s'.requests ↔ .deleteSweep a cs gs ∈ s.requests

theorem Sessions.Quiet.live {s s' : Sessions} (h : s.Quiet s') (a : Account) :
    s'.Live a ↔ s.Live a := by
  unfold Sessions.Live
  rw [h.registered, h.users]
  simp only [h.sweeps]

/-- A step that is quiet keeps the bookkeeping if what it adds is in order. -/
theorem Sessions.Bound.quiet {s s' : Sessions} (h : s.Bound) (hq : s.Quiet s')
    (hv : Sound Tables.Valid s'.conn)
    (hn : Sound (fun t => ∀ u, t.hasUser u = s.hasUser u) s'.conn)
    (ht : ∀ e ∈ s'.tokens, e ∈ s.tokens ∨
      (e.2.account ∉ s.finished ∧ s.Live e.2.account))
    (hs : ∀ a ∈ s'.sockets, a ∈ s.sockets ∨ s.Live a)
    (hr : ∀ r ∈ s'.requests, r ∈ s.requests ∨
      ((∀ a, r.acts = some a → a.serial = s.registered a.username) ∧
        ∀ a, r.issues = some a → s.Live a)) : s'.Bound where
  valid := hv
  names := by
    simp only [hq.users]
    exact hn
  acts r hm a ha := by
    rw [hq.registered]
    rcases hr r hm with hm | hm
    · exact h.acts r hm a ha
    · exact hm.1 a ha
  gone a cs gs hm := by
    rw [hq.users]
    exact h.gone a cs gs ((hq.sweeps a cs gs).mp hm)
  token e he := by
    rw [hq.finished, hq.live]
    rcases ht e he with he | he
    · exact h.token e he
    · exact he
  socket a ha := by
    rw [hq.live]
    rcases hs a ha with ha | ha
    · exact h.socket a ha
    · exact ha
  issue r hm a ha := by
    rw [hq.finished, hq.live]
    rcases hr r hm with hm | hm
    · exact h.issue r hm a ha
    · exact .inr (hm.2 a ha)

def Stage.sweeping : Stage → Bool
  | .deleteSweep .. => true
  | _ => false

/-- Requests that are not sweeping come and go without disturbing the sweeps. -/
theorem sweeps_settle {r : Stage} (hr : r.sweeping = false) {next : List Stage}
    (hn : ∀ n ∈ next, n.sweeping = false) {rs : List Stage} (a : Account) (cs : List String)
    (gs : List Nat) : .deleteSweep a cs gs ∈ rs.erase r ++ next ↔ .deleteSweep a cs gs ∈ rs := by
  have hne : Stage.deleteSweep a cs gs ≠ r := by
    rintro rfl
    cases hr
  rw [List.mem_append, List.mem_erase_of_ne hne]
  constructor
  · rintro (hm | hm)
    · exact hm
    · cases hn _ hm
  · exact .inl

/-- A request that is not sweeping makes an access that changes no names. -/
theorem Sessions.Bound.settle {s : Sessions} (h : s.Bound) {r : Stage} (hr : r.sweeping = false)
    (next : Option Stage) {c : Conn Tables} {ts : Tokens}
    (hv : Sound Tables.Valid c) (hn : Sound (fun t => ∀ u, t.hasUser u = s.hasUser u) c)
    (ht : ∀ e ∈ ts, e ∈ s.tokens ∨ (e.2.account ∉ s.finished ∧ s.Live e.2.account))
    (hnext : ∀ n ∈ next, n.sweeping = false ∧
      (∀ a, n.acts = some a → a.serial = s.registered a.username) ∧
      ∀ a, n.issues = some a → s.Live a) :
    (Sessions.settle r ({ s with conn := c, tokens := ts }, next)).Bound := by
  have hmem : ∀ n ∈ next.toList, n ∈ next := fun n => Option.mem_toList.mp
  have hq : s.Quiet (Sessions.settle r ({ s with conn := c, tokens := ts }, next)) :=
    ⟨rfl, rfl, hn.working, sweeps_settle hr fun n hm => (hnext n (hmem n hm)).1⟩
  refine h.quiet hq hv hn ht (fun a ha => .inl ha) fun q hm => ?_
  rcases List.mem_append.mp hm with hm | hm
  · exact .inl (List.mem_of_mem_erase hm)
  · exact .inr (hnext q (hmem q hm)).2

theorem exec_names {s : Sessions} (h : s.Bound) {k : Call} (hk : k.onAccounts = false) :
    Sound (fun t => ∀ u, t.hasUser u = s.hasUser u) (exec k s.conn).2 :=
  exec_keeps_of (fun _ _ hp hst u => (hst.same_users hk u).trans (hp u)) s.conn h.names

/-- A registration gives a name to a new account when nothing that acts for an
earlier one is left. -/
theorem create_bound {s : Sessions} (h : s.Bound) {req : RegisterRequest} {t : Tables}
    (hv : t.Valid) (hfree : s.hasUser req.username = false)
    (hu : ∀ v, t.hasUser v = (s.hasUser v || req.username == v))
    (hc : ∀ r ∈ s.requests, ∀ a, r.acts = some a → a.username ≠ req.username) :
    (Sessions.settle (.registerCreate req) ({ s with
      conn := Conn.fresh t
      registered := fun u => if u = req.username then s.registered req.username + 1
        else s.registered u },
      some (.registerIssue ⟨req.username, s.registered req.username + 1⟩))).Bound := by
  have hsweep := @sweeps_settle (.registerCreate req) rfl
    [.registerIssue ⟨req.username, s.registered req.username + 1⟩] (by simp [Stage.sweeping])
    s.requests
  have hother : ∀ a, s.Live a → a.username ≠ req.username := by
    rintro a ⟨-, hu | ⟨cs, gs, hm⟩⟩ he
    · rw [he, hfree] at hu
      cases hu
    · exact hc _ hm a rfl he
  have hlive : ∀ a, s.Live a → (Sessions.settle (.registerCreate req) ({ s with
      conn := Conn.fresh t
      registered := fun u => if u = req.username then s.registered req.username + 1
        else s.registered u },
      some (.registerIssue ⟨req.username, s.registered req.username + 1⟩))).Live a := by
    intro a ha
    have hne := hother a ha
    refine ⟨by simp [Sessions.settle, hne, ha.1], ha.2.imp (fun hu' => ?_) fun ⟨cs, gs, hm⟩ => ?_⟩
    · exact (hu a.username).trans (by simp [hu'])
    · exact ⟨cs, gs, (hsweep a cs gs).mpr hm⟩
  have hmem : ∀ r, r ∈ s.requests.erase (.registerCreate req) ++
      [.registerIssue ⟨req.username, s.registered req.username + 1⟩] → r ∈ s.requests ∨
        r = .registerIssue ⟨req.username, s.registered req.username + 1⟩ := by
    intro r hr
    rcases List.mem_append.mp hr with hr | hr
    · exact .inl (List.mem_of_mem_erase hr)
    · exact .inr (List.mem_singleton.mp hr)
  constructor
  · exact .fresh hv
  · exact .fresh fun _ => rfl
  · intro r hr a ha
    rcases hmem r hr with hr | rfl
    · simp [Sessions.settle, hc r hr a ha, h.acts r hr a ha]
    · cases ha
  · intro a cs gs hm
    have hm := (hsweep a cs gs).mp hm
    have hne := hc _ hm a rfl
    refine (hu a.username).trans ?_
    simp [h.gone a cs gs hm, Ne.symm hne]
  · exact fun e he => ⟨(h.token e he).1, hlive _ (h.token e he).2⟩
  · exact fun a ha => hlive a (h.socket a ha)
  · intro r hr a ha
    rcases hmem r hr with hr | rfl
    · exact (h.issue r hr a ha).imp_right (hlive a)
    · cases ha
      refine .inr ⟨by simp [Sessions.settle], .inl ?_⟩
      exact (hu req.username).trans (by simp)

/-- Deleting the row leaves what the account was issued to the sweep. -/
theorem delete_bound {s : Sessions} (h : s.Bound) {me : Account} {cs : List String}
    {gs : List Nat} (hr : .deleteRow me cs ∈ s.requests) :
    (Sessions.settle (.deleteRow me cs) ({ s with
      conn := Conn.fresh (s.conn.working.withoutUser me.username) },
      some (.deleteSweep me cs gs))).Bound := by
  have hme : me.serial = s.registered me.username := h.acts _ hr me rfl
  have hu := withoutUser_hasUser me.username s.conn.working
  have hmem : ∀ r, r ∈ s.requests.erase (.deleteRow me cs) ++ [.deleteSweep me cs gs] →
      r ∈ s.requests ∨ r = .deleteSweep me cs gs := by
    intro r hr
    rcases List.mem_append.mp hr with hr | hr
    · exact .inl (List.mem_of_mem_erase hr)
    · exact .inr (List.mem_singleton.mp hr)
  have hkeep : ∀ r, r ∈ s.requests → r ≠ .deleteRow me cs →
      r ∈ s.requests.erase (.deleteRow me cs) ++ [.deleteSweep me cs gs] := fun r hr hne =>
    List.mem_append_left _ ((List.mem_erase_of_ne hne).mpr hr)
  have hlive : ∀ a, s.Live a → (Sessions.settle (.deleteRow me cs) ({ s with
      conn := Conn.fresh (s.conn.working.withoutUser me.username) },
      some (.deleteSweep me cs gs))).Live a := by
    rintro ⟨u, n⟩ ⟨hn, hl⟩
    refine ⟨hn, ?_⟩
    by_cases he : u = me.username
    · subst he
      have ha : (⟨me.username, n⟩ : Account) = me := by
        rw [show n = me.serial from hn.trans hme.symm]
      rw [ha]
      exact .inr ⟨cs, gs, List.mem_append_right _ (List.mem_singleton.mpr rfl)⟩
    · refine hl.imp (fun hx => ?_) fun ⟨ds, ks, hm⟩ => ⟨ds, ks, hkeep _ hm nofun⟩
      exact (hu u).trans (by simp [he, show s.conn.working.hasUser u = true from hx])
  constructor
  · exact .fresh (h.valid.working.withoutUser me.username)
  · exact .fresh fun _ => rfl
  · intro r hm a ha
    rcases hmem r hm with hm | rfl
    · exact h.acts r hm a ha
    · cases ha
      exact hme
  · intro a ds ks hm
    refine (hu a.username).trans ?_
    rcases hmem _ hm with hm | he
    · rw [show s.conn.working.hasUser a.username = false from h.gone a ds ks hm]
      rfl
    · cases he
      simp
  · exact fun e he => ⟨(h.token e he).1, hlive _ (h.token e he).2⟩
  · exact fun a ha => hlive a (h.socket a ha)
  · intro r hm a ha
    rcases hmem r hm with hm | rfl
    · exact (h.issue r hm a ha).imp_right (hlive a)
    · cases ha

/-- The sweep takes every token and socket of the name, and all of them are the
deleted account's. -/
theorem sweep_bound {s : Sessions} (h : s.Bound) {me : Account} {cs : List String}
    {gs : List Nat} (hr : .deleteSweep me cs gs ∈ s.requests) :
    (Sessions.settle (.deleteSweep me cs gs) ({ s with
      tokens := s.tokens.filter fun e => e.2.account.username != me.username
      sockets := s.sockets.filter fun a => a.username != me.username
      finished := me :: s.finished }, none)).Bound := by
  have hme : me.serial = s.registered me.username := h.acts _ hr me rfl
  have hmem : ∀ r, r ∈ s.requests.erase (.deleteSweep me cs gs) ++ [] → r ∈ s.requests := by
    intro r hr
    rw [List.append_nil] at hr
    exact List.mem_of_mem_erase hr
  have hlive : ∀ a, s.Live a → a.username ≠ me.username →
      (Sessions.settle (.deleteSweep me cs gs) ({ s with
        tokens := s.tokens.filter fun e => e.2.account.username != me.username
        sockets := s.sockets.filter fun a => a.username != me.username
        finished := me :: s.finished }, none)).Live a := by
    rintro a ⟨hn, hl⟩ hne
    refine ⟨hn, hl.imp id fun ⟨ds, ks, hm⟩ => ⟨ds, ks, ?_⟩⟩
    refine List.mem_append_left _ ((List.mem_erase_of_ne ?_).mpr hm)
    rintro he
    cases he
    exact hne rfl
  constructor
  · exact h.valid
  · exact h.names
  · exact fun r hm => h.acts r (hmem r hm)
  · exact fun a ds ks hm => h.gone a ds ks (hmem _ hm)
  · intro e he
    obtain ⟨he, hne⟩ := List.mem_filter.mp he
    have hne : e.2.account.username ≠ me.username := by simpa using hne
    refine ⟨?_, hlive _ (h.token e he).2 hne⟩
    rw [Sessions.settle, List.mem_cons]
    rintro (hx | hx)
    · exact hne (by rw [hx])
    · exact (h.token e he).1 hx
  · intro a ha
    obtain ⟨ha, hne⟩ := List.mem_filter.mp ha
    exact hlive a (h.socket a ha) (by simpa using hne)
  · intro r hm a ha
    rcases h.issue r (hmem r hm) a ha with hf | hl
    · exact .inl (List.mem_cons_of_mem _ hf)
    · by_cases he : a.username = me.username
      · left
        obtain ⟨u, n⟩ := a
        cases he
        rw [show (⟨me.username, n⟩ : Account) = me by
          rw [show n = me.serial from hl.1.trans hme.symm]]
        exact List.mem_cons_self
      · exact .inr (hlive a hl he)

theorem issueToken_mem {now : Nat} {token : String} {account : Account} {ts : Tokens}
    {e : String × TokenRecord} (he : e ∈ issueToken now token account ts) :
    e ∈ ts ∨ e.2.account = account := by
  unfold issueToken at he
  rcases List.mem_append.mp he with he | he
  · exact .inl (List.mem_of_mem_filter (List.mem_of_mem_filter he))
  · rw [List.mem_singleton.mp he]
    exact .inr rfl

theorem resolveToken_mem (now : Nat) (token : String) (ts : Tokens) :
    (∀ e ∈ (resolveToken now token ts).2, e ∈ ts) ∧
    ∀ a, (resolveToken now token ts).1 = some a → ∃ e ∈ ts, e.2.account = a := by
  unfold resolveToken
  split
  · exact ⟨fun _ he => he, nofun⟩
  · rename_i e he
    split
    · exact ⟨fun _ he => List.mem_of_mem_filter he, nofun⟩
    · refine ⟨fun _ he => he, fun a ha => ⟨e, List.mem_of_find?_eq_some he, ?_⟩⟩
      cases ha
      rfl

theorem requireUser_mem (now : Nat) (authorization : String) (ts : Tokens) :
    (∀ e ∈ (requireUser now authorization ts).2, e ∈ ts) ∧
    ∀ a, (requireUser now authorization ts).1 = some a → ∃ e ∈ ts, e.2.account = a := by
  unfold requireUser
  split
  · exact ⟨fun _ he => he, nofun⟩
  · exact resolveToken_mem now _ ts

theorem proceed_bound {hash : String → String → String} {now : Nat} {salt token : String}
    {s : Sessions} (h : s.Bound) {r : Stage} (hr : r ∈ s.requests)
    (hc : s.careful (.proceed r now salt token) = true) :
    (Sessions.settle r (s.proceed hash now salt token r)).Bound := by
  have hkept : ∀ e ∈ s.tokens, e ∈ s.tokens ∨
      (e.2.account ∉ s.finished ∧ s.Live e.2.account) := fun e he => .inl he
  have hdrop (q : Stage) (hq : q.sweeping = false) : (Sessions.settle q (s, none)).Bound :=
    h.settle hq none h.valid h.names hkept nofun
  have hissue (a : Account) (ha : s.Live a) (hf : a ∉ s.finished) : ∀ e ∈ issueToken now token a
      s.tokens, e ∈ s.tokens ∨ (e.2.account ∉ s.finished ∧ s.Live e.2.account) := by
    intro e he
    rcases issueToken_mem he with he | he
    · exact .inl he
    · rw [he]
      exact .inr ⟨hf, ha⟩
  cases r with
  | registerCheck req =>
    have he : userExists req.username s.conn =
        (.ok (s.conn.working.users.find? fun r => r.username == req.username).isSome, s.conn) := rfl
    cases hb : (s.conn.working.users.find? fun r => r.username == req.username).isSome with
    | false =>
      simp only [Sessions.proceed, he, hb]
      refine h.settle rfl _ h.valid h.names hkept fun n hn => ?_
      cases hn
      exact ⟨rfl, nofun, nofun⟩
    | true =>
      simp only [Sessions.proceed, he, hb]
      exact hdrop _ rfl
  | registerCreate req =>
    rcases createUser_run req.username req.kemPublicKey req.dsaPublicKey req.fingerprint salt
      (hash req.authSecret salt) req.avatar now s.conn with ⟨hfree, t, he, hi, hu⟩ | ⟨e, he⟩
    · simp only [Sessions.proceed, he]
      refine create_bound h (Tables.insertUser_valid h.valid.working hi) hfree hu fun q hq a ha => ?_
      simp only [Sessions.careful, List.all_eq_true] at hc
      simpa [ha] using hc q hq
    · simp only [Sessions.proceed, he]
      exact h.settle rfl none (.opened h.valid.committed h.valid.working)
        (.opened h.names.committed h.names.working) hkept nofun
  | loginRead username authSecret =>
    have he : getUser username s.conn =
        (.ok (s.conn.working.users.find? fun r => r.username == username), s.conn) := rfl
    cases hx : s.conn.working.users.find? fun r => r.username == username with
    | none =>
      simp only [Sessions.proceed, he, hx]
      exact hdrop _ rfl
    | some user =>
      have hex : s.hasUser username = true := Tables.hasUser_iff.mpr
        ⟨user, List.mem_of_find?_eq_some hx, by simpa using List.find?_some hx⟩
      simp only [Sessions.proceed, he, hx]
      split
      · refine h.settle rfl _ h.valid h.names hkept fun n hn => ?_
        cases hn
        refine ⟨rfl, nofun, fun a ha => ?_⟩
        cases ha
        exact ⟨rfl, .inl hex⟩
      · exact hdrop _ rfl
  | registerIssue account | loginIssue account =>
    have hf : account ∉ s.finished := by simpa [Sessions.careful] using hc
    have ha : s.Live account := (h.issue _ hr account rfl).resolve_left hf
    exact h.settle rfl none h.valid h.names (hissue account ha hf) nofun
  | serve me => exact hdrop _ rfl
  | deleteContacts me =>
    refine h.settle rfl (some (.deleteRow me _)) h.valid h.names hkept fun n hn => ?_
    cases hn
    refine ⟨rfl, fun a ha => ?_, nofun⟩
    cases ha
    exact h.acts _ hr me rfl
  | deleteRow me contacts =>
    cases ht : s.conn.inTransaction with
    | false =>
      obtain ⟨groups, he⟩ := deleteUser_run me.username h.valid.working ht
      simp only [Sessions.proceed, he]
      exact delete_bound h hr
    | true =>
      simp only [Sessions.proceed, deleteUser_open ht]
      exact h.settle rfl none (.fresh h.valid.committed) (.fresh h.names.committed)
        hkept nofun
  | deleteSweep me contacts groups => exact sweep_bound h hr

/-- A step that adds requests and drops tokens, and leaves the database alone. -/
theorem Sessions.Bound.arrive {s : Sessions} (h : s.Bound) (rs : List Stage) {ts : Tokens}
    {socks : List Account} (ht : ∀ e ∈ ts, e ∈ s.tokens)
    (hs : ∀ a ∈ socks, a ∈ s.sockets ∨ s.Live a)
    (hr : ∀ r ∈ rs, r.sweeping = false ∧ r.issues = none ∧ ∀ a, r.acts = some a → s.Live a) :
    ({ s with tokens := ts, sockets := socks, requests := s.requests ++ rs } : Sessions).Bound := by
  have hsweeps (a : Account) (cs : List String) (gs : List Nat) :
      .deleteSweep a cs gs ∈ s.requests ++ rs ↔ .deleteSweep a cs gs ∈ s.requests := by
    rw [List.mem_append]
    constructor
    · rintro (hm | hm)
      · exact hm
      · cases (hr _ hm).1
    · exact .inl
  refine h.quiet ⟨rfl, rfl, fun _ => rfl, hsweeps⟩ h.valid h.names (fun e he => .inl (ht e he)) hs
    fun r hm => ?_
  rcases List.mem_append.mp hm with hm | hm
  · exact .inl hm
  · obtain ⟨-, hi, ha⟩ := hr r hm
    refine .inr ⟨fun a he => (ha a he).1, fun a he => ?_⟩
    rw [hi] at he
    cases he

theorem Sessions.Bound.live {s : Sessions} (h : s.Bound) {a : Account}
    (ha : ∃ e ∈ s.tokens, e.2.account = a) : s.Live a := by
  obtain ⟨e, he, rfl⟩ := ha
  exact (h.token e he).2

/-- A step that lets nobody in but sockets. -/
theorem Sessions.Bound.retain {s : Sessions} (h : s.Bound) {ts : Tokens} {socks : List Account}
    (ht : ∀ e ∈ ts, e ∈ s.tokens) (hs : ∀ a ∈ socks, a ∈ s.sockets ∨ s.Live a) :
    ({ s with tokens := ts, sockets := socks } : Sessions).Bound := by
  have hb := h.arrive [] ht hs (by simp)
  rw [List.append_nil] at hb
  exact hb

/-- A request that `requireUser` lets in acts for the account of its token. -/
theorem Sessions.Bound.admit {s : Sessions} (h : s.Bound) (now : Nat) (authorization : String)
    {f : Account → Stage}
    (hf : ∀ a, (f a).sweeping = false ∧ (f a).issues = none ∧ (f a).acts = some a) :
    ({ s with
      tokens := (requireUser now authorization s.tokens).2
      requests := s.requests ++
        ((requireUser now authorization s.tokens).1.map f).toList } : Sessions).Bound := by
  obtain ⟨hts, ha⟩ := requireUser_mem now authorization s.tokens
  refine h.arrive _ hts (fun _ ha => .inl ha) fun r hr => ?_
  obtain ⟨a, hfound, rfl⟩ := Option.map_eq_some_iff.mp (Option.mem_toList.mp hr)
  obtain ⟨hsweep, hissue, hact⟩ := hf a
  refine ⟨hsweep, hissue, fun b hb => ?_⟩
  rw [hact] at hb
  cases hb
  exact h.live (ha a hfound)

theorem step_bound {hash : String → String → String} (s : Sessions) (a : Access) (s' : Sessions)
    (h : s.Bound) (hc : s.careful a = true) (hs : s.step hash a = some s') : s'.Bound := by
  have hcall {k : Call} (hk : k.onAccounts = false) :
      ({ s with conn := (exec k s.conn).2 } : Sessions).Bound := by
    have hn := exec_names h hk
    exact h.quiet ⟨rfl, rfl, hn.working, fun _ _ _ => Iff.rfl⟩ (exec_keeps k s.conn h.valid) hn
      (fun _ he => .inl he) (fun _ ha => .inl ha) fun _ hr => .inl hr
  cases a with
  | register req =>
    cases hs
    exact h.arrive _ (fun _ he => he) (fun _ ha => .inl ha)
      (by simp [Stage.sweeping, Stage.issues, Stage.acts])
  | login username authSecret =>
    cases hs
    exact h.arrive _ (fun _ he => he) (fun _ ha => .inl ha)
      (by simp [Stage.sweeping, Stage.issues, Stage.acts])
  | request authorization now =>
    cases hs
    exact h.admit now authorization fun _ => ⟨rfl, rfl, rfl⟩
  | deleteAccount authorization now =>
    cases hs
    exact h.admit now authorization fun _ => ⟨rfl, rfl, rfl⟩
  | logout authorization =>
    simp only [Sessions.step] at hs
    split at hs
    · cases hs
      exact h
    · cases hs
      exact h.retain (fun _ he => List.mem_of_mem_filter he) fun _ ha => .inl ha
  | connect token now =>
    cases hs
    obtain ⟨hts, ha⟩ := resolveToken_mem now token s.tokens
    refine h.retain hts fun a hm => ?_
    rcases List.mem_append.mp hm with hm | hm
    · exact .inl hm
    · exact .inr (h.live (ha a (Option.mem_toList.mp hm)))
  | disconnect socket =>
    cases hs
    exact h.retain (fun _ he => he) fun _ ha => .inl (List.mem_of_mem_erase ha)
  | proceed r now salt token =>
    simp only [Sessions.step] at hs
    split at hs
    · rename_i hg
      cases hs
      exact proceed_bound h hg.1 hc
    · cases hs
  | call me k =>
    simp only [Sessions.step] at hs
    split at hs
    · rename_i hg
      cases hs
      exact hcall hg.2
    · cases hs
  | background k =>
    simp only [Sessions.step] at hs
    split at hs
    · cases hs
    · rename_i hg
      cases hs
      exact hcall (by simpa using hg)

theorem empty_bound : Sessions.empty.Bound :=
  ⟨.fresh Tables.empty_valid, .fresh fun _ => rfl, nofun, nofun, nofun, nofun, nofun⟩

/-- A stand-in for PBKDF2 to run examples with. -/
def saltedSecret (secret salt : String) : String := salt ++ secret

def annsRequest : RegisterRequest := ⟨"ann", "kem", "dsa", "fp", "secret", none⟩

def goOn (r : Stage) (token : String) : Access := .proceed r 0 "salt" token

/-- ann registers, and is let in with the token "t1". -/
def annRegisters : List Access :=
  [.register annsRequest, goOn (.registerCheck annsRequest) "",
    goOn (.registerCreate annsRequest) "", goOn (.registerIssue ⟨"ann", 1⟩) "t1"]

/-- ann deletes the account with that token. -/
def annDeletes : List Access :=
  [.deleteAccount "Bearer t1" 0, goOn (.deleteContacts ⟨"ann", 1⟩) "",
    goOn (.deleteRow ⟨"ann", 1⟩ []) "", goOn (.deleteSweep ⟨"ann", 1⟩ [] []) ""]

end Lattix.Server
