import Lattix.Server.Announced

namespace Lattix.Server
open Lib.Transactions Lib.Json Lib.Runs

/-! The relay with account deletions under way -/

/-- Where `delete_account` stands: its thread runs `delete_user`, or is through
with it; then the sockets are closed and the members of the groups notified, one
after another. -/
inductive Deletion.Stage where
  | deleting
  | deleted (groups : List Nat)
  | closing (sockets groups : List Nat)
  | notifying (handler : Nat) (groups : List Nat)
  | through

structure Deletion where
  username : String
  contacts : List String
  stage : Deletion.Stage

def Manager.popUser (u : String) (m : Manager Nat) : Manager Nat :=
  ⟨fun v => if v = u then [] else m.active v⟩

namespace LiveRelay
variable (s : LiveRelay) (o : Order)

/-- A handler that has these tasks before it runs to its first send. -/
def start (tasks : List Task) : LiveRelay :=
  { s with handlers := s.handlers ++ [s.forward o ⟨none, tasks, []⟩] }

/-- The same for a handler that goes on with other tasks. -/
def restart (i : Nat) (tasks : List Task) : LiveRelay :=
  { s with handlers := s.handlers.set i (s.forward o ⟨none, tasks, []⟩) }

end LiveRelay

/-- `admitted` are the requests that `require_user` has let through and whose
endpoints have not started. -/
structure FullRelay where
  live : LiveRelay
  admitted : List (Account × Request)
  deletions : List Deletion

namespace FullRelay

def empty : FullRelay := ⟨.empty, [], []⟩

def tables (s : FullRelay) : Tables := s.live.service.tables

def groupMembers (s : FullRelay) (gid : Nat) : List String :=
  match groupMemberNames gid s.live.service.conn with
  | (.ok names, _) => names
  | (.error _, _) => []

def goOn (s : FullRelay) (i : Nat) (x : Deletion) (stage : Deletion.Stage) (live : LiveRelay) :
    FullRelay :=
  { s with live, deletions := s.deletions.set i { x with stage } }

/-- The endpoint of an admitted request starts. -/
def serve (R : Runtime) (clock : Nat → Double) (s : FullRelay) (i : Nat) (me : Account)
    (req : Request) (d : Draws) (o : Order) : FullRelay :=
  let s := { s with admitted := s.admitted.eraseIdx i }
  match req with
  | .deleteAccount =>
    let x : Deletion := ⟨me.username, o.names (s.live.contacts me.username), .deleting⟩
    { s with deletions := s.deletions ++ [x] }
  | req =>
    let (r, service) := Service.serve R d me req s.live.service
    let live : LiveRelay := { s.live with service }
    { s with live := live.start o (LiveRelay.pushes clock o s.tables req r) }

/-- The thread of a deletion runs `delete_user`. What it raises ends the request. -/
def erase (s : FullRelay) (i : Nat) (x : Deletion) : FullRelay :=
  match deleteUser x.username s.live.service.conn with
  | (.ok groups, conn) => s.goOn i x (.deleted groups) { s.live with service.conn := conn }
  | (.error _, conn) => s.goOn i x .through { s.live with service.conn := conn }

/-- A deletion from one await to the next. -/
def proceed (s : FullRelay) (o : Order) (i : Nat) (x : Deletion) : Option FullRelay :=
  match x.stage with
  | .deleting | .through => none
  | .deleted groups =>
    let sockets := o.sockets (s.live.manager.active x.username)
    some (s.goOn i x (.closing sockets groups) { s.live with
      service.tokens := s.live.service.tokens.filter fun e => e.2.account.username != x.username
      manager := s.live.manager.popUser x.username })
  | .closing (ws :: rest) groups =>
    some (s.goOn i x (.closing rest groups) { s.live with
      sockets := s.live.sockets.modify ws ({ · with isOpen := false }) })
  | .closing [] groups =>
    let tasks := x.contacts.map fun peer => .sendTo peer (.presence x.username false)
    some (s.goOn i x (.notifying s.live.handlers.length groups) (s.live.start o tasks))
  | .notifying j groups =>
    if !s.live.handlers[j]?.any Work.isDone then none
    else
      match groups with
      | [] => some (s.goOn i x .through s.live)
      | gid :: rest =>
        let tasks := LiveRelay.notify o (s.groupMembers gid) (.group "members" gid)
        some (s.goOn i x (.notifying j rest) (s.live.restart o j tasks))

/-- `live` are the steps of the relay without deletions. A request of theirs is
served as soon as it is let through; `letIn` and `serve` are the same request
with other steps between. -/
inductive Event where
  | live (e : LiveRelay.Event)
  | letIn (authorization : String) (req : Request) (now : Nat)
  | serve (i : Nat) (d : Draws) (o : Order)
  | erase (i : Nat)
  | proceed (i : Nat) (o : Order)

def step (R : Runtime) (clock : Nat → Double) (s : FullRelay) : Event → Option FullRelay
  | .live e => (s.live.step R clock e).map fun live => { s with live }
  | .letIn authorization req now =>
    match req with
    | .register _ | .login .. | .logout => none
    | req =>
      let (found, tokens) := requireUser now authorization s.live.service.tokens
      let s := { s with live.service.tokens := tokens }
      match found with
      | none => some s
      | some me => some { s with admitted := s.admitted ++ [(me, req)] }
  | .serve i d o =>
    match s.admitted[i]? with
    | none => none
    | some (me, req) =>
      if s.live.service.fresh d then some (s.serve R clock i me req d o) else none
  | .erase i =>
    match s.deletions[i]? with
    | none => none
    | some x =>
      match x.stage with
      | .deleting => some (s.erase i x)
      | _ => none
  | .proceed i o =>
    match s.deletions[i]? with
    | none => none
    | some x => s.proceed o i x

end FullRelay

/-! Who may hear of whom -/

/-- An envelope between the two names is stored. -/
def Tables.Linked (u v : String) (t : Tables) : Prop :=
  ∃ e ∈ t.envelopes, e.sender = u ∧ e.recipient = v ∨ e.sender = v ∧ e.recipient = u

theorem Tables.Linked.symm {u v : String} {t : Tables} (h : t.Linked u v) : t.Linked v u := by
  obtain ⟨e, he, h⟩ := h
  exact ⟨e, he, h.symm⟩

/-- A presence frame about `u` has reached a socket of `v`, or a handler awaits
its `send_json`. -/
def LiveRelay.Discloses (s : LiveRelay) (u v : String) : Prop :=
  ∃ online ws k, s.sockets[ws]? = some k ∧ k.user = v ∧
    ((u, online) ∈ k.told ∨ ∃ h ∈ s.handlers, ∃ x, h.pending = some x ∧ x.socket = ws ∧
      x.frame = .presence u online)

/-! What is stored when an envelope is pushed -/

def Response.isEnvelope : Response → Bool
  | .envelope _ => true
  | _ => false

/-- An answer with an envelope comes when the envelope is stored. -/
def Response.Stored : Response → Tables → Prop
  | .envelope e, t => t.Linked e.sender e.recipient
  | _, _ => True

theorem storeEnvelope_leaves {sender recipient : String} {kind : Kind} {payload : String}
    {fileId : Option String} {expiresAt : Option Nat} {now : Nat} :
    Leaves (fun (e : Envelope) t => t.Linked e.sender e.recipient)
      (storeEnvelope sender recipient kind payload fileId expiresAt now) := by
  refine .store fun t t' id h => ?_
  unfold Tables.insertEnvelope at h
  split at h
  · cases h
    exact ⟨_, List.mem_append_right _ (List.mem_singleton_self _), Or.inl ⟨rfl, rfl⟩⟩
  · cases h

theorem member_leaves {Q : Response → Tables → Prop} {me : String} {groupId : Nat}
    {f : Group → Db Response} (hf : ∀ group, Leaves Q (f group)) (hno : ∀ t, Q noGroup t) :
    Leaves Q (requireGroupMember me groupId >>= fun found =>
      match found with
      | none => pure noGroup
      | some group => f group) := by
  refine .bind fun found => ?_
  cases found with
  | none => exact .pure hno
  | some group => exact hf group

theorem other_leaves {r : Response} (h : r.isEnvelope = false) :
    Leaves Response.Stored (pure r : Db Response) := by
  refine .pure fun t => ?_
  cases r with
  | envelope e => cases h
  | _ => trivial

/-- Only the two endpoints for messages answer with an envelope. -/
theorem handler_leaves (R : Runtime) (d : Draws) (me : String) (req : Request) :
    Leaves Response.Stored (handler R d me req) := by
  cases req with
  | register | login | logout => exact other_leaves (by rfl)
  | setAvatar | conversation | inbox | listGroups => exact .bind fun _ => other_leaves (by rfl)
  | deleteAccount => exact .bind fun _ => .bind fun _ => other_leaves (by rfl)
  | getPublicUser username =>
    refine .bind fun found => ?_
    cases found with
    | none => exact other_leaves (by rfl)
    | some u => exact other_leaves (by rfl)
  | searchUsers q =>
    show Leaves _ (searchUsersRequest R me q)
    unfold searchUsersRequest
    split
    · exact other_leaves (by rfl)
    · exact .bind fun _ => other_leaves (by rfl)
  | me =>
    refine .bind fun found => ?_
    cases found with
    | none => exact other_leaves (by rfl)
    | some u => exact .bind fun _ => .bind fun _ => other_leaves (by rfl)
  | sendMessage m =>
    refine .bind fun known => ?_
    cases known with
    | false => exact other_leaves (by rfl)
    | true => exact .bind_pure storeEnvelope_leaves fun _ _ h => h
  | sendFileMessage m =>
    refine .bind fun known => ?_
    cases known with
    | false => exact other_leaves (by rfl)
    | true =>
      refine .bind fun own => ?_
      cases own with
      | false => exact other_leaves (by rfl)
      | true => exact .bind_pure storeEnvelope_leaves fun _ _ h => h
  | createGroup name members icon =>
    refine .bind fun known => .bind fun group => ?_
    cases group with
    | none => exact other_leaves (by rfl)
    | some group => exact other_leaves (by rfl)
  | getGroup groupId => exact member_leaves (fun _ => other_leaves (by rfl)) fun _ => trivial
  | groupMessages groupId since =>
    exact member_leaves (fun _ => .bind fun _ => other_leaves (by rfl)) fun _ => trivial
  | addMember groupId username =>
    refine member_leaves (fun group => ?_) fun _ => trivial
    split
    · exact other_leaves (by rfl)
    · refine .bind fun known => ?_
      cases known with
      | false => exact other_leaves (by rfl)
      | true =>
        refine .bind fun _ => .bind fun updated => ?_
        cases updated with
        | none => exact other_leaves (by rfl)
        | some updated => exact other_leaves (by rfl)
  | removeMember groupId username =>
    refine member_leaves (fun group => ?_) fun _ => trivial
    split
    · exact other_leaves (by rfl)
    · refine .bind fun _ => ?_
      split
      · exact .bind fun _ => other_leaves (by rfl)
      · exact other_leaves (by rfl)
  | sendGroupMessage groupId m =>
    exact member_leaves (fun _ => .bind fun _ => other_leaves (by rfl)) fun _ => trivial
  | sendGroupFile groupId m =>
    refine member_leaves (fun _ => .bind fun own => ?_) fun _ => trivial
    cases own with
    | false => exact other_leaves (by rfl)
    | true => exact .bind fun _ => other_leaves (by rfl)
  | uploadFile chunks size =>
    show Leaves _ (uploadFileRequest R d me chunks size)
    unfold uploadFileRequest
    split
    · exact other_leaves (by rfl)
    · split
      · exact other_leaves (by rfl)
      · exact .bind fun _ => other_leaves (by rfl)
  | downloadFile fileId =>
    refine .bind fun mine => ?_
    cases mine with
    | false => exact other_leaves (by rfl)
    | true =>
      refine .bind fun found => ?_
      cases found with
      | none => exact other_leaves (by rfl)
      | some rec => exact other_leaves (by rfl)

namespace Service
variable {R : Runtime} {d : Draws} {s : Service}

theorem serve_stored (me : Account) (req : Request) :
    (s.serve R d me req).1.Stored (s.serve R d me req).2.tables := by
  unfold serve
  split
  · rename_i r c h
    rw [record_tables]
    exact handler_leaves R d me.username req _ _ _ h
  · trivial

theorem guarded_stored (authorization : String) (req : Request) :
    (s.guarded R authorization req d).1.Stored (s.guarded R authorization req d).2.tables := by
  unfold guarded
  split
  · trivial
  · exact serve_stored _ _

theorem handle_stored (authorization : String) (req : Request) :
    (s.handle R authorization req d).1.Stored (s.handle R authorization req d).2.tables := by
  cases req with
  | register r =>
    show Response.Stored (register R d r s).1 _
    unfold register
    repeat' split
    all_goals trivial
  | login username authSecret =>
    show Response.Stored (login R d username authSecret s).1 _
    unfold login
    repeat' split
    all_goals trivial
  | logout =>
    show Response.Stored (logout authorization s).1 _
    unfold logout
    split
    all_goals trivial
  | _ => exact guarded_stored authorization _

end Service

/-! Names that may be disclosed, of a set `M` of pairs: who is heard of first -/

def Frame.Allowed (M : String × String → Prop) (v : String) : Frame → Prop
  | .presence u _ => M (u, v)
  | _ => True

namespace LiveRelay

/-- The user a socket is registered for. -/
def owner (s : LiveRelay) (ws : Nat) : Option String := s.sockets[ws]?.map Socket.user

end LiveRelay

section allowed
variable (M : String × String → Prop) (owner : Nat → Option String)

def Send.Allowed (x : Send) : Prop := ∃ v, owner x.socket = some v ∧ x.frame.Allowed M v

def Task.Allowed : Task → Prop
  | .send x => x.Allowed M owner
  | .sendTo v f => f.Allowed M v
  | .vouch peer u => M (peer, u)
  | .tell peer u ws => M (peer, u) ∧ owner ws = some u

def Announcement.Allowed : Announcement → Prop
  | .presence .. => True
  | .snapshot u ws => owner ws = some u

structure Work.Allowed (h : Work) : Prop where
  pending : ∀ x, h.pending = some x → x.Allowed M owner
  tasks : ∀ a ∈ h.tasks, a.Allowed M owner
  announcements : ∀ a ∈ h.announcements, a.Allowed owner

/-- All that is told, or is about to be, is allowed. Envelopes may be gone, so
`M` covers more than those that are stored. -/
structure LiveRelay.Scoped (s : LiveRelay) : Prop where
  linked : ∀ p : String × String, s.service.tables.Linked p.1 p.2 → M p
  registered : ∀ v ws, ws ∈ s.manager.active v → s.owner ws = some v
  handlers : ∀ h ∈ s.handlers, h.Allowed M s.owner
  told : ∀ k ∈ s.sockets, ∀ u online, (u, online) ∈ k.told → M (u, k.user)

end allowed

namespace LiveRelay
variable {M : String × String → Prop} {s t : LiveRelay} {o : Order} {h : Work}

theorem Scoped.disclosed (hs : s.Scoped M) {u v : String} (hd : s.Discloses u v) : M (u, v) := by
  obtain ⟨online, ws, k, hk, rfl, htold | ⟨h, hh, x, hx, rfl, hf⟩⟩ := hd
  · exact hs.told k (List.mem_of_getElem? hk) u online htold
  · obtain ⟨v, hv, ha⟩ := (hs.handlers h hh).pending x hx
    rw [owner, hk] at hv
    cases hv
    rw [hf] at ha
    exact ha

/-! From one send to the next -/

theorem contacts_linked {u v : String} (h : v ∈ s.contacts u) : s.service.tables.Linked u v := by
  obtain ⟨hm, -⟩ := List.mem_filter.mp h
  rcases List.mem_append.mp (List.mem_dedup.mp hm) with hm | hm
  · obtain ⟨e, he, rfl⟩ := List.mem_map.mp hm
    obtain ⟨he, hu⟩ := List.mem_filter.mp he
    exact ⟨e, he, Or.inl ⟨eq_of_beq hu, rfl⟩⟩
  · obtain ⟨e, he, rfl⟩ := List.mem_map.mp hm
    obtain ⟨he, hu⟩ := List.mem_filter.mp he
    exact ⟨e, he, Or.inr ⟨rfl, eq_of_beq hu⟩⟩

theorem Scoped.contact (hs : s.Scoped M) {u v : String} (h : v ∈ o.names (s.contacts u)) :
    M (u, v) ∧ M (v, u) := by
  have hl := contacts_linked ((o.names_perm _).mem_iff.mp h)
  exact ⟨hs.linked (u, v) hl, hs.linked (v, u) hl.symm⟩

theorem Scoped.sendTo (hs : s.Scoped M) {v : String} {f : Frame} (hf : f.Allowed M v) :
    ∀ x ∈ s.sendTo o v f, x.Allowed M s.owner := by
  intro x hx
  obtain ⟨ws, hws, rfl⟩ := List.mem_map.mp hx
  exact ⟨v, hs.registered v ws ((o.sockets_perm _).mem_iff.mp hws), hf⟩

theorem Scoped.sends (hs : s.Scoped M) {a : Task} (ha : a.Allowed M s.owner) :
    ∀ x ∈ s.sends o a, x.Allowed M s.owner := by
  cases a with
  | send x =>
    intro y hy
    cases List.mem_singleton.mp hy
    exact ha
  | sendTo v f => exact hs.sendTo ha
  | vouch peer u =>
    intro x hx
    rw [LiveRelay.sends] at hx
    split at hx
    · exact hs.sendTo (f := .presence peer true) ha x hx
    · cases hx
  | tell peer u ws =>
    intro x hx
    rw [LiveRelay.sends] at hx
    split at hx
    · cases List.mem_singleton.mp hx
      exact ⟨u, ha.2, ha.1⟩
    · cases hx

theorem Scoped.unroll (hs : s.Scoped M) {as ts : List Task} {x : Send}
    (ha : ∀ a ∈ as, a.Allowed M s.owner) (hx : s.unroll o as = some (x, ts)) :
    x.Allowed M s.owner ∧ ∀ a ∈ ts, a.Allowed M s.owner := by
  induction as with
  | nil => cases hx
  | cons a as ih =>
    have hrest := fun b hb => ha b (List.mem_cons_of_mem a hb)
    have hsends := hs.sends (o := o) (ha a List.mem_cons_self)
    rw [LiveRelay.unroll] at hx
    split at hx
    · exact ih hrest hx
    · rename_i y ys hy
      cases hx
      rw [hy] at hsends
      refine ⟨hsends _ List.mem_cons_self, fun b hb => ?_⟩
      rcases List.mem_append.mp hb with hb | hb
      · obtain ⟨z, hz, rfl⟩ := List.mem_map.mp hb
        exact hsends z (List.mem_cons_of_mem _ hz)
      · exact hrest b hb

theorem Scoped.announced (hs : s.Scoped M) {a : Announcement} (ha : a.Allowed s.owner) :
    ∀ b ∈ s.tasks o a, b.Allowed M s.owner := by
  cases a with
  | presence u online =>
    intro b hb
    obtain ⟨peer, hp, rfl⟩ := List.mem_map.mp hb
    exact (hs.contact hp).1
  | snapshot u ws =>
    intro b hb
    obtain ⟨peer, hp, rfl⟩ := List.mem_map.mp hb
    exact ⟨(hs.contact hp).2, ha⟩

theorem done_allowed {owner : Nat → Option String} : Work.done.Allowed M owner :=
  ⟨by rintro _ ⟨⟩, by rintro _ ⟨⟩, by rintro _ ⟨⟩⟩

theorem Scoped.announce (hs : s.Scoped M) {as : List Announcement} (ha : ∀ a ∈ as, a.Allowed s.owner) :
    (s.announce o as).Allowed M s.owner := by
  induction as with
  | nil => exact done_allowed
  | cons a as ih =>
    have hrest := fun b hb => ha b (List.mem_cons_of_mem a hb)
    rw [LiveRelay.announce]
    split
    · rename_i x ts hx
      obtain ⟨hfirst, htasks⟩ := hs.unroll (hs.announced (ha a List.mem_cons_self)) hx
      refine ⟨fun y hy => ?_, htasks, hrest⟩
      cases hy
      exact hfirst
    · exact ih hrest

theorem Scoped.forward (hs : s.Scoped M) (ht : ∀ a ∈ h.tasks, a.Allowed M s.owner)
    (ha : ∀ a ∈ h.announcements, a.Allowed s.owner) : (s.forward o h).Allowed M s.owner := by
  rw [LiveRelay.forward]
  split
  · rename_i x ts hx
    obtain ⟨hfirst, htasks⟩ := hs.unroll ht hx
    refine ⟨fun y hy => ?_, htasks, ha⟩
    cases hy
    exact hfirst
  · exact hs.announce ha

/-! One step of the relay without deletions -/

/-- Sockets stay registered for the same users. -/
def Keeps (f g : Nat → Option String) : Prop := ∀ ws v, f ws = some v → g ws = some v

theorem Keeps.send {f g : Nat → Option String} (hk : Keeps f g) {x : Send}
    (h : x.Allowed M f) : x.Allowed M g := by
  obtain ⟨v, hv, ha⟩ := h
  exact ⟨v, hk _ v hv, ha⟩

theorem Keeps.task {f g : Nat → Option String} (hk : Keeps f g) {a : Task}
    (h : a.Allowed M f) : a.Allowed M g := by
  cases a with
  | send x => exact hk.send (x := x) h
  | sendTo | vouch => exact h
  | tell peer u ws => exact ⟨h.1, hk ws u h.2⟩

theorem Keeps.announcement {f g : Nat → Option String} (hk : Keeps f g) {a : Announcement}
    (h : a.Allowed f) : a.Allowed g := by
  cases a with
  | presence => trivial
  | snapshot u ws => exact hk ws u h

theorem Keeps.work {f g : Nat → Option String} (hk : Keeps f g) (h' : h.Allowed M f) :
    h.Allowed M g where
  pending x hx := hk.send (h'.pending x hx)
  tasks a ha := hk.task (h'.tasks a ha)
  announcements a ha := hk.announcement (h'.announcements a ha)

theorem owner_modify {f : Socket → Socket} (hf : ∀ k, (f k).user = k.user) {ws : Nat} :
    ({ s with sockets := s.sockets.modify ws f } : LiveRelay).owner = s.owner := by
  funext w
  simp only [owner, List.getElem?_modify]
  cases s.sockets[w]? with
  | none => rfl
  | some k =>
    simp only [Option.map_some]
    split
    · exact congrArg some (hf k)
    · rfl

theorem owner_append {ks : List Socket} :
    Keeps s.owner ({ s with sockets := s.sockets ++ ks } : LiveRelay).owner := by
  intro ws v h
  obtain ⟨k, hk, hv⟩ := Option.map_eq_some_iff.mp h
  have hlt := (List.getElem?_eq_some_iff.mp hk).1
  simp [owner, List.getElem?_append_left hlt, hk, hv]

theorem Scoped.start (hs : s.Scoped M) {as : List Task} (ha : ∀ a ∈ as, a.Allowed M s.owner) :
    (s.start o as).Scoped M where
  linked := hs.linked
  registered := hs.registered
  handlers h hh := by
    rcases List.mem_append.mp hh with hh | hh
    · exact hs.handlers h hh
    · cases List.mem_singleton.mp hh
      refine hs.forward ha fun a h => ?_
      cases h
  told := hs.told

theorem Scoped.put (hs : s.Scoped M) (i : Nat) (hh : h.Allowed M s.owner) :
    ({ s with handlers := s.handlers.set i h } : LiveRelay).Scoped M where
  linked := hs.linked
  registered := hs.registered
  handlers h' hm := by
    rcases List.mem_or_eq_of_mem_set hm with hm | rfl
    · exact hs.handlers h' hm
    · exact hh
  told := hs.told

theorem Scoped.restart (hs : s.Scoped M) (i : Nat) {as : List Task}
    (ha : ∀ a ∈ as, a.Allowed M s.owner) : (s.restart o i as).Scoped M := by
  refine hs.put i (hs.forward ha fun a h => ?_)
  cases h

theorem Scoped.serviced (hs : s.Scoped M) {service : Service}
    (hl : ∀ p : String × String, service.tables.Linked p.1 p.2 → M p) :
    ({ s with service } : LiveRelay).Scoped M :=
  ⟨hl, hs.registered, hs.handlers, hs.told⟩

/-- Sockets are dropped from the registrations, or none is. -/
theorem Scoped.managed (hs : s.Scoped M) {manager : Manager Nat}
    (hm : ∀ v ws, ws ∈ manager.active v → ws ∈ s.manager.active v) :
    ({ s with manager } : LiveRelay).Scoped M :=
  ⟨hs.linked, fun v ws hw => hs.registered v ws (hm v ws hw), hs.handlers, hs.told⟩

/-- What the sockets are told grows by what is allowed. -/
theorem Scoped.modify (hs : s.Scoped M) {ws : Nat} {f : Socket → Socket}
    (hf : ∀ k, (f k).user = k.user)
    (ht : ∀ k, s.sockets[ws]? = some k → ∀ u online, (u, online) ∈ (f k).told →
      (u, online) ∈ k.told ∨ M (u, k.user)) :
    ({ s with sockets := s.sockets.modify ws f } : LiveRelay).Scoped M := by
  have ho : ({ s with sockets := s.sockets.modify ws f } : LiveRelay).owner = s.owner :=
    owner_modify hf
  refine ⟨hs.linked, ?_, ?_, ?_⟩
  · rw [ho]
    exact hs.registered
  · rw [ho]
    exact hs.handlers
  · intro k hk u online htold
    obtain ⟨w, hw⟩ := List.mem_iff_getElem?.mp hk
    obtain ⟨j, hj, rfl⟩ := sockets_modify.mp hw
    have hold := hs.told j (List.mem_of_getElem? hj) u online
    split at htold
    · rename_i hws
      subst hws
      rw [if_pos rfl, hf]
      exact (ht j hj u online htold).elim hold id
    · rename_i hws
      rw [if_neg hws]
      exact hold htold

theorem notify_allowed {members : List String} {f : Frame} {owner : Nat → Option String}
    (hf : ∀ v, f.Allowed M v) : ∀ a ∈ notify o members f, a.Allowed M owner := by
  intro a ha
  obtain ⟨v, -, rfl⟩ := List.mem_map.mp ha
  exact hf v

/-- What a request sends is about two who then have an envelope, or about nobody. -/
theorem pushes_allowed {clock : Nat → Double} {before after : Tables} {req : Request}
    {r : Response} {owner : Nat → Option String} (hr : r.Stored after)
    (hl : ∀ p : String × String, after.Linked p.1 p.2 → M p) :
    ∀ a ∈ pushes clock o before req r, a.Allowed M owner := by
  unfold pushes
  split
  · rename_i e
    have hl : M (e.sender, e.recipient) ∧ M (e.recipient, e.sender) :=
      ⟨hl (e.sender, e.recipient) hr, hl (e.recipient, e.sender) hr.symm⟩
    intro a ha
    rcases List.mem_append.mp ha with ha | ha
    · exact notify_allowed (fun _ => by trivial) a ha
    · split at ha
      · rcases List.mem_cons.mp ha with rfl | ha
        · exact hl.1
        · cases List.mem_singleton.mp ha
          exact hl.2
      · cases ha
  all_goals first
    | exact notify_allowed fun _ => by trivial
    | rintro _ ⟨⟩

theorem Scoped.left (hs : s.Scoped M) (ws : Nat) (u : String) : (s.leave ws u).Scoped M := by
  have hm : ({ s with manager := s.manager.disconnect u ws } : LiveRelay).Scoped M :=
    hs.managed fun v w hw => (Manager.mem_disconnect.mp hw).1
  exact hm.modify (fun _ => rfl) fun k _ u online h => Or.inl h

theorem receive_told {k : Socket} {f : Frame} {u : String} {online : Bool}
    (h : (u, online) ∈ (k.receive f).told) : (u, online) ∈ k.told ∨ f = .presence u online := by
  cases f with
  | presence v b =>
    rcases List.mem_cons.mp h with h | h
    · cases h
      exact Or.inr rfl
    · exact Or.inl h
  | _ => exact Or.inl h

theorem failed_allowed {owner : Nat → Option String} (hh : h.Allowed M owner) (e : OnError) :
    (h.failed e).Allowed M owner := by
  cases e with
  | goOn => exact ⟨by rintro _ ⟨⟩, hh.tasks, hh.announcements⟩
  | giveUp =>
    refine ⟨by rintro _ ⟨⟩, fun a ha => ?_, hh.announcements⟩
    exact hh.tasks a (List.mem_filter.mp ha).1
  | raise => exact ⟨by rintro _ ⟨⟩, hh.tasks, by rintro _ ⟨⟩⟩

theorem Scoped.transmitted (R : Runtime) (hs : s.Scoped M) {i : Nat} {x : Send}
    (hh : s.handlers[i]? = some h) (hx : h.pending = some x) : (s.transmit R i h x).Scoped M := by
  have hallowed := hs.handlers h (List.mem_of_getElem? hh)
  unfold transmit
  split
  · have hput := hs.put i (h := { h with pending := none })
      ⟨by rintro _ ⟨⟩, hallowed.tasks, hallowed.announcements⟩
    refine hput.modify (fun k => receive_user x.frame) fun k hk u online htold => ?_
    rcases receive_told htold with htold | hf
    · exact Or.inl htold
    · obtain ⟨v, hv, ha⟩ := hallowed.pending x hx
      rw [owner, show s.sockets[x.socket]? = some k from hk] at hv
      cases hv
      rw [hf] at ha
      exact Or.inr ha
  · have hput := hs.put i (failed_allowed hallowed x.onError)
    refine hput.managed fun v ws hw => ?_
    split at hw
    · exact hw
    · exact (Manager.mem_disconnect.mp hw).1

theorem Scoped.connected (hs : s.Scoped M) (u : String) :
    Scoped M { s with
      manager := s.manager.connect u s.sockets.length
      sockets := s.sockets ++ [⟨u, s.handlers.length, true, false, []⟩]
      handlers := s.handlers ++ [⟨some ⟨u, s.sockets.length, .ready u, .raise⟩, [],
        [.presence u true, .snapshot u s.sockets.length]⟩] } := by
  have hk : Keeps s.owner
      ({ s with sockets := s.sockets ++ [⟨u, s.handlers.length, true, false, []⟩] } : LiveRelay).owner :=
    owner_append
  have hnew : ({ s with sockets := s.sockets ++ [⟨u, s.handlers.length, true, false, []⟩] } :
      LiveRelay).owner s.sockets.length = some u := by
    simp [owner]
  refine ⟨hs.linked, fun v ws hw => ?_, fun h hh => ?_, fun k hm w online htold => ?_⟩
  · rcases Manager.mem_connect.mp hw with ⟨rfl, rfl⟩ | hw
    · exact hnew
    · exact hk ws v (hs.registered v ws hw)
  · rcases List.mem_append.mp hh with hh | hh
    · exact hk.work (hs.handlers h hh)
    · cases List.mem_singleton.mp hh
      refine ⟨fun x hx => ?_, by rintro _ ⟨⟩, fun a ha => ?_⟩
      · cases hx
        exact ⟨u, hnew, trivial⟩
      · rcases List.mem_cons.mp ha with rfl | ha
        · trivial
        · cases List.mem_singleton.mp ha
          exact hnew
  · rcases List.mem_append.mp hm with hm | hm
    · exact hs.told k hm w online htold
    · cases List.mem_singleton.mp hm
      cases htold

section steps
variable {R : Runtime} {clock : Nat → Double}

theorem step_scoped {e : Event} (hs : s.Scoped M) (h : s.step R clock e = some t)
    (ht : ∀ p : String × String, t.service.tables.Linked p.1 p.2 → M p) : t.Scoped M := by
  cases e with
  | request authorization req d o =>
    simp only [step] at h
    split at h
    · cases h
    · obtain ⟨service, hservice, rfl⟩ := Option.map_eq_some_iff.mp h
      rw [Service.step] at hservice
      split at hservice
      · cases hservice
        exact (hs.serviced ht).start (pushes_allowed (Service.handle_stored ..) ht)
      · cases hservice
  | sweep graceSeconds now =>
    cases h
    exact hs.serviced ht
  | connect token now =>
    simp only [step] at h
    split at h
    · cases h
      exact hs.serviced ht
    · rename_i me hme
      cases h
      exact (hs.serviced ht).connected me.username
  | close ws =>
    simp only [step] at h
    split at h
    · cases h
      exact hs.modify (fun _ => rfl) fun k _ u online h => Or.inl h
    · cases h
  | finish ws o =>
    simp only [step] at h
    split at h
    · cases h
    · rename_i k hk
      split at h
      · cases h
      · have hleft := hs.left ws k.user
        split at h
        · cases h
          exact hleft
        · cases h
          refine hleft.put k.handler (hleft.announce fun a ha => ?_)
          cases List.mem_singleton.mp ha
          trivial
  | resume i o =>
    simp only [step] at h
    split at h
    · cases h
    · rename_i w hw
      split at h
      · rename_i x hx
        cases h
        exact hs.transmitted R hw hx
      · split at h
        · cases h
        · cases h
          have hallowed := hs.handlers w (List.mem_of_getElem? hw)
          exact hs.put i (hs.forward hallowed.tasks hallowed.announcements)

end steps

end LiveRelay

namespace FullRelay
variable {M : String × String → Prop} {R : Runtime} {clock : Nat → Double} {s t : FullRelay}
  {o : Order}

/-- The same with the contacts that deletions hold. -/
structure Scoped (M : String × String → Prop) (s : FullRelay) : Prop where
  live : s.live.Scoped M
  deletions : ∀ x ∈ s.deletions, ∀ v ∈ x.contacts, M (x.username, v)

theorem empty_scoped : empty.Scoped M where
  live :=
    { linked := by
        rintro p ⟨e, he, -⟩
        cases he
      registered := by
        rintro v ws ⟨⟩
      handlers := by
        rintro h ⟨⟩
      told := by
        rintro k ⟨⟩ }
  deletions := by
    rintro x ⟨⟩

theorem Scoped.goOn {live : LiveRelay} {i : Nat} {x : Deletion} (hs : s.Scoped M)
    (hx : s.deletions[i]? = some x) (stage : Deletion.Stage) (hl : live.Scoped M) :
    (s.goOn i x stage live).Scoped M where
  live := hl
  deletions y hy := by
    have hold := hs.deletions x (List.mem_of_getElem? hx)
    rcases List.mem_or_eq_of_mem_set hy with hy | rfl
    · exact hs.deletions y hy
    · exact hold

theorem Scoped.served {i : Nat} {me : Account} {req : Request} {d : Draws} (hs : s.Scoped M)
    (ht : ∀ p : String × String, (s.serve R clock i me req d o).tables.Linked p.1 p.2 → M p) :
    (s.serve R clock i me req d o).Scoped M := by
  unfold serve at ht ⊢
  split at ht
  · refine ⟨hs.live, fun x hx => ?_⟩
    rcases List.mem_append.mp hx with hx | hx
    · exact hs.deletions x hx
    · cases List.mem_singleton.mp hx
      exact fun v hv => (hs.live.contact hv).1
  · exact ⟨(hs.live.serviced ht).start
      (LiveRelay.pushes_allowed (Service.serve_stored me _) ht), hs.deletions⟩

theorem Scoped.erased {i : Nat} {x : Deletion} (hs : s.Scoped M) (hx : s.deletions[i]? = some x)
    (ht : ∀ p : String × String, (s.erase i x).tables.Linked p.1 p.2 → M p) :
    (s.erase i x).Scoped M := by
  unfold erase at ht ⊢
  split at ht
  · exact hs.goOn hx _ (hs.live.serviced ht)
  · exact hs.goOn hx _ (hs.live.serviced ht)

theorem Scoped.proceeded {i : Nat} {x : Deletion} (hs : s.Scoped M)
    (hx : s.deletions[i]? = some x) (h : s.proceed o i x = some t) : t.Scoped M := by
  have hcontacts := hs.deletions x (List.mem_of_getElem? hx)
  unfold proceed at h
  split at h
  · cases h
  · cases h
  · cases h
    have hpopped : ({ s.live with manager := s.live.manager.popUser x.username } : LiveRelay).Scoped M := by
      refine hs.live.managed fun v ws hw => ?_
      unfold Manager.popUser at hw
      dsimp only at hw
      split at hw
      · cases hw
      · exact hw
    exact hs.goOn hx _ (hpopped.serviced hs.live.linked)
  · cases h
    exact hs.goOn hx _ (hs.live.modify (fun _ => rfl) fun k _ u online h => Or.inl h)
  · cases h
    refine hs.goOn hx _ (hs.live.start fun a ha => ?_)
    obtain ⟨peer, hp, rfl⟩ := List.mem_map.mp ha
    exact hcontacts peer hp
  · split at h
    · cases h
    · split at h
      · cases h
        exact hs.goOn hx _ hs.live
      · cases h
        exact hs.goOn hx _ (hs.live.restart _ (LiveRelay.notify_allowed fun _ => by trivial))

theorem step_scoped (M : String × String → Prop) (s : FullRelay) (e : Event) (t : FullRelay)
    (ht : ∀ p : String × String, t.tables.Linked p.1 p.2 → M p) (hs : s.Scoped M)
    (h : s.step R clock e = some t) : t.Scoped M := by
  cases e with
  | live e =>
    obtain ⟨live, hlive, rfl⟩ := Option.map_eq_some_iff.mp h
    exact ⟨LiveRelay.step_scoped hs.live hlive ht, hs.deletions⟩
  | letIn authorization req now =>
    simp only [step] at h
    split at h
    · cases h
    · cases h
    · cases h
    · split at h
      · cases h
        exact ⟨hs.live.serviced ht, hs.deletions⟩
      · cases h
        exact ⟨hs.live.serviced ht, hs.deletions⟩
  | serve i d o =>
    simp only [step] at h
    split at h
    · cases h
    · split at h
      · cases h
        exact hs.served ht
      · cases h
  | erase i =>
    simp only [step] at h
    split at h
    · cases h
    · rename_i x hx
      split at h
      · cases h
        exact hs.erased hx ht
      · cases h
  | proceed i o =>
    simp only [step] at h
    split at h
    · cases h
    · rename_i x hx
      exact hs.proceeded hx h

/-- Whoever is told about a user's presence has had an envelope from or to them. -/
theorem presence_to_contacts_only {es : List Event} (hrun : run (step R clock) empty es = some s)
    {u v : String} (hd : s.live.Discloses u v) :
    ∃ before t, before <+: es ∧ run (step R clock) empty before = some t ∧ t.tables.Linked u v := by
  have hs := invariant_past (F := fun (s : FullRelay) p => s.tables.Linked p.1 p.2)
    (I := Scoped) step_scoped (fun _ => empty_scoped) hrun
  obtain ⟨before, hb, t, ht, hl⟩ := hs.live.disclosed hd
  exact ⟨before, t, hb, ht, hl⟩

/-- bob writes to ann and connects, and ann deletes her account. -/
def farewell : List Event :=
  [.live (LiveRelay.joins "ann" "t1"), .live (LiveRelay.joins "bob" "t2"),
    .live (.request "Bearer t2" (.sendMessage ⟨"ann", [], none⟩) (draws "t0" "f0" []) .listed),
    .live (.connect "t2" 0), .live (.resume 3 .listed), .live (.resume 3 .listed),
    .letIn "Bearer t1" .deleteAccount 0, .serve 0 (draws "t0" "f0" []) .listed, .erase 0,
    .proceed 0 .listed, .proceed 0 .listed, .live (.resume 4 .listed)]

/-- bob hears of it when no envelope is left. -/
theorem bob_knew_ann : ∃ before t, before <+: farewell ∧
    run (step plain Exchange.midnight) empty before = some t ∧ t.tables.Linked "ann" "bob" := by
  have h : (run (step plain Exchange.midnight) empty farewell).any (fun s =>
      s.tables.envelopes.isEmpty &&
        s.live.sockets.any fun k => k.user == "bob" && k.told.contains ("ann", false)) = true := by
    decide +kernel
  obtain ⟨s, hs, h⟩ := (Option.any_eq_true ..).mp h
  obtain ⟨k, hk, hb⟩ := List.any_eq_true.mp (Bool.and_eq_true_iff.mp h).2
  obtain ⟨hu, htold⟩ := Bool.and_eq_true_iff.mp hb
  obtain ⟨ws, hws⟩ := List.mem_iff_getElem?.mp hk
  refine presence_to_contacts_only hs (u := "ann") (v := "bob") ?_
  exact ⟨false, ws, k, hws, eq_of_beq hu, Or.inl (List.contains_iff_mem.mp htold)⟩

end FullRelay

end Lattix.Server
