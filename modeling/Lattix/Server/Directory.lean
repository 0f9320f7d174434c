import Lattix.Server.Disclosure
import Lattix.Server.Registration

/-! The keys that the relay publishes are those that were registered. -/

namespace Lattix.Server
open Lib.Transactions Lib.Runs Lattix.Crypto

/-- A user as other users see them. -/
def User.published (r : User) : PublicUser :=
  ⟨r.username, r.kemPublicKey, r.dsaPublicKey, r.fingerprint, r.avatar⟩

/-- The account is the one that was registered, with another picture perhaps. -/
def RegisterRequest.Names (req : RegisterRequest) (u : PublicUser) : Prop :=
  u.username = req.username ∧ u.kemPublicKey = req.kemPublicKey ∧ u.dsaPublicKey = req.dsaPublicKey ∧
    u.fingerprint = req.fingerprint

/-- The keys in an answer. -/
def Response.records : Response → List PublicUser
  | .user u => [u]
  | .group g => g.members
  | _ => []

def Response.Published (r : Response) (t : Tables) : Prop :=
  ∀ u ∈ r.records, ∃ row ∈ t.users, u = row.published

/-! What the handlers answer -/

section answers
variable {me : String} {groupId : Nat} {t : Tables}

theorem shown_published {g : Group} (h : t.shown groupId = some g) :
    (Response.group g).Published t := by
  obtain ⟨r, -, rfl⟩ := Option.map_eq_some_iff.mp h
  intro u hu
  obtain ⟨row, hrow, rfl⟩ := List.mem_map.mp hu
  obtain ⟨m, -, hfind⟩ := List.mem_filterMap.mp ((List.mem_insertionSort _).mp hrow)
  exact ⟨row, List.mem_of_find?_eq_some hfind, rfl⟩

theorem unpublished {r : Response} (h : r.records = []) :
    Leaves Response.Published (pure r : Db Response) :=
  .pure fun t u hu => by
    rw [h] at hu
    cases hu

theorem noGroup_published (t : Tables) : noGroup.Published t :=
  fun _ hu => absurd hu List.not_mem_nil

/-- The group that a request is let into is the one that is stored. -/
theorem member_published {f : Group → Db Response}
    (hf : ∀ group c r c', (Response.group group).Published c.working → f group c = (.ok r, c') →
      r.Published c'.working) :
    Leaves Response.Published (requireGroupMember me groupId >>= fun found =>
      match found with
      | none => pure noGroup
      | some group => f group) := by
  intro c r d h
  have hreq : requireGroupMember me groupId c =
      (.ok (if c.working.hasMember groupId me then c.working.shown groupId else none), c) := by
    unfold requireGroupMember getGroup
    rw [query_bind]
    cases hs : c.working.shown groupId with
    | none =>
      rw [ite_self]
      simp only [Tables.shown] at hs
      rw [hs]
      rfl
    | some group =>
      simp only [Tables.shown] at hs
      rw [hs]
      cases hm : c.working.hasMember groupId me <;> simp [isGroupMember, hm] <;> rfl
  rw [bind_ok hreq] at h
  split_ifs at h
  · cases hs : c.working.shown groupId with
    | none =>
      rw [hs] at h
      cases h
      exact noGroup_published _
    | some group =>
      rw [hs] at h
      exact hf group c r d (shown_published hs) h
  · cases h
    exact noGroup_published _

def Shows (g : Option Group) (t : Tables) : Prop := ∀ group ∈ g, (Response.group group).Published t

theorem getGroup_shows (gid : Nat) : Leaves Shows (getGroup gid) := by
  intro c g d h
  cases h
  exact fun _ hg => shown_published hg

theorem group_published {x : Db (Option Group)} (hx : Leaves Shows x) :
    Leaves Response.Published (x >>= fun found =>
      match found with
      | some group => pure (.group group)
      | none => pure .failed) := by
  have hform : (fun found : Option Group => (match found with
      | some group => pure (.group group)
      | none => pure .failed : Db Response)) =
      fun found => pure (match found with
        | some group => .group group
        | none => .failed) := by
    funext found
    cases found <;> rfl
  rw [hform]
  refine .bind_pure hx fun found t h => ?_
  cases found with
  | none => exact nofun
  | some group => exact h group rfl

/-- Four endpoints answer with keys, and they are the keys of rows. -/
theorem handler_published (R : Runtime) (d : Draws) (me : String) (req : Request) :
    Leaves Response.Published (handler R d me req) := by
  cases req with
  | register | login | logout => exact unpublished rfl
  | setAvatar | conversation | inbox | listGroups => exact .bind fun _ => unpublished rfl
  | deleteAccount => exact .bind fun _ => .bind fun _ => unpublished rfl
  | getPublicUser username =>
    intro c r c' h
    have hget : getUser (R.lower username) c =
        (.ok (c.working.users.find? fun r => r.username == R.lower username), c) := rfl
    rw [show handler R d me (.getPublicUser username) = getPublicUserRequest R username from rfl,
      getPublicUserRequest, bind_ok hget] at h
    cases hs : c.working.users.find? fun r => r.username == R.lower username with
    | none =>
      rw [hs] at h
      cases h
      exact nofun
    | some row =>
      rw [hs] at h
      cases h
      intro u hu
      exact ⟨row, List.mem_of_find?_eq_some hs, List.mem_singleton.mp hu⟩
  | searchUsers q =>
    show Leaves _ (searchUsersRequest R me q)
    unfold searchUsersRequest
    split
    · exact unpublished rfl
    · exact .bind fun _ => unpublished rfl
  | me =>
    refine .bind fun found => ?_
    cases found with
    | none => exact unpublished rfl
    | some u => exact .bind fun _ => .bind fun _ => unpublished rfl
  | sendMessage m =>
    refine .bind fun known => ?_
    cases known with
    | false => exact unpublished rfl
    | true => exact .bind fun _ => unpublished rfl
  | sendFileMessage m =>
    refine .bind fun known => ?_
    cases known with
    | false => exact unpublished rfl
    | true =>
      refine .bind fun own => ?_
      cases own with
      | false => exact unpublished rfl
      | true => exact .bind fun _ => unpublished rfl
  | createGroup name members icon =>
    exact .bind fun known => group_published
      (.bind fun gid => .bind fun _ => .bind fun _ => getGroup_shows gid)
  | getGroup groupId =>
    refine member_published fun group c r c' hg h => ?_
    cases h
    exact hg
  | groupMessages groupId since =>
    exact member_leaves (fun _ => .bind fun _ => unpublished rfl) fun _ => nofun
  | addMember groupId username =>
    refine member_leaves (fun group => ?_) fun _ => nofun
    split
    · exact unpublished rfl
    · refine .bind fun known => ?_
      cases known with
      | false => exact unpublished rfl
      | true => exact .bind fun _ => group_published (getGroup_shows groupId)
  | removeMember groupId username =>
    refine member_leaves (fun group => ?_) fun _ => nofun
    split
    · exact unpublished rfl
    · refine .bind fun _ => ?_
      split
      · exact .bind fun _ => unpublished rfl
      · exact unpublished rfl
  | sendGroupMessage groupId m =>
    exact member_leaves (fun _ => .bind fun _ => unpublished rfl) fun _ => nofun
  | sendGroupFile groupId m =>
    refine member_leaves (fun _ => .bind fun own => ?_) fun _ => nofun
    cases own with
    | false => exact unpublished rfl
    | true => exact .bind fun _ => unpublished rfl
  | uploadFile chunks size =>
    show Leaves _ (uploadFileRequest R d me chunks size)
    unfold uploadFileRequest
    split
    · exact unpublished rfl
    · split
      · exact unpublished rfl
      · exact .bind fun _ => unpublished rfl
  | downloadFile fileId =>
    refine .bind fun mine => ?_
    cases mine with
    | false => exact unpublished rfl
    | true =>
      refine .bind fun found => ?_
      cases found with
      | none => exact unpublished rfl
      | some rec => exact unpublished rfl

end answers

/-! What the rows come from -/

section rows
variable {R : Runtime} {d : Draws} {me : String} {t t' : Tables} {req : Request} {r : Response}

/-- No handler makes a row or changes its keys. -/
theorem Outcome.rows_users (ho : Outcome R d me t req r t') {row : User} (hrow : row ∈ t'.users) :
    ∃ old ∈ t.users, ∀ reg : RegisterRequest, reg.Names old.published → reg.Names row.published := by
  cases ho with
  | avatar =>
    obtain ⟨old, hold, rfl⟩ := List.mem_map.mp hrow
    refine ⟨old, hold, fun reg h => ?_⟩
    split <;> exact h
  | deleted =>
    have husers : (t.withoutUser me).users = t.users.filter fun r => r.username != me := by
      rw [← passOn_users me (owned me t) t]
      rfl
    rw [husers] at hrow
    exact ⟨row, List.mem_of_mem_filter hrow, fun _ h => h⟩
  | joined =>
    rw [Tables.withMember_users] at hrow
    exact ⟨row, hrow, fun _ h => h⟩
  | left =>
    rw [Tables.left_users] at hrow
    exact ⟨row, hrow, fun _ h => h⟩
  | _ => exact ⟨row, hrow, fun _ h => h⟩

end rows

namespace Service
variable {R : Runtime} {s t : Service}

theorem register_users (h : s.Sane) {d : Draws} {reg : RegisterRequest} {row : User}
    (hrow : row ∈ (register R d reg s).2.tables.users) :
    row ∈ s.tables.users ∨ reg.Names row.published := by
  unfold register at hrow
  split at hrow
  · exact .inl hrow
  rw [h.looks (userExists_yields reg.username)] at hrow
  cases hu : s.tables.hasUser reg.username with
  | true =>
    rw [hu] at hrow
    exact .inl hrow
  | false =>
    have hi : s.tables.insertUser ⟨reg.username, reg.kemPublicKey, reg.dsaPublicKey, reg.fingerprint,
        d.salt, R.hash reg.authSecret d.salt, reg.avatar, d.storedAt⟩ = .ok ({ s.tables with
          users := s.tables.users ++ [⟨reg.username, reg.kemPublicKey, reg.dsaPublicKey,
            reg.fingerprint, d.salt, R.hash reg.authSecret d.salt, reg.avatar, d.storedAt⟩] }, ()) := by
      rw [Tables.insertUser, if_neg (by simp [hu])]
    have hc : createUser reg.username reg.kemPublicKey reg.dsaPublicKey reg.fingerprint d.salt
        (R.hash reg.authSecret d.salt) reg.avatar d.storedAt s.conn = _ :=
      h.yields (Yields.store_last hi)
    rw [hu] at hrow
    dsimp only at hrow
    rw [hc] at hrow
    rcases List.mem_append.mp hrow with hold | hnew
    · exact .inl hold
    · cases List.mem_singleton.mp hnew
      exact .inr ⟨rfl, rfl, rfl, rfl⟩

theorem handled_users {authorization : String} {req : Request} {r : Response} {d : Draws}
    (hreq : ∀ reg, req ≠ .register reg) (hd : Handled R d authorization s req r t) {row : User}
    (hrow : row ∈ t.tables.users) :
    ∃ old ∈ s.tables.users, ∀ reg : RegisterRequest, reg.Names old.published →
      reg.Names row.published := by
  cases hd with
  | turnedAway | loggedOut | loggedIn => exact ⟨row, hrow, fun _ h => h⟩
  | registered => exact absurd rfl (hreq _)
  | served hr ho =>
    rw [record_tables] at hrow
    exact ho.rows_users hrow

theorem step_users (h : s.Sane) {e : Event} (hs : s.step R e = some t) {row : User}
    (hrow : row ∈ t.tables.users) :
    (∃ old ∈ s.tables.users, ∀ reg : RegisterRequest, reg.Names old.published →
      reg.Names row.published) ∨
    ∃ authorization reg d, e = .request authorization (.register reg) d ∧ reg.Names row.published := by
  cases e with
  | sweep graceSeconds now =>
    cases hs
    obtain ⟨t, he, -, hsw⟩ := sweep_swept h graceSeconds now
    rw [he] at hrow
    exact .inl ⟨row, hsw.users ▸ hrow, fun _ h => h⟩
  | request authorization req d =>
    simp only [step] at hs
    split at hs
    · rename_i hc
      cases hs
      have hd : Handled R d authorization s req _ _ :=
        handle_handled h (Bool.and_eq_true_iff.mp hc).2 req
      cases req with
      | register reg =>
        rcases register_users h hrow with hold | hnew
        · exact .inl ⟨row, hold, fun _ h => h⟩
        · exact .inr ⟨authorization, reg, d, rfl, hnew⟩
      | _ => exact .inl (handled_users (fun _ he => by cases he) hd hrow)
    · cases hs

/-- Those who asked for an account. -/
def registrations (es : List Event) : List RegisterRequest :=
  es.filterMap fun
    | .request _ (.register reg) _ => some reg
    | _ => none

theorem mem_registrations {es : List Event} {authorization : String} {reg : RegisterRequest}
    {d : Draws} (h : .request authorization (.register reg) d ∈ es) : reg ∈ registrations es :=
  List.mem_filterMap.mpr ⟨_, h, rfl⟩

structure Listed (R : Runtime) (regs : List RegisterRequest) (s : Service) : Prop where
  sane : s.Sane
  users : ∀ row ∈ s.tables.users, ∃ reg ∈ regs, reg.Names row.published

theorem run_listed {es : List Event} (hrun : run (step R) .empty es = some s) :
    s.Listed R (registrations es) := by
  have hstep : ∀ s e t, Listed R (registrations es) s → e ∈ es → step R s e = some t →
      t.Listed R (registrations es) := by
    intro s e t h he hs
    refine ⟨step_sane _ _ _ h.sane hs, fun row hrow => ?_⟩
    rcases step_users h.sane hs hrow with ⟨old, hold, hsame⟩ | ⟨_, reg, _, rfl, hn⟩
    · obtain ⟨reg, hreg, hn⟩ := h.users old hold
      exact ⟨reg, hreg, hsame reg hn⟩
    · exact ⟨reg, mem_registrations he, hn⟩
  exact invariant_meets hstep ⟨empty_sane, nofun⟩ (meets_labels fun _ he => he) hrun

/-- The answer to a request shows rows of the tables it leaves. -/
theorem handle_published {authorization : String} {req : Request} {d : Draws} :
    (s.handle R authorization req d).1.Published (s.handle R authorization req d).2.tables := by
  have hguarded : (s.guarded R authorization req d).1.Published (s.guarded R authorization req d).2.tables := by
    unfold guarded
    split
    · exact nofun
    · unfold serve
      split
      · rename_i r c h
        rw [record_tables]
        exact handler_published R d _ req _ _ _ h
      · exact nofun
  cases req with
  | register reg =>
    show Response.Published (register R d reg s).1 _
    unfold register
    repeat' split
    all_goals exact nofun
  | login username authSecret =>
    show Response.Published (login R d username authSecret s).1 _
    unfold login
    repeat' split
    all_goals exact nofun
  | logout =>
    show Response.Published (logout authorization s).1 _
    unfold logout
    split
    all_goals exact nofun
  | _ => exact hguarded

/-- Keys in an answer were registered under their name. -/
theorem records_registered {es : List Event} (hrun : run (step R) .empty es = some s)
    {authorization : String} {req : Request} {d : Draws} (hf : s.fresh d = true) {u : PublicUser}
    (hu : u ∈ (s.handle R authorization req d).1.records) : ∃ reg ∈ registrations es, reg.Names u := by
  have hlisted := run_listed hrun
  have hd : Handled R d authorization s req _ _ := handle_handled hlisted.sane hf req
  cases req with
  | register reg =>
    have hnone : (register R d reg s).1.records = [] := by
      unfold register
      repeat' split
      all_goals rfl
    have hu : u ∈ (register R d reg s).1.records := hu
    rw [hnone] at hu
    cases hu
  | _ =>
    obtain ⟨row, hrow, rfl⟩ := handle_published u hu
    obtain ⟨old, hold, hsame⟩ := handled_users (fun _ he => by cases he) hd hrow
    obtain ⟨reg, hreg, hn⟩ := hlisted.users old hold
    exact ⟨reg, hreg, hsame reg hn⟩

end Service

/-! What clients make of the keys -/

theorem b64decode_atob {v : String} {bs : Bytes} (h : b64decode v = some bs) :
    b64ToBytes (key v) = some bs := by
  unfold b64decode at h
  split_ifs at h
  rw [b64ToBytes, key, Lib.Json.encode_text, Option.bind_some, h]

theorem Checked.fingerprintOf {P : Platform} {reg : RegisterRequest} (h : reg.Checked P.sha256)
    {u : PublicUser} (hu : reg.Names u) :
    fingerprintOf P (key u.kemPublicKey) (key u.dsaPublicKey) = some u.fingerprint := by
  obtain ⟨-, hkem, hdsa, hfp⟩ := hu
  obtain ⟨kem, dsa, hk, hd, -, -, he⟩ := h.keys
  rw [hkem, hdsa, hfp, he, Crypto.fingerprintOf, b64decode_atob hk, b64decode_atob hd]
  rfl

/-- A relay that takes only checked registrations publishes under a name only keys that were
registered under it, with the fingerprint that every client computes from them. -/
theorem published_checked {R : Runtime} {P : Platform} {s : Service} {es : List Service.Event}
    (hrun : run (Service.step R) .empty es = some s)
    (hchecked : ∀ reg ∈ Service.registrations es, ∃ body,
      RegisterRequest.validate P.sha256 body = .ok reg)
    (authorization : String) (req : Request) {d : Draws} (hf : s.fresh d = true) :
    ∀ u ∈ (s.handle R authorization req d).1.records,
      (∃ reg ∈ Service.registrations es, reg.Names u) ∧ isFingerprint u.fingerprint = true ∧
        fingerprintOf P (key u.kemPublicKey) (key u.dsaPublicKey) = some u.fingerprint := by
  intro u hu
  obtain ⟨reg, hreg, hn⟩ := Service.records_registered hrun hf hu
  obtain ⟨body, hok⟩ := hchecked reg hreg
  have hc := validate_checked hok
  exact ⟨⟨reg, hreg, hn⟩, hn.2.2.2 ▸ hc.fingerprint, Checked.fingerprintOf hc hn⟩

def alicesAccount : List Service.Event :=
  [.request "" (.register (requestOf sizedClear "alice" Client.SignIn.drawn)) (draws "t1" "f0" [])]

theorem published_checked_alice :
    ∃ s, run (Service.step plain) .empty alicesAccount = some s ∧
      ∀ u ∈ (s.handle plain "Bearer t1" (.getPublicUser "ALICE") (draws "t0" "f1" [])).1.records,
        (∃ reg ∈ Service.registrations alicesAccount, reg.Names u) ∧
          isFingerprint u.fingerprint = true ∧
          fingerprintOf sizedClear (key u.kemPublicKey) (key u.dsaPublicKey) = some u.fingerprint := by
  have hchecked : ∀ reg ∈ Service.registrations alicesAccount, ∃ body,
      RegisterRequest.validate sizedClear.sha256 body = .ok reg :=
    List.forall_mem_singleton.mpr ⟨_, validate_register sizedClear_sized (by decide) _⟩
  exact ⟨_, rfl, published_checked rfl hchecked "Bearer t1" (.getPublicUser "ALICE") (by decide)⟩

end Lattix.Server
