import Lattix.Lib.Runs
import Lattix.Server.Accounts
import Lattix.Server.Outcomes

namespace Lattix.Server
open Lib.Transactions Lib.Runs

/-- No row that refers to an account is new in `t'`, and no id has been given out. -/
structure Tables.Thinned (t t' : Tables) : Prop where
  files : ∀ f ∈ t'.files, f ∈ t.files
  envelopes : ∀ e ∈ t'.envelopes, e ∈ t.envelopes
  groupEnvelopes : ∀ e ∈ t'.groupEnvelopes, e ∈ t.groupEnvelopes
  groupMembers : ∀ m ∈ t'.groupMembers, m ∈ t.groupMembers
  envelopeSeq : t'.envelopeSeq = t.envelopeSeq
  groupEnvelopeSeq : t'.groupEnvelopeSeq = t.groupEnvelopeSeq

namespace Tables
variable {t : Tables}

theorem Thinned.refl (t : Tables) : t.Thinned t :=
  ⟨fun _ h => h, fun _ h => h, fun _ h => h, fun _ h => h, rfl, rfl⟩

theorem Thinned.trans {t' t'' : Tables} (h : t.Thinned t') (h' : t'.Thinned t'') :
    t.Thinned t'' :=
  ⟨fun f hf => h.files f (h'.files f hf), fun e he => h.envelopes e (h'.envelopes e he),
    fun e he => h.groupEnvelopes e (h'.groupEnvelopes e he),
    fun m hm => h.groupMembers m (h'.groupMembers m hm), h'.envelopeSeq.trans h.envelopeSeq,
    h'.groupEnvelopeSeq.trans h.groupEnvelopeSeq⟩

theorem dropGroups_thinned (p : GroupRow → Bool) : t.Thinned (t.dropGroups p) :=
  ⟨fun _ h => h, fun _ h => h, fun _ h => List.mem_of_mem_filter h,
    fun _ h => List.mem_of_mem_filter h, rfl, rfl⟩

theorem withOwner_thinned (g : Nat) (u : String) : t.Thinned (t.withOwner g u) :=
  ⟨fun _ h => h, fun _ h => h, fun _ h => h, fun _ h => h, rfl, rfl⟩

theorem withoutMember_thinned (g : Nat) (u : String) : t.Thinned (t.withoutMember g u) :=
  ⟨fun _ h => h, fun _ h => h, fun _ h => h, fun _ h => List.mem_of_mem_filter h, rfl, rfl⟩

theorem left_thinned (g : Nat) (u : String) : t.Thinned (t.left g u) := by
  have hm := withoutMember_thinned (t := t) g u
  unfold left
  split
  · split
    · exact hm.trans (withOwner_thinned g _)
    · exact hm.trans (dropGroups_thinned _)
  · exact hm

theorem passOn_thinned (u : String) (gids : List Nat) : t.Thinned (t.passOn u gids) := by
  induction gids generalizing t with
  | nil => exact .refl t
  | cons gid rest ih =>
    simp only [passOn]
    split
    · exact (withOwner_thinned gid _).trans ih
    · exact (dropGroups_thinned _).trans ih

theorem withoutUser_thinned (u : String) : t.Thinned (t.withoutUser u) := by
  refine ((passOn_thinned u (owned u t)).trans (dropGroups_thinned fun r => r.owner == u)).trans ?_
  exact ⟨fun _ h => List.mem_of_mem_filter h, fun _ h => List.mem_of_mem_filter h,
    fun _ h => List.mem_of_mem_filter h, fun _ h => List.mem_of_mem_filter h, rfl, rfl⟩

theorem left_users (g : Nat) (u : String) : (t.left g u).users = t.users := by
  unfold left
  split
  · split <;> rfl
  · rfl

theorem withMember_users (row : MemberRow) : (t.withMember row).users = t.users := by
  unfold withMember
  split <;> rfl

theorem withMember_groups (row : MemberRow) : (t.withMember row).groups = t.groups := by
  unfold withMember
  split <;> rfl

theorem withMember_keeps {row : MemberRow} {g : Nat} {u : String} (h : t.hasMember g u = true) :
    (t.withMember row).hasMember g u = true := by
  unfold withMember
  split
  · exact h
  · rw [hasMember, List.any_append]
    exact Bool.or_eq_true_iff.mpr (.inl h)

theorem mem_withMember {row m : MemberRow} (h : m ∈ (t.withMember row).groupMembers) :
    m ∈ t.groupMembers ∨ m = row := by
  unfold withMember at h
  split at h
  · exact .inl h
  · simpa using h

/-! What the keys guarantee, after each outcome -/

theorem Valid.left (h : t.Valid) (g : Nat) (u : String) : (t.left g u).Valid := by
  have hm : (t.withoutMember g u).Valid := deleteMember_valid (a := ()) h rfl
  unfold Tables.left
  split
  · split
    · rename_i heir hs
      have hu : t.hasUser heir = true := h.hasUser_of_member (successor_member hs).1
      exact updateOwner_valid (u := heir) hm (Tables.updateOwner_ok hu)
    · exact dropGroups_valid hm _
  · exact hm

theorem withMembers_cons {g now : Nat} {u : String} {us : List String}
    (hm : t.hasMember g u = false) :
    t.withMembers g now (u :: us) = (t.withMember ⟨g, u, now⟩).withMembers g now us := by
  rw [withMember, if_neg (by simp [hm])]
  simp [withMembers]

theorem Valid.withMembers (h : t.Valid) {g now : Nat} {us : List String}
    (hg : t.hasGroup g = true) (hu : ∀ u ∈ us, t.hasUser u = true) (hn : us.Nodup)
    (hm : ∀ u ∈ us, t.hasMember g u = false) : (t.withMembers g now us).Valid := by
  induction us generalizing t with
  | nil => simpa [Tables.withMembers] using h
  | cons u us ih =>
    obtain ⟨hnu, hn⟩ := List.nodup_cons.mp hn
    have hmu := hm u List.mem_cons_self
    rw [withMembers_cons hmu]
    have hi : t.insertMember ⟨g, u, now⟩ = .ok (t.withMember ⟨g, u, now⟩, ()) :=
      insertMember_ok hg (hu u List.mem_cons_self)
    have hv := insertMember_valid h hi
    refine ih hv ?_ (fun v hv => ?_) hn fun v hv => ?_
    · rw [hasGroup, withMember_groups]
      exact hg
    · rw [hasUser, withMember_users]
      exact hu v (List.mem_cons_of_mem _ hv)
    · have hne : u ≠ v := fun he => hnu (he ▸ hv)
      have hv := hm v (List.mem_cons_of_mem _ hv)
      rw [withMember, if_neg (by simp [hmu])]
      rw [hasMember] at hv
      simp [hasMember, List.any_append, hv, hne]

/-- The next group has no members yet. -/
theorem Valid.no_member_next (h : t.Valid) (u : String) :
    t.hasMember (t.groupSeq + 1) u = false := by
  rw [← Bool.not_eq_true, hasMember_iff]
  rintro ⟨m, hm, hid, -⟩
  have hg := h.memberGroup m hm
  rw [hid, h.next_group] at hg
  cases hg

theorem withGroup_hasGroup (row : GroupRow) :
    (t.withGroup row).hasGroup (t.groupSeq + 1) = true := by
  simp [hasGroup, withGroup]

theorem withoutMember_hasMember (g : Nat) (u : String) (g' : Nat) (v : String) :
    (t.withoutMember g u).hasMember g' v = (t.hasMember g' v && !(g' == g && v == u)) := by
  rw [Bool.eq_iff_iff, Bool.and_eq_true, hasMember_iff, hasMember_iff]
  constructor
  · rintro ⟨m, hm, rfl, rfl⟩
    obtain ⟨hm, hk⟩ := List.mem_filter.mp hm
    exact ⟨⟨m, hm, rfl, rfl⟩, hk⟩
  · rintro ⟨⟨m, hm, rfl, rfl⟩, hk⟩
    exact ⟨m, List.mem_filter.mpr ⟨hm, hk⟩, rfl, rfl⟩

theorem owns_iff {g : Nat} {u : String} :
    t.owns u g = true ↔ ∃ r ∈ t.groups, r.id = g ∧ r.owner = u := by
  simp [owns, List.any_eq_true]

end Tables

theorem left_staffed {t : Tables} (h : t.Valid) (hs : Staffed none t) (g : Nat) (u : String) :
    Staffed none (t.left g u) := by
  have hm : (t.withoutMember g u).Valid := Tables.deleteMember_valid (a := ()) h rfl
  cases ho : t.owns u g with
  | false =>
    rw [Tables.left, if_neg (by simp [ho])]
    refine withoutMember_staffed hs fun r hr hid hown => ?_
    rw [Tables.owns_iff.mpr ⟨r, hr, hid, hown⟩] at ho
    cases ho
  | true =>
    have hl : Staffed (some g) (t.withoutMember g u) := withoutMember_staffed hs fun _ _ _ _ => rfl
    rw [Tables.left, if_pos ho]
    cases hsu : successor g u t with
    | some heir =>
      obtain ⟨hheir, hne⟩ := successor_member hsu
      intro r hr _
      rcases mem_withOwner hr with ⟨hid, hown⟩ | ⟨hid, hr⟩
      · have hk := Tables.withoutMember_hasMember (t := t) g u g heir
        rw [hheir] at hk
        rw [hid, hown]
        exact hk.trans (by simp [hne])
      · exact hl r hr (by simpa using hid)
    | none =>
      intro r hr _
      have hg := hasGroup_of_mem hr
      obtain ⟨hr, hid⟩ := List.mem_filter.mp hr
      have hid : r.id ≠ g := by simpa using hid
      exact hasMember_dropGroups hm hg (hl r hr (by simpa using hid))

namespace Outcome
variable {R : Runtime} {d : Draws} {me : String} {t t' : Tables} {req : Request} {r : Response}

theorem valid (ho : Outcome R d me t req r t') (h : t.Valid) (hme : t.hasUser me = true)
    (hf : ∀ f ∈ t.files, f.id ≠ d.fileId) : t'.Valid := by
  cases ho with
  | looked | downloaded => exact h
  | avatar => exact Tables.updateAvatar_valid (a := ()) h rfl
  | deleted => exact h.withoutUser me
  | message hr | fileMessage hr =>
    exact Tables.insertEnvelope_valid h (Tables.insertEnvelope_ok hme hr)
  | groupMessage hm | groupFile hm =>
    obtain ⟨m, hm, hid, -⟩ := Tables.hasMember_iff.mp hm
    have hgr := h.memberGroup m hm
    rw [hid] at hgr
    exact Tables.insertGroupEnvelope_valid h (Tables.insertGroupEnvelope_ok hgr hme)
  | created hg =>
    refine (Tables.insertGroup_valid h (Tables.insertGroup_ok hme)).withMembers
      (Tables.withGroup_hasGroup _) (fun u hu => ?_) (walked_nodup d me _) fun u _ => h.no_member_next u
    rcases walked_mem.mp hu with rfl | hu
    · exact hme
    · exact (List.mem_filter.mp hu).2
  | joined hg hu => exact Tables.insertMember_valid h (Tables.insertMember_ok hg hu)
  | left => exact h.left _ _
  | uploaded hi ho =>
    exact Tables.insertFile_valid h (Tables.insertFile_ok (hi ▸ hf) (ho ▸ hme))

theorem hasUser (ho : Outcome R d me t req r t') (u : String) : t'.hasUser u = t.hasUser u ∨
    req = .deleteAccount ∧ r = .ok ∧ t'.hasUser u = (t.hasUser u && u != me) := by
  cases ho with
  | deleted => exact .inr ⟨rfl, rfl, withoutUser_hasUser me t u⟩
  | avatar =>
    left
    simp only [Tables.hasUser, Tables.withAvatar, List.any_map]
    congr 1
    funext r
    simp only [Function.comp_apply]
    split <;> rfl
  | joined =>
    left
    rw [Tables.hasUser, Tables.withMember_users]
    rfl
  | left =>
    left
    rw [Tables.hasUser, Tables.left_users]
    rfl
  | _ => exact .inl rfl

theorem staffed (ho : Outcome R d me t req r t') (h : t.Valid) (hs : Staffed none t) :
    Staffed none t' := by
  cases ho with
  | deleted => exact withoutUser_staffed h hs
  | created hg =>
    intro g hgm _
    refine Tables.hasMember_iff.mpr ?_
    rcases List.mem_append.mp hgm with hold | hnew
    · obtain ⟨m, hm, he⟩ := Tables.hasMember_iff.mp (hs g hold nofun)
      exact ⟨m, List.mem_append_left _ hm, he⟩
    · cases List.mem_singleton.mp hnew
      exact ⟨_, List.mem_append_right _ (List.mem_map_of_mem (walked_mem.mpr (.inl rfl))), rfl, rfl⟩
  | joined => exact hs.grow (Tables.withMember_groups _) fun _ _ hm => Tables.withMember_keeps hm
  | left => exact left_staffed h hs _ _
  | _ => exact hs

end Outcome

namespace Service

/-- The account uploaded the blob and sent it to the audience. -/
def Posted (s : Service) (fileId : String) (a : Account) (dest : Audience) : Prop :=
  (fileId, a) ∈ s.uploads ∧ ⟨fileId, a, dest⟩ ∈ s.posts

/-- Every row has its entry in the lists, under the accounts that hold its
names now. -/
structure Traced (s : Service) : Prop where
  file : ∀ f ∈ s.tables.files, (f.id, s.account f.owner) ∈ s.uploads
  envelope : ∀ e ∈ s.tables.envelopes, ∀ f, e.fileId = some f →
    s.Posted f (s.account e.sender) (.user (s.account e.recipient))
  groupEnvelope : ∀ e ∈ s.tables.groupEnvelopes, ∀ f, e.fileId = some f →
    s.Posted f (s.account e.sender) (.group e.groupId)
  member : ∀ m ∈ s.tables.groupMembers, (m.groupId, s.account m.username) ∈ s.joins

/-- What holds after every request and every sweep. -/
structure Sane (s : Service) : Prop where
  fresh : s.conn = Conn.fresh s.tables
  valid : s.tables.Valid
  staffed : Staffed none s.tables
  names : ∀ u, s.tables.hasUser u = true → isUsername u = true
  tokens : ∀ e ∈ s.tokens, s.tables.hasUser e.2.account.username = true ∧
    e.2.account = s.account e.2.account.username
  uploads : (s.uploads.map Prod.fst).Nodup
  traced : s.Traced

/-- What answering one request can come to. -/
inductive Handled (R : Runtime) (d : Draws) (authorization : String) (s : Service) :
    Request → Response → Service → Prop where
  | turnedAway {req : Request} {status : Nat} {detail : String} {ts : Tokens}
    (hts : ∀ e ∈ ts, e ∈ s.tokens) :
    Handled R d authorization s req (.refused status detail) { s with tokens := ts }
  | loggedOut {ts : Tokens} (hts : ∀ e ∈ ts, e ∈ s.tokens) :
    Handled R d authorization s .logout .ok { s with tokens := ts }
  | loggedIn {username authSecret : String} (hu : s.tables.hasUser username = true) :
    Handled R d authorization s (.login username authSecret) (issue d (s.account username) s).1
      (issue d (s.account username) s).2
  | registered {req : RegisterRequest} {row : User} {t : Tables} (hn : row.username = req.username)
    (hu : s.tables.hasUser req.username = false) (ht : s.tables.insertUser row = .ok (t, ()))
    {n : String → Nat} (hs : ∀ u, u ≠ req.username → n u = s.registered u) :
    Handled R d authorization s (.register req)
      (issue d ⟨req.username, n req.username⟩ { s with conn := Conn.fresh t, registered := n }).1
      (issue d ⟨req.username, n req.username⟩ { s with conn := Conn.fresh t, registered := n }).2
  | served {req : Request} {me : Account} {ts : Tokens} {r : Response} {t : Tables}
    (hme : requireUser d.checkedAt authorization s.tokens = (some me, ts))
    (ho : Outcome R d me.username s.tables req r t) :
    Handled R d authorization s req r
      (record d me req { s with conn := Conn.fresh t, tokens := ts } r)

variable {R : Runtime} {d : Draws} {authorization : String} {s : Service}

theorem unused (hf : s.fresh d = true) : ∀ p ∈ s.uploads, p.1 ≠ d.fileId := by
  intro p hp
  have hn := List.all_eq_true.mp (Bool.and_eq_true_iff.mp hf).2 p hp
  simpa using hn

theorem Sane.file_fresh (h : s.Sane) (hf : s.fresh d = true) :
    ∀ f ∈ s.tables.files, f.id ≠ d.fileId :=
  fun f hm => unused hf _ (h.traced.file f hm)

theorem Sane.no_empty_name (h : s.Sane) : s.tables.hasUser "" = false := by
  rw [← Bool.not_eq_true]
  intro hu
  have := h.names "" hu
  revert this
  decide

theorem Sane.caller (h : s.Sane) {now : Nat} {me : Account} {ts : Tokens}
    (hr : requireUser now authorization s.tokens = (some me, ts)) :
    s.tables.hasUser me.username = true ∧ me = s.account me.username ∧ ∀ e ∈ ts, e ∈ s.tokens := by
  obtain ⟨hts, ha⟩ := requireUser_mem now authorization s.tokens
  rw [hr] at hts ha
  obtain ⟨e, he, rfl⟩ := ha me rfl
  obtain ⟨hu, hs⟩ := h.tokens e he
  exact ⟨hu, hs, hts⟩

theorem Sane.yields (h : s.Sane) {α : Type} {x : Db α} {a : α} {t : Tables}
    (hx : Yields x s.tables a t) : x s.conn = (.ok a, Conn.fresh t) := by
  rw [h.fresh]
  exact hx

/-- What only looks leaves the connection as it is. -/
theorem Sane.looks (h : s.Sane) {α : Type} {x : Db α} {a : α} (hx : Yields x s.tables a s.tables) :
    x s.conn = (.ok a, s.conn) := by
  rw [h.yields hx, ← h.fresh]

theorem register_handled (h : s.Sane) (req : RegisterRequest) :
    Handled R d authorization s (.register req) (register R d req s).1 (register R d req s).2 := by
  unfold register
  split
  · exact .turnedAway fun _ he => he
  have hex := h.looks (userExists_yields req.username)
  cases hu : s.tables.hasUser req.username with
  | true =>
    rw [hex, hu]
    exact .turnedAway fun _ he => he
  | false =>
    let row : User := ⟨req.username, req.kemPublicKey, req.dsaPublicKey, req.fingerprint, d.salt,
      R.hash req.authSecret d.salt, req.avatar, d.storedAt⟩
    have hi : s.tables.insertUser row = .ok ({ s.tables with users := s.tables.users ++ [row] }, ()) := by
      rw [Tables.insertUser, if_neg (by simp [row, hu])]
    have hc := h.yields (Yields.store_last hi)
    rw [hex, hu]
    dsimp only
    rw [show createUser req.username req.kemPublicKey req.dsaPublicKey req.fingerprint d.salt
      (R.hash req.authSecret d.salt) req.avatar d.storedAt s.conn = _ from hc]
    have hd : Handled R d authorization s (.register req) _ _ := .registered rfl hu hi
      (n := fun u => if u = req.username then s.registered req.username + 1 else s.registered u)
      fun u hne => if_neg hne
    simpa using hd

theorem login_handled (h : s.Sane) (username authSecret : String) :
    Handled R d authorization s (.login username authSecret) (login R d username authSecret s).1
      (login R d username authSecret s).2 := by
  unfold login
  split
  · exact .turnedAway fun _ he => he
  have hg : getUser username s.conn = (.ok (s.tables.users.find? fun r => r.username == username),
      s.conn) := h.looks (.query _ _)
  rw [hg]
  cases hs : s.tables.users.find? fun r => r.username == username with
  | none => exact .turnedAway fun _ he => he
  | some user =>
    dsimp only
    split
    · exact .loggedIn (Tables.hasUser_iff.mpr ⟨user, List.mem_of_find?_eq_some hs,
        by simpa using List.find?_some hs⟩)
    · exact .turnedAway fun _ he => he

theorem serve_yields (h : s.Sane) {me : Account} {req : Request} {ts : Tokens} {r : Response}
    {t : Tables} (hy : Yields (handler R d me.username req) s.tables r t) :
    serve R d me req { s with tokens := ts } =
      (r, record d me req { s with conn := Conn.fresh t, tokens := ts } r) := by
  have hrun := h.yields hy
  simp only [serve, hrun]

theorem guarded_handled (h : s.Sane) (hf : s.fresh d = true) (req : Request) :
    Handled R d authorization s req (s.guarded R authorization req d).1
      (s.guarded R authorization req d).2 := by
  have hmem := requireUser_mem d.checkedAt authorization s.tokens
  unfold guarded
  cases hr : requireUser d.checkedAt authorization s.tokens with
  | mk found ts =>
    cases found with
    | none => exact .turnedAway fun e he => hmem.1 e (hr ▸ he)
    | some me =>
      obtain ⟨hu, -, -⟩ := h.caller hr
      obtain ⟨r, t, hy, ho⟩ :=
        handler_outcome (R := R) h.valid h.no_empty_name hu (h.file_fresh hf) req
      simp only [serve_yields h hy]
      exact .served hr ho

theorem handle_handled (h : s.Sane) (hf : s.fresh d = true) (req : Request) :
    Handled R d authorization s req (s.handle R authorization req d).1
      (s.handle R authorization req d).2 := by
  cases req with
  | register req => exact register_handled h req
  | login username authSecret => exact login_handled h username authSecret
  | logout =>
    unfold handle logout
    dsimp only
    split
    · exact .loggedOut fun _ he => he
    · exact .loggedOut fun _ he => List.mem_of_mem_filter he
  | _ => exact guarded_handled h hf _

/-! What each step keeps -/

/-- The lists only grow, the names in the tables keep their accounts, and every
new row has its entry. -/
theorem Traced.grow {s s' : Service} (h : s.Traced) (hv : s.tables.Valid)
    (hn : ∀ u, s.tables.hasUser u = true → s'.account u = s.account u)
    (hu : ∀ p ∈ s.uploads, p ∈ s'.uploads) (hp : ∀ p ∈ s.posts, p ∈ s'.posts)
    (hj : ∀ p ∈ s.joins, p ∈ s'.joins)
    (hf : ∀ f ∈ s'.tables.files, f ∈ s.tables.files ∨ (f.id, s'.account f.owner) ∈ s'.uploads)
    (he : ∀ e ∈ s'.tables.envelopes, e ∈ s.tables.envelopes ∨ ∀ f, e.fileId = some f →
      s'.Posted f (s'.account e.sender) (.user (s'.account e.recipient)))
    (hg : ∀ e ∈ s'.tables.groupEnvelopes, e ∈ s.tables.groupEnvelopes ∨ ∀ f, e.fileId = some f →
      s'.Posted f (s'.account e.sender) (.group e.groupId))
    (hm : ∀ m ∈ s'.tables.groupMembers,
      m ∈ s.tables.groupMembers ∨ (m.groupId, s'.account m.username) ∈ s'.joins) :
    s'.Traced where
  file f hf' := by
    rcases hf f hf' with ho | ho
    · rw [hn _ (hv.fileOwner f ho)]
      exact hu _ (h.file f ho)
    · exact ho
  envelope e he' fid hid := by
    rcases he e he' with ho | ho
    · rw [hn _ (hv.sender e ho), hn _ (hv.recipient e ho)]
      exact ⟨hu _ (h.envelope e ho fid hid).1, hp _ (h.envelope e ho fid hid).2⟩
    · exact ho fid hid
  groupEnvelope e he' fid hid := by
    rcases hg e he' with ho | ho
    · rw [hn _ (hv.groupSender e ho)]
      exact ⟨hu _ (h.groupEnvelope e ho fid hid).1, hp _ (h.groupEnvelope e ho fid hid).2⟩
    · exact ho fid hid
  member m hm' := by
    rcases hm m hm' with ho | ho
    · rw [hn _ (hv.memberUser m ho)]
      exact hj _ (h.member m ho)
    · exact ho

theorem Traced.thin {s s' : Service} (h : s.Traced) (hv : s.tables.Valid)
    (ht : s.tables.Thinned s'.tables)
    (hn : ∀ u, s.tables.hasUser u = true → s'.account u = s.account u)
    (hu : s'.uploads = s.uploads) (hp : s'.posts = s.posts) (hj : s'.joins = s.joins) :
    s'.Traced :=
  h.grow hv hn (fun _ h => hu ▸ h) (fun _ h => hp ▸ h) (fun _ h => hj ▸ h)
    (fun f hf => .inl (ht.files f hf)) (fun e he => .inl (ht.envelopes e he))
    (fun e he => .inl (ht.groupEnvelopes e he)) fun m hm => .inl (ht.groupMembers m hm)

theorem Sane.issue (h : s.Sane) {a : Account} (hu : s.tables.hasUser a.username = true)
    (ha : a = s.account a.username) : (issue d a s).2.Sane where
  fresh := h.fresh
  valid := h.valid
  staffed := h.staffed
  names := h.names
  tokens e he := by
    rcases issueToken_mem he with he | rfl
    · exact h.tokens e he
    · exact ⟨hu, ha⟩
  uploads := h.uploads
  traced := h.traced.thin h.valid (.refl _) (fun _ _ => rfl) rfl rfl rfl

theorem Sane.keepTokens (h : s.Sane) {ts : Tokens} (hts : ∀ e ∈ ts, e ∈ s.tokens) :
    Sane { s with tokens := ts } where
  fresh := h.fresh
  valid := h.valid
  staffed := h.staffed
  names := h.names
  tokens e he := h.tokens e (hts e he)
  uploads := h.uploads
  traced := h.traced.thin h.valid (.refl _) (fun _ _ => rfl) rfl rfl rfl

theorem Sane.registered (h : s.Sane) {row : User} {t : Tables} {n : String → Nat}
    (hu : s.tables.hasUser row.username = false) (hw : isUsername row.username = true)
    (ht : s.tables.insertUser row = .ok (t, ()))
    (hs : ∀ u, u ≠ row.username → n u = s.registered u) :
    Sane { s with conn := Conn.fresh t, registered := n } := by
  have hne : ∀ u, s.tables.hasUser u = true → u ≠ row.username := by
    rintro u hk rfl
    rw [hu] at hk
    cases hk
  have hacc : ∀ u, s.tables.hasUser u = true → (⟨u, n u⟩ : Account) = s.account u :=
    fun u hk => by rw [hs u (hne u hk)]; rfl
  have hv := Tables.insertUser_valid h.valid ht
  rw [Tables.insertUser, if_neg (by simp [hu])] at ht
  cases ht
  have hold : ∀ u, ({ s.tables with users := s.tables.users ++ [row] } : Tables).hasUser u =
      (s.tables.hasUser u || row.username == u) := fun u => by simp [Tables.hasUser]
  exact {
    fresh := rfl
    valid := hv
    staffed := h.staffed.same rfl rfl
    names := fun u hk => by
      rcases Bool.or_eq_true_iff.mp ((hold u).symm.trans hk) with hk | hk
      · exact h.names u hk
      · exact (beq_iff_eq.mp hk) ▸ hw
    tokens := fun e he => by
      obtain ⟨hk, ha⟩ := h.tokens e he
      exact ⟨(hold _).trans (by rw [hk]; rfl), ha.trans (hacc _ hk).symm⟩
    uploads := h.uploads
    traced := h.traced.thin h.valid
      ⟨fun _ h => h, fun _ h => h, fun _ h => h, fun _ h => h, rfl, rfl⟩ hacc rfl rfl rfl }

section record
variable {me : Account} {req : Request} {r : Response}

@[simp] theorem record_conn : (record d me req s r).conn = s.conn := by
  unfold record
  split <;> first | rfl | (split <;> rfl)

@[simp] theorem record_registered : (record d me req s r).registered = s.registered := by
  unfold record
  split <;> first | rfl | (split <;> rfl)

@[simp] theorem record_tables : (record d me req s r).tables = s.tables :=
  congrArg Conn.working record_conn

@[simp] theorem record_account (u : String) : (record d me req s r).account u = s.account u := by
  simp [account]

theorem record_tokens : ∀ e ∈ (record d me req s r).tokens, e ∈ s.tokens := by
  unfold record
  intro e he
  split at he <;> first | exact he | (split at he <;> first | exact he | exact List.mem_of_mem_filter he)

theorem record_grows : (∀ p ∈ s.uploads, p ∈ (record d me req s r).uploads) ∧
    (∀ p ∈ s.posts, p ∈ (record d me req s r).posts) ∧
    ∀ p ∈ s.joins, p ∈ (record d me req s r).joins := by
  unfold record
  refine ⟨fun p hp => ?_, fun p hp => ?_, fun p hp => ?_⟩ <;>
    split <;> first
      | exact hp
      | exact List.mem_append_left _ hp
      | (split <;> first | exact hp | exact List.mem_append_left _ hp)

theorem record_uploads (h : (s.uploads.map Prod.fst).Nodup) (hf : ∀ p ∈ s.uploads, p.1 ≠ d.fileId)
    (hr : ∀ f, r = .uploaded f → f = d.fileId) :
    ((record d me req s r).uploads.map Prod.fst).Nodup := by
  unfold record
  split
  · rename_i f
    cases hr f rfl
    exact Tables.nodup_snoc h hf
  all_goals first | exact h | (split <;> exact h)

end record

theorem Traced.served (h : s.Sane) {me : Account} {ts : Tokens} {req : Request} {r : Response}
    {t : Tables} (ha : me = s.account me.username)
    (ho : Outcome R d me.username s.tables req r t) :
    (record d me req { s with conn := Conn.fresh t, tokens := ts } r).Traced := by
  have hown : ∀ f, s.tables.uploadedBy me.username f = true → (f, me) ∈ s.uploads := by
    intro f hf
    obtain ⟨row, hr, he⟩ := List.any_eq_true.mp hf
    simp only [Bool.and_eq_true, beq_iff_eq] at he
    have hm := h.traced.file row hr
    rw [he.1, he.2, ← ha] at hm
    exact hm
  obtain ⟨hu, hp, hj⟩ := @record_grows d { s with conn := Conn.fresh t, tokens := ts } me req r
  have keep := @Traced.grow s (record d me req { s with conn := Conn.fresh t, tokens := ts } r)
    h.traced h.valid (fun u _ => record_account u) hu hp hj
  rw [record_tables] at keep
  have thin : s.tables.Thinned t → _ := fun ht => keep (fun f hf => .inl (ht.files f hf))
    (fun e he => .inl (ht.envelopes e he)) (fun e he => .inl (ht.groupEnvelopes e he))
    fun m hm => .inl (ht.groupMembers m hm)
  cases ho with
  | looked | downloaded => exact thin (.refl _)
  | avatar => exact thin ⟨fun _ h => h, fun _ h => h, fun _ h => h, fun _ h => h, rfl, rfl⟩
  | deleted => exact thin (Tables.withoutUser_thinned _)
  | left => exact thin (Tables.left_thinned _ _)
  | message =>
    refine keep (fun _ hf => .inl hf) (Tables.forall_snoc (fun _ => .inl) (.inr ?_))
      (fun _ he => .inl he) fun _ hm => .inl hm
    nofun
  | groupMessage =>
    refine keep (fun _ hf => .inl hf) (fun _ he => .inl he)
      (Tables.forall_snoc (fun _ => .inl) (.inr ?_)) fun _ hm => .inl hm
    nofun
  | fileMessage _ ho =>
    refine keep (fun _ hf => .inl hf) (Tables.forall_snoc (fun _ => .inl) (.inr fun f he => ?_))
      (fun _ he => .inl he) fun _ hm => .inl hm
    cases he
    simp only [record_account]
    refine ⟨hu _ (ha ▸ hown _ ho), List.mem_append_right _ (List.mem_singleton.mpr ?_)⟩
    exact congrArg (fun a => Post.mk _ a _) ha.symm
  | groupFile _ ho =>
    refine keep (fun _ hf => .inl hf) (fun _ he => .inl he)
      (Tables.forall_snoc (fun _ => .inl) (.inr fun f he => ?_)) fun _ hm => .inl hm
    cases he
    simp only [record_account]
    refine ⟨hu _ (ha ▸ hown _ ho), List.mem_append_right _ (List.mem_singleton.mpr ?_)⟩
    exact congrArg (fun a => Post.mk _ a _) ha.symm
  | created hg =>
    refine keep (fun _ hf => .inl hf) (fun _ he => .inl he) (fun _ he => .inl he) fun m hm => ?_
    rcases List.mem_append.mp hm with hm | hm
    · exact .inl hm
    · obtain ⟨u, hu, rfl⟩ := List.mem_map.mp hm
      refine .inr (List.mem_append_right _ (List.mem_map.mpr ⟨u, hu, ?_⟩))
      rw [hg, record_account]
  | joined hg hu =>
    refine keep (fun f hf => .inl ?_) (fun e he => .inl ?_) (fun e he => .inl ?_) fun m hm => ?_
    · unfold Tables.withMember at hf
      split at hf <;> exact hf
    · unfold Tables.withMember at he
      split at he <;> exact he
    · unfold Tables.withMember at he
      split at he <;> exact he
    · rcases Tables.mem_withMember hm with hm | rfl
      · exact .inl hm
      · exact .inr (List.mem_append_right _ (List.mem_singleton.mpr (by rw [record_account])))
  | uploaded hi ho =>
    refine keep (Tables.forall_snoc (fun _ => .inl) (.inr ?_)) (fun _ he => .inl he)
      (fun _ he => .inl he) fun _ hm => .inl hm
    apply List.mem_append_right
    rw [record_account, hi, ho, ha]
    exact List.mem_singleton.mpr rfl

theorem Sane.served (h : s.Sane) (hf : s.fresh d = true) {me : Account} {ts : Tokens}
    {req : Request} {r : Response} {t : Tables}
    (hr : requireUser d.checkedAt authorization s.tokens = (some me, ts))
    (ho : Outcome R d me.username s.tables req r t) :
    (record d me req { s with conn := Conn.fresh t, tokens := ts } r).Sane := by
  obtain ⟨hu, ha, hts⟩ := h.caller hr
  exact {
    fresh := by rw [record_tables, record_conn]; rfl
    valid := by
      rw [record_tables]
      exact ho.valid h.valid hu (h.file_fresh hf)
    staffed := by
      rw [record_tables]
      exact ho.staffed h.valid h.staffed
    names := fun u hk => by
      rw [record_tables] at hk
      refine h.names u ?_
      rcases ho.hasUser u with he | ⟨-, -, he⟩
      · exact he.symm.trans hk
      · exact (Bool.and_eq_true_iff.mp (he.symm.trans hk)).1
    tokens := fun e he => by
      obtain ⟨hk, hacc⟩ := h.tokens e (hts e (record_tokens e he))
      rw [record_tables, record_account]
      refine ⟨?_, hacc⟩
      rcases ho.hasUser e.2.account.username with hs | ⟨rfl, rfl, hs⟩
      · exact hs.trans hk
      · refine hs.trans (Bool.and_eq_true_iff.mpr ⟨hk, ?_⟩)
        exact (List.mem_filter.mp he).2
    uploads := record_uploads h.uploads (unused (s := s) hf) fun f he => by
      subst he
      cases ho with
      | looked ht => cases ht
      | uploaded => rfl
    traced := .served h ha ho }

theorem handle_sane (h : s.Sane) {req : Request} (hw : wellFormed req = true)
    (hf : s.fresh d = true) : (s.handle R authorization req d).2.Sane := by
  have hd : Handled R d authorization s req _ _ := handle_handled h hf req
  generalize s.handle R authorization req d = p at hd ⊢
  obtain ⟨r, s'⟩ := p
  change Handled R d authorization s req r s' at hd
  change s'.Sane
  cases hd with
  | turnedAway hts | loggedOut hts => exact h.keepTokens hts
  | loggedIn hu => exact h.issue hu rfl
  | registered hn hu ht hs =>
    rw [← hn] at hu hs ⊢
    refine (h.registered hu (hn ▸ hw) ht hs).issue ?_ rfl
    rw [Tables.insertUser, if_neg (by simp [hu])] at ht
    cases ht
    simp [Service.tables, Conn.fresh, Tables.hasUser]
  | served hr ho => exact h.served hf hr ho

/-! The sweep -/

/-- What a sweep leaves of the tables `t`. -/
structure Swept (t t' : Tables) : Prop where
  thinned : t.Thinned t'
  users : t.users = t'.users
  groups : t.groups = t'.groups
  groupMembers : t.groupMembers = t'.groupMembers

theorem Swept.refl (t : Tables) : Swept t t := ⟨.refl t, rfl, rfl, rfl⟩

theorem Swept.trans {t t' t'' : Tables} (h : Swept t t') (h' : Swept t' t'') : Swept t t'' :=
  ⟨h.thinned.trans h'.thinned, h.users.trans h'.users, h.groups.trans h'.groups,
    h.groupMembers.trans h'.groupMembers⟩

theorem deleteExpired_ends (now : Nat) : Ends (deleteExpired now) :=
  .bind (.query _) fun fids => .bind (.write fun _ => ⟨_, rfl⟩) fun _ =>
    .bind (.write fun _ => ⟨_, rfl⟩) fun _ => .bind (dropBlobs_total fids 0) fun n =>
      .commit n

theorem deleteOrphanFiles_ends (graceSeconds now : Nat) : Ends (deleteOrphanFiles graceSeconds now) :=
  .bind (.write fun _ => ⟨_, rfl⟩) fun n => .commit n

theorem deleteExpired_keeps (t : Tables) (now : Nat) :
    Keeps (fun t' => t'.Valid ∧ Swept t t') (deleteExpired now) := by
  intro c hc
  rw [← answer_state .count]
  refine exec_keeps_of (k := .deleteExpired now) (fun t' t'' h hst => ⟨hst.valid h.1, ?_⟩) c hc
  refine h.2.trans ?_
  rcases hst with ⟨a, he⟩ | ⟨a, he⟩ | ⟨p, a, he⟩ <;> cases he
  · refine ⟨⟨fun _ h => h, fun _ h => List.mem_of_mem_filter h, ?_, ?_, rfl, rfl⟩, rfl, rfl, rfl⟩
    <;> exact fun _ h => h
  · refine ⟨⟨fun _ h => h, fun _ h => h, fun _ h => List.mem_of_mem_filter h, ?_, rfl, rfl⟩,
      rfl, rfl, rfl⟩
    exact fun _ h => h
  · refine ⟨⟨fun _ h => List.mem_of_mem_filter h, ?_, ?_, ?_, rfl, rfl⟩, rfl, rfl, rfl⟩
    <;> exact fun _ h => h

theorem deleteOrphanFiles_keeps (t : Tables) (graceSeconds now : Nat) :
    Keeps (fun t' => t'.Valid ∧ Swept t t') (deleteOrphanFiles graceSeconds now) := by
  intro c hc
  rw [← answer_state .count]
  refine exec_keeps_of (k := .deleteOrphanFiles graceSeconds now)
    (fun t' t'' h hst => ⟨hst.valid h.1, h.2.trans ?_⟩) c hc
  obtain ⟨p, a, he⟩ := hst
  cases he
  refine ⟨⟨fun _ h => List.mem_of_mem_filter h, ?_, ?_, ?_, rfl, rfl⟩, rfl, rfl, rfl⟩
  <;> exact fun _ h => h

theorem sweep_swept (h : s.Sane) (graceSeconds now : Nat) :
    ∃ t, s.sweep graceSeconds now = { s with conn := Conn.fresh t } ∧ t.Valid ∧ Swept s.tables t := by
  have hs : Sound (fun t => t.Valid ∧ Swept s.tables t) s.conn := by
    rw [h.fresh]
    exact .fresh ⟨h.valid, .refl _⟩
  obtain ⟨n, t, he⟩ := deleteExpired_ends now s.conn
  have hx := deleteExpired_keeps s.tables now s.conn hs
  rw [he] at hx
  obtain ⟨n', t', ho⟩ := deleteOrphanFiles_ends graceSeconds now (Conn.fresh t)
  have hy := (deleteOrphanFiles_keeps s.tables graceSeconds now _ hx).working
  rw [ho] at hy
  refine ⟨t', ?_, hy.1, hy.2⟩
  simp only [sweep, he, ho]

theorem sweep_sane (h : s.Sane) (graceSeconds now : Nat) : (s.sweep graceSeconds now).Sane := by
  obtain ⟨t, he, hv, hs⟩ := sweep_swept h graceSeconds now
  have hk : ∀ u, t.hasUser u = s.tables.hasUser u := fun u => by rw [Tables.hasUser, ← hs.users]; rfl
  rw [he]
  exact {
    fresh := rfl
    valid := hv
    staffed := h.staffed.same hs.groups hs.groupMembers
    names := fun u hn => h.names u ((hk u).symm.trans hn)
    tokens := fun e he => ⟨(hk _).trans (h.tokens e he).1, (h.tokens e he).2⟩
    uploads := h.uploads
    traced := h.traced.thin h.valid hs.thinned (fun _ _ => rfl) rfl rfl rfl }

theorem step_sane (s : Service) (e : Event) (s' : Service) (h : s.Sane)
    (hs : s.step R e = some s') : s'.Sane := by
  cases e with
  | request authorization req d =>
    simp only [step] at hs
    split at hs
    · rename_i hc
      cases hs
      obtain ⟨hw, hf⟩ := Bool.and_eq_true_iff.mp hc
      exact handle_sane h hw hf
    · cases hs
  | sweep graceSeconds now =>
    cases hs
    exact sweep_sane h graceSeconds now

theorem empty_sane : Service.empty.Sane where
  fresh := rfl
  valid := Tables.empty_valid
  staffed _ hg := absurd hg List.not_mem_nil
  names _ h := by cases h
  tokens _ h := absurd h List.not_mem_nil
  uploads := List.nodup_nil
  traced := ⟨nofun, nofun, nofun, nofun⟩

theorem run_sane {es : List Event} (h : run (step R) .empty es = some s) : s.Sane :=
  invariant step_sane empty_sane h

end Service

end Lattix.Server
