import Lattix.Server.Access

namespace Lattix.Server
open Lib.Transactions Lib.Runs

namespace Tables

/-- Some envelope whose deadline has passed points at the blob. -/
def dueReference (now : Nat) (t : Tables) (fileId : String) : Bool :=
  t.envelopes.any (fun e => due now e.expiresAt && e.fileId == some fileId) ||
    t.groupEnvelopes.any fun e => due now e.expiresAt && e.fileId == some fileId

def withoutFiles (p : FileRow → Bool) (t : Tables) : Tables :=
  { t with files := t.files.filter fun f => !p f }

def withoutDue (now : Nat) (t : Tables) : Tables :=
  { t with
    envelopes := t.envelopes.filter fun e => !due now e.expiresAt
    groupEnvelopes := t.groupEnvelopes.filter fun e => !due now e.expiresAt }

end Tables

/-- `t'` is `t` after the blobs that meet `p` have gone, `removed` of them. -/
structure Purged (p : FileRow → Bool) (t t' : Tables) (removed : Nat) : Prop where
  files : ∀ f, f ∈ t'.files ↔ f ∈ t.files ∧ p f = false
  order : t'.files.Sublist t.files
  count : t'.files.length + removed = t.files.length
  rest : t' = { t with files := t'.files }

/-- `t'` is what the sweep of expired messages is to leave of `t`: a blob goes
when an expired envelope pointed at it and no envelope that stays does. -/
structure Expired (now : Nat) (t t' : Tables) (removed : Nat) : Prop where
  envelopes : t'.envelopes = t.envelopes.filter fun e => !Tables.due now e.expiresAt
  groupEnvelopes : t'.groupEnvelopes = t.groupEnvelopes.filter fun e => !Tables.due now e.expiresAt
  files : ∀ f, f ∈ t'.files ↔
    f ∈ t.files ∧ ¬(t.dueReference now f.id = true ∧ t'.referenced f.id = false)
  order : t'.files.Sublist t.files
  count : t'.files.length + removed = t.files.length
  rest : t' = { t with
    envelopes := t'.envelopes
    groupEnvelopes := t'.groupEnvelopes
    files := t'.files }

/-- Every blob a stored envelope points at exists, and belongs to its sender. -/
structure Tables.Anchored (t : Tables) : Prop where
  envelope : ∀ e ∈ t.envelopes, ∀ f, e.fileId = some f →
    ∃ row ∈ t.files, row.id = f ∧ row.owner = e.sender
  groupEnvelope : ∀ e ∈ t.groupEnvelopes, ∀ f, e.fileId = some f →
    ∃ row ∈ t.files, row.id = f ∧ row.owner = e.sender

namespace Tables
variable {t : Tables}

theorem dueReference_iff {now : Nat} {f : String} : t.dueReference now f = true ↔
    (∃ e ∈ t.envelopes, due now e.expiresAt = true ∧ e.fileId = some f) ∨
      ∃ e ∈ t.groupEnvelopes, due now e.expiresAt = true ∧ e.fileId = some f := by
  simp [dueReference, List.any_eq_true]

theorem referenced_iff {f : String} : t.referenced f = true ↔
    (∃ e ∈ t.envelopes, e.fileId = some f) ∨ ∃ e ∈ t.groupEnvelopes, e.fileId = some f := by
  simp [referenced, List.any_eq_true]

theorem withoutFiles_purged (p : FileRow → Bool) :
    Purged p t (t.withoutFiles p) (t.files.filter p).length where
  files f := by simp [withoutFiles, List.mem_filter]
  order := List.filter_sublist
  count := by
    rw [Nat.add_comm]
    exact (List.length_eq_length_filter_add p).symm
  rest := rfl

end Tables

theorem Purged.trans {p q : FileRow → Bool} {t t' t'' : Tables} {n m : Nat}
    (h : Purged p t t' n) (h' : Purged q t' t'' m) : Purged (fun f => p f || q f) t t'' (n + m) where
  files f := by
    rw [h'.files, h.files, Bool.or_eq_false_iff, and_assoc]
  order := h'.order.trans h.order
  count := by
    have := h.count
    have := h'.count
    omega
  rest := by
    rw [h'.rest, h.rest]

theorem Purged.congr {p q : FileRow → Bool} {t t' : Tables} {n : Nat} (h : Purged p t t' n)
    (hq : ∀ f ∈ t.files, p f = q f) : Purged q t t' n where
  files f := by
    rw [h.files]
    refine and_congr_right fun hf => ?_
    rw [hq f hf]
  order := h.order
  count := h.count
  rest := h.rest

/-- The loop takes, blob by blob, those that no envelope points at. -/
theorem dropBlobs_purged (fids : List String) (removed : Nat) (c : Conn Tables) :
    ∃ n t b, dropBlobs fids removed c = (.ok (removed + n), ⟨c.committed, t, b⟩) ∧
      Purged (fun f => decide (f.id ∈ fids) && !c.working.referenced f.id) c.working t n := by
  induction fids generalizing removed c with
  | nil =>
    refine ⟨0, c.working, c.inTransaction, rfl, ?_⟩
    exact ⟨fun f => by simp, .refl _, rfl, rfl⟩
  | cons fid rest ih =>
    let p : FileRow → Bool := fun f => f.id == fid && !c.working.referenced f.id
    have hp : Purged p c.working (c.working.withoutFiles p) _ := Tables.withoutFiles_purged p
    have hw : c.working.deleteUnreferenced (fun f => f.id == fid) =
        .ok (c.working.withoutFiles p, (c.working.files.filter p).length) := rfl
    obtain ⟨n, t, b, hr, ht⟩ := ih (removed + (c.working.files.filter p).length)
      ⟨c.committed, c.working.withoutFiles p, true⟩
    refine ⟨(c.working.files.filter p).length + n, t, b, ?_, ?_⟩
    · refine (bind_ok (write_ok hw) _).trans ?_
      rw [← Nat.add_assoc]
      exact hr
    · refine (hp.trans ht).congr fun f _ => ?_
      change (p f || decide (f.id ∈ rest) && !c.working.referenced f.id) = _
      rw [← Bool.and_or_distrib_right]
      simp only [List.mem_cons, Bool.decide_or]
      rfl

theorem mem_expiring {now : Nat} {t : Tables} {f : String} :
    f ∈ ((t.envelopes.filter fun e => Tables.due now e.expiresAt).filterMap EnvelopeRow.fileId ++
      (t.groupEnvelopes.filter fun e => Tables.due now e.expiresAt).filterMap
        GroupEnvelopeRow.fileId).dedup ↔ t.dueReference now f = true := by
  rw [List.mem_dedup, List.mem_append, Tables.dueReference_iff]
  simp only [List.mem_filterMap, List.mem_filter, and_assoc]

theorem deleteExpired_exact (now : Nat) (c : Conn Tables) :
    ∃ n t, deleteExpired now c = (.ok n, Conn.fresh t) ∧ Expired now c.working t n := by
  obtain ⟨n, t, b, hr, ht⟩ := dropBlobs_purged _ 0 ⟨c.committed, c.working.withoutDue now, true⟩
  refine ⟨n, t, (bind_ok hr _).trans ?_, ?_⟩
  · rw [Nat.zero_add]
    rfl
  · have he : t.envelopes = _ := congrArg Tables.envelopes ht.rest
    have hg : t.groupEnvelopes = _ := congrArg Tables.groupEnvelopes ht.rest
    have href : ∀ f, (c.working.withoutDue now).referenced f = t.referenced f := by
      intro f
      rw [ht.rest]
      rfl
    refine ⟨he, hg, fun f => ?_, ht.order, ht.count, ht.rest.trans ?_⟩
    · rw [ht.files, Bool.and_eq_false_iff, decide_eq_false_iff_not, mem_expiring, not_and_or, href,
        Bool.not_eq_false', Bool.not_eq_false]
      exact Iff.rfl
    · rw [he, hg]
      rfl

theorem deleteOrphanFiles_exact (graceSeconds now : Nat) (c : Conn Tables) :
    ∃ n t, deleteOrphanFiles graceSeconds now c = (.ok n, Conn.fresh t) ∧
      Purged (fun f => decide (f.createdAt + graceSeconds < now) && !c.working.referenced f.id)
        c.working t n :=
  ⟨_, _, rfl, Tables.withoutFiles_purged _⟩

/-! Nothing dangles -/

namespace Tables
variable {t t' : Tables}

/-- Rows that name an uploaded blob of their sender may be added, blobs that
nothing points at may go. -/
theorem Anchored.change (h : t.Anchored)
    (he : ∀ e ∈ t'.envelopes, e ∈ t.envelopes ∨
      ∀ f, e.fileId = some f → t.uploadedBy e.sender f = true)
    (hg : ∀ e ∈ t'.groupEnvelopes, e ∈ t.groupEnvelopes ∨
      ∀ f, e.fileId = some f → t.uploadedBy e.sender f = true)
    (hf : ∀ row ∈ t.files, (∃ e ∈ t'.envelopes, e.fileId = some row.id ∧ e.sender = row.owner) ∨
      (∃ e ∈ t'.groupEnvelopes, e.fileId = some row.id ∧ e.sender = row.owner) → row ∈ t'.files) :
    t'.Anchored where
  envelope e hm f hid := by
    have hrow : ∃ row ∈ t.files, row.id = f ∧ row.owner = e.sender := by
      rcases he e hm with ho | hn
      · exact h.envelope e ho f hid
      · simpa [uploadedBy, List.any_eq_true] using hn f hid
    obtain ⟨row, hr, rfl, hs⟩ := hrow
    exact ⟨row, hf row hr (.inl ⟨e, hm, hid, hs.symm⟩), rfl, hs⟩
  groupEnvelope e hm f hid := by
    have hrow : ∃ row ∈ t.files, row.id = f ∧ row.owner = e.sender := by
      rcases hg e hm with ho | hn
      · exact h.groupEnvelope e ho f hid
      · simpa [uploadedBy, List.any_eq_true] using hn f hid
    obtain ⟨row, hr, rfl, hs⟩ := hrow
    exact ⟨row, hf row hr (.inr ⟨e, hm, hid, hs.symm⟩), rfl, hs⟩

theorem passOn_files (u : String) (gids : List Nat) : (t.passOn u gids).files = t.files := by
  induction gids generalizing t with
  | nil => rfl
  | cons gid rest ih =>
    simp only [passOn]
    split <;> exact ih

theorem left_files (g : Nat) (u : String) : (t.left g u).files = t.files := by
  unfold left
  split
  · split <;> rfl
  · rfl

/-- An account takes its envelopes with it along with its blobs. -/
theorem Anchored.withoutUser (h : t.Anchored) (u : String) : (t.withoutUser u).Anchored := by
  have ht := withoutUser_thinned (t := t) u
  refine h.change (fun e he => .inl (ht.envelopes e he)) (fun e he => .inl (ht.groupEnvelopes e he)) ?_
  intro row hr hm
  refine List.mem_filter.mpr ⟨?_, ?_⟩
  · change row ∈ (t.passOn u (owned u t)).files
    rw [passOn_files]
    exact hr
  · rcases hm with ⟨e, he, -, hs⟩ | ⟨e, he, -, hs⟩
    · have hne := (List.mem_filter.mp he).2
      rw [← hs]
      exact (Bool.and_eq_true_iff.mp hne).1
    · rw [← hs]
      exact (List.mem_filter.mp he).2

theorem Anchored.purged {p : FileRow → Bool} {n : Nat} (h : t.Anchored) (ht : Purged p t t' n)
    (hp : ∀ f, p f = true → t.referenced f.id = false) : t'.Anchored := by
  have he : t'.envelopes = t.envelopes := by rw [ht.rest]
  have hg : t'.groupEnvelopes = t.groupEnvelopes := by rw [ht.rest]
  refine h.change (fun e hm => .inl (he ▸ hm)) (fun e hm => .inl (hg ▸ hm)) ?_
  intro row hr hm
  refine (ht.files row).mpr ⟨hr, ?_⟩
  rw [← Bool.not_eq_true]
  intro hgone
  have hun := hp row hgone
  rw [← Bool.not_eq_true, referenced_iff] at hun
  apply hun
  rw [he, hg] at hm
  rcases hm with ⟨e, hm, hid, -⟩ | ⟨e, hm, hid, -⟩
  · exact .inl ⟨e, hm, hid⟩
  · exact .inr ⟨e, hm, hid⟩

theorem Anchored.expired {now n : Nat} (h : t.Anchored) (ht : Expired now t t' n) :
    t'.Anchored := by
  refine h.change (fun e hm => .inl ?_) (fun e hm => .inl ?_) ?_
  · rw [ht.envelopes] at hm
    exact List.mem_of_mem_filter hm
  · rw [ht.groupEnvelopes] at hm
    exact List.mem_of_mem_filter hm
  · intro row hr hm
    refine (ht.files row).mpr ⟨hr, ?_⟩
    rintro ⟨-, hun⟩
    rw [← Bool.not_eq_true, referenced_iff] at hun
    apply hun
    rcases hm with ⟨e, hm, hid, -⟩ | ⟨e, hm, hid, -⟩
    · exact .inl ⟨e, hm, hid⟩
    · exact .inr ⟨e, hm, hid⟩

end Tables

/-- What the two histories can hold after a request: new rows have the next id,
and one with a blob is of kind `file` and names a blob of its sender's. -/
structure Rows (t t' : Tables) : Prop where
  envelope : ∀ e ∈ t'.envelopes, e ∈ t.envelopes ∨
    0 < e.id ∧ ∀ f, e.fileId = some f → e.kind = .file ∧ t.uploadedBy e.sender f = true
  groupEnvelope : ∀ e ∈ t'.groupEnvelopes, e ∈ t.groupEnvelopes ∨
    0 < e.id ∧ ∀ f, e.fileId = some f → e.kind = .file ∧ t.uploadedBy e.sender f = true

theorem Rows.thin {t t' : Tables} (h : t.Thinned t') : Rows t t' :=
  ⟨fun e he => .inl (h.envelopes e he), fun e he => .inl (h.groupEnvelopes e he)⟩

theorem Rows.user {t : Tables} {row : EnvelopeRow}
    (h : ∀ f, row.fileId = some f → row.kind = .file ∧ t.uploadedBy row.sender f = true) :
    Rows t (t.withEnvelope row) :=
  ⟨Tables.forall_snoc (fun _ he => .inl he) (.inr ⟨Nat.succ_pos _, h⟩), fun _ he => .inl he⟩

theorem Rows.group {t : Tables} {row : GroupEnvelopeRow}
    (h : ∀ f, row.fileId = some f → row.kind = .file ∧ t.uploadedBy row.sender f = true) :
    Rows t (t.withGroupEnvelope row) :=
  ⟨fun _ he => .inl he, Tables.forall_snoc (fun _ he => .inl he) (.inr ⟨Nat.succ_pos _, h⟩)⟩

section outcomes
variable {R : Runtime} {d : Draws} {me : String} {t t' : Tables} {req : Request} {r : Response}

theorem Outcome.rows (ho : Outcome R d me t req r t') : Rows t t' := by
  cases ho with
  | looked | downloaded => exact .thin (.refl _)
  | avatar | created | uploaded => exact ⟨fun _ h => .inl h, fun _ h => .inl h⟩
  | deleted => exact .thin (Tables.withoutUser_thinned _)
  | left => exact .thin (Tables.left_thinned _ _)
  | joined =>
    unfold Tables.withMember
    split <;> exact ⟨fun _ h => .inl h, fun _ h => .inl h⟩
  | message => exact .user nofun
  | groupMessage => exact .group nofun
  | fileMessage _ hu =>
    apply Rows.user
    intro f hf
    cases hf
    exact ⟨rfl, hu⟩
  | groupFile _ hu =>
    apply Rows.group
    intro f hf
    cases hf
    exact ⟨rfl, hu⟩

/-- Only an account that is deleted takes blobs with it. -/
theorem Outcome.files (ho : Outcome R d me t req r t') :
    t' = t.withoutUser me ∨ ∀ row ∈ t.files, row ∈ t'.files := by
  cases ho with
  | deleted => exact .inl rfl
  | uploaded => exact .inr fun _ h => List.mem_append_left _ h
  | joined =>
    right
    unfold Tables.withMember
    split <;> exact fun _ h => h
  | left =>
    right
    rw [Tables.left_files]
    exact fun _ h => h
  | _ => exact .inr fun _ h => h

theorem Outcome.anchored (ho : Outcome R d me t req r t') (h : t.Anchored) : t'.Anchored := by
  rcases ho.files with rfl | hf
  · exact h.withoutUser me
  · have hr := ho.rows
    refine h.change (fun e he => ?_) (fun e he => ?_) fun row hm _ => hf row hm
    · exact (hr.envelope e he).imp_right fun hn f hid => (hn.2 f hid).2
    · exact (hr.groupEnvelope e he).imp_right fun hn f hid => (hn.2 f hid).2

end outcomes

namespace Service
variable {R : Runtime} {s s' : Service}

theorem sweep_anchored (h : s.tables.Anchored) (graceSeconds now : Nat) :
    (s.sweep graceSeconds now).tables.Anchored := by
  obtain ⟨n, t, hx, ht⟩ := deleteExpired_exact now s.conn
  obtain ⟨m, t', ho, ht'⟩ := deleteOrphanFiles_exact graceSeconds now (Conn.fresh t)
  have hs : s.sweep graceSeconds now = { s with conn := Conn.fresh t' } := by
    simp only [sweep, hx, ho]
  rw [hs]
  refine (h.expired ht).purged ht' fun f hf => ?_
  have hn : (!t.referenced f.id) = true := (Bool.and_eq_true_iff.mp hf).2
  simpa using hn

theorem step_anchored (s : Service) (e : Event) (s' : Service)
    (h : s.Sane ∧ s.tables.Anchored) (hs : s.step R e = some s') :
    s'.Sane ∧ s'.tables.Anchored := by
  refine ⟨step_sane s e s' h.1 hs, ?_⟩
  cases e with
  | sweep graceSeconds now =>
    cases hs
    exact sweep_anchored h.2 graceSeconds now
  | request authorization req d =>
    simp only [step] at hs
    split at hs
    · rename_i hc
      cases hs
      have hd : Handled R d authorization s req _ _ :=
        handle_handled h.1 (Bool.and_eq_true_iff.mp hc).2 req
      generalize s.handle R authorization req d = p at hd ⊢
      obtain ⟨r, s'⟩ := p
      change Handled R d authorization s req r s' at hd
      change s'.tables.Anchored
      cases hd with
      | turnedAway | loggedOut | loggedIn => exact h.2
      | registered hn hu ht hs =>
        rw [Tables.insertUser, if_neg (by simp [hn, hu])] at ht
        cases ht
        exact ⟨h.2.envelope, h.2.groupEnvelope⟩
      | served hr ho =>
        rw [record_tables]
        exact ho.anchored h.2
    · cases hs

theorem run_anchored {es : List Event} (h : run (step R) .empty es = some s) :
    s.tables.Anchored :=
  (invariant step_anchored ⟨empty_sane, nofun, nofun⟩ h).2

/-- Both sweeps take exactly what they are to take, whatever is pending on the
connection; so no envelope ever points at a blob that is gone. -/
theorem sweeps_exact (R : Runtime) :
    (∀ (c : Conn Tables) (now : Nat), ∃ n t, deleteExpired now c = (.ok n, Conn.fresh t) ∧
      Expired now c.working t n) ∧
    (∀ (c : Conn Tables) (graceSeconds now : Nat), ∃ n t,
      deleteOrphanFiles graceSeconds now c = (.ok n, Conn.fresh t) ∧
      Purged (fun f => decide (f.createdAt + graceSeconds < now) && !c.working.referenced f.id)
        c.working t n) ∧
    ∀ (es : List Event) (s : Service), run (step R) .empty es = some s → s.tables.Anchored :=
  ⟨fun c now => deleteExpired_exact now c,
    fun c graceSeconds now => deleteOrphanFiles_exact graceSeconds now c, fun _ _ => run_anchored⟩

end Service

/-- ann's message with her blob is swept, her other posting of it is not. -/
def fileForTwo : List Service.Event :=
  [signUp "ann" "t1", signUp "bob" "t2", signUp "cat" "t3",
    .request "Bearer t1" (.uploadFile [[7]] 1) (draws "t0" "f1" []),
    asks "t1" (.sendFileMessage ⟨⟨"bob", [], some 5⟩, "f1", "n", "m", 1⟩),
    asks "t1" (.sendFileMessage ⟨⟨"cat", [], none⟩, "f1", "n", "m", 1⟩), .sweep 3 9]

theorem blob_for_cat_stays : ∃ s, run (Service.step plain) .empty fileForTwo = some s ∧
    s.tables.Anchored ∧ s.tables.envelopes.length = 1 ∧ s.tables.files.length = 1 :=
  ⟨_, rfl, (Service.sweeps_exact plain).2.2 fileForTwo _ rfl, by decide, by decide⟩

end Lattix.Server
