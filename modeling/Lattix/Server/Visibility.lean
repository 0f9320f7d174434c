import Lattix.Lib.Pages
import Lattix.Server.Readable
import Lattix.Server.Sweeps

namespace Lattix.Server
open Lib.Transactions Lib.Runs Lib.Pages

/-- The validators `lower` and `lower_members`, on the names of a body. -/
def Request.lowered (R : Runtime) : Request → Request
  | .register req => .register { req with username := R.lower req.username }
  | .login username authSecret => .login (R.lower username) authSecret
  | .sendMessage m => .sendMessage { m with recipient := R.lower m.recipient }
  | .sendFileMessage m => .sendFileMessage { m with recipient := R.lower m.recipient }
  | .createGroup name members icon => .createGroup name (members.map R.lower).eraseDups icon
  | .addMember groupId username => .addMember groupId (R.lower username)
  | req => req

/-- What a user can page through. -/
inductive History where
  | conversation (peer : String)
  | group (groupId : Nat)
deriving DecidableEq, Repr

def History.request (since : Nat) : History → Request
  | .conversation peer => .conversation peer since
  | .group groupId => .groupMessages groupId since

namespace Tables

/-- An envelope that points at the blob, with a deadline of the kind `p`, is from
or to `u`, or went to a group that has `u` as a member. -/
def reaches (u fileId : String) (p : Option Nat → Bool) (t : Tables) : Bool :=
  t.envelopes.any (fun e =>
    e.fileId == some fileId && (e.sender == u || e.recipient == u) && p e.expiresAt) ||
  t.groupEnvelopes.any fun e =>
    e.fileId == some fileId && t.hasMember e.groupId u && p e.expiresAt

/-- The envelope is a file message, stored with this blob. -/
def Refers (t : Tables) (fileId : String) (i : Item) : Prop :=
  (∃ r ∈ t.envelopes, r.kind = .file ∧ r.fileId = some fileId ∧ (rowToEnvelope r).item = i) ∨
    ∃ r ∈ t.groupEnvelopes, r.kind = .file ∧ r.fileId = some fileId ∧
      (rowToGroupEnvelope r).item = i

end Tables

namespace Service
variable (R : Runtime)

/-- A request with names in any case, as it comes in. -/
def receive (s : Service) : Event → Option Service
  | .request authorization req d =>
    if wellFormed req then s.step R (.request authorization (req.lowered R) d) else none
  | e => s.step R e

def Downloads (authorization fileId : String) (d : Draws) (s : Service) : Prop :=
  ∃ ciphertext size,
    (s.handle R authorization (.downloadFile fileId) d).1 = .content ciphertext size

/-- The answer to a request for a page of a history. -/
def listed (authorization : String) (d : Draws) (s : Service) (q : History) (since : Nat) :
    List Item :=
  (s.handle R authorization (q.request since) d).1.items

/-- Paging through some history brings up an envelope with the blob. -/
def Lists (authorization fileId : String) (d : Draws) (s : Service) : Prop :=
  ∃ q since, Asked Item.id historyPageSize (s.listed R authorization d q) since ∧
    ∃ i ∈ s.listed R authorization d q since, s.tables.Refers fileId i

end Service

/-- Rows have positive ids, and those with a blob are of kind `file`. -/
structure Tables.Numbered (t : Tables) : Prop where
  envelope : ∀ e ∈ t.envelopes, 0 < e.id ∧ ∀ f, e.fileId = some f → e.kind = .file
  groupEnvelope : ∀ e ∈ t.groupEnvelopes, 0 < e.id ∧ ∀ f, e.fileId = some f → e.kind = .file

theorem Tables.Numbered.rows {t t' : Tables} (h : t.Numbered) (hr : Rows t t') : t'.Numbered where
  envelope e he := by
    rcases hr.envelope e he with ho | ⟨hp, hk⟩
    · exact h.envelope e ho
    · exact ⟨hp, fun f hf => (hk f hf).1⟩
  groupEnvelope e he := by
    rcases hr.groupEnvelope e he with ho | ⟨hp, hk⟩
    · exact h.groupEnvelope e ho
    · exact ⟨hp, fun f hf => (hk f hf).1⟩

namespace Service
variable {R : Runtime} {s s' : Service}

/-- What a step adds to the histories, and which name it can add. -/
theorem step_rows (h : s.Sane) {e : Event} (hs : s.step R e = some s') :
    Rows s.tables s'.tables ∧ ∀ u, s'.tables.hasUser u = true → s.tables.hasUser u = true ∨
      ∃ authorization req d, e = .request authorization (.register req) d ∧ req.username = u := by
  cases e with
  | sweep graceSeconds now =>
    cases hs
    obtain ⟨t, he, -, hsw⟩ := sweep_swept h graceSeconds now
    rw [he]
    refine ⟨.thin hsw.thinned, fun u hu => .inl ?_⟩
    rw [Tables.hasUser, hsw.users]
    exact hu
  | request authorization req d =>
    simp only [step] at hs
    split at hs
    · rename_i hc
      cases hs
      have hd : Handled R d authorization s req _ _ :=
        handle_handled h (Bool.and_eq_true_iff.mp hc).2 req
      generalize s.handle R authorization req d = p at hd ⊢
      obtain ⟨r, s'⟩ := p
      change Handled R d authorization s req r s' at hd
      change Rows s.tables s'.tables ∧ ∀ u, s'.tables.hasUser u = true → _
      cases hd with
      | turnedAway | loggedOut | loggedIn => exact ⟨.thin (.refl _), fun _ hu => .inl hu⟩
      | registered hn hu ht hs =>
        rw [Tables.insertUser, if_neg (by simp [hn, hu])] at ht
        cases ht
        refine ⟨⟨fun _ he => .inl he, fun _ he => .inl he⟩, fun u hu => ?_⟩
        obtain ⟨row, hrow, rfl⟩ := Tables.hasUser_iff.mp hu
        rcases List.mem_append.mp hrow with ho | hnew
        · exact .inl (Tables.hasUser_iff.mpr ⟨row, ho, rfl⟩)
        · cases List.mem_singleton.mp hnew
          exact .inr ⟨_, _, _, rfl, hn.symm⟩
      | served hr ho =>
        rw [record_tables]
        refine ⟨ho.rows, fun u hu => .inl ?_⟩
        rcases ho.hasUser u with he | ⟨-, -, he⟩
        · exact he ▸ hu
        · exact (Bool.and_eq_true_iff.mp (he ▸ hu)).1
    · cases hs

/-- What holds after every request that came in and every sweep. -/
structure Orderly (R : Runtime) (s : Service) : Prop where
  sane : s.Sane
  numbered : s.tables.Numbered
  lower : ∀ u, s.tables.hasUser u = true → R.lower u = u

theorem receive_orderly (hlower : ∀ u, isUsername u = true → R.lower (R.lower u) = R.lower u)
    (s : Service) (e : Event) (s' : Service) (h : s.Orderly R) (hs : s.receive R e = some s') :
    s'.Orderly R := by
  cases e with
  | sweep graceSeconds now =>
    have hs : s.step R (.sweep graceSeconds now) = some s' := hs
    obtain ⟨hr, hu⟩ := step_rows h.sane hs
    refine ⟨step_sane _ _ _ h.sane hs, h.numbered.rows hr, fun u hk => ?_⟩
    rcases hu u hk with ho | ⟨_, _, _, he, -⟩
    · exact h.lower u ho
    · cases he
  | request authorization req d =>
    simp only [receive] at hs
    split at hs
    · rename_i hw
      obtain ⟨hr, hu⟩ := step_rows h.sane hs
      refine ⟨step_sane _ _ _ h.sane hs, h.numbered.rows hr, fun u hk => ?_⟩
      rcases hu u hk with ho | ⟨_, low, _, he, rfl⟩
      · exact h.lower u ho
      · cases req with
        | register req =>
          cases he
          exact hlower _ hw
        | _ => cases he
    · cases hs

theorem run_orderly (hlower : ∀ u, isUsername u = true → R.lower (R.lower u) = R.lower u)
    {es : List Event} (h : run (receive R) .empty es = some s) : s.Orderly R :=
  invariant (receive_orderly hlower) ⟨empty_sane, ⟨nofun, nofun⟩, nofun⟩ h

/-! The answers of one moment -/

section answers
variable {authorization fileId : String} {d : Draws} {me : Account} {ts : Tokens}

theorem Sane.answers (h : s.Sane)
    (hme : requireUser d.checkedAt authorization s.tokens = (some me, ts)) {req : Request}
    {r : Response} {t : Tables} (hy : Yields (handler R d me.username req) s.tables r t) :
    (s.guarded R authorization req d).1 = r := by
  simp only [guarded, hme, Service.serve_yields h hy]

theorem downloadFile_yields {t : Tables} (u fileId : String) :
    Yields (handler R d u (.downloadFile fileId)) t
      (if t.canAccess u fileId then
        match t.files.find? fun f => f.id == fileId with
        | none => noFile
        | some row => .content row.ciphertext row.size
      else noFile) t := by
  refine .bind (Yields.query (Tables.canAccess u fileId) t) ?_
  cases t.canAccess u fileId with
  | false => exact .pure t _
  | true =>
    refine .bind (.query _ t) ?_
    cases t.files.find? fun f => f.id == fileId <;> exact .pure t _

theorem downloads_iff (h : s.Sane)
    (hme : requireUser d.checkedAt authorization s.tokens = (some me, ts)) {f : FileRow}
    (hf : f ∈ s.tables.files) :
    s.Downloads R authorization f.id d ↔ s.tables.canAccess me.username f.id = true := by
  have hans : (s.handle R authorization (.downloadFile f.id) d).1 = _ :=
    h.answers hme (downloadFile_yields me.username f.id)
  have hfind : (s.tables.files.find? fun g => g.id == f.id).isSome = true :=
    List.find?_isSome.mpr ⟨f, hf, by simp⟩
  obtain ⟨row, hrow⟩ := Option.isSome_iff_exists.mp hfind
  rw [Downloads, hans, hrow]
  cases s.tables.canAccess me.username f.id <;> simp [noFile]

/-- All that is to be seen of a history, oldest first. -/
def visible (R : Runtime) (now : Nat) (u : String) (t : Tables) : History → List Item
  | .conversation peer =>
    ((t.envelopes.filter fun e =>
      (e.sender == u && e.recipient == R.lower peer || e.sender == R.lower peer && e.recipient == u) &&
        !Tables.due now e.expiresAt).insertionSort fun a b => a.id ≤ b.id).map
      fun r => (rowToEnvelope r).item
  | .group groupId =>
    ((t.groupEnvelopes.filter fun e => (t.hasMember groupId u && e.groupId == groupId) &&
      !Tables.due now e.expiresAt).insertionSort fun a b => a.id ≤ b.id).map
      fun r => (rowToGroupEnvelope r).item

theorem visible_ordered {t : Tables} (h : t.Valid) (now : Nat) (u : String) (q : History) :
    (visible R now u t q).Pairwise fun a b => a.id < b.id := by
  cases q with
  | conversation peer =>
    exact List.pairwise_map.mpr (ordered (h.envelopes.sublist (List.filter_sublist.map _)))
  | group groupId =>
    exact List.pairwise_map.mpr (ordered (h.groupEnvelopes.sublist (List.filter_sublist.map _)))

/-- Each answer is a page of what is to be seen. -/
theorem listed_page (h : s.Sane)
    (hme : requireUser d.checkedAt authorization s.tokens = (some me, ts)) (q : History)
    (since : Nat) : s.listed R authorization d q since =
      page Item.id historyPageSize since (visible R d.storedAt me.username s.tables q) := by
  cases q with
  | conversation peer =>
    have hans : (s.handle R authorization (.conversation peer since) d).1 = _ :=
      h.answers hme Exchange.conversation_yields
    have hrows : (s.tables.envelopes.filter fun e => decide (since < e.id) &&
        (e.sender == me.username && e.recipient == R.lower peer ||
          e.sender == R.lower peer && e.recipient == me.username) &&
        !Tables.due d.storedAt e.expiresAt) = _ :=
      List.filter_congr fun e _ => Bool.and_assoc _ _ _
    rw [listed, History.request, hans, Response.items, Exchange.conversationRows, hrows,
      page_ordered h.valid.envelopes, visible, page_map_key, List.map_map]
    rfl
  | group groupId =>
    have hans : (s.handle R authorization (.groupMessages groupId since) d).1 = _ :=
      h.answers hme Exchange.groupMessages_yields
    rw [listed, History.request, hans, visible]
    cases hm : s.tables.hasMember groupId me.username with
    | false => simp [noGroup, Response.items, page]
    | true =>
      obtain ⟨m, hmem, hid, -⟩ := Tables.hasMember_iff.mp hm
      obtain ⟨group, hg⟩ := shown_of_hasGroup (h.valid.memberGroup m hmem)
      rw [hid] at hg
      have hrows : (s.tables.groupEnvelopes.filter fun e => e.groupId == groupId &&
          decide (since < e.id) && !Tables.due d.storedAt e.expiresAt) =
        s.tables.groupEnvelopes.filter fun e => decide (since < e.id) &&
          ((true && e.groupId == groupId) && !Tables.due d.storedAt e.expiresAt) :=
        List.filter_congr fun e _ => by
          rw [Bool.and_comm (e.groupId == groupId), Bool.and_assoc, Bool.true_and]
      rw [hg, Option.isSome_some, Bool.and_self, if_pos rfl, Response.items, Exchange.groupRows, hrows,
        page_ordered h.valid.groupEnvelopes, page_map_key, List.map_map]
      rfl

/-- An envelope that can be seen is on a page that paging comes to. -/
theorem Orderly.listed_visible (h : s.Orderly R)
    (hme : requireUser d.checkedAt authorization s.tokens = (some me, ts)) {q : History} {i : Item}
    (hi : i ∈ visible R d.storedAt me.username s.tables q) (hpos : 0 < i.id) :
    ∃ since, Asked Item.id historyPageSize (s.listed R authorization d q) since ∧
      i ∈ s.listed R authorization d q since :=
  asked_page (by decide) (visible_ordered h.sane.valid d.storedAt me.username q)
    (listed_page h.sane hme q) hi hpos

theorem Orderly.lists_of_reaches (h : s.Orderly R)
    (hme : requireUser d.checkedAt authorization s.tokens = (some me, ts))
    (hr : s.tables.reaches me.username fileId (fun at_ => !Tables.due d.storedAt at_) = true) :
    s.Lists R authorization fileId d := by
  simp only [Tables.reaches, Bool.or_eq_true, List.any_eq_true, Bool.and_eq_true, beq_iff_eq] at hr
  rcases hr with ⟨e, he, ⟨hid, hw⟩, hdue⟩ | ⟨e, he, ⟨hid, hm⟩, hdue⟩
  · obtain ⟨hpos, hk⟩ := h.numbered.envelope e he
    have seen (peer : String) (hp : (e.sender == me.username && e.recipient == R.lower peer ||
        e.sender == R.lower peer && e.recipient == me.username) = true) :
        s.Lists R authorization fileId d := by
      have hv : (rowToEnvelope e).item ∈
          visible R d.storedAt me.username s.tables (.conversation peer) := by
        refine List.mem_map.mpr ⟨e, (List.mem_insertionSort _).mpr (List.mem_filter.mpr ⟨he, ?_⟩), rfl⟩
        rw [hp, hdue]
        rfl
      obtain ⟨since, ha, hi⟩ := h.listed_visible hme hv hpos
      exact ⟨_, since, ha, _, hi, .inl ⟨e, he, hk _ hid, hid, rfl⟩⟩
    rcases hw with hs | hr
    · apply seen e.recipient
      rw [h.lower _ (h.sane.valid.recipient e he), hs]
      simp
    · apply seen e.sender
      rw [h.lower _ (h.sane.valid.sender e he), hr]
      simp
  · obtain ⟨hpos, hk⟩ := h.numbered.groupEnvelope e he
    have hv : (rowToGroupEnvelope e).item ∈
        visible R d.storedAt me.username s.tables (.group e.groupId) := by
      refine List.mem_map.mpr ⟨e, (List.mem_insertionSort _).mpr (List.mem_filter.mpr ⟨he, ?_⟩), rfl⟩
      rw [hm, hdue, beq_self_eq_true]
      rfl
    obtain ⟨since, ha, hi⟩ := h.listed_visible hme hv hpos
    exact ⟨_, since, ha, _, hi, .inr ⟨e, he, hk _ hid, hid, rfl⟩⟩

theorem envelope_item_inj {e r : EnvelopeRow}
    (h : (rowToEnvelope e).item = (rowToEnvelope r).item) :
    e.sender = r.sender ∧ e.recipient = r.recipient ∧ e.expiresAt = r.expiresAt := by
  simp only [rowToEnvelope, Envelope.item, Item.mk.injEq, Address.user.injEq] at h
  exact ⟨h.2.1.1, h.2.1.2, h.2.2.2.2.1⟩

theorem groupEnvelope_item_inj {e r : GroupEnvelopeRow}
    (h : (rowToGroupEnvelope e).item = (rowToGroupEnvelope r).item) :
    e.groupId = r.groupId ∧ e.expiresAt = r.expiresAt := by
  simp only [rowToGroupEnvelope, GroupEnvelope.item, Item.mk.injEq, Address.group.injEq] at h
  exact ⟨h.2.1.1, h.2.2.2.2.1⟩

theorem Sane.reaches_of_lists (h : s.Sane)
    (hme : requireUser d.checkedAt authorization s.tokens = (some me, ts))
    (hl : s.Lists R authorization fileId d) :
    s.tables.reaches me.username fileId (fun at_ => !Tables.due d.storedAt at_) = true := by
  obtain ⟨q, since, -, i, hi, href⟩ := hl
  rw [listed_page h hme] at hi
  have hv := (mem_page hi).1
  simp only [Tables.reaches, Bool.or_eq_true, List.any_eq_true, Bool.and_eq_true, beq_iff_eq]
  cases q with
  | conversation peer =>
    obtain ⟨r, hr, rfl⟩ := List.mem_map.mp hv
    have hp := (List.mem_filter.mp ((List.mem_insertionSort _).mp hr)).2
    simp only [Bool.and_eq_true, Bool.or_eq_true, beq_iff_eq] at hp
    rcases href with ⟨e, he, -, hid, heq⟩ | ⟨e, he, -, hid, heq⟩
    · obtain ⟨hs, hrec, hexp⟩ := envelope_item_inj heq
      left
      refine ⟨e, he, ⟨hid, ?_⟩, ?_⟩
      · rw [hs, hrec]
        rcases hp.1 with ⟨hu, -⟩ | ⟨-, hu⟩
        · exact .inl hu
        · exact .inr hu
      · rw [hexp]
        exact hp.2
    · cases (Item.mk.inj heq).2.1
  | group groupId =>
    obtain ⟨r, hr, rfl⟩ := List.mem_map.mp hv
    have hp := (List.mem_filter.mp ((List.mem_insertionSort _).mp hr)).2
    simp only [Bool.and_eq_true, beq_iff_eq] at hp
    rcases href with ⟨e, he, -, hid, heq⟩ | ⟨e, he, -, hid, heq⟩
    · cases (Item.mk.inj heq).2.1
    · obtain ⟨hg, hexp⟩ := groupEnvelope_item_inj heq
      right
      refine ⟨e, he, ⟨hid, ?_⟩, ?_⟩
      · rw [hg, hp.1.2]
        exact hp.1.1
      · rw [hexp]
        exact hp.2

/-- Access is granted by the owner's row, and by envelopes due and not due. -/
theorem canAccess_iff {t : Tables} (now : Nat) {u : String} :
    t.canAccess u fileId = true ↔
      t.uploadedBy u fileId = true ∨ t.reaches u fileId (Tables.due now) = true ∨
        t.reaches u fileId (fun at_ => !Tables.due now at_) = true := by
  have split_due {α : Type} (xs : List α) (p : α → Bool) (at_ : α → Option Nat) :
      xs.any p = (xs.any (fun x => p x && Tables.due now (at_ x)) ||
        xs.any fun x => p x && !Tables.due now (at_ x)) := by
    induction xs with
    | nil => rfl
    | cons x xs ih =>
      rw [List.any_cons, List.any_cons, List.any_cons, ih]
      cases p x <;> cases Tables.due now (at_ x) <;> simp
  rw [Tables.canAccess, split_due t.envelopes _ EnvelopeRow.expiresAt,
    split_due t.groupEnvelopes _ GroupEnvelopeRow.expiresAt]
  simp only [Tables.uploadedBy, Tables.reaches, Bool.or_eq_true]
  tauto

end answers

/-- History and blob access agree on a blob of someone else's just when no
envelope that is past its deadline is all that still gives access. -/
theorem access_agrees_iff (R : Runtime)
    (hlower : ∀ u, isUsername u = true → R.lower (R.lower u) = R.lower u) (es : List Event)
    {s : Service} (hrun : run (receive R) .empty es = some s) {authorization : String} {d : Draws}
    {me : Account} {ts : Tokens}
    (hme : requireUser d.checkedAt authorization s.tokens = (some me, ts)) {f : FileRow}
    (hf : f ∈ s.tables.files) (hu : f.owner ≠ me.username) :
    (s.Downloads R authorization f.id d ↔ s.Lists R authorization f.id d) ↔
      (s.tables.reaches me.username f.id (Tables.due d.storedAt) = true →
        s.tables.reaches me.username f.id (fun at_ => !Tables.due d.storedAt at_) = true) := by
  have h : s.Orderly R := run_orderly hlower hrun
  have hl : s.Lists R authorization f.id d ↔ _ :=
    ⟨h.sane.reaches_of_lists hme, h.lists_of_reaches hme⟩
  have hn : ¬s.tables.uploadedBy me.username f.id = true := by
    intro hup
    obtain ⟨g, hg, he⟩ := List.any_eq_true.mp hup
    simp only [Bool.and_eq_true, beq_iff_eq] at he
    rw [List.inj_on_of_nodup_map h.sane.valid.files hg hf he.1] at he
    exact hu he.2
  rw [downloads_iff h.sane hme hf, hl, canAccess_iff d.storedAt]
  tauto

end Service

theorem toLower_toLower (c : Char) : c.toLower.toLower = c.toLower := by
  unfold Char.toLower
  by_cases h : c.val ≥ 'A'.val ∧ c.val ≤ 'Z'.val
  · simp only [dif_pos h]
    rw [dif_neg]
    rintro ⟨-, hz⟩
    have h1 : 'A'.val ≤ c.val := h.1
    have h2 : c.val ≤ 'Z'.val := h.2
    have h3 : c.val + ('a'.val - 'A'.val) ≤ 'Z'.val := hz
    revert h1 h2 h3
    simp only [UInt32.le_iff_toNat_le, UInt32.toNat_add, UInt32.toNat_sub]
    simp
    omega
  · simp only [dif_neg h]

theorem asciiLower_asciiLower (u : String) : asciiLower (asciiLower u) = asciiLower u := by
  simp only [asciiLower, String.toList_ofList, List.map_map, Function.comp_def, toLower_toLower]

/-- ann posts a blob to bob for five seconds. -/
def fileForNow : List Service.Event :=
  [signUp "Ann" "t1", signUp "bob" "t2",
    .request "Bearer t1" (.uploadFile [[7]] 1) (draws "t0" "f1" []),
    asks "t1" (.sendFileMessage ⟨⟨"Bob", [], some 5⟩, "f1", "n", "m", 1⟩)]

def posted : Service := (run (Service.receive plain) .empty fileForNow).getD .empty

/-- The clock at `now`, as bob asks. -/
def drawsAt (now : Nat) : Draws := ⟨now, now, now, false, "salt", "t0", "f0", []⟩

def bob : Account := ⟨"bob", 1⟩

/-- The blob as it is stored. -/
def annsBlob : FileRow := ⟨"f1", "ann", [7], 1, 0⟩

theorem blob_agrees_in_time : run (Service.receive plain) .empty fileForNow = some posted ∧
    (posted.Downloads plain "Bearer t2" "f1" (drawsAt 3) ↔
      posted.Lists plain "Bearer t2" "f1" (drawsAt 3)) := by
  have hrun : run (Service.receive plain) .empty fileForNow = some posted := rfl
  have hme : requireUser 3 "Bearer t2" posted.tokens = (some bob, posted.tokens) := by decide +kernel
  have hf : annsBlob ∈ posted.tables.files := by decide
  refine ⟨hrun, (Service.access_agrees_iff plain (fun u _ => asciiLower_asciiLower u) fileForNow hrun
    (d := drawsAt 3) hme hf (by decide)).mpr fun hd => ?_⟩
  exact absurd hd (by decide)

/-- Past the deadline and before the sweep, bob gets the blob of an envelope that
no history shows him. -/
theorem access_not_always_agrees : ¬∀ (es : List Service.Event) (s : Service),
    run (Service.receive plain) .empty es = some s → ∀ (authorization : String) (d : Draws)
      (me : Account) (ts : Tokens),
      requireUser d.checkedAt authorization s.tokens = (some me, ts) →
      ∀ f ∈ s.tables.files, f.owner ≠ me.username →
        (s.Downloads plain authorization f.id d ↔ s.Lists plain authorization f.id d) := by
  intro hall
  have hrun : run (Service.receive plain) .empty fileForNow = some posted := rfl
  have hme : requireUser 9 "Bearer t2" posted.tokens = (some bob, posted.tokens) := by decide +kernel
  have hf : annsBlob ∈ posted.tables.files := by decide
  have hagree := hall fileForNow posted hrun "Bearer t2" (drawsAt 9) bob _ hme _ hf (by decide)
  have h : posted.Orderly plain := Service.run_orderly (fun u _ => asciiLower_asciiLower u) hrun
  have hgets : posted.Downloads plain "Bearer t2" "f1" (drawsAt 9) := by
    apply (Service.downloads_iff (d := drawsAt 9) h.sane hme hf).mpr
    decide
  have hshown := h.sane.reaches_of_lists (d := drawsAt 9) hme (hagree.mp hgets)
  revert hshown
  decide

end Lattix.Server
