import Lattix.Server.Lifetimes
import Lattix.Server.Visibility

/-! An envelope from when it is posted to when a client reads it. -/

namespace Lattix.Server
open Lib.Transactions Lib.Json Lib.Runs Lib.Pages

/-- Whom a request to send is from and to. -/
def Request.address (me : String) : Request → Option Address
  | .sendMessage m => some (.user me m.recipient)
  | .sendFileMessage m => some (.user me m.recipient)
  | .sendGroupMessage groupId _ | .sendGroupFile groupId _ => some (.group groupId me)
  | _ => none

def Request.ttl : Request → Option Nat
  | .sendMessage m => m.ttl
  | .sendFileMessage m => m.ttl
  | .sendGroupMessage _ m => m.ttl
  | .sendGroupFile _ m => m.ttl
  | _ => none

/-- Only the payload of a request comes out of its body. -/
theorem Request.received_sends {R : Runtime} {body : Lib.Json.Text} {req req' : Request}
    (h : req.received R body = some req') :
    (∀ me, req'.address me = req.address me) ∧ req'.ttl = req.ttl := by
  unfold received at h
  split at h
  · obtain ⟨p, -, rfl⟩ := Option.map_eq_some_iff.mp h
    exact ⟨fun _ => rfl, rfl⟩
  · split at h
    · obtain ⟨p, -, rfl⟩ := Option.map_eq_some_iff.mp h
      exact ⟨fun _ => rfl, rfl⟩
    · cases h
  · obtain ⟨p, -, rfl⟩ := Option.map_eq_some_iff.mp h
    exact ⟨fun _ => rfl, rfl⟩
  · split at h
    · obtain ⟨p, -, rfl⟩ := Option.map_eq_some_iff.mp h
      exact ⟨fun _ => rfl, rfl⟩
    · cases h
  · cases h
    exact ⟨fun _ => rfl, rfl⟩

/-- A history that lists the envelopes of an address. -/
def Address.ListedBy (R : Runtime) (t : Tables) (u : String) (a : Address) : History → Prop
  | .conversation peer => a = .user u (R.lower peer) ∨ a = .user (R.lower peer) u
  | .group groupId => (∃ sender, a = .group groupId sender) ∧ t.hasMember groupId u = true

theorem mem_visible {R : Runtime} {t : Tables} {u : String} {now : Nat} {i : Item}
    {q : History} (hi : i ∈ t.items) (ha : i.address.ListedBy R t u q)
    (hd : Tables.due now i.expiresAt = false) : i ∈ Service.visible R now u t q := by
  cases q with
  | conversation peer =>
    rcases Tables.mem_items.mp hi with ⟨e, he, rfl⟩ | ⟨e, he, rfl⟩
    · have ha : Address.user e.sender e.recipient = .user u (R.lower peer) ∨
          Address.user e.sender e.recipient = .user (R.lower peer) u := ha
      have hd : Tables.due now e.expiresAt = false := hd
      refine List.mem_map.mpr ⟨e, (List.mem_insertionSort _).mpr ?_, rfl⟩
      refine List.mem_filter.mpr ⟨he, ?_⟩
      simp only [Address.user.injEq] at ha
      rcases ha with ⟨hs, hr⟩ | ⟨hs, hr⟩
      · simp [hs, hr, hd]
      · simp [hs, hr, hd]
    · rcases ha with ha | ha <;> cases ha
  | group groupId =>
    obtain ⟨⟨sender, ha⟩, hm⟩ := ha
    rcases Tables.mem_items.mp hi with ⟨e, he, rfl⟩ | ⟨e, he, rfl⟩
    · cases ha
    · have ha : Address.group e.groupId e.sender = .group groupId sender := ha
      have hd : Tables.due now e.expiresAt = false := hd
      refine List.mem_map.mpr ⟨e, (List.mem_insertionSort _).mpr ?_, rfl⟩
      refine List.mem_filter.mpr ⟨he, ?_⟩
      obtain ⟨hg, -⟩ := Address.group.inj ha
      simp [hg, hm, hd]

theorem visible_items (R : Runtime) (t : Tables) (u : String) (now : Nat) (q : History) :
    ∃ toGroup, ∀ i ∈ Service.visible R now u t q, i ∈ t.items ∧ i.address.toGroup = toGroup := by
  cases q with
  | conversation peer =>
    refine ⟨false, fun i hi => ?_⟩
    obtain ⟨e, he, rfl⟩ := List.mem_map.mp hi
    have he := List.mem_of_mem_filter ((List.mem_insertionSort _).mp he)
    exact ⟨Tables.mem_items.mpr (.inl ⟨e, he, rfl⟩), rfl⟩
  | group groupId =>
    refine ⟨true, fun i hi => ?_⟩
    obtain ⟨e, he, rfl⟩ := List.mem_map.mp hi
    have he := List.mem_of_mem_filter ((List.mem_insertionSort _).mp he)
    exact ⟨Tables.mem_items.mpr (.inr ⟨e, he, rfl⟩), rfl⟩

namespace Exchange
variable {R : Runtime} {clock : Nat → Double} {allowNan : Bool} {s t : Exchange} {i : Item}

/-! Stored -/

/-- A step after which an envelope that was stored still is. -/
def Lasting (R : Runtime) (i : Item) (s : Exchange) : Event → Prop
  | .request authorization req body d =>
    ∀ req' ∈ req.received R body, s.service.Lasting R i (.request authorization req' d)
  | .sweep graceSeconds now => s.service.Lasting R i (.sweep graceSeconds now)

theorem step_stored {e : Event} (h : Kept R s) (hi : i ∈ s.service.tables.items)
    (hl : s.Lasting R i e) (hs : s.step R e = some t) : i ∈ t.service.tables.items := by
  cases e with
  | sweep graceSeconds now =>
    cases hs
    exact (Service.step_lasting (R := R) (.sweep graceSeconds now) h.sane hi rfl).mpr hl
  | request authorization req body d =>
    unfold step at hs
    dsimp only at hs
    cases hr : req.received R body with
    | none =>
      rw [hr] at hs
      cases hs
      exact hi
    | some req' =>
      rw [hr] at hs
      obtain ⟨service, hstep, rfl⟩ := Option.map_eq_some_iff.mp hs
      exact (Service.step_lasting _ h.sane hi hstep).mpr (hl req' hr)

/-- Lasting steps keep the envelope and add to what has been sent. -/
theorem run_stored {fs : List Event} (h : Kept R s) (hi : i ∈ s.service.tables.items)
    (hl : Meets (step R) (Lasting R i) s fs) (hfs : run (step R) s fs = some t) :
    Kept R t ∧ s.sent ⊆ t.sent ∧ i ∈ t.service.tables.items := by
  refine invariant_meets (I := fun u => Kept R u ∧ s.sent ⊆ u.sent ∧ i ∈ u.service.tables.items)
    ?_ ⟨h, List.Subset.refl _, hi⟩ hl hfs
  rintro u e v ⟨hk, hsent, hmem⟩ hlast hstep
  obtain ⟨hk', hposted⟩ := step_kept u e v hk hstep
  refine ⟨hk', fun x hx => ?_, step_stored hk hmem hlast hstep⟩
  rw [hposted]
  exact List.mem_append_left _ (hsent hx)

/-- What is posted is stored with the next id, under its address and with its deadline. -/
theorem posted_stored {authorization : String} {req req' : Request} {body : Text} {d : Draws}
    {me : Account} {ts : Tokens} {x : Sent} (h : Kept R s)
    (hme : requireUser d.checkedAt authorization s.service.tokens = (some me, ts))
    (hr : req.received R body = some req')
    (hx : s.posting R (.request authorization req body d) = some x)
    (hs : s.step R (.request authorization req body d) = some t) :
    ∃ i ∈ t.service.tables.items, i.id = x.id ∧ 0 < i.id ∧ i.address.toGroup = x.toGroup ∧
      req'.address me.username = some i.address ∧ i.expiresAt = expiry d req'.ttl := by
  rw [posting_request hr] at hx
  unfold step at hs
  simp only [hr] at hs
  obtain ⟨service, hstep, rfl⟩ := Option.map_eq_some_iff.mp hs
  simp only [Service.step, Option.ite_none_right_eq_some] at hstep
  obtain ⟨hw, hstep⟩ := hstep
  cases hstep
  have hd : s.service.Handled R d authorization req' _ _ :=
    Service.handle_handled h.sane (Bool.and_eq_true_iff.mp hw).2 req'
  generalize s.service.handle R authorization req' d = p at hd hx ⊢
  obtain ⟨r, service⟩ := p
  change s.service.Handled R d authorization req' r service at hd
  change posted req' r = some x at hx
  change ∃ i ∈ service.tables.items, _
  cases hd with
  | turnedAway | loggedOut | loggedIn | registered => cases hx
  | served hme' ho =>
    cases hme.symm.trans hme'
    rw [Service.record_tables]
    cases ho with
    | looked ht =>
      cases r with
      | envelope | groupEnvelope => cases req' <;> cases ht
      | _ => cases hx
    | message | fileMessage =>
      cases hx
      refine ⟨_, Tables.mem_items.mpr (.inl ⟨_, ?_, rfl⟩), rfl, Nat.succ_pos _, rfl, rfl, rfl⟩
      exact List.mem_append_right _ (List.mem_singleton_self _)
    | groupMessage | groupFile =>
      cases hx
      refine ⟨_, Tables.mem_items.mpr (.inr ⟨_, ?_, rfl⟩), rfl, Nat.succ_pos _, rfl, rfl, rfl⟩
      exact List.mem_append_right _ (List.mem_singleton_self _)
    | _ => cases hx

/-! Read -/

/-- A response to a history request as a client has it, envelope by envelope. -/
theorem response_read {r : Response} (h : Kept R s) (hc : ∀ x ∈ s.sent, x.clean = true)
    {toGroup : Bool} (hr : ∀ i ∈ r.items, i ∈ s.service.tables.items ∧ i.address.toGroup = toGroup)
    (hi : i ∈ r.items) {x : Sent} (hx : x ∈ s.sent) (hg : i.address.toGroup = x.toGroup)
    (hid : i.id = x.id) : ∃ vs, readHistory R clock allowNan r = some (.array vs) ∧
      i.json clock (.object x.payload) ∈ vs := by
  have hcovers : r.covers x = true := by
    refine List.any_eq_true.mpr ⟨i, hi, ?_⟩
    simp [hg, hid]
  have htells : Tells R clock allowNan r x := tells_of_stored hc h.built h.unique
    (fun i hm => h.stored i (hr i hm).1) (fun i hm => (hr i hm).2) hx hcovers
  obtain ⟨vs, hvs, -, hall⟩ := htells
  obtain ⟨v, hv, -⟩ := Option.bind_eq_some_iff.mp hvs
  obtain ⟨rfl, -, -⟩ := (readHistory_some hv).mp hvs
  obtain ⟨ws, hws, hw⟩ := Option.map_eq_some_iff.mp hv
  cases hw
  obtain ⟨w, hmem, hread⟩ := mem_of_mapM hws hi
  obtain ⟨p, -, rfl⟩ := Option.map_eq_some_iff.mp hread
  have hp := hall _ hmem (by rw [i.json_id, hid])
  rw [i.json_payload] at hp
  exact ⟨vs, hvs, Option.some.inj hp ▸ hmem⟩

/-- Paging through the history brings up the envelope with this payload. -/
def Arrives (R : Runtime) (clock : Nat → Double) (allowNan : Bool) (s : Exchange)
    (authorization : String) (d : Draws) (q : History) (i : Item) (payload : Json) : Prop :=
  ∃ since, Asked Item.id historyPageSize (s.service.listed R authorization d q) since ∧
    ∃ vs, readHistory R clock allowNan
        (s.service.handle R authorization (q.request since) d).1 = some (.array vs) ∧
      i.json clock payload ∈ vs

/-- An envelope that is stored and not due arrives with whoever a history lists it for. -/
theorem Kept.arrives (h : Kept R s) (hc : ∀ x ∈ s.sent, x.clean = true)
    (hi : i ∈ s.service.tables.items) (hpos : 0 < i.id) {x : Sent} (hx : x ∈ s.sent)
    (hg : i.address.toGroup = x.toGroup) (hid : i.id = x.id) {authorization : String} {d : Draws}
    {me : Account} {ts : Tokens}
    (hme : requireUser d.checkedAt authorization s.service.tokens = (some me, ts)) {q : History}
    (ha : i.address.ListedBy R s.service.tables me.username q)
    (hd : Tables.due d.storedAt i.expiresAt = false) :
    s.Arrives R clock allowNan authorization d q i (.object x.payload) := by
  have hv := mem_visible hi ha hd
  have hpage := Service.listed_page (R := R) h.sane hme q
  obtain ⟨since, hasked, hmem⟩ := asked_page (by decide)
    (Service.visible_ordered h.sane.valid d.storedAt me.username q) hpage hv hpos
  obtain ⟨toGroup, hall⟩ := visible_items R s.service.tables me.username d.storedAt q
  refine ⟨since, hasked, response_read h hc (fun j hj => hall j ?_) hmem hx hg hid⟩
  change j ∈ s.service.listed R authorization d q since at hj
  rw [hpage] at hj
  exact (mem_page hj).1

/-- After any run that keeps the envelope and posts nothing unclean, whoever a history lists it for
gets it, with a payload that is as it should be. -/
def Delivers (R : Runtime) (clock : Nat → Double) (allowNan : Bool) (t : Exchange) (i : Item)
    (good : Json → Prop) : Prop :=
  ∀ fs u, run (step R) t fs = some u → Meets (step R) (Lasting R i) t fs →
    (∀ x ∈ u.sent, x.clean = true) → ∀ authorization d me ts,
      requireUser d.checkedAt authorization u.service.tokens = (some me, ts) →
        ∀ q, i.address.ListedBy R u.service.tables me.username q →
          Tables.due d.storedAt i.expiresAt = false →
            ∃ payload, u.Arrives R clock allowNan authorization d q i payload ∧ good payload

/-- A request to send that is accepted stores an envelope, which is delivered as it was sent. -/
theorem posted_delivers {authorization : String} {req req' : Request} {body : Text} {d : Draws}
    {me : Account} {ts : Tokens} {x : Sent} (h : Kept R s)
    (hme : requireUser d.checkedAt authorization s.service.tokens = (some me, ts))
    (hr : req.received R body = some req')
    (hx : s.posting R (.request authorization req body d) = some x)
    (hs : s.step R (.request authorization req body d) = some t) :
    ∃ i ∈ t.service.tables.items, req.address me.username = some i.address ∧
      i.expiresAt = expiry d req.ttl ∧
      t.Delivers R clock allowNan i fun payload => payload = .object x.payload := by
  obtain ⟨i, hi, hid, hpos, hg, ha, he⟩ := posted_stored h hme hr hx hs
  obtain ⟨haddress, httl⟩ := Request.received_sends hr
  obtain ⟨hk, hsent⟩ := step_kept s _ t h hs
  have hmem : x ∈ t.sent := by
    rw [hsent, hx]
    exact List.mem_append_right _ (List.mem_singleton_self x)
  refine ⟨i, hi, (haddress _).symm.trans ha, httl ▸ he, ?_⟩
  intro fs u hfs hl hc authorization d me ts hme q hq hd
  obtain ⟨hk', hsub, hi'⟩ := run_stored hk hi hl hfs
  exact ⟨_, hk'.arrives hc hi' hpos (hsub hmem) hg hid hme hq hd, rfl⟩

end Exchange

end Lattix.Server
