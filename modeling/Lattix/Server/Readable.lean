import Lattix.Server.Rendering

namespace Lattix.Server
open Lib.Transactions Lib.Json Lib.Runs

namespace Manager
variable {W : Type} [DecidableEq W] {R : Runtime} {opened : W → Bool} {m : Manager W}
  {u v : String} {ws w : W} {msg : Json}

theorem frame_isSome (v : Json) : (frame R v).isSome = every Json.legible v := by
  rw [frame, encode_isSome, all_write]

theorem disconnect_keeps (hne : ws ≠ w) (h : ws ∈ m.active u) :
    ws ∈ (m.disconnect v w).active u := by
  unfold disconnect
  dsimp only
  split
  · rename_i hu
    exact List.mem_filter.mpr ⟨hu ▸ h, by simpa using hne⟩
  · exact h

theorem sendTo_keeps (hmsg : every Json.legible msg = true) (ho : opened ws = true)
    (h : ws ∈ m.active u) : ws ∈ (m.sendTo R opened v msg).active u := by
  unfold sendTo
  generalize m.active v = sockets
  induction sockets generalizing m with
  | nil => exact h
  | cons w sockets ih =>
    rw [List.foldl_cons]
    split
    · exact ih h
    · rename_i hno
      refine ih (disconnect_keeps ?_ h)
      rintro rfl
      exact hno (by rw [ho, frame_isSome, hmsg]; rfl)

theorem presence_legible (u : String) : every Json.legible (presence u) = true := by
  have hkey (k : String) : (key k).all CodePoint.isScalar = true := all_text _
  simp [presence, every, everyField, Json.legible, Json.spelled, ofScalars, hkey, str]

theorem push_keeps (type : String) (targets : List String) {envelope : Json}
    (he : every Json.legible envelope = true) (ho : opened ws = true) (h : ws ∈ m.active u) :
    ws ∈ (m.push R opened type targets envelope).active u := by
  have hkey (k : String) : (key k).all CodePoint.isScalar = true := all_text _
  have hmsg : every Json.legible (.object [(key "type", str type), (key "envelope", envelope)]) =
      true := by
    simp [every, everyField, Json.legible, Json.spelled, ofScalars, hkey, str]
    exact he
  unfold push
  generalize targets.dedup = targets
  induction targets generalizing m with
  | nil => exact h
  | cons v targets ih => exact ih (sendTo_keeps hmsg ho h)

theorem deliver_keeps {sender recipient : String} {envelope : Json}
    (he : every Json.legible envelope = true) (ho : opened ws = true) (h : ws ∈ m.active u) :
    ws ∈ (m.deliver R opened sender recipient envelope).active u := by
  have hp := push_keeps (R := R) "envelope" [recipient, sender] he ho h
  unfold deliver
  dsimp only
  generalize m.push R opened "envelope" [recipient, sender] envelope = m' at hp ⊢
  have hfirst : ws ∈ (if m'.active sender ≠ [] then
      m'.sendTo R opened recipient (presence sender) else m').active u := by
    split
    · exact sendTo_keeps (presence_legible sender) ho hp
    · exact hp
  generalize (if m'.active sender ≠ [] then
    m'.sendTo R opened recipient (presence sender) else m') = m'' at hfirst ⊢
  split
  · split
    · exact sendTo_keeps (presence_legible recipient) ho hfirst
    · exact hfirst
  · exact hp

end Manager

namespace Exchange
variable {R : Runtime} {clock : Nat → Double} {allowNan : Bool}

/-! What a client reads -/

theorem history_some {r : Response} {v : Json} (h : history R clock r = some v) :
    every (Json.built false) v = true := by
  obtain ⟨vs, hvs, rfl⟩ := Option.map_eq_some_iff.mp h
  refine Bool.and_eq_true_iff.mpr ⟨rfl, everyItem_iff.mpr ?_⟩
  clear h
  generalize r.items = items at hvs
  induction items generalizing vs with
  | nil =>
    cases hvs
    simp
  | cons i items ih =>
    simp only [List.mapM_cons, Option.pure_def, Option.bind_eq_bind, Option.bind_eq_some_iff,
      Option.map_eq_some_iff] at hvs
    obtain ⟨w, ⟨p, hp, rfl⟩, ws, hws, he⟩ := hvs
    cases he
    have hb : every (Json.built true) p = true := parse_built hp
    rintro v (- | ⟨-, hv⟩)
    · refine i.json_built (every_mono (fun v hv => ?_) p hb)
      cases v <;> first | exact hv | rfl
    · exact ih ws hws v hv

/-- A client gets the rendered value or nothing. -/
theorem readHistory_some {r : Response} {v w : Json} (h : history R clock r = some v) :
    readHistory R clock allowNan r = some w ↔
      v = w ∧ every Json.legible v = true ∧ every Json.numeric v = true := by
  have hr := encode_parse (Φ := R.doubles) (history_some h)
  rw [readHistory, h, Option.bind_some, render]
  cases hn : every Json.numeric v with
  | false =>
    rw [hn] at hr
    cases allowNan <;> simp [hr]
  | true =>
    rw [hn] at hr
    simp only [Bool.or_true, if_true, hr, Bool.and_true]
    split <;> simp_all

/-- What a client can read is clean. -/
theorem Tells.clean {r : Response} {x : Sent} (h : Tells R clock allowNan r x) :
    x.clean = true := by
  obtain ⟨vs, hvs, ⟨v, hv, hid⟩, hall⟩ := h
  have hp := hall v hv hid
  obtain ⟨w, hw, -⟩ := Option.bind_eq_some_iff.mp hvs
  obtain ⟨rfl, hl, hn⟩ := (readHistory_some hw).mp hvs
  exact Bool.and_eq_true_iff.mpr
    ⟨get_every (every_items hl v hv) hp, get_every (every_items hn v hv) hp⟩

/-- Rows of clean payloads are read as they were sent. -/
theorem tells_of_stored {r : Response} {sent : List Sent} (hclean : ∀ x ∈ sent, x.clean = true)
    (hbuilt : ∀ x ∈ sent, every (Json.built true) (.object x.payload) = true)
    (hunique : ∀ x ∈ sent, ∀ y ∈ sent, x.toGroup = y.toGroup → x.id = y.id → x = y)
    (hstored : ∀ i ∈ r.items, ∃ x ∈ sent, x.toGroup = i.address.toGroup ∧ x.id = i.id ∧
      i.payload = payloadText R x.payload)
    {toGroup : Bool} (hkind : ∀ i ∈ r.items, i.address.toGroup = toGroup)
    {x : Sent} (hx : x ∈ sent) (hc : r.covers x = true) : Tells R clock allowNan r x := by
  have hread (i : Item) (hi : i ∈ r.items) : ∃ y ∈ sent, y.toGroup = i.address.toGroup ∧
      y.id = i.id ∧ loads R.doubles (text i.payload.toList) = some (.object y.payload) := by
    obtain ⟨y, hy, hg, hid, hp⟩ := hstored i hi
    refine ⟨y, hy, hg, hid, ?_⟩
    rw [hp, payloadText, String.toList_ofList]
    exact loads_dumps (hbuilt y hy) (Bool.and_eq_true_iff.mp (hclean y hy)).1
  have : Nonempty Sent := ⟨x⟩
  choose! y hy hg hid hl using hread
  have hh : history R clock r =
      some (.array (r.items.map fun i => i.json clock (.object (y i).payload))) :=
    congrArg (Option.map Json.array) (mapM_of_some fun i hi => by rw [hl i hi]; rfl)
  have hall (p : Json → Bool) (hp : ∀ vs, p (.array vs) = true)
      (hi : ∀ i ∈ r.items, every p (i.json clock (.object (y i).payload)) = true) :
      every p (.array (r.items.map fun i => i.json clock (.object (y i).payload))) = true := by
    refine Bool.and_eq_true_iff.mpr ⟨hp _, everyItem_iff.mpr fun v hv => ?_⟩
    obtain ⟨i, hm, rfl⟩ := List.mem_map.mp hv
    exact hi i hm
  have hlegible := hall Json.legible (fun _ => rfl) fun i hi => by
    rw [i.json_legible]
    exact (Bool.and_eq_true_iff.mp (hclean _ (hy i hi))).1
  have hnumeric := hall Json.numeric (fun _ => rfl) fun i hi => by
    rw [i.json_numeric]
    exact (Bool.and_eq_true_iff.mp (hclean _ (hy i hi))).2
  obtain ⟨i, hi, hci⟩ := List.any_eq_true.mp hc
  simp only [Bool.and_eq_true, beq_iff_eq] at hci
  refine ⟨_, (readHistory_some hh).mpr ⟨rfl, hlegible, hnumeric⟩, ?_, ?_⟩
  · exact ⟨_, List.mem_map_of_mem hi, by rw [i.json_id, hci.2]⟩
  · intro v hv hvid
    obtain ⟨j, hj, rfl⟩ := List.mem_map.mp hv
    rw [j.json_id] at hvid
    have hjx : j.id = x.id := by simpa using hvid
    have hkj : (y j).toGroup = x.toGroup :=
      (hg j hj).trans ((hkind j hj).trans ((hkind i hi).symm.trans hci.1))
    rw [j.json_payload, hunique _ (hy j hj) x hx hkj ((hid j hj).trans hjx)]

/-! What is sent -/

theorem built_object {fs : List (Text × Json)} : every (Json.built true) (.object fs) = true ↔
    (fs.map Prod.fst).Nodup ∧ everyField (Json.built true) fs = true := by
  rw [every, Bool.and_eq_true, Json.built, decide_eq_true_iff]

theorem insert_built {k : Text} {v : Json} {fs : List (Text × Json)}
    (hv : every (Json.built true) v = true) (h : every (Json.built true) (.object fs) = true) :
    every (Json.built true) (.object (insert k v fs)) = true :=
  built_object.mpr ⟨insert_nodup (built_object.mp h).1, insert_every hv (built_object.mp h).2⟩

theorem setDefault_built {k : Text} {v : Json} {fs : List (Text × Json)}
    (hv : every (Json.built true) v = true) (h : every (Json.built true) (.object fs) = true) :
    every (Json.built true) (.object (setDefault k v fs)) = true := by
  unfold setDefault
  split
  · exact h
  · rename_i hk
    rw [← insert_new hk]
    exact insert_built hv h

theorem filePayload_built {fileId filename mime : String} {size : Nat} {fs : List (Text × Json)}
    (hs : (Number.int size).small = true) (h : every (Json.built true) (.object fs) = true) :
    every (Json.built true) (.object (filePayload fileId filename mime size fs)) = true :=
  setDefault_built hs (setDefault_built rfl (setDefault_built rfl (insert_built rfl h)))

theorem readPayload_built {body : Text} {payload : List (Text × Json)}
    (h : readPayload R body = some payload) :
    every (Json.built true) (.object payload) = true := by
  unfold readPayload at h
  split at h
  · rename_i fs hv
    split at h
    · cases h
      obtain ⟨v, hl, hg⟩ := Option.bind_eq_some_iff.mp hv
      exact get_every (parse_built hl) hg
    · cases h
  · cases h

theorem relayed_built {body : Text} {req req' : Request} (h : req.received R body = some req') :
    every (Json.built true) (.object req'.relayed) = true := by
  unfold Request.received at h
  split at h
  · obtain ⟨payload, hp, rfl⟩ := Option.map_eq_some_iff.mp h
    exact readPayload_built hp
  · split at h
    · rename_i hs
      obtain ⟨payload, hp, rfl⟩ := Option.map_eq_some_iff.mp h
      exact filePayload_built hs (readPayload_built hp)
    · cases h
  · obtain ⟨payload, hp, rfl⟩ := Option.map_eq_some_iff.mp h
    exact readPayload_built hp
  · split at h
    · rename_i hs
      obtain ⟨payload, hp, rfl⟩ := Option.map_eq_some_iff.mp h
      exact filePayload_built hs (readPayload_built hp)
    · cases h
  · cases h
    unfold Request.relayed
    split <;> first | rfl | simp_all

/-- The id given out last. -/
def counter (t : Tables) (toGroup : Bool) : Nat :=
  if toGroup then t.groupEnvelopeSeq else t.envelopeSeq

/-- What answering a request does to the rows, by what it posts. -/
inductive Effect (R : Runtime) (t t' : Tables) : Option Sent → Prop where
  | nothing (hi : ∀ i ∈ t'.items, i ∈ t.items) (hc : ∀ g, counter t' g = counter t g) :
    Effect R t t' none
  | sent {x : Sent} (hid : x.id = counter t x.toGroup + 1)
    (hc : ∀ g, counter t' g = if g = x.toGroup then x.id else counter t g)
    (hi : ∀ i ∈ t'.items, i ∈ t.items ∨ i.address.toGroup = x.toGroup ∧ i.id = x.id ∧
      i.payload = payloadText R x.payload) : Effect R t t' (some x)

/-- What an answer posts. -/
def posted (req : Request) : Response → Option Sent
  | .envelope e => some ⟨false, e.id, req.relayed⟩
  | .groupEnvelope e => some ⟨true, e.id, req.relayed⟩
  | _ => none

theorem posting_request {s : Exchange} {authorization : String} {req req' : Request} {body : Text}
    {d : Draws} (h : req.received R body = some req') :
    s.posting R (.request authorization req body d) =
      posted req' (s.service.handle R authorization req' d).1 := by
  rw [posting, h]
  rfl

theorem Effect.thin {t t' : Tables} (h : t.Thinned t') : Effect R t t' none := by
  refine .nothing (fun i hi => ?_) fun g => ?_
  · rcases List.mem_append.mp hi with hi | hi
    · obtain ⟨r, hr, rfl⟩ := List.mem_map.mp hi
      exact List.mem_append_left _ (List.mem_map.mpr ⟨r, h.envelopes r hr, rfl⟩)
    · obtain ⟨r, hr, rfl⟩ := List.mem_map.mp hi
      exact List.mem_append_right _ (List.mem_map.mpr ⟨r, h.groupEnvelopes r hr, rfl⟩)
  · rw [counter, counter, h.envelopeSeq, h.groupEnvelopeSeq]

theorem Effect.user {t : Tables} {row : EnvelopeRow} {payload : List (Text × Json)}
    (hp : row.payload = payloadText R payload) :
    Effect R t (t.withEnvelope row) (some ⟨false, t.envelopeSeq + 1, payload⟩) := by
  refine .sent rfl (fun g => by cases g <;> rfl) fun i hi => ?_
  simp only [Tables.items, Tables.withEnvelope, List.map_append, List.mem_append] at hi
  rcases hi with (hi | hi) | hi
  · exact .inl (List.mem_append_left _ hi)
  · cases List.mem_singleton.mp hi
    exact .inr ⟨rfl, rfl, hp⟩
  · exact .inl (List.mem_append_right _ hi)

theorem Effect.group {t : Tables} {row : GroupEnvelopeRow} {payload : List (Text × Json)}
    (hp : row.payload = payloadText R payload) :
    Effect R t (t.withGroupEnvelope row) (some ⟨true, t.groupEnvelopeSeq + 1, payload⟩) := by
  refine .sent rfl (fun g => by cases g <;> rfl) fun i hi => ?_
  simp only [Tables.items, Tables.withGroupEnvelope, List.map_append, List.mem_append] at hi
  rcases hi with hi | hi | hi
  · exact .inl (List.mem_append_left _ hi)
  · exact .inl (List.mem_append_right _ hi)
  · cases List.mem_singleton.mp hi
    exact .inr ⟨rfl, rfl, hp⟩

theorem effect_of_outcome {d : Draws} {me : String} {t t' : Tables} {req : Request} {r : Response}
    (ho : Outcome R d me t req r t') : Effect R t t' (posted req r) := by
  cases ho with
  | looked h =>
    cases r with
    | envelope | groupEnvelope => cases req <;> cases h
    | _ => exact .thin (.refl t)
  | message | fileMessage => exact .user rfl
  | groupMessage | groupFile => exact .group rfl
  | deleted => exact .thin (Tables.withoutUser_thinned _)
  | left => exact .thin (Tables.left_thinned _ _)
  | joined =>
    unfold Tables.withMember
    split
    · exact .thin (.refl t)
    · exact .nothing (fun _ h => h) fun _ => rfl
  | avatar | created | uploaded | downloaded => exact .nothing (fun _ h => h) fun _ => rfl

theorem effect_of_handled {d : Draws} {authorization : String} {s s' : Service} {req : Request}
    {r : Response} (h : s.Handled R d authorization req r s') :
    Effect R s.tables s'.tables (posted req r) := by
  cases h with
  | turnedAway | loggedOut | loggedIn => exact .thin (.refl _)
  | registered hn hu ht =>
    rw [Tables.insertUser, if_neg (by simp [hn, hu])] at ht
    cases ht
    exact .nothing (fun _ h => h) fun _ => rfl
  | served hme ho =>
    rw [Service.record_tables]
    exact effect_of_outcome ho

/-- What holds after every step: each row stands for one thing sent. -/
structure Kept (R : Runtime) (s : Exchange) : Prop where
  sane : s.service.Sane
  bound : ∀ x ∈ s.sent, x.id ≤ counter s.service.tables x.toGroup
  unique : ∀ x ∈ s.sent, ∀ y ∈ s.sent, x.toGroup = y.toGroup → x.id = y.id → x = y
  built : ∀ x ∈ s.sent, every (Json.built true) (.object x.payload) = true
  stored : ∀ i ∈ s.service.tables.items, ∃ x ∈ s.sent, x.toGroup = i.address.toGroup ∧
    x.id = i.id ∧ i.payload = payloadText R x.payload

theorem Kept.grow {s : Exchange} {service : Service} {p : Option Sent} (h : Kept R s)
    (hs : service.Sane) (he : Effect R s.service.tables service.tables p)
    (hb : ∀ x ∈ p, every (Json.built true) (.object x.payload) = true) :
    Kept R ⟨service, s.sent ++ p.toList⟩ := by
  cases he with
  | nothing hi hc =>
    rw [Option.toList_none, List.append_nil]
    exact ⟨hs, fun x hx => (hc _).symm ▸ h.bound x hx, h.unique, h.built,
      fun i hm => h.stored i (hi i hm)⟩
  | @sent x hid hc hi =>
    have hold : ∀ y ∈ s.sent, y.toGroup = x.toGroup → y.id < x.id := by
      intro y hy hg
      have hle := h.bound y hy
      rw [hg] at hle
      omega
    refine ⟨hs, fun y hy => ?_, fun y hy z hz hg hyz => ?_, fun y hy => ?_, fun i hm => ?_⟩
    · rw [hc]
      rcases List.mem_append.mp hy with hy | hy
      · split
        · rename_i hg
          exact Nat.le_of_lt (hold y hy hg)
        · exact h.bound y hy
      · cases List.mem_singleton.mp hy
        rw [if_pos rfl]
    · rcases List.mem_append.mp hy with hy | hy <;> rcases List.mem_append.mp hz with hz | hz
      · exact h.unique y hy z hz hg hyz
      · cases List.mem_singleton.mp hz
        exact absurd hyz (Nat.ne_of_lt (hold y hy hg))
      · cases List.mem_singleton.mp hy
        exact absurd hyz.symm (Nat.ne_of_lt (hold z hz hg.symm))
      · cases List.mem_singleton.mp hy
        exact (List.mem_singleton.mp hz).symm
    · rcases List.mem_append.mp hy with hy | hy
      · exact h.built y hy
      · cases List.mem_singleton.mp hy
        exact hb x rfl
    · rcases hi i hm with hm | ⟨hg, hiid, hp⟩
      · obtain ⟨y, hy, hrest⟩ := h.stored i hm
        exact ⟨y, List.mem_append_left _ hy, hrest⟩
      · exact ⟨x, List.mem_append_right _ (List.mem_singleton_self x), hg.symm, hiid.symm, hp⟩

theorem step_kept (s : Exchange) (a : Event) (t : Exchange) (h : Kept R s)
    (hs : s.step R a = some t) : Kept R t ∧ t.sent = s.sent ++ (s.posting R a).toList := by
  cases a with
  | request authorization req body d =>
    unfold step at hs
    dsimp only at hs
    cases hr : req.received R body with
    | none =>
      rw [hr] at hs
      cases hs
      exact ⟨h, by simp [posting, hr]⟩
    | some req' =>
      simp only [hr] at hs
      obtain ⟨service, hstep, rfl⟩ := Option.map_eq_some_iff.mp hs
      refine ⟨?_, rfl⟩
      have hsane := Service.step_sane _ _ _ h.sane hstep
      simp only [Service.step, Option.ite_none_right_eq_some] at hstep
      obtain ⟨hw, hstep⟩ := hstep
      cases hstep
      rw [posting_request hr]
      refine h.grow hsane
        (effect_of_handled (Service.handle_handled h.sane (Bool.and_eq_true_iff.mp hw).2 req')) ?_
      intro x hx
      unfold posted at hx
      split at hx <;> cases hx <;> exact relayed_built hr
  | sweep graceSeconds now =>
    cases hs
    obtain ⟨t, he, -, hsw⟩ := Service.sweep_swept h.sane graceSeconds now
    have hg := h.grow (Service.sweep_sane h.sane graceSeconds now)
      (p := none) (by rw [he]; exact .thin hsw.thinned) (by simp)
    simpa [posting] using hg

theorem empty_kept : Kept R .empty :=
  ⟨Service.empty_sane, nofun, nofun, nofun, nofun⟩

/-! What history requests cover -/

theorem serve_yields {s : Service} (h : s.Sane) {d : Draws} {me : Account} {req : Request}
    {r : Response} {t : Tables} (hy : Yields (handler R d me.username req) s.tables r t) :
    (s.serve R d me req).1 = r :=
  congrArg Prod.fst (@Service.serve_yields R d s h me req s.tokens r t hy)

theorem envelope_items {t : Tables} {rows : List EnvelopeRow} (h : ∀ r ∈ rows, r ∈ t.envelopes) :
    ∀ i ∈ Response.items (.envelopes (rows.map rowToEnvelope)),
      i ∈ t.items ∧ i.address.toGroup = false := by
  intro i hi
  simp only [Response.items, List.map_map] at hi
  obtain ⟨r, hr, rfl⟩ := List.mem_map.mp hi
  exact ⟨List.mem_append_left _ (List.mem_map_of_mem (f := fun r => (rowToEnvelope r).item) (h r hr)),
    rfl⟩

theorem groupEnvelope_items {t : Tables} {rows : List GroupEnvelopeRow}
    (h : ∀ r ∈ rows, r ∈ t.groupEnvelopes) :
    ∀ i ∈ Response.items (.groupEnvelopes (rows.map rowToGroupEnvelope)),
      i ∈ t.items ∧ i.address.toGroup = true := by
  intro i hi
  simp only [Response.items, List.map_map] at hi
  obtain ⟨r, hr, rfl⟩ := List.mem_map.mp hi
  exact ⟨List.mem_append_right _
    (List.mem_map_of_mem (f := fun r => (rowToGroupEnvelope r).item) (h r hr)), rfl⟩

/-! The rows of a history response -/

section rows
variable (t : Tables) (now : Nat)

def conversationRows (me peer : String) (since : Nat) : List EnvelopeRow :=
  ((t.envelopes.filter fun e => decide (since < e.id) &&
    (e.sender == me && e.recipient == peer || e.sender == peer && e.recipient == me) &&
    !Tables.due now e.expiresAt).insertionSort fun a b => a.id ≤ b.id).take historyPageSize

def inboxRows (me : String) (since : Nat) : List EnvelopeRow :=
  ((t.envelopes.filter fun e => e.recipient == me && decide (since < e.id) &&
    !Tables.due now e.expiresAt).insertionSort fun a b => a.id ≤ b.id).take historyPageSize

def groupRows (g since : Nat) : List GroupEnvelopeRow :=
  ((t.groupEnvelopes.filter fun e => e.groupId == g && decide (since < e.id) &&
    !Tables.due now e.expiresAt).insertionSort fun a b => a.id ≤ b.id).take historyPageSize

end rows

theorem conversation_yields {t : Tables} {d : Draws} {me peer : String} {since : Nat} :
    Yields (handler R d me (.conversation peer since)) t
      (.envelopes ((conversationRows t d.storedAt me (R.lower peer) since).map rowToEnvelope)) t :=
  .bind (.query _ t) (.pure t _)

theorem inbox_yields {t : Tables} {d : Draws} {me : String} {since : Nat} :
    Yields (handler R d me (.inbox since)) t
      (.envelopes ((inboxRows t d.storedAt me since).map rowToEnvelope)) t :=
  .bind (.query _ t) (.pure t _)

theorem groupMessages_yields {t : Tables} {d : Draws} {me : String} {g since : Nat} :
    Yields (handler R d me (.groupMessages g since)) t
      (if t.hasMember g me && (t.shown g).isSome then
        .groupEnvelopes ((groupRows t d.storedAt g since).map rowToGroupEnvelope) else noGroup) t := by
  refine .bind (requireGroupMember_yields me g) ?_
  cases t.hasMember g me with
  | false => exact .pure t _
  | true =>
    cases t.shown g with
    | none => exact .pure t _
    | some group => exact .bind (.query _ t) (.pure t _)

/-- A history response lists rows of one kind. -/
theorem history_items {s : Service} (h : s.Sane) (d : Draws) (me : Account) {req : Request}
    (hh : req.isHistory = true) : ∃ g, ∀ i ∈ (s.serve R d me req).1.items,
      i ∈ s.tables.items ∧ i.address.toGroup = g := by
  cases req with
  | conversation peer since =>
    rw [serve_yields h conversation_yields]
    exact ⟨false, envelope_items fun r hr => List.mem_of_mem_filter
      ((List.mem_insertionSort _).mp (List.mem_of_mem_take hr))⟩
  | inbox since =>
    rw [serve_yields h inbox_yields]
    exact ⟨false, envelope_items fun r hr => List.mem_of_mem_filter
      ((List.mem_insertionSort _).mp (List.mem_of_mem_take hr))⟩
  | groupMessages g since =>
    rw [serve_yields h groupMessages_yields]
    split
    · exact ⟨true, groupEnvelope_items fun r hr => List.mem_of_mem_filter
        ((List.mem_insertionSort _).mp (List.mem_of_mem_take hr))⟩
    · exact ⟨true, nofun⟩
  | _ => cases hh

theorem Kept.answers {s : Exchange} (h : Kept R s) (hc : ∀ x ∈ s.sent, x.clean = true) :
    s.Answers R clock allowNan := by
  intro d me req hh x hx hcov
  obtain ⟨g, hi⟩ := history_items (R := R) h.sane d me hh
  exact tells_of_stored hc h.built h.unique (fun i hm => h.stored i (hi i hm).1)
    (fun i hm => (hi i hm).2) hx hcov

theorem pushes_keeps {s : Exchange} {a : Event} (hc : ∀ x ∈ s.posting R a, x.clean = true)
    {W : Type} [DecidableEq W] {opened : W → Bool} {m : Manager W} {u : String} {ws : W}
    (ho : opened ws = true) (h : ws ∈ m.active u) :
    ws ∈ (s.pushes R clock opened m a).active u := by
  cases a with
  | request authorization req body d =>
    unfold pushes
    dsimp only
    cases hr : req.received R body with
    | none => exact h
    | some req' =>
      rw [posting_request hr] at hc
      dsimp only
      split
      · rename_i e he
        rw [he] at hc
        have hl := (Bool.and_eq_true_iff.mp (hc _ rfl)).1
        exact Manager.deliver_keeps ((e.item.json_legible _).trans hl) ho h
      · rename_i e he
        rw [he] at hc
        have hl := (Bool.and_eq_true_iff.mp (hc _ rfl)).1
        exact Manager.push_keeps _ _ ((e.item.json_legible _).trans hl) ho h
      · exact h
  | sweep => exact h

theorem inboxRows_new {t : Tables} {row : EnvelopeRow} {now : Nat} (h : t.Valid)
    (hd : Tables.due now row.expiresAt = false) :
    inboxRows (t.withEnvelope row) now row.recipient t.envelopeSeq =
      [{ row with id := t.envelopeSeq + 1 }] := by
  have hold : t.envelopes.filter (fun e => e.recipient == row.recipient &&
      decide (t.envelopeSeq < e.id) && !Tables.due now e.expiresAt) = [] := by
    refine List.filter_eq_nil_iff.mpr fun e he => ?_
    simp [Nat.not_lt.mpr (h.envelopeSeq e he)]
  simp only [inboxRows, Tables.withEnvelope, List.filter_append, hold]
  simp [hd, historyPageSize]

theorem groupRows_new {t : Tables} {row : GroupEnvelopeRow} {now : Nat} (h : t.Valid)
    (hd : Tables.due now row.expiresAt = false) :
    groupRows (t.withGroupEnvelope row) now row.groupId t.groupEnvelopeSeq =
      [{ row with id := t.groupEnvelopeSeq + 1 }] := by
  have hold : t.groupEnvelopes.filter (fun e => e.groupId == row.groupId &&
      decide (t.groupEnvelopeSeq < e.id) && !Tables.due now e.expiresAt) = [] := by
    refine List.filter_eq_nil_iff.mpr fun e he => ?_
    simp [Nat.not_lt.mpr (h.groupEnvelopeSeq e he)]
  simp only [groupRows, Tables.withGroupEnvelope, List.filter_append, hold]
  simp [hd, historyPageSize]

/-- An envelope is not due yet when its time starts to run. -/
theorem expiry_not_due (d : Draws) (ttl : Option Nat) :
    Tables.due d.expiryFrom (expiry d ttl) = false := by
  cases ttl with
  | none => rfl
  | some n =>
    by_cases hn : n = 0
    · simp [expiry, hn, Tables.due]
    · simp [expiry, hn, Tables.due]

section covered
variable {s : Service} {d : Draws}

theorem inbox_covers (hs : s.Sane) {t : Tables} (hv : t.Valid) {row : EnvelopeRow} {ttl : Option Nat}
    (ht : s.tables = t.withEnvelope row) (hr : row.expiresAt = expiry d ttl) {x : Sent}
    (hg : x.toGroup = false) (hid : x.id = t.envelopeSeq + 1) :
    (s.serve R { d with storedAt := d.expiryFrom } ⟨row.recipient, 0⟩
      (.inbox t.envelopeSeq)).1.covers x = true := by
  have hd : Tables.due d.expiryFrom row.expiresAt = false := hr ▸ expiry_not_due d ttl
  rw [serve_yields hs inbox_yields, ht, inboxRows_new hv hd]
  simp [Response.covers, Response.items, rowToEnvelope, Envelope.item, Address.toGroup, hg, hid]

theorem groupMessages_covers (hs : s.Sane) {t : Tables} (hv : t.Valid) {row : GroupEnvelopeRow}
    {ttl : Option Nat} (ht : s.tables = t.withGroupEnvelope row) (hr : row.expiresAt = expiry d ttl)
    (hm : t.hasMember row.groupId row.sender = true) {x : Sent} (hg : x.toGroup = true)
    (hid : x.id = t.groupEnvelopeSeq + 1) :
    (s.serve R { d with storedAt := d.expiryFrom } ⟨row.sender, 0⟩
      (.groupMessages row.groupId t.groupEnvelopeSeq)).1.covers x = true := by
  have hd : Tables.due d.expiryFrom row.expiresAt = false := hr ▸ expiry_not_due d ttl
  obtain ⟨m, hmem, hgid, -⟩ := Tables.hasMember_iff.mp hm
  obtain ⟨group, hshown⟩ := shown_of_hasGroup (hgid ▸ hv.memberGroup m hmem)
  have hmember : (t.withGroupEnvelope row).hasMember row.groupId row.sender = true := hm
  have hgroup : (t.withGroupEnvelope row).shown row.groupId = some group := hshown
  rw [serve_yields hs groupMessages_yields, ht, hmember, hgroup, groupRows_new hv hd]
  simp [Response.covers, Response.items, rowToGroupEnvelope, GroupEnvelope.item, Address.toGroup, hg,
    hid]

/-- Some history request covers what has just been posted. -/
theorem posted_covered {s' : Service} {authorization : String} {req : Request} {r : Response}
    {x : Sent} (h : s.Sane) (hs : s'.Sane) (hd : s.Handled R d authorization req r s')
    (hx : posted req r = some x) : ∃ (d' : Draws) (me : Account) (req' : Request),
      req'.isHistory = true ∧ (s'.serve R d' me req').1.covers x = true := by
  cases hd with
  | turnedAway | loggedOut | loggedIn | registered => cases hx
  | served hme ho =>
    cases ho with
    | looked ht =>
      cases r with
      | envelope | groupEnvelope => cases req <;> cases ht
      | _ => cases hx
    | message | fileMessage =>
      cases hx
      exact ⟨_, _, _, rfl, inbox_covers hs h.valid Service.record_tables rfl rfl rfl⟩
    | groupMessage hm | groupFile hm =>
      cases hx
      exact ⟨_, _, _, rfl, groupMessages_covers hs h.valid Service.record_tables rfl hm rfl rfl⟩
    | _ => cases hx

end covered

/-- As long as all that was sent is clean, a step does harm just when what it
posts is not. -/
theorem harmless_iff {s t : Exchange} {a : Event} (h : Kept R s)
    (hc : ∀ x ∈ s.sent, x.clean = true) (hs : s.step R a = some t) :
    s.Harmless R clock allowNan a ↔ ∀ x ∈ s.posting R a, x.clean = true := by
  obtain ⟨hk, hsent⟩ := step_kept s a t h hs
  constructor
  · rintro ⟨-, hall⟩ x hx
    have hmem : x ∈ t.sent := by
      rw [hsent]
      exact List.mem_append_right _ (Option.mem_toList.mpr hx)
    cases a with
    | request authorization req body d =>
      unfold step at hs
      dsimp only at hs
      cases hr : req.received R body with
      | none =>
        rw [posting, hr] at hx
        cases hx
      | some req' =>
        rw [posting_request hr] at hx
        simp only [hr] at hs
        obtain ⟨service, hstep, rfl⟩ := Option.map_eq_some_iff.mp hs
        simp only [Service.step, Option.ite_none_right_eq_some] at hstep
        obtain ⟨hw, hstep⟩ := hstep
        cases hstep
        obtain ⟨d', me, req'', hh, hcov⟩ := posted_covered h.sane hk.sane
          (Service.handle_handled h.sane (Bool.and_eq_true_iff.mp hw).2 req') hx
        exact (hall _ (by simp [step, hr, Service.step, hw]) d' me req'' hh x hmem hcov).clean
    | sweep => cases hx
  · intro hx
    refine ⟨fun W _ opened m u ws ho hm => pushes_keeps hx ho hm, fun t' ht' => ?_⟩
    cases hs.symm.trans ht'
    refine hk.answers fun x hmem => ?_
    rw [hsent] at hmem
    rcases List.mem_append.mp hmem with hmem | hmem
    · exact hc x hmem
    · exact hx x (Option.mem_toList.mp hmem)

/-- ann and bob sign up, and ann sends bob what the body says. -/
def annWrites (body : String) : List Event :=
  [.request "" (.register ⟨"ann", "kem", "dsa", "fp", "secret", none⟩) [] (draws "t1" "f0" []),
    .request "" (.register ⟨"bob", "kem", "dsa", "fp", "secret", none⟩) [] (draws "t2" "f0" []),
    .request "Bearer t1" (.sendMessage ⟨"bob", [], none⟩) (key body) (draws "t0" "f0" [])]

def midnight (_ : Nat) : Double := ⟨false, ⟨0, by decide⟩, ⟨0, by decide⟩⟩

def greeting : String := "\x7b\"payload\":\x7b\"a\":[1,\"\\u00e9\"]\x7d\x7d"

def surrogate : String := "\x7b\"payload\":\x7b\"a\":\"\\ud800\"\x7d\x7d"

/-- What bob's inbox lists includes an envelope that is not clean. -/
def bobIsPoisoned (s : Exchange) : Bool :=
  s.sent.any fun x => !x.clean &&
    (s.service.serve plain (draws "t0" "f0" []) ⟨"bob", 1⟩ (.inbox 0)).1.covers x

end Exchange

end Lattix.Server
