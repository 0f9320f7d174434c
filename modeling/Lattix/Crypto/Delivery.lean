import Lattix.Server.Delivery
import Lattix.Crypto.Messages

/-! A message from when it is encrypted to when it is decrypted. -/

namespace Lattix.Crypto
open Lib Lib.Json Lib.Runs
open Server (key str Runtime Request Draws Account Tokens Sent Exchange requireUser expiry plain
  draws)
open Server.Exchange (midnight)

theorem encryptMessage_portable {P : Platform} {d : MessageDraws} {plaintext secret context : Text}
    {recipients : List Recipient} {payload : Json}
    (h : encryptMessage P d plaintext recipients secret context = some payload) :
    ∃ fs, payload = .object fs ∧ Portable (.object fs) := by
  simp only [encryptMessage, importAesKey_block, Option.bind_eq_bind, Option.bind_eq_some_iff] at h
  obtain ⟨_, -, keys, hk, _, -, _, -, signature, -, he⟩ := h
  cases he
  exact ⟨_, rfl, messageJson_portable (wrapCekForParties_shaped hk) _ _ _⟩

/-- A payload to which the handler adds nothing arrives as it is. -/
theorem relayed_same {Φ : Doubles} {fs : List (Text × Json)} {pushed : Bool}
    (h : Portable (.object fs)) : relayed Φ id pushed (.object fs) = some (.object fs) :=
  relayed_portable h h

/-- Each party opens what was encrypted for it. -/
theorem encryptMessage_opens {P : Platform} (hP : P.Correct) {d : MessageDraws} {sender : Block 32}
    {ps : List Party} (hn : (ps.map Party.username).Nodup)
    (hproto : "__proto__" ∉ ps.map Party.username) {cs : List Char} (hcs : trim cs = cs)
    {context : Text} {payload : Json}
    (h : encryptMessage P d (text cs) (ps.map (Party.recipient P))
      (bytesToB64 (P.dsaKeygen sender).2) context = some payload) {p : Party} (hp : p ∈ ps) :
    decryptMessage P payload (key p.username) (p.kemSecret P) (bytesToB64 (P.dsaKeygen sender).1)
      context = some ⟨text cs, true⟩ := by
  obtain ⟨payload', received, he, hr, hall⟩ := read_of_ne hP d sender hn hcs context false hproto
  cases h.symm.trans he
  obtain ⟨fs, rfl, hport⟩ := encryptMessage_portable h
  cases (relayed_same hport).symm.trans hr
  exact hall p hp

/-- The relay takes a message for what it is. -/
theorem posting_payload {R : Runtime} {s : Exchange} {authorization : String} {req : Request}
    {body : Json} {payload : List (Text × Json)} {d : Draws} {x : Sent} (hb : Portable body)
    (hp : body.get (key "payload") = some (.object payload)) (hh : handlerOf req = some id)
    (hx : s.posting R
      (.request authorization req (text (write R.doubles stringify body)) d) = some x) :
    x.payload = payload := by
  cases hr : req.received R (text (write R.doubles stringify body)) with
  | none => simp [Exchange.posting, hr] at hx
  | some req' =>
    cases (relayed_same (hb.get hp)).symm.trans (relayed_received hb hp hh hr false)
    rw [Exchange.posting_request hr] at hx
    unfold Exchange.posted at hx
    split at hx <;> cases hx <;> rfl

/-- A message that the relay accepts is delivered, and everybody it is for opens it as it was
written. -/
theorem delivered {P : Platform} (hP : P.Correct) {R : Runtime} {clock : Nat → Double}
    {allowNan : Bool} {md : MessageDraws} {sender : Block 32} {ps : List Party}
    (hn : (ps.map Party.username).Nodup) (hproto : "__proto__" ∉ ps.map Party.username)
    {cs : List Char} (hcs : trim cs = cs) {context : Text} {payload : List (Text × Json)}
    (he : encryptMessage P md (text cs) (ps.map (Party.recipient P))
      (bytesToB64 (P.dsaKeygen sender).2) context = some (.object payload))
    {es : List Exchange.Event} {s t : Exchange} (hes : run (Exchange.step R) .empty es = some s)
    {authorization : String} {req : Request} {body : Json} {d : Draws} {me : Account} {ts : Tokens}
    (hme : requireUser d.checkedAt authorization s.service.tokens = (some me, ts))
    (hb : Portable body) (hp : body.get (key "payload") = some (.object payload))
    (hh : handlerOf req = some id)
    (hx : (s.posting R
      (.request authorization req (text (write R.doubles stringify body)) d)).isSome = true)
    (hs : s.step R
      (.request authorization req (text (write R.doubles stringify body)) d) = some t) :
    ∃ i ∈ t.service.tables.items, req.address me.username = some i.address ∧
      i.expiresAt = expiry d req.ttl ∧
      t.Delivers R clock allowNan i fun got => ∀ p ∈ ps,
        decryptMessage P got (key p.username) (p.kemSecret P) (bytesToB64 (P.dsaKeygen sender).1)
          context = some ⟨text cs, true⟩ := by
  have hk : Exchange.Kept R s :=
    invariant (fun s a t h hs => (Exchange.step_kept s a t h hs).1) Exchange.empty_kept hes
  obtain ⟨x, hx⟩ := Option.isSome_iff_exists.mp hx
  cases hr : req.received R (text (write R.doubles stringify body)) with
  | none => simp [Exchange.posting, hr] at hx
  | some req' =>
    obtain ⟨i, hi, ha, hexp, hdelivers⟩ := Exchange.posted_delivers hk hme hr hx hs
    refine ⟨i, hi, ha, hexp, ?_⟩
    intro fs u hfs hl hc authorization d me ts hme q hq hd
    obtain ⟨got, harrives, rfl⟩ := hdelivers fs u hfs hl hc authorization d me ts hme q hq hd
    refine ⟨_, harrives, fun p hmem => ?_⟩
    rw [posting_payload hb hp hh hx]
    exact encryptMessage_opens hP hn hproto hcs he hmem

def annAndBob : List Party := [⟨"ann", block 64 6⟩, ⟨"bob", block 64 7⟩]

def fieldsOf : Option Json → List (Text × Json)
  | some (.object fs) => fs
  | _ => []

theorem some_fieldsOf {o : Option Json} {fs : List (Text × Json)} (h : o = some (.object fs)) :
    o = some (.object (fieldsOf o)) := by
  subst h
  rfl

/-- What ann's client makes of a message to bob. -/
def annsFields : List (Text × Json) :=
  fieldsOf (encryptMessage clear someDraws (text ['h', 'i']) (annAndBob.map (Party.recipient clear))
    (bytesToB64 (clear.dsaKeygen (block 32 5)).2) [])

def annsBody : Json := .object [(key "recipient", str "bob"), (key "payload", .object annsFields)]

def signUps : List Exchange.Event :=
  [.request "" (.register ⟨"ann", "kem", "dsa", "fp", "secret", none⟩) [] (draws "t1" "f0" []),
    .request "" (.register ⟨"bob", "kem", "dsa", "fp", "secret", none⟩) [] (draws "t2" "f0" [])]

def annsPost : Exchange.Event :=
  .request "Bearer t1" (.sendMessage ⟨"bob", [], none⟩)
    (text (write plain.doubles stringify annsBody)) (draws "t0" "f0" [])

def signedUp : Exchange := (run (Exchange.step plain) .empty signUps).getD .empty

theorem annsFields_made : encryptMessage clear someDraws (text ['h', 'i'])
    (annAndBob.map (Party.recipient clear)) (bytesToB64 (clear.dsaKeygen (block 32 5)).2) [] =
      some (.object annsFields) := by
  have hread : ReadByAll clear someDraws (block 32 5) annAndBob ['h', 'i'] [] false :=
    read_of_ne clear_correct _ _ (by simp [annAndBob]) (by decide) _ _ (by simp [annAndBob])
  obtain ⟨payload, received, he, -⟩ := hread
  obtain ⟨fs, rfl, -⟩ := encryptMessage_portable he
  exact some_fieldsOf he

theorem annsBody_portable : Portable annsBody := by
  obtain ⟨fs, hfs, hport⟩ := encryptMessage_portable annsFields_made
  rw [← Json.object.inj hfs] at hport
  refine portable_object.mpr ⟨by simp, ?_⟩
  simp only [List.forall_mem_cons, List.not_mem_nil, false_implies, implies_true, and_true]
  exact ⟨⟨all_text _, portable_string _⟩, all_text _, hport⟩

/-- bob finds the message in his conversation with ann. -/
theorem delivered_to_bob : ∃ t i got, signedUp.step plain annsPost = some t ∧
    i.address = .user "ann" "bob" ∧
    t.Arrives plain midnight false "Bearer t2" (draws "t0" "f0" []) (.conversation "ann") i got ∧
    decryptMessage clear got (key "bob") (Party.kemSecret clear ⟨"bob", block 64 7⟩)
      (bytesToB64 (clear.dsaKeygen (block 32 5)).1) [] = some ⟨text ['h', 'i'], true⟩ := by
  have hes : run (Exchange.step plain) .empty signUps = some signedUp := rfl
  have hann : (requireUser (draws "t0" "f0" []).checkedAt "Bearer t1" signedUp.service.tokens).1 =
      some ⟨"ann", 1⟩ := by decide +kernel
  obtain ⟨ts, hme⟩ : ∃ ts, requireUser (draws "t0" "f0" []).checkedAt "Bearer t1"
      signedUp.service.tokens = (some ⟨"ann", 1⟩, ts) := ⟨_, Prod.fst_eq_iff.mp hann⟩
  have hstep : (signedUp.step plain annsPost).any (fun t => t.sent.all Sent.clean &&
      (requireUser 0 "Bearer t2" t.service.tokens).1 == some ⟨"bob", 1⟩) = true := by decide +kernel
  obtain ⟨t, hs, ht⟩ := (Option.any_eq_true ..).mp hstep
  obtain ⟨hclean, hbob⟩ := Bool.and_eq_true_iff.mp ht
  have hps : (annAndBob.map Party.username).Nodup ∧ "__proto__" ∉ annAndBob.map Party.username := by
    decide
  have hposting : (signedUp.posting plain annsPost).isSome = true := by decide +kernel
  obtain ⟨i, hi, ha, hexp, hdelivers⟩ := delivered clear_correct hps.1 hps.2 (by decide)
    annsFields_made hes hme annsBody_portable rfl rfl hposting hs
  have ha : i.address = .user "ann" "bob" := (Option.some.inj ha).symm
  have hexp : i.expiresAt = none := hexp
  have hlisted : i.address.ListedBy plain t.service.tables "bob" (.conversation "ann") := by
    right
    rw [ha]
    decide
  obtain ⟨got, harrives, hall⟩ := hdelivers [] t rfl trivial (List.all_eq_true.mp hclean)
    "Bearer t2" (draws "t0" "f0" []) _ _ (Prod.fst_eq_iff.mp (beq_iff_eq.mp hbob))
    (.conversation "ann") hlisted (by rw [hexp]; rfl)
  exact ⟨t, i, got, hs, ha, harrives, hall ⟨"bob", block 64 7⟩ (by simp [annAndBob])⟩

end Lattix.Crypto
