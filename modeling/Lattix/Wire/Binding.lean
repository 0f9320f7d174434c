import Mathlib.Data.Sym.Sym2
import Lattix.Lib.Runs
import Lattix.Wire.Payloads

namespace Lattix.Wire
open Lib.Runs

/-- A conversation as one client files it. -/
inductive Convo where
  | dm (peer : String)
  | group (id : String)
deriving DecidableEq, Repr

/-- A conversation as its members share it. -/
inductive Conversation where
  | direct (users : Sym2 String)
  | group (id : String)

def Convo.shared (me : String) : Convo → Conversation
  | .dm peer => .direct s(me, peer)
  | .group id => .group id

def ctxFor : Convo → String
  | .dm _ => ""
  | .group id => "g:" ++ id

inductive Kind where
  | message
  | file
  | other
deriving DecidableEq, Repr

inductive Address where
  | user (recipient : String)
  | group (id : String)
deriving DecidableEq, Repr

/-- An envelope as the relay hands it out: all but the payload is its own. -/
structure Envelope where
  sender : String
  address : Address
  kind : Kind
  payload : Payload
deriving DecidableEq, Repr

structure Sent where
  sender : String
  convo : Convo
  payload : Payload
deriving DecidableEq, Repr

structure Filed where
  reader : String
  convo : Convo
  sender : String
  payload : Payload
  verified : Bool
deriving DecidableEq, Repr

/-- All clients: what they have sent and filed, and the groups each knows. -/
structure Network where
  sent : List Sent
  filed : List Filed
  known : String → List String
  count : Nat

def Network.start : Network := ⟨[], [], fun _ => [], 0⟩

/-- Whom a client sends to, with the keys it holds of them: whatever the relay
gave it for the others. -/
inductive Parties where
  | dm (peer kemPub : String)
  | group (id : String) (members : List Recipient)
deriving DecidableEq, Repr

inductive Content where
  | message (text : String)
  | file (bytes metadata : String)
deriving DecidableEq, Repr

inductive Step where
  | send (sender : String) (parties : Parties) (content : Content)
  | learn (reader id : String)
  | deliver (reader : String) (e : Envelope) (detail : String) (alert : Bool)
deriving DecidableEq

def Parties.convo : Parties → Convo
  | .dm peer _ => .dm peer
  | .group id _ => .group id

/-- `vault` is each user's own KEM key. -/
def recipientsFor (vault : String → String) (sender : String) : Parties → List Recipient
  | .dm peer kemPub => ⟨peer, kemPub⟩ :: if peer = sender then [] else [⟨sender, vault sender⟩]
  | .group _ members => members

def payloadFor (n : Nat) (recipients : List Recipient) (sender : String) (c : Convo) :
    Content → Payload
  | .message text => encryptMessage n text recipients sender (ctxFor c)
  | .file bytes metadata => encryptFile n bytes metadata recipients sender (ctxFor c)

/-- The group a message is filed under: an unknown one is loaded first, and the
answer says which it is. -/
def Network.place (reader detail : String) (e : Envelope) (s : Network) : Convo :=
  match e.address with
  | .user recipient => .dm (if e.sender = reader then recipient else e.sender)
  | .group id => .group (if (s.known reader).contains id then id else detail)

def Envelope.context (e : Envelope) : String :=
  match e.address with
  | .user _ => ""
  | .group id => "g:" ++ id

/-- `decodeEnvelope`: nothing, or whether the message it shows is verified. -/
def decodeEnvelope (vault : String → String) (reader : String) (e : Envelope) (alert : Bool) :
    Option Bool :=
  let keyAlert := decide (e.sender ≠ reader) && alert
  match e.kind with
  | .message =>
    some ((decryptMessage e.payload reader (vault reader) e.sender e.context).isSome && !keyAlert)
  | .file =>
    match openFilePayload e.payload reader (vault reader) e.sender e.context with
    | none => some false
    | some (_, verified) => some (verified && !keyAlert)
  | .other => none

/-- Signatures are not forged: the relay has each from a client that made it. -/
def Network.seen (p : Payload) (s : Network) : Bool :=
  p.signature.all fun g => s.sent.any fun m => m.payload.signature == some g

def Network.know (c : Convo) (reader : String) (s : Network) : Network :=
  match c with
  | .dm _ => s
  | .group id => { s with known := Function.update s.known reader (id :: s.known reader) }

def Network.step (vault : String → String) (s : Network) : Step → Option Network
  | .send sender parties content =>
    let recipients := recipientsFor vault sender parties
    let payload := payloadFor s.count recipients sender parties.convo content
    some { s with sent := s.sent ++ [⟨sender, parties.convo, payload⟩], count := s.count + 1 }
  | .learn reader id => some (s.know (.group id) reader)
  | .deliver reader e detail alert =>
    if s.seen e.payload then
      let c := s.place reader detail e
      let s := s.know c reader
      match decodeEnvelope vault reader e alert with
      | none => some s
      | some verified =>
        some { s with filed := s.filed ++ [⟨reader, c, e.sender, e.payload, verified⟩] }
    else none

/-- What is shown as verified was sent by its sender in that conversation: the
same signature, which covers the ciphertexts and the keys. -/
def Network.Bound (s : Network) : Prop :=
  ∀ f ∈ s.filed, f.verified = true → ∃ m ∈ s.sent, m.sender = f.sender ∧
    m.convo.shared m.sender = f.convo.shared f.reader ∧ m.payload.signature = f.payload.signature

/-- A copy that carries the reader's own signature names as its recipient the
one its keys are wrapped for, and a group is loaded as the one asked for. -/
def Network.labelled (s : Network) : Step → Bool
  | .deliver reader e detail _ =>
    match e.address with
    | .user recipient =>
      let names := e.payload.keys.map Entry.username
      e.sender != reader || e.payload.signature.all (fun g => g.signer != reader) ||
        names.contains recipient && (recipient != reader || names.all fun n => n == reader)
    | .group id => (s.known reader).contains id || detail == id
  | _ => true

variable {vault : String → String}

/-- What a client signs: in the conversation it sends to, and for two names in a
chat of two. -/
def Sent.Honest (m : Sent) : Prop :=
  ∃ t, m.payload.signature = some ⟨m.sender, t⟩ ∧ t.legacy = false ∧ t.context = ctxFor m.convo ∧
    ∀ peer, m.convo = .dm peer → ∀ n, n ∈ t.names ↔ n = peer ∨ n = m.sender

structure Network.Sound (s : Network) : Prop where
  honest : ∀ m ∈ s.sent, m.Honest
  bound : s.Bound

theorem ctx_direct {c : Convo} (h : ctxFor c = "") : ∃ peer, c = .dm peer := by
  cases c with
  | dm peer => exact ⟨peer, rfl⟩
  | group id =>
    have hl := congrArg String.length h
    have hg : "g:".length = 2 := rfl
    simp only [ctxFor, String.length_empty, String.length_append] at hl
    omega

theorem ctx_group {c : Convo} {id : String} (h : ctxFor c = "g:" ++ id) : c = .group id := by
  cases c with
  | dm peer =>
    have hl := congrArg String.length h
    have hg : "g:".length = 2 := rfl
    simp only [ctxFor, String.length_empty, String.length_append] at hl
    omega
  | group d =>
    rw [ctxFor, String.append_right_inj] at h
    rw [h]

theorem mem_recipients_dm {sender peer kemPub n : String} :
    n ∈ (recipientsFor vault sender (.dm peer kemPub)).map Recipient.username ↔
      n = peer ∨ n = sender := by
  simp only [recipientsFor]
  by_cases h : peer = sender
  · simp [h]
  · simp [h, eq_comm]

theorem send_honest (n : Nat) (sender : String) (parties : Parties) (content : Content) :
    Sent.Honest ⟨sender, parties.convo,
      payloadFor n (recipientsFor vault sender parties) sender parties.convo content⟩ := by
  have hnames : ∀ peer, parties.convo = .dm peer → ∀ u,
      u ∈ (sortKeys (wrapCekForParties n (recipientsFor vault sender parties))).map Entry.username ↔
        u = peer ∨ u = sender := by
    intro peer hp u
    rw [mem_sortKeys, mem_wrapCek]
    cases parties with
    | dm peer' kemPub =>
      cases hp
      exact mem_recipients_dm
    | group id members => cases hp
  cases content with
  | message text => exact ⟨_, rfl, rfl, rfl, hnames⟩
  | file bytes metadata => exact ⟨_, rfl, rfl, rfl, hnames⟩

/-- Whatever is shown as verified has been signed in the context it was read in,
and for the reader among others. -/
theorem decode_verified {reader : String} {e : Envelope} {alert : Bool}
    (h : decodeEnvelope vault reader e alert = some true) :
    ∃ t, e.payload.signature = some ⟨e.sender, t⟩ ∧ t.context = e.context ∧
      (∀ n, n ∈ t.names ↔ n ∈ e.payload.keys.map Entry.username) ∧
      (t.legacy = false → reader ∈ t.names) := by
  unfold decodeEnvelope at h
  cases hk : e.kind with
  | message =>
    simp only [hk, Option.some.injEq, Bool.and_eq_true, Option.isSome_iff_exists] at h
    obtain ⟨text, ht⟩ := h.1
    obtain ⟨hm, ct, hs⟩ := decryptMessage_some ht
    exact ⟨_, hs, rfl, fun n => mem_sortKeys, fun _ => mem_sortKeys.mpr hm⟩
  | file =>
    simp only [hk] at h
    split at h
    · simp at h
    · rename_i metadata verified ho
      simp only [Option.some.injEq, Bool.and_eq_true] at h
      rw [h.1] at ho
      rcases openFilePayload_verified ho with ⟨hm, sha, metaCt, hs⟩ | ⟨metadata, hs⟩
      · exact ⟨_, hs, rfl, fun n => mem_sortKeys, fun _ => mem_sortKeys.mpr hm⟩
      · exact ⟨_, hs, rfl, fun n => mem_sortKeys, fun hl => by cases hl⟩
  | other => simp [hk] at h

theorem seen_sent {s : Network} {p : Payload} {g : Signature} (h : s.seen p = true)
    (hg : p.signature = some g) : ∃ m ∈ s.sent, m.payload.signature = some g := by
  simpa [Network.seen, hg] using h

theorem place_shared {s : Network} {reader detail : String} {e : Envelope} {alert : Bool}
    {m : Sent} {t : Transcript} (hm : m.Honest) (ht : m.payload.signature = some ⟨e.sender, t⟩)
    (he : e.payload.signature = some ⟨e.sender, t⟩) (hctx : t.context = e.context)
    (hnames : ∀ n, n ∈ t.names ↔ n ∈ e.payload.keys.map Entry.username)
    (hread : t.legacy = false → reader ∈ t.names)
    (hl : s.labelled (.deliver reader e detail alert) = true) :
    m.sender = e.sender ∧ m.convo.shared m.sender = (s.place reader detail e).shared reader := by
  obtain ⟨t', hs, hleg, hc, hdm⟩ := hm
  rw [ht] at hs
  simp only [Option.some.injEq, Signature.mk.injEq] at hs
  obtain ⟨hsender, rfl⟩ := hs
  refine ⟨hsender.symm, ?_⟩
  rw [← hsender] at hdm ⊢
  rw [hctx, Envelope.context] at hc
  cases ha : e.address with
  | user recipient =>
    simp only [ha] at hc
    obtain ⟨peer, hp⟩ := ctx_direct hc.symm
    have hn := hdm peer hp
    have hr := (hn reader).mp (hread hleg)
    simp only [Network.place, ha, hp, Convo.shared]
    by_cases hself : e.sender = reader
    · simp only [Network.labelled, ha, hself, he, bne_self_eq_false, Option.all_some,
        Bool.false_or, Bool.and_eq_true, Bool.or_eq_true, List.contains_iff_mem, bne_iff_ne, ne_eq,
        List.all_eq_true, beq_iff_eq] at hl
      obtain ⟨hrec, hall⟩ := hl
      have hpeer : recipient = peer := by
        rcases (hn recipient).mp ((hnames recipient).mpr hrec) with hrp | hrs
        · exact hrp
        · rw [hself] at hrs
          rcases hall with hne | hall
          · exact absurd hrs hne
          · rw [hrs, hall peer ((hnames peer).mp ((hn peer).mpr (.inl rfl)))]
      simp [hself, hpeer]
    · have hpeer : reader = peer := hr.resolve_right fun h => hself h.symm
      rw [if_neg hself, hpeer, Sym2.eq_swap]
  | group id =>
    simp only [ha] at hc
    have hg := ctx_group hc.symm
    simp only [Network.labelled, ha, Bool.or_eq_true, beq_iff_eq] at hl
    simp only [Network.place, ha, hg, Convo.shared]
    rcases hl with hk | hd
    · rw [if_pos hk]
    · rw [hd, ite_self]

theorem know_same (c : Convo) (reader : String) (s : Network) :
    (s.know c reader).sent = s.sent ∧ (s.know c reader).filed = s.filed := by
  cases c with
  | dm peer => exact ⟨rfl, rfl⟩
  | group id => exact ⟨rfl, rfl⟩

theorem know_sound {s : Network} (h : s.Sound) (c : Convo) (reader : String) :
    (s.know c reader).Sound := by
  cases c with
  | dm peer => exact h
  | group id => exact ⟨h.honest, h.bound⟩

theorem step_bound (s : Network) (a : Step) (s' : Network) (h : s.Sound)
    (hl : s.labelled a = true) (hs : s.step vault a = some s') : s'.Sound := by
  cases a with
  | send sender parties content =>
    cases hs
    constructor
    · intro m hm
      rcases List.mem_append.mp hm with hm | hm
      · exact h.honest m hm
      · rw [List.mem_singleton.mp hm]
        exact send_honest s.count sender parties content
    · intro f hf hv
      obtain ⟨m, hm, hx⟩ := h.bound f hf hv
      exact ⟨m, List.mem_append_left _ hm, hx⟩
  | learn reader id =>
    cases hs
    exact know_sound h (.group id) reader
  | deliver reader e detail alert =>
    simp only [Network.step] at hs
    split at hs
    · rename_i hseen
      have hk := know_sound h (s.place reader detail e) reader
      obtain ⟨hsent, hfiled⟩ := know_same (s.place reader detail e) reader s
      cases hd : decodeEnvelope vault reader e alert with
      | none =>
        simp only [hd] at hs
        cases hs
        exact hk
      | some verified =>
        simp only [hd] at hs
        cases hs
        refine ⟨hk.honest, ?_⟩
        intro f hf hv
        rcases List.mem_append.mp hf with hf | hf
        · exact hk.bound f hf hv
        · rw [List.mem_singleton.mp hf] at hv ⊢
          have hv : verified = true := hv
          rw [hv] at hd
          obtain ⟨t, he, hctx, hnames, hread⟩ := decode_verified hd
          obtain ⟨m, hm, ht⟩ := seen_sent hseen he
          obtain ⟨hsender, hshared⟩ := place_shared (h.honest m hm) ht he hctx hnames hread hl
          exact ⟨m, by rw [hsent]; exact hm, hsender, hshared, ht.trans he.symm⟩
    · cases hs

/-- Whatever the relay hands to whom, under whatever labels but those of one's
own copies. -/
theorem verified_bound (vault : String → String) (as : List Step) {s : Network}
    (hl : Meets (Network.step vault) (fun s a => s.labelled a = true) .start as)
    (hrun : run (Network.step vault) .start as = some s) : s.Bound := by
  have hstart : Network.start.Sound := by
    constructor
    · intro m hm
      cases hm
    · intro f hf
      cases hf
  exact (invariant_meets step_bound hstart hl hrun).bound

/-- A message of ann's to bob, and the copy that the relay keeps of it. -/
def annToBob : Payload :=
  payloadFor 0 [⟨"bob", "bob"⟩, ⟨"ann", "ann"⟩] "ann" (.dm "bob") (.message "hello")

theorem delivered_bound :
    ∃ s, run (Network.step id) .start [.send "ann" (.dm "bob" "bob") (.message "hello"),
      .deliver "bob" ⟨"ann", .user "bob", .message, annToBob⟩ "" false,
      .deliver "ann" ⟨"ann", .user "bob", .message, annToBob⟩ "" false] = some s ∧ s.Bound :=
  ⟨_, rfl, verified_bound id [.send "ann" (.dm "bob" "bob") (.message "hello"),
    .deliver "bob" ⟨"ann", .user "bob", .message, annToBob⟩ "" false,
    .deliver "ann" ⟨"ann", .user "bob", .message, annToBob⟩ "" false] (by decide) rfl⟩

/-- The relay hands ann her own copy as one to carol: it is shown in her chat
with carol, as verified. -/
theorem verified_not_bound :
    ¬ ∀ (as : List Step) (s : Network), run (Network.step id) .start as = some s → s.Bound := by
  intro h
  have hs := h [.send "ann" (.dm "bob" "bob") (.message "hello"),
    .deliver "ann" ⟨"ann", .user "carol", .message, annToBob⟩ "" false] _ rfl
    ⟨"ann", .dm "carol", "ann", annToBob, true⟩ (by decide) rfl
  obtain ⟨m, hm, _, hc, _⟩ := hs
  rw [List.mem_singleton.mp hm] at hc
  have hp : s("ann", "bob") = s("ann", "carol") := by
    injection hc
  revert hp
  decide

end Lattix.Wire
