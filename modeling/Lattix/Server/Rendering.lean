import Lattix.Lib.RoundTrip
import Lattix.Server.Access

namespace Lattix.Server
open Lib.Transactions Lib.Json Lib.Runs

def key (k : String) : Text := text k.toList

def str (s : String) : Json := .string (key s)

/-! Bodies -/

def maxPayloadBytes : Nat := 2 * 1024 * 1024

section bodies
variable (R : Runtime)

/-- `_check_payload_size`, on the text that `json.dumps` writes. -/
def checkPayloadSize (payload : List (Text × Json)) : Bool :=
  decide ((dumps R.doubles (.object payload)).length ≤ maxPayloadBytes)

/-- The payload of a body, if it passes its validator. -/
def readPayload (body : Text) : Option (List (Text × Json)) :=
  match (loads R.doubles body).bind (Json.get (key "payload")) with
  | some (.object payload) => if checkPayloadSize R payload then some payload else none
  | _ => none

/-- A request with its payload as the body has it. Its other fields are as the
validators leave them; a size came out of the same `json.loads`. -/
def Request.received (body : Text) : Request → Option Request
  | .sendMessage m => (readPayload R body).map fun payload => .sendMessage { m with payload }
  | .sendFileMessage m =>
    if (Number.int m.size).small then
      (readPayload R body).map fun payload => .sendFileMessage { m with payload }
    else none
  | .sendGroupMessage groupId m =>
    (readPayload R body).map fun payload => .sendGroupMessage groupId { m with payload }
  | .sendGroupFile groupId m =>
    if (Number.int m.size).small then
      (readPayload R body).map fun payload => .sendGroupFile groupId { m with payload }
    else none
  | req => some req

/-- The payload that a send endpoint stores and delivers. -/
def Request.relayed : Request → List (Text × Json)
  | .sendMessage m => m.payload
  | .sendFileMessage m => filePayload m.fileId m.filename m.mime m.size m.payload
  | .sendGroupMessage _ m => m.payload
  | .sendGroupFile _ m => filePayload m.fileId m.filename m.mime m.size m.payload
  | _ => []

def Request.isHistory : Request → Bool
  | .conversation .. | .inbox _ | .groupMessages .. => true
  | _ => false

end bodies

/-! What the relay renders -/

def Kind.json : Kind → Json
  | .message => str "message"
  | .file => str "file"

inductive Address where
  | user (sender recipient : String)
  | group (groupId : Nat) (sender : String)
deriving DecidableEq, Repr

def Address.toGroup : Address → Bool
  | .user .. => false
  | .group .. => true

def Address.fields : Address → List (Text × Json)
  | .user sender recipient => [(key "sender", str sender), (key "recipient", str recipient)]
  | .group groupId sender => [(key "group_id", .number (.int groupId)), (key "sender", str sender)]

/-- An envelope of either kind. -/
structure Item where
  id : Nat
  address : Address
  kind : Kind
  payload : String
  expiresAt : Option Nat
  createdAt : Nat
deriving DecidableEq, Repr

def Envelope.item (e : Envelope) : Item :=
  ⟨e.id, .user e.sender e.recipient, e.kind, e.payload, e.expiresAt, e.createdAt⟩

def GroupEnvelope.item (e : GroupEnvelope) : Item :=
  ⟨e.id, .group e.groupId e.sender, e.kind, e.payload, e.expiresAt, e.createdAt⟩

def Response.items : Response → List Item
  | .envelopes es => es.map Envelope.item
  | .groupEnvelopes es => es.map GroupEnvelope.item
  | _ => []

def Tables.items (t : Tables) : List Item :=
  t.envelopes.map (fun r => (rowToEnvelope r).item) ++
    t.groupEnvelopes.map fun r => (rowToGroupEnvelope r).item

section rendering
variable (R : Runtime) (clock : Nat → Double)

/-- The dictionary of `_row_to_envelope`, `_row_to_group_envelope` and the two
storing functions. Times are floats. -/
def Item.json (i : Item) (payload : Json) : Json :=
  .object ((key "id", .number (.int i.id)) :: i.address.fields ++
    [(key "kind", i.kind.json), (key "payload", payload),
      (key "expires_at", match i.expiresAt with
        | none => .null
        | some at_ => .number (.finite (clock at_))),
      (key "created_at", .number (.finite (clock i.createdAt)))])

/-- The value of a history response, unless a stored text cannot be read. -/
def history (r : Response) : Option Json :=
  (r.items.mapM fun i => (loads R.doubles (text i.payload.toList)).map (i.json clock)).map .array

/-- The text of a response; `allowNan` is an option of `json.dumps`. -/
def render (allowNan : Bool) (v : Json) : Option (List Char) :=
  if allowNan || every Json.numeric v then encode (write R.doubles compact v) else none

/-- The text of a WebSocket frame. -/
def frame (v : Json) : Option (List Char) := encode (write R.doubles compact v)

/-- What a client gets out of a history response. -/
def readHistory (allowNan : Bool) (r : Response) : Option Json :=
  (history R clock r).bind fun v => (render R allowNan v).bind fun cs =>
    parse R.doubles false (text cs)

end rendering

@[simp] theorem key_inj {a b : String} : key a = key b ↔ a = b := by
  refine ⟨fun h => String.toList_inj.mp (text_injective h), congrArg key⟩

section items
variable {R : Runtime} {clock : Nat → Double}

theorem Item.json_legible (i : Item) (v : Json) :
    every Json.legible (i.json clock v) = every Json.legible v := by
  have hkey (k : String) : (key k).all CodePoint.isScalar = true := all_text _
  have hstr (s : String) : every (Json.spelled ofScalars) (str s) = true := all_text _
  obtain ⟨id, address, kind, payload, expiresAt, createdAt⟩ := i
  cases address <;> cases kind <;> cases expiresAt <;>
    simp [Item.json, Address.fields, Kind.json, every, everyField, Json.legible, Json.spelled,
      ofScalars, hkey, hstr]

theorem Item.json_numeric (i : Item) (v : Json) :
    every Json.numeric (i.json clock v) = every Json.numeric v := by
  obtain ⟨id, address, kind, payload, expiresAt, createdAt⟩ := i
  cases address <;> cases kind <;> cases expiresAt <;>
    simp [Item.json, Address.fields, Kind.json, str, every, everyField, Json.numeric,
      Number.isFinite]

theorem Item.json_built (i : Item) {v : Json} (h : every (Json.built false) v = true) :
    every (Json.built false) (i.json clock v) = true := by
  obtain ⟨id, address, kind, payload, expiresAt, createdAt⟩ := i
  cases address <;> cases kind <;> cases expiresAt <;>
    simp [Item.json, Address.fields, Kind.json, str, every, everyField, Json.built, h]

theorem Item.json_id (i : Item) (v : Json) :
    (i.json clock v).get (key "id") = some (.number (.int i.id)) := by
  simp [Item.json, Json.get]

theorem Item.json_payload (i : Item) (v : Json) : (i.json clock v).get (key "payload") = some v := by
  obtain ⟨id, address, kind, payload, expiresAt, createdAt⟩ := i
  cases address <;> simp [Item.json, Address.fields, Json.get]

end items

/-! `ConnectionManager` -/

/-- `active`; a name without sockets is not in it. -/
structure Manager (W : Type) where
  active : String → List W

namespace Manager
variable {W : Type} [DecidableEq W] (R : Runtime) (opened : W → Bool)

def disconnect (u : String) (ws : W) (m : Manager W) : Manager W :=
  ⟨fun v => if v = u then (m.active v).filter fun w => w != ws else m.active v⟩

/-- `send_json` raises if it cannot encode the message, or on a socket that is
no longer open. -/
def sendTo (u : String) (msg : Json) (m : Manager W) : Manager W :=
  (m.active u).foldl (fun m ws =>
    if opened ws && (frame R msg).isSome then m else m.disconnect u ws) m

def presence (u : String) : Json :=
  .object [(key "type", str "presence"), (key "username", str u), (key "online", .bool true)]

/-- A message of the given type to each of the targets. -/
def push (type : String) (targets : List String) (envelope : Json) (m : Manager W) : Manager W :=
  targets.dedup.foldl (fun m u =>
    m.sendTo R opened u (.object [(key "type", str type), (key "envelope", envelope)])) m

def deliver (sender recipient : String) (envelope : Json) (m : Manager W) : Manager W :=
  let m := m.push R opened "envelope" [recipient, sender] envelope
  if sender ≠ recipient then
    let m := if m.active sender ≠ [] then m.sendTo R opened recipient (presence sender) else m
    if m.active recipient ≠ [] then m.sendTo R opened sender (presence recipient) else m
  else m

def deliverGroup (members : List String) (envelope : Json) (m : Manager W) : Manager W :=
  m.push R opened "group_envelope" members envelope

end Manager

/-! The relay with a list of what was sent through it -/

structure Sent where
  toGroup : Bool
  id : Nat
  payload : List (Text × Json)

/-- Every string of the payload has characters only, and every number a literal. -/
def Sent.clean (x : Sent) : Bool :=
  every Json.legible (.object x.payload) && every Json.numeric (.object x.payload)

def Response.covers (x : Sent) (r : Response) : Bool :=
  r.items.any fun i => i.address.toGroup == x.toGroup && i.id == x.id

structure Exchange where
  service : Service
  sent : List Sent

namespace Exchange

/-- A request with its header and its body, or a pass of the sweep. -/
inductive Event where
  | request (authorization : String) (req : Request) (body : Text) (d : Draws)
  | sweep (graceSeconds now : Nat)

def empty : Exchange := ⟨.empty, []⟩

section relay
variable (R : Runtime) (clock : Nat → Double) (allowNan : Bool)

/-- The envelope that an event posts. -/
def posting (s : Exchange) : Event → Option Sent
  | .request authorization req body d =>
    match req.received R body with
    | none => none
    | some req =>
      match (s.service.handle R authorization req d).1 with
      | .envelope e => some ⟨false, e.id, req.relayed⟩
      | .groupEnvelope e => some ⟨true, e.id, req.relayed⟩
      | _ => none
  | .sweep .. => none

def step (s : Exchange) (a : Event) : Option Exchange :=
  match a with
  | .request authorization req body d =>
    match req.received R body with
    | none => some s
    | some req => (s.service.step R (.request authorization req d)).map fun service =>
        ⟨service, s.sent ++ (s.posting R a).toList⟩
  | .sweep graceSeconds now => some { s with service := s.service.sweep graceSeconds now }

/-- What an event pushes to the sockets. -/
def pushes {W : Type} [DecidableEq W] (opened : W → Bool) (s : Exchange) (m : Manager W) :
    Event → Manager W
  | .request authorization req body d =>
    match req.received R body with
    | none => m
    | some req =>
      match (s.service.handle R authorization req d).1 with
      | .envelope e =>
        m.deliver R opened e.sender e.recipient (e.item.json clock (.object req.relayed))
      | .groupEnvelope e =>
        let members := ((s.service.tables.shown e.groupId).map fun g =>
          g.members.map PublicUser.username).getD []
        m.deliverGroup R opened members (e.item.json clock (.object req.relayed))
      | _ => m
  | .sweep .. => m

/-- What a client gets for an envelope is what was sent. -/
def Tells (r : Response) (x : Sent) : Prop :=
  ∃ vs, readHistory R clock allowNan r = some (.array vs) ∧
    (∃ v ∈ vs, v.get (key "id") = some (.number (.int x.id))) ∧
    ∀ v ∈ vs, v.get (key "id") = some (.number (.int x.id)) →
      v.get (key "payload") = some (.object x.payload)

/-- Every history request tells of all the envelopes it covers. -/
def Answers (s : Exchange) : Prop :=
  ∀ (d : Draws) (me : Account) (req : Request), req.isHistory = true → ∀ x ∈ s.sent,
    (s.service.serve R d me req).1.covers x = true →
      Tells R clock allowNan (s.service.serve R d me req).1 x

/-- Sockets that are open stay registered, and history can be read afterwards. -/
def Harmless (s : Exchange) (a : Event) : Prop :=
  (∀ (W : Type) [DecidableEq W] (opened : W → Bool) (m : Manager W) (u : String) (ws : W),
    opened ws = true → ws ∈ m.active u → ws ∈ (s.pushes R clock opened m a).active u) ∧
  ∀ t, s.step R a = some t → t.Answers R clock allowNan

end relay

end Exchange

end Lattix.Server
