import Lattix.Crypto.Envelopes
import Lattix.Server.Readable

namespace Lattix.Crypto
open Lib Lib.Json Lib.Runs
open Server (key str key_inj setDefault filePayload Runtime Request)

/-- What a client gets of a payload that a client sends. It goes in the body of
a request to a handler, which may add to it, then into the database unless it is
pushed at once, and out in a response or a frame. -/
def relayed (Φ : Doubles) (handler : List (Text × Json) → List (Text × Json)) (pushed : Bool)
    (payload : Json) : Option Json := do
  match ← loads Φ (text (write Φ stringify payload)) with
  | .object fs =>
    let stored := Json.object (handler fs)
    let v ← if pushed then some stored else loads Φ (text (dumps Φ stored))
    parse Φ false (text (← encode (write Φ compact v)))
  | _ => none

/-- What the handler of a request to send makes of the payload that it gets. -/
def handlerOf : Request → Option (List (Text × Json) → List (Text × Json))
  | .sendMessage _ | .sendGroupMessage .. => some id
  | .sendFileMessage m => some (filePayload m.fileId m.filename m.mime m.size)
  | .sendGroupFile _ m => some (filePayload m.fileId m.filename m.mime m.size)
  | _ => none

/-- Values that all writers write and all readers read as they are. -/
structure Portable (v : Json) : Prop where
  built : every (Json.built true) v = true
  legible : every Json.legible v = true
  numeric : every Json.numeric v = true

variable {Φ : Doubles}

theorem Portable.parse_stringify {v : Json} (h : Portable v) :
    loads Φ (text (write Φ stringify v)) = some v := by
  have hj : every (Json.spelled joined) v = true := by
    refine every_mono (fun w hw => ?_) v h.legible
    cases w with
    | string s => exact joined_of_ofScalars hw
    | object fs => exact List.all_eq_true.mpr fun f hf =>
        joined_of_ofScalars (List.all_eq_true.mp hw f hf)
    | null | bool | number | array => rfl
  rw [loads, write_widen, parse_write stringify_faithful h.built hj, Bool.or_true, if_pos rfl]

theorem Portable.loads_dumps {v : Json} (h : Portable v) :
    loads Φ (text (dumps Φ v)) = some v :=
  Json.loads_dumps h.built h.legible

theorem Portable.rendered {v : Json} (h : Portable v) :
    (encode (write Φ compact v)).bind (fun cs => parse Φ false (text cs)) = some v := by
  have hb : every (Json.built false) v = true := by
    refine every_mono (fun w hw => ?_) v h.built
    cases w <;> first | exact hw | rfl
  rw [encode_parse hb, h.legible, h.numeric]
  rfl

/-- What is portable before and after the handler arrives as the handler left it. -/
theorem relayed_portable {fs : List (Text × Json)}
    {handler : List (Text × Json) → List (Text × Json)} {pushed : Bool} (h : Portable (.object fs))
    (hh : Portable (.object (handler fs))) :
    relayed Φ handler pushed (.object fs) = some (.object (handler fs)) := by
  have hr := hh.rendered (Φ := Φ)
  cases pushed <;> simpa [relayed, h.parse_stringify, hh.loads_dumps] using hr

theorem portable_string (cs : List Char) : Portable (.string (text cs)) :=
  ⟨rfl, all_text cs, rfl⟩

theorem portable_object {fs : List (Text × Json)} : Portable (.object fs) ↔
    (fs.map Prod.fst).Nodup ∧ ∀ f ∈ fs, ofScalars f.1 = true ∧ Portable f.2 := by
  constructor
  · intro ⟨hb, hl, hn⟩
    simp only [every, Bool.and_eq_true, everyField_iff, Json.built, decide_eq_true_iff,
      Json.legible, Json.spelled, List.all_eq_true] at hb hl hn
    exact ⟨hb.1, fun f hf => ⟨hl.1 f hf, hb.2 f hf, hl.2 f hf, hn.2 f hf⟩⟩
  · intro ⟨hd, hall⟩
    constructor <;> simp only [every, Bool.and_eq_true, everyField_iff, Json.built,
      decide_eq_true_iff, Json.legible, Json.spelled, List.all_eq_true]
    · exact ⟨hd, fun f hf => (hall f hf).2.built⟩
    · exact ⟨fun f hf => (hall f hf).1, fun f hf => (hall f hf).2.legible⟩
    · exact ⟨rfl, fun f hf => (hall f hf).2.numeric⟩

theorem Portable.insert {fs : List (Text × Json)} {k : String} {v : Json} (h : Portable (.object fs))
    (hv : Portable v) : Portable (.object (insert (key k) v fs)) := by
  obtain ⟨hn, hall⟩ := portable_object.mp h
  refine portable_object.mpr ⟨insert_nodup hn, fun f hf => ?_⟩
  rcases mem_insert hf with rfl | hf
  · exact ⟨all_text _, hv⟩
  · exact hall f hf

theorem Portable.setDefault {fs : List (Text × Json)} {k : String} {v : Json}
    (h : Portable (.object fs)) (hv : Portable v) :
    Portable (.object (setDefault (key k) v fs)) := by
  unfold Server.setDefault
  split
  · exact h
  · rename_i hk
    rw [← insert_new hk]
    exact h.insert hv

theorem Portable.filePayload {fs : List (Text × Json)} (h : Portable (.object fs))
    (fileId filename mime : String) {size : Nat} (hs : (Number.int size).small = true) :
    Portable (.object (filePayload fileId filename mime size fs)) := by
  have hsize : Portable (.number (.int size)) := ⟨hs, rfl, rfl⟩
  exact (((h.insert (portable_string _)).setDefault (portable_string _)).setDefault
    (portable_string _)).setDefault hsize

theorem Portable.get {k : Text} {v w : Json} (h : Portable v) (hw : v.get k = some w) : Portable w :=
  ⟨get_every h.built hw, get_every h.legible hw, get_every h.numeric hw⟩

theorem readPayload_stringify {R : Runtime} {body : Json} {payload payload' : List (Text × Json)}
    (hb : Portable body) (hp : body.get (key "payload") = some (.object payload))
    (h : Server.readPayload R (text (write R.doubles stringify body)) = some payload') :
    payload' = payload := by
  rw [Server.readPayload, hb.parse_stringify, Option.bind_some, hp] at h
  split at h
  · rename_i fs heq
    obtain rfl : payload = fs := Json.object.inj (Option.some.inj heq)
    split at h
    · exact (Option.some.inj h).symm
    · cases h
  · rename_i hne
    exact absurd rfl (hne payload)

/-- What the relay stores and pushes of a request that it accepts is what a
client gets. -/
theorem relayed_received {R : Runtime} {body : Json} {payload : List (Text × Json)}
    {req req' : Request} {handler : List (Text × Json) → List (Text × Json)} (hb : Portable body)
    (hp : body.get (key "payload") = some (.object payload)) (hh : handlerOf req = some handler)
    (h : req.received R (text (write R.doubles stringify body)) = some req') (pushed : Bool) :
    relayed R.doubles handler pushed (.object payload) = some (.object req'.relayed) := by
  have hpay := hb.get hp
  unfold Request.received at h
  split at h
  · cases hh
    obtain ⟨p, hr, rfl⟩ := Option.map_eq_some_iff.mp h
    cases readPayload_stringify hb hp hr
    exact relayed_portable hpay hpay
  · cases hh
    split at h
    · rename_i hs
      obtain ⟨p, hr, rfl⟩ := Option.map_eq_some_iff.mp h
      cases readPayload_stringify hb hp hr
      exact relayed_portable hpay (hpay.filePayload _ _ _ hs)
    · cases h
  · cases hh
    obtain ⟨p, hr, rfl⟩ := Option.map_eq_some_iff.mp h
    cases readPayload_stringify hb hp hr
    exact relayed_portable hpay hpay
  · cases hh
    split at h
    · rename_i hs
      obtain ⟨p, hr, rfl⟩ := Option.map_eq_some_iff.mp h
      cases readPayload_stringify hb hp hr
      exact relayed_portable hpay (hpay.filePayload _ _ _ hs)
    · cases h
  · rename_i hmessage hfile hgroup hgroupFile
    cases req with
    | sendMessage m => exact absurd rfl (hmessage m)
    | sendFileMessage m => exact absurd rfl (hfile m)
    | sendGroupMessage g m => exact absurd rfl (hgroup g m)
    | sendGroupFile g m => exact absurd rfl (hgroupFile g m)
    | _ => cases hh

theorem Entry.portable (e : Entry) : Portable e.json := by
  refine portable_object.mpr ⟨by simp, ?_⟩
  simp only [List.forall_mem_cons, List.not_mem_nil, false_implies, implies_true, and_true]
  exact ⟨⟨all_text _, portable_string _⟩, ⟨all_text _, portable_string _⟩,
    all_text _, portable_string _⟩

theorem Keys.Shaped.portable {keys : Keys} (h : keys.Shaped) : Portable keys.json := by
  refine portable_object.mpr ⟨h.order, fun f hf => ?_⟩
  obtain ⟨n, e, -, rfl⟩ := h.entries f ((propertyOrder_perm keys.own).mem_iff.mp hf)
  exact ⟨all_text _, e.portable⟩

end Lattix.Crypto
