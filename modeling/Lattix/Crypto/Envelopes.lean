import Lattix.Crypto.Values

namespace Lattix.Crypto
open Lib Lib.Json Lib.Runs
open Server (key str key_inj)

structure Recipient where
  username : String
  kemPub : Text
deriving DecidableEq, Repr

/-- A value of `payload.keys`. -/
structure Entry where
  kemCt : Bytes
  iv : Bytes
  wrapped : Bytes
deriving DecidableEq, Repr

def Entry.json (e : Entry) : Json :=
  .object [(key "kem_ct", .string (bytesToB64 e.kemCt)), (key "iv", .string (bytesToB64 e.iv)),
    (key "wrapped", .string (bytesToB64 e.wrapped))]

/-- A plain object with its own properties and its prototype, if that is not
`Object.prototype`. -/
structure Keys where
  own : List (Text × Json)
  proto : Option Json

def Keys.empty : Keys := ⟨[], none⟩

/-- `keys[k] = v`: `Object.prototype` has a setter of the name `__proto__`. -/
def Keys.set (k : Text) (v : Json) (keys : Keys) : Keys :=
  if k = key "__proto__" then { keys with proto := some v }
  else { keys with own := insert k v keys.own }

/-- The object as `JSON.stringify` and `Object.keys` see it. -/
def Keys.json (keys : Keys) : Json := .object (propertyOrder keys.own)

section envelopes
variable (P : Platform)

def deriveKek (sharedSecret : Bytes) : AesKey :=
  aes256 (P.hkdf sharedSecret [] (enc (key "lattix-wrap-v1")))

def importAesKey (rawBytes : Bytes) : Option AesKey :=
  if h : rawBytes.length = 16 ∨ rawBytes.length = 24 ∨ rawBytes.length = 32 then
    some ⟨rawBytes, h⟩
  else none

/-- What the transcript has of one name. -/
def keyBytes (keys : Json) (username : Text) : Option Bytes := do
  let k ← property username keys
  some (enc username ++ (← bytesAt P k "kem_ct") ++ (← bytesAt P k "iv") ++
    (← bytesAt P k "wrapped"))

def buildTranscript (prefixBytes ivContent ciphertext : Bytes) (keys : Json) : Option Bytes := do
  let names ← objectKeys keys
  let parts ← (sortNames names).mapM (keyBytes P keys)
  some (prefixBytes ++ ivContent ++ ciphertext ++ parts.flatten)

/-- What is drawn for one recipient: the coins of `encapsulate` and the nonce. -/
abbrev WrapDraw := Block 32 × Block 12

def wrapCek (cekRaw : Bytes) (draw : WrapDraw) (kemPub : Text) : Option Entry := do
  let (kemCt, sharedSecret) ← P.encapsulate (← b64ToBytes kemPub) draw.1
  let wrapped := P.encrypt (deriveKek P sharedSecret) draw.2.1 cekRaw
  some ⟨kemCt, draw.2.1, wrapped⟩

/-- One turn of the loop, which an exception leaves. -/
def wrapStep (cekRaw : Bytes) (draws : Nat → WrapDraw) (keys : Keys) (ri : Recipient × Nat) :
    Option Keys :=
  (wrapCek P cekRaw (draws ri.2) ri.1.kemPub).map fun e => keys.set (key ri.1.username) e.json

def wrapCekForParties (cekRaw : Bytes) (draws : Nat → WrapDraw) (recipients : List Recipient) :
    Option Keys :=
  run (wrapStep P cekRaw draws) .empty recipients.zipIdx

def unwrapCek (keyEntry : Json) (myKemSecretB64 : Text) : Option Bytes := do
  let ss ← P.decapsulate (← bytesAt P keyEntry "kem_ct") (← b64ToBytes myKemSecretB64)
  P.decrypt (deriveKek P ss) (← bytesAt P keyEntry "iv") (← bytesAt P keyEntry "wrapped")

/-- `payload.keys[me]`, unwrapped; it must be there. -/
def openEntry (keys : Json) (me myKemSecretB64 : Text) : Option AesKey := do
  let entry := property me keys
  if truthy entry then importAesKey (← unwrapCek P (← entry) myKemSecretB64) else none

end envelopes

/-! A party of a conversation has a key pair -/

structure Party where
  username : String
  kemSeed : Block 64
deriving DecidableEq

section parties
variable (P : Platform)

def Party.recipient (p : Party) : Recipient := ⟨p.username, bytesToB64 (P.kemKeygen p.kemSeed).1⟩

def Party.kemSecret (p : Party) : Text := bytesToB64 (P.kemKeygen p.kemSeed).2

end parties

/-! A platform on which everything is in the clear -/

def block (n : Nat) (b : UInt8) : Block n := ⟨List.replicate n b, List.length_replicate⟩

def pad32 (bs : Bytes) : Block 32 := ⟨(bs ++ List.replicate 32 0).take 32, by simp⟩

def clear : Platform where
  doubles := .coded
  stringToNumber _ := .nan
  kemKeygen seed := (seed.1, seed.1)
  encapsulate pk coins := some (coins.1, coins.1 ++ pk)
  decapsulate ct sk := some (ct ++ sk)
  dsaKeygen seed := (seed.1, seed.1)
  sign sk msg _ := some (sk ++ msg)
  verify pk msg sig := some (decide (sig = pk ++ msg))
  hkdf ikm _ _ := pad32 ikm
  encrypt k iv pt := k.1 ++ iv ++ pt
  decrypt k iv ct := if k.1 ++ iv <+: ct then some (ct.drop (k.1 ++ iv).length) else none
  sha256 bs := pad32 bs

theorem clear_correct : clear.Correct where
  kem seed coins := ⟨coins.1, coins.1 ++ seed.1, rfl, rfl⟩
  dsa seed msg coins := ⟨seed.1 ++ msg, rfl, congrArg some (decide_eq_true rfl)⟩
  aead k iv pt := by
    have hp : k.1 ++ iv.1 <+: k.1 ++ iv.1 ++ pt := List.prefix_append _ _
    have hd : (k.1 ++ iv.1 ++ pt).drop (k.1 ++ iv.1).length = pt := List.drop_left
    exact (if_pos hp).trans (congrArg some hd)

/-! What wrapping makes -/

section wrapping
variable {P : Platform}

theorem Entry.kem_ct (e : Entry) : bytesAt P e.json "kem_ct" = some e.kemCt :=
  bytesAt_string (by simp [Entry.json, Json.get])

theorem Entry.nonce (e : Entry) : bytesAt P e.json "iv" = some e.iv :=
  bytesAt_string (by simp [Entry.json, Json.get])

theorem Entry.wrappedCek (e : Entry) : bytesAt P e.json "wrapped" = some e.wrapped :=
  bytesAt_string (by simp [Entry.json, Json.get])

/-- Names differ, none is the setter's, and each has an entry. -/
structure Keys.Shaped (keys : Keys) : Prop where
  nodup : (keys.own.map Prod.fst).Nodup
  entries : ∀ f ∈ keys.own, ∃ (n : String) (e : Entry), n ≠ "__proto__" ∧ f = (key n, e.json)

theorem Keys.Shaped.empty : Keys.empty.Shaped := ⟨List.nodup_nil, nofun⟩

theorem Keys.Shaped.set {keys : Keys} (h : keys.Shaped) (n : String) (e : Entry) :
    (keys.set (key n) e.json).Shaped := by
  unfold Keys.set
  split
  · exact ⟨h.nodup, h.entries⟩
  · rename_i hn
    refine ⟨insert_nodup h.nodup, fun f hf => ?_⟩
    rcases mem_insert hf with rfl | hf
    · exact ⟨n, e, fun he => hn (congrArg key he), rfl⟩
    · exact h.entries f hf

theorem wrapStep_shaped {cekRaw : Bytes} {draws : Nat → WrapDraw} (keys : Keys)
    (ri : Recipient × Nat) (keys' : Keys) (h : keys.Shaped)
    (hs : wrapStep P cekRaw draws keys ri = some keys') : keys'.Shaped := by
  obtain ⟨e, -, rfl⟩ := Option.map_eq_some_iff.mp hs
  exact h.set _ e

theorem wrapCekForParties_shaped {cekRaw : Bytes} {draws : Nat → WrapDraw}
    {recipients : List Recipient} {keys : Keys}
    (h : wrapCekForParties P cekRaw draws recipients = some keys) : keys.Shaped :=
  invariant wrapStep_shaped .empty h

/-- A key wrapped for a party is unwrapped by it. -/
theorem wrapCek_party (hP : P.Correct) (cekRaw : Bytes) (draw : WrapDraw) (p : Party) :
    ∃ e, wrapCek P cekRaw draw (p.recipient P).kemPub = some e ∧
      unwrapCek P e.json (p.kemSecret P) = some cekRaw := by
  obtain ⟨kemCt, secret, he, hd⟩ := hP.kem p.kemSeed draw.1
  refine ⟨⟨kemCt, draw.2.1, P.encrypt (deriveKek P secret) draw.2.1 cekRaw⟩, ?_, ?_⟩
  · simp [wrapCek, Party.recipient, b64ToBytes_bytesToB64, he]
  · simp [unwrapCek, Entry.kem_ct, Entry.nonce, Entry.wrappedCek, Party.kemSecret,
      b64ToBytes_bytesToB64, hd, hP.aead]

theorem Keys.set_keeps {keys : Keys} {n : String} {v : Json} {f : Text × Json} (hf : f ∈ keys.own)
    (hn : f.1 ≠ key n) : f ∈ (keys.set (key n) v).own := by
  unfold Keys.set
  split
  · exact hf
  · exact mem_insert_of_ne hf hn

theorem Keys.mem_set (keys : Keys) {n : String} (v : Json) (hn : n ≠ "__proto__") :
    (key n, v) ∈ (keys.set (key n) v).own := by
  unfold Keys.set
  rw [if_neg fun he => hn (key_inj.mp he)]
  exact mem_insert_self _ _ _

/-- What is there already stays, and every party finds the key in its entry. -/
theorem wrap_run (hP : P.Correct) (cekRaw : Bytes) (draws : Nat → WrapDraw) {ps : List Party}
    (hn : (ps.map Party.username).Nodup) (i : Nat) (keys : Keys) :
    ∃ keys', run (wrapStep P cekRaw draws) keys ((ps.map (Party.recipient P)).zipIdx i) = some keys' ∧
      (∀ f ∈ keys.own, (∀ p ∈ ps, f.1 ≠ key p.username) → f ∈ keys'.own) ∧
      ∀ p ∈ ps, p.username ≠ "__proto__" → ∃ e : Entry, (key p.username, e.json) ∈ keys'.own ∧
        unwrapCek P e.json (p.kemSecret P) = some cekRaw := by
  induction ps generalizing i keys with
  | nil => exact ⟨keys, rfl, fun f hf _ => hf, nofun⟩
  | cons p ps ih =>
    obtain ⟨hp, hps⟩ := List.nodup_cons.mp hn
    obtain ⟨e, he, hu⟩ := wrapCek_party hP cekRaw (draws i) p
    obtain ⟨keys', hr, hkeep, hopen⟩ := ih hps (i + 1) (keys.set (key p.username) e.json)
    have hs : wrapStep P cekRaw draws keys (p.recipient P, i) =
        some (keys.set (key p.username) e.json) := by
      rw [wrapStep, he]
      rfl
    refine ⟨keys', run_cons.mpr ⟨_, hs, hr⟩, fun f hf hne => ?_, fun q hq hproto => ?_⟩
    · exact hkeep f (keys.set_keeps hf (hne p List.mem_cons_self)) fun q hq =>
        hne q (List.mem_cons_of_mem _ hq)
    · rcases List.mem_cons.mp hq with rfl | hq
      · refine ⟨e, hkeep _ (keys.mem_set _ hproto) fun r hr he => hp ?_, hu⟩
        exact List.mem_map.mpr ⟨r, hr, (key_inj.mp he).symm⟩
      · exact hopen q hq hproto

theorem importAesKey_block (k : Block 32) : importAesKey k.1 = some (aes256 k) :=
  dif_pos (Or.inr (Or.inr k.2))

theorem Keys.Shaped.order {keys : Keys} (h : keys.Shaped) :
    ((propertyOrder keys.own).map Prod.fst).Nodup :=
  ((propertyOrder_perm keys.own).map Prod.fst).nodup_iff.mpr h.nodup

theorem Keys.Shaped.property {keys : Keys} (h : keys.Shaped) {f : Text × Json} (hf : f ∈ keys.own) :
    property f.1 keys.json = some f.2 :=
  property_of_mem h.order ((propertyOrder_perm keys.own).mem_iff.mpr hf)

/-- The entry of a name that is not the setter's opens for its party. -/
theorem openEntry_party (hP : P.Correct) (cekRaw : Block 32) (draws : Nat → WrapDraw)
    {ps : List Party} (hn : (ps.map Party.username).Nodup) :
    ∃ keys, wrapCekForParties P cekRaw.1 draws (ps.map (Party.recipient P)) = some keys ∧
      ∀ p ∈ ps, p.username ≠ "__proto__" →
        openEntry P keys.json (key p.username) (p.kemSecret P) = some (aes256 cekRaw) := by
  obtain ⟨keys, hr, -, hopen⟩ := wrap_run hP cekRaw.1 draws hn 0 .empty
  refine ⟨keys, hr, fun p hp hproto => ?_⟩
  obtain ⟨e, he, hu⟩ := hopen p hp hproto
  have hprop := (wrapCekForParties_shaped hr).property he
  have ht : truthy (some e.json) = true := rfl
  rw [openEntry, hprop]
  simp [ht, hu, importAesKey_block]

/-- What `keys.__proto__` gives has no wrapped key. -/
theorem openEntry_proto {keys : Keys} (h : keys.Shaped) (myKemSecretB64 : Text) :
    openEntry P keys.json (key "__proto__") myKemSecretB64 = none := by
  have hn : key "__proto__" ∉ (propertyOrder keys.own).map Prod.fst := by
    intro hmem
    obtain ⟨f, hf, hk⟩ := List.mem_map.mp hmem
    obtain ⟨n, e, hne, rfl⟩ := h.entries f ((propertyOrder_perm keys.own).mem_iff.mp hf)
    exact hne (key_inj.mp hk)
  have hprop : property (key "__proto__") keys.json = some (.object []) :=
    property_inherited hn (List.contains_iff_mem.mpr List.mem_cons_self)
  have hkem : bytesAt P (.object []) "kem_ct" = none := bytesAt_missing rfl
  rw [openEntry, hprop]
  simp [truthy, unwrapCek, hkem]

theorem mem_sortNames {names : List Text} {n : Text} : n ∈ sortNames names ↔ n ∈ names :=
  (List.perm_insertionSort _ names).mem_iff

/-- There is a transcript of what was wrapped. -/
theorem Keys.Shaped.transcript {keys : Keys} (h : keys.Shaped)
    (prefixBytes ivContent ciphertext : Bytes) :
    ∃ t, buildTranscript P prefixBytes ivContent ciphertext keys.json = some t := by
  have hk : objectKeys keys.json = some ((propertyOrder (propertyOrder keys.own)).map Prod.fst) := rfl
  have hparts : ∀ n ∈ sortNames ((propertyOrder (propertyOrder keys.own)).map Prod.fst),
      keyBytes P keys.json n = some ((keyBytes P keys.json n).getD []) := by
    intro n hn
    obtain ⟨f, hf, rfl⟩ := List.mem_map.mp (mem_sortNames.mp hn)
    have hf' := (propertyOrder_perm _).mem_iff.mp ((propertyOrder_perm _).mem_iff.mp hf)
    obtain ⟨m, e, -, rfl⟩ := h.entries f hf'
    have hb : keyBytes P keys.json (key m) =
        some (enc (key m) ++ e.kemCt ++ e.iv ++ e.wrapped) := by
      simp [keyBytes, h.property hf', Entry.kem_ct, Entry.nonce, Entry.wrappedCek]
    rw [hb, Option.getD_some]
  rw [buildTranscript, hk]
  simp [mapM_of_some hparts]

end wrapping

end Lattix.Crypto
