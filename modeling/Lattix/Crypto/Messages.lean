import Lattix.Crypto.Relayed

namespace Lattix.Crypto
open Lib Lib.Json Lib.Runs
open Server (key str key_inj)

structure MessageDraws where
  cek : Block 32
  iv : Block 12
  wraps : Nat → WrapDraw
  signing : Block 32

/-- The payload of a message. -/
def messageJson (iv ciphertext : Bytes) (keys : Json) (signature : Bytes) : Json :=
  .object [(key "iv", .string (bytesToB64 iv)), (key "ciphertext", .string (bytesToB64 ciphertext)),
    (key "keys", keys), (key "signature", .string (bytesToB64 signature))]

structure Decrypted where
  text : Text
  verified : Bool
deriving DecidableEq, Repr

section messages
variable (P : Platform)

def encryptMessage (d : MessageDraws) (plaintext : Text) (recipients : List Recipient)
    (senderDsaSecretB64 context : Text) : Option Json := do
  let cek ← importAesKey d.cek.1
  let ct := P.encrypt cek d.iv.1 (enc plaintext)
  let keys ← wrapCekForParties P d.cek.1 d.wraps recipients
  let transcript ← buildTranscript P (enc (key "msg" ++ context)) d.iv.1 ct keys.json
  let signature ← P.sign (← b64ToBytes senderDsaSecretB64) transcript d.signing
  some (messageJson d.iv.1 ct keys.json signature)

def decryptMessage (payload : Json) (myUsername myKemSecretB64 senderDsaPubB64 context : Text) :
    Option Decrypted := do
  let iv ← bytesAt P payload "iv"
  let ct ← bytesAt P payload "ciphertext"
  let keys ← payload.get (key "keys")
  let transcript ← buildTranscript P (enc (key "msg" ++ context)) iv ct keys
  let signature ← bytesAt P payload "signature"
  if ← P.verify (← b64ToBytes senderDsaPubB64) transcript signature then
    let cek ← openEntry P keys myUsername myKemSecretB64
    let pt ← P.decrypt cek iv ct
    some ⟨dec pt, true⟩
  else none

end messages

/-- White space and line ends; a byte order mark counts as one. -/
def isWhite (c : Char) : Bool :=
  c.toNat ∈ [9, 10, 11, 12, 13, 32, 0xA0, 0x1680, 0x2028, 0x2029, 0x202F, 0x205F, 0x3000, 0xFEFF] ||
    0x2000 ≤ c.toNat && c.toNat ≤ 0x200A

/-- `s.trim()` -/
def trim (cs : List Char) : List Char :=
  ((cs.dropWhile isWhite).reverse.dropWhile isWhite).reverse

/-- Everybody a message is for reads it as it was written, and verified. -/
def ReadByAll (P : Platform) (d : MessageDraws) (sender : Block 32) (ps : List Party) (cs : List Char)
    (context : Text) (pushed : Bool) : Prop :=
  ∃ payload received,
    encryptMessage P d (text cs) (ps.map (Party.recipient P)) (bytesToB64 (P.dsaKeygen sender).2)
      context = some payload ∧
    relayed P.doubles id pushed payload = some received ∧
    ∀ p ∈ ps, decryptMessage P received (key p.username) (p.kemSecret P)
      (bytesToB64 (P.dsaKeygen sender).1) context = some ⟨text cs, true⟩

section reading
variable {P : Platform}

theorem trim_head {cs : List Char} (h : trim cs = cs) : cs.head? ≠ some byteOrderMark := by
  cases cs with
  | nil => exact nofun
  | cons c cs =>
    intro hc
    obtain rfl : c = byteOrderMark := Option.some.inj hc
    -- Something is dropped, so that the rest is shorter than it was.
    have hw : isWhite byteOrderMark = true := by decide
    have hlen := congrArg List.length h
    have hback := (List.dropWhile_sublist isWhite
      (l := (cs.dropWhile isWhite).reverse)).length_le
    have hfront := (List.dropWhile_sublist isWhite (l := cs)).length_le
    rw [trim, List.dropWhile_cons, if_pos hw, List.length_reverse, List.length_cons] at hlen
    rw [List.length_reverse] at hback
    omega

theorem messageJson_portable {keys : Keys} (h : keys.Shaped) (iv ct signature : Bytes) :
    Portable (messageJson iv ct keys.json signature) := by
  refine portable_object.mpr ⟨by simp, ?_⟩
  simp only [List.forall_mem_cons, List.not_mem_nil, false_implies, implies_true, and_true]
  exact ⟨⟨all_text _, portable_string _⟩, ⟨all_text _, portable_string _⟩,
    ⟨all_text _, h.portable⟩, all_text _, portable_string _⟩

/-- A message as it was made arrives as it was made. -/
theorem messageJson_relayed {keys : Keys} (h : keys.Shaped) (iv ct signature : Bytes) (pushed : Bool) :
    relayed P.doubles id pushed (messageJson iv ct keys.json signature) =
      some (messageJson iv ct keys.json signature) :=
  relayed_portable (messageJson_portable h _ _ _) (messageJson_portable h _ _ _)

/-- What the receiver does with a message's own fields. -/
theorem decryptMessage_json {iv ct signature : Bytes} {keys : Json} {me secret pub context : Text} :
    decryptMessage P (messageJson iv ct keys signature) me secret pub context = (do
      let transcript ← buildTranscript P (enc (key "msg" ++ context)) iv ct keys
      if ← P.verify (← b64ToBytes pub) transcript signature then
        let cek ← openEntry P keys me secret
        let pt ← P.decrypt cek iv ct
        some ⟨dec pt, true⟩
      else none) := by
  have hget (k : String) (bs : Bytes)
      (h : (messageJson iv ct keys signature).get (key k) = some (.string (bytesToB64 bs))) :
      bytesAt P (messageJson iv ct keys signature) k = some bs := bytesAt_string h
  have hk : (messageJson iv ct keys signature).get (key "keys") = some keys := by
    simp [messageJson, Json.get]
  rw [decryptMessage, hget "iv" iv (by simp [messageJson, Json.get]),
    hget "ciphertext" ct (by simp [messageJson, Json.get]),
    hget "signature" signature (by simp [messageJson, Json.get]), hk]
  rfl

theorem decryptMessage_party {cek : AesKey} {iv : Block 12} {transcript signature : Bytes}
    {keys : Json} {me secret context : Text} {sender : Block 32} {cs : List Char} (hP : P.Correct)
    (hcs : trim cs = cs) (ht : buildTranscript P (enc (key "msg" ++ context)) iv.1
      (P.encrypt cek iv.1 (enc (text cs))) keys = some transcript)
    (hv : P.verify (P.dsaKeygen sender).1 transcript signature = some true)
    (ho : openEntry P keys me secret = some cek) :
    decryptMessage P (messageJson iv.1 (P.encrypt cek iv.1 (enc (text cs))) keys signature) me secret
      (bytesToB64 (P.dsaKeygen sender).1) context = some ⟨text cs, true⟩ := by
  rw [decryptMessage_json, ht]
  simp [b64ToBytes_bytesToB64, hv, ho, hP.aead, dec_enc (trim_head hcs)]

/-- Nobody is called `__proto__` to the receiver. -/
theorem decryptMessage_proto {iv ct signature : Bytes} {keys : Keys} {secret pub context : Text}
    (h : keys.Shaped) :
    decryptMessage P (messageJson iv ct keys.json signature) (key "__proto__") secret pub context =
      none := by
  rw [decryptMessage_json, openEntry_proto h]
  simp only [Option.bind_eq_bind, Option.bind_none, ite_self, Option.bind_fun_none]

theorem read_of_ne (hP : P.Correct) (d : MessageDraws) (sender : Block 32) {ps : List Party}
    (hn : (ps.map Party.username).Nodup) {cs : List Char} (hcs : trim cs = cs) (context : Text)
    (pushed : Bool) (hproto : "__proto__" ∉ ps.map Party.username) :
    ReadByAll P d sender ps cs context pushed := by
  obtain ⟨keys, hk, hopen⟩ := openEntry_party hP d.cek d.wraps hn
  have hs := wrapCekForParties_shaped hk
  obtain ⟨transcript, ht⟩ := hs.transcript (P := P) (enc (key "msg" ++ context)) d.iv.1
    (P.encrypt (aes256 d.cek) d.iv.1 (enc (text cs)))
  obtain ⟨signature, hsig, hv⟩ := hP.dsa sender transcript d.signing
  have he : encryptMessage P d (text cs) (ps.map (Party.recipient P))
      (bytesToB64 (P.dsaKeygen sender).2) context =
      some (messageJson d.iv.1 (P.encrypt (aes256 d.cek) d.iv.1 (enc (text cs))) keys.json signature) := by
    simp [encryptMessage, importAesKey_block, hk, ht, b64ToBytes_bytesToB64, hsig]
  refine ⟨_, _, he, messageJson_relayed hs _ _ _ pushed, fun p hp => ?_⟩
  apply decryptMessage_party hP hcs ht hv
  exact hopen p hp fun hname => hproto (List.mem_map.mpr ⟨p, hp, hname⟩)

theorem not_read_proto {d : MessageDraws} {sender : Block 32} {ps : List Party} {cs : List Char}
    {context : Text} {pushed : Bool} (hproto : "__proto__" ∈ ps.map Party.username) :
    ¬ ReadByAll P d sender ps cs context pushed := by
  rintro ⟨payload, received, he, hr, hall⟩
  obtain ⟨p, hp, hname⟩ := List.mem_map.mp hproto
  simp only [encryptMessage, importAesKey_block, Option.bind_eq_bind, Option.bind_eq_some_iff] at he
  obtain ⟨_, -, keys, hk, transcript, -, _, -, signature, -, he⟩ := he
  cases he
  have hs := wrapCekForParties_shaped hk
  rw [messageJson_relayed hs] at hr
  cases hr
  have hnone := hall p hp
  rw [hname, decryptMessage_proto hs] at hnone
  cases hnone

end reading

/-- A message comes round to everybody unless one of them is `__proto__`. -/
theorem read_by_all_iff {P : Platform} (hP : P.Correct) (d : MessageDraws) (sender : Block 32)
    {ps : List Party} (hn : (ps.map Party.username).Nodup) {cs : List Char} (hcs : trim cs = cs)
    (context : Text) (pushed : Bool) :
    ReadByAll P d sender ps cs context pushed ↔ "__proto__" ∉ ps.map Party.username :=
  ⟨fun h hproto => not_read_proto hproto h, read_of_ne hP d sender hn hcs context pushed⟩

def someDraws : MessageDraws where
  cek := block 32 1
  iv := block 12 2
  wraps i := (block 32 (UInt8.ofNat i), block 12 3)
  signing := block 32 4

theorem read_by_all_alice_bob :
    ReadByAll clear someDraws (block 32 5) [⟨"alice", block 64 6⟩, ⟨"bob", block 64 7⟩] ['h', 'i'] []
      false :=
  (read_by_all_iff clear_correct someDraws (block 32 5) (by simp) (by decide) [] false).mpr
    (by simp)

/-- The relay admits the name, and its owner cannot read a message. -/
theorem proto_not_read : Server.isUsername "__proto__" = true ∧
    ["alice", "__proto__"].Nodup ∧ clear.Correct ∧ trim ['h', 'i'] = ['h', 'i'] ∧
    ¬ ReadByAll clear someDraws (block 32 5) [⟨"alice", block 64 6⟩, ⟨"__proto__", block 64 7⟩]
      ['h', 'i'] [] false :=
  ⟨by decide, by simp, clear_correct, by decide, not_read_proto (by simp)⟩

end Lattix.Crypto
