import Lattix.Crypto.Files
import Lattix.Crypto.Messages
import Lattix.Lib.Framing

namespace Lattix.Crypto
open Lib Lib.Json Lib.Framing
open Server (key)

/-- What a signature is bound to: nothing for a conversation of two, the id for
a group. -/
inductive Context where
  | direct
  | group (id : Nat)
deriving DecidableEq, Repr

def Context.text : Context → Text
  | .direct => []
  | .group id => key "g:" ++ Json.text (decimal id)

/-- Three kinds of envelope are signed. -/
inductive Format where
  | message
  | fileV1
  | fileV2
deriving DecidableEq, Repr

def Format.fits (payload : Json) : Format → Bool
  | .message => true
  | .fileV1 => !isFileV2 payload
  | .fileV2 => isFileV2 payload

section transcripts
variable (P : Platform)

/-- What `encryptMessage` signs and `decryptMessage` checks. -/
def messageTranscript (payload : Json) (context : Text) : Option Bytes := do
  let iv ← bytesAt P payload "iv"
  let ct ← bytesAt P payload "ciphertext"
  let keys ← payload.get (key "keys")
  buildTranscript P (enc (key "msg" ++ context)) iv ct keys

/-- What `verifyFilePayload` checks of the first format. -/
def fileV1Transcript (payload : Json) (context : Text) : Option Bytes := do
  let metaBytes := enc (context ++ text (write P.doubles stringify (legacyMeta payload)))
  buildTranscript P metaBytes (← bytesAt P payload "iv") [] (← payload.get (key "keys"))

def transcript (payload : Json) (context : Text) : Format → Option Bytes
  | .message => messageTranscript P payload context
  | .fileV1 => fileV1Transcript P payload context
  | .fileV2 => fileV2Transcript P payload context

/-- What a transcript has of all the names, in order. -/
def keyParts (keys : Json) : Option Bytes := do
  let names ← objectKeys keys
  let parts ← (sortNames names).mapM (keyBytes P keys)
  some parts.flatten

/-- The bytes `t` are signed or verified for a payload with nonces of the usual
length. -/
structure Signed (f : Format) (payload : Json) (c : Context) (t : Bytes) : Prop where
  fits : f.fits payload = true
  transcript : transcript P payload c.text f = some t
  iv : ∃ iv, bytesAt P payload "iv" = some iv ∧ iv.length = 12
  metaIv : f = .fileV2 → ∃ iv, bytesAt P payload "meta_iv" = some iv ∧ iv.length = 12

/-- The nonce begins like the context of a group, `g:` and a digit, and three
bytes or more come after it. -/
def LikeGroup (payload : Json) : Prop :=
  ∃ digit nonce ct keys parts, bytesAt P payload "iv" = some (103 :: 58 :: digit :: nonce) ∧
    48 ≤ digit ∧ digit ≤ 57 ∧ bytesAt P payload "ciphertext" = some ct ∧
    payload.get (key "keys") = some keys ∧ keyParts P keys = some parts ∧
    3 ≤ (ct ++ parts).length

end transcripts

section forms
variable {P : Platform} {payload : Json} {context : Text} {t : Bytes}

theorem enc_append (a b : Text) : enc (a ++ b) = enc a ++ enc b := by
  rw [enc, List.map_append, encode_append]
  rfl

theorem buildTranscript_iff {prefixBytes iv ct : Bytes} {keys : Json} :
    buildTranscript P prefixBytes iv ct keys = some t ↔
      ∃ parts, keyParts P keys = some parts ∧ t = prefixBytes ++ iv ++ ct ++ parts := by
  simp only [buildTranscript, keyParts, Option.bind_eq_bind, Option.bind_eq_some_iff,
    Option.some.injEq]
  constructor
  · rintro ⟨names, hn, parts, hp, rfl⟩
    exact ⟨parts.flatten, ⟨names, hn, parts, hp, rfl⟩, rfl⟩
  · rintro ⟨parts, ⟨names, hn, ps, hp, rfl⟩, rfl⟩
    exact ⟨names, hn, ps, hp, rfl⟩

theorem messageTranscript_iff : messageTranscript P payload context = some t ↔
    ∃ iv ct keys parts, bytesAt P payload "iv" = some iv ∧
      bytesAt P payload "ciphertext" = some ct ∧ payload.get (key "keys") = some keys ∧
      keyParts P keys = some parts ∧
      t = enc (key "msg") ++ (enc context ++ (iv ++ (ct ++ parts))) := by
  simp only [messageTranscript, Option.bind_eq_bind, Option.bind_eq_some_iff, buildTranscript_iff,
    enc_append, List.append_assoc]
  constructor
  · rintro ⟨iv, hiv, ct, hct, keys, hk, parts, hp, rfl⟩
    exact ⟨iv, ct, keys, parts, hiv, hct, hk, hp, rfl⟩
  · rintro ⟨iv, ct, keys, parts, hiv, hct, hk, hp, rfl⟩
    exact ⟨iv, hiv, ct, hct, keys, hk, parts, hp, rfl⟩

theorem fileV1Transcript_form (h : fileV1Transcript P payload context = some t) :
    ∃ rest, t = enc context ++ 123 :: rest := by
  simp only [fileV1Transcript, Option.bind_eq_bind, Option.bind_eq_some_iff, buildTranscript_iff,
    enc_append] at h
  obtain ⟨iv, -, keys, -, parts, -, rfl⟩ := h
  obtain ⟨fs, hfs⟩ : ∃ fs, legacyMeta payload = .object fs := ⟨_, rfl⟩
  obtain ⟨cs, hcs⟩ : ∃ cs, write P.doubles stringify (legacyMeta payload) = '{' :: cs := by
    rw [hfs]
    cases fs with
    | nil => exact ⟨_, rfl⟩
    | cons f fs => exact ⟨_, rfl⟩
  have hb : enc (text ('{' :: cs)) = 123 :: enc (text cs) := by
    rw [enc_text, enc_text]
    rfl
  refine ⟨enc (text cs) ++ (iv ++ parts), ?_⟩
  rw [hcs, hb]
  simp only [List.append_assoc, List.cons_append, List.nil_append]

/-- The prefix of the second format, with its terminated context. -/
theorem enc_fileV2 (context : Text) : enc (key "lattix-file-v2" ++
    CodePoint.scalar (Char.ofNat 0) :: (context ++ [CodePoint.scalar (Char.ofNat 0)])) =
      enc (key "lattix-file-v2") ++ 0 :: (enc context ++ [0]) := by
  have hnul (r : Text) : enc (CodePoint.scalar (Char.ofNat 0) :: r) = 0 :: enc r := by
    rw [← List.singleton_append, enc_append]
    rfl
  rw [enc_append, hnul, enc_append, hnul]
  rfl

theorem fileV2Transcript_iff : fileV2Transcript P payload context = some t ↔
    ∃ iv metaIv digest metaCt keys parts, bytesAt P payload "iv" = some iv ∧
      bytesAt P payload "meta_iv" = some metaIv ∧ bytesAt P payload "ct_sha256" = some digest ∧
      bytesAt P payload "meta_ct" = some metaCt ∧ payload.get (key "keys") = some keys ∧
      keyParts P keys = some parts ∧ t = enc (key "lattix-file-v2") ++
        0 :: (enc context ++ 0 :: (iv ++ (metaIv ++ (digest ++ (metaCt ++ parts))))) := by
  simp only [fileV2Transcript, Option.bind_eq_bind, Option.bind_eq_some_iff, buildTranscript_iff,
    enc_fileV2, List.append_assoc, List.cons_append, List.nil_append]
  constructor
  · rintro ⟨iv, hiv, metaIv, hm, digest, hd, metaCt, hct, keys, hk, parts, hp, rfl⟩
    exact ⟨iv, metaIv, digest, metaCt, keys, parts, hiv, hm, hd, hct, hk, hp, rfl⟩
  · rintro ⟨iv, metaIv, digest, metaCt, keys, parts, hiv, hm, hd, hct, hk, hp, rfl⟩
    exact ⟨iv, hiv, metaIv, hm, digest, hd, metaCt, hct, keys, hk, parts, hp, rfl⟩

section fields
variable (iv ct sig : Bytes) (keys : Json)

theorem messageJson_iv : bytesAt P (messageJson iv ct keys sig) "iv" = some iv :=
  bytesAt_string (by simp [messageJson, Json.get])

theorem messageJson_ciphertext : bytesAt P (messageJson iv ct keys sig) "ciphertext" = some ct :=
  bytesAt_string (by simp [messageJson, Json.get])

theorem messageJson_signature : bytesAt P (messageJson iv ct keys sig) "signature" = some sig :=
  bytesAt_string (by simp [messageJson, Json.get])

theorem messageJson_keys : (messageJson iv ct keys sig).get (key "keys") = some keys := by
  simp [messageJson, Json.get]

end fields

/-- These are the bytes that a message is signed over. -/
theorem encryptMessage_signs {d : MessageDraws} {plaintext secret : Text}
    {recipients : List Recipient}
    (h : encryptMessage P d plaintext recipients secret context = some payload) :
    ∃ t sk sig, messageTranscript P payload context = some t ∧ b64ToBytes secret = some sk ∧
      P.sign sk t d.signing = some sig ∧ bytesAt P payload "signature" = some sig := by
  simp only [encryptMessage, Option.bind_eq_bind, Option.bind_eq_some_iff] at h
  obtain ⟨cek, -, keys, -, t, ht, sk, hsk, sig, hsig, he⟩ := h
  cases he
  refine ⟨t, sk, sig, ?_, hsk, hsig, messageJson_signature ..⟩
  obtain ⟨parts, hp, rfl⟩ := buildTranscript_iff.mp ht
  refine messageTranscript_iff.mpr ⟨_, _, _, parts, messageJson_iv .., messageJson_ciphertext ..,
    messageJson_keys .., hp, ?_⟩
  rw [enc_append]
  simp only [List.append_assoc]

/-- No message is read whose signature is not over them. -/
theorem decryptMessage_verifies {me secret pub : Text} {r : Decrypted}
    (h : decryptMessage P payload me secret pub context = some r) :
    ∃ t pk sig, messageTranscript P payload context = some t ∧ b64ToBytes pub = some pk ∧
      bytesAt P payload "signature" = some sig ∧ P.verify pk t sig = some true := by
  simp only [decryptMessage, Option.bind_eq_bind, Option.bind_eq_some_iff] at h
  obtain ⟨iv, hiv, ct, hct, keys, hk, t, ht, sig, hsig, pk, hpk, ok, hok, h⟩ := h
  refine ⟨t, pk, sig, ?_, hpk, hsig, ?_⟩
  · obtain ⟨parts, hp, rfl⟩ := buildTranscript_iff.mp ht
    refine messageTranscript_iff.mpr ⟨iv, ct, keys, parts, hiv, hct, hk, hp, ?_⟩
    rw [enc_append]
    simp only [List.append_assoc]
  · cases ok with
    | true => exact hok
    | false => cases h

theorem verifyFilePayload_verifies {pub : Text} {ok : Bool}
    (h : verifyFilePayload P payload pub context = some ok) :
    ∃ f t pk sig, f ≠ .message ∧ f.fits payload = true ∧ transcript P payload context f = some t ∧
      b64ToBytes pub = some pk ∧ bytesAt P payload "signature" = some sig ∧
      P.verify pk t sig = some ok := by
  unfold verifyFilePayload at h
  cases hv : isFileV2 payload with
  | true =>
    simp only [hv, if_true, Option.bind_eq_bind, Option.bind_eq_some_iff] at h
    obtain ⟨t, ht, pk, hpk, sig, hsig, hok⟩ := h
    exact ⟨.fileV2, t, pk, sig, nofun, hv, ht, hpk, hsig, hok⟩
  | false =>
    simp only [hv, Bool.false_eq_true, if_false, Option.bind_eq_bind, Option.bind_eq_some_iff] at h
    obtain ⟨iv, hiv, keys, hk, t, ht, pk, hpk, sig, hsig, hok⟩ := h
    refine ⟨.fileV1, t, pk, sig, nofun, by simp [Format.fits, hv], ?_, hpk, hsig, hok⟩
    simp only [transcript, fileV1Transcript, Option.bind_eq_bind, Option.bind_eq_some_iff]
    exact ⟨iv, hiv, keys, hk, ht⟩

end forms

/-! Contexts in bytes -/

theorem decimal_ascii {n : Nat} : ∀ c ∈ decimal n, c.toNat < 128 ∧ 48 ≤ c.toNat ∧ c.toNat ≤ 57 := by
  intro c hc
  have hd := decimal_digits c hc
  simp only [Char.isDigit, Bool.and_eq_true, decide_eq_true_eq, ge_iff_le,
    UInt32.le_iff_toNat_le] at hd
  change 48 ≤ c.toNat ∧ c.toNat ≤ 57 at hd
  omega

theorem decimal_bytes {n : Nat} : ∀ b ∈ Utf8.encode (decimal n), 48 ≤ b ∧ b ≤ 57 := by
  apply encode_forall
  · exact fun c hc => (decimal_ascii c hc).1
  · intro c hc
    have h := decimal_ascii c hc
    simp only [UInt8.le_iff_toNat_le, Nat.toUInt8_eq, UInt8.toNat_ofNat']
    rw [Nat.mod_eq_of_lt (by omega)]
    exact h.2

theorem decimal_injective {n m : Nat} (h : Utf8.encode (decimal n) = Utf8.encode (decimal m)) :
    n = m := by
  rw [← natOf_decimal n, encode_injective h, natOf_decimal]

theorem decimal_bytes_cons (n : Nat) : ∃ b bs, Utf8.encode (decimal n) = b :: bs := by
  apply List.exists_cons_of_ne_nil
  intro he
  obtain ⟨c, cs, hc⟩ := decimal_cons n
  have hnil : decimal n = [] := encode_injective he
  rw [hc] at hnil
  cases hnil

/-- A digit by itself is a number. -/
theorem decimal_digit {b : UInt8} (hl : 48 ≤ b) (hu : b ≤ 57) :
    ∃ n, Utf8.encode (decimal n) = [b] := by
  have hdec : ∀ d < 10, decimal d = [digit d] := by
    intro d hd
    unfold decimal
    split
    · rename_i h
      rw [h]
      rfl
    · rw [Nat.digits_of_lt 10 d ‹_› hd]
      rfl
  have hall : ∀ d < 10, Utf8.encode [digit d] = [(48 + d).toUInt8] := by decide
  simp only [UInt8.le_iff_toNat_le] at hl hu
  change 48 ≤ b.toNat at hl
  change b.toNat ≤ 57 at hu
  refine ⟨b.toNat - 48, ?_⟩
  rw [hdec _ (by omega), hall _ (by omega), Nat.add_sub_cancel' hl]
  simp

namespace Context

theorem enc_group (id : Nat) :
    enc (Context.group id).text = 103 :: 58 :: Utf8.encode (decimal id) := by
  rw [Context.text, enc_append, enc_text]
  rfl

theorem bytes {c : Context} : ∀ b ∈ enc c.text, 48 ≤ b ∧ b ≤ 103 := by
  cases c with
  | direct => exact nofun
  | group id =>
    intro b hb
    rw [enc_group] at hb
    rcases List.mem_cons.mp hb with rfl | hb
    · decide
    · rcases List.mem_cons.mp hb with rfl | hb
      · decide
      · obtain ⟨hl, hu⟩ := decimal_bytes b hb
        exact ⟨hl, UInt8.le_trans hu (by decide)⟩

theorem enc_injective {c d : Context} (h : enc c.text = enc d.text) : c = d := by
  cases c with
  | direct =>
    cases d with
    | direct => rfl
    | group m =>
      rw [enc_group] at h
      cases h
  | group n =>
    cases d with
    | direct =>
      rw [enc_group] at h
      cases h
    | group m =>
      rw [enc_group, enc_group] at h
      rw [decimal_injective (List.cons.inj (List.cons.inj h).2).2]

/-- A context ends where a byte follows that none has. -/
theorem terminated {c d : Context} {x : UInt8} (hx : x < 48 ∨ 103 < x) {s t : Bytes}
    (h : enc c.text ++ x :: s = enc d.text ++ x :: t) : c = d ∧ s = t := by
  have hn (e : Context) : x ∉ enc e.text := by
    intro hm
    obtain ⟨hl, hu⟩ := bytes x hm
    rcases hx with hx | hx
    · exact absurd hl (UInt8.not_le.mpr hx)
    · exact absurd hu (UInt8.not_le.mpr hx)
  obtain ⟨hc, hst⟩ := terminated_inj (hn c) (hn d) h
  exact ⟨enc_injective hc, hst⟩

end Context

/-! One transcript, one format and one context -/

section scopes
variable {P : Platform} {payload other : Json} {c d : Context} {f g : Format} {t : Bytes}

/-- The byte a transcript starts with, by its format. -/
def Format.starts : Format → UInt8 → Bool
  | .message, b => b == 109
  | .fileV1, b => b == 123 || b == 103
  | .fileV2, b => b == 108

theorem Signed.head (h : Signed P f payload c t) : ∃ b bs, t = b :: bs ∧ f.starts b = true := by
  have ht := h.transcript
  cases f with
  | message =>
    obtain ⟨iv, ct, keys, parts, -, -, -, -, rfl⟩ := messageTranscript_iff.mp ht
    exact ⟨109, _, rfl, rfl⟩
  | fileV1 =>
    obtain ⟨rest, rfl⟩ := fileV1Transcript_form ht
    cases c with
    | direct => exact ⟨123, rest, rfl, rfl⟩
    | group id =>
      rw [Context.enc_group]
      exact ⟨103, _, rfl, rfl⟩
  | fileV2 =>
    obtain ⟨iv, metaIv, digest, metaCt, keys, parts, -, -, -, -, -, -, rfl⟩ :=
      fileV2Transcript_iff.mp ht
    exact ⟨108, _, rfl, rfl⟩

theorem Signed.format (h : Signed P f payload c t) (h' : Signed P g other d t) : g = f := by
  obtain ⟨b, bs, rfl, hb⟩ := h.head
  obtain ⟨b', bs', he, hb'⟩ := h'.head
  obtain ⟨rfl, -⟩ := List.cons.inj he
  have hone : ∀ f g : Format, f.starts b = true → g.starts b = true → g = f := by
    intro f g hf hg
    cases f <;> cases g <;> first | rfl | skip
    all_goals
      simp only [Format.starts, Bool.or_eq_true, beq_iff_eq] at hf hg
      rcases hf with rfl | rfl <;> simp at hg
  exact hone f g hb hb'

theorem Signed.fileV1_context (h : Signed P .fileV1 payload c t) (h' : Signed P .fileV1 other d t) :
    d = c := by
  obtain ⟨rest, rfl⟩ := fileV1Transcript_form h.transcript
  obtain ⟨rest', he⟩ := fileV1Transcript_form h'.transcript
  exact (Context.terminated (.inr (by decide)) he).1.symm

theorem Signed.fileV2_context (h : Signed P .fileV2 payload c t) (h' : Signed P .fileV2 other d t) :
    d = c := by
  obtain ⟨iv, metaIv, digest, metaCt, keys, parts, -, -, -, -, -, -, rfl⟩ :=
    fileV2Transcript_iff.mp h.transcript
  obtain ⟨_, _, _, _, _, _, -, -, -, -, -, -, he⟩ := fileV2Transcript_iff.mp h'.transcript
  have he := (List.cons.inj (List.append_cancel_left he)).2
  exact (Context.terminated (.inl (by decide)) he).1.symm

/-- A message without a context is taken for a group's only if it looks like one. -/
theorem Signed.message_context (h : Signed P .message payload .direct t)
    (h' : Signed P .message other d t) (hn : ¬LikeGroup P payload) : d = .direct := by
  cases d with
  | direct => rfl
  | group id =>
    obtain ⟨iv, ct, keys, parts, hiv, hct, hk, hp, rfl⟩ := messageTranscript_iff.mp h.transcript
    obtain ⟨iv', ct', keys', parts', hiv', -, -, -, he⟩ := messageTranscript_iff.mp h'.transcript
    obtain ⟨n, hn', hlen⟩ := h.iv
    obtain ⟨n', hn'', hlen'⟩ := h'.iv
    cases hiv.symm.trans hn'
    cases hiv'.symm.trans hn''
    have he := List.append_cancel_left he
    obtain ⟨b, bs, hb⟩ := decimal_bytes_cons id
    have hd := decimal_bytes b (hb ▸ List.mem_cons_self)
    rw [Context.enc_group, hb] at he
    obtain ⟨x, y, z, nonce, rfl⟩ : ∃ x y z nonce, iv = x :: y :: z :: nonce := by
      match iv, hlen with
      | x :: y :: z :: nonce, _ => exact ⟨x, y, z, nonce, rfl⟩
    have htotal := congrArg List.length he
    obtain ⟨hx, hrest⟩ := List.cons.inj he
    obtain ⟨hy, hrest'⟩ := List.cons.inj hrest
    obtain ⟨hz, -⟩ := List.cons.inj hrest'
    subst hx hy hz
    refine absurd ⟨z, nonce, ct, keys, parts, hiv, hd.1, hd.2, hct, hk, hp, ?_⟩ hn
    simp only [Context.text, List.length_append, List.length_cons] at htotal hlen ⊢
    change 0 + _ = _ at htotal
    omega

/-- The message with this nonce and ciphertext, and a key for nobody. -/
theorem signed_bare (c : Context) (iv : Block 12) (ct : Bytes) :
    Signed P .message (messageJson iv.1 ct (.object []) []) c
      (enc (key "msg") ++ (enc c.text ++ (iv.1 ++ ct))) where
  fits := rfl
  transcript := by
    refine messageTranscript_iff.mpr ⟨iv.1, ct, .object [], [], messageJson_iv ..,
      messageJson_ciphertext .., messageJson_keys .., rfl, ?_⟩
    rw [List.append_nil]
  iv := ⟨iv.1, messageJson_iv .., iv.2⟩
  metaIv := nofun

/-- Twelve bytes are a nonce, and what follows is a ciphertext. -/
theorem signed_cut (c : Context) {bs : Bytes} (h : 12 ≤ bs.length) :
    ∃ other, Signed P .message other c (enc (key "msg") ++ (enc c.text ++ bs)) := by
  have hs := signed_bare (P := P) c ⟨bs.take 12, by simp [h]⟩ (bs.drop 12)
  rw [List.take_append_drop] at hs
  exact ⟨_, hs⟩

/-- What is signed for a file is of one format and for one context. What is
signed for a message is too, if it is for a conversation of two and its nonce
does not begin like the context of a group; no message to a group has a
transcript of its own. -/
theorem scope_bound_iff (h : Signed P f payload c t) :
    (∀ (g : Format) (other : Json) (d : Context), Signed P g other d t → g = f ∧ d = c) ↔
      (f = .message → c = .direct ∧ ¬LikeGroup P payload) := by
  constructor
  · rintro hall rfl
    obtain ⟨iv, ct, keys, parts, hiv, hct, hk, hp, rfl⟩ := messageTranscript_iff.mp h.transcript
    obtain ⟨n, hn, hlen⟩ := h.iv
    cases hiv.symm.trans hn
    have hc : c = .direct := by
      have hl : 12 ≤ (enc c.text ++ (iv ++ (ct ++ parts))).length := by
        simp only [List.length_append]
        omega
      obtain ⟨other, ho⟩ := signed_cut (P := P) .direct hl
      exact (hall _ _ _ ho).2.symm
    refine ⟨hc, ?_⟩
    rintro ⟨b, nonce, ct', keys', parts', hiv', hb, hb', hct', hk', hp', hlong⟩
    cases hiv.symm.trans hiv'
    cases hct.symm.trans hct'
    cases hk.symm.trans hk'
    cases hp.symm.trans hp'
    obtain ⟨id, hid⟩ := decimal_digit hb hb'
    have hl : 12 ≤ (nonce ++ (ct ++ parts)).length := by
      rw [List.length_append]
      simp only [List.length_cons] at hlen
      omega
    obtain ⟨other, ho⟩ := signed_cut (P := P) (.group id) hl
    rw [Context.enc_group, hid] at ho
    subst hc
    exact nomatch (hall _ _ _ ho).2
  · intro hm g other d h'
    obtain rfl := h.format h'
    refine ⟨rfl, ?_⟩
    cases g with
    | message =>
      obtain ⟨rfl, hn⟩ := hm rfl
      exact h.message_context h' hn
    | fileV1 => exact h.fileV1_context h'
    | fileV2 => exact h.fileV2_context h'

end scopes

/-- A message in the clear, of a conversation of two. -/
def bareMessage : Json := messageJson (block 12 7).1 [] (.object []) []

def bareTranscript : Bytes := enc (key "msg") ++ (enc Context.direct.text ++ ((block 12 7).1 ++ []))

theorem bare_message_bound : ¬LikeGroup clear bareMessage ∧
    ∀ (g : Format) (other : Json) (d : Context),
      Signed clear g other d bareTranscript → g = .message ∧ d = .direct := by
  have hn : ¬LikeGroup clear bareMessage := by
    rintro ⟨b, nonce, -, -, -, hiv, -⟩
    have hb : bytesAt clear bareMessage "iv" = some (block 12 7).1 := messageJson_iv ..
    cases hb.symm.trans hiv
  exact ⟨hn, (scope_bound_iff (signed_bare (P := clear) .direct (block 12 7) [])).mpr
    fun _ => ⟨rfl, hn⟩⟩

/-- The nonce takes over the context: what is signed for group 1 is what would be
signed in a conversation of two. -/
theorem scopes_not_always_bound : ¬∀ (f g : Format) (payload other : Json) (c d : Context) (t : Bytes),
    Signed clear f payload c t → Signed clear g other d t → f = g ∧ c = d := by
  intro h
  have hone : Utf8.encode (decimal 1) = [49] := by
    simp only [decimal]
    decide
  have hgroup := signed_bare (P := clear) (.group 1) (block 12 7) []
  have hdirect := signed_bare (P := clear) .direct ⟨[103, 58, 49, 7, 7, 7, 7, 7, 7, 7, 7, 7], rfl⟩
    [7, 7, 7]
  rw [Context.enc_group, hone] at hgroup
  cases (h _ _ _ _ _ _ _ hgroup hdirect).2

end Lattix.Crypto
