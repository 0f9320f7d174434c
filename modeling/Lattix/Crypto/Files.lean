import Lattix.Crypto.Relayed

namespace Lattix.Crypto
open Lib Lib.Json Lib.Runs
open Server (key str key_inj filePayload setDefault)

structure FileDraws where
  cek : Block 32
  iv : Block 12
  metaIv : Block 12
  wraps : Nat → WrapDraw
  signing : Block 32

/-- What a sender says about a file. -/
structure Meta where
  filename : JsString
  mime : JsString
  size : Nat

def Meta.json (m : Meta) : Json :=
  .object [(key "filename", .string m.filename.1), (key "mime", .string m.mime.1),
    (key "size", .number (.int m.size))]

/-- The payload before it is signed. -/
def fileFields (iv metaIv metaCt ctSha256 : Bytes) (keys : Json) : List (Text × Json) :=
  [(key "v", .number (.int 2)), (key "iv", .string (bytesToB64 iv)),
    (key "meta_iv", .string (bytesToB64 metaIv)), (key "meta_ct", .string (bytesToB64 metaCt)),
    (key "ct_sha256", .string (bytesToB64 ctSha256)), (key "keys", keys)]

/-- What a receiver is told about a file. -/
structure FileMeta where
  filename : Text
  mime : Text
  size : Number
deriving DecidableEq, Repr

structure Opened where
  metadata : FileMeta
  verified : Bool
  legacy : Bool
deriving DecidableEq, Repr

def isTwo : Number → Bool
  | .int n => n == 2
  | .finite x => !x.negative && x.exponent.val == 1024 && x.fraction.val == 0
  | .infinity _ | .nan => false

def isFileV2 (payload : Json) : Bool :=
  match payload.get (key "v"), payload.get (key "meta_ct") with
  | some (.number n), some (.string _) => isTwo n
  | _, _ => false

section files
variable (P : Platform)

def fileV2Transcript (payload : Json) (context : Text) : Option Bytes := do
  let nul := CodePoint.scalar (Char.ofNat 0)
  let prefixBytes := enc (key "lattix-file-v2" ++ nul :: context ++ [nul])
  let fixed := (← bytesAt P payload "iv") ++ (← bytesAt P payload "meta_iv") ++
    (← bytesAt P payload "ct_sha256")
  buildTranscript P prefixBytes fixed (← bytesAt P payload "meta_ct") (← payload.get (key "keys"))

def encryptFile (d : FileDraws) (fileBytes : Bytes) (m : Meta) (recipients : List Recipient)
    (senderDsaSecretB64 context : Text) : Option (Bytes × Json) := do
  let cek ← importAesKey d.cek.1
  let cipherBytes := P.encrypt cek d.iv.1 fileBytes
  let metaCt := P.encrypt cek d.metaIv.1 (enc (text (write P.doubles stringify m.json)))
  let keys ← wrapCekForParties P d.cek.1 d.wraps recipients
  let payload := fileFields d.iv.1 d.metaIv.1 metaCt (P.sha256 cipherBytes) keys.json
  let transcript ← fileV2Transcript P (.object payload) context
  let signature ← P.sign (← b64ToBytes senderDsaSecretB64) transcript d.signing
  some (cipherBytes, .object (payload ++ [(key "signature", .string (bytesToB64 signature))]))

/-- The metadata that a payload of the first format has; what is `undefined` is
left out. -/
def legacyMeta (payload : Json) : Json :=
  .object (["filename", "mime", "size"].filterMap fun k =>
    (payload.get (key k)).map fun v => (key k, v))

def verifyFilePayload (payload : Json) (senderDsaPubB64 context : Text) : Option Bool := do
  let transcript ←
    if isFileV2 payload then fileV2Transcript P payload context
    else
      let metaBytes := enc (context ++ text (write P.doubles stringify (legacyMeta payload)))
      buildTranscript P metaBytes (← bytesAt P payload "iv") [] (← payload.get (key "keys"))
  P.verify (← b64ToBytes senderDsaPubB64) transcript (← bytesAt P payload "signature")

def fileMeta (m : Json) : FileMeta where
  filename := stringOr P "file" (m.get (key "filename"))
  mime := stringOr P "" (m.get (key "mime"))
  size := numberOrZero P (m.get (key "size"))

def openFilePayload (payload : Json) (myUsername myKemSecretB64 senderDsaPubB64 context : Text) :
    Option Opened := do
  let verified ← verifyFilePayload P payload senderDsaPubB64 context
  if isFileV2 payload then
    if verified then
      let cek ← openEntry P (← payload.get (key "keys")) myUsername myKemSecretB64
      let raw ← P.decrypt cek (← bytesAt P payload "meta_iv") (← bytesAt P payload "meta_ct")
      match ← parse P.doubles false (dec raw) with
      | .null => none
      | m => some ⟨fileMeta P m, true, false⟩
    else none
  else some ⟨fileMeta P payload, verified, true⟩

/-- `got === payload.ct_sha256` -/
def sameDigest (payload : Json) (cipherBytes : Bytes) : Bool :=
  match payload.get (key "ct_sha256") with
  | some (.string s) => s == bytesToB64 (P.sha256 cipherBytes)
  | _ => false

def decryptFile (cipherBytes : Bytes) (payload : Json)
    (myUsername myKemSecretB64 senderDsaPubB64 context : Text) : Option Bytes := do
  let verified ← verifyFilePayload P payload senderDsaPubB64 context
  if verified && (!isFileV2 payload || sameDigest P payload cipherBytes) then
    let cek ← openEntry P (← payload.get (key "keys")) myUsername myKemSecretB64
    P.decrypt cek (← bytesAt P payload "iv") cipherBytes
  else none

end files

/-! Fields of a payload -/

/-- The fields of the second format, whatever else is there. -/
structure FileFields (fs : List (Text × Json)) (iv metaIv metaCt ctSha256 : Bytes) (keys : Json) :
    Prop where
  nodup : (fs.map Prod.fst).Nodup
  v : (key "v", .number (.int 2)) ∈ fs
  iv : (key "iv", .string (bytesToB64 iv)) ∈ fs
  metaIv : (key "meta_iv", .string (bytesToB64 metaIv)) ∈ fs
  metaCt : (key "meta_ct", .string (bytesToB64 metaCt)) ∈ fs
  ctSha256 : (key "ct_sha256", .string (bytesToB64 ctSha256)) ∈ fs
  keys : (key "keys", keys) ∈ fs

section fields
variable {P : Platform} {fs gs : List (Text × Json)} {iv metaIv metaCt ctSha256 : Bytes}
  {keys : Json}

theorem get_of_mem {k : Text} {v : Json} (hn : (fs.map Prod.fst).Nodup) (h : (k, v) ∈ fs) :
    Json.get k (.object fs) = some v := by
  rw [Json.get, find_key hn h, Option.map_some]

theorem bytesAt_of_mem {k : String} {bs : Bytes} (hn : (fs.map Prod.fst).Nodup)
    (h : (key k, .string (bytesToB64 bs)) ∈ fs) : bytesAt P (.object fs) k = some bs :=
  bytesAt_string (get_of_mem hn h)

/-- What is added leaves them alone. -/
theorem FileFields.mono (h : FileFields fs iv metaIv metaCt ctSha256 keys)
    (hn : (gs.map Prod.fst).Nodup) (hsub : ∀ f ∈ fs, f.1 ≠ key "file_id" → f ∈ gs) :
    FileFields gs iv metaIv metaCt ctSha256 keys where
  nodup := hn
  v := hsub _ h.v (by simp)
  iv := hsub _ h.iv (by simp)
  metaIv := hsub _ h.metaIv (by simp)
  metaCt := hsub _ h.metaCt (by simp)
  ctSha256 := hsub _ h.ctSha256 (by simp)
  keys := hsub _ h.keys (by simp)

theorem FileFields.isFileV2 (h : FileFields fs iv metaIv metaCt ctSha256 keys) :
    isFileV2 (.object fs) = true := by
  rw [Crypto.isFileV2, get_of_mem h.nodup h.v, get_of_mem h.nodup h.metaCt]
  rfl

theorem FileFields.transcript (h : FileFields fs iv metaIv metaCt ctSha256 keys) (context : Text) :
    fileV2Transcript P (.object fs) context =
      buildTranscript P (enc (key "lattix-file-v2" ++ CodePoint.scalar (Char.ofNat 0) :: context ++
        [CodePoint.scalar (Char.ofNat 0)])) (iv ++ metaIv ++ ctSha256) metaCt keys := by
  rw [fileV2Transcript, bytesAt_of_mem h.nodup h.iv, bytesAt_of_mem h.nodup h.metaIv,
    bytesAt_of_mem h.nodup h.ctSha256, bytesAt_of_mem h.nodup h.metaCt, get_of_mem h.nodup h.keys]
  rfl

theorem FileFields.digest (h : FileFields fs iv metaIv metaCt ctSha256 keys) (blob : Bytes) :
    sameDigest P (.object fs) blob = decide (P.sha256 blob = ctSha256) := by
  rw [sameDigest, get_of_mem h.nodup h.ctSha256]
  change (bytesToB64 ctSha256 == bytesToB64 (P.sha256 blob)) = _
  rw [Bool.beq_eq_decide_eq]
  refine decide_eq_decide.mpr ⟨fun he => ?_, fun he => by rw [he]⟩
  exact (Base64.encode_injective (text_injective he)).symm

/-- A blob of another digest is refused, whoever opens it and however. -/
theorem FileFields.refuses (h : FileFields fs iv metaIv metaCt ctSha256 keys) {blob : Bytes}
    (hb : P.sha256 blob ≠ ctSha256) (me secret pub context : Text) :
    decryptFile P blob (.object fs) me secret pub context = none := by
  rw [decryptFile, h.digest, decide_eq_false hb, h.isFileV2]
  simp

end fields

/-! What the relay adds -/

section added
variable {fs : List (Text × Json)}

theorem mem_setDefault {k : Text} {v : Json} {f : Text × Json} (hf : f ∈ fs) :
    f ∈ setDefault k v fs := by
  unfold setDefault
  split
  · exact hf
  · exact List.mem_append_left _ hf

theorem mem_filePayload (fileId filename mime : String) (size : Nat) {f : Text × Json} (hf : f ∈ fs)
    (hk : f.1 ≠ key "file_id") : f ∈ filePayload fileId filename mime size fs :=
  mem_setDefault (mem_setDefault (mem_setDefault (mem_insert_of_ne hf hk)))

end added

/-! What a receiver makes of it -/

section opening
variable {P : Platform}

theorem Meta.parse_json (m : Meta) :
    parse P.doubles false (dec (enc (text (write P.doubles stringify m.json)))) = some m.json := by
  have hhead : (write P.doubles stringify m.json).head? = some '{' := rfl
  have hmark : (write P.doubles stringify m.json).head? ≠ some byteOrderMark := by
    rw [hhead]
    decide
  have hb : every (Json.built false) m.json = true := by
    simp [Meta.json, every, everyField, Json.built]
  have hj : every (Json.spelled joined) m.json = true := by
    have hkey (k : String) : joined (key k) = true := joined_of_ofScalars (all_text _)
    simp [Meta.json, every, everyField, Json.spelled, hkey, m.filename.2, m.mime.2]
  have hn : every Json.numeric m.json = true := rfl
  rw [dec_enc hmark, write_widen, parse_write stringify_faithful hb hj, hn]
  rfl

theorem fileMeta_json {m : Meta} (hname : m.filename.1 ≠ []) :
    fileMeta P m.json = ⟨m.filename.1, m.mime.1, .int m.size⟩ := by
  have hf : m.json.get (key "filename") = some (.string m.filename.1) := by
    simp [Meta.json, Json.get]
  have hm : m.json.get (key "mime") = some (.string m.mime.1) := by simp [Meta.json, Json.get]
  have hs : m.json.get (key "size") = some (.number (.int m.size)) := by
    simp [Meta.json, Json.get]
  have hmime : stringOr P "" (some (.string m.mime.1)) = m.mime.1 := by
    cases h : m.mime.1 <;> rfl
  have hsize : numberOrZero P (some (.number (.int m.size))) = .int m.size := by
    cases h : m.size <;> rfl
  have hfile : stringOr P "file" (some (.string m.filename.1)) = m.filename.1 := by
    cases h : m.filename.1 with
    | nil => exact absurd h hname
    | cons c cs => rfl
  rw [fileMeta, hf, hm, hs, hmime, hsize, hfile]

theorem FileFields.verify {fs : List (Text × Json)} {iv metaIv metaCt ctSha256 : Bytes} {keys : Json}
    (h : FileFields fs iv metaIv metaCt ctSha256 keys) {context : Text} {sender : Block 32}
    {transcript signature : Bytes}
    (hs : (key "signature", .string (bytesToB64 signature)) ∈ fs)
    (ht : fileV2Transcript P (.object fs) context = some transcript)
    (hv : P.verify (P.dsaKeygen sender).1 transcript signature = some true) :
    verifyFilePayload P (.object fs) (bytesToB64 (P.dsaKeygen sender).1) context = some true := by
  rw [verifyFilePayload, h.isFileV2, bytesAt_of_mem h.nodup hs, b64ToBytes_bytesToB64]
  simp [ht, hv]

/-- A verified payload opens for whoever has the content key. -/
theorem FileFields.opens {fs : List (Text × Json)} {iv metaIv : Block 12} {fileBytes : Bytes}
    {m : Meta} {cek : AesKey} {keys : Json} {me secret pub context : Text} (hP : P.Correct)
    (h : FileFields fs iv.1 metaIv.1
      (P.encrypt cek metaIv.1 (enc (text (write P.doubles stringify m.json))))
      (P.sha256 (P.encrypt cek iv.1 fileBytes)) keys)
    (hv : verifyFilePayload P (.object fs) pub context = some true) (hname : m.filename.1 ≠ [])
    (ho : openEntry P keys me secret = some cek) :
    openFilePayload P (.object fs) me secret pub context =
        some ⟨⟨m.filename.1, m.mime.1, .int m.size⟩, true, false⟩ ∧
      decryptFile P (P.encrypt cek iv.1 fileBytes) (.object fs) me secret pub context =
        some fileBytes := by
  constructor
  · rw [openFilePayload, hv, h.isFileV2, get_of_mem h.nodup h.keys, bytesAt_of_mem h.nodup h.metaIv,
      bytesAt_of_mem h.nodup h.metaCt]
    simp only [ho, hP.aead, m.parse_json, if_true, Option.bind_eq_bind, Option.bind_some]
    exact congrArg (fun metadata => some (Opened.mk metadata true false)) (fileMeta_json hname)
  · rw [decryptFile, hv, h.isFileV2, h.digest, get_of_mem h.nodup h.keys,
      bytesAt_of_mem h.nodup h.iv]
    simp [ho, hP.aead]

end opening

theorem fileFields_fields (iv metaIv metaCt ctSha256 : Bytes) (keys : Json) :
    FileFields (fileFields iv metaIv metaCt ctSha256 keys) iv metaIv metaCt ctSha256 keys := by
  constructor <;> simp [fileFields]

theorem signed_portable {keys : Keys} (h : keys.Shaped) (iv metaIv metaCt ctSha256 signature : Bytes) :
    Portable (.object (fileFields iv metaIv metaCt ctSha256 keys.json ++
      [(key "signature", .string (bytesToB64 signature))])) := by
  have hv : Portable (.number (.int 2)) := ⟨by decide, rfl, rfl⟩
  refine portable_object.mpr ⟨by simp [fileFields], ?_⟩
  simp only [fileFields, List.cons_append, List.nil_append, List.forall_mem_cons,
    List.not_mem_nil, false_implies, implies_true, and_true]
  exact ⟨⟨all_text _, hv⟩, ⟨all_text _, portable_string _⟩, ⟨all_text _, portable_string _⟩,
    ⟨all_text _, portable_string _⟩, ⟨all_text _, portable_string _⟩, ⟨all_text _, h.portable⟩,
    all_text _, portable_string _⟩

/-- Everybody a file is for gets it with the name, type and size that its sender
gave it, and no bytes of another digest pass for it. -/
def FileReadByAll (P : Platform) (d : FileDraws) (sender : Block 32) (ps : List Party)
    (fileBytes : Bytes) (m : Meta) (context : Text)
    (handler : List (Text × Json) → List (Text × Json)) (pushed : Bool) : Prop :=
  ∃ cipherBytes payload received,
    encryptFile P d fileBytes m (ps.map (Party.recipient P)) (bytesToB64 (P.dsaKeygen sender).2)
      context = some (cipherBytes, payload) ∧
    relayed P.doubles handler pushed payload = some received ∧
    (∀ p ∈ ps,
      openFilePayload P received (key p.username) (p.kemSecret P)
          (bytesToB64 (P.dsaKeygen sender).1) context =
        some ⟨⟨m.filename.1, m.mime.1, .int m.size⟩, true, false⟩ ∧
      decryptFile P cipherBytes received (key p.username) (p.kemSecret P)
        (bytesToB64 (P.dsaKeygen sender).1) context = some fileBytes) ∧
    ∀ blob, P.sha256 blob ≠ P.sha256 cipherBytes → ∀ me secret pub context,
      decryptFile P blob received me secret pub context = none

theorem file_read_by_all {P : Platform} (hP : P.Correct) (d : FileDraws) (sender : Block 32)
    {ps : List Party} (hn : (ps.map Party.username).Nodup)
    (hproto : "__proto__" ∉ ps.map Party.username) (fileBytes : Bytes) {m : Meta}
    (hname : m.filename.1 ≠ []) (context : Text) (fileId filename mime : String) {size : Nat}
    (hs : (Number.int size).small = true) (pushed : Bool) :
    FileReadByAll P d sender ps fileBytes m context (filePayload fileId filename mime size)
      pushed := by
  obtain ⟨keys, hk, hopen⟩ := openEntry_party hP d.cek d.wraps hn
  have hshaped := wrapCekForParties_shaped hk
  let cipherBytes := P.encrypt (aes256 d.cek) d.iv.1 fileBytes
  let metaCt := P.encrypt (aes256 d.cek) d.metaIv.1 (enc (text (write P.doubles stringify m.json)))
  let fs := fileFields d.iv.1 d.metaIv.1 metaCt (P.sha256 cipherBytes) keys.json
  have hfs : FileFields fs d.iv.1 d.metaIv.1 metaCt (P.sha256 cipherBytes) keys.json :=
    fileFields_fields _ _ _ _ _
  obtain ⟨transcript, ht⟩ := hshaped.transcript (P := P)
    (enc (key "lattix-file-v2" ++ CodePoint.scalar (Char.ofNat 0) :: context ++
      [CodePoint.scalar (Char.ofNat 0)])) (d.iv.1 ++ d.metaIv.1 ++ P.sha256 cipherBytes) metaCt
  obtain ⟨signature, hsig, hv⟩ := hP.dsa sender transcript d.signing
  have hsend : encryptFile P d fileBytes m (ps.map (Party.recipient P))
      (bytesToB64 (P.dsaKeygen sender).2) context = some (cipherBytes,
        .object (fs ++ [(key "signature", .string (bytesToB64 signature))])) := by
    have htr := (hfs.transcript (P := P) context).trans ht
    simp only [fs, cipherBytes, metaCt] at htr
    simp [encryptFile, importAesKey_block, hk, htr, b64ToBytes_bytesToB64, hsig, fs, cipherBytes,
      metaCt]
  have hport := signed_portable hshaped d.iv.1 d.metaIv.1 metaCt (P.sha256 cipherBytes) signature
  have hport' := hport.filePayload fileId filename mime hs
  -- What is received has the fields that were signed, and the signature.
  have hkeep : ∀ f ∈ fs ++ [(key "signature", .string (bytesToB64 signature))],
      f.1 ≠ key "file_id" → f ∈ filePayload fileId filename mime size
        (fs ++ [(key "signature", .string (bytesToB64 signature))]) :=
    fun f hf hne => mem_filePayload fileId filename mime size hf hne
  have hgot := hfs.mono (portable_object.mp hport').1 fun f hf =>
    hkeep f (List.mem_append_left _ hf)
  have hsigned := hkeep _ (List.mem_append_right _ (List.mem_singleton_self _)) (by simp)
  have hverify := hgot.verify hsigned ((hgot.transcript context).trans ht) hv
  refine ⟨cipherBytes, _, _, hsend, relayed_portable hport hport', fun p hp => ?_, fun blob hb => ?_⟩
  · apply hgot.opens hP hverify hname
    exact hopen p hp fun he => hproto (List.mem_map.mpr ⟨p, hp, he⟩)
  · exact fun me secret pub context => hgot.refuses hb me secret pub context

def someFileDraws : FileDraws where
  cek := block 32 1
  iv := block 12 2
  metaIv := block 12 3
  wraps i := (block 32 (UInt8.ofNat i), block 12 4)
  signing := block 32 5

def notes : Meta := ⟨⟨key "notes.txt", by decide⟩, ⟨[], rfl⟩, 3⟩

theorem file_read_by_alice_bob :
    FileReadByAll clear someFileDraws (block 32 6) [⟨"alice", block 64 7⟩, ⟨"bob", block 64 8⟩]
      [1, 2, 3] notes []
      (filePayload "f1" "file" "application/octet-stream" 3) false :=
  file_read_by_all clear_correct someFileDraws (block 32 6) (by simp) (by simp) [1, 2, 3]
    (by decide) [] "f1" "file" "application/octet-stream" (by decide) false

end Lattix.Crypto
