import Lattix.Crypto.Files
import Lattix.Server.Outcomes

/-! Reading an upload -/

namespace Lattix.Server
open Lib.Transactions

/-- The chunks are read to their end, unless there is too much in them. -/
theorem readChunks_eq {limit : Nat} {chunks : List (List UInt8)} {data : List UInt8}
    (hne : ∀ chunk ∈ chunks, chunk ≠ []) (hd : data.length ≤ limit) :
    readChunks limit chunks data =
      if (data ++ chunks.flatten).length ≤ limit then some (data ++ chunks.flatten) else none := by
  induction chunks generalizing data with
  | nil => simp [readChunks, hd]
  | cons chunk rest ih =>
    rw [readChunks, if_neg (hne chunk List.mem_cons_self), List.flatten_cons, ← List.append_assoc]
    split
    · rename_i hover
      rw [if_neg]
      rw [List.length_append]
      omega
    · rename_i hfits
      exact ih (fun c hc => hne c (List.mem_cons_of_mem chunk hc)) (Nat.le_of_not_lt hfits)

section upload
variable {R : Runtime} {d : Draws} {me : String} {t : Tables} {chunks : List (List UInt8)}
  {size : Nat}

/-- The relay takes the upload and stores it. -/
def Accepts (R : Runtime) (d : Draws) (me : String) (t : Tables) (chunks : List (List UInt8))
    (size : Nat) : Prop :=
  ∃ t', Yields (uploadFileRequest R d me chunks size) t (.uploaded d.fileId) t'

def invalidSize : Response := .refused 400 "Invalid file size"

def tooLarge (R : Runtime) : Response :=
  .refused 413 s!"File exceeds {R.maxFileBytes / (1024 * 1024)} MB limit"

theorem upload_invalid (h : R.maxFileBytes < size) :
    Yields (uploadFileRequest R d me chunks size) t invalidSize t := by
  rw [uploadFileRequest, if_pos (Or.inr (Int.ofNat_lt.mpr h))]
  exact .pure t _

theorem upload_tooLarge (hne : ∀ chunk ∈ chunks, chunk ≠ []) (hs : size ≤ R.maxFileBytes)
    (h : R.maxFileBytes < chunks.flatten.length) :
    Yields (uploadFileRequest R d me chunks size) t (tooLarge R) t := by
  rw [uploadFileRequest, if_neg (by omega), readChunks_eq hne (Nat.zero_le _),
    if_neg (by simpa using h)]
  exact .pure t _

theorem upload_accepts (hne : ∀ chunk ∈ chunks, chunk ≠ []) (hs : size ≤ R.maxFileBytes)
    (h : chunks.flatten.length ≤ R.maxFileBytes) (hme : t.hasUser me = true)
    (hf : ∀ f ∈ t.files, f.id ≠ d.fileId) : Accepts R d me t chunks size := by
  refine ⟨t.withFile ⟨d.fileId, me, chunks.flatten, size, d.storedAt⟩, ?_⟩
  rw [uploadFileRequest, if_neg (by omega), readChunks_eq hne (Nat.zero_le _),
    if_pos (by simpa using h)]
  exact .bind (storeFile_yields hf hme) (.pure _ _)

theorem accepts_iff (hne : ∀ chunk ∈ chunks, chunk ≠ []) (hme : t.hasUser me = true)
    (hf : ∀ f ∈ t.files, f.id ≠ d.fileId) : Accepts R d me t chunks size ↔
      size ≤ R.maxFileBytes ∧ chunks.flatten.length ≤ R.maxFileBytes := by
  constructor
  · rintro ⟨t', h⟩
    have hs : size ≤ R.maxFileBytes := by
      refine Nat.le_of_not_lt fun hs => ?_
      cases h.symm.trans (upload_invalid hs)
    refine ⟨hs, Nat.le_of_not_lt fun hc => ?_⟩
    cases h.symm.trans (upload_tooLarge hne hs hc)
  · rintro ⟨hs, h⟩
    exact upload_accepts hne hs h hme hf

end upload

end Lattix.Server

/-! What the client uploads -/

namespace Lattix.Uploads
open Server Crypto Lib.Json Lib.Transactions

/-- `MAX_UPLOAD_BYTES`, after the relay's answer about its health. -/
def maxUploadBytes (maxFileBytes : Option Nat) : Nat :=
  match maxFileBytes with
  | some n => if 0 < n then n else 50 * 1024 * 1024
  | none => 50 * 1024 * 1024

/-- `sendFile` goes on after its check of the size. -/
def letsThrough (maxFileBytes : Option Nat) (file : Bytes) : Bool :=
  !decide (maxUploadBytes maxFileBytes < file.length)

/-- The tag of AES-GCM is what a ciphertext has more than the plaintext. -/
def Tagged (P : Platform) : Prop :=
  ∀ key iv bytes, (P.encrypt key iv bytes).length = bytes.length + 16

theorem encryptFile_length {P : Platform} (hP : Tagged P) {d : FileDraws} {file : Bytes} {m : Meta}
    {recipients : List Recipient} {secret context : Text} {cipherBytes : Bytes} {payload : Json}
    (h : encryptFile P d file m recipients secret context = some (cipherBytes, payload)) :
    cipherBytes.length = file.length + 16 := by
  simp only [encryptFile, Option.bind_eq_bind, Option.bind_eq_some_iff, Option.some.injEq,
    Prod.mk.injEq] at h
  obtain ⟨cek, -, keys, -, transcript, -, secretBytes, -, signature, -, rfl, -⟩ := h
  exact hP cek d.iv.1 file

theorem transcript_exists {P : Platform} {keys : Keys} (h : keys.Shaped)
    (iv metaIv metaCt ctSha256 : Bytes) (context : Text) : ∃ transcript,
      fileV2Transcript P (.object (fileFields iv metaIv metaCt ctSha256 keys.json)) context =
        some transcript := by
  obtain ⟨transcript, ht⟩ := h.transcript (P := P)
    (enc (key "lattix-file-v2" ++ CodePoint.scalar (Char.ofNat 0) :: context ++
      [CodePoint.scalar (Char.ofNat 0)])) (iv ++ metaIv ++ ctSha256) metaCt
  exact ⟨transcript, ((fileFields_fields ..).transcript context).trans ht⟩

/-- Whoever can wrap the key for the recipients and sign can encrypt a file of any size. -/
theorem encryptFile_exists {P : Platform} {d : FileDraws}
    {recipients : List Recipient} {keys : Keys}
    (hk : wrapCekForParties P d.cek.1 d.wraps recipients = some keys) {secret : Bytes}
    (hsign : ∀ msg coins, ∃ sig, P.sign secret msg coins = some sig) (file : Bytes) (m : Meta)
    (context : Text) : ∃ payload, encryptFile P d file m recipients (bytesToB64 secret) context =
      some (P.encrypt (aes256 d.cek) d.iv.1 file, payload) := by
  obtain ⟨transcript, ht⟩ := transcript_exists (P := P) (wrapCekForParties_shaped hk) d.iv.1 d.metaIv.1
    (P.encrypt (aes256 d.cek) d.metaIv.1 (enc (text (write P.doubles stringify m.json))))
    (P.sha256 (P.encrypt (aes256 d.cek) d.iv.1 file)) context
  obtain ⟨signature, hs⟩ := hsign transcript d.signing
  simp [encryptFile, importAesKey_block, hk, ht, b64ToBytes_bytesToB64, hs]

/-- The check and the relay agree on a file just when the tag does not make the
difference. -/
theorem upload_limit_iff {R : Runtime} (hM : 0 < R.maxFileBytes) {P : Platform} (hP : Tagged P)
    {fd : FileDraws} {file : Bytes} {m : Meta} {recipients : List Recipient}
    {secret context : Text} {cipherBytes : Bytes} {payload : Json}
    (hsend : encryptFile P fd file m recipients secret context = some (cipherBytes, payload))
    {chunks : List Bytes} (hne : ∀ chunk ∈ chunks, chunk ≠ []) (hread : chunks.flatten = cipherBytes)
    {d : Draws} {me : String} {t : Tables} (hme : t.hasUser me = true)
    (hf : ∀ f ∈ t.files, f.id ≠ d.fileId) :
    (letsThrough (some R.maxFileBytes) file = true ↔ Accepts R d me t chunks file.length) ↔
      file.length + 16 ≤ R.maxFileBytes ∨ R.maxFileBytes < file.length := by
  have hthrough : letsThrough (some R.maxFileBytes) file = true ↔ file.length ≤ R.maxFileBytes := by
    simp [letsThrough, maxUploadBytes, hM]
  rw [hthrough, accepts_iff hne hme hf, hread, encryptFile_length hP hsend]
  omega

/-! A mebibyte -/

/-- As `clear`, with a tag of the right length. -/
def sealing : Platform :=
  { clear with
    encrypt k _ bytes := bytes ++ (block 16 (k.1.headD 0)).1
    decrypt k _ bytes :=
      if (block 16 (k.1.headD 0)).1 <:+ bytes then some (bytes.take (bytes.length - 16)) else none }

theorem sealing_tagged : Tagged sealing := by
  intro k iv bytes
  exact (List.length_append ..).trans (congrArg _ (block 16 _).2)

def mebibyte : Nat := 1024 * 1024

/-- A relay with `LATTIX_MAX_FILE_MB=1`. -/
def small : Runtime := { plain with maxFileBytes := mebibyte }

def onlyAnn : Tables :=
  { Tables.empty with users := [⟨"ann", "kem", "dsa", "fp", "salt", "hash", none, 0⟩] }

/-- ann's file of `n` bytes, which she sends to nobody but herself. -/
theorem sealing_encrypts (n : Nat) : ∃ payload,
    encryptFile sealing someFileDraws (List.replicate n 0) notes [] (bytesToB64 []) [] =
      some (sealing.encrypt (aes256 someFileDraws.cek) someFileDraws.iv.1 (List.replicate n 0),
        payload) :=
  encryptFile_exists rfl (fun msg _ => ⟨[] ++ msg, rfl⟩) _ _ _

/-- The blob is not empty, so it may be read in one chunk. -/
theorem one_chunk {file : Bytes} : ∀ chunk ∈ [sealing.encrypt (aes256 someFileDraws.cek)
    someFileDraws.iv.1 file], chunk ≠ [] := by
  intro chunk hc h
  cases List.mem_singleton.mp hc
  have hlen := sealing_tagged (aes256 someFileDraws.cek) someFileDraws.iv.1 file
  rw [h] at hlen
  cases hlen

theorem upload_within_limit :
    letsThrough (some mebibyte) (List.replicate 1000 0) = true ↔
      Accepts small (draws "t1" "f1" []) "ann" onlyAnn [sealing.encrypt (aes256 someFileDraws.cek)
        someFileDraws.iv.1 (List.replicate 1000 0)] (List.replicate 1000 (0 : UInt8)).length := by
  obtain ⟨payload, hsend⟩ := sealing_encrypts 1000
  have hann : onlyAnn.hasUser "ann" = true := by decide
  have hiff := upload_limit_iff (R := small) (by decide) sealing_tagged hsend one_chunk
    (List.flatten_singleton ..) (d := draws "t1" "f1" []) hann (by decide)
  refine hiff.mpr (.inl ?_)
  rw [List.length_replicate]
  exact Nat.le_of_ble_eq_true rfl

/-- A file of exactly the limit is let through, encrypted and refused. -/
theorem upload_limit_not_agreed : ¬∀ (R : Runtime), 0 < R.maxFileBytes → ∀ P, Tagged P →
    ∀ fd file m recipients secret context cipherBytes payload,
      encryptFile P fd file m recipients secret context = some (cipherBytes, payload) →
    ∀ chunks : List Bytes, (∀ chunk ∈ chunks, chunk ≠ []) → chunks.flatten = cipherBytes →
    ∀ d me (t : Tables), t.hasUser me = true → (∀ f ∈ t.files, f.id ≠ d.fileId) →
      (letsThrough (some R.maxFileBytes) file = true ↔ Accepts R d me t chunks file.length) := by
  intro hall
  obtain ⟨payload, hsend⟩ := sealing_encrypts mebibyte
  have hiff := hall small (by decide) sealing sealing_tagged _ _ _ _ _ _ _ _ hsend _ one_chunk
    (List.flatten_singleton ..) (draws "t1" "f1" []) "ann" onlyAnn (by decide) (by decide)
  rw [accepts_iff one_chunk (by decide) (by decide), List.flatten_singleton, sealing_tagged,
    List.length_replicate] at hiff
  have hthrough : letsThrough (some small.maxFileBytes) (List.replicate mebibyte 0) = true := by
    rw [letsThrough, List.length_replicate]
    decide
  exact absurd (hiff.mp hthrough).2 (by decide)

end Lattix.Uploads
