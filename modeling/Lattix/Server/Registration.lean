import Lattix.Client.SignIn
import Lattix.Server.Administration

/-! What `POST /api/register` takes for an account. -/

namespace Lattix.Server
open Lib Lib.Json Lattix.Crypto

def maxKemKeyChars : Nat := 4096

def maxDsaKeyChars : Nat := 8192

def kemPublicKeyBytes : Nat := 1184

def dsaPublicKeyBytes : Nat := 1952

def maxAuthSecretChars : Nat := 512

def maxAvatarChars : Nat := 400 * 1024

/-- What pydantic has to say about a field. Its own texts are left out. -/
inductive Complaint where
  | missing
  | stringType
  | stringUnicode
  | stringTooShort
  | stringTooLong
  | stringPatternMismatch
  | valueError (text : String)
deriving DecidableEq, Repr

/-- `FINGERPRINT_RE` -/
def isFingerprint (fp : String) : Bool :=
  fp.length == 64 && fp.all fun c => c.isDigit || 'a' ≤ c && c ≤ 'f'

/-- `base64.b64decode(v, validate=True)`, which has no spaces and wants whole groups of four. -/
def b64decode (v : String) : Option Bytes :=
  if v.length % 4 = 0 ∧ v.toList.all (fun c => !Base64.isSpace c) then Base64.decode v.toList else none

def checkBase64 (v : String) : Option Complaint :=
  if (b64decode v).isSome then none else some (.valueError "expected base64-encoded key material")

def checkAvatar (v : String) : Option Complaint :=
  if maxAvatarChars < v.length then some (.valueError "avatar too large")
  else if "data:image/".toList.isPrefixOf v.toList then none
  else some (.valueError "avatar must be an image data URL")

def checkLength (lo hi : Nat) (v : String) : Option Complaint :=
  if v.length < lo then some .stringTooShort
  else if hi < v.length then some .stringTooLong
  else none

def checkPattern (p : String → Bool) (v : String) : Option Complaint :=
  if p v then none else some .stringPatternMismatch

section fields
variable (body : List (Text × Json))

/-- A string that passes its checks. -/
def stringOf (check : String → Option Complaint) : Json → Except Complaint String
  | .string t =>
    match encode t with
    | none => .error .stringUnicode
    | some cs =>
      match check (String.ofList cs) with
      | some c => .error c
      | none => .ok (String.ofList cs)
  | _ => .error .stringType

def required (name : String) (check : String → Option Complaint) : Except Complaint String :=
  match (Json.object body).get (key name) with
  | none => .error .missing
  | some v => stringOf check v

def optional (name : String) (check : String → Option Complaint) : Except Complaint (Option String) :=
  match (Json.object body).get (key name) with
  | none | some .null => .ok none
  | some v => (stringOf check v).map some

end fields

/-- `fingerprint_of`, on what has been decoded. -/
def fingerprintOfBytes (sha256 : Bytes → Bytes) (kem dsa : Bytes) : String := hexOf (sha256 (kem ++ dsa))

def keysMatchFingerprint (sha256 : Bytes → Bytes) (kem dsa fp : String) : Option Complaint :=
  match b64decode kem, b64decode dsa with
  | some k, some d =>
    if k.length ≠ kemPublicKeyBytes then
      some (.valueError s!"kem_public_key must be {kemPublicKeyBytes} bytes (ML-KEM-768)")
    else if d.length ≠ dsaPublicKeyBytes then
      some (.valueError s!"dsa_public_key must be {dsaPublicKeyBytes} bytes (ML-DSA-65)")
    else if fingerprintOfBytes sha256 k d ≠ fp then
      some (.valueError "fingerprint does not match the public keys")
    else none
  | _, _ => some (.valueError "expected base64-encoded key material")

def complaint {α : Type} (name : String) : Except Complaint α → List (String × Complaint)
  | .error c => [(name, c)]
  | .ok _ => []

/-- `RegisterRequest`: every field is looked at, and the three that belong together once all are
fine. The name is lowered after its check, so only letters of ASCII are. -/
def RegisterRequest.validate (sha256 : Bytes → Bytes) (body : List (Text × Json)) :
    Except (List (String × Complaint)) RegisterRequest :=
  let username := required body "username" (checkPattern isUsername)
  let kem := required body "kem_public_key" fun v => (checkLength 1 maxKemKeyChars v).or (checkBase64 v)
  let dsa := required body "dsa_public_key" fun v => (checkLength 1 maxDsaKeyChars v).or (checkBase64 v)
  let fp := required body "fingerprint" (checkPattern isFingerprint)
  let secret := required body "auth_secret" (checkLength 1 maxAuthSecretChars)
  let avatar := optional body "avatar" checkAvatar
  match username, kem, dsa, fp, secret, avatar with
  | .ok username, .ok kem, .ok dsa, .ok fp, .ok secret, .ok avatar =>
    match keysMatchFingerprint sha256 kem dsa fp with
    | some c => .error [("", c)]
    | none => .ok ⟨asciiLower username, kem, dsa, fp, secret, avatar⟩
  | username, kem, dsa, fp, secret, avatar =>
    .error (complaint "username" username ++ complaint "kem_public_key" kem ++
      complaint "dsa_public_key" dsa ++ complaint "fingerprint" fp ++
      complaint "auth_secret" secret ++ complaint "avatar" avatar)

/-! What has been checked -/

/-- The keys are of the right sizes, and the fingerprint is theirs. -/
structure RegisterRequest.Checked (sha256 : Bytes → Bytes) (reg : RegisterRequest) : Prop where
  keys : ∃ kem dsa, b64decode reg.kemPublicKey = some kem ∧ b64decode reg.dsaPublicKey = some dsa ∧
    kem.length = kemPublicKeyBytes ∧ dsa.length = dsaPublicKeyBytes ∧
    reg.fingerprint = fingerprintOfBytes sha256 kem dsa
  fingerprint : isFingerprint reg.fingerprint = true

theorem stringOf_ok {check : String → Option Complaint} {v : Json} {s : String}
    (h : stringOf check v = .ok s) : check s = none := by
  unfold stringOf at h
  split at h
  · split at h
    · cases h
    · split at h
      · cases h
      · rename_i hc
        cases h
        exact hc
  · cases h

theorem required_ok {body : List (Text × Json)} {name : String} {check : String → Option Complaint}
    {s : String} (h : required body name check = .ok s) : check s = none := by
  unfold required at h
  split at h
  · cases h
  · exact stringOf_ok h

theorem keysMatchFingerprint_none {sha256 : Bytes → Bytes} {kem dsa fp : String}
    (h : keysMatchFingerprint sha256 kem dsa fp = none) :
    ∃ k d, b64decode kem = some k ∧ b64decode dsa = some d ∧ k.length = kemPublicKeyBytes ∧
      d.length = dsaPublicKeyBytes ∧ fp = fingerprintOfBytes sha256 k d := by
  unfold keysMatchFingerprint at h
  split at h
  · rename_i k d hk hd
    split_ifs at h with hkl hdl hfp
    exact ⟨k, d, hk, hd, not_not.mp hkl, not_not.mp hdl, (not_not.mp hfp).symm⟩
  · cases h

theorem validate_checked {sha256 : Bytes → Bytes} {body : List (Text × Json)} {reg : RegisterRequest}
    (h : RegisterRequest.validate sha256 body = .ok reg) : reg.Checked sha256 := by
  unfold RegisterRequest.validate at h
  dsimp only at h
  split at h
  · rename_i hfp _ _
    split at h
    · cases h
    · rename_i hmatch
      cases h
      refine ⟨keysMatchFingerprint_none hmatch, ?_⟩
      have hp := required_ok hfp
      rw [checkPattern] at hp
      split_ifs at hp with hyes
      exact hyes
  · cases h

/-! What the client sends -/

section sent
variable {P : Platform} {username : String} {d : IdentityDraws} {body : List (Text × Json)}

def sentFields (P : Platform) (username : String) (d : IdentityDraws) : List (Text × Json) :=
  [(key "username", str username), (key "kem_public_key", .string (bytesToB64 (P.kemKeygen d.kem).1)),
    (key "dsa_public_key", .string (bytesToB64 (P.dsaKeygen d.dsa).1)),
    (key "fingerprint", str (hexOf (P.sha256 ((P.kemKeygen d.kem).1 ++ (P.dsaKeygen d.dsa).1)))),
    (key "auth_secret", .string (bytesToB64 d.auth.1))]

theorem registerBody_register :
    Client.SignIn.registerBody (Client.SignIn.register P username d) = sentFields P username d := rfl

theorem required_string {name : String} {check : String → Option Complaint} {cs : List Char}
    (h : (Json.object body).get (key name) = some (.string (text cs)))
    (hc : check (String.ofList cs) = none) : required body name check = .ok (String.ofList cs) := by
  rw [required, h]
  dsimp only [stringOf]
  rw [encode_text]
  dsimp only
  rw [hc]

theorem b64decode_encode (bs : Bytes) : b64decode (String.ofList (Base64.encode bs)) = some bs := by
  have hlen : (String.ofList (Base64.encode bs)).length % 4 = 0 := by
    rw [String.length_ofList, Base64.length_encode]
    omega
  have hspace : (Base64.encode bs).all (fun c => !Base64.isSpace c) = true :=
    List.all_eq_true.mpr fun c hc => by rw [Base64.encode_spaceless bs c hc]; rfl
  rw [b64decode, String.toList_ofList, if_pos ⟨hlen, hspace⟩, Base64.decode_encode]

theorem keyChecks_encode {bs : Bytes} {n hi : Nat} (hl : bs.length = n + 1)
    (hhi : 4 * ((n + 3) / 3) ≤ hi) :
    (checkLength 1 hi (String.ofList (Base64.encode bs))).or
      (checkBase64 (String.ofList (Base64.encode bs))) = none := by
  have hlen : (String.ofList (Base64.encode bs)).length = 4 * ((n + 3) / 3) := by
    rw [String.length_ofList, Base64.length_encode, hl]
  rw [checkLength, hlen, if_neg (by omega), if_neg (by omega), checkBase64, b64decode_encode]
  rfl

/-- The request that `RegisterRequest` makes of a new identity. -/
def requestOf (P : Platform) (username : String) (d : IdentityDraws) : RegisterRequest where
  username := asciiLower username
  kemPublicKey := String.ofList (Base64.encode (P.kemKeygen d.kem).1)
  dsaPublicKey := String.ofList (Base64.encode (P.dsaKeygen d.dsa).1)
  fingerprint := hexOf (P.sha256 ((P.kemKeygen d.kem).1 ++ (P.dsaKeygen d.dsa).1))
  authSecret := String.ofList (Base64.encode d.auth.1)
  avatar := none

/-- The sizes that FIPS 203, FIPS 204 and FIPS 180 give. -/
structure Sized (P : Platform) : Prop where
  kem : ∀ seed, (P.kemKeygen seed).1.length = kemPublicKeyBytes
  dsa : ∀ seed, (P.dsaKeygen seed).1.length = dsaPublicKeyBytes
  sha256 : ∀ bs, (P.sha256 bs).length = 32

theorem validate_register (hP : Sized P) (hu : isUsername username = true) (d : IdentityDraws) :
    RegisterRequest.validate P.sha256
      (Client.SignIn.registerBody (Client.SignIn.register P username d)) =
      .ok (requestOf P username d) := by
  rw [registerBody_register]
  have hget : ∀ f ∈ sentFields P username d, (Json.object (sentFields P username d)).get f.1 = some f.2 :=
    fun f hf => get_of_mem (by simp [sentFields, key, text]) hf
  have hnone : (Json.object (sentFields P username d)).get (key "avatar") = none := by
    simp [sentFields, Json.get, key, text]
  generalize hbody : sentFields P username d = body at hget hnone ⊢
  have hsent : ∀ f ∈ sentFields P username d, (Json.object body).get f.1 = some f.2 := hbody ▸ hget
  simp only [sentFields, List.forall_mem_cons] at hsent
  obtain ⟨hname, hkem, hdsa, hfp, hsecret, -⟩ := hsent
  have hname : required body "username" (checkPattern isUsername) = .ok username := by
    have hc : checkPattern isUsername (String.ofList username.toList) = none := by
      rw [String.ofList_toList, checkPattern, if_pos hu]
    rw [required_string hname hc, String.ofList_toList]
  have hkem : required body "kem_public_key" (fun v => (checkLength 1 maxKemKeyChars v).or (checkBase64 v)) =
      .ok (String.ofList (Base64.encode (P.kemKeygen d.kem).1)) :=
    required_string hkem (keyChecks_encode (hP.kem d.kem) (by decide))
  have hdsa : required body "dsa_public_key" (fun v => (checkLength 1 maxDsaKeyChars v).or (checkBase64 v)) =
      .ok (String.ofList (Base64.encode (P.dsaKeygen d.dsa).1)) :=
    required_string hdsa (keyChecks_encode (hP.dsa d.dsa) (by decide))
  have hfp : required body "fingerprint" (checkPattern isFingerprint) =
      .ok (hexOf (P.sha256 ((P.kemKeygen d.kem).1 ++ (P.dsaKeygen d.dsa).1))) := by
    have hc : checkPattern isFingerprint (String.ofList
        (hexOf (P.sha256 ((P.kemKeygen d.kem).1 ++ (P.dsaKeygen d.dsa).1))).toList) = none := by
      rw [String.ofList_toList, checkPattern, isFingerprint, length_hexOf, hP.sha256, hexOf_letters]
      rfl
    rw [required_string hfp hc, String.ofList_toList]
  have hsecret : required body "auth_secret" (checkLength 1 maxAuthSecretChars) =
      .ok (String.ofList (Base64.encode d.auth.1)) := by
    refine required_string hsecret ?_
    rw [checkLength, String.length_ofList, Base64.length_encode, d.auth.2]
    rfl
  have havatar : optional body "avatar" checkAvatar = .ok none := by
    rw [optional, hnone]
  have hmatch : keysMatchFingerprint P.sha256 (String.ofList (Base64.encode (P.kemKeygen d.kem).1))
      (String.ofList (Base64.encode (P.dsaKeygen d.dsa).1))
      (hexOf (P.sha256 ((P.kemKeygen d.kem).1 ++ (P.dsaKeygen d.dsa).1))) = none := by
    rw [keysMatchFingerprint, b64decode_encode, b64decode_encode]
    simp [hP.kem, hP.dsa, fingerprintOfBytes]
  rw [RegisterRequest.validate, hname, hkem, hdsa, hfp, hsecret, havatar]
  dsimp only
  rw [hmatch]
  rfl

/-- The body that a new identity is registered with passes every check of the relay, on its way
through JSON, and is taken for the identity's own keys. -/
theorem identity_admitted (hP : Sized P) (hu : isUsername username = true) (d : IdentityDraws) :
    ∃ body, loads P.doubles (text (write P.doubles stringify
        (.object (Client.SignIn.registerBody (Client.SignIn.register P username d))))) =
        some (.object body) ∧
      RegisterRequest.validate P.sha256 body = .ok (requestOf P username d) := by
  refine ⟨_, ?_, validate_register hP hu d⟩
  have hbuilt : every (Json.built true) (.object (sentFields P username d)) = true := by
    simp [sentFields, every, everyField, Json.built, str, key, text]
  have hspelled : every (Json.spelled Lib.Json.joined) (.object (sentFields P username d)) = true := by
    simp [sentFields, every, everyField, Json.spelled, str, joined_key, joined_b64]
  rw [registerBody_register, loads, write_widen, parse_write stringify_faithful hbuilt hspelled,
    Bool.or_true]
  rfl

/-- Keys of the right sizes, in the clear. -/
def sizedClear : Platform :=
  { clear with
    kemKeygen := fun seed => ((seed.1 ++ List.replicate 1120 0), seed.1)
    dsaKeygen := fun seed => ((seed.1 ++ List.replicate 1920 0), seed.1) }

theorem sizedClear_sized : Sized sizedClear where
  kem seed := by
    show (seed.1 ++ List.replicate 1120 0).length = 1184
    rw [List.length_append, seed.2, List.length_replicate]
  dsa seed := by
    show (seed.1 ++ List.replicate 1920 0).length = 1952
    rw [List.length_append, seed.2, List.length_replicate]
  sha256 bs := (pad32 bs).2

theorem identity_admitted_alice :
    ∃ body, loads sizedClear.doubles (text (write sizedClear.doubles stringify (.object
        (Client.SignIn.registerBody (Client.SignIn.register sizedClear "alice" Client.SignIn.drawn))))) =
        some (.object body) ∧
      RegisterRequest.validate sizedClear.sha256 body =
        .ok (requestOf sizedClear "alice" Client.SignIn.drawn) :=
  identity_admitted sizedClear_sized (by decide) Client.SignIn.drawn

end sent

end Lattix.Server
