import Lattix.Crypto.Files
import Lattix.Lib.Rereading

/-! What a password seals: the keys of a user, and a backup of the chats. -/

namespace Lattix.Crypto
open Lib Lib.Json
open Server (key str)

def lowerHex (d : ℕ) : Char := if d < 10 then Char.ofNat (48 + d) else Char.ofNat (87 + d)

/-- `sha256Hex` of what hashes to the digest. -/
def hexOf (digest : List UInt8) : String :=
  String.ofList (digest.flatMap fun b => [lowerHex (b.toNat / 16), lowerHex (b.toNat % 16)])

theorem length_hexOf (digest : List UInt8) : (hexOf digest).length = 2 * digest.length := by
  rw [hexOf, String.length_ofList]
  induction digest with
  | nil => rfl
  | cons b bs ih =>
    rw [List.flatMap_cons, List.length_append, ih]
    simp only [List.length_cons, List.length_nil]
    omega

theorem hexOf_letters (digest : List UInt8) :
    ((hexOf digest).all fun c => c.isDigit || 'a' ≤ c && c ≤ 'f') = true := by
  have hhex : ∀ d < 16, ((lowerHex d).isDigit || 'a' ≤ lowerHex d && lowerHex d ≤ 'f') = true := by decide
  rw [String.all_bool_eq, hexOf, String.toList_ofList, List.all_eq_true]
  intro c hc
  obtain ⟨b, -, hc⟩ := List.mem_flatMap.mp hc
  have hb : b.toNat < 256 := b.toNat_lt
  simp only [List.mem_cons, List.not_mem_nil, or_false] at hc
  rcases hc with rfl | rfl
  · exact hhex _ (by omega)
  · exact hhex _ (by omega)

/-- What is drawn for a new identity. -/
structure IdentityDraws where
  kem : Block 64
  dsa : Block 32
  auth : Block 32

def generateIdentity (P : Platform) (d : IdentityDraws) : List (Text × Json) :=
  let (kemPublic, kemSecret) := P.kemKeygen d.kem
  let (dsaPublic, dsaSecret) := P.dsaKeygen d.dsa
  [(key "kem", .object [(key "publicKey", .string (bytesToB64 kemPublic)),
      (key "secretKey", .string (bytesToB64 kemSecret))]),
    (key "dsa", .object [(key "publicKey", .string (bytesToB64 dsaPublic)),
      (key "secretKey", .string (bytesToB64 dsaSecret))]),
    (key "fingerprint", str (hexOf (P.sha256 (kemPublic ++ dsaPublic)))),
    (key "authSecret", .string (bytesToB64 d.auth.1))]

/-- Throws for what is no Base64. -/
def fingerprintOf (P : Platform) (kemPubB64 dsaPubB64 : Text) : Option String := do
  return hexOf (P.sha256 ((← b64ToBytes kemPubB64) ++ (← b64ToBytes dsaPubB64)))

def VAULT_ITERATIONS : ℕ := 600000

def LEGACY_ITERATIONS : ℕ := 250000

/-- PBKDF2 with SHA-256: the key of a password, a salt and a number of rounds. -/
abbrev Kdf := Bytes → Bytes → ℕ → Block 32

/-- What opening a file can come to besides its contents. -/
inductive Refusal where
  | notFile
  | notBase64
  | parameters
  | wrongPassword
deriving DecidableEq, Repr

/-- The size of a number that is not a fraction, for `Number.isInteger`. -/
def magnitude (x : Double) : Option ℕ :=
  let m := (if x.exponent.val = 0 then 0 else 2 ^ 52) + x.fraction.val
  let e := max 1 x.exponent.val
  if 1075 ≤ e then some (m * 2 ^ (e - 1075))
  else if 2 ^ (1075 - e) ∣ m then some (m / 2 ^ (1075 - e)) else none

def integerOf : Number → Option ℤ
  | .int n => some n
  | .finite x => (magnitude x).map fun m => if x.negative then -(m : ℤ) else m
  | .infinity _ | .nan => none

section sealing
variable (P : Platform) (pbkdf2 : Kdf)

def vaultKey (password : Text) (salt : Bytes) (iterations : ℕ) : AesKey :=
  aes256 (pbkdf2 (enc password) salt iterations)

/-- `none` for parameters that are refused. -/
def iterationsOf (file : Json) : Option ℕ :=
  let n := numberOrZero P (file.get (key "iter"))
  if isZero n then some LEGACY_ITERATIONS
  else
    match integerOf n with
    | some n => if n < 100000 ∨ 10000000 < n then none else some n.toNat
    | none => none

def vaultNeedsUpgrade (vault : Json) : Bool :=
  match iterationsOf P vault with
  | some n => n < VAULT_ITERATIONS
  | none => false

/-- What is drawn for a sealed file. -/
structure SealDraws where
  salt : Block 16
  iv : Block 12

/-- The fields that a vault and a backup have in common. -/
def sealedFields (data : Json) (password : Text) (d : SealDraws) : List (Text × Json) :=
  [(key "v", .number (.int 2)), (key "kdf", str "pbkdf2-sha256"),
    (key "iter", .number (.int VAULT_ITERATIONS)), (key "salt", .string (bytesToB64 d.salt.1)),
    (key "iv", .string (bytesToB64 d.iv.1)),
    (key "ciphertext", .string (bytesToB64 (P.encrypt
      (vaultKey pbkdf2 password d.salt.1 VAULT_ITERATIONS) d.iv.1
      (enc (text (write P.doubles stringify data))))))]

def sealVault (identity : Json) (password : Text) (d : SealDraws) : Json :=
  .object (sealedFields P pbkdf2 identity password d)

def sealBackup (data : Json) (password : Text) (d : SealDraws) : Json :=
  .object ((key "app", str "lattix") :: (key "kind", str "backup") ::
    sealedFields P pbkdf2 data password d)

/-- What both do once the file is one of theirs. An exception while decrypting
or reading is a wrong password. -/
def openSealed (file : Json) (password : Text) : Except Refusal Json :=
  match bytesAt P file "salt" with
  | none => .error .notBase64
  | some salt =>
    match iterationsOf P file with
    | none => .error .parameters
    | some iterations =>
      let opened := do
        let pt ← P.decrypt (vaultKey pbkdf2 password salt iterations) (← bytesAt P file "iv")
          (← bytesAt P file "ciphertext")
        parse P.doubles false (dec pt)
      match opened with
      | some data => .ok data
      | none => .error .wrongPassword

def openVault (vault : Json) (password : Text) : Except Refusal Json :=
  if truthy (some vault) && truthy (vault.get (key "salt")) && truthy (vault.get (key "iv")) &&
      truthy (vault.get (key "ciphertext")) then
    openSealed P pbkdf2 vault password
  else .error .notFile

def isBackup (backup : Json) : Bool :=
  match backup.get (key "kind") with
  | some (.string s) => s == key "backup"
  | _ => false

def openBackup (backup : Json) (password : Text) : Except Refusal Json :=
  if isBackup backup then openSealed P pbkdf2 backup password else .error .notFile

end sealing

/-- The texts of the errors; `atob` has its own. -/
def Refusal.message (what : String) (atob : String) : Refusal → String
  | .notFile => "Not a Lattix " ++ what ++ " file"
  | .notBase64 => atob
  | .parameters => "Unsupported vault parameters"
  | .wrongPassword => "Wrong password or corrupted " ++ what

/-! What is stored -/

/-- Values that come back of `JSON.parse(JSON.stringify(v))` as they were. -/
structure Stable (v : Json) : Prop where
  built : every (Json.built false) v = true
  spelled : every (Json.spelled joined) v = true
  numeric : every Json.numeric v = true

section opening
variable {P : Platform} {pbkdf2 : Kdf} {password : Text} {d : SealDraws} {data file : Json}

theorem Stable.reread {v : Json} (h : Stable v) :
    parse P.doubles false (text (write P.doubles stringify v)) = some v := by
  rw [write_widen, parse_write stringify_faithful h.built h.spelled, h.numeric]
  rfl

/-- What is read of characters has one spelling; only a number without an end is lost. -/
theorem stable_of_parse {t : Text} {v : Json} (ht : ofScalars t = true)
    (h : parse P.doubles false t = some v) (hn : every Json.numeric v = true) : Stable v :=
  ⟨parse_built h, parse_joined ht h, hn⟩

theorem every_filter {p : Json → Bool} {fs : List (Text × Json)} {q : Text × Json → Bool}
    (hp : p (.object fs) = true → p (.object (fs.filter q)) = true) (h : every p (.object fs) = true) :
    every p (.object (fs.filter q)) = true := by
  obtain ⟨hself, hfields⟩ := Bool.and_eq_true_iff.mp h
  refine Bool.and_eq_true_iff.mpr ⟨hp hself, everyField_iff.mpr fun f hf => ?_⟩
  exact everyField_iff.mp hfields f (List.mem_of_mem_filter hf)

theorem Stable.filter {fs : List (Text × Json)} (h : Stable (.object fs)) (q : Text × Json → Bool) :
    Stable (.object (fs.filter q)) where
  built := every_filter (fun hn => decide_eq_true
    ((of_decide_eq_true hn).sublist (List.filter_sublist.map Prod.fst))) h.built
  spelled := every_filter (fun hs => List.all_eq_true.mpr fun f hf =>
    List.all_eq_true.mp hs f (List.mem_of_mem_filter hf)) h.spelled
  numeric := every_filter (fun _ => rfl) h.numeric

/-- Objects and arrays do not begin with a mark. -/
theorem Stable.reread_bytes {fs : List (Text × Json)} (h : Stable (.object fs)) :
    parse P.doubles false (dec (enc (text (write P.doubles stringify (.object fs))))) =
      some (.object fs) := by
  have hhead : (write P.doubles stringify (.object fs)).head? = some '{' := by
    cases fs <;> rfl
  rw [dec_enc (by rw [hhead]; decide), h.reread]

theorem iterationsOf_current (h : file.get (key "iter") = some (.number (.int VAULT_ITERATIONS))) :
    iterationsOf P file = some VAULT_ITERATIONS := by
  rw [iterationsOf, h]
  rfl

theorem openSealed_ok (hP : P.Correct) {fs : List (Text × Json)} (hdata : Stable (.object fs))
    (hsub : ∀ f ∈ sealedFields P pbkdf2 (.object fs) password d, file.get f.1 = some f.2) :
    openSealed P pbkdf2 file password = .ok (.object fs) := by
  simp only [sealedFields, List.forall_mem_cons] at hsub
  obtain ⟨-, -, hiter, hsalt, hiv, hct, -⟩ := hsub
  rw [openSealed, bytesAt_string hsalt, iterationsOf_current hiter, bytesAt_string hiv, bytesAt_string hct]
  simp only [Option.bind_eq_bind, Option.bind_some, hP.aead, hdata.reread_bytes]

theorem joined_key (k : String) : joined (key k) = true := joined_of_ofScalars (all_text _)

theorem joined_b64 (bs : Bytes) : joined (bytesToB64 bs) = true := joined_of_ofScalars (all_text _)

theorem stable_sealVault : Stable (sealVault P pbkdf2 data password d) where
  built := by simp [sealVault, sealedFields, every, everyField, Json.built, str]
  spelled := by simp [sealVault, sealedFields, every, everyField, Json.spelled, str, joined_key, joined_b64]
  numeric := rfl

theorem stable_sealBackup : Stable (sealBackup P pbkdf2 data password d) where
  built := by simp [sealBackup, sealedFields, every, everyField, Json.built, str]
  spelled := by simp [sealBackup, sealedFields, every, everyField, Json.spelled, str, joined_key, joined_b64]
  numeric := rfl

theorem truthy_b64 {bs : Bytes} (h : bs ≠ []) : truthy (some (.string (bytesToB64 bs))) = true := by
  refine bne_iff_ne.mpr fun hnil => h ?_
  have hback := b64ToBytes_bytesToB64 bs
  have hempty : bytesToB64 [] = [] := rfl
  rw [hnil, ← hempty, b64ToBytes_bytesToB64] at hback
  exact (Option.some.inj hback).symm

theorem block_ne_nil {n : ℕ} (b : Block (n + 1)) : b.1 ≠ [] := by
  intro h
  have := b.2
  rw [h] at this
  cases this

theorem openVault_sealVault (hP : P.Correct) (htag : ∀ k iv pt, P.encrypt k iv pt ≠ [])
    {fs : List (Text × Json)} (hdata : Stable (.object fs)) :
    openVault P pbkdf2 (sealVault P pbkdf2 (.object fs) password d) password = .ok (.object fs) := by
  have hsub : ∀ f ∈ sealedFields P pbkdf2 (.object fs) password d,
      (sealVault P pbkdf2 (.object fs) password d).get f.1 = some f.2 := fun f hf =>
    get_of_mem (by simp [sealedFields]) hf
  have hopen := openSealed_ok hP hdata hsub
  simp only [sealedFields, List.forall_mem_cons] at hsub
  obtain ⟨-, -, -, hsalt, hiv, hct, -⟩ := hsub
  rw [openVault, hsalt, hiv, hct, truthy_b64 (block_ne_nil _), truthy_b64 (block_ne_nil _),
    truthy_b64 (htag _ _ _)]
  exact hopen

theorem openBackup_sealBackup (hP : P.Correct) {fs : List (Text × Json)} (hdata : Stable (.object fs)) :
    openBackup P pbkdf2 (sealBackup P pbkdf2 (.object fs) password d) password = .ok (.object fs) := by
  have hsub : ∀ f ∈ sealedFields P pbkdf2 (.object fs) password d,
      (sealBackup P pbkdf2 (.object fs) password d).get f.1 = some f.2 := fun f hf =>
    get_of_mem (by simp [sealedFields]) (List.mem_cons_of_mem _ (List.mem_cons_of_mem _ hf))
  have hkind : isBackup (sealBackup P pbkdf2 (.object fs) password d) = true := by
    simp [isBackup, sealBackup, Json.get, str]
  rw [openBackup, if_pos hkind]
  exact openSealed_ok hP hdata hsub

theorem vaultNeedsUpgrade_sealVault : vaultNeedsUpgrade P (sealVault P pbkdf2 data password d) = false := by
  have hiter : (sealVault P pbkdf2 data password d).get (key "iter") =
      some (.number (.int VAULT_ITERATIONS)) := by
    simp [sealVault, sealedFields, Json.get]
  rw [vaultNeedsUpgrade, iterationsOf_current hiter]
  rfl

/-- What was sealed and written to a file or to storage is there again for the password. -/
theorem sealed_reopens (hP : P.Correct) (htag : ∀ k iv pt, P.encrypt k iv pt ≠ [])
    {fs : List (Text × Json)} (hdata : Stable (.object fs)) (password : Text) (d : SealDraws) :
    (∃ file, parse P.doubles false (text (write P.doubles stringify
        (sealVault P pbkdf2 (.object fs) password d))) = some file ∧
      openVault P pbkdf2 file password = .ok (.object fs) ∧ vaultNeedsUpgrade P file = false) ∧
    ∃ file, parse P.doubles false (text (write P.doubles stringify
        (sealBackup P pbkdf2 (.object fs) password d))) = some file ∧
      openBackup P pbkdf2 file password = .ok (.object fs) :=
  ⟨⟨_, stable_sealVault.reread, openVault_sealVault hP htag hdata, vaultNeedsUpgrade_sealVault⟩,
    _, stable_sealBackup.reread, openBackup_sealBackup hP hdata⟩

/-- Stretches nothing. -/
def unstretched : Kdf := fun password _ _ => pad32 password

def someSeal : SealDraws := ⟨block 16 1, block 12 2⟩

def note : List (Text × Json) := [(key "me", str "alice")]

theorem clear_nonempty (k : AesKey) (iv pt : Bytes) : clear.encrypt k iv pt ≠ [] := by
  have hk : k.1 ≠ [] := by
    intro h
    have := k.2
    rw [h] at this
    simp at this
  exact List.append_ne_nil_of_left_ne_nil (List.append_ne_nil_of_left_ne_nil hk _) _

theorem sealed_reopens_note :
    (∃ file, parse clear.doubles false (text (write clear.doubles stringify
        (sealVault clear unstretched (.object note) (key "secrets!") someSeal))) = some file ∧
      openVault clear unstretched file (key "secrets!") = .ok (.object note) ∧
      vaultNeedsUpgrade clear file = false) ∧
    ∃ file, parse clear.doubles false (text (write clear.doubles stringify
        (sealBackup clear unstretched (.object note) (key "secrets!") someSeal))) = some file ∧
      openBackup clear unstretched file (key "secrets!") = .ok (.object note) :=
  sealed_reopens clear_correct clear_nonempty ⟨rfl, rfl, rfl⟩ (key "secrets!") someSeal

theorem iterationsOf_bounds {n : ℕ} (h : iterationsOf P file = some n) : 100000 ≤ n ∧ n ≤ 10000000 := by
  unfold iterationsOf at h
  dsimp only at h
  split_ifs at h
  · cases h
    decide
  · split at h
    · split_ifs at h
      cases h
      omega
    · cases h

/-- What a password opens is what `JSON.parse` makes of characters. -/
theorem openVault_parsed (h : openVault P pbkdf2 file password = .ok data) :
    ∃ t, ofScalars t = true ∧ parse P.doubles false t = some data := by
  unfold openVault at h
  split at h
  · unfold openSealed at h
    split at h
    · cases h
    · split at h
      · cases h
      · dsimp only at h
        split at h
        · rename_i hopened
          cases h
          obtain ⟨_, -, hopened⟩ := Option.bind_eq_some_iff.mp hopened
          obtain ⟨_, -, hopened⟩ := Option.bind_eq_some_iff.mp hopened
          obtain ⟨pt, -, hparse⟩ := Option.bind_eq_some_iff.mp hopened
          refine ⟨dec pt, ?_, hparse⟩
          unfold dec
          split
          · rfl
          · split_ifs <;> exact all_text _
        · cases h
  · cases h

/-- However a file was tampered with, no key is derived in fewer than a hundred thousand rounds or
in more than ten million. -/
theorem rounds_bounded {kdf kdf' : Kdf} (h : ∀ pw salt n, 100000 ≤ n → n ≤ 10000000 → kdf pw salt n = kdf' pw salt n)
    (file : Json) (password : Text) : openVault P kdf file password = openVault P kdf' file password ∧
      openBackup P kdf file password = openBackup P kdf' file password := by
  have hsealed : openSealed P kdf file password = openSealed P kdf' file password := by
    unfold openSealed
    cases hsalt : bytesAt P file "salt" with
    | none => rfl
    | some salt =>
      cases hn : iterationsOf P file with
      | none => rfl
      | some n =>
        obtain ⟨hlo, hhi⟩ := iterationsOf_bounds hn
        simp only [vaultKey, h _ _ n hlo hhi]
  rw [openVault, openVault, openBackup, openBackup, hsealed]
  exact ⟨rfl, rfl⟩

/-- A vault that asks for a single round. -/
def hasty : Json :=
  .object [(key "iter", .number (.int 1)), (key "salt", str "AAAA"), (key "iv", str "AAAA"),
    (key "ciphertext", str "AAAA")]

/-- Gives its key away unless the number of rounds is as it should be. -/
def careless : Kdf := fun password salt n =>
  if 100000 ≤ n ∧ n ≤ 10000000 then unstretched password salt n else block 32 0

theorem rounds_bounded_hasty :
    openVault clear careless hasty (key "secrets!") = openVault clear unstretched hasty (key "secrets!") ∧
      openBackup clear careless hasty (key "secrets!") =
        openBackup clear unstretched hasty (key "secrets!") :=
  rounds_bounded (fun _ _ _ hlo hhi => if_pos ⟨hlo, hhi⟩) hasty (key "secrets!")

end opening

end Lattix.Crypto
