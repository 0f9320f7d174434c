import Lattix.Client.Origin
import Lattix.Client.Session
import Lattix.Client.Qr.Canvas
import Lattix.Crypto.Vault

/-! The link that a user shares, as text and as a drawing. -/

namespace Lattix.Client
open Lib Lib.Url Config Qr
open Lattix.Crypto (hexOf length_hexOf hexOf_letters)

/-- `toLowerCase`, whose tables are not part of this development. -/
structure Casing where
  toLowerCase : List Char → List Char
  ascii {cs : List Char} : (∀ c ∈ cs, isAscii c = true) → toLowerCase cs = lower cs

/-- One that knows ASCII only. -/
def Casing.asciiOnly : Casing := ⟨lower, fun _ => rfl⟩

/-! The link -/

def addName : List Char := ['a', 'd', 'd']
def fpName : List Char := ['f', 'p']

def myShareUrl (origin : List Char) (id : Identity) : List Char :=
  origin ++ '/' :: '#' :: (addName ++ '=' :: encodeComponent id.username.toList) ++
    '&' :: (fpName ++ '=' :: id.fingerprint.toList)

/-- Where an opened link leads: nowhere, to a chat, or to the check of a code as well. -/
inductive DeepLink where
  | ignored
  | chat (who : String)
  | check (who linkFp : String)
deriving DecidableEq, Repr

def processDeepLink (k : Casing) (me : Identity) (locationHash : List Char) : DeepLink :=
  let hash := if locationHash.head? = some '#' then locationHash.tail else locationHash
  if ¬ addName ++ ['='] <:+: hash then .ignored
  else
    let params := searchParams hash
    let who := String.ofList (k.toLowerCase ((getParam addName params).getD []))
    let linkFp := String.ofList (k.toLowerCase ((getParam fpName params).getD []))
    if who = "" ∨ who = me.username then .ignored
    else if isSafetyCode linkFp then .check who linkFp
    else .chat who

section link
variable {k : Casing} {me id : Identity} {origin : List Char}

theorem isSafetyCode_hexOf {digest : List UInt8} (h : digest.length = 32) :
    isSafetyCode (hexOf digest) = true := by
  rw [isSafetyCode, length_hexOf, h, hexOf_letters]
  rfl

/-- The letters of a safety code are encoded as they are, and are lower case. -/
theorem safety_letter {fp : String} (h : isSafetyCode fp = true) {c : Char} (hc : c ∈ fp.toList) :
    isUnreserved c = true ∧ isAscii c = true ∧ c.toLower = c := by
  rw [isSafetyCode, Bool.and_eq_true, String.all_bool_eq] at h
  have hcode := List.all_eq_true.mp h.2 c hc
  have hlt : c.toNat < 128 := by
    simp only [Bool.or_eq_true, Bool.and_eq_true, decide_eq_true_eq, Char.isDigit, UInt32.le_iff_toNat_le,
      ge_iff_le, Char.le_def] at hcode
    change (48 ≤ c.toNat ∧ c.toNat ≤ 57) ∨ (97 ≤ c.toNat ∧ c.toNat ≤ 102) at hcode
    omega
  have hall : ∀ n < 128,
      ((Char.ofNat n).isDigit || 'a' ≤ Char.ofNat n && Char.ofNat n ≤ 'f') = true →
        isUnreserved (Char.ofNat n) = true ∧ isAscii (Char.ofNat n) = true ∧
          (Char.ofNat n).toLower = Char.ofNat n := by decide +kernel
  have := hall c.toNat hlt
  rw [Char.ofNat_toNat] at this
  exact this hcode

theorem encodeComponent_safety {fp : String} (h : isSafetyCode fp = true) :
    encodeComponent fp.toList = fp.toList :=
  percentEncode_self fun c hc => by rw [(safety_letter h hc).1]; rfl

theorem toLowerCase_safety {fp : String} (h : isSafetyCode fp = true) :
    k.toLowerCase fp.toList = fp.toList := by
  rw [k.ascii fun c hc => (safety_letter h hc).2.1, lower]
  conv_rhs => rw [← List.map_id fp.toList]
  exact List.map_congr_left fun c hc => (safety_letter h hc).2.2

/-- What the link says, and how it says it. -/
def linkPairs (id : Identity) : List (List Char × List Char) :=
  [(addName, id.username.toList), (fpName, id.fingerprint.toList)]

theorem myShareUrl_eq (h : isSafetyCode id.fingerprint = true) :
    myShareUrl origin id = (origin ++ ['/']) ++ '#' :: joinPairs (linkPairs id) := by
  have hadd : joinPair (addName, id.username.toList) = addName ++ '=' :: encodeComponent id.username.toList :=
    rfl
  have hfp : joinPair (fpName, id.fingerprint.toList) = fpName ++ '=' :: id.fingerprint.toList := by
    rw [joinPair, encodeComponent_safety h]
    rfl
  have hpairs : joinPairs (linkPairs id) = (addName ++ '=' :: encodeComponent id.username.toList) ++
      '&' :: (fpName ++ '=' :: id.fingerprint.toList) := by
    rw [joinPairs, linkPairs, List.map_cons, List.map_cons, List.map_nil, List.intercalate_cons_cons,
      List.intercalate_singleton, hadd, hfp]
    simp
  rw [hpairs, myShareUrl]
  simp

theorem fragment_kept (ps : List (List Char × List Char)) : ∀ c ∈ joinPairs ps, fragmentSet c = false := by
  intro c hc
  rcases joinPairs_letters ps c hc with hc | rfl | rfl
  · exact (encoded_letter hc).2.2
  · decide
  · decide

theorem hashOf_share (h : isSafetyCode id.fingerprint = true) (horigin : '#' ∉ origin) :
    hashOf (myShareUrl origin id) = '#' :: joinPairs (linkPairs id) := by
  rw [myShareUrl_eq h]
  apply hashOf_append
  · simpa using horigin
  · simp [joinPairs, linkPairs, List.intercalate_cons_cons, joinPair]
  · exact fragment_kept _

theorem processDeepLink_share (h : isSafetyCode id.fingerprint = true) (horigin : '#' ∉ origin)
    {who : String} (hwho : who = String.ofList (k.toLowerCase id.username.toList)) (hne : who ≠ "")
    (hother : who ≠ me.username) :
    processDeepLink k me (hashOf (myShareUrl origin id)) = .check who id.fingerprint := by
  have hstart : addName ++ ['='] <:+: joinPairs (linkPairs id) := by
    rw [joinPairs, linkPairs, List.map_cons, List.map_cons, List.map_nil, List.intercalate_cons_cons]
    exact ⟨[], encodeComponent id.username.toList ++ ['&'] ++ _, by simp [joinPair]; rfl⟩
  have hadd : getParam addName (linkPairs id) = some id.username.toList := rfl
  have hfp : getParam fpName (linkPairs id) = some id.fingerprint.toList := rfl
  rw [hashOf_share h horigin, processDeepLink]
  simp only [List.head?_cons, if_true, List.tail_cons]
  rw [if_neg (not_not.mpr hstart), searchParams_joinPairs, hadd, hfp, Option.getD_some,
    Option.getD_some, ← hwho, toLowerCase_safety h, String.ofList_toList,
    if_neg (not_or.mpr ⟨hne, hother⟩), if_pos h]

theorem decode_utf8 (text : String) : Utf8.decode ((utf8 text).map UInt8.ofNat) = text.toList := by
  have hback : (utf8 text).map UInt8.ofNat = Utf8.encode text.toList := by
    rw [utf8, List.map_map]
    conv_rhs => rw [← List.map_id (Utf8.encode text.toList)]
    exact List.map_congr_left fun b _ => UInt8.ofNat_toNat
  rw [hback, Utf8.decode_encode]

theorem no_blank {ps : List (List Char × List Char)} : ∀ c ∈ joinPairs ps, isBlank c = false := by
  intro c hc
  have hset := fragment_kept ps c hc
  rw [fragmentSet, Bool.or_eq_false_iff, Bool.or_eq_false_iff] at hset
  exact hset.1.1

def sharer : Identity := ⟨"Bob", "", "", hexOf (List.replicate 32 165)⟩

def visitor : Identity := ⟨"alice", "", "", hexOf (List.replicate 32 90)⟩

/-- Where Bob's desktop app points others to. -/
def officeOrigin : List Char :=
  (desktopPage.setServerUrl (Scheme.http.start ++ lower (typedHost typedOffice))).shareOrigin

end link

end Lattix.Client
