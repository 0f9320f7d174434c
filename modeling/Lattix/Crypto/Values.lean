import Mathlib.Data.List.Sort
import Lattix.Lib.Base64
import Lattix.Lib.Utf8
import Lattix.Server.Rendering

namespace Lattix.Crypto
open Lib Lib.Json
open Server (key str)

abbrev Bytes := List UInt8

/-- Bytes of a fixed number, such as `randomBytes` draws. -/
abbrev Block (n : Nat) := { bs : Bytes // bs.length = n }

/-- What WebCrypto imports as a raw key for AES-GCM. -/
abbrev AesKey := { bs : Bytes // bs.length = 16 ∨ bs.length = 24 ∨ bs.length = 32 }

def aes256 (k : Block 32) : AesKey := ⟨k.1, .inr (.inr k.2)⟩

/-- A string of JavaScript. -/
abbrev JsString := { t : Text // joined t = true }

/-- The vendored primitives, WebCrypto, and the conversions between numbers and
texts. What draws at random is given what it draws; `none` is an exception. -/
structure Platform where
  doubles : Doubles
  stringToNumber : Text → Number
  kemKeygen : Block 64 → Bytes × Bytes
  encapsulate : Bytes → Block 32 → Option (Bytes × Bytes)
  decapsulate : Bytes → Bytes → Option Bytes
  dsaKeygen : Block 32 → Bytes × Bytes
  sign : Bytes → Bytes → Block 32 → Option Bytes
  verify : Bytes → Bytes → Bytes → Option Bool
  hkdf : Bytes → Bytes → Bytes → Block 32
  encrypt : AesKey → Bytes → Bytes → Bytes
  decrypt : AesKey → Bytes → Bytes → Option Bytes
  sha256 : Bytes → Bytes

/-- Key pairs fit together, and what is encrypted can be decrypted. -/
structure Platform.Correct (P : Platform) : Prop where
  kem : ∀ seed coins, ∃ ct secret, P.encapsulate (P.kemKeygen seed).1 coins = some (ct, secret) ∧
    P.decapsulate ct (P.kemKeygen seed).2 = some secret
  dsa : ∀ seed msg coins, ∃ sig, P.sign (P.dsaKeygen seed).2 msg coins = some sig ∧
    P.verify (P.dsaKeygen seed).1 msg sig = some true
  aead : ∀ k (iv : Block 12) pt, P.decrypt k iv.1 (P.encrypt k iv.1 pt) = some pt

/-! Bytes and texts -/

/-- `TextEncoder`, which replaces half a surrogate pair. -/
def enc (t : Text) : Bytes :=
  Utf8.encode (t.map fun
    | .scalar c => c
    | _ => Utf8.replacement)

def byteOrderMark : Char := Char.ofNat 0xFEFF

/-- `TextDecoder`, which drops a byte order mark. -/
def dec (bs : Bytes) : Text :=
  match Utf8.decode bs with
  | [] => []
  | c :: cs => if c = byteOrderMark then text cs else text (c :: cs)

def bytesToB64 (bs : Bytes) : Text := text (Base64.encode bs)

def b64ToBytes (b64 : Text) : Option Bytes := (encode b64).bind Base64.decode

/-! Values, where `none` is `undefined` -/

section values
variable (P : Platform)

mutual

/-- `String(v)`; in an array `null` is spelled like `undefined`. -/
def toText (inArray : Bool) : Json → Text
  | .null => if inArray then [] else key "null"
  | .bool b => key (if b then "true" else "false")
  | .number n => text (numberText P.doubles n)
  | .string s => s
  | .array vs => joinTexts vs
  | .object _ => key "[object Object]"

def joinTexts : List Json → Text
  | [] => []
  | [v] => toText true v
  | v :: vs => toText true v ++ .scalar ',' :: joinTexts vs

end

def asString : Option Json → Text
  | none => key "undefined"
  | some v => toText P false v

/-- `b64ToBytes(v[k])`, for which `atob` makes a string of whatever is there. -/
def bytesAt (v : Json) (k : String) : Option Bytes := b64ToBytes (asString P (v.get (key k)))

def isZero : Number → Bool
  | .int n => n == 0
  | .finite x => x.exponent == 0 && x.fraction == 0
  | .infinity _ => false
  | .nan => true

def truthy : Option Json → Bool
  | none | some .null => false
  | some (.bool b) => b
  | some (.number n) => !isZero n
  | some (.string s) => s != []
  | some (.array _) | some (.object _) => true

/-- `String(v || d)` -/
def stringOr (d : String) (v : Option Json) : Text :=
  if truthy v then asString P v else key d

/-- `Number(v) || 0` -/
def numberOrZero (v : Option Json) : Number :=
  let n := match v with
    | none => .nan
    | some .null | some (.bool false) => .int 0
    | some (.bool true) => .int 1
    | some (.number n) => n
    | some v => P.stringToNumber (toText P false v)
  if isZero n then .int 0 else n

end values

/-! Objects -/

/-- The properties that are a value's own; `null` has none to ask for. -/
def ownFields : Json → Option (List (Text × Json))
  | .null => none
  | .object fs => some fs
  | .array vs => some (vs.zipIdx.map fun (v, i) => (text (decimal i), v))
  | .string s => some (s.zipIdx.map fun (c, i) => (text (decimal i), .string [c]))
  | .bool _ | .number _ => some []

/-- The index that a name is the canonical spelling of. -/
def arrayIndex (name : Text) : Option Nat :=
  match encode name with
  | some cs => if cs = decimal (natOf cs) ∧ natOf cs < 2 ^ 32 - 1 then some (natOf cs) else none
  | none => none

/-- The order of an object's properties: indices from the least, then the other
names as they came. -/
def propertyOrder (fs : List (Text × Json)) : List (Text × Json) :=
  (fs.filter fun f => (arrayIndex f.1).isSome).insertionSort
      (fun f g => (arrayIndex f.1).getD 0 ≤ (arrayIndex g.1).getD 0) ++
    fs.filter fun f => (arrayIndex f.1).isNone

/-- `Object.keys(v)` -/
def objectKeys (v : Json) : Option (List Text) :=
  (ownFields v).map fun fs => (propertyOrder fs).map Prod.fst

def prototypeNames : List Text :=
  ["__proto__", "constructor", "hasOwnProperty", "isPrototypeOf", "propertyIsEnumerable",
    "toLocaleString", "toString", "valueOf", "__defineGetter__", "__defineSetter__",
    "__lookupGetter__", "__lookupSetter__"].map key

/-- `v[k]`. What is inherited of `Object.prototype` has none of the fields that
are asked for. -/
def property (k : Text) (v : Json) : Option Json :=
  match ((ownFields v).getD []).find? fun f => f.1 == k with
  | some f => some f.2
  | none => if prototypeNames.contains k then some (.object []) else none

def codeUnits (t : Text) : List Nat :=
  t.flatMap fun
    | .scalar c =>
      if c.toNat < 0x10000 then [c.toNat]
      else [0xD800 + (c.toNat - 0x10000) / 1024, 0xDC00 + (c.toNat - 0x10000) % 1024]
    | .high n => [0xD800 + n]
    | .low n => [0xDC00 + n]

/-- `names.sort()` -/
def sortNames (names : List Text) : List Text :=
  names.insertionSort fun a b => codeUnits a ≤ codeUnits b

/-! What comes back of bytes and texts -/

theorem b64ToBytes_bytesToB64 (bs : Bytes) : b64ToBytes (bytesToB64 bs) = some bs := by
  rw [b64ToBytes, bytesToB64, encode_text, Option.bind_some, Base64.decode_encode]

theorem enc_text (cs : List Char) : enc (text cs) = Utf8.encode cs := by
  rw [enc, text, List.map_map]
  exact congrArg Utf8.encode (List.map_id cs)

/-- A text survives unless the decoder takes its first character for a mark. -/
theorem dec_enc {cs : List Char} (h : cs.head? ≠ some byteOrderMark) : dec (enc (text cs)) = text cs := by
  rw [dec, enc_text, Utf8.decode_encode]
  cases cs with
  | nil => rfl
  | cons c cs =>
    have hc : c ≠ byteOrderMark := fun he => h (congrArg some he)
    exact if_neg hc

section properties
variable {P : Platform} {v : Json} {k : String} {fs : List (Text × Json)}

theorem bytesAt_string {bs : Bytes} (h : v.get (key k) = some (.string (bytesToB64 bs))) :
    bytesAt P v k = some bs := by
  rw [bytesAt, h, asString, toText, b64ToBytes_bytesToB64]

/-- `atob("undefined")` throws. -/
theorem bytesAt_missing (h : v.get (key k) = none) : bytesAt P v k = none := by
  have hu : b64ToBytes (key "undefined") = none := by decide
  rw [bytesAt, h]
  exact hu

theorem find_key {f : Text × Json} (hn : (fs.map Prod.fst).Nodup) (hf : f ∈ fs) :
    fs.find? (fun g => g.1 == f.1) = some f := by
  cases h : fs.find? (fun g => g.1 == f.1) with
  | none => exact absurd (beq_self_eq_true f.1) (List.find?_eq_none.mp h f hf)
  | some g =>
    have hg := List.find?_some h
    rw [List.inj_on_of_nodup_map hn (List.mem_of_find?_eq_some h) hf (beq_iff_eq.mp hg)]

theorem property_of_mem {f : Text × Json} (hn : (fs.map Prod.fst).Nodup) (hf : f ∈ fs) :
    property f.1 (.object fs) = some f.2 := by
  rw [property, ownFields, Option.getD_some, find_key hn hf]

theorem property_inherited {n : Text} (hn : n ∉ fs.map Prod.fst) (hp : prototypeNames.contains n = true) :
    property n (.object fs) = some (.object []) := by
  have hnone : fs.find? (fun f => f.1 == n) = none := by
    rw [List.find?_eq_none]
    intro f hf he
    exact hn (List.mem_map.mpr ⟨f, hf, beq_iff_eq.mp he⟩)
  rw [property, ownFields, Option.getD_some, hnone]
  exact if_pos hp

theorem propertyOrder_perm (fs : List (Text × Json)) : (propertyOrder fs).Perm fs := by
  have hsome : (fun f : Text × Json => (arrayIndex f.1).isNone) =
      fun f => !(arrayIndex f.1).isSome := by
    funext f
    rw [Option.not_isSome]
  rw [propertyOrder, hsome]
  exact ((List.perm_insertionSort _ _).append_right _).trans (List.filter_append_perm _ _)

end properties

end Lattix.Crypto
