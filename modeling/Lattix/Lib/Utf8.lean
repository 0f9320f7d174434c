import Mathlib.Data.List.Basic

namespace Lattix.Lib.Utf8

def encode (cs : List Char) : List UInt8 := cs.flatMap String.utf8EncodeChar

def replacement : Char := Char.ofNat 0xFFFD

/-- How many bytes a first byte calls for after it. -/
def owed (a : UInt8) : Nat :=
  if 0xC2 ≤ a ∧ a ≤ 0xDF then 1
  else if 0xE0 ≤ a ∧ a ≤ 0xEF then 2
  else if 0xF0 ≤ a ∧ a ≤ 0xF4 then 3
  else 0

/-- Whether `b` may follow the first byte `a`: neither overlong, nor a
surrogate, nor beyond the last character. -/
def second (a b : UInt8) : Bool :=
  (if a = 0xE0 then 0xA0 else if a = 0xF0 then 0x90 else 0x80) ≤ b &&
    b ≤ (if a = 0xED then 0x9F else if a = 0xF4 then 0x8F else 0xBF)

def continuation (b : UInt8) : Bool := 0x80 ≤ b && b ≤ 0xBF

/-- Where no character starts, the bytes after the first one that go into the
same replacement: as many as could still have started one. -/
def subpart (a : UInt8) : List UInt8 → Nat
  | b :: rest =>
    if second a b = true ∧ 2 ≤ owed a then
      match rest with
      | c :: _ => if continuation c = true ∧ owed a = 3 then 2 else 1
      | [] => 1
    else 0
  | [] => 0

/-- `TextDecoder`, without its treatment of a byte order mark. -/
def decode (bs : List UInt8) : List Char :=
  match bs with
  | [] => []
  | b :: rest =>
    match (b :: rest).toByteArray.utf8DecodeChar? 0 with
    | some c => c :: decode (rest.drop (c.utf8Size - 1))
    | none => replacement :: decode (rest.drop (subpart b rest))
termination_by bs.length
decreasing_by
  all_goals
    rw [List.length_drop, List.length_cons]
    omega

theorem decode_char (c : Char) (bs : List UInt8) :
    decode (String.utf8EncodeChar c ++ bs) = c :: decode bs := by
  have hc : ((String.utf8EncodeChar c ++ bs).toByteArray).utf8DecodeChar? 0 = some c := by
    rw [List.toByteArray_append]
    exact ByteArray.utf8DecodeChar?_utf8EncodeChar_append
  have hlen := String.length_utf8EncodeChar c
  cases he : String.utf8EncodeChar c with
  | nil => exact absurd he String.utf8EncodeChar_ne_nil
  | cons b rest =>
    rw [he, List.cons_append] at hc
    rw [he, List.length_cons] at hlen
    rw [List.cons_append, decode, hc]
    have hdrop : (rest ++ bs).drop (c.utf8Size - 1) = bs := by
      rw [← hlen, Nat.add_sub_cancel, List.drop_left]
    exact congrArg (fun ds => c :: decode ds) hdrop

theorem decode_encode (cs : List Char) : decode (encode cs) = cs := by
  induction cs with
  | nil =>
    rw [encode, List.flatMap_nil, decode]
  | cons c cs ih =>
    have he : encode (c :: cs) = String.utf8EncodeChar c ++ encode cs := List.flatMap_cons
    rw [he, decode_char, ih]

end Lattix.Lib.Utf8
