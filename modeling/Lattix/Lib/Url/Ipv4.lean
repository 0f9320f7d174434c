import Lattix.Lib.Literals

namespace Lattix.Lib.Url
open Lib.Json

/-! Numbers in a radix -/

/-- The digit a letter stands for, 36 if it stands for none. -/
def digitValue (c : Char) : Nat :=
  if c.isDigit then c.toNat - 48
  else if 'a' ≤ c ∧ c ≤ 'f' then c.toNat - 87
  else if 'A' ≤ c ∧ c ≤ 'F' then c.toNat - 55
  else 36

def isDigitOf (radix : Nat) (c : Char) : Bool := digitValue c < radix

def value (radix : Nat) (cs : List Char) : Nat := cs.foldl (fun n c => radix * n + digitValue c) 0

/-! IPv4 addresses -/

/-- The IPv4 number parser: `0x` and `0` announce the radix. -/
def ipv4Number (cs : List Char) : Option Nat :=
  let (radix, digits) := match cs with
    | '0' :: x :: rest => if x = 'x' ∨ x = 'X' then (16, rest) else (8, x :: rest)
    | _ => (10, cs)
  if cs ≠ [] ∧ digits.all (isDigitOf radix) then some (value radix digits) else none

/-- The parts between dots, without an empty one at the end. -/
def ipv4Parts (cs : List Char) : List (List Char) :=
  let parts := cs.splitOn '.'
  if parts.getLast? = some [] ∧ 1 < parts.length then parts.dropLast else parts

/-- The ends-in-a-number checker. -/
def endsInNumber (cs : List Char) : Bool :=
  (ipv4Parts cs).getLast?.any fun last =>
    !last.isEmpty && last.all Char.isDigit || (ipv4Number last).isSome

/-- All numbers of an address but the last, each an octet of it. -/
def weigh : List Nat → Nat → Nat
  | [], _ => 0
  | n :: ns, k => n * 256 ^ k + weigh ns (k - 1)

def parseIpv4 (cs : List Char) : Option Nat := do
  let numbers ← (ipv4Parts cs).mapM ipv4Number
  let last ← numbers.getLast?
  if 4 < numbers.length ∨ numbers.dropLast.any (255 < ·) ∨ 256 ^ (5 - numbers.length) ≤ last then none
  else some (weigh numbers.dropLast 3 + last)

def octets (n : Nat) : List Nat := [n / 256 ^ 3 % 256, n / 256 ^ 2 % 256, n / 256 % 256, n % 256]

def serializeIpv4 (n : Nat) : List Char := ['.'].intercalate ((octets n).map decimal)

/-! The dotted decimals of an address -/

theorem digitValue_digit {c : Char} (h : c.isDigit = true) : digitValue c = c.toNat - '0'.toNat :=
  if_pos h

theorem isDigitOf_ten {c : Char} (h : c.isDigit = true) : isDigitOf 10 c = true := by
  obtain ⟨hlo, hhi⟩ := Char.isDigit_iff_toNat.mp h
  have hd : c.toNat - '0'.toNat < 10 := Nat.sub_lt_left_of_lt_add hlo (Nat.lt_succ_of_le hhi)
  rw [isDigitOf, digitValue_digit h]
  exact decide_eq_true hd

theorem value_digits {cs : List Char} (h : ∀ c ∈ cs, c.isDigit = true) : value 10 cs = natOf cs := by
  unfold value natOf
  refine List.foldl_ext _ _ _ fun n c hc => ?_
  rw [digitValue_digit (h c hc)]

theorem ipv4Number_decimal (n : Nat) : ipv4Number (decimal n) = some n := by
  obtain ⟨c, cs, hc⟩ := decimal_cons n
  have hdigits : (decimal n).all (isDigitOf 10) = true :=
    List.all_eq_true.mpr fun d hd => isDigitOf_ten (decimal_digits d hd)
  have hvalue : value 10 (decimal n) = n := (value_digits decimal_digits).trans (natOf_decimal n)
  have hne : decimal n ≠ [] := by
    rw [hc]
    exact List.cons_ne_nil c cs
  unfold ipv4Number
  split
  rename_i radix digits hradix
  split at hradix
  · rename_i x rest hx
    by_cases hn : n = 0
    · rw [hn] at hx
      cases hx
    · exact absurd rfl (decimal_head hn hx)
  · cases hradix
    rw [if_pos ⟨hne, hdigits⟩, hvalue]

theorem decimal_no {c : Char} (hc : c.isDigit = false) (n : Nat) : c ∉ decimal n := by
  intro h
  rw [decimal_digits c h] at hc
  cases hc

theorem decimal_ne_nil (n : Nat) : decimal n ≠ [] := by
  obtain ⟨c, cs, hc⟩ := decimal_cons n
  rw [hc]
  exact List.cons_ne_nil c cs

theorem ipv4Parts_serialize (n : Nat) : ipv4Parts (serializeIpv4 n) = (octets n).map decimal := by
  have hsplit : (serializeIpv4 n).splitOn '.' = (octets n).map decimal := by
    refine List.splitOn_intercalate '.' (fun l hl => ?_) (by simp [octets])
    obtain ⟨k, -, rfl⟩ := List.mem_map.mp hl
    exact decimal_no rfl k
  rw [ipv4Parts, hsplit, if_neg]
  rintro ⟨h, -⟩
  exact decimal_ne_nil _ (Option.some.inj h)

theorem parseIpv4_serialize {n : Nat} (h : n < 2 ^ 32) : parseIpv4 (serializeIpv4 n) = some n := by
  have hnumbers : ((octets n).map decimal).mapM ipv4Number = some (octets n) := by
    simp [octets, ipv4Number_decimal]
  have hlast : (octets n).getLast? = some (n % 256) := rfl
  have hoctets : (octets n).dropLast.any (255 < ·) = false := by
    simp only [octets, List.dropLast, List.any_cons, List.any_nil, Bool.or_false, Bool.or_eq_false_iff,
      decide_eq_false_iff_not]
    omega
  have hsum : weigh (octets n).dropLast 3 + n % 256 = n := by
    simp only [octets, List.dropLast, weigh]
    omega
  have hsmall : ¬256 ^ (5 - (octets n).length) ≤ n % 256 := by
    simp only [octets, List.length_cons, List.length_nil]
    omega
  simp only [parseIpv4, ipv4Parts_serialize, hnumbers, hlast, Option.bind_eq_bind, Option.bind_some]
  rw [if_neg, hsum]
  rintro (hlen | hover | hbig)
  · exact absurd hlen (by simp [octets])
  · rw [hoctets] at hover
    cases hover
  · exact hsmall hbig

theorem serialize_endsInNumber (n : Nat) : endsInNumber (serializeIpv4 n) = true := by
  have hlast : ((octets n).map decimal).getLast? = some (decimal (n % 256)) := rfl
  rw [endsInNumber, ipv4Parts_serialize, hlast, Option.any_some, ipv4Number_decimal]
  simp

/-- What is read fits into 32 bits. -/
theorem parseIpv4_lt {cs : List Char} {n : Nat} (h : parseIpv4 cs = some n) : n < 2 ^ 32 := by
  simp only [parseIpv4, Option.bind_eq_bind, Option.bind_eq_some_iff] at h
  obtain ⟨numbers, -, last, hlast, h⟩ := h
  split at h
  · cases h
  · rename_i hno
    cases h
    obtain ⟨hlen, hover, hbig⟩ := (by simpa only [not_or] using hno :
      ¬4 < numbers.length ∧ ¬numbers.dropLast.any (255 < ·) = true ∧
        ¬256 ^ (5 - numbers.length) ≤ last)
    rcases numbers with _ | ⟨a, _ | ⟨b, _ | ⟨c, _ | ⟨d, _ | ⟨e, rest⟩⟩⟩⟩⟩
    · cases hlast
    · cases hlast
      simp only [List.dropLast, weigh, List.length_singleton] at hbig ⊢
      omega
    · cases hlast
      simp [weigh] at hover hbig ⊢
      omega
    · cases hlast
      simp [weigh] at hover hbig ⊢
      omega
    · cases hlast
      simp [weigh] at hover hbig ⊢
      omega
    · exact absurd hlen (by simp)

end Lattix.Lib.Url
