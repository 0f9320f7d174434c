import Mathlib.Data.List.Basic
import Lattix.Lib.Runs

namespace Lattix.Lib.Base64

/-- The character of a value below 64. -/
def letter (n : Nat) : Char :=
  if n < 26 then Char.ofNat (65 + n)
  else if n < 52 then Char.ofNat (71 + n)
  else if n < 62 then Char.ofNat (n - 4)
  else if n = 62 then '+' else '/'

def value (c : Char) : Option Nat :=
  if 'A' ≤ c ∧ c ≤ 'Z' then some (c.toNat - 65)
  else if 'a' ≤ c ∧ c ≤ 'z' then some (c.toNat - 71)
  else if '0' ≤ c ∧ c ≤ '9' then some (c.toNat + 4)
  else if c = '+' then some 62
  else if c = '/' then some 63
  else none

/-- Three bytes make four values; what is left over makes as many as its bits need. -/
def unpack : List UInt8 → List Nat
  | a :: b :: c :: rest => a.toNat / 4 :: (a.toNat % 4 * 16 + b.toNat / 16) ::
      (b.toNat % 16 * 4 + c.toNat / 64) :: c.toNat % 64 :: unpack rest
  | [a, b] => [a.toNat / 4, a.toNat % 4 * 16 + b.toNat / 16, b.toNat % 16 * 4]
  | [a] => [a.toNat / 4, a.toNat % 4 * 16]
  | [] => []

/-- Four values make three bytes; what is left over makes the whole ones of its
bits. -/
def pack : List Nat → List UInt8
  | a :: b :: c :: d :: rest => UInt8.ofNat (a * 4 + b / 16) :: UInt8.ofNat (b % 16 * 16 + c / 4) ::
      UInt8.ofNat (c % 4 * 64 + d) :: pack rest
  | [a, b, c] => [UInt8.ofNat (a * 4 + b / 16), UInt8.ofNat (b % 16 * 16 + c / 4)]
  | [a, b] => [UInt8.ofNat (a * 4 + b / 16)]
  | _ => []

/-- `btoa`, on the bytes its argument stands for. -/
def encode (bs : List UInt8) : List Char :=
  (unpack bs).map letter ++ List.replicate ((4 - (unpack bs).length % 4) % 4) '='

def isSpace (c : Char) : Bool :=
  c == ' ' || c == '\t' || c == '\n' || c == Char.ofNat 12 || c == '\r'

/-- Up to two padding characters off the end of a text whose length they fill. -/
def unpad (cs : List Char) : List Char :=
  if cs.length % 4 = 0 then
    if cs.drop (cs.length - 2) = ['=', '='] then cs.take (cs.length - 2)
    else if cs.drop (cs.length - 1) = ['='] then cs.take (cs.length - 1)
    else cs
  else cs

/-- `atob`, which is forgiving about spaces and padding. -/
def decode (cs : List Char) : Option (List UInt8) :=
  let cs := unpad (cs.filter fun c => !isSpace c)
  if cs.length % 4 = 1 then none else (cs.mapM value).map pack

theorem letter_spec : ∀ n < 64, value (letter n) = some n ∧ letter n ≠ '=' ∧
    isSpace (letter n) = false ∧ (letter n).toNat < 128 := by decide

theorem ofNat_eq {n : Nat} {b : UInt8} (h : n = b.toNat) : UInt8.ofNat n = b := by
  rw [h, UInt8.ofNat_toNat]

theorem pack_unpack (bs : List UInt8) : pack (unpack bs) = bs := by
  induction bs using unpack.induct with
  | case1 a b c rest ih =>
    have ha := a.toNat_lt
    have hb := b.toNat_lt
    have hc := c.toNat_lt
    rw [unpack, pack, ih, ofNat_eq (b := a) (by omega), ofNat_eq (b := b) (by omega),
      ofNat_eq (b := c) (by omega)]
  | case2 a b =>
    have ha := a.toNat_lt
    have hb := b.toNat_lt
    rw [unpack, pack, ofNat_eq (b := a) (by omega), ofNat_eq (b := b) (by omega)]
  | case3 a =>
    have ha := a.toNat_lt
    rw [unpack, pack, ofNat_eq (b := a) (by omega)]
  | case4 => rfl

theorem unpack_lt (bs : List UInt8) : ∀ n ∈ unpack bs, n < 64 := by
  induction bs using unpack.induct with
  | case1 a b c rest ih =>
    have ha := a.toNat_lt
    have hb := b.toNat_lt
    have hc := c.toNat_lt
    intro n hn
    simp only [unpack, List.mem_cons] at hn
    rcases hn with rfl | rfl | rfl | rfl | hn
    · omega
    · omega
    · omega
    · omega
    · exact ih n hn
  | case2 a b =>
    have ha := a.toNat_lt
    have hb := b.toNat_lt
    intro n hn
    simp only [unpack, List.mem_cons, List.not_mem_nil, or_false] at hn
    omega
  | case3 a =>
    have ha := a.toNat_lt
    intro n hn
    simp only [unpack, List.mem_cons, List.not_mem_nil, or_false] at hn
    omega
  | case4 => exact nofun

theorem unpack_length (bs : List UInt8) : (unpack bs).length % 4 ≠ 1 := by
  induction bs using unpack.induct with
  | case1 a b c rest ih =>
    simp only [unpack, List.length_cons]
    omega
  | case2 a b => simp [unpack]
  | case3 a => simp [unpack]
  | case4 => simp [unpack]

theorem mapM_letter {ns : List Nat} (h : ∀ n ∈ ns, n < 64) :
    (ns.map letter).mapM value = some ns := by
  have hv : ∀ n ∈ ns, (value ∘ letter) n = some (id n) := fun n hn => (letter_spec n (h n hn)).1
  rw [List.mapM_map, Runs.mapM_of_some hv, List.map_id]

/-- Padding comes off again if nothing else looks like it. -/
theorem unpad_pad {cs : List Char} (h : '=' ∉ cs) (hl : cs.length % 4 ≠ 1) :
    unpad (cs ++ List.replicate ((4 - cs.length % 4) % 4) '=') = cs := by
  have hdrop (n : Nat) (ds : List Char) : cs.drop n ≠ '=' :: ds := fun he =>
    h (List.mem_of_mem_drop (he ▸ List.mem_cons_self))
  have hcases : cs.length % 4 = 0 ∨ cs.length % 4 = 2 ∨ cs.length % 4 = 3 := by omega
  rcases hcases with hm | hm | hm
  · simp only [hm, List.replicate_zero, Nat.sub_zero, Nat.mod_self, List.append_nil, unpad,
      if_true, if_neg (hdrop _ _)]
  · have hlen : (cs ++ ['=', '=']).length - 2 = cs.length := by simp
    have hfull : (cs ++ ['=', '=']).length % 4 = 0 := by
      rw [List.length_append, List.length_cons, List.length_cons, List.length_nil]
      omega
    have hr : List.replicate ((4 - cs.length % 4) % 4) '=' = ['=', '='] := by rw [hm]; rfl
    rw [hr, unpad, if_pos hfull, hlen, List.drop_left, if_pos rfl, List.take_left]
  · have hlen : (cs ++ ['=']).length - 1 = cs.length := by simp
    have hfull : (cs ++ ['=']).length % 4 = 0 := by
      rw [List.length_append, List.length_cons, List.length_nil]
      omega
    have hr : List.replicate ((4 - cs.length % 4) % 4) '=' = ['='] := by rw [hm]; rfl
    have hne : (cs ++ ['=']).drop ((cs ++ ['=']).length - 2) ≠ ['=', '='] := by
      have hle : (cs ++ ['=']).length - 2 ≤ cs.length := by
        rw [List.length_append, List.length_cons, List.length_nil]
        omega
      rw [List.drop_append_of_le_length hle]
      intro he
      have he' : cs.drop ((cs ++ ['=']).length - 2) ++ ['='] = ['='] ++ ['='] := he
      exact hdrop _ [] (List.append_cancel_right he')
    rw [hr, unpad, if_pos hfull, if_neg hne, hlen, List.drop_left, if_pos rfl, List.take_left]

theorem decode_encode (bs : List UInt8) : decode (encode bs) = some bs := by
  have hlt := unpack_lt bs
  have hspace : (encode bs).filter (fun c => !isSpace c) = encode bs := by
    refine List.filter_eq_self.mpr fun c hc => ?_
    rcases List.mem_append.mp hc with hc | hc
    · obtain ⟨n, hn, rfl⟩ := List.mem_map.mp hc
      rw [(letter_spec n (hlt n hn)).2.2.1]
      rfl
    · cases List.eq_of_mem_replicate hc
      rfl
  have hpad : unpad (encode bs) = (unpack bs).map letter := by
    have hno : '=' ∉ (unpack bs).map letter := by
      intro hmem
      obtain ⟨n, hn, he⟩ := List.mem_map.mp hmem
      exact (letter_spec n (hlt n hn)).2.1 he
    have hu := unpad_pad hno (by rw [List.length_map]; exact unpack_length bs)
    rw [List.length_map] at hu
    exact hu
  simp only [decode, hspace, hpad, List.length_map, if_neg (unpack_length bs), mapM_letter hlt,
    Option.map_some, pack_unpack]

theorem encode_injective {as bs : List UInt8} (h : encode as = encode bs) : as = bs := by
  have hd := decode_encode as
  rw [h, decode_encode] at hd
  exact (Option.some.inj hd).symm

theorem length_unpack (bs : List UInt8) : (unpack bs).length = (4 * bs.length + 2) / 3 := by
  induction bs using unpack.induct with
  | case1 a b c rest ih =>
    simp only [unpack, List.length_cons, ih]
    omega
  | case2 a b => simp [unpack]
  | case3 a => simp [unpack]
  | case4 => rfl

/-- Each three bytes, and what is left over, make four characters. -/
theorem length_encode (bs : List UInt8) : (encode bs).length = 4 * ((bs.length + 2) / 3) := by
  rw [encode, List.length_append, List.length_map, List.length_replicate, length_unpack]
  omega

theorem encode_spaceless (bs : List UInt8) : ∀ c ∈ encode bs, isSpace c = false := by
  intro c hc
  rcases List.mem_append.mp hc with hc | hc
  · obtain ⟨n, hn, rfl⟩ := List.mem_map.mp hc
    exact (letter_spec n (unpack_lt bs n hn)).2.2.1
  · cases List.eq_of_mem_replicate hc
    rfl

end Lattix.Lib.Base64
