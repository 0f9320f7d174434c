import Mathlib.Data.Nat.Bitwise
import Mathlib.Tactic.Ring

/-! Numbers as bits, the highest first, and bits in groups of eight. -/

namespace Lattix.Lib.Bits

def toBits (n : ℕ) : ℕ → List Bool
  | 0 => []
  | len + 1 => n.testBit len :: toBits n len

def ofBits (bs : List Bool) : ℕ := bs.foldl (fun n b => 2 * n + b.toNat) 0

@[simp] theorem length_toBits (n len : ℕ) : (toBits n len).length = len := by
  induction len with
  | zero => rfl
  | succ len ih => simp [toBits, ih]

theorem foldl_bits (bs : List Bool) (v : ℕ) :
    bs.foldl (fun n b => 2 * n + b.toNat) v = v * 2 ^ bs.length + ofBits bs := by
  induction bs generalizing v with
  | nil => simp [ofBits]
  | cons b bs ih =>
    have hb : ofBits (b :: bs) = b.toNat * 2 ^ bs.length + ofBits bs := by
      rw [ofBits, List.foldl_cons, ih]
      simp
    rw [List.foldl_cons, ih, hb, List.length_cons, pow_succ]
    ring

theorem ofBits_cons (b : Bool) (bs : List Bool) :
    ofBits (b :: bs) = b.toNat * 2 ^ bs.length + ofBits bs := by
  rw [ofBits, List.foldl_cons, foldl_bits]
  simp

theorem ofBits_lt (bs : List Bool) : ofBits bs < 2 ^ bs.length := by
  induction bs with
  | nil => simp [ofBits]
  | cons b bs ih =>
    rw [ofBits_cons, List.length_cons, pow_succ]
    cases b <;> simp <;> omega

theorem ofBits_toBits_mod (n len : ℕ) : ofBits (toBits n len) = n % 2 ^ len := by
  induction len with
  | zero => simp [toBits, ofBits, Nat.mod_one]
  | succ len ih =>
    rw [toBits, ofBits_cons, ih, length_toBits, pow_succ, Nat.mod_mul, Nat.testBit_eq_decide_div_mod_eq]
    rcases Nat.mod_two_eq_zero_or_one (n / 2 ^ len) with h | h
    · simp [h]
    · simp [h, Nat.add_comm]

theorem ofBits_toBits {n len : ℕ} (h : n < 2 ^ len) : ofBits (toBits n len) = n := by
  rw [ofBits_toBits_mod, Nat.mod_eq_of_lt h]

theorem toBits_append (n len : ℕ) (v : ℕ) : toBits (v * 2 ^ len + n % 2 ^ len) len = toBits n len := by
  induction len generalizing v with
  | zero => rfl
  | succ len ih =>
    have hlow : v * 2 ^ (len + 1) + n % 2 ^ (len + 1) =
        (v * 2 + n / 2 ^ len % 2) * 2 ^ len + n % 2 ^ len := by
      rw [pow_succ, Nat.mod_mul]
      ring
    have hbit : (v * 2 ^ (len + 1) + n % 2 ^ (len + 1)).testBit len = n.testBit len := by
      rw [Nat.mul_comm v, Nat.testBit_two_pow_mul_add _ (Nat.mod_lt _ (Nat.two_pow_pos _)),
        if_pos (Nat.lt_succ_self len), Nat.testBit_mod_two_pow]
      simp
    rw [toBits, toBits, hbit, hlow, ih]

theorem toBits_ofBits (bs : List Bool) : toBits (ofBits bs) bs.length = bs := by
  induction bs with
  | nil => rfl
  | cons b bs ih =>
    have hlt := ofBits_lt bs
    have hbit : (b.toNat * 2 ^ bs.length + ofBits bs).testBit bs.length = b := by
      rw [Nat.mul_comm, Nat.testBit_two_pow_mul_add _ hlt, if_neg (Nat.lt_irrefl _), Nat.sub_self]
      cases b <;> rfl
    have hrest := toBits_append (ofBits bs) bs.length b.toNat
    rw [Nat.mod_eq_of_lt hlt] at hrest
    rw [List.length_cons, ofBits_cons, toBits, hbit, hrest, ih]

/-- The bits in groups of eight; what does not fill a group is left out. -/
def bytes : List Bool → List ℕ
  | b₇ :: b₆ :: b₅ :: b₄ :: b₃ :: b₂ :: b₁ :: b₀ :: rest =>
    ofBits [b₇, b₆, b₅, b₄, b₃, b₂, b₁, b₀] :: bytes rest
  | _ => []

theorem bytes_append {g : List Bool} (hg : g.length = 8) (rest : List Bool) :
    bytes (g ++ rest) = ofBits g :: bytes rest := by
  match g, hg with
  | [_, _, _, _, _, _, _, _], _ => rfl

theorem bytes_short {bs : List Bool} (h : bs.length < 8) : bytes bs = [] := by
  match bs, h with
  | [], _ | [_], _ | [_, _], _ | [_, _, _], _ | [_, _, _, _], _ | [_, _, _, _, _], _
  | [_, _, _, _, _, _], _ | [_, _, _, _, _, _, _], _ => rfl

theorem length_flatMap_toBits (bs : List ℕ) : (bs.flatMap (toBits · 8)).length = 8 * bs.length := by
  induction bs with
  | nil => rfl
  | cons b bs ih =>
    rw [List.flatMap_cons, List.length_append, ih, length_toBits, List.length_cons]
    omega

/-- Bytes are read back from their bits, with fewer than eight bits behind them or with more. -/
theorem bytes_flatMap_toBits {bs : List ℕ} (h : ∀ b ∈ bs, b < 256) (rest : List Bool) :
    bytes (bs.flatMap (toBits · 8) ++ rest) = bs ++ bytes rest := by
  induction bs with
  | nil => rfl
  | cons b bs ih =>
    rw [List.flatMap_cons, List.append_assoc, bytes_append (length_toBits b 8),
      ofBits_toBits (h b (by simp)), ih fun c hc => h c (by simp [hc])]
    rfl

theorem length_bytes (bs : List Bool) : (bytes bs).length = bs.length / 8 := by
  fun_induction bytes bs with
  | case1 b₇ b₆ b₅ b₄ b₃ b₂ b₁ b₀ rest ih =>
    simp only [List.length_cons, ih]
    omega
  | case2 bs h =>
    have hlt : bs.length < 8 := by
      by_contra hge
      match bs, hge with
      | b₇ :: b₆ :: b₅ :: b₄ :: b₃ :: b₂ :: b₁ :: b₀ :: rest, _ =>
        exact h b₇ b₆ b₅ b₄ b₃ b₂ b₁ b₀ rest rfl
      | [], hge | [_], hge | [_, _], hge | [_, _, _], hge | [_, _, _, _], hge | [_, _, _, _, _], hge
      | [_, _, _, _, _, _], hge | [_, _, _, _, _, _, _], hge => simp at hge
    rw [List.length_nil]
    omega

theorem flatMap_toBits_bytes {bs : List Bool} (h : 8 ∣ bs.length) :
    (bytes bs).flatMap (toBits · 8) = bs := by
  fun_induction bytes bs with
  | case1 b₇ b₆ b₅ b₄ b₃ b₂ b₁ b₀ rest ih =>
    have hr : 8 ∣ rest.length := by
      simp only [List.length_cons] at h
      omega
    rw [List.flatMap_cons, ih hr]
    exact congrArg (· ++ rest) (toBits_ofBits [b₇, b₆, b₅, b₄, b₃, b₂, b₁, b₀])
  | case2 bs h' =>
    have hl := length_bytes bs
    have hz : bs.length / 8 = 0 := by
      rw [← hl, bytes]
      · rfl
      · exact h'
    have hnil : bs.length = 0 := by omega
    rw [List.length_eq_zero_iff.mp hnil]
    rfl

theorem bytes_lt (bs : List Bool) : ∀ b ∈ bytes bs, b < 256 := by
  fun_induction bytes bs with
  | case1 b₇ b₆ b₅ b₄ b₃ b₂ b₁ b₀ rest ih =>
    intro b hb
    rcases List.mem_cons.mp hb with rfl | hb
    · have hlt : ofBits [b₇, b₆, b₅, b₄, b₃, b₂, b₁, b₀] < 2 ^ 8 := ofBits_lt _
      exact hlt
    · exact ih b hb
  | case2 bs h => simp

end Lattix.Lib.Bits
