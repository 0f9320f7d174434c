import Mathlib.Algebra.CharP.Two
import Mathlib.Algebra.Field.ZMod
import Mathlib.Data.Nat.Bitwise
import Mathlib.RingTheory.AdjoinRoot

/-! Words of bits multiplied by shift and xor, as polynomials over two elements
modulo the word that is taken off when a bit falls out at the top. -/

namespace Lattix.Lib.Galois
open Polynomial

/-- The lowest `k` bits as coefficients. -/
noncomputable def poly (k n : ℕ) : (ZMod 2)[X] :=
  ∑ i ∈ Finset.range k, if n.testBit i then X ^ i else 0

theorem coeff_poly (k n i : ℕ) : (poly k n).coeff i = if i < k ∧ n.testBit i then 1 else 0 := by
  rw [poly, finsetSum_coeff]
  have hterm : ∀ j, (if n.testBit j then (X : (ZMod 2)[X]) ^ j else 0).coeff i =
      if i = j then (if n.testBit j then 1 else 0) else 0 := by
    intro j
    by_cases hb : n.testBit j <;> simp [hb, coeff_X_pow]
  simp only [hterm, Finset.sum_ite_eq, Finset.mem_range]
  by_cases hi : i < k <;> simp [hi]

theorem poly_succ (k n : ℕ) : poly (k + 1) n = poly k n + if n.testBit k then X ^ k else 0 :=
  Finset.sum_range_succ ..

theorem poly_xor (k a b : ℕ) : poly k (a ^^^ b) = poly k a + poly k b := by
  ext i
  simp only [coeff_add, coeff_poly, Nat.testBit_xor]
  by_cases hi : i < k
  · cases a.testBit i <;> cases b.testBit i <;> simp [hi]
    decide
  · simp [hi]

@[simp] theorem poly_zero (k : ℕ) : poly k 0 = 0 := by
  ext i
  simp [coeff_poly]

theorem poly_one {k : ℕ} (hk : 0 < k) : poly k 1 = 1 := by
  ext i
  rw [coeff_poly, coeff_one]
  cases i with
  | zero => simp [hk]
  | succ i => simp [Nat.testBit_succ]

/-- A word within `k` bits has no more coefficients. -/
theorem poly_grow {k n : ℕ} (h : n < 2 ^ k) : poly (k + 1) n = poly k n := by
  rw [poly_succ, Nat.testBit_lt_two_pow h]
  simp

theorem poly_shift (k n : ℕ) : poly (k + 1) (n <<< 1) = X * poly k n := by
  ext i
  cases i with
  | zero => simp [coeff_poly]
  | succ i => simp [coeff_poly, coeff_X_mul, Nat.testBit_shiftLeft]

theorem degree_poly_lt (k n : ℕ) : (poly k n).degree < k := by
  apply (degree_lt_iff_coeff_zero _ _).mpr
  intro i hi
  simp [coeff_poly, Nat.not_lt.mpr hi]

theorem poly_injective {k a b : ℕ} (ha : a < 2 ^ k) (hb : b < 2 ^ k) (h : poly k a = poly k b) :
    a = b := by
  apply Nat.eq_of_testBit_eq
  intro i
  by_cases hi : i < k
  · have hc := congrArg (fun p => coeff p i) h
    simp only [coeff_poly, hi, true_and] at hc
    cases hx : a.testBit i <;> cases hy : b.testBit i <;> simp_all
  · have hk : 2 ^ k ≤ 2 ^ i := Nat.pow_le_pow_right (by decide) (by omega)
    rw [Nat.testBit_lt_two_pow (by omega), Nat.testBit_lt_two_pow (by omega)]

/-! Multiplication -/

/-- The partial product `z` moved up by one place, where `m` is taken off the
bit that falls out, and `x` added to it when `b` holds. -/
def step (w m x z : ℕ) (b : Bool) : ℕ := ((z <<< 1) ^^^ ((z >>> (w - 1)) * m)) ^^^ (b.toNat * x)

/-- The lowest `i` bits of `y`, the highest first. -/
def loop (w m x y : ℕ) : ℕ → ℕ → ℕ
  | 0, z => z
  | i + 1, z => loop w m x y i (step w m x z (y.testBit i))

def multiply (w m x y : ℕ) : ℕ := loop w m x y w 0

/-- Words of `w` bits whose highest power is replaced by the other bits of `m`. -/
class Modulus (w m : ℕ) : Prop where
  pos : 0 < w
  top : m.testBit w = true
  lt : m < 2 ^ (w + 1)

noncomputable def modulus (w m : ℕ) : (ZMod 2)[X] := poly (w + 1) m

section quotient
variable {w m : ℕ}

noncomputable def residue (w m n : ℕ) : AdjoinRoot (modulus w m) := AdjoinRoot.mk _ (poly w n)

theorem residue_xor (a b : ℕ) : residue w m (a ^^^ b) = residue w m a + residue w m b := by
  simp [residue, poly_xor]

@[simp] theorem residue_zero : residue w m 0 = 0 := by simp [residue]

variable [M : Modulus w m]

@[simp] theorem residue_one : residue w m 1 = 1 := by simp [residue, poly_one M.pos]

theorem degree_modulus : (modulus w m).degree = w := by
  apply le_antisymm
  · apply degree_le_iff_coeff_zero _ _ |>.mpr
    intro i hi
    have hi : ¬ i < w + 1 := by
      rw [Nat.cast_lt] at hi
      omega
    simp [modulus, coeff_poly, hi]
  · apply le_degree_of_ne_zero
    simp [modulus, coeff_poly, M.top]

theorem residue_injective {a b : ℕ} (ha : a < 2 ^ w) (hb : b < 2 ^ w)
    (h : residue w m a = residue w m b) : a = b := by
  apply poly_injective ha hb
  apply sub_eq_zero.mp
  apply eq_zero_of_dvd_of_degree_lt (AdjoinRoot.mk_eq_mk.mp h)
  rw [degree_modulus]
  exact lt_of_le_of_lt (degree_sub_le _ _) (max_lt (degree_poly_lt ..) (degree_poly_lt ..))

omit M in
/-- A word that spills into the next bit, with that bit taken off. -/
theorem mk_poly_succ {z : ℕ} (h : z < 2 ^ (w + 1)) :
    AdjoinRoot.mk (modulus w m) (poly (w + 1) z) =
      AdjoinRoot.mk (modulus w m) (poly (w + 1) (z ^^^ ((z >>> w) * m))) := by
  have hz : z >>> w < 2 := by
    rw [Nat.shiftRight_eq_div_pow]
    exact Nat.div_lt_of_lt_mul (by rwa [← pow_succ])
  rw [poly_xor, map_add]
  interval_cases hs : z >>> w
  · simp
  · have hm : AdjoinRoot.mk (modulus w m) (poly (w + 1) m) = 0 := AdjoinRoot.mk_self
    simp [hm]

theorem reduce_lt {z : ℕ} (h : z < 2 ^ (w + 1)) : z ^^^ ((z >>> w) * m) < 2 ^ w := by
  have hb := Nat.testBit_eq_decide_div_mod_eq (x := z) (i := w)
  rw [← Nat.shiftRight_eq_div_pow] at hb
  have hz : z >>> w < 2 := by
    rw [Nat.shiftRight_eq_div_pow]
    exact Nat.div_lt_of_lt_mul (by rwa [← pow_succ])
  interval_cases hs : z >>> w
  · rw [Nat.shiftRight_eq_div_pow, Nat.div_eq_zero_iff] at hs
    have hp : 0 < 2 ^ w := Nat.two_pow_pos w
    rw [Nat.zero_mul, Nat.xor_zero]
    omega
  · have hx : z ^^^ 1 * m < 2 ^ (w + 1) := by
      rw [Nat.one_mul]
      exact Nat.xor_lt_two_pow h M.lt
    apply Nat.lt_pow_two_of_testBit
    intro i hi
    rcases Nat.lt_or_eq_of_le hi with hi | rfl
    · exact Nat.testBit_lt_two_pow (lt_of_lt_of_le hx (Nat.pow_le_pow_right (by decide) hi))
    · simpa [M.top] using hb

omit M in
theorem shift_top (hw : 0 < w) (z : ℕ) : z >>> (w - 1) = (z <<< 1) >>> w := by
  have hw : w - 1 + 1 = w := Nat.sub_add_cancel hw
  rw [← hw, Nat.shiftRight_eq_div_pow, Nat.shiftRight_eq_div_pow, Nat.shiftLeft_eq, hw, pow_one]
  conv_rhs => rw [← hw, pow_succ, Nat.mul_div_mul_right _ _ (by decide)]

omit M in
theorem shift_lt {z : ℕ} (hz : z < 2 ^ w) : z <<< 1 < 2 ^ (w + 1) := by
  rw [Nat.shiftLeft_eq, pow_succ]
  omega

theorem step_lt {x z : ℕ} (hx : x < 2 ^ w) (hz : z < 2 ^ w) (b : Bool) : step w m x z b < 2 ^ w := by
  have hb : b.toNat * x < 2 ^ w := by cases b <;> simp [hx]
  rw [step, shift_top M.pos]
  exact Nat.xor_lt_two_pow (reduce_lt (shift_lt hz)) hb

theorem residue_step {x z : ℕ} (hz : z < 2 ^ w) (b : Bool) :
    residue w m (step w m x z b) =
      AdjoinRoot.root _ * residue w m z + if b then residue w m x else 0 := by
  have hs := shift_lt hz
  rw [step, shift_top M.pos, residue_xor]
  have hfirst : residue w m (z <<< 1 ^^^ (z <<< 1) >>> w * m) =
      AdjoinRoot.root _ * residue w m z := by
    rw [residue, ← poly_grow (reduce_lt hs), ← mk_poly_succ hs, poly_shift, map_mul,
      AdjoinRoot.mk_X, residue]
  rw [hfirst]
  cases b <;> simp

theorem loop_lt {x : ℕ} (hx : x < 2 ^ w) (y i : ℕ) {z : ℕ} (hz : z < 2 ^ w) :
    loop w m x y i z < 2 ^ w := by
  induction i generalizing z with
  | zero => exact hz
  | succ i ih => exact ih (step_lt hx hz _)

theorem multiply_lt {x : ℕ} (hx : x < 2 ^ w) (y : ℕ) : multiply w m x y < 2 ^ w :=
  loop_lt hx y w (Nat.two_pow_pos w)

/-- What is left of `y` decides what is still to be added. -/
theorem residue_loop {x : ℕ} (hx : x < 2 ^ w) (y i : ℕ) {z : ℕ} (hz : z < 2 ^ w) :
    residue w m (loop w m x y i z) = AdjoinRoot.root _ ^ i * residue w m z +
      residue w m x * AdjoinRoot.mk _ (poly i y) := by
  induction i generalizing z with
  | zero => simp [loop, poly]
  | succ i ih =>
    rw [loop, ih (step_lt hx hz _), residue_step hz, poly_succ, map_add]
    cases hb : y.testBit i
    · simp
      ring
    · simp
      ring

theorem residue_multiply {x : ℕ} (hx : x < 2 ^ w) (y : ℕ) :
    residue w m (multiply w m x y) = residue w m x * residue w m y := by
  rw [multiply, residue_loop hx y w (Nat.two_pow_pos w)]
  simp [residue]

end quotient

/-! The ring of words -/

@[ext] structure Word (w m : ℕ) where
  val : ℕ
  lt : val < 2 ^ w
deriving DecidableEq

namespace Word
variable {w m : ℕ}

/-- The lowest `w` bits. -/
def ofNat (w m n : ℕ) : Word w m := ⟨n % 2 ^ w, Nat.mod_lt _ (Nat.two_pow_pos w)⟩

@[simp] theorem ofNat_val (a : Word w m) : ofNat w m a.val = a := Word.ext (Nat.mod_eq_of_lt a.lt)

theorem val_ofNat {n : ℕ} (h : n < 2 ^ w) : (ofNat w m n).val = n := Nat.mod_eq_of_lt h

instance : Zero (Word w m) := ⟨⟨0, Nat.two_pow_pos w⟩⟩
instance : Add (Word w m) := ⟨fun a b => ⟨a.val ^^^ b.val, Nat.xor_lt_two_pow a.lt b.lt⟩⟩
instance : Sub (Word w m) := ⟨fun a b => ⟨a.val ^^^ b.val, Nat.xor_lt_two_pow a.lt b.lt⟩⟩
instance : Neg (Word w m) := ⟨id⟩

@[simp] theorem val_zero : (0 : Word w m).val = 0 := rfl
@[simp] theorem val_add (a b : Word w m) : (a + b).val = a.val ^^^ b.val := rfl
@[simp] theorem val_sub (a b : Word w m) : (a - b).val = a.val ^^^ b.val := rfl
@[simp] theorem val_neg (a : Word w m) : (-a).val = a.val := rfl

variable [M : Modulus w m]

instance : One (Word w m) := ⟨⟨1, Nat.one_lt_two_pow M.pos.ne'⟩⟩
instance : Mul (Word w m) := ⟨fun a b => ⟨multiply w m a.val b.val, multiply_lt a.lt b.val⟩⟩

@[simp] theorem val_one : (1 : Word w m).val = 1 := rfl
theorem val_mul (a b : Word w m) : (a * b).val = multiply w m a.val b.val := rfl

/-- Words are equal when they leave the same residue. -/
theorem ext_residue {a b : Word w m} (h : residue w m a.val = residue w m b.val) : a = b :=
  Word.ext (residue_injective a.lt b.lt h)

theorem residue_mul (a b : Word w m) :
    residue w m (a * b).val = residue w m a.val * residue w m b.val :=
  residue_multiply a.lt b.val

omit M in
theorem sub_eq_add (a b : Word w m) : a - b = a + b := rfl

instance : CommRing (Word w m) where
  add_assoc a b c := Word.ext (Nat.xor_assoc ..)
  zero_add a := Word.ext (Nat.zero_xor _)
  add_zero a := Word.ext (Nat.xor_zero _)
  add_comm a b := Word.ext (Nat.xor_comm ..)
  neg_add_cancel a := Word.ext (Nat.xor_self _)
  sub_eq_add_neg a b := rfl
  mul_assoc a b c := ext_residue (by simp only [residue_mul, mul_assoc])
  mul_comm a b := ext_residue (by rw [residue_mul, residue_mul, mul_comm])
  one_mul a := ext_residue (by simp [residue_mul])
  mul_one a := ext_residue (by simp [residue_mul])
  zero_mul a := ext_residue (by simp [residue_mul])
  mul_zero a := ext_residue (by simp [residue_mul])
  left_distrib a b c := ext_residue (by
    simp only [residue_mul, val_add, residue_xor, mul_add])
  right_distrib a b c := ext_residue (by
    simp only [residue_mul, val_add, residue_xor, add_mul])
  nsmul := nsmulRec
  zsmul := zsmulRec

end Word

end Lattix.Lib.Galois
