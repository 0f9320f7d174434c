import Mathlib.Data.Finset.Sort
import Mathlib.LinearAlgebra.Vandermonde
import Mathlib.Tactic.LinearCombination

/-! Reed–Solomon words: what a shift register appends so that the word vanishes
at chosen powers, and how far two words with that property lie apart. -/

namespace Lattix.Lib.ReedSolomon

section ring
variable {K : Type*} [CommRing K] {x : K}

/-- The word as coefficients, the highest first. -/
def value (x : K) (u : List K) : K := u.foldl (fun v c => v * x + c) 0

@[simp] theorem value_nil : value x [] = 0 := rfl

theorem foldl_value (u : List K) (v : K) :
    u.foldl (fun v c => v * x + c) v = v * x ^ u.length + value x u := by
  induction u generalizing v with
  | nil => simp
  | cons c u ih =>
    have hc : value x (c :: u) = c * x ^ u.length + value x u := by
      rw [value, List.foldl_cons, ih]
      simp
    rw [List.foldl_cons, ih, hc, List.length_cons, pow_succ]
    ring

@[simp] theorem value_cons (c : K) (u : List K) :
    value x (c :: u) = c * x ^ u.length + value x u := by
  rw [value, List.foldl_cons, foldl_value]
  simp

theorem value_append (u v : List K) :
    value x (u ++ v) = value x u * x ^ v.length + value x v := by
  rw [value, List.foldl_append, foldl_value]
  rfl

theorem value_zeros (n : ℕ) (u : List K) : value x (List.replicate n 0 ++ u) = value x u := by
  induction n with
  | zero => rfl
  | succ n ih => simp [List.replicate_succ, ih]

theorem value_zipWith (b : K) {u v : List K} (h : u.length = v.length) :
    value x (List.zipWith (fun s c => s + c * b) u v) = value x u + value x v * b := by
  induction u generalizing v with
  | nil =>
    cases v with
    | nil => simp
    | cons c v => simp at h
  | cons a u ih =>
    cases v with
    | nil => simp at h
    | cons c v =>
      have hl : u.length = v.length := by simpa using h
      simp only [List.zipWith_cons_cons, value_cons, List.length_zipWith, hl, Nat.min_self, ih hl]
      ring

/-! The generator -/

/-- Multiplication by `X - r` in a register of fixed length: the top coefficient is lost. -/
def timesRoot (r : K) : List K → List K
  | [] => []
  | [a] => [-(a * r)]
  | a :: b :: u => (b - a * r) :: timesRoot r (b :: u)

@[simp] theorem length_timesRoot (r : K) (u : List K) : (timesRoot r u).length = u.length := by
  fun_induction timesRoot r u with
  | case1 => rfl
  | case2 a => rfl
  | case3 a b u ih => simp [ih]

theorem value_timesRoot (r a : K) (u : List K) :
    value x (timesRoot r (a :: u)) = (x - r) * value x (a :: u) - a * x ^ (u.length + 1) := by
  induction u generalizing a with
  | nil =>
    simp [timesRoot]
    ring
  | cons b u ih =>
    rw [timesRoot, value_cons, length_timesRoot, ih, value_cons a, List.length_cons, pow_succ,
      pow_succ]
    ring

theorem timesRoot_zeros (r : K) (n : ℕ) (u : List K) : ∃ v, v.length = u.length + 1 ∧
    timesRoot r (List.replicate (n + 1) 0 ++ 1 :: u) = List.replicate n 0 ++ 1 :: v := by
  induction n with
  | zero => exact ⟨timesRoot r (1 :: u), by simp, by simp [timesRoot]⟩
  | succ n ih =>
    obtain ⟨v, hv, he⟩ := ih
    refine ⟨v, hv, ?_⟩
    have hstep : timesRoot r (0 :: (List.replicate (n + 1) 0 ++ 1 :: u)) =
        0 :: timesRoot r (List.replicate (n + 1) 0 ++ 1 :: u) := by
      simp [List.replicate_succ, timesRoot]
    rw [List.replicate_succ, List.cons_append, hstep, he, List.replicate_succ, List.cons_append]

/-- What follows the leading one of the product of `X - r` over `rs`. -/
def generator (rs : List K) : List K :=
  rs.foldl (fun g r => timesRoot r g) (List.replicate (rs.length - 1) 0 ++ [1])

/-- Before the last root the register holds the whole product, behind zeros. -/
theorem product_roots (rs : List K) (n : ℕ) (u : List K) (hn : rs.length = n) :
    ∃ v, v.length = u.length + n ∧
      rs.foldl (fun g r => timesRoot r g) (List.replicate n 0 ++ 1 :: u) = 1 :: v ∧
      ∀ x, value x (1 :: v) = value x (1 :: u) * (rs.map (x - ·)).prod := by
  induction rs generalizing n u with
  | nil =>
    subst hn
    exact ⟨u, by simp, by simp, by simp⟩
  | cons r rs ih =>
    obtain ⟨n, rfl⟩ : ∃ k, n = k + 1 := ⟨rs.length, hn.symm⟩
    obtain ⟨w, hw, he⟩ := timesRoot_zeros r n u
    obtain ⟨v, hv, hf, hp⟩ := ih n w (by simpa using hn)
    refine ⟨v, by omega, by rw [List.foldl_cons, he, hf], ?_⟩
    intro x
    have hx := congrArg (value x) he
    rw [List.replicate_succ, List.cons_append, value_timesRoot, value_cons, value_zeros,
      value_zeros] at hx
    rw [hp, ← hx, List.map_cons, List.prod_cons]
    ring

theorem length_generator {rs : List K} (h : rs ≠ []) : (generator rs).length = rs.length := by
  have hl : ∀ (qs g : List K), (qs.foldl (fun g r => timesRoot r g) g).length = g.length := by
    intro qs
    induction qs with
    | nil => intro g; rfl
    | cons q qs ih => intro g; rw [List.foldl_cons, ih, length_timesRoot]
  have hpos := List.length_pos_of_ne_nil h
  rw [generator, hl, List.length_append, List.length_replicate, List.length_singleton]
  omega

theorem value_generator {rs : List K} (h : rs ≠ []) (x : K) :
    value x (1 :: generator rs) = (rs.map (x - ·)).prod := by
  obtain ⟨qs, r, rfl⟩ := List.eq_nil_or_concat' rs |>.resolve_left h
  obtain ⟨v, hv, hf, hp⟩ := product_roots qs qs.length [] rfl
  have hg : generator (qs ++ [r]) = timesRoot r (1 :: v) := by
    rw [generator, List.foldl_append, List.length_append, List.length_singleton,
      Nat.add_sub_cancel, hf]
    rfl
  have hl : (timesRoot r (1 :: v)).length = v.length + 1 := length_timesRoot ..
  rw [hg, value_cons, value_timesRoot, hl, hp, List.map_append, List.prod_append]
  simp
  ring

/-! Division -/

/-- One more data word through the register `p`. -/
def feed (g p : List K) (b : K) : List K :=
  List.zipWith (fun s c => s + c * (b - p.headD 0)) (p.tail ++ [0]) g

def parity (g u : List K) : List K := u.foldl (feed g) (List.replicate g.length 0)

theorem length_feed {g p : List K} (b : K) (hg : g ≠ []) (hp : p.length = g.length) :
    (feed g p b).length = g.length := by
  have hpos := List.length_pos_of_ne_nil hg
  rw [feed, List.length_zipWith, List.length_append, List.length_tail, List.length_singleton]
  omega

theorem value_feed {g p : List K} (b : K) (hg : g ≠ []) (hp : p.length = g.length)
    (hx : value x (1 :: g) = 0) :
    value x (feed g p b) = x * value x p - b * x ^ g.length := by
  cases p with
  | nil =>
    have hpos := List.length_pos_of_ne_nil hg
    rw [List.length_nil] at hp
    omega
  | cons a p =>
    have hl : (p ++ [0]).length = g.length := by simpa using hp
    rw [value_cons, one_mul] at hx
    rw [feed, List.tail_cons, List.headD_cons, value_zipWith _ hl, value_append, ← hp, value_cons]
    rw [← hp] at hx
    simp only [List.length_cons, value_cons, value_nil, pow_succ,
      List.length_nil, pow_zero] at hx ⊢
    linear_combination (b - a) * hx

theorem length_foldl_feed {g : List K} (hg : g ≠ []) (u p : List K) (hp : p.length = g.length) :
    (u.foldl (feed g) p).length = g.length := by
  induction u generalizing p with
  | nil => exact hp
  | cons b u ih => exact ih _ (length_feed b hg hp)

theorem length_parity {g : List K} (hg : g ≠ []) (u : List K) : (parity g u).length = g.length :=
  length_foldl_feed hg u _ (List.length_replicate ..)

theorem value_foldl_feed {g : List K} (hg : g ≠ []) (hx : value x (1 :: g) = 0) (u p : List K)
    (hp : p.length = g.length) :
    value x (u.foldl (feed g) p) = x ^ u.length * value x p - value x u * x ^ g.length := by
  induction u generalizing p with
  | nil => simp
  | cons b u ih =>
    rw [List.foldl_cons, ih _ (length_feed b hg hp), value_feed b hg hp hx, value_cons,
      List.length_cons, pow_succ]
    ring

/-- Data with its parity vanish wherever the generator does. -/
theorem value_parity {g : List K} (hg : g ≠ []) (hx : value x (1 :: g) = 0) (u : List K) :
    value x (u ++ parity g u) = 0 := by
  have hz : value x (List.replicate g.length (0 : K)) = 0 := by
    have := value_zeros (x := x) g.length []
    simpa using this
  rw [value_append, length_parity hg, parity,
    value_foldl_feed hg hx u _ (List.length_replicate ..), hz]
  ring

end ring

/-! Distance -/

/-- In how many places two words differ. -/
def mismatches {α : Type*} [DecidableEq α] : List α → List α → ℕ
  | a :: u, b :: v => (if a = b then 0 else 1) + mismatches u v
  | _, _ => 0

section words
variable {α : Type*} [DecidableEq α]

@[simp] theorem mismatches_self (u : List α) : mismatches u u = 0 := by
  induction u with
  | nil => rfl
  | cons a u ih => simp [mismatches, ih]

theorem mismatches_comm (u v : List α) : mismatches u v = mismatches v u := by
  fun_induction mismatches u v with
  | case1 a u b v ih =>
    rw [mismatches, ih]
    by_cases h : a = b
    · simp [h]
    · simp [h, Ne.symm h]
  | case2 u v h =>
    cases u with
    | nil => cases v <;> rfl
    | cons a u =>
      cases v with
      | nil => rfl
      | cons b v => exact (h a u b v rfl rfl).elim

theorem mismatches_triangle {u v w : List α} (huv : u.length = v.length)
    (hvw : v.length = w.length) : mismatches u w ≤ mismatches u v + mismatches v w := by
  induction u generalizing v w with
  | nil => simp [mismatches]
  | cons a u ih =>
    cases v with
    | nil => simp at huv
    | cons b v =>
      cases w with
      | nil => simp at hvw
      | cons c w =>
        have ht := ih (by simpa using huv) (by simpa using hvw)
        have hone : (if a = c then 0 else 1) ≤ (if a = b then 0 else 1) + if b = c then 0 else 1 := by
          split_ifs <;> simp_all
        simp only [mismatches]
        omega

theorem eq_of_mismatches {u v : List α} (hl : u.length = v.length) (h : mismatches u v = 0) :
    u = v := by
  induction u generalizing v with
  | nil => exact (List.length_eq_zero_iff.mp hl.symm).symm
  | cons a u ih =>
    cases v with
    | nil => simp at hl
    | cons b v =>
      rw [mismatches] at h
      by_cases hab : a = b
      · rw [hab, ih (by simpa using hl) (by omega)]
      · simp [hab] at h

end words

section field
variable {K : Type*} [Field K] [DecidableEq K]

/-- The nonzero differences, with the powers they stand at. -/
def errors : List K → List K → List (K × ℕ)
  | a :: u, b :: v => if a = b then errors u v else (a - b, u.length) :: errors u v
  | _, _ => []

theorem length_errors (u v : List K) : (errors u v).length = mismatches u v := by
  fun_induction errors u v with
  | case1 a u v ih => simpa [mismatches] using ih
  | case2 a u b v h ih =>
    rw [List.length_cons, ih, mismatches, if_neg h]
    omega
  | case3 u v h =>
    cases u with
    | nil => rfl
    | cons a u =>
      cases v with
      | nil => rfl
      | cons b v => exact (h a u b v rfl rfl).elim

theorem value_sub_value {x : K} {u v : List K} (hl : u.length = v.length) :
    value x u - value x v = ((errors u v).map fun e => e.1 * x ^ e.2).sum := by
  induction u generalizing v with
  | nil =>
    rw [List.length_eq_zero_iff.mp hl.symm]
    simp [errors]
  | cons a u ih =>
    cases v with
    | nil => simp at hl
    | cons b v =>
      have hl' : u.length = v.length := by simpa using hl
      rw [errors]
      split_ifs with h
      · rw [← ih hl', h]
        simp [hl']
      · rw [List.map_cons, List.sum_cons, ← ih hl']
        simp only [value_cons, hl']
        ring

theorem errors_below (u v : List K) : ∀ e ∈ errors u v, e.1 ≠ 0 ∧ e.2 < u.length := by
  fun_induction errors u v with
  | case1 a u v ih =>
    intro e he
    exact ⟨(ih e he).1, Nat.lt_succ_of_lt (ih e he).2⟩
  | case2 a u b v h ih =>
    intro e he
    rcases List.mem_cons.mp he with rfl | he
    · exact ⟨sub_ne_zero.mpr h, Nat.lt_succ_self _⟩
    · exact ⟨(ih e he).1, Nat.lt_succ_of_lt (ih e he).2⟩
  | case3 u v h => simp

theorem errors_sorted (u v : List K) : (errors u v).Pairwise fun e f => f.2 < e.2 := by
  fun_induction errors u v with
  | case1 a u v ih => exact ih
  | case2 a u b v h ih => exact List.pairwise_cons.mpr ⟨fun e he => (errors_below u v e he).2, ih⟩
  | case3 u v h => exact List.Pairwise.nil

variable {α : K} {d n t : ℕ}

/-- The words of length `n` that vanish at the first `d` powers of `α`. -/
def Codeword (α : K) (d n : ℕ) (u : List K) : Prop :=
  u.length = n ∧ ∀ j < d, value (α ^ j) u = 0

/-- Two words that differ in at most `d` places do not differ. -/
theorem Codeword.eq_of_mismatches_le {u v : List K} (hα : Set.InjOn (α ^ ·) (Set.Iio n))
    (hu : Codeword α d n u) (hv : Codeword α d n v) (h : mismatches u v ≤ d) : u = v := by
  have hl : u.length = v.length := hu.1.trans hv.1.symm
  apply eq_of_mismatches hl
  rw [← length_errors] at h ⊢
  have hbelow := errors_below u v
  have hs := List.pairwise_iff_get.mp (errors_sorted u v)
  have hz := fun x => value_sub_value (x := x) hl
  generalize errors u v = es at h hbelow hs hz ⊢
  have hinj : Function.Injective fun k : Fin es.length => α ^ (es.get k).2 := by
    intro k l hkl
    have hn : ∀ i : Fin es.length, (es.get i).2 ∈ Set.Iio n := by
      intro i
      rw [Set.mem_Iio, ← hu.1]
      exact (hbelow _ (List.get_mem ..)).2
    have he := hα (hn k) (hn l) hkl
    rcases lt_trichotomy k l with hlt | rfl | hlt
    · exact absurd he (hs k l hlt).ne'
    · rfl
    · exact absurd he (hs l k hlt).ne
  have hsums : ∀ i : Fin es.length,
      ∑ k : Fin es.length, (es.get k).1 * (α ^ (es.get k).2) ^ (i : ℕ) = 0 := by
    intro i
    have hi : (i : ℕ) < d := lt_of_lt_of_le i.isLt h
    have hi := hz (α ^ (i : ℕ)) ▸ sub_eq_zero.mpr ((hu.2 i hi).trans (hv.2 i hi).symm)
    rw [← Fin.sum_univ_fun_getElem] at hi
    simpa only [List.get_eq_getElem, pow_right_comm α] using hi
  have hzero := Matrix.eq_zero_of_forall_pow_sum_mul_pow_eq_zero hinj hsums
  cases es with
  | nil => rfl
  | cons e es =>
    have he := congrFun hzero ⟨0, by simp⟩
    exact absurd he (hbelow e (by simp)).1

/-- What a reader may take a damaged word for: a codeword few places away. -/
def Corrects (α : K) (d n t : ℕ) (received u : List K) : Prop :=
  Codeword α d n u ∧ mismatches u received ≤ t

theorem Corrects.unique {u v received : List K} (hα : Set.InjOn (α ^ ·) (Set.Iio n))
    (ht : 2 * t ≤ d) (hr : received.length = n)
    (hu : Corrects α d n t received u) (hv : Corrects α d n t received v) : u = v := by
  apply hu.1.eq_of_mismatches_le hα hv.1
  have h := mismatches_triangle (hu.1.1.trans hr.symm) (hr.trans hv.1.1.symm)
  have hc := mismatches_comm received v
  have hu' := hu.2
  have hv' := hv.2
  omega

end field

end Lattix.Lib.ReedSolomon
