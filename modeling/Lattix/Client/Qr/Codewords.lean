import Lattix.Lib.Galois
import Lattix.Lib.ReedSolomon
import Mathlib.Data.ZMod.Basic
import Mathlib.GroupTheory.OrderOfElement

/-! The codewords of a QR symbol: how many there are, their error correction, and
the order they are drawn in. -/

namespace Lattix.Client.Qr
open Lattix.Lib Lattix.Lib.Galois Lattix.Lib.ReedSolomon

/-- `ECC` -/
inductive Ecc where
  | low | medium | quartile | high
deriving DecidableEq, Repr

def Ecc.all : List Ecc := [.low, .medium, .quartile, .high]

theorem Ecc.mem_all (ecl : Ecc) : ecl ∈ Ecc.all := by cases ecl <;> decide

/-! The tables, by level and version. No version reads the place 0. -/

def ECC_CODEWORDS_PER_BLOCK : Ecc → List ℕ
  | .low => [0, 7, 10, 15, 20, 26, 18, 20, 24, 30, 18, 20, 24, 26, 30, 22, 24, 28, 30, 28, 28, 28, 28,
    30, 30, 26, 28, 30, 30, 30, 30, 30, 30, 30, 30, 30, 30, 30, 30, 30, 30]
  | .medium => [0, 10, 16, 26, 18, 24, 16, 18, 22, 22, 26, 30, 22, 22, 24, 24, 28, 28, 26, 26, 26, 26,
    28, 28, 28, 28, 28, 28, 28, 28, 28, 28, 28, 28, 28, 28, 28, 28, 28, 28, 28]
  | .quartile => [0, 13, 22, 18, 26, 18, 24, 18, 22, 20, 24, 28, 26, 24, 20, 30, 24, 28, 28, 26, 30, 28,
    30, 30, 30, 30, 28, 30, 30, 30, 30, 30, 30, 30, 30, 30, 30, 30, 30, 30, 30]
  | .high => [0, 17, 28, 22, 16, 22, 28, 26, 26, 24, 28, 24, 28, 22, 24, 24, 30, 28, 28, 26, 28, 30, 24,
    30, 30, 30, 30, 30, 30, 30, 30, 30, 30, 30, 30, 30, 30, 30, 30, 30, 30]

def NUM_ERROR_CORRECTION_BLOCKS : Ecc → List ℕ
  | .low => [0, 1, 1, 1, 1, 1, 2, 2, 2, 2, 4, 4, 4, 4, 4, 6, 6, 6, 6, 7, 8, 8, 9, 9, 10, 12, 12, 12, 13,
    14, 15, 16, 17, 18, 19, 19, 20, 21, 22, 24, 25]
  | .medium => [0, 1, 1, 1, 2, 2, 4, 4, 4, 5, 5, 5, 8, 9, 9, 10, 10, 11, 13, 14, 16, 17, 17, 18, 20, 21,
    23, 25, 26, 28, 29, 31, 33, 35, 37, 38, 40, 43, 45, 47, 49]
  | .quartile => [0, 1, 1, 2, 2, 4, 4, 6, 6, 8, 8, 8, 10, 12, 16, 12, 17, 16, 18, 21, 20, 23, 23, 25, 27,
    29, 34, 34, 35, 38, 40, 43, 45, 48, 51, 53, 56, 59, 62, 65, 68]
  | .high => [0, 1, 1, 2, 4, 4, 4, 5, 6, 8, 8, 11, 11, 16, 16, 18, 16, 19, 21, 25, 25, 25, 34, 30, 32, 35,
    37, 40, 42, 45, 48, 51, 54, 57, 60, 63, 66, 70, 74, 77, 81]

def MIN_VERSION : ℕ := 1
def MAX_VERSION : ℕ := 40

def getNumRawDataModules (ver : ℕ) : ℕ :=
  let result := (16 * ver + 128) * ver + 64
  if ver ≥ 2 then
    let numAlign := ver / 7 + 2
    let result := result - ((25 * numAlign - 10) * numAlign - 55)
    if ver ≥ 7 then result - 36 else result
  else result

def getNumDataCodewords (ver : ℕ) (ecl : Ecc) : ℕ :=
  getNumRawDataModules ver / 8 -
    (ECC_CODEWORDS_PER_BLOCK ecl).getD ver 0 * (NUM_ERROR_CORRECTION_BLOCKS ecl).getD ver 0

/-! Reed–Solomon -/

def reedSolomonMultiply (x y : ℕ) : ℕ :=
  ([7, 6, 5, 4, 3, 2, 1, 0].foldl (fun z i =>
    let z := (z <<< 1) ^^^ ((z >>> 7) * 0x11d)
    z ^^^ (((y >>> i) &&& 1) * x)) 0) &&& 0xff

/-- One pass of the inner loop, which leaves the entry behind `j` as it was when it reads it. -/
def multiplyByRoot (root : ℕ) : List ℕ → List ℕ
  | [] => []
  | [a] => [reedSolomonMultiply a root]
  | a :: b :: rest => (reedSolomonMultiply a root ^^^ b) :: multiplyByRoot root (b :: rest)

def reedSolomonComputeDivisor (degree : ℕ) : List ℕ :=
  ((List.range degree).foldl (fun s _ =>
    (multiplyByRoot s.2 s.1, reedSolomonMultiply s.2 0x02))
    (List.replicate (degree - 1) 0 ++ [1], 1)).1

/-- `result` moved down by one place and the divisor taken off. -/
def shiftIn (divisor result : List ℕ) (b : ℕ) : List ℕ :=
  let factor := b ^^^ result.headD 0
  List.zipWith (fun r d => r ^^^ reedSolomonMultiply d factor) (result.tail ++ [0]) divisor

def reedSolomonComputeRemainder (data divisor : List ℕ) : List ℕ :=
  data.foldl (shiftIn divisor) (List.replicate divisor.length 0)

/-! Blocks -/

def numBlocks (ver : ℕ) (ecl : Ecc) : ℕ := (NUM_ERROR_CORRECTION_BLOCKS ecl).getD ver 0
def blockEccLen (ver : ℕ) (ecl : Ecc) : ℕ := (ECC_CODEWORDS_PER_BLOCK ecl).getD ver 0
def rawCodewords (ver : ℕ) : ℕ := getNumRawDataModules ver / 8
def numShortBlocks (ver : ℕ) (ecl : Ecc) : ℕ := numBlocks ver ecl - rawCodewords ver % numBlocks ver ecl
def shortBlockLen (ver : ℕ) (ecl : Ecc) : ℕ := rawCodewords ver / numBlocks ver ecl

/-- How many data codewords block `i` takes. -/
def dataLen (ver : ℕ) (ecl : Ecc) (i : ℕ) : ℕ :=
  shortBlockLen ver ecl - blockEccLen ver ecl + if i < numShortBlocks ver ecl then 0 else 1

/-- The blocks from number `i` on, whose data start at `k`. -/
def makeBlocks (ver : ℕ) (ecl : Ecc) (rsDiv data : List ℕ) : List ℕ → ℕ → List (List ℕ)
  | [], _ => []
  | i :: is, k =>
    let dat := (data.drop k).take (dataLen ver ecl i)
    let ecc := reedSolomonComputeRemainder dat rsDiv
    -- a short block has an empty place where the others have one more
    (dat ++ (if i < numShortBlocks ver ecl then [0] else []) ++ ecc) ::
      makeBlocks ver ecl rsDiv data is (k + dat.length)

def addEccAndInterleave (ver : ℕ) (ecl : Ecc) (data : List ℕ) : List ℕ :=
  let blocks := makeBlocks ver ecl (reedSolomonComputeDivisor (blockEccLen ver ecl)) data
    (List.range (numBlocks ver ecl)) 0
  (List.range ((blocks.headD []).length)).flatMap fun i =>
    ((List.range blocks.length).filter fun j =>
      i ≠ shortBlockLen ver ecl - blockEccLen ver ecl ∨ j ≥ numShortBlocks ver ecl).map fun j =>
        (blocks.getD j []).getD i 0

/-! The field -/

instance : Modulus 8 0x11d := ⟨by decide, by decide, by decide⟩

/-- Bytes under exclusive or and `reedSolomonMultiply`. -/
abbrev Gf : Type := Word 8 0x11d

abbrev gf (b : ℕ) : Gf := Word.ofNat 8 0x11d b

theorem and_ff (n : ℕ) : n &&& 0xff = n % 2 ^ 8 := Nat.and_two_pow_sub_one_eq_mod n 8

theorem reedSolomonMultiply_eq {x : ℕ} (hx : x < 256) (y : ℕ) :
    reedSolomonMultiply x y = multiply 8 0x11d x y := by
  have hbit : ∀ i, (y >>> i) &&& 1 = (y.testBit i).toNat := by
    intro i
    rw [Nat.testBit_eq_decide_div_mod_eq, Nat.and_one_is_mod, Nat.shiftRight_eq_div_pow]
    rcases Nat.mod_two_eq_zero_or_one (y / 2 ^ i) with h | h <;> simp [h]
  have hlt : multiply 8 0x11d x y < 2 ^ 8 := multiply_lt hx y
  rw [reedSolomonMultiply, and_ff]
  simp only [List.foldl_cons, List.foldl_nil, hbit]
  exact Nat.mod_eq_of_lt hlt

theorem reedSolomonMultiply_lt (x y : ℕ) : reedSolomonMultiply x y < 256 := by
  rw [reedSolomonMultiply, and_ff]
  exact Nat.mod_lt _ (by decide)

theorem gf_xor (a b : ℕ) : gf (a ^^^ b) = gf a + gf b :=
  Word.ext (Nat.xor_mod_two_pow)

theorem gf_multiply {x : ℕ} (hx : x < 256) {y : ℕ} (hy : y < 256) :
    gf (reedSolomonMultiply x y) = gf x * gf y := by
  apply Word.ext
  rw [reedSolomonMultiply_eq hx, Word.val_mul, Word.val_ofNat (multiply_lt hx y),
    Word.val_ofNat hx, Word.val_ofNat hy]

theorem gf_injective {a b : ℕ} (ha : a < 256) (hb : b < 256) (h : gf a = gf b) : a = b := by
  have := congrArg Word.val h
  rwa [Word.val_ofNat ha, Word.val_ofNat hb] at this

/-- `a` to the power 254. -/
def inverse (a : Gf) : Gf :=
  let b := a * a
  let c := b * b
  let d := c * c
  let e := d * d
  let f := e * e
  let g := f * f
  b * c * d * e * f * g * (g * g)

theorem mul_inverse (a : Gf) (h : a ≠ 0) : a * inverse a = 1 := by
  have hall : ∀ n < 256, gf n = 0 ∨ gf n * inverse (gf n) = 1 := by decide +kernel
  have := hall a.val a.lt
  rw [gf, Word.ofNat_val] at this
  exact this.resolve_left h

instance : Field Gf where
  inv := inverse
  exists_pair_ne := ⟨0, 1, fun h => absurd (congrArg Word.val h) (by decide)⟩
  mul_inv_cancel := mul_inverse
  inv_zero := by decide +kernel
  nnqsmul := _
  nnqsmul_def _ _ := rfl
  qsmul := _
  qsmul_def _ _ := rfl

/-- The powers of two below the 255th differ. -/
theorem powers_injective : Set.InjOn (fun k : ℕ => gf 2 ^ k) (Set.Iio 255) := by
  have horder : orderOf (gf 2) = 255 := by
    apply orderOf_eq_of_pow_and_pow_div_prime (by decide)
    · decide +kernel
    · intro p hp hd
      have hfactors : p ∣ 3 * 5 * 17 := hd
      rw [hp.dvd_mul, hp.dvd_mul, Nat.prime_dvd_prime_iff_eq hp (by decide),
        Nat.prime_dvd_prime_iff_eq hp (by decide), Nat.prime_dvd_prime_iff_eq hp (by decide)] at hfactors
      rcases hfactors with (rfl | rfl) | rfl <;> decide +kernel
  rw [← horder]
  exact pow_injOn_Iio_orderOf

/-! The loops over bytes -/

def Bytes (l : List ℕ) : Prop := ∀ b ∈ l, b < 256

theorem Bytes.append {l r : List ℕ} (hl : Bytes l) (hr : Bytes r) : Bytes (l ++ r) := by
  intro b hb
  rcases List.mem_append.mp hb with hb | hb
  · exact hl b hb
  · exact hr b hb

theorem Bytes.zeros (n : ℕ) : Bytes (List.replicate n 0) := by
  intro b hb
  rw [List.eq_of_mem_replicate hb]
  decide

theorem xor_lt {a b : ℕ} (ha : a < 256) (hb : b < 256) : a ^^^ b < 256 :=
  Nat.xor_lt_two_pow (n := 8) ha hb

theorem map_gf_injective {u v : List ℕ} (hu : Bytes u) (hv : Bytes v)
    (h : u.map gf = v.map gf) : u = v := by
  induction u generalizing v with
  | nil => exact (List.map_eq_nil_iff.mp h.symm).symm
  | cons a u ih =>
    cases v with
    | nil => cases h
    | cons b v =>
      obtain ⟨hab, huv⟩ := List.cons.inj h
      rw [gf_injective (hu a (by simp)) (hv b (by simp)) hab,
        ih (fun c hc => hu c (by simp [hc])) (fun c hc => hv c (by simp [hc])) huv]

theorem multiplyByRoot_gf {root : ℕ} (hroot : root < 256) {l : List ℕ} (hl : Bytes l) :
    (multiplyByRoot root l).map gf = timesRoot (gf root) (l.map gf) := by
  fun_induction multiplyByRoot root l with
  | case1 => rfl
  | case2 a => exact congrArg ([·]) (gf_multiply (hl a (by simp)) hroot)
  | case3 a b rest ih =>
    have ih := ih fun c hc => hl c (by simp [hc])
    rw [List.map_cons, ih, gf_xor, gf_multiply (hl a (by simp)) hroot]
    simp only [List.map_cons, timesRoot, Word.sub_eq_add, add_comm]

theorem multiplyByRoot_bytes {root : ℕ} {l : List ℕ} (hl : Bytes l) :
    Bytes (multiplyByRoot root l) := by
  fun_induction multiplyByRoot root l with
  | case1 => exact hl
  | case2 a =>
    intro b hb
    rw [List.mem_singleton.mp hb]
    exact reedSolomonMultiply_lt ..
  | case3 a b rest ih =>
    intro c hc
    rcases List.mem_cons.mp hc with rfl | hc
    · exact xor_lt (reedSolomonMultiply_lt ..) (hl b (by simp))
    · exact ih (fun c hc => hl c (by simp [hc])) c hc

/-- The roots of a divisor. -/
def roots (degree : ℕ) : List Gf := (List.range degree).map (gf 2 ^ ·)

/-- After each pass the register holds the product so far and `root` the next power. -/
theorem divisor_loop (degree n : ℕ) :
    let s := (List.range n).foldl (fun s (_ : ℕ) =>
      (multiplyByRoot s.2 s.1, reedSolomonMultiply s.2 0x02)) (List.replicate (degree - 1) 0 ++ [1], 1)
    Bytes s.1 ∧ s.2 < 256 ∧ gf s.2 = gf 2 ^ n ∧
      s.1.map gf = (roots n).foldl (fun g r => timesRoot r g) (List.replicate (degree - 1) 0 ++ [1]) := by
  induction n with
  | zero =>
    refine ⟨(Bytes.zeros _).append (by simp [Bytes]), by simp, rfl, ?_⟩
    simp only [List.range_zero, List.foldl_nil, List.map_append, List.map_replicate, roots, List.map_nil]
    rfl
  | succ n ih =>
    obtain ⟨hb, hr, hp, hg⟩ := ih
    simp only [List.range_succ, List.foldl_append, List.foldl_cons, List.foldl_nil]
    refine ⟨multiplyByRoot_bytes hb, reedSolomonMultiply_lt .., ?_, ?_⟩
    · rw [gf_multiply hr (by decide), hp, pow_succ]
    · rw [multiplyByRoot_gf hr hb, hg, hp, roots, roots, List.range_succ, List.map_append,
        List.foldl_append]
      rfl

theorem reedSolomonComputeDivisor_bytes (degree : ℕ) : Bytes (reedSolomonComputeDivisor degree) :=
  (divisor_loop degree degree).1

theorem reedSolomonComputeDivisor_gf (degree : ℕ) :
    (reedSolomonComputeDivisor degree).map gf = generator (roots degree) := by
  rw [reedSolomonComputeDivisor, (divisor_loop degree degree).2.2.2, generator, roots, List.length_map,
    List.length_range]

theorem zipWith_bytes {u v : List ℕ} (hu : Bytes u) (factor : ℕ) :
    Bytes (List.zipWith (fun r d => r ^^^ reedSolomonMultiply d factor) u v) := by
  intro b hb
  obtain ⟨i, hi, rfl⟩ := List.getElem_of_mem hb
  rw [List.getElem_zipWith]
  exact xor_lt (hu _ (List.getElem_mem ..)) (reedSolomonMultiply_lt ..)

theorem zipWith_gf {u v : List ℕ} (hv : Bytes v) {factor : ℕ} (hf : factor < 256) :
    (List.zipWith (fun r d => r ^^^ reedSolomonMultiply d factor) u v).map gf =
      List.zipWith (fun s c => s + c * gf factor) (u.map gf) (v.map gf) := by
  induction u generalizing v with
  | nil => rfl
  | cons a u ih =>
    cases v with
    | nil => rfl
    | cons d v =>
      rw [List.zipWith_cons_cons, List.map_cons, ih fun b hb => hv b (by simp [hb]), gf_xor,
        gf_multiply (hv d (by simp)) hf]
      rfl

theorem shiftIn_spec {divisor result : List ℕ} {b : ℕ} (hb : b < 256) (hdiv : Bytes divisor)
    (hres : Bytes result) : Bytes (shiftIn divisor result b) ∧
      (shiftIn divisor result b).map gf = feed (divisor.map gf) (result.map gf) (gf b) := by
  have hhead : result.headD 0 < 256 := by
    cases result with
    | nil => decide
    | cons a result => exact hres a (by simp)
  constructor
  · apply zipWith_bytes
    exact Bytes.append (fun c hc => hres c (List.mem_of_mem_tail hc)) (Bytes.zeros 1)
  · rw [shiftIn, zipWith_gf hdiv (xor_lt hb hhead), feed, gf_xor, List.map_append, List.map_tail]
    cases result <;> rfl

theorem remainder_loop {data divisor result : List ℕ} (hdata : Bytes data) (hdiv : Bytes divisor)
    (hres : Bytes result) : Bytes (data.foldl (shiftIn divisor) result) ∧
      (data.foldl (shiftIn divisor) result).map gf =
        (data.map gf).foldl (feed (divisor.map gf)) (result.map gf) := by
  induction data generalizing result with
  | nil => exact ⟨hres, rfl⟩
  | cons b data ih =>
    obtain ⟨hbytes, hgf⟩ := shiftIn_spec (hdata b (by simp)) hdiv hres
    rw [List.map_cons, List.foldl_cons, List.foldl_cons, ← hgf]
    exact ih (fun c hc => hdata c (by simp [hc])) hbytes

theorem reedSolomonComputeRemainder_bytes {data divisor : List ℕ} (hdata : Bytes data)
    (hdiv : Bytes divisor) : Bytes (reedSolomonComputeRemainder data divisor) :=
  (remainder_loop hdata hdiv (Bytes.zeros _)).1

theorem reedSolomonComputeRemainder_gf {data divisor : List ℕ} (hdata : Bytes data)
    (hdiv : Bytes divisor) :
    (reedSolomonComputeRemainder data divisor).map gf = parity (divisor.map gf) (data.map gf) := by
  rw [reedSolomonComputeRemainder, (remainder_loop hdata hdiv (Bytes.zeros _)).2, parity,
    List.map_replicate, List.length_map]
  rfl

/-! Blocks and their order -/

def Supported (ver : ℕ) : Prop := MIN_VERSION ≤ ver ∧ ver ≤ MAX_VERSION

instance (ver : ℕ) : Decidable (Supported ver) := inferInstanceAs (Decidable (_ ∧ _))

/-- What the tables agree on. -/
structure Tables (ver : ℕ) (ecl : Ecc) : Prop where
  blocks : 0 < numBlocks ver ecl
  ecc : 7 ≤ blockEccLen ver ecl
  short : blockEccLen ver ecl < shortBlockLen ver ecl
  long : shortBlockLen ver ecl < 255

instance (ver : ℕ) (ecl : Ecc) : Decidable (Tables ver ecl) :=
  decidable_of_iff (0 < numBlocks ver ecl ∧ 7 ≤ blockEccLen ver ecl ∧
    blockEccLen ver ecl < shortBlockLen ver ecl ∧ shortBlockLen ver ecl < 255)
    ⟨fun h => ⟨h.1, h.2.1, h.2.2.1, h.2.2.2⟩, fun h => ⟨h.blocks, h.ecc, h.short, h.long⟩⟩

theorem supported_mem {ver : ℕ} (h : Supported ver) : ver ∈ List.range' MIN_VERSION MAX_VERSION := by
  rw [List.mem_range'_1]
  exact ⟨h.1, Nat.lt_succ_of_le h.2⟩

theorem tables {ver : ℕ} (h : Supported ver) (ecl : Ecc) : Tables ver ecl := by
  have hall : (List.range' MIN_VERSION MAX_VERSION).all (fun v =>
      Ecc.all.all fun e => decide (Tables v e)) = true := by decide +kernel
  have hv := List.all_eq_true.mp hall ver (supported_mem h)
  exact of_decide_eq_true (List.all_eq_true.mp hv ecl (Ecc.mem_all ecl))

section blocks
variable {ver : ℕ} {ecl : Ecc} {data : List ℕ}

/-- Where the data of block `j` start. -/
def offset (ver : ℕ) (ecl : Ecc) (j : ℕ) : ℕ := ((List.range j).map (dataLen ver ecl)).sum

theorem offset_succ (j : ℕ) : offset ver ecl (j + 1) = offset ver ecl j + dataLen ver ecl j := by
  simp [offset, List.range_succ]

theorem offset_mono {i j : ℕ} (h : i ≤ j) : offset ver ecl i ≤ offset ver ecl j := by
  induction j, h using Nat.le_induction with
  | base => exact Nat.le_refl _
  | succ j _ ih =>
    rw [offset_succ]
    omega

def blockData (ver : ℕ) (ecl : Ecc) (data : List ℕ) (j : ℕ) : List ℕ :=
  (data.drop (offset ver ecl j)).take (dataLen ver ecl j)

def blockEcc (ver : ℕ) (ecl : Ecc) (data : List ℕ) (j : ℕ) : List ℕ :=
  reedSolomonComputeRemainder (blockData ver ecl data j)
    (reedSolomonComputeDivisor (blockEccLen ver ecl))

/-- Block `j` without the empty place. -/
def codeBlock (ver : ℕ) (ecl : Ecc) (data : List ℕ) (j : ℕ) : List ℕ :=
  blockData ver ecl data j ++ blockEcc ver ecl data j

/-- Block `j` as it is laid out. -/
def laidBlock (ver : ℕ) (ecl : Ecc) (data : List ℕ) (j : ℕ) : List ℕ :=
  blockData ver ecl data j ++ (if j < numShortBlocks ver ecl then [0] else []) ++
    blockEcc ver ecl data j

/-- The data fill their blocks. -/
def Fills (ver : ℕ) (ecl : Ecc) (data : List ℕ) : Prop :=
  data.length = offset ver ecl (numBlocks ver ecl)

theorem Fills.length_blockData (h : Fills ver ecl data) {j : ℕ} (hj : j < numBlocks ver ecl) :
    (blockData ver ecl data j).length = dataLen ver ecl j := by
  have hm : offset ver ecl (j + 1) ≤ offset ver ecl (numBlocks ver ecl) := offset_mono (Nat.succ_le_of_lt hj)
  rw [offset_succ, ← h] at hm
  rw [blockData, List.length_take, List.length_drop]
  omega

theorem makeBlocks_range' (h : Fills ver ecl data) (i n : ℕ) (hn : i + n = numBlocks ver ecl) :
    makeBlocks ver ecl (reedSolomonComputeDivisor (blockEccLen ver ecl)) data (List.range' i n)
      (offset ver ecl i) = (List.range' i n).map (laidBlock ver ecl data) := by
  induction n generalizing i with
  | zero => rfl
  | succ n ih =>
    have hi := h.length_blockData (j := i) (by omega)
    rw [List.range'_succ, List.map_cons, makeBlocks]
    have hk : offset ver ecl i + (List.take (dataLen ver ecl i)
        (List.drop (offset ver ecl i) data)).length = offset ver ecl (i + 1) := by
      rw [offset_succ]
      exact congrArg (offset ver ecl i + ·) hi
    rw [hk, ih (i + 1) (by omega)]
    rfl

theorem blockData_bytes (hb : Bytes data) (j : ℕ) : Bytes (blockData ver ecl data j) :=
  fun b h => hb b (List.mem_of_mem_drop (List.mem_of_mem_take h))

theorem blockEcc_gf (hb : Bytes data) (j : ℕ) : (blockEcc ver ecl data j).map gf =
    parity (generator (roots (blockEccLen ver ecl))) ((blockData ver ecl data j).map gf) := by
  rw [blockEcc, reedSolomonComputeRemainder_gf (blockData_bytes hb j)
    (reedSolomonComputeDivisor_bytes _), reedSolomonComputeDivisor_gf]

theorem codeBlock_bytes (hb : Bytes data) (j : ℕ) : Bytes (codeBlock ver ecl data j) :=
  (blockData_bytes hb j).append (reedSolomonComputeRemainder_bytes (blockData_bytes hb j)
    (reedSolomonComputeDivisor_bytes _))

theorem length_roots (degree : ℕ) : (roots degree).length = degree := by simp [roots]

theorem roots_ne_nil (hs : Supported ver) : roots (blockEccLen ver ecl) ≠ [] := by
  apply List.ne_nil_of_length_pos
  rw [length_roots]
  have := (tables hs ecl).ecc
  omega

theorem generator_ne_nil (hs : Supported ver) : generator (roots (blockEccLen ver ecl)) ≠ [] := by
  apply List.ne_nil_of_length_pos
  rw [length_generator (roots_ne_nil hs), length_roots]
  have := (tables hs ecl).ecc
  omega

theorem length_blockEcc (hs : Supported ver) (hb : Bytes data) (j : ℕ) :
    (blockEcc ver ecl data j).length = blockEccLen ver ecl := by
  rw [← List.length_map gf, blockEcc_gf hb, length_parity (generator_ne_nil hs),
    length_generator (roots_ne_nil hs), length_roots]

/-- Every block is a word that vanishes at the roots of the divisor. -/
theorem codeBlock_codeword (hs : Supported ver) (h : Fills ver ecl data) (hb : Bytes data) {j : ℕ}
    (hj : j < numBlocks ver ecl) : Codeword (gf 2) (blockEccLen ver ecl)
      (dataLen ver ecl j + blockEccLen ver ecl) ((codeBlock ver ecl data j).map gf) := by
  constructor
  · rw [List.length_map, codeBlock, List.length_append, h.length_blockData hj,
      length_blockEcc hs hb]
  · intro k hk
    have hroot : value (gf 2 ^ k) (1 :: generator (roots (blockEccLen ver ecl))) = 0 := by
      rw [value_generator (roots_ne_nil hs)]
      apply List.prod_eq_zero
      apply List.mem_map.mpr
      exact ⟨gf 2 ^ k, List.mem_map.mpr ⟨k, List.mem_range.mpr hk, rfl⟩, sub_self _⟩
    rw [codeBlock, List.map_append, blockEcc_gf hb]
    exact value_parity (generator_ne_nil hs) hroot _

/-! The order of the codewords -/

/-- The places in the blocks, in the order their codewords are drawn. -/
def order (ver : ℕ) (ecl : Ecc) : List (ℕ × ℕ) :=
  (List.range (shortBlockLen ver ecl + 1)).flatMap fun i =>
    ((List.range (numBlocks ver ecl)).filter fun j =>
      i ≠ shortBlockLen ver ecl - blockEccLen ver ecl ∨ j ≥ numShortBlocks ver ecl).map fun j => (i, j)

theorem length_laidBlock (hs : Supported ver) (h : Fills ver ecl data) (hb : Bytes data) {j : ℕ}
    (hj : j < numBlocks ver ecl) :
    (laidBlock ver ecl data j).length = shortBlockLen ver ecl + 1 := by
  have := (tables hs ecl).short
  rw [laidBlock, List.length_append, List.length_append, h.length_blockData hj, length_blockEcc hs hb,
    dataLen]
  split_ifs <;> simp <;> omega

theorem addEccAndInterleave_eq (hs : Supported ver) (h : Fills ver ecl data) (hb : Bytes data) :
    addEccAndInterleave ver ecl data =
      (order ver ecl).map fun p => (laidBlock ver ecl data p.2).getD p.1 0 := by
  have hpos := (tables hs ecl).blocks
  have hblocks : makeBlocks ver ecl (reedSolomonComputeDivisor (blockEccLen ver ecl)) data
      (List.range (numBlocks ver ecl)) 0 =
        (List.range (numBlocks ver ecl)).map (laidBlock ver ecl data) := by
    rw [List.range_eq_range']
    exact makeBlocks_range' h 0 (numBlocks ver ecl) (Nat.zero_add _)
  have hhead : (((List.range (numBlocks ver ecl)).map (laidBlock ver ecl data)).headD []).length =
      shortBlockLen ver ecl + 1 := by
    obtain ⟨n, hn⟩ : ∃ n, numBlocks ver ecl = n + 1 := ⟨numBlocks ver ecl - 1, by omega⟩
    rw [hn, List.range_succ_eq_map]
    exact length_laidBlock hs h hb hpos
  rw [addEccAndInterleave, hblocks]
  simp only [hhead, List.length_map, List.length_range, order, List.map_flatMap, List.map_map]
  apply List.flatMap_congr
  intro i _
  apply List.map_congr_left
  intro j hj
  have hj := List.mem_range.mp (List.mem_of_mem_filter hj)
  simp [hj]

/-- What of the codewords, in drawing order, belongs to block `j`. -/
def deal (ver : ℕ) (ecl : Ecc) (codewords : List ℕ) (j : ℕ) : List ℕ :=
  (((order ver ecl).zip codewords).filter fun p => p.1.2 = j).map Prod.snd

theorem filter_range_eq {n j : ℕ} (hj : j < n) : (List.range n).filter (fun a => a = j) = [j] := by
  have hc : (List.range n).count j = 1 :=
    List.count_eq_one_of_mem List.nodup_range (List.mem_range.mpr hj)
  have hf := List.filter_beq (l := List.range n) j
  rw [hc] at hf
  exact hf

/-- Of the places chosen row by row, those in one column. -/
theorem filter_column {n j : ℕ} (hj : j < n) (c : ℕ → ℕ → Bool) (rows : List ℕ) :
    (rows.flatMap fun i => ((List.range n).filter (c i)).map fun a => (i, a)).filter
        (fun p => p.2 = j) =
      (rows.filter (c · j)).map (·, j) := by
  induction rows with
  | nil => rfl
  | cons i rows ih =>
    have hrow : (((List.range n).filter (c i)).map fun a => (i, a)).filter (fun p => p.2 = j) =
        if c i j then [(i, j)] else [] := by
      rw [List.filter_map, List.filter_filter]
      have hswap : ∀ a ∈ List.range n, (((fun p : ℕ × ℕ => decide (p.2 = j)) ∘ fun a => (i, a)) a && c i a) =
          (decide (a = j) && c i j) := by
        intro a _
        by_cases ha : a = j <;> simp [ha]
      rw [List.filter_congr hswap, ← List.filter_filter]
      cases c i j <;> simp [filter_range_eq hj]
    rw [List.flatMap_cons, List.filter_append, hrow, ih, List.filter_cons]
    cases c i j <;> rfl

theorem order_filter {j : ℕ} (hj : j < numBlocks ver ecl) :
    (order ver ecl).filter (fun p => p.2 = j) =
      ((List.range (shortBlockLen ver ecl + 1)).filter fun i =>
        i ≠ shortBlockLen ver ecl - blockEccLen ver ecl ∨ j ≥ numShortBlocks ver ecl).map (·, j) :=
  filter_column hj (fun i j =>
    i ≠ shortBlockLen ver ecl - blockEccLen ver ecl ∨ j ≥ numShortBlocks ver ecl) _

theorem deal_map (f : ℕ × ℕ → ℕ) (j : ℕ) : deal ver ecl ((order ver ecl).map f) j =
    ((order ver ecl).filter fun p => p.2 = j).map f := by
  have hzip : (order ver ecl).zip ((order ver ecl).map f) = (order ver ecl).map fun p => (p, f p) := by
    induction order ver ecl with
    | nil => rfl
    | cons p ps ih => rw [List.map_cons, List.zip_cons_cons, ih, List.map_cons]
  rw [deal, hzip, List.filter_map, List.map_map]
  rfl

theorem map_getD_range (l : List ℕ) : (List.range l.length).map (l.getD · 0) = l := by
  apply List.ext_getElem
  · simp
  · intro i _ h
    simp [h]

theorem filter_range_ne (a b : ℕ) : (List.range (a + (b + 1))).filter (fun i => i ≠ a) =
    List.range a ++ (List.range b).map (a + 1 + ·) := by
  rw [List.range_add, List.filter_append, List.range_succ_eq_map, List.map_cons, List.filter_cons,
    List.map_map]
  have hlow : ∀ i ∈ List.range a, decide (i ≠ a) = true := by
    intro i hi
    rw [List.mem_range] at hi
    exact decide_eq_true (by omega)
  have hhigh : ∀ i ∈ (List.range b).map ((a + ·) ∘ Nat.succ), decide (i ≠ a) = true := by
    intro i hi
    obtain ⟨k, _, rfl⟩ := List.mem_map.mp hi
    simp only [Function.comp_apply]
    exact decide_eq_true (by omega)
  rw [List.filter_eq_self.mpr hlow, List.filter_eq_self.mpr hhigh]
  simp [Function.comp_def, Nat.add_comm, Nat.add_left_comm]

/-- All entries but the one between `u` and `v`. -/
theorem map_getD_skip (u v : List ℕ) (a : ℕ) :
    ((List.range (u.length + (v.length + 1))).filter fun i => i ≠ u.length).map
      ((u ++ a :: v).getD · 0) = u ++ v := by
  rw [filter_range_ne, List.map_append, List.map_map]
  congr 1
  · conv_rhs => rw [← map_getD_range u]
    apply List.map_congr_left
    intro i hi
    have hi := List.mem_range.mp hi
    simp only [List.getD_eq_getElem?_getD, List.getElem?_append_left hi]
  · conv_rhs => rw [← map_getD_range v]
    apply List.map_congr_left
    intro i _
    have hi : u.length + 1 + i - u.length = i + 1 := by omega
    simp only [Function.comp_apply, List.getD_eq_getElem?_getD]
    rw [List.getElem?_append_right (by omega), hi, List.getElem?_cons_succ]

/-- The codewords dealt out again are the blocks. -/
theorem deal_addEccAndInterleave (hs : Supported ver) (h : Fills ver ecl data) (hb : Bytes data)
    {j : ℕ} (hj : j < numBlocks ver ecl) :
    deal ver ecl (addEccAndInterleave ver ecl data) j = codeBlock ver ecl data j := by
  have hl := length_laidBlock hs h hb hj
  rw [addEccAndInterleave_eq hs h hb, deal_map, order_filter hj, List.map_map]
  by_cases hshort : j < numShortBlocks ver ecl
  · have hd := h.length_blockData hj
    have he : (blockEcc ver ecl data j).length = blockEccLen ver ecl := length_blockEcc hs hb j
    have hsum : shortBlockLen ver ecl + 1 =
        (blockData ver ecl data j).length + ((blockEcc ver ecl data j).length + 1) := by
      rw [← hl, laidBlock, if_pos hshort]
      simp
    have hplace : shortBlockLen ver ecl - blockEccLen ver ecl = (blockData ver ecl data j).length := by
      rw [hd, dataLen, if_pos hshort, Nat.add_zero]
    have hnot : ¬ j ≥ numShortBlocks ver ecl := by omega
    have hlaid : laidBlock ver ecl data j =
        blockData ver ecl data j ++ ([0] ++ blockEcc ver ecl data j) := by
      rw [laidBlock, if_pos hshort, List.append_assoc]
    simp only [hnot, or_false, hplace, hsum, Function.comp_def, hlaid]
    have hskip := map_getD_skip (blockData ver ecl data j) (blockEcc ver ecl data j) 0
    rw [codeBlock, ← hskip]
    rfl
  · have hge : j ≥ numShortBlocks ver ecl := by omega
    simp only [hge, or_true, decide_true]
    rw [List.filter_true, ← hl]
    have hlaid : laidBlock ver ecl data j = codeBlock ver ecl data j := by
      rw [laidBlock, if_neg hshort, List.append_nil, codeBlock]
    rw [← hlaid]
    exact map_getD_range (laidBlock ver ecl data j)

theorem flatMap_blockData (h : Fills ver ecl data) :
    (List.range (numBlocks ver ecl)).flatMap (blockData ver ecl data) = data := by
  have hall : ∀ n, (List.range n).flatMap (blockData ver ecl data) =
      data.take (offset ver ecl n) := by
    intro n
    induction n with
    | zero => rfl
    | succ n ih =>
      rw [List.range_succ, List.flatMap_append, ih, offset_succ, List.take_add]
      simp [blockData]
  rw [hall, ← h, List.take_length]

theorem sum_dataLen (n : ℕ) : offset ver ecl n =
    n * (shortBlockLen ver ecl - blockEccLen ver ecl) + (n - numShortBlocks ver ecl) := by
  induction n with
  | zero => simp [offset]
  | succ n ih =>
    rw [offset_succ, ih, dataLen, Nat.succ_mul]
    split_ifs <;> omega

/-- The blocks take the data codewords of the version, no more and no less. -/
theorem offset_numBlocks (hs : Supported ver) :
    offset ver ecl (numBlocks ver ecl) = getNumDataCodewords ver ecl := by
  have ht := tables hs ecl
  have hdiv := Nat.div_add_mod (rawCodewords ver) (numBlocks ver ecl)
  have hmod := Nat.mod_lt (rawCodewords ver) ht.blocks
  have hle : numBlocks ver ecl * blockEccLen ver ecl ≤ numBlocks ver ecl * shortBlockLen ver ecl :=
    Nat.mul_le_mul_left _ ht.short.le
  have hraw : getNumDataCodewords ver ecl =
      rawCodewords ver - numBlocks ver ecl * blockEccLen ver ecl := by
    rw [Nat.mul_comm]
    rfl
  rw [sum_dataLen, hraw, Nat.mul_sub, numShortBlocks]
  unfold shortBlockLen at hle ⊢
  omega

theorem sum_range_ite (d a b n : ℕ) : ((List.range n).map fun i => if i = d then a else b).sum + b =
    if d < n then n * b + a else (n + 1) * b := by
  induction n with
  | zero => simp
  | succ n ih =>
    rw [List.range_succ, List.map_append, List.sum_append]
    simp only [List.map_cons, List.map_nil, List.sum_cons, List.sum_nil]
    rcases Nat.lt_trichotomy d n with h | rfl | h
    · rw [if_pos h] at ih
      rw [if_neg (by omega), if_pos (by omega), Nat.succ_mul]
      omega
    · rw [if_neg (Nat.lt_irrefl d)] at ih
      rw [if_pos rfl, if_pos (Nat.lt_succ_self d)]
      omega
    · rw [if_neg (by omega)] at ih
      rw [if_neg (by omega), if_neg (by omega), Nat.succ_mul (n + 1)]
      omega

theorem length_filter_ge (n k : ℕ) : ((List.range n).filter fun j => decide (j ≥ k)).length = n - k := by
  induction n with
  | zero => simp
  | succ n ih =>
    rw [List.range_succ, List.filter_append, List.length_append, ih, List.filter_singleton]
    by_cases h : n ≥ k
    · rw [decide_eq_true h]
      simp
      omega
    · rw [decide_eq_false h]
      simp
      omega

/-- Every codeword of the version is drawn. -/
theorem length_order (hs : Supported ver) : (order ver ecl).length = rawCodewords ver := by
  have ht := tables hs ecl
  have hrow : ∀ i, (((List.range (numBlocks ver ecl)).filter fun j =>
      i ≠ shortBlockLen ver ecl - blockEccLen ver ecl ∨ j ≥ numShortBlocks ver ecl).map fun j =>
        (i, j)).length = if i = shortBlockLen ver ecl - blockEccLen ver ecl then
          numBlocks ver ecl - numShortBlocks ver ecl else numBlocks ver ecl := by
    intro i
    rw [List.length_map]
    split_ifs with h
    · simp only [h, ne_eq, not_true_eq_false, false_or]
      exact length_filter_ge _ _
    · simp [h]
  have hsum := sum_range_ite (shortBlockLen ver ecl - blockEccLen ver ecl)
    (numBlocks ver ecl - numShortBlocks ver ecl) (numBlocks ver ecl) (shortBlockLen ver ecl + 1)
  have hdiv := Nat.div_add_mod (rawCodewords ver) (numBlocks ver ecl)
  have hmod := Nat.mod_lt (rawCodewords ver) ht.blocks
  rw [if_pos (by omega), Nat.succ_mul, Nat.mul_comm] at hsum
  rw [order, List.length_flatMap, List.map_congr_left fun i _ => hrow i]
  unfold numShortBlocks shortBlockLen at hsum ⊢
  omega

theorem addEccAndInterleave_bytes (hs : Supported ver) (h : Fills ver ecl data) (hb : Bytes data) :
    Bytes (addEccAndInterleave ver ecl data) := by
  rw [addEccAndInterleave_eq hs h hb]
  intro b hm
  obtain ⟨p, _, rfl⟩ := List.mem_map.mp hm
  have hlaid : Bytes (laidBlock ver ecl data p.2) := by
    apply Bytes.append (Bytes.append (blockData_bytes hb _) _)
      (reedSolomonComputeRemainder_bytes (blockData_bytes hb _) (reedSolomonComputeDivisor_bytes _))
    split_ifs
    · exact Bytes.zeros 1
    · exact fun b hb => absurd hb (by simp)
  rw [List.getD_eq_getElem?_getD]
  cases hget : (laidBlock ver ecl data p.2)[p.1]? with
  | none => simp
  | some c => exact hlaid c (List.mem_of_getElem? hget)

theorem length_deal {codewords : List ℕ} (hl : codewords.length = (order ver ecl).length) (j : ℕ) :
    (deal ver ecl codewords j).length = ((order ver ecl).filter fun p => p.2 = j).length := by
  have hfst : ((order ver ecl).zip codewords).map Prod.fst = order ver ecl :=
    List.map_fst_zip hl.ge
  conv_rhs => rw [← hfst, List.filter_map, List.length_map]
  rw [deal, List.length_map]
  rfl

end blocks

end Lattix.Client.Qr
