import Lattix.Client.Qr.Symbol

/-! Which mask a symbol gets, and what it does not change. -/

namespace Lattix.Client.Qr
open Lattix.Lib Lattix.Lib.Grid

variable {ver : ℕ} {ecl : Ecc}

/-- All modules of the format. -/
def formatModules (n : ℕ) : List (ℕ × ℕ) := formatCells ++ (formatCells' n ++ [(8, n - 8)])

def masked {n : ℕ} (ecl : Ecc) (d : Drawing n) (msk : ℕ) : Drawing n :=
  (d.applyMask msk).drawFormatBits ecl msk

/-- The function modules are the reserved ones. -/
def Patterned (ver : ℕ) (d : Drawing (size ver)) : Prop :=
  ∀ x y, x < size ver → y < size ver → d.isFunction.get x y = reserved ver x y

/-- The same modules, whatever the format. -/
def Agree {n : ℕ} (d d' : Drawing n) : Prop :=
  ∀ x y, x < n → y < n → (x, y) ∉ formatModules n → d.modules.get x y = d'.modules.get x y

theorem reserved_format (h : Supported ver) {x y : ℕ} (hx : x < size ver) (hy : y < size ver)
    (hf : (x, y) ∈ formatModules (size ver)) : reserved ver x y = true := by
  apply (mem_functionStrokes h .low hx hy).mp
  simp only [functionStrokes, cells_append, List.mem_append, cells_formatStrokes]
  exact .inl (.inr (by simpa [formatModules] using hf))

theorem strokes_cells (n bits : ℕ) : (formatStrokes n bits).map Prod.fst = formatModules n :=
  cells_formatStrokes n bits

theorem strokes_cells_true (n bits : ℕ) :
    ((formatStrokes n bits).map fun w => (w.1, true)).map Prod.fst = formatModules n := by
  rw [List.map_map, ← strokes_cells n bits]
  rfl

section masked
variable {d d' : Drawing (size ver)}

theorem masked_isFunction (h : Supported ver) (hd : Patterned ver d) (msk : ℕ) :
    Patterned ver (masked ecl d msk) := by
  intro x y hx hy
  rw [masked, Drawing.drawFormatBits_eq]
  by_cases hf : (x, y) ∈ formatModules (size ver)
  · rw [reserved_format h hx hy hf]
    rw [← strokes_cells_true (size ver) (formatBits ecl msk)] at hf
    exact get_paint_const _ hf (fun w hw => by obtain ⟨_, _, rfl⟩ := List.mem_map.mp hw; rfl) hx hy
  · rw [← hd x y hx hy]
    rw [← strokes_cells_true (size ver) (formatBits ecl msk)] at hf
    exact get_paint_of_not_mem _ hf

theorem get_masked (ecl : Ecc) (d : Drawing (size ver)) (msk : ℕ) {x y : ℕ} (hf : (x, y) ∉ formatModules (size ver)) :
    (masked ecl d msk).modules.get x y = (d.applyMask msk).modules.get x y := by
  rw [masked, Drawing.drawFormatBits_eq]
  apply get_paint_of_not_mem
  rwa [strokes_cells]

/-- Drawings that agree are the same symbol once masked. -/
theorem masked_congr (hd : Patterned ver d) (hd' : Patterned ver d') (ha : Agree d d') (msk : ℕ) :
    (masked ecl d msk).modules = (masked ecl d' msk).modules := by
  apply ext_get
  intro x y
  by_cases hin : x < size ver ∧ y < size ver
  · rw [masked, masked, Drawing.drawFormatBits_eq, Drawing.drawFormatBits_eq]
    apply get_paint_congr
    rw [strokes_cells]
    by_cases hf : (x, y) ∈ formatModules (size ver)
    · exact .inl hf
    · right
      rw [Drawing.get_applyMask _ _ hin.1 hin.2, Drawing.get_applyMask _ _ hin.1 hin.2,
        hd x y hin.1 hin.2, hd' x y hin.1 hin.2, ha x y hin.1 hin.2 hf]
  · rw [get_outside _ hin, get_outside _ hin]

/-- A mask taken off again leaves what was there. -/
theorem undo (h : Supported ver) (hd : Patterned ver d) (msk : ℕ) :
    Agree ((masked ecl d msk).applyMask msk) d := by
  intro x y hx hy hf
  rw [Drawing.get_applyMask _ _ hx hy, get_masked ecl d msk hf, Drawing.get_applyMask _ _ hx hy,
    masked_isFunction h hd msk x y hx hy, hd x y hx hy]
  cases d.modules.get x y <;> cases reserved ver x y <;> cases invert msk x y <;> rfl

end masked

/-! The choice -/

/-- The first of the least among the first `k` values, or nothing when there are none. -/
def Least (pen : ℕ → ℤ) (k : ℕ) : Option (ℕ × ℤ) → Prop
  | none => k = 0
  | some (m, p) => m < k ∧ p = pen m ∧ (∀ i < k, p ≤ pen i) ∧ ∀ i < m, p < pen i

theorem Least.next {pen : ℕ → ℤ} {k : ℕ} {best : Option (ℕ × ℤ)} (h : Least pen k best) :
    Least pen (k + 1) (takeLess best k (pen k)) := by
  match best, h with
  | none, h =>
    obtain rfl : k = 0 := h
    refine ⟨Nat.zero_lt_one, rfl, ?_, by omega⟩
    intro i hi
    obtain rfl : i = 0 := by omega
    exact le_refl _
  | some (m, p), ⟨hm, hp, hle, hlt⟩ =>
    rw [takeLess]
    split_ifs with hk
    · refine ⟨Nat.lt_succ_self k, rfl, ?_, ?_⟩
      · intro i hi
        rcases Nat.lt_succ_iff_lt_or_eq.mp hi with hi | rfl
        · exact (hk.trans_le (hle i hi)).le
        · exact le_refl _
      · intro i hi
        exact hk.trans_le (hle i hi)
    · refine ⟨by omega, hp, ?_, hlt⟩
      intro i hi
      rcases Nat.lt_succ_iff_lt_or_eq.mp hi with hi | rfl
      · exact hle i hi
      · exact not_lt.mp hk

/-- The masks tried so far have left no trace but the format. -/
theorem masks_tried (h : Supported ver) (ecl : Ecc) {d : Drawing (size ver)} (hd : Patterned ver d) (k : ℕ) :
    let s := (List.range k).foldl (tryMask ecl) (d, none)
    Patterned ver s.1 ∧ Agree s.1 d ∧
      Least (fun i => getPenaltyScore (masked ecl d i).modules) k s.2 := by
  induction k with
  | zero => exact ⟨hd, fun _ _ _ _ _ => rfl, rfl⟩
  | succ k ih =>
    obtain ⟨hp, ha, hl⟩ := ih
    simp only [List.range_succ, List.foldl_append, List.foldl_cons, List.foldl_nil]
    refine ⟨masked_isFunction h hp k, ?_, ?_⟩
    · intro x y hx hy hf
      exact (undo h hp k x y hx hy hf).trans (ha x y hx hy hf)
    · have hn := hl.next
      rw [← masked_congr hp hd ha k] at hn
      exact hn

/-- What the constructor draws before the masks. -/
def unmasked (ver : ℕ) (ecl : Ecc) (data : List ℕ) : Drawing (size ver) :=
  ((Drawing.blank (size ver)).drawFunctionPatterns ver ecl).drawCodewords
    (addEccAndInterleave ver ecl data)

theorem patterned_unmasked (h : Supported ver) (ecl : Ecc) (data : List ℕ) :
    Patterned ver (unmasked ver ecl data) := by
  intro x y hx hy
  rw [unmasked, Drawing.drawCodewords_isFunction]
  exact isFunction_patterns h ecl hx hy

theorem new_some (ver : ℕ) (ecl : Ecc) (data : List ℕ) (msk : ℕ) : QrCode.new ver ecl data (some msk) =
    ⟨ver, ecl, (masked ecl (unmasked ver ecl data) msk).modules, msk⟩ := rfl

/-- The constructor without a mask draws the symbol with the first mask of least penalty. -/
theorem new_none (h : Supported ver) (ecl : Ecc) (data : List ℕ) : ∃ msk < 8,
    QrCode.new ver ecl data none = QrCode.new ver ecl data (some msk) ∧
      (∀ i < 8, getPenaltyScore (QrCode.new ver ecl data (some msk)).modules ≤
        getPenaltyScore (QrCode.new ver ecl data (some i)).modules) ∧
      ∀ i < msk, getPenaltyScore (QrCode.new ver ecl data (some msk)).modules <
        getPenaltyScore (QrCode.new ver ecl data (some i)).modules := by
  have hd := patterned_unmasked h ecl data
  obtain ⟨hp, ha, hl⟩ := masks_tried h ecl hd 8
  generalize hs : (List.range 8).foldl (tryMask ecl) (unmasked ver ecl data, none) = s at hp ha hl
  obtain ⟨d, best⟩ := s
  match best, hl with
  | some (msk, p), ⟨hmsk, hpen, hle, hlt⟩ =>
    rw [hpen] at hle hlt
    refine ⟨msk, hmsk, ?_, hle, hlt⟩
    have hnone : QrCode.new ver ecl data none = ⟨ver, ecl, (masked ecl d msk).modules, msk⟩ := by
      have hnew : QrCode.new ver ecl data none =
          let s := (List.range 8).foldl (tryMask ecl) (unmasked ver ecl data, none)
          ⟨ver, ecl, (masked ecl s.1 ((s.2.map Prod.fst).getD 0)).modules, (s.2.map Prod.fst).getD 0⟩ := rfl
      rw [hnew, hs]
      rfl
    rw [hnone, new_some, masked_congr hp hd ha msk]

end Lattix.Client.Qr
