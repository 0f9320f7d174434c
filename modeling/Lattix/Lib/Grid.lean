import Mathlib.Algebra.Ring.Nat
import Mathlib.Data.List.Nodup
import Mathlib.Data.List.Basic

/-! Square pictures in two colours, painted cell by cell. -/

namespace Lattix.Lib

/-- `n` rows of `n` cells. -/
structure Grid (n : ℕ) where
  rows : Vector (Vector Bool n) n

namespace Grid
variable {n : ℕ}

def blank (n : ℕ) : Grid n := ⟨Vector.replicate n (Vector.replicate n false)⟩

/-- The cell in column `x` of row `y`, `false` outside. -/
def get (g : Grid n) (x y : ℕ) : Bool := if h : x < n ∧ y < n then g.rows[y][x] else false

def set (g : Grid n) (x y : ℕ) (v : Bool) : Grid n :=
  if h : x < n ∧ y < n then ⟨g.rows.set y (g.rows[y].set x v)⟩ else g

@[simp] theorem get_blank (x y : ℕ) : (blank n).get x y = false := by
  unfold get blank
  split_ifs <;> simp

theorem get_outside (g : Grid n) {x y : ℕ} (h : ¬ (x < n ∧ y < n)) : g.get x y = false := by
  rw [get, dif_neg h]

theorem get_set (g : Grid n) (x y : ℕ) (v : Bool) (x' y' : ℕ) : (g.set x y v).get x' y' =
    if x' = x ∧ y' = y ∧ x < n ∧ y < n then v else g.get x' y' := by
  by_cases hin : x < n ∧ y < n
  · rw [set, dif_pos hin]
    by_cases hin' : x' < n ∧ y' < n
    · rw [get, get, dif_pos hin', dif_pos hin', Vector.getElem_set]
      by_cases hy : y = y'
      · subst hy
        rw [if_pos rfl, Vector.getElem_set]
        by_cases hx : x = x' <;> simp [hx, hin.2, hin'.1, eq_comm]
      · rw [if_neg hy, if_neg fun h => hy h.2.1.symm]
    · have hne : ¬ (x' = x ∧ y' = y ∧ x < n ∧ y < n) := by
        rintro ⟨rfl, rfl, h⟩
        exact hin' h
      rw [get_outside _ hin', if_neg hne, get_outside _ hin']
  · rw [set, dif_neg hin, if_neg fun h => hin h.2.2]

theorem ext_get {g h : Grid n} (he : ∀ x y, g.get x y = h.get x y) : g = h := by
  obtain ⟨g⟩ := g
  obtain ⟨h⟩ := h
  congr 1
  apply Vector.ext
  intro y hy
  apply Vector.ext
  intro x hx
  have := he x y
  rwa [get, get, dif_pos ⟨hx, hy⟩, dif_pos ⟨hx, hy⟩] at this

/-! Painting -/

/-- A cell with the colour it is given. -/
abbrev Stroke : Type := (ℕ × ℕ) × Bool

def paint (g : Grid n) (ws : List Stroke) : Grid n := ws.foldl (fun g w => g.set w.1.1 w.1.2 w.2) g

@[simp] theorem paint_nil (g : Grid n) : g.paint [] = g := rfl

theorem paint_cons (g : Grid n) (w : Stroke) (ws : List Stroke) :
    g.paint (w :: ws) = (g.set w.1.1 w.1.2 w.2).paint ws := rfl

theorem paint_append (g : Grid n) (ws vs : List Stroke) : g.paint (ws ++ vs) = (g.paint ws).paint vs :=
  List.foldl_append

/-- What is not painted stays. -/
theorem get_paint_of_not_mem (g : Grid n) {ws : List Stroke} {x y : ℕ}
    (h : (x, y) ∉ ws.map Prod.fst) : (g.paint ws).get x y = g.get x y := by
  induction ws generalizing g with
  | nil => rfl
  | cons w ws ih =>
    rw [List.map_cons, List.mem_cons, not_or] at h
    rw [paint_cons, ih _ h.2, get_set, if_neg]
    rintro ⟨rfl, rfl, _⟩
    exact h.1 rfl

/-- What is painted in one colour only has it. -/
theorem get_paint_const (g : Grid n) {ws : List Stroke} {x y : ℕ} {v : Bool}
    (h : (x, y) ∈ ws.map Prod.fst) (hv : ∀ w ∈ ws, w.2 = v) (hx : x < n) (hy : y < n) :
    (g.paint ws).get x y = v := by
  induction ws generalizing g with
  | nil => cases h
  | cons w ws ih =>
    rw [paint_cons]
    by_cases hlater : (x, y) ∈ ws.map Prod.fst
    · exact ih _ hlater fun w hw => hv w (by simp [hw])
    · rw [get_paint_of_not_mem _ hlater, get_set]
      rw [List.map_cons, List.mem_cons] at h
      have hw := h.resolve_right hlater
      rw [← hw, if_pos ⟨rfl, rfl, hx, hy⟩]
      exact hv w (by simp)

/-- What is painted once has that colour. -/
theorem get_paint_of_mem (g : Grid n) {ws : List Stroke} (hn : (ws.map Prod.fst).Nodup)
    {x y : ℕ} {v : Bool} (h : ((x, y), v) ∈ ws) (hx : x < n) (hy : y < n) :
    (g.paint ws).get x y = v := by
  induction ws generalizing g with
  | nil => cases h
  | cons w ws ih =>
    rw [List.map_cons, List.nodup_cons] at hn
    rw [paint_cons]
    rcases List.mem_cons.mp h with rfl | h
    · rw [get_paint_of_not_mem _ hn.1, get_set, if_pos ⟨rfl, rfl, hx, hy⟩]
    · exact ih _ hn.2 h

/-- The colour of a cell depends on what was there only if nothing painted it. -/
theorem get_paint_congr {g h : Grid n} (ws : List Stroke) {x y : ℕ}
    (he : (x, y) ∈ ws.map Prod.fst ∨ g.get x y = h.get x y) :
    (g.paint ws).get x y = (h.paint ws).get x y := by
  induction ws generalizing g h with
  | nil => exact he.resolve_left (by simp)
  | cons w ws ih =>
    rw [paint_cons, paint_cons]
    apply ih
    rw [get_set, get_set]
    rw [List.map_cons, List.mem_cons] at he
    by_cases hw : x = w.1.1 ∧ y = w.1.2 ∧ w.1.1 < n ∧ w.1.2 < n
    · exact .inr (by rw [if_pos hw, if_pos hw])
    · rw [if_neg hw, if_neg hw]
      rcases he with (he | he) | he
      · right
        have hout : ¬ (x < n ∧ y < n) := by
          rw [← he] at hw
          exact fun h => hw ⟨rfl, rfl, h⟩
        rw [get_outside _ hout, get_outside _ hout]
      · exact .inl he
      · exact .inr he

def read (g : Grid n) (ps : List (ℕ × ℕ)) : List Bool := ps.map fun p => g.get p.1 p.2

theorem map_fst_zip (ps : List (ℕ × ℕ)) (vs : List Bool) :
    (ps.zip vs).map Prod.fst = ps.take vs.length := by
  induction ps generalizing vs with
  | nil => simp
  | cons p ps ih =>
    cases vs with
    | nil => rfl
    | cons v vs => simp [ih]

/-- Colours painted along a path are read along it. -/
theorem read_paint_zip (g : Grid n) {ps : List (ℕ × ℕ)} (hn : ps.Nodup)
    (hin : ∀ p ∈ ps, p.1 < n ∧ p.2 < n) {vs : List Bool} (hl : vs.length ≤ ps.length) :
    (g.paint (ps.zip vs)).read (ps.take vs.length) = vs := by
  apply List.ext_getElem
  · simp [read, hl]
  · intro i hi hv
    simp only [read, List.getElem_map, List.getElem_take]
    have hip : i < ps.length := Nat.lt_of_lt_of_le hv hl
    apply get_paint_of_mem
    · rw [map_fst_zip]
      exact hn.sublist (List.take_sublist ..)
    · have hz : i < (ps.zip vs).length := by
        rw [List.length_zip]
        omega
      have := List.getElem_mem hz
      rwa [List.getElem_zip] at this
    · exact (hin _ (List.getElem_mem hip)).1
    · exact (hin _ (List.getElem_mem hip)).2

/-- The other colour for the cells that `c` chooses, one after the other. -/
def toggle (g : Grid n) (c : ℕ × ℕ → Bool) (ps : List (ℕ × ℕ)) : Grid n :=
  ps.foldl (fun g p => if c p = true then g.set p.1 p.2 (!g.get p.1 p.2) else g) g

theorem get_toggle (g : Grid n) (c : ℕ × ℕ → Bool) {ps : List (ℕ × ℕ)} (hn : ps.Nodup) {x y : ℕ}
    (hx : x < n) (hy : y < n) :
    (g.toggle c ps).get x y = (g.get x y ^^ (decide ((x, y) ∈ ps) && c (x, y))) := by
  induction ps generalizing g with
  | nil => simp [toggle]
  | cons p ps ih =>
    obtain ⟨hp, hps⟩ := List.nodup_cons.mp hn
    rw [toggle, List.foldl_cons, ← toggle, ih _ hps]
    by_cases he : (x, y) = p
    · subst he
      have hnot : decide ((x, y) ∈ ps) = false := decide_eq_false hp
      rw [hnot, decide_eq_true List.mem_cons_self]
      cases hc : c (x, y) <;> simp [get_set, hx, hy]
    · have hsame : (if c p = true then g.set p.1 p.2 (!g.get p.1 p.2) else g).get x y = g.get x y := by
        split_ifs
        · rw [get_set, if_neg]
          rintro ⟨rfl, rfl, _⟩
          exact he rfl
        · rfl
      simp [hsame, List.mem_cons, he]

end Grid

/-! Sums over a list in runs -/

section runs
variable {α : Type*} [DecidableEq α]

/-- Equal neighbours together, with how many there are. -/
def runs : List α → List (α × ℕ)
  | [] => []
  | a :: l =>
    match runs l with
    | [] => [(a, 1)]
    | (b, k) :: r => if a = b then (b, k + 1) :: r else (a, 1) :: (b, k) :: r

theorem sum_runs (f : α → ℕ) (l : List α) : ((runs l).map fun p => p.2 * f p.1).sum = (l.map f).sum := by
  induction l with
  | nil => rfl
  | cons a l ih =>
    rw [List.map_cons, List.sum_cons, ← ih, runs]
    split
    · rename_i h
      simp only [h, List.map_cons, List.map_nil, List.sum_cons, List.sum_nil, Nat.one_mul]
    · rename_i b k r h
      rw [h]
      split_ifs with hab
      · simp only [hab, List.map_cons, List.sum_cons, Nat.succ_mul]
        omega
      · simp only [List.map_cons, List.sum_cons, Nat.one_mul]

end runs

end Lattix.Lib
