import Lattix.Client.Qr.Codewords
import Lattix.Lib.Grid

/-! The patterns every QR symbol of a version has, and the modules they leave. -/

namespace Lattix.Client.Qr
open Lattix.Lib Lattix.Lib.Grid

def size (ver : ℕ) : ℕ := ver * 4 + 17

/-- `modules` and `isFunction` of a `QrCode`. -/
structure Drawing (n : ℕ) where
  modules : Grid n
  isFunction : Grid n

def getBit (x i : ℕ) : Bool := (x >>> i) &&& 1 ≠ 0

namespace Drawing
variable {n : ℕ}

def blank (n : ℕ) : Drawing n := ⟨.blank n, .blank n⟩

def setFunctionModule (d : Drawing n) (x y : ℕ) (isDark : Bool) : Drawing n :=
  ⟨d.modules.set x y isDark, d.isFunction.set x y true⟩

/-- The integers from `-r` to `r`. -/
def around (r : ℕ) : List ℤ := (List.range (2 * r + 1)).map fun (k : ℕ) => (k : ℤ) - r

def drawFinderPattern (d : Drawing n) (x y : ℤ) : Drawing n :=
  (around 4).foldl (fun d dy => (around 4).foldl (fun d dx =>
    let dist := max |dx| |dy|
    let xx := x + dx
    let yy := y + dy
    if 0 ≤ xx ∧ xx < n ∧ 0 ≤ yy ∧ yy < n then
      d.setFunctionModule xx.toNat yy.toNat (dist ≠ 2 ∧ dist ≠ 4)
    else d) d) d

def drawAlignmentPattern (d : Drawing n) (x y : ℤ) : Drawing n :=
  (around 2).foldl (fun d dy => (around 2).foldl (fun d dx =>
    d.setFunctionModule (x + dx).toNat (y + dy).toNat (max |dx| |dy| ≠ 1)) d) d

end Drawing

/-- `ECC_FORMAT` -/
def ECC_FORMAT : Ecc → ℕ
  | .low => 1
  | .medium => 0
  | .quartile => 3
  | .high => 2

def formatBits (ecl : Ecc) (msk : ℕ) : ℕ :=
  let data := (ECC_FORMAT ecl <<< 3) ||| msk
  let rem := (List.range 10).foldl (fun rem _ => (rem <<< 1) ^^^ ((rem >>> 9) * 0x537)) data
  ((data <<< 10) ||| rem) ^^^ 0x5412

def versionBits (ver : ℕ) : ℕ :=
  let rem := (List.range 12).foldl (fun rem _ => (rem <<< 1) ^^^ ((rem >>> 11) * 0x1f25)) ver
  (ver <<< 12) ||| rem

/-- The loop of `getAlignmentPatternPositions`: `pos` goes in behind the first position. -/
def alignmentLoop (step : ℕ) : ℕ → ℕ → List ℕ → List ℕ
  | 0, _, result => result
  | n + 1, pos, result =>
    alignmentLoop step n (pos - step) (result.take 1 ++ pos :: result.drop 1)

def getAlignmentPatternPositions (ver : ℕ) : List ℕ :=
  if ver = 1 then [] else
    let numAlign := ver / 7 + 2
    let step := (ver * 8 + numAlign * 3 + 5) / (numAlign * 4 - 4) * 2
    alignmentLoop step (numAlign - 1) (size ver - 7) [6]

/-- Whether the pattern at two of `numAlign` positions would lie over a finder pattern. -/
def Corner (numAlign i j : ℕ) : Prop :=
  (i = 0 ∧ j = 0) ∨ (i = 0 ∧ j = numAlign - 1) ∨ (i = numAlign - 1 ∧ j = 0)

instance (numAlign i j : ℕ) : Decidable (Corner numAlign i j) :=
  inferInstanceAs (Decidable (_ ∨ _))

namespace Drawing
variable {n : ℕ}

def drawFormatBits (d : Drawing n) (ecl : Ecc) (msk : ℕ) : Drawing n :=
  let bits := formatBits ecl msk
  let d := (List.range 6).foldl (fun d i => d.setFunctionModule 8 i (getBit bits i)) d
  let d := d.setFunctionModule 8 7 (getBit bits 6)
  let d := d.setFunctionModule 8 8 (getBit bits 7)
  let d := d.setFunctionModule 7 8 (getBit bits 8)
  let d := (List.range' 9 6).foldl (fun d i => d.setFunctionModule (14 - i) 8 (getBit bits i)) d
  let d := (List.range 8).foldl (fun d i => d.setFunctionModule (n - 1 - i) 8 (getBit bits i)) d
  let d := (List.range' 8 7).foldl (fun d i => d.setFunctionModule 8 (n - 15 + i) (getBit bits i)) d
  d.setFunctionModule 8 (n - 8) true

def drawVersion (d : Drawing n) (ver : ℕ) : Drawing n :=
  if ver < 7 then d else
    (List.range 18).foldl (fun d i =>
      let color := getBit (versionBits ver) i
      let a := n - 11 + i % 3
      let b := i / 3
      (d.setFunctionModule a b color).setFunctionModule b a color) d

def drawFunctionPatterns (d : Drawing n) (ver : ℕ) (ecl : Ecc) : Drawing n :=
  let d := (List.range n).foldl (fun d i =>
    (d.setFunctionModule 6 i (i % 2 = 0)).setFunctionModule i 6 (i % 2 = 0)) d
  let d := d.drawFinderPattern 3 3
  let d := d.drawFinderPattern (n - 4) 3
  let d := d.drawFinderPattern 3 (n - 4)
  let alignPatPos := getAlignmentPatternPositions ver
  let numAlign := alignPatPos.length
  let d := (List.range numAlign).foldl (fun d i => (List.range numAlign).foldl (fun d j =>
    if Corner numAlign i j then d
    else d.drawAlignmentPattern (alignPatPos.getD i 0) (alignPatPos.getD j 0)) d) d
  (d.drawFormatBits ecl 0).drawVersion ver

end Drawing

/-! What is drawn, as strokes -/

namespace Drawing
variable {n : ℕ}

def draw (d : Drawing n) (ws : List Stroke) : Drawing n :=
  ⟨d.modules.paint ws, d.isFunction.paint (ws.map fun w => (w.1, true))⟩

theorem draw_append (d : Drawing n) (ws vs : List Stroke) : d.draw (ws ++ vs) = (d.draw ws).draw vs := by
  simp [draw, paint_append]

theorem foldl_draw {ι : Type*} (f : ι → List Stroke) (l : List ι) (d : Drawing n) :
    l.foldl (fun d i => d.draw (f i)) d = d.draw (l.flatMap f) := by
  induction l generalizing d with
  | nil => rfl
  | cons i l ih => rw [List.foldl_cons, ih, List.flatMap_cons, draw_append]

theorem setFunctionModule_eq (d : Drawing n) (x y : ℕ) (v : Bool) :
    d.setFunctionModule x y v = d.draw [((x, y), v)] := rfl

theorem draw_ite (d : Drawing n) (c : Prop) [Decidable c] (ws : List Stroke) :
    (if c then d.draw ws else d) = d.draw (if c then ws else []) := by
  split_ifs <;> rfl

theorem draw_ite_not (d : Drawing n) (c : Prop) [Decidable c] (ws : List Stroke) :
    (if c then d else d.draw ws) = d.draw (if c then [] else ws) := by
  split_ifs <;> rfl

end Drawing

def timingStrokes (n : ℕ) : List Stroke :=
  (List.range n).flatMap fun i => [((6, i), decide (i % 2 = 0)), ((i, 6), decide (i % 2 = 0))]

def finderStrokes (n : ℕ) (x y : ℤ) : List Stroke :=
  (Drawing.around 4).flatMap fun dy => (Drawing.around 4).flatMap fun dx =>
    if 0 ≤ x + dx ∧ x + dx < n ∧ 0 ≤ y + dy ∧ y + dy < n then
      [(((x + dx).toNat, (y + dy).toNat), decide (max |dx| |dy| ≠ 2 ∧ max |dx| |dy| ≠ 4))]
    else []

def alignmentStrokes (x y : ℤ) : List Stroke :=
  (Drawing.around 2).flatMap fun dy => (Drawing.around 2).flatMap fun dx =>
    [(((x + dx).toNat, (y + dy).toNat), decide (max |dx| |dy| ≠ 1))]

def alignmentsStrokes (ps : List ℕ) : List Stroke :=
  (List.range ps.length).flatMap fun i => (List.range ps.length).flatMap fun j =>
    if Corner ps.length i j then [] else alignmentStrokes (ps.getD i 0) (ps.getD j 0)

/-- Where the bits of the format stand, and where they stand again. -/
def formatCells : List (ℕ × ℕ) :=
  (List.range 6).map (8, ·) ++ [(8, 7), (8, 8), (7, 8)] ++ (List.range' 9 6).map (14 - ·, 8)

def formatCells' (n : ℕ) : List (ℕ × ℕ) :=
  (List.range 8).map (n - 1 - ·, 8) ++ (List.range' 8 7).map (8, n - 15 + ·)

def bitsFrom (bits len : ℕ) : List Bool := (List.range len).map (getBit bits)

def formatStrokes (n bits : ℕ) : List Stroke :=
  (formatCells ++ (formatCells' n ++ [(8, n - 8)])).zip
    (bitsFrom bits 15 ++ (bitsFrom bits 15 ++ [true]))

def versionStrokes (n ver : ℕ) : List Stroke :=
  if ver < 7 then [] else (List.range 18).flatMap fun i =>
    [((n - 11 + i % 3, i / 3), getBit (versionBits ver) i),
      ((i / 3, n - 11 + i % 3), getBit (versionBits ver) i)]

def functionStrokes (n ver : ℕ) (ecl : Ecc) : List Stroke :=
  timingStrokes n ++ finderStrokes n 3 3 ++ finderStrokes n (n - 4) 3 ++ finderStrokes n 3 (n - 4) ++
    alignmentsStrokes (getAlignmentPatternPositions ver) ++ formatStrokes n (formatBits ecl 0) ++
    versionStrokes n ver

namespace Drawing
variable {n : ℕ}

theorem drawFinderPattern_eq (d : Drawing n) (x y : ℤ) :
    d.drawFinderPattern x y = d.draw (finderStrokes n x y) := by
  simp only [drawFinderPattern, setFunctionModule_eq, draw_ite, foldl_draw]
  rfl

theorem drawAlignmentPattern_eq (d : Drawing n) (x y : ℤ) :
    d.drawAlignmentPattern x y = d.draw (alignmentStrokes x y) := by
  simp only [drawAlignmentPattern, setFunctionModule_eq, foldl_draw]
  rfl

theorem drawFormatBits_eq (d : Drawing n) (ecl : Ecc) (msk : ℕ) :
    d.drawFormatBits ecl msk = d.draw (formatStrokes n (formatBits ecl msk)) := by
  unfold drawFormatBits
  generalize formatBits ecl msk = bits
  simp only [setFunctionModule_eq, foldl_draw, ← draw_append]
  rfl

theorem drawVersion_eq (d : Drawing n) (ver : ℕ) : d.drawVersion ver = d.draw (versionStrokes n ver) := by
  rw [drawVersion, versionStrokes]
  split_ifs
  · rfl
  · simp only [setFunctionModule_eq, ← draw_append, foldl_draw]
    rfl

theorem drawFunctionPatterns_eq (d : Drawing n) (ver : ℕ) (ecl : Ecc) :
    d.drawFunctionPatterns ver ecl = d.draw (functionStrokes n ver ecl) := by
  simp only [drawFunctionPatterns, setFunctionModule_eq, ← draw_append, foldl_draw, draw_ite_not,
    drawFinderPattern_eq, drawAlignmentPattern_eq, drawFormatBits_eq, drawVersion_eq]
  rfl

end Drawing

/-! Which modules they are -/

/-- What a row or column says about the modules in it. -/
structure Zone where
  timing : Bool
  lowest : Bool
  low : Bool
  high : Bool
  beside : Bool
  first : Bool
  mid : Bool
  last : Bool
deriving DecidableEq

def near (p c : ℕ) : Bool := p ≤ c + 2 && c ≤ p + 2

def zone (ver c : ℕ) : Zone where
  timing := c = 6
  lowest := c ≤ 5
  low := c ≤ 8
  high := size ver ≤ c + 8
  beside := 7 ≤ ver && size ver ≤ c + 11 && c + 9 ≤ size ver
  first := 1 < ver && near 6 c
  mid := ((getAlignmentPatternPositions ver).drop 1).dropLast.any (near · c)
  last := 1 < ver && near (size ver - 7) c

/-- Timing, finders with the format, versions, and the alignment patterns but for three corners. -/
def Zone.reserved (p q : Zone) : Bool :=
  p.timing || q.timing || p.low && q.low || p.high && q.low || p.low && q.high ||
    p.beside && q.lowest || p.lowest && q.beside ||
    p.first && q.mid || p.mid && (q.first || q.mid || q.last) || p.last && (q.mid || q.last)

theorem reserved_iff (p q : Zone) : p.reserved q = true ↔
    (p.timing = true ∨ q.timing = true ∨ p.low = true ∧ q.low = true ∨ p.high = true ∧ q.low = true ∨
      p.low = true ∧ q.high = true ∨ p.beside = true ∧ q.lowest = true ∨
      p.lowest = true ∧ q.beside = true) ∨
    (p.first && q.mid || p.mid && (q.first || q.mid || q.last) || p.last && (q.mid || q.last)) = true := by
  simp only [Zone.reserved, Bool.or_eq_true, Bool.and_eq_true, or_assoc]

def reserved (ver x y : ℕ) : Bool := (zone ver x).reserved (zone ver y)

def cells (ws : List Stroke) : List (ℕ × ℕ) := ws.map Prod.fst

section cells
variable {n x y : ℕ}

theorem cells_append (ws vs : List Stroke) : cells (ws ++ vs) = cells ws ++ cells vs := List.map_append

theorem mem_cells_flatMap {ι : Type*} {l : List ι} {f : ι → List Stroke} {p : ℕ × ℕ} :
    p ∈ cells (l.flatMap f) ↔ ∃ i ∈ l, p ∈ cells (f i) := by
  rw [cells, List.map_flatMap]
  exact List.mem_flatMap

theorem mem_cells_timing : (x, y) ∈ cells (timingStrokes n) ↔ x = 6 ∧ y < n ∨ y = 6 ∧ x < n := by
  rw [timingStrokes, mem_cells_flatMap]
  simp only [cells, List.map_cons, List.map_nil, List.mem_cons, Prod.mk.injEq, List.not_mem_nil,
    or_false, List.mem_range]
  constructor
  · rintro ⟨i, hi, ⟨rfl, rfl⟩ | ⟨rfl, rfl⟩⟩
    · exact .inl ⟨rfl, hi⟩
    · exact .inr ⟨rfl, hi⟩
  · rintro (⟨rfl, h⟩ | ⟨rfl, h⟩)
    · exact ⟨y, h, .inl ⟨rfl, rfl⟩⟩
    · exact ⟨x, h, .inr ⟨rfl, rfl⟩⟩

theorem mem_around {r : ℕ} {d : ℤ} : d ∈ Drawing.around r ↔ |d| ≤ r := by
  rw [Drawing.around, List.mem_map, abs_le]
  constructor
  · rintro ⟨k, hk, rfl⟩
    rw [List.mem_range] at hk
    omega
  · rintro ⟨h, h'⟩
    refine ⟨(d + r).toNat, ?_, by omega⟩
    rw [List.mem_range]
    omega

theorem mem_cells_finder {a b : ℤ} : (x, y) ∈ cells (finderStrokes n a b) ↔
    x < n ∧ y < n ∧ |(x : ℤ) - a| ≤ 4 ∧ |(y : ℤ) - b| ≤ 4 := by
  simp only [finderStrokes, mem_cells_flatMap, mem_around]
  constructor
  · rintro ⟨dy, hdy, dx, hdx, h⟩
    split_ifs at h with hin
    · simp only [cells, List.map_cons, List.map_nil, List.mem_singleton, Prod.mk.injEq] at h
      obtain ⟨rfl, rfl⟩ := h
      rw [abs_le] at hdx hdy ⊢
      rw [abs_le]
      push_cast at hdx hdy
      omega
    · cases h
  · rintro ⟨hx, hy, hdx, hdy⟩
    refine ⟨y - b, hdy, x - a, hdx, ?_⟩
    rw [if_pos (by omega)]
    simp [cells]

theorem near_iff {p c : ℕ} : near p c = true ↔ |(c : ℤ) - p| ≤ 2 := by
  rw [near, Bool.and_eq_true, decide_eq_true_eq, decide_eq_true_eq, abs_le]
  omega

theorem mem_cells_alignment {a b : ℕ} (ha : 2 ≤ a) (hb : 2 ≤ b) :
    (x, y) ∈ cells (alignmentStrokes a b) ↔ near a x ∧ near b y := by
  simp only [alignmentStrokes, mem_cells_flatMap, mem_around, near_iff]
  constructor
  · rintro ⟨dy, hdy, dx, hdx, h⟩
    simp only [cells, List.map_cons, List.map_nil, List.mem_singleton, Prod.mk.injEq] at h
    obtain ⟨rfl, rfl⟩ := h
    rw [abs_le] at hdx hdy ⊢
    rw [abs_le]
    push_cast at hdx hdy
    omega
  · rintro ⟨hdx, hdy⟩
    refine ⟨y - b, hdy, x - a, hdx, ?_⟩
    simp [cells]

theorem mem_cells_alignments {ps : List ℕ} (hps : ∀ p ∈ ps, 2 ≤ p) :
    (x, y) ∈ cells (alignmentsStrokes ps) ↔
      ∃ i j, i < ps.length ∧ j < ps.length ∧ ¬ Corner ps.length i j ∧
        near (ps.getD i 0) x ∧ near (ps.getD j 0) y := by
  have htwo : ∀ i < ps.length, 2 ≤ ps.getD i 0 := by
    intro i hi
    simp only [List.getD_eq_getElem?_getD, List.getElem?_eq_getElem hi, Option.getD_some]
    exact hps _ (List.getElem_mem hi)
  simp only [alignmentsStrokes, mem_cells_flatMap, List.mem_range]
  constructor
  · rintro ⟨i, hi, j, hj, h⟩
    split_ifs at h with hc
    · cases h
    · exact ⟨i, j, hi, hj, hc, (mem_cells_alignment (htwo i hi) (htwo j hj)).mp h⟩
  · rintro ⟨i, j, hi, hj, hc, h⟩
    refine ⟨i, hi, j, hj, ?_⟩
    rw [if_neg hc]
    exact (mem_cells_alignment (htwo i hi) (htwo j hj)).mpr h

theorem mem_formatCells : (x, y) ∈ formatCells ↔
    x = 8 ∧ y ≤ 8 ∧ y ≠ 6 ∨ y = 8 ∧ x ≤ 7 ∧ x ≠ 6 := by
  simp only [formatCells, List.mem_append, List.mem_map, List.mem_range, List.mem_range'_1,
    List.mem_cons, Prod.mk.injEq, List.not_mem_nil, or_false]
  constructor
  · rintro ((⟨i, hi, rfl, rfl⟩ | h) | ⟨i, hi, rfl, rfl⟩) <;> omega
  · intro h
    by_cases hy : x = 8 ∧ y < 6
    · exact .inl (.inl ⟨y, hy.2, hy.1.symm, rfl⟩)
    · by_cases hx : y = 8 ∧ x < 6
      · exact .inr ⟨14 - x, by omega, by omega, hx.1.symm⟩
      · omega

theorem mem_formatCells' (hn : 21 ≤ n) : (x, y) ∈ formatCells' n ↔
    y = 8 ∧ x < n ∧ n ≤ x + 8 ∨ x = 8 ∧ y < n ∧ n ≤ y + 7 := by
  simp only [formatCells', List.mem_append, List.mem_map, List.mem_range, List.mem_range'_1,
    Prod.mk.injEq]
  constructor
  · rintro (⟨i, hi, rfl, rfl⟩ | ⟨i, hi, rfl, rfl⟩) <;> omega
  · rintro (⟨rfl, h⟩ | ⟨rfl, h⟩)
    · exact .inl ⟨n - 1 - x, by omega, by omega, rfl⟩
    · exact .inr ⟨y + 15 - n, by omega, rfl, by omega⟩

theorem length_bitsFrom (bits len : ℕ) : (bitsFrom bits len).length = len := by simp [bitsFrom]

theorem cells_formatStrokes (n bits : ℕ) :
    cells (formatStrokes n bits) = formatCells ++ (formatCells' n ++ [(8, n - 8)]) := by
  rw [cells, formatStrokes, map_fst_zip]
  apply List.take_of_length_le
  simp [formatCells, formatCells', length_bitsFrom]

theorem mem_cells_version {ver : ℕ} : (x, y) ∈ cells (versionStrokes n ver) ↔
    7 ≤ ver ∧ (n - 11 ≤ x ∧ x < n - 11 + 3 ∧ y ≤ 5 ∨ n - 11 ≤ y ∧ y < n - 11 + 3 ∧ x ≤ 5) := by
  rw [versionStrokes]
  split_ifs with hv
  · simp [cells, hv]
  · rw [mem_cells_flatMap]
    simp only [cells, List.map_cons, List.map_nil, List.mem_cons, Prod.mk.injEq, List.not_mem_nil,
      or_false, List.mem_range]
    constructor
    · rintro ⟨i, hi, ⟨rfl, rfl⟩ | ⟨rfl, rfl⟩⟩ <;> omega
    · rintro ⟨_, h | h⟩
      · exact ⟨3 * y + (x - (n - 11)), by omega, .inl (by omega)⟩
      · exact ⟨3 * x + (y - (n - 11)), by omega, .inr (by omega)⟩

end cells

/-- The first and the last position, and at least these from the second version on. -/
structure Aligned (ver : ℕ) (ps : List ℕ) : Prop where
  two : 2 ≤ ps.length
  first : ps.getD 0 0 = 6
  last : ps.getD (ps.length - 1) 0 = size ver - 7
  inside : ps.all (2 ≤ ·) = true

instance (ver : ℕ) (ps : List ℕ) : Decidable (Aligned ver ps) :=
  decidable_of_iff (2 ≤ ps.length ∧ ps.getD 0 0 = 6 ∧ ps.getD (ps.length - 1) 0 = size ver - 7 ∧
    ps.all (2 ≤ ·) = true)
    ⟨fun h => ⟨h.1, h.2.1, h.2.2.1, h.2.2.2⟩, fun h => ⟨h.two, h.first, h.last, h.inside⟩⟩

theorem aligned {ver : ℕ} (h : Supported ver) (hv : ver ≠ 1) :
    Aligned ver (getAlignmentPatternPositions ver) := by
  have hall : (List.range' MIN_VERSION MAX_VERSION).all (fun v =>
      v == 1 || decide (Aligned v (getAlignmentPatternPositions v))) = true := by decide +kernel
  have hver := List.all_eq_true.mp hall ver (supported_mem h)
  rw [Bool.or_eq_true, beq_iff_eq, decide_eq_true_eq] at hver
  exact hver.resolve_left hv

section aligned
variable {ver c : ℕ} {ps : List ℕ}

theorem any_mid (ps : List ℕ) : (ps.drop 1).dropLast.any (near · c) = true ↔
    ∃ i, 0 < i ∧ i < ps.length - 1 ∧ near (ps.getD i 0) c = true := by
  rw [List.any_eq_true]
  constructor
  · rintro ⟨p, hp, hn⟩
    obtain ⟨i, hi, rfl⟩ := List.getElem_of_mem hp
    rw [List.length_dropLast, List.length_drop] at hi
    refine ⟨i + 1, by omega, by omega, ?_⟩
    rw [List.getElem_dropLast, List.getElem_drop] at hn
    simpa [List.getD_eq_getElem?_getD, List.getElem?_eq_getElem (show i + 1 < ps.length by omega),
      Nat.add_comm] using hn
  · rintro ⟨i, h0, hi, hn⟩
    have hlen : i - 1 < ((ps.drop 1).dropLast).length := by
      rw [List.length_dropLast, List.length_drop]
      omega
    refine ⟨_, List.getElem_mem hlen, ?_⟩
    rw [List.getElem_dropLast, List.getElem_drop]
    simpa [List.getD_eq_getElem?_getD, List.getElem?_eq_getElem (show i < ps.length by omega),
      show 1 + (i - 1) = i by omega] using hn

/-- Near two positions that are no corner: at least one of them in the middle, or both the last. -/
theorem alignment_zones {x y : ℕ} (h : Aligned ver ps) :
    (∃ i j, i < ps.length ∧ j < ps.length ∧ ¬ Corner ps.length i j ∧
        near (ps.getD i 0) x = true ∧ near (ps.getD j 0) y = true) ↔
      (near 6 x ∧ (ps.drop 1).dropLast.any (near · y)) ∨
      ((ps.drop 1).dropLast.any (near · x) ∧
        (near 6 y ∨ (ps.drop 1).dropLast.any (near · y) ∨ near (size ver - 7) y)) ∨
      (near (size ver - 7) x ∧ ((ps.drop 1).dropLast.any (near · y) ∨ near (size ver - 7) y)) := by
  have htwo := h.two
  rw [any_mid, any_mid, ← h.first, ← h.last]
  constructor
  · rintro ⟨i, j, hi, hj, hc, hx, hy⟩
    unfold Corner at hc
    have hi' : i = 0 ∨ (0 < i ∧ i < ps.length - 1) ∨ i = ps.length - 1 := by omega
    have hj' : j = 0 ∨ (0 < j ∧ j < ps.length - 1) ∨ j = ps.length - 1 := by omega
    rcases hi' with rfl | hi' | rfl
    · have hj'' : 0 < j ∧ j < ps.length - 1 := by omega
      exact .inl ⟨hx, j, hj''.1, hj''.2, hy⟩
    · right
      left
      refine ⟨⟨i, hi'.1, hi'.2, hx⟩, ?_⟩
      rcases hj' with rfl | hj' | rfl
      · exact .inl hy
      · exact .inr (.inl ⟨j, hj'.1, hj'.2, hy⟩)
      · exact .inr (.inr hy)
    · right
      right
      refine ⟨hx, ?_⟩
      rcases hj' with rfl | hj' | rfl
      · omega
      · exact .inl ⟨j, hj'.1, hj'.2, hy⟩
      · exact .inr hy
  · unfold Corner
    rintro (⟨hx, j, h0, hj, hy⟩ | ⟨⟨i, h0, hi, hx⟩, hy | ⟨j, hj0, hj, hy⟩ | hy⟩ |
      ⟨hx, ⟨j, hj0, hj, hy⟩ | hy⟩)
    · exact ⟨0, j, by omega, by omega, by omega, hx, hy⟩
    · exact ⟨i, 0, by omega, by omega, by omega, hx, hy⟩
    · exact ⟨i, j, by omega, by omega, by omega, hx, hy⟩
    · exact ⟨i, ps.length - 1, by omega, by omega, by omega, hx, hy⟩
    · exact ⟨ps.length - 1, j, by omega, by omega, by omega, hx, hy⟩
    · exact ⟨ps.length - 1, ps.length - 1, by omega, by omega, by omega, hx, hy⟩

end aligned

theorem size_ge {ver : ℕ} (h : Supported ver) : 21 ≤ size ver := by
  have := h.1
  unfold size MIN_VERSION at *
  omega

/-- All that is drawn but the alignment patterns, as one region after the other. -/
theorem mem_fixed {n ver x y : ℕ} (bits : ℕ) (hn : 21 ≤ n) (hx : x < n) (hy : y < n) :
    ((x, y) ∈ cells (timingStrokes n) ∨ (x, y) ∈ cells (finderStrokes n 3 3) ∨
      (x, y) ∈ cells (finderStrokes n (n - 4) 3) ∨ (x, y) ∈ cells (finderStrokes n 3 (n - 4)) ∨
      (x, y) ∈ cells (formatStrokes n bits) ∨ (x, y) ∈ cells (versionStrokes n ver)) ↔
    (x = 6 ∨ y = 6 ∨ x ≤ 8 ∧ y ≤ 8 ∨ n ≤ x + 8 ∧ y ≤ 8 ∨ x ≤ 8 ∧ n ≤ y + 8 ∨
      (7 ≤ ver ∧ n ≤ x + 11 ∧ x + 9 ≤ n) ∧ y ≤ 5 ∨ x ≤ 5 ∧ 7 ≤ ver ∧ n ≤ y + 11 ∧ y + 9 ≤ n) := by
  simp only [mem_cells_timing, mem_cells_finder, cells_formatStrokes, List.mem_append,
    mem_formatCells, mem_formatCells' hn, List.mem_singleton, Prod.mk.injEq, mem_cells_version, abs_le]
  constructor
  · rintro (h | h | h | h | (h | h | h) | ⟨hv, h | h⟩)
    · exact h.imp And.left fun h => .inl h.1
    · exact .inr (.inr (.inl (by omega)))
    · exact .inr (.inr (.inr (.inl (by omega))))
    · exact .inr (.inr (.inr (.inr (.inl (by omega)))))
    · exact .inr (.inr (.inl (by omega)))
    · rcases h with h | h
      · exact .inr (.inr (.inr (.inl (by omega))))
      · exact .inr (.inr (.inr (.inr (.inl (by omega)))))
    · exact .inr (.inr (.inr (.inr (.inl (by omega)))))
    · exact .inr (.inr (.inr (.inr (.inr (.inl (by omega))))))
    · exact .inr (.inr (.inr (.inr (.inr (.inr (by omega))))))
  · -- inside a finder's box, the last row and column hold the timing and the format
    rintro (h | h | h | h | h | h | h)
    · exact .inl (.inl ⟨h, hy⟩)
    · exact .inl (.inr ⟨h, hx⟩)
    · by_cases h7 : x ≤ 7 ∧ y ≤ 7
      · exact .inr (.inl (by omega))
      · by_cases h6 : x = 6 ∨ y = 6
        · exact .inl (by omega)
        · exact .inr (.inr (.inr (.inr (.inl (.inl (by omega))))))
    · by_cases h7 : y ≤ 7
      · exact .inr (.inr (.inl (by omega)))
      · exact .inr (.inr (.inr (.inr (.inl (.inr (.inl (.inl (by omega))))))))
    · by_cases h7 : x ≤ 7
      · exact .inr (.inr (.inr (.inl (by omega))))
      · by_cases hlast : y = n - 8
        · exact .inr (.inr (.inr (.inr (.inl (.inr (.inr (by omega)))))))
        · exact .inr (.inr (.inr (.inr (.inl (.inr (.inl (.inr (by omega))))))))
    · exact .inr (.inr (.inr (.inr (.inr ⟨h.1.1, .inl (by omega)⟩))))
    · exact .inr (.inr (.inr (.inr (.inr ⟨h.2.1, .inr (by omega)⟩))))

/-- The function patterns are drawn on the reserved modules. -/
theorem mem_functionStrokes {ver : ℕ} (h : Supported ver) (ecl : Ecc) {x y : ℕ} (hx : x < size ver)
    (hy : y < size ver) :
    (x, y) ∈ cells (functionStrokes (size ver) ver ecl) ↔ reserved ver x y = true := by
  have hn := size_ge h
  have halign : (x, y) ∈ cells (alignmentsStrokes (getAlignmentPatternPositions ver)) ↔
      ((zone ver x).first && (zone ver y).mid || (zone ver x).mid && ((zone ver y).first ||
        (zone ver y).mid || (zone ver y).last) || (zone ver x).last && ((zone ver y).mid ||
          (zone ver y).last)) = true := by
    by_cases hv : ver = 1
    · subst hv
      simp [zone, getAlignmentPatternPositions, alignmentsStrokes, cells]
    · have ha := aligned h hv
      have h1 : 1 < ver := by
        have := h.1
        unfold MIN_VERSION at this
        omega
      rw [mem_cells_alignments fun p hp => by simpa using List.all_eq_true.mp ha.inside p hp,
        alignment_zones ha]
      simp [zone, h1, or_assoc]
  rw [reserved, reserved_iff, ← halign]
  have hzones : ((zone ver x).timing = true ∨ (zone ver y).timing = true ∨
      (zone ver x).low = true ∧ (zone ver y).low = true ∨
      (zone ver x).high = true ∧ (zone ver y).low = true ∨
      (zone ver x).low = true ∧ (zone ver y).high = true ∨
      (zone ver x).beside = true ∧ (zone ver y).lowest = true ∨
      (zone ver x).lowest = true ∧ (zone ver y).beside = true) ↔
      (x = 6 ∨ y = 6 ∨ x ≤ 8 ∧ y ≤ 8 ∨ size ver ≤ x + 8 ∧ y ≤ 8 ∨ x ≤ 8 ∧ size ver ≤ y + 8 ∨
        (7 ≤ ver ∧ size ver ≤ x + 11 ∧ x + 9 ≤ size ver) ∧ y ≤ 5 ∨
        x ≤ 5 ∧ 7 ≤ ver ∧ size ver ≤ y + 11 ∧ y + 9 ≤ size ver) := by
    simp only [zone, Bool.and_eq_true, decide_eq_true_eq, and_assoc]
  rw [hzones, ← mem_fixed (formatBits ecl 0) hn hx hy]
  simp only [functionStrokes, cells_append, List.mem_append]
  constructor
  · rintro ((((((h | h) | h) | h) | h) | h) | h) <;> simp [h]
  · rintro ((h | h | h | h | h | h) | h) <;> simp [h]

theorem get_isFunction {n : ℕ} (ws : List Stroke) {x y : ℕ} (hx : x < n) (hy : y < n) :
    ((Drawing.blank n).draw ws).isFunction.get x y = true ↔ (x, y) ∈ cells ws := by
  have hcells : (ws.map fun w => (w.1, true)).map Prod.fst = cells ws := by
    rw [List.map_map]
    rfl
  constructor
  · intro h
    by_contra hc
    rw [← hcells] at hc
    have hkept := get_paint_of_not_mem (Grid.blank n) hc
    rw [get_blank] at hkept
    exact Bool.false_ne_true (hkept.symm.trans h)
  · intro h
    obtain ⟨w, hw, he⟩ := List.mem_map.mp h
    exact get_paint_const (Grid.blank n) (by rw [hcells]; exact h)
      (fun v hv => by obtain ⟨_, _, rfl⟩ := List.mem_map.mp hv; rfl) hx hy

/-- `isFunction` after the patterns of a version. -/
theorem isFunction_patterns {ver : ℕ} (h : Supported ver) (ecl : Ecc) {x y : ℕ}
    (hx : x < size ver) (hy : y < size ver) :
    ((Drawing.blank (size ver)).drawFunctionPatterns ver ecl).isFunction.get x y =
      reserved ver x y := by
  rw [Bool.eq_iff_iff, Drawing.drawFunctionPatterns_eq, get_isFunction _ hx hy,
    mem_functionStrokes h ecl hx hy]

/-! How many they leave -/

/-- The modules that are left, by zones and how often each comes. -/
def zonesFree (ver : ℕ) : ℕ :=
  let zs := runs ((List.range (size ver)).map (zone ver))
  (zs.map fun p => p.2 * (zs.map fun q => q.2 * if p.1.reserved q.1 then 0 else 1).sum).sum

theorem zonesFree_eq {ver : ℕ} (h : Supported ver) : zonesFree ver = getNumRawDataModules ver := by
  have hall : (List.range' MIN_VERSION MAX_VERSION).all (fun v =>
      zonesFree v == getNumRawDataModules v) = true := by decide +kernel
  exact beq_iff_eq.mp (List.all_eq_true.mp hall ver (supported_mem h))

/-- The modules of a symbol, column by column. -/
def allModules (n : ℕ) : List (ℕ × ℕ) := (List.range n).flatMap fun x => (List.range n).map (x, ·)

theorem sum_ite_countP {α : Type*} (r : α → Bool) (l : List α) :
    (l.map fun a => if r a then 0 else 1).sum = l.countP fun a => !r a := by
  induction l with
  | nil => rfl
  | cons a l ih =>
    rw [List.map_cons, List.sum_cons, ih, List.countP_cons]
    cases r a
    · exact Nat.add_comm ..
    · simp

/-- The formula counts the modules that the patterns leave. -/
theorem getNumRawDataModules_eq {ver : ℕ} (h : Supported ver) :
    getNumRawDataModules ver =
      ((allModules (size ver)).filter fun p => !reserved ver p.1 p.2).length := by
  have hcol : ∀ p : Zone, ((runs ((List.range (size ver)).map (zone ver))).map fun q =>
      q.2 * if p.reserved q.1 then 0 else 1).sum =
        (List.range (size ver)).countP fun y => !p.reserved (zone ver y) := by
    intro p
    rw [sum_runs (fun q => if p.reserved q then 0 else 1), List.map_map]
    exact sum_ite_countP (fun y => p.reserved (zone ver y)) _
  rw [← zonesFree_eq h, ← List.countP_eq_length_filter, allModules, List.countP_flatMap, zonesFree]
  simp only [hcol]
  rw [sum_runs (fun p : Zone => (List.range (size ver)).countP fun y => !p.reserved (zone ver y)),
    List.map_map]
  simp only [Function.comp_def, List.countP_map]
  rfl

end Lattix.Client.Qr
