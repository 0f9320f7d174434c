import Lattix.Client.Qr.Reading

/-! A code as it is drawn. -/

namespace Lattix.Client.Qr
open Lattix.Lib Lattix.Lib.ReedSolomon

structure Canvas where
  width : ℕ
  height : ℕ
  ink : ℕ → ℕ → Bool

/-- Pixels off the canvas are left out. -/
def Canvas.fillRect (dark : Bool) (x y w h : ℕ) (c : Canvas) : Canvas :=
  { c with ink := fun px py =>
      if px < c.width ∧ py < c.height ∧ (x ≤ px ∧ px < x + w) ∧ (y ≤ py ∧ py < y + h) then dark
      else c.ink px py }

def quiet : ℕ := 4

/-- No fraction of a pixel, and no less than one. -/
def scaleOf (width n : ℕ) : ℕ := max 1 (width / (n + quiet * 2))

/-- `total * scale` is beyond the width only for a scale of one, where the offset is zero. -/
def offsetOf (width n : ℕ) : ℕ := (width - (n + quiet * 2) * scaleOf width n) / 2

def drawModule (q : QrCode) (scale off : ℕ) (c : Canvas) (p : ℕ × ℕ) : Canvas :=
  if q.getModule p.1 p.2 then
    c.fillRect true (off + (p.1 + quiet) * scale) (off + (p.2 + quiet) * scale) scale scale
  else c

def rowByRow (n : ℕ) : List (ℕ × ℕ) := (List.range n).flatMap fun y => (List.range n).map (·, y)

def drawQr (text : String) (c : Canvas) : Except String Canvas := do
  let qr ← encodeText text .medium
  let n := size qr.version
  let cleared := c.fillRect false 0 0 c.width c.height
  return (rowByRow n).foldl (drawModule qr (scaleOf c.width n) (offsetOf c.width n)) cleared

/-- The pixels of a module's square, along one side. -/
def Covers (scale off x px : ℕ) : Prop :=
  off + (x + quiet) * scale ≤ px ∧ px < off + (x + quiet) * scale + scale

instance (scale off x px : ℕ) : Decidable (Covers scale off x px) := inferInstanceAs (Decidable (_ ∧ _))

section canvas
variable {c c' : Canvas} {q : QrCode} {scale off n x y px py : ℕ} {text : String}

theorem fillRect_ink {dark : Bool} {w h : ℕ} (hx : px < c.width) (hy : py < c.height) :
    (c.fillRect dark x y w h).ink px py =
      if (x ≤ px ∧ px < x + w) ∧ (y ≤ py ∧ py < y + h) then dark else c.ink px py := by
  simp [Canvas.fillRect, hx, hy]

theorem Covers.eq {x' : ℕ} (h : Covers scale off x px) (h' : Covers scale off x' px) : x = x' := by
  obtain ⟨hlo, hhi⟩ := h
  obtain ⟨hlo', hhi'⟩ := h'
  by_contra hne
  rcases Nat.lt_or_gt_of_ne hne with hlt | hlt
  · have : (x + quiet + 1) * scale ≤ (x' + quiet) * scale := Nat.mul_le_mul_right _ (by omega)
    rw [Nat.add_mul, Nat.one_mul] at this
    omega
  · have : (x' + quiet + 1) * scale ≤ (x + quiet) * scale := Nat.mul_le_mul_right _ (by omega)
    rw [Nat.add_mul, Nat.one_mul] at this
    omega

theorem drawModule_size (p : ℕ × ℕ) : (drawModule q scale off c p).width = c.width ∧
    (drawModule q scale off c p).height = c.height := by
  unfold drawModule
  split_ifs <;> exact ⟨rfl, rfl⟩

/-- A pixel is inked by the dark modules whose squares it is in. -/
theorem ink_foldl (ps : List (ℕ × ℕ)) (hx : px < c.width) (hy : py < c.height) :
    (ps.foldl (drawModule q scale off) c).ink px py = true ↔ c.ink px py = true ∨
      ∃ p ∈ ps, q.getModule p.1 p.2 = true ∧ Covers scale off p.1 px ∧ Covers scale off p.2 py := by
  induction ps generalizing c with
  | nil => simp
  | cons p ps ih =>
    obtain ⟨hw, hh⟩ := drawModule_size (q := q)  (c := c) p
    rw [List.foldl_cons, ih (by rw [hw]; exact hx) (by rw [hh]; exact hy)]
    have hstep : (drawModule q scale off c p).ink px py = true ↔ c.ink px py = true ∨
        (q.getModule p.1 p.2 = true ∧ Covers scale off p.1 px ∧ Covers scale off p.2 py) := by
      unfold drawModule
      by_cases hm : q.getModule p.1 p.2 = true
      · rw [if_pos hm, fillRect_ink hx hy, or_comm]
        unfold Covers
        split_ifs with hc
        · exact iff_of_true rfl (.inl ⟨hm, hc⟩)
        · exact (or_iff_right fun h => hc h.2).symm
      · rw [if_neg hm]
        simp [hm]
    rw [hstep]
    simp only [List.mem_cons, exists_eq_or_imp, or_assoc]

theorem mem_rowByRow : (x, y) ∈ rowByRow n ↔ x < n ∧ y < n := by
  simp only [rowByRow, List.mem_flatMap, List.mem_map, List.mem_range, Prod.mk.injEq]
  constructor
  · rintro ⟨b, hb, a, ha, rfl, rfl⟩
    exact ⟨ha, hb⟩
  · rintro ⟨hx, hy⟩
    exact ⟨y, hy, x, hx, rfl, rfl⟩

theorem size_le {ver : ℕ} (h : Supported ver) : size ver ≤ 177 := by
  have := h.2
  unfold MAX_VERSION at this
  unfold size
  omega

theorem scaleOf_pos (width n : ℕ) : 0 < scaleOf width n := Nat.lt_of_lt_of_le Nat.one_pos (Nat.le_max_left _ _)

/-- A symbol with its margin keeps within a canvas that has a pixel for each of its modules. -/
theorem offsetOf_le {width : ℕ} (h : n + quiet * 2 ≤ width) :
    offsetOf width n + (n + quiet * 2) * scaleOf width n + offsetOf width n ≤ width := by
  have hscale : scaleOf width n = width / (n + quiet * 2) :=
    Nat.max_eq_right (Nat.div_pos h (by unfold quiet; omega))
  have hle : (n + quiet * 2) * scaleOf width n ≤ width := by
    rw [hscale]
    exact Nat.mul_div_le width (n + quiet * 2)
  unfold offsetOf
  omega

theorem Covers.lt (h : Covers scale off x px) (hx : x < n) :
    px + quiet * scale < off + (n + quiet * 2) * scale := by
  have : (x + quiet + 1) * scale ≤ (n + quiet) * scale := Nat.mul_le_mul_right _ (by omega)
  rw [Nat.add_mul, Nat.one_mul] at this
  have hn : (n + quiet * 2) * scale = (n + quiet) * scale + quiet * scale := by ring
  have := h.2
  omega

theorem drawQr_ok (h : drawQr text c = .ok c') : ∃ q, encodeText text .medium = .ok q ∧
    c' = (rowByRow (size q.version)).foldl
      (drawModule q (scaleOf c.width (size q.version)) (offsetOf c.width (size q.version)))
      (c.fillRect false 0 0 c.width c.height) := by
  cases hq : encodeText text .medium with
  | error e =>
    rw [drawQr, hq] at h
    cases h
  | ok q =>
    rw [drawQr, hq] at h
    exact ⟨q, rfl, (Except.ok.inj h).symm⟩

theorem drawQr_fits (h : (utf8 text).length + 3 ≤ getNumDataCodewords MAX_VERSION .medium) (c : Canvas) :
    ∃ c', drawQr text c = .ok c' := by
  obtain ⟨q, hq⟩ := encodeText_ok h
  exact ⟨_, by rw [drawQr, hq]; rfl⟩

/-- Each module is a square of its own on the canvas, and nothing else is inked. -/
structure Drawn (c c' : Canvas) (q : QrCode) (scale off : ℕ) : Prop where
  pos : 0 < scale
  fits : off + (size q.version + quiet * 2) * scale + off ≤ c.width
  square : ∀ x < size q.version, ∀ y < size q.version, ∀ px py, Covers scale off x px →
    Covers scale off y py → c'.ink px py = q.getModule x y
  clear : ∀ px < c.width, ∀ py < c.height, (∀ x < size q.version, ∀ y < size q.version,
    ¬(Covers scale off x px ∧ Covers scale off y py)) → c'.ink px py = false

/-- A canvas of 185 pixels takes every symbol. -/
theorem drawQr_drawn (h : drawQr text c = .ok c') (hw : 185 ≤ c.width) (hh : c.height = c.width) :
    ∃ q scale off, encodeText text .medium = .ok q ∧ Drawn c c' q scale off := by
  obtain ⟨q, hq, rfl⟩ := drawQr_ok h
  obtain ⟨ver, msk, hs, -, -, -, hqver⟩ := encodeText_cases hq
  have hver : q.version = ver := by rw [hqver]; rfl
  have hn := size_le hs
  rw [← hver] at hn
  have hfit : offsetOf c.width (size q.version) +
      (size q.version + quiet * 2) * scaleOf c.width (size q.version) +
      offsetOf c.width (size q.version) ≤ c.width := offsetOf_le (by unfold quiet; omega)
  have hpos := scaleOf_pos c.width (size q.version)
  refine ⟨q, scaleOf c.width (size q.version), offsetOf c.width (size q.version), hq, ?_⟩
  generalize scaleOf c.width (size q.version) = scale at *
  generalize offsetOf c.width (size q.version) = off at *
  have hcleared : ∀ px < c.width, ∀ py < c.height,
      (c.fillRect false 0 0 c.width c.height).ink px py = false := by
    intro px hpx py hpy
    rw [fillRect_ink hpx hpy, if_pos (by omega)]
  have hink {px py : ℕ} (hpx : px < c.width) (hpy : py < c.height) :
      ((rowByRow (size q.version)).foldl (drawModule q scale off)
        (c.fillRect false 0 0 c.width c.height)).ink px py = true ↔
        ∃ p ∈ rowByRow (size q.version),
          q.getModule p.1 p.2 = true ∧ Covers scale off p.1 px ∧ Covers scale off p.2 py := by
    rw [ink_foldl _ (by exact hpx) (by exact hpy), hcleared px hpx py hpy]
    simp
  refine ⟨hpos, hfit, ?_, ?_⟩
  · intro x hx y hy px py hcx hcy
    have hpx := hcx.lt hx
    have hpy := hcy.lt hy
    refine Bool.eq_iff_iff.mpr ?_
    rw [hink (by omega) (by omega)]
    constructor
    · rintro ⟨p, -, hm, hx', hy'⟩
      rwa [hcx.eq hx', hcy.eq hy']
    · intro hm
      exact ⟨(x, y), mem_rowByRow.mpr ⟨hx, hy⟩, hm, hcx, hcy⟩
  · intro px hpx py hpy hno
    rw [← Bool.not_eq_true, hink hpx hpy]
    rintro ⟨⟨x, y⟩, hp, -, hc⟩
    obtain ⟨hx, hy⟩ := mem_rowByRow.mp hp
    exact hno x hx y hy hc

/-! Reading the canvas -/

/-- One pixel out of each module's square. -/
def Samples (n scale off : ℕ) (px py : ℕ → ℕ → ℕ) : Prop :=
  ∀ x < n, ∀ y < n, Covers scale off x (px x y) ∧ Covers scale off y (py x y)

theorem formatRead_congr {dark dark' : ℕ → ℕ → Bool} (hn : 9 ≤ n)
    (h : ∀ x < n, ∀ y < n, dark x y = dark' x y) : formatRead dark = formatRead dark' := by
  have hcells : formatCells.all (fun p => p.1 < 9 && p.2 < 9) = true := by decide
  apply List.map_congr_left
  intro p hp
  have hlt := List.all_eq_true.mp hcells p hp
  simp only [Bool.and_eq_true, decide_eq_true_eq] at hlt
  exact h p.1 (by omega) p.2 (by omega)

theorem blockRead_congr {ver : ℕ} {dark dark' : ℕ → ℕ → Bool} (hs : Supported ver)
    (h : ∀ x < size ver, ∀ y < size ver, dark x y = dark' x y) (ecl : Ecc) (msk j : ℕ) :
    blockRead ver ecl msk dark j = blockRead ver ecl msk dark' j := by
  have hcodewords : codewordsRead ver msk dark = codewordsRead ver msk dark' := by
    rw [codewordsRead, codewordsRead]
    congr 1
    apply List.map_congr_left
    intro p hp
    obtain ⟨hx, hy⟩ := path_lt hs p hp
    rw [h p.1 hx p.2 hy]
  rw [blockRead, hcodewords]
  rfl

theorem readSymbol_samples {px py : ℕ → ℕ → ℕ} (hq : encodeText text .medium = .ok q)
    (hd : Drawn c c' q scale off) (hp : Samples (size q.version) scale off px py) :
    readSymbol (size q.version) (fun x y => c'.ink (px x y) (py x y)) = some (utf8 text) := by
  have hsame : ∀ x < size q.version, ∀ y < size q.version, c'.ink (px x y) (py x y) = q.getModule x y :=
    fun x hx y hy => hd.square x hx y hy _ _ (hp x hx y hy).1 (hp x hx y hy).2
  obtain ⟨ver, msk, hs, hfits, -, hmsk, hnew⟩ := encodeText_cases hq
  have hver : q.version = ver := by rw [hnew]; rfl
  rw [hver] at hsame ⊢
  apply readSymbol_new hs hfits (utf8_bytes text) hmsk hnew
  · rw [formatRead_congr (by have := size_ge hs; omega) hsame, mismatches_self]
    exact Nat.zero_le _
  · intro j hj
    rw [blockRead_congr hs hsame, mismatches_self]
    exact Nat.zero_le _

/-- Every symbol that is drawn lies on the canvas with a clear margin around it, and is read as
the text from whichever pixels of its squares. -/
theorem scan_drawQr (h : drawQr text c = .ok c') (hw : 185 ≤ c.width) (hh : c.height = c.width) :
    ∃ n scale off, 0 < scale ∧ off + (n + quiet * 2) * scale + off ≤ c.width ∧
      (∀ px < c.width, ∀ py < c.height, (∀ x < n, ∀ y < n,
        ¬(Covers scale off x px ∧ Covers scale off y py)) → c'.ink px py = false) ∧
      ∀ px py, Samples n scale off px py →
        readSymbol n (fun x y => c'.ink (px x y) (py x y)) = some (utf8 text) := by
  obtain ⟨q, scale, off, hq, hd⟩ := drawQr_drawn h hw hh
  exact ⟨size q.version, scale, off, hd.pos, hd.fits, hd.clear, fun px py hp => readSymbol_samples hq hd hp⟩

/-- The canvas of the dialog. -/
def dialogCanvas : Canvas := ⟨220, 220, fun _ _ => true⟩

theorem scan_greeting : ∃ c', drawQr "grüezi" dialogCanvas = .ok c' ∧
    ∃ n scale off, 0 < scale ∧ ∀ px py, Samples n scale off px py →
      readSymbol n (fun x y => c'.ink (px x y) (py x y)) = some (utf8 "grüezi") := by
  have hroom : (utf8 "grüezi").length + 3 ≤ getNumDataCodewords MAX_VERSION .medium := by decide +kernel
  obtain ⟨c', hc⟩ := drawQr_fits hroom dialogCanvas
  obtain ⟨n, scale, off, hpos, -, -, hread⟩ := scan_drawQr hc (by decide) rfl
  exact ⟨c', hc, n, scale, off, hpos, hread⟩

end canvas

end Lattix.Client.Qr
