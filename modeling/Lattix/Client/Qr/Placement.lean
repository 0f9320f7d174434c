import Lattix.Client.Qr.Modules
import Lattix.Lib.Bits

/-! Where the codewords go, and the masks over them. -/

namespace Lattix.Client.Qr
open Lattix.Lib Lattix.Lib.Grid Lattix.Lib.Bits

/-- `if (right === 6) right = 5` -/
def skipTiming (right : ℕ) : ℕ := if right = 6 then 5 else right

/-- The values of `right`. -/
def columns : ℕ → ℕ → List ℕ
  | 0, _ => []
  | fuel + 1, right =>
    if right < 1 then [] else skipTiming right :: columns fuel (skipTiming right - 2)

def invert (msk x y : ℕ) : Bool :=
  match msk with
  | 0 => (x + y) % 2 = 0
  | 1 => y % 2 = 0
  | 2 => x % 3 = 0
  | 3 => (x + y) % 3 = 0
  | 4 => (x / 3 + y / 2) % 2 = 0
  | 5 => x * y % 2 + x * y % 3 = 0
  | 6 => (x * y % 2 + x * y % 3) % 2 = 0
  | 7 => ((x + y) % 2 + x * y % 3) % 2 = 0
  | _ => false

namespace Drawing
variable {n : ℕ}

/-- The row of the module that is `vert` steps into a pass along column `right`. -/
def rowAt (n right vert : ℕ) : ℕ := if (right + 1) &&& 2 = 0 then n - 1 - vert else vert

def drawCodewords (d : Drawing n) (data : List ℕ) : Drawing n :=
  let s := (columns n (n - 1)).foldl (fun s right => (List.range n).foldl (fun s vert =>
    (List.range 2).foldl (fun s j =>
      let x := right - j
      let y := rowAt n right vert
      if d.isFunction.get x y = false ∧ s.2 < data.length * 8 then
        (s.1.set x y (getBit (data.getD (s.2 >>> 3) 0) (7 - (s.2 &&& 7))), s.2 + 1)
      else s) s) s) (d.modules, 0)
  { d with modules := s.1 }

def applyMask (d : Drawing n) (msk : ℕ) : Drawing n :=
  { d with
    modules := (List.range n).foldl (fun g y => (List.range n).foldl (fun g x =>
      if d.isFunction.get x y = false ∧ invert msk x y = true then g.set x y (!g.get x y) else g) g)
      d.modules }

end Drawing

/-! The path -/

def zigzag (n : ℕ) : List (ℕ × ℕ) :=
  (columns n (n - 1)).flatMap fun right => (List.range n).flatMap fun vert =>
    (List.range 2).map fun j => (right - j, Drawing.rowAt n right vert)

theorem skipTiming_le {right : ℕ} (h : 1 ≤ right) : 1 ≤ skipTiming right ∧ skipTiming right ≤ right := by
  unfold skipTiming
  split_ifs <;> omega

theorem columns_le {fuel right : ℕ} : ∀ c ∈ columns fuel right, 1 ≤ c ∧ c ≤ right := by
  induction fuel generalizing right with
  | zero => simp [columns]
  | succ fuel ih =>
    intro c hc
    rw [columns] at hc
    split_ifs at hc with h0
    · cases hc
    · have hskip := skipTiming_le (Nat.le_of_not_lt h0)
      rcases List.mem_cons.mp hc with rfl | hc
      · exact hskip
      · have := ih c hc
        omega

theorem columns_apart {fuel right : ℕ} : (columns fuel right).Pairwise fun a b => b + 2 ≤ a := by
  induction fuel generalizing right with
  | zero => exact List.Pairwise.nil
  | succ fuel ih =>
    rw [columns]
    split_ifs with h0
    · exact List.Pairwise.nil
    · apply List.pairwise_cons.mpr
      refine ⟨?_, ih⟩
      intro c hc
      have := columns_le c hc
      omega

/-- Two columns at a time: all but the column of the timing pattern. -/
theorem mem_columns {fuel right : ℕ} (hf : right < fuel) (hr : right % 2 = 0) (h6 : 6 ≤ right) (x : ℕ) :
    (∃ c ∈ columns fuel right, x = c ∨ x + 1 = c) ↔ x ≤ right ∧ x ≠ 6 := by
  induction fuel generalizing right with
  | zero => omega
  | succ fuel ih =>
    rw [columns, if_neg (by omega)]
    by_cases he : right = 6
    · subst he
      obtain ⟨f, rfl⟩ : ∃ f, fuel = f + 3 := ⟨fuel - 3, by omega⟩
      have htail : columns (f + 3) 3 = [3, 1] := by simp [columns, skipTiming]
      have hskip : skipTiming 6 = 5 := rfl
      simp only [hskip, htail, List.mem_cons, List.not_mem_nil, or_false, exists_eq_or_imp,
        exists_eq_left]
      omega
    · have hskip : skipTiming right = right := if_neg he
      simp only [hskip, List.mem_cons, exists_eq_or_imp]
      rw [ih (by omega) (by omega) (by omega)]
      omega

theorem rowAt_lt {n right vert : ℕ} (h : vert < n) : Drawing.rowAt n right vert < n := by
  unfold Drawing.rowAt
  split_ifs <;> omega

theorem rowAt_rowAt {n vert : ℕ} (right : ℕ) (h : vert < n) :
    Drawing.rowAt n right (Drawing.rowAt n right vert) = vert := by
  unfold Drawing.rowAt
  split_ifs <;> omega

theorem mem_pass {n right x y : ℕ} (hright : 1 ≤ right) : (x, y) ∈ ((List.range n).flatMap fun vert =>
    (List.range 2).map fun j => (right - j, Drawing.rowAt n right vert)) ↔
      (x = right ∨ x + 1 = right) ∧ y < n := by
  simp only [List.mem_flatMap, List.mem_map, List.mem_range, Prod.mk.injEq]
  constructor
  · rintro ⟨vert, hv, j, hj, rfl, rfl⟩
    exact ⟨by omega, rowAt_lt hv⟩
  · rintro ⟨hx, hy⟩
    exact ⟨Drawing.rowAt n right y, rowAt_lt hy, right - x, by omega, by omega, rowAt_rowAt right hy⟩

theorem mem_zigzag {n x y : ℕ} (hodd : n % 2 = 1) (hn : 7 ≤ n) :
    (x, y) ∈ zigzag n ↔ x < n ∧ y < n ∧ x ≠ 6 := by
  have hcols : (∃ c ∈ columns n (n - 1), x = c ∨ x + 1 = c) ↔ x ≤ n - 1 ∧ x ≠ 6 :=
    mem_columns (by omega) (by omega) (by omega) x
  rw [zigzag, List.mem_flatMap]
  constructor
  · rintro ⟨c, hc, h⟩
    obtain ⟨hx, hy⟩ := (mem_pass (columns_le c hc).1).mp h
    have := hcols.mp ⟨c, hc, hx⟩
    exact ⟨by omega, hy, this.2⟩
  · rintro ⟨hx, hy, h6⟩
    obtain ⟨c, hc, hx⟩ := hcols.mpr ⟨by omega, h6⟩
    exact ⟨c, hc, (mem_pass (columns_le c hc).1).mpr ⟨hx, hy⟩⟩

theorem nodup_zigzag (n : ℕ) : (zigzag n).Nodup := by
  rw [zigzag, List.nodup_flatMap]
  constructor
  · intro right hright
    have hpos := (columns_le right hright).1
    rw [List.nodup_flatMap]
    constructor
    · intro vert _
      rw [List.nodup_map_iff_inj_on List.nodup_range]
      intro i hi j hj hij
      have hij := congrArg Prod.fst hij
      simp only [List.mem_range] at hi hj hij
      omega
    · apply List.nodup_range.imp_of_mem
      intro v w hv hw hvw p hp hq
      obtain ⟨i, _, rfl⟩ := List.mem_map.mp hp
      obtain ⟨j, _, hj⟩ := List.mem_map.mp hq
      rw [List.mem_range] at hv hw
      apply hvw
      rw [← rowAt_rowAt right hv, ← rowAt_rowAt right hw]
      exact congrArg (Drawing.rowAt n right) (congrArg Prod.snd hj).symm
  · apply columns_apart.imp_of_mem
    rintro a b ha hb hab ⟨x, y⟩ hp hq
    have hx := ((mem_pass (columns_le a ha).1).mp hp).1
    have hx' := ((mem_pass (columns_le b hb).1).mp hq).1
    omega

/-- The modules for the codewords, in the order they are drawn. -/
def path (ver : ℕ) : List (ℕ × ℕ) := (zigzag (size ver)).filter fun p => !reserved ver p.1 p.2

theorem mem_path {ver : ℕ} (h : Supported ver) {x y : ℕ} :
    (x, y) ∈ path ver ↔ x < size ver ∧ y < size ver ∧ reserved ver x y = false := by
  have hodd : size ver % 2 = 1 := by
    unfold size
    omega
  have hn := size_ge h
  rw [path, List.mem_filter, mem_zigzag hodd (by omega)]
  constructor
  · rintro ⟨⟨hx, hy, _⟩, hr⟩
    exact ⟨hx, hy, by simpa using hr⟩
  · rintro ⟨hx, hy, hr⟩
    refine ⟨⟨hx, hy, ?_⟩, by simpa using hr⟩
    rintro rfl
    simp [reserved, Zone.reserved, zone] at hr

theorem nodup_path (ver : ℕ) : (path ver).Nodup := (nodup_zigzag _).filter _

theorem nodup_allModules (n : ℕ) : (allModules n).Nodup :=
  List.nodup_range.product List.nodup_range

/-- The path goes through as many modules as the formula counts. -/
theorem length_path {ver : ℕ} (h : Supported ver) : (path ver).length = getNumRawDataModules ver := by
  rw [getNumRawDataModules_eq h]
  apply List.Perm.length_eq
  apply (List.perm_ext_iff_of_nodup (nodup_path ver) ((nodup_allModules _).filter _)).mpr
  rintro ⟨x, y⟩
  rw [mem_path h, List.mem_filter]
  simp [allModules, and_assoc]

/-! Codewords along the path -/

/-- The bits of the codewords. -/
def codewordBits (data : List ℕ) : List Bool :=
  (List.range (data.length * 8)).map fun i => getBit (data.getD (i >>> 3) 0) (7 - (i &&& 7))

theorem getBit_eq (x i : ℕ) : getBit x i = x.testBit i := by
  rw [getBit, Nat.testBit_eq_decide_div_mod_eq, Nat.and_one_is_mod, Nat.shiftRight_eq_div_pow]
  rcases Nat.mod_two_eq_zero_or_one (x / 2 ^ i) with h | h <;> simp [h]

theorem codewordBits_eq (data : List ℕ) : codewordBits data = data.flatMap (toBits · 8) := by
  induction data with
  | nil => rfl
  | cons b data ih =>
    have hrest : ∀ i, getBit ((b :: data).getD ((8 + i) >>> 3) 0) (7 - ((8 + i) &&& 7)) =
        getBit (data.getD (i >>> 3) 0) (7 - (i &&& 7)) := by
      intro i
      have hs : (8 + i) >>> 3 = i >>> 3 + 1 := by
        rw [Nat.shiftRight_eq_div_pow, Nat.shiftRight_eq_div_pow]
        omega
      have ha : (8 + i) &&& 7 = i &&& 7 := by
        rw [Nat.and_two_pow_sub_one_eq_mod _ 3, Nat.and_two_pow_sub_one_eq_mod _ 3]
        omega
      rw [hs, ha, List.getD_cons_succ]
    have hlen : (b :: data).length * 8 = 8 + data.length * 8 := by
      rw [List.length_cons]
      omega
    rw [codewordBits, hlen, List.range_add, List.map_append, List.map_map, List.flatMap_cons, ← ih]
    congr 1
    · simp only [List.range_succ_eq_map, List.range_zero, getBit_eq, toBits]
      simp
    · exact List.map_congr_left fun i _ => hrest i

theorem length_codewordBits (data : List ℕ) : (codewordBits data).length = data.length * 8 := by
  simp [codewordBits]

/-- A counter over the modules that are no function modules counts the bits drawn. -/
theorem foldl_drawBits {n : ℕ} (free : ℕ × ℕ → Bool) (bit : ℕ → Bool) (len : ℕ) (ps : List (ℕ × ℕ))
    (g : Grid n) (i : ℕ) :
    (ps.foldl (fun s p => if free p = true ∧ s.2 < len then (s.1.set p.1 p.2 (bit s.2), s.2 + 1) else s)
      (g, i)).1 = g.paint ((ps.filter free).zip ((List.range' i (len - i)).map bit)) := by
  induction ps generalizing g i with
  | nil => rfl
  | cons p ps ih =>
    rw [List.foldl_cons, List.filter_cons]
    by_cases hf : free p = true
    · by_cases hi : i < len
      · have hr : len - i = len - (i + 1) + 1 := by omega
        rw [if_pos ⟨hf, hi⟩, if_pos hf, ih, hr, List.range'_succ]
        rfl
      · have hr : len - i = 0 := by omega
        rw [if_neg fun h => hi h.2, ih, hr]
        simp
    · rw [if_neg fun h => hf h.1, if_neg hf, ih]

theorem foldl_zigzag {β : Type*} {n : ℕ} (f : β → ℕ × ℕ → β) (s : β) :
    (columns n (n - 1)).foldl (fun s right => (List.range n).foldl (fun s vert =>
      (List.range 2).foldl (fun s j => f s (right - j, Drawing.rowAt n right vert)) s) s) s =
      (zigzag n).foldl f s := by
  simp only [zigzag, List.foldl_flatMap, List.foldl_map]

namespace Drawing
variable {n : ℕ}

theorem drawCodewords_isFunction (d : Drawing n) (data : List ℕ) :
    (d.drawCodewords data).isFunction = d.isFunction := rfl

theorem drawCodewords_modules (d : Drawing n) (data : List ℕ) : (d.drawCodewords data).modules =
    d.modules.paint (((zigzag n).filter fun p => !d.isFunction.get p.1 p.2).zip (codewordBits data)) := by
  have hbits := foldl_drawBits (fun p => !d.isFunction.get p.1 p.2)
    (fun i => getBit (data.getD (i >>> 3) 0) (7 - (i &&& 7))) (data.length * 8) (zigzag n) d.modules 0
  rw [Nat.sub_zero, ← List.range_eq_range'] at hbits
  rw [codewordBits, ← hbits, ← foldl_zigzag]
  simp only [Bool.not_eq_true']
  rfl

theorem get_applyMask (d : Drawing n) (msk : ℕ) {x y : ℕ} (hx : x < n) (hy : y < n) :
    (d.applyMask msk).modules.get x y =
      (d.modules.get x y ^^ (!d.isFunction.get x y && invert msk x y)) := by
  have hfold : (d.applyMask msk).modules = d.modules.toggle
      (fun p => !d.isFunction.get p.1 p.2 && invert msk p.1 p.2) ((allModules n).map Prod.swap) := by
    rw [applyMask, toggle, allModules, List.map_flatMap, List.foldl_flatMap]
    simp only [List.map_map, List.foldl_map, Bool.and_eq_true, Bool.not_eq_true', Function.comp_apply,
      Prod.swap]
  have hmem : (x, y) ∈ (allModules n).map Prod.swap := by
    simp [allModules, hx, hy]
  rw [hfold, get_toggle _ _ ((nodup_allModules n).map Prod.swap_injective) hx hy,
    decide_eq_true hmem, Bool.true_and]

end Drawing

end Lattix.Client.Qr
