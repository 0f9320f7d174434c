import Lattix.Lib.Runs
import Lattix.Client.Qr.Masking

/-! What a reader makes of a symbol, some of whose modules may be wrong. -/

namespace Lattix.Client.Qr
open Lattix.Lib Lattix.Lib.Grid Lattix.Lib.Bits Lattix.Lib.Galois Lattix.Lib.ReedSolomon

/-! The reader -/

def readVersion (n : ℕ) : Option ℕ := if n % 4 = 1 ∧ 21 ≤ n ∧ n ≤ 177 then some ((n - 17) / 4) else none

def formats : List (Ecc × ℕ) := Ecc.all.flatMap fun ecl => (List.range 8).map (ecl, ·)

/-- The first copy of the format. -/
def formatRead (dark : ℕ → ℕ → Bool) : List Bool := formatCells.map fun p => dark p.1 p.2

/-- The level and mask whose bits are few modules away. -/
def readFormat (bs : List Bool) : Option (Ecc × ℕ) :=
  formats.find? fun f => mismatches (bitsFrom (formatBits f.1 f.2) 15) bs ≤ 3

/-- The codewords along the path, without the mask. -/
def codewordsRead (ver msk : ℕ) (dark : ℕ → ℕ → Bool) : List ℕ :=
  Bits.bytes ((path ver).map fun p => dark p.1 p.2 ^^ invert msk p.1 p.2)

def blockRead (ver : ℕ) (ecl : Ecc) (msk : ℕ) (dark : ℕ → ℕ → Bool) (j : ℕ) : List ℕ :=
  deal ver ecl (codewordsRead ver msk dark) j

/-- A word of bytes that a reader may take a received block for. -/
def Decodes (ver : ℕ) (ecl : Ecc) (j : ℕ) (received u : List ℕ) : Prop :=
  Bytes u ∧ Corrects (gf 2) (blockEccLen ver ecl) (dataLen ver ecl j + blockEccLen ver ecl)
    (blockEccLen ver ecl / 2) (received.map gf) (u.map gf)

open Classical in
/-- The data of the corrected block. -/
noncomputable def correctedData (ver : ℕ) (ecl : Ecc) (j : ℕ) (received : List ℕ) : Option (List ℕ) :=
  if h : ∃ u, Decodes ver ecl j received u then some (h.choose.take (dataLen ver ecl j)) else none

/-- One segment of bytes. -/
def readSegment (ver : ℕ) (data : List ℕ) : Option (List ℕ) :=
  let bits := data.flatMap (toBits · 8)
  let rest := bits.drop 4
  let length := ofBits (rest.take (ccbits ver))
  let body := Bits.bytes (rest.drop (ccbits ver))
  if ofBits (bits.take 4) = 4 ∧ length ≤ body.length then some (body.take length) else none

noncomputable def readSymbol (n : ℕ) (dark : ℕ → ℕ → Bool) : Option (List ℕ) := do
  let ver ← readVersion n
  let f ← readFormat (formatRead dark)
  let blocks ← (List.range (numBlocks ver f.1)).mapM fun j =>
    correctedData ver f.1 j (blockRead ver f.1 f.2 dark j)
  readSegment ver blocks.flatten

/-! Version and format -/

theorem readVersion_size {ver : ℕ} (h : Supported ver) : readVersion (size ver) = some ver := by
  have h1 := h.1
  have h2 := h.2
  unfold MIN_VERSION at h1
  unfold MAX_VERSION at h2
  rw [readVersion, size, if_pos (by omega)]
  congr 1
  omega

theorem mem_formats (ecl : Ecc) {msk : ℕ} (h : msk < 8) : (ecl, msk) ∈ formats :=
  List.mem_flatMap.mpr ⟨ecl, Ecc.mem_all ecl, List.mem_map.mpr ⟨msk, List.mem_range.mpr h, rfl⟩⟩

/-- Two formats differ in at least seven modules. -/
theorem formats_apart : ∀ f ∈ formats, ∀ g ∈ formats, f = g ∨
    7 ≤ mismatches (bitsFrom (formatBits f.1 f.2) 15) (bitsFrom (formatBits g.1 g.2) 15) := by
  have hall : formats.all (fun f => formats.all fun g => decide (f = g ∨
      7 ≤ mismatches (bitsFrom (formatBits f.1 f.2) 15) (bitsFrom (formatBits g.1 g.2) 15))) = true := by
    decide +kernel
  intro f hf g hg
  exact of_decide_eq_true (List.all_eq_true.mp (List.all_eq_true.mp hall f hf) g hg)

theorem readFormat_near {ecl : Ecc} {msk : ℕ} (hm : msk < 8) {bs : List Bool} (hl : bs.length = 15)
    (h : mismatches (bitsFrom (formatBits ecl msk) 15) bs ≤ 3) : readFormat bs = some (ecl, msk) := by
  have hmem := mem_formats ecl hm
  cases hf : readFormat bs with
  | none =>
    have := List.find?_eq_none.mp hf _ hmem
    exact absurd (decide_eq_true h) this
  | some g =>
    have hg := List.mem_of_find?_eq_some hf
    have hnear : mismatches (bitsFrom (formatBits g.1 g.2) 15) bs ≤ 3 := by
      simpa using List.find?_some hf
    have htri := mismatches_triangle (u := bitsFrom (formatBits ecl msk) 15) (v := bs)
      (w := bitsFrom (formatBits g.1 g.2) 15) (by rw [length_bitsFrom, hl]) (by rw [length_bitsFrom, hl])
    rw [mismatches_comm bs] at htri
    rcases formats_apart _ hmem g hg with he | hapart
    · rw [he]
    · have hapart : 7 ≤ mismatches (bitsFrom (formatBits ecl msk) 15)
        (bitsFrom (formatBits g.1 g.2) 15) := hapart
      omega

/-! Blocks -/

section blocks
variable {ver : ℕ} {ecl : Ecc} {j : ℕ}

theorem mismatches_map_le (f : ℕ → Gf) (u v : List ℕ) : mismatches (u.map f) (v.map f) ≤ mismatches u v := by
  fun_induction mismatches u v with
  | case1 a u b v ih =>
    simp only [List.map_cons, mismatches]
    have : (if f a = f b then 0 else 1) ≤ if a = b then 0 else 1 := by
      by_cases h : a = b
      · simp [h]
      · rw [if_neg h]
        split_ifs <;> omega
    omega
  | case2 u v h =>
    cases u with
    | nil => simp [mismatches]
    | cons a u =>
      cases v with
      | nil => simp [mismatches]
      | cons b v => exact (h a u b v rfl rfl).elim

theorem dataLen_lt (hs : Supported ver) (ecl : Ecc) (j : ℕ) : dataLen ver ecl j + blockEccLen ver ecl ≤ 255 := by
  have ht := tables hs ecl
  have := ht.short
  have := ht.long
  unfold dataLen
  split_ifs <;> omega

/-- A reader has no choice. -/
theorem Decodes.unique (hs : Supported ver) {received u v : List ℕ}
    (hr : received.length = dataLen ver ecl j + blockEccLen ver ecl)
    (hu : Decodes ver ecl j received u) (hv : Decodes ver ecl j received v) : u = v := by
  apply map_gf_injective hu.1 hv.1
  apply hu.2.unique _ _ (by rw [List.length_map, hr]) hv.2
  · apply powers_injective.mono
    intro k hk
    have := dataLen_lt hs ecl j
    rw [Set.mem_Iio] at hk ⊢
    omega
  · omega

theorem correctedData_eq (hs : Supported ver) {data : List ℕ} (h : Fills ver ecl data) (hb : Bytes data)
    (hj : j < numBlocks ver ecl) {received : List ℕ}
    (hr : received.length = dataLen ver ecl j + blockEccLen ver ecl)
    (hm : mismatches received (codeBlock ver ecl data j) ≤ blockEccLen ver ecl / 2) :
    correctedData ver ecl j received = some (blockData ver ecl data j) := by
  have hdec : Decodes ver ecl j received (codeBlock ver ecl data j) := by
    refine ⟨codeBlock_bytes hb j, codeBlock_codeword hs h hb hj, ?_⟩
    rw [mismatches_comm]
    exact (mismatches_map_le gf _ _).trans hm
  have hex : ∃ u, Decodes ver ecl j received u := ⟨_, hdec⟩
  rw [correctedData, dif_pos hex, hex.choose_spec.unique hs hr hdec, codeBlock,
    ← h.length_blockData hj, List.take_left]

end blocks

/-! What was drawn -/

section drawn
variable {ver : ℕ} {ecl : Ecc} {msk : ℕ} {data : List ℕ}

theorem nodup_formatModules {n : ℕ} (hn : 21 ≤ n) : (formatModules n).Nodup := by
  have hfirst : formatCells.Nodup := by decide
  have hsecond : (formatCells' n).Nodup := by
    rw [formatCells', List.nodup_append]
    refine ⟨?_, ?_, ?_⟩
    · rw [List.nodup_map_iff_inj_on List.nodup_range]
      intro i hi j hj h
      rw [List.mem_range] at hi hj
      have := congrArg Prod.fst h
      simp only at this
      omega
    · rw [List.nodup_map_iff_inj_on (List.nodup_range' ..)]
      intro i hi j hj h
      have := congrArg Prod.snd h
      simp only at this
      omega
    · intro p hp q hq h
      obtain ⟨i, hi, rfl⟩ := List.mem_map.mp hp
      obtain ⟨j, hj, rfl⟩ := List.mem_map.mp hq
      rw [List.mem_range] at hi
      have := congrArg Prod.fst h
      simp only at this
      omega
  rw [formatModules, List.nodup_append, List.nodup_append]
  refine ⟨hfirst, ⟨hsecond, List.nodup_singleton _, ?_⟩, ?_⟩
  · rintro ⟨x, y⟩ hp q hq rfl
    rw [mem_formatCells' hn] at hp
    rw [List.mem_singleton, Prod.mk.injEq] at hq
    omega
  · rintro ⟨x, y⟩ hp q hq rfl
    rw [mem_formatCells] at hp
    rw [List.mem_append, mem_formatCells' hn, List.mem_singleton, Prod.mk.injEq] at hq
    omega

theorem formatModules_lt {n : ℕ} (hn : 21 ≤ n) : ∀ p ∈ formatModules n, p.1 < n ∧ p.2 < n := by
  rintro ⟨x, y⟩ hp
  rw [formatModules, List.mem_append, List.mem_append, mem_formatCells, mem_formatCells' hn,
    List.mem_singleton, Prod.mk.injEq] at hp
  omega

/-- Both copies of the format are drawn. -/
theorem read_formatStrokes {n : ℕ} (hn : 21 ≤ n) (g : Grid n) (bits : ℕ) :
    (g.paint (formatStrokes n bits)).read (formatModules n) =
      bitsFrom bits 15 ++ (bitsFrom bits 15 ++ [true]) := by
  have hl : (bitsFrom bits 15 ++ (bitsFrom bits 15 ++ [true])).length = (formatModules n).length := by
    simp [length_bitsFrom, formatModules, formatCells, formatCells']
  have hread := read_paint_zip g (nodup_formatModules hn) (formatModules_lt hn) hl.le
  rwa [hl, List.take_length] at hread

theorem read_format (h : Supported ver) (ecl : Ecc) (d : Drawing (size ver)) (msk : ℕ) :
    (masked ecl d msk).modules.read (formatModules (size ver)) =
      bitsFrom (formatBits ecl msk) 15 ++ (bitsFrom (formatBits ecl msk) 15 ++ [true]) := by
  rw [masked, Drawing.drawFormatBits_eq]
  exact read_formatStrokes (size_ge h) _ _

theorem formatRead_new (h : Supported ver) :
    formatRead (QrCode.new ver ecl data (some msk)).getModule = bitsFrom (formatBits ecl msk) 15 := by
  have hread := read_format h ecl (unmasked ver ecl data) msk
  rw [formatModules, Grid.read, List.map_append] at hread
  exact (List.append_inj hread (by simp [formatCells, length_bitsFrom])).1

theorem mem_path_not_format (h : Supported ver) {x y : ℕ} (hp : (x, y) ∈ path ver) :
    (x, y) ∉ formatModules (size ver) := by
  obtain ⟨hx, hy, hr⟩ := (mem_path h).mp hp
  intro hf
  rw [reserved_format h hx hy hf] at hr
  cases hr

/-- Taking the mask off the path shows the codewords. -/
theorem unmask_path (h : Supported ver) :
    ((path ver).map fun p => (QrCode.new ver ecl data (some msk)).getModule p.1 p.2 ^^
      invert msk p.1 p.2) = (unmasked ver ecl data).modules.read (path ver) := by
  apply List.map_congr_left
  rintro ⟨x, y⟩ hp
  obtain ⟨hx, hy, hr⟩ := (mem_path h).mp hp
  have hget : (QrCode.new ver ecl data (some msk)).getModule x y =
      ((unmasked ver ecl data).modules.get x y ^^ (!reserved ver x y && invert msk x y)) := by
    rw [← patterned_unmasked h ecl data x y hx hy, ← Drawing.get_applyMask _ _ hx hy,
      ← get_masked ecl _ _ (mem_path_not_format h hp)]
    rfl
  rw [hget, hr]
  cases (unmasked ver ecl data).modules.get x y <;> cases invert msk x y <;> rfl

theorem path_lt (h : Supported ver) : ∀ p ∈ path ver, p.1 < size ver ∧ p.2 < size ver := by
  rintro ⟨x, y⟩ hp
  obtain ⟨hx, hy, _⟩ := (mem_path h).mp hp
  exact ⟨hx, hy⟩

/-- The codewords go along the path. -/
theorem unmasked_modules (h : Supported ver) : (unmasked ver ecl data).modules =
    ((Drawing.blank (size ver)).drawFunctionPatterns ver ecl).modules.paint
      ((path ver).zip (codewordBits (addEccAndInterleave ver ecl data))) := by
  rw [unmasked, Drawing.drawCodewords_modules, path]
  congr 2
  apply List.filter_congr
  rintro ⟨x, y⟩ hp
  have hn := size_ge h
  obtain ⟨hx, hy, _⟩ := (mem_zigzag (by unfold size; omega) (by omega)).mp hp
  rw [isFunction_patterns h ecl hx hy]

theorem length_codewordBits_path (h : Supported ver) (hf : Fills ver ecl data) (hb : Bytes data) :
    (codewordBits (addEccAndInterleave ver ecl data)).length + getNumRawDataModules ver % 8 =
      (path ver).length := by
  rw [length_codewordBits, addEccAndInterleave_eq h hf hb, List.length_map, length_order h, rawCodewords,
    length_path h]
  omega

/-- Along the path the bits of the codewords come first. -/
theorem read_path (h : Supported ver) (hf : Fills ver ecl data) (hb : Bytes data) :
    (unmasked ver ecl data).modules.read (path ver) =
      codewordBits (addEccAndInterleave ver ecl data) ++
        (unmasked ver ecl data).modules.read
          ((path ver).drop (codewordBits (addEccAndInterleave ver ecl data)).length) := by
  have hlen := length_codewordBits_path h hf hb
  have hread := read_paint_zip ((Drawing.blank (size ver)).drawFunctionPatterns ver ecl).modules
    (nodup_path ver) (path_lt h) (Nat.le.intro hlen)
  rw [← unmasked_modules h] at hread
  conv_lhs => rw [← List.take_append_drop (codewordBits (addEccAndInterleave ver ecl data)).length
    (path ver), Grid.read, List.map_append]
  exact congrArg (· ++ _) hread

theorem codewordsRead_new (h : Supported ver) (hf : Fills ver ecl data) (hb : Bytes data) :
    codewordsRead ver msk (QrCode.new ver ecl data (some msk)).getModule =
      addEccAndInterleave ver ecl data := by
  have hlen := length_codewordBits_path h hf hb
  rw [codewordsRead, unmask_path h, read_path h hf hb, codewordBits_eq,
    bytes_flatMap_toBits (addEccAndInterleave_bytes h hf hb), bytes_short, List.append_nil]
  rw [← codewordBits_eq, Grid.read, List.length_map, List.length_drop]
  omega

theorem length_codewordsRead (h : Supported ver) (dark : ℕ → ℕ → Bool) :
    (codewordsRead ver msk dark).length = (order ver ecl).length := by
  rw [codewordsRead, length_bytes, List.length_map, length_path h, length_order h, rawCodewords]

theorem blockRead_new (msk : ℕ) (h : Supported ver) (hf : Fills ver ecl data) (hb : Bytes data) {j : ℕ}
    (hj : j < numBlocks ver ecl) :
    blockRead ver ecl msk (QrCode.new ver ecl data (some msk)).getModule j = codeBlock ver ecl data j := by
  rw [blockRead, codewordsRead_new h hf hb, deal_addEccAndInterleave h hf hb hj]

theorem length_blockRead (h : Supported ver) (hf : Fills ver ecl data) (hb : Bytes data) {j : ℕ}
    (hj : j < numBlocks ver ecl) (dark : ℕ → ℕ → Bool) :
    (blockRead ver ecl msk dark j).length = dataLen ver ecl j + blockEccLen ver ecl := by
  have hsame : (blockRead ver ecl msk dark j).length =
      (blockRead ver ecl msk (QrCode.new ver ecl data (some msk)).getModule j).length := by
    rw [blockRead, blockRead, length_deal (length_codewordsRead h dark),
      length_deal (length_codewordsRead h _)]
  rw [hsame, blockRead_new msk h hf hb hj, codeBlock, List.length_append, hf.length_blockData hj,
    length_blockEcc h hb]

end drawn

/-! The segment -/

theorem length_lt_ccbits {ver : ℕ} {ecl : Ecc} {length : ℕ} (h : Supported ver)
    (hf : Fits ver ecl length) : length < 2 ^ ccbits ver := by
  have hall : (List.range' MIN_VERSION MAX_VERSION).all (fun v => Ecc.all.all fun e =>
      decide (getNumDataCodewords v e < 2 ^ ccbits v)) = true := by decide +kernel
  have hv := List.all_eq_true.mp hall ver (supported_mem h)
  have he := of_decide_eq_true (List.all_eq_true.mp hv ecl (Ecc.mem_all ecl))
  unfold Fits at hf
  omega

theorem readSegment_packBits {ver : ℕ} {ecl : Ecc} {bytes : List ℕ} (h : Supported ver)
    (hf : Fits ver ecl bytes.length) (hb : Bytes bytes) :
    readSegment ver (packBits (segmentBits ver ecl bytes)) = some bytes := by
  obtain ⟨rest, he, hl⟩ := segmentBits_eq hf
  have hdvd : 8 ∣ (segmentBits ver ecl bytes).length := ⟨_, by rw [hl, Nat.mul_comm]⟩
  have hmode : (toBits 4 4).length = 4 := length_toBits 4 4
  have hcount : (toBits bytes.length (ccbits ver)).length = ccbits ver := length_toBits _ _
  have hdrop : ∀ l : List Bool, (toBits 4 4 ++ l).drop 4 = l := fun l => List.drop_left' hmode
  have htake : ∀ l : List Bool, (toBits 4 4 ++ l).take 4 = toBits 4 4 := fun l => List.take_left' hmode
  simp only [readSegment]
  rw [packBits_eq hdvd, flatMap_toBits_bytes hdvd, he, hdrop, htake]
  rw [List.take_left' hcount, List.drop_left' hcount, ofBits_toBits (length_lt_ccbits h hf),
    bytes_flatMap_toBits hb, if_pos, List.take_left]
  exact ⟨ofBits_toBits (by decide), by simp⟩

/-! The whole -/

theorem utf8_bytes (text : String) : Bytes (utf8 text) := by
  intro b hb
  obtain ⟨c, _, rfl⟩ := List.mem_map.mp hb
  exact c.toNat_lt

/-- What `encodeText` has decided when it returns. -/
theorem encodeText_cases {text : String} {ecl : Ecc} {q : QrCode} (h : encodeText text ecl = .ok q) :
    ∃ ver msk, Supported ver ∧ Fits ver ecl (utf8 text).length ∧
      (∀ v, MIN_VERSION ≤ v → v < ver → ¬ Fits v ecl (utf8 text).length) ∧ msk < 8 ∧
      q = QrCode.new ver ecl (packBits (segmentBits ver ecl (utf8 text))) (some msk) := by
  cases hv : chooseVersion ecl (utf8 text).length MAX_VERSION MIN_VERSION with
  | error e =>
    rw [encodeText, hv] at h
    cases h
  | ok ver =>
    obtain ⟨hmin, hmax, hfits, hfirst⟩ := chooseVersion_ok hv (by decide)
    have hq : q = QrCode.new ver ecl (packBits (segmentBits ver ecl (utf8 text))) none := by
      rw [encodeText, hv] at h
      exact (Except.ok.inj h).symm
    obtain ⟨msk, hmsk, hnew, _⟩ := new_none ⟨hmin, hmax⟩ ecl
      (packBits (segmentBits ver ecl (utf8 text)))
    exact ⟨ver, msk, ⟨hmin, hmax⟩, hfits, hfirst, hmsk, hq.trans hnew⟩

theorem fills_packBits {ver : ℕ} {ecl : Ecc} {bytes : List ℕ} (h : Supported ver)
    (hf : Fits ver ecl bytes.length) : Fills ver ecl (packBits (segmentBits ver ecl bytes)) ∧
      Bytes (packBits (segmentBits ver ecl bytes)) := by
  obtain ⟨rest, he, hl⟩ := segmentBits_eq hf
  rw [packBits_eq ⟨_, by rw [hl, Nat.mul_comm]⟩]
  refine ⟨?_, bytes_lt _⟩
  rw [Fills, length_bytes, hl, offset_numBlocks h, Nat.mul_div_cancel _ (by decide)]

/-- What is read of a symbol that holds a segment of bytes. -/
theorem readSymbol_new {ver : ℕ} {ecl : Ecc} {msk : ℕ} {bytes : List ℕ} {dark : ℕ → ℕ → Bool}
    (hs : Supported ver) (hfits : Fits ver ecl bytes.length) (hbytes : Bytes bytes) (hmsk : msk < 8)
    {q : QrCode} (hq : q = QrCode.new ver ecl (packBits (segmentBits ver ecl bytes)) (some msk))
    (hformat : mismatches (formatRead q.getModule) (formatRead dark) ≤ 3)
    (hblocks : ∀ j < numBlocks ver ecl,
      mismatches (blockRead ver ecl msk dark j) (blockRead ver ecl msk q.getModule j) ≤
        blockEccLen ver ecl / 2) :
    readSymbol (size ver) dark = some bytes := by
  obtain ⟨hfills, hdbytes⟩ := fills_packBits hs hfits
  have hseg := readSegment_packBits hs hfits hbytes
  rw [hq] at hformat hblocks
  generalize packBits (segmentBits ver ecl bytes) = data at *
  rw [formatRead_new hs] at hformat
  have hf : readFormat (formatRead dark) = some (ecl, msk) :=
    readFormat_near hmsk (by simp [formatRead, formatCells]) hformat
  have hblock : ∀ j ∈ List.range (numBlocks ver ecl),
      correctedData ver ecl j (blockRead ver ecl msk dark j) = some (blockData ver ecl data j) := by
    intro j hj
    have hj := List.mem_range.mp hj
    apply correctedData_eq hs hfills hdbytes hj (length_blockRead hs hfills hdbytes hj dark)
    rw [← blockRead_new msk hs hfills hdbytes hj]
    exact hblocks j hj
  rw [← flatMap_blockData hfills, List.flatMap_def] at hseg
  have hread : readSymbol (size ver) dark =
      ((List.range (numBlocks ver ecl)).mapM fun j => correctedData ver ecl j
        (blockRead ver ecl msk dark j)).bind fun blocks => readSegment ver blocks.flatten := by
    simp only [readSymbol, readVersion_size hs, hf]
    rfl
  exact hread.trans (by rw [Lib.Runs.mapM_of_some hblock]; exact hseg)

/-- A reader gets the text from a symbol as long as at most three modules of the format and at most
half as many codewords of each block as it has for error correction are wrong. -/
theorem readSymbol_encodeText {text : String} {ecl : Ecc} {q : QrCode} {dark : ℕ → ℕ → Bool}
    (h : encodeText text ecl = .ok q)
    (hformat : mismatches (formatRead q.getModule) (formatRead dark) ≤ 3)
    (hblocks : ∀ j < numBlocks q.version ecl,
      mismatches (blockRead q.version ecl q.mask dark j) (blockRead q.version ecl q.mask q.getModule j) ≤
        blockEccLen q.version ecl / 2) :
    readSymbol (size q.version) dark = some (utf8 text) := by
  obtain ⟨ver, msk, hs, hfits, -, hmsk, hq⟩ := encodeText_cases h
  have hversion : q.version = ver := by rw [hq]; rfl
  have hmask : q.mask = msk := by rw [hq]; rfl
  rw [hversion, hmask] at hblocks
  rw [hversion]
  exact readSymbol_new hs hfits (utf8_bytes text) hmsk hq hformat hblocks

theorem readSymbol_greeting : ∃ q, encodeText "grüezi" .high = .ok q ∧
    readSymbol (size q.version) q.getModule = some (utf8 "grüezi") := by
  have hroom : (utf8 "grüezi").length + 3 ≤ getNumDataCodewords MAX_VERSION .high := by decide +kernel
  obtain ⟨q, hq⟩ := encodeText_ok hroom
  refine ⟨q, hq, readSymbol_encodeText hq ?_ fun j _ => ?_⟩
  · rw [mismatches_self]
    exact Nat.zero_le _
  · rw [mismatches_self]
    exact Nat.zero_le _

end Lattix.Client.Qr
