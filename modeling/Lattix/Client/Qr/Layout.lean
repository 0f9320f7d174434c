import Lattix.Client.Qr.Reading

/-! What every symbol is made of. -/

namespace Lattix.Client.Qr
open Lattix.Lib Lattix.Lib.Grid Lattix.Lib.ReedSolomon

section layout
variable {ver : ℕ} {ecl : Ecc} {data data' : List ℕ}

/-! Where the codewords go -/

theorem patterns_light (h : Supported ver) (ecl : Ecc) {x y : ℕ} (hx : x < size ver) (hy : y < size ver)
    (hr : reserved ver x y = false) :
    ((Drawing.blank (size ver)).drawFunctionPatterns ver ecl).modules.get x y = false := by
  rw [Drawing.drawFunctionPatterns_eq]
  have hno : (x, y) ∉ cells (functionStrokes (size ver) ver ecl) := by
    rw [mem_functionStrokes h ecl hx hy, hr]
    exact Bool.false_ne_true
  exact (get_paint_of_not_mem _ hno).trans (get_blank x y)

/-- The formula counts the modules that the patterns leave. The path goes through each of them
once, and less than a codeword of them stays light behind the codewords. -/
theorem codewords_placed (h : Supported ver) (hf : Fills ver ecl data) (hb : Bytes data) :
    (path ver).Nodup ∧ (path ver).length = getNumRawDataModules ver ∧
      (∀ x y, (x, y) ∈ path ver ↔ x < size ver ∧ y < size ver ∧
        ((Drawing.blank (size ver)).drawFunctionPatterns ver ecl).isFunction.get x y = false) ∧
      (unmasked ver ecl data).modules.read (path ver) =
        codewordBits (addEccAndInterleave ver ecl data) ++
          List.replicate (getNumRawDataModules ver % 8) false := by
  refine ⟨nodup_path ver, length_path h, ?_, ?_⟩
  · intro x y
    rw [mem_path h]
    refine and_congr_right fun hx => and_congr_right fun hy => ?_
    rw [isFunction_patterns h ecl hx hy]
  · have hlen := length_codewordBits_path h hf hb
    rw [read_path h hf hb]
    congr 1
    have hrest : ((path ver).drop (codewordBits (addEccAndInterleave ver ecl data)).length).length =
        getNumRawDataModules ver % 8 := by
      rw [List.length_drop]
      omega
    rw [← hrest, ← List.map_const']
    apply List.map_congr_left
    rintro ⟨x, y⟩ hp
    obtain ⟨hx, hy, hr⟩ := (mem_path h).mp (List.mem_of_mem_drop hp)
    rw [unmasked_modules h, get_paint_of_not_mem, patterns_light h ecl hx hy hr]
    -- The path passes here after the bits have run out.
    intro hm
    rw [List.zip_eq_zip_take_min, List.map_fst_zip (by simp)] at hm
    exact List.disjoint_take_drop (nodup_path ver) (Nat.min_le_right _ _) hm hp

/-- Nineteen codewords of data fill the first version at its lowest level. -/
theorem fills_first (b : ℕ) : Fills 1 .low (List.replicate 19 b) := by
  rw [Fills, List.length_replicate]
  decide

theorem bytes_replicate {b : ℕ} (hb : b < 256) (n : ℕ) : Bytes (List.replicate n b) :=
  fun c hc => (List.eq_of_mem_replicate hc).symm ▸ hb

theorem codewords_placed_first : (path 1).length = getNumRawDataModules 1 ∧
    (unmasked 1 .low (List.replicate 19 7)).modules.read (path 1) =
      codewordBits (addEccAndInterleave 1 .low (List.replicate 19 7)) ++
        List.replicate (getNumRawDataModules 1 % 8) false :=
  have h := codewords_placed ⟨by decide, by decide⟩ (fills_first 7) (bytes_replicate (by decide) 19)
  ⟨h.2.1, h.2.2.2⟩

/-! Error correction -/

/-- Dealt out again, blocks whose data differ do so in more codewords than there are for error
correction. -/
theorem blocks_apart (h : Supported ver) (hf : Fills ver ecl data) (hb : Bytes data)
    (hf' : Fills ver ecl data') (hb' : Bytes data') {j : ℕ} (hj : j < numBlocks ver ecl)
    (hne : blockData ver ecl data j ≠ blockData ver ecl data' j) :
    blockEccLen ver ecl < mismatches (deal ver ecl (addEccAndInterleave ver ecl data) j)
      (deal ver ecl (addEccAndInterleave ver ecl data') j) := by
  rw [deal_addEccAndInterleave h hf hb hj, deal_addEccAndInterleave h hf' hb' hj]
  by_contra hle
  apply hne
  have hmap := (mismatches_map_le gf (codeBlock ver ecl data j) (codeBlock ver ecl data' j)).trans
    (Nat.not_lt.mp hle)
  have hpowers : Set.InjOn (gf 2 ^ ·) (Set.Iio (dataLen ver ecl j + blockEccLen ver ecl)) :=
    powers_injective.mono fun k hk => lt_of_lt_of_le hk (dataLen_lt h ecl j)
  have hsame := (codeBlock_codeword h hf hb hj).eq_of_mismatches_le hpowers
    (codeBlock_codeword h hf' hb' hj) hmap
  have hcode := map_gf_injective (codeBlock_bytes hb j) (codeBlock_bytes hb' j) hsame
  have hlen : (blockData ver ecl data j).length = (blockData ver ecl data' j).length := by
    rw [hf.length_blockData hj, hf'.length_blockData hj]
  exact (List.append_inj hcode hlen).1

theorem blocks_apart_first : 7 < mismatches
    (deal 1 .low (addEccAndInterleave 1 .low (List.replicate 19 7)) 0)
    (deal 1 .low (addEccAndInterleave 1 .low (List.replicate 19 8)) 0) :=
  blocks_apart ⟨by decide, by decide⟩ (fills_first 7) (bytes_replicate (by decide) 19) (fills_first 8)
    (bytes_replicate (by decide) 19) (by decide) (by decide)

/-! What stays as it is -/

theorem new_cases (h : Supported ver) (ecl : Ecc) (data : List ℕ) (msk : Option ℕ) :
    ∃ m, QrCode.new ver ecl data msk = QrCode.new ver ecl data (some m) := by
  cases msk with
  | some m => exact ⟨m, rfl⟩
  | none =>
    obtain ⟨m, -, hm, -⟩ := new_none h ecl data
    exact ⟨m, hm⟩

/-- Neither the data nor the mask changes a module of the patterns. Both copies of the format
say the level and the mask that was used. -/
theorem patterns_kept (h : Supported ver) (ecl : Ecc) (data : List ℕ) (msk : Option ℕ) :
    (∀ x < size ver, ∀ y < size ver,
      ((Drawing.blank (size ver)).drawFunctionPatterns ver ecl).isFunction.get x y = true →
      (x, y) ∉ formatModules (size ver) → (QrCode.new ver ecl data msk).getModule x y =
        ((Drawing.blank (size ver)).drawFunctionPatterns ver ecl).modules.get x y) ∧
    (formatModules (size ver)).map (fun p => (QrCode.new ver ecl data msk).getModule p.1 p.2) =
      bitsFrom (formatBits ecl (QrCode.new ver ecl data msk).mask) 15 ++
        (bitsFrom (formatBits ecl (QrCode.new ver ecl data msk).mask) 15 ++ [true]) := by
  obtain ⟨m, hm⟩ := new_cases h ecl data msk
  rw [hm]
  refine ⟨?_, read_format h ecl (unmasked ver ecl data) m⟩
  intro x hx y hy hfun hformat
  have hr : reserved ver x y = true := by rwa [isFunction_patterns h ecl hx hy] at hfun
  have hpath : (x, y) ∉ ((path ver).zip (codewordBits (addEccAndInterleave ver ecl data))).map Prod.fst := by
    intro hp
    obtain ⟨⟨_, v⟩, hpv, rfl⟩ := List.mem_map.mp hp
    have hin := (mem_path h).mp (List.of_mem_zip hpv).1
    rw [hr] at hin
    exact Bool.noConfusion hin.2.2
  have hget : (QrCode.new ver ecl data (some m)).getModule x y =
      ((unmasked ver ecl data).applyMask m).modules.get x y := get_masked ecl _ m hformat
  rw [hget, Drawing.get_applyMask _ _ hx hy, patterned_unmasked h ecl data x y hx hy, hr,
    unmasked_modules h, get_paint_of_not_mem _ hpath]
  exact Bool.xor_false _

theorem patterns_kept_first :
    (formatModules (size 1)).map (fun p => (QrCode.new 1 .low [] none).getModule p.1 p.2) =
      bitsFrom (formatBits .low (QrCode.new 1 .low [] none).mask) 15 ++
        (bitsFrom (formatBits .low (QrCode.new 1 .low [] none).mask) 15 ++ [true]) :=
  (patterns_kept ⟨by decide, by decide⟩ .low [] none).2

end layout

/-! Text -/

section text
variable {text : String} {ecl : Ecc} {q : QrCode}

/-- A text is turned down just when the largest version has no room for it. Any other text gets
the smallest version that has. -/
theorem encodeText_version (text : String) (ecl : Ecc) :
    if (utf8 text).length + 3 ≤ getNumDataCodewords MAX_VERSION ecl then
      ∃ q, encodeText text ecl = .ok q ∧ Supported q.version ∧ Fits q.version ecl (utf8 text).length ∧
        ∀ v, MIN_VERSION ≤ v → v < q.version → ¬Fits v ecl (utf8 text).length
    else encodeText text ecl = .error "Data too long for QR code" := by
  cases hv : chooseVersion ecl (utf8 text).length MAX_VERSION MIN_VERSION with
  | error e =>
    have hnone := chooseVersion_error hv (by decide) MAX_VERSION (by decide) (Nat.le_refl _)
    rw [fits_last] at hnone
    rw [if_neg hnone, encodeText, hv, chooseVersion_message hv]
    rfl
  | ok ver =>
    obtain ⟨hmin, hmax, hfits, hfirst⟩ := chooseVersion_ok hv (by decide)
    have hlast := fits_last.mp (hfits.last ⟨hmin, hmax⟩)
    rw [if_pos hlast, encodeText, hv]
    exact ⟨_, rfl, ⟨hmin, hmax⟩, hfits, hfirst⟩

/-- The mask is the first of those with the least penalty, each tried on this very symbol. -/
theorem encodeText_mask (h : encodeText text ecl = .ok q) : q.mask < 8 ∧
    ∀ i < 8, let tried := QrCode.new q.version ecl (packBits (segmentBits q.version ecl (utf8 text))) (some i)
      (i = q.mask → q = tried) ∧ getPenaltyScore q.modules ≤ getPenaltyScore tried.modules ∧
        (i < q.mask → getPenaltyScore q.modules < getPenaltyScore tried.modules) := by
  cases hv : chooseVersion ecl (utf8 text).length MAX_VERSION MIN_VERSION with
  | error e =>
    rw [encodeText, hv] at h
    cases h
  | ok ver =>
    obtain ⟨hmin, hmax, -, -⟩ := chooseVersion_ok hv (by decide)
    have hq : q = QrCode.new ver ecl (packBits (segmentBits ver ecl (utf8 text))) none := by
      rw [encodeText, hv] at h
      exact (Except.ok.inj h).symm
    obtain ⟨msk, hmsk, hnew, hle, hlt⟩ :=
      new_none ⟨hmin, hmax⟩ ecl (packBits (segmentBits ver ecl (utf8 text)))
    rw [hnew] at hq
    subst hq
    refine ⟨hmsk, fun i hi => ⟨?_, hle i hi, hlt i⟩⟩
    rintro rfl
    rfl

theorem encodeText_mask_greeting : ∃ q, encodeText "grüezi" .high = .ok q ∧ q.mask < 8 := by
  have hroom : (utf8 "grüezi").length + 3 ≤ getNumDataCodewords MAX_VERSION .high := by decide +kernel
  obtain ⟨q, hq⟩ := encodeText_ok hroom
  exact ⟨q, hq, (encodeText_mask hq).1⟩

end text

end Lattix.Client.Qr
