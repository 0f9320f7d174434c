import Lattix.Client.Qr.Placement
import Lattix.Lib.Utf8

/-! A QR symbol: its data, the mask with the least penalty, and the text in it. -/

namespace Lattix.Client.Qr
open Lattix.Lib Lattix.Lib.Grid Lattix.Lib.Bits

/-! The penalty -/

/-- What a scan along a row or column has seen. -/
structure Scan where
  result : ℕ
  runColor : Bool
  run : ℕ
  runHistory : List ℕ

def finderPenaltyCountPatterns (rh : List ℕ) : ℕ :=
  let n := rh.getD 1 0
  let core := n > 0 ∧ rh.getD 2 0 = n ∧ rh.getD 3 0 = n * 3 ∧ rh.getD 4 0 = n ∧ rh.getD 5 0 = n
  (if core ∧ rh.getD 0 0 ≥ n * 4 ∧ rh.getD 6 0 ≥ n then 1 else 0) +
    if core ∧ rh.getD 6 0 ≥ n * 4 ∧ rh.getD 0 0 ≥ n then 1 else 0

def finderPenaltyAddHistory (size currentRunLength : ℕ) (rh : List ℕ) : List ℕ :=
  (if rh.getD 0 0 = 0 then currentRunLength + size else currentRunLength) :: rh.dropLast

def finderPenaltyTerminateAndCount (size : ℕ) (currentRunColor : Bool) (currentRunLength : ℕ)
    (rh : List ℕ) : ℕ :=
  let s := if currentRunColor then (0, finderPenaltyAddHistory size currentRunLength rh)
    else (currentRunLength, rh)
  finderPenaltyCountPatterns (finderPenaltyAddHistory size (s.1 + size) s.2)

def Scan.next (size : ℕ) (s : Scan) (color : Bool) : Scan :=
  if color = s.runColor then
    let run := s.run + 1
    { s with
      run := run
      result := s.result + if run = 5 then 3 else if run > 5 then 1 else 0 }
  else
    let rh := finderPenaltyAddHistory size s.run s.runHistory
    { result := s.result + if s.runColor then 0 else finderPenaltyCountPatterns rh * 40
      runColor := color
      run := 1
      runHistory := rh }

/-- What a row or column adds. -/
def linePenalty (size : ℕ) (line : List Bool) : ℕ :=
  let s := line.foldl (Scan.next size) ⟨0, false, 0, List.replicate 7 0⟩
  s.result + finderPenaltyTerminateAndCount size s.runColor s.run s.runHistory * 40

def getPenaltyScore {n : ℕ} (modules : Grid n) : ℤ :=
  let rows := ((List.range n).map fun y => linePenalty n ((List.range n).map fun x => modules.get x y)).sum
  let columns := ((List.range n).map fun x => linePenalty n ((List.range n).map fun y => modules.get x y)).sum
  let blocks := ((List.range (n - 1)).map fun y => ((List.range (n - 1)).map fun x =>
    let c := modules.get x y
    if c = modules.get (x + 1) y ∧ c = modules.get x (y + 1) ∧ c = modules.get (x + 1) (y + 1) then 3
    else 0).sum).sum
  let dark := (allModules n).countP fun p => modules.get p.1 p.2
  let total : ℤ := n * n
  -- the quotient rounded up
  let k := (|(dark : ℤ) * 20 - total * 10| + total - 1) / total - 1
  (rows + columns + blocks : ℕ) + k * 10

/-! The symbol -/

structure QrCode where
  version : ℕ
  errorCorrectionLevel : Ecc
  modules : Grid (size version)
  mask : ℕ

def QrCode.getModule (q : QrCode) (x y : ℕ) : Bool := q.modules.get x y

/-- `if (penalty < minPenalty)`, where there is no `minPenalty` at first. -/
def takeLess (best : Option (ℕ × ℤ)) (i : ℕ) (penalty : ℤ) : Option (ℕ × ℤ) :=
  match best with
  | none => some (i, penalty)
  | some (msk, minPenalty) => if penalty < minPenalty then some (i, penalty) else some (msk, minPenalty)

/-- One mask tried and taken off again. -/
def tryMask {n : ℕ} (ecl : Ecc) (s : Drawing n × Option (ℕ × ℤ)) (i : ℕ) : Drawing n × Option (ℕ × ℤ) :=
  let d := (s.1.applyMask i).drawFormatBits ecl i
  (d.applyMask i, takeLess s.2 i (getPenaltyScore d.modules))

/-- The constructor, `msk` being `none` for `-1`. -/
def QrCode.new (version : ℕ) (ecl : Ecc) (dataCodewords : List ℕ) (msk : Option ℕ) : QrCode :=
  let d := (Drawing.blank (size version)).drawFunctionPatterns version ecl
  let d := d.drawCodewords (addEccAndInterleave version ecl dataCodewords)
  let s := match msk with
    | some msk => (d, msk)
    | none =>
      let s := (List.range 8).foldl (tryMask ecl) (d, none)
      (s.1, (s.2.map Prod.fst).getD 0)
  { version := version
    errorCorrectionLevel := ecl
    modules := ((s.1.applyMask s.2).drawFormatBits ecl s.2).modules
    mask := s.2 }

/-! Text -/

/-- How many bits the count of bytes has. -/
def ccbits (version : ℕ) : ℕ := if version < 10 then 8 else 16

/-- The first version from `version` on that has room. -/
def chooseVersion (ecl : Ecc) (length : ℕ) : ℕ → ℕ → Except String ℕ
  | 0, _ => .error "Data too long for QR code"
  | fuel + 1, version =>
    let dataCapacityBits := getNumDataCodewords version ecl * 8
    let usedBits := 4 + ccbits version + length * 8
    if usedBits ≤ dataCapacityBits then .ok version
    else if version ≥ MAX_VERSION then .error "Data too long for QR code"
    else chooseVersion ecl length fuel (version + 1)

def append (bb : List Bool) (val len : ℕ) : List Bool :=
  bb ++ (List.range len).reverse.map fun i => getBit val i

/-- Padding up to the capacity. -/
def padBits (dataCapacityBits : ℕ) : ℕ → List Bool → ℕ → List Bool
  | 0, bb, _ => bb
  | fuel + 1, bb, pad =>
    if bb.length < dataCapacityBits then
      padBits dataCapacityBits fuel (append bb pad 8) (pad ^^^ (0xec ^^^ 0x11))
    else bb

def segmentBits (version : ℕ) (ecl : Ecc) (bytes : List ℕ) : List Bool :=
  let bb := append [] 0x4 4
  let bb := append bb bytes.length (ccbits version)
  let bb := bytes.foldl (fun bb b => append bb b 8) bb
  let dataCapacityBits := getNumDataCodewords version ecl * 8
  let bb := append bb 0 (min 4 (dataCapacityBits - bb.length))
  let bb := append bb 0 ((8 - bb.length % 8) % 8)
  padBits dataCapacityBits dataCapacityBits bb 0xec

/-- Every bit or-ed into its byte. -/
def packBits (bb : List Bool) : List ℕ :=
  (List.range bb.length).foldl (fun dataCodewords i =>
    dataCodewords.modify (i >>> 3) (· ||| ((bb.getD i false).toNat <<< (7 - (i &&& 7)))))
    (List.replicate (bb.length / 8) 0)

def utf8 (text : String) : List ℕ := (Utf8.encode text.toList).map UInt8.toNat

def encodeText (text : String) (ecl : Ecc) : Except String QrCode := do
  let bytes := utf8 text
  let version ← chooseVersion ecl bytes.length MAX_VERSION MIN_VERSION
  return QrCode.new version ecl (packBits (segmentBits version ecl bytes)) none

/-! The version -/

def Fits (version : ℕ) (ecl : Ecc) (length : ℕ) : Prop :=
  4 + ccbits version + length * 8 ≤ getNumDataCodewords version ecl * 8

instance (version : ℕ) (ecl : Ecc) (length : ℕ) : Decidable (Fits version ecl length) :=
  inferInstanceAs (Decidable (_ ≤ _))

section version
variable {ecl : Ecc} {length fuel start version : ℕ}

/-- The first version with room, if it is there. -/
theorem chooseVersion_ok (h : chooseVersion ecl length fuel start = .ok version)
    (hs : start ≤ MAX_VERSION) : start ≤ version ∧ version ≤ MAX_VERSION ∧ Fits version ecl length ∧
      ∀ v, start ≤ v → v < version → ¬ Fits v ecl length := by
  induction fuel generalizing start with
  | zero => cases h
  | succ fuel ih =>
    simp only [chooseVersion] at h
    split_ifs at h with hfit hmax
    · cases h
      exact ⟨Nat.le_refl _, hs, hfit, fun v h h' => absurd h' (Nat.not_lt.mpr h)⟩
    · obtain ⟨hle, hmax', hfits, hnone⟩ := ih h (by omega)
      refine ⟨by omega, hmax', hfits, ?_⟩
      intro v hv hlt
      rcases Nat.eq_or_lt_of_le hv with rfl | hv
      · exact hfit
      · exact hnone v hv hlt

theorem chooseVersion_error {e : String} (h : chooseVersion ecl length fuel start = .error e)
    (hf : MAX_VERSION < start + fuel) :
    ∀ v, start ≤ v → v ≤ MAX_VERSION → ¬ Fits v ecl length := by
  induction fuel generalizing start with
  | zero =>
    intro v hv hmax
    omega
  | succ fuel ih =>
    intro v hv hmax
    simp only [chooseVersion] at h
    split_ifs at h with hfit hlast
    · obtain rfl : v = start := by omega
      exact hfit
    · rcases Nat.eq_or_lt_of_le hv with rfl | hv
      · exact hfit
      · exact ih h (by omega) v hv hmax

theorem chooseVersion_message {e : String} (h : chooseVersion ecl length fuel start = .error e) :
    e = "Data too long for QR code" := by
  induction fuel generalizing start with
  | zero => exact (Except.error.inj h).symm
  | succ fuel ih =>
    simp only [chooseVersion] at h
    split_ifs at h with hfit hlast
    · exact (Except.error.inj h).symm
    · exact ih h

/-- What fits in a version fits in the last. -/
theorem Fits.last (hs : Supported version) (h : Fits version ecl length) : Fits MAX_VERSION ecl length := by
  have hall : (List.range' MIN_VERSION MAX_VERSION).all (fun v => Ecc.all.all fun e =>
      decide (ccbits MAX_VERSION + getNumDataCodewords v e * 8 ≤
        ccbits v + getNumDataCodewords MAX_VERSION e * 8)) = true := by decide +kernel
  have hv := List.all_eq_true.mp hall version (supported_mem hs)
  have he := of_decide_eq_true (List.all_eq_true.mp hv ecl (Ecc.mem_all ecl))
  unfold Fits at h ⊢
  omega

theorem fits_last : Fits MAX_VERSION ecl length ↔
    length + 3 ≤ getNumDataCodewords MAX_VERSION ecl := by
  have hc : ccbits MAX_VERSION = 16 := rfl
  unfold Fits
  rw [hc]
  omega

/-- A text with room in the last version gets a symbol. -/
theorem encodeText_ok {text : String} (h : (utf8 text).length + 3 ≤ getNumDataCodewords MAX_VERSION ecl) :
    ∃ q, encodeText text ecl = .ok q := by
  cases hv : chooseVersion ecl (utf8 text).length MAX_VERSION MIN_VERSION with
  | error e => exact absurd (fits_last.mpr h) (chooseVersion_error hv (by decide) _ (by decide) (Nat.le_refl _))
  | ok ver => exact ⟨_, by rw [encodeText, hv]; rfl⟩

end version

/-! The bits -/

theorem append_eq (bb : List Bool) (val len : ℕ) : append bb val len = bb ++ toBits val len := by
  have hbits : ∀ len, (List.range len).reverse.map (fun i => getBit val i) = toBits val len := by
    intro len
    induction len with
    | zero => rfl
    | succ len ih =>
      rw [List.range_succ, List.reverse_append, List.map_append, ih, toBits]
      simp [getBit_eq]
  rw [append, hbits]

theorem foldl_append (bs : List ℕ) (bb : List Bool) :
    bs.foldl (fun bb b => bb ++ toBits b 8) bb = bb ++ bs.flatMap (toBits · 8) := by
  induction bs generalizing bb with
  | nil => simp
  | cons b bs ih => rw [List.foldl_cons, ih, List.flatMap_cons, List.append_assoc]

/-- Padding fills the capacity behind what is there. -/
theorem padBits_spec {cap fuel : ℕ} {bb : List Bool} (pad : ℕ) (hle : bb.length ≤ cap)
    (hdvd : 8 ∣ cap - bb.length) (hf : cap ≤ bb.length + fuel) :
    ∃ rest, padBits cap fuel bb pad = bb ++ rest ∧ (bb ++ rest).length = cap := by
  induction fuel generalizing bb pad with
  | zero => exact ⟨[], by simp [padBits], by simp; omega⟩
  | succ fuel ih =>
    rw [padBits]
    split_ifs with hlt
    · have hlen : (append bb pad 8).length = bb.length + 8 := by simp [append_eq]
      obtain ⟨rest, he, hl⟩ := @ih (append bb pad 8) (pad ^^^ (0xec ^^^ 0x11)) (by omega) (by omega)
        (by omega)
      refine ⟨toBits pad 8 ++ rest, ?_, ?_⟩
      · rw [he, append_eq, List.append_assoc]
      · rw [append_eq] at hl
        rwa [← List.append_assoc]
    · exact ⟨[], by simp, by simp; omega⟩

/-- Mode, count and bytes, and something up to the capacity. -/
theorem segmentBits_eq {version : ℕ} {ecl : Ecc} {bytes : List ℕ} (h : Fits version ecl bytes.length) :
    ∃ rest, segmentBits version ecl bytes =
        toBits 4 4 ++ (toBits bytes.length (ccbits version) ++ (bytes.flatMap (toBits · 8) ++ rest)) ∧
      (segmentBits version ecl bytes).length = getNumDataCodewords version ecl * 8 := by
  unfold Fits at h
  simp only [segmentBits, append_eq, foldl_append, List.nil_append]
  generalize hbb : toBits 4 4 ++ toBits bytes.length (ccbits version) ++
    bytes.flatMap (toBits · 8) = bb
  have hlen : bb.length = 4 + ccbits version + bytes.length * 8 := by
    rw [← hbb]
    simp only [List.length_append, length_toBits, length_flatMap_toBits]
    omega
  generalize ht : toBits 0 (min 4 (getNumDataCodewords version ecl * 8 - bb.length)) = t
  have htlen : t.length = min 4 (getNumDataCodewords version ecl * 8 - bb.length) := by
    rw [← ht, length_toBits]
  generalize ha : toBits 0 ((8 - (bb ++ t).length % 8) % 8) = a
  have halen : a.length = (8 - (bb ++ t).length % 8) % 8 := by rw [← ha, length_toBits]
  have htotal : (bb ++ t ++ a).length = bb.length + t.length + a.length := by
    simp only [List.length_append]
  rw [List.length_append] at halen
  obtain ⟨rest, he, hl⟩ := @padBits_spec (getNumDataCodewords version ecl * 8)
    (getNumDataCodewords version ecl * 8) (bb ++ t ++ a) 0xec (by omega) (by omega)
    (by omega)
  refine ⟨t ++ a ++ rest, ?_, by rw [he, hl]⟩
  rw [he, ← hbb]
  simp only [List.append_assoc]

/-- One bit more in its byte. -/
def orBit (bb : List Bool) (dataCodewords : List ℕ) (i : ℕ) : List ℕ :=
  dataCodewords.modify (i >>> 3) (· ||| ((bb.getD i false).toNat <<< (7 - (i &&& 7))))

theorem orBit_shift {g : List Bool} (hg : g.length = 8) (rest : List Bool) (a : ℕ) (l : List ℕ) (i : ℕ) :
    orBit (g ++ rest) (a :: l) (8 + i) = a :: orBit rest l i := by
  have hs : (8 + i) >>> 3 = i >>> 3 + 1 := by
    rw [Nat.shiftRight_eq_div_pow, Nat.shiftRight_eq_div_pow]
    omega
  have ha : (8 + i) &&& 7 = i &&& 7 := by
    rw [Nat.and_two_pow_sub_one_eq_mod _ 3, Nat.and_two_pow_sub_one_eq_mod _ 3]
    omega
  have hget : (g ++ rest).getD (8 + i) false = rest.getD i false := by
    rw [List.getD_eq_getElem?_getD, List.getElem?_append_right (by omega), hg, Nat.add_sub_cancel_left,
      List.getD_eq_getElem?_getD]
  rw [orBit, hs, ha, hget, List.modify_succ_cons, orBit]

theorem foldl_orBit_shift {g : List Bool} (hg : g.length = 8) (rest : List Bool) (a : ℕ) (is l : List ℕ) :
    (is.map (8 + ·)).foldl (orBit (g ++ rest)) (a :: l) = a :: is.foldl (orBit rest) l := by
  induction is generalizing l with
  | nil => rfl
  | cons i is ih => rw [List.map_cons, List.foldl_cons, List.foldl_cons, orBit_shift hg, ih]

theorem foldl_orBit_byte {g : List Bool} (hg : g.length = 8) (rest : List Bool) (l : List ℕ) :
    (List.range 8).foldl (orBit (g ++ rest)) (0 :: l) = ofBits g :: l := by
  match g, hg with
  | [b₇, b₆, b₅, b₄, b₃, b₂, b₁, b₀], _ =>
    have hall : ∀ b₇ b₆ b₅ b₄ b₃ b₂ b₁ b₀ : Bool,
        (((((((0 ||| b₇.toNat <<< 7) ||| b₆.toNat <<< 6) ||| b₅.toNat <<< 5) ||| b₄.toNat <<< 4) |||
          b₃.toNat <<< 3) ||| b₂.toNat <<< 2) ||| b₁.toNat <<< 1) ||| b₀.toNat <<< 0 =
            ofBits [b₇, b₆, b₅, b₄, b₃, b₂, b₁, b₀] := by decide +kernel
    exact congrArg (· :: l) (hall b₇ b₆ b₅ b₄ b₃ b₂ b₁ b₀)

/-- The loop over the bits fills the bytes one after the other. -/
theorem packBits_eq {bb : List Bool} (h : 8 ∣ bb.length) : packBits bb = Bits.bytes bb := by
  obtain ⟨k, hk⟩ := h
  induction k generalizing bb with
  | zero =>
    rw [List.length_eq_zero_iff.mp hk]
    rfl
  | succ k ih =>
    have hg : (bb.take 8).length = 8 := by
      rw [List.length_take]
      omega
    have hrest : (bb.drop 8).length = 8 * k := by
      rw [List.length_drop]
      omega
    have hcut := List.take_append_drop 8 bb
    have hd : (8 * (k + 1)) / 8 = k + 1 := by omega
    have hd' : (8 * k) / 8 = k := by omega
    have hr : 8 * (k + 1) = 8 + 8 * k := by omega
    have hi := ih hrest
    rw [packBits, hrest, hd'] at hi
    rw [packBits, hk, hd, hr, List.range_add, List.foldl_append, List.replicate_succ, ← hcut,
      bytes_append hg, ← hi]
    exact (congrArg (fun l => (List.map (8 + ·) (List.range (8 * k))).foldl
      (orBit (bb.take 8 ++ bb.drop 8)) l) (foldl_orBit_byte hg (bb.drop 8) (List.replicate k 0))).trans
        (foldl_orBit_shift hg (bb.drop 8) _ _ _)

end Lattix.Client.Qr
