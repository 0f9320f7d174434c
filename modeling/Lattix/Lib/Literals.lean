import Mathlib.Data.List.Induction
import Mathlib.Data.Nat.Digits.Lemmas
import Lattix.Lib.Json

namespace Lattix.Lib.Json

/-- The text does not go on with a number's letters. -/
def Ends (t : Text) : Prop :=
  ∀ c rest, t = .scalar c :: rest → c.isDigit = false ∧ c ∉ ['.', 'e', 'E', '+', '-']

theorem Ends.nil : Ends [] := by
  intro c rest h
  cases h

theorem Ends.cons {c : Char} {t : Text} (hd : c.isDigit = false)
    (hc : c ∉ ['.', 'e', 'E', '+', '-']) : Ends (.scalar c :: t) := by
  intro d rest h
  cases h
  exact ⟨hd, hc⟩

@[simp] theorem text_nil : text [] = [] := rfl

@[simp] theorem text_cons (c : Char) (cs : List Char) : text (c :: cs) = .scalar c :: text cs := rfl

@[simp] theorem text_append (cs ds : List Char) : text (cs ++ ds) = text cs ++ text ds :=
  List.map_append

theorem text_injective {cs ds : List Char} (h : text cs = text ds) : cs = ds :=
  List.map_injective_iff.mpr (fun a b h => by cases h; rfl) h

@[simp] theorem encode_text (cs : List Char) : encode (text cs) = some cs := by
  induction cs with
  | nil => rfl
  | cons c cs ih => simp [encode, ih]

/-! Numbers -/

theorem digits_append {t r : Text} (hr : Ends r) :
    digits (t ++ r) = ((digits t).1, (digits t).2 ++ r) := by
  induction t with
  | nil =>
    cases r with
    | nil => rfl
    | cons c r =>
      cases c with
      | scalar c => simp [digits, (hr c r rfl).1]
      | high n => rfl
      | low n => rfl
  | cons c t ih =>
    cases c with
    | scalar c =>
      by_cases hc : c.isDigit = true
      · simp [digits, hc, ih]
      · simp [digits, hc]
    | high n => rfl
    | low n => rfl

theorem whole_append {t r rest : Text} {ds : List Char} (hr : Ends r)
    (h : whole t = some (ds, rest)) : whole (t ++ r) = some (ds, rest ++ r) := by
  cases t with
  | nil => cases h
  | cons c t =>
    cases c with
    | scalar c =>
      simp only [whole, List.cons_append] at h ⊢
      split
      · rename_i hc
        rw [if_pos hc] at h
        cases h
        rfl
      · rename_i hc
        rw [if_neg hc] at h
        split
        · rename_i hd
          rw [if_pos hd] at h
          cases h
          rw [digits_append hr]
        · rename_i hd
          rw [if_neg hd] at h
          cases h
    | high n => cases h
    | low n => cases h

theorem whole_head {t rest : Text} {ds : List Char} (h : whole t = some (ds, rest)) :
    ∃ c cs, ds = c :: cs ∧ c.isDigit = true := by
  unfold whole at h
  split at h
  · split at h
    · cases h
      exact ⟨'0', [], rfl, rfl⟩
    · split at h
      · rename_i hd
        cases h
        exact ⟨_, _, rfl, hd⟩
      · cases h
  · cases h

theorem Ends.not_mem {r t : Text} {c : Char} (hr : Ends r) (h : r = .scalar c :: t) :
    c ∉ ['.', 'e', 'E', '+', '-'] := (hr c t h).2

theorem fraction_append {t r : Text} (hr : Ends r) :
    fraction (t ++ r) = ((fraction t).1, (fraction t).2 ++ r) := by
  cases t with
  | nil =>
    unfold fraction
    split
    · rename_i rest h
      exact absurd (hr.not_mem h) (by simp)
    · rfl
  | cons c t =>
    by_cases hc : c = .scalar '.'
    · subst hc
      simp only [fraction, List.cons_append, digits_append hr]
      split <;> rfl
    · have hf : ∀ t : Text, fraction (c :: t) = ([], c :: t) := by
        intro t
        unfold fraction
        split
        · rename_i rest h
          cases h
          exact absurd rfl hc
        · rfl
      rw [List.cons_append, hf, hf]
      rfl

theorem sign_append {t r : Text} (hr : Ends r) : sign (t ++ r) = ((sign t).1, (sign t).2 ++ r) := by
  cases t with
  | nil =>
    cases r with
    | nil => rfl
    | cons c r =>
      cases c with
      | scalar c =>
        have hc := hr.not_mem rfl
        simp only [List.mem_cons, List.not_mem_nil, or_false, not_or] at hc
        simp [sign, hc]
      | high n => rfl
      | low n => rfl
  | cons c t =>
    cases c with
    | scalar c =>
      simp only [sign, List.cons_append]
      split <;> rfl
    | high n => rfl
    | low n => rfl

theorem exponent_append {t r : Text} (hr : Ends r) :
    exponent (t ++ r) = ((exponent t).1, (exponent t).2 ++ r) := by
  cases t with
  | nil =>
    cases r with
    | nil => rfl
    | cons c r =>
      cases c with
      | scalar c =>
        have hc := hr.not_mem rfl
        simp only [List.mem_cons, List.not_mem_nil, or_false, not_or] at hc
        simp [exponent, hc]
      | high n => rfl
      | low n => rfl
  | cons c t =>
    cases c with
    | scalar c =>
      simp only [exponent, List.cons_append, sign_append hr, digits_append hr]
      split <;> rfl
    | high n => rfl
    | low n => rfl

theorem minus_append {t r : Text} (ht : t ≠ []) : minus (t ++ r) = ((minus t).1, (minus t).2 ++ r) := by
  cases t with
  | nil => exact absurd rfl ht
  | cons c t =>
    by_cases hc : c = .scalar '-'
    · subst hc
      rfl
    · have hm : ∀ t : Text, minus (c :: t) = ([], c :: t) := by
        intro t
        unfold minus
        split
        · rename_i rest h
          cases h
          exact absurd rfl hc
        · rfl
      rw [List.cons_append, hm, hm]
      rfl

theorem literal_append {t r rest : Text} {l : Literal} (hr : Ends r)
    (h : literal t = some (l, rest)) : literal (t ++ r) = some (l, rest ++ r) := by
  have ht : t ≠ [] := by
    intro he
    subst he
    cases h
  obtain ⟨⟨ds, t'⟩, hw, hl⟩ := Option.map_eq_some_iff.mp h
  cases hl
  simp only [literal, minus_append ht, whole_append hr hw, Option.map_some, fraction_append hr,
    exponent_append hr]

/-- How a number begins. -/
theorem literal_head {t rest : Text} {l : Literal} (h : literal t = some (l, rest)) :
    ∃ c cs, l.whole = c :: cs ∧ c.isDigit = true ∧ (l.sign = [] ∨ l.sign = ['-']) := by
  obtain ⟨⟨ds, t'⟩, hw, hl⟩ := Option.map_eq_some_iff.mp h
  cases hl
  obtain ⟨c, cs, hc, hd⟩ := whole_head hw
  refine ⟨c, cs, hc, hd, ?_⟩
  unfold minus
  split
  · exact .inr rfl
  · exact .inl rfl

/-! Integers -/

theorem digit_spec : ∀ d < 10, (digit d).isDigit = true ∧ (digit d).toNat - '0'.toNat = d ∧
    (digit d = '0' → d = 0) := by decide

theorem digits_text {cs : List Char} (h : ∀ c ∈ cs, c.isDigit = true) {r : Text}
    (hr : digits r = ([], r)) : digits (text cs ++ r) = (cs, r) := by
  induction cs with
  | nil => exact hr
  | cons c cs ih =>
    simp only [text_cons, List.cons_append, digits, h c (by simp), if_true,
      ih fun d hd => h d (by simp [hd])]

theorem decimal_digits {n : Nat} : ∀ c ∈ decimal n, c.isDigit = true := by
  intro c hc
  unfold decimal at hc
  split at hc
  · rw [List.mem_singleton.mp hc]
    rfl
  · obtain ⟨d, hd, rfl⟩ := List.mem_map.mp hc
    exact (digit_spec d (Nat.digits_lt_base (by decide) (List.mem_reverse.mp hd))).1

theorem natOf_digits {ds : List Nat} (h : ∀ d ∈ ds, d < 10) :
    natOf (ds.reverse.map digit) = Nat.ofDigits 10 ds := by
  induction ds with
  | nil => rfl
  | cons d ds ih =>
    have hi := ih fun e he => h e (List.mem_cons_of_mem _ he)
    have hd := (digit_spec d (h d List.mem_cons_self)).2.1
    simp only [natOf, List.reverse_cons, List.map_append, List.map_cons, List.map_nil,
      List.foldl_append, List.foldl_cons, List.foldl_nil, hd, Nat.ofDigits_cons] at hi ⊢
    rw [hi]
    omega

theorem natOf_decimal (n : Nat) : natOf (decimal n) = n := by
  unfold decimal
  split
  · rename_i h
    rw [h]
    rfl
  · rw [natOf_digits fun d hd => Nat.digits_lt_base (by decide) hd, Nat.ofDigits_digits]

/-- Only zero is written with a leading zero. -/
theorem decimal_head {n : Nat} (h : n ≠ 0) {c : Char} {cs : List Char} (hc : decimal n = c :: cs) :
    c ≠ '0' := by
  have hne := Nat.digits_ne_nil_iff_ne_zero (b := 10).mpr h
  have hhead : (decimal n).head? = some (digit ((Nat.digits 10 n).getLast hne)) := by
    rw [decimal, if_neg h, List.head?_map, List.head?_reverse,
      List.getLast?_eq_getLast_of_ne_nil hne]
    rfl
  rw [hc, List.head?_cons, Option.some.injEq] at hhead
  intro he
  have hlt := Nat.digits_lt_base (b := 10) (by decide) (List.getLast_mem hne)
  exact Nat.getLast_digit_ne_zero 10 h ((digit_spec _ hlt).2.2 (hhead ▸ he))

theorem decimal_cons (n : Nat) : ∃ c cs, decimal n = c :: cs := by
  by_cases h : n = 0
  · exact ⟨'0', [], by simp [decimal, h]⟩
  · apply List.exists_cons_of_ne_nil
    simpa [decimal, h] using Nat.digits_ne_nil_iff_ne_zero.mpr h

theorem whole_decimal (n : Nat) {r : Text} (hr : digits r = ([], r)) :
    whole (text (decimal n) ++ r) = some (decimal n, r) := by
  have hd := decimal_digits (n := n)
  obtain ⟨c, cs, hc⟩ := decimal_cons n
  rw [hc] at hd
  by_cases hn : n = 0
  · subst hn
    rfl
  · rw [hc, text_cons, List.cons_append, whole, if_neg (decimal_head hn hc),
      if_pos (hd c List.mem_cons_self), digits_text (fun d hd' => hd d (List.mem_cons_of_mem _ hd')) hr]

theorem literal_intText (n : Int) : literal (text (intText n)) =
    some (⟨if n < 0 then ['-'] else [], decimal n.natAbs, []⟩, []) := by
  have hw := whole_decimal n.natAbs (r := []) rfl
  rw [List.append_nil] at hw
  by_cases h : n < 0
  · have hm : minus (text (intText n)) = (['-'], text (decimal n.natAbs)) := by
      simp [intText, h, minus]
    simp only [literal, hm, hw, Option.map_some, if_pos h]
    rfl
  · have hm : minus (text (intText n)) = ([], text (decimal n.natAbs)) := by
      obtain ⟨c, cs, hc⟩ := decimal_cons n.natAbs
      have hd := decimal_digits c (hc ▸ List.mem_cons_self)
      simp only [intText, if_neg h, List.nil_append, hc, text_cons]
      unfold minus
      split
      · rename_i rest he
        cases he
        exact absurd hd (by decide)
      · rfl
    simp only [literal, hm, hw, Option.map_some, if_neg h]
    rfl

/-! A pair of conversions to run examples with -/

/-- The fields of a double as one number. -/
def Double.code (x : Double) : Nat :=
  2 * (2 ^ 52 * x.exponent + x.fraction) + if x.negative then 1 else 0

def Double.decode (n : Nat) : Option Double :=
  if h : n / 2 / 2 ^ 52 < 2047 then
    some ⟨decide (n % 2 = 1), ⟨n / 2 / 2 ^ 52, h⟩, ⟨n / 2 % 2 ^ 52, Nat.mod_lt _ (by decide)⟩⟩
  else none

theorem Double.decode_code (x : Double) : decode x.code = some x := by
  obtain ⟨negative, ⟨e, he⟩, ⟨f, hf⟩⟩ := x
  have hbit : ∃ b, b < 2 ∧ (if negative then 1 else 0) = b ∧ decide (b = 1) = negative := by
    cases negative
    · exact ⟨0, by decide, rfl, rfl⟩
    · exact ⟨1, by decide, rfl, rfl⟩
  obtain ⟨b, hb, hbit, hneg⟩ := hbit
  have hc : code ⟨negative, ⟨e, he⟩, ⟨f, hf⟩⟩ = 2 * (2 ^ 52 * e + f) + b := by
    simp only [code, hbit]
  have hhalf : (2 * (2 ^ 52 * e + f) + b) / 2 = 2 ^ 52 * e + f := by omega
  have hodd : (2 * (2 ^ 52 * e + f) + b) % 2 = b := by omega
  have hexp : (2 ^ 52 * e + f) / 2 ^ 52 = e := by omega
  have hfrac : (2 ^ 52 * e + f) % 2 ^ 52 = f := by omega
  simp only [hc, decode, hhalf, hodd, hexp, hfrac, he, dite_true, hneg]

def Double.coded (x : Double) : List Char := decimal x.code ++ ['.', '0']

theorem literal_coded (x : Double) :
    literal (text x.coded) = some (⟨[], decimal x.code, ['.', '0']⟩, []) := by
  have hw := whole_decimal x.code (r := text ['.', '0']) rfl
  have hm : minus (text x.coded) = ([], text (decimal x.code) ++ text ['.', '0']) := by
    obtain ⟨c, cs, hc⟩ := decimal_cons x.code
    have hd := decimal_digits c (hc ▸ List.mem_cons_self)
    simp only [Double.coded, hc, text_append, text_cons, List.cons_append]
    unfold minus
    split
    · rename_i rest he
      cases he
      exact absurd hd (by decide)
    · rfl
  simp only [literal, hm, hw, Option.map_some]
  rfl

/-- Every double has one literal, and the others overflow. -/
def Doubles.coded : Doubles where
  parse cs := (Double.decode (natOf (cs.take (cs.length - 2)))).filter fun x => x.coded == cs
  repr := Double.coded
  parse_repr x := by
    have htake : x.coded.take (x.coded.length - 2) = decimal x.code := by
      simp [Double.coded]
    simp [htake, natOf_decimal, Double.decode_code]
  repr_literal x := ⟨_, literal_coded x, by simp, by simp [Literal.chars, Double.coded]⟩

variable {Φ : Doubles} {lenient : Bool}

theorem readNumber_text {n : Number} {r : Text} (hs : (Json.number n).built lenient = true)
    (hf : n.isFinite = true) (hr : Ends r) :
    readNumber Φ lenient (text (numberText Φ n) ++ r) = some (n, r) := by
  cases n with
  | int n =>
    have hs : lenient = false ∨ (decimal n.natAbs).length ≤ maxDigits := by
      simpa [Json.built, Number.small] using hs
    rw [readNumber, numberText, literal_append hr (literal_intText n)]
    simp only [if_true, if_pos hs, natOf_decimal, List.nil_append]
    by_cases h : n < 0
    · simp only [if_pos h, List.cons_ne_nil, if_false]
      congr 3
      omega
    · simp only [if_neg h, if_true]
      congr 3
      omega
  | finite x =>
    obtain ⟨l, hl, ht, hc⟩ := Φ.repr_literal x
    rw [readNumber, numberText, literal_append hr hl]
    simp only [if_neg ht, hc, Φ.parse_repr, List.nil_append]
  | infinity negative => cases hf
  | nan => cases hf

/-! Strings -/

theorem hexValue_hexDigit : ∀ d < 16, hexValue (.scalar (hexDigit d)) = some d := by decide

theorem scan_quote (t : Text) : scan (quote :: t) = some ([], t) := by
  rw [scan.eq_def]
  simp

theorem scan_unicode (a b c d : CodePoint) (t : Text) :
    scan (backslash :: .scalar 'u' :: a :: b :: c :: d :: t) =
      (hex4 a b c d).bind fun n => (scan t).map fun r => ((codeUnit n, true) :: r.1, r.2) := by
  rw [scan.eq_def]
  simp only [show backslash ≠ quote by decide, if_false, if_true]
  cases hex4 a b c d <;> rfl

theorem scan_escape {e : CodePoint} (he : e ≠ .scalar 'u') (t : Text) : scan (backslash :: e :: t) =
    (unshort e).bind fun c => (scan t).map fun r => ((.scalar c, false) :: r.1, r.2) := by
  rw [scan.eq_def]
  simp only [show backslash ≠ quote by decide, if_false, if_true, if_neg he]
  cases unshort e <;> rfl

theorem scan_other {c : CodePoint} (hq : c ≠ quote) (hb : c ≠ backslash) (hc : control c = false)
    (t : Text) : scan (c :: t) = (scan t).map fun r => ((c, false) :: r.1, r.2) := by
  rw [scan.eq_def]
  simp [hq, hb, hc]

theorem scan_uEscape {n : Nat} (h : n < 65536) (t : Text) : scan (text (uEscape n) ++ t) =
    (scan t).map fun r => ((codeUnit n, true) :: r.1, r.2) := by
  have hx : hex4 (.scalar (hexDigit (n / 4096))) (.scalar (hexDigit (n / 256 % 16)))
      (.scalar (hexDigit (n / 16 % 16))) (.scalar (hexDigit (n % 16))) = some n := by
    rw [hex4, hexValue_hexDigit _ (by omega), hexValue_hexDigit _ (by omega),
      hexValue_hexDigit _ (by omega), hexValue_hexDigit _ (by omega)]
    refine congrArg some ?_
    omega
  exact (scan_unicode _ _ _ _ t).trans (by rw [hx]; rfl)

theorem short_spec {c e : Char} (h : short c = some e) : e ≠ 'u' ∧ unshort (.scalar e) = some c := by
  obtain ⟨p, hp, rfl⟩ := Option.map_eq_some_iff.mp h
  have hc : p.1 = c := by simpa using List.find?_some hp
  have hall : ∀ p ∈ shorts, p.2 ≠ 'u' ∧ unshort (.scalar p.2) = some p.1 := by decide
  exact hc ▸ hall p (List.mem_of_find?_eq_some hp)

theorem scan_short {c e : Char} (h : short c = some e) (t : Text) : scan (text ['\\', e] ++ t) =
    (scan t).map fun r => ((.scalar c, false) :: r.1, r.2) := by
  obtain ⟨hu, hs⟩ := short_spec h
  exact (scan_escape (fun he => hu (CodePoint.scalar.inj he)) t).trans (by rw [hs]; rfl)

theorem scan_plain {c : Char} (h : short c = none) (hc : 32 ≤ c.toNat) (t : Text) :
    scan (.scalar c :: t) = (scan t).map fun r => ((.scalar c, false) :: r.1, r.2) := by
  have hq : c ≠ '"' := by
    intro he
    subst he
    cases h
  have hb : c ≠ '\\' := by
    intro he
    subst he
    cases h
  exact scan_other (fun he => hq (CodePoint.scalar.inj he)) (fun he => hb (CodePoint.scalar.inj he))
    (by simpa [control] using hc) t

theorem char_range (c : Char) : c.toNat < 0xD800 ∨ 0xDFFF < c.toNat ∧ c.toNat < 0x110000 := c.valid

theorem codeUnit_char {c : Char} (h : c.toNat < 0x10000) : codeUnit c.toNat = .scalar c := by
  have hv := char_range c
  rw [codeUnit, if_neg (by omega), if_neg (by omega), Char.ofNat_toNat]

theorem codeUnit_high {k : Nat} (h : k < 1024) : codeUnit (0xD800 + k) = .high (Fin.ofNat 1024 k) := by
  rw [codeUnit, if_pos (by omega), Nat.add_sub_cancel_left]

theorem codeUnit_low {k : Nat} (h : k < 1024) : codeUnit (0xDC00 + k) = .low (Fin.ofNat 1024 k) := by
  rw [codeUnit, if_neg (by omega), if_pos (by omega), Nat.add_sub_cancel_left]

theorem pair_char {c : Char} (h : ¬ c.toNat < 0x10000) :
    pair (Fin.ofNat 1024 ((c.toNat - 0x10000) / 1024)) (Fin.ofNat 1024 ((c.toNat - 0x10000) % 1024)) =
      c := by
  have hv := char_range c
  have hn : 0x10000 + 1024 * ((c.toNat - 0x10000) / 1024 % 1024) +
      (c.toNat - 0x10000) % 1024 % 1024 = c.toNat := by omega
  simp only [pair, Fin.ofNat, hn, Char.ofNat_toNat]

/-- What reading makes of an escape: the code points of a character. -/
def Spells (c : Char) (us : List Unit16) : Prop :=
  ∀ vs, joinPairs (us ++ vs) = .scalar c :: joinPairs vs

theorem spells_one (c : Char) (b : Bool) : Spells c [(.scalar c, b)] := by
  intro vs
  rw [List.cons_append, List.nil_append, joinPairs]
  simp

/-- A way to write from which the strings that meet `ok` can be read back. -/
structure Writer.Faithful (W : Writer CodePoint) (ok : Text → Bool) : Prop where
  char : W.char = .scalar
  string : ∀ s, ok s = true → ∀ t, readString (W.string s ++ t) = some (s, t)
  comma : ∃ sp, W.comma = ',' :: sp ∧ ∀ c ∈ sp, isSpace (.scalar c) = true
  colon : ∃ sp, W.colon = ':' :: sp ∧ ∀ c ∈ sp, isSpace (.scalar c) = true

theorem readString_scan {W : Writer CodePoint} (hc : W.char = .scalar) {s : Text} {us : List Unit16}
    {t : Text} (hs : scan (s.flatMap W.escape ++ quote :: t) = some (us, t)) :
    readString (W.string s ++ t) = some (joinPairs us, t) := by
  have hq : scan (s.flatMap W.escape ++ .scalar '"' :: t) = some (us, t) := hs
  simp only [Writer.string, hc, List.cons_append, List.append_assoc, List.nil_append, readString]
  refine (if_pos rfl).trans ?_
  rw [hq, Option.map_some]

theorem text_of_scalars {s : Text} (h : ofScalars s = true) : ∃ cs, s = text cs := by
  induction s with
  | nil => exact ⟨[], rfl⟩
  | cons c s ih =>
    simp only [ofScalars, List.all_cons, Bool.and_eq_true] at h
    obtain ⟨cs, rfl⟩ := ih h.2
    cases c with
    | scalar c => exact ⟨c :: cs, rfl⟩
    | high n => cases h.1
    | low n => cases h.1

/-- It is enough that each character is spelled by its escape. -/
theorem string_of_escape {W : Writer CodePoint} (hc : W.char = .scalar)
    (he : ∀ c : Char, ∃ us, Spells c us ∧ ∀ t, scan (W.escape (.scalar c) ++ t) =
      (scan t).map fun r => (us ++ r.1, r.2)) {s : Text} (h : ofScalars s = true) (t : Text) :
    readString (W.string s ++ t) = some (s, t) := by
  obtain ⟨cs, rfl⟩ := text_of_scalars h
  have hs : ∃ us, joinPairs us = text cs ∧
      scan ((text cs).flatMap W.escape ++ quote :: t) = some (us, t) := by
    clear h
    induction cs with
    | nil => exact ⟨[], rfl, scan_quote t⟩
    | cons c cs ih =>
      obtain ⟨us, hu, hs⟩ := ih
      obtain ⟨vs, hv, hc⟩ := he c
      refine ⟨vs ++ us, by rw [hv, hu]; rfl, ?_⟩
      rw [text_cons, List.flatMap_cons, List.append_assoc, hc, hs]
      rfl
  obtain ⟨us, hu, hs⟩ := hs
  rw [readString_scan hc hs, hu]

/-- A writer of characters, its output read as code points. -/
def Writer.widen (W : Writer Char) : Writer CodePoint :=
  ⟨fun c => .scalar (W.char c), fun c => text (W.escape c), W.comma, W.colon⟩

theorem scan_unicodeEscape (c : Char) : ∃ us, Spells c us ∧ ∀ t,
    scan (text (unicodeEscape c) ++ t) = (scan t).map fun r => (us ++ r.1, r.2) := by
  have hv := char_range c
  unfold unicodeEscape
  split
  · rename_i h
    refine ⟨[(.scalar c, true)], spells_one c true, fun t => ?_⟩
    rw [scan_uEscape h, codeUnit_char h]
    rfl
  · rename_i h
    refine ⟨[(.high (Fin.ofNat 1024 ((c.toNat - 0x10000) / 1024)), true),
      (.low (Fin.ofNat 1024 ((c.toNat - 0x10000) % 1024)), true)], ?_, fun t => ?_⟩
    · intro vs
      rw [List.cons_append, List.cons_append, List.nil_append, joinPairs, pair_char h]
    · rw [text_append, List.append_assoc, scan_uEscape (by omega), scan_uEscape (by omega),
        codeUnit_high (by omega), codeUnit_low (by omega), Option.map_map]
      rfl

theorem ascii_faithful : ascii.widen.Faithful ofScalars where
  char := rfl
  comma := ⟨[' '], rfl, by simp [isSpace]⟩
  colon := ⟨[' '], rfl, by simp [isSpace]⟩
  string s := by
    refine string_of_escape rfl fun c => ?_
    simp only [Writer.widen, ascii, asciiEscape]
    split
    · rename_i e he
      exact ⟨[(.scalar c, false)], spells_one c false, fun t => scan_short he t⟩
    · rename_i he
      split
      · rename_i hc
        exact ⟨[(.scalar c, false)], spells_one c false, fun t => scan_plain he hc.1 t⟩
      · exact scan_unicodeEscape c

/-- Without escapes for other than control characters, each is one code point. -/
theorem scan_raw (c : Char) : ∃ b, ∀ t, scan (rawEscape (.scalar c) ++ t) =
    (scan t).map fun r => ((.scalar c, b) :: r.1, r.2) := by
  simp only [rawEscape]
  split
  · rename_i e he
    exact ⟨false, fun t => scan_short he t⟩
  · rename_i he
    split
    · rename_i hc
      refine ⟨true, fun t => ?_⟩
      rw [scan_uEscape (by omega), codeUnit_char (by omega)]
    · rename_i hc
      exact ⟨false, fun t => scan_plain he (by omega) t⟩

theorem compact_faithful : compact.Faithful ofScalars where
  char := rfl
  comma := ⟨[], rfl, by simp⟩
  colon := ⟨[], rfl, by simp⟩
  string s := by
    refine string_of_escape rfl fun c => ?_
    obtain ⟨b, hb⟩ := scan_raw c
    exact ⟨[(.scalar c, b)], spells_one c b, hb⟩

theorem scan_stringify (c : CodePoint) : ∃ b, ∀ t, scan (stringify.widen.escape c ++ t) =
    (scan t).map fun r => ((c, b) :: r.1, r.2) := by
  cases c with
  | scalar c =>
    have he : stringify.widen.escape (.scalar c) = rawEscape (.scalar c) := by
      simp only [Writer.widen, stringify, rawEscape]
      split
      · rfl
      · split <;> rfl
    rw [he]
    exact scan_raw c
  | high n =>
    refine ⟨true, fun t => ?_⟩
    simp only [Writer.widen, stringify]
    rw [scan_uEscape (by omega), codeUnit_high n.isLt, Fin.ofNat_val_eq_self]
  | low n =>
    refine ⟨true, fun t => ?_⟩
    simp only [Writer.widen, stringify]
    rw [scan_uEscape (by omega), codeUnit_low n.isLt, Fin.ofNat_val_eq_self]

theorem joined_tail {c : CodePoint} {t : Text} (h : joined (c :: t) = true) : joined t = true := by
  unfold joined at h
  split at h
  · cases h
  · rename_i he
    cases he
    exact h
  · rename_i he
    cases he

theorem joined_of_ofScalars {t : Text} (h : ofScalars t = true) : joined t = true := by
  obtain ⟨cs, rfl⟩ := text_of_scalars h
  clear h
  induction cs with
  | nil => rfl
  | cons c cs ih => exact ih

theorem joinPairs_joined {us : List Unit16} (h : joined (us.map Prod.fst) = true) :
    joinPairs us = us.map Prod.fst := by
  induction us with
  | nil => rfl
  | cons u us ih =>
    have hi := ih (joined_tail h)
    unfold joinPairs
    split
    · rename_i he
      cases he
    · rename_i he
      cases he
      cases h
    · rename_i he
      cases he
      rw [hi]
      rfl

theorem stringify_faithful : stringify.widen.Faithful joined where
  char := rfl
  comma := ⟨[], rfl, by simp⟩
  colon := ⟨[], rfl, by simp⟩
  string s hs t := by
    have hscan : ∃ us, us.map Prod.fst = s ∧
        scan (s.flatMap stringify.widen.escape ++ quote :: t) = some (us, t) := by
      clear hs
      induction s with
      | nil => exact ⟨[], rfl, scan_quote t⟩
      | cons c s ih =>
        obtain ⟨us, rfl, hs⟩ := ih
        obtain ⟨b, hb⟩ := scan_stringify c
        refine ⟨(c, b) :: us, rfl, ?_⟩
        rw [List.flatMap_cons, List.append_assoc, hb, hs]
        rfl
    obtain ⟨us, rfl, hscan⟩ := hscan
    rw [readString_scan rfl hscan, joinPairs_joined hs]

/-! Values -/

theorem skip_cons {c : CodePoint} (h : isSpace c = false) (t : Text) : skip (c :: t) = c :: t := by
  simp [skip, h]

theorem skip_spaces {sp : List Char} (h : ∀ c ∈ sp, isSpace (.scalar c) = true) (t : Text) :
    skip (text sp ++ t) = skip t := by
  induction sp with
  | nil => rfl
  | cons c sp ih =>
    have hc := h c List.mem_cons_self
    have hi := ih fun d hd => h d (List.mem_cons_of_mem _ hd)
    simpa only [skip, text_cons, List.cons_append, List.dropWhile_cons, hc, if_true] using hi

theorem readWord_none {words : List (List Char × Json)} {t : Text}
    (h : ∀ w ∈ words, ¬ text w.1 <+: t) : readWord words t = none := by
  refine List.findSome?_eq_none_iff.mpr fun w hw => ?_
  rw [dropPrefix, if_neg (h w hw), Option.map_none]

/-- A text that starts with a digit, after a minus or not, is no word. -/
theorem readWord_number {s : List Char} {c : Char} {t : Text} (hs : s = [] ∨ s = ['-'])
    (hd : c.isDigit = true) :
    readWord (constants ++ if lenient then specials else []) (text s ++ .scalar c :: t) = none := by
  apply readWord_none
  intro w hw hp
  have hw : w ∈ constants ++ specials := by
    cases lenient with
    | true => exact hw
    | false => exact List.mem_append_left _ (by simpa using hw)
  simp only [constants, specials, infinity, List.cons_append, List.nil_append, List.mem_cons,
    List.not_mem_nil, or_false] at hw
  rcases hs with rfl | rfl
  · rcases hw with rfl | rfl | rfl | rfl | rfl | rfl
    all_goals
      cases (List.cons_prefix_cons.mp hp).1
      exact absurd hd (by decide)
  · rcases hw with rfl | rfl | rfl | rfl | rfl | rfl
    case inr.inr.inr.inr.inr =>
      cases (List.cons_prefix_cons.mp (List.cons_prefix_cons.mp hp).2).1
      exact absurd hd (by decide)
    all_goals cases (List.cons_prefix_cons.mp hp).1

/-- How the text of a number begins. -/
theorem numberText_head {n : Number} (hf : n.isFinite = true) : ∃ sign c cs,
    numberText Φ n = sign ++ c :: cs ∧ c.isDigit = true ∧ (sign = [] ∨ sign = ['-']) := by
  have hl : ∃ l, literal (text (numberText Φ n)) = some (l, []) ∧ l.chars = numberText Φ n := by
    cases n with
    | int n =>
      refine ⟨_, literal_intText n, ?_⟩
      simp [Literal.chars, numberText, intText]
    | finite x =>
      obtain ⟨l, hl, -, hc⟩ := Φ.repr_literal x
      exact ⟨l, hl, hc⟩
    | infinity negative => cases hf
    | nan => cases hf
  obtain ⟨l, hl, hc⟩ := hl
  obtain ⟨c, cs, hw, hd, hsign⟩ := literal_head hl
  refine ⟨l.sign, c, cs ++ l.tail, ?_, hd, hsign⟩
  rw [← hc, Literal.chars, hw, List.append_assoc, List.cons_append]

/-- What stands for no number is read only as one of the special words. -/
theorem readAtom_special {n : Number} {r : Text} (hf : n.isFinite = false) :
    readAtom Φ lenient (text (numberText Φ n) ++ r) =
      if lenient = true then some (.number n, r) else none := by
  cases n with
  | int n => cases hf
  | finite x => cases hf
  | infinity negative =>
    cases negative <;> cases lenient <;>
      simp [readAtom, readWord, constants, specials, dropPrefix, numberText, infinity, readNumber,
        literal, minus, whole]
  | nan =>
    cases lenient <;>
      simp [readAtom, readWord, constants, specials, dropPrefix, numberText, readNumber, literal,
        minus, whole]

theorem readAtom_number {n : Number} {r : Text} (hs : (Json.number n).built lenient = true)
    (hr : Ends r) :
    readAtom Φ lenient (text (numberText Φ n) ++ r) =
      if (n.isFinite || lenient) = true then some (.number n, r) else none := by
  cases hf : n.isFinite with
  | false => simpa using readAtom_special hf
  | true =>
    obtain ⟨sign, c, cs, hn, hd, hsign⟩ := numberText_head (Φ := Φ) hf
    have hw : readWord (constants ++ if lenient then specials else [])
        (text (numberText Φ n) ++ r) = none := by
      rw [hn, text_append, List.append_assoc]
      exact readWord_number hsign hd
    rw [readAtom, hw, readNumber_text hs hf hr]
    rfl

theorem readAtom_null (r : Text) :
    readAtom Φ lenient (text ['n', 'u', 'l', 'l'] ++ r) = some (.null, r) := by
  simp [readAtom, readWord, constants, dropPrefix]

theorem readAtom_true (r : Text) :
    readAtom Φ lenient (text ['t', 'r', 'u', 'e'] ++ r) = some (.bool true, r) := by
  simp [readAtom, readWord, constants, dropPrefix]

theorem readAtom_false (r : Text) :
    readAtom Φ lenient (text ['f', 'a', 'l', 's', 'e'] ++ r) = some (.bool false, r) := by
  simp [readAtom, readWord, constants, dropPrefix]

/-- The first letter of a number. -/
theorem numberText_first (n : Number) : ∃ c, (numberText Φ n).head? = some c ∧
    (c.isDigit = true ∨ c ∈ ['-', 'I', 'N']) := by
  cases hf : n.isFinite with
  | true =>
    obtain ⟨sign, c, cs, hn, hd, hsign⟩ := numberText_head (Φ := Φ) hf
    rcases hsign with rfl | rfl
    · exact ⟨c, by simp [hn], .inl hd⟩
    · exact ⟨'-', by simp [hn], .inr (by decide)⟩
  | false =>
    cases n with
    | int n => cases hf
    | finite x => cases hf
    | infinity negative =>
      cases negative with
      | true => exact ⟨'-', rfl, .inr (by decide)⟩
      | false => exact ⟨'I', rfl, .inr (by decide)⟩
    | nan => exact ⟨'N', rfl, .inr (by decide)⟩

theorem first_ne {c : Char} (h : c.isDigit = true ∨ c ∈ ['-', 'I', 'N']) {d : Char}
    (hd : d.isDigit = false) (hm : d ∉ ['-', 'I', 'N']) : c ≠ d := by
  intro he
  subst he
  rcases h with h | h
  · rw [hd] at h
    cases h
  · exact hm h

/-- What a value is written with first. -/
theorem write_head {W : Writer CodePoint} (hc : W.char = .scalar) (v : Json) :
    ∃ c, (write Φ W v).head? = some (.scalar c) ∧ isSpace (.scalar c) = false ∧ c ≠ ']' ∧ c ≠ '}' := by
  cases v with
  | null => exact ⟨'n', by simp [write, Writer.word, hc], by decide⟩
  | bool b =>
    cases b with
    | true => exact ⟨'t', by simp [write, Writer.word, hc], by decide⟩
    | false => exact ⟨'f', by simp [write, Writer.word, hc], by decide⟩
  | string s => exact ⟨'"', by simp [write, Writer.string, hc], by decide⟩
  | array vs => exact ⟨'[', by cases vs <;> simp [write, Writer.word, hc], by decide⟩
  | object fs => exact ⟨'{', by cases fs <;> simp [write, Writer.word, hc], by decide⟩
  | number n =>
    obtain ⟨c, hh, hf⟩ := numberText_first (Φ := Φ) n
    refine ⟨c, by simp [write, Writer.word, hc, hh], ?_, first_ne hf (by decide) (by decide),
      first_ne hf (by decide) (by decide)⟩
    have hs : c ≠ ' ' := first_ne hf (by decide) (by decide)
    have ht : c ≠ '\t' := first_ne hf (by decide) (by decide)
    have hn : c ≠ '\n' := first_ne hf (by decide) (by decide)
    have hr : c ≠ '\r' := first_ne hf (by decide) (by decide)
    simp [isSpace, hs, ht, hn, hr]

end Lattix.Lib.Json
