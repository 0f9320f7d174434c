import Mathlib.Data.List.Basic
import Lattix.Lib.Url.Reparse

/-! Names and values in a query or a fragment. -/

namespace Lattix.Lib.Url

/-- What `encodeURIComponent` leaves. -/
def isUnreserved (c : Char) : Bool := c.isAlphanum || c ∈ ['-', '_', '.', '!', '~', '*', '\'', '(', ')']

/-- `encodeURIComponent` -/
def encodeComponent (cs : List Char) : List Char := percentEncode (fun c => !isUnreserved c) cs

/-- The percent-encoded letters of a fragment. -/
def fragmentSet (c : Char) : Bool := isBlank c || 0x7e < c.toNat || c ∈ ['"', '<', '>', '`']

/-- `+` for a space, then the bytes of `%`. -/
def formDecode (bs : List UInt8) : List Char :=
  Utf8.decode (percentDecode (bs.map fun b => if b = 43 then 32 else b))

def parsePair (bs : List UInt8) : List Char × List Char :=
  (formDecode (bs.takeWhile (· ≠ 61)), formDecode ((bs.dropWhile (· ≠ 61)).drop 1))

/-- The pairs of a `URLSearchParams` object. -/
def searchParams (cs : List Char) : List (List Char × List Char) :=
  let cs := if cs.head? = some '?' then cs.tail else cs
  (((Utf8.encode cs).splitOn 38).filter (· ≠ [])).map parsePair

/-- `get` -/
def getParam (name : List Char) (ps : List (List Char × List Char)) : Option (List Char) :=
  (ps.find? (·.1 = name)).map Prod.snd

/-! Reading encoded text -/

/-- Letters that encoded text is made of. -/
def isEncoded (c : Char) : Bool := isUnreserved c || c = '%'

theorem percentByte_encoded (b : UInt8) : ∀ c ∈ percentByte b, isEncoded c = true := by
  have hhex : ∀ d < 16, isEncoded (upperHex d) = true := by decide
  have hb : b.toNat < 256 := b.toNat_lt
  intro c hc
  simp only [percentByte, List.mem_cons, List.not_mem_nil, or_false] at hc
  rcases hc with rfl | rfl | rfl
  · rfl
  · exact hhex _ (by omega)
  · exact hhex _ (by omega)

theorem encodeComponent_letters (cs : List Char) : ∀ c ∈ encodeComponent cs, isEncoded c = true := by
  intro c hc
  obtain ⟨a, _, ha⟩ := List.mem_flatMap.mp hc
  split_ifs at ha with hset
  · obtain ⟨b, _, hb⟩ := List.mem_flatMap.mp ha
    exact percentByte_encoded b c hb
  · rw [List.mem_singleton.mp ha, isEncoded]
    simpa using Or.inl hset

theorem isAlphanum_lt {c : Char} (h : c.isAlphanum = true) : c.toNat < 128 := by
  change (decide (65 ≤ c.val ∧ c.val ≤ 90) || (decide (97 ≤ c.val) && decide (c.val ≤ 122)) ||
    (decide (48 ≤ c.val) && decide (c.val ≤ 57))) = true at h
  simp only [Bool.or_eq_true, Bool.and_eq_true, decide_eq_true_eq, UInt32.le_iff_toNat_le] at h
  change ((65 ≤ c.toNat ∧ c.toNat ≤ 90) ∨ (97 ≤ c.toNat ∧ c.toNat ≤ 122)) ∨
    (48 ≤ c.toNat ∧ c.toNat ≤ 57) at h
  omega

/-- Such letters are ASCII, and neither separators nor changed in a fragment. -/
theorem encoded_letter {c : Char} (h : isEncoded c = true) : c.toNat < 128 ∧
    c.toNat ∉ [35, 38, 43, 61, 63] ∧ fragmentSet c = false := by
  have hlt : c.toNat < 128 := by
    simp only [isEncoded, isUnreserved, Bool.or_eq_true, decide_eq_true_eq] at h
    rcases h with (h | h) | rfl
    · exact isAlphanum_lt h
    · have hall : ['-', '_', '.', '!', '~', '*', '\'', '(', ')'].all (·.toNat < 128) = true := by decide
      exact of_decide_eq_true (List.all_eq_true.mp hall c h)
    · decide
  have hall : ∀ n < 128, isEncoded (Char.ofNat n) = true →
      n ∉ [35, 38, 43, 61, 63] ∧ fragmentSet (Char.ofNat n) = false := by decide +kernel
  have := hall c.toNat hlt
  rw [Char.ofNat_toNat] at this
  exact ⟨hlt, this h⟩

/-- The byte of an ASCII letter. -/
def byte (c : Char) : UInt8 := UInt8.ofNat c.toNat

theorem encode_encoded {cs : List Char} (h : ∀ c ∈ cs, isEncoded c = true) : Utf8.encode cs = cs.map byte :=
  encode_ascii fun c hc => decide_eq_true (encoded_letter (h c hc)).1

theorem byte_ne {c : Char} (h : isEncoded c = true) {n : ℕ} (hn : n ∈ [35, 38, 43, 61, 63]) :
    byte c ≠ UInt8.ofNat n := by
  obtain ⟨hlt, hne, _⟩ := encoded_letter h
  intro he
  have hnat := congrArg UInt8.toNat he
  have hsmall : n < 128 := by
    have hall : [35, 38, 43, 61, 63].all (· < 128) = true := by decide
    exact of_decide_eq_true (List.all_eq_true.mp hall n hn)
  rw [byte, UInt8.toNat_ofNat_of_lt' (hlt.trans (by decide)),
    UInt8.toNat_ofNat_of_lt' (hsmall.trans (by decide))] at hnat
  exact hne (hnat ▸ hn)

theorem map_plus {bs : List UInt8} (h : ∀ b ∈ bs, b ≠ 43) :
    (bs.map fun b => if b = 43 then 32 else b) = bs := by
  conv_rhs => rw [← List.map_id bs]
  exact List.map_congr_left fun b hb => if_neg (h b hb)

theorem percentDecode_byte (b : UInt8) (rest : List UInt8) :
    percentDecode ((percentByte b).map byte ++ rest) = b :: percentDecode rest := by
  have hhex : ∀ n < 16, isDigitOf 16 (upperHex n) = true ∧ digitValue (upperHex n) = n ∧
      Char.ofNat (byte (upperHex n)).toNat = upperHex n := by decide
  have hb : b.toNat < 256 := b.toNat_lt
  obtain ⟨hhi, hhi', hhi''⟩ := hhex (b.toNat / 16) (by omega)
  obtain ⟨hlo, hlo', hlo''⟩ := hhex (b.toNat % 16) (by omega)
  have hpercent : byte '%' = 37 := rfl
  simp only [percentByte, List.map_cons, List.map_nil, List.cons_append, List.nil_append]
  rw [percentDecode, hhi'', hlo'', if_pos ⟨hpercent, hhi, hlo⟩]
  congr 1
  have hv : value 16 [upperHex (b.toNat / 16), upperHex (b.toNat % 16)] = b.toNat := by
    simp only [value, List.foldl_cons, List.foldl_nil, hhi', hlo']
    omega
  rw [hv, UInt8.ofNat_toNat]

theorem percentDecode_ne {b : UInt8} (hb : b ≠ 37) (rest : List UInt8) :
    percentDecode (b :: rest) = b :: percentDecode rest := by
  match rest with
  | [] => simp [percentDecode]
  | [c] => simp [percentDecode]
  | c :: d :: rest => rw [percentDecode, if_neg fun h => hb h.1]

theorem percentDecode_bytes (bs rest : List UInt8) :
    percentDecode ((bs.flatMap percentByte).map byte ++ rest) = bs ++ percentDecode rest := by
  induction bs with
  | nil => rfl
  | cons b bs ih =>
    rw [List.flatMap_cons, List.map_append, List.append_assoc, percentDecode_byte, ih]
    rfl

/-- Encoded text is read as the bytes of the text. -/
theorem percentDecode_encodeComponent (cs : List Char) :
    percentDecode ((encodeComponent cs).map byte) = Utf8.encode cs := by
  induction cs with
  | nil => simp [encodeComponent, percentEncode, percentDecode, Utf8.encode]
  | cons c cs ih =>
    have hcons : encodeComponent (c :: cs) = (if !isUnreserved c then
        (String.utf8EncodeChar c).flatMap percentByte else [c]) ++ encodeComponent cs := by
      rw [encodeComponent, percentEncode, List.flatMap_cons]
      rfl
    have hencode : Utf8.encode (c :: cs) = String.utf8EncodeChar c ++ Utf8.encode cs := List.flatMap_cons
    rw [hcons, hencode, List.map_append]
    by_cases hc : isUnreserved c = true
    · have hplain : isEncoded c = true := by
        rw [isEncoded, hc]
        rfl
      have hone : String.utf8EncodeChar c = [byte c] := by
        have := @encode_encoded [c] (by simpa using hplain)
        simpa [Utf8.encode] using this
      have hne : byte c ≠ 37 := by
        intro he
        have hnat := congrArg UInt8.toNat he
        rw [byte, UInt8.toNat_ofNat_of_lt' ((encoded_letter hplain).1.trans (by decide))] at hnat
        have hpercent : c = '%' := by
          rw [← Char.ofNat_toNat c, hnat]
          rfl
        rw [hpercent] at hc
        cases hc
      rw [hc, hone]
      exact (percentDecode_ne hne _).trans (congrArg (byte c :: ·) ih)
    · rw [Bool.not_eq_true] at hc
      rw [hc]
      exact (percentDecode_bytes _ _).trans (congrArg (_ ++ ·) ih)

theorem formDecode_encodeComponent (cs : List Char) :
    formDecode ((encodeComponent cs).map byte) = cs := by
  rw [formDecode, map_plus, percentDecode_encodeComponent, Utf8.decode_encode]
  intro b hb
  obtain ⟨c, hc, rfl⟩ := List.mem_map.mp hb
  exact byte_ne (encodeComponent_letters cs c hc) (n := 43) (by decide)

/-! Addresses with a fragment -/

/-- From the first `#` on, if something follows it. -/
def hashOf (url : List Char) : List Char :=
  match url.dropWhile (· ≠ '#') with
  | [] | [_] => []
  | _ :: fragment => '#' :: percentEncode fragmentSet fragment

theorem hashOf_append {front fragment : List Char} (hfront : '#' ∉ front) (hne : fragment ≠ [])
    (hkeep : ∀ c ∈ fragment, fragmentSet c = false) :
    hashOf (front ++ '#' :: fragment) = '#' :: fragment := by
  have hbefore : ∀ c ∈ front, decide (c ≠ '#') = true := fun c hc =>
    decide_eq_true fun he => hfront (he ▸ hc)
  have hdrop : (front ++ '#' :: fragment).dropWhile (· ≠ '#') = '#' :: fragment :=
    dropWhile_cut hbefore (by rintro c ⟨⟩; decide)
  obtain ⟨c, cs, rfl⟩ := List.exists_cons_of_ne_nil hne
  rw [hashOf, hdrop]
  exact congrArg ('#' :: ·) (percentEncode_self hkeep)

/-- The fragment is no part of what is fetched. -/
theorem parse_fragment {idna : Idna} {other : List Char → Bool} {u : Address} (hu : u.Valid idna)
    {segs : List (List Char)} (hsegs : ∀ seg ∈ segs, Clean seg) {fragment : List Char}
    (hfragment : ∀ c ∈ fragment, isBlank c = false) :
    parse idna other (u.scheme.start ++ (u.authority ++ (joinPath segs ++ '#' :: fragment))) =
      parse idna other (u.scheme.start ++ (u.authority ++ joinPath segs)) := by
  have hblank : ∀ c ∈ u.authority ++ joinPath segs, isBlank c = false := by
    intro c hc
    exact (List.mem_append.mp hc).elim (fun hc => (authority_kept hu c hc).visible)
      fun hc => (mem_joinPath hsegs c hc).2.2.1
  have hlong : ∀ c ∈ u.authority ++ (joinPath segs ++ '#' :: fragment), isBlank c = false := by
    intro c hc
    rw [← List.append_assoc] at hc
    rcases List.mem_append.mp hc with hc | hc
    · exact hblank c hc
    · rcases List.mem_cons.mp hc with rfl | hc
      · decide
      · exact hfragment c hc
  have hfilter {cs : List Char} (h : ∀ c ∈ cs, isBlank c = false) :
      (cs.rdropWhile isBlank).filter (!isTabOrNewline ·) = cs := by
    rw [rdropWhile_none h]
    refine List.filter_eq_self.mpr fun c hc => ?_
    rw [no_tab (h c hc)]
    rfl
  have hpath : ∀ c ∈ joinPath segs, decide (c ≠ '?' ∧ c ≠ '#') = true := fun c hc =>
    decide_eq_true ⟨(mem_joinPath hsegs c hc).1, (mem_joinPath hsegs c hc).2.1⟩
  have hhead : ∀ c ∈ (joinPath segs).head?, isEnd c = true := by
    intro c hc
    cases segs with
    | nil => cases hc
    | cons seg rest => cases hc; decide
  have hhead' : ∀ c ∈ (joinPath segs ++ '#' :: fragment).head?, isEnd c = true := by
    intro c hc
    cases segs with
    | nil => cases hc; decide
    | cons seg rest => cases hc; decide
  have hne : u.authority ≠ [] := fun h => hostname_ne_nil hu.host (List.append_eq_nil_iff.mp h).1
  have hinside : ∀ c ∈ u.authority, isEnd c = false := fun c hc => (authority_kept hu c hc).inside
  rw [parse_start, parse_start, hfilter hlong, hfilter hblank, parseAuthority_append hne hinside hhead',
    parseAuthority_append hne hinside hhead, List.takeWhile_eq_self_iff.mpr hpath,
    takeWhile_cut hpath (by rintro c ⟨⟩; decide)]

/-! Reading encoded pairs -/

def joinPair (p : List Char × List Char) : List Char := encodeComponent p.1 ++ '=' :: encodeComponent p.2

/-- `name=value` with `&` between. -/
def joinPairs (ps : List (List Char × List Char)) : List Char := ['&'].intercalate (ps.map joinPair)

theorem encodeComponent_no_equals (cs : List Char) : 61 ∉ (encodeComponent cs).map byte := by
  intro hm
  obtain ⟨c, hc, hb⟩ := List.mem_map.mp hm
  exact byte_ne (encodeComponent_letters cs c hc) (n := 61) (by decide) hb

theorem parsePair_join (p : List Char × List Char) : parsePair ((joinPair p).map byte) = p := by
  have hno := encodeComponent_no_equals p.1
  have hsplit : (joinPair p).map byte =
      (encodeComponent p.1).map byte ++ 61 :: (encodeComponent p.2).map byte := by
    rw [joinPair, List.map_append]
    rfl
  have hkeep : ∀ b ∈ (encodeComponent p.1).map byte, decide (b ≠ (61 : UInt8)) = true :=
    fun b hb => decide_eq_true fun he => hno (he ▸ hb)
  rw [parsePair, hsplit, List.takeWhile_append_of_pos hkeep, List.dropWhile_append_of_pos hkeep,
    List.takeWhile_cons_of_neg (by simp), List.dropWhile_cons_of_neg (by simp), List.append_nil,
    formDecode_encodeComponent, List.drop_one, List.tail_cons, formDecode_encodeComponent]

theorem joinPair_letters (p : List Char × List Char) : ∀ c ∈ joinPair p, isEncoded c = true ∨ c = '=' := by
  intro c hc
  rcases List.mem_append.mp hc with hc | hc
  · exact .inl (encodeComponent_letters _ c hc)
  · rcases List.mem_cons.mp hc with rfl | hc
    · exact .inr rfl
    · exact .inl (encodeComponent_letters _ c hc)

theorem map_intercalate {α β : Type*} (f : α → β) (a : α) (ls : List (List α)) :
    ([a].intercalate ls).map f = [f a].intercalate (ls.map (List.map f)) := by
  induction ls with
  | nil => rfl
  | cons l ls ih =>
    cases ls with
    | nil => simp [List.intercalate]
    | cons l' ls =>
      have hmap : (l :: l' :: ls).map (List.map f) = l.map f :: l'.map f :: ls.map (List.map f) := rfl
      rw [List.intercalate_cons_cons, List.map_append, List.map_append, ih, hmap,
        List.intercalate_cons_cons, List.map_singleton]
      rfl

theorem joinPairs_letters (ps : List (List Char × List Char)) :
    ∀ c ∈ joinPairs ps, isEncoded c = true ∨ c = '=' ∨ c = '&' := by
  intro c hc
  rcases mem_intercalate hc with hc | ⟨l, hl, hc⟩
  · exact .inr (.inr (List.mem_singleton.mp hc))
  · obtain ⟨p, _, rfl⟩ := List.mem_map.mp hl
    exact (joinPair_letters p c hc).imp_right .inl

theorem encode_joinPairs (ps : List (List Char × List Char)) : Utf8.encode (joinPairs ps) =
    [(38 : UInt8)].intercalate (ps.map fun p => (joinPair p).map byte) := by
  have hascii : ∀ c ∈ joinPairs ps, isAscii c = true := by
    intro c hc
    rcases joinPairs_letters ps c hc with hc | rfl | rfl
    · exact decide_eq_true (encoded_letter hc).1
    · rfl
    · rfl
  rw [encode_ascii hascii, joinPairs]
  exact (map_intercalate byte '&' _).trans (by rw [List.map_map]; rfl)

theorem joinPair_no_ampersand (p : List Char × List Char) : 38 ∉ (joinPair p).map byte := by
  intro hm
  obtain ⟨c, hc, hb⟩ := List.mem_map.mp hm
  rcases joinPair_letters p c hc with hc | rfl
  · exact byte_ne hc (n := 38) (by decide) hb
  · revert hb
    decide

/-- Encoded pairs are read as they were. -/
theorem searchParams_joinPairs (ps : List (List Char × List Char)) : searchParams (joinPairs ps) = ps := by
  have hhead : (joinPairs ps).head? ≠ some '?' := by
    intro h
    have := joinPairs_letters ps '?' (List.mem_of_mem_head? h)
    revert this
    decide
  rw [searchParams, if_neg hhead, encode_joinPairs]
  cases ps with
  | nil => rfl
  | cons p ps =>
    have hkeep : ∀ l ∈ (p :: ps).map (fun p => (joinPair p).map byte), decide (l ≠ []) = true := by
      intro l hl
      obtain ⟨q, _, rfl⟩ := List.mem_map.mp hl
      simp [joinPair]
    have hno : ∀ l ∈ (p :: ps).map (fun p => (joinPair p).map byte), (38 : UInt8) ∉ l := by
      intro l hl
      obtain ⟨q, _, rfl⟩ := List.mem_map.mp hl
      exact joinPair_no_ampersand q
    rw [List.splitOn_intercalate _ hno (by simp), List.filter_eq_self.mpr hkeep, List.map_map]
    conv_rhs => rw [← List.map_id (p :: ps)]
    exact List.map_congr_left fun q _ => parsePair_join q

end Lattix.Lib.Url
