import Lattix.Lib.Url.Ipv6
import Lattix.Lib.Utf8

namespace Lattix.Lib.Url

def lower (cs : List Char) : List Char := cs.map Char.toLower

def isAscii (c : Char) : Bool := c.toNat < 128

/-- A byte for `%` and two hexadecimal digits. -/
def percentDecode : List UInt8 → List UInt8
  | b :: c :: d :: rest =>
    if b = 37 ∧ isDigitOf 16 (Char.ofNat c.toNat) ∧ isDigitOf 16 (Char.ofNat d.toNat) then
      UInt8.ofNat (value 16 [Char.ofNat c.toNat, Char.ofNat d.toNat]) :: percentDecode rest
    else b :: percentDecode (c :: d :: rest)
  | bs => bs

/-- The forbidden domain code points: controls, space and `#%/:<>?@[\]^|`. -/
def isForbidden (c : Char) : Bool :=
  c.toNat ≤ 0x20 ||
    c ∈ ['#', '%', '/', ':', '<', '>', '?', '@', '[', '\\', ']', '^', '|', Char.ofNat 0x7f]

/-- Unicode's ToASCII, whose tables are not part of this library. -/
structure Idna where
  toAscii : List Char → Option (List Char)
  ascii {d e : List Char} : toAscii d = some e → ∀ c ∈ e, isAscii c = true
  folds {d e : List Char} : (∀ c ∈ d, isAscii c = true) → toAscii d = some e → e = lower d
  plain {d : List Char} : (∀ c ∈ d, isAscii c = true) → '-' ∉ d → toAscii d = some (lower d)
  stable {d e : List Char} : toAscii d = some e → toAscii e = some e

def domainToAscii (idna : Idna) (d : List Char) : Option (List Char) :=
  match idna.toAscii d with
  | some e => if e = [] ∨ e.any isForbidden then none else some e
  | none => none

inductive Host where
  | domain (name : List Char)
  | ipv4 (address : Nat)
  | ipv6 (pieces : List Nat)
deriving DecidableEq, Repr

def Host.serialize : Host → List Char
  | .domain name => name
  | .ipv4 address => serializeIpv4 address
  | .ipv6 pieces => '[' :: (serializeIpv6 pieces ++ [']'])

def parseHost (idna : Idna) (cs : List Char) : Option Host :=
  if cs.head? = some '[' then
    if cs.getLast? = some ']' then (parseIpv6 cs.tail.dropLast).map .ipv6 else none
  else
    match domainToAscii idna (Utf8.decode (percentDecode (Utf8.encode cs))) with
    | some d => if endsInNumber d then (parseIpv4 d).map .ipv4 else some (.domain d)
    | none => none

/-- What a parsed host satisfies. -/
def Host.Valid (idna : Idna) : Host → Prop
  | .domain name => idna.toAscii name = some name ∧ name ≠ [] ∧ (∀ c ∈ name, isForbidden c = false) ∧
      endsInNumber name = false
  | .ipv4 address => address < 2 ^ 32
  | .ipv6 pieces => pieces.length = 8 ∧ ∀ p ∈ pieces, p < 16 ^ 4

/-- A text that is a host's own spelling, unless it stands in brackets. -/
def Canonical (cs : List Char) : Prop :=
  cs ≠ [] ∧ (∀ c ∈ cs, isAscii c = true ∧ isForbidden c = false) ∧
    (endsInNumber cs = true → ∃ n < 2 ^ 32, cs = serializeIpv4 n)

/-! Letters -/

/-- Only the first 128 letters have to be tried. -/
theorem toLower_keeps {β : Type} {f : Char → β}
    (h : ∀ n < 128, f (Char.ofNat n).toLower = f (Char.ofNat n)) (c : Char) : f c.toLower = f c := by
  by_cases hc : c.val ≥ 'A'.val ∧ c.val ≤ 'Z'.val
  · have hlt : c.toNat < 128 := (UInt32.le_iff_toNat_le.mp hc.2).trans_lt (by decide)
    have hn := h c.toNat hlt
    rwa [Char.ofNat_toNat] at hn
  · exact congrArg f (dif_neg hc)

@[simp] theorem isAscii_toLower (c : Char) : isAscii c.toLower = isAscii c :=
  toLower_keeps (by decide) c

@[simp] theorem isForbidden_toLower (c : Char) : isForbidden c.toLower = isForbidden c :=
  toLower_keeps (by decide) c

theorem lower_lower (cs : List Char) : lower (lower cs) = lower cs := by
  simp only [lower, List.map_map]
  exact List.map_congr_left fun c _ => toLower_keeps (f := Char.toLower) (by decide) c

theorem mem_lower {p : Char → Bool} (hp : ∀ c, p c.toLower = p c) {cs : List Char} {b : Bool} :
    (∀ c ∈ lower cs, p c = b) ↔ ∀ c ∈ cs, p c = b := by
  simp only [lower, List.forall_mem_map, hp]

def foldAscii (d : List Char) : Option (List Char) := if d.all isAscii then some (lower d) else none

theorem foldAscii_some {d e : List Char} :
    foldAscii d = some e ↔ (∀ c ∈ d, isAscii c = true) ∧ lower d = e := by
  rw [foldAscii, ← List.all_eq_true]
  by_cases h : d.all isAscii = true
  · rw [if_pos h, Option.some.injEq, and_iff_right h]
  · rw [if_neg h]
    exact ⟨fun he => (Option.some_ne_none e he.symm).elim, fun he => absurd he.1 h⟩

/-- ToASCII where there is nothing to do but to fold. -/
def Idna.asciiOnly : Idna where
  toAscii := foldAscii
  ascii := by
    intro d e h
    obtain ⟨hd, rfl⟩ := foldAscii_some.mp h
    exact (mem_lower isAscii_toLower).mpr hd
  folds := fun _ h => (foldAscii_some.mp h).2.symm
  plain := fun hd _ => foldAscii_some.mpr ⟨hd, rfl⟩
  stable := by
    intro d e h
    obtain ⟨hd, rfl⟩ := foldAscii_some.mp h
    exact foldAscii_some.mpr ⟨(mem_lower isAscii_toLower).mpr hd, lower_lower d⟩

theorem encode_ascii {cs : List Char} (h : ∀ c ∈ cs, isAscii c = true) :
    Utf8.encode cs = cs.map fun c => UInt8.ofNat c.toNat := by
  rw [Utf8.encode, ← List.flatMap_pure_eq_map]
  refine List.flatMap_congr fun c hc => ?_
  have hc := of_decide_eq_true (h c hc)
  exact if_pos (Nat.le_of_lt_succ hc)

theorem percentDecode_plain {bs : List UInt8} (h : 37 ∉ bs) : percentDecode bs = bs := by
  fun_induction percentDecode bs with
  | case1 b c d rest hb ih => exact absurd (hb.1 ▸ List.mem_cons_self) h
  | case2 b c d rest hb ih => rw [ih fun hm => h (List.mem_cons_of_mem b hm)]
  | case3 bs hbs => rfl

/-- What no `%` stands in is taken as it is. -/
theorem decode_plain {cs : List Char} (h : ∀ c ∈ cs, isAscii c = true) (hp : '%' ∉ cs) :
    Utf8.decode (percentDecode (Utf8.encode cs)) = cs := by
  rw [percentDecode_plain, Utf8.decode_encode]
  rw [encode_ascii h]
  intro hm
  obtain ⟨c, hc, hb⟩ := List.mem_map.mp hm
  have hlt := of_decide_eq_true (h c hc)
  have hnat := congrArg UInt8.toNat hb
  rw [UInt8.toNat_ofNat_of_lt' (hlt.trans (by decide))] at hnat
  have hpercent : c = '%' := by
    rw [← Char.ofNat_toNat c, hnat]
    rfl
  exact hp (hpercent ▸ hc)

/-! Hosts -/

section hosts
variable {idna : Idna} {cs d : List Char} {h : Host}

theorem domainToAscii_spec (he : domainToAscii idna cs = some d) :
    idna.toAscii cs = some d ∧ d ≠ [] ∧ ∀ c ∈ d, isForbidden c = false := by
  unfold domainToAscii at he
  split at he
  · rename_i e htoAscii
    split at he
    · cases he
    · rename_i hno
      cases he
      obtain ⟨hne, hany⟩ := not_or.mp hno
      rw [Bool.not_eq_true, List.any_eq_false] at hany
      exact ⟨htoAscii, hne, fun c hc => Bool.eq_false_of_not_eq_true (hany c hc)⟩
  · cases he

/-- What has no `[` in front is read as a domain first. -/
theorem parseHost_domain (hhead : cs.head? ≠ some '[')
    (he : domainToAscii idna (Utf8.decode (percentDecode (Utf8.encode cs))) = some d) :
    parseHost idna cs = if endsInNumber d then (parseIpv4 d).map .ipv4 else some (.domain d) := by
  rw [parseHost, if_neg hhead, he]

theorem parseHost_valid (hh : parseHost idna cs = some h) : h.Valid idna := by
  unfold parseHost at hh
  split at hh
  · split at hh
    · obtain ⟨pieces, hp, rfl⟩ := Option.map_eq_some_iff.mp hh
      exact parseIpv6_valid hp
    · cases hh
  · split at hh
    · rename_i d hd
      obtain ⟨htoAscii, hne, hclean⟩ := domainToAscii_spec hd
      split at hh
      · obtain ⟨n, hn, rfl⟩ := Option.map_eq_some_iff.mp hh
        exact parseIpv4_lt hn
      · cases hh
        exact ⟨idna.stable htoAscii, hne, hclean, Bool.eq_false_of_not_eq_true ‹_›⟩
    · cases hh

theorem head_clean (hcs : ∀ c ∈ cs, isForbidden c = false) : cs.head? ≠ some '[' := by
  intro hm
  exact absurd (hcs '[' (List.mem_of_mem_head? hm)) (by decide)

theorem serializeIpv4_letters (n : Nat) : ∀ c ∈ serializeIpv4 n, c.isDigit = true ∨ c = '.' := by
  intro c hc
  rcases mem_intercalate hc with hc | ⟨l, hl, hc⟩
  · exact .inr (List.mem_singleton.mp hc)
  · obtain ⟨k, -, rfl⟩ := List.mem_map.mp hl
    exact .inl (Json.decimal_digits c hc)

theorem digit_plain {c : Char} (h : c.isDigit = true) :
    isAscii c = true ∧ isForbidden c = false ∧ c.toLower = c := by
  have hall : ∀ n < 58, 48 ≤ n → isAscii (Char.ofNat n) = true ∧ isForbidden (Char.ofNat n) = false ∧
      (Char.ofNat n).toLower = Char.ofNat n := by decide
  obtain ⟨hlo, hhi⟩ := Char.isDigit_iff_toNat.mp h
  have hc := hall c.toNat (Nat.lt_succ_of_le hhi) hlo
  rwa [Char.ofNat_toNat] at hc

theorem serializeIpv4_plain (n : Nat) : ∀ c ∈ serializeIpv4 n,
    isAscii c = true ∧ isForbidden c = false ∧ c.toLower = c := by
  intro c hc
  rcases serializeIpv4_letters n c hc with hd | rfl
  · exact digit_plain hd
  · decide

theorem serializeIpv4_ne_nil (n : Nat) : serializeIpv4 n ≠ [] := by
  intro h
  have hparts := congrArg List.length (ipv4Parts_serialize n)
  rw [h, List.length_map] at hparts
  cases hparts

/-- A name that ToASCII leaves alone is read as itself. -/
theorem domainToAscii_self (hself : idna.toAscii d = some d) (hne : d ≠ [])
    (hclean : ∀ c ∈ d, isForbidden c = false) :
    domainToAscii idna (Utf8.decode (percentDecode (Utf8.encode d))) = some d := by
  have hpercent : '%' ∉ d := fun hm => absurd (hclean '%' hm) (by decide)
  rw [decode_plain (idna.ascii hself) hpercent, domainToAscii, hself]
  refine if_neg (not_or.mpr ⟨hne, ?_⟩)
  rw [Bool.not_eq_true, List.any_eq_false]
  intro c hc
  rw [hclean c hc]
  exact Bool.false_ne_true

theorem parse_ipv4 {n : Nat} (hn : n < 2 ^ 32)
    (hself : idna.toAscii (serializeIpv4 n) = some (serializeIpv4 n)) :
    parseHost idna (serializeIpv4 n) = some (.ipv4 n) := by
  have hclean (c) (hc : c ∈ serializeIpv4 n) := (serializeIpv4_plain n c hc).2.1
  rw [parseHost_domain (head_clean hclean)
    (domainToAscii_self hself (serializeIpv4_ne_nil n) hclean), serialize_endsInNumber, if_pos rfl,
    parseIpv4_serialize hn]
  rfl

theorem ipv4_self (n : Nat) : idna.toAscii (serializeIpv4 n) = some (serializeIpv4 n) := by
  have hhyphen : '-' ∉ serializeIpv4 n := by
    intro hm
    rcases serializeIpv4_letters n '-' hm with h | h
    · exact absurd h (by decide)
    · exact absurd h (by decide)
  have hlower : lower (serializeIpv4 n) = serializeIpv4 n :=
    (List.map_congr_left fun c hc => (serializeIpv4_plain n c hc).2.2).trans (List.map_id _)
  rw [idna.plain (fun c hc => (serializeIpv4_plain n c hc).1) hhyphen, hlower]

/-- A host reads back from its text. -/
theorem parseHost_serialize (hv : h.Valid idna) : parseHost idna h.serialize = some h := by
  cases h with
  | domain name =>
    obtain ⟨hself, hne, hclean, hno⟩ := hv
    have hd := domainToAscii_self hself hne hclean
    rw [Host.serialize, parseHost_domain (head_clean hclean) hd, hno]
    rfl
  | ipv4 n => exact parse_ipv4 hv (ipv4_self n)
  | ipv6 pieces =>
    have hhead : ('[' :: (serializeIpv6 pieces ++ [']'])).head? = some '[' := rfl
    have hlast : ('[' :: (serializeIpv6 pieces ++ [']'])).getLast? = some ']' := by
      rw [← List.cons_append, List.getLast?_append]
      rfl
    rw [Host.serialize, parseHost, if_pos hhead, if_pos hlast, List.tail_cons, List.dropLast_concat,
      parseIpv6_serialize hv.1 hv.2]
    rfl

theorem canonical_serialize (hv : h.Valid idna) (hcolon : ':' ∉ h.serialize) :
    Canonical h.serialize := by
  cases h with
  | domain name =>
    obtain ⟨hself, hne, hclean, hno⟩ := hv
    refine ⟨hne, fun c hc => ⟨idna.ascii hself c hc, hclean c hc⟩, fun hends => ?_⟩
    rw [Host.serialize, hno] at hends
    cases hends
  | ipv4 n =>
    exact ⟨serializeIpv4_ne_nil n, fun c hc => ⟨(serializeIpv4_plain n c hc).1,
      (serializeIpv4_plain n c hc).2.1⟩, fun _ => ⟨n, hv, rfl⟩⟩
  | ipv6 pieces =>
    exact absurd (List.mem_cons_of_mem _ (List.mem_append_left _ (colon_mem hv.1))) hcolon

/-- Only the case of the letters changes. -/
theorem parseHost_canonical (hcs : Canonical (lower cs)) (hh : parseHost idna cs = some h) :
    h.serialize = lower cs := by
  obtain ⟨-, hletters, hnumber⟩ := hcs
  have hascii : ∀ c ∈ cs, isAscii c = true :=
    (mem_lower isAscii_toLower).mp fun c hc => (hletters c hc).1
  have hclean : ∀ c ∈ cs, isForbidden c = false :=
    (mem_lower isForbidden_toLower).mp fun c hc => (hletters c hc).2
  have hpercent : '%' ∉ cs := fun hm => absurd (hclean '%' hm) (by decide)
  rw [parseHost, if_neg (head_clean hclean), decode_plain hascii hpercent] at hh
  split at hh
  · rename_i d hd
    cases idna.folds hascii (domainToAscii_spec hd).1
    split at hh
    · rename_i hends
      obtain ⟨n, hn, he⟩ := hnumber hends
      rw [he, parseIpv4_serialize hn] at hh
      cases hh
      exact he.symm
    · cases hh
      rfl
  · cases hh

/-- The letters of a host: none that ends an authority or splits it, but for `:` in brackets. -/
theorem serialize_letters (hv : h.Valid idna) :
    ∀ c ∈ h.serialize, isAscii c = true ∧ (isForbidden c = false ∨ c = '[' ∨ c = ':' ∨ c = ']') := by
  cases h with
  | domain name => exact fun c hc => ⟨idna.ascii hv.1 c hc, .inl (hv.2.2.1 c hc)⟩
  | ipv4 n =>
    exact fun c hc => ⟨(serializeIpv4_plain n c hc).1, .inl (serializeIpv4_plain n c hc).2.1⟩
  | ipv6 pieces =>
    have hdigit : ∀ d < 16, isAscii (hexDigit d) = true ∧ isForbidden (hexDigit d) = false := by
      decide
    intro c hc
    rcases List.mem_cons.mp hc with rfl | hc
    · exact ⟨rfl, .inr (.inl rfl)⟩
    rcases List.mem_append.mp hc with hc | hc
    · rcases serializeIpv6_letters pieces c hc with ⟨d, hd, rfl⟩ | rfl
      · exact ⟨(hdigit d hd).1, .inl (hdigit d hd).2⟩
      · exact ⟨rfl, .inr (.inr (.inl rfl))⟩
    · rw [List.mem_singleton.mp hc]
      exact ⟨rfl, .inr (.inr (.inr rfl))⟩

end hosts

end Lattix.Lib.Url
