import Lattix.Lib.Url.Parse

namespace Lattix.Lib.Url
open Lib.Json

/-! Texts cut in two -/

section cuts
variable {α : Type} {p : α → Bool} {xs ys : List α}

theorem takeWhile_cut (hxs : ∀ x ∈ xs, p x = true) (hys : ∀ y ∈ ys.head?, p y = false) :
    (xs ++ ys).takeWhile p = xs := by
  rw [List.takeWhile_append_of_pos hxs]
  cases ys with
  | nil => exact List.append_nil xs
  | cons y ys => rw [List.takeWhile_cons_of_neg (by simp [hys y rfl]), List.append_nil]

theorem dropWhile_cut (hxs : ∀ x ∈ xs, p x = true) (hys : ∀ y ∈ ys.head?, p y = false) :
    (xs ++ ys).dropWhile p = ys := by
  rw [List.dropWhile_append_of_pos hxs]
  cases ys with
  | nil => rfl
  | cons y ys => exact List.dropWhile_cons_of_neg (by simp [hys y rfl])

/-- Nothing is dropped beyond a letter that stays. -/
theorem rdropWhile_append {x : α} (hx : p x = false) :
    ((xs ++ [x]) ++ ys).rdropWhile p = (xs ++ [x]) ++ ys.rdropWhile p := by
  induction ys using List.reverseRecOn with
  | nil => rw [List.append_nil, List.rdropWhile_nil, List.append_nil,
      List.rdropWhile_concat_neg _ _ _ (by simp [hx])]
  | append_singleton ys y ih =>
    rw [← List.append_assoc]
    by_cases hy : p y = true
    · rw [List.rdropWhile_concat_pos _ _ _ hy, List.rdropWhile_concat_pos _ _ _ hy, ih]
    · rw [List.rdropWhile_concat_neg _ _ _ hy, List.rdropWhile_concat_neg _ _ _ hy,
        List.append_assoc]

theorem rdropWhile_none (h : ∀ x ∈ xs, p x = false) : xs.rdropWhile p = xs := by
  refine List.rdropWhile_eq_self_iff.mpr fun hne hp => ?_
  rw [h _ (List.getLast_mem hne)] at hp
  cases hp

end cuts

/-! The scheme -/

def Scheme.start (s : Scheme) : List Char := s.name ++ [':', '/', '/']

theorem splitScheme_name (s : Scheme) (rest : List Char) :
    splitScheme (s.name ++ ':' :: rest) = some (s.name, rest) := by
  cases s <;> rfl

theorem ofName_name (s : Scheme) : Scheme.ofName s.name = some s := by
  cases s <;> rfl

theorem prepare_start (s : Scheme) (body : List Char) : prepare (s.start ++ body) =
    s.start ++ (body.rdropWhile isBlank).filter (!isTabOrNewline ·) := by
  have hfront : (s.start ++ body).dropWhile isBlank = s.start ++ body := by
    cases s <;> rfl
  have hend : (s.start ++ body).rdropWhile isBlank = s.start ++ body.rdropWhile isBlank := by
    have h : ((s.name ++ [':', '/']) ++ ['/'] ++ body).rdropWhile isBlank =
        (s.name ++ [':', '/']) ++ ['/'] ++ body.rdropWhile isBlank := rdropWhile_append rfl
    simpa only [Scheme.start, List.append_assoc, List.cons_append, List.nil_append] using h
  have hfilter : s.start.filter (!isTabOrNewline ·) = s.start := by
    cases s <;> rfl
  rw [prepare, trimBy, hfront, hend, List.filter_append, hfilter]

section parser
variable {idna : Idna} {other : List Char → Bool} {s : Scheme} {body authority tail : List Char}

theorem parse_start : parse idna other (s.start ++ body) =
    (parseAuthority idna s ((body.rdropWhile isBlank).filter (!isTabOrNewline ·))).elim
      .failure .url := by
  rw [parse, prepare_start, Scheme.start, List.append_assoc, List.cons_append, splitScheme_name]
  dsimp only
  rw [ofName_name]
  rfl

theorem parseAuthority_append (hne : authority ≠ []) (hauthority : ∀ c ∈ authority, isEnd c = false)
    (htail : ∀ c ∈ tail.head?, isEnd c = true) :
    parseAuthority idna s (authority ++ tail) =
      parseParts idna s authority (tail.takeWhile fun c => c ≠ '?' ∧ c ≠ '#') := by
  have hslashes : (authority ++ tail).dropWhile isSlash = authority ++ tail := by
    obtain ⟨c, cs, rfl⟩ := List.exists_cons_of_ne_nil hne
    have hc := hauthority c List.mem_cons_self
    rw [List.cons_append]
    refine List.dropWhile_cons_of_neg fun hslash => ?_
    rw [isEnd, hslash] at hc
    cases hc
  have hall : ∀ c ∈ authority, (!isEnd c) = true := fun c hc => by rw [hauthority c hc]; rfl
  have hstop : ∀ c ∈ tail.head?, (!isEnd c) = false := fun c hc => by rw [htail c hc]; rfl
  rw [parseAuthority, hslashes, takeWhile_cut hall hstop, dropWhile_cut hall hstop]

theorem parseParts_plain (hat : '@' ∉ authority) : parseParts idna s authority tail =
    match parseHost idna (splitPort false authority).1, parsePort s (splitPort false authority).2 with
    | some h, some p => some ⟨s, [], [], h, p, walk [] (tail.tail.splitOnP isSlash)⟩
    | _, _ => none := by
  have hall : ∀ c ∈ authority.reverse, decide (c ≠ '@') = true :=
    fun c hc => decide_eq_true fun he => hat (he ▸ List.mem_reverse.mp hc)
  rw [parseParts, List.takeWhile_eq_self_iff.mpr hall, List.dropWhile_eq_nil_iff.mpr hall,
    List.reverse_reverse]
  rfl

/-! The port -/

def portTail : Option (List Char) → List Char
  | none => []
  | some ds => ':' :: ds

theorem splitPort_plain {host : List Char} (h : ∀ c ∈ host, c ≠ ':' ∧ c ≠ '[')
    (port : Option (List Char)) : splitPort false (host ++ portTail port) = (host, port) := by
  induction host with
  | nil => cases port <;> rfl
  | cons c cs ih =>
    obtain ⟨hcolon, hopen⟩ := h c List.mem_cons_self
    rw [List.cons_append, splitPort, if_neg fun hc => hcolon hc.1, if_neg hopen, ite_self,
      ih fun d hd => h d (List.mem_cons_of_mem c hd)]

theorem splitPort_inside {inner : List Char} (h : ']' ∉ inner) (rest : List Char) :
    splitPort true (inner ++ ']' :: rest) =
      (inner ++ ']' :: (splitPort false rest).1, (splitPort false rest).2) := by
  induction inner with
  | nil => rfl
  | cons c cs ih =>
    rw [List.mem_cons, not_or] at h
    rw [List.cons_append, splitPort, if_neg (by simp), if_neg (Ne.symm h.1), ite_self, ih h.2]
    rfl

/-! A host as it is written -/

/-- A letter that neither ends an authority nor begins a port. -/
structure Plain (c : Char) : Prop where
  inside : isEnd c = false
  visible : isBlank c = false
  noAt : c ≠ '@'
  noColon : c ≠ ':'
  noOpening : c ≠ '['

theorem plain_letter {c : Char} (h : isForbidden c = false) : Plain c := by
  simp only [isForbidden, Bool.or_eq_false_iff, decide_eq_false_iff_not, List.mem_cons, not_or] at h
  constructor <;> simp [isEnd, isSlash, isBlank, h]

theorem no_tab {c : Char} (h : isBlank c = false) : isTabOrNewline c = false := by
  refine decide_eq_false fun hm => ?_
  have hall : ['\t', '\n', '\r'].all isBlank = true := by decide
  rw [List.all_eq_true.mp hall c hm] at h
  cases h

/-- Letters of a host and of a port. -/
structure Kept (c : Char) : Prop where
  inside : isEnd c = false
  visible : isBlank c = false
  noAt : c ≠ '@'
  ascii : isAscii c = true

theorem Plain.kept {c : Char} (h : Plain c) (hascii : isAscii c = true) : Kept c :=
  ⟨h.inside, h.visible, h.noAt, hascii⟩

theorem hostname_kept {h : Host} (hv : h.Valid idna) : ∀ c ∈ h.serialize, Kept c := by
  intro c hc
  obtain ⟨hascii, hc⟩ := serialize_letters hv c hc
  rcases hc with hc | rfl | rfl | rfl
  · exact (plain_letter hc).kept hascii
  all_goals exact ⟨by decide, by decide, by decide, hascii⟩

theorem portSuffix_eq (port : Option Nat) : portSuffix port = portTail (port.map decimal) := by
  cases port <;> rfl

theorem portSuffix_kept (port : Option Nat) : ∀ c ∈ portSuffix port, Kept c := by
  intro c hc
  cases port with
  | none => cases hc
  | some n =>
    rcases List.mem_cons.mp hc with rfl | hc
    · exact ⟨by decide, by decide, by decide, by decide⟩
    · obtain ⟨hascii, hforbidden, -⟩ := digit_plain (decimal_digits c hc)
      exact (plain_letter hforbidden).kept hascii

theorem splitPort_host {h : Host} (hv : h.Valid idna) (port : Option (List Char)) :
    splitPort false (h.serialize ++ portTail port) = (h.serialize, port) := by
  cases h with
  | domain name =>
    refine splitPort_plain (fun c hc => ?_) port
    have hp := plain_letter (hv.2.2.1 c hc)
    exact ⟨hp.noColon, hp.noOpening⟩
  | ipv4 n =>
    refine splitPort_plain (fun c hc => ?_) port
    have hp := plain_letter (serializeIpv4_plain n c hc).2.1
    exact ⟨hp.noColon, hp.noOpening⟩
  | ipv6 pieces =>
    have hclose : ']' ∉ serializeIpv6 pieces := by
      intro hm
      have hhex : ∀ d < 16, hexDigit d ≠ ']' := by decide
      rcases serializeIpv6_letters pieces _ hm with ⟨d, hd, he⟩ | he
      · exact hhex d hd he
      · exact absurd he (by decide)
    have hrest : splitPort false ([] ++ portTail port) = ([], port) := splitPort_plain (by simp) port
    have hinside := splitPort_inside hclose (portTail port)
    rw [List.nil_append] at hrest
    rw [hrest] at hinside
    rw [Host.serialize, List.cons_append, List.append_assoc, List.singleton_append, splitPort,
      if_neg (by decide), if_pos rfl, hinside]

theorem parsePort_decimal {port : Option Nat} (h : ∀ p ∈ port, p ≤ 65535 ∧ p ≠ s.defaultPort) :
    parsePort s (port.map decimal) = some port := by
  cases port with
  | none => rfl
  | some n =>
    obtain ⟨hle, hdefault⟩ := h n rfl
    have hvalue : value 10 (decimal n) = n := (value_digits decimal_digits).trans (natOf_decimal n)
    have hall : (decimal n).all Char.isDigit = true := List.all_eq_true.mpr fun c hc => decimal_digits c hc
    rw [Option.map_some, parsePort, hvalue, if_neg, if_neg]
    · exact fun h => h.elim (decimal_ne_nil n) hdefault
    · rw [hall]
      exact fun h => h.elim Bool.noConfusion hle.not_gt

/-! The path -/

theorem clean_letter {seg : List Char} (h : Clean seg) :
    ∀ c ∈ seg, isEnd c = false ∧ isBlank c = false ∧ isAscii c = true := by
  intro c hc
  obtain ⟨hset, hslash⟩ := h.1 c hc
  simp only [pathSet, Bool.or_eq_false_iff, decide_eq_false_iff_not, List.mem_cons, not_or] at hset
  have hlt : c.toNat < 128 := by omega
  exact ⟨by simp [isEnd, hslash, hset], hset.1.1, decide_eq_true hlt⟩

theorem mem_joinPath {segs : List (List Char)} (h : ∀ seg ∈ segs, Clean seg) :
    ∀ c ∈ joinPath segs, c ≠ '?' ∧ c ≠ '#' ∧ isBlank c = false ∧ isAscii c = true := by
  intro c hc
  obtain ⟨seg, hseg, hc⟩ := List.mem_flatMap.mp hc
  rcases List.mem_cons.mp hc with rfl | hc
  · decide
  · obtain ⟨hend, hplain⟩ := clean_letter (h seg hseg) c hc
    rw [isEnd, Bool.or_eq_false_iff, Bool.or_eq_false_iff] at hend
    exact ⟨of_decide_eq_false hend.1.2, of_decide_eq_false hend.2, hplain⟩

theorem splitOnP_joinPath {seg : List Char} {segs : List (List Char)}
    (h : ∀ t ∈ seg :: segs, Clean t) :
    (seg ++ joinPath segs).splitOnP isSlash = seg :: segs := by
  have hseg : ∀ c ∈ seg, isSlash c = false := fun c hc => ((h seg List.mem_cons_self).1 c hc).2
  induction segs generalizing seg with
  | nil => rw [joinPath, List.flatMap_nil, List.append_nil, List.splitOnP_eq_singleton hseg]
  | cons t ts ih =>
    have ht : ∀ u ∈ t :: ts, Clean u := fun u hu => h u (List.mem_cons_of_mem seg hu)
    rw [joinPath, List.flatMap_cons, List.cons_append,
      List.splitOnP_append_cons_of_forall_mem hseg _ (by decide)]
    exact congrArg (seg :: ·) (ih ht fun c hc => ((ht t List.mem_cons_self).1 c hc).2)

/-- The path of a URL is never without a segment. -/
def rooted (segs : List (List Char)) : List (List Char) := if segs = [] then [[]] else segs

theorem walk_joinPath {segs : List (List Char)} (h : ∀ seg ∈ segs, Clean seg) :
    walk [] ((joinPath segs).tail.splitOnP isSlash) = rooted segs := by
  cases segs with
  | nil => rfl
  | cons seg rest =>
    have htail : (joinPath (seg :: rest)).tail = seg ++ joinPath rest := rfl
    rw [htail, splitOnP_joinPath h, walk_append h, List.nil_append, rooted,
      if_neg (List.cons_ne_nil seg rest)]

/-! Reading back -/

theorem authority_kept {u : Address} (hu : u.Valid idna) : ∀ c ∈ u.authority, Kept c := by
  intro c hc
  exact (List.mem_append.mp hc).elim (hostname_kept hu.host c) (portSuffix_kept u.port c)

theorem hostname_ne_nil {h : Host} (hv : h.Valid idna) : h.serialize ≠ [] := by
  cases h with
  | domain name => exact hv.2.1
  | ipv4 n => exact serializeIpv4_ne_nil n
  | ipv6 pieces => exact List.cons_ne_nil _ _

/-- A URL without its user and with clean segments for a path. -/
theorem parse_address {u : Address} (hu : u.Valid idna) {segs : List (List Char)}
    (hsegs : ∀ seg ∈ segs, Clean seg) :
    parse idna other (u.scheme.start ++ (u.authority ++ joinPath segs)) =
      .url { u with username := [], password := [], path := rooted segs } := by
  have hblank : ∀ c ∈ u.authority ++ joinPath segs, isBlank c = false := by
    intro c hc
    exact (List.mem_append.mp hc).elim (fun hc => (authority_kept hu c hc).visible)
      fun hc => (mem_joinPath hsegs c hc).2.2.1
  have hfilter : (u.authority ++ joinPath segs).filter (!isTabOrNewline ·) =
      u.authority ++ joinPath segs := by
    refine List.filter_eq_self.mpr fun c hc => ?_
    rw [no_tab (hblank c hc)]
    rfl
  have hat : '@' ∉ u.authority := fun hm => (authority_kept hu _ hm).noAt rfl
  have htail : ∀ c ∈ (joinPath segs).head?, isEnd c = true := by
    intro c hc
    cases segs with
    | nil => cases hc
    | cons seg rest => cases hc; decide
  have hpath : (joinPath segs).takeWhile (fun c => c ≠ '?' ∧ c ≠ '#') = joinPath segs :=
    List.takeWhile_eq_self_iff.mpr fun c hc =>
      decide_eq_true ⟨(mem_joinPath hsegs c hc).1, (mem_joinPath hsegs c hc).2.1⟩
  have hne : u.authority ≠ [] := fun h =>
    hostname_ne_nil hu.host (List.append_eq_nil_iff.mp h).1
  rw [parse_start, rdropWhile_none hblank, hfilter,
    parseAuthority_append hne (fun c hc => (authority_kept hu c hc).inside) htail, hpath,
    parseParts_plain hat, Address.authority, portSuffix_eq, Address.hostname, splitPort_host hu.host,
    parseHost_serialize hu.host, parsePort_decimal hu.port, walk_joinPath hsegs]
  rfl

/-! A host as it is typed -/

theorem percentEncode_ne_nil {set : Char → Bool} {cs : List Char} (h : cs ≠ []) :
    percentEncode set cs ≠ [] := by
  obtain ⟨c, cs, rfl⟩ := List.exists_cons_of_ne_nil h
  rw [percentEncode, List.flatMap_cons]
  intro hnil
  have hc := (List.append_eq_nil_iff.mp hnil).1
  split at hc
  · obtain ⟨b, bs, hb⟩ := List.exists_cons_of_ne_nil (String.utf8EncodeChar_ne_nil (c := c))
    rw [hb, List.flatMap_cons] at hc
    cases hc
  · cases hc

/-- A text before a colon and an `@` is a user. -/
theorem parseParts_user {host after : List Char} {u : Address} (hne : host ≠ [])
    (hhost : ∀ c ∈ host, Plain c) (hat : '@' ∈ after)
    (h : parseParts idna s (host ++ after) tail = some u) : u.username ≠ [] := by
  obtain ⟨rest, before, hsplit, hrest⟩ := List.eq_append_cons_of_mem (List.mem_reverse.mpr hat)
  have hno : ∀ c ∈ rest, decide (c ≠ '@') = true :=
    fun c hc => decide_eq_true fun he => hrest (he ▸ hc)
  have hdrop : (host ++ after).reverse.dropWhile (· ≠ '@') = '@' :: (before ++ host.reverse) := by
    rw [List.reverse_append, hsplit, List.append_assoc, List.cons_append, dropWhile_cut hno]
    rintro c ⟨⟩
    rfl
  have huser : (host ++ before.reverse).takeWhile (· ≠ ':') =
      host ++ before.reverse.takeWhile (· ≠ ':') :=
    List.takeWhile_append_of_pos fun c hc => decide_eq_true (hhost c hc).noColon
  unfold parseParts at h
  rw [hdrop] at h
  dsimp only at h
  split at h
  · cases h
    rw [List.drop_succ_cons, List.drop_zero, List.reverse_append, List.reverse_reverse, huser]
    exact percentEncode_ne_nil fun hnil => hne (List.append_eq_nil_iff.mp hnil).1
  · cases h

theorem isEnd_blank {c : Char} (h : c = ':' ∨ isEnd c = true) : isBlank c = false := by
  rcases h with rfl | h
  · decide
  · simp only [isEnd, isSlash, Bool.or_eq_true, decide_eq_true_eq] at h
    rcases h with ((rfl | rfl) | rfl) | rfl <;> decide

theorem prepared_host {host after : List Char} (hne : host ≠ [])
    (hhost : ∀ c ∈ host, isBlank c = false) (hafter : ∀ c ∈ after.head?, c = ':' ∨ isEnd c = true) :
    ∃ rest, ((host ++ after).rdropWhile isBlank).filter (!isTabOrNewline ·) = host ++ rest ∧
      ∀ c ∈ rest.head?, c = ':' ∨ isEnd c = true := by
  have hkeep : host.filter (!isTabOrNewline ·) = host := by
    refine List.filter_eq_self.mpr fun c hc => ?_
    rw [no_tab (hhost c hc)]
    rfl
  have hdrop : (host ++ after).rdropWhile isBlank = host ++ after.rdropWhile isBlank := by
    obtain ⟨xs, x, hx⟩ := (List.eq_nil_or_concat host).resolve_left hne
    rw [List.concat_eq_append] at hx
    rw [hx]
    exact rdropWhile_append (hhost x (by rw [hx]; simp))
  refine ⟨(after.rdropWhile isBlank).filter (!isTabOrNewline ·), ?_, ?_⟩
  · rw [hdrop, List.filter_append, hkeep]
  · cases after with
    | nil =>
      rw [List.rdropWhile_nil]
      rintro c ⟨⟩
    | cons c cs =>
      have hc := isEnd_blank (hafter c rfl)
      have hcons : (c :: cs).rdropWhile isBlank = c :: cs.rdropWhile isBlank :=
        @rdropWhile_append Char isBlank [] cs c hc
      rw [hcons, List.filter_cons_of_pos (by rw [no_tab hc]; rfl)]
      rintro d ⟨⟩
      exact hafter c rfl

/-- A host typed as hosts are spelled, before anything else: what is read is that host. -/
theorem parse_canonical {host after : List Char} {u : Address} (hhost : Canonical (lower host))
    (hafter : ∀ c ∈ after.head?, c = ':' ∨ isEnd c = true)
    (hu : parse idna other (s.start ++ (host ++ after)) = .url u) (huser : u.username = []) :
    u.hostname = lower host := by
  have hne : host ≠ [] := fun h => hhost.1 (by rw [h]; rfl)
  have hplain : ∀ c ∈ host, Plain c := fun c hc =>
    plain_letter ((mem_lower isForbidden_toLower).mp (fun c hc => (hhost.2.1 c hc).2) c hc)
  obtain ⟨rest, hrest, hhead⟩ := prepared_host hne (fun c hc => (hplain c hc).visible) hafter
  obtain ⟨port, hport⟩ : ∃ port, rest.takeWhile (!isEnd ·) = portTail port := by
    cases rest with
    | nil => exact ⟨none, rfl⟩
    | cons c cs =>
      rcases hhead c rfl with rfl | hc
      · exact ⟨some (cs.takeWhile (!isEnd ·)), rfl⟩
      · exact ⟨none, List.takeWhile_cons_of_neg (by simp [hc])⟩
  have hsplit : host ++ rest = (host ++ portTail port) ++ rest.dropWhile (!isEnd ·) := by
    rw [← hport, List.append_assoc, List.takeWhile_append_dropWhile]
  have hall : ∀ c ∈ host ++ portTail port, isEnd c = false := by
    intro c hc
    rcases List.mem_append.mp hc with hc | hc
    · exact (hplain c hc).inside
    · rw [← hport] at hc
      simpa using List.all_eq_true.mp List.all_takeWhile c hc
  have hstop : ∀ c ∈ (rest.dropWhile (!isEnd ·)).head?, isEnd c = true := by
    intro c hc
    have hnot := List.head?_dropWhile_not (!isEnd ·) rest
    rw [Option.mem_def.mp hc] at hnot
    simpa using hnot
  rw [parse_start, hrest, hsplit, parseAuthority_append
    (fun h => hne (List.append_eq_nil_iff.mp h).1) hall hstop] at hu
  have hparts := elim_url hu
  have hat : '@' ∉ host ++ portTail port := by
    intro hm
    rcases List.mem_append.mp hm with hm | hm
    · exact (hplain _ hm).noAt rfl
    · exact parseParts_user hne hplain hm hparts huser
  rw [parseParts_plain hat,
    splitPort_plain fun c hc => ⟨(hplain c hc).noColon, (hplain c hc).noOpening⟩] at hparts
  split at hparts
  · rename_i hhost' _
    cases hparts
    exact parseHost_canonical hhost hhost'
  · cases hparts

end parser

end Lattix.Lib.Url
