import Lattix.Lib.References
import Lattix.Client.Markup

namespace Lattix.Client.Markup
open Lib.Json Lib.Html Server Lattix.Crypto

/-! What a message should be shown as -/

/-- What `URL_RE` describes, wherever it is. -/
def IsUrl (u : Text) : Prop :=
  ∃ p v, u = p ++ v ∧ p ∈ [key "https://", key "http://"] ∧ v.all urlLetter ∧
    2 ≤ (v.map units).sum ∧ v.getLast?.any urlEnd

/-- An address in the text, not inside a word and as long as there can be one. -/
def MaximalUrl (s u : Text) : Prop :=
  ∃ pre post, s = pre ++ u ++ post ∧ pre.getLast?.any isWord = false ∧ IsUrl u ∧
    ∀ w, IsUrl w → w <+: u ++ post → w <+: u

structure Faithful (N : Names) (s : Text) : Prop where
  content : content (tokenize N.references (messageHtml s)) = s
  links : ∀ l ∈ links (tokenize N.references (messageHtml s)), l.1 = l.2 ∧ MaximalUrl s l.2

/-! When it is -/

def isBlank : CodePoint → Bool
  | .scalar c => isWhite c
  | _ => false

/-- A letter that `escapeHtml` replaces. -/
def escaped (c : CodePoint) : Bool := [ampersand, opening, closing, quote, apostrophe].contains c

/-- The punctuation that an address gives back once it is escaped. -/
def trailing (c : CodePoint) : Bool := (key ".,:;)]").contains c

/-- What a text starts with up to white space holds no `<` and, its closing
punctuation left aside, does not end with a letter that is escaped. -/
def apart (s : Text) : Bool :=
  let r := s.takeWhile (!isBlank ·)
  !r.contains opening && !(r.reverse.dropWhile trailing).head?.any escaped

/-- Every address in the text stands apart. -/
def spaced : Option CodePoint → Text → Bool
  | _, [] => true
  | last, c :: s => (last.any isWord || (scheme (c :: s)).isNone || apart (c :: s)) && spaced (some c) s

/-! Escaped text -/

section escaping
variable {s t u v : Text} {c : CodePoint}

theorem escapeHtml_append (s t : Text) : escapeHtml (s ++ t) = escapeHtml s ++ escapeHtml t :=
  List.flatMap_append

theorem escapeHtml_cons (c : CodePoint) (s : Text) :
    escapeHtml (c :: s) = escapeHtml [c] ++ escapeHtml s := escapeHtml_append [c] s

/-- What an escaped letter is replaced by, without its ampersand and its `;`. -/
def refName (c : CodePoint) : Text :=
  if c = ampersand then key "amp"
  else if c = opening then key "lt"
  else if c = closing then key "gt"
  else if c = quote then key "quot"
  else key "#39"

theorem escaped_cases (h : escaped c = true) :
    c = ampersand ∨ c = opening ∨ c = closing ∨ c = quote ∨ c = apostrophe := by
  simpa [escaped] using h

theorem escapeHtml_escaped (h : escaped c = true) :
    escapeHtml [c] = ampersand :: (refName c ++ [semicolon]) := by
  rcases escaped_cases h with rfl | rfl | rfl | rfl | rfl <;> decide

theorem escapeHtml_plain (h : escaped c = false) : escapeHtml [c] = [c] := by
  have hne {d : CodePoint} (hd : escaped d = true) : c ≠ d := by
    rintro rfl
    rw [h] at hd
    cases hd
  rw [escapeHtml, List.flatMap_singleton, if_neg (hne rfl), if_neg (hne rfl), if_neg (hne rfl),
    if_neg (hne rfl), if_neg (hne rfl)]

theorem escapeHtml_ne (c : CodePoint) : escapeHtml [c] ≠ [] := by
  rcases Bool.eq_false_or_eq_true (escaped c) with he | he
  · rw [escapeHtml_escaped he]
    exact List.cons_ne_nil _ _
  · rw [escapeHtml_plain he]
    exact List.cons_ne_nil _ _

theorem refName_letters : ∀ d ∈ refName c, d ≠ ampersand ∧ urlEnd d = true := by
  have hkey (k : String) (hk : (key k).all (fun d => d ≠ ampersand && urlEnd d) = true) :
      ∀ d ∈ key k, d ≠ ampersand ∧ urlEnd d = true := fun d hd => by
    simpa using List.all_eq_true.mp hk d hd
  unfold refName
  split_ifs <;> exact hkey _ (by decide)

theorem urlLetter_of (ho : c ≠ opening) (hb : isBlank c = false) : urlLetter c = true := by
  cases c with
  | scalar d =>
    have hd : d ≠ '<' := fun hd => ho (congrArg CodePoint.scalar hd)
    simpa [urlLetter, hd, isBlank] using hb
  | _ => rfl

theorem urlLetter_plain (h : escaped c = false) (hb : isBlank c = false) : urlLetter c = true := by
  refine urlLetter_of ?_ hb
  rintro rfl
  revert h
  decide

theorem escapeHtml_urlLetter (hb : isBlank c = false) : ∀ d ∈ escapeHtml [c], urlLetter d = true := by
  intro d hd
  rcases Bool.eq_false_or_eq_true (escaped c) with he | he
  · rw [escapeHtml_escaped he] at hd
    rcases List.mem_cons.mp hd with rfl | hd
    · decide
    · rcases List.mem_append.mp hd with hd | hd
      · exact (Bool.and_eq_true_iff.mp (refName_letters d hd).2).1
      · rw [List.mem_singleton.mp hd]
        decide
  · rw [escapeHtml_plain he] at hd
    rw [List.mem_singleton.mp hd]
    exact urlLetter_plain he hb

theorem blank_plain (hb : isBlank c = true) : escaped c = false ∧ urlLetter c = false := by
  constructor
  · rw [Bool.eq_false_iff]
    intro he
    rcases escaped_cases he with rfl | rfl | rfl | rfl | rfl <;> revert hb <;> decide
  · cases c with
    | scalar d => simpa [urlLetter, isBlank] using fun h => absurd hb (by simp [isBlank, h])
    | _ => cases hb

theorem run_escaped (s : Text) :
    (escapeHtml s).takeWhile urlLetter = escapeHtml (s.takeWhile (!isBlank ·)) := by
  induction s with
  | nil => rfl
  | cons c s ih =>
    rw [escapeHtml_cons]
    rcases Bool.eq_false_or_eq_true (isBlank c) with hb | hb
    · rw [escapeHtml_plain (blank_plain hb).1, List.singleton_append,
        List.takeWhile_cons_of_neg (by simp [(blank_plain hb).2]),
        List.takeWhile_cons_of_neg (by simp [hb])]
      rfl
    · rw [List.takeWhile_append_of_pos (escapeHtml_urlLetter hb), ih,
        List.takeWhile_cons_of_pos (by simp [hb]), escapeHtml_cons c (s.takeWhile _)]

theorem scheme_eq {p : Text} (h : scheme s = some p) : p = key "https://" ∨ p = key "http://" := by
  simpa using List.mem_of_find?_eq_some h

theorem prefix_escaped (hu : u.all fun c => !escaped c) :
    u.isPrefixOf (escapeHtml s) = u.isPrefixOf s := by
  induction u generalizing s with
  | nil => simp
  | cons d u ih =>
    obtain ⟨hd, hu⟩ := Bool.and_eq_true_iff.mp hu
    cases s with
    | nil => rfl
    | cons c s =>
      rw [escapeHtml_cons]
      rcases Bool.eq_false_or_eq_true (escaped c) with he | he
      · have hdc : d ≠ c := by
          rintro rfl
          simp [he] at hd
        have hda : d ≠ ampersand := by
          rintro rfl
          revert hd
          decide
        rw [escapeHtml_escaped he, List.cons_append, List.isPrefixOf, List.isPrefixOf,
          beq_eq_false_iff_ne.mpr hda, beq_eq_false_iff_ne.mpr hdc, Bool.false_and, Bool.false_and]
      · rw [escapeHtml_plain he, List.singleton_append, List.isPrefixOf, List.isPrefixOf, ih hu]

theorem scheme_escaped (s : Text) : scheme (escapeHtml s) = scheme s := by
  simp only [scheme, List.find?_cons, List.find?_nil,
    prefix_escaped (u := key "https://") (by decide),
    prefix_escaped (u := key "http://") (by decide)]

/-- A text without its closing punctuation. -/
def stem (r : Text) : Text := (r.reverse.dropWhile trailing).reverse

theorem stem_spec (r : Text) : ∃ q, r = stem r ++ q ∧ q.all trailing := by
  refine ⟨(r.reverse.takeWhile trailing).reverse, ?_, ?_⟩
  · rw [stem, ← List.reverse_append, List.takeWhile_append_dropWhile, List.reverse_reverse]
  · rw [List.all_reverse]
    exact List.all_takeWhile

/-- What a match takes of an escaped address: if that ends with an escaped letter,
the match ends before the letter's `;`. -/
def kept (v : Text) : Text :=
  if v.getLast?.any escaped then (escapeHtml v).dropLast else escapeHtml v

theorem trailing_letter (h : trailing c = true) :
    escaped c = false ∧ urlEnd c = false ∧ isBlank c = false := by
  have hmem : c ∈ key ".,:;)]" := List.contains_iff_mem.mp h
  have hall : (key ".,:;)]").all (fun c => !escaped c && !urlEnd c && !isBlank c) = true := by decide
  simpa [and_assoc] using List.all_eq_true.mp hall c hmem

theorem urlEnd_plain (he : escaped c = false) (hb : isBlank c = false) (ht : trailing c = false) :
    urlEnd c = true := by
  rw [urlEnd, urlLetter_plain he hb, Bool.true_and, Bool.not_eq_true', Bool.eq_false_iff]
  intro hc
  have hmem : c ∈ key ".,:;\"')]" := List.contains_iff_mem.mp hc
  have hall : (key ".,:;\"')]").all (fun c => escaped c || trailing c) = true := by decide
  have := List.all_eq_true.mp hall c hmem
  simp [he, ht] at this

theorem escapeHtml_all (h : u.all fun c => !escaped c) : escapeHtml u = u := by
  induction u with
  | nil => rfl
  | cons c u ih =>
    obtain ⟨hc, hu⟩ := Bool.and_eq_true_iff.mp h
    rw [escapeHtml_cons, escapeHtml_plain (by simpa using hc), ih hu, List.singleton_append]

theorem getLast_stem (h : (stem t).getLast? = some c) : trailing c = false := by
  rw [stem, List.getLast?_reverse] at h
  exact Bool.eq_false_iff.mpr fun ht => by
    have := List.head?_dropWhile_not trailing t.reverse
    rw [h] at this
    simp [ht] at this

/-- The trailing punctuation of a match, taken off an escaped run. -/
theorem trim_escaped (hr : t.all (!isBlank ·)) :
    ((escapeHtml t).reverse.dropWhile (!urlEnd ·)).reverse = kept (stem t) := by
  obtain ⟨q, ht, hq⟩ := stem_spec t
  have hqe : escapeHtml q = q := escapeHtml_all (List.all_eq_true.mpr fun c hc => by
    simp [(trailing_letter (List.all_eq_true.mp hq c hc)).1])
  have hdrop : (escapeHtml t).reverse.dropWhile (!urlEnd ·) =
      (escapeHtml (stem t)).reverse.dropWhile (!urlEnd ·) := by
    nth_rewrite 1 [ht]
    rw [escapeHtml_append, hqe, List.reverse_append, List.dropWhile_append_of_pos]
    intro c hc
    simp [(trailing_letter (List.all_eq_true.mp hq c (List.mem_reverse.mp hc))).2.1]
  rw [hdrop]
  rcases List.eq_nil_or_concat (stem t) with hv | ⟨w, c, hv⟩
  · rw [hv]
    rfl
  · have htc : trailing c = false := getLast_stem (t := t) (by rw [hv]; simp)
    have hbc : isBlank c = false := by
      have hmem : c ∈ t := by
        rw [ht, hv]
        simp
      simpa using List.all_eq_true.mp hr c hmem
    rw [hv, kept, List.concat_eq_append, escapeHtml_append]
    rcases Bool.eq_false_or_eq_true (escaped c) with he | he
    · obtain ⟨k, d, hk⟩ : ∃ k d, refName c = k ++ [d] := by
        rcases escaped_cases he with rfl | rfl | rfl | rfl | rfl
        · exact ⟨key "am", _, rfl⟩
        · exact ⟨key "l", _, rfl⟩
        · exact ⟨key "g", _, rfl⟩
        · exact ⟨key "quo", _, rfl⟩
        · exact ⟨key "#3", _, rfl⟩
      have hd : urlEnd d = true := (refName_letters (c := c) d (by simp [hk])).2
      have hs : urlEnd semicolon = false := by decide
      have hesc : escapeHtml w ++ escapeHtml [c] =
          escapeHtml w ++ ampersand :: (k ++ [d]) ++ [semicolon] := by
        simp [escapeHtml_escaped he, hk]
      rw [hesc, if_pos (by simpa using he), List.dropLast_concat, List.reverse_append,
        List.reverse_singleton, List.singleton_append, List.dropWhile_cons_of_pos (by simp [hs])]
      simp [hd]
    · have hc := urlEnd_plain he hbc htc
      simp [escapeHtml_plain he, he, hc]

/-- The address a match on the escaped text is about: the scheme and what goes with
it, without closing punctuation. -/
def address (s : Text) : Option (Text × Text) :=
  (scheme s).map fun p => (p, stem ((s.drop p.length).takeWhile (!isBlank ·)))

theorem urlAt_escaped (s : Text) : urlAt (escapeHtml s) = (address s).bind fun (p, v) =>
    if 2 ≤ ((kept v).map units).sum then some (p ++ kept v) else none := by
  rw [urlAt, scheme_escaped, address]
  cases hp : scheme s with
  | none => rfl
  | some p =>
    obtain ⟨-, ⟨t, rfl⟩, -⟩ := scheme_some hp
    have hplain : escapeHtml p = p := by
      rcases scheme_eq hp with rfl | rfl <;> exact escapeHtml_all (by decide)
    rw [escapeHtml_append, hplain]
    simp only [Option.map_some, Option.bind_eq_bind, Option.bind_some, List.drop_left, run_escaped,
      trim_escaped List.all_takeWhile]

/-- What the address at the start of a text leaves of it. -/
theorem address_some {p : Text} (h : address s = some (p, v)) : ∃ q r, s = p ++ (v ++ (q ++ r)) ∧
    q.all trailing ∧ v.all (!isBlank ·) ∧ (∀ c, v.getLast? = some c → trailing c = false) ∧
    (∀ c, r.head? = some c → isBlank c = true) ∧ scheme s = some p := by
  obtain ⟨p', hp, he⟩ := Option.map_eq_some_iff.mp h
  obtain ⟨rfl, rfl⟩ := Prod.mk.inj he
  obtain ⟨-, ⟨t, rfl⟩, -⟩ := scheme_some hp
  rw [List.drop_left]
  obtain ⟨q, hq, hall⟩ := stem_spec (t.takeWhile (!isBlank ·))
  refine ⟨q, t.dropWhile (!isBlank ·), ?_, hall, ?_, fun c => getLast_stem, fun c hc => ?_, hp⟩
  · rw [← List.append_assoc (stem _), ← hq, List.takeWhile_append_dropWhile]
  · have hrun : (t.takeWhile (!isBlank ·)).all (!isBlank ·) := List.all_takeWhile
    rw [hq, List.all_append, Bool.and_eq_true] at hrun
    exact hrun.1
  · have := List.head?_dropWhile_not (!isBlank ·) t
    rw [hc] at this
    simpa using this

end escaping

/-! The links a message gets, read off the message itself -/

section linking
variable {s t u v : Text} {c : CodePoint} {last last' : Option CodePoint}

theorem linkify_congr (h : last.any isWord = last'.any isWord) (s : Text) :
    linkify last 0 s = linkify last' 0 s := by
  cases s with
  | nil => rfl
  | cons c s => rw [linkify, linkify, h]

theorem linkify_over (last : Option CodePoint) (u : Text) :
    linkify last u.length (u ++ s) = linkify (u.getLast?.or last) 0 s := by
  induction u generalizing last with
  | nil => rfl
  | cons c u ih =>
    refine (ih (some c)).trans ?_
    cases hu : u.getLast? <;> simp [List.getLast?_cons, hu]

/-- Only a letter `h` begins a match. -/
theorem linkify_letter (hc : c ≠ .scalar 'h' ∨ last.any isWord = true ∨ urlAt (c :: s) = none) :
    linkify last 0 (c :: s) = c :: linkify (some c) 0 s := by
  rw [linkify]
  split
  · rename_i u hu
    exfalso
    split_ifs at hu with hw
    rcases hc with hc | hc | hc
    · obtain ⟨hweb, ⟨r, hr⟩, -⟩ := urlAt_some hu
      obtain ⟨w, rfl⟩ := hweb.cons
      exact hc (List.cons.inj hr).1.symm
    · exact hw hc
    · rw [hc] at hu
      cases hu
  · rfl

theorem linkify_letters (hu : ∀ c ∈ u, c ≠ .scalar 'h') (last : Option CodePoint) :
    linkify last 0 (u ++ s) = u ++ linkify (u.getLast?.or last) 0 s := by
  induction u generalizing last with
  | nil => rfl
  | cons c u ih =>
    rw [List.cons_append, linkify_letter (.inl (hu c List.mem_cons_self)),
      ih (fun d hd => hu d (.tail _ hd))]
    cases hl : u.getLast? <;> simp [List.getLast?_cons, hl]

theorem linkify_match (hl : last.any isWord = false) (hu : urlAt (u ++ s) = some u) :
    linkify last 0 (u ++ s) = anchor u ++ linkify u.getLast? 0 s := by
  obtain ⟨w, rfl⟩ := (urlAt_some hu).1.cons
  have hover := linkify_over (s := s) (some (.scalar 'h')) w
  rw [List.cons_append] at hu ⊢
  rw [linkify, hl]
  simp only [Bool.false_eq_true, if_false, hu, List.length_cons, Nat.add_sub_cancel, hover]
  cases hw : w.getLast? <;> simp [List.getLast?_cons, hw]

/-- A letter that stays a letter. -/
theorem linkify_escaped (h : last.any isWord = true ∨ urlAt (escapeHtml (c :: s)) = none) :
    linkify last 0 (escapeHtml (c :: s)) = escapeHtml [c] ++ linkify (some c) 0 (escapeHtml s) := by
  rw [escapeHtml_cons] at h ⊢
  rcases Bool.eq_false_or_eq_true (escaped c) with he | he
  · have hword : isWord c = false := by
      rcases escaped_cases he with rfl | rfl | rfl | rfl | rfl <;> decide
    have hne : ∀ d ∈ escapeHtml [c], d ≠ .scalar 'h' := by
      rcases escaped_cases he with rfl | rfl | rfl | rfl | rfl <;> decide
    have hend : (escapeHtml [c]).getLast? = some semicolon := by
      rw [escapeHtml_escaped he, ← List.cons_append, List.getLast?_concat]
    rw [linkify_letters hne, hend]
    refine congrArg (escapeHtml [c] ++ ·) (linkify_congr ?_ _)
    simp only [Option.some_or, Option.any_some, hword]
    decide
  · rw [escapeHtml_plain he, List.singleton_append] at h ⊢
    exact linkify_letter (.inr h)

def shown (w : Text) : Text := (w.map newline).filter (· ≠ nul)

/-- How the message `s` is put on the page, `last` before it: the text this shows
and the links. A match that ends inside a reference leaves its `;` behind. -/
inductive Told : Option CodePoint → Text → Text → List (Text × Text) → Prop
  | nil {last : Option CodePoint} : Told last [] [] []
  | letter {last : Option CodePoint} {c : CodePoint} {s d : Text} {ls : List (Text × Text)}
    (h : last.any isWord = true ∨ urlAt (escapeHtml (c :: s)) = none) :
    Told (some c) s d ls → Told last (c :: s) (shown [c] ++ d) ls
  | link {last : Option CodePoint} {p v t d : Text} {ls : List (Text × Text)}
    (hl : last.any isWord = false) (ha : address (p ++ (v ++ t)) = some (p, v))
    (hu : 2 ≤ ((kept v).map units).sum) (he : v.getLast?.any escaped = false) :
    Told v.getLast? t d ls → Told last (p ++ (v ++ t)) (shown (p ++ v) ++ d)
      (((p ++ v).map scrubbed, shown (p ++ v)) :: ls)
  | cut {last : Option CodePoint} {p v t d : Text} {ls : List (Text × Text)}
    (hl : last.any isWord = false) (ha : address (p ++ (v ++ t)) = some (p, v))
    (he : v.getLast?.any escaped = true) :
    Told v.getLast? t d ls → Told last (p ++ (v ++ t)) (shown (p ++ v) ++ semicolon :: d)
      (((p ++ v).map scrubbed, shown (p ++ v)) :: ls)

theorem units_length (u : Text) : u.length ≤ (u.map units).sum := by
  induction u with
  | nil => exact Nat.le_refl _
  | cons c u ih =>
    have hc : 1 ≤ units c := by
      cases c with
      | scalar d =>
        simp only [units]
        split <;> omega
      | _ => exact Nat.le_refl _
    rw [List.map_cons, List.sum_cons, List.length_cons]
    omega

theorem kept_whole (h : v.getLast?.any escaped = false) : kept v = escapeHtml v := if_neg (by simp [h])

theorem kept_cut (h : escaped c = true) (w : Text) :
    kept (w ++ [c]) = escapeHtml w ++ ampersand :: refName c := by
  rw [kept, if_pos (by simpa using h), escapeHtml_append, escapeHtml_escaped h, ← List.cons_append,
    ← List.append_assoc, List.dropLast_concat]

theorem ends_escaped (h : v.getLast?.any escaped = true) : ∃ w c, v = w ++ [c] ∧ escaped c = true := by
  rcases List.eq_nil_or_concat v with rfl | ⟨w, c, rfl⟩
  · cases h
  · rw [List.concat_eq_append] at h ⊢
    exact ⟨w, c, rfl, by simpa using h⟩

theorem cut_units (h : v.getLast?.any escaped = true) : 2 ≤ ((kept v).map units).sum := by
  obtain ⟨w, c, rfl, hc⟩ := ends_escaped h
  rw [kept_cut hc]
  refine Nat.le_trans ?_ (units_length _)
  have hn : 2 ≤ (refName c).length := by
    rcases escaped_cases hc with rfl | rfl | rfl | rfl | rfl <;> decide
  rw [List.length_append, List.length_cons]
  omega

/-- What is escaped after an address is, but for the `;` it may begin with. -/
theorem kept_append (p v t : Text) (hp : escapeHtml p = p) :
    escapeHtml (p ++ (v ++ t)) =
      p ++ kept v ++ if v.getLast?.any escaped then semicolon :: escapeHtml t else escapeHtml t := by
  rw [escapeHtml_append, hp, escapeHtml_append]
  split_ifs with h
  · obtain ⟨w, c, rfl, hc⟩ := ends_escaped h
    rw [kept_cut hc, escapeHtml_append, escapeHtml_escaped hc]
    simp
  · rw [kept_whole (by simpa using h), List.append_assoc]

/-! What the page makes of it -/

variable {N : Names}

/-- From text, whatever came before, `page` shows `d` and the links `ls`. -/
def Shows (N : Names) (page d : Text) (ls : List (Text × Text)) : Prop :=
  ∀ ts cs e, Stands N.references.inText cs e →
    ∃ xs, (feed ⟨ts, cs, .data⟩ page).finish = ts ++ xs ∧
      content (xs.map (Token.resolve N.references)) = e.filter (· ≠ nul) ++ d ∧
      links (xs.map (Token.resolve N.references)) = ls

theorem flush_text (cs : Text) :
    ∀ x ∈ (flush cs).map (Token.resolve N.references), ∃ t, x = .text t := by
  intro x hx
  obtain ⟨y, hy, rfl⟩ := List.mem_map.mp hx
  unfold flush at hy
  split at hy
  · cases hy
  · rw [List.mem_singleton.mp hy]
    exact ⟨_, rfl⟩

theorem Shows.nil : Shows N [] [] [] := by
  intro ts cs e hcs
  refine ⟨flush cs, rfl, ?_, ?_⟩
  · rw [content_text, hcs.resolved, List.append_nil]
  · rw [← List.append_nil (List.map _ _), links_text (flush_text cs)]
    rfl

/-- A piece of text. -/
theorem Shows.piece {q r e page d : Text} {ls : List (Text × Text)}
    (hq : ∀ ts cs, feed ⟨ts, cs, .data⟩ q = ⟨ts, cs ++ r, .data⟩)
    (he : Stands N.references.inText r e) (h : Shows N page d ls) :
    Shows N (q ++ page) (e.filter (· ≠ nul) ++ d) ls := by
  intro ts cs b hb
  obtain ⟨xs, hx, hc, hl⟩ := h ts (cs ++ r) (b ++ e) (hb.append he)
  refine ⟨xs, ?_, ?_, hl⟩
  · rw [feed_append, hq]
    exact hx
  · rw [hc, List.filter_append, List.append_assoc]

theorem Shows.tagged {page d e : Text} {w : List Token} {k ls : List (Text × Text)}
    {q : Text} (hq : ∀ ts cs, feed ⟨ts, cs, .data⟩ q = ⟨ts ++ flush cs ++ w, [], .data⟩)
    (hd : content (w.map (Token.resolve N.references)) = e)
    (hl : ∀ us, links (w.map (Token.resolve N.references) ++ us) = k ++ links us)
    (h : Shows N page d ls) : Shows N (q ++ page) (e ++ d) (k ++ ls) := by
  intro ts cs b hb
  obtain ⟨ys, hy, hc, hls⟩ := h (ts ++ flush cs ++ w) [] [] .nil
  refine ⟨flush cs ++ (w ++ ys), ?_, ?_, ?_⟩
  · rw [feed_append, hq, hy, List.append_assoc, List.append_assoc]
  · rw [List.map_append, List.map_append, content_append, content_append, content_text,
      hb.resolved, hd, hc]
    rfl
  · rw [List.map_append, List.map_append, links_text (flush_text cs), hl, hls]

theorem Shows.br {page d : Text} {ls : List (Text × Text)} (h : Shows N page d ls) :
    Shows N (lineFeed :: page) (lineFeed :: d) ls :=
  h.tagged (q := [lineFeed]) (k := []) (fun _ _ => feed_br) rfl fun _ => rfl

theorem Shows.link {page d e href : Text} {ls : List (Text × Text)} {u : Text} (hne : u ≠ [])
    (hall : u.all urlLetter) (hu : ∀ c ∈ u, c ≠ opening ∧ c ≠ quote)
    (he : resolve N.references.inText 0 u = e)
    (hh : resolve N.references.inValue 0 (u.map scrubbed) = href) (h : Shows N page d ls) :
    Shows N (anchor u ++ page) (e.filter (· ≠ nul) ++ d) ((href, e.filter (· ≠ nul)) :: ls) := by
  have ho : opening ∉ u := fun hm => (hu _ hm).1 rfl
  have hq : quote ∉ u := fun hm => (hu _ hm).2 rfl
  have hf : flush u = [.text u] := if_neg hne
  refine h.tagged (w := .tag (linkTag (u.map scrubbed)) :: [.text u, .tag linkEnd])
    (k := [(href, e.filter (· ≠ nul))]) (fun ts cs => ?_) ?_ fun us => ?_
  · rw [feed_anchor hall ho hq, hf]
    simp
  · rw [← he]
    exact List.append_nil _
  · rw [← he, ← hh]
    exact congrArg (fun d => (_, d) :: links us) (List.append_nil _)

theorem escaped_reference (N : Names) (inValue : Bool) (h : escaped c = true) (t : Text) :
    reference N inValue (refName c ++ semicolon :: t) = some ([c], (refName c).length + 1) ∧
      reference N inValue (refName c) = some ([c], (refName c).length) := by
  rcases escaped_cases h with rfl | rfl | rfl | rfl | rfl
  · exact ⟨named_closed N.amp.2 t, named_open N.amp.1⟩
  · exact ⟨named_closed N.lt.2 t, named_open N.lt.1⟩
  · exact ⟨named_closed N.gt.2 t, named_open N.gt.1⟩
  · exact ⟨named_closed N.quot.2 t, named_open N.quot.1⟩
  · exact ⟨rfl, rfl⟩

/-- A letter of the message, once its reference is read. -/
theorem stands_letter (N : Names) (inValue : Bool) (c : CodePoint) :
    Stands (reference N inValue) (escapeHtml [c]) [c] := by
  rcases Bool.eq_false_or_eq_true (escaped c) with he | he
  · rw [escapeHtml_escaped he]
    apply Stands.reference
    intro t
    rw [List.append_assoc, List.singleton_append, (escaped_reference N inValue he t).1,
      List.length_append, List.length_singleton]
  · rw [escapeHtml_plain he]
    apply Stands.letter
    rintro rfl
    revert he
    decide

theorem stands_escaped (N : Names) (inValue : Bool) (w : Text) :
    Stands (reference N inValue) (escapeHtml w) w := by
  induction w with
  | nil => exact .nil
  | cons c w ih =>
    rw [escapeHtml_cons]
    exact (stands_letter N inValue c).append ih

theorem resolve_kept (N : Names) (inValue : Bool) (v : Text) :
    resolve (reference N inValue) 0 (kept v) = v := by
  rcases Bool.eq_false_or_eq_true (v.getLast?.any escaped) with he | he
  · obtain ⟨w, c, rfl, hc⟩ := ends_escaped he
    rw [kept_cut hc]
    exact resolve_last (stands_escaped N inValue w) (escaped_reference N inValue hc []).2
  · rw [kept_whole he]
    exact (stands_escaped N inValue v).resolved

theorem escaped_scrubbed (c : CodePoint) : escaped (scrubbed c) = escaped c := by
  unfold scrubbed
  split
  · rename_i hc
    rw [hc]
    decide
  · rfl

theorem escapeHtml_scrubbed (w : Text) : (escapeHtml w).map scrubbed = escapeHtml (w.map scrubbed) := by
  induction w with
  | nil => rfl
  | cons c w ih =>
    rw [escapeHtml_cons, List.map_append, ih, List.map_cons, escapeHtml_cons (scrubbed c)]
    refine congrArg (· ++ _) ?_
    rcases Bool.eq_false_or_eq_true (escaped c) with he | he
    · rcases escaped_cases he with rfl | rfl | rfl | rfl | rfl <;> decide
    · rw [escapeHtml_plain he, escapeHtml_plain ((escaped_scrubbed c).trans he)]
      rfl

theorem kept_scrubbed (v : Text) : (kept v).map scrubbed = kept (v.map scrubbed) := by
  have hlast : (v.map scrubbed).getLast?.any escaped = v.getLast?.any escaped := by
    rw [List.getLast?_map, Option.any_map]
    exact congrArg (Option.any · _) (funext escaped_scrubbed)
  unfold kept
  rw [hlast]
  split
  · rw [List.map_dropLast, escapeHtml_scrubbed]
  · exact escapeHtml_scrubbed v

theorem append_kept {p : Text} (hp : escapeHtml p = p) (hv : v ≠ []) : p ++ kept v = kept (p ++ v) := by
  have hlast : (p ++ v).getLast? = v.getLast? := List.getLast?_append_of_ne_nil p hv
  unfold kept
  rw [hlast, escapeHtml_append, hp]
  split
  · rw [List.dropLast_append_of_ne_nil]
    intro he
    rcases List.exists_cons_of_ne_nil hv with ⟨c, w, rfl⟩
    rw [escapeHtml_cons] at he
    exact escapeHtml_ne c (List.append_eq_nil_iff.mp he).1
  · rfl

/-- A letter of the text on the page. -/
theorem Shows.letter {page d : Text} {ls : List (Text × Text)} (c : CodePoint)
    (h : Shows N page d ls) : Shows N (escapeHtml [c] ++ page) (shown [c] ++ d) ls := by
  by_cases hl : c = lineFeed
  · rw [hl]
    exact h.br
  · rcases Bool.eq_false_or_eq_true (escaped c) with he | he
    · have hn : newline c = c := by
        rcases escaped_cases he with rfl | rfl | rfl | rfl | rfl <;> decide
      have hf : lineFeed ∉ escapeHtml [c] ∧ carriageReturn ∉ escapeHtml [c] ∧
          opening ∉ escapeHtml [c] := by
        rcases escaped_cases he with rfl | rfl | rfl | rfl | rfl <;> decide
      rw [shown, List.map_singleton, hn]
      refine h.piece (fun ts cs => ?_) (stands_letter N false c)
      rw [feed_plain hf.1 hf.2.1, data_run hf.2.2]
    · have hne {d : CodePoint} (hd : escaped d = true) : c ≠ d := by
        rintro rfl
        rw [he] at hd
        cases hd
      rw [escapeHtml_plain he, shown, List.map_singleton]
      refine h.piece (r := [newline c]) (fun ts cs => feed_letter hl (hne rfl)) ?_
      exact Stands.letter (newline_ne (hne rfl) (by decide))

theorem Shows.address {p page d : Text} {ls : List (Text × Text)} (ha : address s = some (p, v))
    (hv : v ≠ []) (hu : p ++ kept v <+: escapeHtml s) (hall : (p ++ kept v).all urlLetter)
    (h : Shows N page d ls) : Shows N (anchor (p ++ kept v) ++ page) (shown (p ++ v) ++ d)
      (((p ++ v).map scrubbed, shown (p ++ v)) :: ls) := by
  obtain ⟨q, r, rfl, -, hblank, -, -, hp⟩ := address_some ha
  have hpe : escapeHtml p = p := by
    rcases scheme_eq hp with rfl | rfl <;> exact escapeHtml_all (by decide)
  have hcr : carriageReturn ∉ p ++ v := by
    rw [List.mem_append, not_or]
    refine ⟨?_, fun hm => ?_⟩
    · rcases scheme_eq hp with rfl | rfl <;> decide
    · exact absurd (List.all_eq_true.mp hblank _ hm) (by decide)
  rw [shown, newline_map hcr]
  refine h.link ?_ hall (fun c hc => escapeHtml_letters (hu.subset hc)) ?_ ?_
  · intro hnil
    rw [List.append_eq_nil_iff] at hnil
    rcases scheme_eq hp with rfl | rfl <;> cases hnil.1
  · rw [append_kept hpe hv]
    exact resolve_kept N false (p ++ v)
  · rw [append_kept hpe hv, kept_scrubbed]
    exact resolve_kept N true _

theorem kept_ne (h : 2 ≤ ((kept v).map units).sum) : v ≠ [] := by
  rintro rfl
  revert h
  decide

theorem kept_last (p : Text) (hv : v ≠ []) (he : v.getLast?.any escaped = false) :
    (p ++ kept v).getLast? = v.getLast? := by
  rw [kept_whole he]
  rcases List.eq_nil_or_concat v with rfl | ⟨w, c, rfl⟩
  · exact absurd rfl hv
  · rw [List.concat_eq_append] at he ⊢
    have hc : escaped c = false := by simpa using he
    rw [escapeHtml_append, escapeHtml_plain hc, ← List.append_assoc, List.getLast?_concat,
      List.getLast?_concat]

/-- The page shows the message piece by piece. -/
theorem linkify_told (N : Names) (last : Option CodePoint) (s : Text) :
    ∃ d ls, Shows N (linkify last 0 (escapeHtml s)) d ls ∧ Told last s d ls := by
  induction hn : s.length using Nat.strong_induction_on generalizing s last with
  | _ n ih =>
    cases s with
    | nil => exact ⟨[], [], .nil, .nil⟩
    | cons c s =>
      by_cases hm : last.any isWord = true ∨ urlAt (escapeHtml (c :: s)) = none
      · obtain ⟨d, ls, hd, ht⟩ := ih _ (hn ▸ Nat.lt_succ_self _) (some c) s rfl
        rw [linkify_escaped hm]
        exact ⟨_, _, hd.letter c, ht.letter hm⟩
      · rw [not_or, Bool.not_eq_true] at hm
        obtain ⟨hl, hm⟩ := hm
        obtain ⟨u, hu⟩ := Option.ne_none_iff_exists'.mp hm
        obtain ⟨⟨p, v⟩, ha, hk⟩ := Option.bind_eq_some_iff.mp ((urlAt_escaped _).symm.trans hu)
        dsimp only at hk
        split_ifs at hk with hunits
        obtain rfl := Option.some.inj hk
        obtain ⟨-, hpre, hall⟩ := urlAt_some hu
        obtain ⟨q, r, hs, -, -, -, -, hp⟩ := address_some ha
        have hv := kept_ne hunits
        have hpe : escapeHtml p = p := by
          rcases scheme_eq hp with rfl | rfl <;> exact escapeHtml_all (by decide)
        have hlen : (q ++ r).length < n := by
          have hpos := List.length_pos_iff.mpr hv
          rw [← hn, hs]
          simp only [List.length_append]
          omega
        obtain ⟨d, ls, hd, ht⟩ := ih _ hlen v.getLast? (q ++ r) rfl
        rw [hs] at ha hu hpre ⊢
        rw [kept_append p v (q ++ r) hpe] at hu ⊢
        rw [linkify_match hl hu]
        split_ifs with he
        · have hlast : (some semicolon).any isWord = v.getLast?.any isWord := by
            obtain ⟨w, x, rfl, hx⟩ := ends_escaped he
            rw [List.getLast?_concat]
            rcases escaped_cases hx with rfl | rfl | rfl | rfl | rfl <;> decide
          rw [linkify_letter (.inl (by decide)), linkify_congr hlast]
          refine ⟨_, _, (hd.letter semicolon).address ha hv hpre hall, ht.cut hl ha he⟩
        · have he : v.getLast?.any escaped = false := by simpa using he
          rw [kept_last p hv he]
          exact ⟨_, _, hd.address ha hv hpre hall, ht.link hl ha hunits he⟩

theorem messageHtml_told (N : Names) (s : Text) : ∃ d ls, Told none s d ls ∧
    content (tokenize N.references (messageHtml s)) = d ∧
    links (tokenize N.references (messageHtml s)) = ls := by
  obtain ⟨d, ls, hd, ht⟩ := linkify_told N none s
  obtain ⟨xs, hx, hc, hl⟩ := hd [] [] [] .nil
  have htok : tokenize N.references (messageHtml s) = xs.map (Token.resolve N.references) := by
    rw [tokenize, messageHtml, normalize_eq false (lineFeed_breaks _)]
    exact congrArg (List.map (Token.resolve N.references)) hx
  rw [htok]
  exact ⟨d, ls, ht, hc, hl⟩

end linking

/-! When the message is shown as it is -/

section apart
variable {s t u v w p d : Text} {c : CodePoint} {last last' : Option CodePoint}
  {ls : List (Text × Text)}

theorem apart_tail (hc : isBlank c = false) (h : apart (c :: s) = true) : apart s = true := by
  unfold apart at h ⊢
  rw [List.takeWhile_cons_of_pos (by simp [hc])] at h
  simp only [Bool.and_eq_true, Bool.not_eq_true', Bool.eq_false_iff, ne_eq,
    List.contains_iff_mem, List.reverse_cons] at h ⊢
  refine ⟨fun hm => h.1 (.tail _ hm), fun hm => h.2 ?_⟩
  rw [List.dropWhile_append]
  split
  · rename_i hnil
    rw [List.isEmpty_iff.mp hnil] at hm
    cases hm
  · rw [List.head?_append]
    cases hh : ((s.takeWhile (!isBlank ·)).reverse.dropWhile trailing).head? with
    | none =>
      rw [hh] at hm
      cases hm
    | some d =>
      rw [hh] at hm
      exact hm

/-- What holds for an address holds for those inside it. -/
theorem spaced_over (hw : w.all (!isBlank ·)) (ha : apart (w ++ s) = true)
    (h : spaced (w.getLast?.or last) s = true) : spaced last (w ++ s) = true := by
  induction w generalizing last with
  | nil => exact h
  | cons c w ih =>
    obtain ⟨hc, hw⟩ := Bool.and_eq_true_iff.mp hw
    have hc : isBlank c = false := by simpa using hc
    have hrest : spaced (some c) (w ++ s) = true := by
      refine ih hw (apart_tail hc ha) ?_
      cases hl : w.getLast? <;> simpa [List.getLast?_cons, hl] using h
    rw [List.cons_append] at ha ⊢
    rw [spaced, ha, hrest, Bool.or_true, Bool.and_true]

theorem apart_iff (h : address s = some (p, v)) :
    apart s = true ↔ opening ∉ v ∧ v.getLast?.any escaped = false := by
  obtain ⟨q, r, rfl, hq, hv, hlast, hr, hp⟩ := address_some h
  have hpb : p.all (!isBlank ·) = true := by
    rcases scheme_eq hp with rfl | rfl <;> decide
  have hpo : opening ∉ p := by
    rcases scheme_eq hp with rfl | rfl <;> decide
  have hqb : ∀ c ∈ q, escaped c = false ∧ isBlank c = false := fun c hc =>
    ⟨(trailing_letter (List.all_eq_true.mp hq c hc)).1, (trailing_letter (List.all_eq_true.mp hq c hc)).2.2⟩
  have hqo : opening ∉ q := fun hm => absurd (hqb _ hm).1 (by decide)
  have hrun : (p ++ (v ++ (q ++ r))).takeWhile (!isBlank ·) = p ++ (v ++ q) := by
    rw [List.takeWhile_append_of_pos (List.all_eq_true.mp hpb),
      List.takeWhile_append_of_pos (List.all_eq_true.mp hv),
      List.takeWhile_append_of_pos fun c hc => by simp [(hqb c hc).2]]
    cases r with
    | nil => rw [List.takeWhile_nil, List.append_nil]
    | cons c r =>
      rw [List.takeWhile_cons_of_neg (by simp [hr c rfl]), List.append_nil]
  have hstem : ((p ++ (v ++ q)).reverse.dropWhile trailing).head? = (p ++ v).getLast? := by
    rw [← List.append_assoc, List.reverse_append, List.dropWhile_append_of_pos fun c hc =>
      List.all_eq_true.mp hq c (List.mem_reverse.mp hc), ← List.head?_reverse]
    have hpl : ∃ k, p = k ++ [slash] := by
      rcases scheme_eq hp with rfl | rfl
      · exact ⟨key "https:/", rfl⟩
      · exact ⟨key "http:/", rfl⟩
    obtain ⟨k, rfl⟩ := hpl
    have hslash : trailing slash = false := by decide
    rcases List.eq_nil_or_concat v with rfl | ⟨w, c, rfl⟩
    · simp [hslash]
    · simp [hlast c (by simp)]
  unfold apart
  rw [hrun]
  simp only [Bool.and_eq_true, Bool.not_eq_true', hstem]
  refine and_congr ?_ ?_
  · rw [← Bool.not_eq_true, List.contains_iff_mem]
    simp [hpo, hqo]
  · rcases List.eq_nil_or_concat v with rfl | ⟨w, c, rfl⟩
    · rcases scheme_eq hp with rfl | rfl <;> decide
    · simp

theorem shown_eq (hn : nul ∉ w) (hr : carriageReturn ∉ w) : shown w = w := by
  rw [shown, newline_map hr]
  exact List.filter_eq_self.mpr fun c hc => by simpa using ne_of_mem_of_not_mem hc hn

theorem scrubbed_eq (hn : nul ∉ w) : w.map scrubbed = w := by
  have hmap : w.map scrubbed = w.map id :=
    List.map_congr_left fun c hc => if_neg (ne_of_mem_of_not_mem hc hn)
  rw [hmap, List.map_id]

theorem shown_clean (w : Text) : nul ∉ shown w ∧ carriageReturn ∉ shown w := by
  constructor <;> intro hm
  · simpa using (List.mem_filter.mp hm).2
  · obtain ⟨c, -, hc⟩ := List.mem_map.mp (List.mem_filter.mp hm).1
    unfold newline at hc
    split at hc
    · exact absurd hc (by decide)
    · rename_i hne
      exact hne hc

theorem Told.clean (h : Told last s d ls) : nul ∉ d ∧ carriageReturn ∉ d := by
  induction h with
  | nil => exact ⟨List.not_mem_nil, List.not_mem_nil⟩
  | letter _ _ ih | link _ _ _ _ _ ih =>
    simp only [List.mem_append, not_or]
    exact ⟨⟨(shown_clean _).1, ih.1⟩, (shown_clean _).2, ih.2⟩
  | cut _ _ _ _ ih =>
    simp only [List.mem_append, List.mem_cons, not_or]
    exact ⟨⟨(shown_clean _).1, by decide, ih.1⟩, (shown_clean _).2, by decide, ih.2⟩

/-- A text of ordinary letters loses none. -/
theorem Told.length_le (h : Told last s d ls) (hn : nul ∉ s) (hr : carriageReturn ∉ s) :
    s.length ≤ d.length := by
  induction h with
  | nil => exact Nat.le_refl _
  | letter _ _ ih =>
    rw [← List.singleton_append] at hn hr
    have hw := shown_eq (mt (List.mem_append_left _) hn) (mt (List.mem_append_left _) hr)
    have hrest := ih (mt (List.mem_append_right _) hn) (mt (List.mem_append_right _) hr)
    rw [hw]
    exact Nat.succ_le_succ hrest
  | link _ _ _ _ _ ih | cut _ _ _ _ ih =>
    rw [← List.append_assoc] at hn hr ⊢
    have hw := shown_eq (mt (List.mem_append_left _) hn) (mt (List.mem_append_left _) hr)
    have hrest := ih (mt (List.mem_append_right _) hn) (mt (List.mem_append_right _) hr)
    simp only [hw, List.length_append, List.length_cons]
    omega

theorem opening_units (h : opening ∈ v) : 2 ≤ ((kept v).map units).sum := by
  rcases Bool.eq_false_or_eq_true (v.getLast?.any escaped) with he | he
  · exact cut_units he
  · obtain ⟨a, b, rfl⟩ := List.append_of_mem h
    refine Nat.le_trans ?_ (units_length _)
    rw [kept_whole he, escapeHtml_append, escapeHtml_cons, escapeHtml_escaped (by decide)]
    simp only [List.length_append, List.length_cons]
    omega

/-- If the text comes out as it is and no link has a `<` in it, every address
stands apart. -/
theorem Told.spaced (h : Told last s d ls) (hn : nul ∉ s) (hr : carriageReturn ∉ s) (hd : d = s)
    (hls : ∀ l ∈ ls, opening ∉ l.2) : Markup.spaced last s = true := by
  induction h with
  | nil => rfl
  | @letter last c s d ls hm _ ih =>
    rw [← List.singleton_append] at hn hr
    have hw := shown_eq (mt (List.mem_append_left _) hn) (mt (List.mem_append_left _) hr)
    rw [hw] at hd
    have hrest := ih (mt (List.mem_append_right _) hn) (mt (List.mem_append_right _) hr)
      (List.cons.inj hd).2 hls
    rw [Markup.spaced, hrest, Bool.and_true, Bool.or_assoc, Bool.or_eq_true]
    refine hm.imp id fun hu => ?_
    rw [urlAt_escaped, Option.bind_eq_none_iff] at hu
    cases ha : address (c :: s) with
    | none => simp [Option.map_eq_none_iff.mp ha]
    | some a =>
      have hu := hu a ha
      dsimp only at hu
      rw [Bool.or_eq_true]
      right
      have hshort : ¬ 2 ≤ ((kept a.2).map units).sum := fun hlong => by
        rw [if_pos hlong] at hu
        cases hu
      exact (apart_iff ha).mpr ⟨fun hm => hshort (opening_units hm), by
        simpa using mt cut_units hshort⟩
  | @link last p v t d ls _ ha hu he _ ih =>
    have hv := kept_ne hu
    rw [← List.append_assoc] at hn hr hd ⊢
    have hw := shown_eq (mt (List.mem_append_left _) hn) (mt (List.mem_append_left _) hr)
    rw [hw] at hd hls
    have hrest := ih (mt (List.mem_append_right _) hn) (mt (List.mem_append_right _) hr)
      (List.append_cancel_left hd) fun l hl => hls l (.tail _ hl)
    have ho : opening ∉ v := mt (List.mem_append_right p) (hls _ List.mem_cons_self)
    obtain ⟨q, r, -, -, hb, -, -, hp⟩ := address_some ha
    have hlast : (p ++ v).getLast? = v.getLast? := List.getLast?_append_of_ne_nil p hv
    refine spaced_over ?_ ?_ ?_
    · rw [List.all_append, hb, Bool.and_true]
      rcases scheme_eq hp with rfl | rfl <;> decide
    · rw [List.append_assoc]
      exact (apart_iff ha).mpr ⟨ho, he⟩
    · rw [hlast]
      cases hl : v.getLast? with
      | none => exact absurd (List.getLast?_eq_none_iff.mp hl) hv
      | some x =>
        rw [hl] at hrest
        exact hrest
  | @cut last p v t d ls _ _ _ ht _ =>
    exfalso
    rw [← List.append_assoc] at hn hr hd
    have hw := shown_eq (mt (List.mem_append_left _) hn) (mt (List.mem_append_left _) hr)
    have hlen := ht.length_le (mt (List.mem_append_right _) hn) (mt (List.mem_append_right _) hr)
    have := congrArg List.length hd
    simp only [hw, List.length_append, List.length_cons] at this
    omega

theorem IsUrl.no_opening (h : IsUrl u) : opening ∉ u := by
  obtain ⟨p, v, rfl, hp, hv, -, -⟩ := h
  rw [List.mem_append, not_or]
  constructor
  · rcases List.mem_pair.mp hp with rfl | rfl <;> decide
  · exact fun hm => absurd (List.all_eq_true.mp hv _ hm) (by decide)

/-- An address that stands apart is a URL. -/
theorem IsUrl.of_address (ha : address s = some (p, v)) (hu : 2 ≤ ((kept v).map units).sum)
    (hap : apart s = true) : IsUrl (p ++ v) := by
  obtain ⟨ho, he⟩ := (apart_iff ha).mp hap
  obtain ⟨q, r, -, -, hb, hlast, -, hp⟩ := address_some ha
  rw [kept_whole he] at hu
  obtain ⟨w, c, rfl⟩ : ∃ w c, v = w ++ [c] := by
    rcases List.eq_nil_or_concat v with rfl | ⟨w, c, rfl⟩
    · exact absurd hu (by decide)
    · exact ⟨w, c, List.concat_eq_append⟩
  have hc : escaped c = false := by simpa using he
  have hbc : isBlank c = false := by simpa using List.all_eq_true.mp hb c (by simp)
  refine ⟨p, _, rfl, by simpa using scheme_eq hp, List.all_eq_true.mpr fun d hd => ?_, ?_, ?_⟩
  · exact urlLetter_of (ne_of_mem_of_not_mem hd ho) (by simpa using List.all_eq_true.mp hb d hd)
  · cases w with
    | nil => rwa [List.nil_append, escapeHtml_plain hc] at hu
    | cons d w =>
      refine Nat.le_trans ?_ (units_length _)
      simp
  · rw [List.getLast?_concat]
    exact urlEnd_plain hc hbc (hlast c List.getLast?_concat)

/-- What may follow an address in a run is no part of a longer one. -/
theorem prefix_of_ends {x q r : Text} (hx : x <+: q ++ r) (hall : x.all urlLetter)
    (hend : x.getLast?.any urlEnd = true) (hq : q.all trailing)
    (hr : ∀ c, r.head? = some c → isBlank c = true) : False := by
  obtain ⟨w, c, rfl⟩ : ∃ w c, x = w ++ [c] := by
    rcases List.eq_nil_or_concat x with rfl | ⟨w, c, rfl⟩
    · cases hend
    · exact ⟨w, c, List.concat_eq_append⟩
  have hc : urlEnd c = true := by simpa using hend
  have hin : w ++ [c] <+: q := by
    rcases List.prefix_or_prefix_of_prefix hx (List.prefix_append q r) with hw | ⟨y, hy⟩
    · exact hw
    · rw [← hy, List.prefix_append_right_inj] at hx
      cases y with
      | nil => rw [← hy, List.append_nil]
      | cons b y =>
        obtain ⟨z, rfl⟩ := hx
        have hb := (blank_plain (hr b rfl)).2
        have hbmem : b ∈ w ++ [c] := hy ▸ List.mem_append_right q List.mem_cons_self
        rw [List.all_eq_true.mp hall b hbmem] at hb
        cases hb
  have hcq : c ∈ q := hin.subset (List.mem_append_right w (List.mem_singleton.mpr rfl))
  rw [(trailing_letter (List.all_eq_true.mp hq c hcq)).2.1] at hc
  cases hc

/-- There is no longer one where an address is. -/
theorem address_longest (ha : address s = some (p, v)) (hw : IsUrl w) (hs : w <+: s) :
    w <+: p ++ v := by
  obtain ⟨q, r, rfl, hq, -, -, hr, hp⟩ := address_some ha
  obtain ⟨p', x, rfl, hp', hall, -, hend⟩ := hw
  have hpp : p' = p := by
    have hpre := List.prefix_or_prefix_of_prefix ((List.prefix_append p' x).trans hs)
      (List.prefix_append p _)
    rcases List.mem_pair.mp hp' with rfl | rfl <;> rcases scheme_eq hp with rfl | rfl
    · rfl
    · exact absurd hpre (by decide)
    · exact absurd hpre (by decide)
    · rfl
  rw [hpp, List.prefix_append_right_inj] at hs ⊢
  rcases List.prefix_or_prefix_of_prefix hs (List.prefix_append v _) with hx | ⟨y, rfl⟩
  · exact hx
  · rw [List.prefix_append_right_inj] at hs
    rw [List.all_append, Bool.and_eq_true] at hall
    cases y with
    | nil => rw [List.append_nil]
    | cons c y =>
      rw [List.getLast?_append_of_ne_nil v (List.cons_ne_nil c y)] at hend
      exact (prefix_of_ends hs hall.2 hend hq hr).elim

theorem spaced_drop (h : spaced last (w ++ s) = true) : spaced (w.getLast?.or last) s = true := by
  induction w generalizing last with
  | nil => exact h
  | cons c w ih =>
    have := ih (Bool.and_eq_true_iff.mp h).2
    cases hl : w.getLast? <;> simpa [List.getLast?_cons, hl] using this

theorem spaced_apart (hl : last.any isWord = false) (ha : address s = some (p, v))
    (h : spaced last s = true) : apart s = true := by
  cases s with
  | nil => cases ha
  | cons c s =>
    have hp := (address_some ha).choose_spec.choose_spec.2.2.2.2.2
    simpa [hl, hp] using (Bool.and_eq_true_iff.mp h).1

/-- A text of ordinary letters in which every address stands apart comes out as it
is, and each link is one of its URLs. -/
theorem Told.faithful (h : Told last s d ls) (hn : nul ∉ s) (hr : carriageReturn ∉ s)
    (hs : Markup.spaced last s = true) : d = s ∧ ∀ pre : Text,
      pre.getLast?.any isWord = last.any isWord → ∀ l ∈ ls, l.1 = l.2 ∧ MaximalUrl (pre ++ s) l.2 := by
  induction h with
  | nil => exact ⟨rfl, fun _ _ => List.forall_mem_nil _⟩
  | @letter last c s d ls _ _ ih =>
    rw [← List.singleton_append] at hn hr
    have hw := shown_eq (mt (List.mem_append_left _) hn) (mt (List.mem_append_left _) hr)
    obtain ⟨rfl, hls⟩ := ih (mt (List.mem_append_right _) hn) (mt (List.mem_append_right _) hr)
      (Bool.and_eq_true_iff.mp hs).2
    refine ⟨by rw [hw, List.singleton_append], fun pre _ l hl => ?_⟩
    have := hls (pre ++ [c]) (by rw [List.getLast?_concat]) l hl
    rwa [List.append_assoc] at this
  | @link last p v t d ls hl ha hu _ _ ih =>
    have hap := spaced_apart hl ha hs
    have hv := kept_ne hu
    rw [← List.append_assoc] at hn hr hs ⊢
    have hw := shown_eq (mt (List.mem_append_left _) hn) (mt (List.mem_append_left _) hr)
    have hlast : (p ++ v).getLast?.or last = v.getLast? := by
      rw [List.getLast?_append_of_ne_nil p hv]
      cases hg : v.getLast? with
      | none => exact absurd (List.getLast?_eq_none_iff.mp hg) hv
      | some x => rfl
    have hrest := spaced_drop hs
    rw [hlast] at hrest
    obtain ⟨rfl, hls⟩ := ih (mt (List.mem_append_right _) hn) (mt (List.mem_append_right _) hr) hrest
    refine ⟨by rw [hw], fun pre hpre l hmem => ?_⟩
    rcases List.mem_cons.mp hmem with rfl | hmem
    · rw [hw]
      refine ⟨scrubbed_eq (mt (List.mem_append_left _) hn), pre, d, (List.append_assoc ..).symm,
        hpre.trans hl, .of_address ha hu hap, fun w hw hp => address_longest ha hw ?_⟩
      rwa [List.append_assoc] at hp
    · have hpre' : (pre ++ (p ++ v)).getLast?.any isWord = v.getLast?.any isWord := by
        rw [← List.append_assoc, List.getLast?_append_of_ne_nil _ hv]
      rw [← List.append_assoc]
      exact hls _ hpre' l hmem
  | cut hl ha he _ _ =>
    rw [((apart_iff ha).mp (spaced_apart hl ha hs)).2] at he
    cases he

end apart

/-- A message is shown faithfully exactly when it has neither NUL nor carriage
return in it and all its addresses stand apart. -/
theorem messageHtml_faithful_iff (N : Names) (s : Text) :
    Faithful N s ↔ nul ∉ s ∧ carriageReturn ∉ s ∧ spaced none s = true := by
  obtain ⟨d, ls, ht, hd, hls⟩ := messageHtml_told N s
  constructor
  · rintro ⟨hc, hl⟩
    obtain rfl : d = s := hd.symm.trans hc
    rw [hls] at hl
    refine ⟨ht.clean.1, ht.clean.2, ht.spaced ht.clean.1 ht.clean.2 rfl fun l hm => ?_⟩
    obtain ⟨-, -, -, -, hurl, -⟩ := (hl l hm).2
    exact hurl.no_opening
  · rintro ⟨hn, hr, hs⟩
    obtain ⟨rfl, hl⟩ := ht.faithful hn hr hs
    exact ⟨hd, fun l hm => hl [] rfl l (hls ▸ hm)⟩

/-- Names enough to run examples with. -/
def fewNames : Names where
  find n := ([("amp", ampersand), ("amp;", ampersand), ("lt", opening), ("lt;", opening),
    ("gt", closing), ("gt;", closing), ("quot", quote), ("quot;", quote)].find? fun e =>
      word e.1 == n).map fun e => [e.2]
  ends n hn := by
    rw [Option.isSome_map] at hn
    obtain ⟨e, he⟩ := Option.isSome_iff_exists.mp hn
    obtain rfl : word e.1 = n := by simpa using List.find?_some he
    have hall : ∀ e ∈ [("amp", ampersand), ("amp;", ampersand), ("lt", opening), ("lt;", opening),
        ("gt", closing), ("gt;", closing), ("quot", quote), ("quot;", quote)],
        semicolon ∉ (word e.1).dropLast := by decide
    exact hall e (List.mem_of_find?_eq_some he)
  amp := by decide
  lt := by decide
  gt := by decide
  quot := by decide

/-- An address between angle brackets takes the closing one into its link and
leaves the `;` of its reference behind. -/
theorem messageHtml_not_always_faithful : ¬ ∀ (N : Names) (s : Text), Faithful N s := by
  intro h
  have hc := (h fewNames (key "<http://x.dev>")).content
  revert hc
  decide +kernel

end Lattix.Client.Markup
