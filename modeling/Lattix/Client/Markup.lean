import Lattix.Lib.Html
import Lattix.Crypto.Messages

namespace Lattix.Client.Markup
open Lib.Json Lib.Html Server Lattix.Crypto

abbrev Text := Lib.Json.Text

def escapeHtml (s : Text) : Text := s.flatMap fun c =>
  if c = ampersand then key "&amp;"
  else if c = opening then key "&lt;"
  else if c = closing then key "&gt;"
  else if c = quote then key "&quot;"
  else if c = apostrophe then key "&#39;"
  else [c]

/-! `URL_RE` -/

/-- `\w` -/
def isWord : CodePoint → Bool
  | .scalar c => c.isAlphanum || c == '_'
  | _ => false

/-- `[^\s<]` -/
def urlLetter : CodePoint → Bool
  | .scalar c => !isWhite c && c != '<'
  | _ => true

/-- `[^\s<.,:;"')\]]` -/
def urlEnd (c : CodePoint) : Bool :=
  urlLetter c && !(key ".,:;\"')]").contains c

/-- How many units a code point has in a string of the language. -/
def units : CodePoint → Nat
  | .scalar c => if 0xFFFF < c.toNat then 2 else 1
  | _ => 1

/-- `https?:\/\/` -/
def scheme (s : Text) : Option Text :=
  [key "https://", key "http://"].find? (·.isPrefixOf s)

/-- The match at the start of a text: the first class takes all it can and gives
back until the second has its letter. -/
def urlAt (s : Text) : Option Text := do
  let p ← scheme s
  let u := (((s.drop p.length).takeWhile urlLetter).reverse.dropWhile (!urlEnd ·)).reverse
  if 2 ≤ (u.map units).sum then some (p ++ u) else none

def anchor (u : Text) : Text :=
  key "<a href=\"" ++ u ++ key "\" target=\"_blank\" rel=\"noopener noreferrer nofollow\">" ++ u ++
    key "</a>"

/-- Every match is replaced by its link. A match begins inside a word, so `\b` asks
that the letter before it, `last`, be of none; the number counts the letters of
the match that are still to be passed over. -/
def linkify : Option CodePoint → Nat → Text → Text
  | _, _, [] => []
  | _, n + 1, c :: s => linkify (some c) n s
  | last, 0, c :: s =>
    match if last.any isWord then none else urlAt (c :: s) with
    | some u => anchor u ++ linkify (some c) (u.length - 1) s
    | none => c :: linkify (some c) 0 s

def breaks (s : Text) : Text := s.flatMap fun c => if c = lineFeed then key "<br>" else [c]

def messageHtml (text : Text) : Text := breaks (linkify none 0 (escapeHtml text))

/-! What a reader is shown -/

def brTag : Tag := ⟨false, key "br", [], false⟩

def linkTag (href : Text) : Tag :=
  ⟨false, key "a", [(key "href", href), (key "target", key "_blank"),
    (key "rel", key "noopener noreferrer nofollow")], false⟩

def linkEnd : Tag := ⟨true, key "a", [], false⟩

def Web (u : Text) : Prop := key "http://" <+: u ∨ key "https://" <+: u

/-- The tokens take the text piece by piece: each piece is text, a line end, or an
address, which is the one value of its link and what the link shows. -/
inductive Renders (R : References) : Text → List Token → Prop
  | nil : Renders R [] []
  | text {t s : Text} {ts : List Token} : Renders R s ts →
      Renders R (t ++ s) (.text (resolve R.inText 0 (t.map newline)) :: ts)
  | br {s : Text} {ts : List Token} : Renders R s ts → Renders R (lineFeed :: s) (.tag brTag :: ts)
  | link {u s : Text} {ts : List Token} : Web u → Renders R s ts →
      Renders R (u ++ s) (.tag (linkTag (resolve R.inValue 0 (u.map scrubbed))) ::
        .text (resolve R.inText 0 u) :: .tag linkEnd :: ts)

/-- Text, a line end, or a link to the web with its three attributes. -/
def Inert : Token → Prop
  | .text _ => True
  | .tag t => t = brTag ∨ t = linkEnd ∨ ∃ href, t = linkTag href ∧ Web href
  | .other => False

/-! The pieces the page is put together from -/

section pieces
variable {s t u : Text} {ts : List Token} {cs : Text}

theorem escapeHtml_letters {c : CodePoint} (h : c ∈ escapeHtml t) : c ≠ opening ∧ c ≠ quote := by
  obtain ⟨d, -, hc⟩ := List.mem_flatMap.mp h
  have hkey (k : String) (hk : (key k).all (fun c => c ≠ opening && c ≠ quote) = true)
      (hm : c ∈ key k) : c ≠ opening ∧ c ≠ quote := by
    simpa using List.all_eq_true.mp hk c hm
  split_ifs at hc with ha ho hl hq hp
  · exact hkey _ (by decide) hc
  · exact hkey _ (by decide) hc
  · exact hkey _ (by decide) hc
  · exact hkey _ (by decide) hc
  · exact hkey _ (by decide) hc
  · rw [List.mem_singleton.mp hc]
    exact ⟨ho, hq⟩

theorem scheme_some {p : Text} (h : scheme s = some p) : Web p ∧ p <+: s ∧ p.all urlLetter := by
  unfold scheme at h
  have hp : p <+: s := List.isPrefixOf_iff_prefix.mp (by simpa using List.find?_some h)
  have hm := List.mem_of_find?_eq_some h
  rcases List.mem_cons.mp hm with rfl | hm
  · exact ⟨Or.inr (List.prefix_refl _), hp, by decide⟩
  · rw [List.mem_singleton.mp hm] at hp ⊢
    exact ⟨Or.inl (List.prefix_refl _), hp, by decide⟩

/-- A match is a web address without a space in it, at the start of the text. -/
theorem urlAt_some (h : urlAt s = some u) : Web u ∧ u <+: s ∧ u.all urlLetter := by
  obtain ⟨p, hp, h⟩ := Option.bind_eq_some_iff.mp h
  obtain ⟨hweb, ⟨r, rfl⟩, hall⟩ := scheme_some hp
  rw [List.drop_left] at h
  dsimp only at h
  split_ifs at h
  obtain rfl := Option.some.inj h
  have hinitial : ((r.takeWhile urlLetter).reverse.dropWhile (!urlEnd ·)).reverse <+:
      r.takeWhile urlLetter := by
    rw [← List.reverse_suffix, List.reverse_reverse]
    exact List.dropWhile_suffix _
  refine ⟨hweb.imp (·.trans (List.prefix_append _ _)) (·.trans (List.prefix_append _ _)), ?_, ?_⟩
  · apply (List.prefix_append_right_inj p).mpr
    exact hinitial.trans (List.takeWhile_prefix _)
  · rw [List.all_append, hall, Bool.true_and, List.all_eq_true]
    intro c hc
    exact List.all_eq_true.mp List.all_takeWhile c (hinitial.subset hc)

theorem Web.cons (h : Web u) : ∃ v, u = .scalar 'h' :: v := by
  rcases h with ⟨v, rfl⟩ | ⟨v, rfl⟩
  · exact ⟨_, rfl⟩
  · exact ⟨_, rfl⟩

theorem linkify_skip (last : Option CodePoint) (s : Text) :
    ∃ last', linkify last u.length (u ++ s) = linkify last' 0 s := by
  induction u generalizing last with
  | nil => exact ⟨last, rfl⟩
  | cons c u ih => exact ih (some c)

/-- A letter stays, or the match it begins becomes a link and the rest follows. -/
theorem linkify_cases (last : Option CodePoint) (c : CodePoint) (s : Text) :
    linkify last 0 (c :: s) = c :: linkify (some c) 0 s ∨
    ∃ u r last', c :: s = u ++ r ∧ u ≠ [] ∧ Web u ∧ u.all urlLetter ∧
      linkify last 0 (c :: s) = anchor u ++ linkify last' 0 r := by
  rw [linkify]
  split
  · rename_i u hu
    right
    split_ifs at hu
    obtain ⟨hweb, ⟨r, hr⟩, hall⟩ := urlAt_some hu
    obtain ⟨v, rfl⟩ := hweb.cons
    obtain ⟨rfl, rfl⟩ := List.cons.inj hr
    obtain ⟨last', hl⟩ := linkify_skip (u := v) (some (.scalar 'h')) r
    exact ⟨_, r, last', rfl, List.cons_ne_nil _ v, hweb, hall, congrArg (anchor _ ++ ·) hl⟩
  · left
    rfl

theorem breaks_append (s t : Text) : breaks (s ++ t) = breaks s ++ breaks t :=
  List.flatMap_append

theorem breaks_eq (h : lineFeed ∉ s) : breaks s = s := by
  induction s with
  | nil => rfl
  | cons c s ih =>
    rw [breaks, List.flatMap_cons, if_neg (List.ne_of_not_mem_cons h).symm]
    exact congrArg (c :: ·) (ih (List.not_mem_of_not_mem_cons h))

theorem lineFeed_breaks (s : Text) : lineFeed ∉ breaks s := by
  intro h
  obtain ⟨c, -, hc⟩ := List.mem_flatMap.mp h
  split_ifs at hc with hl
  · exact absurd hc (by decide)
  · exact hl (List.mem_singleton.mp hc).symm

/-- What the tokenizer makes of a piece of the page, its line ends put in. -/
def feed (st : State) (s : Text) : State := ((breaks s).map newline).foldl step st

theorem feed_append (st : State) (s t : Text) : feed st (s ++ t) = feed (feed st s) t := by
  rw [feed, breaks_append, List.map_append, List.foldl_append, feed, feed]

theorem feed_plain {st : State} (hl : lineFeed ∉ s) (hr : carriageReturn ∉ s) :
    feed st s = s.foldl step st := by
  rw [feed, breaks_eq hl, newline_map hr]

theorem feed_letter {c : CodePoint} (hl : c ≠ lineFeed) (ho : c ≠ opening) :
    feed ⟨ts, cs, .data⟩ [c] = ⟨ts, cs ++ [newline c], .data⟩ := by
  rw [feed, breaks_eq (mt List.mem_singleton.mp hl.symm)]
  exact data_step (newline_ne ho (by decide))

theorem feed_br : feed ⟨ts, cs, .data⟩ [lineFeed] = ⟨ts ++ flush cs ++ [.tag brTag], [], .data⟩ :=
  rfl

/-- An address that neither spaces nor the two marks of the markup are in goes
whole into its value and, between the tags, into the text. -/
theorem feed_anchor (hs : u.all urlLetter) (ho : opening ∉ u) (hq : quote ∉ u) :
    feed ⟨ts, cs, .data⟩ (anchor u) = ⟨ts ++ flush cs ++ [.tag (linkTag (u.map scrubbed))] ++
      flush u ++ [.tag linkEnd], [], .data⟩ := by
  have hmem {c : CodePoint} (hc : urlLetter c = false) : c ∉ u := fun hm =>
    Bool.false_ne_true (hc.symm.trans (List.all_eq_true.mp hs c hm))
  have hl : lineFeed ∉ u := hmem (by decide)
  have hr : carriageReturn ∉ u := hmem (by decide)
  have hopen : feed ⟨ts, cs, .data⟩ (key "<a href=\"") =
      ⟨ts, cs, .value (some quote) ⟨false, key "a", [], false⟩ (key "href") []⟩ := rfl
  have hclose (v : Text) : feed ⟨ts, cs, .value (some quote) ⟨false, key "a", [], false⟩
      (key "href") v⟩ (key "\" target=\"_blank\" rel=\"noopener noreferrer nofollow\">") =
      ⟨ts ++ flush cs ++ [.tag (linkTag v)], [], .data⟩ := rfl
  have hend (ts : List Token) (cs : Text) : feed ⟨ts, cs, .data⟩ (key "</a>") =
      ⟨ts ++ flush cs ++ [.tag linkEnd], [], .data⟩ := rfl
  rw [anchor, feed_append, feed_append, feed_append, feed_append, hopen, feed_plain hl hr,
    feed_plain hl hr, value_run hq, List.nil_append, hclose, data_run ho, List.nil_append, hend]

end pieces

/-! Rendering -/

section rendering
variable {R : References} {s : Text}

theorem Renders.flushed (cs : Text) {ts : List Token} (h : Renders R s ts) :
    Renders R (cs ++ s) ((flush (cs.map newline)).map (Token.resolve R) ++ ts) := by
  cases cs with
  | nil => exact h
  | cons c cs => exact .text h

/-- From text, whatever came before, `page` is read as the pieces of `s`. -/
def Reads (R : References) (s page : Text) : Prop :=
  ∀ ts cs, ∃ xs, (feed ⟨ts, cs.map newline, .data⟩ page).finish = ts ++ xs ∧
    Renders R (cs ++ s) (xs.map (Token.resolve R))

theorem Reads.nil : Reads R [] [] := by
  intro ts cs
  refine ⟨flush (cs.map newline), rfl, ?_⟩
  simpa using (Renders.nil (R := R)).flushed cs

theorem Reads.letter {c : CodePoint} {page : Text} (hl : c ≠ lineFeed) (ho : c ≠ opening)
    (h : Reads R s page) : Reads R (c :: s) (c :: page) := by
  intro ts cs
  have hstep : feed ⟨ts, cs.map newline, .data⟩ [c] = _ := feed_letter hl ho
  obtain ⟨xs, hx, hr⟩ := h ts (cs ++ [c])
  rw [List.map_append] at hx
  refine ⟨xs, ?_, ?_⟩
  · rw [← List.singleton_append, feed_append, hstep]
    exact hx
  · rwa [List.append_assoc] at hr

theorem Reads.br {page : Text} (h : Reads R s page) : Reads R (lineFeed :: s) (lineFeed :: page) := by
  intro ts cs
  obtain ⟨xs, hx, hr⟩ := h (ts ++ flush (cs.map newline) ++ [.tag brTag]) []
  refine ⟨flush (cs.map newline) ++ .tag brTag :: xs, ?_, ?_⟩
  · rw [← List.singleton_append, feed_append, feed_br]
    exact hx.trans (by simp only [List.append_assoc, List.singleton_append])
  · rw [List.map_append]
    exact hr.br.flushed cs

theorem Reads.link {u page : Text} (hweb : Web u) (hne : u ≠ []) (hall : u.all urlLetter)
    (hu : ∀ c ∈ u, c ≠ opening ∧ c ≠ quote) (h : Reads R s page) :
    Reads R (u ++ s) (anchor u ++ page) := by
  intro ts cs
  have ho : opening ∉ u := fun hm => (hu _ hm).1 rfl
  have hq : quote ∉ u := fun hm => (hu _ hm).2 rfl
  obtain ⟨xs, hx, hr⟩ := h (ts ++ flush (cs.map newline) ++ [.tag (linkTag (u.map scrubbed))] ++
    flush u ++ [.tag linkEnd]) []
  have hf : flush u = [.text u] := if_neg hne
  refine ⟨flush (cs.map newline) ++ .tag (linkTag (u.map scrubbed)) :: .text u ::
    .tag linkEnd :: xs, ?_, ?_⟩
  · rw [feed_append, feed_anchor hall ho hq]
    exact hx.trans (by simp [hf])
  · rw [List.map_append]
    exact (hr.link hweb).flushed cs

/-- What is left of the page is read as the pieces of what is left of the message. -/
theorem linkify_reads (hs : ∀ c ∈ s, c ≠ opening ∧ c ≠ quote) (last : Option CodePoint) :
    Reads R s (linkify last 0 s) := by
  induction hn : s.length using Nat.strong_induction_on generalizing s last with
  | _ n ih =>
    cases s with
    | nil => exact .nil
    | cons c s =>
      rcases linkify_cases last c s with hl | ⟨u, r, last', hu, hne, hweb, hall, hl⟩
      · have hrest := ih _ (hn ▸ Nat.lt_succ_self _) (fun d hd => hs d (.tail c hd)) (some c) rfl
        rw [hl]
        by_cases hc : c = lineFeed
        · rw [hc] at hrest ⊢
          exact hrest.br
        · exact hrest.letter hc (hs c List.mem_cons_self).1
      · have hlen : r.length < n := by
          have hsum := congrArg List.length hu
          have hpos := List.length_pos_iff.mpr hne
          rw [List.length_append] at hsum
          omega
        rw [hu] at hs
        rw [hl, hu]
        have hrest := ih _ hlen (fun d hd => hs d (List.mem_append_right u hd)) last' rfl
        exact hrest.link hweb hne hall fun d hd => hs d (List.mem_append_left r hd)

/-- What an address begins with, no reference in it changes. -/
theorem Web.resolved {r : Reference} {u : Text} (h : Web u) :
    Web (resolve r 0 (u.map scrubbed)) := by
  rcases h with ⟨v, rfl⟩ | ⟨v, rfl⟩ <;> rw [List.map_append]
  · left
    rw [show (key "http://").map scrubbed = key "http://" from rfl, resolve_append (by decide)]
    exact List.prefix_append _ _
  · right
    rw [show (key "https://").map scrubbed = key "https://" from rfl, resolve_append (by decide)]
    exact List.prefix_append _ _

theorem Renders.inert {ts : List Token} (h : Renders R s ts) : ∀ x ∈ ts, Inert x := by
  induction h with
  | nil => exact List.forall_mem_nil _
  | text _ ih => exact List.forall_mem_cons.mpr ⟨trivial, ih⟩
  | br _ ih => exact List.forall_mem_cons.mpr ⟨Or.inl rfl, ih⟩
  | link hweb _ ih =>
    simp only [List.forall_mem_cons]
    exact ⟨Or.inr (Or.inr ⟨_, rfl, hweb.resolved⟩), trivial, Or.inr (Or.inl rfl), ih⟩

theorem messageHtml_tokens (R : References) (text : Text) :
    Renders R (escapeHtml text) (tokenize R (messageHtml text)) := by
  have hs := fun c (hc : c ∈ escapeHtml text) => escapeHtml_letters hc
  obtain ⟨xs, hx, hr⟩ := linkify_reads (R := R) hs none [] []
  rw [tokenize, messageHtml, normalize_eq false (lineFeed_breaks _)]
  exact (congrArg (List.map (Token.resolve R)) hx) ▸ hr

/-- A message's own letters make text and addresses of links and nothing else. -/
theorem messageHtml_inert (R : References) (text : Text) :
    Renders R (escapeHtml text) (tokenize R (messageHtml text)) ∧
    ∀ x ∈ tokenize R (messageHtml text), Inert x :=
  ⟨messageHtml_tokens R text, (messageHtml_tokens R text).inert⟩

end rendering

end Lattix.Client.Markup
