import Lattix.Lib.Html

/-! Character references: what an ampersand in a page stands for. -/

namespace Lattix.Lib.Html
open Json

def word (s : String) : Text := text s.toList

def semicolon : CodePoint := .scalar ';'

/-- What an unnamed letter is replaced by. -/
def replacement : CodePoint := .scalar '\uFFFD'

/-- The table of the named references, as far as it is relied on: a name has its
`;` at its end or, if it is an old one, may do without it. -/
structure Names where
  find : Text → Option Text
  ends : ∀ n, (find n).isSome = true → semicolon ∉ n.dropLast
  amp : find (word "amp") = some [ampersand] ∧ find (word "amp;") = some [ampersand]
  lt : find (word "lt") = some [opening] ∧ find (word "lt;") = some [opening]
  gt : find (word "gt") = some [closing] ∧ find (word "gt;") = some [closing]
  quot : find (word "quot") = some [quote] ∧ find (word "quot;") = some [quote]

/-- The longest name a text goes on with after `p`, and its length. -/
def longest (find : Text → Option Text) (p : Text) : Text → Option (Text × Nat)
  | [] => (find p).map (·, p.length)
  | c :: t => (longest find (p ++ [c]) t).or ((find p).map (·, p.length))

def isAlnum (c : CodePoint) : Bool := isAlpha c || isDigit c

/-- In a value a name without its `;` is none if it seems to go on. -/
def named (N : Names) (inValue : Bool) (t : Text) : Option (Text × Nat) :=
  (longest N.find [] t).filter fun r =>
    !inValue || (t.take r.2).getLast? == some semicolon ||
      !(t.drop r.2).head?.any fun c => c == equalsSign || isAlnum c

/-- The numbers from 0x80 to 0x9F that stand for what windows-1252 has there. -/
def windows1252 : List (Nat × Nat) :=
  [(0x80, 0x20AC), (0x82, 0x201A), (0x83, 0x0192), (0x84, 0x201E), (0x85, 0x2026), (0x86, 0x2020),
    (0x87, 0x2021), (0x88, 0x02C6), (0x89, 0x2030), (0x8A, 0x0160), (0x8B, 0x2039), (0x8C, 0x0152),
    (0x8E, 0x017D), (0x91, 0x2018), (0x92, 0x2019), (0x93, 0x201C), (0x94, 0x201D), (0x95, 0x2022),
    (0x96, 0x2013), (0x97, 0x2014), (0x98, 0x02DC), (0x99, 0x2122), (0x9A, 0x0161), (0x9B, 0x203A),
    (0x9C, 0x0153), (0x9E, 0x017E), (0x9F, 0x0178)]

def numbered (n : Nat) : CodePoint :=
  let n := ((windows1252.find? fun e => e.1 == n).map Prod.snd).getD n
  if n = 0 ∨ ¬ n.isValidChar then replacement else .scalar (Char.ofNat n)

def hexDigit : CodePoint → Option Nat
  | .scalar c =>
    if c.isDigit then some (c.toNat - '0'.toNat)
    else if 'a' ≤ c ∧ c ≤ 'f' then some (c.toNat - 'a'.toNat + 10)
    else if 'A' ≤ c ∧ c ≤ 'F' then some (c.toNat - 'A'.toNat + 10)
    else none
  | _ => none

/-- The digits in base `b` at the start of a text. -/
def figures (b : Nat) : Text → List Nat
  | [] => []
  | c :: t => match (hexDigit c).filter (· < b) with
    | some d => d :: figures b t
    | none => []

/-- A number after `#` or `#x`, which are `n` letters. -/
def numeric (b n : Nat) (t : Text) : Option (Text × Nat) :=
  let ds := figures b t
  if ds = [] then none
  else
    let close := if (t.drop ds.length).head? = some semicolon then 1 else 0
    some ([numbered (Nat.ofDigits b ds.reverse)], n + ds.length + close)

def reference (N : Names) (inValue : Bool) (t : Text) : Option (Text × Nat) :=
  match t with
  | [] => none
  | c :: t' =>
    if c = .scalar '#' then
      match t' with
      | .scalar 'x' :: t'' | .scalar 'X' :: t'' => numeric 16 2 t''
      | _ => numeric 10 1 t'
    else if isAlnum c then named N inValue t
    else none

def Names.references (N : Names) : References := ⟨reference N false, reference N true⟩

/-! Names that are read -/

section names
variable {N : Names} {inValue : Bool} {find : Text → Option Text} {p t : Text}

theorem longest_end (h : ∀ q, q ≠ [] → find (p ++ q) = none) (t : Text) :
    longest find p t = (find p).map (·, p.length) := by
  have hnone {q : Text} (hq : q ≠ []) (t : Text) : longest find (p ++ q) t = none := by
    induction t generalizing q with
    | nil => rw [longest, h q hq, Option.map_none]
    | cons c t ih =>
      rw [longest, List.append_assoc, ih (List.append_ne_nil_of_left_ne_nil hq _), h q hq]
      rfl
  cases t with
  | nil => rfl
  | cons c t => rw [longest, hnone (List.cons_ne_nil c []), Option.none_or]

/-- A name that ends with its `;` is read whatever follows. -/
theorem named_closed {c : CodePoint} {n : Text} (hf : N.find (n ++ [semicolon]) = some [c])
    (t : Text) : named N inValue (n ++ semicolon :: t) = some ([c], n.length + 1) := by
  have hend : longest N.find (n ++ [semicolon]) t = some ([c], n.length + 1) := by
    rw [longest_end ?_ t, hf, Option.map_some, List.length_append]
    · rfl
    · intro q hq
      by_contra hs
      refine N.ends _ (Option.isSome_iff_ne_none.mpr hs) ?_
      rw [List.dropLast_append_of_ne_nil hq]
      simp
  have hfrom (m k : Text) (hm : m ++ k = n) :
      longest N.find m (k ++ semicolon :: t) = some ([c], n.length + 1) := by
    induction k generalizing m with
    | nil =>
      rw [List.append_nil] at hm
      rw [hm, List.nil_append, longest, hend, Option.some_or]
    | cons d k ih =>
      rw [List.cons_append, longest, ih (m ++ [d]) (by simpa using hm), Option.some_or]
  have htake : (n ++ semicolon :: t).take (n.length + 1) = n ++ [semicolon] := by
    rw [List.take_length_add_append]
    rfl
  rw [named, hfrom [] n rfl, Option.filter_some, htake]
  simp

/-- An old name is read at the end of a text, without its `;`. -/
theorem named_open {c : CodePoint} {n : Text} (hf : N.find n = some [c]) :
    named N inValue n = some ([c], n.length) := by
  have hfrom (m k : Text) (hm : m ++ k = n) : longest N.find m k = some ([c], n.length) := by
    induction k generalizing m with
    | nil =>
      rw [List.append_nil] at hm
      rw [longest, hm, hf, Option.map_some]
    | cons d k ih => rw [longest, ih (m ++ [d]) (by simpa using hm), Option.some_or]
  rw [named, hfrom [] n rfl, Option.filter_some, List.drop_length]
  simp

end names

/-! References in a text -/

/-- `x` stands for `d`, whatever follows it. -/
def Stands (r : Reference) (x d : Text) : Prop := ∀ t, resolve r 0 (x ++ t) = d ++ resolve r 0 t

section stands
variable {r : Reference} {x y d e t : Text}

theorem resolve_over (x : Text) : resolve r x.length (x ++ t) = resolve r 0 t := by
  induction x with
  | nil => rfl
  | cons c x ih => exact ih

theorem Stands.nil : Stands r [] [] := fun _ => rfl

theorem Stands.append (hx : Stands r x d) (hy : Stands r y e) : Stands r (x ++ y) (d ++ e) := by
  intro t
  rw [List.append_assoc, hx, hy, List.append_assoc]

theorem Stands.letter {c : CodePoint} (hc : c ≠ ampersand) : Stands r [c] [c] := by
  intro t
  rw [List.singleton_append, resolve, if_neg hc, List.singleton_append]

theorem Stands.reference (h : ∀ t, r (x ++ t) = some (d, x.length)) :
    Stands r (ampersand :: x) d := by
  intro t
  rw [List.cons_append, resolve, if_pos rfl, h]
  exact congrArg (d ++ ·) (resolve_over x)

theorem Stands.resolved (h : Stands r x d) : resolve r 0 x = d := by
  have hx := h []
  rwa [List.append_nil, resolve, List.append_nil] at hx

/-- A reference that a text ends with. -/
theorem resolve_last (hx : Stands r x d) (hy : r y = some (e, y.length)) :
    resolve r 0 (x ++ ampersand :: y) = d ++ e := by
  have hover := resolve_over (r := r) (t := []) y
  rw [List.append_nil, resolve] at hover
  rw [hx, resolve, if_pos rfl, hy]
  exact congrArg (d ++ ·) ((congrArg (e ++ ·) hover).trans (List.append_nil e))

end stands

/-! What a reader is shown of tokens that make text, line ends and links -/

def nul : CodePoint := .scalar '\x00'

/-- In an element's content, a letter NUL is passed over. -/
def Token.content : Token → Text
  | .text t => t.filter (· ≠ nul)
  | .tag t => if t.name = word "br" then [lineFeed] else []
  | .other => []

def content (ts : List Token) : Text := ts.flatMap Token.content

def Token.endsLink : Token → Bool
  | .tag t => t.close && t.name == word "a"
  | _ => false

/-- Where a link leads, if a token begins one. -/
def Token.href : Token → Option Text
  | .tag t =>
    if !t.close && t.name == word "a" then
      (t.attributes.find? fun a => a.1 == word "href").map Prod.snd
    else none
  | _ => none

/-- Each link's address, with what the link shows. -/
def links : List Token → List (Text × Text)
  | [] => []
  | x :: ts =>
    match x.href with
    | some href => (href, content (ts.takeWhile (!·.endsLink))) :: links ts
    | none => links ts

section shown
variable {ts us : List Token} {t : Text}

theorem content_append : content (ts ++ us) = content ts ++ content us := List.flatMap_append

theorem content_text (R : References) (t : Text) :
    content ((flush t).map (Token.resolve R)) = (resolve R.inText 0 t).filter (· ≠ nul) := by
  unfold flush
  split
  · rename_i ht
    rw [ht]
    rfl
  · exact List.append_nil _

theorem links_text (h : ∀ x ∈ ts, ∃ t, x = .text t) : links (ts ++ us) = links us := by
  induction ts with
  | nil => rfl
  | cons x ts ih =>
    obtain ⟨t, rfl⟩ := h x List.mem_cons_self
    exact ih fun y hy => h y (.tail _ hy)

end shown

end Lattix.Lib.Html
