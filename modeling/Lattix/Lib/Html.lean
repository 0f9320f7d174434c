import Lattix.Lib.Json

/-! Reading a text as HTML: the tokens of the content of an ordinary element. -/

namespace Lattix.Lib.Html
open Json

structure Tag where
  close : Bool
  name : Text
  attributes : List (Text × Text)
  selfClosing : Bool
deriving DecidableEq, Repr

/-- `other` stands for a comment or a declaration, whatever it holds. -/
inductive Token where
  | text (t : Text)
  | tag (t : Tag)
  | other
deriving DecidableEq, Repr

/-- Of two attributes of one name the first counts. -/
def Tag.add (t : Tag) (name value : Text) : Tag :=
  if t.attributes.any fun a => a.1 == name then t
  else { t with attributes := t.attributes ++ [(name, value)] }

/-- What the next letter belongs to. An attribute's value ends with its quote, or
at a space where it has none. -/
inductive Mode where
  | data
  | tagOpen
  | endTagOpen
  | tagName (t : Tag)
  | beforeName (t : Tag)
  | name (t : Tag) (n : Text)
  | afterName (t : Tag) (n : Text)
  | beforeValue (t : Tag) (n : Text)
  | value (q : Option CodePoint) (t : Tag) (n v : Text)
  | afterValue (t : Tag)
  | selfClosing (t : Tag)
  | markup
deriving DecidableEq, Repr

/-- The text that no tag has ended yet is kept apart from the tokens. -/
structure State where
  tokens : List Token
  chars : Text
  mode : Mode
deriving DecidableEq, Repr

/-! Letters -/

def lineFeed : CodePoint := .scalar '\n'

def carriageReturn : CodePoint := .scalar '\r'

def opening : CodePoint := .scalar '<'

def closing : CodePoint := .scalar '>'

def slash : CodePoint := .scalar '/'

def equalsSign : CodePoint := .scalar '='

def apostrophe : CodePoint := .scalar '\''

def ampersand : CodePoint := .scalar '&'

def isSpace (c : CodePoint) : Bool :=
  c == .scalar '\t' || c == lineFeed || c == .scalar '\x0c' || c == .scalar ' '

def isAlpha : CodePoint → Bool
  | .scalar c => c.isAlpha
  | _ => false

/-- A letter of a name: capitals are made small. -/
def lowered : CodePoint → CodePoint
  | .scalar c => if c = '\x00' then .scalar '\uFFFD' else .scalar c.toLower
  | c => c

/-- A letter of a value. -/
def scrubbed (c : CodePoint) : CodePoint :=
  if c = .scalar '\x00' then .scalar '\uFFFD' else c

/-! The letters one after another -/

def flush (chars : Text) : List Token :=
  if chars = [] then [] else [.text chars]

def State.into (s : State) (m : Mode) : State := { s with mode := m }

def State.emit (s : State) (x : List Token) (m : Mode) : State :=
  ⟨s.tokens ++ flush s.chars ++ x, [], m⟩

def inData (s : State) (c : CodePoint) : State :=
  if c = opening then s.into .tagOpen else ⟨s.tokens, s.chars ++ [c], .data⟩

def inTagName (s : State) (t : Tag) (c : CodePoint) : State :=
  if isSpace c then s.into (.beforeName t)
  else if c = slash then s.into (.selfClosing t)
  else if c = closing then s.emit [.tag t] .data
  else s.into (.tagName { t with name := t.name ++ [lowered c] })

def inTagOpen (s : State) (c : CodePoint) : State :=
  if c = .scalar '!' ∨ c = .scalar '?' then s.emit [.other] .markup
  else if c = slash then s.into .endTagOpen
  else if isAlpha c then inTagName s ⟨false, [], [], false⟩ c
  else inData ⟨s.tokens, s.chars ++ [opening], .data⟩ c

def inEndTagOpen (s : State) (c : CodePoint) : State :=
  if isAlpha c then inTagName s ⟨true, [], [], false⟩ c
  else if c = closing then s.emit [] .data
  else s.emit [.other] .markup

def inName (s : State) (t : Tag) (n : Text) (c : CodePoint) : State :=
  if isSpace c then s.into (.afterName t n)
  else if c = slash then s.into (.selfClosing (t.add n []))
  else if c = closing then s.emit [.tag (t.add n [])] .data
  else if c = equalsSign then s.into (.beforeValue t n)
  else s.into (.name t (n ++ [lowered c]))

def inBeforeName (s : State) (t : Tag) (c : CodePoint) : State :=
  if isSpace c then s.into (.beforeName t)
  else if c = slash then s.into (.selfClosing t)
  else if c = closing then s.emit [.tag t] .data
  else if c = equalsSign then s.into (.name t [c])
  else inName s t [] c

def inAfterName (s : State) (t : Tag) (n : Text) (c : CodePoint) : State :=
  if isSpace c then s.into (.afterName t n)
  else if c = slash then s.into (.selfClosing (t.add n []))
  else if c = equalsSign then s.into (.beforeValue t n)
  else if c = closing then s.emit [.tag (t.add n [])] .data
  else inName s (t.add n []) [] c

def inValue (s : State) (q : Option CodePoint) (t : Tag) (n v : Text) (c : CodePoint) : State :=
  match q with
  | some q =>
    if c = q then s.into (.afterValue (t.add n v))
    else s.into (.value (some q) t n (v ++ [scrubbed c]))
  | none =>
    if isSpace c then s.into (.beforeName (t.add n v))
    else if c = closing then s.emit [.tag (t.add n v)] .data
    else s.into (.value none t n (v ++ [scrubbed c]))

def inBeforeValue (s : State) (t : Tag) (n : Text) (c : CodePoint) : State :=
  if isSpace c then s.into (.beforeValue t n)
  else if c = quote ∨ c = apostrophe then s.into (.value (some c) t n [])
  else if c = closing then s.emit [.tag (t.add n [])] .data
  else inValue s none t n [] c

def inAfterValue (s : State) (t : Tag) (c : CodePoint) : State :=
  if isSpace c then s.into (.beforeName t)
  else if c = slash then s.into (.selfClosing t)
  else if c = closing then s.emit [.tag t] .data
  else inBeforeName s t c

def inSelfClosing (s : State) (t : Tag) (c : CodePoint) : State :=
  if c = closing then s.emit [.tag { t with selfClosing := true }] .data else inBeforeName s t c

def step (s : State) (c : CodePoint) : State :=
  match s.mode with
  | .data => inData s c
  | .tagOpen => inTagOpen s c
  | .endTagOpen => inEndTagOpen s c
  | .tagName t => inTagName s t c
  | .beforeName t => inBeforeName s t c
  | .name t n => inName s t n c
  | .afterName t n => inAfterName s t n c
  | .beforeValue t n => inBeforeValue s t n c
  | .value q t n v => inValue s q t n v c
  | .afterValue t => inAfterValue s t c
  | .selfClosing t => inSelfClosing s t c
  | .markup => s

/-- At the end of the text a tag that was only begun is dropped. -/
def State.finish (s : State) : List Token :=
  match s.mode with
  | .tagOpen => s.tokens ++ flush (s.chars ++ [opening])
  | .endTagOpen => s.tokens ++ flush (s.chars ++ [opening, slash])
  | _ => s.tokens ++ flush s.chars

/-- A carriage return, and a line feed after it, is one line feed. -/
def normalize (after : Bool) : Text → Text
  | [] => []
  | c :: t =>
    if c = carriageReturn then lineFeed :: normalize true t
    else if c = lineFeed ∧ after then normalize false t
    else c :: normalize false t

/-! Character references -/

/-- What an ampersand and the letters after it stand for, and how many of these
letters it takes up. -/
abbrev Reference := Text → Option (Text × Nat)

structure References where
  inText : Reference
  inValue : Reference

def resolve (r : Reference) : Nat → Text → Text
  | _, [] => []
  | n + 1, _ :: t => resolve r n t
  | 0, c :: t =>
    if c = ampersand then
      match r t with
      | some (s, n) => s ++ resolve r n t
      | none => c :: resolve r 0 t
    else c :: resolve r 0 t

def Token.resolve (R : References) : Token → Token
  | .text t => .text (Html.resolve R.inText 0 t)
  | .tag t =>
    .tag { t with attributes := t.attributes.map fun a => (a.1, Html.resolve R.inValue 0 a.2) }
  | .other => .other

def tokenize (R : References) (t : Text) : List Token :=
  ((normalize false t).foldl step ⟨[], [], .data⟩).finish.map (Token.resolve R)

/-! Runs of letters that change no mode -/

def newline (c : CodePoint) : CodePoint := if c = carriageReturn then lineFeed else c

theorem newline_eq {c : CodePoint} (h : c ≠ carriageReturn) : newline c = c := if_neg h

theorem newline_ne {c d : CodePoint} (hc : c ≠ d) (hd : lineFeed ≠ d) : newline c ≠ d := by
  unfold newline
  split
  · exact hd
  · exact hc

theorem newline_map {t : Text} (h : carriageReturn ∉ t) : t.map newline = t := by
  induction t with
  | nil => rfl
  | cons c t ih =>
    rw [List.map_cons, newline_eq (List.ne_of_not_mem_cons h).symm,
      ih (List.not_mem_of_not_mem_cons h)]

/-- Without a line feed in the text, each carriage return is one. -/
theorem normalize_eq {t : Text} (after : Bool) (h : lineFeed ∉ t) :
    normalize after t = t.map newline := by
  induction t generalizing after with
  | nil => rfl
  | cons c t ih =>
    have hc : ¬(c = lineFeed ∧ after = true) := fun hf => h (hf.1 ▸ List.mem_cons_self)
    have ht : lineFeed ∉ t := (List.not_mem_of_not_mem_cons h)
    rw [normalize, if_neg hc, List.map_cons, newline]
    split
    · rw [ih true ht]
    · rw [ih false ht]

section runs
variable {ts : List Token} {cs t : Text}

theorem data_step {c : CodePoint} (h : c ≠ opening) :
    step ⟨ts, cs, .data⟩ c = ⟨ts, cs ++ [c], .data⟩ := if_neg h

/-- Text stays text until a tag is opened. -/
theorem data_run (h : opening ∉ t) : t.foldl step ⟨ts, cs, .data⟩ = ⟨ts, cs ++ t, .data⟩ := by
  induction t generalizing cs with
  | nil => rw [List.append_nil, List.foldl_nil]
  | cons c t ih =>
    rw [List.foldl_cons, data_step (List.ne_of_not_mem_cons h).symm,
      ih (List.not_mem_of_not_mem_cons h), List.append_assoc]
    rfl

/-- A value goes on until its own quote. -/
theorem value_run {q : CodePoint} {tag : Tag} {n v : Text} (h : q ∉ t) :
    t.foldl step ⟨ts, cs, .value (some q) tag n v⟩ =
      ⟨ts, cs, .value (some q) tag n (v ++ t.map scrubbed)⟩ := by
  induction t generalizing v with
  | nil => rw [List.map_nil, List.append_nil, List.foldl_nil]
  | cons c t ih =>
    have hs : step ⟨ts, cs, .value (some q) tag n v⟩ c =
        ⟨ts, cs, .value (some q) tag n (v ++ [scrubbed c])⟩ :=
      if_neg (List.ne_of_not_mem_cons h).symm
    rw [List.foldl_cons, hs, ih (List.not_mem_of_not_mem_cons h), List.append_assoc]
    rfl

end runs

/-- What comes before the first ampersand is read as it stands. -/
theorem resolve_append {r : Reference} {s t : Text} (h : ampersand ∉ s) :
    resolve r 0 (s ++ t) = s ++ resolve r 0 t := by
  induction s with
  | nil => rfl
  | cons c s ih =>
    rw [List.cons_append, resolve, if_neg (List.ne_of_not_mem_cons h).symm,
      ih (List.not_mem_of_not_mem_cons h), List.cons_append]

end Lattix.Lib.Html
