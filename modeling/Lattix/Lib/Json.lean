import Mathlib.Data.Nat.Digits.Defs

namespace Lattix.Lib.Json

/-- A code point of a string: a character, or half of a surrogate pair on its
own, which an escape can name though no character does. -/
inductive CodePoint where
  | scalar (c : Char)
  | high (n : Fin 1024)
  | low (n : Fin 1024)
deriving DecidableEq, Repr

abbrev Text := List CodePoint

def text (cs : List Char) : Text := cs.map .scalar

/-- Encoding as UTF-8, which has no surrogates. -/
def encode : Text → Option (List Char)
  | [] => some []
  | .scalar c :: t => (encode t).map (c :: ·)
  | _ :: _ => none

/-- A finite number of IEEE 754 binary64, by its three fields. -/
structure Double where
  negative : Bool
  exponent : Fin 2047
  fraction : Fin (2 ^ 52)
deriving DecidableEq, Repr

inductive Number where
  | int (n : Int)
  | finite (x : Double)
  | infinity (negative : Bool)
  | nan
deriving DecidableEq, Repr

inductive Json where
  | null
  | bool (b : Bool)
  | number (n : Number)
  | string (s : Text)
  | array (items : List Json)
  | object (fields : List (Text × Json))

def quote : CodePoint := .scalar '"'

def backslash : CodePoint := .scalar '\\'

/-! Reading numbers -/

def isDigit : CodePoint → Bool
  | .scalar c => c.isDigit
  | _ => false

/-- The digits a text starts with, and what follows them. -/
def digits : Text → List Char × Text
  | .scalar c :: rest =>
    if c.isDigit then (c :: (digits rest).1, (digits rest).2) else ([], .scalar c :: rest)
  | t => ([], t)

/-- `0`, or digits that do not start with it. -/
def whole : Text → Option (List Char × Text)
  | .scalar c :: rest =>
    if c = '0' then some (['0'], rest)
    else if c.isDigit then some (c :: (digits rest).1, (digits rest).2)
    else none
  | _ => none

/-- An optional fraction: a dot counts only with a digit after it. -/
def fraction (t : Text) : List Char × Text :=
  match t with
  | .scalar '.' :: rest =>
    if (digits rest).1 = [] then ([], t) else ('.' :: (digits rest).1, (digits rest).2)
  | _ => ([], t)

/-- An optional sign of an exponent. -/
def sign : Text → List Char × Text
  | .scalar c :: rest => if c = '+' ∨ c = '-' then ([c], rest) else ([], .scalar c :: rest)
  | t => ([], t)

def exponent (t : Text) : List Char × Text :=
  match t with
  | .scalar c :: rest =>
    if (c = 'e' ∨ c = 'E') ∧ (digits (sign rest).2).1 ≠ [] then
      (c :: (sign rest).1 ++ (digits (sign rest).2).1, (digits (sign rest).2).2)
    else ([], t)
  | _ => ([], t)

def minus : Text → List Char × Text
  | .scalar '-' :: rest => (['-'], rest)
  | t => ([], t)

/-- A literal's sign, its whole part, and the part that makes it a float. -/
structure Literal where
  sign : List Char
  whole : List Char
  tail : List Char
deriving DecidableEq, Repr

def literal (t : Text) : Option (Literal × Text) :=
  (whole (minus t).2).map fun (ds, t') =>
    (⟨(minus t).1, ds, (fraction t').1 ++ (exponent (fraction t').2).1⟩,
      (exponent (fraction t').2).2)

def Literal.chars (l : Literal) : List Char := l.sign ++ l.whole ++ l.tail

/-- The conversions between doubles and decimal literals: correctly rounded one
way, with nothing for an overflow, and shortest with the same value the other
way. -/
structure Doubles where
  parse : List Char → Option Double
  repr : Double → List Char
  parse_repr : ∀ x, parse (repr x) = some x
  repr_literal : ∀ x, ∃ l, literal (text (repr x)) = some (l, []) ∧ l.tail ≠ [] ∧ l.chars = repr x

def natOf (ds : List Char) : Nat := ds.foldl (fun n d => 10 * n + (d.toNat - '0'.toNat)) 0

/-- Python refuses longer integers, in either direction. -/
def maxDigits : Nat := 4300

variable (Φ : Doubles)

def readNumber (lenient : Bool) (t : Text) : Option (Number × Text) :=
  match literal t with
  | none => none
  | some (l, rest) =>
    if l.tail = [] then
      if lenient = false ∨ l.whole.length ≤ maxDigits then
        some (.int (if l.sign = [] then natOf l.whole else -(natOf l.whole : Int)), rest)
      else none
    else
      match Φ.parse l.chars with
      | some x => some (.finite x, rest)
      | none => some (.infinity (decide (l.sign ≠ [])), rest)

/-! Reading strings -/

def hexDigit (n : Nat) : Char := Char.ofNat (if n < 10 then 48 + n else 87 + n)

def hexValue : CodePoint → Option Nat
  | .scalar c =>
    if c.isDigit then some (c.toNat - 48)
    else if 'a' ≤ c ∧ c ≤ 'f' then some (c.toNat - 87)
    else if 'A' ≤ c ∧ c ≤ 'F' then some (c.toNat - 55)
    else none
  | _ => none

def hex4 (a b c d : CodePoint) : Option Nat := do
  return (((← hexValue a) * 16 + (← hexValue b)) * 16 + (← hexValue c)) * 16 + (← hexValue d)

def codeUnit (n : Nat) : CodePoint :=
  if 0xD800 ≤ n ∧ n < 0xDC00 then .high (Fin.ofNat 1024 (n - 0xD800))
  else if 0xDC00 ≤ n ∧ n < 0xE000 then .low (Fin.ofNat 1024 (n - 0xDC00))
  else .scalar (Char.ofNat n)

/-- The characters with an escape of two characters, and its second one. -/
def shorts : List (Char × Char) :=
  [('"', '"'), ('\\', '\\'), ('\n', 'n'), ('\r', 'r'), ('\t', 't'), (Char.ofNat 12, 'f'),
    (Char.ofNat 8, 'b')]

def short (c : Char) : Option Char := (shorts.find? fun p => p.1 == c).map Prod.snd

def unshort : CodePoint → Option Char
  | .scalar e => ((('/', '/') :: shorts).find? fun p => p.2 == e).map Prod.fst
  | _ => none

def control : CodePoint → Bool
  | .scalar c => decide (c.toNat < 32)
  | _ => false

/-- A code point read, and whether a `\u` escape named it. -/
abbrev Unit16 := CodePoint × Bool

/-- What follows an opening quote, up to the closing one. -/
def scan : Text → Option (List Unit16 × Text)
  | [] => none
  | c :: rest =>
    if c = quote then some ([], rest)
    else if c = backslash then
      match rest with
      | [] => none
      | e :: rest =>
        if e = .scalar 'u' then
          match rest with
          | a :: b :: c :: d :: rest =>
            match hex4 a b c d with
            | none => none
            | some n => (scan rest).map fun r => ((codeUnit n, true) :: r.1, r.2)
          | _ => none
        else
          match unshort e with
          | none => none
          | some c => (scan rest).map fun r => ((.scalar c, false) :: r.1, r.2)
    else if control c then none
    else (scan rest).map fun r => ((c, false) :: r.1, r.2)

def pair (h l : Fin 1024) : Char := Char.ofNat (0x10000 + 1024 * h + l)

/-- Two escapes that form a surrogate pair are one character. -/
def joinPairs : List Unit16 → Text
  | [] => []
  | (.high h, true) :: (.low l, true) :: rest => .scalar (pair h l) :: joinPairs rest
  | (c, _) :: rest => c :: joinPairs rest

def readString (t : Text) : Option (Text × Text) :=
  match t with
  | c :: rest => if c = quote then (scan rest).map fun r => (joinPairs r.1, r.2) else none
  | [] => none

/-! Reading values -/

def isSpace : CodePoint → Bool
  | .scalar c => c = ' ' || c = '\t' || c = '\n' || c = '\r'
  | _ => false

def skip (t : Text) : Text := t.dropWhile isSpace

/-- `d[k] = v` on a dictionary, which keeps a key's first place. -/
def insert (k : Text) (v : Json) : List (Text × Json) → List (Text × Json)
  | [] => [(k, v)]
  | f :: fs => if f.1 = k then (k, v) :: fs else f :: insert k v fs

def dict (fields : List (Text × Json)) : List (Text × Json) :=
  fields.foldl (fun d f => insert f.1 f.2 d) []

def infinity : List Char := ['I', 'n', 'f', 'i', 'n', 'i', 't', 'y']

def constants : List (List Char × Json) :=
  [(['n', 'u', 'l', 'l'], .null), (['t', 'r', 'u', 'e'], .bool true),
    (['f', 'a', 'l', 's', 'e'], .bool false)]

/-- Words that are no JSON, though Python reads and writes them. -/
def specials : List (List Char × Json) :=
  [(['N', 'a', 'N'], .number .nan), (infinity, .number (.infinity false)),
    ('-' :: infinity, .number (.infinity true))]

def dropPrefix (cs : List Char) (t : Text) : Option Text :=
  if text cs <+: t then some (t.drop cs.length) else none

def readWord (words : List (List Char × Json)) (t : Text) : Option (Json × Text) :=
  words.findSome? fun w => (dropPrefix w.1 t).map fun rest => (w.2, rest)

/-- `lenient` is Python's reading, which takes the special words for numbers. -/
def readAtom (lenient : Bool) (t : Text) : Option (Json × Text) :=
  match readWord (constants ++ if lenient then specials else []) t with
  | some r => some r
  | none => (readNumber Φ lenient t).map fun r => (.number r.1, r.2)

/-- A key with its colon. -/
def readKey (t : Text) : Option (Text × Text) := do
  let (k, t) ← readString t
  match skip t with
  | .scalar ':' :: rest => some (k, skip rest)
  | _ => none

/-! `fuel` bounds the nesting; the length of the text is always enough. -/
section read
variable (lenient : Bool)

mutual

def readValue : Nat → Text → Option (Json × Text)
  | 0, _ => none
  | fuel + 1, t =>
    match t with
    | .scalar '"' :: _ => (readString t).map fun r => (.string r.1, r.2)
    | .scalar '[' :: rest =>
      match skip rest with
      | .scalar ']' :: rest => some (.array [], rest)
      | t => do
        let (v, t) ← readValue fuel t
        let (vs, t) ← readItems fuel t
        some (.array (v :: vs), t)
    | .scalar '{' :: rest =>
      match skip rest with
      | .scalar '}' :: rest => some (.object [], rest)
      | t => do
        let (k, t) ← readKey t
        let (v, t) ← readValue fuel t
        let (fs, t) ← readFields fuel t
        some (.object (dict ((k, v) :: fs)), t)
    | t => readAtom Φ lenient t

/-- What follows an item of an array. -/
def readItems : Nat → Text → Option (List Json × Text)
  | 0, _ => none
  | fuel + 1, t =>
    match skip t with
    | .scalar ']' :: rest => some ([], rest)
    | .scalar ',' :: rest => do
      let (v, t) ← readValue fuel (skip rest)
      let (vs, t) ← readItems fuel t
      some (v :: vs, t)
    | _ => none

/-- What follows a field of an object. -/
def readFields : Nat → Text → Option (List (Text × Json) × Text)
  | 0, _ => none
  | fuel + 1, t =>
    match skip t with
    | .scalar '}' :: rest => some ([], rest)
    | .scalar ',' :: rest => do
      let (k, t) ← readKey (skip rest)
      let (v, t) ← readValue fuel t
      let (fs, t) ← readFields fuel t
      some ((k, v) :: fs, t)
    | _ => none

end

/-- The value of a whole text. -/
def parse (t : Text) : Option Json :=
  match readValue Φ lenient (t.length + 1) (skip t) with
  | some (v, rest) => if skip rest = [] then some v else none
  | none => none

end read

/-- `json.loads(t)` -/
def loads (t : Text) : Option Json := parse Φ true t

/-! Writing -/

def uEscape (n : Nat) : List Char :=
  ['\\', 'u', hexDigit (n / 4096), hexDigit (n / 256 % 16), hexDigit (n / 16 % 16), hexDigit (n % 16)]

/-- A code point above the first 65536 is written as two escapes. -/
def unicodeEscape (c : Char) : List Char :=
  if c.toNat < 0x10000 then uEscape c.toNat
  else uEscape (0xD800 + (c.toNat - 0x10000) / 1024) ++ uEscape (0xDC00 + (c.toNat - 0x10000) % 1024)

/-- Only printable ASCII stands for itself. -/
def asciiEscape : CodePoint → List Char
  | .scalar c =>
    match short c with
    | some e => ['\\', e]
    | none => if 32 ≤ c.toNat ∧ c.toNat < 127 then [c] else unicodeEscape c
  | .high n => uEscape (0xD800 + n)
  | .low n => uEscape (0xDC00 + n)

/-- Only quotes, backslashes and control characters are escaped. -/
def rawEscape : CodePoint → Text
  | .scalar c =>
    match short c with
    | some e => text ['\\', e]
    | none => if c.toNat < 32 then text (uEscape c.toNat) else [.scalar c]
  | c => [c]

/-- A way to write JSON text over the letters `γ`. -/
structure Writer (γ : Type) where
  char : Char → γ
  escape : CodePoint → List γ
  comma : List Char
  colon : List Char

/-- `json.dumps(v)`. -/
def ascii : Writer Char := ⟨id, asciiEscape, [',', ' '], [':', ' ']⟩

/-- `json.dumps(v, ensure_ascii=False, separators=(",", ":"))`. -/
def compact : Writer CodePoint := ⟨.scalar, rawEscape, [','], [':']⟩

/-- `JSON.stringify(v)`, which escapes what is half of a surrogate pair. -/
def stringify : Writer Char where
  char := id
  escape
    | .scalar c =>
      match short c with
      | some e => ['\\', e]
      | none => if c.toNat < 32 then uEscape c.toNat else [c]
    | .high n => uEscape (0xD800 + n)
    | .low n => uEscape (0xDC00 + n)
  comma := [',']
  colon := [':']

/-- A decimal digit as a letter. -/
def digit (d : Nat) : Char := Char.ofNat (48 + d)

/-- The digits of a number, the leading one first. -/
def decimal (n : Nat) : List Char :=
  if n = 0 then ['0'] else (Nat.digits 10 n).reverse.map digit

def intText (n : Int) : List Char := (if n < 0 then ['-'] else []) ++ decimal n.natAbs

def numberText : Number → List Char
  | .int n => intText n
  | .finite x => Φ.repr x
  | .infinity negative => if negative then '-' :: infinity else infinity
  | .nan => ['N', 'a', 'N']

section write
variable {γ : Type} (W : Writer γ)

def Writer.word (cs : List Char) : List γ := cs.map W.char

def Writer.string (s : Text) : List γ :=
  W.char '"' :: s.flatMap W.escape ++ [W.char '"']

mutual

def write : Json → List γ
  | .null => W.word ['n', 'u', 'l', 'l']
  | .bool b => W.word (if b then ['t', 'r', 'u', 'e'] else ['f', 'a', 'l', 's', 'e'])
  | .number n => W.word (numberText Φ n)
  | .string s => W.string s
  | .array [] => W.word ['[', ']']
  | .array (v :: vs) => W.char '[' :: write v ++ writeItems vs
  | .object [] => W.word ['{', '}']
  | .object ((k, v) :: fs) => W.char '{' :: W.string k ++ W.word W.colon ++ write v ++ writeFields fs

def writeItems : List Json → List γ
  | [] => [W.char ']']
  | v :: vs => W.word W.comma ++ write v ++ writeItems vs

def writeFields : List (Text × Json) → List γ
  | [] => [W.char '}']
  | (k, v) :: fs => W.word W.comma ++ W.string k ++ W.word W.colon ++ write v ++ writeFields fs

end

end write

def dumps (v : Json) : List Char := write Φ ascii v

/-- `v[k]` -/
def Json.get (k : Text) : Json → Option Json
  | .object fs => (fs.find? fun f => f.1 == k).map Prod.snd
  | _ => none

/-! Conditions on every part of a value -/

mutual

def every (p : Json → Bool) : Json → Bool
  | .array vs => p (.array vs) && everyItem p vs
  | .object fs => p (.object fs) && everyField p fs
  | v => p v

def everyItem (p : Json → Bool) : List Json → Bool
  | [] => true
  | v :: vs => every p v && everyItem p vs

def everyField (p : Json → Bool) : List (Text × Json) → Bool
  | [] => true
  | (_, v) :: fs => every p v && everyField p fs

end

/-- Integers that Python can write and read. -/
def Number.small : Number → Bool
  | .int n => decide ((decimal n.natAbs).length ≤ maxDigits)
  | _ => true

/-- What reading builds: keys differ, and Python's integers are not too long. -/
def Json.built (lenient : Bool) : Json → Bool
  | .number n => !lenient || n.small
  | .object fs => decide (fs.map Prod.fst).Nodup
  | _ => true

def CodePoint.isScalar : CodePoint → Bool
  | .scalar _ => true
  | _ => false

def Number.isFinite : Number → Bool
  | .int _ | .finite _ => true
  | _ => false

/-- Every string and every key meets `ok`. -/
def Json.spelled (ok : Text → Bool) : Json → Bool
  | .string s => ok s
  | .object fs => fs.all fun f => ok f.1
  | _ => true

def ofScalars (t : Text) : Bool := t.all CodePoint.isScalar

/-- Every string is one of characters. -/
def Json.legible : Json → Bool := spelled ofScalars

/-- A high surrogate followed by a low one is a pair, not two code points. -/
def joined : Text → Bool
  | .high _ :: .low _ :: _ => false
  | _ :: t => joined t
  | [] => true

/-- Every number has a literal. -/
def Json.numeric : Json → Bool
  | .number n => n.isFinite
  | _ => true

end Lattix.Lib.Json
