import Mathlib.Data.List.DropRight
import Lattix.Lib.Url.Host

namespace Lattix.Lib.Url
open Lib.Json

/-! The URL parser, without base URLs, queries and fragments, and with the four
schemes that a web page and its sockets are fetched with -/

/-- Controls and space. -/
def isBlank (c : Char) : Bool := c.toNat ≤ 0x20

def isTabOrNewline (c : Char) : Bool := c ∈ ['\t', '\n', '\r']

def trimBy (p : Char → Bool) (cs : List Char) : List Char := (cs.dropWhile p).rdropWhile p

def prepare (cs : List Char) : List Char := (trimBy isBlank cs).filter (!isTabOrNewline ·)

inductive Scheme where
  | http | https | ws | wss
deriving DecidableEq, Repr

def Scheme.name : Scheme → List Char
  | .http => ['h', 't', 't', 'p']
  | .https => ['h', 't', 't', 'p', 's']
  | .ws => ['w', 's']
  | .wss => ['w', 's', 's']

def Scheme.ofName (name : List Char) : Option Scheme :=
  [.http, .https, .ws, .wss].find? (·.name = name)

def Scheme.defaultPort : Scheme → Nat
  | .http | .ws => 80
  | .https | .wss => 443

def isSchemeLetter (c : Char) : Bool := c.isAlphanum || c ∈ ['+', '-', '.']

/-- A scheme, and what follows its colon. -/
def splitScheme (cs : List Char) : Option (List Char × List Char) :=
  if cs.head?.any Char.isAlpha ∧ (cs.dropWhile isSchemeLetter).head? = some ':' then
    some (lower (cs.takeWhile isSchemeLetter), (cs.dropWhile isSchemeLetter).tail)
  else none

/-! Percent-encoding -/

def pathSet (c : Char) : Bool :=
  isBlank c || 0x7e < c.toNat || c ∈ ['"', '#', '<', '>', '?', '^', '`', Char.ofNat 0x7b, Char.ofNat 0x7d]

def userinfoSet (c : Char) : Bool :=
  pathSet c || c ∈ ['/', ':', ';', '=', '@', '[', '\\', ']', '|']

def upperHex (d : Nat) : Char := if d < 10 then Char.ofNat (48 + d) else Char.ofNat (55 + d)

def percentByte (b : UInt8) : List Char := ['%', upperHex (b.toNat / 16), upperHex (b.toNat % 16)]

def percentEncode (set : Char → Bool) (cs : List Char) : List Char :=
  cs.flatMap fun c => if set c then (String.utf8EncodeChar c).flatMap percentByte else [c]

/-! Paths -/

def isSlash (c : Char) : Bool := c = '/' || c = '\\'

def isSingleDot (seg : List Char) : Bool := lower seg ∈ [['.'], ['%', '2', 'e']]

def isDoubleDot (seg : List Char) : Bool :=
  lower seg ∈ [['.', '.'], ['.', '%', '2', 'e'], ['%', '2', 'e', '.'], ['%', '2', 'e', '%', '2', 'e']]

/-- One segment of a path after the others; `final` if none follows. -/
def walkSegment (acc : List (List Char)) (seg : List Char) (final : Bool) : List (List Char) :=
  if isDoubleDot seg then acc.dropLast ++ (if final then [[]] else [])
  else if isSingleDot seg then acc ++ (if final then [[]] else [])
  else acc ++ [seg]

def walk (acc : List (List Char)) : List (List Char) → List (List Char)
  | [] => acc
  | seg :: rest => walk (walkSegment acc (percentEncode pathSet seg) rest.isEmpty) rest

/-! The parser -/

structure Address where
  scheme : Scheme
  username : List Char
  password : List Char
  host : Host
  port : Option Nat
  path : List (List Char)
deriving DecidableEq, Repr

/-- What ends the user, the host and the port. -/
def isEnd (c : Char) : Bool := isSlash c || c = '?' || c = '#'

/-- The host, and what follows the first colon outside brackets. -/
def splitPort : Bool → List Char → List Char × Option (List Char)
  | _, [] => ([], none)
  | inside, c :: cs =>
    if c = ':' ∧ inside = false then ([], some cs)
    else
      let (host, port) := splitPort (if c = '[' then true else if c = ']' then false else inside) cs
      (c :: host, port)

def parsePort (s : Scheme) : Option (List Char) → Option (Option Nat)
  | none => some none
  | some ds =>
    if ds.all Char.isDigit = false ∨ 65535 < value 10 ds then none
    else some (if ds = [] ∨ value 10 ds = s.defaultPort then none else some (value 10 ds))

/-- An authority and a path, each a text: the last `@` ends the user. -/
def parseParts (idna : Idna) (s : Scheme) (authority path : List Char) : Option Address :=
  let userinfo := ((authority.reverse.dropWhile (· ≠ '@')).drop 1).reverse
  let (host, port) := splitPort false (authority.reverse.takeWhile (· ≠ '@')).reverse
  match parseHost idna host, parsePort s port with
  | some h, some p =>
    some {
      scheme := s
      username := percentEncode userinfoSet (userinfo.takeWhile (· ≠ ':'))
      password := percentEncode userinfoSet ((userinfo.dropWhile (· ≠ ':')).drop 1)
      host := h
      port := p
      path := walk [] (path.tail.splitOnP isSlash) }
  | _, _ => none

/-- From the slashes behind the scheme on. -/
def parseAuthority (idna : Idna) (s : Scheme) (rest : List Char) : Option Address :=
  let rest := rest.dropWhile isSlash
  parseParts idna s (rest.takeWhile (!isEnd ·))
    ((rest.dropWhile (!isEnd ·)).takeWhile fun c => c ≠ '?' ∧ c ≠ '#')

inductive Parsed where
  | url (u : Address)
  | other
  | failure
deriving DecidableEq, Repr

/-- `other` says which texts with a further scheme are URLs. -/
def parse (idna : Idna) (other : List Char → Bool) (input : List Char) : Parsed :=
  match splitScheme (prepare input) with
  | none => .failure
  | some (name, rest) =>
    match Scheme.ofName name with
    | some s => (parseAuthority idna s rest).elim .failure .url
    | none => if other input then .other else .failure

/-! What is read of a URL -/

def Address.hostname (u : Address) : List Char := u.host.serialize

def portSuffix : Option Nat → List Char
  | none => []
  | some p => ':' :: decimal p

/-- The host with its port. -/
def Address.authority (u : Address) : List Char := u.hostname ++ portSuffix u.port

def joinPath (segs : List (List Char)) : List Char := segs.flatMap ('/' :: ·)

def Address.pathname (u : Address) : List Char := joinPath u.path

def Address.setScheme (u : Address) (s : Scheme) : Address :=
  { u with scheme := s, port := if u.port = some s.defaultPort then none else u.port }

/-! What is parsed -/

/-- A segment that the parser leaves alone. -/
def Clean (seg : List Char) : Prop :=
  (∀ c ∈ seg, pathSet c = false ∧ isSlash c = false) ∧ isSingleDot seg = false ∧ isDoubleDot seg = false

structure Address.Valid (idna : Idna) (u : Address) : Prop where
  host : u.host.Valid idna
  port : ∀ p ∈ u.port, p ≤ 65535 ∧ p ≠ u.scheme.defaultPort
  path : ∀ seg ∈ u.path, Clean seg

theorem percentEncode_self {set : Char → Bool} {cs : List Char} (h : ∀ c ∈ cs, set c = false) :
    percentEncode set cs = cs := by
  induction cs with
  | nil => rfl
  | cons c cs ih =>
    have hc := h c List.mem_cons_self
    rw [percentEncode, List.flatMap_cons, hc]
    exact congrArg (c :: ·) (ih fun d hd => h d (List.mem_cons_of_mem c hd))

theorem mem_percentByte {b : UInt8} {c : Char} (h : c ∈ percentByte b) :
    pathSet c = false ∧ isSlash c = false := by
  have hhex : ∀ d < 16, pathSet (upperHex d) = false ∧ isSlash (upperHex d) = false := by decide
  have hb : b.toNat < 256 := b.toNat_lt
  simp only [percentByte, List.mem_cons, List.not_mem_nil, or_false] at h
  rcases h with rfl | rfl | rfl
  · decide
  · exact hhex _ (by omega)
  · exact hhex _ (by omega)

theorem mem_percentEncode {cs : List Char} (h : ∀ c ∈ cs, isSlash c = false) :
    ∀ c ∈ percentEncode pathSet cs, pathSet c = false ∧ isSlash c = false := by
  intro c hc
  obtain ⟨d, hd, hc⟩ := List.mem_flatMap.mp hc
  split at hc
  · obtain ⟨b, -, hb⟩ := List.mem_flatMap.mp hc
    exact mem_percentByte hb
  · rename_i hset
    rw [List.mem_singleton.mp hc]
    exact ⟨Bool.eq_false_of_not_eq_true hset, h d hd⟩

theorem clean_nil : Clean [] := ⟨by simp, by decide, by decide⟩

theorem walkSegment_clean {acc : List (List Char)} {seg : List Char} {final : Bool}
    (hacc : ∀ s ∈ acc, Clean s) (hseg : ∀ c ∈ seg, pathSet c = false ∧ isSlash c = false) :
    ∀ s ∈ walkSegment acc seg final, Clean s := by
  have hend : ∀ s ∈ (if final then [[]] else [] : List (List Char)), Clean s := by
    intro s hs
    split at hs
    · rw [List.mem_singleton.mp hs]
      exact clean_nil
    · cases hs
  intro s hs
  unfold walkSegment at hs
  split at hs
  · exact (List.mem_append.mp hs).elim (fun h => hacc s (List.mem_of_mem_dropLast h)) (hend s)
  split at hs
  · exact (List.mem_append.mp hs).elim (hacc s) (hend s)
  rename_i hdouble hsingle
  rcases List.mem_append.mp hs with hs | hs
  · exact hacc s hs
  · rw [List.mem_singleton.mp hs]
    exact ⟨hseg, Bool.eq_false_of_not_eq_true hsingle, Bool.eq_false_of_not_eq_true hdouble⟩

theorem walk_clean {acc segs : List (List Char)} (hacc : ∀ s ∈ acc, Clean s)
    (hsegs : ∀ s ∈ segs, ∀ c ∈ s, isSlash c = false) : ∀ s ∈ walk acc segs, Clean s := by
  induction segs generalizing acc with
  | nil => exact hacc
  | cons seg rest ih =>
    exact ih (walkSegment_clean hacc (mem_percentEncode (hsegs seg List.mem_cons_self)))
      fun s hs => hsegs s (List.mem_cons_of_mem seg hs)

/-- Clean segments are put behind the others as they are. -/
theorem walk_append {acc segs : List (List Char)} (h : ∀ s ∈ segs, Clean s) :
    walk acc segs = acc ++ segs := by
  induction segs generalizing acc with
  | nil => exact (List.append_nil acc).symm
  | cons seg rest ih =>
    obtain ⟨hletters, hsingle, hdouble⟩ := h seg List.mem_cons_self
    rw [walk, percentEncode_self fun c hc => (hletters c hc).1, walkSegment, hsingle, hdouble,
      if_neg Bool.false_ne_true, if_neg Bool.false_ne_true,
      ih fun s hs => h s (List.mem_cons_of_mem seg hs), List.append_assoc]
    rfl

theorem mem_splitOnP {p : Char → Bool} {cs : List Char} :
    ∀ s ∈ cs.splitOnP p, ∀ c ∈ s, p c = false := by
  induction cs with
  | nil =>
    intro s hs c hc
    rw [List.splitOnP_nil, List.mem_singleton] at hs
    rw [hs] at hc
    cases hc
  | cons d cs ih =>
    intro s hs c hc
    rw [List.splitOnP_cons_eq_if_modifyHead] at hs
    split at hs
    · rcases List.mem_cons.mp hs with rfl | hs
      · cases hc
      · exact ih s hs c hc
    · rename_i hd
      obtain ⟨t, ts, ht⟩ := List.exists_cons_of_ne_nil (List.splitOnP_ne_nil p cs)
      rw [ht] at hs ih
      rcases List.mem_cons.mp hs with rfl | hs
      · rcases List.mem_cons.mp hc with rfl | hc
        · exact Bool.eq_false_of_not_eq_true hd
        · exact ih t List.mem_cons_self c hc
      · exact ih s (List.mem_cons_of_mem t hs) c hc

theorem parsePort_valid {s : Scheme} {text : Option (List Char)} {port : Option Nat}
    (h : parsePort s text = some port) : ∀ p ∈ port, p ≤ 65535 ∧ p ≠ s.defaultPort := by
  rintro p rfl
  rcases text with _ | ds
  · cases h
  · rw [parsePort] at h
    split at h
    · cases h
    · rename_i hno
      have h := Option.some.inj h
      split at h
      · cases h
      · rename_i hdefault
        cases h
        exact ⟨Nat.not_lt.mp fun hlt => hno (.inr hlt), fun he => hdefault (.inr he)⟩

theorem parseAuthority_valid {idna : Idna} {s : Scheme} {rest : List Char} {u : Address}
    (h : parseAuthority idna s rest = some u) : u.scheme = s ∧ u.Valid idna := by
  unfold parseAuthority parseParts at h
  dsimp only at h
  split at h
  · rename_i hhost hport
    cases h
    exact ⟨rfl, parseHost_valid hhost, parsePort_valid hport,
      walk_clean (by simp) mem_splitOnP⟩
  · cases h

theorem elim_url {o : Option Address} {u : Address} (h : o.elim .failure Parsed.url = .url u) :
    o = some u := by
  cases o with
  | none => cases h
  | some v => cases h; rfl

theorem parse_valid {idna : Idna} {other : List Char → Bool} {input : List Char} {u : Address}
    (h : parse idna other input = .url u) : u.Valid idna := by
  unfold parse at h
  split at h
  · cases h
  · split at h
    · exact (parseAuthority_valid (elim_url h)).2
    · split at h <;> cases h

end Lattix.Lib.Url
