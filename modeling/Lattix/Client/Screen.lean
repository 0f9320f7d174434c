import Mathlib.Logic.Function.Basic
import Mathlib.Data.List.Basic

namespace Lattix.Client

/-- A character of the text box, and where it was typed: the conversation that
was open then. The relay and the browser see the character alone. What no one
typed in this session has serial number 0. -/
structure Glyph where
  char : Char
  origin : String
  serial : Nat
deriving DecidableEq, Repr

abbrev Text := List Glyph

/-- White space and line terminators, as `String.prototype.trim` takes them. -/
def isSpace (c : Char) : Bool :=
  c.toNat ∈ [9, 10, 11, 12, 13, 32, 0xa0, 0x1680, 0x2028, 0x2029, 0x202f, 0x205f, 0x3000, 0xfeff] ||
    decide (0x2000 ≤ c.toNat) && decide (c.toNat ≤ 0x200a)

def Glyph.blank (g : Glyph) : Bool := isSpace g.char

def trim (t : Text) : Text :=
  ((t.dropWhile Glyph.blank).reverse.dropWhile Glyph.blank).reverse

/-- A call of `selectConversation` that has not returned. `named` once it has
written the header. -/
structure Select where
  cid : String
  named : Bool
deriving DecidableEq, Repr

/-- A message on its way: `sendCurrent` between clearing the box and the
relay's answer. -/
structure Send where
  cid : String
  text : Text
deriving DecidableEq, Repr

def groupCid (id : Nat) : String := "group:" ++ toString id

/-- The open conversation, the header, the names of the groups the client holds
(empty for one without), the one text box, the stored drafts, and the calls in
flight. `typed`, `cleared` and `sent` record what became of every character; the
client does not keep them. -/
structure Screen where
  current : Option String
  header : Option String
  groups : String → Option String
  input : Text
  drafts : String → Text
  selects : List Select
  sends : List Send
  serial : Nat
  typed : Text
  cleared : Text
  sent : List Send

/-- A session starts with the drafts that earlier ones stored. -/
def Screen.start (stored : String → List Char) : Screen :=
  ⟨none, none, fun _ => none, [], fun cid => (stored cid).map fun c => ⟨c, cid, 0⟩, [], [], 1, [],
    [], []⟩

/-- What the user, a timer or an answer from the relay makes the page do.
`learn` is any answer about a group (or a backup that has it) that the client
merges into what it holds, `members` a group event. `close` is blocking the
contact, leaving the group or being removed from it. -/
inductive Action where
  | learn (id : Nat) (name : Option String)
  | members (id : Nat) (name : Option String)
  | select (cid : String)
  | resume (cid : String)
  | done (cid : String)
  | back
  | close
  | edit (position removed : Nat) (inserted : List Char)
  | autosave
  | send
  | sendOk (m : Send)
  | sendFail (m : Send)
deriving DecidableEq

/-- What the header shows for a conversation. -/
def Screen.title (s : Screen) (cid : String) : String :=
  match s.groups cid with
  | none => cid
  | some name => "👥 " ++ if name = "" then "Group" else name

/-- A record without a name leaves the one that is held. -/
def Screen.ensureGroupConvo (id : Nat) (name : Option String) (s : Screen) : Screen :=
  let cid := groupCid id
  { s with groups := Function.update s.groups cid (some (name.getD ((s.groups cid).getD ""))) }

/-- Text of white space only is not worth a draft. -/
def setDraft (cid : String) (t : Text) (drafts : String → Text) : String → Text :=
  Function.update drafts cid (if trim t = [] then [] else t)

/-- `setDraft(state.current, …)`, which does nothing when nothing is open. -/
def Screen.stash (s : Screen) : String → Text :=
  match s.current with
  | none => s.drafts
  | some cid => setDraft cid s.input s.drafts

/-- The part of `selectConversation` before its first await. -/
def Screen.open (cid : String) (s : Screen) : Screen :=
  if s.current = some cid then { s with selects := s.selects ++ [⟨cid, false⟩] }
  else
    let drafts := s.stash
    { s with
      current := some cid
      drafts := drafts
      input := drafts cid
      selects := s.selects ++ [⟨cid, false⟩] }

/-- New characters belong to the conversation they are typed in. -/
def fresh (origin : String) : Nat → List Char → Text
  | _, [] => []
  | n, c :: cs => ⟨c, origin, n⟩ :: fresh origin (n + 1) cs

def Screen.type (cid : String) (position removed : Nat) (inserted : List Char) (s : Screen) :
    Screen :=
  let new := fresh cid s.serial inserted
  let rest := s.input.drop position
  { s with
    input := s.input.take position ++ new ++ rest.drop removed
    cleared := s.cleared ++ rest.take removed
    typed := s.typed ++ new
    serial := s.serial + inserted.length }

/-- The failure path of `sendCurrent`: the text goes back into the box, before
whatever is there, and into the draft. -/
def Screen.restore (m : Send) (s : Screen) : Screen :=
  let input := if s.input = [] then m.text else m.text ++ ⟨'\n', m.cid, 0⟩ :: s.input
  { s with
    input := input
    drafts := setDraft m.cid input s.drafts
    sends := s.sends.erase m }

/-- The answer to the request that a `members` event makes `onGroupEvent` send. -/
def Screen.refresh (id : Nat) (name : Option String) (s : Screen) : Screen :=
  let s := s.ensureGroupConvo id name
  if s.current = some (groupCid id) then s.open (groupCid id) else s

def Screen.step (s : Screen) : Action → Option Screen
  | .learn id name => some (s.ensureGroupConvo id name)
  | .members id name => some (s.refresh id name)
  | .select cid => some (s.open cid)
  | .resume cid =>
    if ⟨cid, false⟩ ∈ s.selects then
      some { s with
        header := some (s.title cid)
        selects := s.selects.erase ⟨cid, false⟩ ++ [⟨cid, true⟩] }
    else none
  | .done cid =>
    if ⟨cid, true⟩ ∈ s.selects then some { s with selects := s.selects.erase ⟨cid, true⟩ }
    else none
  | .back => some { s with drafts := s.stash, current := none }
  | .close => some { s with current := none }
  | .edit position removed inserted => s.current.map fun cid => s.type cid position removed inserted
  | .autosave => some { s with drafts := s.stash }
  | .send =>
    match s.current with
    | none => none
    | some cid =>
      if trim s.input = [] then none
      else some { s with input := [], sends := s.sends ++ [⟨cid, trim s.input⟩] }
  | .sendOk m =>
    if m ∈ s.sends then
      some { s with
        drafts := setDraft m.cid [] s.drafts
        sends := s.sends.erase m
        sent := s.sent ++ [m] }
    else none
  | .sendFail m => if m ∈ s.sends then some (s.restore m) else none

end Lattix.Client
