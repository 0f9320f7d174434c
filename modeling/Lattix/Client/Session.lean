import Mathlib.Data.List.Basic
import Lattix.Client.Keys

namespace Lattix.Client

/-- A conversation object a sender holds on to: a peer's, or a group's by its
number, since one group's object can be dropped and made anew. -/
inductive Convo where
  | dm (peer : String)
  | group (ref : Nat)
deriving DecidableEq, Repr

/-- Who waits for `ensureGroupLoaded`: a caller that only shows or ingests, or
`sendCurrent` or `sendFile` with the group object it started on. -/
inductive Goal where
  | show
  | message (ref : Nat)
  | file (ref : Nat)
deriving DecidableEq, Repr

/-- `ensureGroupLoaded` over the members of an answer, with those still to be
adopted. `ref` is the object the answer's group has. -/
structure Load where
  goal : Goal
  ref : Nat
  detail : List Member
  todo : List Member
deriving DecidableEq, Repr

structure Recipient where
  username : String
  kemPub : String
deriving DecidableEq, Repr

/-- A payload whose content key has been wrapped, and the pins of that moment. -/
structure Payload where
  recipients : List Recipient
  pins : String → Option Pin

/-- A decoded envelope, with what it was verified in. -/
structure Decoded where
  sender : String
  context : String
  payload : String
  verified : Bool
deriving DecidableEq, Repr

/-- The open "Verify" dialog and what its toggle captured. -/
structure Dialog where
  username : String
  fp : String
  verified : Bool
deriving DecidableEq, Repr

/-- A signed-in session as far as keys go. Calls that fail go no further: their
entry stays where it is. -/
structure Session where
  keys : Keys
  groups : Nat → Option Nat
  rosters : Nat → List Member
  refs : Nat
  asked : List Goal
  loads : List Load
  files : List Convo
  dialog : Option Dialog
  built : List Payload
  decoded : List Decoded

/-- `bootApp` seeds the cache with the vault's keys, and reads the stored pins. -/
def Session.start (me : Identity) (pins : String → Option Pin) : Session where
  keys := {
    peers := Function.update (fun _ => none) me.username
      (some ⟨⟨none, me.kem, me.dsa⟩, me.fingerprint⟩)
    pins := pins
    alerts := fun _ => none }
  groups := fun _ => none
  rosters := fun _ => []
  refs := 0
  asked := []
  loads := []
  files := []
  dialog := none
  built := []
  decoded := []

/-- A turn of the client: an answer of the relay, an envelope it pushes, a click,
a file read from disk. -/
inductive Event where
  | user (u : String) (rec : KeyRecord)
  | load
  | sendGroup (g : Nat)
  | attachGroup (g : Nat)
  | detail (goal : Goal) (g : Nat) (members : List Member)
  | member (l : Load)
  | finish (l : Load)
  | merge (g : Nat) (members : Option (List Member))
  | drop (g : Nat)
  | send (u : String)
  | attach (u : String)
  | encrypt (c : Convo)
  | decode (sender context payload : String) (opened : Bool)
  | accept (u : String)
  | verify (u : String) (rec : KeyRecord)
  | toggle
  | close
  | link (who linkFp : String)
deriving DecidableEq

/-- The number of the group's object, which `ensureGroupConvo` makes if there is
none. -/
def Session.refOf (s : Session) (g : Nat) : Nat := (s.groups g).getD s.refs

/-- The relay's record of a group spread over what is known of it: its members
as they come, none of them checked. -/
def Session.ensureGroupConvo (g : Nat) (members : Option (List Member)) (s : Session) : Session :=
  { s with
    groups := Function.update s.groups g (some (s.refOf g))
    rosters := Function.update s.rosters (s.refOf g) (members.getD (s.rosters (s.refOf g)))
    refs := max s.refs (s.refOf g + 1) }

def Session.recipientsFor (me : Identity) (s : Session) : Convo → List Recipient
  | .group ref => (s.rosters ref).map fun m => ⟨m.username, m.kem⟩
  | .dm u =>
    match s.keys.peers u with
    | none => []
    | some p => ⟨u, p.kem⟩ :: if u = me.username then [] else [⟨me.username, me.kem⟩]

def Session.alertedIn (s : Session) : Convo → List String
  | .group ref => ((s.rosters ref).map Member.username).filter fun n => (s.keys.alerts n).isSome
  | .dm u => [u].filter fun n => (s.keys.alerts n).isSome

def Session.sendable (s : Session) (c : Convo) : Bool := (s.alertedIn c).isEmpty

def Session.build (me : Identity) (c : Convo) (s : Session) : Session :=
  { s with built := s.built ++ [⟨s.recipientsFor me c, s.keys.pins⟩] }

/-- The last line of `ensureGroupLoaded`. -/
def Session.enrol (l : Load) (s : Session) : Session :=
  { s with
    rosters := Function.update s.rosters l.ref (l.detail.map s.keys.merged)
    loads := s.loads.erase l }

/-- What the caller of `ensureGroupLoaded` goes on with. -/
def Session.resume (me : Identity) (s : Session) : Goal → Session
  | .show => s
  | .message ref => if s.sendable (.group ref) then s.build me (.group ref) else s
  | .file ref => if s.sendable (.group ref) then { s with files := s.files ++ [.group ref] } else s

/-- `decodeEnvelope`, with the sender's cached keys. `opened` says whether the
payload decrypts. -/
def Session.decode (C : Crypto) (me : Identity) (p : Peer) (sender context payload : String)
    (opened : Bool) (s : Session) : Session :=
  let keyAlert := decide (sender ≠ me.username) && (s.keys.alerts sender).isSome
  let verified := C.verifies p.dsa context payload && opened && !keyAlert
  { s with decoded := s.decoded ++ [⟨sender, context, payload, verified⟩] }

/-- `/^[0-9a-f]{64}$/` -/
def isSafetyCode (fp : String) : Bool :=
  fp.length == 64 && fp.all fun c => c.isDigit || 'a' ≤ c && c ≤ 'f'

def Session.adopt (me : Identity) (u : String) (rec : KeyRecord) (fp : String) (s : Session) :
    Session :=
  { s with keys := s.keys.adopt me.username u rec fp }

def Session.step (C : Crypto) (me : Identity) (s : Session) : Event → Option Session
  | .user u rec => (C.fingerprintOf rec.kem rec.dsa).map fun fp => s.adopt me u rec fp
  | .load => some { s with asked := s.asked ++ [.show] }
  | .sendGroup g => (s.groups g).map fun ref => { s with asked := s.asked ++ [.message ref] }
  | .attachGroup g => (s.groups g).map fun ref => { s with asked := s.asked ++ [.file ref] }
  | .detail goal g members =>
    if goal ∈ s.asked then
      some { s.ensureGroupConvo g (some members) with
        asked := s.asked.erase goal
        loads := s.loads ++ [⟨goal, s.refOf g, members, members⟩] }
    else none
  | .member l =>
    if l ∈ s.loads then
      match l.todo with
      | [] => none
      | m :: rest =>
        (C.fingerprintOf m.kem m.dsa).map fun fp =>
          { s.adopt me m.username m.record fp with
            loads := s.loads.erase l ++ [{ l with todo := rest }] }
    else none
  | .finish l => if l ∈ s.loads ∧ l.todo = [] then some ((s.enrol l).resume me l.goal) else none
  | .merge g members => some (s.ensureGroupConvo g members)
  | .drop g => some { s with groups := Function.update s.groups g none }
  | .send u =>
    if (s.keys.peers u).isSome ∧ s.sendable (.dm u) then some (s.build me (.dm u)) else none
  | .attach u =>
    if (s.keys.peers u).isSome ∧ s.sendable (.dm u) then
      some { s with files := s.files ++ [.dm u] }
    else none
  | .encrypt c =>
    if c ∈ s.files then some { s.build me c with files := s.files.erase c } else none
  | .decode sender context payload opened =>
    (s.keys.peers sender).map fun p => s.decode C me p sender context payload opened
  | .accept u => some { s with keys := s.keys.acceptNewKey u }
  | .verify u rec =>
    if u = me.username then none
    else
      (C.fingerprintOf rec.kem rec.dsa).map fun fp =>
        let s := s.adopt me u rec fp
        { s with dialog := some ⟨u, fp, s.keys.isVerified u⟩ }
  | .toggle =>
    s.dialog.map fun d =>
      { s with keys := s.keys.setVerified d.username d.fp (!d.verified), dialog := none }
  | .close => some { s with dialog := none }
  | .link who linkFp =>
    if who = me.username ∨ isSafetyCode linkFp = false then none
    else (s.keys.peers who).map fun p => { s with keys := s.keys.followLink who linkFp p }

/-- What each turn takes and what it leaves. -/
inductive Session.Moves (C : Crypto) (me : Identity) (s : Session) : Event → Session → Prop where
  | adopted {u : String} {rec : KeyRecord} {fp : String}
    (hf : C.fingerprintOf rec.kem rec.dsa = some fp) :
    s.Moves C me (.user u rec) (s.adopt me u rec fp)
  | loading : s.Moves C me .load { s with asked := s.asked ++ [.show] }
  | sending {g ref : Nat} (hg : s.groups g = some ref) :
    s.Moves C me (.sendGroup g) { s with asked := s.asked ++ [.message ref] }
  | attaching {g ref : Nat} (hg : s.groups g = some ref) :
    s.Moves C me (.attachGroup g) { s with asked := s.asked ++ [.file ref] }
  | detailed {goal : Goal} {g : Nat} {members : List Member} (hg : goal ∈ s.asked) :
    s.Moves C me (.detail goal g members) { s.ensureGroupConvo g (some members) with
      asked := s.asked.erase goal
      loads := s.loads ++ [⟨goal, s.refOf g, members, members⟩] }
  | checked {l : Load} {m : Member} {rest : List Member} {fp : String} (hl : l ∈ s.loads)
    (ht : l.todo = m :: rest) (hf : C.fingerprintOf m.kem m.dsa = some fp) :
    s.Moves C me (.member l) { s.adopt me m.username m.record fp with
      loads := s.loads.erase l ++ [{ l with todo := rest }] }
  | finished {l : Load} (hl : l ∈ s.loads) (ht : l.todo = []) :
    s.Moves C me (.finish l) ((s.enrol l).resume me l.goal)
  | merged (g : Nat) (members : Option (List Member)) :
    s.Moves C me (.merge g members) (s.ensureGroupConvo g members)
  | dropped (g : Nat) :
    s.Moves C me (.drop g) { s with groups := Function.update s.groups g none }
  | sent {u : String} (hu : s.sendable (.dm u) = true) :
    s.Moves C me (.send u) (s.build me (.dm u))
  | attached {u : String} (hu : s.sendable (.dm u) = true) :
    s.Moves C me (.attach u) { s with files := s.files ++ [.dm u] }
  | encrypted {c : Convo} (hc : c ∈ s.files) :
    s.Moves C me (.encrypt c) { s.build me c with files := s.files.erase c }
  | decoded {sender context payload : String} {opened : Bool} {p : Peer}
    (hp : s.keys.peers sender = some p) :
    s.Moves C me (.decode sender context payload opened)
      (s.decode C me p sender context payload opened)
  | accepted (u : String) : s.Moves C me (.accept u) { s with keys := s.keys.acceptNewKey u }
  | verifying {u : String} {rec : KeyRecord} {fp : String} (hu : u ≠ me.username)
    (hf : C.fingerprintOf rec.kem rec.dsa = some fp) :
    s.Moves C me (.verify u rec) { s.adopt me u rec fp with
      dialog := some ⟨u, fp, (s.adopt me u rec fp).keys.isVerified u⟩ }
  | toggled {d : Dialog} (hd : s.dialog = some d) :
    s.Moves C me .toggle
      { s with keys := s.keys.setVerified d.username d.fp (!d.verified), dialog := none }
  | closed : s.Moves C me .close { s with dialog := none }
  | linked {who linkFp : String} {p : Peer} (hw : who ≠ me.username)
    (hp : s.keys.peers who = some p) :
    s.Moves C me (.link who linkFp) { s with keys := s.keys.followLink who linkFp p }

theorem session_moves {C : Crypto} {me : Identity} {s s' : Session} {e : Event}
    (hs : s.step C me e = some s') : s.Moves C me e s' := by
  cases e with
  | user u rec =>
    obtain ⟨fp, hf, rfl⟩ := Option.map_eq_some_iff.mp hs
    exact .adopted hf
  | sendGroup g =>
    obtain ⟨ref, hg, rfl⟩ := Option.map_eq_some_iff.mp hs
    exact .sending hg
  | attachGroup g =>
    obtain ⟨ref, hg, rfl⟩ := Option.map_eq_some_iff.mp hs
    exact .attaching hg
  | detail goal g members =>
    simp only [Session.step] at hs
    split at hs
    · rename_i hg
      cases hs
      exact .detailed hg
    · cases hs
  | member l =>
    simp only [Session.step] at hs
    split at hs
    · rename_i hl
      split at hs
      · cases hs
      · rename_i ht
        obtain ⟨fp, hf, rfl⟩ := Option.map_eq_some_iff.mp hs
        exact .checked hl ht hf
    · cases hs
  | finish l =>
    simp only [Session.step] at hs
    split at hs
    · rename_i hl
      cases hs
      exact .finished hl.1 hl.2
    · cases hs
  | send u =>
    simp only [Session.step] at hs
    split at hs
    · rename_i hu
      cases hs
      exact .sent hu.2
    · cases hs
  | attach u =>
    simp only [Session.step] at hs
    split at hs
    · rename_i hu
      cases hs
      exact .attached hu.2
    · cases hs
  | encrypt c =>
    simp only [Session.step] at hs
    split at hs
    · rename_i hc
      cases hs
      exact .encrypted hc
    · cases hs
  | decode sender context payload opened =>
    obtain ⟨p, hp, rfl⟩ := Option.map_eq_some_iff.mp hs
    exact .decoded hp
  | verify u rec =>
    simp only [Session.step] at hs
    split at hs
    · cases hs
    · rename_i hu
      obtain ⟨fp, hf, rfl⟩ := Option.map_eq_some_iff.mp hs
      exact .verifying hu hf
  | toggle =>
    obtain ⟨d, hd, rfl⟩ := Option.map_eq_some_iff.mp hs
    exact .toggled hd
  | link who linkFp =>
    simp only [Session.step] at hs
    split at hs
    · cases hs
    · rename_i hw
      obtain ⟨p, hp, rfl⟩ := Option.map_eq_some_iff.mp hs
      exact .linked (fun he => hw (.inl he)) hp
  | load | merge g members | drop g | accept u | close =>
    cases hs
    constructor

end Lattix.Client
