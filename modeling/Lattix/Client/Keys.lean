import Mathlib.Logic.Function.Basic

namespace Lattix.Client

/-- Two public keys as the relay hands them out, and the name it puts on them. -/
structure KeyRecord where
  username : Option String
  kem : String
  dsa : String
deriving DecidableEq, Repr

/-- What `state.peers` holds of a contact: the newest record, and the
fingerprint computed here from its two keys. -/
structure Peer extends KeyRecord where
  fingerprint : String
deriving DecidableEq, Repr

structure Pin where
  fp : String
  verified : Bool
deriving DecidableEq, Repr

inductive Reason where
  | changed
  | link
deriving DecidableEq, Repr

structure Alert where
  oldFp : String
  newFp : String
  reason : Reason
deriving DecidableEq, Repr

/-- A member as a group's detail lists it. -/
structure Member where
  username : String
  kem : String
  dsa : String
deriving DecidableEq, Repr

/-- The unlocked vault's public half. -/
structure Identity where
  username : String
  kem : String
  dsa : String
  fingerprint : String
deriving DecidableEq, Repr

/-- What the client asks of `crypto.js`. `fingerprintOf kem dsa` throws on keys
that do not decode; `verifies dsa context payload` checks a signature. -/
structure Crypto where
  fingerprintOf : String → String → Option String
  verifies : String → String → String → Bool

/-- A fingerprint that shows both keys, and signatures that are the key itself. -/
def Crypto.plain : Crypto := ⟨fun kem dsa => some (kem ++ dsa), fun dsa _ payload => dsa == payload⟩

/-- The three stores that say which key stands for whom. -/
structure Keys where
  peers : String → Option Peer
  pins : String → Option Pin
  alerts : String → Option Alert

def Member.record (m : Member) : KeyRecord := ⟨some m.username, m.kem, m.dsa⟩

def Keys.pinKey (u fp : String) (verified : Bool) (k : Keys) : Keys :=
  { k with pins := Function.update k.pins u (some ⟨fp, verified⟩) }

def Keys.setAlert (u : String) (a : Option Alert) (k : Keys) : Keys :=
  { k with alerts := Function.update k.alerts u a }

def Keys.isVerified (u : String) (k : Keys) : Bool :=
  (k.pins u).any Pin.verified && (k.alerts u).isNone

/-- `adoptPeerKeys` from where it has the fingerprint: nothing is checked for
the local user. -/
def Keys.check (me u fp : String) (k : Keys) : Keys :=
  if u = me then k
  else
    match k.pins u with
    | none => k.pinKey u fp false
    | some pin =>
      if pin.fp ≠ fp then
        if pin.verified then
          if (k.alerts u).any fun prev => prev.newFp == fp then k
          else k.setAlert u (some ⟨pin.fp, fp, .changed⟩)
        else k.pinKey u fp false
      else if (k.alerts u).any fun prev => prev.reason == .changed then k.setAlert u none
      else k

/-- The spread of a new record over the cached one. -/
def Keys.cache (u : String) (rec : KeyRecord) (fp : String) (k : Keys) : Keys :=
  let username := rec.username <|> (k.peers u).bind fun p => p.username
  { k with peers := Function.update k.peers u (some ⟨⟨username, rec.kem, rec.dsa⟩, fp⟩) }

/-- A record taken in, by `getPeerKeys` or for a member of a group. -/
def Keys.adopt (me u : String) (rec : KeyRecord) (fp : String) (k : Keys) : Keys :=
  (k.check me u fp).cache u rec fp

def Keys.acceptNewKey (u : String) (k : Keys) : Keys :=
  match k.alerts u with
  | none => k
  | some alert => (k.pinKey u alert.newFp false).setAlert u none

def Keys.setVerified (u fp : String) (verified : Bool) (k : Keys) : Keys :=
  (k.pinKey u fp verified).setAlert u none

/-- The outcome of a share link with a safety code, for the keys now cached. -/
def Keys.followLink (who linkFp : String) (keys : Peer) (k : Keys) : Keys :=
  if keys.fingerprint = linkFp then k.setVerified who linkFp true
  else k.setAlert who (some ⟨linkFp, keys.fingerprint, .link⟩)

/-- A group's member with the cached record spread over it. -/
def Keys.merged (k : Keys) (m : Member) : Member :=
  match k.peers m.username with
  | none => m
  | some p => ⟨p.username.getD m.username, p.kem, p.dsa⟩

section lemmas
variable {me u v fp : String} {b : Bool} {a : Option Alert} {rec : KeyRecord} {k : Keys}

@[simp] theorem pinKey_peers : (k.pinKey u fp b).peers = k.peers := rfl
@[simp] theorem pinKey_alerts : (k.pinKey u fp b).alerts = k.alerts := rfl
@[simp] theorem setAlert_peers : (k.setAlert u a).peers = k.peers := rfl
@[simp] theorem setAlert_pins : (k.setAlert u a).pins = k.pins := rfl
@[simp] theorem cache_pins : (k.cache u rec fp).pins = k.pins := rfl
@[simp] theorem cache_alerts : (k.cache u rec fp).alerts = k.alerts := rfl

@[simp] theorem pinKey_pins_self : (k.pinKey u fp b).pins u = some ⟨fp, b⟩ := by
  simp [Keys.pinKey]

@[simp] theorem setAlert_alerts_self : (k.setAlert u a).alerts u = a := by
  simp [Keys.setAlert]

theorem pinKey_pins_ne (h : v ≠ u) : (k.pinKey u fp b).pins v = k.pins v := by
  simp [Keys.pinKey, h]

theorem setAlert_alerts_ne (h : v ≠ u) : (k.setAlert u a).alerts v = k.alerts v := by
  simp [Keys.setAlert, h]

theorem cache_peers_self : (k.cache u rec fp).peers u =
    some ⟨⟨rec.username <|> (k.peers u).bind fun p => p.username, rec.kem, rec.dsa⟩, fp⟩ := by
  simp [Keys.cache]

theorem cache_peers_ne (h : v ≠ u) : (k.cache u rec fp).peers v = k.peers v := by
  simp [Keys.cache, h]

@[simp] theorem check_peers : (k.check me u fp).peers = k.peers := by
  unfold Keys.check
  split
  · rfl
  · cases h : k.pins u with
    | none => simp
    | some pin =>
      simp only
      split
      · split
        · split <;> simp
        · simp
      · split <;> simp

theorem check_pins_ne (h : v ≠ u) : (k.check me u fp).pins v = k.pins v := by
  unfold Keys.check
  split
  · rfl
  · cases hp : k.pins u with
    | none => exact pinKey_pins_ne h
    | some pin =>
      simp only
      split
      · split
        · split <;> simp
        · exact pinKey_pins_ne h
      · split <;> simp

theorem check_alerts_ne (h : v ≠ u) : (k.check me u fp).alerts v = k.alerts v := by
  unfold Keys.check
  split
  · rfl
  · cases hp : k.pins u with
    | none => simp
    | some pin =>
      simp only
      split
      · split
        · split
          · rfl
          · exact setAlert_alerts_ne h
        · simp
      · split
        · exact setAlert_alerts_ne h
        · rfl

/-- What the check is for: a contact's key is the pinned one afterwards, or
there is an alert. -/
theorem check_settles (h : u ≠ me) : (k.check me u fp).alerts u ≠ none ∨
    ∃ pin, (k.check me u fp).pins u = some pin ∧ pin.fp = fp := by
  unfold Keys.check
  rw [if_neg h]
  cases hp : k.pins u with
  | none => exact .inr ⟨_, pinKey_pins_self, rfl⟩
  | some pin =>
    simp only
    split
    · split
      · left
        split
        · rename_i ha
          intro hn
          simp [hn] at ha
        · simp
      · exact .inr ⟨_, pinKey_pins_self, rfl⟩
    · rename_i he
      right
      refine ⟨pin, ?_, not_not.mp he⟩
      split
      · exact hp
      · exact hp

theorem adopt_peers_self : (k.adopt me u rec fp).peers u =
    some ⟨⟨rec.username <|> (k.peers u).bind fun p => p.username, rec.kem, rec.dsa⟩, fp⟩ := by
  simp [Keys.adopt, cache_peers_self]

theorem adopt_peers_ne (h : v ≠ u) : (k.adopt me u rec fp).peers v = k.peers v := by
  simp [Keys.adopt, cache_peers_ne h]

theorem acceptNewKey_peers : (k.acceptNewKey u).peers = k.peers := by
  unfold Keys.acceptNewKey
  split <;> rfl

theorem followLink_peers {p : Peer} : (k.followLink u fp p).peers = k.peers := by
  unfold Keys.followLink
  split <;> rfl

end lemmas

end Lattix.Client
