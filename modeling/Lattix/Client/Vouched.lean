import Lattix.Client.Held

namespace Lattix.Client
open Lib.Runs

variable {C : Crypto} {me : Identity}

/-- The safety code of `who` is confirmed, and the key in use has it unless sending is held. -/
structure Keys.Guarded (who fp : String) (k : Keys) : Prop where
  vouched : k.vouched who = some fp
  inUse : k.alerts who = none → ∀ p, k.peers who = some p → p.fingerprint = fp

/-- What is kept of a contact's keys goes with their fingerprint. -/
def Keys.Fingerprinted (C : Crypto) (me : Identity) (k : Keys) : Prop :=
  ∀ u p, u ≠ me.username → k.peers u = some p → C.fingerprintOf p.kem p.dsa = some p.fingerprint

/-- The user neither accepts a new key of `who` nor says anything else about it. -/
def Session.undecided (who fp : String) (s : Session) : Event → Bool
  | .accept u => u != who
  | .toggle => s.dialog.all fun d => d.username != who
  | .link u linkFp => u != who || linkFp == fp
  | _ => true

section keys
variable {who fp u f : String} {rec : KeyRecord} {k : Keys} {p : Peer}

theorem fingerprinted_adopt (h : k.Fingerprinted C me) (hf : C.fingerprintOf rec.kem rec.dsa = some f) :
    (k.adopt me.username u rec f).Fingerprinted C me := by
  intro v p hv hp
  by_cases hvu : v = u
  · subst hvu
    rw [adopt_peers_self] at hp
    cases hp
    exact hf
  · rw [adopt_peers_ne hvu] at hp
    exact h v p hv hp

/-- A record with another key holds sending, and the confirmed code stays. -/
theorem guarded_adopt (hw : who ≠ me.username) (h : k.Guarded who fp) :
    (k.adopt me.username u rec f).Guarded who fp := by
  by_cases hu : u = who
  · subst hu
    by_cases hf : f = fp
    · subst hf
      obtain ⟨hv, -⟩ := check_back hw h.vouched
      refine ⟨hv, fun _ p hp => ?_⟩
      rw [adopt_peers_self] at hp
      cases hp
      rfl
    · obtain ⟨hv, ha⟩ := check_other hw h.vouched hf
      refine ⟨hv, fun hnone => ?_⟩
      rw [Keys.adopt, cache_alerts, ha] at hnone
      split_ifs at hnone with hany
      rw [hnone] at hany
      cases hany
  · obtain ⟨hp, ha⟩ : (k.check me.username u f).Agree who k := check_agree_ne hu
    constructor
    · rw [← h.vouched]
      exact congrArg (Option.bind · _) hp
    · intro hnone p hpeer
      rw [adopt_peers_ne (Ne.symm hu)] at hpeer
      exact h.inUse (ha ▸ hnone) p hpeer

theorem guarded_of_agree {k' : Keys} (h : k.Guarded who fp) (ha : k'.Agree who k)
    (hp : k'.peers who = k.peers who) : k'.Guarded who fp := by
  constructor
  · rw [← h.vouched]
    exact congrArg (Option.bind · _) ha.pins
  · intro hnone p hpeer
    exact h.inUse (ha.alerts ▸ hnone) p (hp ▸ hpeer)

theorem setVerified_agree {v : String} {b : Bool} (hv : v ≠ who) : (k.setVerified v f b).Agree who k := by
  constructor
  · rw [Keys.setVerified, setAlert_pins, pinKey_pins_ne (Ne.symm hv)]
  · rw [Keys.setVerified, setAlert_alerts_ne (Ne.symm hv), pinKey_alerts]

theorem acceptNewKey_agree {v : String} (hv : v ≠ who) : (k.acceptNewKey v).Agree who k := by
  unfold Keys.acceptNewKey
  cases k.alerts v with
  | none => exact ⟨rfl, rfl⟩
  | some a => exact setVerified_agree hv

/-- Following a link with the confirmed code, or one for somebody else. -/
theorem guarded_link (h : k.Guarded who fp) (hp : k.peers u = some p)
    (hu : (u != who || f == fp) = true) : (k.followLink u f p).Guarded who fp := by
  by_cases huw : u = who
  · subst huw
    have hf : f = fp := by simpa using hu
    subst hf
    unfold Keys.followLink
    split_ifs with he
    · refine ⟨?_, fun _ q hq => ?_⟩
      · rw [Keys.vouched, Keys.setVerified, setAlert_pins, pinKey_pins_self]
        rfl
      · have hq : k.peers u = some q := hq
        cases hp.symm.trans hq
        exact he
    · refine ⟨h.vouched, fun hnone => ?_⟩
      rw [setAlert_alerts_self] at hnone
      cases hnone
  · apply guarded_of_agree h _ (by rw [followLink_peers])
    unfold Keys.followLink
    split_ifs
    · exact setVerified_agree huw
    · exact ⟨rfl, setAlert_alerts_ne (Ne.symm huw)⟩

/-- A link whose code is that of the key in use. -/
theorem guarded_match (hp : k.peers who = some p) (he : p.fingerprint = fp) :
    (k.followLink who fp p).Guarded who fp := by
  rw [Keys.followLink, if_pos he]
  refine ⟨?_, fun _ q hq => ?_⟩
  · rw [Keys.vouched, Keys.setVerified, setAlert_pins, pinKey_pins_self]
    rfl
  · have hq : k.peers who = some q := hq
    cases hp.symm.trans hq
    exact he

end keys

/-! Runs -/

theorem fingerprinted_step (s : Session) (e : Event) (s' : Session) (h : s.keys.Fingerprinted C me)
    (hs : s.step C me e = some s') : s'.keys.Fingerprinted C me := by
  rcases step_keys hs with ⟨-, -, hk⟩ | ⟨u, rec, f, -, hf, hk⟩ | ⟨u, -, hk⟩ | ⟨d, -, hk⟩ |
    ⟨who, linkFp, p, -, -, -, hk⟩
  · rwa [hk]
  · rw [hk]
    exact fingerprinted_adopt h hf
  · intro v p hv hp
    rw [hk, acceptNewKey_peers] at hp
    exact h v p hv hp
  · rw [hk]
    exact h
  · intro v q hv hq
    rw [hk, followLink_peers] at hq
    exact h v q hv hq

theorem guarded_step {who fp : String} (hw : who ≠ me.username) (s : Session) (e : Event) (s' : Session)
    (h : s.keys.Guarded who fp) (hu : s.undecided who fp e = true) (hs : s.step C me e = some s') :
    s'.keys.Guarded who fp := by
  cases session_moves hs with
  | adopted | verifying | checked => exact guarded_adopt hw h
  | accepted u =>
    have hne : u ≠ who := by simpa [Session.undecided] using hu
    exact guarded_of_agree h (acceptNewKey_agree hne) (by rw [acceptNewKey_peers])
  | @toggled d hd =>
    have hne : d.username ≠ who := by simpa [Session.undecided, hd] using hu
    exact guarded_of_agree h (setVerified_agree hne) rfl
  | linked _ hp => exact guarded_link h hp hu
  | @finished l =>
    have hkeys : ((s.enrol l).resume me l.goal).keys = s.keys := by
      cases l.goal with
      | «show» => rfl
      | message ref | file ref =>
        simp only [Session.resume]
        split <;> rfl
    rwa [hkeys]
  | loading | sending | attaching | detailed | merged | dropped | sent | attached | encrypted
    | decoded | closed => exact h

/-- One key that has a code, among others that show themselves. -/
def Crypto.coded : Crypto := ⟨fun kem _ => some (if kem = "A" then zeros else kem), fun _ _ _ => true⟩

def record (kem : String) : KeyRecord := ⟨some "bob", kem, "a"⟩

def loaded : Session := (Session.start alice fun _ => none).adopt alice "bob" (record "A") zeros

def followed : Session := { loaded with keys := loaded.keys.followLink "bob" zeros ⟨record "A", zeros⟩ }

/-- Another key is served, and then the first one again. -/
def flapping : List Event := [.user "bob" (record "B"), .user "bob" (record "A")]

end Lattix.Client
