import Lattix.Lib.Runs
import Lattix.Client.Session

namespace Lattix.Client
open Lib.Runs

variable {C : Crypto} {me : Identity}

/-- A contact's cached key is the pinned one, or there is an alert. Payloads go
to pinned keys only, and a contact shown as verified has one in use. -/
structure Session.Pinned (C : Crypto) (me : Identity) (s : Session) : Prop where
  cached : ∀ u p, u ≠ me.username → s.keys.peers u = some p → s.keys.alerts u ≠ none ∨
    ∃ pin, s.keys.pins u = some pin ∧ C.fingerprintOf p.kem p.dsa = some pin.fp
  built : ∀ m ∈ s.built, ∀ r ∈ m.recipients, r.username ≠ me.username →
    ∃ pin dsa, m.pins r.username = some pin ∧ C.fingerprintOf r.kemPub dsa = some pin.fp
  verified : ∀ u p, u ≠ me.username → s.keys.peers u = some p → s.keys.isVerified u = true →
    ∃ pin, s.keys.pins u = some pin ∧ C.fingerprintOf p.kem p.dsa = some pin.fp

/-- The key in use for `u`, if any, has fingerprint `fp`. -/
def Keys.inUse (u fp : String) (k : Keys) : Bool := (k.peers u).all fun p => p.fingerprint == fp

/-- Nothing is to be reviewed about `u`, or the key in use is the pinned one
all the same. -/
def Keys.cleared (u : String) (k : Keys) : Bool :=
  (k.alerts u).isNone || (k.pins u).any fun pin => k.inUse u pin.fp

/-- The roster of a group object has the keys in use for its members. -/
def Session.upToDate (me : Identity) (ref : Nat) (s : Session) : Bool :=
  (s.rosters ref).all fun m =>
    m.username == me.username || (s.keys.peers m.username).any fun p => p.kem == m.kem

/-- What is pinned is the key in use, and so is what a payload is made for. A
file's payload is made after its check, when an alert may have come up. -/
def Session.settled (me : Identity) (s : Session) : Event → Bool
  | .accept u => (s.keys.alerts u).all fun a => s.keys.inUse u a.newFp
  | .toggle => s.dialog.all fun d => s.keys.inUse d.username d.fp
  | .finish l =>
    match l.goal with
    | .message ref => !(s.enrol l).sendable (.group ref) || (s.enrol l).upToDate me ref
    | _ => true
  | .encrypt (.dm u) => u == me.username || s.keys.cleared u
  | .encrypt (.group ref) => s.upToDate me ref &&
    (s.rosters ref).all fun m => m.username == me.username || s.keys.cleared m.username
  | _ => true

def Keys.Coherent (C : Crypto) (me : Identity) (k : Keys) : Prop :=
  ∀ u p, u ≠ me.username → k.peers u = some p →
    C.fingerprintOf p.kem p.dsa = some p.fingerprint ∧
      (k.alerts u ≠ none ∨ ∃ pin, k.pins u = some pin ∧ pin.fp = p.fingerprint)

structure Session.Coherent (C : Crypto) (me : Identity) (s : Session) : Prop where
  keys : s.keys.Coherent C me
  built : ∀ m ∈ s.built, ∀ r ∈ m.recipients, r.username ≠ me.username →
    ∃ pin dsa, m.pins r.username = some pin ∧ C.fingerprintOf r.kemPub dsa = some pin.fp

theorem Session.Coherent.pinned {s : Session} (h : s.Coherent C me) : s.Pinned C me := by
  refine ⟨?_, h.built, ?_⟩
  · intro u p hu hp
    obtain ⟨hf, hk⟩ := h.keys u p hu hp
    rcases hk with ha | ⟨pin, hpin, he⟩
    · exact .inl ha
    · exact .inr ⟨pin, hpin, he ▸ hf⟩
  · intro u p hu hp hv
    obtain ⟨hf, hk⟩ := h.keys u p hu hp
    rcases hk with ha | ⟨pin, hpin, he⟩
    · simp only [Keys.isVerified, Bool.and_eq_true, Option.isNone_iff_eq_none] at hv
      exact absurd hv.2 ha
    · exact ⟨pin, hpin, he ▸ hf⟩

/-! The three stores -/

theorem adopt_coherent {k : Keys} {u fp : String} {rec : KeyRecord} (h : k.Coherent C me)
    (hf : C.fingerprintOf rec.kem rec.dsa = some fp) :
    (k.adopt me.username u rec fp).Coherent C me := by
  intro v p hv hp
  by_cases hvu : v = u
  · subst hvu
    rw [adopt_peers_self] at hp
    cases hp
    exact ⟨hf, check_settles hv⟩
  · rw [adopt_peers_ne hvu] at hp
    simp only [Keys.adopt, cache_alerts, cache_pins, check_alerts_ne hvu, check_pins_ne hvu]
    exact h v p hv hp

theorem setVerified_coherent {k : Keys} {u fp : String} (h : k.Coherent C me)
    (hu : k.inUse u fp = true) (verified : Bool) : (k.setVerified u fp verified).Coherent C me := by
  intro v p hv hp
  have hk : k.peers v = some p := hp
  refine ⟨(h v p hv hk).1, ?_⟩
  by_cases hvu : v = u
  · subst hvu
    right
    refine ⟨⟨fp, verified⟩, pinKey_pins_self, ?_⟩
    simp only [Keys.inUse, hk, Option.all_some, beq_iff_eq] at hu
    exact hu.symm
  · simp only [Keys.setVerified, setAlert_alerts_ne hvu, pinKey_alerts, setAlert_pins,
      pinKey_pins_ne hvu]
    exact (h v p hv hk).2

theorem setAlert_coherent {k : Keys} {u : String} (h : k.Coherent C me) (a : Alert) :
    (k.setAlert u (some a)).Coherent C me := by
  intro v p hv hp
  have hk : k.peers v = some p := hp
  refine ⟨(h v p hv hk).1, ?_⟩
  by_cases hvu : v = u
  · subst hvu
    simp
  · simp only [setAlert_alerts_ne hvu, setAlert_pins]
    exact (h v p hv hk).2

theorem acceptNewKey_coherent {k : Keys} {u : String} (h : k.Coherent C me)
    (hs : ((k.alerts u).all fun a => k.inUse u a.newFp) = true) :
    (k.acceptNewKey u).Coherent C me := by
  unfold Keys.acceptNewKey
  cases ha : k.alerts u with
  | none => exact h
  | some a =>
    rw [ha] at hs
    exact setVerified_coherent h hs false

theorem followLink_coherent {k : Keys} {who linkFp : String} {p : Peer} (h : k.Coherent C me)
    (hp : k.peers who = some p) : (k.followLink who linkFp p).Coherent C me := by
  unfold Keys.followLink
  split
  · rename_i he
    exact setVerified_coherent h (by simp [Keys.inUse, hp, he]) true
  · exact setAlert_coherent h _

/-- The key in use for a contact that nothing is to be reviewed about is the
pinned one. -/
theorem cleared_pinned {k : Keys} {u : String} {p : Peer} (h : k.Coherent C me)
    (hu : u ≠ me.username) (hp : k.peers u = some p) (hc : k.cleared u = true) :
    ∃ pin, k.pins u = some pin ∧ C.fingerprintOf p.kem p.dsa = some pin.fp := by
  obtain ⟨hf, hk⟩ := h u p hu hp
  simp only [Keys.cleared, Bool.or_eq_true, Option.isNone_iff_eq_none, Option.any_eq_true] at hc
  rcases hc with ha | ⟨pin, hpin, he⟩
  · rcases hk with hn | ⟨pin, hpin, he⟩
    · exact absurd ha hn
    · exact ⟨pin, hpin, he ▸ hf⟩
  · simp only [Keys.inUse, hp, Option.all_some, beq_iff_eq] at he
    exact ⟨pin, hpin, he ▸ hf⟩

/-! Payloads -/

theorem build_coherent {s : Session} {c : Convo} (h : s.Coherent C me)
    (hr : ∀ r ∈ s.recipientsFor me c, r.username ≠ me.username →
      ∃ p, s.keys.peers r.username = some p ∧ p.kem = r.kemPub ∧
        s.keys.cleared r.username = true) : (s.build me c).Coherent C me := by
  refine ⟨h.keys, ?_⟩
  intro m hm r hmr hn
  rcases List.mem_append.mp hm with hm | hm
  · exact h.built m hm r hmr hn
  · rw [List.mem_singleton.mp hm] at hmr ⊢
    obtain ⟨p, hp, hk, hc⟩ := hr r hmr hn
    obtain ⟨pin, hpin, hf⟩ := cleared_pinned h.keys hn hp hc
    exact ⟨pin, p.dsa, hpin, hk ▸ hf⟩

theorem build_dm_coherent {s : Session} {u : String} (h : s.Coherent C me)
    (hc : u ≠ me.username → s.keys.cleared u = true) : (s.build me (.dm u)).Coherent C me := by
  apply build_coherent h
  intro r hr hn
  simp only [Session.recipientsFor] at hr
  cases hp : s.keys.peers u with
  | none => simp [hp] at hr
  | some p =>
    simp only [hp, List.mem_cons] at hr
    rcases hr with hr | hr
    · subst hr
      exact ⟨p, hp, rfl, hc hn⟩
    · split at hr
      · cases hr
      · rw [List.mem_singleton.mp hr] at hn
        exact absurd rfl hn

theorem build_group_coherent {s : Session} {ref : Nat} (h : s.Coherent C me)
    (hu : s.upToDate me ref = true)
    (hc : ∀ m ∈ s.rosters ref, m.username ≠ me.username → s.keys.cleared m.username = true) :
    (s.build me (.group ref)).Coherent C me := by
  apply build_coherent h
  intro r hr hn
  obtain ⟨m, hm, rfl⟩ := List.mem_map.mp hr
  have hk := List.all_eq_true.mp hu m hm
  simp only [Bool.or_eq_true, beq_iff_eq, Option.any_eq_true] at hk
  rcases hk with he | ⟨p, hp, hk⟩
  · exact absurd he hn
  · exact ⟨p, hp, hk, hc m hm hn⟩

theorem sendable_dm {s : Session} {u : String} (h : s.sendable (.dm u) = true) :
    s.keys.cleared u = true := by
  simp only [Session.sendable, Session.alertedIn, List.isEmpty_iff, List.filter_eq_nil_iff] at h
  have ha := h u (List.mem_singleton.mpr rfl)
  simp only [Keys.cleared, Bool.or_eq_true]
  left
  simpa using ha

theorem sendable_group {s : Session} {ref : Nat} (h : s.sendable (.group ref) = true)
    {m : Member} (hm : m ∈ s.rosters ref) : s.keys.cleared m.username = true := by
  simp only [Session.sendable, Session.alertedIn, List.isEmpty_iff, List.filter_eq_nil_iff] at h
  have ha := h m.username (List.mem_map_of_mem hm)
  simp only [Keys.cleared, Bool.or_eq_true]
  left
  simpa using ha

theorem encrypt_coherent {s : Session} {c : Convo} (h : s.Coherent C me)
    (hs : s.settled me (.encrypt c) = true) : (s.build me c).Coherent C me := by
  cases c with
  | dm u =>
    simp only [Session.settled, Bool.or_eq_true, beq_iff_eq] at hs
    exact build_dm_coherent h (hs.resolve_left ·)
  | group ref =>
    simp only [Session.settled, Bool.and_eq_true, List.all_eq_true, Bool.or_eq_true,
      beq_iff_eq] at hs
    exact build_group_coherent h hs.1 fun m hm hn => (hs.2 m hm).resolve_left hn

theorem finish_coherent {s : Session} {l : Load} (h : s.Coherent C me)
    (hs : s.settled me (.finish l) = true) : ((s.enrol l).resume me l.goal).Coherent C me := by
  have he : (s.enrol l).Coherent C me := ⟨h.keys, h.built⟩
  cases hg : l.goal with
  | «show» => exact he
  | message ref =>
    simp only [Session.settled, hg] at hs
    simp only [Session.resume]
    split
    · rename_i hsend
      simp only [hsend, Bool.not_true, Bool.false_or] at hs
      exact build_group_coherent he hs fun m hm _ => sendable_group hsend hm
    · exact he
  | file ref =>
    simp only [Session.resume]
    split
    · exact ⟨h.keys, h.built⟩
    · exact he

/-! Runs -/

theorem start_coherent (me : Identity) (pins : String → Option Pin) :
    (Session.start me pins).Coherent C me := by
  refine ⟨?_, fun m hm => ?_⟩
  · intro u p hu hp
    simp [Session.start, hu] at hp
  · cases hm

theorem step_coherent (s : Session) (e : Event) (s' : Session) (h : s.Coherent C me)
    (hset : s.settled me e = true) (hs : s.step C me e = some s') : s'.Coherent C me := by
  cases session_moves hs with
  | adopted hfp | verifying _ hfp | checked _ _ hfp => exact ⟨adopt_coherent h.keys hfp, h.built⟩
  | finished => exact finish_coherent h hset
  | sent hu => exact build_dm_coherent h fun _ => sendable_dm hu
  | encrypted =>
    have hb := encrypt_coherent h hset
    exact ⟨hb.keys, hb.built⟩
  | accepted u => exact ⟨acceptNewKey_coherent h.keys hset, h.built⟩
  | toggled hd =>
    simp only [Session.settled, hd, Option.all_some] at hset
    exact ⟨setVerified_coherent h.keys hset _, h.built⟩
  | linked _ hp => exact ⟨followLink_coherent h.keys hp, h.built⟩
  | loading | sending | attaching | detailed | merged | dropped | attached | decoded | closed =>
    exact ⟨h.keys, h.built⟩

/-- Whatever keys the relay hands out and whatever the user clicks, as long as
what is pinned and what is encrypted to is the key in use. -/
theorem keys_stay_pinned (C : Crypto) (me : Identity) (pins : String → Option Pin)
    (es : List Event) {s : Session}
    (hset : Meets (Session.step C me) (fun s e => s.settled me e = true) (.start me pins) es)
    (hrun : run (Session.step C me) (.start me pins) es = some s) : s.Pinned C me :=
  (invariant_meets step_coherent (start_coherent me pins) hset hrun).pinned

/-- Bob is verified, then the relay hands out another key for him, and the user
accepts it. -/
def replaced : List Event :=
  [.verify "bob" ⟨some "bob", "A", "a"⟩, .toggle, .user "bob" ⟨some "bob", "B", "b"⟩,
    .accept "bob", .send "bob"]

theorem keys_pinned_replaced :
    ∃ s, run (Session.step .plain ⟨"me", "K", "D", "KD"⟩) (.start ⟨"me", "K", "D", "KD"⟩ fun _ => none)
      replaced = some s ∧ s.Pinned .plain ⟨"me", "K", "D", "KD"⟩ :=
  ⟨_, rfl, keys_stay_pinned .plain ⟨"me", "K", "D", "KD"⟩ (fun _ => none) replaced (by decide) rfl⟩

/-- The key changes while the dialog is open: the toggle marks the old code as
verified, with the new key in use. -/
theorem keys_not_always_pinned :
    ¬ ∀ (C : Crypto) (me : Identity) (es : List Event) (s : Session),
      run (Session.step C me) (.start me fun _ => none) es = some s → s.Pinned C me := by
  intro h
  have hs := (h .plain ⟨"me", "K", "D", "KD"⟩
    [.verify "bob" ⟨some "bob", "A", "a"⟩, .user "bob" ⟨some "bob", "B", "b"⟩, .toggle] _
    rfl).verified "bob" ⟨⟨some "bob", "B", "b"⟩, "Bb"⟩ (by decide) rfl rfl
  obtain ⟨pin, hp, hf⟩ := hs
  cases hp
  revert hf
  decide

end Lattix.Client
