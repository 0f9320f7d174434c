import Lattix.Client.Held

namespace Lattix.Client
open Lib.Runs

variable {C : Crypto} {me : Identity}

/-- The page loaded anew: of the trust stores only the saved pins are left.
`savePins` writes the object's own properties, and `__proto__` is none of them. -/
def Session.reload (me : Identity) (s : Session) : Session :=
  .start me fun u => if u = "__proto__" then none else s.keys.pins u

/-- The saved pins show that the keys in use for `u` are not those the user
confirmed. -/
def Keys.recalls (u : String) (k : Keys) : Bool :=
  u != "__proto__" && (k.vouched u).any fun fp => (k.peers u).any fun p => p.fingerprint != fp

/-- Alerts are about other users, whose keys the session has seen. -/
def Keys.Raised (me : Identity) (k : Keys) : Prop :=
  ∀ u, (k.alerts u).isSome = true → u ≠ me.username ∧ (k.peers u).isSome = true

/-! What raises an alert -/

theorem adopt_raised {k : Keys} {u fp : String} {rec : KeyRecord} (h : k.Raised me) :
    (k.adopt me.username u rec fp).Raised me := by
  intro v hv
  by_cases hvu : v = u
  · subst hvu
    refine ⟨?_, by rw [adopt_peers_self]; rfl⟩
    intro hme
    subst hme
    rw [Keys.adopt, cache_alerts, check_self] at hv
    exact (h _ hv).1 rfl
  · rw [adopt_peers_ne hvu]
    rw [Keys.adopt, cache_alerts, check_alerts_ne hvu] at hv
    exact h v hv

theorem Keys.Raised.clear {k : Keys} {u fp : String} {verified : Bool} (h : k.Raised me) :
    (k.setVerified u fp verified).Raised me := by
  intro v hv
  by_cases hvu : v = u
  · subst hvu
    simp [Keys.setVerified] at hv
  · rw [Keys.setVerified, setAlert_alerts_ne hvu] at hv
    exact h v hv

theorem acceptNewKey_raised {k : Keys} {u : String} (h : k.Raised me) :
    (k.acceptNewKey u).Raised me := by
  unfold Keys.acceptNewKey
  cases k.alerts u with
  | none => exact h
  | some alert => exact h.clear

theorem followLink_raised {k : Keys} {who linkFp : String} {p : Peer} (h : k.Raised me)
    (hw : who ≠ me.username) (hp : k.peers who = some p) : (k.followLink who linkFp p).Raised me := by
  unfold Keys.followLink
  split
  · exact h.clear
  · intro v hv
    by_cases hvu : v = who
    · subst hvu
      exact ⟨hw, by simp [hp]⟩
    · rw [setAlert_alerts_ne hvu] at hv
      exact h v hv

theorem step_raised (s : Session) (e : Event) (s' : Session) (h : s.keys.Raised me)
    (hs : s.step C me e = some s') : s'.keys.Raised me := by
  rcases step_keys hs with ⟨_, _, hk⟩ | ⟨u, rec, fp, _, _, hk⟩ | ⟨u, _, hk⟩ | ⟨d, _, hk⟩ |
    ⟨who, linkFp, p, _, hw, hp, hk⟩ <;> rw [hk]
  · exact h
  · exact adopt_raised h
  · exact acceptNewKey_raised h
  · exact h.clear
  · exact followLink_raised h hw hp

/-- Only other users are held, and only once the session has their keys. -/
theorem held_cached {pins : String → Option Pin} {es : List Event} {s : Session} {u : String}
    (hrun : run (Session.step C me) (.start me pins) es = some s) (h : s.Held u) :
    u ≠ me.username ∧ (s.keys.peers u).isSome = true := by
  have hstart : (Session.start me pins).keys.Raised me := by
    intro v hv
    cases hv
  exact invariant (I := fun s => s.keys.Raised me) step_raised hstart hrun u h.alert

/-! The same key again and again -/

theorem serve_same {k : Keys} {u p fp : String} {fps : List String} (hu : u ≠ me.username)
    (hv : k.vouched u = some p) (ha : k.alerts u = none) (hsame : ∀ f ∈ fps, f = fp) :
    (k.serve me.username u fps).vouched u = some p ∧
      (k.serve me.username u fps).alerts u =
        if fps ≠ [] ∧ p ≠ fp then some ⟨p, fp, .changed⟩ else none := by
  induction fps using List.reverseRecOn with
  | nil => exact ⟨hv, by simpa [Keys.serve] using ha⟩
  | append_singleton fps f ih =>
    obtain ⟨hv, ih⟩ := ih fun f hf => hsame f (List.mem_append_left _ hf)
    have hf : f = fp := hsame f (by simp)
    subst hf
    rw [serve_snoc]
    by_cases hp : p = f
    · subst hp
      obtain ⟨hc, hk⟩ := check_back hu hv
      refine ⟨hc, ?_⟩
      rw [hk, ih]
      simp
    · obtain ⟨hc, hk⟩ := check_other hu hv (Ne.symm hp)
      refine ⟨hc, ?_⟩
      rw [hk, ih]
      by_cases he : fps = []
      · simp [he, hp]
      · simp [he, hp]

theorem serve_again {k : Keys} {u fp : String} {fps : List String} (hu : u ≠ me.username)
    (hne : fps ≠ []) (hsame : ∀ f ∈ fps, f = fp) (ha : k.alerts u = none) :
    ((k.serve me.username u fps).alerts u).isSome = (k.vouched u).any fun p => p != fp := by
  cases hv : k.vouched u with
  | none =>
    rw [serve_unvouched hv (by simp [ha])]
    simp [ha]
  | some p =>
    rw [(serve_same hu hv ha hsame).2]
    by_cases hp : p = fp
    · simp [hp]
    · simp [hne, hp]

theorem reload_vouched (s : Session) (u : String) : (s.reload me).keys.vouched u =
    if u = "__proto__" then none else s.keys.vouched u := by
  by_cases hproto : u = "__proto__"
  · simp [Session.reload, Session.start, Keys.vouched, hproto]
  · simp [Session.reload, Session.start, Keys.vouched, hproto]

/-- Sending held, then a reload, then the keys the relay had served before. -/
theorem held_reload_iff {pins : String → Option Pin} {before es : List Event} {s s' : Session}
    {u : String} (hreach : run (Session.step C me) (.start me pins) before = some s)
    (hheld : s.Held u) (hd : ∀ e ∈ es, e.decides = false)
    (hserved : es.filterMap (Event.served C u) ≠ [])
    (hsame : ∀ fp ∈ es.filterMap (Event.served C u), (s.keys.peers u).map Peer.fingerprint = some fp)
    (hrun : run (Session.step C me) (s.reload me) es = some s') :
    s'.Held u ↔ s.keys.recalls u = true := by
  obtain ⟨hu, hp⟩ := held_cached hreach hheld
  obtain ⟨p, hp⟩ := Option.isSome_iff_exists.mp hp
  have hfp : ∀ fp ∈ es.filterMap (Event.served C u), fp = p.fingerprint := by
    intro fp hf
    have hs := hsame fp hf
    rw [hp] at hs
    exact (Option.some.inj hs).symm
  rw [held_iff, (run_serves u hd hrun).alerts, serve_again hu hserved hfp rfl, reload_vouched]
  by_cases hproto : u = "__proto__"
  · simp [Keys.recalls, hproto]
  · simp only [Keys.recalls, hp, Option.any_some, bne_iff_ne, ne_eq, hproto,
      not_false_eq_true, Bool.and_eq_true, Option.any_eq_true, true_and]
    refine exists_congr fun fp => and_congr_right fun _ => ?_
    exact ⟨Ne.symm, Ne.symm⟩

/-- A confirmed key that has been replaced is held again. -/
theorem held_reload_replaced : ∃ s s',
    run (Session.step .plain alice) (.start alice fun _ => none)
      (confirmed ++ [.user "bob" ⟨some "bob", "B", "b"⟩]) = some s ∧
    run (Session.step .plain alice) (s.reload alice) [.user "bob" ⟨some "bob", "B", "b"⟩] = some s' ∧
    (s'.Held "bob" ↔ s.keys.recalls "bob" = true) :=
  ⟨_, _, rfl, rfl, @held_reload_iff .plain alice (fun _ => none)
    (confirmed ++ [.user "bob" ⟨some "bob", "B", "b"⟩]) [.user "bob" ⟨some "bob", "B", "b"⟩] _ _ _
    rfl (held_iff.mpr rfl) (by decide) (by decide) (by decide) rfl⟩

/-- A link with another code than that of a key nobody has confirmed. -/
theorem held_not_always_reloaded :
    ¬ ∀ (C : Crypto) (me : Identity) (before es : List Event) (s s' : Session) (u : String),
      run (Session.step C me) (.start me fun _ => none) before = some s →
      s.Held u → (∀ e ∈ es, e.decides = false) →
      es.filterMap (Event.served C u) ≠ [] →
      (∀ fp ∈ es.filterMap (Event.served C u), (s.keys.peers u).map Peer.fingerprint = some fp) →
      run (Session.step C me) (s.reload me) es = some s' → s'.Held u := by
  intro h
  have hs := h .plain alice ([.user "bob" bob.toKeyRecord] ++ [.link "bob" zeros])
    [.user "bob" bob.toKeyRecord] (mismatched [.user "bob" bob.toKeyRecord]) _ "bob"
    (mismatched_reached rfl rfl) (held_iff.mpr rfl) (by decide) (by decide) (by decide) rfl
  exact absurd hs.alert (by decide)

end Lattix.Client
