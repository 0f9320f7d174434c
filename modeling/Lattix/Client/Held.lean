import Mathlib.Data.List.Induction
import Lattix.Lib.Runs
import Lattix.Client.Session

namespace Lattix.Client
open Lib.Runs

variable {C : Crypto} {me : Identity}

/-- Sending to `u` is held: there is an alert, and `assertSendable` refuses the
direct chat and every group `u` is listed in. -/
structure Session.Held (u : String) (s : Session) : Prop where
  alert : (s.keys.alerts u).isSome = true
  dm : s.sendable (.dm u) = false
  group : ∀ ref, ∀ m ∈ s.rosters ref, m.username = u → s.sendable (.group ref) = false

/-- What only the user decides: a key accepted, a code marked or unmarked as
verified, a share link opened. -/
def Event.decides : Event → Bool
  | .accept _ | .toggle | .link .. => true
  | _ => false

/-- The record an event makes the client adopt, and for whom. -/
def Event.adopts : Event → Option (String × KeyRecord)
  | .user u rec | .verify u rec => some (u, rec)
  | .member l => l.todo.head?.map fun m => (m.username, m.record)
  | _ => none

/-- The fingerprint of the keys an event serves for `u`. -/
def Event.served (C : Crypto) (u : String) (e : Event) : Option String :=
  e.adopts.bind fun a => if a.1 = u then C.fingerprintOf a.2.kem a.2.dsa else none

/-- The code the user has confirmed for `u`, which stays pinned. -/
def Keys.vouched (u : String) (k : Keys) : Option String :=
  (k.pins u).bind fun pin => if pin.verified then some pin.fp else none

/-- Records adopted for `u`, one after another. -/
def Keys.serve (me u : String) (k : Keys) (fps : List String) : Keys :=
  fps.foldl (fun k fp => k.check me u fp) k

/-- A third key replaced the alert `newFp` came with, and then the confirmed
one came back. -/
def Keys.overturned (me u newFp : String) (fps : List String) (k : Keys) : Bool :=
  decide (u ≠ me) && (k.vouched u).any fun fp =>
    fps.getLast? == some fp && fps.any fun f => f != fp && f != newFp

/-- Two stores that say the same about `u`. -/
structure Keys.Agree (u : String) (k k' : Keys) : Prop where
  pins : k.pins u = k'.pins u
  alerts : k.alerts u = k'.alerts u

theorem held_iff {s : Session} {u : String} : s.Held u ↔ (s.keys.alerts u).isSome = true := by
  refine ⟨Session.Held.alert, fun h => ⟨h, ?_, ?_⟩⟩
  · simp [Session.sendable, Session.alertedIn, h]
  · intro ref m hm hu
    subst hu
    have ha : m.username ∈ s.alertedIn (.group ref) :=
      List.mem_filter.mpr ⟨List.mem_map_of_mem hm, h⟩
    simp only [Session.sendable, List.isEmpty_eq_false_iff]
    exact List.ne_nil_of_mem ha

/-! One record -/

section check
variable {u v fp p : String} {k k' : Keys}

theorem check_self : k.check u u fp = k := if_pos rfl

theorem vouched_eq (h : k.vouched u = some p) : k.pins u = some ⟨p, true⟩ := by
  obtain ⟨⟨fp, verified⟩, hp, hv⟩ := Option.bind_eq_some_iff.mp h
  cases verified with
  | true =>
    cases hv
    exact hp
  | false => cases hv

theorem Keys.Agree.check (h : k.Agree u k') : (k.check me.username u fp).Agree u
    (k'.check me.username u fp) := by
  obtain ⟨hp, ha⟩ := h
  unfold Keys.check
  rw [← hp, ← ha]
  split
  · exact ⟨hp, ha⟩
  · cases hpin : k.pins u with
    | none => exact ⟨by simp, ha⟩
    | some pin =>
      simp only
      split
      · split
        · split
          · exact ⟨hp, ha⟩
          · exact ⟨hp, by simp⟩
        · exact ⟨by simp, ha⟩
      · split
        · exact ⟨hp, by simp⟩
        · exact ⟨hp, ha⟩

/-- Records of other contacts. -/
theorem check_agree_ne (h : v ≠ u) : (k.check me.username v fp).Agree u k :=
  ⟨check_pins_ne (Ne.symm h), check_alerts_ne (Ne.symm h)⟩

/-- A key nobody confirmed is pinned as it comes, and no alert is touched. -/
theorem check_unvouched (h : k.vouched u = none)
    (ha : ((k.alerts u).any fun a => a.reason == .changed) = false) :
    (k.check me.username u fp).vouched u = none ∧
      (k.check me.username u fp).alerts u = k.alerts u := by
  unfold Keys.check
  split
  · exact ⟨h, rfl⟩
  · cases hpin : k.pins u with
    | none => exact ⟨by simp [Keys.vouched], rfl⟩
    | some pin =>
      have hver : pin.verified = false := by simpa [Keys.vouched, hpin] using h
      simp only [hver, ha]
      split
      · exact ⟨by simp [Keys.vouched], rfl⟩
      · exact ⟨h, rfl⟩

/-- A confirmed key that comes back. -/
theorem check_back (hu : u ≠ me.username) (h : k.vouched u = some p) :
    (k.check me.username u p).vouched u = some p ∧
      (k.check me.username u p).alerts u =
        if ((k.alerts u).any fun a => a.reason == .changed) = true then none else k.alerts u := by
  unfold Keys.check
  simp only [if_neg hu, vouched_eq h, ne_eq, not_true_eq_false, if_false]
  split
  · exact ⟨h, by simp⟩
  · exact ⟨h, rfl⟩

/-- Another key than the confirmed one. -/
theorem check_other (hu : u ≠ me.username) (h : k.vouched u = some p) (hp : fp ≠ p) :
    (k.check me.username u fp).vouched u = some p ∧
      (k.check me.username u fp).alerts u =
        if ((k.alerts u).any fun a => a.newFp == fp) = true then k.alerts u
        else some ⟨p, fp, .changed⟩ := by
  unfold Keys.check
  simp only [if_neg hu, vouched_eq h, ne_eq, Ne.symm hp, not_false_eq_true, if_true]
  split
  · exact ⟨h, rfl⟩
  · exact ⟨h, by simp⟩

end check

/-! Records one after another -/

section serve
variable {u p : String} {k k' : Keys} {fps : List String} {a : Alert}

theorem serve_snoc {fp : String} : k.serve me.username u (fps ++ [fp]) =
    (k.serve me.username u fps).check me.username u fp := by
  simp [Keys.serve]

theorem serve_self : k.serve u u fps = k := by
  induction fps with
  | nil => rfl
  | cons fp fps ih =>
    have hs : k.serve u u (fp :: fps) = (k.check u u fp).serve u u fps := rfl
    rw [hs, check_self, ih]

theorem Keys.Agree.serve (h : k.Agree u k') : (k.serve me.username u fps).Agree u
    (k'.serve me.username u fps) := by
  induction fps generalizing k k' with
  | nil => exact h
  | cons fp fps ih => exact ih h.check

theorem serve_unvouched (h : k.vouched u = none)
    (ha : ((k.alerts u).any fun a => a.reason == .changed) = false) :
    (k.serve me.username u fps).alerts u = k.alerts u := by
  induction fps generalizing k with
  | nil => rfl
  | cons fp fps ih =>
    obtain ⟨hv, hk⟩ : (k.check me.username u fp).vouched u = none ∧
        (k.check me.username u fp).alerts u = k.alerts u := check_unvouched h ha
    have hi := ih hv (hk ▸ ha)
    exact hi.trans hk

/-- With a confirmed key and a link alert: until a third key has come the alert
stays as it is, and from then on the confirmed key clears it. -/
theorem serve_vouched (hu : u ≠ me.username) (h : k.vouched u = some p)
    (ha : k.alerts u = some a) (hl : a.reason = .link) :
    (k.serve me.username u fps).vouched u = some p ∧
      if (fps.any fun f => f != p && f != a.newFp) = true then
        ((k.serve me.username u fps).alerts u = none ↔ fps.getLast? = some p) ∧
          ∀ b, (k.serve me.username u fps).alerts u = some b → b.reason = .changed
      else (k.serve me.username u fps).alerts u = some a := by
  induction fps using List.reverseRecOn with
  | nil => exact ⟨h, by simpa [Keys.serve] using ha⟩
  | append_singleton fps fp ih =>
    obtain ⟨hv, ih⟩ := ih
    rw [serve_snoc]
    by_cases hp : fp = p
    · subst hp
      obtain ⟨hc, hk⟩ := check_back hu hv
      refine ⟨hc, ?_⟩
      rw [hk]
      simp only [List.any_append, List.any_cons, List.any_nil, bne_self_eq_false, Bool.false_and,
        Bool.or_false, List.getLast?_concat, iff_true]
      split
      · rename_i hany
        rw [if_pos hany] at ih
        cases hb : (k.serve me.username u fps).alerts u with
        | none => simp
        | some b => simp [ih.2 b hb]
      · rename_i hany
        rw [if_neg hany] at ih
        simp [ih, hl]
    · obtain ⟨hc, hk⟩ := check_other hu hv hp
      refine ⟨hc, ?_⟩
      rw [hk]
      have hlast : (fps ++ [fp]).getLast? ≠ some p := by simpa using hp
      simp only [List.any_append, List.any_cons, List.any_nil, Bool.or_false, Bool.or_eq_true]
      by_cases hany : (fps.any fun f => f != p && f != a.newFp) = true
      · rw [if_pos hany] at ih
        rw [if_pos (.inl hany)]
        split
        · rename_i hn
          refine ⟨?_, ih.2⟩
          simp only [hlast, iff_false]
          intro hnone
          simp [hnone] at hn
        · simp [hp]
      · rw [if_neg hany] at ih
        by_cases hnew : fp = a.newFp
        · simp [ih, hany, hnew]
        · have hthird : (fp != p && fp != a.newFp) = true := by simp [hp, hnew]
          rw [if_pos (.inr hthird)]
          simp [ih, Ne.symm hnew, hp]

theorem serve_link (ha : k.alerts u = some a) (hl : a.reason = .link) :
    ((k.serve me.username u fps).alerts u).isSome = true ↔
      k.overturned me.username u a.newFp fps = false := by
  by_cases hu : u = me.username
  · subst hu
    simp [serve_self, ha, Keys.overturned]
  · cases hv : k.vouched u with
    | none =>
      rw [serve_unvouched hv (by simp [ha, hl])]
      simp [ha, Keys.overturned, hv]
    | some p =>
      obtain ⟨-, hs⟩ := serve_vouched hu hv ha hl
      simp only [Keys.overturned, hu, ne_eq, not_false_eq_true, decide_true, hv, Option.any_some,
        Bool.true_and, Bool.and_eq_false_imp, beq_iff_eq]
      split at hs
      · rename_i hany
        rw [hany, ← Option.ne_none_iff_isSome, ne_eq, hs.1]
        simp
      · rename_i hany
        simp [hs, hany]

end serve

/-! The session -/

/-- What a step does to the three stores. -/
theorem step_keys {s s' : Session} {e : Event} (hs : s.step C me e = some s') :
    (e.decides = false ∧ e.adopts = none ∧ s'.keys = s.keys) ∨
    (∃ u rec fp, e.adopts = some (u, rec) ∧ C.fingerprintOf rec.kem rec.dsa = some fp ∧
      s'.keys = s.keys.adopt me.username u rec fp) ∨
    (∃ u, e = .accept u ∧ s'.keys = s.keys.acceptNewKey u) ∨
    (∃ d : Dialog, e = .toggle ∧ s'.keys = s.keys.setVerified d.username d.fp (!d.verified)) ∨
    (∃ who linkFp p, e = .link who linkFp ∧ who ≠ me.username ∧ s.keys.peers who = some p ∧
      s'.keys = s.keys.followLink who linkFp p) := by
  cases session_moves hs with
  | @adopted u rec fp hf => exact .inr (.inl ⟨u, rec, fp, rfl, hf, rfl⟩)
  | @verifying u rec fp _ hf => exact .inr (.inl ⟨u, rec, fp, rfl, hf, rfl⟩)
  | @checked l m rest fp _ ht hf =>
    exact .inr (.inl ⟨m.username, m.record, fp, by simp [Event.adopts, ht], hf, rfl⟩)
  | accepted u => exact .inr (.inr (.inl ⟨u, rfl, rfl⟩))
  | @toggled d => exact .inr (.inr (.inr (.inl ⟨d, rfl, rfl⟩)))
  | @linked who linkFp p hw hp =>
    exact .inr (.inr (.inr (.inr ⟨who, linkFp, p, rfl, hw, hp, rfl⟩)))
  | @finished l =>
    refine .inl ⟨rfl, rfl, ?_⟩
    cases l.goal with
    | «show» => rfl
    | message ref | file ref =>
      simp only [Session.resume]
      split <;> rfl
  | loading | sending | attaching | detailed | merged | dropped | sent | attached | encrypted
    | decoded | closed => exact .inl ⟨rfl, rfl, rfl⟩

/-- An event the user does not decide changes what is kept about `u` only by
the record it serves for `u`. -/
theorem step_serves {s s' : Session} {e : Event} {u : String} (hd : e.decides = false)
    (hs : s.step C me e = some s') :
    s'.keys.Agree u (s.keys.serve me.username u (e.served C u).toList) := by
  rcases step_keys hs with ⟨_, ha, hk⟩ | ⟨v, rec, fp, ha, hf, hk⟩ | ⟨v, rfl, _⟩ | ⟨d, rfl, _⟩ |
    ⟨who, linkFp, p, rfl, _⟩
  · rw [hk]
    simp only [Event.served, ha, Option.bind_none]
    exact ⟨rfl, rfl⟩
  · rw [hk]
    simp only [Event.served, ha, Option.bind_some]
    by_cases hv : v = u
    · subst hv
      simp only [if_true, hf]
      exact ⟨rfl, rfl⟩
    · simp only [if_neg hv]
      obtain ⟨hp, ha⟩ : (s.keys.check me.username v fp).Agree u s.keys := check_agree_ne hv
      exact ⟨hp, ha⟩
  all_goals cases hd

theorem run_serves {s s' : Session} {es : List Event} (u : String)
    (hd : ∀ e ∈ es, e.decides = false) (hrun : run (Session.step C me) s es = some s') :
    s'.keys.Agree u (s.keys.serve me.username u (es.filterMap (Event.served C u))) := by
  induction es generalizing s with
  | nil =>
    cases hrun
    exact ⟨rfl, rfl⟩
  | cons e es ih =>
    obtain ⟨t, ht, hrun⟩ := run_cons.mp hrun
    have hi := ih (fun e he => hd e (List.mem_cons_of_mem _ he)) hrun
    let fps := es.filterMap (Event.served C u)
    have he : (t.keys.serve me.username u fps).Agree u
        ((s.keys.serve me.username u (e.served C u).toList).serve me.username u fps) :=
      (step_serves (hd e List.mem_cons_self) ht).serve
    rw [List.filterMap_cons]
    cases hserved : e.served C u with
    | none =>
      rw [hserved] at he
      exact ⟨hi.pins.trans he.pins, hi.alerts.trans he.alerts⟩
    | some fp =>
      rw [hserved] at he
      exact ⟨hi.pins.trans he.pins, hi.alerts.trans he.alerts⟩

/-- A share-link mismatch, whatever the relay serves after it: it holds sending
unless a third key has made a changed-key alert of it, which the confirmed key
then clears. -/
theorem mismatch_held_iff {s s' : Session} {u : String} {a : Alert} {es : List Event}
    (ha : s.keys.alerts u = some a) (hl : a.reason = .link) (hd : ∀ e ∈ es, e.decides = false)
    (hrun : run (Session.step C me) s es = some s') :
    s'.Held u ↔
      s.keys.overturned me.username u a.newFp (es.filterMap (Event.served C u)) = false := by
  rw [held_iff, (run_serves u hd hrun).alerts]
  exact serve_link ha hl

/-- A code that none of the keys below has. -/
def zeros : String := "0000000000000000000000000000000000000000000000000000000000000000"

def alice : Identity := ⟨"alice", "K", "D", "KD"⟩

def bob : Peer := ⟨⟨some "bob", "A", "a"⟩, "Aa"⟩

/-- Alice's session after some turns and a link with another code for bob. -/
def mismatched (before : List Event) : Session :=
  let s := (run (Session.step .plain alice) (.start alice fun _ => none) before).getD
    (.start alice fun _ => none)
  { s with keys := s.keys.followLink "bob" zeros bob }

def confirmed : List Event := [.verify "bob" bob.toKeyRecord, .toggle]

theorem zeros_safetyCode : isSafetyCode zeros = true := by
  simp only [isSafetyCode, zeros, Bool.and_eq_true]
  exact ⟨by decide, by simp⟩

theorem mismatched_reached {before : List Event} {s : Session}
    (hrun : run (Session.step .plain alice) (.start alice fun _ => none) before = some s)
    (hp : s.keys.peers "bob" = some bob) :
    run (Session.step .plain alice) (.start alice fun _ => none) (before ++ [.link "bob" zeros]) =
      some (mismatched before) := by
  have hlink : s.step .plain alice (.link "bob" zeros) =
      some { s with keys := s.keys.followLink "bob" zeros bob } := by
    simp [Session.step, alice, zeros_safetyCode, hp]
  have hm : mismatched before = { s with keys := s.keys.followLink "bob" zeros bob } := by
    simp [mismatched, hrun]
  rw [hm]
  exact run_snoc hrun hlink

theorem mismatch_held_same_key :
    ∃ s', run (Session.step .plain alice) (mismatched confirmed) [.user "bob" bob.toKeyRecord] =
        some s' ∧
      (s'.Held "bob" ↔
        (mismatched confirmed).keys.overturned "alice" "bob" "Aa" ["Aa"] = false) :=
  ⟨_, rfl, @mismatch_held_iff .plain alice _ _ "bob" ⟨zeros, "Aa", .link⟩
    [.user "bob" bob.toKeyRecord] rfl rfl (by decide) rfl⟩

/-- The relay serves a third key and then the confirmed one again. -/
theorem mismatch_not_always_held :
    ¬ ∀ (C : Crypto) (me : Identity) (before es : List Event) (s s' : Session) (u : String) (a : Alert),
      run (Session.step C me) (.start me fun _ => none) before = some s →
      s.keys.alerts u = some a → a.reason = .link → (∀ e ∈ es, e.decides = false) →
      run (Session.step C me) s es = some s' → s'.Held u := by
  intro h
  have hs := h .plain alice (confirmed ++ [.link "bob" zeros])
    [.user "bob" ⟨some "bob", "B", "b"⟩, .user "bob" bob.toKeyRecord] (mismatched confirmed) _
    "bob" ⟨zeros, "Aa", .link⟩ (mismatched_reached rfl rfl) rfl rfl (by decide) rfl
  exact absurd hs.alert (by decide)

end Lattix.Client
