import Lattix.Lib.Runs
import Lattix.Client.Session

namespace Lattix.Client
open Lib.Runs

variable {C : Crypto} {me : Identity}

/-- Content keys for the local user are wrapped under the vault's key alone, and
nothing else passes for the user's own signature. -/
structure Session.OwnKeysOnly (C : Crypto) (me : Identity) (s : Session) : Prop where
  wrapped : ∀ m ∈ s.built, ∀ r ∈ m.recipients, r.username = me.username → r.kemPub = me.kem
  signed : ∀ d ∈ s.decoded, d.sender = me.username → d.verified = true →
    C.verifies me.dsa d.context d.payload = true

def KeyRecord.own (me : Identity) (rec : KeyRecord) : Bool :=
  rec.kem == me.kem && rec.dsa == me.dsa

/-- A record about the local user: asked for under that name, or cached with it. -/
def Keys.about (me : Identity) (u : String) (rec : KeyRecord) (k : Keys) : Bool :=
  u == me.username ||
    (rec.username <|> (k.peers u).bind fun p => p.username) == some me.username

def ownMembers (me : Identity) (members : List Member) : Bool :=
  members.all fun m => m.username != me.username || m.record.own me

/-- The relay hands out the vault's own keys for the local user. -/
def Session.faithful (C : Crypto) (me : Identity) (s : Session) : Event → Bool
  | .user u rec | .verify u rec =>
    (C.fingerprintOf rec.kem rec.dsa).isNone || !s.keys.about me u rec || rec.own me
  | .detail _ _ members => ownMembers me members
  | .merge _ members => ownMembers me (members.getD [])
  | _ => true

def Keys.Own (me : Identity) (k : Keys) : Prop :=
  ∀ u p, k.peers u = some p → u = me.username ∨ p.username = some me.username →
    p.kem = me.kem ∧ p.dsa = me.dsa

structure Session.Own (C : Crypto) (me : Identity) (s : Session) : Prop where
  keys : s.keys.Own me
  rosters : ∀ ref, ∀ m ∈ s.rosters ref, m.username = me.username → m.kem = me.kem
  detail : ∀ l ∈ s.loads, ∀ m ∈ l.detail, m.username = me.username → m.kem = me.kem
  todo : ∀ l ∈ s.loads, ∀ m ∈ l.todo, m.username = me.username → m.record.own me = true
  only : s.OwnKeysOnly C me

theorem own_iff {rec : KeyRecord} : rec.own me = true ↔ rec.kem = me.kem ∧ rec.dsa = me.dsa := by
  simp [KeyRecord.own]

theorem about_iff {u : String} {rec : KeyRecord} {k : Keys} : k.about me u rec = true ↔
    u = me.username ∨
      (rec.username <|> (k.peers u).bind fun p => p.username) = some me.username := by
  simp [Keys.about]

theorem ownMembers_iff {ms : List Member} : ownMembers me ms = true ↔
    ∀ m ∈ ms, m.username = me.username → m.record.own me = true := by
  simp [ownMembers, or_iff_not_imp_left]

theorem Keys.Own.congr {k k' : Keys} (h : k.Own me) (he : k'.peers = k.peers) : k'.Own me := by
  intro u p hp
  rw [he] at hp
  exact h u p hp

theorem Keys.Own.adopt {k : Keys} {u fp : String} {rec : KeyRecord} (h : k.Own me)
    (hrec : k.about me u rec = true → rec.own me = true) :
    (k.adopt me.username u rec fp).Own me := by
  intro v p hp hn
  by_cases hv : v = u
  · subst hv
    rw [adopt_peers_self] at hp
    cases hp
    exact own_iff.mp (hrec (about_iff.mpr hn))
  · rw [adopt_peers_ne hv] at hp
    exact h v p hp hn

theorem adopt_faithful {k : Keys} {u fp : String} {rec : KeyRecord} (h : k.Own me)
    (hf : C.fingerprintOf rec.kem rec.dsa = some fp)
    (hs : ((C.fingerprintOf rec.kem rec.dsa).isNone || !k.about me u rec || rec.own me) = true) :
    (k.adopt me.username u rec fp).Own me := by
  apply h.adopt
  intro ha
  simpa [hf, ha] using hs

theorem merged_own {k : Keys} {m : Member} (h : k.Own me)
    (hm : m.username = me.username → m.kem = me.kem)
    (hn : (k.merged m).username = me.username) : (k.merged m).kem = me.kem := by
  unfold Keys.merged at hn ⊢
  cases hp : k.peers m.username with
  | none =>
    simp only [hp] at hn
    exact hm hn
  | some p =>
    simp only [hp] at hn
    apply (h m.username p hp _).1
    cases hu : p.username with
    | none =>
      left
      simpa [hu] using hn
    | some n =>
      right
      simpa [hu] using hn

theorem recipients_own {s : Session} (h : s.Own C me) (c : Convo) :
    ∀ r ∈ s.recipientsFor me c, r.username = me.username → r.kemPub = me.kem := by
  intro r hr hn
  cases c with
  | group ref =>
    obtain ⟨m, hm, rfl⟩ := List.mem_map.mp hr
    exact h.rosters ref m hm hn
  | dm u =>
    simp only [Session.recipientsFor] at hr
    cases hp : s.keys.peers u with
    | none =>
      simp [hp] at hr
    | some p =>
      simp only [hp, List.mem_cons] at hr
      rcases hr with rfl | hr
      · exact (h.keys u p hp (.inl hn)).1
      · split at hr
        · cases hr
        · rw [List.mem_singleton.mp hr]

theorem build_own {s : Session} (h : s.Own C me) (c : Convo) : (s.build me c).Own C me := by
  refine ⟨h.keys, h.rosters, h.detail, h.todo, ?_, h.only.signed⟩
  intro m hm
  rcases List.mem_append.mp hm with hm | hm
  · exact h.only.wrapped m hm
  · rw [List.mem_singleton.mp hm]
    exact recipients_own h c

theorem resume_own {s : Session} (h : s.Own C me) (goal : Goal) : (s.resume me goal).Own C me := by
  cases goal with
  | «show» => exact h
  | message ref =>
    simp only [Session.resume]
    split
    · exact build_own h _
    · exact h
  | file ref =>
    simp only [Session.resume]
    split
    · exact ⟨h.keys, h.rosters, h.detail, h.todo, h.only.wrapped, h.only.signed⟩
    · exact h

theorem enrol_own {s : Session} {l : Load} (h : s.Own C me) (hl : l ∈ s.loads) :
    (s.enrol l).Own C me := by
  refine ⟨h.keys, ?_, fun x hx => h.detail x (List.mem_of_mem_erase hx),
    fun x hx => h.todo x (List.mem_of_mem_erase hx), h.only.wrapped, h.only.signed⟩
  intro ref m hm
  by_cases hr : ref = l.ref
  · subst hr
    simp only [Session.enrol, Function.update_self] at hm
    obtain ⟨d, hd, rfl⟩ := List.mem_map.mp hm
    exact merged_own h.keys (h.detail l hl d hd)
  · simp only [Session.enrol, Function.update_of_ne hr] at hm
    exact h.rosters ref m hm

theorem ensure_own {s : Session} {g : Nat} {members : Option (List Member)} (h : s.Own C me)
    (hm : ownMembers me (members.getD []) = true) : (s.ensureGroupConvo g members).Own C me := by
  refine ⟨h.keys, ?_, h.detail, h.todo, h.only.wrapped, h.only.signed⟩
  intro ref m hr hn
  by_cases he : ref = s.refOf g
  · subst he
    simp only [Session.ensureGroupConvo, Function.update_self] at hr
    cases members with
    | none => exact h.rosters _ m hr hn
    | some ms => exact (own_iff.mp (ownMembers_iff.mp hm m hr hn)).1
  · simp only [Session.ensureGroupConvo, Function.update_of_ne he] at hr
    exact h.rosters ref m hr hn

theorem keys_own {s : Session} (h : s.Own C me) {k : Keys} (hk : k.Own me) :
    ({ s with keys := k }).Own C me :=
  ⟨hk, h.rosters, h.detail, h.todo, h.only.wrapped, h.only.signed⟩

theorem decode_own {s : Session} {p : Peer} {sender : String} (h : s.Own C me)
    (hp : s.keys.peers sender = some p) (context payload : String) (opened : Bool) :
    (s.decode C me p sender context payload opened).Own C me := by
  refine ⟨h.keys, h.rosters, h.detail, h.todo, h.only.wrapped, ?_⟩
  intro d hd hn hv
  rcases List.mem_append.mp hd with hd | hd
  · exact h.only.signed d hd hn hv
  · rw [List.mem_singleton.mp hd] at hn hv ⊢
    have hdsa := (h.keys sender p hp (.inl hn)).2
    simp only [Bool.and_eq_true] at hv
    rw [← hdsa]
    exact hv.1.1

theorem start_own (me : Identity) (pins : String → Option Pin) : (Session.start me pins).Own C me := by
  refine ⟨?_, fun _ _ hm => ?_, fun _ hl => ?_, fun _ hl => ?_, fun _ hm => ?_, fun _ hd => ?_⟩
  · intro u p hp hn
    by_cases hu : u = me.username
    · simp only [Session.start, hu, Function.update_self, Option.some.injEq] at hp
      subst hp
      exact ⟨rfl, rfl⟩
    · simp [Session.start, hu] at hp
  · cases hm
  · cases hl
  · cases hl
  · cases hm
  · cases hd

theorem step_own (s : Session) (e : Event) (s' : Session) (h : s.Own C me)
    (hf : s.faithful C me e = true) (hs : s.step C me e = some s') : s'.Own C me := by
  cases session_moves hs with
  | adopted hfp => exact keys_own h (adopt_faithful h.keys hfp hf)
  | verifying _ hfp =>
    have hk := keys_own h (adopt_faithful h.keys hfp hf)
    exact ⟨hk.keys, hk.rosters, hk.detail, hk.todo, hk.only.wrapped, hk.only.signed⟩
  | @detailed goal g members =>
    have hg : (s.ensureGroupConvo g (some members)).Own C me := ensure_own h hf
    have hm := ownMembers_iff.mp hf
    refine ⟨hg.keys, hg.rosters, ?_, ?_, hg.only.wrapped, hg.only.signed⟩
    · intro l hl m hd hn
      rcases List.mem_append.mp hl with hl | hl
      · exact h.detail l hl m hd hn
      · rw [List.mem_singleton.mp hl] at hd
        exact (own_iff.mp (hm m hd hn)).1
    · intro l hl m hd hn
      rcases List.mem_append.mp hl with hl | hl
      · exact h.todo l hl m hd hn
      · rw [List.mem_singleton.mp hl] at hd
        exact hm m hd hn
  | @checked l m rest fp hl ht =>
    have hto := h.todo l hl
    rw [ht] at hto
    have hk : (s.keys.adopt me.username m.username m.record fp).Own me := by
      apply h.keys.adopt
      intro ha
      apply hto m (List.mem_cons_self ..)
      simpa [about_iff, Member.record] using ha
    refine ⟨hk, h.rosters, ?_, ?_, h.only.wrapped, h.only.signed⟩
    · intro x hx
      rcases List.mem_append.mp hx with hx | hx
      · exact h.detail x (List.mem_of_mem_erase hx)
      · rw [List.mem_singleton.mp hx]
        exact h.detail l hl
    · intro x hx
      rcases List.mem_append.mp hx with hx | hx
      · exact h.todo x (List.mem_of_mem_erase hx)
      · rw [List.mem_singleton.mp hx]
        exact fun d hd => hto d (List.mem_cons_of_mem _ hd)
  | finished hl => exact resume_own (enrol_own h hl) _
  | merged g members => exact ensure_own h hf
  | sent => exact build_own h _
  | @encrypted c =>
    have hb := build_own h c
    exact ⟨hb.keys, hb.rosters, hb.detail, hb.todo, hb.only.wrapped, hb.only.signed⟩
  | @decoded sender context payload opened p hp => exact decode_own h hp context payload opened
  | accepted u => exact keys_own h (h.keys.congr acceptNewKey_peers)
  | toggled =>
    exact ⟨h.keys.congr rfl, h.rosters, h.detail, h.todo, h.only.wrapped, h.only.signed⟩
  | linked => exact keys_own h (h.keys.congr followLink_peers)
  | loading | sending | attaching | dropped | attached | closed =>
    exact ⟨h.keys, h.rosters, h.detail, h.todo, h.only.wrapped, h.only.signed⟩

/-- A group answered with the vault's own keys, and with anything for ann. -/
def answered : List Event :=
  let detail : List Member := [⟨"me", "K", "D"⟩, ⟨"ann", "X", "Y"⟩]
  [.merge 1 none, .sendGroup 1, .detail (.message 0) 1 detail,
    .member ⟨.message 0, 0, detail, detail⟩, .member ⟨.message 0, 0, detail, detail.drop 1⟩,
    .finish ⟨.message 0, 0, detail, []⟩]

end Lattix.Client
