import Lattix.Server.Administration
import Lattix.Server.Access

namespace Lattix.Server
open Lib.Transactions Lib.Runs

/-- What the tables hold of one group. -/
structure Part where
  groups : List GroupRow
  members : List MemberRow
  envelopes : List GroupEnvelopeRow
deriving DecidableEq, Repr

namespace Part

def empty : Part := ⟨[], [], []⟩

/-- The group in other hands. -/
def handTo (u : String) (p : Part) : Part :=
  { p with groups := p.groups.map fun r => { r with owner := u } }

/-- The oldest member but `u`. -/
def heir (u : String) (p : Part) : Option MemberRow :=
  oldest (p.members.filter fun m => m.username != u)

/-- The group after the loop of `delete_user`. -/
def pass (u : String) (p : Part) : Part :=
  match p.heir u with
  | some m => p.handTo m.username
  | none => empty

def withoutMember (u : String) (p : Part) : Part :=
  { p with members := p.members.filter fun m => m.username != u }

def withoutEnvelopes (u : String) (p : Part) : Part :=
  { p with envelopes := p.envelopes.filter fun e => e.sender != u }

end Part

/-- The rule of succession: what is to become of a group whose owner `u` goes. -/
structure Succession (u : String) (p p' : Part) : Prop where
  dropped : p' = .empty ↔ ∀ m ∈ p.members, m.username = u
  members : p' ≠ .empty → p'.members = p.members.filter fun m => m.username != u
  owner : p' ≠ .empty → ∃ m ∈ p'.members, (∀ o ∈ p'.members, o = m ∨ senior m o = true) ∧
    p'.groups = p.groups.map fun r => { r with owner := m.username }
  envelopes : p' ≠ .empty → (p'.withoutEnvelopes u).envelopes = (p.withoutEnvelopes u).envelopes

namespace Tables

def part (g : Nat) (t : Tables) : Part where
  groups := t.groups.filter fun r => r.id == g
  members := t.groupMembers.filter fun m => m.groupId == g
  envelopes := t.groupEnvelopes.filter fun e => e.groupId == g

end Tables

/-! The oldest member -/

theorem senior_trans {a b c : MemberRow} (hab : senior a b = true) (hbc : senior b c = true) :
    senior a c = true := by
  simp only [senior, Bool.or_eq_true, decide_eq_true_eq, Bool.and_eq_true, beq_iff_eq] at *
  rcases hab with hab | ⟨hab, hu⟩ <;> rcases hbc with hbc | ⟨hbc, hv⟩
  · exact .inl (by omega)
  · exact .inl (by omega)
  · exact .inl (by omega)
  · exact .inr ⟨hab.trans hbc, String.lt_trans hu hv⟩

/-- One of two members of a group comes first. -/
theorem senior_total {a b : MemberRow} (hu : a.username ≠ b.username) :
    senior a b = true ∨ senior b a = true := by
  simp only [senior, Bool.or_eq_true, decide_eq_true_eq, Bool.and_eq_true, beq_iff_eq]
  rcases lt_trichotomy a.joinedAt b.joinedAt with h | h | h
  · exact .inl (.inl h)
  · by_cases hlt : a.username < b.username
    · exact .inl (.inr ⟨h, hlt⟩)
    · refine .inr (.inr ⟨h.symm, ?_⟩)
      by_contra hgt
      exact hu (String.le_antisymm (String.not_lt.mp hgt) (String.not_lt.mp hlt))
  · exact .inr (.inl h)

theorem oldest_least {ms : List MemberRow} (hn : (ms.map MemberRow.username).Nodup) {m : MemberRow}
    (h : oldest ms = some m) : ∀ o ∈ ms, o = m ∨ senior m o = true := by
  induction ms generalizing m with
  | nil => cases h
  | cons a ms ih =>
    obtain ⟨ha, hn⟩ := List.nodup_cons.mp hn
    simp only [oldest] at h
    cases ho : oldest ms with
    | none =>
      rw [ho] at h
      cases h
      have hnil : ms = [] := by
        cases ms with
        | nil => rfl
        | cons b bs =>
          simp only [oldest] at ho
          split at ho <;> cases ho
      intro o hmem
      exact .inl (by simpa [hnil] using hmem)
    | some b =>
      have hb := ih hn ho
      have hbm := oldest_mem ho
      have hne : b.username ≠ a.username := fun he => ha (he ▸ List.mem_map_of_mem hbm)
      rw [ho] at h
      cases hs : senior b a with
      | true =>
        simp only [hs, if_true, Option.some.injEq] at h
        subst h
        intro o hmem
        rcases List.mem_cons.mp hmem with rfl | hmem
        · exact .inr hs
        · exact hb o hmem
      | false =>
        simp only [hs, Bool.false_eq_true, if_false, Option.some.injEq] at h
        subst h
        have hab : senior a b = true := by
          rcases senior_total hne with h | h
          · rw [hs] at h
            cases h
          · exact h
        intro o hmem
        rcases List.mem_cons.mp hmem with rfl | hmem
        · exact .inl rfl
        · rcases hb o hmem with rfl | hbo
          · exact .inr hab
          · exact .inr (senior_trans hab hbo)

theorem oldest_isNone {ms : List MemberRow} : oldest ms = none ↔ ms = [] := by
  cases ms with
  | nil => simp [oldest]
  | cons a ms =>
    simp only [oldest]
    split <;> simp

/-! The rule on one group -/

namespace Part
variable {u : String} {p : Part}

/-- Handing the group on and taking the owner off the roster follow the rule. -/
theorem succession (hn : (p.members.map MemberRow.username).Nodup) (hg : p.groups ≠ []) :
    Succession u p ((p.pass u).withoutMember u) := by
  cases hh : p.heir u with
  | none =>
    have hnone : (p.pass u).withoutMember u = empty := by
      rw [pass, hh]
      rfl
    have hall : ∀ m ∈ p.members, m.username = u := by
      have hf := oldest_isNone.mp hh
      intro m hm
      by_contra hne
      have hmem : m ∈ p.members.filter fun m => m.username != u :=
        List.mem_filter.mpr ⟨hm, by simpa using hne⟩
      rw [hf] at hmem
      cases hmem
    rw [hnone]
    exact ⟨⟨fun _ => hall, fun _ => rfl⟩, fun h => absurd rfl h, fun h => absurd rfl h, fun h => absurd rfl h⟩
  | some m =>
    have hsome : (p.pass u).withoutMember u = (p.handTo m.username).withoutMember u := by
      rw [pass, hh]
    have hm := oldest_mem hh
    have hne : (p.pass u).withoutMember u ≠ empty := by
      rw [hsome]
      intro he
      exact hg (List.map_eq_nil_iff.mp (congrArg Part.groups he))
    refine ⟨?_, fun _ => ?_, fun _ => ⟨m, ?_, ?_, ?_⟩, fun _ => ?_⟩
    · obtain ⟨hmem, hmu⟩ := List.mem_filter.mp hm
      exact ⟨fun he => absurd he hne, fun hall => by simp [hall m hmem] at hmu⟩
    · rw [hsome]
      rfl
    · rw [hsome]
      exact hm
    · rw [hsome]
      exact oldest_least (hn.sublist (List.filter_sublist.map _)) hh
    · rw [hsome]
      rfl
    · rw [hsome]
      rfl

/-- Whether the envelopes of `u` go as well makes no difference to the rule. -/
theorem forget {p' : Part} (h : Succession u p p') (hg : p.groups ≠ []) :
    Succession u p (p'.withoutEnvelopes u) := by
  have hiff : p'.withoutEnvelopes u = empty ↔ p' = empty := by
    constructor
    · intro he
      by_contra hne
      obtain ⟨m, -, -, hgs⟩ := h.owner hne
      have hnil : p'.groups = [] := congrArg Part.groups he
      exact hg (List.map_eq_nil_iff.mp (hgs.symm.trans hnil))
    · rintro rfl
      rfl
  refine ⟨hiff.trans h.dropped, fun hne => h.members fun he => hne (hiff.mpr he),
    fun hne => h.owner fun he => hne (hiff.mpr he), fun hne => ?_⟩
  have he := h.envelopes fun he => hne (hiff.mpr he)
  simp only [withoutEnvelopes, List.filter_filter, Bool.and_self] at he ⊢
  exact he

end Part

/-! The two paths, group by group -/

namespace Tables
variable {t : Tables} {u : String} {g : Nat}

theorem successor_part : successor g u t = ((t.part g).heir u).map MemberRow.username := by
  rw [successor, Part.heir, part, List.filter_filter]
  congr 3
  funext m
  exact Bool.and_comm _ _

theorem part_withOwner (gid : Nat) (v : String) :
    (t.withOwner gid v).part g = if g = gid then (t.part g).handTo v else t.part g := by
  have hgs : (t.withOwner gid v).groups.filter (fun r => r.id == g) =
      (t.groups.filter fun r => r.id == g).map fun r =>
        if r.id == gid then { r with owner := v } else r := by
    rw [withOwner, List.filter_map]
    congr 2
    funext r
    simp only [Function.comp_apply]
    split <;> rfl
  split
  · rename_i he
    subst he
    refine Part.mk.injEq .. ▸ ⟨hgs.trans ?_, rfl, rfl⟩
    exact List.map_congr_left fun r hr => if_pos (List.mem_filter.mp hr).2
  · rename_i hne
    refine Part.mk.injEq .. ▸ ⟨hgs.trans ?_, rfl, rfl⟩
    refine (List.map_congr_left fun r hr => if_neg ?_).trans (List.map_id _)
    have hid := (List.mem_filter.mp hr).2
    simp only [beq_iff_eq] at hid ⊢
    exact fun he => hne (hid.symm.trans he)

/-- Rows of another group stay, rows of the dropped one all go. -/
theorem filter_gone {α : Type} {xs : List α} {f : α → Nat} (gid : Nat)
    (hx : ∀ x ∈ xs, t.hasGroup (f x) = true) :
    (xs.filter fun x => !t.groups.any fun r => r.id == f x && r.id == gid).filter
        (fun x => f x == g) =
      if g = gid then [] else xs.filter fun x => f x == g := by
  rw [List.filter_filter]
  split
  · rename_i he
    subst he
    refine List.filter_eq_nil_iff.mpr fun x hm hk => ?_
    obtain ⟨r, hr, hid⟩ := hasGroup_iff.mp (hx x hm)
    simp only [Bool.and_eq_true, beq_iff_eq, Bool.not_eq_true', List.any_eq_false, not_and] at hk
    exact hk.2 r hr hid (hid.trans hk.1)
  · rename_i hne
    refine List.filter_congr fun x _ => ?_
    cases hf : f x == g with
    | false => rfl
    | true =>
      simp only [Bool.true_and, Bool.not_eq_true', List.any_eq_false, Bool.and_eq_true, beq_iff_eq,
        not_and] at hf ⊢
      exact fun r _ hid he => hne ((hf.symm.trans hid.symm).trans he)

theorem part_dropGroups (h : t.Valid) (gid : Nat) :
    (t.dropGroups fun r => r.id == gid).part g = if g = gid then .empty else t.part g := by
  have hgs := filter_gone (t := t) (g := g) (f := GroupRow.id) gid fun r hr => hasGroup_of_mem hr
  have hms := filter_gone (t := t) (g := g) (f := MemberRow.groupId) gid h.memberGroup
  have hes := filter_gone (t := t) (g := g) (f := GroupEnvelopeRow.groupId) gid h.envelopeGroup
  have hown : (t.groups.filter fun r => !t.groups.any fun s => s.id == r.id && s.id == gid) =
      t.groups.filter fun r => !(r.id == gid) :=
    List.filter_congr fun r hr => by rw [gone_iff h hr (p := fun s => s.id == gid)]
  rw [hown] at hgs
  simp only [part, dropGroups, hgs, hms, hes]
  split <;> rfl

theorem part_withoutMember (gid : Nat) :
    (t.withoutMember gid u).part g = if g = gid then (t.part g).withoutMember u else t.part g := by
  have hms : (t.withoutMember gid u).groupMembers.filter (fun m => m.groupId == g) =
      (t.groupMembers.filter fun m => m.groupId == g).filter fun m =>
        !(m.groupId == gid && m.username == u) := List.filter_comm _ _ _
  split
  · rename_i he
    subst he
    refine Part.mk.injEq .. ▸ ⟨rfl, hms.trans ?_, rfl⟩
    refine List.filter_congr fun m hm => ?_
    rw [(List.mem_filter.mp hm).2]
    rfl
  · rename_i hne
    refine Part.mk.injEq .. ▸ ⟨rfl, hms.trans ?_, rfl⟩
    refine List.filter_eq_self.mpr fun m hm => ?_
    have hid := (List.mem_filter.mp hm).2
    simp only [beq_iff_eq] at hid
    simp [hid, hne]

theorem part_passOn (h : t.Valid) {gids : List Nat} (hn : gids.Nodup) :
    (t.passOn u gids).part g = if g ∈ gids then (t.part g).pass u else t.part g := by
  induction gids generalizing t with
  | nil => rfl
  | cons gid rest ih =>
    obtain ⟨hg, hn⟩ := List.nodup_cons.mp hn
    simp only [passOn]
    have hpart := successor_part (t := t) (u := u) (g := gid)
    cases hs : successor gid u t with
    | some heir =>
      rw [hs] at hpart
      obtain ⟨m, hm, hu⟩ := Option.map_eq_some_iff.mp hpart.symm
      rw [ih (updateOwner_valid h (h.updateOwner_ok (successor_member hs).1)) hn]
      rw [part_withOwner]
      by_cases he : g = gid
      · subst he
        rw [if_neg hg, if_pos rfl, if_pos List.mem_cons_self, Part.pass, hm, ← hu]
      · simp [he]
    | none =>
      rw [hs] at hpart
      have hm := Option.map_eq_none_iff.mp hpart.symm
      rw [ih (dropGroups_valid h _) hn, part_dropGroups h]
      by_cases he : g = gid
      · subst he
        rw [if_neg hg, if_pos rfl, if_pos List.mem_cons_self, Part.pass, hm]
      · simp [he]

theorem part_left (h : t.Valid) (gid : Nat) (ho : t.owns u gid = true) : (t.left gid u).part g =
    if g = gid then ((t.part g).pass u).withoutMember u else t.part g := by
  have hw := part_withoutMember (t := t) (u := u) (g := g) gid
  have hv : (t.withoutMember gid u).Valid := deleteMember_valid (a := ()) h rfl
  have hpart := successor_part (t := t) (u := u) (g := gid)
  rw [left, if_pos ho]
  cases hs : successor gid u t with
  | some heir =>
    rw [hs] at hpart
    obtain ⟨m, hm, hu⟩ := Option.map_eq_some_iff.mp hpart.symm
    dsimp only
    rw [part_withOwner, hw]
    by_cases he : g = gid
    · subst he
      simp only [if_true, Part.pass, hm, ← hu]
      rfl
    · simp only [if_neg he]
  | none =>
    rw [hs] at hpart
    have hm := Option.map_eq_none_iff.mp hpart.symm
    dsimp only
    rw [part_dropGroups hv, hw]
    by_cases he : g = gid
    · subst he
      simp only [if_true, Part.pass, hm]
      rfl
    · simp only [if_neg he]

theorem mem_owned : g ∈ owned u t ↔ t.owns u g = true := by
  simp only [owned, owns_iff, List.mem_map, List.mem_filter, beq_iff_eq]
  constructor
  · rintro ⟨r, ⟨hr, ho⟩, hid⟩
    exact ⟨r, hr, hid, ho⟩
  · rintro ⟨r, hr, hid, ho⟩
    exact ⟨r, ⟨hr, ho⟩, hid⟩

/-- Once its groups are passed on, an account owns none. -/
theorem passOn_unowned (h : t.Valid) :
    ∀ r ∈ (t.passOn u (owned u t)).groups, (r.owner == u) = false := by
  intro r hr
  rw [beq_eq_false_iff_ne]
  rcases (passOn_passed u (owned u t) h).owner r hr with ⟨r', hr', -, ho, hn⟩ | ⟨hne, -⟩
  · rintro rfl
    exact hn (mem_owned.mpr (owns_iff.mpr ⟨r', hr', rfl, ho⟩))
  · exact hne

theorem dropGroups_none {p : GroupRow → Bool} (h : ∀ r ∈ t.groups, p r = false) :
    t.dropGroups p = t := by
  have hgone : ∀ g, (t.groups.any fun r => r.id == g && p r) = false := fun g =>
    List.any_eq_false.mpr fun r hr => by simp [h r hr]
  have hgs : t.groups.filter (fun r => !p r) = t.groups :=
    List.filter_eq_self.mpr fun r hr => by simp [h r hr]
  simp only [dropGroups, hgone, hgs, Bool.not_false, List.filter_true]

theorem part_withoutUser (h : t.Valid) : (t.withoutUser u).part g =
    ((if t.owns u g = true then (t.part g).pass u else t.part g).withoutMember u).withoutEnvelopes
      u := by
  have hn : (owned u t).Nodup := h.groups.sublist (List.filter_sublist.map _)
  have hp := part_passOn (g := g) (u := u) h hn
  simp only [mem_owned] at hp
  rw [← hp]
  simp only [withoutUser, dropGroups_none (passOn_unowned h)]
  exact Part.mk.injEq .. ▸ ⟨rfl, List.filter_comm _ _ _, List.filter_comm _ _ _⟩

theorem Valid.part_members (h : t.Valid) (g : Nat) :
    ((t.part g).members.map MemberRow.username).Nodup := by
  have hs : (t.part g).members.Pairwise fun a b => (a.groupId, a.username) ≠ (b.groupId, b.username) :=
    (List.pairwise_map.mp h.members).filter _
  refine List.pairwise_map.mpr (hs.imp_of_mem fun {a b} ha hb hne he => hne ?_)
  have ha := (List.mem_filter.mp ha).2
  have hb := (List.mem_filter.mp hb).2
  simp only [beq_iff_eq] at ha hb
  rw [ha, hb, he]

theorem part_groups_ne (ho : t.owns u g = true) : (t.part g).groups ≠ [] := by
  obtain ⟨r, hr, hid, -⟩ := owns_iff.mp ho
  exact List.ne_nil_of_mem (List.mem_filter.mpr ⟨hr, by simpa using hid⟩)

end Tables

namespace Service

/-- `u` makes a request with a token, is answered, and leaves the relay as `s'`. -/
def Asks (R : Runtime) (s : Service) (u : String) (req : Request) (r : Response)
    (s' : Service) : Prop :=
  ∃ authorization d me ts, requireUser d.checkedAt authorization s.tokens = (some me, ts) ∧
    me.username = u ∧ s.handle R authorization req d = (r, s')

variable {R : Runtime} {s : Service}

theorem Sane.leaves (h : s.Sane) {u p : String} {g : Nat} (ho : s.tables.owns u g = true)
    (hp : R.lower p = u) {r : Response} {s' : Service} (ha : s.Asks R u (.removeMember g p) r s') :
    r = .ok ∧ s'.tables = s.tables.left g u := by
  obtain ⟨authorization, d, me, ts, hr, rfl, hd⟩ := ha
  have hm : s.tables.hasMember g me.username = true := by
    obtain ⟨row, hrow, hid, hown⟩ := Tables.owns_iff.mp ho
    rw [← hid, ← hown]
    exact h.staffed row hrow nofun
  have hy : Yields (handler R d me.username (.removeMember g p)) s.tables _ _ :=
    removeMember_yields h.valid h.no_empty_name hm (.inl ho)
  have hs : s.handle R authorization (.removeMember g p) d =
      serve R d me (.removeMember g p) { s with tokens := ts } := by
    simp only [handle, guarded, hr]
  rw [hs, serve_yields h hy] at hd
  cases hd
  exact ⟨rfl, record_tables.trans (by rw [hp]; rfl)⟩

theorem Sane.deletes (h : s.Sane) {u : String} {r : Response} {s' : Service}
    (ha : s.Asks R u .deleteAccount r s') : r = .ok ∧ s'.tables = s.tables.withoutUser u := by
  obtain ⟨authorization, d, me, ts, hr, rfl, hd⟩ := ha
  obtain ⟨touched, hdel⟩ := deleteUser_yields h.valid me.username
  have hy : Yields (handler R d me.username .deleteAccount) s.tables .ok _ :=
    .bind (.query _ _) (.bind hdel (.pure _ _))
  have hs : s.handle R authorization .deleteAccount d =
      serve R d me .deleteAccount { s with tokens := ts } := by
    simp only [handle, guarded, hr]
  rw [hs, serve_yields h hy] at hd
  cases hd
  exact ⟨rfl, record_tables⟩

/-- An owner who leaves a group and an owner who deletes the account hand it on
by one rule. Leaving it touches no other group, and a deletion takes the account
out of every group but changes no other owner. -/
theorem departures_agree (R : Runtime) (es : List Event) {s : Service}
    (hrun : run (step R) .empty es = some s) : Administered s.tables ∧
    ∀ u g p, s.tables.owns u g = true → R.lower p = u → ∀ r left r' gone,
      s.Asks R u (.removeMember g p) r left → s.Asks R u .deleteAccount r' gone →
      r = .ok ∧ r' = .ok ∧
      Succession u (s.tables.part g) (left.tables.part g) ∧
      Succession u (s.tables.part g) (gone.tables.part g) ∧
      gone.tables.part g = (left.tables.part g).withoutEnvelopes u ∧
      (∀ g', g' ≠ g → left.tables.part g' = s.tables.part g') ∧
      ∀ g', (∀ m ∈ (gone.tables.part g').members, m.username ≠ u) ∧
        (s.tables.owns u g' = false →
          gone.tables.part g' = ((s.tables.part g').withoutMember u).withoutEnvelopes u) := by
  have h : s.Sane := run_sane hrun
  refine ⟨staffed_none.mp h.staffed, fun u g p ho hp r left r' gone hl hd => ?_⟩
  obtain ⟨hr, hl⟩ := h.leaves ho hp hl
  obtain ⟨hr', hg⟩ := h.deletes hd
  have hne := Tables.part_groups_ne ho
  have hsucc := Part.succession (u := u) (h.valid.part_members g) hne
  have hleft : ∀ g', left.tables.part g' = _ := fun g' => hl ▸ Tables.part_left h.valid g ho
  have hgone : ∀ g', gone.tables.part g' = _ := fun g' => hg ▸ Tables.part_withoutUser h.valid
  refine ⟨hr, hr', ?_, ?_, ?_, fun g' he => ?_, fun g' => ⟨fun m hm => ?_, fun hno => ?_⟩⟩
  · rw [hleft, if_pos rfl]
    exact hsucc
  · rw [hgone, if_pos ho]
    exact Part.forget hsucc hne
  · rw [hleft, hgone, if_pos rfl, if_pos ho]
  · rw [hleft, if_neg he]
  · rw [hgone] at hm
    simpa using (List.mem_filter.mp hm).2
  · rw [hgone, if_neg (by simp [hno])]

end Service

/-- ann has a group with bob. -/
def annsGroup : List Service.Event :=
  [signUp "ann" "t1", signUp "bob" "t2",
    .request "Bearer t1" (.createGroup "g" ["bob"] none) (draws "t0" "f0" ["ann", "bob"])]

def grouped : Service := ((run (Service.step plain) .empty annsGroup).getD .empty)

def byAnn (req : Request) : Service :=
  (grouped.handle plain "Bearer t1" req (draws "t0" "f0" [])).2

theorem anns_departures_agree : run (Service.step plain) .empty annsGroup = some grouped ∧
    Succession "ann" (grouped.tables.part 1) ((byAnn (.removeMember 1 "ann")).tables.part 1) ∧
    Succession "ann" (grouped.tables.part 1) ((byAnn .deleteAccount).tables.part 1) := by
  have hrun : run (Service.step plain) .empty annsGroup = some grouped := rfl
  have hme : requireUser 0 "Bearer t1" grouped.tokens = (some ⟨"ann", 1⟩, grouped.tokens) := by
    decide +kernel
  have hl : grouped.Asks plain "ann" (.removeMember 1 "ann") .ok (byAnn (.removeMember 1 "ann")) :=
    ⟨"Bearer t1", draws "t0" "f0" [], ⟨"ann", 1⟩, _, hme, rfl, rfl⟩
  have hd : grouped.Asks plain "ann" .deleteAccount .ok (byAnn .deleteAccount) :=
    ⟨"Bearer t1", draws "t0" "f0" [], ⟨"ann", 1⟩, _, hme, rfl, rfl⟩
  obtain ⟨-, -, hleft, hgone, -⟩ := (Service.departures_agree plain annsGroup hrun).2 "ann" 1 "ann"
    (by decide) (by decide) _ _ _ _ hl hd
  exact ⟨hrun, hleft, hgone⟩

end Lattix.Server
