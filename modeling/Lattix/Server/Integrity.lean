import Lattix.Server.Schema

namespace Lattix.Server.Tables

theorem empty_valid : Tables.empty.Valid := by
  constructor <;> simp [Tables.empty]

theorem forall_snoc {α : Type} {P : α → Prop} {xs : List α} {y : α} (h : ∀ x ∈ xs, P x)
    (hy : P y) : ∀ x ∈ xs ++ [y], P x := by
  intro x hx
  rcases List.mem_append.mp hx with hx | hx
  · exact h x hx
  · rw [List.mem_singleton.mp hx]
    exact hy

theorem nodup_snoc {α β : Type} {f : α → β} {xs : List α} {y : α} (h : (xs.map f).Nodup)
    (hy : ∀ x ∈ xs, f x ≠ f y) : ((xs ++ [y]).map f).Nodup := by
  simp only [List.map_append, List.map_cons, List.map_nil]
  refine List.Nodup.append h (List.nodup_singleton _) ?_
  intro v hv hr
  obtain ⟨x, hx, rfl⟩ := List.mem_map.mp hv
  exact hy x hx (List.mem_singleton.mp hr)

/-- The users a row may name are those left once `u` is gone. -/
theorem hasUser_filter {t : Tables} {u v : String} (h : t.hasUser v = true) (hv : v ≠ u) :
    (t.users.filter fun r => r.username != u).any (fun r => r.username == v) = true := by
  obtain ⟨r, hr, he⟩ := hasUser_iff.mp h
  exact List.any_eq_true.mpr ⟨r, List.mem_filter.mpr ⟨hr, by simp [he, hv]⟩, by simp [he]⟩

/-- A group is gone exactly when its one row meets the condition. -/
theorem gone_iff {t : Tables} (h : t.Valid) {p : GroupRow → Bool} {r : GroupRow}
    (hr : r ∈ t.groups) :
    (t.groups.any fun s => s.id == r.id && p s) = p r := by
  rw [Bool.eq_iff_iff, List.any_eq_true]
  constructor
  · rintro ⟨s, hs, he⟩
    simp only [Bool.and_eq_true, beq_iff_eq] at he
    rw [List.inj_on_of_nodup_map h.groups hs hr he.1] at he
    exact he.2
  · intro hp
    exact ⟨r, hr, by simp [hp]⟩

theorem hasGroup_dropGroups {t : Tables} {p : GroupRow → Bool} {g : Nat}
    (hg : t.hasGroup g = true) (hp : (t.groups.any fun s => s.id == g && p s) = false) :
    (t.dropGroups p).hasGroup g = true := by
  obtain ⟨r, hr, rfl⟩ := hasGroup_iff.mp hg
  refine hasGroup_iff.mpr ⟨r, List.mem_filter.mpr ⟨hr, ?_⟩, rfl⟩
  have := List.any_eq_false.mp hp r hr
  simpa using this

theorem dropGroups_valid {t : Tables} (h : t.Valid) (p : GroupRow → Bool) :
    (t.dropGroups p).Valid where
  users := h.users
  files := h.files
  envelopes := h.envelopes
  sender := h.sender
  recipient := h.recipient
  fileOwner := h.fileOwner
  envelopeSeq := h.envelopeSeq
  groups := h.groups.sublist (List.filter_sublist.map _)
  groupEnvelopes := h.groupEnvelopes.sublist (List.filter_sublist.map _)
  members := h.members.sublist (List.filter_sublist.map _)
  groupOwner g hg := h.groupOwner g (List.mem_of_mem_filter hg)
  memberGroup m hm := by
    obtain ⟨hm, hn⟩ := List.mem_filter.mp hm
    exact hasGroup_dropGroups (h.memberGroup m hm) (by simpa using hn)
  memberUser m hm := h.memberUser m (List.mem_of_mem_filter hm)
  groupSender e he := h.groupSender e (List.mem_of_mem_filter he)
  envelopeGroup e he := by
    obtain ⟨he, hn⟩ := List.mem_filter.mp he
    exact hasGroup_dropGroups (h.envelopeGroup e he) (by simpa using hn)
  groupSeq g hg := h.groupSeq g (List.mem_of_mem_filter hg)
  groupEnvelopeSeq e he := h.groupEnvelopeSeq e (List.mem_of_mem_filter he)

theorem deleteGroup_valid {g : Nat} {t t' : Tables} {a : Unit} (h : t.Valid)
    (hd : deleteGroup g t = .ok (t', a)) : t'.Valid := by
  cases hd
  exact dropGroups_valid h _

theorem deleteUser_valid {u : String} {t t' : Tables} {a : Unit} (h : t.Valid)
    (hd : deleteUser u t = .ok (t', a)) : t'.Valid := by
  have hk := dropGroups_valid h fun r => r.owner == u
  cases hd
  exact {
    users := hk.users.sublist (List.filter_sublist.map _)
    files := hk.files.sublist (List.filter_sublist.map _)
    groups := hk.groups
    envelopes := hk.envelopes.sublist (List.filter_sublist.map _)
    groupEnvelopes := hk.groupEnvelopes.sublist (List.filter_sublist.map _)
    members := hk.members.sublist (List.filter_sublist.map _)
    sender := by
      intro e he
      obtain ⟨he, hn⟩ := List.mem_filter.mp he
      simp only [Bool.and_eq_true, bne_iff_ne] at hn
      exact hasUser_filter (hk.sender e he) hn.1
    recipient := by
      intro e he
      obtain ⟨he, hn⟩ := List.mem_filter.mp he
      simp only [Bool.and_eq_true, bne_iff_ne] at hn
      exact hasUser_filter (hk.recipient e he) hn.2
    fileOwner := by
      intro f hf
      obtain ⟨hf, hn⟩ := List.mem_filter.mp hf
      exact hasUser_filter (hk.fileOwner f hf) (by simpa using hn)
    groupOwner := by
      intro g hg
      have hn := (List.mem_filter.mp hg).2
      exact hasUser_filter (hk.groupOwner g hg) (by simpa using hn)
    memberGroup := fun m hm => hk.memberGroup m (List.mem_of_mem_filter hm)
    memberUser := by
      intro m hm
      obtain ⟨hm, hn⟩ := List.mem_filter.mp hm
      exact hasUser_filter (hk.memberUser m hm) (by simpa using hn)
    groupSender := by
      intro e he
      obtain ⟨he, hn⟩ := List.mem_filter.mp he
      exact hasUser_filter (hk.groupSender e he) (by simpa using hn)
    envelopeGroup := fun e he => hk.envelopeGroup e (List.mem_of_mem_filter he)
    envelopeSeq := fun e he => hk.envelopeSeq e (List.mem_of_mem_filter he)
    groupSeq := hk.groupSeq
    groupEnvelopeSeq := fun e he => hk.groupEnvelopeSeq e (List.mem_of_mem_filter he) }

theorem insertUser_valid {row : User} {t t' : Tables} {a : Unit} (h : t.Valid)
    (hi : insertUser row t = .ok (t', a)) : t'.Valid := by
  unfold insertUser at hi
  split at hi
  · cases hi
  · rename_i hn
    cases hi
    have grow : ∀ v, t.hasUser v = true →
        (t.users ++ [row]).any (fun r => r.username == v) = true := by
      intro v hv
      rw [List.any_append]
      exact Bool.or_eq_true_iff.mpr (.inl hv)
    exact { h with
      users := nodup_snoc h.users fun r hr he => hn (hasUser_iff.mpr ⟨r, hr, he⟩)
      sender := fun e he => grow _ (h.sender e he)
      recipient := fun e he => grow _ (h.recipient e he)
      fileOwner := fun f hf => grow _ (h.fileOwner f hf)
      groupOwner := fun g hg => grow _ (h.groupOwner g hg)
      memberUser := fun m hm => grow _ (h.memberUser m hm)
      groupSender := fun e he => grow _ (h.groupSender e he) }

theorem updateAvatar_valid {u : String} {av : Option String} {t t' : Tables} {a : Unit}
    (h : t.Valid) (hu : updateAvatar u av t = .ok (t', a)) : t'.Valid := by
  cases hu
  have hmap : ∀ r : User, (if r.username == u then { r with avatar := av } else r).username =
      r.username := by
    intro r
    split <;> rfl
  have keep : ∀ v, t.hasUser v = true → (t.users.map fun r =>
      if r.username == u then { r with avatar := av } else r).any
        (fun r => r.username == v) = true := by
    intro v hv
    rw [List.any_map]
    simpa only [hasUser, Function.comp_def, hmap] using hv
  exact { h with
    users := by simpa only [List.map_map, Function.comp_def, hmap] using h.users
    sender := fun e he => keep _ (h.sender e he)
    recipient := fun e he => keep _ (h.recipient e he)
    fileOwner := fun f hf => keep _ (h.fileOwner f hf)
    groupOwner := fun g hg => keep _ (h.groupOwner g hg)
    memberUser := fun m hm => keep _ (h.memberUser m hm)
    groupSender := fun e he => keep _ (h.groupSender e he) }

/-- A column that AUTOINCREMENT fills stays free of repeats. -/
theorem nodup_next {α : Type} {f : α → Nat} {xs : List α} {seq : Nat} (h : (xs.map f).Nodup)
    (hs : ∀ x ∈ xs, f x ≤ seq) {y : α} (hy : f y = seq + 1) :
    ((xs ++ [y]).map f).Nodup := by
  apply nodup_snoc h
  intro x hx
  have := hs x hx
  omega

theorem insertEnvelope_valid {row : EnvelopeRow} {t t' : Tables} {n : Nat} (h : t.Valid)
    (hi : insertEnvelope row t = .ok (t', n)) : t'.Valid := by
  unfold insertEnvelope at hi
  split at hi
  · rename_i hk
    cases hi
    simp only [Bool.and_eq_true] at hk
    exact { h with
      envelopes := nodup_next h.envelopes h.envelopeSeq rfl
      sender := forall_snoc h.sender hk.1
      recipient := forall_snoc h.recipient hk.2
      envelopeSeq := forall_snoc (fun e he => Nat.le_succ_of_le (h.envelopeSeq e he))
        (Nat.le_refl _) }
  · cases hi

theorem insertFile_valid {row : FileRow} {t t' : Tables} {a : Unit} (h : t.Valid)
    (hi : insertFile row t = .ok (t', a)) : t'.Valid := by
  unfold insertFile at hi
  split at hi
  · cases hi
  · rename_i hn
    split at hi
    · rename_i hk
      cases hi
      exact { h with
        files := nodup_snoc h.files fun f hf he =>
          hn (List.any_eq_true.mpr ⟨f, hf, by simpa using he⟩)
        fileOwner := forall_snoc h.fileOwner hk }
    · cases hi

theorem insertGroup_valid {row : GroupRow} {t t' : Tables} {n : Nat} (h : t.Valid)
    (hi : insertGroup row t = .ok (t', n)) : t'.Valid := by
  unfold insertGroup at hi
  split at hi
  · rename_i hk
    cases hi
    have grow : ∀ g, t.hasGroup g = true →
        (t.groups ++ [{ row with id := t.groupSeq + 1 }]).any (fun r => r.id == g) = true := by
      intro g hg
      rw [List.any_append]
      exact Bool.or_eq_true_iff.mpr (.inl hg)
    exact { h with
      groups := nodup_next h.groups h.groupSeq rfl
      groupOwner := forall_snoc h.groupOwner hk
      memberGroup := fun m hm => grow _ (h.memberGroup m hm)
      envelopeGroup := fun e he => grow _ (h.envelopeGroup e he)
      groupSeq := forall_snoc (fun g hg => Nat.le_succ_of_le (h.groupSeq g hg))
        (Nat.le_refl _) }
  · cases hi

theorem insertMember_valid {row : MemberRow} {t t' : Tables} {a : Unit} (h : t.Valid)
    (hi : insertMember row t = .ok (t', a)) : t'.Valid := by
  unfold insertMember at hi
  split at hi
  · cases hi
    exact h
  · rename_i hn
    split at hi
    · rename_i hk
      cases hi
      simp only [Bool.and_eq_true] at hk
      exact { h with
        members := nodup_snoc h.members fun m hm he =>
          hn (hasMember_iff.mpr ⟨m, hm, by simpa using he⟩)
        memberGroup := forall_snoc h.memberGroup hk.1
        memberUser := forall_snoc h.memberUser hk.2 }
    · cases hi

theorem deleteMember_valid {g : Nat} {u : String} {t t' : Tables} {a : Unit} (h : t.Valid)
    (hd : deleteMember g u t = .ok (t', a)) : t'.Valid := by
  cases hd
  exact { h with
    members := h.members.sublist (List.filter_sublist.map _)
    memberGroup := fun m hm => h.memberGroup m (List.mem_of_mem_filter hm)
    memberUser := fun m hm => h.memberUser m (List.mem_of_mem_filter hm) }

theorem updateOwner_valid {g : Nat} {u : String} {t t' : Tables} {a : Unit} (h : t.Valid)
    (hu : updateOwner g u t = .ok (t', a)) : t'.Valid := by
  unfold updateOwner at hu
  split at hu
  · cases hu
  · rename_i hn
    cases hu
    have hmap : ∀ r : GroupRow, (if r.id == g then { r with owner := u } else r).id = r.id := by
      intro r
      split <;> rfl
    have keep : ∀ k, t.hasGroup k = true → (t.groups.map fun r =>
        if r.id == g then { r with owner := u } else r).any (fun r => r.id == k) = true := by
      intro k hk
      rw [List.any_map]
      simpa only [hasGroup, Function.comp_def, hmap] using hk
    exact { h with
      groups := by simpa only [List.map_map, Function.comp_def, hmap] using h.groups
      groupOwner := by
        intro r hr
        obtain ⟨q, hq, rfl⟩ := List.mem_map.mp hr
        split
        · rename_i he
          have hg : t.hasGroup g = true := hasGroup_iff.mpr ⟨q, hq, by simpa using he⟩
          have hu : t.hasUser u = true := by simpa [hg] using hn
          exact hu
        · exact h.groupOwner q hq
      memberGroup := fun m hm => keep _ (h.memberGroup m hm)
      envelopeGroup := fun e he => keep _ (h.envelopeGroup e he)
      groupSeq := by
        intro r hr
        obtain ⟨q, hq, rfl⟩ := List.mem_map.mp hr
        rw [hmap]
        exact h.groupSeq q hq }

theorem insertGroupEnvelope_valid {row : GroupEnvelopeRow} {t t' : Tables} {n : Nat}
    (h : t.Valid) (hi : insertGroupEnvelope row t = .ok (t', n)) : t'.Valid := by
  unfold insertGroupEnvelope at hi
  split at hi
  · rename_i hk
    cases hi
    simp only [Bool.and_eq_true] at hk
    exact { h with
      groupEnvelopes := nodup_next h.groupEnvelopes h.groupEnvelopeSeq rfl
      groupSender := forall_snoc h.groupSender hk.2
      envelopeGroup := forall_snoc h.envelopeGroup hk.1
      groupEnvelopeSeq := forall_snoc (fun e he => Nat.le_succ_of_le (h.groupEnvelopeSeq e he))
        (Nat.le_refl _) }
  · cases hi

theorem deleteDueEnvelopes_valid {now : Nat} {t t' : Tables} {a : Unit} (h : t.Valid)
    (hd : deleteDueEnvelopes now t = .ok (t', a)) : t'.Valid := by
  cases hd
  exact { h with
    envelopes := h.envelopes.sublist (List.filter_sublist.map _)
    sender := fun e he => h.sender e (List.mem_of_mem_filter he)
    recipient := fun e he => h.recipient e (List.mem_of_mem_filter he)
    envelopeSeq := fun e he => h.envelopeSeq e (List.mem_of_mem_filter he) }

theorem deleteDueGroupEnvelopes_valid {now : Nat} {t t' : Tables} {a : Unit} (h : t.Valid)
    (hd : deleteDueGroupEnvelopes now t = .ok (t', a)) : t'.Valid := by
  cases hd
  exact { h with
    groupEnvelopes := h.groupEnvelopes.sublist (List.filter_sublist.map _)
    groupSender := fun e he => h.groupSender e (List.mem_of_mem_filter he)
    envelopeGroup := fun e he => h.envelopeGroup e (List.mem_of_mem_filter he)
    groupEnvelopeSeq := fun e he => h.groupEnvelopeSeq e (List.mem_of_mem_filter he) }

theorem deleteUnreferenced_valid {p : FileRow → Bool} {t t' : Tables} {n : Nat} (h : t.Valid)
    (hd : deleteUnreferenced p t = .ok (t', n)) : t'.Valid := by
  cases hd
  exact { h with
    files := h.files.sublist (List.filter_sublist.map _)
    fileOwner := fun f hf => h.fileOwner f (List.mem_of_mem_filter hf) }

end Lattix.Server.Tables
