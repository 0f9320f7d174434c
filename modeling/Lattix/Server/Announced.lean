import Lattix.Server.Presence

namespace Lattix.Server
open Lib.Transactions Lib.Json Lib.Runs

/-! Registrations -/

namespace Manager
variable {m : Manager Nat} {u v : String} {ws w : Nat}

theorem mem_connect : w ∈ (m.connect u ws).active v ↔ (v = u ∧ w = ws) ∨ w ∈ m.active v := by
  unfold connect
  dsimp only
  split
  · rename_i hv
    simp [hv]
  · rename_i hv
    simp [hv]

theorem mem_disconnect :
    w ∈ (m.disconnect u ws).active v ↔ w ∈ m.active v ∧ ¬(v = u ∧ w = ws) := by
  unfold disconnect
  dsimp only
  split
  · rename_i hv
    simp [hv]
  · rename_i hv
    simp [hv]

end Manager

namespace LiveRelay
variable {s t : LiveRelay} {u v : String} {ws i : Nat} {o : Order} {h : Work} {k : Socket}

theorem online_iff : s.online u = true ↔ ∃ ws, ws ∈ s.manager.active u := by
  unfold online
  cases s.manager.active u <;> simp

theorem leaving_iff : s.leaving u = true ↔
    (∃ (ws : Nat) (k : Socket), s.sockets[ws]? = some k ∧ k.user = u ∧ k.left = false) ∧
      ∀ (ws : Nat) (k : Socket), s.sockets[ws]? = some k → k.user = u → k.isOpen = false := by
  have hsome : (s.sockets.any fun k => k.user == u && !k.left) = true ↔
      ∃ (ws : Nat) (k : Socket), s.sockets[ws]? = some k ∧ k.user = u ∧ k.left = false := by
    rw [List.any_eq_true]
    constructor
    · rintro ⟨k, hk, hp⟩
      obtain ⟨ws, hws⟩ := List.mem_iff_getElem?.mp hk
      exact ⟨ws, k, hws, by simpa using hp⟩
    · rintro ⟨ws, k, hk, hp⟩
      exact ⟨k, List.mem_of_getElem? hk, by simpa using hp⟩
  have hall : (s.sockets.all fun k => k.user != u || !k.isOpen) = true ↔
      ∀ (ws : Nat) (k : Socket), s.sockets[ws]? = some k → k.user = u → k.isOpen = false := by
    rw [List.all_eq_true]
    constructor
    · intro h ws k hk hu
      simpa [hu] using h k (List.mem_of_getElem? hk)
    · intro h k hk
      obtain ⟨ws, hws⟩ := List.mem_iff_getElem?.mp hk
      simpa [← imp_iff_not_or] using h ws k hws
  rw [leaving, Bool.and_eq_true_iff, hsome, hall]

theorem isOpen_at (hk : s.sockets[ws]? = some k) : s.isOpen ws = k.isOpen := by
  rw [isOpen, hk]
  rfl

theorem owed_iff : s.owed v ws u = true ↔ ∃ h ∈ s.handlers, h.owes v ws u = true :=
  List.any_eq_true

theorem due_iff : s.due v ws u = true ↔ s.owed v ws u = true ∨ s.leaving u = true :=
  Bool.or_eq_true_iff

theorem covered_iff {peers : List String} : s.covered peers u = true ↔
    ∀ ws k, s.sockets[ws]? = some k → k.isOpen = true → u ≠ k.user → ∀ b, k.last u = some b →
      b = s.online u ∨ k.user ∈ peers ∨ s.due k.user ws u = true := by
  simp only [covered, List.all_eq_true]
  constructor
  · intro h ws k hk ho hu b hb
    have := h (k, ws) (List.mk_mem_zipIdx_iff_getElem?.mpr hk)
    simpa [ho, hb, hu.symm, or_assoc] using this
  · rintro h ⟨k, ws⟩ hm
    have hk := List.mk_mem_zipIdx_iff_getElem?.mp hm
    cases ho : k.isOpen with
    | false => simp
    | true =>
      by_cases hu : u = k.user
      · simp [hu]
      · cases hb : k.last u with
        | none => simp
        | some b =>
          have := h ws k hk ho hu b hb
          simpa [Ne.symm hu, or_assoc] using this

theorem sockets_modify {l : List Socket} {f : Socket → Socket} {w : Nat} {k' : Socket} :
    (l.modify ws f)[w]? = some k' ↔ ∃ k, l[w]? = some k ∧ k' = if ws = w then f k else k := by
  rw [List.getElem?_modify]
  cases l[w]? <;> simp [eq_comm]

/-! From one send to the next -/

theorem sendTo_mem (f : Frame) (hw : ws ∈ s.manager.active v) :
    ∃ x ∈ s.sendTo o v f, x.socket = ws ∧ x.frame = f := by
  refine ⟨⟨v, ws, f, .goOn⟩, List.mem_map.mpr ⟨ws, ?_, rfl⟩, rfl, rfl⟩
  exact (o.sockets_perm _).mem_iff.mpr hw

/-- What a task owes to a registered socket is among its sends. -/
theorem sends_owe {a : Task} (hw : ws ∈ s.manager.active v) (ha : a.owes v ws u = true) :
    ∃ x ∈ s.sends o a, x.reaches ws u = true := by
  cases a with
  | send x => exact ⟨x, List.mem_singleton_self x, ha⟩
  | sendTo w f =>
    obtain ⟨hv, hf⟩ := Bool.and_eq_true_iff.mp ha
    obtain rfl := beq_iff_eq.mp hv
    obtain ⟨x, hx, rfl, rfl⟩ := sendTo_mem (o := o) f hw
    exact ⟨x, hx, Bool.and_eq_true_iff.mpr ⟨beq_self_eq_true _, hf⟩⟩
  | vouch | tell => cases ha

theorem unroll_owes {as : List Task} (hw : ws ∈ s.manager.active v)
    (ha : ∃ a ∈ as, a.owes v ws u = true) : ∃ x ts, s.unroll o as = some (x, ts) ∧
      (x.reaches ws u = true ∨ ∃ a ∈ ts, a.owes v ws u = true) := by
  induction as with
  | nil =>
    obtain ⟨a, ha, -⟩ := ha
    cases ha
  | cons b as ih =>
    obtain ⟨a, hm, ha⟩ := ha
    rw [unroll]
    split
    · rename_i hnone
      refine ih ⟨a, ?_, ha⟩
      rcases List.mem_cons.mp hm with rfl | hm
      · obtain ⟨x, hx, -⟩ := sends_owe (o := o) hw ha
        rw [hnone] at hx
        cases hx
      · exact hm
    · rename_i x xs hsome
      refine ⟨x, _, rfl, ?_⟩
      rcases List.mem_cons.mp hm with rfl | hm
      · obtain ⟨y, hy, hr⟩ := sends_owe (o := o) hw ha
        rw [hsome] at hy
        rcases List.mem_cons.mp hy with rfl | hy
        · exact Or.inl hr
        · exact Or.inr ⟨.send y, List.mem_append_left as (List.mem_map_of_mem hy), hr⟩
      · exact Or.inr ⟨a, List.mem_append_right _ hm, ha⟩

theorem owes_iff : h.owes v ws u = true ↔ (∃ x, h.pending = some x ∧ x.reaches ws u = true) ∨
    (∃ a ∈ h.tasks, a.owes v ws u = true) ∨ ∃ a ∈ h.announcements, a.owes u = true := by
  simp only [Work.owes, Bool.or_eq_true, List.any_eq_true, Option.any_eq_true, or_assoc]

theorem tasks_owe (online : Bool) (hv : v ∈ s.contacts u) :
    ∃ a ∈ s.tasks o (.presence u online), a.owes v ws u = true := by
  refine ⟨_, List.mem_map_of_mem ((o.names_perm _).mem_iff.mpr hv), ?_⟩
  exact Bool.and_eq_true_iff.mpr ⟨beq_self_eq_true _, beq_self_eq_true _⟩

theorem owes_done (hd : h.isDone = true) : h.owes v ws u = false := by
  simp only [Work.isDone, Bool.and_eq_true, Option.isNone_iff_eq_none, List.isEmpty_iff] at hd
  obtain ⟨⟨hp, ht⟩, ha⟩ := hd
  rw [Work.owes, hp, ht, ha]
  rfl

/-- An announcement reaches the registered sockets of all contacts. -/
theorem announce_owes {as : List Announcement} {online : Bool} (hw : ws ∈ s.manager.active v)
    (hv : v ∈ s.contacts u) (ha : .presence u online ∈ as) :
    (s.announce o as).owes v ws u = true := by
  induction as with
  | nil => cases ha
  | cons b as ih =>
    rw [announce]
    split
    · rename_i x ts hsome
      rw [owes_iff]
      rcases List.mem_cons.mp ha with rfl | ha
      · obtain ⟨y, ts', hy, hr⟩ := unroll_owes hw (tasks_owe (o := o) online hv)
        obtain ⟨rfl, rfl⟩ := Prod.mk.inj (Option.some.inj (hsome.symm.trans hy))
        rcases hr with hr | hr
        · exact Or.inl ⟨_, rfl, hr⟩
        · exact Or.inr (Or.inl hr)
      · exact Or.inr (Or.inr ⟨_, ha, beq_self_eq_true u⟩)
    · rename_i hnone
      rcases List.mem_cons.mp ha with rfl | ha
      · obtain ⟨y, ts', hy, -⟩ := unroll_owes hw (tasks_owe (o := o) online hv)
        rw [hnone] at hy
        cases hy
      · exact ih ha

/-- Nothing owed is lost on the way to the next send, until contacts are drawn up. -/
theorem forward_owes (hw : ws ∈ s.manager.active v) (hp : h.pending = none)
    (ho : h.owes v ws u = true) : (s.forward o h).owes v ws u = true ∨
      s.unroll o h.tasks = none ∧ ∃ online, .presence u online ∈ h.announcements := by
  rw [forward]
  rcases owes_iff.mp ho with ⟨x, hx, -⟩ | ht | ha
  · rw [hp] at hx
    cases hx
  · obtain ⟨x, ts, hs, hr⟩ := unroll_owes (o := o) hw ht
    rw [hs]
    left
    rcases hr with hr | hr
    · exact owes_iff.mpr (Or.inl ⟨x, rfl, hr⟩)
    · exact owes_iff.mpr (Or.inr (Or.inl hr))
  · split
    · exact Or.inl (owes_iff.mpr (Or.inr (Or.inr ha)))
    · rename_i hnone
      obtain ⟨a, hm, ha⟩ := ha
      cases a with
      | presence w online =>
        obtain rfl := beq_iff_eq.mp ha
        exact Or.inr ⟨hnone, online, hm⟩
      | snapshot => cases ha

/-! What holds of the sockets at every moment -/

/-- Of a user told of last, either the flag is his status or a frame is due. -/
def Right (s : LiveRelay) (ws : Nat) (k : Socket) (u : String) : Prop :=
  ∀ b, k.last u = some b → b = s.online u ∨ s.due k.user ws u = true

structure Coherent (s : LiveRelay) : Prop where
  registered : ∀ u ws, ws ∈ s.manager.active u →
    ∃ k, s.sockets[ws]? = some k ∧ k.user = u ∧ k.left = false
  opened : ∀ ws k, s.sockets[ws]? = some k → k.isOpen = true → ws ∈ s.manager.active k.user
  told : ∀ ws k, s.sockets[ws]? = some k → k.isOpen = true → ∀ u, u ≠ k.user → s.Right ws k u

/-- Once all handlers are through, what was told is true. -/
theorem Coherent.truthful (h : s.Coherent) (hq : s.Quiet) : s.Truthful := by
  intro k hk ho u hu b hb
  obtain ⟨ws, hws⟩ := List.mem_iff_getElem?.mp hk
  rcases h.told ws k hws ho u hu b hb with ht | hd
  · exact ht
  · rcases due_iff.mp hd with hd | hd
    · obtain ⟨x, hx, hd⟩ := owed_iff.mp hd
      rw [owes_done (hq.1 x hx)] at hd
      cases hd
    · obtain ⟨⟨j, x, hj, hju, hl⟩, hclosed⟩ := leaving_iff.mp hd
      rw [hq.2 x (List.mem_of_getElem? hj) (hclosed j x hj hju)] at hl
      cases hl

/-! Handlers -/

theorem but_owed {h' : Work} (hh : s.handlers[i]? = some h) :
    (s.but i h').owed v ws u = true ↔ h'.owes v ws u = true ∨ (s.but i .done).owed v ws u = true := by
  obtain ⟨hi, -⟩ := List.getElem?_eq_some_iff.mp hh
  have hset (h' : Work) : (s.but i h').owed v ws u = true ↔
      h'.owes v ws u = true ∨ ∃ j x, j ≠ i ∧ s.handlers[j]? = some x ∧ x.owes v ws u = true := by
    rw [owed_iff]
    constructor
    · rintro ⟨x, hx, hw⟩
      obtain ⟨j, hj⟩ := List.mem_iff_getElem?.mp hx
      change (s.handlers.set i h')[j]? = some x at hj
      rw [List.getElem?_set] at hj
      split at hj
      · obtain rfl := Option.some.inj hj
        exact Or.inl hw
      · rename_i hij
        exact Or.inr ⟨j, x, Ne.symm hij, hj, hw⟩
    · rintro (hw | ⟨j, x, hij, hj, hw⟩)
      · exact ⟨h', List.mem_set hi h', hw⟩
      · refine ⟨x, List.mem_iff_getElem?.mpr ⟨j, ?_⟩, hw⟩
        exact (List.getElem?_set_ne (Ne.symm hij)).trans hj
  have hdone : Work.done.owes v ws u = false := rfl
  rw [hset, hset .done, hdone]
  simp

theorem owed_but (hh : s.handlers[i]? = some h) :
    s.owed v ws u = true ↔ h.owes v ws u = true ∨ (s.but i .done).owed v ws u = true := by
  rw [← but_owed hh]
  have hself : s.handlers.set i h = s.handlers := by
    obtain ⟨hi, rfl⟩ := List.getElem?_eq_some_iff.mp hh
    exact List.set_getElem_self hi
  rw [but, hself]

/-- Only what handlers owe changes. -/
theorem Coherent.rework (hc : s.Coherent) (hm : t.manager = s.manager) (hs : t.sockets = s.sockets)
    (how : ∀ ws k, s.sockets[ws]? = some k → k.isOpen = true → ∀ u, u ≠ k.user → ∀ b,
      k.last u = some b → b ≠ s.online u → s.owed k.user ws u = true →
        t.due k.user ws u = true) : t.Coherent where
  registered u ws hw := by
    rw [hm] at hw
    rw [hs]
    exact hc.registered u ws hw
  opened ws k hk ho := by
    rw [hs] at hk
    rw [hm]
    exact hc.opened ws k hk ho
  told ws k hk ho u hu b hb := by
    rw [hs] at hk
    have hon : t.online u = s.online u := by rw [online, hm, online]
    have hl : t.leaving u = s.leaving u := by rw [leaving, hs, leaving]
    rw [hon]
    rcases hc.told ws k hk ho u hu b hb with ht | hd
    · exact Or.inl ht
    · rcases due_iff.mp hd with hd | hd
      · by_cases hbo : b = s.online u
        · exact Or.inl hbo
        · exact Or.inr (how ws k hk ho u hu b hb hbo hd)
      · exact Or.inr (due_iff.mpr (Or.inr (hl ▸ hd)))

/-- New handlers owe nothing less. -/
theorem Coherent.append (hc : s.Coherent) {service : Service} {hs : List Work} :
    ({ s with service, handlers := s.handlers ++ hs } : LiveRelay).Coherent := by
  refine hc.rework rfl rfl fun ws k hk ho u hu b hb hne hw => ?_
  obtain ⟨x, hx, hw⟩ := owed_iff.mp hw
  exact due_iff.mpr (Or.inl (owed_iff.mpr ⟨x, List.mem_append_left hs hx, hw⟩))

theorem Coherent.forward (hc : s.Coherent) (hh : s.handlers[i]? = some h) (hp : h.pending = none)
    (hok : s.unroll o h.tasks = none → s.heard i h s.contacts = true) :
    (s.but i (s.forward o h)).Coherent := by
  refine hc.rework rfl rfl fun ws k hk ho u hu b hb hne hw => ?_
  have hreg := hc.opened ws k hk ho
  rw [due_iff, but_owed hh]
  rcases (owed_but hh).mp hw with hw | hw
  · rcases forward_owes (o := o) hreg hp hw with hw | ⟨hnone, online, hm⟩
    · exact Or.inl (Or.inl hw)
    · have hcov := covered_iff.mp (List.all_eq_true.mp (hok hnone) _ hm) ws k hk ho hu b hb
      rcases hcov with he | hv | hd
      · exact absurd he hne
      · left
        left
        rw [LiveRelay.forward, hnone]
        exact announce_owes hreg hv hm
      · rcases due_iff.mp hd with hd | hd
        · exact Or.inl (Or.inr hd)
        · exact Or.inr hd
  · exact Or.inl (Or.inr hw)

/-! Sends -/

theorem last_receive {f : Frame} (h : f.isAbout u = false) : (k.receive f).last u = k.last u := by
  cases f with
  | presence w online => simp [Socket.receive, Socket.last, show (w == u) = false from h]
  | _ => rfl

theorem last_presence (online : Bool) :
    (k.receive (.presence u online)).last u = some online := by
  simp [Socket.receive, Socket.last]

theorem isAbout_iff {f : Frame} : f.isAbout u = true ↔ ∃ online, f = .presence u online := by
  cases f with
  | presence w online => simp [Frame.isAbout]
  | _ => simp [Frame.isAbout]

theorem receive_user (f : Frame) : (k.receive f).user = k.user := by
  cases f <;> rfl

/-- Frames change no more of the sockets than what they have been told. -/
theorem receive_at {l : List Socket} {f : Frame} {w : Nat} {k' : Socket}
    (h : (l.modify ws fun k => k.receive f)[w]? = some k') : ∃ k, l[w]? = some k ∧
      k'.user = k.user ∧ k'.isOpen = k.isOpen ∧ k'.left = k.left ∧
      (k' = k ∨ ws = w ∧ k' = k.receive f) := by
  obtain ⟨k, hk, rfl⟩ := sockets_modify.mp h
  refine ⟨k, hk, ?_⟩
  split
  · rename_i hw
    refine ⟨receive_user f, ?_, ?_, Or.inr ⟨hw, rfl⟩⟩ <;> cases f <;> rfl
  · exact ⟨rfl, rfl, rfl, Or.inl rfl⟩

/-- Neither a frame nor the end of a connection keeps a user from leaving. -/
theorem leaving_modify {f : Socket → Socket} (hu : ∀ k, (f k).user = k.user)
    (ho : ∀ k, (f k).isOpen = true → k.isOpen = true) (hl : ∀ k, (f k).left = k.left)
    (h : s.leaving u = true) :
    ({ s with sockets := s.sockets.modify ws f } : LiveRelay).leaving u = true := by
  obtain ⟨⟨w, k, hk, hku, hkl⟩, hclosed⟩ := leaving_iff.mp h
  refine leaving_iff.mpr ⟨⟨w, _, sockets_modify.mpr ⟨k, hk, rfl⟩, ?_, ?_⟩, ?_⟩
  · split
    · rw [hu, hku]
    · exact hku
  · split
    · rw [hl, hkl]
    · exact hkl
  · intro w k' hk' hku'
    obtain ⟨k, hk, rfl⟩ := sockets_modify.mp hk'
    split at hku' <;> rename_i hw
    · rw [if_pos hw]
      rw [hu] at hku'
      exact Bool.eq_false_iff.mpr fun ht => Bool.eq_false_iff.mp (hclosed w k hk hku') (ho k ht)
    · rw [if_neg hw]
      exact hclosed w k hk hku'

theorem leaving_receive {f : Frame} (h : s.leaving u = true) :
    ({ s with sockets := s.sockets.modify ws fun k => k.receive f } : LiveRelay).leaving u = true :=
  leaving_modify (fun _ => receive_user f) (fun k => by cases f <;> exact id)
    (fun k => by cases f <;> rfl) h

/-- A frame comes in that is still counted as on its way. -/
theorem Coherent.receive {f : Frame} (hc : s.Coherent)
    (how : ∀ k, s.sockets[ws]? = some k → ∀ u, f.isAbout u = true → s.owed k.user ws u = true) :
    ({ s with sockets := s.sockets.modify ws fun k => k.receive f } : LiveRelay).Coherent where
  registered u w hw := by
    obtain ⟨k, hk, hu, hl⟩ := hc.registered u w hw
    have hk' : (s.sockets.modify ws fun k => k.receive f)[w]? = some _ :=
      sockets_modify.mpr ⟨k, hk, rfl⟩
    obtain ⟨k₀, hk₀, hu', -, hl', -⟩ := receive_at hk'
    cases hk.symm.trans hk₀
    exact ⟨_, hk', hu'.trans hu, hl'.trans hl⟩
  opened w k' hk' ho := by
    obtain ⟨k, hk, hu, hopen, -, -⟩ := receive_at hk'
    rw [hu]
    exact hc.opened w k hk (hopen ▸ ho)
  told w k' hk' ho u hu b hb := by
    obtain ⟨k, hk, hku, hopen, -, hor⟩ := receive_at hk'
    rw [hku] at hu ⊢
    rw [hopen] at ho
    have hdue : s.due k.user w u = true →
        ({ s with sockets := s.sockets.modify ws fun k => k.receive f } : LiveRelay).due k.user w u =
          true := by
      intro hd
      rcases due_iff.mp hd with hd | hd
      · exact due_iff.mpr (Or.inl hd)
      · exact due_iff.mpr (Or.inr (leaving_receive hd))
    rcases hor with rfl | ⟨rfl, rfl⟩
    · exact (hc.told w k' hk ho u hu b hb).imp id hdue
    · cases hf : f.isAbout u with
      | true => exact Or.inr (due_iff.mpr (Or.inl (how k hk u hf)))
      | false =>
        rw [last_receive hf] at hb
        exact (hc.told ws k hk ho u hu b hb).imp id hdue

def dropped (s : LiveRelay) (v : String) (ws : Nat) : LiveRelay :=
  { s with manager := s.manager.disconnect v ws }

theorem mem_dropped {w : Nat} : w ∈ (s.dropped v ws).manager.active u ↔
    w ∈ s.manager.active u ∧ ¬(u = v ∧ w = ws) := Manager.mem_disconnect

/-- Who goes offline as a closed socket is dropped has no open one. -/
theorem Coherent.dropped_leaving (hc : s.Coherent) (hclosed : s.isOpen ws = false)
    (hne : (s.dropped v ws).online u ≠ s.online u) : (s.dropped v ws).leaving u = true := by
  have hgone (w : Nat) (hw : w ∈ s.manager.active u) : u = v ∧ w = ws := by
    by_contra hkept
    have honline : s.online u = true := online_iff.mpr ⟨w, hw⟩
    exact hne (honline.symm ▸ online_iff.mpr ⟨w, mem_dropped.mpr ⟨hw, hkept⟩⟩)
  have honline : s.online u = true := by
    cases ho : s.online u with
    | true => rfl
    | false =>
      rw [ho, ne_eq, Bool.not_eq_false] at hne
      obtain ⟨w, hw⟩ := online_iff.mp hne
      rw [← ho]
      exact online_iff.mpr ⟨w, (mem_dropped.mp hw).1⟩
  obtain ⟨w, hw⟩ := online_iff.mp honline
  refine leaving_iff.mpr ⟨⟨w, hc.registered u w hw⟩, fun j k hk hu => ?_⟩
  by_contra hopen
  have ho : k.isOpen = true := Bool.eq_true_of_not_eq_false hopen
  obtain ⟨-, rfl⟩ := hgone j (hu ▸ hc.opened j k hk ho)
  exact Bool.eq_false_iff.mp hclosed (isOpen_at hk ▸ ho)

/-- A socket that is no longer open is dropped. -/
theorem Coherent.drop (hc : s.Coherent) (hclosed : s.isOpen ws = false) :
    (s.dropped v ws).Coherent where
  registered u w hw := hc.registered u w (Manager.mem_disconnect.mp hw).1
  opened w k hk ho := by
    refine Manager.mem_disconnect.mpr ⟨hc.opened w k hk ho, ?_⟩
    rintro ⟨-, rfl⟩
    exact Bool.eq_false_iff.mp hclosed (isOpen_at hk ▸ ho)
  told w k hk ho u hu b hb := by
    by_cases hon : (s.dropped v ws).online u = s.online u
    · exact hon.symm ▸ hc.told w k hk ho u hu b hb
    · exact Or.inr (due_iff.mpr (Or.inr (hc.dropped_leaving hclosed hon)))

/-- An awaited send that goes out, if its frame is true or another one is due. -/
theorem Coherent.transmitted {x : Send} (hc : s.Coherent) (hh : s.handlers[i]? = some h)
    (hx : h.pending = some x)
    (hok : ∀ k, s.sockets[x.socket]? = some k → ∀ u online, x.frame = .presence u online →
      online = s.online u ∨ (s.but i { h with pending := none }).due k.user x.socket u = true) :
    ({ s with
      sockets := s.sockets.modify x.socket fun k => k.receive x.frame
      handlers := s.handlers.set i { h with pending := none } } : LiveRelay).Coherent := by
  have hreceive : ({ s with
      sockets := s.sockets.modify x.socket fun k => k.receive x.frame } : LiveRelay).Coherent := by
    refine hc.receive fun k hk u hf => ?_
    refine (owed_but hh).mpr (Or.inl (owes_iff.mpr (Or.inl ⟨x, hx, ?_⟩)))
    exact Bool.and_eq_true_iff.mpr ⟨beq_self_eq_true _, hf⟩
  refine hreceive.rework rfl rfl fun ws k' hk' ho u hu b hb hne hw => ?_
  have hrest {v : String} (hw : (s.but i { h with pending := none }).owed v ws u = true) :
      LiveRelay.due { s with
        sockets := s.sockets.modify x.socket fun k => k.receive x.frame
        handlers := s.handlers.set i { h with pending := none } } v ws u = true :=
    due_iff.mpr (Or.inl hw)
  rcases (owed_but hh).mp hw with hw | hw
  · rcases owes_iff.mp hw with ⟨y, hy, hr⟩ | hlater
    · obtain rfl := Option.some.inj (hx.symm.trans hy)
      obtain ⟨hsock, hf⟩ := Bool.and_eq_true_iff.mp hr
      obtain rfl := beq_iff_eq.mp hsock
      obtain ⟨k, hk, rfl⟩ := sockets_modify.mp hk'
      obtain ⟨online, hframe⟩ := isAbout_iff.mp hf
      rw [if_pos rfl, hframe, last_presence] at hb
      obtain rfl := Option.some.inj hb
      rcases hok k hk u online hframe with he | hd
      · exact absurd he hne
      · rw [if_pos rfl, receive_user]
        rcases due_iff.mp hd with hd | hd
        · exact hrest hd
        · exact due_iff.mpr (Or.inr (leaving_receive hd))
    · exact hrest ((but_owed hh).mpr (Or.inl (owes_iff.mpr (Or.inr hlater))))
  · exact hrest ((but_owed hh).mpr (Or.inr hw))

/-- An awaited send that raises on a closed socket, if nothing else was due that
the handler leaves out. -/
theorem Coherent.failed {x : Send} (hc : s.Coherent) (hh : s.handlers[i]? = some h)
    (hx : h.pending = some x) (hclosed : s.isOpen x.socket = false)
    (hok : x.onError = .raise → s.heard i h (fun _ => []) = true) :
    (s.but i (h.failed x.onError)).Coherent := by
  refine hc.rework rfl rfl fun ws k hk ho u hu b hb hne hw => ?_
  have hrest (hw : (s.but i (h.failed x.onError)).owed k.user ws u = true) :
      (s.but i (h.failed x.onError)).due k.user ws u = true := due_iff.mpr (Or.inl hw)
  rcases (owed_but hh).mp hw with hw | hw
  · rcases owes_iff.mp hw with ⟨y, hy, hr⟩ | ⟨a, hm, ha⟩ | ⟨a, hm, ha⟩
    · obtain rfl := Option.some.inj (hx.symm.trans hy)
      obtain rfl := beq_iff_eq.mp (Bool.and_eq_true_iff.mp hr).1
      exact absurd (isOpen_at hk ▸ ho) (Bool.eq_false_iff.mp hclosed)
    · refine hrest ((but_owed hh).mpr (Or.inl (owes_iff.mpr (Or.inr (Or.inl ⟨a, ?_, ha⟩)))))
      cases x.onError with
      | goOn | raise => exact hm
      | giveUp =>
        refine List.mem_filter.mpr ⟨hm, ?_⟩
        cases a with
        | tell => cases ha
        | _ => rfl
    · cases he : x.onError with
      | goOn | giveUp =>
        refine he ▸ hrest ((but_owed hh).mpr (Or.inl (owes_iff.mpr (Or.inr (Or.inr ⟨a, ?_, ha⟩)))))
        rw [he]
        exact hm
      | raise =>
        cases a with
        | snapshot => cases ha
        | presence w online =>
          obtain rfl := beq_iff_eq.mp ha
          have hcov := covered_iff.mp (List.all_eq_true.mp (hok he) _ hm) ws k hk ho hu b hb
          rcases hcov with hb | hv | hd
          · exact absurd hb hne
          · cases hv
          · rcases due_iff.mp hd with hd | hd
            · exact he ▸ hrest ((but_owed hh).mpr (Or.inr hd))
            · exact due_iff.mpr (Or.inr hd)
  · exact hrest ((but_owed hh).mpr (Or.inr hw))

/-! Connections -/

theorem Coherent.close (hc : s.Coherent) :
    ({ s with sockets := s.sockets.modify ws ({ · with isOpen := false }) } : LiveRelay).Coherent where
  registered u w hw := by
    obtain ⟨k, hk, hu, hl⟩ := hc.registered u w hw
    refine ⟨_, sockets_modify.mpr ⟨k, hk, rfl⟩, ?_⟩
    split <;> exact ⟨hu, hl⟩
  opened w k' hk' ho := by
    obtain ⟨k, hk, rfl⟩ := sockets_modify.mp hk'
    split at ho
    · cases ho
    · rename_i hw
      rw [if_neg hw]
      exact hc.opened w k hk ho
  told w k' hk' ho u hu b hb := by
    obtain ⟨k, hk, rfl⟩ := sockets_modify.mp hk'
    split at ho
    · cases ho
    · rename_i hw
      rw [if_neg hw] at hu hb ⊢
      refine (hc.told w k hk ho u hu b hb).imp id fun hd => ?_
      rcases due_iff.mp hd with hd | hd
      · exact due_iff.mpr (Or.inl hd)
      · exact due_iff.mpr (Or.inr
          (leaving_modify (fun _ => rfl) (fun _ h => by cases h) (fun _ => rfl) hd))

/-- A new socket announces its user to all. -/
theorem Coherent.connect {tokens : Tokens} (hc : s.Coherent) (u : String) :
    ({ s with
      service := { s.service with tokens }
      manager := s.manager.connect u s.sockets.length
      sockets := s.sockets ++ [⟨u, s.handlers.length, true, false, []⟩]
      handlers := s.handlers ++ [⟨some ⟨u, s.sockets.length, .ready u, .raise⟩, [],
        [.presence u true, .snapshot u s.sockets.length]⟩] } : LiveRelay).Coherent := by
  have hnew {w : Nat} {k j : Socket} (hk : (s.sockets ++ [j])[w]? = some k) :
      s.sockets[w]? = some k ∨ w = s.sockets.length ∧ k = j := by
    rw [List.getElem?_append] at hk
    split at hk
    · exact Or.inl hk
    · obtain ⟨hlt, he⟩ := List.getElem?_eq_some_iff.mp hk
      rw [List.length_singleton] at hlt
      exact Or.inr ⟨by omega, by simpa using he.symm⟩
  have hold {w : Nat} {k j : Socket} (hk : s.sockets[w]? = some k) :
      (s.sockets ++ [j])[w]? = some k := by
    obtain ⟨hlt, -⟩ := List.getElem?_eq_some_iff.mp hk
    rw [List.getElem?_append_left hlt, hk]
  refine ⟨fun v w hw => ?_, fun w k hk ho => ?_, fun w k hk ho v hv b hb => ?_⟩
  · rcases Manager.mem_connect.mp hw with ⟨rfl, rfl⟩ | hw
    · exact ⟨_, List.getElem?_concat_length, rfl, rfl⟩
    · obtain ⟨k, hk, hf⟩ := hc.registered v w hw
      exact ⟨k, hold hk, hf⟩
  · rcases hnew hk with hk | ⟨rfl, rfl⟩
    · exact Manager.mem_connect.mpr (Or.inr (hc.opened w k hk ho))
    · exact Manager.mem_connect.mpr (Or.inl ⟨rfl, rfl⟩)
  · rcases hnew hk with hk | ⟨rfl, rfl⟩
    · by_cases hvu : v = u
      · right
        refine due_iff.mpr (Or.inl (owed_iff.mpr ⟨_, List.mem_append_right _ (.head _), ?_⟩))
        exact owes_iff.mpr (Or.inr (Or.inr ⟨_, .head _, beq_iff_eq.mpr hvu.symm⟩))
      · have hactive : (s.manager.connect u s.sockets.length).active v = s.manager.active v :=
          if_neg hvu
        rcases hc.told w k hk ho v hv b hb with he | hd
        · left
          rw [he, online, online, hactive]
        · right
          rcases due_iff.mp hd with hd | hd
          · obtain ⟨x, hx, hw⟩ := owed_iff.mp hd
            exact due_iff.mpr (Or.inl (owed_iff.mpr ⟨x, List.mem_append_left _ hx, hw⟩))
          · obtain ⟨⟨j, x, hj, hx⟩, hclosed⟩ := leaving_iff.mp hd
            refine due_iff.mpr (Or.inr (leaving_iff.mpr ⟨⟨j, x, hold hj, hx⟩, ?_⟩))
            intro j x hj hxu
            rcases hnew hj with hj | ⟨-, rfl⟩
            · exact hclosed j x hj hxu
            · exact absurd hxu.symm hvu
    · cases hb

/-! The end of an endpoint -/

theorem leave_at {w : Nat} {j : Socket} (hj : (s.leave ws v).sockets[w]? = some j) :
    ∃ k, s.sockets[w]? = some k ∧ j.user = k.user ∧ j.isOpen = k.isOpen ∧ j.told = k.told := by
  obtain ⟨k, hk, rfl⟩ := sockets_modify.mp hj
  refine ⟨k, hk, ?_⟩
  split <;> exact ⟨rfl, rfl, rfl⟩

/-- The sockets that stay registered are those of endpoints still at work. -/
theorem Coherent.leave_registered (hc : s.Coherent) (hk : s.sockets[ws]? = some k) {w : Nat}
    (hw : w ∈ (s.leave ws k.user).manager.active u) :
    ∃ j, (s.leave ws k.user).sockets[w]? = some j ∧ j.user = u ∧ j.left = false := by
  obtain ⟨hw, hne⟩ := Manager.mem_disconnect.mp hw
  obtain ⟨j, hj, hu, hl⟩ := hc.registered u w hw
  refine ⟨j, sockets_modify.mpr ⟨j, hj, ?_⟩, hu, hl⟩
  rw [if_neg]
  rintro rfl
  cases hk.symm.trans hj
  exact hne ⟨hu.symm, rfl⟩

theorem Coherent.leave_opened (hc : s.Coherent) (hk : s.sockets[ws]? = some k)
    (hclosed : k.isOpen = false) {w : Nat} {j : Socket}
    (hj : (s.leave ws k.user).sockets[w]? = some j) (ho : j.isOpen = true) :
    w ∈ (s.leave ws k.user).manager.active j.user := by
  obtain ⟨j₀, hj₀, hju, hjo, -⟩ := leave_at hj
  refine Manager.mem_disconnect.mpr ⟨hju ▸ hc.opened w j₀ hj₀ (hjo ▸ ho), ?_⟩
  rintro ⟨-, rfl⟩
  cases hk.symm.trans hj₀
  exact Bool.eq_false_iff.mp hclosed (hjo ▸ ho)

/-- Of the others nothing changes as an endpoint leaves. -/
theorem Coherent.left (hc : s.Coherent) (hk : s.sockets[ws]? = some k) (hclosed : k.isOpen = false)
    (hm : t.manager = (s.leave ws k.user).manager) (hs : t.sockets = (s.leave ws k.user).sockets)
    (how : ∀ v w u, s.owed v w u = true → t.owed v w u = true)
    (hu : ∀ w j, t.sockets[w]? = some j → j.isOpen = true → k.user ≠ j.user →
      t.Right w j k.user) : t.Coherent where
  registered u w hw := by
    rw [hm] at hw
    rw [hs]
    exact hc.leave_registered hk hw
  opened w j hj ho := by
    rw [hs] at hj
    rw [hm]
    exact hc.leave_opened hk hclosed hj ho
  told w j hj ho u hne b hb := by
    by_cases hvu : u = k.user
    · subst hvu
      exact hu w j hj ho hne b hb
    · rw [hs] at hj
      obtain ⟨j₀, hj₀, hju, hjo, hjt⟩ := leave_at hj
      have honline : t.online u = s.online u := by
        rw [online, online, hm]
        exact congrArg (fun l => !List.isEmpty l) (if_neg hvu)
      rw [honline, hju]
      rw [Socket.last, hjt] at hb
      refine (hc.told w j₀ hj₀ (hjo ▸ ho) u (hju ▸ hne) b hb).imp id fun hd => ?_
      rcases due_iff.mp hd with hd | hd
      · exact due_iff.mpr (Or.inl (how _ _ _ hd))
      · obtain ⟨⟨i, x, hi, hx, hl⟩, hall⟩ := leaving_iff.mp hd
        refine due_iff.mpr (Or.inr (leaving_iff.mpr ⟨⟨i, x, ?_, hx, hl⟩, ?_⟩))
        · rw [hs]
          refine sockets_modify.mpr ⟨x, hi, (if_neg ?_).symm⟩
          rintro rfl
          cases hk.symm.trans hi
          exact hvu hx.symm
        · intro i x hi hx
          rw [hs] at hi
          obtain ⟨y, hy, hxu, hxo, -⟩ := leave_at hi
          exact hxo.trans (hall i y hy (hxu.symm.trans hx))

/-- A user with another socket stays online. -/
theorem Coherent.leave_online (hc : s.Coherent) (hk : s.sockets[ws]? = some k)
    (hclosed : k.isOpen = false) (hon : (s.leave ws k.user).online k.user = true) :
    (s.leave ws k.user).Coherent := by
  refine hc.left hk hclosed rfl rfl (fun _ _ _ hw => hw) fun w j hj ho hne b hb => ?_
  obtain ⟨j₀, hj₀, hju, hjo, hjt⟩ := leave_at hj
  rw [Socket.last, hjt] at hb
  obtain ⟨i, hi⟩ := online_iff.mp hon
  have hbefore : s.online k.user = true := online_iff.mpr ⟨i, (Manager.mem_disconnect.mp hi).1⟩
  rw [hju, hon.trans hbefore.symm]
  refine (hc.told w j₀ hj₀ (hjo ▸ ho) k.user (hju ▸ hne) b hb).imp id fun hd => ?_
  rcases due_iff.mp hd with hd | hd
  · exact due_iff.mpr (Or.inl hd)
  · obtain ⟨-, hall⟩ := leaving_iff.mp hd
    refine due_iff.mpr (Or.inr (leaving_iff.mpr ⟨⟨i, hc.leave_registered hk hi⟩, ?_⟩))
    intro i x hi hx
    obtain ⟨y, hy, hxu, hxo, -⟩ := leave_at hi
    exact hxo.trans (hall i y hy (hxu.symm.trans hx))

/-- A user's last socket is gone, and whoever was told that he is online hears of
it or is told something else. -/
theorem Coherent.leave_offline (hc : s.Coherent) (hk : s.sockets[ws]? = some k)
    (hclosed : k.isOpen = false) (hh : s.handlers[k.handler]? = some h) (hdone : h.isDone = true)
    (hok : (s.leave ws k.user).covered ((s.leave ws k.user).contacts k.user) k.user = true) :
    ((s.leave ws k.user).but k.handler
      ((s.leave ws k.user).announce o [.presence k.user false])).Coherent := by
  have howed {v : String} {w : Nat} {u : String} {h' : Work}
      (hw : (s.leave ws k.user).owed v w u = true) :
      ((s.leave ws k.user).but k.handler h').owed v w u = true := by
    refine (but_owed (s := s.leave ws k.user) hh).mpr ?_
    rcases (owed_but (s := s.leave ws k.user) hh).mp hw with hw | hw
    · rw [owes_done hdone] at hw
      cases hw
    · exact Or.inr hw
  refine hc.left hk hclosed rfl rfl (fun v w u hw => howed hw) fun w j hj ho hne b hb => ?_
  have hreg := hc.leave_opened hk hclosed hj ho
  rcases covered_iff.mp hok w j hj ho hne b hb with he | hv | hd
  · exact Or.inl he
  · right
    refine due_iff.mpr (Or.inl ((but_owed (s := s.leave ws k.user) hh).mpr (Or.inl ?_)))
    exact announce_owes hreg hv (.head _)
  · right
    rcases due_iff.mp hd with hd | hd
    · exact due_iff.mpr (Or.inl (howed hd))
    · exact due_iff.mpr (Or.inr hd)

/-! Runs -/

section runs
variable {R : Runtime} {clock : Nat → Double}

theorem Coherent.service (hc : s.Coherent) (service : Service) :
    ({ s with service } : LiveRelay).Coherent :=
  hc.rework rfl rfl fun _ _ _ _ _ _ _ _ _ hw => due_iff.mpr (Or.inl hw)

theorem finish_coherent {ws : Nat} (hc : s.Coherent) (hok : s.inTime R (.finish ws o) = true)
    (hs : s.step R clock (.finish ws o) = some t) : t.Coherent := by
  simp only [step] at hs
  split at hs
  · cases hs
  · rename_i k hk
    split_ifs at hs with hleft hon
    · cases hs
      simp only [Bool.or_eq_true, Bool.not_eq_true', not_or, Bool.not_eq_true,
        Bool.not_eq_false] at hleft
      exact hc.leave_online hk hleft.1.1 hon
    · cases hs
      simp only [Bool.or_eq_true, Bool.not_eq_true', not_or, Bool.not_eq_true,
        Bool.not_eq_false] at hleft
      obtain ⟨h, hh, hdone⟩ := (Option.any_eq_true _ _).mp hleft.2
      rw [inTime, hk] at hok
      rcases Bool.or_eq_true_iff.mp hok with hok | hok
      · exact absurd hok hon
      · exact hc.leave_offline hk hleft.1.1 hh hdone hok

theorem transmit_coherent {x : Send} (hc : s.Coherent) (hh : s.handlers[i]? = some h)
    (hx : h.pending = some x) (hok : s.inTime R (.resume i o) = true) :
    (s.transmit R i h x).Coherent := by
  rw [inTime, hh, Option.all_some, hx] at hok
  dsimp only at hok
  unfold transmit
  cases ho : s.isOpen x.socket with
  | true =>
    rw [ho, if_pos rfl, Bool.and_eq_true_iff] at hok
    obtain ⟨hframe, hok⟩ := hok
    rw [hframe, Bool.and_self, if_pos rfl]
    refine hc.transmitted hh hx fun k hk u online hf => ?_
    rw [hf, hk] at hok
    simpa using hok
  | false =>
    rw [ho, if_neg Bool.false_ne_true] at hok
    rw [Bool.false_and, if_neg Bool.false_ne_true]
    have hfailed := hc.failed hh hx ho fun he => by simpa [he] using hok
    split
    · exact hfailed
    · exact Coherent.drop hfailed ho

theorem step_coherent (s : LiveRelay) (e : Event) (t : LiveRelay) (hc : s.Coherent)
    (hok : s.inTime R e = true) (hs : s.step R clock e = some t) : t.Coherent := by
  cases e with
  | request authorization req d o =>
    simp only [step] at hs
    split at hs
    · cases hs
    · obtain ⟨service, -, rfl⟩ := Option.map_eq_some_iff.mp hs
      exact hc.append
  | sweep graceSeconds now =>
    cases hs
    exact hc.service _
  | connect token now =>
    simp only [step] at hs
    split at hs
    · cases hs
      exact hc.service _
    · cases hs
      exact hc.connect _
  | close ws =>
    simp only [step] at hs
    split at hs
    · cases hs
      exact hc.close
    · cases hs
  | finish ws o => exact finish_coherent hc hok hs
  | resume i o =>
    simp only [step] at hs
    split at hs
    · cases hs
    · rename_i h hh
      split at hs
      · rename_i x hx
        cases hs
        exact transmit_coherent hc hh hx hok
      · rename_i hp
        split at hs
        · cases hs
        · cases hs
          refine hc.forward hh hp fun hnone => ?_
          rw [inTime, hh, Option.all_some, hp] at hok
          simpa [hnone] using hok

theorem empty_coherent : empty.Coherent where
  registered _ _ hw := by cases hw
  opened _ _ hk _ := by cases hk
  told _ _ hk _ _ _ := by cases hk

/-- Where every step is in time, what open sockets were last told of others holds
whenever nothing is under way. -/
theorem told_truthfully {es : List Event}
    (hok : Meets (step R clock) (fun s e => s.inTime R e = true) empty es)
    (hrun : run (step R clock) empty es = some s) (hq : s.Quiet) : s.Truthful := by
  refine Coherent.truthful ?_ hq
  exact invariant_meets step_coherent empty_coherent hok hrun

end runs

/-! ann and bob know each other by a message that expires. -/

def joins (username token : String) : Event :=
  .request "" (.register ⟨username, "kem", "dsa", "fp", "secret", none⟩) (draws token "f0" [])
    .listed

/-- bob writes to ann and connects, and ann connects after him. -/
def meeting : List Event :=
  [joins "ann" "t1", joins "bob" "t2",
    .request "Bearer t2" (.sendMessage ⟨"ann", [], some 5⟩) (draws "t0" "f0" []) .listed,
    .connect "t2" 0, .resume 3 .listed, .resume 3 .listed, .connect "t1" 0, .resume 4 .listed,
    .resume 4 .listed, .resume 4 .listed, .resume 4 .listed, .resume 4 .listed]

def annGoes : List Event := [.close 1, .finish 1 .listed]

/-- bob was last told about ann what `b` says, and his socket is open. -/
def bobHeard (s : LiveRelay) (b : Bool) : Bool :=
  s.sockets.any fun k => k.isOpen && k.user == "bob" && k.last "ann" == some b

theorem bob_hears_ann_go : ∃ s,
    run (step plain Exchange.midnight) empty (meeting ++ annGoes ++ [.resume 4 .listed]) = some s ∧
      s.Truthful ∧ s.bobHeard false = true := by
  have h : (run (step plain Exchange.midnight) empty (meeting ++ annGoes ++ [.resume 4 .listed])).any
      (fun s => decide s.Quiet && s.bobHeard false) = true := by decide +kernel
  have hok : meets (step plain Exchange.midnight) (inTime plain) empty
      (meeting ++ annGoes ++ [.resume 4 .listed]) = true := by decide +kernel
  obtain ⟨s, hs, h⟩ := (Option.any_eq_true ..).mp h
  obtain ⟨hq, hb⟩ := Bool.and_eq_true_iff.mp h
  exact ⟨s, hs, told_truthfully (meets_eq_true.mp hok) hs (of_decide_eq_true hq), hb⟩

/-- The message is swept while both are online, and ann's going reaches nobody. -/
theorem presence_not_always_true : ¬∀ (R : Runtime) (clock : Nat → Double) (es : List Event)
    (s : LiveRelay), run (step R clock) empty es = some s → s.Quiet → s.Truthful := by
  intro hall
  have h : (run (step plain Exchange.midnight) empty (meeting ++ .sweep 0 9 :: annGoes)).any
      (fun s => decide s.Quiet && s.bobHeard true && !s.online "ann") = true := by decide +kernel
  obtain ⟨s, hs, h⟩ := (Option.any_eq_true ..).mp h
  simp only [Bool.and_eq_true, decide_eq_true_eq, Bool.not_eq_true'] at h
  obtain ⟨⟨hq, hb⟩, hoff⟩ := h
  obtain ⟨k, hk, hb⟩ := List.any_eq_true.mp hb
  simp only [Bool.and_eq_true, beq_iff_eq] at hb
  obtain ⟨⟨ho, hu⟩, hlast⟩ := hb
  have htrue := hall _ _ _ s hs hq k hk ho "ann" (hu ▸ by decide) true hlast
  rw [hoff] at htrue
  cases htrue

end LiveRelay

end Lattix.Server
