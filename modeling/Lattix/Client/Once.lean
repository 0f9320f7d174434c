import Lattix.Client.Provenance

namespace Lattix.Client
open Lib.Runs

variable {me : String} {pageSize : Nat}

namespace Sync

/-- No conversation lists an envelope twice. -/
def Listed (s : Sync) : Prop := ∀ c, ((s.messages c).map Envelope.id).Nodup

/-- An ingest of `e` that gets past the check is the only one of `e` under way. -/
def lone (me : String) (e : Envelope) (s : Sync) : Bool :=
  s.seen.contains e.key || s.blocks me e || s.ingests.all fun i => i.env.key != e.key

/-- The ingest that an event starts, if any, is alone. -/
def single (me : String) (s : Sync) : Sync.Event → Bool
  | .frame =>
    match s.wire with
    | .envelope e :: _ => s.lone me e
    | _ => true
  | .answer e => s.lone me e
  | .next p =>
    match p.fetch with
    | .paging (e :: _) _ => s.lone me e
    | _ => true
  | _ => true

structure Once (me : String) (s : Sync) : Prop where
  traced : s.Traced me
  marked : ∀ c, ∀ e ∈ s.messages c, e.key ∈ s.seen
  alone : (s.ingests.map fun i => i.env.key).Nodup
  fresh : ∀ i ∈ s.ingests, ∀ c, i.env ∉ s.messages c
  nodup : ∀ c, (s.messages c).Nodup

theorem Once.listed {s : Sync} (h : s.Once me) : s.Listed := by
  intro c
  apply List.Nodup.map_on _ (h.nodup c)
  intro a ha b hb he
  obtain ⟨hsa, hca⟩ := h.traced.filed c a ha
  obtain ⟨hsb, hcb⟩ := h.traced.filed c b hb
  exact h.traced.unique hsa hsb (key_of_cid (hca.trans hcb.symm) he)

/-- Only the ingests and the lists matter here. -/
theorem Once.quiet {s s' : Sync} (h : s.Once me) (ht : s'.Traced me) (hi : s'.ingests = s.ingests)
    (hm : s'.messages = s.messages) (hk : s'.seen = s.seen) : s'.Once me := by
  refine ⟨ht, ?_, ?_, ?_, ?_⟩
  · rw [hm, hk]
    exact h.marked
  · rw [hi]
    exact h.alone
  · rw [hi, hm]
    exact h.fresh
  · rw [hm]
    exact h.nodup

theorem Once.begin {s s' : Sync} {e : Envelope} {phase : Phase} {pull : Option Nat}
    (h : s.Once me) (ht : s'.Traced me) (hi : s'.ingests = s.ingests ++ [⟨e, phase, pull⟩])
    (hm : s'.messages = s.messages) (hk : s'.seen = s.seen) (hn : e.key ∉ s.seen)
    (hl : ∀ i ∈ s.ingests, i.env.key ≠ e.key) : s'.Once me := by
  refine ⟨ht, ?_, ?_, ?_, ?_⟩
  · rw [hm, hk]
    exact h.marked
  · rw [hi, List.map_append]
    apply List.nodup_append.mpr
    refine ⟨h.alone, List.nodup_singleton _, ?_⟩
    intro k hk d hd
    obtain ⟨i, hi, rfl⟩ := List.mem_map.mp hk
    rw [List.mem_singleton.mp hd]
    exact hl i hi
  · intro i hmem c
    rw [hi] at hmem
    rw [hm]
    rcases List.mem_append.mp hmem with hmem | hmem
    · exact h.fresh i hmem c
    · rw [List.mem_singleton.mp hmem]
      intro he
      exact hn (h.marked c e he)
  · rw [hm]
    exact h.nodup

theorem Once.ingest {s : Sync} {e : Envelope} (h : s.Once me) (he : e ∈ s.stored)
    (hl : s.lone me e = true) (pull : Option Nat) : (s.ingest me e pull).Once me := by
  have ht := h.traced.ingest he pull
  rcases ingest_cases me e pull s with ⟨_, hq⟩ | ⟨_, _, hq⟩ | ⟨hn, hb, known, phase, hq⟩
  · rw [hq]
    exact h
  · rw [hq] at ht ⊢
    refine ⟨ht, ?_, h.alone, h.fresh, h.nodup⟩
    intro c d hd
    exact List.mem_cons_of_mem _ (h.marked c d hd)
  · rw [hq] at ht ⊢
    refine h.begin ht rfl rfl rfl hn ?_
    simpa [lone, hn, hb] using hl

theorem Once.push {s : Sync} {i : Ingest} (h : s.Once me) (hi : i ∈ s.ingests) :
    (({ s with ingests := s.ingests.erase i } : Sync).pushMessage me i.env).Once me := by
  have hp := List.perm_cons_erase hi
  have halone : ((i :: s.ingests.erase i).map fun j => j.env.key).Nodup :=
    (hp.map _).nodup_iff.mp h.alone
  rw [List.map_cons, List.nodup_cons] at halone
  refine ⟨(h.traced.drop_ingest i).pushMessage (h.traced.ingests i hi), ?_, halone.2, ?_, ?_⟩
  · intro c d hd
    rcases mem_pushMessage.mp hd with hd | ⟨hd, _⟩
    · exact List.mem_cons_of_mem _ (h.marked c d hd)
    · rw [hd]
      exact List.mem_cons_self ..
  · intro j hj c hm
    have hne : j.env ≠ i.env := by
      intro he
      apply halone.1
      rw [← he]
      exact List.mem_map_of_mem hj
    rcases mem_pushMessage.mp hm with hm | ⟨hm, _⟩
    · exact h.fresh j (List.mem_of_mem_erase hj) c hm
    · exact hne hm
  · intro c
    by_cases hc : c = i.env.cid me
    · subst hc
      simp only [pushMessage, Function.update_self]
      rw [(List.perm_insertionSort _ _).nodup_iff]
      apply List.nodup_append.mpr
      refine ⟨h.nodup _, List.nodup_singleton _, ?_⟩
      intro d hd x hx he
      rw [he, List.mem_singleton.mp hx] at hd
      exact h.fresh i hi _ hd
    · simp only [pushMessage, Function.update_of_ne hc]
      exact h.nodup c

theorem Once.replace_ingest {s : Sync} {i : Ingest} (h : s.Once me) (hi : i ∈ s.ingests)
    (phase : Phase) :
    ({ s with ingests := s.ingests.erase i ++ [{ i with phase := phase }] } : Sync).Once me := by
  refine ⟨h.traced.replace_ingest hi phase, h.marked, ?_, ?_, h.nodup⟩
  · have hp : ((s.ingests.erase i ++ [{ i with phase := phase }]).map
        fun j : Ingest => j.env.key).Perm (s.ingests.map fun j : Ingest => j.env.key) := by
      have he := (List.perm_cons_erase hi).map fun j : Ingest => j.env.key
      rw [List.map_append]
      exact (List.perm_append_singleton ..).trans he.symm
    exact hp.nodup_iff.mpr h.alone
  · intro j hj c
    rcases List.mem_append.mp hj with hj | hj
    · exact h.fresh j (List.mem_of_mem_erase hj) c
    · rw [List.mem_singleton.mp hj]
      exact h.fresh i hi c

theorem Once.sweep {s : Sync} (h : s.Once me) (now : Nat) (ht : (s.sweep now).Traced me) :
    (s.sweep now).Once me := by
  refine ⟨ht, ?_, h.alone, ?_, fun c => (h.nodup c).filter _⟩
  · intro c e he
    simp only [Sync.sweep, List.mem_filter, Bool.not_eq_true'] at he ⊢
    refine ⟨h.marked c e he.1, ?_⟩
    simp only [List.any_eq_false, Bool.not_eq_true, Bool.and_eq_false_imp, beq_eq_false_iff_ne]
    intro d hd x hx hex hk
    have heq := h.traced.unique (h.traced.filed d x hx).1 (h.traced.filed c e he.1).1 hk
    rw [heq, he.2] at hex
    cases hex
  · intro i hi c hm
    exact h.fresh i hi c (List.mem_of_mem_filter hm)

theorem start_once (groups : List Nat) (blocked : List String) :
    (Sync.start groups blocked).Once me :=
  ⟨start_traced groups blocked, by simp [Sync.start], List.nodup_nil, by simp [Sync.start],
    fun _ => List.nodup_nil⟩

theorem step_once (s : Sync) (a : Sync.Event) (s' : Sync) (h : s.Once me)
    (hl : s.single me a = true) (hs : s.step me pageSize a = some s') : s'.Once me := by
  have ht := step_traced s a s' h.traced hs
  cases step_moves hs with
  | @pushed e wire hw =>
    simp only [single, hw] at hl
    have hq : ({ s with wire := wire } : Sync).Once me := by
      refine h.quiet ?_ rfl rfl rfl
      exact { h.traced with wire := fun d hd => h.traced.wire d (by simp [hw, hd]) }
    exact hq.ingest (h.traced.wire e (by simp [hw])) hl none
  | @answered e he =>
    have hq : ({ s with answers := s.answers.erase e } : Sync).Once me := by
      refine h.quiet ?_ rfl rfl rfl
      exact { h.traced with
        answers := fun d hd => h.traced.answers d (List.mem_of_mem_erase hd) }
    exact hq.ingest (h.traced.answers e he) hl none
  | @ingested p e rest more hp _ hf =>
    simp only [single, hf] at hl
    have hr := h.traced.paged p hp
    simp only [hf, Fetch.rest] at hr
    have hq : (s.replace p (.paging rest more) p.rounds).Once me := by
      refine h.quiet ?_ rfl rfl rfl
      exact h.traced.replace fun d hd => hr d (List.mem_cons_of_mem _ hd)
    exact hq.ingest (hr e (List.mem_cons_self ..)).1 hl (some p.id)
  | rostered hi =>
    have hr := h.replace_ingest hi .keys
    exact ⟨ht, hr.marked, hr.alone, hr.fresh, hr.nodup⟩
  | keyed hi => exact h.replace_ingest hi .decode
  | listed hi => exact h.push hi
  | lost =>
    refine ⟨ht, h.marked, ?_, fun j hj => h.fresh j (List.mem_of_mem_erase hj), h.nodup⟩
    exact h.alone.sublist (List.erase_sublist.map _)
  | @pulling cids =>
    obtain ⟨hi, hm, hk, _⟩ := startPulls_frame cids s
    exact h.quiet ht hi hm hk
  | swept now => exact h.sweep now ht
  | _ => exact h.quiet ht rfl rfl rfl

/-- Whatever brings an envelope, and however often, as long as one ingest of it
is over before the next one starts. -/
theorem messages_listed_once (me : String) (pageSize : Nat) (groups : List Nat)
    (blocked : List String) (es : List Sync.Event) {s : Sync}
    (hl : Meets (Sync.step me pageSize) (fun s a => s.single me a = true) (.start groups blocked) es)
    (hrun : run (Sync.step me pageSize) (.start groups blocked) es = some s) : s.Listed :=
  (invariant_meets step_once (start_once groups blocked) hl hrun).listed

/-- A message of one's own, and its way to the relay and back. -/
def own : Envelope := ⟨1, "me", .user "bob", none⟩

/-- The echo is decoded before the answer to the post comes in. -/
def echoed : List Sync.Event :=
  [.attach, .frame, .post own true, .deliver own, .frame, .advance ⟨own, .keys, none⟩,
    .push ⟨own, .decode, none⟩, .answer own]

theorem echoed_once :
    ∃ s, run (Sync.step "me" historyPage) (.start [] []) echoed = some s ∧ s.Listed :=
  ⟨_, rfl, messages_listed_once "me" historyPage [] [] echoed (by decide) rfl⟩

/-- Here the answer comes in while the echo's ingest waits for the keys. -/
theorem messages_not_always_once :
    ¬ ∀ (es : List Sync.Event) (s : Sync),
      run (Sync.step "me" historyPage) (.start [] []) es = some s → s.Listed := by
  intro h
  have hs := h [.attach, .frame, .post own true, .deliver own, .frame, .answer own,
    .advance ⟨own, .keys, none⟩, .push ⟨own, .decode, none⟩, .advance ⟨own, .keys, none⟩,
    .push ⟨own, .decode, none⟩] _ rfl (.dm "bob")
  revert hs
  decide

end Sync

end Lattix.Client
