import Mathlib.Data.List.Pairwise
import Lattix.Lib.Runs
import Lattix.Client.Sync

namespace Lattix.Client
open Lib.Runs Lib.Pages

variable {me : String} {pageSize : Nat}

/-- Everything on its way to the client, and everything it shows, is an envelope
the relay stored, in the conversation it was stored for. -/
structure Sync.Traced (me : String) (s : Sync) : Prop where
  ids : s.stored.Pairwise fun a b => a.table = b.table → a.id < b.id
  below : ∀ e ∈ s.stored, e.id < s.next e.table
  joined : ∀ e ∈ s.stored, ∀ g, e.cid me = .group g → g ∈ s.groups
  delivering : ∀ e ∈ s.delivering, e ∈ s.stored
  answers : ∀ e ∈ s.answers, e ∈ s.stored
  wire : ∀ e, .envelope e ∈ s.wire → e ∈ s.stored
  missed : ∀ e ∈ s.missed, e ∈ s.stored
  due : ∀ e ∈ s.due, e ∈ s.stored
  ingests : ∀ i ∈ s.ingests, i.env ∈ s.stored
  paged : ∀ p ∈ s.pulls, ∀ e ∈ p.fetch.rest, e ∈ s.stored ∧ e.cid me = p.cid
  filed : ∀ c, ∀ e ∈ s.messages c, e ∈ s.stored ∧ e.cid me = c
  seen : ∀ k ∈ s.seen, ∃ e ∈ s.stored, e.key = k

theorem key_eq {a b : Envelope} (h : a.key = b.key) : a.table = b.table ∧ a.id = b.id := by
  cases a with
  | mk i sender target expires =>
    cases b with
    | mk j sender' target' expires' =>
      cases target <;> cases target' <;> simp_all [Envelope.key, Envelope.table]

theorem key_of_cid {a b : Envelope} (hc : a.cid me = b.cid me) (hi : a.id = b.id) :
    a.key = b.key := by
  cases a with
  | mk i sender target expires =>
    cases b with
    | mk j sender' target' expires' =>
      cases target <;> cases target' <;> simp_all [Envelope.key, Envelope.cid]

theorem cid_table {e : Envelope} {c : Cid} (h : e.cid me = c) : e.table = c.table := by
  subst h
  cases ht : e.target <;> simp [Envelope.table, Envelope.cid, Cid.table, ht]

theorem mem_envelopes {w : List Frame} {e : Envelope} :
    e ∈ Frame.envelopes w ↔ .envelope e ∈ w := by
  constructor
  · intro h
    obtain ⟨f, hf, he⟩ := List.mem_filterMap.mp h
    cases f with
    | ready => cases he
    | envelope d =>
      cases he
      exact hf
  · intro h
    exact List.mem_filterMap.mpr ⟨_, h, rfl⟩

namespace Sync

theorem Traced.unique {s : Sync} (h : s.Traced me) {a b : Envelope} (ha : a ∈ s.stored)
    (hb : b ∈ s.stored) (hk : a.key = b.key) : a = b := by
  obtain ⟨ht, hi⟩ := key_eq hk
  by_contra hne
  have hl : a.id < b.id ∨ b.id < a.id := by
    have hp : s.stored.Pairwise fun a b => a.table = b.table → a.id < b.id ∨ b.id < a.id :=
      h.ids.imp fun hlt he => .inl (hlt he)
    have hsymm : Std.Symm fun a b : Envelope => a.table = b.table → a.id < b.id ∨ b.id < a.id :=
      ⟨fun _ _ hlt he => (hlt he.symm).symm⟩
    exact hp.forall ha hb hne ht
  omega

/-- A new envelope's number is past the whole table. -/
theorem Traced.fresh {s : Sync} (h : s.Traced me) {e : Envelope} (hn : s.next e.table ≤ e.id) :
    e.key ∉ s.seen := by
  intro hk
  obtain ⟨d, hd, he⟩ := h.seen _ hk
  obtain ⟨ht, hi⟩ := key_eq he
  have hb := h.below d hd
  rw [ht] at hb
  omega

theorem Traced.ingest {s : Sync} (h : s.Traced me) {e : Envelope} (he : e ∈ s.stored)
    (pull : Option Nat) : (s.ingest me e pull).Traced me := by
  rcases ingest_cases me e pull s with ⟨_, hq⟩ | ⟨_, _, hq⟩ | ⟨_, _, known, phase, hq⟩
  · rw [hq]
    exact h
  · rw [hq]
    refine { h with seen := ?_ }
    intro k hk
    rcases List.mem_cons.mp hk with hk | hk
    · exact ⟨e, he, hk.symm⟩
    · exact h.seen k hk
  · rw [hq]
    refine { h with ingests := ?_ }
    intro i hi
    rcases List.mem_append.mp hi with hi | hi
    · exact h.ingests i hi
    · rw [List.mem_singleton.mp hi]
      exact he

theorem Traced.pushMessage {s : Sync} (h : s.Traced me) {e : Envelope} (he : e ∈ s.stored) :
    (s.pushMessage me e).Traced me := by
  refine { h with filed := ?_, seen := ?_ }
  · intro c d hd
    rcases mem_pushMessage.mp hd with hd | ⟨hd, hc⟩
    · exact h.filed c d hd
    · rw [hd]
      exact ⟨he, hc⟩
  · intro k hk
    rcases List.mem_cons.mp hk with hk | hk
    · exact ⟨e, he, hk.symm⟩
    · exact h.seen k hk

theorem Traced.startPull {s : Sync} (h : s.Traced me) (resync : Bool) (c : Cid) :
    (s.startPull resync c).Traced me := by
  refine { h with paged := ?_ }
  intro p hp e he
  rcases List.mem_append.mp hp with hp | hp
  · exact h.paged p hp e he
  · rw [List.mem_singleton.mp hp] at he
    cases he

theorem Traced.startPulls {s : Sync} (h : s.Traced me) (cids : List Cid) :
    (cids.foldl (Sync.startPull true) s).Traced me := by
  induction cids generalizing s with
  | nil => exact h
  | cons c cids ih => exact ih (h.startPull true c)

theorem Traced.replace {s : Sync} (h : s.Traced me) {p : Pull} {fetch : Fetch} {rounds : Nat}
    (hf : ∀ e ∈ fetch.rest, e ∈ s.stored ∧ e.cid me = p.cid) :
    (s.replace p fetch rounds).Traced me := by
  refine { h with paged := ?_ }
  intro q hq e he
  rcases List.mem_append.mp hq with hq | hq
  · exact h.paged q (List.mem_of_mem_erase hq) e he
  · rw [List.mem_singleton.mp hq] at he ⊢
    exact hf e he

theorem Traced.drop_pull {s : Sync} (h : s.Traced me) (p : Pull) :
    ({ s with pulls := s.pulls.erase p } : Sync).Traced me :=
  { h with paged := fun q hq => h.paged q (List.mem_of_mem_erase hq) }

theorem Traced.replace_ingest {s : Sync} (h : s.Traced me) {i : Ingest} (hi : i ∈ s.ingests)
    (phase : Phase) :
    ({ s with ingests := s.ingests.erase i ++ [{ i with phase := phase }] } : Sync).Traced me := by
  refine { h with ingests := ?_ }
  intro j hj
  rcases List.mem_append.mp hj with hj | hj
  · exact h.ingests j (List.mem_of_mem_erase hj)
  · rw [List.mem_singleton.mp hj]
    exact h.ingests i hi

theorem Traced.drop_ingest {s : Sync} (h : s.Traced me) (i : Ingest) :
    ({ s with ingests := s.ingests.erase i } : Sync).Traced me :=
  { h with ingests := fun j hj => h.ingests j (List.mem_of_mem_erase hj) }

theorem mem_fetchPage {s : Sync} {now since : Nat} {c : Cid} {e : Envelope}
    (h : e ∈ s.fetchPage me pageSize now c since) : e ∈ s.stored ∧ e.cid me = c := by
  have h := (mem_page h).1
  simp only [List.mem_filter, Bool.and_eq_true, beq_iff_eq] at h
  exact ⟨h.1, h.2.1⟩

theorem accepts_next {s : Sync} {e : Envelope} (h : s.accepts me e = true) :
    s.next e.table ≤ e.id := by
  simp only [Sync.accepts, Bool.and_eq_true, decide_eq_true_eq] at h
  exact h.1

theorem accepts_joined {s : Sync} {e : Envelope} {g : Nat} (h : s.accepts me e = true)
    (hg : e.cid me = .group g) : g ∈ s.groups := by
  cases ht : e.target with
  | user recipient => simp [Envelope.cid, ht] at hg
  | group id =>
    simp only [Envelope.cid, ht, Cid.group.injEq] at hg
    simp only [Sync.accepts, ht, Bool.and_eq_true, List.contains_iff_mem] at h
    exact hg ▸ h.2

theorem Traced.post {s : Sync} (h : s.Traced me) {e : Envelope} (own : Bool)
    (ha : s.accepts me e = true) :
    ({ s with
      stored := s.stored ++ [e]
      next := Function.update s.next e.table (e.id + 1)
      delivering := s.delivering ++ [e]
      answers := if own then s.answers ++ [e] else s.answers } : Sync).Traced me := by
  have hn := accepts_next ha
  have hold : ∀ d ∈ s.stored, d ∈ s.stored ++ [e] := fun d hd => List.mem_append_left _ hd
  have hnew : e ∈ s.stored ++ [e] := List.mem_append_right _ (List.mem_singleton.mpr rfl)
  have hsnoc : ∀ l : List Envelope, (∀ d ∈ l, d ∈ s.stored) →
      ∀ d ∈ l ++ [e], d ∈ s.stored ++ [e] := by
    intro l hl d hd
    rcases List.mem_append.mp hd with hd | hd
    · exact hold d (hl d hd)
    · rw [List.mem_singleton.mp hd]
      exact hnew
  refine ⟨?_, ?_, ?_, hsnoc _ h.delivering, ?_, fun d hd => hold d (h.wire d hd),
    fun d hd => hold d (h.missed d hd), fun d hd => hold d (h.due d hd),
    fun i hi => hold _ (h.ingests i hi), ?_, ?_, ?_⟩
  · refine List.pairwise_append.mpr ⟨h.ids, List.pairwise_singleton .., ?_⟩
    intro a ha b hb ht
    rw [List.mem_singleton.mp hb] at ht ⊢
    have hb := h.below a ha
    rw [ht] at hb
    omega
  · intro d hd
    by_cases ht : d.table = e.table
    · simp only [ht, Function.update_self]
      rcases List.mem_append.mp hd with hd | hd
      · have hb := h.below d hd
        rw [ht] at hb
        omega
      · rw [List.mem_singleton.mp hd]
        omega
    · simp only [Function.update_of_ne ht]
      rcases List.mem_append.mp hd with hd | hd
      · exact h.below d hd
      · exact absurd (by rw [List.mem_singleton.mp hd]) ht
  · intro d hd g hg
    rcases List.mem_append.mp hd with hd | hd
    · exact h.joined d hd g hg
    · rw [List.mem_singleton.mp hd] at hg
      have hj : g ∈ s.groups := accepts_joined ha hg
      exact hj
  · cases own with
    | false => exact fun d hd => hold d (h.answers d hd)
    | true => exact hsnoc _ h.answers
  · intro p hp d hd
    obtain ⟨hs, hc⟩ := h.paged p hp d hd
    exact ⟨hold d hs, hc⟩
  · intro c d hd
    obtain ⟨hs, hc⟩ := h.filed c d hd
    exact ⟨hold d hs, hc⟩
  · intro k hk
    obtain ⟨d, hd, he⟩ := h.seen k hk
    exact ⟨d, hold d hd, he⟩

theorem start_traced (groups : List Nat) (blocked : List String) :
    (Sync.start groups blocked).Traced me :=
  ⟨List.Pairwise.nil, by simp [Sync.start], by simp [Sync.start], by simp [Sync.start], by simp [Sync.start],
    by simp [Sync.start], by simp [Sync.start], by simp [Sync.start], by simp [Sync.start],
    by simp [Sync.start], by simp [Sync.start], by simp [Sync.start]⟩

theorem step_traced (s : Sync) (a : Sync.Event) (s' : Sync) (h : s.Traced me)
    (hs : s.step me pageSize a = some s') : s'.Traced me := by
  have hafter {xs : List Envelope} {e : Envelope} (hxs : ∀ d ∈ xs, d ∈ s.stored)
      (he : e ∈ s.stored) : ∀ d ∈ xs ++ [e], d ∈ s.stored := by
    intro d hd
    rcases List.mem_append.mp hd with hd | hd
    · exact hxs d hd
    · rw [List.mem_singleton.mp hd]
      exact he
  have hwire {f : Frame} {wire : List Frame} (hw : s.wire = f :: wire) (d : Envelope)
      (hd : .envelope d ∈ wire) : d ∈ s.stored := by
    apply h.wire
    rw [hw]
    exact List.mem_cons_of_mem _ hd
  have hdelivering (e : Envelope) : ∀ d ∈ s.delivering.erase e, d ∈ s.stored :=
    fun d hd => h.delivering d (List.mem_of_mem_erase hd)
  cases step_moves hs with
  | @posted e own ha _ => exact h.post own ha
  | @delivered e he =>
    refine { h with delivering := hdelivering e, wire := ?_ }
    intro d hd
    rcases List.mem_append.mp hd with hd | hd
    · exact h.wire d hd
    · cases List.mem_singleton.mp hd
      exact h.delivering e he
  | @undelivered e he =>
    exact { h with delivering := hdelivering e, missed := hafter h.missed (h.delivering e he) }
  | attached => exact { h with wire := by simp }
  | dropped =>
    refine { h with wire := by simp, missed := ?_ }
    intro d hd
    rcases List.mem_append.mp hd with hd | hd
    · exact h.missed d hd
    · exact h.wire d (mem_envelopes.mp hd)
  | reconnected hw => exact { h with wire := hwire hw, due := h.missed }
  | connected hw => exact { h with wire := hwire hw }
  | @pushed e wire hw =>
    have he : e ∈ s.stored := h.wire e (by simp [hw])
    have hq : ({ s with wire := wire } : Sync).Traced me := { h with wire := hwire hw }
    exact hq.ingest he none
  | @answered e he =>
    have hq : ({ s with answers := s.answers.erase e } : Sync).Traced me :=
      { h with answers := fun d hd => h.answers d (List.mem_of_mem_erase hd) }
    exact hq.ingest (h.answers e he) none
  | rostered hi => exact { h.replace_ingest hi .keys with }
  | keyed hi => exact h.replace_ingest hi .decode
  | @listed i hi => exact (h.drop_ingest i).pushMessage (h.ingests i hi)
  | @lost i => exact h.drop_ingest i
  | loaded c => exact h.startPull false c
  | served now => exact h.replace fun e he => mem_fetchPage he
  | @ingested p e rest more hp _ hf =>
    have hr := h.paged p hp
    simp only [hf, Fetch.rest] at hr
    have hq : (s.replace p (.paging rest more) p.rounds).Traced me :=
      h.replace fun d hd => hr d (List.mem_cons_of_mem _ hd)
    exact hq.ingest (hr e (List.mem_cons_self ..)).1 (some p.id)
  | turned => exact h.replace fun e he => by cases he
  | @finished p | @stopped p | @failed p => exact h.drop_pull p
  | pulling => exact { h.startPulls _ with }
  | told | untold | settled | blocked | unblocked => exact { h with }
  | swept now =>
    refine { h with filed := ?_, seen := ?_ }
    · intro c e he
      exact h.filed c e (List.mem_of_mem_filter he)
    · intro k hk
      exact h.seen k (List.mem_of_mem_filter hk)

/-- In every state reached a conversation lists nothing but its own envelopes. -/
theorem lists_own (me : String) (pageSize : Nat) (groups : List Nat) (blocked : List String)
    (es : List Sync.Event) {s : Sync}
    (hrun : run (Sync.step me pageSize) (.start groups blocked) es = some s) (c : Cid) :
    ∀ e ∈ s.messages c, e ∈ s.stored ∧ e.cid me = c :=
  (invariant step_traced (start_traced groups blocked) hrun).filed c

end Sync

end Lattix.Client
