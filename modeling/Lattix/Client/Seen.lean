import Lattix.Client.Store
import Lattix.Lib.Runs

namespace Lattix.Client
open Lib.Runs

namespace Store

variable {a : Account}

/-- What waits and what is loaded are rows of the relay, and an ingest holds an
object of its own conversation. -/
structure Filed (a : Account) (s : Store) : Prop where
  refs : (s.convos.map Chat.ref).Nodup
  below : ∀ v ∈ s.convos, v.ref < s.refs
  waiting : ∀ i ∈ s.waiting, a.rows.has i.env = true
  placed : ∀ i ∈ s.waiting, ∀ ref, i.place = .convo (some ref) →
    ref < s.refs ∧ ∀ v ∈ s.convos, v.ref = ref → v.cid = i.env.cid a.name
  paged : ∀ l ∈ s.loads, ∀ e ∈ l.fetch.rest, a.rows.has e = true
  taken : ∀ l ∈ s.loads, ∀ e ∈ l.taken, a.rows.has e = true

theorem ensure_eq (c : Cid) (s : Store) :
    s.ensure c = { s with convos := (s.ensure c).convos, refs := (s.ensure c).refs } := by
  unfold ensure
  split <;> rfl

theorem refOf_mem {c : Cid} {r : Nat} {s : Store} (h : s.refOf c = some r) :
    ∃ v ∈ s.convos, v.cid = c ∧ v.ref = r := by
  obtain ⟨v, hv, rfl⟩ := Option.map_eq_some_iff.mp h
  exact ⟨v, List.mem_of_find?_eq_some hv, by simpa using List.find?_some hv, rfl⟩

theorem Filed.one_ref {s : Store} (h : s.Filed a) {v w : Chat} (hv : v ∈ s.convos)
    (hw : w ∈ s.convos) (hr : v.ref = w.ref) : v = w :=
  List.inj_on_of_nodup_map h.refs hv hw hr

/-- Another list of objects with the same names and numbers changes nothing here. -/
theorem Filed.relist {s : Store} (h : s.Filed a) {f : Chat → Chat} {convos : List Chat}
    (hf : ∀ v, (f v).cid = v.cid ∧ (f v).ref = v.ref) (hs : convos.Sublist (s.convos.map f)) :
    ({ s with convos := convos } : Store).Filed a := by
  have hmem : ∀ w ∈ convos, ∃ v ∈ s.convos, w.cid = v.cid ∧ w.ref = v.ref := by
    intro w hw
    obtain ⟨v, hv, rfl⟩ := List.mem_map.mp (hs.subset hw)
    exact ⟨v, hv, hf v⟩
  refine ⟨?_, ?_, h.waiting, ?_, h.paged, h.taken⟩
  · have hrefs : (s.convos.map f).map Chat.ref = s.convos.map Chat.ref := by
      rw [List.map_map]
      exact List.map_congr_left fun v _ => (hf v).2
    have := hs.map Chat.ref
    rw [hrefs] at this
    exact h.refs.sublist this
  · intro w hw
    obtain ⟨v, hv, -, hr⟩ := hmem w hw
    rw [hr]
    exact h.below v hv
  · intro i hi ref hp
    refine ⟨(h.placed i hi ref hp).1, fun w hw hr => ?_⟩
    obtain ⟨v, hv, hc, hvr⟩ := hmem w hw
    rw [hc]
    exact (h.placed i hi ref hp).2 v hv (hvr.symm.trans hr)

theorem Filed.ensure {s : Store} (h : s.Filed a) (c : Cid) : (s.ensure c).Filed a := by
  unfold Store.ensure
  split
  · exact h
  · refine ⟨?_, ?_, h.waiting, ?_, h.paged, h.taken⟩
    · rw [List.map_append, List.map_singleton]
      refine List.nodup_append.mpr ⟨h.refs, List.nodup_singleton _, ?_⟩
      intro r hr q hq
      obtain ⟨v, hv, rfl⟩ := List.mem_map.mp hr
      rw [List.mem_singleton.mp hq]
      exact Nat.ne_of_lt (h.below v hv)
    · intro v hv
      rcases List.mem_append.mp hv with hv | hv
      · exact Nat.lt_succ_of_lt (h.below v hv)
      · rw [List.mem_singleton.mp hv]
        exact Nat.lt_succ_self _
    · intro i hi ref hp
      obtain ⟨hlt, hall⟩ := h.placed i hi ref hp
      refine ⟨Nat.lt_succ_of_lt hlt, fun v hv hr => ?_⟩
      rcases List.mem_append.mp hv with hv | hv
      · exact hall v hv hr
      · rw [List.mem_singleton.mp hv] at hr
        exact absurd hr.symm (Nat.ne_of_lt hlt)

/-- An ingest that has found its conversation waits like the others. -/
theorem Filed.wait {s : Store} (h : s.Filed a) {i : Waiting} (hi : a.rows.has i.env = true)
    (hp : ∀ ref, i.place = .convo (some ref) → s.refOf (i.env.cid a.name) = some ref)
    (ws : List Waiting) (hw : ∀ j ∈ ws, j ∈ s.waiting) :
    ({ s with waiting := ws ++ [i] } : Store).Filed a := by
  refine ⟨h.refs, h.below, ?_, ?_, h.paged, h.taken⟩
  · intro j hj
    rcases List.mem_append.mp hj with hj | hj
    · exact h.waiting j (hw j hj)
    · rw [List.mem_singleton.mp hj]
      exact hi
  · intro j hj ref hr
    rcases List.mem_append.mp hj with hj | hj
    · exact h.placed j (hw j hj) ref hr
    · rw [List.mem_singleton.mp hj] at hr ⊢
      obtain ⟨v, hv, hc, rfl⟩ := refOf_mem (hp ref hr)
      refine ⟨h.below v hv, fun w hw hr => ?_⟩
      rw [h.one_ref hw hv hr]
      exact hc

theorem Filed.fewer {s : Store} (h : s.Filed a) {ws : List Waiting}
    (hw : ∀ j ∈ ws, j ∈ s.waiting) : ({ s with waiting := ws } : Store).Filed a :=
  ⟨h.refs, h.below, fun i hi => h.waiting i (hw i hi), fun i hi => h.placed i (hw i hi), h.paged,
    h.taken⟩

theorem Filed.loading {s : Store} (h : s.Filed a) (ls : List Loading) (n : Nat)
    (hl : ∀ l ∈ ls, l ∈ s.loads ∨ ∀ e, e ∈ l.fetch.rest ∨ e ∈ l.taken → a.rows.has e = true) :
    ({ s with loads := ls, loadCount := n } : Store).Filed a := by
  refine ⟨h.refs, h.below, h.waiting, h.placed, ?_, ?_⟩
  · intro l hm e he
    rcases hl l hm with hold | hnew
    · exact h.paged l hold e he
    · exact hnew e (.inl he)
  · intro l hm e he
    rcases hl l hm with hold | hnew
    · exact h.taken l hold e he
    · exact hnew e (.inr he)

theorem Filed.replace {s : Store} (h : s.Filed a) {l : Loading} {fetch : Fetch}
    {taken : List Envelope} (hr : ∀ e ∈ fetch.rest, a.rows.has e = true)
    (ht : ∀ e ∈ taken, a.rows.has e = true) : (s.replace l fetch taken).Filed a := by
  refine h.loading _ _ fun m hm => ?_
  rcases List.mem_append.mp hm with hm | hm
  · exact .inl (List.mem_of_mem_erase hm)
  · right
    rw [List.mem_singleton.mp hm]
    rintro e (he | he)
    · exact hr e he
    · exact ht e he

theorem Filed.unload {s : Store} (h : s.Filed a) (l : Loading) :
    ({ s with loads := s.loads.erase l } : Store).Filed a :=
  h.loading _ _ fun _ hm => .inl (List.mem_of_mem_erase hm)

theorem Filed.ingest {s : Store} (h : s.Filed a) {e : Envelope} (he : a.rows.has e = true)
    (load : Option Nat) : (s.ingest a.name e load).Filed a := by
  apply ingest_keeps h
  · exact ⟨h.refs, h.below, h.waiting, h.placed, h.paged, h.taken⟩
  · exact h.ensure _
  · intro t place hp ht
    exact ht.wait he hp _ fun j hj => hj

theorem Filed.sweep {s : Store} (h : s.Filed a) (now : Nat) : (s.sweep now).Filed a := by
  have hr := h.relist (f := fun v => { v with messages := v.messages.filter fun m => !m.due now })
    (fun v => ⟨rfl, rfl⟩) (List.Sublist.refl _)
  exact ⟨hr.refs, hr.below, hr.waiting, hr.placed, hr.paged, hr.taken⟩

theorem Filed.note {s : Store} (h : s.Filed a) (m : Message) (ref : Nat) (e : Envelope) :
    (s.note m ref e).Filed a := by
  have hr := h.relist (f := fun v => if v.ref = ref then v.push m else v)
    (fun v => by split <;> exact ⟨rfl, rfl⟩) (List.Sublist.refl _)
  exact ⟨hr.refs, hr.below, hr.waiting, hr.placed, hr.paged, hr.taken⟩

theorem Filed.pushMessage {s : Store} (h : s.Filed a) (m : Message) (i : Waiting)
    (ref : Option Nat) : (s.pushMessage m i ref).Filed a := by
  unfold Store.pushMessage
  split
  · have hl := h.loading (s.loads.filter fun l => i.load != some l.id) s.loadCount
      fun l hl => .inl (List.mem_of_mem_filter hl)
    exact ⟨hl.refs, hl.below, hl.waiting, hl.placed, hl.paged, hl.taken⟩
  · dsimp only
    split
    · exact (h.note m _ i.env).sweep _
    · exact h.note m _ i.env

theorem filed_step (s : Store) (e : Store.Event) (s' : Store) (h : s.Filed a)
    (hs : s.step a e = some s') : s'.Filed a := by
  cases store_moves hs with
  | arrived he => exact h.ingest he none
  | @rostered i hi =>
    have hw := (h.ensure (i.env.cid a.name)).wait (i := { i with
      place := .convo ((s.ensure (i.env.cid a.name)).refOf (i.env.cid a.name)) })
      (h.waiting i hi) (fun ref hr => by simpa using hr) (s.waiting.erase i)
    rw [ensure_eq] at hw ⊢
    exact hw fun j hj => List.mem_of_mem_erase hj
  | pushed hi => exact (h.fewer fun j hj => List.mem_of_mem_erase hj).pushMessage ..
  | lost hi => exact h.fewer fun j hj => List.mem_of_mem_erase hj
  | ensured c => exact h.ensure c
  | loaded c =>
    refine (h.ensure c).loading _ _ fun l hl => ?_
    rcases List.mem_append.mp hl with hl | hl
    · exact .inl hl
    · right
      rw [List.mem_singleton.mp hl]
      rintro e (he | he) <;> cases he
  | @served l since page hl hf hp => exact h.replace hp (h.taken l hl)
  | @took l e rest more hl hf =>
    have hrest := h.paged l hl
    rw [hf] at hrest
    have he : a.rows.has e = true := hrest e List.mem_cons_self
    refine Filed.ingest (h.replace ?_ ?_) he _
    · exact fun d hd => hrest d (List.mem_cons_of_mem _ hd)
    · intro d hd
      rcases List.mem_cons.mp hd with rfl | hd
      · exact he
      · exact h.taken l hl d hd
  | @turned l last hl => exact h.replace (fun _ he => by cases he) (h.taken l hl)
  | @finished l _ | @failed l _ => exact h.unload l
  | dropped g =>
    refine h.relist (f := id) (fun v => ⟨rfl, rfl⟩) ?_
    rw [List.map_id]
    exact List.filter_sublist
  | blocked | unblocked | ticked =>
    exact ⟨h.refs, h.below, h.waiting, h.placed, h.paged, h.taken⟩
  | swept => exact h.sweep _

/-- Each listed message was made from a row of the conversation, whose key is noted. -/
structure Made (a : Account) (s : Store) : Prop where
  listed : ∀ c m, s.Lists c m → ∃ e body, a.rows.has e = true ∧ e.cid a.name = c ∧
    m = .made a e body ∧ e.key ∈ s.seen
  hidden : ∀ k ∈ s.hidden, k ∈ s.seen

theorem key_made (a : Account) (e : Envelope) (body : Body) :
    msgKeyFor (e.cid a.name) (.made a e body) = e.key := by
  unfold Envelope.cid Envelope.key
  cases e.target <;> rfl

theorem expiresAt_made {e : Envelope} (he : a.rows.has e = true) (body : Body) :
    (Message.made a e body).expiresAt = e.expires := by
  cases ht : e.expires with
  | none => simp [Message.made, ht]
  | some t =>
    have hz : t ≠ 0 := by
      rintro rfl
      exact a.rows.dated e he ht
    simp [Message.made, ht, hz]

theorem due_made {e : Envelope} (he : a.rows.has e = true) (body : Body) (now : Nat) :
    (Message.made a e body).due now = e.expired now := by
  unfold Message.due Envelope.expired
  rw [expiresAt_made he]

/-- A row's key finds what was made of the row. -/
theorem Made.of_key {s : Store} (h : s.Made a) {e : Envelope} (he : a.rows.has e = true) {c : Cid}
    {m : Message} (hl : s.Lists c m) (hk : msgKeyFor c m = e.key) :
    e.cid a.name = c ∧ ∃ body, m = .made a e body := by
  obtain ⟨d, body, hd, rfl, rfl, -⟩ := h.listed c m hl
  rw [key_made] at hk
  rw [a.rows.unique d e hd he hk]
  exact ⟨rfl, body, rfl⟩

theorem Made.not_due {s : Store} (h : s.Made a) {e : Envelope} (he : a.rows.has e = true)
    {now : Nat} (hx : e.expired now = false) : e.key ∉ s.dueKeys now := by
  intro hk
  obtain ⟨c, m, hl, hd, hk⟩ := mem_dueKeys.mp hk
  obtain ⟨-, body, rfl⟩ := h.of_key he hl hk
  rw [due_made he, hx] at hd
  cases hd

theorem Made.mono {s t : Store} (h : s.Made a) (hl : ∀ c m, t.Lists c m → s.Lists c m)
    (hk : ∀ k ∈ s.seen, k ∈ t.seen) (hh : t.hidden = s.hidden) : t.Made a := by
  refine ⟨fun c m hm => ?_, fun k hmem => ?_⟩
  · obtain ⟨e, body, he, hc, hb, hs⟩ := h.listed c m (hl c m hm)
    exact ⟨e, body, he, hc, hb, hk _ hs⟩
  · rw [hh] at hmem
    exact hk k (h.hidden k hmem)

theorem Made.ensure {s : Store} (h : s.Made a) (c : Cid) : (s.ensure c).Made a := by
  refine h.mono (fun _ _ => lists_ensure.mp) ?_ ?_
  · rw [ensure_eq]
    exact fun k hk => hk
  · rw [ensure_eq]

theorem Made.ingest {s : Store} (h : s.Made a) (e : Envelope) (load : Option Nat) :
    (s.ingest a.name e load).Made a := by
  apply ingest_keeps h
  · refine ⟨fun c m hm => ?_, fun k hk => ?_⟩
    · obtain ⟨d, body, hd, hc, hb, hs⟩ := h.listed c m hm
      exact ⟨d, body, hd, hc, hb, List.mem_cons_of_mem _ hs⟩
    · dsimp only at hk
      split at hk
      · rcases List.mem_cons.mp hk with rfl | hk
        · exact List.mem_cons_self
        · exact List.mem_cons_of_mem _ (h.hidden k hk)
      · exact List.mem_cons_of_mem _ (h.hidden k hk)
  · exact h.ensure _
  · exact fun t place _ ht => ⟨ht.listed, ht.hidden⟩

theorem Made.sweep {s : Store} (h : s.Made a) (now : Nat) : (s.sweep now).Made a := by
  refine ⟨fun c m hm => ?_, fun k hk => ?_⟩
  · obtain ⟨hl, hd⟩ := lists_sweep.mp hm
    obtain ⟨e, body, he, hc, rfl, hs⟩ := h.listed c m hl
    rw [due_made he] at hd
    refine ⟨e, body, he, hc, rfl, List.mem_filter.mpr ⟨hs, ?_⟩⟩
    simpa using h.not_due he hd
  · obtain ⟨hk, hd⟩ := List.mem_filter.mp hk
    exact List.mem_filter.mpr ⟨h.hidden k hk, hd⟩

theorem Made.note {s : Store} (h : s.Made a) {e : Envelope} (he : a.rows.has e = true)
    {ref : Nat} (hr : ∀ v ∈ s.convos, v.ref = ref → v.cid = e.cid a.name) (body : Body) :
    (s.note (.made a e body) ref e).Made a := by
  refine ⟨fun c m hm => ?_, fun k hk => List.mem_cons_of_mem _ (h.hidden k hk)⟩
  rcases lists_note.mp hm with hm | ⟨rfl, v, hv, hvr, hc⟩
  · obtain ⟨d, b, hd, hc, hb, hs⟩ := h.listed c m hm
    exact ⟨d, b, hd, hc, hb, List.mem_cons_of_mem _ hs⟩
  · exact ⟨e, body, he, (hr v hv hvr).symm.trans hc, rfl, List.mem_cons_self⟩

theorem Made.pushMessage {s : Store} (h : s.Made a) {i : Waiting} (hi : a.rows.has i.env = true)
    {ref : Option Nat}
    (hr : ∀ r, ref = some r → ∀ v ∈ s.convos, v.ref = r → v.cid = i.env.cid a.name) (body : Body) :
    (s.pushMessage (.made a i.env body) i ref).Made a := by
  cases ref with
  | none => exact h.mono (fun _ _ hm => hm) (fun k hk => List.mem_cons_of_mem _ hk) rfl
  | some r =>
    have hn := h.note hi (hr r rfl) body
    simp only [Store.pushMessage]
    split
    · exact hn.sweep _
    · exact hn

theorem made_step (s : Store) (e : Store.Event) (s' : Store) (hf : s.Filed a) (h : s.Made a)
    (hs : s.step a e = some s') : s'.Made a := by
  cases store_moves hs with
  | arrived => exact h.ingest _ _
  | rostered => exact (h.ensure _).mono (fun _ _ hm => hm) (fun k hk => hk) rfl
  | @pushed i ref alert body hi hp =>
    have hw : ({ s with waiting := s.waiting.erase i } : Store).Made a := ⟨h.listed, h.hidden⟩
    apply hw.pushMessage (hf.waiting i hi)
    rintro r rfl
    exact (hf.placed i hi r hp).2
  | ensured => exact h.ensure _
  | loaded => exact (h.ensure _).mono (fun _ _ hm => hm) (fun k hk => hk) rfl
  | @took l e rest more =>
    have hr : (s.replace l (.paging rest more) (e :: l.taken)).Made a := ⟨h.listed, h.hidden⟩
    exact hr.ingest e _
  | dropped => exact h.mono (fun _ _ hm => (lists_drop.mp hm).1) (fun k hk => hk) rfl
  | swept => exact h.sweep _
  | _ => exact ⟨h.listed, h.hidden⟩

/-- The keys of the messages in the lists. -/
def keys (s : Store) : List Key := s.convos.flatMap fun v => v.messages.map (msgKeyFor v.cid)

/-- Each noted key is that of a message in its conversation's list, or was noted
since its sender was blocked. -/
def Coherent (s : Store) : Prop := ∀ k ∈ s.seen, k ∈ s.keys ∨ k ∈ s.hidden

/-- The envelope is not passed over as one of the user's own to someone blocked. -/
def plain (me : String) (e : Envelope) (s : Store) : Bool :=
  s.seen.contains e.key || !s.blocks me e || s.blocked.contains e.sender

/-- A message is pushed to a conversation that is there, and a conversation is
dropped once what it lists was noted for its senders being blocked: if it lists
nothing, for one. -/
def careful (a : Account) (s : Store) : Store.Event → Bool
  | .arrive e => s.plain a.name e
  | .next l =>
    match l.fetch with
    | .paging (e :: _) _ => s.plain a.name e
    | _ => true
  | .push i _ =>
    match i.place with
    | .convo ref => s.convos.any (fun v => ref == some v.ref) || s.keys.contains i.env.key ||
        s.hidden.contains i.env.key
    | .roster => true
  | .drop g => s.convos.all fun v => v.cid != .group g ||
      v.messages.all fun m => s.hidden.contains (msgKeyFor v.cid m)
  | _ => true

theorem mem_keys {k : Key} {s : Store} : k ∈ s.keys ↔ ∃ c m, s.Lists c m ∧ msgKeyFor c m = k := by
  simp only [keys, List.mem_flatMap, List.mem_map]
  constructor
  · rintro ⟨v, hv, m, hm, hk⟩
    exact ⟨v.cid, m, ⟨v, hv, rfl, hm⟩, hk⟩
  · rintro ⟨c, m, ⟨v, hv, rfl, hm⟩, hk⟩
    exact ⟨v, hv, m, hm, hk⟩

theorem mem_keys_of_lists {c : Cid} {m : Message} {s : Store} (h : s.Lists c m) :
    msgKeyFor c m ∈ s.keys := mem_keys.mpr ⟨c, m, h, rfl⟩

theorem Made.seen_of_key {s : Store} (h : s.Made a) {k : Key} (hk : k ∈ s.keys) : k ∈ s.seen := by
  obtain ⟨c, m, hl, rfl⟩ := mem_keys.mp hk
  obtain ⟨e, body, -, rfl, rfl, hs⟩ := h.listed c m hl
  rw [key_made]
  exact hs

theorem Coherent.same {s t : Store} (h : s.Coherent) (hl : ∀ c m, s.Lists c m → t.Lists c m)
    (hk : t.seen = s.seen) (hh : t.hidden = s.hidden) : t.Coherent := by
  intro k hmem
  rw [hk] at hmem
  rw [hh]
  rcases h k hmem with hkey | hkey
  · obtain ⟨c, m, hm, rfl⟩ := mem_keys.mp hkey
    exact .inl (mem_keys_of_lists (hl c m hm))
  · exact .inr hkey

theorem Coherent.ensure {s : Store} (h : s.Coherent) (c : Cid) : (s.ensure c).Coherent := by
  refine h.same (fun _ _ => lists_ensure.mpr) ?_ ?_ <;> rw [ensure_eq]

theorem coherent_ingest {s : Store} (hm : s.Made a) (h : s.Coherent) (e : Envelope)
    (load : Option Nat) :
    (s.ingest a.name e load).Coherent ↔ s.plain a.name e = true := by
  unfold plain
  rcases store_ingest_cases a.name e load s with
    ⟨hk, hq⟩ | ⟨hk, hb, hq⟩ | ⟨-, hb, t, place, ht, -, hq⟩
  · rw [hq]
    simp [h, hk]
  · rw [hq]
    have hseen : s.seen.contains e.key = false := by simpa using hk
    rw [hseen, hb, Bool.not_true, Bool.false_or, Bool.false_or]
    constructor
    · intro hc
      rcases hc e.key List.mem_cons_self with hkey | hkey
      · exact absurd (hm.seen_of_key hkey) hk
      · by_contra hs
        rw [if_neg hs] at hkey
        exact hk (hm.hidden _ hkey)
    · intro hs k hmem
      simp only [hs, if_true]
      rcases List.mem_cons.mp hmem with rfl | hmem
      · exact .inr List.mem_cons_self
      · exact (h k hmem).imp_right (List.mem_cons_of_mem _)
  · have hct : t.Coherent := by
      rcases ht with rfl | rfl
      · exact h
      · exact h.ensure _
    rw [hq]
    have : ({ t with waiting := t.waiting ++ [⟨e, place, load⟩] } : Store).Coherent := hct
    simp [this, hb]

theorem Coherent.sweep {s : Store} (h : s.Coherent) (now : Nat) : (s.sweep now).Coherent := by
  intro k hk
  obtain ⟨hk, hd⟩ := List.mem_filter.mp hk
  have hnot : k ∉ s.dueKeys now := by simpa using hd
  rcases h k hk with hkey | hkey
  · obtain ⟨c, m, hl, rfl⟩ := mem_keys.mp hkey
    refine .inl (mem_keys_of_lists (lists_sweep.mpr ⟨hl, ?_⟩))
    by_contra hdue
    exact hnot (mem_dueKeys.mpr ⟨c, m, hl, by simpa using hdue, rfl⟩)
  · exact .inr (List.mem_filter.mpr ⟨hkey, hd⟩)

theorem coherent_note {s : Store} (h : s.Coherent) {e : Envelope} {ref : Nat}
    (hr : ∀ v ∈ s.convos, v.ref = ref → v.cid = e.cid a.name) (body : Body) :
    (s.note (.made a e body) ref e).Coherent ↔
      (∃ v ∈ s.convos, v.ref = ref) ∨ e.key ∈ s.keys ∨ e.key ∈ s.hidden := by
  constructor
  · intro hc
    rcases hc e.key List.mem_cons_self with hkey | hkey
    · obtain ⟨c, m, hl, hk⟩ := mem_keys.mp hkey
      rcases lists_note.mp hl with hl | ⟨-, v, hv, hvr, -⟩
      · exact .inr (.inl (mem_keys.mpr ⟨c, m, hl, hk⟩))
      · exact .inl ⟨v, hv, hvr⟩
    · exact .inr (.inr hkey)
  · intro hc k hk
    have hgrow : ∀ k ∈ s.keys, k ∈ (s.note (.made a e body) ref e).keys := by
      intro k hk
      obtain ⟨c, m, hl, rfl⟩ := mem_keys.mp hk
      exact mem_keys_of_lists (lists_note.mpr (.inl hl))
    rcases List.mem_cons.mp hk with rfl | hk
    · rcases hc with ⟨v, hv, hvr⟩ | hkey | hkey
      · left
        rw [← key_made a e body]
        exact mem_keys_of_lists (lists_note.mpr (.inr ⟨rfl, v, hv, hvr, hr v hv hvr⟩))
      · exact .inl (hgrow _ hkey)
      · exact .inr hkey
    · exact (h k hk).imp_left (hgrow k)

/-- Sweeping after a message that was due does not make up for a lost list. -/
theorem coherent_push {s : Store} (h : s.Coherent) {i : Waiting} {ref : Option Nat}
    (hr : ∀ r, ref = some r → ∀ v ∈ s.convos, v.ref = r → v.cid = i.env.cid a.name)
    (body : Body) :
    (s.pushMessage (.made a i.env body) i ref).Coherent ↔
      (s.convos.any (fun v => ref == some v.ref) || s.keys.contains i.env.key ||
        s.hidden.contains i.env.key) = true := by
  simp only [Bool.or_eq_true, List.contains_iff_mem, or_assoc]
  cases ref with
  | none =>
    have hnone : (s.convos.any fun v => (none : Option Nat) == some v.ref) = false := by simp
    simp only [hnone, Bool.false_eq_true, false_or]
    constructor
    · intro hc
      exact hc i.env.key List.mem_cons_self
    · intro hc k hk
      rcases List.mem_cons.mp hk with rfl | hk
      · exact hc
      · exact h k hk
  | some r =>
    have hany : (s.convos.any fun v => some r == some v.ref) = true ↔ ∃ v ∈ s.convos, v.ref = r := by
      simp only [List.any_eq_true, beq_iff_eq, Option.some.injEq, eq_comm (a := r)]
    rw [hany, ← coherent_note h (hr r rfl) body]
    simp only [Store.pushMessage]
    split
    · rename_i hdue
      refine ⟨fun hc => ?_, fun hc => hc.sweep _⟩
      rw [coherent_note h (hr r rfl) body]
      by_contra hnot
      push Not at hnot
      obtain ⟨hv, hkey, hhid⟩ := hnot
      have hmem : i.env.key ∈ ((s.note (.made a i.env body) r i.env).sweep s.clock).seen := by
        refine List.mem_filter.mpr ⟨List.mem_cons_self, ?_⟩
        simp only [Bool.not_eq_true', List.contains_eq_mem, decide_eq_false_iff_not]
        intro hd
        obtain ⟨c, m, hl, -, hk⟩ := mem_dueKeys.mp hd
        rcases lists_note.mp hl with hl | ⟨-, v, hmv, hvr, -⟩
        · exact hkey (mem_keys.mpr ⟨c, m, hl, hk⟩)
        · exact hv v hmv hvr
      rcases hc _ hmem with hk | hk
      · obtain ⟨c, m, hl, hk⟩ := mem_keys.mp hk
        rcases lists_note.mp (lists_sweep.mp hl).1 with hl | ⟨-, v, hmv, hvr, -⟩
        · exact hkey (mem_keys.mpr ⟨c, m, hl, hk⟩)
        · exact hv v hmv hvr
      · exact hhid (List.mem_filter.mp hk).1
    · rfl

theorem coherent_drop {s : Store} (hm : s.Made a) (h : s.Coherent) (g : Nat) :
    ({ s with convos := s.convos.filter fun v => v.cid != .group g } : Store).Coherent ↔
      (s.convos.all fun v => v.cid != .group g ||
        v.messages.all fun m => s.hidden.contains (msgKeyFor v.cid m)) = true := by
  simp only [List.all_eq_true, Bool.or_eq_true, bne_iff_ne, ne_eq, List.contains_iff_mem]
  constructor
  · intro hc v hv
    by_cases hg : v.cid = .group g
    · right
      intro m hmem
      have hl : s.Lists v.cid m := ⟨v, hv, rfl, hmem⟩
      rcases hc _ (hm.seen_of_key (mem_keys_of_lists hl)) with hk | hk
      · obtain ⟨c, n, hn, hk⟩ := mem_keys.mp hk
        obtain ⟨hn, hne⟩ := lists_drop.mp hn
        rw [hg] at hk
        cases c with
        | dm peer => cases hk
        | group g' =>
          injection hk with hgg
          rw [hgg] at hne
          exact absurd rfl hne
      · exact hk
    · exact .inl hg
  · intro hc k hk
    rcases h k hk with hkey | hkey
    · obtain ⟨c, m, ⟨v, hv, rfl, hmem⟩, rfl⟩ := mem_keys.mp hkey
      rcases hc v hv with hg | hall
      · exact .inl (mem_keys_of_lists (lists_drop.mpr ⟨⟨v, hv, rfl, hmem⟩, hg⟩))
      · exact .inr (hall m hmem)
    · exact .inr hkey

theorem coherent_step (s : Store) (e : Store.Event) (s' : Store) (hk : s.Filed a ∧ s.Made a)
    (h : s.Coherent) (hs : s.step a e = some s') :
    (s'.Filed a ∧ s'.Made a) ∧ (s'.Coherent ↔ s.careful a e = true) := by
  obtain ⟨hf, hm⟩ := hk
  refine ⟨⟨filed_step s e s' hf hs, made_step s e s' hf hm hs⟩, ?_⟩
  have hquiet : s'.Coherent → s.careful a e = true → (s'.Coherent ↔ s.careful a e = true) :=
    fun hc hok => ⟨fun _ => hok, fun _ => hc⟩
  cases store_moves hs with
  | arrived => exact coherent_ingest hm h _ _
  | rostered => exact hquiet ((h.ensure _).same (fun _ _ hl => hl) rfl rfl) rfl
  | @pushed i ref alert body hi hp =>
    have hc : ({ s with waiting := s.waiting.erase i } : Store).Coherent := h
    simp only [careful, hp]
    refine coherent_push hc ?_ body
    rintro r rfl
    exact (hf.placed i hi r hp).2
  | ensured => exact hquiet (h.ensure _) rfl
  | loaded => exact hquiet ((h.ensure _).same (fun _ _ hl => hl) rfl rfl) rfl
  | @took l e rest more hl hfetch =>
    have hr : (s.replace l (.paging rest more) (e :: l.taken)).Made a := ⟨hm.listed, hm.hidden⟩
    have hc : (s.replace l (.paging rest more) (e :: l.taken)).Coherent := h
    simp only [careful, hfetch]
    exact coherent_ingest hr hc e _
  | dropped g => exact coherent_drop hm h g
  | swept => exact hquiet (h.sweep _) rfl
  | _ => exact hquiet h rfl

/-- A load that is through shows what it was given: all that has not run out and
did not arrive while its sender was blocked. -/
def Shown (a : Account) (s : Store) : Prop :=
  ∀ l ∈ s.loads, l.fetch = .paging [] none → s.free l = true → ∀ e ∈ l.taken,
    e.expired s.clock = false → e.key ∉ s.hidden →
      ∃ m, s.Lists (e.cid a.name) m ∧ m.origin = (a.relay, e)

/-- No ingest that a load waits for comes to nothing. -/
def fruitful : Store.Event → Bool
  | .lose i => i.load.isNone
  | _ => true

def Settled (e : Envelope) (s : Store) : Prop :=
  e.expired s.clock = true ∨ e.key ∈ s.keys ∨ e.key ∈ s.hidden

/-- What a load has gone through is settled or still waits. -/
def Answered (s : Store) : Prop :=
  ∀ l ∈ s.loads, ∀ e ∈ l.taken,
    s.Settled e ∨ ∃ i ∈ s.waiting, i.env = e ∧ i.load = some l.id

theorem Answered.shown {s : Store} (h : s.Answered) (hf : s.Filed a) (hm : s.Made a) :
    s.Shown a := by
  intro l hl _ hfree e he hx hh
  rcases h l hl e he with (hex | hkey | hkey) | ⟨i, hi, -, hload⟩
  · rw [hx] at hex
    cases hex
  · obtain ⟨c, m, hlist, hk⟩ := mem_keys.mp hkey
    obtain ⟨rfl, body, rfl⟩ := hm.of_key (hf.taken l hl e he) hlist hk
    exact ⟨_, hlist, rfl⟩
  · exact absurd hkey hh
  · have := List.all_eq_true.mp hfree i hi
    simp [hload] at this

/-- What stays listed, noted and late stays settled. -/
theorem Settled.mono {s t : Store} {e : Envelope} (h : s.Settled e) (hc : s.clock ≤ t.clock)
    (hl : ∀ c m, s.Lists c m → t.Lists c m) (hh : ∀ k ∈ s.hidden, k ∈ t.hidden) :
    t.Settled e := by
  rcases h with hx | hk | hk
  · left
    unfold Envelope.expired at hx ⊢
    cases ht : e.expires with
    | none => simp [ht] at hx
    | some d =>
      simp only [ht, Option.any_some, decide_eq_true_eq] at hx ⊢
      omega
  · obtain ⟨c, m, hm, hk⟩ := mem_keys.mp hk
    exact .inr (.inl (mem_keys.mpr ⟨c, m, hl c m hm, hk⟩))
  · exact .inr (.inr (hh _ hk))

theorem Settled.sweep {s : Store} {e : Envelope} (h : s.Settled e) (hm : s.Made a)
    (he : a.rows.has e = true) : (s.sweep s.clock).Settled e := by
  by_cases hx : e.expired s.clock = true
  · exact .inl hx
  · have hx : e.expired s.clock = false := by simpa using hx
    rcases h with hex | hk | hk
    · exact .inl hex
    · obtain ⟨c, m, hl, hk⟩ := mem_keys.mp hk
      obtain ⟨-, body, rfl⟩ := hm.of_key he hl hk
      refine .inr (.inl (mem_keys.mpr ⟨c, _, lists_sweep.mpr ⟨hl, ?_⟩, hk⟩))
      rw [due_made he]
      exact hx
    · refine .inr (.inr (List.mem_filter.mpr ⟨hk, ?_⟩))
      simpa using hm.not_due he hx

theorem Settled.ensure {s : Store} {e : Envelope} (h : s.Settled e) (c : Cid) :
    (s.ensure c).Settled e := by
  rw [ensure_eq]
  exact h.mono (Nat.le_refl _) (fun _ _ => lists_ensure.mpr) fun k hk => hk

theorem Settled.ingest {s : Store} {d : Envelope} (h : s.Settled d) (e : Envelope)
    (load : Option Nat) : (s.ingest a.name e load).Settled d := by
  apply ingest_keeps h
  · refine h.mono (Nat.le_refl _) (fun _ _ hl => hl) fun k hk => ?_
    dsimp only
    split
    · exact List.mem_cons_of_mem _ hk
    · exact hk
  · exact h.ensure _
  · exact fun t place _ ht => ht

/-- An ingest that starts passes over what is settled, notes who is blocked, or waits. -/
theorem settled_ingest {s : Store} (hc : s.Coherent) {e : Envelope}
    (hp : s.plain a.name e = true) (load : Option Nat) :
    (s.ingest a.name e load).Settled e ∨
      ∃ i ∈ (s.ingest a.name e load).waiting, i.env = e ∧ i.load = load := by
  rcases store_ingest_cases a.name e load s with
    ⟨hk, hq⟩ | ⟨hk, hb, hq⟩ | ⟨-, -, t, place, -, -, hq⟩
  · rw [hq]
    exact .inl (.inr (hc e.key hk))
  · rw [hq]
    have hs : s.blocked.contains e.sender = true := by simpa [plain, hk, hb] using hp
    left
    right; right
    simp only [hs, if_true]
    exact List.mem_cons_self
  · rw [hq]
    exact .inr ⟨_, List.mem_append_right _ (List.mem_singleton.mpr rfl), rfl, rfl⟩

theorem ingest_waiting {s : Store} {i : Waiting} (hi : i ∈ s.waiting) (e : Envelope)
    (load : Option Nat) : i ∈ (s.ingest a.name e load).waiting := by
  apply ingest_keeps (P := fun t => i ∈ t.waiting) hi hi
  · rw [ensure_eq]
    exact hi
  · exact fun t place _ ht => List.mem_append_left _ ht

theorem ingest_loads {s : Store} (e : Envelope) (load : Option Nat) :
    (s.ingest a.name e load).loads = s.loads := by
  apply ingest_keeps (P := fun t => t.loads = s.loads) rfl rfl
  · rw [ensure_eq]
  · exact fun t place _ ht => ht

theorem pushMessage_frame (m : Message) (i : Waiting) (ref : Option Nat) (s : Store) :
    (s.pushMessage m i ref).waiting = s.waiting ∧
      ∀ l ∈ (s.pushMessage m i ref).loads, l ∈ s.loads := by
  unfold pushMessage
  split
  · exact ⟨rfl, fun l hl => List.mem_of_mem_filter hl⟩
  · dsimp only
    split <;> exact ⟨rfl, fun l hl => hl⟩

theorem Settled.pushMessage {s : Store} {d : Envelope} (h : s.Settled d) (hm : s.Made a)
    (hd : a.rows.has d = true) {i : Waiting} (hi : a.rows.has i.env = true) {ref : Option Nat}
    (hr : ∀ r, ref = some r → ∀ v ∈ s.convos, v.ref = r → v.cid = i.env.cid a.name) (body : Body) :
    (s.pushMessage (.made a i.env body) i ref).Settled d := by
  cases ref with
  | none => exact h.mono (Nat.le_refl _) (fun _ _ hl => hl) fun k hk => hk
  | some r =>
    have hn : (s.note (.made a i.env body) r i.env).Settled d :=
      h.mono (Nat.le_refl _) (fun _ _ hl => lists_note.mpr (.inl hl)) fun k hk => hk
    simp only [Store.pushMessage]
    split
    · exact hn.sweep (hm.note hi (hr r rfl) body) hd
    · exact hn

/-- The push of a message settles its envelope. -/
theorem settled_push {s : Store} (hm : s.Made a) {i : Waiting} (hi : a.rows.has i.env = true)
    {ref : Option Nat}
    (hr : ∀ r, ref = some r → ∀ v ∈ s.convos, v.ref = r → v.cid = i.env.cid a.name) (body : Body)
    (hok : (s.convos.any (fun v => ref == some v.ref) || s.keys.contains i.env.key ||
      s.hidden.contains i.env.key) = true) :
    (s.pushMessage (.made a i.env body) i ref).Settled i.env := by
  simp only [Bool.or_eq_true, List.contains_iff_mem, or_assoc] at hok
  rcases hok with hv | hk
  · obtain ⟨v, hmem, hvr⟩ := List.any_eq_true.mp hv
    have hvr : ref = some v.ref := by simpa using hvr
    subst hvr
    have hn : (s.note (.made a i.env body) v.ref i.env).Settled i.env := by
      right; left
      rw [← key_made a i.env body]
      exact mem_keys_of_lists (lists_note.mpr (.inr ⟨rfl, v, hmem, rfl, hr _ rfl v hmem rfl⟩))
    simp only [pushMessage]
    split
    · exact hn.sweep (hm.note hi (hr _ rfl) body) hi
    · exact hn
  · have hset : s.Settled i.env := .inr hk
    exact hset.pushMessage hm hi hi hr body

theorem Answered.mono {s t : Store} (h : s.Answered) (hf : s.Filed a)
    (hl : ∀ l ∈ t.loads, ∀ e ∈ l.taken, ∃ l' ∈ s.loads, l'.id = l.id ∧ e ∈ l'.taken)
    (hset : ∀ e, a.rows.has e = true → s.Settled e → t.Settled e)
    (hw : ∀ i ∈ s.waiting, t.Settled i.env ∨ i.load = none ∨
      ∃ j ∈ t.waiting, j.env = i.env ∧ j.load = i.load) : t.Answered := by
  intro l hlm e he
  obtain ⟨l', hl', hid, he'⟩ := hl l hlm e he
  rcases h l' hl' e he' with hs | ⟨i, hi, rfl, hload⟩
  · exact .inl (hset e (hf.taken l' hl' e he') hs)
  · rcases hw i hi with hs | hnone | ⟨j, hj, hje, hjl⟩
    · exact .inl hs
    · rw [hnone] at hload
      cases hload
    · exact .inr ⟨j, hj, hje, by rw [hjl, hload, hid]⟩

/-- The same with the ingests left as they are. -/
theorem Answered.calm {s t : Store} (h : s.Answered) (hf : s.Filed a)
    (hl : ∀ l ∈ t.loads, ∀ e ∈ l.taken, ∃ l' ∈ s.loads, l'.id = l.id ∧ e ∈ l'.taken)
    (hset : ∀ e, a.rows.has e = true → s.Settled e → t.Settled e)
    (hw : ∀ i ∈ s.waiting, i ∈ t.waiting) : t.Answered :=
  h.mono hf hl hset fun i hi => .inr (.inr ⟨i, hw i hi, rfl, rfl⟩)

theorem Answered.ensure {s : Store} (h : s.Answered) (hf : s.Filed a) (c : Cid) :
    (s.ensure c).Answered := by
  refine h.calm hf (fun l hl d hd => ?_) (fun d _ hd => hd.ensure c) fun i hi => ?_
  · rw [ensure_eq] at hl
    exact ⟨l, hl, rfl, hd⟩
  · rw [ensure_eq]
    exact hi

theorem Answered.unload {s : Store} (h : s.Answered) (hf : s.Filed a) (l : Loading) :
    ({ s with loads := s.loads.erase l } : Store).Answered :=
  h.calm hf (fun l' hl' _ hd => ⟨l', List.mem_of_mem_erase hl', rfl, hd⟩) (fun _ _ hd => hd)
    fun _ hi => hi

/-- A load that fetches on has gone through what it had gone through. -/
theorem Answered.replace {s : Store} (h : s.Answered) (hf : s.Filed a) {l : Loading}
    (hl : l ∈ s.loads) (fetch : Fetch) : (s.replace l fetch l.taken).Answered := by
  refine h.calm hf (fun l' hl' d hd => ?_) (fun _ _ hd => hd) fun _ hi => hi
  rcases List.mem_append.mp hl' with hl' | hl'
  · exact ⟨l', List.mem_of_mem_erase hl', rfl, hd⟩
  · rw [List.mem_singleton.mp hl'] at hd ⊢
    exact ⟨l, hl, rfl, hd⟩

/-- The envelope a load goes through is settled at once, or waits for that load. -/
theorem Answered.took {s : Store} (h : s.Answered) (hc : s.Coherent) {l : Loading}
    (hl : l ∈ s.loads) {e : Envelope} (hp : s.plain a.name e = true) (fetch : Fetch) :
    ((s.replace l fetch (e :: l.taken)).ingest a.name e (some l.id)).Answered := by
  have hco : (s.replace l fetch (e :: l.taken)).Coherent := hc
  intro l' hl' d hd
  rw [ingest_loads] at hl'
  have hold : ∀ l₀ ∈ s.loads, l₀.id = l'.id → d ∈ l₀.taken →
      ((s.replace l fetch (e :: l.taken)).ingest a.name e (some l.id)).Settled d ∨
        ∃ i ∈ ((s.replace l fetch (e :: l.taken)).ingest a.name e (some l.id)).waiting,
          i.env = d ∧ i.load = some l'.id := by
    intro l₀ hl₀ hid hd₀
    rcases h l₀ hl₀ d hd₀ with hset | ⟨i, hi, hie, hload⟩
    · have hset : (s.replace l fetch (e :: l.taken)).Settled d := hset
      exact .inl (hset.ingest e _)
    · have hi : i ∈ (s.replace l fetch (e :: l.taken)).waiting := hi
      exact .inr ⟨i, ingest_waiting hi _ _, hie, by rw [hload, hid]⟩
  rcases List.mem_append.mp hl' with hl' | hl'
  · exact hold l' (List.mem_of_mem_erase hl') rfl hd
  · rw [List.mem_singleton.mp hl'] at hd hold ⊢
    rcases List.mem_cons.mp hd with rfl | hd
    · exact settled_ingest hco hp _
    · exact hold l hl rfl hd

/-- The ingest that ends has settled what it was about. -/
theorem Answered.pushed {s : Store} (h : s.Answered) (hf : s.Filed a) (hm : s.Made a)
    {i : Waiting} {ref : Option Nat} (hi : i ∈ s.waiting) (hp : i.place = .convo ref) (body : Body)
    (hok : (s.convos.any (fun v => ref == some v.ref) || s.keys.contains i.env.key ||
      s.hidden.contains i.env.key) = true) :
    (({ s with waiting := s.waiting.erase i } : Store).pushMessage (.made a i.env body) i
      ref).Answered := by
  have hw : ({ s with waiting := s.waiting.erase i } : Store).Made a := ⟨hm.listed, hm.hidden⟩
  have hr : ∀ r, ref = some r → ∀ v ∈ s.convos, v.ref = r → v.cid = i.env.cid a.name := by
    rintro r rfl
    exact (hf.placed i hi r hp).2
  obtain ⟨hwait, hloads⟩ := pushMessage_frame (.made a i.env body) i ref
    { s with waiting := s.waiting.erase i }
  refine h.mono hf (fun l hl d hd => ⟨l, hloads l hl, rfl, hd⟩) ?_ fun j hj => ?_
  · intro d hd hset
    have hset : ({ s with waiting := s.waiting.erase i } : Store).Settled d := hset
    exact hset.pushMessage hw hd (hf.waiting i hi) hr body
  · by_cases hij : j = i
    · left
      rw [hij]
      exact settled_push hw (hf.waiting i hi) hr body hok
    · refine .inr (.inr ⟨j, ?_, rfl, rfl⟩)
      rw [hwait]
      exact (List.mem_erase_of_ne hij).mpr hj

theorem answered_step (s : Store) (e : Store.Event) (s' : Store)
    (hk : s.Filed a ∧ s.Made a ∧ s.Coherent ∧ s.Answered)
    (hok : s.careful a e = true ∧ fruitful e = true) (hs : s.step a e = some s') :
    s'.Filed a ∧ s'.Made a ∧ s'.Coherent ∧ s'.Answered := by
  obtain ⟨hf, hm, hc, h⟩ := hk
  obtain ⟨⟨hf', hm'⟩, hc'⟩ := coherent_step s e s' ⟨hf, hm⟩ hc hs
  have hco : s'.Coherent := hc'.mpr hok.1
  refine ⟨hf', hm', hco, ?_⟩
  have hsame : ∀ l ∈ s.loads, ∀ d ∈ l.taken, ∃ l' ∈ s.loads, l'.id = l.id ∧ d ∈ l'.taken :=
    fun l hl _ hd => ⟨l, hl, rfl, hd⟩
  cases store_moves hs with
  | arrived =>
    refine h.calm hf (fun l hl d hd => ?_) (fun d _ hd => hd.ingest _ _) fun i hi =>
      ingest_waiting hi _ _
    rw [ingest_loads] at hl
    exact ⟨l, hl, rfl, hd⟩
  | @rostered i hi =>
    refine (h.ensure hf (i.env.cid a.name)).mono (hf.ensure _) (fun l hl d hd => ⟨l, hl, rfl, hd⟩)
      (fun _ _ hd => hd) fun j hj => ?_
    rw [ensure_eq] at hj
    right; right
    by_cases hij : j = i
    · refine ⟨_, List.mem_append_right _ (List.mem_singleton.mpr rfl), ?_, ?_⟩ <;> rw [hij]
    · exact ⟨j, List.mem_append_left _ ((List.mem_erase_of_ne hij).mpr hj), rfl, rfl⟩
  | pushed hi hp =>
    have hlands := hok.1
    simp only [careful, hp] at hlands
    exact h.pushed hf hm hi hp _ hlands
  | @lost i =>
    refine h.mono hf hsame (fun _ _ hd => hd) fun j hj => ?_
    right
    by_cases hij : j = i
    · left
      rw [hij]
      exact Option.isNone_iff_eq_none.mp hok.2
    · exact .inr ⟨j, (List.mem_erase_of_ne hij).mpr hj, rfl, rfl⟩
  | ensured c => exact h.ensure hf c
  | loaded c =>
    refine (h.ensure hf c).calm (hf.ensure c) (fun l hl d hd => ?_) (fun _ _ hd => hd) fun _ hi => hi
    rcases List.mem_append.mp hl with hl | hl
    · exact ⟨l, hl, rfl, hd⟩
    · rw [List.mem_singleton.mp hl] at hd
      cases hd
  | served hl => exact h.replace hf hl _
  | took hl hfetch =>
    have hplain := hok.1
    simp only [careful, hfetch] at hplain
    exact h.took hc hl hplain _
  | turned hl => exact h.replace hf hl _
  | finished | failed => exact h.unload hf _
  | dropped g =>
    refine h.calm hf hsame (fun d _ hset => ?_) fun _ hi => hi
    rcases hset with hx | hk | hk
    · exact .inl hx
    · exact .inr (hco d.key (hm.seen_of_key hk))
    · exact .inr (.inr hk)
  | blocked | unblocked => exact h.calm hf hsame (fun _ _ hd => hd) fun _ hi => hi
  | ticked n =>
    refine h.calm hf hsame (fun d _ hset => ?_) fun _ hi => hi
    exact hset.mono (Nat.le_add_right _ _) (fun _ _ hl => hl) fun k hk => hk
  | swept => exact h.calm hf hsame (fun d hd hset => hset.sweep hm hd) fun _ hi => hi

theorem start_made (a : Account) (blocked : List String) (clock : Nat) :
    (start blocked clock).Filed a ∧ (start blocked clock).Made a ∧ (start blocked clock).Coherent ∧
      (start blocked clock).Answered := by
  refine ⟨⟨List.nodup_nil, ?_, ?_, ?_, ?_, ?_⟩, ⟨?_, ?_⟩, ?_, ?_⟩ <;> simp [start, Lists, Coherent,
    Answered]

/-- The keys noted are coherent with what is held, in all states of a run, exactly
when its steps are careful; if no ingest of a load comes to nothing, each load
that is through then shows what it was given. -/
theorem seen_coherent_iff (a : Account) (blocked : List String) (clock : Nat)
    (es : List Store.Event) {s : Store} (hrun : run (step a) (start blocked clock) es = some s) :
    ((∀ as u, as <+: es → run (step a) (start blocked clock) as = some u → u.Coherent) ↔
        Meets (step a) (fun s e => s.careful a e = true) (start blocked clock) es) ∧
      (Meets (step a) (fun s e => s.careful a e = true ∧ fruitful e = true) (start blocked clock) es →
        ∀ as u, as <+: es → run (step a) (start blocked clock) as = some u → u.Shown a) := by
  obtain ⟨hf, hm, hc, h⟩ := start_made a blocked clock
  constructor
  · exact throughout_iff coherent_step ⟨hf, hm⟩ hc hrun
  · intro hok as u has hu
    obtain ⟨hf', hm', -, h'⟩ :=
      invariant_meets answered_step ⟨hf, hm, hc, h⟩ (meets_initial has hok) hu
    exact h'.shown hf' hm'

/-- A message in a group, and a member who gets it. -/
def said : Envelope := ⟨1, "bob", .group 7, none⟩

def alice : Account where
  name := "alice"
  relay := 0
  rows := .of [said] (by decide) (by decide)
  pageSize := historyPage
  decode := fun _ _ => some ⟨100, .message, some "hi", none, true⟩

/-- `loadGroup` and its one page. -/
def loaded : List Store.Event :=
  [.load (.group 7), .serve ⟨0, .group 7, .asked 0, []⟩ [said],
    .next ⟨0, .group 7, .paging [said] none, []⟩]

/-- The group is dropped while it is empty. -/
def vacated : List Store.Event :=
  [.ensure (.group 7), .drop 7] ++ loaded ++ [.push ⟨said, .convo (some 1), some 0⟩ false]

theorem seen_coherent_vacated :
    (∀ as u, as <+: vacated → run (step alice) (start [] 0) as = some u → u.Coherent) ∧
      ∀ as u, as <+: vacated → run (step alice) (start [] 0) as = some u → u.Shown alice :=
  ⟨(seen_coherent_iff alice [] 0 vacated rfl).1.mpr (by decide),
    (seen_coherent_iff alice [] 0 vacated rfl).2 (by decide)⟩

/-- Left with a message in it and joined again, the group loads as empty. -/
theorem seen_not_always_coherent :
    ¬ ∀ (a : Account) (blocked : List String) (clock : Nat) (es : List Store.Event) (s : Store),
      run (step a) (start blocked clock) es = some s → s.Coherent ∧ s.Shown a := by
  intro h
  obtain ⟨-, hs⟩ := h alice [] 0 ([.ensure (.group 7), .arrive said,
    .push ⟨said, .convo (some 0), none⟩ false, .drop 7, .ensure (.group 7)] ++ loaded) _ rfl
  obtain ⟨m, ⟨v, hv, -, hm⟩, -⟩ := hs _ List.mem_cons_self rfl rfl said List.mem_cons_self rfl
    (by decide)
  rw [List.mem_singleton.mp hv] at hm
  cases hm

end Store

end Lattix.Client
