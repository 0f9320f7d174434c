import Lattix.Lib.Runs
import Lattix.Client.Paging

namespace Lattix.Client.Recovery
open Lib.Pages Lib.Runs Paging

/-- One conversation: what the relay has of it, what the client lists and notes,
and whose keys the client holds. -/
structure Convo where
  history : List Envelope
  maxId : Nat
  messages : List Envelope
  seen : List Nat
  peers : List String
deriving DecidableEq

/-- Which requests of one load succeed: for its pages in turn, and for the keys
of an envelope's sender, should they be looked up. -/
structure Network where
  pages : Nat → Bool
  keys : Nat → Bool

def Network.fine : Network := ⟨fun _ => true, fun _ => true⟩

namespace Convo

def start (peers : List String) : Convo := ⟨[], 0, [], [], peers⟩

/-- `getPeerKeys`, from cache or by a lookup. -/
def getPeerKeys (net : Network) (e : Envelope) (s : Convo) : Option Convo :=
  if e.sender ∈ s.peers then some s
  else if net.keys e.id then some { s with peers := e.sender :: s.peers }
  else none

def pushMessage (e : Envelope) (s : Convo) : Convo :=
  { s with
    seen := e.id :: s.seen
    maxId := max s.maxId e.id
    messages := (s.messages ++ [e]).insertionSort fun a b => a.id ≤ b.id }

/-- `ingestDm` and `ingestGroup` in a conversation the client has. -/
def ingest (net : Network) (s : Convo) (e : Envelope) : Convo :=
  if e.id ∈ s.seen then s
  else
    match s.getPeerKeys net e with
    | none => s
    | some s => s.pushMessage e

/-- The request for a page; the second component counts those of the load. -/
def fetchPage (pageSize : Nat) (net : Network) (since : Nat) :
    Convo × Nat → Option (List Envelope) × Convo × Nat
  | (s, k) =>
    if net.pages k then (some (page Envelope.id pageSize since s.history), s, k + 1)
    else (none, s, k + 1)

/-- `loadDm` and `loadGroup`, and the pull of a resync: a throw ends the pull
and nothing else. -/
def load (pageSize : Nat) (net : Network) (s : Convo) : Convo :=
  (pullHistory pageSize (fetchPage pageSize net) (fun p e => (p.1.ingest net e, p.2)) maxRounds
    s.maxId (s, 0)).2.1

/-- Someone posts, keys come to hand in another way, or a load runs. -/
inductive Event where
  | post (e : Envelope)
  | learn (u : String)
  | load (net : Network)

def step (pageSize : Nat) (s : Convo) : Event → Option Convo
  | .post e =>
    if 0 < e.id ∧ ∀ d ∈ s.history, d.id < e.id then some { s with history := s.history ++ [e] }
    else none
  | .learn u => some { s with peers := u :: s.peers }
  | .load net => some (s.load pageSize net)

/-! What a load comes to, from its outcomes -/

/-- How many pages are served before one fails. -/
def served (pages : Nat → Bool) : (guard k : Nat) → Nat
  | 0, _ => 0
  | guard + 1, k => if pages k then served pages guard (k + 1) + 1 else 0

def past (s : Convo) : List Envelope := s.history.filter fun e => s.maxId < e.id

/-- The envelopes a load gets to. -/
def reached (pageSize : Nat) (net : Network) (s : Convo) : List Envelope :=
  s.past.take (pageSize * served net.pages maxRounds 0)

/-- The sender's keys are at hand, or there is a lookup that succeeds. -/
def keyed (net : Network) (peers : List String) (xs : List Envelope) (e : Envelope) : Bool :=
  peers.contains e.sender ||
    xs.any fun d => decide (d.id ≤ e.id) && d.sender == e.sender && net.keys d.id

/-- No envelope is taken in after one whose lookup failed. -/
def careful (pageSize : Nat) (s : Convo) : Event → Bool
  | .load net =>
    let xs := s.reached pageSize net
    xs.all fun e => keyed net s.peers xs e ||
      xs.all fun d => !(decide (e.id < d.id) && keyed net s.peers xs d)
  | _ => true

/-- Every envelope up to `maxId` is listed. -/
def Whole (s : Convo) : Prop := ∀ e ∈ s.history, e.id ≤ s.maxId → e ∈ s.messages

structure Kept (s : Convo) : Prop where
  ordered : s.history.Pairwise fun a b => a.id < b.id
  listed : ∀ e ∈ s.messages, e ∈ s.history ∧ e.id ≤ s.maxId
  seen : ∀ i ∈ s.seen, i ≤ s.maxId
  top : s.maxId = 0 ∨ ∃ e ∈ s.history, e.id = s.maxId

variable {pageSize : Nat} {net : Network}

theorem ingest_history (s : Convo) (e : Envelope) : (s.ingest net e).history = s.history := by
  unfold ingest getPeerKeys
  split
  · rfl
  · split
    · rfl
    · rename_i s' h
      split at h
      · cases h
        rfl
      · split at h
        · cases h
          rfl
        · cases h

theorem foldl_history (xs : List Envelope) (s : Convo) :
    (xs.foldl (ingest net) s).history = s.history := by
  induction xs generalizing s with
  | nil => rfl
  | cons e xs ih => rw [List.foldl_cons, ih, ingest_history]

theorem foldl_pair (xs : List Envelope) (s : Convo) (k : Nat) :
    xs.foldl (fun p e => (p.1.ingest net e, p.2)) (s, k) = (xs.foldl (ingest net) s, k) := by
  induction xs generalizing s with
  | nil => rfl
  | cons e xs ih => exact ih (s.ingest net e)

/-- A pull ingests the pages it is served, one envelope after another. -/
theorem pull_foldl {s : Convo} (hs : s.history.Pairwise fun a b => a.id < b.id)
    (guard since k : Nat) :
    (pullHistory pageSize (fetchPage pageSize net) (fun p e => (p.1.ingest net e, p.2)) guard since
      (s, k)).2.1 = ((s.history.filter fun e => since < e.id).take
        (pageSize * served net.pages guard k)).foldl (ingest net) s := by
  induction guard generalizing since s k with
  | zero => simp [pullHistory, served]
  | succ guard ih =>
    rw [pullHistory, fetchPage, served]
    cases hk : net.pages k with
    | false => simp
    | true =>
      simp only [if_true, foldl_pair]
      by_cases hshort : (page Envelope.id pageSize since s.history).length < pageSize
      · rw [if_pos hshort]
        have hlen : (s.history.filter fun e => since < e.id).length < pageSize := by
          simp only [page, List.length_take] at hshort
          omega
        have hle : pageSize ≤ pageSize * (served net.pages guard (k + 1) + 1) :=
          Nat.le_mul_of_pos_right _ (Nat.succ_pos _)
        rw [page, List.take_of_length_le (by omega), List.take_of_length_le (by omega)]
      · rw [if_neg hshort]
        by_cases hne : page Envelope.id pageSize since s.history = []
        · -- only pages of no entries are full and empty
          have hp : pageSize = 0 := by
            rw [hne, List.length_nil] at hshort
            omega
          rw [hne, hp, Nat.zero_mul, List.take_zero]
          rfl
        · rw [List.getLast?_eq_getLast_of_ne_nil hne]
          dsimp only
          rw [ih (by rw [foldl_history]; exact hs), foldl_history, filter_getLast hs hne,
            Nat.mul_add_one, Nat.add_comm (pageSize * _) pageSize, List.take_add,
            List.foldl_append]
          rfl

theorem load_foldl {s : Convo} (hs : s.history.Pairwise fun a b => a.id < b.id) :
    s.load pageSize net = (s.reached pageSize net).foldl (ingest net) s :=
  pull_foldl hs maxRounds s.maxId 0

/-! What a fold of ingests takes in -/

theorem keyed_iff {peers : List String} {xs : List Envelope} {e : Envelope} :
    keyed net peers xs e = true ↔
      e.sender ∈ peers ∨ ∃ d ∈ xs, d.id ≤ e.id ∧ d.sender = e.sender ∧ net.keys d.id = true := by
  simp [keyed, and_assoc]

/-- The first envelope is taken in if its sender's keys can be had. -/
theorem keyed_head {peers : List String} {xs : List Envelope} {e : Envelope}
    (hlt : ∀ d ∈ xs, e.id < d.id) :
    keyed net peers (e :: xs) e = true ↔ e.sender ∈ peers ∨ net.keys e.id = true := by
  rw [keyed_iff]
  refine or_congr_right ⟨?_, fun h => ⟨e, List.mem_cons_self, Nat.le_refl _, rfl, h⟩⟩
  rintro ⟨d, hd, hle, -, hk⟩
  rcases List.mem_cons.mp hd with rfl | hd
  · exact hk
  · exact absurd (hlt d hd) (Nat.not_lt.mpr hle)

/-- The first envelope matters to a later one through the keys that are at hand
once it has been ingested. -/
theorem keyed_tail {peers ps : List String} {xs : List Envelope} {e d : Envelope}
    (hlt : e.id < d.id)
    (hps : ∀ u, u ∈ ps ↔ u ∈ peers ∨ u = e.sender ∧ (e.sender ∈ peers ∨ net.keys e.id = true)) :
    keyed net peers (e :: xs) d = true ↔ keyed net ps xs d = true := by
  rw [keyed_iff, keyed_iff, hps, List.exists_mem_cons_iff]
  constructor
  · rintro (h | ⟨-, he, hk⟩ | h)
    · exact .inl (.inl h)
    · exact .inl (.inr ⟨he.symm, .inr hk⟩)
    · exact .inr h
  · rintro ((h | ⟨he, h | hk⟩) | h)
    · exact .inl h
    · exact .inl (he ▸ h)
    · exact .inr (.inl ⟨Nat.le_of_lt hlt, he.symm, hk⟩)
    · exact .inr (.inr h)

/-- An envelope not seen before is taken in, with its sender's keys at hand
from then on, or it changes nothing. -/
theorem ingest_fresh (net : Network) {s : Convo} {e : Envelope} (hn : e.id ∉ s.seen) :
    ∃ ps, (∀ u, u ∈ ps ↔ u ∈ s.peers ∨ u = e.sender ∧ (e.sender ∈ s.peers ∨ net.keys e.id = true)) ∧
      s.ingest net e = if e.sender ∈ s.peers ∨ net.keys e.id = true then
        ({ s with peers := ps } : Convo).pushMessage e else { s with peers := ps } := by
  by_cases hp : e.sender ∈ s.peers
  · refine ⟨s.peers, fun u => ?_, by simp [ingest, getPeerKeys, hn, hp]⟩
    exact ⟨.inl, fun h => h.elim id fun h => h.1 ▸ hp⟩
  · cases hk : net.keys e.id with
    | true => exact ⟨e.sender :: s.peers, by simp [or_comm], by simp [ingest, getPeerKeys, hn, hp, hk]⟩
    | false => exact ⟨s.peers, by simp [hp], by simp [ingest, getPeerKeys, hn, hp, hk]⟩

/-- What ingesting envelopes in turn comes to. -/
structure Took (net : Network) (xs : List Envelope) (s t : Convo) : Prop where
  messages : ∀ e, e ∈ t.messages ↔ e ∈ s.messages ∨ e ∈ xs ∧ keyed net s.peers xs e = true
  grows : s.maxId ≤ t.maxId
  covers : ∀ e ∈ xs, keyed net s.peers xs e = true → e.id ≤ t.maxId
  top : t.maxId = s.maxId ∨ ∃ e ∈ xs, keyed net s.peers xs e = true ∧ e.id = t.maxId
  seen : ∀ i ∈ t.seen, i ≤ t.maxId

theorem mem_pushMessage {s : Convo} {e d : Envelope} :
    d ∈ (s.pushMessage e).messages ↔ d ∈ s.messages ∨ d = e := by
  simp [pushMessage, List.mem_insertionSort]

theorem foldl_took {xs : List Envelope} {s : Convo} (hs : xs.Pairwise fun a b => a.id < b.id)
    (hpast : ∀ e ∈ xs, s.maxId < e.id) (hseen : ∀ i ∈ s.seen, i ≤ s.maxId) :
    Took net xs s (xs.foldl (ingest net) s) := by
  induction xs generalizing s with
  | nil => exact ⟨by simp, Nat.le_refl _, by simp, .inl rfl, hseen⟩
  | cons e xs ih =>
    obtain ⟨hlt, hs⟩ := List.pairwise_cons.mp hs
    have he : s.maxId < e.id := hpast e List.mem_cons_self
    obtain ⟨ps, hps, hing⟩ := ingest_fresh net fun h =>
      absurd (hseen e.id h) (Nat.not_le.mpr he)
    have hhead : keyed net s.peers (e :: xs) e = true ↔ e.sender ∈ s.peers ∨ net.keys e.id = true :=
      keyed_head hlt
    have htail (d : Envelope) (hd : d ∈ xs) :
        keyed net s.peers (e :: xs) d = true ↔ keyed net ps xs d = true :=
      keyed_tail (hlt d hd) hps
    have hmem (d : Envelope) : (d ∈ e :: xs ∧ keyed net s.peers (e :: xs) d = true) ↔
        d = e ∧ (e.sender ∈ s.peers ∨ net.keys e.id = true) ∨ d ∈ xs ∧ keyed net ps xs d = true := by
      rw [List.mem_cons, or_and_right, and_congr_right (htail d), and_congr_right]
      rintro rfl
      exact hhead
    rw [List.foldl_cons, hing]
    by_cases hk : e.sender ∈ s.peers ∨ net.keys e.id = true
    · rw [if_pos hk]
      have hmax : (({ s with peers := ps } : Convo).pushMessage e).maxId = e.id :=
        Nat.max_eq_right (Nat.le_of_lt he)
      have ht := ih (s := ({ s with peers := ps } : Convo).pushMessage e) hs
        (by rw [hmax]; exact hlt)
        (by
          rw [hmax]
          intro i hi
          rcases List.mem_cons.mp hi with rfl | hi
          · exact Nat.le_refl _
          · exact Nat.le_trans (hseen i hi) (Nat.le_of_lt he))
      have htop := hmax ▸ ht.grows
      refine ⟨fun d => ?_, Nat.le_trans (Nat.le_of_lt he) htop, fun d hd hkd => ?_, ?_, ht.seen⟩
      · rw [ht.messages, mem_pushMessage, hmem, or_assoc]
        simp [hk, pushMessage]
      · rcases (hmem d).mp ⟨hd, hkd⟩ with ⟨rfl, -⟩ | ⟨hd, hkd⟩
        · exact htop
        · exact ht.covers d hd hkd
      · rcases ht.top with h | ⟨d, hd, hkd, h⟩
        · exact .inr ⟨e, List.mem_cons_self, hhead.mpr hk, (h.trans hmax).symm⟩
        · exact .inr ⟨d, List.mem_cons_of_mem _ hd, (htail d hd).mpr hkd, h⟩
    · rw [if_neg hk]
      have ht := ih (s := { s with peers := ps }) hs
        (fun d hd => Nat.lt_trans he (hlt d hd)) hseen
      refine ⟨fun d => ?_, ht.grows, fun d hd hkd => ?_, ?_, ht.seen⟩
      · rw [ht.messages, hmem]
        simp [hk]
      · rcases (hmem d).mp ⟨hd, hkd⟩ with ⟨-, h⟩ | ⟨hd, hkd⟩
        · exact absurd h hk
        · exact ht.covers d hd hkd
      · rcases ht.top with h | ⟨d, hd, hkd, h⟩
        · exact .inl h
        · exact .inr ⟨d, List.mem_cons_of_mem _ hd, (htail d hd).mpr hkd, h⟩

/-! What a load does -/

theorem mem_past {s : Convo} {e : Envelope} : e ∈ s.past ↔ e ∈ s.history ∧ s.maxId < e.id := by
  simp [past]

theorem past_pairwise {s : Convo} (hs : s.history.Pairwise fun a b => a.id < b.id) :
    s.past.Pairwise fun a b => a.id < b.id :=
  hs.filter _

theorem of_mem_reached {s : Convo} {e : Envelope} (h : e ∈ s.reached pageSize net) :
    e ∈ s.history ∧ s.maxId < e.id :=
  mem_past.mp (List.mem_of_mem_take h)

theorem reached_pairwise {s : Convo} (hs : s.history.Pairwise fun a b => a.id < b.id) :
    (s.reached pageSize net).Pairwise fun a b => a.id < b.id :=
  (past_pairwise hs).sublist (List.take_sublist _ _)

/-- A load gets to everything before what it gets to. -/
theorem reached_of_le {s : Convo} {e d : Envelope}
    (hs : s.history.Pairwise fun a b => a.id < b.id) (he : e ∈ s.past)
    (hd : d ∈ s.reached pageSize net) (hle : e.id ≤ d.id) : e ∈ s.reached pageSize net := by
  have hp := past_pairwise hs
  have hsplit := List.take_append_drop (pageSize * served net.pages maxRounds 0) s.past
  rw [← hsplit] at hp he
  rcases List.mem_append.mp he with he | he
  · exact he
  · exact absurd ((List.pairwise_append.mp hp).2.2 d hd e he) (Nat.not_lt.mpr hle)

theorem Kept.load_took {s : Convo} (hk : Kept s) (pageSize : Nat) (net : Network) :
    Took net (s.reached pageSize net) s (s.load pageSize net) := by
  rw [load_foldl hk.ordered]
  exact foldl_took (reached_pairwise hk.ordered) (fun e he => (of_mem_reached he).2) hk.seen

theorem Kept.load_history {s : Convo} (hk : Kept s) :
    (s.load pageSize net).history = s.history := by
  rw [load_foldl hk.ordered, foldl_history]

theorem careful_load {s : Convo} : s.careful pageSize (.load net) = true ↔
    ∀ e ∈ s.reached pageSize net, keyed net s.peers (s.reached pageSize net) e = true ∨
      ∀ d ∈ s.reached pageSize net, e.id < d.id →
        ¬ keyed net s.peers (s.reached pageSize net) d = true := by
  simp [careful, imp_iff_not_or]

theorem Kept.load {s : Convo} (hk : Kept s) : Kept (s.load pageSize net) := by
  have ht := hk.load_took pageSize net
  refine ⟨by rw [hk.load_history]; exact hk.ordered, fun e he => ?_, ht.seen, ?_⟩
  · rw [hk.load_history]
    rcases (ht.messages e).mp he with he | ⟨he, hkd⟩
    · exact ⟨(hk.listed e he).1, Nat.le_trans (hk.listed e he).2 ht.grows⟩
    · exact ⟨(of_mem_reached he).1, ht.covers e he hkd⟩
  · rw [hk.load_history]
    rcases ht.top with h | ⟨d, hd, -, h⟩
    · rw [h]
      exact hk.top
    · exact .inr ⟨d, (of_mem_reached hd).1, h⟩

/-- What a load leaves out below `maxId` it has left out before, or had no keys
for when it took a later envelope in. -/
theorem Kept.load_whole {s : Convo} (hk : Kept s) :
    Whole (s.load pageSize net) ↔ Whole s ∧ s.careful pageSize (.load net) = true := by
  have ht := hk.load_took pageSize net
  rw [Whole, hk.load_history, careful_load]
  constructor
  · intro hw
    refine ⟨fun e he hle => ?_, fun e he => ?_⟩
    · rcases (ht.messages e).mp (hw e he (Nat.le_trans hle ht.grows)) with h | ⟨h, -⟩
      · exact h
      · exact absurd (of_mem_reached h).2 (Nat.not_lt.mpr hle)
    · refine or_iff_not_imp_left.mpr fun hn d hd hlt hkd => ?_
      have hle := Nat.le_trans (Nat.le_of_lt hlt) (ht.covers d hd hkd)
      rcases (ht.messages e).mp (hw e (of_mem_reached he).1 hle) with h | ⟨-, h⟩
      · exact absurd (hk.listed e h).2 (Nat.not_le.mpr (of_mem_reached he).2)
      · exact hn h
  · rintro ⟨hw, hc⟩ e he hle
    rw [ht.messages]
    by_cases hold : e.id ≤ s.maxId
    · exact .inl (hw e he hold)
    · have hpast : e ∈ s.past := mem_past.mpr ⟨he, Nat.not_le.mp hold⟩
      rcases ht.top with h | ⟨d, hd, hkd, h⟩
      · exact absurd (h ▸ hle) hold
      · have hr := reached_of_le hk.ordered hpast hd (h ▸ hle)
        refine .inr ⟨hr, ?_⟩
        by_contra hn
        have hno := (hc e hr).resolve_left hn
        rcases Nat.lt_or_eq_of_le (h ▸ hle : e.id ≤ d.id) with hlt | heq
        · exact hno d hd hlt hkd
        · cases eq_of_key hk.ordered he (of_mem_reached hd).1 heq
          exact hn hkd

/-! Runs -/

theorem start_kept (peers : List String) : Kept (start peers) :=
  ⟨List.Pairwise.nil, by simp [start], by simp [start], .inl rfl⟩

theorem start_whole (peers : List String) : Whole (start peers) := by simp [Whole, start]

/-- Whatever is posted later comes after `maxId`. -/
theorem Kept.post {s : Convo} {e : Envelope} (hk : Kept s) (hpos : 0 < e.id)
    (hlt : ∀ d ∈ s.history, d.id < e.id) :
    s.maxId < e.id ∧ Kept { s with history := s.history ++ [e] } := by
  constructor
  · rcases hk.top with h | ⟨d, hd, h⟩
    · omega
    · exact h ▸ hlt d hd
  · refine ⟨?_, fun d hd => ?_, hk.seen, ?_⟩
    · refine List.pairwise_append.mpr ⟨hk.ordered, List.pairwise_singleton _ _, ?_⟩
      rintro d hd _ (- | ⟨-, ⟨⟩⟩)
      exact hlt d hd
    · exact ⟨List.mem_append_left _ (hk.listed d hd).1, (hk.listed d hd).2⟩
    · refine hk.top.imp_right ?_
      rintro ⟨d, hd, h⟩
      exact ⟨d, List.mem_append_left _ hd, h⟩

theorem step_whole (s : Convo) (a : Event) (t : Convo) (hk : Kept s)
    (h : step pageSize s a = some t) :
    Kept t ∧ (Whole t ↔ Whole s ∧ s.careful pageSize a = true) := by
  cases a with
  | post e =>
    simp only [step, Option.ite_none_right_eq_some] at h
    obtain ⟨⟨hpos, hlt⟩, h⟩ := h
    cases h
    obtain ⟨hlater, hkept⟩ := hk.post hpos hlt
    refine ⟨hkept, fun hw => ⟨fun d hd => hw d (List.mem_append_left _ hd), rfl⟩, ?_⟩
    rintro ⟨hw, -⟩ d hd hle
    rcases List.mem_append.mp hd with hd | hd
    · exact hw d hd hle
    · cases List.mem_singleton.mp hd
      exact absurd hlater (Nat.not_lt.mpr hle)
  | learn u =>
    cases h
    exact ⟨⟨hk.ordered, hk.listed, hk.seen, hk.top⟩, fun hw => ⟨hw, rfl⟩, And.left⟩
  | load net =>
    cases h
    exact ⟨hk.load, hk.load_whole⟩

theorem served_fine (guard k : Nat) : served (fun _ => true) guard k = guard := by
  induction guard generalizing k with
  | zero => rfl
  | succ guard ih => rw [served, if_pos rfl, ih]

/-- A load without failures brings in what is past `maxId`, as far as its rounds
go, and nothing else. -/
theorem Kept.load_fine {s : Convo} (hk : Kept s) :
    (∀ e ∈ (s.load pageSize Network.fine).history, e ∈ (s.load pageSize Network.fine).messages) ↔
      Whole s ∧ s.past.length ≤ pageSize * maxRounds := by
  have hr : s.reached pageSize Network.fine = s.past.take (pageSize * maxRounds) := by
    rw [reached, Network.fine, served_fine]
  have hkeyed (e : Envelope) (he : e ∈ s.reached pageSize Network.fine) :
      keyed Network.fine s.peers (s.reached pageSize Network.fine) e = true :=
    keyed_iff.mpr (.inr ⟨e, he, Nat.le_refl _, rfl, rfl⟩)
  have ht := hk.load_took pageSize Network.fine
  rw [hk.load_history]
  constructor
  · intro hall
    constructor
    · intro e he hle
      rcases (ht.messages e).mp (hall e he) with h | ⟨h, -⟩
      · exact h
      · exact absurd (of_mem_reached h).2 (Nat.not_lt.mpr hle)
    · by_contra hlong
      have hp := past_pairwise hk.ordered
      have hsplit := List.take_append_drop (pageSize * maxRounds) s.past
      obtain ⟨e, he⟩ := List.exists_mem_of_ne_nil (s.past.drop (pageSize * maxRounds)) fun h =>
        hlong (List.drop_eq_nil_iff.mp h)
      obtain ⟨hin, hlt⟩ := mem_past.mp (List.mem_of_mem_drop he)
      rcases (ht.messages e).mp (hall e hin) with h | ⟨h, -⟩
      · exact absurd (hk.listed e h).2 (Nat.not_le.mpr hlt)
      · rw [← hsplit] at hp
        exact Nat.lt_irrefl _ ((List.pairwise_append.mp hp).2.2 e (hr ▸ h) e he)
  · rintro ⟨hw, hlen⟩ e he
    rw [List.take_of_length_le hlen] at hr
    rw [ht.messages]
    by_cases hle : e.id ≤ s.maxId
    · exact .inl (hw e he hle)
    · have hin : e ∈ s.reached pageSize Network.fine :=
        hr ▸ mem_past.mpr ⟨he, Nat.not_le.mp hle⟩
      exact .inr ⟨hin, hkeyed e hin⟩

def ofAnn : Envelope := ⟨1, "ann", .group 1, none⟩

def ofBob : Envelope := ⟨2, "bob", .group 1, none⟩

/-- A load in which the lookup for one envelope fails. -/
def keyless (e : Envelope) : Event := .load ⟨fun _ => true, fun i => i != e.id⟩

end Convo

end Lattix.Client.Recovery
