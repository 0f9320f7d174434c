import Lattix.Client.Relay
import Lattix.Server.Failures

namespace Lattix.Client.Paging
open Lib.Pages Lib.Transactions
open Server (Tables Call Db getConversation getGroupMessages runCalls runCalls_sound reached_sound
  newUser)

/-- The loop of `pullHistory`, over whatever state its two callbacks share. It
returns, or throws what `fetchPage` throws; a full page without a last entry
throws as well. -/
def pullHistory {σ : Type} (pageSize : Nat) (fetchPage : Nat → σ → Option (List Envelope) × σ)
    (ingest : σ → Envelope → σ) : (guard since : Nat) → σ → Bool × σ
  | 0, _, s => (true, s)
  | guard + 1, since, s =>
    match fetchPage since s with
    | (none, s) => (false, s)
    | (some page, s) =>
      let s := page.foldl ingest s
      if page.length < pageSize then (true, s)
      else
        match page.getLast? with
        | none => (false, s)
        | some last => pullHistory pageSize fetchPage ingest guard last.id s

/-- What a pull goes through. -/
inductive Feed where
  | conversation (me peer : String)
  | group (groupId : Nat)
deriving DecidableEq, Repr

namespace Feed

/-- The request for a page. -/
def fetch (pageSize now since : Nat) : Feed → Db (List Envelope)
  | .conversation me peer => do
    return (← getConversation me peer since pageSize now).map fromEnvelope
  | .group groupId => do
    return (← getGroupMessages groupId since pageSize now).map fromGroupEnvelope

/-- Everything of it that can be seen at a time, oldest first. -/
def visible (now : Nat) (t : Tables) : Feed → List Envelope
  | .conversation me peer =>
    ((t.envelopes.filter fun e =>
      (e.sender == me && e.recipient == peer || e.sender == peer && e.recipient == me) &&
        !Tables.due now e.expiresAt).insertionSort fun a b => a.id ≤ b.id).map fromRow
  | .group groupId =>
    ((t.groupEnvelopes.filter fun e => e.groupId == groupId &&
      !Tables.due now e.expiresAt).insertionSort fun a b => a.id ≤ b.id).map fromGroupRow

theorem visible_ordered {t : Tables} (h : t.Valid) (now : Nat) (f : Feed) :
    (f.visible now t).Pairwise fun a b => a.id < b.id := by
  cases f with
  | conversation me peer =>
    exact List.pairwise_map.mpr (ordered (h.envelopes.sublist (List.filter_sublist.map _)))
  | group groupId =>
    exact List.pairwise_map.mpr (ordered (h.groupEnvelopes.sublist (List.filter_sublist.map _)))

/-- The relay answers with a page of what can be seen. -/
theorem fetch_page {c : Conn Tables} (h : c.working.Valid) (pageSize now since : Nat) (f : Feed) :
    f.fetch pageSize now since c =
      (.ok (page Envelope.id pageSize since (f.visible now c.working)), c) := by
  cases f with
  | conversation me peer =>
    have hrows : (c.working.envelopes.filter fun e => decide (since < e.id) &&
        (e.sender == me && e.recipient == peer || e.sender == peer && e.recipient == me) &&
          !Tables.due now e.expiresAt) = c.working.envelopes.filter fun e => decide (since < e.id) &&
        ((e.sender == me && e.recipient == peer || e.sender == peer && e.recipient == me) &&
          !Tables.due now e.expiresAt) :=
      List.filter_congr fun e _ => Bool.and_assoc _ _ _
    refine congrArg (fun es => (Except.ok es, c)) ?_
    dsimp only
    rw [hrows, page_ordered h.envelopes, visible, page_map_key, List.map_map]
    rfl
  | group groupId =>
    have hrows : (c.working.groupEnvelopes.filter fun e => e.groupId == groupId &&
        decide (since < e.id) && !Tables.due now e.expiresAt) =
      c.working.groupEnvelopes.filter fun e => decide (since < e.id) &&
        (e.groupId == groupId && !Tables.due now e.expiresAt) :=
      List.filter_congr fun e _ => by rw [Bool.and_comm (e.groupId == groupId), Bool.and_assoc]
    refine congrArg (fun es => (Except.ok es, c)) ?_
    dsimp only
    rw [hrows, page_ordered h.groupEnvelopes, visible, page_map_key, List.map_map]
    rfl

end Feed

/-- The relay and a pull through it: what happens there before each request for
a page, and when the request is served; how many there have been; and what has
been handed to ingest. -/
structure Reading where
  conn : Conn Tables
  asked : Nat
  handed : List Envelope

section reading
variable (f : Feed) (pageSize : Nat) (turns : Nat → List Call × Nat)

def Reading.fetchPage (since : Nat) (s : Reading) : Option (List Envelope) × Reading :=
  match f.fetch pageSize (turns s.asked).2 since (runCalls (turns s.asked).1 s.conn).2 with
  | (.ok page, c) => (some page, { s with conn := c, asked := s.asked + 1 })
  | (.error _, c) => (none, { s with conn := c, asked := s.asked + 1 })

def Reading.ingest (s : Reading) (e : Envelope) : Reading := { s with handed := s.handed ++ [e] }

/-- The relay once the first `k` turns are over. -/
def after (c : Conn Tables) : Nat → Conn Tables
  | 0 => c
  | k + 1 => (runCalls (turns k).1 (after c k)).2

/-- What can be seen while the `k`-th request is served. -/
def seenAt (c : Conn Tables) (k : Nat) : List Envelope :=
  f.visible (turns k).2 (after turns c (k + 1)).working

def pull (c : Conn Tables) (guard since : Nat) : Bool × Reading :=
  pullHistory pageSize (Reading.fetchPage f pageSize turns) Reading.ingest guard since ⟨c, 0, []⟩

end reading

section complete
variable {f : Feed} {pageSize : Nat} {turns : Nat → List Call × Nat} {c : Conn Tables}

theorem foldl_ingest (page : List Envelope) (s : Reading) :
    page.foldl Reading.ingest s = { s with handed := s.handed ++ page } := by
  induction page generalizing s with
  | nil => simp
  | cons e es ih =>
    rw [List.foldl_cons, ih]
    simp [Reading.ingest]

theorem after_sound (h : Sound Tables.Valid c) (k : Nat) : Sound Tables.Valid (after turns c k) := by
  induction k with
  | zero => exact h
  | succ k ih => exact runCalls_sound _ ih

/-- The `k`-th page. -/
theorem fetchPage_page (h : Sound Tables.Valid c) (since k : Nat) (handed : List Envelope) :
    Reading.fetchPage f pageSize turns since ⟨after turns c k, k, handed⟩ =
      (some (page Envelope.id pageSize since (seenAt f turns c k)), ⟨after turns c (k + 1), k + 1, handed⟩) := by
  have hv : (after turns c (k + 1)).working.Valid := (after_sound h (k + 1)).working
  have hf := f.fetch_page hv pageSize (turns k).2 since
  simp only [Reading.fetchPage, show (runCalls (turns k).1 (after turns c k)).2 = after turns c (k + 1)
    from rfl, hf]
  rfl

/-- What a pull with `guard` turns left hands on from a cursor, and how it ends. -/
structure Pulled (f : Feed) (turns : Nat → List Call × Nat) (c : Conn Tables) (guard since k : Nat)
    (handed : List Envelope) (r : Bool × Reading) : Prop where
  returns : r.1 = true
  asked : k ≤ r.2.asked
  news : ∃ new, r.2.handed = handed ++ new ∧ new.Pairwise (fun a b => a.id < b.id) ∧
    (∀ e ∈ new, since < e.id) ∧ (r.2.asked < k + guard → ∀ e, since < e.id →
      (∀ j, k ≤ j → j < r.2.asked → e ∈ seenAt f turns c j) → e ∈ new)

theorem pull_pulled (hp : 0 < pageSize) (h : Sound Tables.Valid c) (guard since k : Nat)
    (handed : List Envelope) : Pulled f turns c guard since k handed
      (pullHistory pageSize (Reading.fetchPage f pageSize turns) Reading.ingest guard since
        ⟨after turns c k, k, handed⟩) := by
  induction guard generalizing since k handed with
  | zero => exact ⟨rfl, Nat.le_refl k, [], (List.append_nil _).symm, .nil, nofun, fun hlt => absurd hlt (Nat.lt_irrefl k)⟩
  | succ guard ih =>
    have hord : (seenAt f turns c k).Pairwise fun a b => a.id < b.id :=
      f.visible_ordered (after_sound h (k + 1)).working _
    rw [pullHistory, fetchPage_page h]
    dsimp only
    rw [foldl_ingest]
    generalize hpg : page Envelope.id pageSize since (seenAt f turns c k) = pg
    have hpw : pg.Pairwise fun a b => a.id < b.id := hpg ▸ page_pairwise hord
    have hgt : ∀ e ∈ pg, since < e.id := fun e he => (mem_page (hpg ▸ he)).2
    have hrest : ∀ e ∈ seenAt f turns c k, since < e.id → e ∉ pg →
        pg.length = pageSize ∧ ∀ x ∈ pg, x.id < e.id := by
      intro e he hlt hn
      rw [← hpg] at hn ⊢
      exact page_rest hord he hlt hn
    by_cases hshort : pg.length < pageSize
    · rw [if_pos hshort]
      refine ⟨rfl, Nat.le_succ k, pg, rfl, hpw, hgt, fun _ e hlt hvis => ?_⟩
      by_contra hn
      have hfull := (hrest e (hvis k (Nat.le_refl k) (Nat.lt_succ_self k)) hlt hn).1
      omega
    · rw [if_neg hshort]
      have hne : pg ≠ [] := by
        rintro rfl
        exact hshort hp
      rw [List.getLast?_eq_getLast_of_ne_nil hne]
      dsimp only
      obtain ⟨hret, hasked, new, hnew, hinc, hpast, hall⟩ := ih (pg.getLast hne).id (k + 1) (handed ++ pg)
      have hlast : ∀ e ∈ pg, e.id ≤ (pg.getLast hne).id := fun e he => le_getLast hpw hne he
      refine ⟨hret, by omega, pg ++ new, by rw [hnew, List.append_assoc], ?_, ?_, ?_⟩
      · refine List.pairwise_append.mpr ⟨hpw, hinc, fun a ha b hb => ?_⟩
        exact Nat.lt_of_le_of_lt (hlast a ha) (hpast b hb)
      · intro e he
        rcases List.mem_append.mp he with he | he
        · exact hgt e he
        · exact Nat.lt_trans (hgt _ (List.getLast_mem hne)) (hpast e he)
      · intro hlt e he hvis
        by_cases hm : e ∈ pg
        · exact List.mem_append_left _ hm
        · refine List.mem_append_right _ (hall (by omega) e ?_ fun j hj hj' => hvis j (by omega) hj')
          exact (hrest e (hvis k (Nat.le_refl k) (by omega)) he hm).2 _ (List.getLast_mem hne)

end complete

/-- ann and bob have written to each other; ann's envelope expires. -/
def exchange : List Call :=
  [newUser "ann", newUser "bob", .storeEnvelope "ann" "bob" .message "{}" none (some 1) 0,
    .storeEnvelope "bob" "ann" .message "{}" none none 0]

/-- Before each page the relay sweeps. -/
def sweeping (k : Nat) : List Call × Nat := ([.deleteExpired k], k)

end Lattix.Client.Paging
