import Lattix.Client.Provenance

namespace Lattix.Client
open Lib.Runs Lib.Pages

variable {me : String} {pageSize : Nat} {c : Cid}

/-- The number past which everything is still to be asked for. -/
def Fetch.beyond : Fetch → Option Nat
  | .asked since => some since
  | .paging _ more => more

/-- What a pull has yet to ingest. -/
def Fetch.covers (e : Envelope) (f : Fetch) : Bool :=
  f.rest.contains e || f.beyond.any fun n => decide (n < e.id)

/-- The numbers a pull can move `maxId` to, or go on from. -/
def Fetch.marks (f : Fetch) : List Nat := f.rest.map Envelope.id ++ f.beyond.toList

/-- The conversations a resync will pull once it has its answer. -/
def Resync.promises (me : String) (c : Cid) : Resync → Bool
  | .asking => c != .dm me
  | .told cids => cids.contains c
  | .idle | .pulling => false

namespace Sync

/-- Once no resync and no load of the conversation is under way, it lists every
stored envelope up to `maxId`, and every one that was pushed in vain before the
last reconnect. -/
def Whole (me : String) (c : Cid) (s : Sync) : Prop :=
  s.resync = .idle → (∀ p ∈ s.pulls, p.cid ≠ c) →
    (∀ e ∈ s.stored, e.cid me = c → e.id ≤ s.maxId c → e ∈ s.messages c) ∧
      ∀ e ∈ s.due, e.cid me = c → e ∈ s.messages c

/-- Listed, or to be ingested by a pull that runs. -/
def secured (c : Cid) (e : Envelope) (s : Sync) : Bool :=
  (s.messages c).contains e || s.pulls.any (fun p => p.cid == c && p.fetch.covers e) ||
    s.ingests.any fun i => i.pull.isSome && i.env == e

/-- Nobody in the conversation is blocked, its envelopes do not expire, and its
lookups and requests succeed. -/
def calm (me : String) (c : Cid) (s : Sync) : Sync.Event → Bool
  | .post e _ => e.cid me != c || e.expires.isNone
  | .frame =>
    match s.wire with
    | .envelope e :: _ => e.cid me != c || !s.blocks me e
    | _ => true
  | .answer e => e.cid me != c || !s.blocks me e
  | .next p =>
    match p.fetch with
    | .paging (e :: _) _ => e.cid me != c || !s.blocks me e
    | _ => true
  | .lose i => i.env.cid me != c
  | .fail p => p.cid != c
  | .meFails => false
  | _ => true

/-- What is pushed outside a pull has nothing before it that is neither listed
nor being pulled; a reconnect starts a resync, or there is nothing it would have
to bring; and no pull gives up. -/
def inOrder (me : String) (c : Cid) (s : Sync) : Sync.Event → Bool
  | .push i => i.pull.isSome || i.env.cid me != c || decide (i.env.id ≤ s.maxId c) ||
    s.stored.all fun e => e.cid me != c || decide (i.env.id ≤ e.id) || s.secured c e
  | .frame =>
    match s.wire with
    | .ready :: _ => !s.everConnected ||
      (if s.resync = .idle then Resync.asking else s.resync).promises me c ||
      s.missed.all fun e => e.cid me != c || s.secured c e
    | _ => true
  | .turn p =>
    match p.fetch with
    | .paging [] (some _) => p.cid != c || decide (p.rounds + 1 < maxRounds)
    | _ => true
  | _ => true

/-- Every stored envelope of the conversation up to `n` is secured. -/
def Vouched (me : String) (c : Cid) (n : Nat) (s : Sync) : Prop :=
  n < s.next c.table ∧ ∀ e ∈ s.stored, e.cid me = c → e.id ≤ n → s.secured c e = true

structure Sound (me : String) (c : Cid) (s : Sync) : Prop where
  traced : s.Traced me
  top : s.Vouched me c (s.maxId c)
  marks : ∀ p ∈ s.pulls, p.cid = c → ∀ n ∈ p.fetch.marks, s.Vouched me c n
  taken : ∀ i ∈ s.ingests, i.pull.isSome = true → i.env.cid me = c → s.Vouched me c i.env.id
  owned : ∀ i ∈ s.ingests, ∀ n, i.pull = some n →
    ∃ p ∈ s.pulls, p.id = n ∧ p.cid = i.env.cid me
  kept : ∀ e ∈ s.stored, e.cid me = c → e.key ∈ s.seen → e ∈ s.messages c
  plain : ∀ e ∈ s.stored, e.cid me = c → e.expires = none
  owed : ∀ e ∈ s.due, e.cid me = c → s.resync.promises me c = true ∨ s.secured c e = true

theorem secured_iff {s : Sync} {e : Envelope} : s.secured c e = true ↔
    e ∈ s.messages c ∨ (∃ p ∈ s.pulls, p.cid = c ∧ p.fetch.covers e = true) ∨
      ∃ i ∈ s.ingests, i.pull.isSome = true ∧ i.env = e := by
  simp [secured, or_assoc]

theorem covers_iff {f : Fetch} {e : Envelope} : f.covers e = true ↔
    e ∈ f.rest ∨ ∃ n, f.beyond = some n ∧ n < e.id := by
  simp [Fetch.covers, Option.any_eq_true]

theorem mem_marks {f : Fetch} {n : Nat} : n ∈ f.marks ↔
    (∃ e ∈ f.rest, e.id = n) ∨ f.beyond = some n := by
  simp [Fetch.marks]

/-- In a quiet conversation what is secured is listed. -/
theorem Sound.listed {s : Sync} (h : s.Sound me c) (hq : ∀ p ∈ s.pulls, p.cid ≠ c)
    {e : Envelope} (hc : e.cid me = c) (hs : s.secured c e = true) : e ∈ s.messages c := by
  rcases secured_iff.mp hs with hm | ⟨p, hp, hpc, _⟩ | ⟨i, hi, hpull, he⟩
  · exact hm
  · exact absurd hpc (hq p hp)
  · obtain ⟨n, hn⟩ := Option.isSome_iff_exists.mp hpull
    obtain ⟨p, hp, _, hpc⟩ := h.owned i hi n hn
    rw [he, hc] at hpc
    exact absurd hpc (hq p hp)

theorem Sound.whole {s : Sync} (h : s.Sound me c) : s.Whole me c := by
  intro hr hq
  constructor
  · intro e he hc hle
    exact h.listed hq hc (h.top.2 e he hc hle)
  · intro e he hc
    rcases h.owed e he hc with hp | hs
    · rw [hr] at hp
      cases hp
    · exact h.listed hq hc hs

theorem Vouched.mono {s s' : Sync} {n : Nat} (h : s.Vouched me c n)
    (hnext : s.next c.table ≤ s'.next c.table)
    (hstored : ∀ e ∈ s'.stored, e.cid me = c → e ∈ s.stored ∨ s.next c.table ≤ e.id)
    (hk : ∀ e ∈ s.stored, e.cid me = c → s.secured c e = true → s'.secured c e = true) :
    s'.Vouched me c n := by
  refine ⟨by have := h.1; omega, ?_⟩
  intro e he hc hle
  rcases hstored e he hc with hs | hn
  · exact hk e hs hc (h.2 e hs hc hle)
  · have := h.1
    omega

/-- What a step has to show when the relay stays as it is, and so does the
resync. -/
theorem Sound.of_keeps {s s' : Sync} (h : s.Sound me c) (ht : s'.Traced me)
    (hrelay : s'.stored = s.stored ∧ s'.next = s.next)
    (hresync : s'.due = s.due ∧ s'.resync = s.resync)
    (hk : ∀ e ∈ s.stored, e.cid me = c → s.secured c e = true → s'.secured c e = true)
    (htop : s.Vouched me c (s'.maxId c) ∨ s'.Vouched me c (s'.maxId c))
    (hmarks : ∀ p ∈ s'.pulls, p.cid = c → ∀ n ∈ p.fetch.marks,
      s.Vouched me c n ∨ s'.Vouched me c n)
    (htaken : ∀ i ∈ s'.ingests, i.pull.isSome = true → i.env.cid me = c →
      s.Vouched me c i.env.id)
    (howned : ∀ i ∈ s'.ingests, ∀ n, i.pull = some n →
      ∃ p ∈ s'.pulls, p.id = n ∧ p.cid = i.env.cid me)
    (hkept : ∀ e ∈ s.stored, e.cid me = c → e.key ∈ s'.seen → e ∈ s'.messages c) :
    s'.Sound me c := by
  obtain ⟨hstored, hnext⟩ := hrelay
  obtain ⟨hdue, hres⟩ := hresync
  have hv : ∀ n, s.Vouched me c n → s'.Vouched me c n := by
    intro n hn
    refine hn.mono (by rw [hnext]) ?_ hk
    intro e he _
    rw [hstored] at he
    exact .inl he
  refine ⟨ht, htop.elim (hv _) id, fun p hp hc n hn => (hmarks p hp hc n hn).elim (hv n) id,
    fun i hi hp hc => hv _ (htaken i hi hp hc), howned, ?_, ?_, ?_⟩
  · rw [hstored]
    exact hkept
  · rw [hstored]
    exact h.plain
  · rw [hdue, hres]
    intro e he hc
    exact (h.owed e he hc).imp id (hk e (h.traced.due e he) hc)

/-- A step of the relay, the socket or the resync, which leaves the lists and
the calls alone. What is stored is new to the whole table. -/
theorem Sound.elsewhere {s s' : Sync} (h : s.Sound me c) (ht : s'.Traced me)
    (hstored : ∀ e ∈ s'.stored, e.cid me = c →
      e ∈ s.stored ∨ s.next c.table ≤ e.id ∧ e.key ∉ s.seen ∧ e.expires = none)
    (hnext : s.next c.table ≤ s'.next c.table)
    (hlists : s'.messages = s.messages ∧ s'.maxId = s.maxId ∧ s'.seen = s.seen)
    (hcalls : s'.pulls = s.pulls ∧ s'.ingests = s.ingests)
    (howed : ∀ e ∈ s'.due, e.cid me = c → s'.resync.promises me c = true ∨ s.secured c e = true) :
    s'.Sound me c := by
  obtain ⟨hm, hx, hseen⟩ := hlists
  obtain ⟨hp, hi⟩ := hcalls
  have hk : ∀ e, s'.secured c e = s.secured c e := by
    intro e
    simp only [secured, hm, hp, hi]
  have hv : ∀ n, s.Vouched me c n → s'.Vouched me c n := by
    intro n hn
    apply hn.mono hnext
    · intro e he hec
      exact (hstored e he hec).imp id And.left
    · intro e _ _ hs
      exact (hk e).trans hs
  refine ⟨ht, ?_, ?_, ?_, ?_, ?_, ?_, ?_⟩
  · rw [hx]
    exact hv _ h.top
  · rw [hp]
    exact fun p hp hc n hn => hv n (h.marks p hp hc n hn)
  · rw [hi]
    exact fun i hi hp hc => hv _ (h.taken i hi hp hc)
  · rw [hi, hp]
    exact h.owned
  · rw [hseen, hm]
    intro e he hec hkey
    rcases hstored e he hec with hs | ⟨_, hn, _⟩
    · exact h.kept e hs hec hkey
    · exact absurd hkey hn
  · intro e he hec
    rcases hstored e he hec with hs | ⟨_, _, hn⟩
    · exact h.plain e hs hec
    · exact hn
  · intro e he hec
    rw [hk]
    exact howed e he hec

/-! Ingests -/

theorem Sound.ingest {s : Sync} {e : Envelope} {pull : Option Nat} (h : s.Sound me c)
    (he : e ∈ s.stored) (hb : e.cid me = c → s.blocks me e = false)
    (hv : pull.isSome = true → e.cid me = c → s.Vouched me c e.id)
    (ho : ∀ n, pull = some n → ∃ p ∈ s.pulls, p.id = n ∧ p.cid = e.cid me) :
    (s.ingest me e pull).Sound me c := by
  have ht := h.traced.ingest he pull
  rcases ingest_cases me e pull s with ⟨_, hq⟩ | ⟨_, hblocks, hq⟩ | ⟨_, _, known, phase, hq⟩
  · rw [hq]
    exact h
  · rw [hq] at ht ⊢
    refine h.of_keeps ht ⟨rfl, rfl⟩ ⟨rfl, rfl⟩ (fun _ _ _ hs => hs) (.inl h.top)
      (fun p hp hc n hn => .inl (h.marks p hp hc n hn)) h.taken h.owned ?_
    intro d hd hc hk
    rcases List.mem_cons.mp hk with hk | hk
    · have hde := h.traced.unique hd he hk
      rw [hde] at hc
      rw [hb hc] at hblocks
      cases hblocks
    · exact h.kept d hd hc hk
  · rw [hq] at ht ⊢
    refine h.of_keeps ht ⟨rfl, rfl⟩ ⟨rfl, rfl⟩ ?_ (.inl h.top)
      (fun p hp hc n hn => .inl (h.marks p hp hc n hn)) ?_ ?_ h.kept
    · intro d _ _ hs
      rcases secured_iff.mp hs with hm | hp | ⟨i, hi, hx⟩
      · exact secured_iff.mpr (.inl hm)
      · exact secured_iff.mpr (.inr (.inl hp))
      · exact secured_iff.mpr (.inr (.inr ⟨i, List.mem_append_left _ hi, hx⟩))
    · intro i hi hp hc
      rcases List.mem_append.mp hi with hi | hi
      · exact h.taken i hi hp hc
      · rw [List.mem_singleton.mp hi] at hp hc ⊢
        exact hv hp hc
    · intro i hi n hn
      rcases List.mem_append.mp hi with hi | hi
      · exact h.owned i hi n hn
      · rw [List.mem_singleton.mp hi] at hn ⊢
        exact ho n hn

theorem Sound.replace_ingest {s : Sync} {i : Ingest} (h : s.Sound me c) (hi : i ∈ s.ingests)
    (phase : Phase) :
    ({ s with ingests := s.ingests.erase i ++ [{ i with phase := phase }] } : Sync).Sound me c := by
  refine h.of_keeps (h.traced.replace_ingest hi phase) ⟨rfl, rfl⟩ ⟨rfl, rfl⟩ ?_ (.inl h.top)
    (fun p hp hc n hn => .inl (h.marks p hp hc n hn)) ?_ ?_ h.kept
  · intro e _ _ hs
    rcases secured_iff.mp hs with hm | hp | ⟨j, hj, hx⟩
    · exact secured_iff.mpr (.inl hm)
    · exact secured_iff.mpr (.inr (.inl hp))
    · apply secured_iff.mpr
      right; right
      by_cases hji : j = i
      · rw [hji] at hx
        exact ⟨{ i with phase := phase }, by simp, hx⟩
      · exact ⟨j, List.mem_append_left _ ((List.mem_erase_of_ne hji).mpr hj), hx⟩
  · intro j hj hp hc
    rcases List.mem_append.mp hj with hj | hj
    · exact h.taken j (List.mem_of_mem_erase hj) hp hc
    · rw [List.mem_singleton.mp hj] at hp hc ⊢
      exact h.taken i hi hp hc
  · intro j hj n hn
    rcases List.mem_append.mp hj with hj | hj
    · exact h.owned j (List.mem_of_mem_erase hj) n hn
    · rw [List.mem_singleton.mp hj] at hn ⊢
      exact h.owned i hi n hn

theorem Sound.lose {s : Sync} {i : Ingest} (h : s.Sound me c) (hc : i.env.cid me ≠ c) :
    ({ s with ingests := s.ingests.erase i } : Sync).Sound me c := by
  refine h.of_keeps (h.traced.drop_ingest i) ⟨rfl, rfl⟩ ⟨rfl, rfl⟩ ?_ (.inl h.top)
    (fun p hp hc n hn => .inl (h.marks p hp hc n hn))
    (fun j hj => h.taken j (List.mem_of_mem_erase hj))
    (fun j hj => h.owned j (List.mem_of_mem_erase hj)) h.kept
  intro e _ hec hs
  rcases secured_iff.mp hs with hm | hp | ⟨j, hj, hx⟩
  · exact secured_iff.mpr (.inl hm)
  · exact secured_iff.mpr (.inr (.inl hp))
  · have hji : j ≠ i := by
      intro he
      rw [he] at hx
      rw [← hx.2] at hec
      exact hc hec
    exact secured_iff.mpr (.inr (.inr ⟨j, (List.mem_erase_of_ne hji).mpr hj, hx⟩))

theorem push_maxId {s : Sync} {e : Envelope} : (s.pushMessage me e).maxId c =
    if e.cid me = c then max (s.maxId c) e.id else s.maxId c := by
  by_cases hc : e.cid me = c
  · subst hc
    simp [pushMessage]
  · simp [pushMessage, Function.update_of_ne (Ne.symm hc), hc]

theorem Sound.push {s : Sync} {i : Ingest} (h : s.Sound me c) (hi : i ∈ s.ingests)
    (ho : s.inOrder me c (.push i) = true) :
    (({ s with ingests := s.ingests.erase i } : Sync).pushMessage me i.env).Sound me c := by
  have hstored := h.traced.ingests i hi
  have ht : (({ s with ingests := s.ingests.erase i } : Sync).pushMessage me i.env).Traced me :=
    (h.traced.drop_ingest i).pushMessage hstored
  have hk : ∀ e ∈ s.stored, e.cid me = c → s.secured c e = true →
      (({ s with ingests := s.ingests.erase i } : Sync).pushMessage me i.env).secured c e = true := by
    intro e _ hec hs
    rcases secured_iff.mp hs with hm | hp | ⟨j, hj, hx⟩
    · exact secured_iff.mpr (.inl (mem_pushMessage.mpr (.inl hm)))
    · exact secured_iff.mpr (.inr (.inl hp))
    · by_cases hji : j = i
      · rw [hji] at hx
        exact secured_iff.mpr (.inl (mem_pushMessage.mpr (.inr ⟨hx.2.symm, hx.2 ▸ hec⟩)))
      · exact secured_iff.mpr (.inr (.inr ⟨j, (List.mem_erase_of_ne hji).mpr hj, hx⟩))
  refine h.of_keeps ht ⟨rfl, rfl⟩ ⟨rfl, rfl⟩ hk ?_
    (fun p hp hc n hn => .inl (h.marks p hp hc n hn))
    (fun j hj => h.taken j (List.mem_of_mem_erase hj))
    (fun j hj => h.owned j (List.mem_of_mem_erase hj)) ?_
  · rw [push_maxId]
    split
    · rename_i hc
      by_cases hle : i.env.id ≤ s.maxId c
      · left
        rw [max_eq_left hle]
        exact h.top
      · rw [max_eq_right (Nat.le_of_not_le hle)]
        by_cases hp : i.pull.isSome = true
        · exact .inl (h.taken i hi hp hc)
        · right
          have hall : ∀ e ∈ s.stored, e.cid me = c → e.id < i.env.id → s.secured c e = true := by
            simp only [inOrder, hp, hc, hle, bne_self_eq_false, Bool.or_false, Bool.false_or,
              decide_false, List.all_eq_true, Bool.or_eq_true, bne_iff_ne, ne_eq,
              decide_eq_true_eq] at ho
            intro e he hec hlt
            rcases ho e he with (hn | hn) | hs
            · exact absurd hec hn
            · omega
            · exact hs
          constructor
          · have hb := h.traced.below _ hstored
            rw [cid_table hc] at hb
            exact hb
          · intro e he hec hle
            by_cases heq : e.id = i.env.id
            · have hei := h.traced.unique he hstored (key_of_cid (hec.trans hc.symm) heq)
              exact secured_iff.mpr (.inl (mem_pushMessage.mpr (.inr ⟨hei, hc⟩)))
            · exact hk e he hec (hall e he hec (by omega))
    · exact .inl h.top
  · intro e he hec hkey
    rcases List.mem_cons.mp hkey with hkey | hkey
    · have hei := h.traced.unique he hstored hkey
      exact mem_pushMessage.mpr (.inr ⟨hei, hei ▸ hec⟩)
    · exact mem_pushMessage.mpr (.inl (h.kept e he hec hkey))

/-! Pulls -/

theorem Sound.startPull {s : Sync} (h : s.Sound me c) (resync : Bool) (d : Cid) :
    (s.startPull resync d).Sound me c := by
  refine h.of_keeps (h.traced.startPull resync d) ⟨rfl, rfl⟩ ⟨rfl, rfl⟩ ?_ (.inl h.top) ?_ h.taken
    ?_ h.kept
  · intro e _ _ hs
    rcases secured_iff.mp hs with hm | ⟨p, hp, hx⟩ | hi
    · exact secured_iff.mpr (.inl hm)
    · exact secured_iff.mpr (.inr (.inl ⟨p, List.mem_append_left _ hp, hx⟩))
    · exact secured_iff.mpr (.inr (.inr hi))
  · intro p hp hc n hn
    left
    rcases List.mem_append.mp hp with hp | hp
    · exact h.marks p hp hc n hn
    · rw [List.mem_singleton.mp hp] at hc hn
      have hc : d = c := hc
      rcases mem_marks.mp hn with ⟨e, he, _⟩ | hb
      · cases he
      · cases hb
        rw [hc]
        exact h.top
  · intro i hi n hn
    obtain ⟨p, hp, hx⟩ := h.owned i hi n hn
    exact ⟨p, List.mem_append_left _ hp, hx⟩

theorem Sound.startPulls {s : Sync} (h : s.Sound me c) (cids : List Cid) :
    (cids.foldl (Sync.startPull true) s).Sound me c := by
  induction cids generalizing s with
  | nil => exact h
  | cons d cids ih => exact ih (h.startPull true d)

/-- A pull that goes on with `fetch` still has all to ingest that it had, but for
what is listed or being ingested by then. -/
theorem Sound.replace {s : Sync} {p : Pull} {fetch : Fetch} {rounds : Nat} (h : s.Sound me c)
    (hrest : ∀ e ∈ fetch.rest, e ∈ s.stored ∧ e.cid me = p.cid)
    (hcov : p.cid = c → ∀ e ∈ s.stored, e.cid me = c → p.fetch.covers e = true →
      fetch.covers e = true ∨ e ∈ s.messages c ∨ ∃ i ∈ s.ingests, i.pull.isSome = true ∧ i.env = e)
    (hmarks : p.cid = c → ∀ n ∈ fetch.marks, n < s.next c.table ∧ ∀ e ∈ s.stored, e.cid me = c →
      e.id ≤ n → s.secured c e = true ∨ fetch.covers e = true) :
    (s.replace p fetch rounds).Sound me c := by
  have hnew : ({ p with fetch := fetch, rounds := rounds } : Pull) ∈
      (s.replace p fetch rounds).pulls :=
    List.mem_append_right _ (List.mem_singleton.mpr rfl)
  have hold : ∀ q ∈ s.pulls, q ≠ p → q ∈ (s.replace p fetch rounds).pulls :=
    fun q hq hne => List.mem_append_left _ ((List.mem_erase_of_ne hne).mpr hq)
  have hk : ∀ e ∈ s.stored, e.cid me = c → s.secured c e = true →
      (s.replace p fetch rounds).secured c e = true := by
    intro e he hec hs
    rcases secured_iff.mp hs with hm | ⟨q, hq, hqc, hx⟩ | hi
    · exact secured_iff.mpr (.inl hm)
    · by_cases hqp : q = p
      · rw [hqp] at hqc hx
        rcases hcov hqc e he hec hx with hf | hm | hi
        · exact secured_iff.mpr (.inr (.inl ⟨_, hnew, hqc, hf⟩))
        · exact secured_iff.mpr (.inl hm)
        · exact secured_iff.mpr (.inr (.inr hi))
      · exact secured_iff.mpr (.inr (.inl ⟨q, hold q hq hqp, hqc, hx⟩))
    · exact secured_iff.mpr (.inr (.inr hi))
  refine h.of_keeps (h.traced.replace hrest) ⟨rfl, rfl⟩ ⟨rfl, rfl⟩ hk (.inl h.top) ?_ h.taken ?_
    h.kept
  · intro q hq hqc n hn
    rcases List.mem_append.mp hq with hq | hq
    · exact .inl (h.marks q (List.mem_of_mem_erase hq) hqc n hn)
    · rw [List.mem_singleton.mp hq] at hqc hn
      obtain ⟨hlt, hall⟩ := hmarks hqc n hn
      refine .inr ⟨hlt, fun e he hec hle => ?_⟩
      rcases hall e he hec hle with hs | hf
      · exact hk e he hec hs
      · exact secured_iff.mpr (.inr (.inl ⟨_, hnew, hqc, hf⟩))
  · intro i hi n hn
    obtain ⟨q, hq, hid, hqc⟩ := h.owned i hi n hn
    by_cases hqp : q = p
    · exact ⟨_, hnew, hqp ▸ hid, hqp ▸ hqc⟩
    · exact ⟨q, hold q hq hqp, hid, hqc⟩

theorem Sound.drop_pull {s : Sync} {p : Pull} (h : s.Sound me c) (hfree : s.free p = true)
    (hcov : p.cid = c → ∀ e, p.fetch.covers e = false) :
    ({ s with pulls := s.pulls.erase p } : Sync).Sound me c := by
  refine h.of_keeps (h.traced.drop_pull p) ⟨rfl, rfl⟩ ⟨rfl, rfl⟩ ?_ (.inl h.top)
    (fun q hq hc n hn => .inl (h.marks q (List.mem_of_mem_erase hq) hc n hn)) h.taken ?_ h.kept
  · intro e _ _ hs
    rcases secured_iff.mp hs with hm | ⟨q, hq, hqc, hx⟩ | hi
    · exact secured_iff.mpr (.inl hm)
    · have hqp : q ≠ p := by
        intro he
        rw [he] at hqc hx
        rw [hcov hqc e] at hx
        cases hx
      exact secured_iff.mpr (.inr (.inl ⟨q, (List.mem_erase_of_ne hqp).mpr hq, hqc, hx⟩))
    · exact secured_iff.mpr (.inr (.inr hi))
  · intro i hi n hn
    obtain ⟨q, hq, hid, hqc⟩ := h.owned i hi n hn
    have hqp : q ≠ p := by
      intro he
      have hf := List.all_eq_true.mp hfree i hi
      rw [hn, ← hid, he] at hf
      simp at hf
    exact ⟨q, (List.mem_erase_of_ne hqp).mpr hq, hid, hqc⟩

theorem sorted_conversation {s : Sync} (h : s.Traced me) (now : Nat) :
    (s.stored.filter fun e => e.cid me == c && !e.expired now).Pairwise
      fun a b => a.id < b.id := by
  apply List.Pairwise.imp_of_mem _ (h.ids.filter _)
  intro a b ha hb hlt
  simp only [List.mem_filter, Bool.and_eq_true, beq_iff_eq] at ha hb
  exact hlt ((cid_table ha.2.1).trans (cid_table hb.2.1).symm)

theorem Sound.serve {s : Sync} {p : Pull} {since : Nat} (h : s.Sound me c) (hsize : 0 < pageSize)
    (hp : p ∈ s.pulls) (hf : p.fetch = .asked since) (now : Nat) :
    (s.replace p (.paging (s.fetchPage me pageSize now p.cid since)
      (cursor Envelope.id pageSize (s.fetchPage me pageSize now p.cid since))) p.rounds).Sound
        me c := by
  have hpage : p.cid = c → ∀ e ∈ s.stored, e.cid me = c →
      e ∈ s.stored.filter fun e => e.cid me == p.cid && !e.expired now := by
    intro hpc e he hec
    have hplain := h.plain e he hec
    simp [he, hec, hpc, Envelope.expired, hplain]
  have hcov : p.cid = c → ∀ e ∈ s.stored, e.cid me = c → since < e.id →
      Fetch.covers e (.paging (s.fetchPage me pageSize now p.cid since)
        (cursor Envelope.id pageSize (s.fetchPage me pageSize now p.cid since))) = true := by
    intro hpc e he hec hlt
    apply covers_iff.mpr
    by_cases hm : e ∈ s.fetchPage me pageSize now p.cid since
    · exact .inl hm
    · right
      exact page_cursor hsize (sorted_conversation h.traced now) (hpage hpc e he hec) hlt hm
  refine h.replace (fun e he => mem_fetchPage he) ?_ ?_
  · intro hpc e he hec hx
    left
    rw [hf] at hx
    rcases covers_iff.mp hx with hr | ⟨n, hn, hlt⟩
    · cases hr
    · cases hn
      exact hcov hpc e he hec hlt
  · intro hpc n hn
    have hmark : ∃ x ∈ s.fetchPage me pageSize now p.cid since, x.id = n := by
      rcases mem_marks.mp hn with hx | hx
      · exact hx
      · exact cursor_mem hx
    obtain ⟨x, hx, rfl⟩ := hmark
    obtain ⟨hxs, hxc⟩ := mem_fetchPage hx
    constructor
    · have hb := h.traced.below x hxs
      rw [cid_table (hxc.trans hpc)] at hb
      exact hb
    · intro e he hec _
      by_cases hle : e.id ≤ since
      · left
        have hv := h.marks p hp hpc since (by simp [hf, Fetch.marks, Fetch.rest, Fetch.beyond])
        exact hv.2 e he hec hle
      · right
        exact hcov hpc e he hec (by omega)

/-- Starting an ingest and taking its envelope off the page can be told apart. -/
theorem replace_ingest_comm (p : Pull) (fetch : Fetch) (rounds : Nat) (e : Envelope)
    (pull : Option Nat) (s : Sync) :
    (s.replace p fetch rounds).ingest me e pull = (s.ingest me e pull).replace p fetch rounds := by
  have hb : (s.replace p fetch rounds).blocks me e = s.blocks me e := rfl
  have hs : (s.replace p fetch rounds).seen = s.seen := rfl
  unfold Sync.ingest
  rw [hb, hs]
  split
  · rfl
  · split
    · rfl
    · cases e.target <;> rfl

theorem ingest_relay (me : String) (e : Envelope) (pull : Option Nat) (s : Sync) :
    (s.ingest me e pull).stored = s.stored ∧ (s.ingest me e pull).pulls = s.pulls := by
  rcases ingest_cases me e pull s with ⟨_, hq⟩ | ⟨_, _, hq⟩ | ⟨_, _, known, phase, hq⟩
  all_goals rw [hq]
  all_goals exact ⟨rfl, rfl⟩

/-- What a pull takes off its page is listed already, or being ingested. -/
theorem Sound.taken_up {s : Sync} {e : Envelope} (h : s.Sound me c) (he : e ∈ s.stored)
    (hec : e.cid me = c) (hb : s.blocks me e = false) (n : Nat) :
    e ∈ (s.ingest me e (some n)).messages c ∨
      ∃ i ∈ (s.ingest me e (some n)).ingests, i.pull.isSome = true ∧ i.env = e := by
  rcases ingest_cases me e (some n) s with ⟨hk, hq⟩ | ⟨_, hblocks, _⟩ | ⟨_, _, known, phase, hq⟩
  · rw [hq]
    exact .inl (h.kept e he hec hk)
  · rw [hb] at hblocks
    cases hblocks
  · rw [hq]
    exact .inr ⟨⟨e, phase, some n⟩, List.mem_append_right _ (List.mem_singleton.mpr rfl), rfl, rfl⟩

theorem Sound.next {s : Sync} {p : Pull} {e : Envelope} {rest : List Envelope}
    {more : Option Nat} (h : s.Sound me c) (hp : p ∈ s.pulls)
    (hf : p.fetch = .paging (e :: rest) more) (hb : e.cid me = c → s.blocks me e = false) :
    ((s.replace p (.paging rest more) p.rounds).ingest me e (some p.id)).Sound me c := by
  have hr := h.traced.paged p hp
  simp only [hf, Fetch.rest] at hr
  obtain ⟨he, hec⟩ := hr e (List.mem_cons_self ..)
  obtain ⟨hstored, hpulls⟩ := ingest_relay me e (some p.id) s
  have hi : (s.ingest me e (some p.id)).Sound me c := by
    apply h.ingest he hb
    · intro _ hc
      exact h.marks p hp (hec.symm.trans hc) e.id (by simp [hf, Fetch.marks, Fetch.rest])
    · intro n hn
      cases hn
      exact ⟨p, hp, rfl, hec.symm⟩
  rw [replace_ingest_comm]
  refine hi.replace ?_ ?_ ?_
  · intro d hd
    rw [hstored]
    exact hr d (List.mem_cons_of_mem _ hd)
  · intro hpc d _ _ hx
    rw [hf] at hx
    rcases covers_iff.mp hx with hm | hbeyond
    · rcases List.mem_cons.mp hm with hde | hm
      · right
        rw [hde]
        exact h.taken_up he (hec.trans hpc) (hb (hec.trans hpc)) p.id
      · exact .inl (covers_iff.mpr (.inl hm))
    · exact .inl (covers_iff.mpr (.inr hbeyond))
  · intro hpc n hn
    have hmark : n ∈ p.fetch.marks := by
      rw [hf]
      rcases mem_marks.mp hn with ⟨x, hx, hxn⟩ | hbeyond
      · exact mem_marks.mpr (.inl ⟨x, List.mem_cons_of_mem _ hx, hxn⟩)
      · exact mem_marks.mpr (.inr hbeyond)
    obtain ⟨hlt, hall⟩ := hi.marks p (hpulls ▸ hp) hpc n hmark
    exact ⟨hlt, fun d hd hdc hle => .inl (hall d hd hdc hle)⟩

/-- A pull asks for its next page from the last number of a full one. -/
theorem Sound.turn {s : Sync} {p : Pull} {last rounds : Nat} (h : s.Sound me c) (hp : p ∈ s.pulls)
    (hf : p.fetch = .paging [] (some last)) : (s.replace p (.asked last) rounds).Sound me c := by
  refine h.replace (fun e he => by cases he) ?_ ?_
  · intro _ e _ _ hx
    left
    rw [hf] at hx
    rcases covers_iff.mp hx with hm | hbeyond
    · cases hm
    · exact covers_iff.mpr (.inr hbeyond)
  · intro hpc n hn
    have hmark : n ∈ p.fetch.marks := by
      rw [hf]
      exact hn
    obtain ⟨hlt, hall⟩ := h.marks p hp hpc n hmark
    exact ⟨hlt, fun d hd hdc hle => .inl (hall d hd hdc hle)⟩

/-! Runs -/

theorem Sound.post {s : Sync} {e : Envelope} (h : s.Sound me c) (own : Bool)
    (ha : s.accepts me e = true) (hplain : e.cid me = c → e.expires = none) :
    ({ s with
      stored := s.stored ++ [e]
      next := Function.update s.next e.table (e.id + 1)
      delivering := s.delivering ++ [e]
      answers := if own then s.answers ++ [e] else s.answers } : Sync).Sound me c := by
  have hn := accepts_next ha
  refine h.elsewhere (h.traced.post own ha) ?_ ?_ ⟨rfl, rfl, rfl⟩ ⟨rfl, rfl⟩ h.owed
  · intro d hd hdc
    rcases List.mem_append.mp hd with hd | hd
    · exact .inl hd
    · right
      rw [List.mem_singleton.mp hd] at hdc ⊢
      exact ⟨cid_table hdc ▸ hn, h.traced.fresh hn, hplain hdc⟩
  · by_cases hc : c.table = e.table
    · simp only [hc, Function.update_self]
      omega
    · simp [Function.update_of_ne hc]

theorem mem_contacts {s : Sync} {e : Envelope} (h : s.Traced me) (he : e ∈ s.stored)
    (hec : e.cid me = c) (hc : c ≠ .dm me) : c ∈ s.contacts me := by
  cases c with
  | dm peer =>
    have hm : Cid.dm peer ∈ s.stored.map (Envelope.cid me) := by
      rw [← hec]
      exact List.mem_map_of_mem he
    apply List.mem_append_left
    simpa [List.mem_filter, Cid.table, hm] using hc
  | group g =>
    apply List.mem_append_right
    exact List.mem_map_of_mem (h.joined e he g hec)

theorem Sound.contacts {s : Sync} {cids : List Cid} (h : s.Sound me c)
    (hr : s.resync = .told cids) :
    ({ cids.foldl (Sync.startPull true) s with resync := .pulling } : Sync).Sound me c := by
  obtain ⟨_, _, _, hx, hres⟩ := startPulls_frame cids s
  have hp := h.startPulls cids
  have ht : ({ cids.foldl (Sync.startPull true) s with resync := .pulling } : Sync).Traced me :=
    { hp.traced with }
  refine hp.elsewhere ht (fun e he _ => .inl he) (Nat.le_refl _) ⟨rfl, rfl, rfl⟩ ⟨rfl, rfl⟩ ?_
  intro e he hec
  right
  rcases hp.owed e he hec with hpr | hs
  · rw [hres, hr] at hpr
    obtain ⟨p, hpm, hpc, hpf⟩ := startPulls_asked (by simpa [Resync.promises] using hpr) s
    by_cases hle : e.id ≤ s.maxId c
    · exact hp.top.2 e (hp.traced.due e he) hec (by rw [hx]; exact hle)
    · refine secured_iff.mpr (.inr (.inl ⟨p, hpm, hpc, covers_iff.mpr (.inr ⟨s.maxId c, ?_, ?_⟩)⟩))
      · rw [hpf]
        rfl
      · omega
  · exact hs

theorem start_sync_sound (groups : List Nat) (blocked : List String) :
    (Sync.start groups blocked).Sound me c :=
  ⟨start_traced groups blocked, ⟨by simp [Sync.start], by simp [Sync.start]⟩,
    by simp [Sync.start], by simp [Sync.start], by simp [Sync.start], by simp [Sync.start],
    by simp [Sync.start], by simp [Sync.start]⟩

theorem step_sync_sound (hsize : 0 < pageSize) (s : Sync) (a : Sync.Event) (s' : Sync)
    (h : s.Sound me c) (hok : s.calm me c a = true ∧ s.inOrder me c a = true)
    (hs : s.step me pageSize a = some s') : s'.Sound me c := by
  have ht := step_traced s a s' h.traced hs
  have hquiet : s'.stored = s.stored ∧ s'.next = s.next → s'.due = s.due ∧ s'.resync = s.resync →
      s'.messages = s.messages ∧ s'.maxId = s.maxId ∧ s'.seen = s.seen →
      s'.pulls = s.pulls ∧ s'.ingests = s.ingests → s'.Sound me c := by
    intro hrelay hresync hlists hcalls
    refine h.elsewhere ht ?_ (by rw [hrelay.2]) hlists hcalls ?_
    · rw [hrelay.1]
      exact fun e he _ => .inl he
    · rw [hresync.1, hresync.2]
      exact h.owed
  obtain ⟨hcalm, hord⟩ := hok
  cases step_moves hs with
  | @posted e own ha _ =>
    apply h.post own ha
    intro hc
    simpa [calm, hc] using hcalm
  | attached | dropped | delivered | undelivered | connected | blocked | unblocked =>
    exact hquiet ⟨rfl, rfl⟩ ⟨rfl, rfl⟩ ⟨rfl, rfl, rfl⟩ ⟨rfl, rfl⟩
  | @reconnected wire hw hec =>
    refine h.elsewhere ht (fun e he _ => .inl he) (Nat.le_refl _) ⟨rfl, rfl, rfl⟩ ⟨rfl, rfl⟩ ?_
    simp only [inOrder, hw, hec, Bool.not_true, Bool.false_or, Bool.or_eq_true,
      List.all_eq_true, bne_iff_ne, ne_eq] at hord
    intro e he hc
    rcases hord with hp | hall
    · exact .inl hp
    · exact .inr ((hall e he).resolve_left (not_not.mpr hc))
  | @pushed e wire hw =>
    simp only [calm, hw, Bool.or_eq_true, bne_iff_ne, ne_eq, Bool.not_eq_true'] at hcalm
    have hq : ({ s with wire := wire } : Sync).Sound me c := by
      refine h.elsewhere ?_ (fun d hd _ => .inl hd) (Nat.le_refl _) ⟨rfl, rfl, rfl⟩
        ⟨rfl, rfl⟩ h.owed
      exact { h.traced with wire := fun d hd => h.traced.wire d (by simp [hw, hd]) }
    have he : e ∈ s.stored := h.traced.wire e (by simp [hw])
    exact hq.ingest he (fun hc => hcalm.resolve_left (not_not.mpr hc)) (fun hp => by cases hp)
      fun n hn => by cases hn
  | @answered e he =>
    simp only [calm, Bool.or_eq_true, bne_iff_ne, ne_eq, Bool.not_eq_true'] at hcalm
    have hq : ({ s with answers := s.answers.erase e } : Sync).Sound me c := by
      refine h.elsewhere ?_ (fun d hd _ => .inl hd) (Nat.le_refl _) ⟨rfl, rfl, rfl⟩
        ⟨rfl, rfl⟩ h.owed
      exact { h.traced with
        answers := fun d hd => h.traced.answers d (List.mem_of_mem_erase hd) }
    exact hq.ingest (h.traced.answers e he) (fun hc => hcalm.resolve_left (not_not.mpr hc))
      (fun hp => by cases hp) fun n hn => by cases hn
  | rostered hi =>
    have hr := h.replace_ingest hi .keys
    exact hr.elsewhere ht (fun e he _ => .inl he) (Nat.le_refl _) ⟨rfl, rfl, rfl⟩ ⟨rfl, rfl⟩
      hr.owed
  | keyed hi => exact h.replace_ingest hi .decode
  | listed hi => exact h.push hi hord
  | lost => exact h.lose (by simpa [calm] using hcalm)
  | loaded d => exact h.startPull false d
  | served now hp hf => exact h.serve hsize hp hf now
  | ingested hp _ hf =>
    simp only [calm, hf, Bool.or_eq_true, bne_iff_ne, ne_eq, Bool.not_eq_true'] at hcalm
    exact h.next hp hf fun hc => hcalm.resolve_left (not_not.mpr hc)
  | finished hp hfree hf =>
    exact h.drop_pull hfree fun _ e => by simp [hf, Fetch.covers, Fetch.rest, Fetch.beyond]
  | turned hp _ hf => exact h.turn hp hf
  | stopped hp hfree hf hr =>
    apply h.drop_pull hfree
    intro hpc
    simp [inOrder, hf, hpc, hr] at hord
  | failed hp hfree =>
    apply h.drop_pull hfree
    intro hpc
    simp [calm, hpc] at hcalm
  | told hr =>
    refine h.elsewhere ht (fun e he _ => .inl he) (Nat.le_refl _) ⟨rfl, rfl, rfl⟩ ⟨rfl, rfl⟩ ?_
    intro e he hec
    rcases h.owed e he hec with hp | hsec
    · left
      simp only [hr, Resync.promises, bne_iff_ne, ne_eq] at hp
      simpa [Resync.promises] using mem_contacts h.traced (h.traced.due e he) hec hp
    · exact .inr hsec
  | untold => cases hcalm
  | pulling hr => exact h.contacts hr
  | settled hr =>
    refine h.elsewhere ht (fun e he _ => .inl he) (Nat.le_refl _) ⟨rfl, rfl, rfl⟩ ⟨rfl, rfl⟩ ?_
    intro e he hec
    rcases h.owed e he hec with hp | hsec
    · rw [hr] at hp
      cases hp
    · exact .inr hsec
  | swept now =>
    have hm : ∀ e ∈ s.messages c, e ∈ (s.sweep now).messages c := by
      intro e he
      obtain ⟨hst, hec⟩ := h.traced.filed c e he
      simp [Sync.sweep, he, Envelope.expired, h.plain e hst hec]
    refine h.of_keeps ht ⟨rfl, rfl⟩ ⟨rfl, rfl⟩ ?_ (.inl h.top)
      (fun p hp hc n hn => .inl (h.marks p hp hc n hn)) h.taken h.owned ?_
    · intro e _ _ hsec
      exact secured_iff.mpr ((secured_iff.mp hsec).imp (hm e) id)
    · intro e he hec hkey
      exact hm e (h.kept e he hec (List.mem_of_mem_filter hkey))

def first : Envelope := ⟨1, "bob", .user "me", none⟩

def second : Envelope := ⟨2, "bob", .user "me", none⟩

/-- The socket drops, and bob's second message is pushed in vain. -/
def outage : List Sync.Event :=
  [.attach, .frame, .post first false, .deliver first, .frame, .advance ⟨first, .keys, none⟩,
    .push ⟨first, .decode, none⟩, .drop, .post second false, .deliver second]

/-- The socket is back, and the resync asks past `since`, to be given `page`. -/
def recovery (since : Nat) (page : List Envelope) : List Sync.Event :=
  let pull : Fetch → Pull := fun fetch => ⟨0, .dm "bob", 0, true, fetch⟩
  [.attach, .frame, .me, .contacts, .serve (pull (.asked since)) 0] ++
    page.flatMap (fun e => [.next (pull (.paging [e] none)), .advance ⟨e, .keys, some 0⟩,
      .push ⟨e, .decode, some 0⟩]) ++
    [.turn (pull (.paging [] none)), .settled]

end Sync

end Lattix.Client
