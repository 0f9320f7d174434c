import Mathlib.Data.List.Sort
import Mathlib.Data.List.Dedup
import Mathlib.Logic.Function.Basic
import Lattix.Lib.Pages

namespace Lattix.Client
open Lib.Pages

inductive Target where
  | user (recipient : String)
  | group (id : Nat)
deriving DecidableEq, Repr

structure Envelope where
  id : Nat
  sender : String
  target : Target
  expires : Option Nat
deriving DecidableEq, Repr

/-- The name of a conversation: `dmCid` and `groupCid`. -/
inductive Cid where
  | dm (peer : String)
  | group (id : Nat)
deriving DecidableEq, Repr

/-- The entries of `state.seen`: `d<id>`, or `g<group>:<id>`. -/
inductive Key where
  | dm (id : Nat)
  | group (g id : Nat)
deriving DecidableEq, Repr

/-- The two tables of the relay, which number their rows on their own. -/
inductive Table where
  | envelopes
  | groupEnvelopes
deriving DecidableEq, Repr

def Envelope.cid (me : String) (e : Envelope) : Cid :=
  match e.target with
  | .user recipient => .dm (if e.sender = me then recipient else e.sender)
  | .group g => .group g

def Envelope.key (e : Envelope) : Key :=
  match e.target with
  | .user _ => .dm e.id
  | .group g => .group g e.id

def Envelope.table (e : Envelope) : Table :=
  match e.target with
  | .user _ => .envelopes
  | .group _ => .groupEnvelopes

def Cid.table : Cid → Table
  | .dm _ => .envelopes
  | .group _ => .groupEnvelopes

/-- Where an ingest waits: for an unknown group's roster, for the sender's keys,
for the decryption. -/
inductive Phase where
  | roster
  | keys
  | decode
deriving DecidableEq, Repr

/-- A call of `ingestDm` or `ingestGroup` past its check of `state.seen`, and
the pull that awaits it, if one does. -/
structure Ingest where
  env : Envelope
  phase : Phase
  pull : Option Nat
deriving DecidableEq, Repr

/-- `pullHistory` waiting for the page past `since`, or going through one. The
relay reads a page when it is asked for it: what is stored later is not on it. -/
inductive Fetch where
  | asked (since : Nat)
  | paging (rest : List Envelope) (more : Option Nat)
deriving DecidableEq, Repr

structure Pull where
  id : Nat
  cid : Cid
  rounds : Nat
  resync : Bool
  fetch : Fetch
deriving DecidableEq, Repr

/-- `resyncAfterReconnect`: waiting for `api.me()`, answered, or in its pulls. -/
inductive Resync where
  | idle
  | asking
  | told (cids : List Cid)
  | pulling
deriving DecidableEq, Repr

inductive Frame where
  | ready
  | envelope (e : Envelope)
deriving DecidableEq, Repr

/-- The relay, the socket and one signed-in client. `missed` records what was
pushed without reaching the client, `due` what of it a reconnect resync owes.
`answers` are the client's own posts with the response still to come. -/
structure Sync where
  stored : List Envelope
  next : Table → Nat
  groups : List Nat
  delivering : List Envelope
  answers : List Envelope
  attached : Bool
  wire : List Frame
  missed : List Envelope
  due : List Envelope
  messages : Cid → List Envelope
  maxId : Cid → Nat
  seen : List Key
  known : List Cid
  blocked : List String
  ingests : List Ingest
  pulls : List Pull
  pullCount : Nat
  resync : Resync
  everConnected : Bool

def Sync.start (groups : List Nat) (blocked : List String) : Sync where
  stored := []
  next := fun _ => 1
  groups := groups
  delivering := []
  answers := []
  attached := false
  wire := []
  missed := []
  due := []
  messages := fun _ => []
  maxId := fun _ => 0
  seen := []
  known := []
  blocked := blocked
  ingests := []
  pulls := []
  pullCount := 0
  resync := .idle
  everConnected := false

/-- One turn of the relay, the network or the client. -/
inductive Sync.Event where
  | post (e : Envelope) (own : Bool)
  | deliver (e : Envelope)
  | attach
  | drop
  | frame
  | answer (e : Envelope)
  | advance (i : Ingest)
  | push (i : Ingest)
  | lose (i : Ingest)
  | load (c : Cid)
  | serve (p : Pull) (now : Nat)
  | next (p : Pull)
  | turn (p : Pull)
  | fail (p : Pull)
  | me
  | meFails
  | contacts
  | settled
  | block (u : String)
  | unblock (u : String)
  | sweep (now : Nat)
deriving DecidableEq

/-- The size of a page, unless the relay advertises another. -/
def historyPage : Nat := 500

/-- The number of pages after which `pullHistory` gives up. -/
def maxRounds : Nat := 100000

def Fetch.rest : Fetch → List Envelope
  | .asked _ => []
  | .paging rest _ => rest

def Envelope.expired (now : Nat) (e : Envelope) : Bool := e.expires.any fun t => decide (t ≤ now)

def Frame.envelopes : List Frame → List Envelope :=
  List.filterMap fun
    | .ready => none
    | .envelope e => some e

/-- The relay stores an envelope between this user and someone, or in one of the
user's groups. Other people's take up numbers as well. -/
def Sync.accepts (me : String) (e : Envelope) (s : Sync) : Bool :=
  decide (s.next e.table ≤ e.id) &&
    match e.target with
    | .user recipient => e.sender == me || recipient == me
    | .group g => s.groups.contains g

def Sync.fetchPage (me : String) (pageSize now : Nat) (c : Cid) (since : Nat) (s : Sync) :
    List Envelope :=
  page Envelope.id pageSize since
    (s.stored.filter fun e => e.cid me == c && !e.expired now)

/-- The answer of `GET /api/me`: everyone there is an envelope with, other than
the user, and the user's groups. -/
def Sync.contacts (me : String) (s : Sync) : List Cid :=
  ((s.stored.map (Envelope.cid me)).dedup.filter fun c => c.table == .envelopes && c != .dm me) ++
    s.groups.map Cid.group

def Sync.blocks (me : String) (e : Envelope) (s : Sync) : Bool :=
  match e.cid me with
  | .dm peer => s.blocked.contains peer
  | .group _ => s.blocked.contains e.sender

def Sync.learn (c : Cid) (s : Sync) : Sync :=
  { s with known := if s.known.contains c then s.known else s.known ++ [c] }

/-- `ingestDm` and `ingestGroup` up to their first await. -/
def Sync.ingest (me : String) (e : Envelope) (pull : Option Nat) (s : Sync) : Sync :=
  if s.seen.contains e.key then s
  else if s.blocks me e then { s with seen := e.key :: s.seen }
  else
    match e.target with
    | .user _ => { s.learn (e.cid me) with ingests := s.ingests ++ [⟨e, .keys, pull⟩] }
    | .group _ =>
      let phase := if s.known.contains (e.cid me) then Phase.keys else .roster
      { s with ingests := s.ingests ++ [⟨e, phase, pull⟩] }

def Sync.pushMessage (me : String) (e : Envelope) (s : Sync) : Sync :=
  let c := e.cid me
  { s with
    seen := e.key :: s.seen
    maxId := Function.update s.maxId c (max (s.maxId c) e.id)
    messages := Function.update s.messages c
      ((s.messages c ++ [e]).insertionSort fun a b => a.id ≤ b.id) }

/-- A call of `pullHistory` with the conversation's `maxId`. -/
def Sync.startPull (resync : Bool) (s : Sync) (c : Cid) : Sync :=
  { s.learn c with
    pulls := s.pulls ++ [⟨s.pullCount, c, 0, resync, .asked (s.maxId c)⟩]
    pullCount := s.pullCount + 1 }

def Sync.replace (p : Pull) (fetch : Fetch) (rounds : Nat) (s : Sync) : Sync :=
  { s with pulls := s.pulls.erase p ++ [{ p with fetch := fetch, rounds := rounds }] }

/-- The pull waits for none of its ingests. -/
def Sync.free (p : Pull) (s : Sync) : Bool := s.ingests.all fun i => i.pull != some p.id

/-- `sweepExpired`, which forgets the keys of what it takes off the lists. -/
def Sync.sweep (now : Nat) (s : Sync) : Sync :=
  { s with
    messages := fun c => (s.messages c).filter fun e => !e.expired now
    seen := s.seen.filter fun k => !s.known.any fun c =>
      (s.messages c).any fun e => e.expired now && e.key == k }

def Sync.step (me : String) (pageSize : Nat) (s : Sync) : Sync.Event → Option Sync
  | .post e own =>
    if s.accepts me e ∧ (own → e.sender = me) then
      some { s with
        stored := s.stored ++ [e]
        next := Function.update s.next e.table (e.id + 1)
        delivering := s.delivering ++ [e]
        answers := if own then s.answers ++ [e] else s.answers }
    else none
  | .deliver e =>
    if e ∈ s.delivering then
      if s.attached then
        some { s with delivering := s.delivering.erase e, wire := s.wire ++ [.envelope e] }
      else some { s with delivering := s.delivering.erase e, missed := s.missed ++ [e] }
    else none
  | .attach => if s.attached then none else some { s with attached := true, wire := [.ready] }
  | .drop =>
    if s.attached then
      some { s with
        attached := false
        missed := s.missed ++ Frame.envelopes s.wire
        wire := [] }
    else none
  | .frame =>
    match s.wire with
    | [] => none
    | .ready :: wire =>
      if s.everConnected then
        some { s with
          wire := wire
          due := s.missed
          resync := if s.resync = .idle then .asking else s.resync }
      else some { s with wire := wire, everConnected := true }
    | .envelope e :: wire => some (({ s with wire := wire } : Sync).ingest me e none)
  | .answer e =>
    if e ∈ s.answers ∧ e ∉ s.delivering then
      some (({ s with answers := s.answers.erase e } : Sync).ingest me e none)
    else none
  | .advance i =>
    if i ∈ s.ingests then
      match i.phase with
      | .roster =>
        some { s.learn (i.env.cid me) with
          ingests := s.ingests.erase i ++ [{ i with phase := .keys }] }
      | .keys => some { s with ingests := s.ingests.erase i ++ [{ i with phase := .decode }] }
      | .decode => none
    else none
  | .push i =>
    if i ∈ s.ingests ∧ i.phase = .decode then
      some (({ s with ingests := s.ingests.erase i } : Sync).pushMessage me i.env)
    else none
  | .lose i => if i ∈ s.ingests then some { s with ingests := s.ingests.erase i } else none
  | .load c => some (s.startPull false c)
  | .serve p now =>
    if p ∈ s.pulls then
      match p.fetch with
      | .asked since =>
        let page := s.fetchPage me pageSize now p.cid since
        some (s.replace p (.paging page (cursor Envelope.id pageSize page)) p.rounds)
      | .paging _ _ => none
    else none
  | .next p =>
    if p ∈ s.pulls ∧ s.free p then
      match p.fetch with
      | .paging (e :: rest) more =>
        some ((s.replace p (.paging rest more) p.rounds).ingest me e (some p.id))
      | _ => none
    else none
  | .turn p =>
    if p ∈ s.pulls ∧ s.free p then
      match p.fetch with
      | .paging [] none => some { s with pulls := s.pulls.erase p }
      | .paging [] (some last) =>
        if p.rounds + 1 < maxRounds then some (s.replace p (.asked last) (p.rounds + 1))
        else some { s with pulls := s.pulls.erase p }
      | _ => none
    else none
  | .fail p =>
    if p ∈ s.pulls ∧ s.free p then
      match p.fetch with
      | .asked _ => some { s with pulls := s.pulls.erase p }
      | .paging _ _ => none
    else none
  | .me => if s.resync = .asking then some { s with resync := .told (s.contacts me) } else none
  | .meFails =>
    match s.resync with
    | .asking | .told _ => some { s with resync := .idle }
    | .idle | .pulling => none
  | .contacts =>
    match s.resync with
    | .told cids => some { cids.foldl (Sync.startPull true) s with resync := .pulling }
    | _ => none
  | .settled =>
    if s.resync = .pulling ∧ s.pulls.all (fun p => !p.resync) then some { s with resync := .idle }
    else none
  | .block u => some { s with blocked := u :: s.blocked }
  | .unblock u => some { s with blocked := s.blocked.filter fun v => v != u }
  | .sweep now => some (s.sweep now)

/-- What each turn takes and what it leaves. -/
inductive Sync.Moves (me : String) (pageSize : Nat) (s : Sync) : Sync.Event → Sync → Prop where
  | posted {e : Envelope} {own : Bool} (ha : s.accepts me e = true) (ho : own → e.sender = me) :
    s.Moves me pageSize (.post e own) { s with
      stored := s.stored ++ [e]
      next := Function.update s.next e.table (e.id + 1)
      delivering := s.delivering ++ [e]
      answers := if own then s.answers ++ [e] else s.answers }
  | delivered {e : Envelope} (he : e ∈ s.delivering) :
    s.Moves me pageSize (.deliver e)
      { s with delivering := s.delivering.erase e, wire := s.wire ++ [.envelope e] }
  | undelivered {e : Envelope} (he : e ∈ s.delivering) :
    s.Moves me pageSize (.deliver e)
      { s with delivering := s.delivering.erase e, missed := s.missed ++ [e] }
  | attached : s.Moves me pageSize .attach { s with attached := true, wire := [.ready] }
  | dropped : s.Moves me pageSize .drop
      { s with attached := false, missed := s.missed ++ Frame.envelopes s.wire, wire := [] }
  | reconnected {wire : List Frame} (hw : s.wire = .ready :: wire) (hc : s.everConnected = true) :
    s.Moves me pageSize .frame { s with
      wire := wire
      due := s.missed
      resync := if s.resync = .idle then .asking else s.resync }
  | connected {wire : List Frame} (hw : s.wire = .ready :: wire) :
    s.Moves me pageSize .frame { s with wire := wire, everConnected := true }
  | pushed {e : Envelope} {wire : List Frame} (hw : s.wire = .envelope e :: wire) :
    s.Moves me pageSize .frame (({ s with wire := wire } : Sync).ingest me e none)
  | answered {e : Envelope} (he : e ∈ s.answers) (hd : e ∉ s.delivering) :
    s.Moves me pageSize (.answer e)
      (({ s with answers := s.answers.erase e } : Sync).ingest me e none)
  | rostered {i : Ingest} (hi : i ∈ s.ingests) :
    s.Moves me pageSize (.advance i) { s.learn (i.env.cid me) with
      ingests := s.ingests.erase i ++ [{ i with phase := .keys }] }
  | keyed {i : Ingest} (hi : i ∈ s.ingests) :
    s.Moves me pageSize (.advance i)
      { s with ingests := s.ingests.erase i ++ [{ i with phase := .decode }] }
  | listed {i : Ingest} (hi : i ∈ s.ingests) (hd : i.phase = .decode) :
    s.Moves me pageSize (.push i)
      (({ s with ingests := s.ingests.erase i } : Sync).pushMessage me i.env)
  | lost {i : Ingest} (hi : i ∈ s.ingests) :
    s.Moves me pageSize (.lose i) { s with ingests := s.ingests.erase i }
  | loaded (c : Cid) : s.Moves me pageSize (.load c) (s.startPull false c)
  | served {p : Pull} {since : Nat} (now : Nat) (hp : p ∈ s.pulls) (hf : p.fetch = .asked since) :
    s.Moves me pageSize (.serve p now)
      (s.replace p (.paging (s.fetchPage me pageSize now p.cid since)
        (cursor Envelope.id pageSize (s.fetchPage me pageSize now p.cid since))) p.rounds)
  | ingested {p : Pull} {e : Envelope} {rest : List Envelope} {more : Option Nat} (hp : p ∈ s.pulls)
    (hfree : s.free p = true) (hf : p.fetch = .paging (e :: rest) more) :
    s.Moves me pageSize (.next p)
      ((s.replace p (.paging rest more) p.rounds).ingest me e (some p.id))
  | turned {p : Pull} {last : Nat} (hp : p ∈ s.pulls) (hfree : s.free p = true)
    (hf : p.fetch = .paging [] (some last)) (hr : p.rounds + 1 < maxRounds) :
    s.Moves me pageSize (.turn p) (s.replace p (.asked last) (p.rounds + 1))
  | finished {p : Pull} (hp : p ∈ s.pulls) (hfree : s.free p = true) (hf : p.fetch = .paging [] none) :
    s.Moves me pageSize (.turn p) { s with pulls := s.pulls.erase p }
  | stopped {p : Pull} {last : Nat} (hp : p ∈ s.pulls) (hfree : s.free p = true)
    (hf : p.fetch = .paging [] (some last)) (hr : ¬ p.rounds + 1 < maxRounds) :
    s.Moves me pageSize (.turn p) { s with pulls := s.pulls.erase p }
  | failed {p : Pull} {since : Nat} (hp : p ∈ s.pulls) (hfree : s.free p = true)
    (hf : p.fetch = .asked since) :
    s.Moves me pageSize (.fail p) { s with pulls := s.pulls.erase p }
  | told (hr : s.resync = .asking) :
    s.Moves me pageSize .me { s with resync := .told (s.contacts me) }
  | untold : s.Moves me pageSize .meFails { s with resync := .idle }
  | pulling {cids : List Cid} (hr : s.resync = .told cids) :
    s.Moves me pageSize .contacts { cids.foldl (Sync.startPull true) s with resync := .pulling }
  | settled (hr : s.resync = .pulling) : s.Moves me pageSize .settled { s with resync := .idle }
  | blocked (u : String) : s.Moves me pageSize (.block u) { s with blocked := u :: s.blocked }
  | unblocked (u : String) :
    s.Moves me pageSize (.unblock u) { s with blocked := s.blocked.filter fun v => v != u }
  | swept (now : Nat) : s.Moves me pageSize (.sweep now) (s.sweep now)

theorem step_moves {me : String} {pageSize : Nat} {s s' : Sync} {a : Sync.Event}
    (hs : s.step me pageSize a = some s') : s.Moves me pageSize a s' := by
  cases a with
  | post e own =>
    simp only [Sync.step] at hs
    split at hs
    · rename_i ha
      cases hs
      exact .posted ha.1 ha.2
    · cases hs
  | deliver e =>
    simp only [Sync.step] at hs
    split at hs
    · rename_i he
      split at hs <;> cases hs
      · exact .delivered he
      · exact .undelivered he
    · cases hs
  | attach =>
    simp only [Sync.step] at hs
    split at hs <;> cases hs
    exact .attached
  | drop =>
    simp only [Sync.step] at hs
    split at hs <;> cases hs
    exact .dropped
  | frame =>
    simp only [Sync.step] at hs
    split at hs
    · cases hs
    · rename_i hw
      split at hs <;> cases hs
      · rename_i hc
        exact .reconnected hw hc
      · exact .connected hw
    · rename_i hw
      cases hs
      exact .pushed hw
  | answer e =>
    simp only [Sync.step] at hs
    split at hs
    · rename_i he
      cases hs
      exact .answered he.1 he.2
    · cases hs
  | advance i =>
    simp only [Sync.step] at hs
    split at hs
    · rename_i hi
      split at hs <;> cases hs
      · exact .rostered hi
      · exact .keyed hi
    · cases hs
  | push i =>
    simp only [Sync.step] at hs
    split at hs
    · rename_i hi
      cases hs
      exact .listed hi.1 hi.2
    · cases hs
  | lose i =>
    simp only [Sync.step] at hs
    split at hs
    · rename_i hi
      cases hs
      exact .lost hi
    · cases hs
  | serve p now =>
    simp only [Sync.step] at hs
    split at hs
    · rename_i hp
      split at hs <;> cases hs
      rename_i hf
      exact .served now hp hf
    · cases hs
  | next p =>
    simp only [Sync.step] at hs
    split at hs
    · rename_i hp
      split at hs <;> cases hs
      rename_i hf
      exact .ingested hp.1 hp.2 hf
    · cases hs
  | turn p =>
    simp only [Sync.step] at hs
    split at hs
    · rename_i hp
      split at hs
      · rename_i hf
        cases hs
        exact .finished hp.1 hp.2 hf
      · rename_i hf
        split at hs <;> cases hs <;> rename_i hr
        · exact .turned hp.1 hp.2 hf hr
        · exact .stopped hp.1 hp.2 hf hr
      · cases hs
    · cases hs
  | fail p =>
    simp only [Sync.step] at hs
    split at hs
    · rename_i hp
      split at hs <;> cases hs
      rename_i hf
      exact .failed hp.1 hp.2 hf
    · cases hs
  | me =>
    simp only [Sync.step] at hs
    split at hs <;> cases hs
    rename_i hr
    exact .told hr
  | meFails =>
    simp only [Sync.step] at hs
    split at hs <;> cases hs <;> exact .untold
  | contacts =>
    simp only [Sync.step] at hs
    split at hs <;> cases hs
    rename_i hr
    exact .pulling hr
  | settled =>
    simp only [Sync.step] at hs
    split at hs
    · rename_i hr
      cases hs
      exact .settled hr.1
    · cases hs
  | load c | block u | unblock u | sweep now =>
    cases hs
    constructor

/-- What starting an ingest can do: nothing, note the key of someone blocked, or
leave it waiting. -/
theorem ingest_cases (me : String) (e : Envelope) (pull : Option Nat) (s : Sync) :
    e.key ∈ s.seen ∧ s.ingest me e pull = s ∨
      e.key ∉ s.seen ∧ s.blocks me e = true ∧
        s.ingest me e pull = { s with seen := e.key :: s.seen } ∨
      e.key ∉ s.seen ∧ s.blocks me e = false ∧ ∃ known phase, s.ingest me e pull =
        { s with known := known, ingests := s.ingests ++ [⟨e, phase, pull⟩] } := by
  unfold Sync.ingest
  by_cases hk : e.key ∈ s.seen
  · left
    simp [hk]
  · by_cases hb : s.blocks me e = true
    · right; left
      simp [hk, hb]
    · right; right
      have hb : s.blocks me e = false := by simpa using hb
      refine ⟨hk, hb, ?_⟩
      cases ht : e.target with
      | user recipient => exact ⟨(s.learn (e.cid me)).known, .keys, by simp [hk, hb, Sync.learn]⟩
      | group g =>
        exact ⟨s.known, if s.known.contains (e.cid me) then .keys else .roster, by simp [hk, hb]⟩

theorem startPulls_frame (cids : List Cid) (s : Sync) :
    (cids.foldl (Sync.startPull true) s).ingests = s.ingests ∧
      (cids.foldl (Sync.startPull true) s).messages = s.messages ∧
      (cids.foldl (Sync.startPull true) s).seen = s.seen ∧
      (cids.foldl (Sync.startPull true) s).maxId = s.maxId ∧
      (cids.foldl (Sync.startPull true) s).resync = s.resync := by
  induction cids generalizing s with
  | nil => exact ⟨rfl, rfl, rfl, rfl, rfl⟩
  | cons c cids ih => exact ih (s.startPull true c)

theorem startPulls_grow {p : Pull} {s : Sync} (cids : List Cid) (hp : p ∈ s.pulls) :
    p ∈ (cids.foldl (Sync.startPull true) s).pulls := by
  induction cids generalizing s with
  | nil => exact hp
  | cons c cids ih =>
    apply ih
    exact List.mem_append_left _ hp

theorem startPulls_asked {c : Cid} {cids : List Cid} (hc : c ∈ cids) (s : Sync) :
    ∃ p ∈ (cids.foldl (Sync.startPull true) s).pulls, p.cid = c ∧ p.fetch = .asked (s.maxId c) := by
  induction cids generalizing s with
  | nil => cases hc
  | cons d cids ih =>
    rcases List.mem_cons.mp hc with hd | hc
    · have hp : ⟨s.pullCount, c, 0, true, .asked (s.maxId c)⟩ ∈ (s.startPull true d).pulls := by
        rw [hd]
        exact List.mem_append_right _ (List.mem_singleton.mpr rfl)
      exact ⟨_, startPulls_grow cids hp, rfl, rfl⟩
    · exact ih hc (s.startPull true d)

theorem mem_pushMessage {me : String} {e d : Envelope} {c : Cid} {s : Sync} :
    d ∈ (s.pushMessage me e).messages c ↔ d ∈ s.messages c ∨ d = e ∧ e.cid me = c := by
  by_cases hc : e.cid me = c
  · subst hc
    simp [Sync.pushMessage]
  · simp [Sync.pushMessage, Function.update_of_ne (Ne.symm hc), hc]

end Lattix.Client
