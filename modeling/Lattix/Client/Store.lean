import Lattix.Client.Sync

namespace Lattix.Client
open Lib.Pages

inductive Kind where
  | message
  | file
  | error
deriving DecidableEq, Repr

structure File where
  filename : String
  mime : String
  size : Nat
  fileId : Option String
deriving DecidableEq, Repr

/-- What `decodeEnvelope` reads off an envelope, its id, sender and deadline apart. -/
structure Body where
  ts : Nat
  kind : Kind
  text : Option String
  file : Option File
  verified : Bool
deriving DecidableEq, Repr

/-- An entry of a conversation's list. `origin` records the envelope it was made
from, with the relay that envelope is on. -/
structure Message where
  id : Nat
  sender : String
  body : Body
  expiresAt : Option Nat
  origin : Nat × Envelope
deriving DecidableEq, Repr

/-- A conversation object, by its number. A group's can be dropped and made anew. -/
structure Chat where
  cid : Cid
  ref : Nat
  messages : List Message
  maxId : Nat
deriving DecidableEq, Repr

/-- The rows of a relay, whoever they are for. A deadline lies some seconds after
the time the relay stores the row at. -/
structure Rows where
  has : Envelope → Bool
  unique : ∀ d e, has d = true → has e = true → d.key = e.key → d = e
  dated : ∀ e, has e = true → e.expires ≠ some 0

def Rows.of (es : List Envelope) (hk : (es.map Envelope.key).Nodup)
    (hd : ∀ e ∈ es, e.expires ≠ some 0) : Rows where
  has := fun e => es.contains e
  unique := by
    intro d e hde he hkey
    exact List.inj_on_of_nodup_map hk (List.contains_iff_mem.mp hde) (List.contains_iff_mem.mp he)
      hkey
  dated := fun e he => hd e (List.contains_iff_mem.mp he)

/-- Who is signed in, where, and what the session makes of an envelope, whose
sender's key may be in question: nothing if it does not know the kind. -/
structure Account where
  name : String
  relay : Nat
  rows : Rows
  pageSize : Nat
  decode : Envelope → Bool → Option Body

/-- Where an ingest has got to: it waits for an unknown group's roster, or holds
its conversation, which `none` says is not one. -/
inductive Place where
  | roster
  | convo (ref : Option Nat)
deriving DecidableEq, Repr

/-- A call of `ingestDm` or `ingestGroup` past its check of `state.seen`, and
the load that awaits it, if one does. -/
structure Waiting where
  env : Envelope
  place : Place
  load : Option Nat
deriving DecidableEq, Repr

/-- `loadDm` or `loadGroup`. `taken` records what it has gone through. -/
structure Loading where
  id : Nat
  cid : Cid
  fetch : Fetch
  taken : List Envelope
deriving DecidableEq, Repr

/-- The conversations of a session and what decides what goes into them. `silenced`
records the keys noted for a block, `hidden` those whose sender was the one
blocked, `shown` the envelopes pushed and not swept since. -/
structure Store where
  clock : Nat
  convos : List Chat
  refs : Nat
  seen : List Key
  blocked : List String
  waiting : List Waiting
  loads : List Loading
  loadCount : Nat
  silenced : List Key
  hidden : List Key
  shown : List Envelope
deriving DecidableEq, Repr

/-- The names every JavaScript object has a property by, `state.convos` too. -/
def objectNames : List String :=
  ["constructor", "__defineGetter__", "__defineSetter__", "hasOwnProperty", "__lookupGetter__",
    "__lookupSetter__", "isPrototypeOf", "propertyIsEnumerable", "toString", "valueOf",
    "__proto__", "toLocaleString"]

/-- `state.convos` answers to the name without a conversation being there. -/
def Cid.inherited : Cid → Bool
  | .dm peer => objectNames.contains peer
  | .group _ => false

def msgKeyFor (c : Cid) (m : Message) : Key :=
  match c with
  | .dm _ => .dm m.id
  | .group g => .group g m.id

def Message.due (now : Nat) (m : Message) : Bool := m.expiresAt.any fun t => decide (t ≤ now)

def Message.made (a : Account) (e : Envelope) (body : Body) : Message where
  id := e.id
  sender := e.sender
  body := body
  expiresAt := e.expires.filter fun t => t != 0
  origin := (a.relay, e)

def Chat.sorted (v : Chat) : Chat :=
  { v with messages := v.messages.insertionSort fun m n => m.id ≤ n.id }

def Chat.push (m : Message) (v : Chat) : Chat :=
  Chat.sorted { v with messages := v.messages ++ [m], maxId := max v.maxId m.id }

/-- One turn of the client, with what the relay brings it. -/
inductive Store.Event where
  | arrive (e : Envelope)
  | rostered (i : Waiting)
  | push (i : Waiting) (alert : Bool)
  | lose (i : Waiting)
  | ensure (c : Cid)
  | load (c : Cid)
  | serve (l : Loading) (page : List Envelope)
  | next (l : Loading)
  | turn (l : Loading)
  | fail (l : Loading)
  | drop (g : Nat)
  | block (u : String)
  | unblock (u : String)
  | tick (n : Nat)
  | sweep
deriving DecidableEq

namespace Store

/-- `state.blocked` is kept over reloads. -/
def start (blocked : List String) (clock : Nat) : Store where
  clock := clock
  convos := []
  refs := 0
  seen := []
  blocked := blocked
  waiting := []
  loads := []
  loadCount := 0
  silenced := []
  hidden := []
  shown := []

def refOf (c : Cid) (s : Store) : Option Nat := (s.convos.find? fun v => v.cid == c).map Chat.ref

def maxIdOf (c : Cid) (s : Store) : Nat :=
  ((s.convos.find? fun v => v.cid == c).map Chat.maxId).getD 0

/-- `ensureDmConvo` and `ensureGroupConvo`. -/
def ensure (c : Cid) (s : Store) : Store :=
  if s.convos.any (fun v => v.cid == c) || c.inherited then s
  else { s with convos := s.convos ++ [⟨c, s.refs, [], 0⟩], refs := s.refs + 1 }

def blocks (me : String) (e : Envelope) (s : Store) : Bool :=
  match e.cid me with
  | .dm peer => s.blocked.contains peer
  | .group _ => s.blocked.contains e.sender

/-- `ingestDm` and `ingestGroup` up to their first await. -/
def ingest (me : String) (e : Envelope) (load : Option Nat) (s : Store) : Store :=
  if s.seen.contains e.key then s
  else if s.blocks me e then
    { s with
      seen := e.key :: s.seen
      silenced := e.key :: s.silenced
      hidden := if s.blocked.contains e.sender then e.key :: s.hidden else s.hidden }
  else
    match e.target with
    | .user _ =>
      let s := s.ensure (e.cid me)
      { s with waiting := s.waiting ++ [⟨e, .convo (s.refOf (e.cid me)), load⟩] }
    | .group _ =>
      let place :=
        match s.refOf (e.cid me) with
        | none => Place.roster
        | some ref => Place.convo (some ref)
      { s with waiting := s.waiting ++ [⟨e, place, load⟩] }

/-- The keys `sweepExpired` forgets. -/
def dueKeys (now : Nat) (s : Store) : List Key :=
  s.convos.flatMap fun v => (v.messages.filter (Message.due now)).map (msgKeyFor v.cid)

def sweep (now : Nat) (s : Store) : Store :=
  { s with
    convos := s.convos.map fun v => { v with messages := v.messages.filter fun m => !m.due now }
    seen := s.seen.filter fun k => !(s.dueKeys now).contains k
    silenced := s.silenced.filter fun k => !(s.dueKeys now).contains k
    hidden := s.hidden.filter fun k => !(s.dueKeys now).contains k
    shown := s.shown.filter fun e => !(s.dueKeys now).contains e.key }

/-- The first lines of `pushMessage`. An object that was dropped meanwhile takes
the message with it, out of sight. -/
def note (m : Message) (ref : Nat) (e : Envelope) (s : Store) : Store :=
  { s with
    seen := e.key :: s.seen
    shown := e :: s.shown
    convos := s.convos.map fun v => if v.ref = ref then v.push m else v }

/-- Without a list to push to, `pushMessage` throws once it has noted the key, and
ends the load that awaits it. -/
def pushMessage (m : Message) (i : Waiting) (ref : Option Nat) (s : Store) : Store :=
  match ref with
  | none =>
    { s with
      seen := i.env.key :: s.seen
      loads := s.loads.filter fun l => i.load != some l.id }
  | some ref =>
    let s := s.note m ref i.env
    if m.due s.clock then s.sweep s.clock else s

def replace (l : Loading) (fetch : Fetch) (taken : List Envelope) (s : Store) : Store :=
  { s with loads := s.loads.erase l ++ [{ l with fetch := fetch, taken := taken }] }

/-- The load waits for none of its ingests. -/
def free (l : Loading) (s : Store) : Bool := s.waiting.all fun i => i.load != some l.id

def step (a : Account) (s : Store) : Store.Event → Option Store
  | .arrive e => if a.rows.has e then some (s.ingest a.name e none) else none
  | .rostered i =>
    if i ∈ s.waiting ∧ i.place = .roster then
      let s' := s.ensure (i.env.cid a.name)
      some { s' with
        waiting := s.waiting.erase i ++ [{ i with place := .convo (s'.refOf (i.env.cid a.name)) }] }
    else none
  | .push i alert =>
    if i ∈ s.waiting then
      match i.place, a.decode i.env alert with
      | .convo ref, some body =>
        some (({ s with waiting := s.waiting.erase i } : Store).pushMessage
          (.made a i.env body) i ref)
      | _, _ => none
    else none
  | .lose i => if i ∈ s.waiting then some { s with waiting := s.waiting.erase i } else none
  | .ensure c => some (s.ensure c)
  | .load c =>
    let s := s.ensure c
    some { s with
      loads := s.loads ++ [⟨s.loadCount, c, .asked (s.maxIdOf c), []⟩]
      loadCount := s.loadCount + 1 }
  | .serve l page =>
    if l ∈ s.loads then
      match l.fetch with
      | .asked since =>
        if page.all fun e => a.rows.has e && e.cid a.name == l.cid && decide (since < e.id) then
          some (s.replace l (.paging page (cursor Envelope.id a.pageSize page)) l.taken)
        else none
      | .paging _ _ => none
    else none
  | .next l =>
    if l ∈ s.loads ∧ s.free l then
      match l.fetch with
      | .paging (e :: rest) more =>
        some ((s.replace l (.paging rest more) (e :: l.taken)).ingest a.name e (some l.id))
      | _ => none
    else none
  | .turn l =>
    if l ∈ s.loads ∧ s.free l then
      match l.fetch with
      | .paging [] none => some { s with loads := s.loads.erase l }
      | .paging [] (some last) => some (s.replace l (.asked last) l.taken)
      | _ => none
    else none
  | .fail l => if l ∈ s.loads ∧ s.free l then some { s with loads := s.loads.erase l } else none
  | .drop g => some { s with convos := s.convos.filter fun v => v.cid != .group g }
  | .block u => some { s with blocked := u :: s.blocked }
  | .unblock u => some { s with blocked := s.blocked.filter fun v => v != u }
  | .tick n => some { s with clock := s.clock + n }
  | .sweep => some (s.sweep s.clock)

/-- What each turn takes and what it leaves. -/
inductive Moves (a : Account) (s : Store) : Store.Event → Store → Prop where
  | arrived {e : Envelope} (he : a.rows.has e = true) :
    s.Moves a (.arrive e) (s.ingest a.name e none)
  | rostered {i : Waiting} (hi : i ∈ s.waiting) :
    s.Moves a (.rostered i) { s.ensure (i.env.cid a.name) with
      waiting := s.waiting.erase i ++
        [{ i with place := .convo ((s.ensure (i.env.cid a.name)).refOf (i.env.cid a.name)) }] }
  | pushed {i : Waiting} {ref : Option Nat} {alert : Bool} {body : Body} (hi : i ∈ s.waiting)
    (hp : i.place = .convo ref) (hb : a.decode i.env alert = some body) :
    s.Moves a (.push i alert) (({ s with waiting := s.waiting.erase i } : Store).pushMessage
      (.made a i.env body) i ref)
  | lost {i : Waiting} (hi : i ∈ s.waiting) :
    s.Moves a (.lose i) { s with waiting := s.waiting.erase i }
  | ensured (c : Cid) : s.Moves a (.ensure c) (s.ensure c)
  | loaded (c : Cid) : s.Moves a (.load c) { s.ensure c with
      loads := (s.ensure c).loads ++ [⟨(s.ensure c).loadCount, c, .asked ((s.ensure c).maxIdOf c), []⟩]
      loadCount := (s.ensure c).loadCount + 1 }
  | served {l : Loading} {since : Nat} {page : List Envelope} (hl : l ∈ s.loads)
    (hf : l.fetch = .asked since) (hp : ∀ e ∈ page, a.rows.has e = true) :
    s.Moves a (.serve l page)
      (s.replace l (.paging page (cursor Envelope.id a.pageSize page)) l.taken)
  | took {l : Loading} {e : Envelope} {rest : List Envelope} {more : Option Nat} (hl : l ∈ s.loads)
    (hf : l.fetch = .paging (e :: rest) more) :
    s.Moves a (.next l)
      ((s.replace l (.paging rest more) (e :: l.taken)).ingest a.name e (some l.id))
  | turned {l : Loading} {last : Nat} (hl : l ∈ s.loads) :
    s.Moves a (.turn l) (s.replace l (.asked last) l.taken)
  | finished {l : Loading} (hl : l ∈ s.loads) :
    s.Moves a (.turn l) { s with loads := s.loads.erase l }
  | failed {l : Loading} (hl : l ∈ s.loads) :
    s.Moves a (.fail l) { s with loads := s.loads.erase l }
  | dropped (g : Nat) :
    s.Moves a (.drop g) { s with convos := s.convos.filter fun v => v.cid != .group g }
  | blocked (u : String) : s.Moves a (.block u) { s with blocked := u :: s.blocked }
  | unblocked (u : String) :
    s.Moves a (.unblock u) { s with blocked := s.blocked.filter fun v => v != u }
  | ticked (n : Nat) : s.Moves a (.tick n) { s with clock := s.clock + n }
  | swept : s.Moves a .sweep (s.sweep s.clock)

theorem store_moves {a : Account} {s s' : Store} {e : Store.Event} (hs : s.step a e = some s') :
    s.Moves a e s' := by
  cases e with
  | arrive e =>
    simp only [step] at hs
    split at hs <;> cases hs
    rename_i he
    exact .arrived he
  | rostered i =>
    simp only [step] at hs
    split at hs
    · rename_i hi
      cases hs
      exact .rostered hi.1
    · cases hs
  | push i alert =>
    simp only [step] at hs
    split at hs
    · rename_i hi
      split at hs <;> cases hs
      rename_i hp hb
      exact .pushed hi hp hb
    · cases hs
  | lose i =>
    simp only [step] at hs
    split at hs <;> cases hs
    rename_i hi
    exact .lost hi
  | serve l page =>
    simp only [step] at hs
    split at hs
    · rename_i hl
      split at hs
      · rename_i hf
        split at hs <;> cases hs
        rename_i hp
        refine .served hl hf fun e he => ?_
        have := List.all_eq_true.mp hp e he
        simp only [Bool.and_eq_true] at this
        exact this.1.1
      · cases hs
    · cases hs
  | next l =>
    simp only [step] at hs
    split at hs
    · rename_i hl
      split at hs <;> cases hs
      rename_i hf
      exact .took hl.1 hf
    · cases hs
  | turn l =>
    simp only [step] at hs
    split at hs
    · rename_i hl
      split at hs <;> cases hs
      · exact .finished hl.1
      · exact .turned hl.1
    · cases hs
  | fail l =>
    simp only [step] at hs
    split at hs <;> cases hs
    rename_i hl
    exact .failed hl.1
  | ensure c | load c | drop g | block u | unblock u | tick n | sweep =>
    cases hs
    constructor

/-- The message is in the list of the conversation of that name. -/
def Lists (c : Cid) (m : Message) (s : Store) : Prop := ∃ v ∈ s.convos, v.cid = c ∧ m ∈ v.messages

theorem lists_ensure {c d : Cid} {m : Message} {s : Store} :
    (s.ensure d).Lists c m ↔ s.Lists c m := by
  unfold ensure
  split
  · rfl
  · simp [Lists, or_and_right, exists_or]

theorem mem_dueKeys {now : Nat} {k : Key} {s : Store} :
    k ∈ s.dueKeys now ↔ ∃ c m, s.Lists c m ∧ m.due now = true ∧ msgKeyFor c m = k := by
  simp only [dueKeys, List.mem_flatMap, List.mem_map, List.mem_filter]
  constructor
  · rintro ⟨v, hv, m, ⟨hm, hd⟩, hk⟩
    exact ⟨v.cid, m, ⟨v, hv, rfl, hm⟩, hd, hk⟩
  · rintro ⟨c, m, ⟨v, hv, rfl, hm⟩, hd, hk⟩
    exact ⟨v, hv, m, ⟨hm, hd⟩, hk⟩

theorem lists_sweep {now : Nat} {c : Cid} {m : Message} {s : Store} :
    (s.sweep now).Lists c m ↔ s.Lists c m ∧ m.due now = false := by
  simp only [Lists, sweep, List.mem_map]
  constructor
  · rintro ⟨v', ⟨v, hv, rfl⟩, hc, hm⟩
    obtain ⟨hm, hd⟩ := List.mem_filter.mp hm
    exact ⟨⟨v, hv, hc, hm⟩, by simpa using hd⟩
  · rintro ⟨⟨v, hv, hc, hm⟩, hd⟩
    exact ⟨_, ⟨v, hv, rfl⟩, hc, List.mem_filter.mpr ⟨hm, by simpa using hd⟩⟩

theorem lists_drop {g : Nat} {c : Cid} {m : Message} {s : Store} :
    ({ s with convos := s.convos.filter fun v => v.cid != .group g } : Store).Lists c m ↔
      s.Lists c m ∧ c ≠ .group g := by
  simp only [Lists, List.mem_filter]
  constructor
  · rintro ⟨v, ⟨hv, hg⟩, rfl, hm⟩
    exact ⟨⟨v, hv, rfl, hm⟩, by simpa using hg⟩
  · rintro ⟨⟨v, hv, rfl, hm⟩, hg⟩
    exact ⟨v, ⟨hv, by simpa using hg⟩, rfl, hm⟩

theorem mem_push {m n : Message} {v : Chat} :
    n ∈ (v.push m).messages ↔ n ∈ v.messages ∨ n = m := by
  simp [Chat.push, Chat.sorted]

theorem lists_note {m n : Message} {ref : Nat} {e : Envelope} {c : Cid} {s : Store} :
    (s.note m ref e).Lists c n ↔
      s.Lists c n ∨ n = m ∧ ∃ v ∈ s.convos, v.ref = ref ∧ v.cid = c := by
  simp only [Lists, note, List.mem_map]
  constructor
  · rintro ⟨v', ⟨v, hv, rfl⟩, hc, hn⟩
    by_cases hr : v.ref = ref
    · rw [if_pos hr] at hc hn
      rcases mem_push.mp hn with hn | hn
      · exact .inl ⟨v, hv, hc, hn⟩
      · exact .inr ⟨hn, v, hv, hr, hc⟩
    · rw [if_neg hr] at hc hn
      exact .inl ⟨v, hv, hc, hn⟩
  · rintro (⟨v, hv, hc, hn⟩ | ⟨hn, v, hv, hr, hc⟩)
    · refine ⟨_, ⟨v, hv, rfl⟩, ?_⟩
      split
      · exact ⟨hc, mem_push.mpr (.inl hn)⟩
      · exact ⟨hc, hn⟩
    · refine ⟨_, ⟨v, hv, rfl⟩, ?_⟩
      rw [if_pos hr]
      exact ⟨hc, mem_push.mpr (.inr hn)⟩

/-- What starting an ingest can do: nothing, note the key of someone blocked, or
leave it waiting, in a conversation that may be new. -/
theorem store_ingest_cases (me : String) (e : Envelope) (load : Option Nat) (s : Store) :
    e.key ∈ s.seen ∧ s.ingest me e load = s ∨
      e.key ∉ s.seen ∧ s.blocks me e = true ∧ s.ingest me e load = { s with
        seen := e.key :: s.seen
        silenced := e.key :: s.silenced
        hidden := if s.blocked.contains e.sender then e.key :: s.hidden else s.hidden } ∨
      e.key ∉ s.seen ∧ s.blocks me e = false ∧ ∃ t place, (t = s ∨ t = s.ensure (e.cid me)) ∧
        (∀ r, place = .convo (some r) → t.refOf (e.cid me) = some r) ∧
        s.ingest me e load = { t with waiting := t.waiting ++ [⟨e, place, load⟩] } := by
  unfold ingest
  by_cases hk : e.key ∈ s.seen
  · left
    simp [hk]
  · by_cases hb : s.blocks me e = true
    · right; left
      simp [hk, hb]
    · right; right
      have hb : s.blocks me e = false := by simpa using hb
      refine ⟨hk, hb, ?_⟩
      simp only [List.contains_iff_mem, hk, if_false, hb, Bool.false_eq_true]
      cases ht : e.target with
      | user recipient =>
        refine ⟨s.ensure (e.cid me), _, .inr rfl, ?_, rfl⟩
        intro r hr
        exact Place.convo.inj hr
      | group g =>
        refine ⟨s, _, .inl rfl, ?_, rfl⟩
        intro r hr
        cases hc : s.refOf (e.cid me) with
        | none =>
          rw [hc] at hr
          cases hr
        | some ref =>
          rw [hc] at hr
          cases hr
          rfl

/-- What a noted key, a new conversation and an envelope that waits keep, every
ingest keeps. -/
theorem ingest_keeps {P : Store → Prop} {me : String} {e : Envelope} {load : Option Nat} {s : Store}
    (hs : P s)
    (hnoted : P { s with
      seen := e.key :: s.seen
      silenced := e.key :: s.silenced
      hidden := if s.blocked.contains e.sender then e.key :: s.hidden else s.hidden })
    (hensure : P (s.ensure (e.cid me)))
    (hwait : ∀ t place, (∀ r, place = .convo (some r) → t.refOf (e.cid me) = some r) → P t →
      P { t with waiting := t.waiting ++ [⟨e, place, load⟩] }) : P (s.ingest me e load) := by
  rcases store_ingest_cases me e load s with
    ⟨-, hq⟩ | ⟨-, -, hq⟩ | ⟨-, -, t, place, ht, hp, hq⟩
  · rw [hq]
    exact hs
  · rw [hq]
    exact hnoted
  · rw [hq]
    apply hwait t place hp
    rcases ht with rfl | rfl
    · exact hs
    · exact hensure

end Store

end Lattix.Client
