import Mathlib.Tactic.TypeStar

namespace Lattix.Lib.Transactions

/-- One database connection: what is on disk, what its own statements see, and
whether a transaction is open on it. -/
structure Conn (T : Type) where
  committed : T
  working : T
  inTransaction : Bool
deriving DecidableEq

/-- A connection with nothing pending. -/
def Conn.fresh {T : Type} (t : T) : Conn T := ⟨t, t, false⟩

/-- Without an open transaction nothing is pending. -/
def Conn.Settled {T : Type} (c : Conn T) : Prop :=
  c.inTransaction = false → c.working = c.committed

/-- A computation on a connection. A raise keeps what the statements before it
did: nothing is undone unless the code asks for it. -/
def Sql (ε T α : Type) : Type := Conn T → Except ε α × Conn T

variable {ε T α β : Type}

instance : Monad (Sql ε T) where
  pure a := fun c => (.ok a, c)
  bind x f := fun c =>
    match x c with
    | (.ok a, c') => f a c'
    | (.error e, c') => (.error e, c')

def raise (e : ε) : Sql ε T α := fun c => (.error e, c)

/-- `try x except e: h e`. -/
def except (x : Sql ε T α) (h : ε → Sql ε T α) : Sql ε T α := fun c =>
  match x c with
  | (.ok a, c') => (.ok a, c')
  | (.error e, c') => h e c'

/-- A SELECT: reads what the connection sees, pending changes included. -/
def query (f : T → α) : Sql ε T α := fun c => (.ok (f c.working), c)

/-- An INSERT, UPDATE or DELETE. The driver opens a transaction before the
statement runs; a statement that fails changes no row but leaves it open. -/
def write (f : T → Except ε (T × α)) : Sql ε T α := fun c =>
  match f c.working with
  | .ok (t, a) => (.ok a, { c with working := t, inTransaction := true })
  | .error e => (.error e, { c with inTransaction := true })

/-- An explicit BEGIN, refused with `e` inside an open transaction. -/
def begin (e : ε) : Sql ε T Unit := fun c =>
  if c.inTransaction then (.error e, c) else (.ok (), { c with inTransaction := true })

def commit : Sql ε T Unit := fun c => (.ok (), ⟨c.working, c.working, false⟩)

def rollback : Sql ε T Unit := fun c => (.ok (), ⟨c.committed, c.committed, false⟩)

theorem bind_run (x : Sql ε T α) (f : α → Sql ε T β) (c : Conn T) :
    (x >>= f) c = match x c with
      | (.ok a, c') => f a c'
      | (.error e, c') => (.error e, c') := rfl

theorem bind_ok {x : Sql ε T α} {c c' : Conn T} {a : α} (h : x c = (.ok a, c'))
    (f : α → Sql ε T β) : (x >>= f) c = f a c' := by
  rw [bind_run, h]

theorem bind_error {x : Sql ε T α} {c c' : Conn T} {e : ε} (h : x c = (.error e, c'))
    (f : α → Sql ε T β) : (x >>= f) c = (.error e, c') := by
  rw [bind_run, h]

theorem except_ok {x : Sql ε T α} {c c' : Conn T} {a : α} (h : x c = (.ok a, c'))
    (g : ε → Sql ε T α) : except x g c = (.ok a, c') := by
  simp [except, h]

theorem except_error {x : Sql ε T α} {c c' : Conn T} {e : ε} (h : x c = (.error e, c'))
    (g : ε → Sql ε T α) : except x g c = g e c' := by
  simp [except, h]

/-- What follows `x` without touching the database leaves it as `x` did. -/
theorem bind_pure_state {x : Sql ε T α} {f : α → Sql ε T β} (hf : ∀ a c, (f a c).2 = c)
    (c : Conn T) : ((x >>= f) c).2 = (x c).2 := by
  rw [bind_run]
  split
  · rename_i a d h
    rw [hf, h]
  · rename_i e d h
    rw [h]

@[simp] theorem query_bind (f : T → α) (g : α → Sql ε T β) (c : Conn T) :
    (query f >>= g) c = g (f c.working) c := rfl

theorem write_ok {f : T → Except ε (T × α)} {c : Conn T} {t : T} {a : α}
    (h : f c.working = .ok (t, a)) :
    write f c = (.ok a, { c with working := t, inTransaction := true }) := by
  simp [write, h]

theorem write_error {f : T → Except ε (T × α)} {c : Conn T} {e : ε}
    (h : f c.working = .error e) :
    write f c = (.error e, { c with inTransaction := true }) := by
  simp [write, h]

@[simp] theorem commit_bind (g : Unit → Sql ε T β) (c : Conn T) :
    ((commit : Sql ε T Unit) >>= g) c = g () ⟨c.working, c.working, false⟩ := rfl

/-- Both copies of the tables meet `P`, and nothing is pending outside a
transaction. -/
structure Sound (P : T → Prop) (c : Conn T) : Prop where
  committed : P c.committed
  working : P c.working
  settled : c.Settled

theorem Sound.fresh {P : T → Prop} {t : T} (h : P t) : Sound P (Conn.fresh t) :=
  ⟨h, h, fun _ => rfl⟩

/-- Inside a transaction the two copies may differ. -/
theorem Sound.opened {P : T → Prop} {c t : T} (hc : P c) (ht : P t) : Sound P ⟨c, t, true⟩ :=
  ⟨hc, ht, fun h => by cases h⟩

/-- What a computation keeps true of the tables, whether it returns or raises. -/
def Keeps (P : T → Prop) (x : Sql ε T α) : Prop := ∀ c, Sound P c → Sound P (x c).2

namespace Keeps

variable {P : T → Prop}

theorem pure (a : α) : Keeps P (Pure.pure a : Sql ε T α) := fun _ h => h

theorem raise (e : ε) : Keeps P (raise e : Sql ε T α) := fun _ h => h

theorem query (f : T → α) : Keeps P (query f : Sql ε T α) := fun _ h => h

theorem commit : Keeps P (commit : Sql ε T Unit) := fun _ h => .fresh h.working

theorem rollback : Keeps P (rollback : Sql ε T Unit) := fun _ h => .fresh h.committed

theorem begin (e : ε) : Keeps P (begin e : Sql ε T Unit) := by
  intro c h
  unfold Transactions.begin
  split
  · exact h
  · exact .opened h.committed h.working

theorem write {f : T → Except ε (T × α)} (hf : ∀ t t' a, P t → f t = .ok (t', a) → P t') :
    Keeps P (write f) := by
  intro c h
  unfold Transactions.write
  split
  · rename_i t a he
    exact .opened h.committed (hf _ _ _ h.working he)
  · exact .opened h.committed h.working

theorem bind {x : Sql ε T α} {f : α → Sql ε T β} (hx : Keeps P x) (hf : ∀ a, Keeps P (f a)) :
    Keeps P (x >>= f) := by
  intro c h
  have hc := hx c h
  rw [bind_run]
  split
  · rename_i a c' he
    rw [he] at hc
    exact hf a c' hc
  · rename_i e c' he
    rw [he] at hc
    exact hc

theorem except {x : Sql ε T α} {h : ε → Sql ε T α} (hx : Keeps P x) (hh : ∀ e, Keeps P (h e)) :
    Keeps P (except x h) := by
  intro c hs
  have hc := hx c hs
  unfold Transactions.except
  split
  · rename_i a c' he
    rw [he] at hc
    exact hc
  · rename_i e c' he
    rw [he] at hc
    exact hh e c' hc

theorem forM {xs : List β} {f : β → Sql ε T Unit} (hf : ∀ b ∈ xs, Keeps P (f b)) :
    Keeps P (xs.forM f) := by
  induction xs with
  | nil => exact pure ()
  | cons b bs ih =>
    exact bind (hf b (by simp)) fun _ => ih fun d hd => hf d (by simp [hd])

end Keeps

/-- A computation that only looks, and what is true of all it can return. -/
def Reads (Q : α → Prop) (x : Sql ε T α) : Prop := ∀ c, ∃ a, x c = (.ok a, c) ∧ Q a

namespace Reads

theorem pure {Q : α → Prop} {a : α} (h : Q a) : Reads Q (Pure.pure a : Sql ε T α) :=
  fun _ => ⟨a, rfl, h⟩

theorem query {Q : α → Prop} {f : T → α} (h : ∀ t, Q (f t)) : Reads Q (query f : Sql ε T α) :=
  fun _ => ⟨_, rfl, h _⟩

theorem bind {P : α → Prop} {Q : β → Prop} {x : Sql ε T α} {f : α → Sql ε T β}
    (hx : Reads P x) (hf : ∀ a, P a → Reads Q (f a)) : Reads Q (x >>= f) := by
  intro c
  obtain ⟨a, h, ha⟩ := hx c
  rw [bind_ok h]
  exact hf a ha c

theorem keeps {P : T → Prop} {Q : α → Prop} {x : Sql ε T α} (h : Reads Q x) : Keeps P x := by
  intro c hs
  obtain ⟨a, he, -⟩ := h c
  rw [he]
  exact hs

end Reads

/-- What is true of everything a computation can return. -/
def Answers (Q : α → Prop) (x : Sql ε T α) : Prop := ∀ c a, (x c).1 = .ok a → Q a

namespace Answers

theorem pure {Q : α → Prop} {a : α} (h : Q a) : Answers Q (Pure.pure a : Sql ε T α) := by
  intro c b hb
  cases hb
  exact h

theorem bind {Q : β → Prop} {x : Sql ε T α} {f : α → Sql ε T β} (hf : ∀ a, Answers Q (f a)) :
    Answers Q (x >>= f) := by
  intro c b hb
  rw [bind_run] at hb
  split at hb
  · exact hf _ _ b hb
  · cases hb

end Answers

/-- What is true of each value a computation can return and of the tables it
leaves then. -/
def Leaves (Q : α → T → Prop) (x : Sql ε T α) : Prop := ∀ c a d, x c = (.ok a, d) → Q a d.working

namespace Leaves

theorem pure {Q : α → T → Prop} {a : α} (h : ∀ t, Q a t) :
    Leaves Q (Pure.pure a : Sql ε T α) := by
  intro c b d hb
  cases hb
  exact h _

theorem bind {Q : β → T → Prop} {x : Sql ε T α} {f : α → Sql ε T β} (hf : ∀ a, Leaves Q (f a)) :
    Leaves Q (x >>= f) := by
  intro c b d hb
  rw [bind_run] at hb
  split at hb
  · exact hf _ _ b d hb
  · cases hb

/-- What `x` returns, in another form. -/
theorem bind_pure {P : α → T → Prop} {Q : β → T → Prop} {x : Sql ε T α} {g : α → β}
    (hx : Leaves P x) (hg : ∀ a t, P a t → Q (g a) t) : Leaves Q (x >>= fun a => Pure.pure (g a)) := by
  intro c b d hb
  rw [bind_run] at hb
  split at hb
  · rename_i a c' ha
    cases hb
    exact hg a _ (hx c a _ ha)
  · cases hb

/-- One statement, a commit and a value: `hf` says what the statement does. -/
theorem store {Q : β → T → Prop} {f : T → Except ε (T × α)} {g : α → β}
    (hf : ∀ t t' a, f t = .ok (t', a) → Q (g a) t') :
    Leaves Q (write f >>= fun a => commit >>= fun _ => Pure.pure (g a)) := by
  intro c b d hb
  cases hw : f c.working with
  | error e =>
    rw [bind_error (write_error hw)] at hb
    cases hb
  | ok p =>
    obtain ⟨t, a⟩ := p
    rw [bind_ok (write_ok hw), commit_bind] at hb
    cases hb
    exact hf _ t a hw

end Leaves

/-- Both copies of the tables are one: nothing is pending. -/
def Conn.Clean {T : Type} (c : Conn T) : Prop := c.working = c.committed

/-- One statement and a commit: if it raises, it has changed nothing. -/
theorem write_commit_clean {f : T → Except ε (T × α)} {g : α → Sql ε T β}
    (hg : ∀ a c, (g a c).2 = c) {c : Conn T} (h : c.Clean) :
    ((write f >>= fun a => commit >>= fun _ => g a) c).2.Clean := by
  cases hf : f c.working with
  | error e =>
    rw [bind_error (write_error hf)]
    exact h
  | ok p =>
    obtain ⟨t, a⟩ := p
    rw [bind_ok (write_ok hf), commit_bind, hg]
    rfl

/-- A computation that never raises. -/
def Total (x : Sql ε T α) : Prop := ∀ c, ∃ a c', x c = (.ok a, c')

namespace Total

theorem pure (a : α) : Total (Pure.pure a : Sql ε T α) := fun c => ⟨a, c, rfl⟩

theorem query (f : T → α) : Total (query f : Sql ε T α) := fun c => ⟨_, c, rfl⟩

theorem commit : Total (commit : Sql ε T Unit) := fun _ => ⟨_, _, rfl⟩

theorem write {f : T → Except ε (T × α)} (hf : ∀ t, ∃ r, f t = .ok r) : Total (write f) := by
  intro c
  obtain ⟨⟨t, a⟩, h⟩ := hf c.working
  exact ⟨a, _, write_ok h⟩

theorem bind {x : Sql ε T α} {f : α → Sql ε T β} (hx : Total x) (hf : ∀ a, Total (f a)) :
    Total (x >>= f) := by
  intro c
  obtain ⟨a, c', h⟩ := hx c
  rw [bind_ok h]
  exact hf a c'

theorem not_error {x : Sql ε T α} (hx : Total x) {c c' : Conn T} {e : ε} :
    x c ≠ (.error e, c') := by
  obtain ⟨a, d, h⟩ := hx c
  simp [h]

/-- When nothing after `x` can raise, the whole raises exactly as `x` does. -/
theorem bind_error_iff {x : Sql ε T α} {f : α → Sql ε T β} (hf : ∀ a, Total (f a))
    {c c' : Conn T} {e : ε} : (x >>= f) c = (.error e, c') ↔ x c = (.error e, c') := by
  rw [bind_run]
  split
  · rename_i a d h
    constructor
    · intro he
      exact absurd he (hf a).not_error
    · intro he
      simp [h] at he
  · rename_i e' d h
    simp [h]

end Total

theorem Total.bind_clean {x : Sql ε T α} {f : α → Sql ε T β} (hx : Total x)
    (hf : ∀ a c, (f a c).2.Clean) (c : Conn T) : ((x >>= f) c).2.Clean := by
  obtain ⟨a, c', h⟩ := hx c
  rw [bind_ok h]
  exact hf a c'

/-- A computation that returns with nothing pending, wherever it starts. -/
def Ends (x : Sql ε T α) : Prop := ∀ c, ∃ a t, x c = (.ok a, Conn.fresh t)

theorem Ends.commit (a : α) :
    Ends ((Transactions.commit : Sql ε T Unit) >>= fun _ => Pure.pure a) :=
  fun c => ⟨a, c.working, rfl⟩

theorem Ends.bind {x : Sql ε T α} {f : α → Sql ε T β} (hx : Total x)
    (hf : ∀ a, Ends (f a)) : Ends (x >>= f) := by
  intro c
  obtain ⟨a, c', h⟩ := hx c
  rw [bind_ok h]
  exact hf a c'

/-- A computation that starts with nothing pending, returns `a` and leaves
nothing pending. -/
def Yields (x : Sql ε T α) (t : T) (a : α) (t' : T) : Prop :=
  x (Conn.fresh t) = (.ok a, Conn.fresh t')

namespace Yields

theorem pure (t : T) (a : α) : Yields (Pure.pure a : Sql ε T α) t a t := rfl

theorem query (f : T → α) (t : T) : Yields (query f : Sql ε T α) t (f t) t := rfl

theorem bind {x : Sql ε T α} {f : α → Sql ε T β} {t t' t'' : T} {a : α} {b : β}
    (hx : Yields x t a t') (hf : Yields (f a) t' b t'') : Yields (x >>= f) t b t'' := by
  have hb := bind_ok hx f
  exact hb.trans hf

/-- One statement, a commit, and what follows. -/
theorem store {f : T → Except ε (T × α)} {g : α → Sql ε T β} {t t' t'' : T} {a : α} {b : β}
    (hf : f t = .ok (t', a)) (hg : Yields (g a) t' b t'') :
    Yields (write f >>= fun a => commit >>= fun _ => g a) t b t'' := by
  have hw := bind_ok (write_ok (c := Conn.fresh t) hf) fun a => commit >>= fun _ => g a
  exact hw.trans hg

theorem store_last {f : T → Except ε (T × α)} {t t' : T} {a : α} (hf : f t = .ok (t', a)) :
    Yields (write f >>= fun _ => commit) t () t' :=
  bind_ok (write_ok (c := Conn.fresh t) hf) _

end Yields

/-- One statement and a commit. If it raises, all it leaves is an open
transaction with nothing in it. -/
theorem write_then_error {f : T → Except ε (T × α)} {g : α → Sql ε T β}
    (hg : ∀ a, Total (g a)) {c c' : Conn T} {e : ε}
    (h : (write f >>= g) c = (.error e, c')) :
    f c.working = .error e ∧ c' = { c with inTransaction := true } := by
  rw [Total.bind_error_iff hg] at h
  unfold write at h
  split at h
  · cases h
  · rename_i e' hf
    cases h
    exact ⟨hf, rfl⟩

end Lattix.Lib.Transactions
