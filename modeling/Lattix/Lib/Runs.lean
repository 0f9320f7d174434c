import Mathlib.Tactic.TypeStar

namespace Lattix.Lib.Runs

variable {σ α : Type*} (step : σ → α → Option σ)

/-- The state after a list of labels, oldest first. A label that is not enabled
in the state it is tried in stops the whole run. -/
def run : σ → List α → Option σ
  | s, [] => some s
  | s, a :: as => (step s a).bind fun t => run t as

/-- Each step of a run meets `ok` in the state it is taken from. -/
def Meets (ok : σ → α → Prop) : σ → List α → Prop
  | _, [] => True
  | s, a :: as => ok s a ∧ ∀ t, step s a = some t → Meets ok t as

/-- The same as a test. -/
def meets (ok : σ → α → Bool) : σ → List α → Bool
  | _, [] => true
  | s, a :: as => ok s a && (step s a).all fun t => meets ok t as

variable {step}

theorem meets_eq_true {ok : σ → α → Bool} {s : σ} {as : List α} :
    meets step ok s as = true ↔ Meets step (fun s a => ok s a = true) s as := by
  induction as generalizing s with
  | nil => exact ⟨fun _ => trivial, fun _ => rfl⟩
  | cons a as ih =>
    rw [meets, Meets, Bool.and_eq_true, Option.all_eq_true]
    exact and_congr_right fun _ => forall_congr' fun t => imp_congr_right fun _ => ih

theorem run_cons {s t : σ} {a : α} {as : List α} :
    run step s (a :: as) = some t ↔ ∃ u, step s a = some u ∧ run step u as = some t := by
  simp [run, Option.bind_eq_some_iff]

theorem run_snoc {s u t : σ} {a : α} {as : List α} (h : run step s as = some u)
    (ha : step u a = some t) : run step s (as ++ [a]) = some t := by
  induction as generalizing s with
  | nil =>
    cases h
    exact run_cons.mpr ⟨t, ha, rfl⟩
  | cons b as ih =>
    obtain ⟨v, hv, h⟩ := run_cons.mp h
    exact run_cons.mpr ⟨v, hv, ih h⟩

/-- A predicate that every step preserves holds after every run. -/
theorem invariant {I : σ → Prop} (hstep : ∀ s a t, I s → step s a = some t → I t)
    {s t : σ} {as : List α} (hs : I s) (hrun : run step s as = some t) : I t := by
  induction as generalizing s with
  | nil => cases hrun; exact hs
  | cons a as ih =>
    obtain ⟨u, hu, ht⟩ := run_cons.mp hrun
    exact ih (hstep s a u hs hu) ht

/-- The same for runs whose steps all meet a condition. -/
theorem invariant_meets {I : σ → Prop} {ok : σ → α → Prop}
    (hstep : ∀ s a t, I s → ok s a → step s a = some t → I t)
    {s t : σ} {as : List α} (hs : I s) (hok : Meets step ok s as)
    (hrun : run step s as = some t) : I t := by
  induction as generalizing s with
  | nil => cases hrun; exact hs
  | cons a as ih =>
    obtain ⟨u, hu, ht⟩ := run_cons.mp hrun
    exact ih (hstep s a u hs hok.1 hu) (hok.2 u hu) ht

/-- `F` was true of `b` in some state that the run has been in. -/
def Past {β : Type*} (step : σ → α → Option σ) (F : σ → β → Prop) (s : σ) (as : List α) (b : β) :
    Prop :=
  ∃ bs, bs <+: as ∧ ∃ u, run step s bs = some u ∧ F u b

/-- An invariant that mentions what has been true by now, where each step keeps
it for any `M` that covers what is true after the step. -/
theorem invariant_past {β : Type*} {F : σ → β → Prop} {I : (β → Prop) → σ → Prop}
    (hstep : ∀ M s a t, (∀ b, F t b → M b) → I M s → step s a = some t → I M t)
    {s t : σ} {as : List α} (hs : ∀ M, I M s) (hrun : run step s as = some t) :
    I (Past step F s as) t := by
  have hM : ∀ bs u, bs <+: as → run step s bs = some u → ∀ b, F u b → Past step F s as b :=
    fun bs u hbs hu b hb => ⟨bs, hbs, u, hu, hb⟩
  have hI := hs (Past step F s as)
  clear hs
  generalize Past step F s as = M at hM hI ⊢
  induction as generalizing s with
  | nil =>
    cases hrun
    exact hI
  | cons a as ih =>
    obtain ⟨v, hv, ht⟩ := run_cons.mp hrun
    have hnow := hM [a] v ⟨as, rfl⟩ (run_cons.mpr ⟨v, hv, rfl⟩)
    refine ih ht (fun bs u hbs hu => ?_) (hstep M s a v hnow hI hv)
    exact hM (a :: bs) u ((List.prefix_cons_inj a).mpr hbs) (run_cons.mpr ⟨v, hv, hu⟩)

theorem meets_initial {ok : σ → α → Prop} {s : σ} {as bs : List α} (h : bs <+: as)
    (hok : Meets step ok s as) : Meets step ok s bs := by
  induction bs generalizing s as with
  | nil => trivial
  | cons b bs ih =>
    obtain ⟨cs, rfl⟩ := h
    exact ⟨hok.1, fun t ht => ih ⟨cs, rfl⟩ (hok.2 t ht)⟩

/-- A condition on the labels alone. -/
theorem meets_labels {ok : α → Prop} {s : σ} {as : List α} (h : ∀ a ∈ as, ok a) :
    Meets step (fun _ a => ok a) s as := by
  induction as generalizing s with
  | nil => trivial
  | cons a as ih =>
    exact ⟨h a List.mem_cons_self, fun t _ => ih fun b hb => h b (List.mem_cons_of_mem a hb)⟩

/-- Where each step keeps `I` just when it meets the condition, and never
restores it, so does each run. -/
theorem meets_iff {I K : σ → Prop} {ok : σ → α → Prop}
    (hstep : ∀ s a t, K s → step s a = some t → K t ∧ (I t ↔ I s ∧ ok s a))
    {s t : σ} {as : List α} (hs : K s) (hrun : run step s as = some t) :
    I t ↔ I s ∧ Meets step ok s as := by
  induction as generalizing s with
  | nil =>
    cases hrun
    simp [Meets]
  | cons a as ih =>
    obtain ⟨u, hu, ht⟩ := run_cons.mp hrun
    obtain ⟨hk, hi⟩ := hstep s a u hs hu
    rw [ih hk ht, hi, and_assoc]
    refine and_congr_right fun _ => and_congr_right fun _ => ⟨fun h v hv => ?_, fun h => h u hu⟩
    cases hu.symm.trans hv
    exact h

/-- Where a step from a good state leads to a good state just when it meets the
condition, all states of a run are good just when all of its steps meet it. -/
theorem throughout_iff {K P : σ → Prop} {ok : σ → α → Prop}
    (hstep : ∀ s a t, K s → P s → step s a = some t → K t ∧ (P t ↔ ok s a))
    {s t : σ} {as : List α} (hk : K s) (hp : P s) (hrun : run step s as = some t) :
    (∀ bs u, bs <+: as → run step s bs = some u → P u) ↔ Meets step ok s as := by
  induction as generalizing s with
  | nil =>
    refine ⟨fun _ => trivial, fun _ bs u hbs hu => ?_⟩
    rw [List.prefix_nil.mp hbs] at hu
    cases hu
    exact hp
  | cons a as ih =>
    obtain ⟨v, hv, ht⟩ := run_cons.mp hrun
    obtain ⟨hkv, hpv⟩ := hstep s a v hk hp hv
    constructor
    · intro h
      have hgood : P v := by
        apply h [a] v ⟨as, rfl⟩
        exact run_cons.mpr ⟨v, hv, rfl⟩
      refine ⟨hpv.mp hgood, fun v' hv' => ?_⟩
      cases hv.symm.trans hv'
      apply (ih hkv hgood ht).mp
      intro bs u hbs hu
      apply h (a :: bs) u ((List.prefix_cons_inj a).mpr hbs)
      exact run_cons.mpr ⟨v, hv, hu⟩
    · rintro ⟨hok, hrest⟩ bs u hbs hu
      cases bs with
      | nil =>
        cases hu
        exact hp
      | cons b bs =>
        obtain ⟨rfl, htail⟩ := List.cons_prefix_cons.mp hbs
        obtain ⟨v', hv', hu⟩ := run_cons.mp hu
        cases hv.symm.trans hv'
        exact (ih hkv (hpv.mpr hok) ht).mpr (hrest v hv) bs u htail hu

/-- Two conditions that agree as long as the second has been met. -/
theorem meets_congr {I : σ → Prop} {ok ok' : σ → α → Prop}
    (hstep : ∀ s a t, I s → step s a = some t → (ok s a ↔ ok' s a) ∧ (ok' s a → I t))
    {s t : σ} {as : List α} (hs : I s) (hrun : run step s as = some t) :
    Meets step ok s as ↔ Meets step ok' s as := by
  induction as generalizing s with
  | nil => rfl
  | cons a as ih =>
    obtain ⟨u, hu, ht⟩ := run_cons.mp hrun
    obtain ⟨hok, hi⟩ := hstep s a u hs hu
    rw [Meets, Meets, hok]
    refine and_congr_right fun hm => ⟨fun h v hv => ?_, fun h v hv => ?_⟩ <;>
      cases hu.symm.trans hv
    · exact (ih (hi hm) ht).mp (h u hu)
    · exact (ih (hi hm) ht).mpr (h u hu)

/-- The condition met by a concrete run can be checked by evaluating it. -/
instance decidableMeets {ok : σ → α → Prop} [∀ s a, Decidable (ok s a)] :
    (s : σ) → (as : List α) → Decidable (Meets step ok s as)
  | _, [] => .isTrue trivial
  | s, a :: as =>
    match h : step s a with
    | none => decidable_of_iff (ok s a) (by simp [Meets, h])
    | some t =>
      have : Decidable (Meets step ok t as) := decidableMeets t as
      decidable_of_iff (ok s a ∧ Meets step ok t as) (by simp [Meets, h])

/-- What is kept in mind of a run, brought up to date before each step. -/
def gather {β : Type*} (step : σ → α → Option σ) (f : β → σ → α → β) : β → σ → List α → β
  | b, _, [] => b
  | b, s, a :: as =>
    match step s a with
    | some t => gather step f (f b s a) t as
    | none => b

/-- An invariant that mentions it. -/
theorem invariant_gather {β : Type*} {f : β → σ → α → β} {I : β → σ → Prop} {ok : σ → α → Prop}
    (hstep : ∀ b s a t, I b s → ok s a → step s a = some t → I (f b s a) t)
    {b : β} {s t : σ} {as : List α} (hs : I b s) (hok : Meets step ok s as)
    (hrun : run step s as = some t) : I (gather step f b s as) t := by
  induction as generalizing b s with
  | nil =>
    cases hrun
    exact hs
  | cons a as ih =>
    obtain ⟨u, hu, ht⟩ := run_cons.mp hrun
    rw [gather, hu]
    exact ih (hstep b s a u hs hok.1 hu) (hok.2 u hu) ht

theorem mapM_of_some {β : Type*} {f : σ → Option β} {g : σ → β} {xs : List σ}
    (h : ∀ x ∈ xs, f x = some (g x)) : xs.mapM f = some (xs.map g) := by
  induction xs with
  | nil => rfl
  | cons x xs ih =>
    rw [List.mapM_cons, h x List.mem_cons_self, ih fun y hy => h y (List.mem_cons_of_mem _ hy)]
    rfl

theorem mem_of_mapM {β : Type*} {f : σ → Option β} {xs : List σ} {ys : List β} {x : σ}
    (h : xs.mapM f = some ys) (hx : x ∈ xs) : ∃ y ∈ ys, f x = some y := by
  induction xs generalizing ys with
  | nil => cases hx
  | cons a xs ih =>
    simp only [List.mapM_cons, Option.pure_def, Option.bind_eq_bind, Option.bind_eq_some_iff] at h
    obtain ⟨y, hy, zs, hzs, he⟩ := h
    cases he
    rcases List.mem_cons.mp hx with rfl | hx
    · exact ⟨y, List.mem_cons_self, hy⟩
    · obtain ⟨z, hz, hf⟩ := ih hzs hx
      exact ⟨z, List.mem_cons_of_mem _ hz, hf⟩

end Lattix.Lib.Runs
