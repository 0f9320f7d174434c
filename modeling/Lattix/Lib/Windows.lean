import Mathlib.Algebra.Order.Group.Defs
import Mathlib.Data.List.Basic
import Mathlib.Data.List.Induction

/-! Sliding windows: what counts at a time of what happened before. -/

namespace Lattix.Lib.Windows

/-- Which times lie too far back, looked at from a time. A difference of clock
readings may be rounded, as long as it is monotone. -/
structure Window (T : Type*) [Preorder T] where
  past : T → T → Bool
  past_later : ∀ {now later t}, now ≤ later → past now t = true → past later t = true
  past_earlier : ∀ {now s t}, s ≤ t → past now t = true → past now s = true

/-- What is more than `len` ago. -/
def Window.ofLength {T : Type*} [AddCommGroup T] [LinearOrder T] [IsOrderedAddMonoid T] (len : T) :
    Window T where
  past now t := decide (len < now - t)
  past_later h hp := by
    simp only [decide_eq_true_eq] at hp ⊢
    exact lt_of_lt_of_le hp (sub_le_sub_right h _)
  past_earlier h hp := by
    simp only [decide_eq_true_eq] at hp ⊢
    exact lt_of_lt_of_le hp (sub_le_sub_left h _)

section recent
variable {T : Type*} [Preorder T] (W : Window T) {now later : T} {ts : List T}

def recent (now : T) (ts : List T) : List T := ts.filter (!W.past now ·)

/-- In order of time, what lies too far back comes first. -/
theorem dropWhile_past (h : ts.Pairwise (· ≤ ·)) : ts.dropWhile (W.past now) = recent W now ts := by
  induction ts with
  | nil => rfl
  | cons t ts ih =>
    obtain ⟨ht, hts⟩ := List.pairwise_cons.mp h
    rcases Bool.eq_false_or_eq_true (W.past now t) with hp | hp
    · rw [List.dropWhile_cons_of_pos hp, ih hts, recent, recent, List.filter_cons_of_neg (by simp [hp])]
    · have hall : ∀ s ∈ t :: ts, W.past now s = false := by
        intro s hs
        rcases List.mem_cons.mp hs with rfl | hs
        · exact hp
        · by_contra hc
          rw [Bool.not_eq_false] at hc
          rw [W.past_earlier (ht s hs) hc] at hp
          cases hp
      rw [List.dropWhile_cons_of_neg (by simp [hp]), recent,
        List.filter_eq_self.mpr fun s hs => by simp [hall s hs]]

/-- What no longer counts never counts again. -/
theorem recent_recent (h : now ≤ later) : recent W later (recent W now ts) = recent W later ts := by
  rw [recent, recent, List.filter_filter]
  refine List.filter_congr fun t _ => ?_
  rcases Bool.eq_false_or_eq_true (W.past now t) with hp | hp
  · simp [hp, W.past_later h hp]
  · simp [hp]

theorem recent_append (ss ts : List T) : recent W now (ss ++ ts) = recent W now ss ++ recent W now ts :=
  List.filter_append ..

end recent

/-! Admission by key -/

/-- When `k` was admitted. -/
def times {T κ : Type*} [DecidableEq κ] (k : κ) (log : List (κ × T)) : List T :=
  (log.filter fun e => e.1 = k).map Prod.snd

theorem times_append {T κ : Type*} [DecidableEq κ] {k : κ} (log : List (κ × T)) (e : κ × T) :
    times k (log ++ [e]) = times k log ++ if e.1 = k then [e.2] else [] := by
  unfold times
  rw [List.filter_append, List.map_append]
  by_cases h : e.1 = k <;> simp [h]

section ledger
variable {T κ : Type*} [LinearOrder T] [DecidableEq κ] (W : Window T) (max : Nat)

/-- Fewer than `max` admissions of `k` count. -/
def Admits (log : List (κ × T)) (e : κ × T) : Prop := (recent W e.2 (times e.1 log)).length < max

instance (log : List (κ × T)) (e : κ × T) : Decidable (Admits W max log e) :=
  inferInstanceAs (Decidable (_ < _))

def slide (log : List (κ × T)) (e : κ × T) : List (κ × T) :=
  if Admits W max log e then log ++ [e] else log

variable {W max} {k : κ} {log : List (κ × T)} {e : κ × T}

/-- In no stretch that fits the window is a key admitted more often. -/
theorem slides_bounded (es : List (κ × T)) (h : es.Pairwise fun x y => x.2 ≤ y.2) (k : κ)
    {first last : T} (hw : W.past last first = false) :
    ((times k (es.foldl (slide W max) [])).filter fun t => first ≤ t ∧ t ≤ last).length ≤ max := by
  induction es using List.reverseRecOn with
  | nil => exact Nat.zero_le _
  | append_singleton es e ih =>
    obtain ⟨hes, -, hle⟩ := List.pairwise_append.mp h
    have ih := ih hes
    rw [List.foldl_append, List.foldl_cons, List.foldl_nil, slide]
    split
    · rename_i hadmit
      rw [times_append, List.filter_append, List.length_append]
      split
      · rename_i hk
        by_cases hin : first ≤ e.2 ∧ e.2 ≤ last
        · -- What lies in the stretch with `e` still counts at `e`.
          have hsub : ((times k (es.foldl (slide W max) [])).filter fun t => first ≤ t ∧ t ≤ last).length ≤
              (recent W e.2 (times k (es.foldl (slide W max) []))).length := by
            refine (List.monotone_filter_right _ fun t ht => ?_).length_le
            simp only [decide_eq_true_eq] at ht
            by_contra hp
            simp only [Bool.not_eq_true', Bool.not_eq_false] at hp
            rw [W.past_later hin.2 (W.past_earlier ht.1 hp)] at hw
            cases hw
          have hlt : (recent W e.2 (times k (es.foldl (slide W max) []))).length < max := hk ▸ hadmit
          rw [List.filter_cons_of_pos (by simpa using hin)]
          simp only [List.filter_nil, List.length_singleton]
          omega
        · rw [List.filter_cons_of_neg (by simpa using hin)]
          exact ih
      · exact ih
    · exact ih

end ledger

end Lattix.Lib.Windows
