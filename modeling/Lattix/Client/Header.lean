import Lattix.Lib.Runs
import Lattix.Client.Screen

namespace Lattix.Client
open Lib.Runs

/-- The header names the open conversation once no selection is under way. -/
def Screen.Titled (s : Screen) : Prop :=
  s.selects = [] → ∀ cid, s.current = some cid → s.header = some (s.title cid)

/-- A selection that resumes finds its own conversation open, or none, or the
open one's own selection still has to write the header after it. A new name for
the open group comes in while one of its selections still has to. -/
def Screen.inOrder (s : Screen) : Action → Bool
  | .resume cid => s.current.all fun d =>
    s.title cid == s.title d || (s.selects.erase ⟨cid, false⟩).contains ⟨d, false⟩
  | .learn id name => s.current.all fun d =>
    (s.ensureGroupConvo id name).title d == s.title d || s.selects.contains ⟨d, false⟩
  | _ => true

/-- Until the header names the open conversation, one of its selections is still
to write it. -/
def Screen.Due (s : Screen) : Prop :=
  ∀ cid, s.current = some cid → ⟨cid, false⟩ ∈ s.selects ∨ s.header = some (s.title cid)

theorem Screen.Due.titled {s : Screen} (h : s.Due) : s.Titled := by
  intro hn cid hc
  rcases h cid hc with hm | ht
  · simp [hn] at hm
  · exact ht

theorem open_due {s : Screen} (cid : String) : (s.open cid).Due := by
  intro d hd
  left
  unfold Screen.open at hd ⊢
  split
  · rename_i he
    simp_all
  · rename_i he
    simp_all

theorem title_other {s : Screen} {id : Nat} {name : Option String} {cid : String}
    (h : cid ≠ groupCid id) : (s.ensureGroupConvo id name).title cid = s.title cid := by
  simp [Screen.title, Screen.ensureGroupConvo, h]

theorem learn_due {s : Screen} {id : Nat} {name : Option String} (h : s.Due)
    (ho : s.inOrder (.learn id name) = true) : (s.ensureGroupConvo id name).Due := by
  intro cid hc
  have hc : s.current = some cid := hc
  simp only [Screen.inOrder, hc, Option.all_some, Bool.or_eq_true, beq_iff_eq,
    List.contains_iff_mem] at ho
  rcases ho with ht | hm
  · rw [ht]
    exact h cid hc
  · exact .inl hm

theorem refresh_due {s : Screen} {id : Nat} {name : Option String} (h : s.Due) :
    (s.refresh id name).Due := by
  simp only [Screen.refresh]
  split
  · exact open_due _
  · rename_i hn
    apply learn_due h
    simp only [Screen.inOrder, Option.all_eq_true, Bool.or_eq_true, beq_iff_eq]
    intro cid hc
    left
    apply title_other
    rintro rfl
    exact hn hc

theorem start_due (stored : String → List Char) : (Screen.start stored).Due := by
  intro cid hc
  cases hc

theorem step_due (s : Screen) (a : Action) (s' : Screen) (h : s.Due)
    (ho : s.inOrder a = true) (hs : s.step a = some s') : s'.Due := by
  cases a with
  | learn id name =>
    cases hs
    exact learn_due h ho
  | members id name =>
    cases hs
    exact refresh_due h
  | select cid =>
    cases hs
    exact open_due cid
  | resume cid =>
    simp only [Screen.step] at hs
    split at hs
    · cases hs
      intro d hd
      have hd : s.current = some d := hd
      simp only [Screen.inOrder, hd, Option.all_some, Bool.or_eq_true, beq_iff_eq,
        List.contains_iff_mem] at ho
      rcases ho with ht | hm
      · right
        exact congrArg some ht
      · left
        exact List.mem_append_left _ hm
    · cases hs
  | done cid =>
    simp only [Screen.step] at hs
    split at hs
    · cases hs
      intro d hd
      rcases h d hd with hm | ht
      · left
        exact (List.mem_erase_of_ne (by simp)).mpr hm
      · exact .inr ht
    · cases hs
  | back | close =>
    cases hs
    intro d hd
    cases hd
  | edit position removed inserted =>
    obtain ⟨cid, hc, he⟩ := Option.map_eq_some_iff.mp hs
    subst he
    exact h
  | autosave =>
    cases hs
    exact h
  | send =>
    simp only [Screen.step] at hs
    split at hs
    · cases hs
    · split at hs
      · cases hs
      · cases hs
        exact h
  | sendOk m | sendFail m =>
    simp only [Screen.step] at hs
    split at hs
    · cases hs
      exact h
    · cases hs

end Lattix.Client
