import Mathlib.Data.List.Infix
import Mathlib.Data.List.Forall2

namespace Lattix.Lib.Wildcards
variable {α β : Type*}

/-- An element of a pattern: any run of elements, any single one, or one that is
the same as the given one. -/
inductive Wildcard (α : Type*) where
  | run
  | one
  | lit (a : α)
deriving DecidableEq, Repr

/-- The whole text is as the pattern says, with `same` between what they consist of. -/
def Matches (same : α → β → Prop) : List (Wildcard α) → List β → Prop
  | [], text => text = []
  | .run :: ps, text => ∃ skipped rest, text = skipped ++ rest ∧ Matches same ps rest
  | .one :: ps, text => ∃ b rest, text = b :: rest ∧ Matches same ps rest
  | .lit a :: ps, text => ∃ b rest, text = b :: rest ∧ same a b ∧ Matches same ps rest

variable {same : α → β → Prop} {ps qs : List (Wildcard α)} {text : List β}

@[simp] theorem matches_nil : Matches same [] text ↔ text = [] := Iff.rfl

theorem matches_run :
    Matches same (.run :: ps) text ↔ ∃ rest, rest <:+ text ∧ Matches same ps rest := by
  constructor
  · rintro ⟨skipped, rest, rfl, h⟩
    exact ⟨rest, List.suffix_append _ _, h⟩
  · rintro ⟨rest, ⟨skipped, rfl⟩, h⟩
    exact ⟨skipped, rest, rfl, h⟩

@[simp] theorem matches_one_cons {b : β} :
    Matches same (.one :: ps) (b :: text) ↔ Matches same ps text := by
  simp [Matches]

@[simp] theorem matches_lit_cons {a : α} {b : β} :
    Matches same (.lit a :: ps) (b :: text) ↔ same a b ∧ Matches same ps text := by
  simp [Matches]

/-- A run at the end takes all that is left. -/
theorem matches_run_last : Matches same [.run] text :=
  ⟨text, [], (List.append_nil text).symm, rfl⟩

theorem matches_lits {as : List α} : Matches same (as.map .lit ++ ps) text ↔
    ∃ found rest, text = found ++ rest ∧ List.Forall₂ same as found ∧ Matches same ps rest := by
  induction as generalizing text with
  | nil => simp
  | cons a as ih =>
    constructor
    · rintro ⟨b, text, rfl, hab, h⟩
      obtain ⟨found, rest, rfl, hf, hr⟩ := ih.mp h
      exact ⟨b :: found, rest, rfl, .cons hab hf, hr⟩
    · rintro ⟨found, rest, rfl, hf, hr⟩
      obtain ⟨b, tail, hab, htail, rfl⟩ := List.forall₂_cons_left_iff.mp hf
      exact ⟨b, tail ++ rest, rfl, hab, ih.mpr ⟨tail, rest, rfl, htail, hr⟩⟩

/-- Between two runs, literals are looked for anywhere. -/
theorem matches_infix {as : List α} : Matches same (.run :: (as.map .lit ++ [.run])) text ↔
    ∃ found, found <:+: text ∧ List.Forall₂ same as found := by
  constructor
  · rintro ⟨before, rest, rfl, h⟩
    obtain ⟨found, after, rfl, hf, -⟩ := matches_lits.mp h
    exact ⟨found, ⟨before, after, List.append_assoc ..⟩, hf⟩
  · rintro ⟨found, ⟨before, after, rfl⟩, hf⟩
    refine ⟨before, found ++ after, List.append_assoc .., ?_⟩
    exact matches_lits.mpr ⟨found, after, rfl, hf, matches_run_last⟩

end Lattix.Lib.Wildcards
