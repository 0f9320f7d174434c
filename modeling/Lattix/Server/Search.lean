import Lattix.Lib.Wildcards
import Lattix.Server.Database

namespace Lattix.Server
open Lib.Wildcards Lib.Transactions

/-- A LIKE pattern with its escapes resolved. One that ends in the escape
character is none. -/
def wildcards : List Char → Option (List (Wildcard Char))
  | [] => some []
  | '%' :: pattern => (wildcards pattern).map (.run :: ·)
  | '_' :: pattern => (wildcards pattern).map (.one :: ·)
  | ['\\'] => none
  | '\\' :: c :: pattern => (wildcards pattern).map (.lit c :: ·)
  | c :: pattern => (wildcards pattern).map (.lit c :: ·)

/-- Letters that LIKE takes for the same. -/
def Alike (c d : Char) : Prop := c.toLower = d.toLower

theorem forall₂_alike {s t : List Char} :
    List.Forall₂ Alike s t ↔ s.map Char.toLower = t.map Char.toLower := by
  rw [← List.forall₂_eq_eq_eq, List.forall₂_map_left_iff, List.forall₂_map_right_iff]
  rfl

/-! The matcher and the patterns it stands for -/

/-- The text is of some pattern that `ps` stands for, if it does. -/
def Fits (ps : Option (List (Wildcard Char))) (text : List Char) : Prop :=
  ∃ qs, ps = some qs ∧ Matches Alike qs text

theorem fits_map {ps : Option (List (Wildcard Char))} {w : Wildcard Char} {text : List Char} :
    Fits (ps.map (w :: ·)) text ↔ ∃ qs, ps = some qs ∧ Matches Alike (w :: qs) text := by
  cases ps with
  | none => simp [Fits]
  | some qs => simp [Fits]

theorem fits_lit {ps : Option (List (Wildcard Char))} {c d : Char} {text : List Char} :
    Fits (ps.map (.lit c :: ·)) (d :: text) ↔ c.toLower = d.toLower ∧ Fits ps text := by
  rw [fits_map]
  simp only [matches_lit_cons, Fits, Alike]
  constructor
  · rintro ⟨qs, hq, hc, hm⟩
    exact ⟨hc, qs, hq, hm⟩
  · rintro ⟨hc, qs, hq, hm⟩
    exact ⟨qs, hq, hc, hm⟩

theorem fits_nothing {ps : Option (List (Wildcard Char))} {c : Char} :
    ¬Fits (ps.map (.lit c :: ·)) [] := by
  rw [fits_map]
  rintro ⟨qs, -, d, rest, h, -⟩
  cases h

theorem like_iff {pattern text : List Char} :
    like pattern text = true ↔ Fits (wildcards pattern) text := by
  induction pattern using wildcards.induct generalizing text with
  | case1 =>
    rw [like, wildcards, List.isEmpty_iff]
    simp [Fits]
  | case2 pattern ih =>
    rw [like, wildcards, fits_map, List.any_eq_true]
    simp only [List.mem_tails, ih, Fits, matches_run]
    constructor
    · rintro ⟨rest, hr, qs, hq, hm⟩
      exact ⟨qs, hq, rest, hr, hm⟩
    · rintro ⟨qs, hq, rest, hr, hm⟩
      exact ⟨rest, hr, qs, hq, hm⟩
  | case3 pattern ih =>
    rw [wildcards, fits_map]
    cases text with
    | nil => simp [like, Matches]
    | cons d text =>
      simp only [like, matches_one_cons]
      exact ih
  | case4 => simp [like, wildcards, Fits]
  | case5 c pattern ih =>
    rw [wildcards]
    cases text with
    | nil => simp [like, fits_nothing]
    | cons d text => rw [like, fits_lit, Bool.and_eq_true_iff, beq_iff_eq, ih]
  | case6 c pattern h1 h2 h3 h4 ih =>
    cases text with
    | nil =>
      rw [wildcards, like]
      · simp [fits_nothing]
      all_goals assumption
    | cons d text =>
      rw [wildcards, like, fits_lit, Bool.and_eq_true_iff, beq_iff_eq, ih]
      all_goals assumption

/-! Escaping -/

theorem replace_cons (x : Char) (by_ : List Char) (c : Char) (s : List Char) :
    replace x by_ (c :: s) = (if c = x then by_ else [c]) ++ replace x by_ s :=
  List.flatMap_cons

theorem replace_append (x : Char) (by_ s t : List Char) :
    replace x by_ (s ++ t) = replace x by_ s ++ replace x by_ t :=
  List.flatMap_append

/-- The later replacements leave the escape characters of the earlier ones alone. -/
theorem escapeLike_cons (c : Char) (query : List Char) : escapeLike (c :: query) =
    (if c = '\\' ∨ c = '%' ∨ c = '_' then ['\\', c] else [c]) ++ escapeLike query := by
  unfold escapeLike
  simp only [replace_cons, replace_append]
  congr 1
  by_cases hb : c = '\\'
  · subst hb
    rfl
  · by_cases hp : c = '%'
    · subst hp
      rfl
    · by_cases hu : c = '_'
      · subst hu
        rfl
      · simp [hb, hp, hu, replace]

/-- An escaped query stands for its letters. -/
theorem wildcards_escapeLike (query rest : List Char) :
    wildcards (escapeLike query ++ rest) = (wildcards rest).map (query.map .lit ++ ·) := by
  induction query with
  | nil => simp [escapeLike, replace]
  | cons c query ih =>
    rw [escapeLike_cons, List.append_assoc]
    split
    · simp only [List.cons_append, List.nil_append, wildcards, ih, Option.map_map]
      rfl
    · rename_i hc
      simp only [not_or] at hc
      obtain ⟨hb, hp, hu⟩ := hc
      rw [List.singleton_append, wildcards]
      · simp only [ih, Option.map_map]
        rfl
      · exact hp
      · exact hu
      · exact fun h => absurd h hb
      · exact fun _ _ h => absurd h hb

theorem like_escaped (query name : List Char) : like ('%' :: escapeLike query ++ ['%']) name = true ↔
    query.map Char.toLower <:+: name.map Char.toLower := by
  have hpattern : wildcards ('%' :: escapeLike query ++ ['%']) =
      some (.run :: (query.map .lit ++ [.run])) := by
    rw [List.cons_append, wildcards, wildcards_escapeLike]
    rfl
  rw [like_iff, hpattern]
  simp only [Fits, Option.some.injEq, exists_eq_left', matches_infix, forall₂_alike]
  exact List.infix_map_iff.symm

/-- A search shows only users whose names have the query in them, and all of them
while there is room. -/
theorem searchUsers_finds (query : String) (limit : Nat) (c : Conn Tables) : ∃ found,
    searchUsers query limit c = (.ok found, c) ∧
    (∀ e ∈ found, query.toList.map Char.toLower <:+: e.username.toList.map Char.toLower) ∧
    (found.length < limit → ∀ r ∈ c.working.users,
      query.toList.map Char.toLower <:+: r.username.toList.map Char.toLower →
        ∃ e ∈ found, e.username = r.username) := by
  refine ⟨_, rfl, fun e he => ?_, fun hroom r hr hq => ?_⟩
  · obtain ⟨r, hr, rfl⟩ := List.mem_map.mp he
    have hmem := (List.mem_insertionSort _).mp (List.mem_of_mem_take hr)
    exact (like_escaped query.toList r.username.toList).mp (List.mem_filter.mp hmem).2
  · rw [List.length_map, List.length_take] at hroom
    have hlen := lt_of_not_ge fun h => hroom.ne (Nat.min_eq_left h)
    refine ⟨⟨r.username, r.fingerprint, r.avatar⟩, List.mem_map.mpr ⟨r, ?_, rfl⟩, rfl⟩
    rw [List.take_of_length_le hlen.le, List.mem_insertionSort]
    exact List.mem_filter.mpr ⟨hr, (like_escaped query.toList r.username.toList).mpr hq⟩

end Lattix.Server
