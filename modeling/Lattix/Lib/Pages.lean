import Mathlib.Data.List.Sort

namespace Lattix.Lib.Pages

variable {α : Type*} (key : α → Nat)

/-- The first `n` entries past a cursor. -/
def page (n since : Nat) (xs : List α) : List α := (xs.filter fun x => since < key x).take n

/-- The cursor a full page goes on from. A short page is the last. -/
def cursor (n : Nat) (xs : List α) : Option Nat :=
  if xs.length < n then none else xs.getLast?.map key

variable {key} {n since : Nat} {xs : List α} {x y : α}

theorem mem_page (h : x ∈ page key n since xs) : x ∈ xs ∧ since < key x := by
  have h := List.mem_of_mem_take h
  simpa using List.mem_filter.mp h

theorem page_pairwise (hs : xs.Pairwise fun a b => key a < key b) :
    (page key n since xs).Pairwise fun a b => key a < key b :=
  (hs.filter _).sublist (List.take_sublist _ _)

theorem eq_of_key (hs : xs.Pairwise fun a b => key a < key b) (hx : x ∈ xs) (hy : y ∈ xs)
    (h : key x = key y) : x = y :=
  List.inj_on_of_nodup_map (List.pairwise_map.mpr (hs.imp Nat.ne_of_lt)) hx hy h

theorem le_getLast (hs : xs.Pairwise fun a b => key a < key b) (hne : xs ≠ []) (hx : x ∈ xs) :
    key x ≤ key (xs.getLast hne) := by
  rw [← List.dropLast_append_getLast hne] at hs hx
  rcases List.mem_append.mp hx with hx | hx
  · exact Nat.le_of_lt ((List.pairwise_append.mp hs).2.2 x hx _ (List.mem_singleton.mpr rfl))
  · exact Nat.le_of_eq (congrArg key (List.mem_singleton.mp hx))

/-- What a page leaves out comes after all of it, and the page is full. -/
theorem page_rest (hs : xs.Pairwise fun a b => key a < key b) (hy : y ∈ xs) (hlt : since < key y)
    (hn : y ∉ page key n since xs) :
    (page key n since xs).length = n ∧ ∀ x ∈ page key n since xs, key x < key y := by
  have hf := hs.filter fun x => since < key x
  have hy : y ∈ xs.filter fun x => since < key x := List.mem_filter.mpr ⟨hy, by simpa using hlt⟩
  rw [← List.take_append_drop n (xs.filter fun x => since < key x)] at hf hy
  have hd := (List.mem_append.mp hy).resolve_left hn
  constructor
  · have hpos := List.length_pos_of_mem hd
    rw [List.length_drop] at hpos
    simp only [page, List.length_take]
    omega
  · intro x hx
    exact (List.pairwise_append.mp hf).2.2 x hx y hd

/-- Past the last entry of a full page is what the page leaves out. -/
theorem filter_getLast (hs : xs.Pairwise fun a b => key a < key b)
    (hne : page key n since xs ≠ []) :
    (xs.filter fun x => key ((page key n since xs).getLast hne) < key x) =
      (xs.filter fun x => since < key x).drop n := by
  let last := (page key n since xs).getLast hne
  have hlast := List.getLast_mem hne
  have hpast : since < key last := (mem_page hlast).2
  have hf : xs.filter (fun x => key last < key x) =
      (xs.filter fun x => since < key x).filter fun x => key last < key x := by
    rw [List.filter_filter]
    refine List.filter_congr fun x _ => ?_
    rw [Bool.eq_iff_iff]
    simp only [Bool.and_eq_true, decide_eq_true_eq]
    exact ⟨fun h => ⟨h, Nat.lt_trans hpast h⟩, fun h => h.1⟩
  have hw := hs.filter fun x => since < key x
  have hsplit := List.take_append_drop n (xs.filter fun x => since < key x)
  rw [← hsplit] at hw
  have hfirst : (page key n since xs).filter (fun x => key last < key x) = [] := by
    refine List.filter_eq_nil_iff.mpr fun x hx hlt => ?_
    have hle : key x ≤ key last := le_getLast (page_pairwise hs) hne hx
    exact absurd (of_decide_eq_true hlt) (Nat.not_lt.mpr hle)
  have hrest : ((xs.filter fun x => since < key x).drop n).filter (fun x => key last < key x) =
      (xs.filter fun x => since < key x).drop n :=
    List.filter_eq_self.mpr fun x hx =>
      decide_eq_true ((List.pairwise_append.mp hw).2.2 _ hlast x hx)
  calc xs.filter (fun x => key last < key x)
      = (page key n since xs ++ (xs.filter fun x => since < key x).drop n).filter
          fun x => key last < key x := hf.trans (congrArg (List.filter _) hsplit.symm)
    _ = (xs.filter fun x => since < key x).drop n := by
      rw [List.filter_append, hfirst, hrest, List.nil_append]

theorem cursor_mem {m : Nat} (h : cursor key n xs = some m) : ∃ x ∈ xs, key x = m := by
  unfold cursor at h
  split at h
  · cases h
  · obtain ⟨x, hx, he⟩ := Option.map_eq_some_iff.mp h
    exact ⟨x, List.mem_of_getLast? hx, he⟩

/-- Whatever a page leaves out is past the cursor it gives. -/
theorem page_cursor (hn : 0 < n) (hs : xs.Pairwise fun a b => key a < key b) (hy : y ∈ xs)
    (hlt : since < key y) (hny : y ∉ page key n since xs) :
    ∃ m, cursor key n (page key n since xs) = some m ∧ m < key y := by
  obtain ⟨hlen, hall⟩ := page_rest hs hy hlt hny
  have hne : page key n since xs ≠ [] := by
    intro he
    rw [he] at hlen
    simp at hlen
    omega
  refine ⟨key ((page key n since xs).getLast hne), ?_, hall _ (List.getLast_mem hne)⟩
  simp [cursor, hlen, List.getLast?_eq_some_getLast hne]

/-- Rows with distinct keys, put in order. -/
theorem ordered {rows : List α} (hn : (rows.map key).Nodup) :
    (rows.insertionSort fun a b => key a ≤ key b).Pairwise fun a b => key a < key b := by
  have hle := List.pairwise_insertionSort (fun a b => key a ≤ key b) rows
  have hne : (rows.insertionSort fun a b => key a ≤ key b).Pairwise fun a b => key a ≠ key b :=
    List.pairwise_map.mp (((List.perm_insertionSort _ rows).map key).nodup_iff.mpr hn)
  exact (hle.and hne).imp fun h => lt_of_le_of_ne h.1 h.2

/-- A store that selects, sorts and limits its rows returns a page of the rows
that are to be seen, in order. -/
theorem page_ordered {rows : List α} (hn : (rows.map key).Nodup) (p : α → Bool) :
    ((rows.filter fun r => decide (since < key r) && p r).insertionSort
        fun a b => key a ≤ key b).take n =
      page key n since ((rows.filter p).insertionSort fun a b => key a ≤ key b) := by
  have hp : ((rows.filter p).map key).Nodup := hn.sublist (List.filter_sublist.map _)
  have hl := ordered (hn.sublist ((List.filter_sublist
    (p := fun r => decide (since < key r) && p r)).map _))
  have hr := (ordered hp).filter fun r => since < key r
  have hperm : ((rows.filter fun r => decide (since < key r) && p r).insertionSort
      fun a b => key a ≤ key b).Perm
      (((rows.filter p).insertionSort fun a b => key a ≤ key b).filter fun r => since < key r) := by
    refine (List.perm_insertionSort _ _).trans ?_
    rw [← List.filter_filter]
    exact ((List.perm_insertionSort _ _).filter _).symm
  rw [page, hperm.eq_of_pairwise (fun a b _ _ h h' => absurd h (Nat.lt_asymm h')) hl hr]

theorem page_map_key {β : Type*} (f : β → α) (rows : List β) :
    page key n since (rows.map f) = (page (fun r => key (f r)) n since rows).map f := by
  rw [page, page, List.filter_map, List.map_take]
  rfl

/-- What a store returns that selects, sorts and limits its rows is a page of
what the rows stand for, if those are in order. -/
theorem page_map {β : Type*} {f : β → α} {rows : List β} {p : α → Bool}
    (hs : ((rows.map f).filter p).Pairwise fun a b => key a ≤ key b) :
    page key n since ((rows.map f).filter p) =
      (((rows.filter fun r => decide (since < key (f r)) && p (f r)).insertionSort
        fun a b => key (f a) ≤ key (f b)).take n).map f := by
  have hrows : (rows.filter fun r => decide (since < key (f r)) && p (f r)).Pairwise
      fun a b => key (f a) ≤ key (f b) := by
    rw [List.filter_map, List.pairwise_map] at hs
    rw [← List.filter_filter]
    exact hs.filter _
  rw [hrows.insertionSort_eq, List.map_take, page, List.filter_filter, List.filter_map]
  rfl

/-- The cursors that paging asks with: the start, then what each page gives. -/
inductive Asked {α : Type*} (key : α → Nat) (n : Nat) (ask : Nat → List α) : Nat → Prop
  | start : Asked key n ask 0
  | next {since m : Nat} (h : Asked key n ask since) (hc : cursor key n (ask since) = some m) :
    Asked key n ask m

/-- Paging through a store comes to every entry of it. -/
theorem asked_page (hn : 0 < n) (hs : xs.Pairwise fun a b => key a < key b) {ask : Nat → List α}
    (ha : ∀ since, ask since = page key n since xs) (hy : y ∈ xs) (hk : 0 < key y) :
    ∃ since, Asked key n ask since ∧ y ∈ ask since := by
  suffices h : ∀ k since, key y - since ≤ k → since < key y → Asked key n ask since →
      ∃ since, Asked key n ask since ∧ y ∈ ask since from h _ 0 (Nat.le_refl _) hk .start
  intro k
  induction k with
  | zero =>
    intro since hle hlt
    omega
  | succ k ih =>
    intro since hle hlt hr
    by_cases hm : y ∈ ask since
    · exact ⟨since, hr, hm⟩
    · rw [ha] at hm
      obtain ⟨m, hc, hmy⟩ := page_cursor hn hs hy hlt hm
      have hpast : since < m := by
        obtain ⟨x, hx, rfl⟩ := cursor_mem hc
        exact (mem_page hx).2
      apply ih m (by omega) hmy
      exact .next hr (ha since ▸ hc)

end Lattix.Lib.Pages
