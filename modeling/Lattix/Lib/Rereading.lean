import Lattix.Lib.RoundTrip

/-! What is read of characters can be written, and is then read again as it was. -/

namespace Lattix.Lib.Json

variable {Φ : Doubles} {lenient : Bool} {t r : Text}

/-! Reading leaves the end of what it reads. -/

theorem ofScalars_suffix (h : r <:+ t) (ht : ofScalars t = true) : ofScalars r = true :=
  List.all_eq_true.mpr fun c hc => List.all_eq_true.mp ht c (h.subset hc)

theorem skip_suffix (t : Text) : skip t <:+ t := List.dropWhile_suffix _

theorem skip_tail {c : CodePoint} (h : skip t = c :: r) : r <:+ t :=
  (List.suffix_cons c r).trans (h ▸ skip_suffix t)

theorem digits_suffix (t : Text) : (digits t).2 <:+ t := by
  fun_induction digits t with
  | case1 c rest hc ih => exact ih.trans (List.suffix_cons _ _)
  | case2 => exact List.suffix_rfl
  | case3 => exact List.suffix_rfl

theorem whole_suffix {ds : List Char} (h : whole t = some (ds, r)) : r <:+ t := by
  unfold whole at h
  split at h
  · split_ifs at h
    · cases h
      exact List.suffix_cons _ _
    · cases h
      exact (digits_suffix _).trans (List.suffix_cons _ _)
  · cases h

theorem fraction_suffix (t : Text) : (fraction t).2 <:+ t := by
  unfold fraction
  split
  · split_ifs
    · exact List.suffix_rfl
    · exact (digits_suffix _).trans (List.suffix_cons _ _)
  · exact List.suffix_rfl

theorem sign_suffix (t : Text) : (sign t).2 <:+ t := by
  unfold sign
  split
  · split_ifs
    · exact List.suffix_cons _ _
    · exact List.suffix_rfl
  · exact List.suffix_rfl

theorem exponent_suffix (t : Text) : (exponent t).2 <:+ t := by
  unfold exponent
  split
  · split_ifs
    · exact ((digits_suffix _).trans (sign_suffix _)).trans (List.suffix_cons _ _)
    · exact List.suffix_rfl
  · exact List.suffix_rfl

theorem minus_suffix (t : Text) : (minus t).2 <:+ t := by
  unfold minus
  split
  · exact List.suffix_cons _ _
  · exact List.suffix_rfl

theorem literal_suffix {l : Literal} (h : literal t = some (l, r)) : r <:+ t := by
  obtain ⟨⟨ds, t'⟩, hw, he⟩ := Option.map_eq_some_iff.mp h
  cases he
  calc (exponent (fraction t').2).2 <:+ (fraction t').2 := exponent_suffix _
    _ <:+ t' := fraction_suffix _
    _ <:+ (minus t).2 := whole_suffix hw
    _ <:+ t := minus_suffix _

theorem readNumber_suffix {n : Number} (h : readNumber Φ lenient t = some (n, r)) : r <:+ t := by
  unfold readNumber at h
  split at h
  · cases h
  · rename_i hl
    have hs := literal_suffix hl
    split at h
    · split at h <;> cases h
      exact hs
    · split at h <;> cases h <;> exact hs

theorem readAtom_suffix {v : Json} (h : readAtom Φ lenient t = some (v, r)) : r <:+ t := by
  unfold readAtom at h
  split at h
  · rename_i hread
    cases h
    obtain ⟨w, -, hm⟩ := List.exists_of_findSome?_eq_some hread
    obtain ⟨rest, hdrop, hv⟩ := Option.map_eq_some_iff.mp hm
    cases hv
    unfold dropPrefix at hdrop
    split_ifs at hdrop
    cases hdrop
    exact List.drop_suffix _ _
  · obtain ⟨⟨n, rest⟩, hn, hv⟩ := Option.map_eq_some_iff.mp h
    cases hv
    exact readNumber_suffix hn

theorem scan_suffix {us : List Unit16} (h : scan t = some (us, r)) : r <:+ t := by
  fun_induction scan t generalizing us with
  | case1 => cases h
  | case2 =>
    cases h
    exact List.suffix_cons _ _
  | case3 => cases h
  | case4 => cases h
  | case5 _ _ _ _ _ _ _ _ ih =>
    obtain ⟨⟨vs, r'⟩, hs, he⟩ := Option.map_eq_some_iff.mp h
    cases he
    exact (ih hs).trans (List.suffix_append [_, _, _, _, _, _] _)
  | case6 => cases h
  | case7 => cases h
  | case8 _ _ _ _ _ _ ih =>
    obtain ⟨⟨vs, r'⟩, hs, he⟩ := Option.map_eq_some_iff.mp h
    cases he
    exact (ih hs).trans (List.suffix_append [_, _] _)
  | case9 => cases h
  | case10 _ _ _ _ _ ih =>
    obtain ⟨⟨vs, r'⟩, hs, he⟩ := Option.map_eq_some_iff.mp h
    cases he
    exact (ih hs).trans (List.suffix_cons _ _)

theorem readString_suffix {s : Text} (h : readString t = some (s, r)) : r <:+ t := by
  unfold readString at h
  split at h
  · split_ifs at h
    obtain ⟨⟨us, r'⟩, hs, he⟩ := Option.map_eq_some_iff.mp h
    cases he
    exact (scan_suffix hs).trans (List.suffix_cons _ _)
  · cases h

theorem readKey_suffix {k : Text} (h : readKey t = some (k, r)) : r <:+ t := by
  obtain ⟨⟨s, t'⟩, hs, h⟩ := Option.bind_eq_some_iff.mp h
  dsimp only at h
  split at h
  · rename_i rest hcolon
    cases h
    calc skip rest <:+ rest := skip_suffix _
      _ <:+ t' := skip_tail hcolon
      _ <:+ t := readString_suffix hs
  · cases h

/-! Halves of a surrogate pair that meet are joined. -/

/-- Only an escape names half of a pair. -/
def Escaped (us : List Unit16) : Prop := ∀ u ∈ us, u.1.isScalar = false → u.2 = true

theorem scan_escaped {us : List Unit16} (ht : ofScalars t = true) (h : scan t = some (us, r)) :
    Escaped us := by
  fun_induction scan t generalizing us with
  | case1 => cases h
  | case2 =>
    cases h
    exact List.forall_mem_nil _
  | case3 => cases h
  | case4 => cases h
  | case5 _ _ _ _ _ _ _ _ ih =>
    obtain ⟨⟨vs, r'⟩, hs, he⟩ := Option.map_eq_some_iff.mp h
    cases he
    have hrest := ofScalars_suffix (List.suffix_append [_, _, _, _, _, _] _) ht
    exact List.forall_mem_cons.mpr ⟨fun _ => rfl, ih hrest hs⟩
  | case6 => cases h
  | case7 => cases h
  | case8 _ _ _ _ _ _ ih =>
    obtain ⟨⟨vs, r'⟩, hs, he⟩ := Option.map_eq_some_iff.mp h
    cases he
    have hrest := ofScalars_suffix (List.suffix_append [_, _] _) ht
    exact List.forall_mem_cons.mpr ⟨nofun, ih hrest hs⟩
  | case9 => cases h
  | case10 c rest _ _ _ ih =>
    obtain ⟨⟨vs, r'⟩, hs, he⟩ := Option.map_eq_some_iff.mp h
    cases he
    have hc := List.all_eq_true.mp ht c List.mem_cons_self
    refine List.forall_mem_cons.mpr ⟨fun hhalf => ?_, ih (ofScalars_suffix (List.suffix_cons _ _) ht) hs⟩
    rw [hc] at hhalf
    cases hhalf

theorem joined_cons {c : CodePoint} {t : Text} (h : joined t = true)
    (hc : ∀ n, c = .high n → ∀ l, t.head? ≠ some (.low l)) : joined (c :: t) = true := by
  unfold joined
  split
  · rename_i n l rest he
    cases he
    exact absurd rfl (hc n rfl l)
  · rename_i he
    cases he
    exact h
  · rfl

theorem head_joinPairs {us : List Unit16} {l : Fin 1024} (h : (joinPairs us).head? = some (.low l)) :
    ∃ b rest, us = (.low l, b) :: rest := by
  unfold joinPairs at h
  split at h
  · cases h
  · cases h
  · rename_i c b rest _
    cases h
    exact ⟨b, rest, rfl⟩

theorem joined_joinPairs {us : List Unit16} (h : Escaped us) : joined (joinPairs us) = true := by
  fun_induction joinPairs us with
  | case1 => rfl
  | case2 hi l rest ih =>
    have hrest : Escaped rest := fun u hu => h u (List.mem_cons_of_mem _ (List.mem_cons_of_mem _ hu))
    exact joined_cons (ih hrest) nofun
  | case3 c b rest hpair ih =>
    refine joined_cons (ih fun u hu => h u (List.mem_cons_of_mem _ hu)) ?_
    rintro n rfl l hl
    obtain ⟨b', rest', rfl⟩ := head_joinPairs hl
    have hb : b = true := h _ List.mem_cons_self rfl
    have hb' : b' = true := h _ (List.mem_cons_of_mem _ List.mem_cons_self) rfl
    subst hb hb'
    exact hpair n l rest' rfl rfl rfl

theorem readString_joined {s : Text} (ht : ofScalars t = true) (h : readString t = some (s, r)) :
    joined s = true := by
  unfold readString at h
  split at h
  · split_ifs at h
    obtain ⟨⟨us, r'⟩, hs, he⟩ := Option.map_eq_some_iff.mp h
    cases he
    exact joined_joinPairs (scan_escaped (ofScalars_suffix (List.suffix_cons _ _) ht) hs)
  · cases h

theorem readKey_joined {k : Text} (ht : ofScalars t = true) (h : readKey t = some (k, r)) :
    joined k = true := by
  obtain ⟨⟨s, t'⟩, hs, h⟩ := Option.bind_eq_some_iff.mp h
  dsimp only at h
  split at h
  · cases h
    exact readString_joined ht hs
  · cases h

/-! Values -/

theorem readAtom_spelled {v : Json} (h : readAtom Φ false t = some (v, r)) :
    every (Json.spelled joined) v = true := by
  unfold readAtom at h
  split at h
  · rename_i hread
    cases h
    obtain ⟨w, hw, hm⟩ := List.exists_of_findSome?_eq_some hread
    obtain ⟨rest, -, hv⟩ := Option.map_eq_some_iff.mp hm
    cases hv
    have hall : ∀ w ∈ constants, every (Json.spelled joined) w.2 = true := by
      simp [constants, every, Json.spelled]
    exact hall w (by simpa using hw)
  · obtain ⟨⟨n, rest⟩, -, hv⟩ := Option.map_eq_some_iff.mp h
    cases hv
    rfl

theorem dict_keys {ok : Text → Bool} {fs : List (Text × Json)} (h : ∀ f ∈ fs, ok f.1 = true) :
    ∀ f ∈ dict fs, ok f.1 = true := by
  have hf : ∀ fs gs : List (Text × Json), (∀ f ∈ fs, ok f.1 = true) → (∀ f ∈ gs, ok f.1 = true) →
      ∀ f ∈ fs.foldl (fun d f => insert f.1 f.2 d) gs, ok f.1 = true := by
    intro fs
    induction fs with
    | nil => exact fun gs _ hg => hg
    | cons f fs ih =>
      intro gs h hg
      refine ih _ (List.forall_mem_cons.mp h).2 fun e he => ?_
      rcases mem_insert he with rfl | he
      · exact h f List.mem_cons_self
      · exact hg e he
  exact hf fs [] h nofun

mutual

theorem readValue_joined : ∀ (fuel : Nat) {t r : Text} {v : Json}, ofScalars t = true →
    readValue Φ false fuel t = some (v, r) → every (Json.spelled joined) v = true ∧ r <:+ t
  | 0, _, _, _, _, h => by cases h
  | fuel + 1, t, r, v, ht, h => by
    unfold readValue at h
    split at h
    · obtain ⟨⟨s, r'⟩, hs, hv⟩ := Option.map_eq_some_iff.mp h
      cases hv
      exact ⟨readString_joined ht hs, readString_suffix hs⟩
    · rename_i rest
      have hskip : skip rest <:+ .scalar '[' :: rest := (skip_suffix _).trans (List.suffix_cons _ _)
      split at h
      · rename_i hempty
        cases h
        exact ⟨rfl, (skip_tail hempty).trans (List.suffix_cons _ _)⟩
      · obtain ⟨⟨v', t'⟩, hv, h⟩ := Option.bind_eq_some_iff.mp h
        obtain ⟨⟨vs, t''⟩, hvs, h⟩ := Option.bind_eq_some_iff.mp h
        cases h
        obtain ⟨hfirst, hs⟩ := readValue_joined fuel (ofScalars_suffix hskip ht) hv
        have hs := hs.trans hskip
        obtain ⟨hitems, hs'⟩ := readItems_joined fuel (ofScalars_suffix hs ht) hvs
        exact ⟨by simp [every, everyItem, Json.spelled, hfirst, hitems], hs'.trans hs⟩
    · rename_i rest
      have hskip : skip rest <:+ .scalar '{' :: rest := (skip_suffix _).trans (List.suffix_cons _ _)
      split at h
      · rename_i hempty
        cases h
        exact ⟨rfl, (skip_tail hempty).trans (List.suffix_cons _ _)⟩
      · obtain ⟨⟨k, t₀⟩, hk, h⟩ := Option.bind_eq_some_iff.mp h
        obtain ⟨⟨v', t'⟩, hv, h⟩ := Option.bind_eq_some_iff.mp h
        obtain ⟨⟨fs, t''⟩, hfs, h⟩ := Option.bind_eq_some_iff.mp h
        cases h
        have hkey := readKey_joined (ofScalars_suffix hskip ht) hk
        have hs₀ := (readKey_suffix hk).trans hskip
        obtain ⟨hfirst, hs⟩ := readValue_joined fuel (ofScalars_suffix hs₀ ht) hv
        have hs := hs.trans hs₀
        obtain ⟨hkeys, hfields, hs'⟩ := readFields_joined fuel (ofScalars_suffix hs ht) hfs
        have hall : everyField (Json.spelled joined) ((k, v') :: fs) = true := by
          simp [everyField, hfirst, hfields]
        have hdict : ∀ f ∈ dict ((k, v') :: fs), joined f.1 = true :=
          dict_keys (List.forall_mem_cons.mpr ⟨hkey, hkeys⟩)
        exact ⟨by simpa [every, Json.spelled, dict_every hall] using hdict, hs'.trans hs⟩
    · exact ⟨readAtom_spelled h, readAtom_suffix h⟩

theorem readItems_joined : ∀ (fuel : Nat) {t r : Text} {vs : List Json}, ofScalars t = true →
    readItems Φ false fuel t = some (vs, r) → everyItem (Json.spelled joined) vs = true ∧ r <:+ t
  | 0, _, _, _, _, h => by cases h
  | fuel + 1, t, r, vs, ht, h => by
    unfold readItems at h
    split at h
    · rename_i hend
      cases h
      exact ⟨rfl, skip_tail hend⟩
    · rename_i rest hcomma
      have hrest : skip rest <:+ t := (skip_suffix _).trans (skip_tail hcomma)
      obtain ⟨⟨v', t'⟩, hv, h⟩ := Option.bind_eq_some_iff.mp h
      obtain ⟨⟨vs', t''⟩, hvs, h⟩ := Option.bind_eq_some_iff.mp h
      cases h
      obtain ⟨hfirst, hs⟩ := readValue_joined fuel (ofScalars_suffix hrest ht) hv
      have hs := hs.trans hrest
      obtain ⟨hitems, hs'⟩ := readItems_joined fuel (ofScalars_suffix hs ht) hvs
      exact ⟨by simp [everyItem, hfirst, hitems], hs'.trans hs⟩
    · cases h

theorem readFields_joined : ∀ (fuel : Nat) {t r : Text} {fs : List (Text × Json)},
    ofScalars t = true → readFields Φ false fuel t = some (fs, r) →
    (∀ f ∈ fs, joined f.1 = true) ∧ everyField (Json.spelled joined) fs = true ∧ r <:+ t
  | 0, _, _, _, _, h => by cases h
  | fuel + 1, t, r, fs, ht, h => by
    unfold readFields at h
    split at h
    · rename_i hend
      cases h
      exact ⟨nofun, rfl, skip_tail hend⟩
    · rename_i rest hcomma
      have hrest : skip rest <:+ t := (skip_suffix _).trans (skip_tail hcomma)
      obtain ⟨⟨k, t₀⟩, hk, h⟩ := Option.bind_eq_some_iff.mp h
      obtain ⟨⟨v', t'⟩, hv, h⟩ := Option.bind_eq_some_iff.mp h
      obtain ⟨⟨fs', t''⟩, hfs, h⟩ := Option.bind_eq_some_iff.mp h
      cases h
      have hkey := readKey_joined (ofScalars_suffix hrest ht) hk
      have hs₀ := (readKey_suffix hk).trans hrest
      obtain ⟨hfirst, hs⟩ := readValue_joined fuel (ofScalars_suffix hs₀ ht) hv
      have hs := hs.trans hs₀
      obtain ⟨hkeys, hfields, hs'⟩ := readFields_joined fuel (ofScalars_suffix hs ht) hfs
      exact ⟨List.forall_mem_cons.mpr ⟨hkey, hkeys⟩, by simp [everyField, hfirst, hfields], hs'.trans hs⟩
    · cases h

end

/-- What is read of characters is spelled in one way. -/
theorem parse_joined {v : Json} (ht : ofScalars t = true) (h : parse Φ false t = some v) :
    every (Json.spelled joined) v = true := by
  unfold parse at h
  split at h
  · rename_i v' rest hr
    split_ifs at h
    cases h
    exact (readValue_joined _ (ofScalars_suffix (skip_suffix t) ht) hr).1
  · cases h

end Lattix.Lib.Json
