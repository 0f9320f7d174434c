import Lattix.Lib.Runs
import Lattix.Client.Screen

namespace Lattix.Client
open Lib.Runs

/-- Every character stands only where the conversation it was typed in puts it:
in the box while that one is open, in its draft, in its messages. -/
structure Screen.Isolated (s : Screen) : Prop where
  input : ∀ cid, s.current = some cid → ∀ g ∈ s.input, g.origin = cid
  drafts : ∀ cid, ∀ g ∈ s.drafts cid, g.origin = cid
  sends : ∀ m ∈ s.sends, ∀ g ∈ m.text, g.origin = m.cid
  sent : ∀ m ∈ s.sent, ∀ g ∈ m.text, g.origin = m.cid

/-- A typed character that is neither cleared nor sent, nor in a message whose
fate is still open. White space does not count: `trim` drops it. -/
def Screen.unsent (s : Screen) (g : Glyph) : Bool :=
  !g.blank && s.typed.contains g && !s.cleared.contains g &&
    s.sent.all (fun m => !m.text.contains g) && s.sends.all fun m => !m.text.contains g

/-- Nothing typed is lost. -/
def Screen.Kept (s : Screen) : Prop :=
  ∀ g, s.unsent g = true → s.current = some g.origin ∧ g ∈ s.input ∨ g ∈ s.drafts g.origin

/-- A conversation is closed with its text saved. A send succeeds while its
conversation is open, or with nothing in its draft that is still to be sent. It
fails while its conversation is open, or while none is and the box and that
conversation's draft hold the same text. -/
def Screen.safe (s : Screen) : Action → Bool
  | .close => s.current.all fun cid =>
    s.input.all fun g => !s.unsent g || (s.drafts cid).contains g
  | .sendOk m => s.current == some m.cid || (s.drafts m.cid).all fun g => !s.unsent g
  | .sendFail m => s.current == some m.cid || s.current == none &&
    (s.input.all fun g => g.origin == m.cid) &&
      (s.drafts m.cid).all fun g => !s.unsent g || s.input.contains g
  | _ => true

/-- What every safe step keeps: text to be sent is in the box of the open
conversation, and in the draft of any other. -/
structure Screen.Sound (s : Screen) : Prop where
  isolated : s.Isolated
  shown : ∀ g, s.unsent g = true → s.current = some g.origin → g ∈ s.input
  stored : ∀ g, s.unsent g = true → s.current ≠ some g.origin → g ∈ s.drafts g.origin

theorem Screen.Sound.kept {s : Screen} (h : s.Sound) : s.Kept := by
  intro g hg
  by_cases hc : s.current = some g.origin
  · exact .inl ⟨hc, h.shown g hg hc⟩
  · exact .inr (h.stored g hg hc)

/-! Text -/

theorem mem_dropWhile {t : Text} {g : Glyph} (h : g ∈ t) (hb : g.blank = false) :
    g ∈ t.dropWhile Glyph.blank := by
  induction t with
  | nil => cases h
  | cons c t ih =>
    simp only [List.dropWhile_cons]
    split
    · rename_i hc
      rcases List.mem_cons.mp h with rfl | h
      · simp [hb] at hc
      · exact ih h
    · exact h

theorem mem_trim {t : Text} {g : Glyph} (h : g ∈ t) (hb : g.blank = false) : g ∈ trim t := by
  unfold trim
  rw [List.mem_reverse]
  apply mem_dropWhile _ hb
  rw [List.mem_reverse]
  exact mem_dropWhile h hb

theorem mem_of_trim {t : Text} {g : Glyph} (h : g ∈ trim t) : g ∈ t := by
  unfold trim at h
  rw [List.mem_reverse] at h
  have h := (List.dropWhile_sublist _).subset h
  rw [List.mem_reverse] at h
  exact (List.dropWhile_sublist _).subset h

theorem fresh_origin {o : String} {n : Nat} {cs : List Char} {g : Glyph}
    (h : g ∈ fresh o n cs) : g.origin = o := by
  induction cs generalizing n with
  | nil => cases h
  | cons c cs ih =>
    rcases List.mem_cons.mp h with rfl | h
    · rfl
    · exact ih h

theorem setDraft_self {cid : String} {t : Text} {ds : String → Text} {g : Glyph} (h : g ∈ t)
    (hb : g.blank = false) : g ∈ setDraft cid t ds cid := by
  have ht : trim t ≠ [] := List.ne_nil_of_mem (mem_trim h hb)
  simp [setDraft, ht, h]

theorem setDraft_other {cid d : String} (hne : d ≠ cid) (t : Text) (ds : String → Text) :
    setDraft cid t ds d = ds d := by
  simp [setDraft, hne]

theorem mem_setDraft {cid d : String} {t : Text} {ds : String → Text} {g : Glyph}
    (h : g ∈ setDraft cid t ds d) : d = cid ∧ g ∈ t ∨ d ≠ cid ∧ g ∈ ds d := by
  by_cases hd : d = cid
  · subst hd
    left
    simp only [setDraft, Function.update_self] at h
    split at h
    · cases h
    · exact ⟨rfl, h⟩
  · right
    rw [setDraft_other hd] at h
    exact ⟨hd, h⟩

theorem unsent_iff {s : Screen} {g : Glyph} : s.unsent g = true ↔
    g.blank = false ∧ g ∈ s.typed ∧ g ∉ s.cleared ∧ (∀ m ∈ s.sent, g ∉ m.text) ∧
      ∀ m ∈ s.sends, g ∉ m.text := by
  simp [Screen.unsent, and_assoc]

/-! Leaving a conversation -/

theorem stash_none {s : Screen} (h : s.current = none) : s.stash = s.drafts := by
  simp [Screen.stash, h]

theorem stash_some {s : Screen} {cid : String} (h : s.current = some cid) :
    s.stash = setDraft cid s.input s.drafts := by
  simp [Screen.stash, h]

theorem stash_origin {s : Screen} (h : s.Sound) (cid : String) :
    ∀ g ∈ s.stash cid, g.origin = cid := by
  intro g hg
  cases hc : s.current with
  | none =>
    rw [stash_none hc] at hg
    exact h.isolated.drafts cid g hg
  | some d =>
    rw [stash_some hc] at hg
    rcases mem_setDraft hg with ⟨rfl, hin⟩ | ⟨-, hin⟩
    · exact h.isolated.input cid hc g hin
    · exact h.isolated.drafts cid g hin

/-- Once the open conversation is stashed, all text to be sent is in drafts. -/
theorem stash_unsent {s : Screen} (h : s.Sound) {g : Glyph} (hg : s.unsent g = true) :
    g ∈ s.stash g.origin := by
  cases hc : s.current with
  | none =>
    rw [stash_none hc]
    apply h.stored g hg
    simp [hc]
  | some d =>
    rw [stash_some hc]
    by_cases ho : g.origin = d
    · rw [ho]
      exact setDraft_self (h.shown g hg (ho ▸ hc)) (unsent_iff.mp hg).1
    · rw [setDraft_other ho]
      apply h.stored g hg
      simp [hc, Ne.symm ho]

theorem open_sound {s : Screen} (h : s.Sound) (cid : String) : (s.open cid).Sound := by
  unfold Screen.open
  split
  · exact ⟨⟨h.isolated.input, h.isolated.drafts, h.isolated.sends, h.isolated.sent⟩, h.shown,
      h.stored⟩
  · refine ⟨⟨?_, stash_origin h, h.isolated.sends, h.isolated.sent⟩, ?_, ?_⟩
    · intro d hd g hg
      cases hd
      exact stash_origin h cid g hg
    · intro g hg hc
      cases hc
      exact stash_unsent h hg
    · intro g hg _
      exact stash_unsent h hg

theorem ensureGroupConvo_sound {s : Screen} (h : s.Sound) (id : Nat) (name : Option String) :
    (s.ensureGroupConvo id name).Sound :=
  ⟨⟨h.isolated.input, h.isolated.drafts, h.isolated.sends, h.isolated.sent⟩, h.shown, h.stored⟩

theorem back_sound {s : Screen} (h : s.Sound) :
    ({ s with drafts := s.stash, current := none } : Screen).Sound := by
  refine ⟨⟨?_, stash_origin h, h.isolated.sends, h.isolated.sent⟩, ?_, ?_⟩
  · intro d hd
    cases hd
  · intro g _ hc
    cases hc
  · intro g hg _
    exact stash_unsent h hg

theorem autosave_sound {s : Screen} (h : s.Sound) : ({ s with drafts := s.stash } : Screen).Sound :=
  ⟨⟨h.isolated.input, stash_origin h, h.isolated.sends, h.isolated.sent⟩, h.shown,
    fun _ hg _ => stash_unsent h hg⟩

theorem close_sound {s : Screen} (h : s.Sound) (hc : s.safe .close = true) :
    ({ s with current := none } : Screen).Sound := by
  refine ⟨⟨?_, h.isolated.drafts, h.isolated.sends, h.isolated.sent⟩, ?_, ?_⟩
  · intro d hd
    cases hd
  · intro g _ ho
    cases ho
  · intro g hg _
    by_cases ho : s.current = some g.origin
    · simp only [Screen.safe, ho, Option.all_some, List.all_eq_true] at hc
      have hin := hc g (h.shown g hg ho)
      have hg' : s.unsent g = true := hg
      simpa [hg'] using hin
    · exact h.stored g hg ho

/-! Typing -/

theorem type_sound {s : Screen} (h : s.Sound) {cid : String} (hc : s.current = some cid)
    (position removed : Nat) (inserted : List Char) :
    (s.type cid position removed inserted).Sound := by
  have hnew : ∀ g ∈ fresh cid s.serial inserted, g.origin = cid := fun g hg => fresh_origin hg
  have hold : ∀ g, (s.type cid position removed inserted).unsent g = true →
      g ∉ fresh cid s.serial inserted → s.unsent g = true := by
    intro g hg hn
    obtain ⟨hb, ht, hcl, hsent, hsends⟩ := unsent_iff.mp hg
    refine unsent_iff.mpr ⟨hb, ?_, fun hm => hcl (List.mem_append_left _ hm), hsent, hsends⟩
    exact (List.mem_append.mp ht).resolve_right hn
  refine ⟨⟨?_, h.isolated.drafts, h.isolated.sends, h.isolated.sent⟩, ?_, ?_⟩
  · intro d hd g hg
    have hd : s.current = some d := hd
    rw [hc] at hd
    cases hd
    simp only [Screen.type, List.mem_append] at hg
    rcases hg with (hg | hg) | hg
    · exact h.isolated.input cid hc g (List.mem_of_mem_take hg)
    · exact hnew g hg
    · exact h.isolated.input cid hc g (List.mem_of_mem_drop (List.mem_of_mem_drop hg))
  · intro g hg ho
    simp only [Screen.type, List.mem_append]
    by_cases hn : g ∈ fresh cid s.serial inserted
    · exact .inl (.inr hn)
    · have hin := h.shown g (hold g hg hn) ho
      rw [← List.take_append_drop position s.input, List.mem_append] at hin
      rcases hin with hin | hin
      · exact .inl (.inl hin)
      · rw [← List.take_append_drop removed (s.input.drop position), List.mem_append] at hin
        rcases hin with hin | hin
        · exact absurd (List.mem_append_right _ hin) (unsent_iff.mp hg).2.2.1
        · exact .inr hin
  · intro g hg ho
    have hn : g ∉ fresh cid s.serial inserted := fun hm => ho (by rw [hnew g hm]; exact hc)
    exact h.stored g (hold g hg hn) ho

/-! Sending -/

theorem send_sound {s : Screen} (h : s.Sound) {cid : String} (hc : s.current = some cid) :
    ({ s with input := [], sends := s.sends ++ [⟨cid, trim s.input⟩] } : Screen).Sound := by
  have hold : ∀ g, ({ s with input := [], sends := s.sends ++ [⟨cid, trim s.input⟩] } :
      Screen).unsent g = true → s.unsent g = true ∧ g ∉ trim s.input := by
    intro g hg
    obtain ⟨hb, ht, hcl, hsent, hsends⟩ := unsent_iff.mp hg
    exact ⟨unsent_iff.mpr ⟨hb, ht, hcl, hsent, fun m hm => hsends m (List.mem_append_left _ hm)⟩,
      hsends ⟨cid, trim s.input⟩ (List.mem_append_right _ (List.mem_singleton.mpr rfl))⟩
  refine ⟨⟨?_, h.isolated.drafts, ?_, h.isolated.sent⟩, ?_, ?_⟩
  · intro d _ g hg
    cases hg
  · intro m hm g hg
    rcases List.mem_append.mp hm with hm | hm
    · exact h.isolated.sends m hm g hg
    · cases List.mem_singleton.mp hm
      exact h.isolated.input cid hc g (mem_of_trim hg)
  · intro g hg ho
    obtain ⟨hu, hn⟩ := hold g hg
    exact absurd (mem_trim (h.shown g hu ho) (unsent_iff.mp hu).1) hn
  · intro g hg ho
    exact h.stored g (hold g hg).1 ho

theorem sendOk_sound {s : Screen} (h : s.Sound) {m : Send} (hm : m ∈ s.sends)
    (hs : s.safe (.sendOk m) = true) :
    ({ s with
      drafts := setDraft m.cid [] s.drafts
      sends := s.sends.erase m
      sent := s.sent ++ [m] } : Screen).Sound := by
  have hold : ∀ g, ({ s with
      drafts := setDraft m.cid [] s.drafts
      sends := s.sends.erase m
      sent := s.sent ++ [m] } : Screen).unsent g = true → s.unsent g = true := by
    intro g hg
    obtain ⟨hb, ht, hcl, hsent, hsends⟩ := unsent_iff.mp hg
    refine unsent_iff.mpr ⟨hb, ht, hcl, fun n hn => hsent n (List.mem_append_left _ hn), ?_⟩
    intro n hn
    by_cases he : n = m
    · rw [he]
      exact hsent m (List.mem_append_right _ (List.mem_singleton.mpr rfl))
    · exact hsends n ((List.mem_erase_of_ne he).mpr hn)
  refine ⟨⟨h.isolated.input, ?_, ?_, ?_⟩, fun g hg => h.shown g (hold g hg), ?_⟩
  · intro cid g hg
    rcases mem_setDraft hg with ⟨-, hg⟩ | ⟨-, hg⟩
    · cases hg
    · exact h.isolated.drafts cid g hg
  · intro n hn
    exact h.isolated.sends n (List.mem_of_mem_erase hn)
  · intro n hn
    rcases List.mem_append.mp hn with hn | hn
    · exact h.isolated.sent n hn
    · rw [List.mem_singleton.mp hn]
      exact h.isolated.sends m hm
  · intro g hg ho
    have hu := hold g hg
    have hin := h.stored g hu ho
    by_cases he : g.origin = m.cid
    · have hc : s.current ≠ some m.cid := he ▸ ho
      simp only [Screen.safe, Bool.or_eq_true, beq_iff_eq, hc, false_or, List.all_eq_true] at hs
      have := hs g (he ▸ hin)
      simp [hu] at this
    · change g ∈ setDraft m.cid [] s.drafts g.origin
      rw [setDraft_other he]
      exact hin

theorem mem_restore {m : Send} {s : Screen} {g : Glyph} (h : g ∈ m.text ∨ g ∈ s.input) :
    g ∈ (s.restore m).input := by
  simp only [Screen.restore]
  split
  · rename_i he
    simpa [he] using h
  · rw [List.mem_append, List.mem_cons]
    exact h.imp_right .inr

theorem restore_sound {s : Screen} (h : s.Sound) {m : Send} (hm : m ∈ s.sends)
    (hs : s.safe (.sendFail m) = true) : (s.restore m).Sound := by
  have hown : ∀ g ∈ (s.restore m).input, (∀ g ∈ s.input, g.origin = m.cid) → g.origin = m.cid := by
    intro g hg hin
    simp only [Screen.restore] at hg
    split at hg
    · exact h.isolated.sends m hm g hg
    · rcases List.mem_append.mp hg with hg | hg
      · exact h.isolated.sends m hm g hg
      · rcases List.mem_cons.mp hg with rfl | hg
        · rfl
        · exact hin g hg
  have hbox : ∀ g ∈ s.input, g.origin = m.cid := by
    simp only [Screen.safe, Bool.or_eq_true, Bool.and_eq_true, beq_iff_eq, List.all_eq_true] at hs
    rcases hs with hc | ⟨⟨-, hin⟩, -⟩
    · exact h.isolated.input m.cid hc
    · exact hin
  have hold : ∀ g, (s.restore m).unsent g = true → g ∈ m.text ∨ s.unsent g = true := by
    intro g hg
    obtain ⟨hb, ht, hcl, hsent, hsends⟩ := unsent_iff.mp hg
    by_cases hin : g ∈ m.text
    · exact .inl hin
    · right
      refine unsent_iff.mpr ⟨hb, ht, hcl, hsent, fun n hn => ?_⟩
      by_cases he : n = m
      · rw [he]
        exact hin
      · exact hsends n ((List.mem_erase_of_ne he).mpr hn)
  refine ⟨⟨?_, ?_, ?_, h.isolated.sent⟩, ?_, ?_⟩
  · intro cid hc g hg
    have hc : s.current = some cid := hc
    have ho := hown g hg hbox
    simp only [Screen.safe, hc, Bool.or_eq_true, beq_iff_eq, Option.some.injEq] at hs
    simp at hs
    rw [ho, hs]
  · intro cid g hg
    rcases mem_setDraft hg with ⟨rfl, hin⟩ | ⟨-, hin⟩
    · exact hown g hin hbox
    · exact h.isolated.drafts cid g hin
  · intro n hn
    exact h.isolated.sends n (List.mem_of_mem_erase hn)
  · intro g hg ho
    apply mem_restore
    exact (hold g hg).imp_right fun hu => h.shown g hu ho
  · intro g hg ho
    have hb := (unsent_iff.mp hg).1
    have ho : s.current ≠ some g.origin := ho
    change g ∈ setDraft m.cid (s.restore m).input s.drafts g.origin
    by_cases he : g.origin = m.cid
    · rw [he]
      apply setDraft_self (mem_restore _) hb
      rcases hold g hg with hin | hu
      · exact .inl hin
      · right
        have hc : s.current ≠ some m.cid := he ▸ ho
        simp only [Screen.safe, Bool.or_eq_true, Bool.and_eq_true, beq_iff_eq, hc, false_or,
          List.all_eq_true] at hs
        have := hs.2 g (he ▸ h.stored g hu ho)
        simpa [hu] using this
    · rw [setDraft_other he]
      rcases hold g hg with hin | hu
      · exact absurd (h.isolated.sends m hm g hin) he
      · exact h.stored g hu ho

theorem step_sound (s : Screen) (a : Action) (s' : Screen)
    (h : s.Sound) (hsafe : s.safe a = true) (hs : s.step a = some s') : s'.Sound := by
  cases a with
  | learn id name =>
    cases hs
    exact ensureGroupConvo_sound h id name
  | members id name =>
    cases hs
    simp only [Screen.refresh]
    split
    · exact open_sound (ensureGroupConvo_sound h id name) _
    · exact ensureGroupConvo_sound h id name
  | select cid =>
    cases hs
    exact open_sound h cid
  | resume cid | done cid =>
    simp only [Screen.step] at hs
    split at hs
    · cases hs
      exact ⟨⟨h.isolated.input, h.isolated.drafts, h.isolated.sends, h.isolated.sent⟩, h.shown,
        h.stored⟩
    · cases hs
  | back =>
    cases hs
    exact back_sound h
  | close =>
    cases hs
    exact close_sound h hsafe
  | edit position removed inserted =>
    obtain ⟨cid, hc, he⟩ := Option.map_eq_some_iff.mp hs
    subst he
    exact type_sound h hc position removed inserted
  | autosave =>
    cases hs
    exact autosave_sound h
  | send =>
    simp only [Screen.step] at hs
    split at hs
    · cases hs
    · rename_i cid hc
      split at hs
      · cases hs
      · cases hs
        exact send_sound h hc
  | sendOk m =>
    simp only [Screen.step] at hs
    split at hs
    · rename_i hm
      cases hs
      exact sendOk_sound h hm hsafe
    · cases hs
  | sendFail m =>
    simp only [Screen.step] at hs
    split at hs
    · rename_i hm
      cases hs
      exact restore_sound h hm hsafe
    · cases hs

theorem start_sound (stored : String → List Char) : (Screen.start stored).Sound := by
  refine ⟨⟨?_, ?_, ?_, ?_⟩, ?_, ?_⟩
  · intro cid _ g hg
    cases hg
  · intro cid g hg
    obtain ⟨c, -, rfl⟩ := List.mem_map.mp hg
    rfl
  · intro m hm
    cases hm
  · intro m hm
    cases hm
  · intro g hg
    simp [Screen.start, Screen.unsent] at hg
  · intro g hg
    simp [Screen.start, Screen.unsent] at hg

/-- The message "hi" as it is sent from ann's conversation, typed first. -/
def hiToAnn : Send := ⟨"ann", [⟨'h', "ann", 1⟩, ⟨'i', "ann", 2⟩]⟩

/-- A send that succeeds after the user has typed on and moved away deletes the
new draft. -/
theorem drafts_not_always_kept :
    ¬ ∀ (as : List Action) (s : Screen),
      run Screen.step (.start fun _ => []) as = some s → s.Kept := by
  intro h
  have hs := h [.select "ann", .edit 0 0 ['h', 'i'], .send, .edit 0 0 ['y', 'o'], .select "bob",
    .sendOk hiToAnn] _ rfl ⟨'y', "ann", 3⟩ (by decide)
  revert hs
  decide

end Lattix.Client
