import Lattix.Lib.Runs
import Mathlib.Data.List.Nodup
import Mathlib.Logic.Function.Basic

/-! The object URLs that inline images are shown by. -/

namespace Lattix.Client.Images
open Lib.Runs

/-- A message with a file, as far as showing it goes. -/
structure Picture where
  convo : String
  verified : Bool
  mime : String
  size : ℕ
  expiresAt : Option ℕ
deriving DecidableEq, Repr

/-- What `PREVIEW_MIME` matches, in any case. -/
def previewMime : List String := ["image/png", "image/jpeg", "image/gif", "image/webp", "image/avif"]

def PREVIEW_MAX : ℕ := 8 * 1024 * 1024

def Picture.previewable (p : Picture) : Bool :=
  p.verified && previewMime.any (fun m => m.toList == p.mime.toList.map Char.toLower) &&
    decide (p.size ≤ PREVIEW_MAX)

def Picture.due (now : ℕ) (p : Picture) : Bool := p.expiresAt.any fun t => t != 0 && decide (t ≤ now)

/-- Messages are told apart by the order they came in. `kept` are those in `state.convos`, `shown`
those in the list on screen, `decrypting` the calls of `revealImage` that wait, and `live` the URLs
that were created and not revoked. -/
structure Gallery where
  pictures : List Picture
  url : ℕ → Option ℕ
  kept : List ℕ
  shown : List ℕ
  decrypting : List ℕ
  live : List ℕ
  created : ℕ

def Gallery.empty : Gallery := ⟨[], fun _ => none, [], [], [], [], 0⟩

inductive Event where
  | push (p : Picture)
  | render (ms : List ℕ) (autoImages : Bool)
  | showImage (m : ℕ)
  | decrypted (m : ℕ) (ok : Bool)
  | sweep (now : ℕ)
  | drop (convo : String)

def Gallery.has (g : Gallery) (p : Picture → Bool) (m : ℕ) : Bool := g.pictures[m]?.any p

def Gallery.setUrl (g : Gallery) (m : ℕ) (u : Option ℕ) : Gallery :=
  { g with url := Function.update g.url m u }

/-- The body of the loop in `releaseObjectUrls`. -/
def Gallery.release (g : Gallery) (m : ℕ) : Gallery :=
  match g.url m with
  | some u => { g.setUrl m none with live := g.live.erase u }
  | none => g

def Gallery.releaseObjectUrls (g : Gallery) (ms : List ℕ) : Gallery := ms.foldl Gallery.release g

/-- The URL is made when there is none, however many decryptions there were. -/
def Gallery.reveal (g : Gallery) (m : ℕ) : Gallery :=
  match g.url m with
  | some _ => g
  | none => { g.setUrl m (some g.created) with live := g.live ++ [g.created], created := g.created + 1 }

def step (g : Gallery) : Event → Option Gallery
  | .push p => some { g with pictures := g.pictures ++ [p], kept := g.kept ++ [g.pictures.length] }
  | .render ms autoImages =>
    if ms.all g.kept.contains then
      some { g with
        shown := ms
        decrypting := g.decrypting ++ if autoImages then ms.filter (g.has Picture.previewable) else [] }
    else none
  | .showImage m =>
    -- A list on screen can be a frame behind.
    if g.shown.contains m && g.has Picture.previewable m then
      some { g with decrypting := g.decrypting ++ [m] }
    else none
  | .decrypted m ok =>
    if g.decrypting.contains m then
      let g := { g with decrypting := g.decrypting.erase m }
      some (if ok then g.reveal m else g)
    else none
  | .sweep now =>
    let expired := g.kept.filter (g.has (Picture.due now))
    some { g.releaseObjectUrls expired with kept := g.kept.filter fun m => !g.has (Picture.due now) m }
  | .drop convo => some { g with kept := g.kept.filter fun m => !g.has (fun p => p.convo == convo) m }

/-- A message has one URL at most, and what is live is some message's. -/
structure Gallery.Owned (g : Gallery) : Prop where
  nodup : g.live.Nodup
  live : ∀ u, u ∈ g.live ↔ ∃ m, g.url m = some u
  unique : ∀ m n u, g.url m = some u → g.url n = some u → m = n
  bound : ∀ u ∈ g.live, u < g.created

/-- No URL outlives its message's place in a conversation. -/
def Gallery.Tidy (g : Gallery) : Prop := ∀ u ∈ g.live, ∃ m ∈ g.kept, g.url m = some u

/-- A decryption ends while its message is there, and no conversation goes with an image of it
revealed. -/
def timely (g : Gallery) : Event → Prop
  | .decrypted m true => m ∈ g.kept
  | .drop convo => ∀ m ∈ g.kept, g.has (fun p => p.convo == convo) m = true → g.url m = none
  | _ => True

section release
variable {g : Gallery}

theorem release_url (g : Gallery) (m : ℕ) : (g.release m).url = Function.update g.url m none := by
  unfold Gallery.release
  split
  · rfl
  · rename_i hnone
    rw [← hnone, Function.update_eq_self]

theorem Gallery.Owned.release (h : g.Owned) (m : ℕ) : (g.release m).Owned := by
  unfold Gallery.release
  split
  · rename_i u hu
    have hother : ∀ n v, (g.setUrl m none).url n = some v ↔ n ≠ m ∧ g.url n = some v := by
      intro n v
      by_cases hn : n = m
      · simp [Gallery.setUrl, hn]
      · simp [Gallery.setUrl, hn]
    refine ⟨h.nodup.erase u, fun v => ?_, fun a b v ha hb => ?_, fun v hv => ?_⟩
    · show v ∈ g.live.erase u ↔ ∃ n, (g.setUrl m none).url n = some v
      rw [h.nodup.mem_erase_iff, h.live]
      simp only [hother]
      constructor
      · rintro ⟨hne, n, hn⟩
        refine ⟨n, ?_, hn⟩
        rintro rfl
        exact hne (Option.some.inj (hn.symm.trans hu))
      · rintro ⟨n, hne, hn⟩
        refine ⟨?_, n, hn⟩
        rintro rfl
        exact hne (h.unique n m v hn hu)
    · exact h.unique a b v ((hother a v).mp ha).2 ((hother b v).mp hb).2
    · exact h.bound v (List.mem_of_mem_erase hv)
  · exact h

theorem releaseObjectUrls_owned (h : g.Owned) (ms : List ℕ) : (g.releaseObjectUrls ms).Owned := by
  induction ms generalizing g with
  | nil => exact h
  | cons m ms ih => exact ih (h.release m)

theorem releaseObjectUrls_url (g : Gallery) (ms : List ℕ) (n : ℕ) :
    (g.releaseObjectUrls ms).url n = if n ∈ ms then none else g.url n := by
  induction ms generalizing g with
  | nil => rfl
  | cons m ms ih =>
    refine (ih (g.release m)).trans ?_
    rw [release_url]
    by_cases hn : n = m
    · simp [hn]
    · simp [hn]

theorem Gallery.Owned.reveal (h : g.Owned) (m : ℕ) : (g.reveal m).Owned := by
  unfold Gallery.reveal
  split
  · exact h
  · rename_i hnone
    have hnew : g.created ∉ g.live := fun hm => absurd (h.bound _ hm) (Nat.lt_irrefl _)
    have hurl : ∀ n v, (g.setUrl m (some g.created)).url n = some v ↔
        (n = m ∧ v = g.created) ∨ (n ≠ m ∧ g.url n = some v) := by
      intro n v
      by_cases hn : n = m
      · simp [Gallery.setUrl, hn, eq_comm]
      · simp [Gallery.setUrl, hn]
    refine ⟨?_, fun v => ?_, fun a b v ha hb => ?_, fun v hv => ?_⟩
    · exact List.nodup_append.mpr ⟨h.nodup, List.nodup_singleton _, fun v hv w hw he =>
        hnew (List.mem_singleton.mp hw ▸ he ▸ hv)⟩
    · show v ∈ g.live ++ [g.created] ↔ ∃ n, (g.setUrl m (some g.created)).url n = some v
      simp only [hurl, List.mem_append, List.mem_singleton, h.live]
      constructor
      · rintro (⟨n, hn⟩ | rfl)
        · refine ⟨n, .inr ⟨?_, hn⟩⟩
          rintro rfl
          exact absurd (hnone.symm.trans hn) nofun
        · exact ⟨m, .inl ⟨rfl, rfl⟩⟩
      · rintro ⟨n, ⟨-, rfl⟩ | ⟨-, hn⟩⟩
        · exact .inr rfl
        · exact .inl ⟨n, hn⟩
    · rcases (hurl a v).mp ha with ⟨rfl, hva⟩ | ⟨-, hga⟩ <;>
        rcases (hurl b v).mp hb with ⟨rfl, hvb⟩ | ⟨-, hgb⟩
      · rfl
      · exact absurd ((h.live _).mpr ⟨b, hva ▸ hgb⟩) hnew
      · exact absurd ((h.live _).mpr ⟨a, hvb ▸ hga⟩) hnew
      · exact h.unique a b v hga hgb
    · rcases List.mem_append.mp hv with hv | hv
      · exact Nat.lt_succ_of_lt (h.bound v hv)
      · rw [List.mem_singleton.mp hv]
        exact Nat.lt_succ_self _

end release

/-! One step -/

section step
variable {g t : Gallery} {e : Event}

theorem owned_step (h : g.Owned) (hs : step g e = some t) : t.Owned := by
  have hsame : ∀ {pictures kept shown decrypting},
      (Gallery.mk pictures g.url kept shown decrypting g.live g.created).Owned :=
    ⟨h.nodup, h.live, h.unique, h.bound⟩
  cases e with
  | push p =>
    cases hs
    exact hsame
  | render ms autoImages =>
    simp only [step] at hs
    split_ifs at hs <;> cases hs <;> exact hsame
  | showImage m =>
    simp only [step] at hs
    split_ifs at hs
    cases hs
    exact hsame
  | decrypted m ok =>
    simp only [step] at hs
    split_ifs at hs <;> cases hs
    · exact Gallery.Owned.reveal hsame m
    · exact hsame
  | sweep now =>
    cases hs
    have hr := releaseObjectUrls_owned h (g.kept.filter (g.has (Picture.due now)))
    exact ⟨hr.nodup, hr.live, hr.unique, hr.bound⟩
  | drop convo =>
    cases hs
    exact hsame

theorem reveal_tidy (h : g.Owned) (htidy : g.Tidy) (m : ℕ) : (g.reveal m).Tidy ↔ m ∈ g.kept := by
  unfold Gallery.reveal
  split
  · rename_i u hu
    refine iff_of_true htidy ?_
    obtain ⟨n, hn, hnu⟩ := htidy u ((h.live u).mpr ⟨m, hu⟩)
    exact h.unique n m u hnu hu ▸ hn
  · rename_i hnone
    constructor
    · intro hnew
      obtain ⟨n, hn, hnu⟩ := hnew g.created (List.mem_append_right _ (List.mem_singleton_self _))
      by_cases hnm : n = m
      · exact hnm ▸ hn
      · have hold : g.url n = some g.created := by
          simpa [Gallery.setUrl, hnm] using hnu
        exact absurd (h.bound _ ((h.live _).mpr ⟨n, hold⟩)) (Nat.lt_irrefl _)
    · intro hm u hu
      rcases List.mem_append.mp hu with hu | hu
      · obtain ⟨n, hn, hnu⟩ := htidy u hu
        have hne : n ≠ m := by
          rintro rfl
          exact absurd (hnone.symm.trans hnu) nofun
        exact ⟨n, hn, by simpa [Gallery.setUrl, hne] using hnu⟩
      · rw [List.mem_singleton.mp hu]
        exact ⟨m, hm, by simp [Gallery.setUrl]⟩

/-- What is due goes with its URL. -/
theorem sweep_tidy (h : g.Owned) (htidy : g.Tidy) {now : ℕ} {u : ℕ}
    (hu : u ∈ (g.releaseObjectUrls (g.kept.filter (g.has (Picture.due now)))).live) :
    ∃ m ∈ g.kept.filter fun m => !g.has (Picture.due now) m,
      (g.releaseObjectUrls (g.kept.filter (g.has (Picture.due now)))).url m = some u := by
  obtain ⟨m, hm⟩ := ((releaseObjectUrls_owned h _).live u).mp hu
  have hold := hm
  rw [releaseObjectUrls_url] at hold
  split_ifs at hold with hdue
  obtain ⟨n, hn, hnu⟩ := htidy u ((h.live u).mpr ⟨m, hold⟩)
  have hnm : n = m := h.unique n m u hnu hold
  subst hnm
  refine ⟨n, List.mem_filter.mpr ⟨hn, ?_⟩, hm⟩
  cases hd : g.has (Picture.due now) n with
  | true => exact absurd (List.mem_filter.mpr ⟨hn, hd⟩) hdue
  | false => rfl

theorem drop_tidy (h : g.Owned) (htidy : g.Tidy) {convo : String} :
    (∀ u ∈ g.live, ∃ m ∈ g.kept.filter fun m => !g.has (fun p => p.convo == convo) m,
      g.url m = some u) ↔
    ∀ m ∈ g.kept, g.has (fun p => p.convo == convo) m = true → g.url m = none := by
  constructor
  · intro hleft m hm hgone
    cases hu : g.url m with
    | none => rfl
    | some u =>
      obtain ⟨n, hn, hnu⟩ := hleft u ((h.live u).mpr ⟨m, hu⟩)
      obtain ⟨-, hn⟩ := List.mem_filter.mp hn
      rw [h.unique n m u hnu hu, hgone] at hn
      cases hn
  · intro hnone u hu
    obtain ⟨m, hm, hmu⟩ := htidy u hu
    refine ⟨m, List.mem_filter.mpr ⟨hm, ?_⟩, hmu⟩
    cases hd : g.has (fun p => p.convo == convo) m with
    | true => exact absurd ((hnone m hm hd).symm.trans hmu) nofun
    | false => rfl

/-- From a state with nothing left over, a step leaves something over just when it is not timely. -/
theorem tidy_step (h : g.Owned) (htidy : g.Tidy) (hs : step g e = some t) : t.Tidy ↔ timely g e := by
  cases e with
  | push p =>
    cases hs
    refine iff_of_true (fun u hu => ?_) trivial
    obtain ⟨m, hm, hurl⟩ := htidy u hu
    exact ⟨m, List.mem_append_left _ hm, hurl⟩
  | render ms autoImages =>
    simp only [step] at hs
    split_ifs at hs <;> cases hs <;> exact iff_of_true htidy trivial
  | showImage m =>
    simp only [step] at hs
    split_ifs at hs
    cases hs
    exact iff_of_true htidy trivial
  | decrypted m ok =>
    simp only [step] at hs
    split_ifs at hs with hm hok <;> cases hs
    · subst hok
      have hfewer : ({ g with decrypting := g.decrypting.erase m } : Gallery).Owned :=
        ⟨h.nodup, h.live, h.unique, h.bound⟩
      exact reveal_tidy hfewer htidy m
    · rw [Bool.not_eq_true] at hok
      subst hok
      exact iff_of_true htidy trivial
  | sweep now =>
    cases hs
    exact iff_of_true (fun u hu => sweep_tidy h htidy hu) trivial
  | drop convo =>
    cases hs
    exact drop_tidy h htidy

end step

theorem empty_owned : Gallery.empty.Owned :=
  ⟨List.nodup_nil, fun _ => ⟨nofun, nofun⟩, nofun, nofun⟩

/-- However renders, clicks and decryptions overlap, a message never has two URLs, no two messages
share one, and every URL that is not revoked can still be found at its message. -/
theorem one_url_each {es : List Event} {t : Gallery} (hrun : run step .empty es = some t) :
    t.live.Nodup ∧ ∀ u ∈ t.live, ∃! m, t.url m = some u := by
  have howned := invariant (fun _ _ _ h hs => owned_step h hs) empty_owned hrun
  refine ⟨howned.nodup, fun u hu => ?_⟩
  obtain ⟨m, hm⟩ := (howned.live u).mp hu
  exact ⟨m, hm, fun n hn => howned.unique n m u hn hm⟩

def photo : Picture := ⟨"bob", true, "image/PNG", 4096, some 60⟩

/-- Two renders, each with its own decryption. -/
def shownTwice : List Event :=
  [.push photo, .render [0] true, .render [0] true, .decrypted 0 true, .decrypted 0 true]

theorem one_url_each_twice : ∃ t, run step .empty shownTwice = some t ∧ t.live = [0] ∧
    t.live.Nodup ∧ ∀ u ∈ t.live, ∃! m, t.url m = some u :=
  ⟨_, rfl, rfl, one_url_each (show run step .empty shownTwice = some _ from rfl)⟩

/-- At every moment of a run all URLs belong to messages of conversations just when each decryption
ended in time and no conversation was dropped with an image of it revealed. -/
theorem urls_released_iff {es : List Event} {t : Gallery} (hrun : run step .empty es = some t) :
    (∀ bs u, bs <+: es → run step .empty bs = some u → u.Tidy) ↔ Meets step timely .empty es :=
  throughout_iff (fun _ _ _ h htidy hs => ⟨owned_step h hs, tidy_step h htidy hs⟩) empty_owned nofun
    hrun

/-- The conversation goes while its image is being decrypted. -/
def decryptedLate : List Event :=
  [.push photo, .render [0] true, .drop "bob", .decrypted 0 true]

theorem urls_released_iff_late :
    ¬ ∀ bs u, bs <+: decryptedLate → run step .empty bs = some u → u.Tidy := by
  rw [urls_released_iff (show run step .empty decryptedLate = some _ from rfl)]
  intro hmeets
  have hkept : 0 ∈ ([] : List ℕ) := (((hmeets.2 _ rfl).2 _ rfl).2 _ rfl).1
  cases hkept

end Lattix.Client.Images
