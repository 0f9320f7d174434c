import Lattix.Lib.Literals
import Lattix.Server.Administration
import Lattix.Server.Traces

namespace Lattix.Server
open Lib.Transactions Lib.Runs

/-- The account `b`, which alone uploaded the blob, posted it to `a`, or to a
group that took `a` in and has it as a member now. -/
structure Service.Granted (s : Service) (fileId : String) (a b : Account) : Prop where
  uploaded : (fileId, b) ∈ s.uploads
  alone : ∀ c, (fileId, c) ∈ s.uploads → c = b
  posted : ⟨fileId, b, .user a⟩ ∈ s.posts ∨ ∃ g, ⟨fileId, b, .group g⟩ ∈ s.posts ∧
    s.tables.hasMember g a.username = true ∧ (g, a) ∈ s.joins

namespace Service
variable {R : Runtime} {s : Service}

theorem Posted.granted {fileId : String} {a b : Account} {dest : Audience} (h : s.Sane)
    (hp : s.Posted fileId b dest) (hd : dest = .user a ∨ ∃ g, dest = .group g ∧
      s.tables.hasMember g a.username = true ∧ (g, a) ∈ s.joins) : s.Granted fileId a b where
  uploaded := hp.1
  alone c hc := congrArg Prod.snd (List.inj_on_of_nodup_map h.uploads hc hp.1 rfl)
  posted := by
    rcases hd with rfl | ⟨g, rfl, hm⟩
    · exact .inl hp.2
    · exact .inr ⟨g, hp.2, hm⟩

/-- The three tables that `user_can_access_file` asks. -/
theorem Sane.granted (h : s.Sane) {fileId : String} {a : Account} (ha : a = s.account a.username)
    (hc : s.tables.canAccess a.username fileId = true) (hn : (fileId, a) ∉ s.uploads) :
    ∃ b, s.Granted fileId a b := by
  simp only [Tables.canAccess, Bool.or_eq_true, List.any_eq_true, Bool.and_eq_true,
    beq_iff_eq] at hc
  rcases hc with (⟨f, hf, hid, ho⟩ | ⟨e, he, hid, hw⟩) | ⟨e, he, hid, hm⟩
  · have hu := h.traced.file f hf
    rw [hid, ho, ← ha] at hu
    exact absurd hu hn
  · have hp := h.traced.envelope e he fileId hid
    rcases hw with hs | hr
    · rw [hs, ← ha] at hp
      exact absurd hp.1 hn
    · rw [hr, ← ha] at hp
      exact ⟨_, hp.granted h (.inl rfl)⟩
  · obtain ⟨m, hmem, hg, hu⟩ := Tables.hasMember_iff.mp hm
    have hj := h.traced.member m hmem
    rw [hg, hu, ← ha] at hj
    exact ⟨_, (h.traced.groupEnvelope e he fileId hid).granted h (.inr ⟨_, rfl, hm, hj⟩)⟩

/-- Whoever gets a blob uploaded it, or was sent it by the account that did,
alone or as one of a group. -/
theorem download_was_posted (R : Runtime) (es : List Event) {s s' : Service}
    (hrun : run (step R) .empty es = some s) {authorization fileId : String} {d : Draws}
    (hs : step R s (.request authorization (.downloadFile fileId) d) = some s')
    {ciphertext : List UInt8} {size : Nat}
    (hr : (s.handle R authorization (.downloadFile fileId) d).1 = .content ciphertext size) :
    ∃ a, (requireUser d.checkedAt authorization s.tokens).1 = some a ∧
      s.tables.hasUser a.username = true ∧ a = s.account a.username ∧
      ((fileId, a) ∉ s.uploads → ∃ b, s.Granted fileId a b) := by
  have h : s.Sane := run_sane hrun
  simp only [step] at hs
  split at hs
  · rename_i hc
    have hd : Handled R d authorization s (.downloadFile fileId) _ _ :=
      handle_handled h (Bool.and_eq_true_iff.mp hc).2 _
    rw [hr] at hd
    generalize (s.handle R authorization (.downloadFile fileId) d).2 = s'' at hd
    cases hd with
    | served hme ho =>
      obtain ⟨hu, ha, -⟩ := h.caller hme
      cases ho with
      | looked ht => cases ht
      | downloaded hf hi hacc => exact ⟨_, by rw [hme], hu, ha, fun hn => h.granted ha hacc hn⟩
  · cases hs

end Service

/-- What the relay's interpreter gives it, to run examples with. -/
def plain : Runtime := ⟨asciiLower, id, saltedSecret, .coded, 1000⟩

def draws (token fileId : String) (roster : List String) : Draws :=
  ⟨0, 0, 0, false, "salt", token, fileId, roster⟩

def signUp (username token : String) : Service.Event :=
  .request "" (.register ⟨username, "kem", "dsa", "fp", "secret", none⟩) (draws token "f0" [])

def asks (token : String) (req : Request) : Service.Event :=
  .request ("Bearer " ++ token) req (draws "t0" "f0" [])

/-- ann uploads a blob and posts it to bob. -/
def fileForBob : List Service.Event :=
  [signUp "ann" "t1", signUp "bob" "t2",
    .request "Bearer t1" (.uploadFile [[7]] 1) (draws "t0" "f1" []),
    asks "t1" (.sendFileMessage ⟨⟨"bob", [], none⟩, "f1", "n", "m", 1⟩)]

theorem bobs_download_was_posted :
    ∃ s, run (Service.step plain) .empty fileForBob = some s ∧
      ∃ a, (requireUser 0 "Bearer t2" s.tokens).1 = some a ∧
        s.tables.hasUser a.username = true ∧ a = s.account a.username ∧
        (("f1", a) ∉ s.uploads → ∃ b, s.Granted "f1" a b) :=
  ⟨_, rfl, Service.download_was_posted plain fileForBob rfl (d := draws "t0" "f0" []) rfl rfl⟩

end Lattix.Server
