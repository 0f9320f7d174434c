import Lattix.Crypto.Vault
import Lattix.Lib.Rereading
import Lattix.Lib.Runs

/-! The vault that a browser stores, while forms are sent in and signing in takes its time. -/

namespace Lattix.Client.SignIn
open Lib Lib.Json Lib.Runs Lattix.Crypto
open Server (key str)

abbrev Fields := List (Json.Text × Json)

/-- `identity` without what the relay keeps of it. -/
def withoutAvatar (identity : Fields) : Fields := identity.filter fun f => f.1 != key "avatar"

/-- What a form has begun and has not come to an end yet. -/
inductive Flow where
  /-- `onCreate` is at the relay; the name is trimmed and lower-cased. -/
  | creating (username : String) (password : Json.Text)
  /-- `onUnlock` is at the relay or decrypts. -/
  | unlocking (vault : Json) (password : Json.Text)
  /-- `onImport` is, with the contents of a file. -/
  | importing (vault : Json) (password : Json.Text)
  /-- `bootApp` runs; a vault that was opened may be upgraded after it. -/
  | booting (vault : Option Json) (identity : Fields) (password : Json.Text)
  /-- `upgradeVault` derives the key. -/
  | upgrading (stored : Fields) (password : Json.Text)

/-- A tab and the storage it has to itself. -/
structure Device where
  stored : Option Json.Text
  flows : List Flow
  /-- `bootApp` has hidden the forms. -/
  signedIn : Bool

inductive Event where
  | create (username : String) (password password2 : Json.Text) (ack proceed : Bool)
  | unlock (password : Json.Text)
  | importFile (contents : List Char) (password : Json.Text)
  | registered (i : ℕ) (draws : IdentityDraws) (coins : SealDraws)
  | opened (i : ℕ)
  | booted (i : ℕ) (avatar : Json)
  | resealed (i : ℕ) (coins : SealDraws)
  | failed (i : ℕ)
  | deleteAppData
  | reload

/-- A page that was just loaded. -/
def fresh (stored : Option Json.Text) : Device := ⟨stored, [], false⟩

def Device.start (s : Device) (f : Flow) : Device := { s with flows := s.flows ++ [f] }

def Device.finish (s : Device) (i : ℕ) : Device := { s with flows := s.flows.eraseIdx i }

def Device.become (s : Device) (i : ℕ) (f : Flow) : Device := { s with flows := s.flows.set i f }

section device
variable (P : Platform) (pbkdf2 : Kdf)

/-- Throws for what is no JSON. -/
def loadStoredVault (stored : Option Json.Text) : Option Json :=
  match stored with
  | none | some [] => some .null
  | some raw => parse P.doubles false raw

def Device.storeVault (s : Device) (vault : Json) : Device :=
  { s with stored := some (text (write P.doubles stringify vault)) }

def register (username : String) (d : IdentityDraws) : Fields :=
  Json.insert (key "username") (str username) (generateIdentity P d)

/-- A field of what is sent, unless it is `undefined`. -/
def sent (name : String) (v : Option Json) : Fields := (v.map fun v => (key name, v)).toList

/-- What `api.register` is given of an identity. -/
def registerBody (identity : Fields) : Fields :=
  let field (name : String) := (Json.object identity).get (key name)
  let publicKey (name : String) := (field name).bind (Json.get (key "publicKey"))
  sent "username" (field "username") ++ sent "kem_public_key" (publicKey "kem") ++
    sent "dsa_public_key" (publicKey "dsa") ++ sent "fingerprint" (field "fingerprint") ++
    sent "auth_secret" (field "authSecret")

/-- Signing in needs the fields of an object. -/
def identityIn (vault : Json) (password : Json.Text) : Option Fields :=
  match openVault P pbkdf2 vault password with
  | .ok (.object identity) => some identity
  | _ => none

/-- What the forms and the ends of what they began do. A form that refuses or fails at once leaves
everything as it was. -/
def step (s : Device) : Event → Option Device
  | .create username password password2 ack proceed =>
    if s.signedIn then none
    else if (codeUnits password).length < 8 ∨ codeUnits password ≠ codeUnits password2 ∨ ¬ ack then some s
    else
      match loadStoredVault P s.stored with
      | none => some s
      | some vault =>
        if truthy (some vault) && !proceed then some s else some (s.start (.creating username password))
  | .unlock password =>
    if s.signedIn then none
    else
      match loadStoredVault P s.stored with
      | none => some s
      | some vault => if truthy (some vault) then some (s.start (.unlocking vault password)) else some s
  | .importFile contents password =>
    if s.signedIn then none
    else
      match parse P.doubles false (text contents) with
      | none => some s
      | some vault => some (s.start (.importing vault password))
  | .registered i draws coins =>
    match s.flows[i]? with
    | some (.creating username password) =>
      let identity := register P username draws
      some { ((s.storeVault P (sealVault P pbkdf2 (.object identity) password coins)).become i
        (.booting none identity password)) with signedIn := true }
    | _ => none
  | .opened i =>
    match s.flows[i]? with
    | some (.unlocking vault password) => (identityIn P pbkdf2 vault password).map fun identity =>
        { s.become i (.booting (some vault) identity password) with signedIn := true }
    | some (.importing vault password) => (identityIn P pbkdf2 vault password).map fun identity =>
        { (s.storeVault P vault).become i (.booting (some vault) identity password) with
          signedIn := true }
    | _ => none
  | .booted i avatar =>
    match s.flows[i]? with
    | some (.booting vault identity password) =>
      if vault.any (vaultNeedsUpgrade P) then
        some (s.become i (.upgrading (withoutAvatar (Json.insert (key "avatar") avatar identity)) password))
      else some (s.finish i)
    | _ => none
  | .resealed i coins =>
    match s.flows[i]? with
    | some (.upgrading stored password) =>
      some ((s.storeVault P (sealVault P pbkdf2 (.object stored) password coins)).finish i)
    | _ => none
  | .failed i => if i < s.flows.length then some (s.finish i) else none
  | .deleteAppData => if s.signedIn then some { s with stored := none } else none
  | .reload => some (fresh s.stored)

/-- An identity and the password that it was created or opened with. -/
abbrev Credentials := Fields × Json.Text

/-- Whom an event signs in. -/
def accepted (s : Device) : Event → Option Credentials
  | .registered i draws _ =>
    match s.flows[i]? with
    | some (.creating username password) => some (register P username draws, password)
    | _ => none
  | .opened i =>
    match s.flows[i]? with
    | some (.unlocking vault password) | some (.importing vault password) =>
      (identityIn P pbkdf2 vault password).map (·, password)
    | _ => none
  | _ => none

/-- What is stored opens with the password, and it is the identity but for the picture. -/
def Device.Opens (s : Device) (c : Credentials) : Prop :=
  ∃ vault identity, loadStoredVault P s.stored = some vault ∧
    identityIn P pbkdf2 vault c.2 = some identity ∧ withoutAvatar identity = withoutAvatar c.1

/-- A flow past the password is about one of `known`, and storage gives a file back as it is. -/
def Flow.Carries (known : List Credentials) : Flow → Prop
  | .importing vault _ => Stable vault
  | .booting _ identity password =>
    ∃ c ∈ known, withoutAvatar identity = withoutAvatar c.1 ∧ password = c.2
  | .upgrading stored password => ∃ c ∈ known, stored = withoutAvatar c.1 ∧ password = c.2
  | _ => True

def Device.Carries (known : List Credentials) (s : Device) : Prop := ∀ f ∈ s.flows, f.Carries known

/-- Everybody who has been signed in. -/
def withAccepted (known : List Credentials) (s : Device) (e : Event) : List Credentials :=
  (accepted P pbkdf2 s e).toList ++ known

/-- The last one, unless the storage was erased since. -/
def lastAccepted (last : Option Credentials) (s : Device) : Event → Option Credentials
  | .deleteAppData => none
  | e => (accepted P pbkdf2 s e).or last

/-- No number in a file that is brought in, or in an identity that is opened, is too large. -/
def Finite (s : Device) : Event → Prop
  | .importFile contents _ =>
    ∀ vault, parse P.doubles false (text contents) = some vault → every Json.numeric vault = true
  | .opened i => ∀ c, accepted P pbkdf2 s (.opened i) = some c → every Json.numeric (.object c.1) = true
  | _ => True

/-- And a form is sent in only when nothing is under way. -/
def Orderly (s : Device) (e : Event) : Prop :=
  Finite P pbkdf2 s e ∧
    match e with
    | .create .. | .unlock _ | .importFile .. => s.flows = []
    | _ => True

end device

section fields
variable {identity : Fields} {v : Json}

theorem withoutAvatar_insert : withoutAvatar (Json.insert (key "avatar") v identity) = withoutAvatar identity := by
  induction identity with
  | nil => simp [Json.insert, withoutAvatar]
  | cons f fs ih =>
    rw [Json.insert]
    split
    · rename_i h
      simp [withoutAvatar, h]
    · simp only [withoutAvatar, List.filter_cons] at ih ⊢
      rw [ih]

theorem withoutAvatar_idem : withoutAvatar (withoutAvatar identity) = withoutAvatar identity := by
  simp [withoutAvatar, List.filter_filter]

end fields

section stored
variable {P : Platform} {pbkdf2 : Kdf} {s t : Device} {e : Event} {c : Credentials}

theorem loadStoredVault_of_parse {raw : Json.Text} {v : Json} (h : parse P.doubles false raw = some v) :
    loadStoredVault P (some raw) = some v := by
  cases raw with
  | nil => cases h
  | cons => exact h

theorem stable_register (username : String) (d : IdentityDraws) :
    Stable (.object (register P username d)) where
  built := by
    simp [register, generateIdentity, Json.insert, every, everyField, Json.built, str, key, text]
  spelled := by
    simp [register, generateIdentity, Json.insert, every, everyField, Json.spelled, str, joined_key, joined_b64]
  numeric := by
    simp [register, generateIdentity, Json.insert, every, everyField, Json.numeric, str]

theorem opens_seal (hP : P.Correct) (htag : ∀ k iv pt, P.encrypt k iv pt ≠ []) {identity : Fields}
    (hs : Stable (.object identity)) (hc : withoutAvatar identity = withoutAvatar c.1)
    (d : SealDraws) (hraw : t.stored = some (text (write P.doubles stringify
      (sealVault P pbkdf2 (.object identity) c.2 d)))) : t.Opens P pbkdf2 c := by
  refine ⟨_, identity, hraw ▸ loadStoredVault_of_parse stable_sealVault.reread, ?_, hc⟩
  rw [identityIn, openVault_sealVault hP htag hs]

theorem opens_stored {vault : Json} (hload : loadStoredVault P t.stored = some vault)
    (hopen : identityIn P pbkdf2 vault c.2 = some c.1) : t.Opens P pbkdf2 c :=
  ⟨vault, c.1, hload, hopen, rfl⟩

theorem stable_identityIn {vault : Json} {password : Json.Text} {identity : Fields}
    (h : identityIn P pbkdf2 vault password = some identity)
    (hn : every Json.numeric (.object identity) = true) : Stable (.object identity) := by
  unfold identityIn at h
  split at h
  · rename_i hopen
    cases h
    obtain ⟨_, ht, hparse⟩ := openVault_parsed hopen
    exact stable_of_parse ht hparse hn
  · cases h

section flows
variable {known : List Credentials} {i : ℕ} {f : Flow}

theorem Flow.Carries.mono {more : List Credentials} (hsub : known ⊆ more) (h : f.Carries known) :
    f.Carries more := by
  cases f with
  | booting | upgrading =>
    obtain ⟨c, hc, h⟩ := h
    exact ⟨c, hsub hc, h⟩
  | importing => exact h
  | creating | unlocking => trivial

theorem booting_carries (c : Credentials) (vault : Option Json) :
    (Flow.booting vault c.1 c.2).Carries (c :: known) := ⟨c, List.mem_cons_self, rfl, rfl⟩

theorem Device.Carries.start (h : s.Carries known) (hf : f.Carries known) :
    (s.start f).Carries known := by
  intro g hg
  rcases List.mem_append.mp hg with hg | hg
  · exact h g hg
  · rw [List.mem_singleton.mp hg]
    exact hf

theorem Device.Carries.set (h : s.Carries known) (hf : f.Carries known)
    (ht : t.flows = s.flows.set i f) : t.Carries known := by
  intro g hg
  rw [ht] at hg
  rcases List.mem_or_eq_of_mem_set hg with hg | rfl
  · exact h g hg
  · exact hf

theorem Device.Carries.finish (h : s.Carries known) : (s.finish i).Carries known :=
  fun g hg => h g (List.mem_of_mem_eraseIdx hg)

theorem Device.Carries.get (h : s.Carries known) (hi : s.flows[i]? = some f) : f.Carries known :=
  h f (List.mem_of_getElem? hi)

end flows

/-- An event that signs nobody in leaves what is stored alone, erases it, or seals what was signed
in before. -/
theorem kept_step (hP : P.Correct) (htag : ∀ k iv pt, P.encrypt k iv pt ≠ [])
    {known : List Credentials} (hknown : ∀ c ∈ known, Stable (.object (withoutAvatar c.1)))
    (hs : s.Carries known) (hfin : Finite P pbkdf2 s e) (hacc : accepted P pbkdf2 s e = none)
    (h : step P pbkdf2 s e = some t) :
    t.Carries known ∧ (t.stored = s.stored ∨ (e = .deleteAppData ∧ t.stored = none) ∨
      ∃ c ∈ known, t.Opens P pbkdf2 c) := by
  cases e with
  | create username password password2 ack proceed =>
    simp only [step] at h
    split_ifs at h
    · cases h
      exact ⟨hs, .inl rfl⟩
    · split at h
      · cases h
        exact ⟨hs, .inl rfl⟩
      · split_ifs at h <;> cases h
        · exact ⟨hs, .inl rfl⟩
        · exact ⟨hs.start trivial, .inl rfl⟩
  | unlock password =>
    simp only [step] at h
    split_ifs at h
    split at h
    · cases h
      exact ⟨hs, .inl rfl⟩
    · split_ifs at h <;> cases h
      · exact ⟨hs.start trivial, .inl rfl⟩
      · exact ⟨hs, .inl rfl⟩
  | importFile contents password =>
    simp only [step] at h
    split_ifs at h
    split at h
    · cases h
      exact ⟨hs, .inl rfl⟩
    · rename_i vault hparse
      cases h
      have hstable : Stable vault := stable_of_parse (all_text _) hparse (hfin vault hparse)
      exact ⟨hs.start hstable, .inl rfl⟩
  | registered i draws coins =>
    simp only [step] at h
    split at h
    · rename_i hi
      simp only [accepted, hi] at hacc
      cases hacc
    · cases h
  | opened i =>
    simp only [step] at h
    split at h
    · rename_i hi
      simp only [accepted, hi, Option.map_eq_none_iff] at hacc
      rw [hacc] at h
      cases h
    · rename_i hi
      simp only [accepted, hi, Option.map_eq_none_iff] at hacc
      rw [hacc] at h
      cases h
    · cases h
  | booted i avatar =>
    simp only [step] at h
    split at h
    · rename_i vault identity password hi
      obtain ⟨c, hc, hid, hpw⟩ := hs.get hi
      have hf : (Flow.upgrading (withoutAvatar (Json.insert (key "avatar") avatar identity))
          password).Carries known := ⟨c, hc, withoutAvatar_insert.trans hid, hpw⟩
      split_ifs at h <;> cases h
      · exact ⟨hs.set hf rfl, .inl rfl⟩
      · exact ⟨hs.finish, .inl rfl⟩
    · cases h
  | resealed i coins =>
    simp only [step] at h
    split at h
    · rename_i stored password hi
      obtain ⟨c, hc, rfl, rfl⟩ := hs.get hi
      cases h
      have hopens := opens_seal (t := (s.storeVault P (sealVault P pbkdf2
        (.object (withoutAvatar c.1)) c.2 coins)).finish i) hP htag (hknown c hc)
        withoutAvatar_idem coins rfl
      exact ⟨hs.finish, .inr (.inr ⟨c, hc, hopens⟩)⟩
    · cases h
  | failed i =>
    simp only [step] at h
    split_ifs at h
    cases h
    exact ⟨hs.finish, .inl rfl⟩
  | deleteAppData =>
    simp only [step] at h
    split_ifs at h
    cases h
    exact ⟨hs, .inr (.inl ⟨rfl, rfl⟩)⟩
  | reload =>
    cases h
    exact ⟨nofun, .inl rfl⟩

/-- Signing in stores a vault that opens, or goes on with the one that was loaded. -/
theorem accepted_step (hP : P.Correct) (htag : ∀ k iv pt, P.encrypt k iv pt ≠ [])
    {known : List Credentials} (hs : s.Carries known) (hfin : Finite P pbkdf2 s e)
    (hacc : accepted P pbkdf2 s e = some c) (h : step P pbkdf2 s e = some t) :
    Stable (.object c.1) ∧
      (∃ (i : ℕ) (vault : Option Json), i < s.flows.length ∧
        t.flows = s.flows.set i (.booting vault c.1 c.2)) ∧
      (t.Opens P pbkdf2 c ∨ ∃ (i : ℕ) (vault : Json), s.flows[i]? = some (.unlocking vault c.2) ∧
        identityIn P pbkdf2 vault c.2 = some c.1 ∧ t.stored = s.stored) := by
  cases e with
  | registered i draws coins =>
    simp only [accepted] at hacc
    split at hacc
    · rename_i username password hi
      simp only [step, hi] at h
      cases hacc
      cases h
      have hstable := stable_register (P := P) username draws
      exact ⟨hstable, ⟨i, _, (List.getElem?_eq_some_iff.mp hi).1, rfl⟩,
        .inl (opens_seal hP htag hstable rfl coins rfl)⟩
    · cases hacc
  | opened i =>
    have hnum := hfin c hacc
    simp only [accepted] at hacc
    split at hacc
    · rename_i vault password hi
      obtain ⟨identity, hid, he⟩ := Option.map_eq_some_iff.mp hacc
      cases he
      simp only [step, hi, hid, Option.map_some] at h
      cases h
      exact ⟨stable_identityIn hid hnum, ⟨i, _, (List.getElem?_eq_some_iff.mp hi).1, rfl⟩,
        .inr ⟨i, vault, hi, hid, rfl⟩⟩
    · rename_i vault password hi
      obtain ⟨identity, hid, he⟩ := Option.map_eq_some_iff.mp hacc
      cases he
      simp only [step, hi, hid, Option.map_some] at h
      cases h
      have hstable : Stable vault := hs.get hi
      exact ⟨stable_identityIn hid hnum, ⟨i, _, (List.getElem?_eq_some_iff.mp hi).1, rfl⟩,
        .inl (opens_stored (loadStoredVault_of_parse hstable.reread) hid)⟩
    · cases hacc
  | create | unlock | importFile | booted | resealed | failed | deleteAppData | reload => cases hacc

theorem Device.Opens.congr (h : s.Opens P pbkdf2 c) (he : t.stored = s.stored) : t.Opens P pbkdf2 c := by
  obtain ⟨vault, identity, hload, hrest⟩ := h
  exact ⟨vault, identity, he ▸ hload, hrest⟩

/-! Any order -/

variable (P pbkdf2) in
/-- Storage is as it was found, empty, or opens for one of `known`. -/
structure Device.Traced (raw : Option Json.Text) (known : List Credentials) (s : Device) : Prop where
  stable : ∀ c ∈ known, Stable (.object (withoutAvatar c.1))
  carries : s.Carries known
  opens : s.stored = raw ∨ s.stored = none ∨ ∃ c ∈ known, s.Opens P pbkdf2 c

theorem traced_step (hP : P.Correct) (htag : ∀ k iv pt, P.encrypt k iv pt ≠ []) {raw : Option Json.Text}
    {known : List Credentials} (hs : s.Traced P pbkdf2 raw known) (hfin : Finite P pbkdf2 s e)
    (h : step P pbkdf2 s e = some t) :
    t.Traced P pbkdf2 raw (withAccepted P pbkdf2 known s e) := by
  cases hacc : accepted P pbkdf2 s e with
  | none =>
    obtain ⟨hcarries, hstored⟩ := kept_step hP htag hs.stable hs.carries hfin hacc h
    rw [withAccepted, hacc]
    refine ⟨hs.stable, hcarries, ?_⟩
    rcases hstored with hsame | ⟨-, hnone⟩ | hopens
    · rw [hsame]
      exact hs.opens.imp_right (Or.imp_right fun ⟨c, hc, ho⟩ => ⟨c, hc, ho.congr hsame⟩)
    · exact .inr (.inl hnone)
    · exact .inr (.inr hopens)
  | some c =>
    obtain ⟨hstable, ⟨i, vault, -, hflows⟩, hstored⟩ := accepted_step hP htag hs.carries hfin hacc h
    have hmore : s.Carries (c :: known) := fun f hf => (hs.carries f hf).mono (List.subset_cons_self _ _)
    rw [withAccepted, hacc]
    refine ⟨List.forall_mem_cons.mpr ⟨hstable.filter _, hs.stable⟩,
      hmore.set (booting_carries c vault) hflows, ?_⟩
    rcases hstored with hopens | ⟨-, -, -, -, hsame⟩
    · exact .inr (.inr ⟨c, List.mem_cons_self, hopens⟩)
    · rw [hsame]
      exact hs.opens.imp_right (Or.imp_right fun ⟨d, hd, ho⟩ =>
        ⟨d, List.mem_cons_of_mem _ hd, ho.congr hsame⟩)

/-- In whatever order forms are sent in and come to an end, the storage holds what it held at
first, nothing, or a vault that opens for somebody who was signed in. -/
theorem stored_opens (hP : P.Correct) (htag : ∀ k iv pt, P.encrypt k iv pt ≠ []) {raw : Option Json.Text}
    {es : List Event} (hok : Meets (step P pbkdf2) (Finite P pbkdf2) (fresh raw) es)
    (hrun : run (step P pbkdf2) (fresh raw) es = some t) :
    t.stored = raw ∨ t.stored = none ∨
      ∃ c ∈ gather (step P pbkdf2) (withAccepted P pbkdf2) [] (fresh raw) es, t.Opens P pbkdf2 c := by
  have hstart : (fresh raw).Traced P pbkdf2 raw [] := ⟨nofun, nofun, .inl rfl⟩
  have hstep : ∀ known s e t, Device.Traced P pbkdf2 raw known s → Finite P pbkdf2 s e →
      step P pbkdf2 s e = some t → t.Traced P pbkdf2 raw (withAccepted P pbkdf2 known s e) :=
    fun _ _ _ _ hs hfin h => traced_step hP htag hs hfin h
  exact (invariant_gather hstep hstart hok hrun).opens

def drawn : IdentityDraws := ⟨block 64 1, block 32 2, block 32 3⟩

def password : Json.Text := key "secrets!"

/-- Two accounts are created at once, and the first form comes to its end last. -/
def twoForms : List Event :=
  [.create "alice" password password true false, .create "bob" password password true false,
    .registered 1 drawn someSeal, .registered 0 drawn someSeal]

theorem stored_opens_both : ∃ t, run (step clear unstretched) (fresh none) twoForms = some t ∧
    (t.stored = none ∨ t.stored = none ∨ ∃ c ∈ gather (step clear unstretched)
      (withAccepted clear unstretched) [] (fresh none) twoForms, t.Opens clear unstretched c) := by
  have hok : Meets (step clear unstretched) (Finite clear unstretched) (fresh none) twoForms :=
    ⟨trivial, fun _ _ => ⟨trivial, fun _ _ => ⟨trivial, fun _ _ => ⟨trivial, fun _ _ => trivial⟩⟩⟩⟩
  exact ⟨_, rfl, stored_opens clear_correct clear_nonempty hok rfl⟩

/-! One form at a time -/

variable (P) in
/-- An unlock that goes on has read what is still stored. -/
def Flow.Fits (s : Device) : Flow → Prop
  | .unlocking vault _ => loadStoredVault P s.stored = some vault ∧ s.signedIn = false
  | _ => True

variable (P) in
def Device.Calm (s : Device) : Prop := s.flows = [] ∨ ∃ f : Flow, s.flows = [f] ∧ f.Fits P s

theorem Device.Calm.get {i : ℕ} {f : Flow} (hs : s.Calm P) (hi : s.flows[i]? = some f) :
    i = 0 ∧ s.flows = [f] ∧ f.Fits P s := by
  rcases hs with hs | ⟨g, hs, hg⟩
  · rw [hs] at hi
    cases hi
  · rw [hs] at hi
    cases i with
    | zero =>
      cases hi
      exact ⟨rfl, hs, hg⟩
    | succ i => cases hi

theorem Device.Calm.idle {f : Flow} (hs : s.Calm P) (hsigned : s.signedIn = true) (hf : f ∈ s.flows)
    (t : Device) : f.Fits P t := by
  rcases hs with hs | ⟨g, hs, hg⟩
  · rw [hs] at hf
    cases hf
  · rw [hs, List.mem_singleton] at hf
    subst hf
    cases f with
    | unlocking => exact absurd (hsigned.symm.trans hg.2) nofun
    | _ => trivial

theorem calm_step (hs : s.Calm P) (hok : Orderly P pbkdf2 s e) (h : step P pbkdf2 s e = some t) :
    t.Calm P := by
  cases e with
  | create username password password2 ack proceed =>
    simp only [step] at h
    split_ifs at h
    · cases h
      exact hs
    · split at h
      · cases h
        exact hs
      · split_ifs at h <;> cases h
        · exact hs
        · exact .inr ⟨_, congrArg (· ++ [_]) hok.2, trivial⟩
  | unlock password =>
    simp only [step] at h
    split_ifs at h with hsigned
    split at h
    · cases h
      exact hs
    · rename_i vault hload
      split_ifs at h <;> cases h
      · exact .inr ⟨_, congrArg (· ++ [_]) hok.2, hload, Bool.eq_false_iff.mpr hsigned⟩
      · exact hs
  | importFile contents password =>
    simp only [step] at h
    split_ifs at h
    split at h
    · cases h
      exact hs
    · cases h
      exact .inr ⟨_, congrArg (· ++ [_]) hok.2, trivial⟩
  | registered i draws coins =>
    simp only [step] at h
    split at h
    · rename_i hi
      obtain ⟨rfl, hflows, -⟩ := hs.get hi
      cases h
      exact .inr ⟨_, congrArg (List.set · 0 _) hflows, trivial⟩
    · cases h
  | opened i =>
    simp only [step] at h
    split at h
    · rename_i hi
      obtain ⟨rfl, hflows, -⟩ := hs.get hi
      obtain ⟨identity, -, rfl⟩ := Option.map_eq_some_iff.mp h
      exact .inr ⟨_, congrArg (List.set · 0 _) hflows, trivial⟩
    · rename_i hi
      obtain ⟨rfl, hflows, -⟩ := hs.get hi
      obtain ⟨identity, -, rfl⟩ := Option.map_eq_some_iff.mp h
      exact .inr ⟨_, congrArg (List.set · 0 _) hflows, trivial⟩
    · cases h
  | booted i avatar =>
    simp only [step] at h
    split at h
    · rename_i hi
      obtain ⟨rfl, hflows, -⟩ := hs.get hi
      split_ifs at h <;> cases h
      · exact .inr ⟨_, congrArg (List.set · 0 _) hflows, trivial⟩
      · exact .inl (congrArg (List.eraseIdx · 0) hflows)
    · cases h
  | resealed i coins =>
    simp only [step] at h
    split at h
    · rename_i hi
      obtain ⟨rfl, hflows, -⟩ := hs.get hi
      cases h
      exact .inl (congrArg (List.eraseIdx · 0) hflows)
    · cases h
  | failed i =>
    simp only [step] at h
    split_ifs at h with hi
    cases h
    obtain ⟨rfl, hflows, -⟩ := hs.get (List.getElem?_eq_getElem hi)
    exact .inl ((congrArg (List.eraseIdx · 0) hflows).trans rfl)
  | deleteAppData =>
    simp only [step] at h
    split_ifs at h with hsigned
    cases h
    rcases id hs with hflows | ⟨f, hflows, -⟩
    · exact .inl hflows
    · exact .inr ⟨f, hflows, hs.idle hsigned (hflows ▸ List.mem_singleton_self f) _⟩
  | reload =>
    cases h
    exact .inl rfl

variable (P pbkdf2) in
/-- Storage opens for the last who was signed in, and what is under way is about them. -/
structure Device.Follows (last : Option Credentials) (s : Device) : Prop where
  calm : s.Calm P
  carries : ∃ known, (∀ c ∈ known, Stable (.object (withoutAvatar c.1))) ∧ s.Carries known ∧
    ∀ c ∈ last, known = [c]
  opens : ∀ c ∈ last, s.Opens P pbkdf2 c

theorem follows_step (hP : P.Correct) (htag : ∀ k iv pt, P.encrypt k iv pt ≠ [])
    {last : Option Credentials} (hs : s.Follows P pbkdf2 last) (hok : Orderly P pbkdf2 s e)
    (h : step P pbkdf2 s e = some t) : t.Follows P pbkdf2 (lastAccepted P pbkdf2 last s e) := by
  have hcalm := calm_step hs.calm hok h
  obtain ⟨known, hstable, hcarries, hlast⟩ := hs.carries
  cases hacc : accepted P pbkdf2 s e with
  | none =>
    obtain ⟨hcarries, hstored⟩ := kept_step hP htag hstable hcarries hok.1 hacc h
    by_cases hdel : e = .deleteAppData
    · subst hdel
      exact ⟨hcalm, ⟨known, hstable, hcarries, nofun⟩, nofun⟩
    · have hsame : lastAccepted P pbkdf2 last s e = last := by
        cases e with
        | deleteAppData => exact absurd rfl hdel
        | _ => exact congrArg (Option.or · last) hacc
      rw [hsame]
      refine ⟨hcalm, ⟨known, hstable, hcarries, hlast⟩, fun c hc => ?_⟩
      rcases hstored with hkept | ⟨he, -⟩ | ⟨d, hd, hopens⟩
      · exact (hs.opens c hc).congr hkept
      · exact absurd he hdel
      · rw [hlast c hc, List.mem_singleton] at hd
        exact hd ▸ hopens
  | some c =>
    obtain ⟨hid, ⟨i, vault, hi, hflows⟩, hstored⟩ := accepted_step hP htag hcarries hok.1 hacc h
    have hnow : lastAccepted P pbkdf2 last s e = some c := by
      cases e with
      | deleteAppData => cases hacc
      | _ => exact congrArg (Option.or · last) hacc
    rw [hnow]
    have hnew : t.Carries [c] := by
      obtain ⟨rfl, hone, -⟩ := hs.calm.get (List.getElem?_eq_getElem hi)
      intro f hf
      rw [hflows, hone, List.set_cons_zero, List.mem_singleton] at hf
      exact hf ▸ booting_carries c vault
    refine ⟨hcalm, ⟨[c], List.forall_mem_singleton.mpr (hid.filter _), hnew, ?_⟩, ?_⟩
    · intro d hd
      cases hd
      rfl
    · intro d hd
      cases hd
      rcases hstored with hopens | ⟨j, held, hj, hopen, hsame⟩
      · exact hopens
      · obtain ⟨-, -, hload, -⟩ := hs.calm.get hj
        exact opens_stored (hsame ▸ hload) hopen

/-- When a form is sent in only while nothing is under way, what is stored at the end of a run opens
with the password of the last who was signed in, unless they erased it, and is their identity. -/
theorem vault_follows (hP : P.Correct) (htag : ∀ k iv pt, P.encrypt k iv pt ≠ []) {raw : Option Json.Text}
    {es : List Event} (hok : Meets (step P pbkdf2) (Orderly P pbkdf2) (fresh raw) es)
    (hrun : run (step P pbkdf2) (fresh raw) es = some t)
    (hlast : gather (step P pbkdf2) (lastAccepted P pbkdf2) none (fresh raw) es = some c) :
    t.Opens P pbkdf2 c := by
  have hstart : (fresh raw).Follows P pbkdf2 none :=
    ⟨.inl rfl, ⟨[], nofun, nofun, nofun⟩, nofun⟩
  have hstep : ∀ last s e t, Device.Follows P pbkdf2 last s → Orderly P pbkdf2 s e →
      step P pbkdf2 s e = some t → t.Follows P pbkdf2 (lastAccepted P pbkdf2 last s e) :=
    fun _ _ _ _ hs hok h => follows_step hP htag hs hok h
  exact (invariant_gather hstep hstart hok hrun).opens c hlast

def firstDay : List Event :=
  [.create "alice" password password true false, .registered 0 drawn someSeal, .booted 0 .null, .reload]

theorem vault_follows_alice : ∃ t, run (step clear unstretched) (fresh none) firstDay = some t ∧
    t.Opens clear unstretched (register clear "alice" drawn, password) := by
  have hok : Meets (step clear unstretched) (Orderly clear unstretched) (fresh none) firstDay :=
    ⟨⟨trivial, rfl⟩, fun _ _ => ⟨⟨trivial, trivial⟩, fun _ _ => ⟨⟨trivial, trivial⟩, fun _ _ =>
      ⟨⟨trivial, trivial⟩, fun _ _ => trivial⟩⟩⟩⟩
  exact ⟨_, rfl, vault_follows clear_correct clear_nonempty hok rfl rfl⟩

end stored

end Lattix.Client.SignIn
