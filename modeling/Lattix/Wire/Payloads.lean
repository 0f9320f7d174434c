import Mathlib.Data.List.Sort

namespace Lattix.Wire

/-- What AES-GCM makes of a text: it opens under its own content key. -/
structure Sealed where
  cek : Nat
  text : String
deriving DecidableEq, Repr

/-- A content key wrapped for a KEM public key. -/
structure Wrap where
  kemPub : String
  cek : Nat
deriving DecidableEq, Repr

structure Entry where
  username : String
  wrap : Wrap
deriving DecidableEq, Repr

structure Recipient where
  username : String
  kemPub : String
deriving DecidableEq, Repr

/-- What a signature covers, one constructor for each prefix. That they do not
overlap is the injectivity that `crypto.js` arranges for. -/
inductive Transcript where
  | message (context : String) (iv : Nat) (ciphertext : Sealed) (keys : List Entry)
  | fileV2 (context : String) (iv metaIv : Nat) (ctSha256 metaCt : Sealed) (keys : List Entry)
  | fileV1 (context metadata : String) (iv : Nat) (keys : List Entry)
deriving DecidableEq, Repr

/-- A signature verifies under its signer's key, on its own transcript. -/
structure Signature where
  signer : String
  transcript : Transcript
deriving DecidableEq, Repr

/-- The payload of an envelope. What does not verify for anyone counts as no
signature. A hash stands for what it is the hash of. -/
structure Payload where
  v : Nat
  iv : Nat
  ciphertext : Option Sealed
  metaIv : Nat
  metaCt : Option Sealed
  ctSha256 : Option Sealed
  metadata : String
  keys : List Entry
  signature : Option Signature
deriving DecidableEq, Repr

def sortKeys (keys : List Entry) : List Entry :=
  keys.insertionSort fun a b => a.username ≤ b.username

/-- `keys[username] = …`, which takes the place of an entry of that name. -/
def putEntry (cek : Nat) (keys : List Entry) (r : Recipient) : List Entry :=
  keys.filter (fun e => e.username != r.username) ++ [⟨r.username, ⟨r.kemPub, cek⟩⟩]

def wrapCekForParties (cek : Nat) (recipients : List Recipient) : List Entry :=
  recipients.foldl (putEntry cek) []

def unwrapCek (keys : List Entry) (me kem : String) : Option Nat :=
  (keys.find? fun e => e.username == me).bind fun e =>
    if e.wrap.kemPub = kem then some e.wrap.cek else none

def Sealed.decrypt (c : Sealed) (cek : Nat) : Option String :=
  if c.cek = cek then some c.text else none

def Payload.verify (p : Payload) (sender : String) (t : Transcript) : Bool :=
  p.signature == some ⟨sender, t⟩

/-- `n` stands for the content key and the nonces drawn. -/
def encryptMessage (n : Nat) (text : String) (recipients : List Recipient) (sender context : String) :
    Payload :=
  let keys := wrapCekForParties n recipients
  { v := 1
    iv := n
    ciphertext := some ⟨n, text⟩
    metaIv := 0
    metaCt := none
    ctSha256 := none
    metadata := ""
    keys := keys
    signature := some ⟨sender, .message context n ⟨n, text⟩ (sortKeys keys)⟩ }

def decryptMessage (p : Payload) (me kem sender context : String) : Option String :=
  p.ciphertext.bind fun ct =>
    if p.verify sender (.message context p.iv ct (sortKeys p.keys)) then
      (unwrapCek p.keys me kem).bind ct.decrypt
    else none

def encryptFile (n : Nat) (bytes metadata : String) (recipients : List Recipient)
    (sender context : String) : Payload :=
  let keys := wrapCekForParties n recipients
  { v := 2
    iv := n
    ciphertext := none
    metaIv := n
    metaCt := some ⟨n, metadata⟩
    ctSha256 := some ⟨n, bytes⟩
    metadata := ""
    keys := keys
    signature := some ⟨sender, .fileV2 context n n ⟨n, bytes⟩ ⟨n, metadata⟩ (sortKeys keys)⟩ }

/-- The metadata of a file and whether it is verified; `none` where the client
throws. A payload of the first format is shown even when it does not verify. -/
def openFilePayload (p : Payload) (me kem sender context : String) : Option (String × Bool) :=
  match p.v, p.metaCt with
  | 2, some metaCt =>
    p.ctSha256.bind fun sha =>
      if p.verify sender (.fileV2 context p.iv p.metaIv sha metaCt (sortKeys p.keys)) then
        ((unwrapCek p.keys me kem).bind metaCt.decrypt).map fun text => (text, true)
      else none
  | _, _ => some (p.metadata, p.verify sender (.fileV1 context p.metadata p.iv (sortKeys p.keys)))

def Transcript.context : Transcript → String
  | .message context .. | .fileV2 context .. | .fileV1 context .. => context

def Transcript.keys : Transcript → List Entry
  | .message _ _ _ keys | .fileV2 _ _ _ _ _ keys | .fileV1 _ _ _ keys => keys

/-- The names that a transcript's content key is wrapped for. -/
def Transcript.names (t : Transcript) : List String := t.keys.map Entry.username

def Transcript.legacy : Transcript → Bool
  | .fileV1 .. => true
  | _ => false

theorem mem_sortKeys {keys : List Entry} {n : String} :
    n ∈ (sortKeys keys).map Entry.username ↔ n ∈ keys.map Entry.username :=
  ((List.perm_insertionSort _ keys).map Entry.username).mem_iff

theorem mem_putEntry {cek : Nat} {keys : List Entry} {r : Recipient} {n : String} :
    n ∈ (putEntry cek keys r).map Entry.username ↔
      n ∈ keys.map Entry.username ∨ n = r.username := by
  simp only [putEntry, List.map_append, List.mem_append, List.mem_map, List.mem_filter,
    List.map_cons, List.map_nil, List.mem_singleton, bne_iff_ne, ne_eq]
  by_cases hn : n = r.username
  · simp [hn]
  · simp only [hn, or_false]
    constructor
    · intro ⟨e, he, hen⟩
      exact ⟨e, he.1, hen⟩
    · intro ⟨e, he, hen⟩
      exact ⟨e, ⟨he, hen ▸ hn⟩, hen⟩

/-- The key is wrapped for the names it is to be wrapped for. -/
theorem mem_wrapCek {cek : Nat} {recipients : List Recipient} {n : String} :
    n ∈ (wrapCekForParties cek recipients).map Entry.username ↔
      n ∈ recipients.map Recipient.username := by
  have h : ∀ keys, n ∈ (recipients.foldl (putEntry cek) keys).map Entry.username ↔
      n ∈ keys.map Entry.username ∨ n ∈ recipients.map Recipient.username := by
    induction recipients with
    | nil => simp
    | cons r rs ih =>
      intro keys
      rw [List.foldl_cons, ih, mem_putEntry, List.map_cons, List.mem_cons, or_assoc]
  rw [wrapCekForParties, h []]
  simp

theorem unwrapCek_some {keys : List Entry} {me kem : String} {cek : Nat}
    (h : unwrapCek keys me kem = some cek) : me ∈ keys.map Entry.username := by
  obtain ⟨e, he, _⟩ := Option.bind_eq_some_iff.mp h
  have hn := List.find?_some he
  simp only [beq_iff_eq] at hn
  exact List.mem_map.mpr ⟨e, List.mem_of_find?_eq_some he, hn⟩

theorem decryptMessage_some {p : Payload} {me kem sender context text : String}
    (h : decryptMessage p me kem sender context = some text) :
    me ∈ p.keys.map Entry.username ∧
      ∃ ct, p.signature = some ⟨sender, .message context p.iv ct (sortKeys p.keys)⟩ := by
  obtain ⟨ct, _, h⟩ := Option.bind_eq_some_iff.mp h
  split at h
  · rename_i hv
    obtain ⟨cek, hc, _⟩ := Option.bind_eq_some_iff.mp h
    exact ⟨unwrapCek_some hc, ct, by simpa [Payload.verify] using hv⟩
  · cases h

/-- A file that passes for verified is addressed to the reader and signed, or
signed in the first format. -/
theorem openFilePayload_verified {p : Payload} {me kem sender context metadata : String}
    (h : openFilePayload p me kem sender context = some (metadata, true)) :
    (me ∈ p.keys.map Entry.username ∧ ∃ sha metaCt, p.signature =
      some ⟨sender, .fileV2 context p.iv p.metaIv sha metaCt (sortKeys p.keys)⟩) ∨
    ∃ metadata, p.signature = some ⟨sender, .fileV1 context metadata p.iv (sortKeys p.keys)⟩ := by
  unfold openFilePayload at h
  split at h
  · left
    rename_i metaCt _ _
    obtain ⟨sha, _, h⟩ := Option.bind_eq_some_iff.mp h
    split at h
    · rename_i hv
      obtain ⟨text, ht, _⟩ := Option.map_eq_some_iff.mp h
      obtain ⟨cek, hc, _⟩ := Option.bind_eq_some_iff.mp ht
      exact ⟨unwrapCek_some hc, sha, metaCt, by simpa [Payload.verify] using hv⟩
    · cases h
  · right
    simp only [Option.some.injEq, Prod.mk.injEq] at h
    exact ⟨p.metadata, by simpa [Payload.verify] using h.2⟩

end Lattix.Wire
