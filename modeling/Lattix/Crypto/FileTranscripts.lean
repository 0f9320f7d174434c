import Lattix.Crypto.Transcripts

namespace Lattix.Crypto
open Lib Lib.Json Lib.Framing
open Server (key key_inj isUsername)

/-- An entry of `payload.keys`, with the lengths that ML-KEM-768 and AES-GCM give
its fields. -/
structure WrappedKey where
  kemCt : Block 1088
  iv : Block 12
  wrapped : Block 48
deriving DecidableEq

def WrappedKey.bytes (k : WrappedKey) : Bytes := k.kemCt.1 ++ k.iv.1 ++ k.wrapped.1

def WrappedKey.json (k : WrappedKey) : Json := Entry.json ⟨k.kemCt.1, k.iv.1, k.wrapped.1⟩

abbrev Username := { u : String // isUsername u = true }

abbrev KeyEntry := Username × WrappedKey

/-- A name, then the three fields of its entry. -/
def entryBytes (e : KeyEntry) : Bytes := Utf8.encode e.1.1.toList ++ e.2.bytes

/-- What a payload of the second format says, decoded. -/
structure FileParts where
  iv : Block 12
  metaIv : Block 12
  ctSha256 : Block 32
  metaCt : Bytes
  keys : List KeyEntry

namespace FileParts

/-- The entries in the order of their names. -/
def sorted (v : FileParts) : List KeyEntry :=
  v.keys.insertionSort fun a b => codeUnits (key a.1.1) ≤ codeUnits (key b.1.1)

def keyBytes (v : FileParts) : Bytes := (v.sorted.map entryBytes).flatten

/-- The two agree on every field, and on the set of entries. -/
structure Agrees (v w : FileParts) : Prop where
  iv : v.iv = w.iv
  metaIv : v.metaIv = w.metaIv
  ctSha256 : v.ctSha256 = w.ctSha256
  metaCt : v.metaCt = w.metaCt
  keys : ∀ e, e ∈ v.keys ↔ e ∈ w.keys

/-- The lengths of the fields that have no fixed one. -/
def lengths (v : FileParts) : Nat × List Nat :=
  (v.metaCt.length, v.sorted.map fun e => e.1.1.toList.length)

/-- A payload that says this. -/
def json (v : FileParts) : Json :=
  .object (fileFields v.iv.1 v.metaIv.1 v.metaCt v.ctSha256.1
    (.object (v.keys.map fun e => (key e.1.1, e.2.json))))

end FileParts

/-- The payload is of the second format and decodes to `v`. -/
structure Decodes (P : Platform) (payload : Json) (v : FileParts) : Prop where
  v2 : isFileV2 payload = true
  iv : bytesAt P payload "iv" = some v.iv.1
  metaIv : bytesAt P payload "meta_iv" = some v.metaIv.1
  ctSha256 : bytesAt P payload "ct_sha256" = some v.ctSha256.1
  metaCt : bytesAt P payload "meta_ct" = some v.metaCt
  keys : ∃ ks, payload.get (key "keys") = some ks ∧
    objectKeys ks = some (v.keys.map fun e => key e.1.1) ∧
    ∀ e ∈ v.keys, ∃ k, property (key e.1.1) ks = some k ∧
      bytesAt P k "kem_ct" = some e.2.kemCt.1 ∧ bytesAt P k "iv" = some e.2.iv.1 ∧
      bytesAt P k "wrapped" = some e.2.wrapped.1
  nodup : (v.keys.map Prod.fst).Nodup

/-- A letter that `USERNAME_RE` admits. -/
def isNameByte (b : UInt8) : Bool :=
  48 ≤ b && b ≤ 57 || 65 ≤ b && b ≤ 90 || 97 ≤ b && b ≤ 122 || b == 95 || b == 46 || b == 45

/-- How many bytes the three fields of an entry have. -/
def entryLength : Nat := 1088 + 12 + 48

/-- The last bytes could be an entry: three letters of a name, then as many bytes
as its fields have. -/
def endsInEntry (bs : Bytes) : Bool :=
  decide (3 + entryLength ≤ bs.length) &&
    ((bs.drop (bs.length - (3 + entryLength))).take 3).all isNameByte

/-! Names -/

theorem name_chars {u : Username} : ∀ c ∈ u.1.toList, c.toNat < 128 ∧
    isNameByte c.toNat.toUInt8 = true := by
  intro c hc
  have hu := List.all_eq_true.mp (Bool.and_eq_true_iff.mp u.2).2 c hc
  have hall : ∀ n < 128, 48 ≤ n ∧ n ≤ 57 ∨ 65 ≤ n ∧ n ≤ 90 ∨ 97 ≤ n ∧ n ≤ 122 ∨ n = 95 ∨ n = 46 ∨
      n = 45 → isNameByte n.toUInt8 = true := by decide
  have hn : 48 ≤ c.toNat ∧ c.toNat ≤ 57 ∨ 65 ≤ c.toNat ∧ c.toNat ≤ 90 ∨
      97 ≤ c.toNat ∧ c.toNat ≤ 122 ∨ c.toNat = 95 ∨ c.toNat = 46 ∨ c.toNat = 45 := by
    change (decide (c.val ≥ 65 ∧ c.val ≤ 90) || c.val ≥ 97 && c.val ≤ 122 ||
      c.val ≥ 48 && c.val ≤ 57 || c = '_' || c = '.' || c = '-') = true at hu
    simp only [Bool.or_eq_true, Bool.and_eq_true, decide_eq_true_eq, ge_iff_le,
      UInt32.le_iff_toNat_le] at hu
    rcases hu with (((((hu | hu) | hu) | rfl) | rfl) | rfl)
    · exact .inr (.inl hu)
    · exact .inr (.inr (.inl hu))
    · exact .inl hu
    all_goals decide
  have hlt : c.toNat < 128 := by omega
  exact ⟨hlt, hall _ hlt hn⟩

theorem name_bytes (u : Username) : ∀ b ∈ Utf8.encode u.1.toList, isNameByte b = true :=
  encode_forall (fun c hc => (name_chars c hc).1) fun c hc => (name_chars c hc).2

theorem name_length (u : Username) : (Utf8.encode u.1.toList).length = u.1.toList.length :=
  encode_length fun c hc => (name_chars c hc).1

theorem name_length_le (u : Username) : 3 ≤ u.1.toList.length :=
  (of_decide_eq_true (Bool.and_eq_true_iff.mp u.2).1).1

theorem WrappedKey.bytes_length (k : WrappedKey) : k.bytes.length = entryLength := by
  simp [WrappedKey.bytes, entryLength, k.kemCt.2, k.iv.2, k.wrapped.2]

theorem WrappedKey.bytes_injective {k l : WrappedKey} (h : k.bytes = l.bytes) : k = l := by
  obtain ⟨hk, hw⟩ := List.append_inj h (by simp [k.kemCt.2, k.iv.2, l.kemCt.2, l.iv.2])
  obtain ⟨hc, hi⟩ := List.append_inj hk (by rw [k.kemCt.2, l.kemCt.2])
  obtain ⟨kc, ki, kw⟩ := k
  obtain ⟨lc, li, lw⟩ := l
  simp only [WrappedKey.mk.injEq]
  exact ⟨Subtype.ext hc, Subtype.ext hi, Subtype.ext hw⟩

theorem entryBytes_length (e : KeyEntry) :
    (entryBytes e).length = e.1.1.toList.length + entryLength := by
  rw [entryBytes, List.length_append, name_length, WrappedKey.bytes_length]

theorem entryBytes_injective {e f : KeyEntry} (h : entryBytes e = entryBytes f) : e = f := by
  obtain ⟨hn, hk⟩ := List.append_inj' h (by rw [WrappedKey.bytes_length, WrappedKey.bytes_length])
  have hu : e.1.1 = f.1.1 := String.toList_inj.mp (encode_injective hn)
  exact Prod.ext (Subtype.ext hu) (WrappedKey.bytes_injective hk)

/-! The transcript of what is decoded -/

section decoded
variable {P : Platform} {payload : Json} {v w : FileParts}

theorem mem_sorted {e : KeyEntry} : e ∈ v.sorted ↔ e ∈ v.keys := List.mem_insertionSort _

theorem sortNames_keys :
    sortNames (v.keys.map fun e => key e.1.1) = v.sorted.map fun e => key e.1.1 :=
  (List.map_insertionSort _ _ (fun e : KeyEntry => key e.1.1) v.keys fun _ _ _ _ => Iff.rfl).symm

theorem Decodes.keyParts (h : Decodes P payload v) :
    ∃ ks, payload.get (key "keys") = some ks ∧ keyParts P ks = some v.keyBytes := by
  obtain ⟨ks, hk, hnames, hent⟩ := h.keys
  refine ⟨ks, hk, ?_⟩
  have hparts : ∀ e ∈ v.sorted, keyBytes P ks (key e.1.1) = some (entryBytes e) := by
    intro e he
    obtain ⟨k, hp, hc, hi, hw⟩ := hent e (mem_sorted.mp he)
    have hn : enc (key e.1.1) = Utf8.encode e.1.1.toList := enc_text _
    simp only [Crypto.keyBytes, hp, hc, hi, hw, hn, Option.bind_eq_bind, Option.bind_some, entryBytes,
      WrappedKey.bytes, List.append_assoc]
  simp only [Crypto.keyParts, hnames, Option.bind_eq_bind, Option.bind_some, sortNames_keys, List.mapM_map,
    Function.comp_def,
    Runs.mapM_of_some hparts]
  rfl

/-- Everything after the terminated context. -/
def FileParts.body (v : FileParts) : Bytes :=
  v.iv.1 ++ (v.metaIv.1 ++ (v.ctSha256.1 ++ (v.metaCt ++ v.keyBytes)))

def fileBytes (c : Context) (v : FileParts) : Bytes :=
  enc (key "lattix-file-v2") ++ 0 :: (enc c.text ++ 0 :: v.body)

theorem Decodes.transcript (h : Decodes P payload v) (c : Context) :
    fileV2Transcript P payload c.text = some (fileBytes c v) := by
  obtain ⟨ks, hk, hp⟩ := h.keyParts
  exact fileV2Transcript_iff.mpr ⟨_, _, _, _, ks, _, h.iv, h.metaIv, h.ctSha256, h.metaCt, hk, hp, rfl⟩

/-- The context and the fields of fixed length are never in doubt. -/
theorem fileBytes_inj {c d : Context} (h : fileBytes c v = fileBytes d w) : c = d ∧
    v.iv = w.iv ∧ v.metaIv = w.metaIv ∧ v.ctSha256 = w.ctSha256 ∧
    v.metaCt ++ v.keyBytes = w.metaCt ++ w.keyBytes := by
  have hrest := (List.cons.inj (List.append_cancel_left h)).2
  obtain ⟨hc, hbody⟩ := Context.terminated (.inl (by decide)) hrest
  obtain ⟨hiv, hbody⟩ := List.append_inj hbody (by rw [v.iv.2, w.iv.2])
  obtain ⟨hmeta, hbody⟩ := List.append_inj hbody (by rw [v.metaIv.2, w.metaIv.2])
  obtain ⟨hsha, hbody⟩ := List.append_inj hbody (by rw [v.ctSha256.2, w.ctSha256.2])
  exact ⟨hc, Subtype.ext hiv, Subtype.ext hmeta, Subtype.ext hsha, hbody⟩

/-- Entries of given name lengths are told apart. -/
theorem keyBytes_inj (hl : v.sorted.map (fun e => e.1.1.toList.length) =
      w.sorted.map fun e => e.1.1.toList.length) (h : v.keyBytes = w.keyBytes) :
    v.sorted = w.sorted := by
  have hlen (x : FileParts) : (x.sorted.map entryBytes).map List.length =
      (x.sorted.map fun e => e.1.1.toList.length).map (· + entryLength) := by
    rw [List.map_map, List.map_map]
    exact List.map_congr_left fun e _ => entryBytes_length e
  have hmap := List.eq_iff_flatten_eq.mpr ⟨h, by rw [hlen, hlen, hl]⟩
  exact List.map_injective_iff.mpr (fun _ _ => entryBytes_injective) hmap

theorem codeUnits_name (u : Username) : codeUnits (key u.1) = u.1.toList.map Char.toNat := by
  rw [key, codeUnits, text, List.flatMap_map]
  have hone : ∀ c ∈ u.1.toList, (if c.toNat < 0x10000 then [c.toNat]
      else [0xD800 + (c.toNat - 0x10000) / 1024, 0xDC00 + (c.toNat - 0x10000) % 1024]) =
        [c.toNat] := by
    intro c hc
    have := (name_chars c hc).1
    rw [if_pos (by omega)]
  rw [List.map_eq_flatMap]
  exact List.flatMap_congr hone

theorem codeUnits_injective {u u' : Username} (h : codeUnits (key u.1) = codeUnits (key u'.1)) :
    u = u' := by
  rw [codeUnits_name, codeUnits_name] at h
  have hc : Function.Injective Char.toNat := fun a b hab => Char.ext (UInt32.toNat_inj.mp hab)
  exact Subtype.ext (String.toList_inj.mp (List.map_injective_iff.mpr hc h))

/-- Sorting is by names that differ, so that it depends on the set alone. -/
theorem sorted_eq (hv : (v.keys.map Prod.fst).Nodup) (hw : (w.keys.map Prod.fst).Nodup)
    (h : ∀ e, e ∈ v.keys ↔ e ∈ w.keys) : v.sorted = w.sorted := by
  have hperm : v.keys.Perm w.keys := (List.perm_ext_iff_of_nodup hv.of_map hw.of_map).mpr h
  have hs : v.sorted.Perm w.sorted :=
    (List.perm_insertionSort _ _).trans (hperm.trans (List.perm_insertionSort _ _).symm)
  have hle (x : FileParts) : x.sorted.Pairwise fun a b => codeUnits (key a.1.1) ≤ codeUnits (key b.1.1) :=
    List.pairwise_insertionSort _ _
  refine hs.eq_of_pairwise (fun a b ha hb hab hba => ?_) (hle v) (hle w)
  have hn : a.1 = b.1 := codeUnits_injective (le_antisymm hab hba)
  have hb : b ∈ v.keys := (h b).mpr (mem_sorted.mp hb)
  exact List.inj_on_of_nodup_map hv (mem_sorted.mp ha) hb hn

/-- With a key for one party at most, the payload can be written down. -/
theorem decodes_json (h : v.keys.length ≤ 1) : Decodes P v.json v := by
  have hf : FileFields (fileFields v.iv.1 v.metaIv.1 v.metaCt v.ctSha256.1
      (.object (v.keys.map fun e => (key e.1.1, e.2.json)))) v.iv.1 v.metaIv.1 v.metaCt v.ctSha256.1
      (.object (v.keys.map fun e => (key e.1.1, e.2.json))) := by
    refine ⟨?_, ?_, ?_, ?_, ?_, ?_, ?_⟩ <;> simp [fileFields]
  have hone : v.keys = [] ∨ ∃ e, v.keys = [e] := by
    rcases Nat.le_one_iff_eq_zero_or_eq_one.mp h with h | h
    · exact Or.inl (List.eq_nil_of_length_eq_zero h)
    · exact Or.inr (List.length_eq_one_iff.mp h)
  have hord : propertyOrder (v.keys.map fun e => (key e.1.1, e.2.json)) =
      v.keys.map fun e => (key e.1.1, e.2.json) := by
    have hperm := propertyOrder_perm (v.keys.map fun e => (key e.1.1, e.2.json))
    rcases hone with hk | ⟨e, hk⟩
    · rw [hk]
      rfl
    · rw [hk] at hperm ⊢
      exact List.perm_singleton.mp hperm
  have hshort {α : Type} (f : KeyEntry → α) : (v.keys.map f).Nodup := by
    rcases hone with hk | ⟨e, hk⟩
    · rw [hk]
      exact List.nodup_nil
    · rw [hk]
      exact List.nodup_singleton _
  have hnames : ((v.keys.map fun e => (key e.1.1, e.2.json)).map Prod.fst).Nodup := by
    rw [List.map_map]
    exact hshort _
  refine ⟨hf.isFileV2, bytesAt_of_mem hf.nodup hf.iv, bytesAt_of_mem hf.nodup hf.metaIv,
    bytesAt_of_mem hf.nodup hf.ctSha256, bytesAt_of_mem hf.nodup hf.metaCt,
    ⟨_, get_of_mem hf.nodup hf.keys, ?_, fun e he => ⟨e.2.json, ?_, Entry.kem_ct _, Entry.nonce _,
      Entry.wrappedCek _⟩⟩, hshort _⟩
  · rw [objectKeys, ownFields, Option.map_some, hord, List.map_map]
    rfl
  · exact property_of_mem (f := (key e.1.1, e.2.json)) hnames (List.mem_map.mpr ⟨e, he, rfl⟩)

/-! What reads as an entry -/

theorem endsInEntry_append (bs : Bytes) {three rest : Bytes} (h3 : three.length = 3)
    (hr : rest.length = entryLength) :
    endsInEntry (bs ++ (three ++ rest)) = three.all isNameByte := by
  have hl : (bs ++ (three ++ rest)).length = bs.length + (3 + entryLength) := by
    simp [h3, hr]
  rw [endsInEntry, hl, Nat.add_sub_cancel, List.drop_left, ← h3, List.take_left, h3,
    decide_eq_true (Nat.le_add_left ..), Bool.true_and]

theorem endsInEntry_entry (bs : Bytes) (e : KeyEntry) : endsInEntry (bs ++ entryBytes e) = true := by
  let name := Utf8.encode e.1.1.toList
  have hlen : 3 ≤ name.length := by
    rw [name_length]
    exact name_length_le e.1
  have h3 : (name.drop (name.length - 3)).length = 3 := by
    rw [List.length_drop]
    omega
  have hsplit : bs ++ entryBytes e =
      (bs ++ name.take (name.length - 3)) ++ (name.drop (name.length - 3) ++ e.2.bytes) := by
    rw [List.append_assoc, ← List.append_assoc (name.take _), List.take_append_drop]
    rfl
  rw [hsplit, endsInEntry_append _ h3 (WrappedKey.bytes_length _)]
  exact List.all_eq_true.mpr fun b hb => name_bytes e.1 b (List.mem_of_mem_drop hb)

theorem endsInEntry_split {bs : Bytes} (h : endsInEntry bs = true) :
    ∃ front three rest, bs = front ++ (three ++ rest) ∧ three.length = 3 ∧
      rest.length = entryLength ∧ three.all isNameByte = true := by
  obtain ⟨hl, hall⟩ := Bool.and_eq_true_iff.mp h
  have hl := of_decide_eq_true hl
  refine ⟨bs.take (bs.length - (3 + entryLength)), _, (bs.drop (bs.length - (3 + entryLength))).drop 3,
    ?_, ?_, ?_, hall⟩
  · rw [List.take_append_drop, List.take_append_drop]
  · rw [List.length_take, List.length_drop]
    omega
  · rw [List.length_drop, List.length_drop]
    omega

/-- Three letters are a name. -/
theorem exists_name {three : Bytes} (h3 : three.length = 3) (h : three.all isNameByte = true) :
    ∃ u : Username, Utf8.encode u.1.toList = three := by
  have hall : ∀ n < 256, isNameByte n.toUInt8 = true →
      ((Char.ofNat n).isAlphanum || Char.ofNat n = '_' || Char.ofNat n = '.' ||
        Char.ofNat n = '-') = true ∧ String.utf8EncodeChar (Char.ofNat n) = [n.toUInt8] := by
    decide +kernel
  have hb : ∀ b ∈ three, ((Char.ofNat b.toNat).isAlphanum || Char.ofNat b.toNat = '_' ||
      Char.ofNat b.toNat = '.' || Char.ofNat b.toNat = '-') = true ∧
        String.utf8EncodeChar (Char.ofNat b.toNat) = [b] := by
    intro b hm
    have hn := hall b.toNat (UInt8.toNat_lt b)
    rw [show b.toNat.toUInt8 = b by simp] at hn
    exact hn (List.all_eq_true.mp h b hm)
  let cs := three.map fun b => Char.ofNat b.toNat
  have hcs : isUsername (String.ofList cs) = true := by
    refine Bool.and_eq_true_iff.mpr ⟨?_, ?_⟩
    · simp [cs, h3]
    · rw [String.toList_ofList]
      refine List.all_eq_true.mpr fun c hc => ?_
      obtain ⟨b, hm, rfl⟩ := List.mem_map.mp hc
      exact (hb b hm).1
  refine ⟨⟨String.ofList cs, hcs⟩, ?_⟩
  rw [String.toList_ofList, Utf8.encode, List.flatMap_map]
  calc three.flatMap (fun b => String.utf8EncodeChar (Char.ofNat b.toNat))
      = three.flatMap fun b => [b] := List.flatMap_congr fun b hm => (hb b hm).2
    _ = three := List.flatMap_singleton' three

theorem exists_key {rest : Bytes} (h : rest.length = entryLength) :
    ∃ k : WrappedKey, k.bytes = rest := by
  have hl : rest.length = 1088 + 12 + 48 := h
  refine ⟨⟨⟨rest.take 1088, by simp [hl]⟩, ⟨(rest.drop 1088).take 12, by simp [hl]⟩,
    ⟨(rest.drop 1088).drop 12, by simp [hl]⟩⟩, ?_⟩
  rw [WrappedKey.bytes, List.append_assoc, List.take_append_drop, List.take_append_drop]

/-! Which payloads share a transcript -/

theorem keyBytes_nil (h : v.keys = []) : v.keyBytes = [] := by
  rw [FileParts.keyBytes, FileParts.sorted, h]
  rfl

/-- All the entries, taken for the end of the metadata. -/
def FileParts.swallow (v : FileParts) : FileParts :=
  { v with metaCt := v.metaCt ++ v.keyBytes, keys := [] }

theorem swallow_bytes (c : Context) : fileBytes c v.swallow = fileBytes c v := by
  have hb : v.swallow.body = v.iv.1 ++ (v.metaIv.1 ++ (v.ctSha256.1 ++
      ((v.metaCt ++ v.keyBytes) ++ []))) := rfl
  rw [fileBytes, hb, List.append_nil]
  rfl

/-- The end of the metadata, taken for an entry. -/
theorem exists_entry (hk : v.keys = []) (h : endsInEntry v.metaCt = true) :
    ∃ w : FileParts, w.keys.length = 1 ∧ ∀ c, fileBytes c w = fileBytes c v := by
  obtain ⟨front, three, rest, hm, h3, hr, hall⟩ := endsInEntry_split h
  obtain ⟨u, hu⟩ := exists_name h3 hall
  obtain ⟨k, hkey⟩ := exists_key hr
  refine ⟨{ v with metaCt := front, keys := [(u, k)] }, rfl, fun c => ?_⟩
  have hv := keyBytes_nil hk
  have hw : FileParts.keyBytes { v with metaCt := front, keys := [(u, k)] } = three ++ rest := by
    rw [← hu, ← hkey]
    exact List.append_nil _
  rw [fileBytes, fileBytes, FileParts.body, FileParts.body, hv, hw, hm, List.append_nil]

theorem keys_of_no_bytes (h : v.metaCt ++ v.keyBytes = w.metaCt ++ w.keyBytes) (hk : v.keys = [])
    (he : endsInEntry v.metaCt = false) : w.keys = [] := by
  have hv := keyBytes_nil hk
  have hw : w.sorted = [] := by
    rcases List.eq_nil_or_concat w.sorted with hn | ⟨front, e, hn⟩
    · exact hn
    · have hb : w.keyBytes = (front.map entryBytes).flatten ++ entryBytes e := by
        rw [FileParts.keyBytes, hn, List.concat_eq_append]
        simp
      rw [hv, List.append_nil, hb, ← List.append_assoc] at h
      rw [h, endsInEntry_entry] at he
      cases he
  apply List.eq_nil_iff_forall_not_mem.mpr
  intro e hm
  have hs := mem_sorted.mpr hm
  rw [hw] at hs
  cases hs

/-- The metadata and the names have no lengths in the transcript. A payload of
the second format is the only one of its transcript just when it has no entries
and its metadata does not end in what reads as one. Otherwise a transcript
leaves in doubt only where these fields end. -/
theorem fileV2_unambiguous_iff {c : Context} (hv : Decodes P payload v) :
    ((∀ (other : Json) (w : FileParts) (d : Context), Decodes P other w →
        fileV2Transcript P other d.text = fileV2Transcript P payload c.text →
        d = c ∧ v.Agrees w) ↔ v.keys = [] ∧ endsInEntry v.metaCt = false) ∧
    ∀ (other : Json) (w : FileParts) (d : Context), Decodes P other w →
      fileV2Transcript P other d.text = fileV2Transcript P payload c.text →
      d = c ∧ v.iv = w.iv ∧ v.metaIv = w.metaIv ∧ v.ctSha256 = w.ctSha256 ∧
      (v.Agrees w ↔ v.lengths = w.lengths) := by
  have hsame (other : Json) (w : FileParts) (d : Context) (hw : Decodes P other w)
      (ht : fileV2Transcript P other d.text = fileV2Transcript P payload c.text) :
      fileBytes c v = fileBytes d w := by
    rw [hw.transcript, hv.transcript] at ht
    exact (Option.some.inj ht).symm
  refine ⟨⟨fun hall => ?_, ?_⟩, ?_⟩
  · have hagree (w : FileParts) (hl : w.keys.length ≤ 1) (hb : ∀ c, fileBytes c w = fileBytes c v) :
        v.Agrees w := by
      have hw : Decodes P w.json w := decodes_json hl
      refine (hall _ w c hw ?_).2
      rw [hw.transcript, hv.transcript, hb]
    have hk : v.keys = [] := by
      apply List.eq_nil_iff_forall_not_mem.mpr
      intro e he
      have hs := ((hagree v.swallow (Nat.zero_le 1) swallow_bytes).keys e).mp he
      cases hs
    refine ⟨hk, ?_⟩
    rw [← Bool.not_eq_true]
    intro he
    obtain ⟨w, hl, hb⟩ := exists_entry hk he
    obtain ⟨e, hw⟩ := List.length_eq_one_iff.mp hl
    have hs := ((hagree w (Nat.le_of_eq hl) hb).keys e).mpr (hw ▸ List.mem_singleton.mpr rfl)
    rw [hk] at hs
    cases hs
  · rintro ⟨hk, he⟩ other w d hw ht
    obtain ⟨hc, hiv, hmeta, hsha, hrest⟩ := fileBytes_inj (hsame other w d hw ht)
    have hwk := keys_of_no_bytes hrest hk he
    rw [keyBytes_nil hk, keyBytes_nil hwk, List.append_nil, List.append_nil] at hrest
    exact ⟨hc.symm, hiv, hmeta, hsha, hrest, fun e => by rw [hk, hwk]⟩
  · intro other w d hw ht
    obtain ⟨hc, hiv, hmeta, hsha, hrest⟩ := fileBytes_inj (hsame other w d hw ht)
    refine ⟨hc.symm, hiv, hmeta, hsha, fun ha => ?_, fun hl => ?_⟩
    · rw [FileParts.lengths, FileParts.lengths, ha.metaCt, sorted_eq hv.nodup hw.nodup ha.keys]
    · obtain ⟨hm, hnames⟩ := Prod.mk.inj hl
      obtain ⟨hmct, hkeys⟩ := List.append_inj hrest hm
      have hs := keyBytes_inj hnames hkeys
      exact ⟨hiv, hmeta, hsha, hmct, fun e => by rw [← mem_sorted, hs, mem_sorted]⟩

end decoded

/-- A file for nobody, with a byte of metadata. -/
def forNobody : FileParts := ⟨block 12 1, block 12 2, block 32 3, [7], []⟩

theorem forNobody_unambiguous : Decodes clear forNobody.json forNobody ∧
    ∀ (other : Json) (w : FileParts) (d : Context), Decodes clear other w →
      fileV2Transcript clear other d.text =
        fileV2Transcript clear forNobody.json Context.direct.text →
      d = .direct ∧ forNobody.Agrees w := by
  have hv : Decodes clear forNobody.json forNobody := decodes_json (Nat.zero_le 1)
  have hiff := (fileV2_unambiguous_iff (c := .direct) hv).1
  exact ⟨hv, hiff.mpr ⟨rfl, by decide⟩⟩

def someKey : WrappedKey := ⟨block 1088 0, block 12 0, block 48 0⟩

/-- The last byte of the metadata is a letter, … -/
def forBob : FileParts := ⟨block 12 1, block 12 2, block 32 3, [120], [(⟨"bob", by decide⟩, someKey)]⟩

/-- … and the first of the name. -/
def forXbob : FileParts := ⟨block 12 1, block 12 2, block 32 3, [], [(⟨"xbob", by decide⟩, someKey)]⟩

theorem fileV2_ambiguous : ¬∀ (payload other : Json) (v w : FileParts) (c d : Context),
    Decodes clear payload v → Decodes clear other w →
    fileV2Transcript clear payload c.text = fileV2Transcript clear other d.text →
    c = d ∧ v.Agrees w := by
  intro h
  have hb : Decodes clear forBob.json forBob := decodes_json (Nat.le_refl 1)
  have hx : Decodes clear forXbob.json forXbob := decodes_json (Nat.le_refl 1)
  have hbytes : fileBytes .direct forBob = fileBytes .direct forXbob := by
    have hbob : forBob.metaCt ++ forBob.keyBytes =
        120 :: (Utf8.encode "bob".toList ++ someKey.bytes ++ []) := rfl
    have hxbob : forXbob.metaCt ++ forXbob.keyBytes =
        Utf8.encode "xbob".toList ++ someKey.bytes ++ [] := rfl
    rw [fileBytes, fileBytes, FileParts.body, FileParts.body, hbob, hxbob]
    rfl
  have hagree := (h _ _ _ _ .direct .direct hb hx (by rw [hb.transcript, hx.transcript, hbytes])).2
  exact nomatch hagree.metaCt

end Lattix.Crypto
