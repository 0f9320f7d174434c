import Lattix.Lib.Literals

namespace Lattix.Lib.Json

variable {Φ : Doubles} {lenient : Bool}

/-! `readValue` by the first letter. -/

theorem readValue_string {n : Nat} {t r : Text} {s : Text}
    (h : readString (.scalar '"' :: t) = some (s, r)) :
    readValue Φ lenient (n + 1) (.scalar '"' :: t) = some (.string s, r) := by
  simp only [readValue, h, Option.map_some]

theorem readValue_atom {n : Nat} {c : Char} (hq : c ≠ '"') (ha : c ≠ '[') (ho : c ≠ '{') (t : Text) :
    readValue Φ lenient (n + 1) (.scalar c :: t) = readAtom Φ lenient (.scalar c :: t) := by
  rw [readValue.eq_def]
  simp only
  split
  · rename_i he
    cases he
    exact absurd rfl hq
  · rename_i he
    cases he
    exact absurd rfl ha
  · rename_i he
    cases he
    exact absurd rfl ho
  · rfl

theorem readValue_array {n : Nat} {t : Text} {c : Char} (hs : isSpace (.scalar c) = false)
    (hc : c ≠ ']') : readValue Φ lenient (n + 1) (.scalar '[' :: .scalar c :: t) =
      (readValue Φ lenient n (.scalar c :: t)).bind fun a => (readItems Φ lenient n a.2).map fun b =>
        (.array (a.1 :: b.1), b.2) := by
  simp only [readValue, skip_cons hs]
  split
  · rename_i he
    cases he
    exact absurd rfl hc
  · cases readValue Φ lenient n (.scalar c :: t) with
    | none => rfl
    | some a =>
      simp only [Option.bind_eq_bind, Option.bind_some]
      cases readItems Φ lenient n a.2 <;> rfl

theorem readValue_object {n : Nat} {t : Text} {c : Char} (hs : isSpace (.scalar c) = false)
    (hc : c ≠ '}') : readValue Φ lenient (n + 1) (.scalar '{' :: .scalar c :: t) =
      (readKey (.scalar c :: t)).bind fun k => (readValue Φ lenient n k.2).bind fun a =>
        (readFields Φ lenient n a.2).map fun b => (.object (dict ((k.1, a.1) :: b.1)), b.2) := by
  simp only [readValue, skip_cons hs]
  split
  · rename_i he
    cases he
    exact absurd rfl hc
  · cases readKey (.scalar c :: t) with
    | none => rfl
    | some k =>
      simp only [Option.bind_eq_bind, Option.bind_some]
      cases readValue Φ lenient n k.2 with
      | none => rfl
      | some a =>
        simp only [Option.bind_some]
        cases readFields Φ lenient n a.2 <;> rfl

theorem readItems_comma {n : Nat} (t : Text) : readItems Φ lenient (n + 1) (.scalar ',' :: t) =
    (readValue Φ lenient n (skip t)).bind fun a => (readItems Φ lenient n a.2).map fun b => (a.1 :: b.1, b.2) := by
  have hs : skip (.scalar ',' :: t) = .scalar ',' :: t := skip_cons (by decide) t
  simp only [readItems, hs]
  cases readValue Φ lenient n (skip t) with
  | none => rfl
  | some a =>
    simp only [Option.bind_eq_bind, Option.bind_some]
    cases readItems Φ lenient n a.2 <;> rfl

theorem readItems_end {n : Nat} (t : Text) :
    readItems Φ lenient (n + 1) (.scalar ']' :: t) = some ([], t) := by
  have hs : skip (.scalar ']' :: t) = .scalar ']' :: t := skip_cons (by decide) t
  simp only [readItems, hs]

theorem readFields_comma {n : Nat} (t : Text) : readFields Φ lenient (n + 1) (.scalar ',' :: t) =
    (readKey (skip t)).bind fun k => (readValue Φ lenient n k.2).bind fun a =>
      (readFields Φ lenient n a.2).map fun b => ((k.1, a.1) :: b.1, b.2) := by
  have hs : skip (.scalar ',' :: t) = .scalar ',' :: t := skip_cons (by decide) t
  simp only [readFields, hs]
  cases readKey (skip t) with
  | none => rfl
  | some k =>
    simp only [Option.bind_eq_bind, Option.bind_some]
    cases readValue Φ lenient n k.2 with
    | none => rfl
    | some a =>
      simp only [Option.bind_some]
      cases readFields Φ lenient n a.2 <;> rfl

theorem readFields_end {n : Nat} (t : Text) :
    readFields Φ lenient (n + 1) (.scalar '}' :: t) = some ([], t) := by
  have hs : skip (.scalar '}' :: t) = .scalar '}' :: t := skip_cons (by decide) t
  simp only [readFields, hs]

/-! Writing, then reading -/

/-- Two parts read one after the other: both must be readable. -/
theorem guard_bind {α β : Type} {p q c : Bool} {x : α} {y : β} {f : α → Option β}
    (hf : f x = if (q || c) = true then some y else none) :
    (if (p || c) = true then some x else none).bind f =
      if (p && q || c) = true then some y else none := by
  cases p <;> cases c <;> simp [hf]

theorem guard_map {α β : Type} {c : Bool} {x : α} {y : β} {f : α → β} (hf : f x = y) :
    (if c = true then some x else none).map f = if c = true then some y else none := by
  cases c <;> simp [hf]

section faithful
variable {W : Writer CodePoint} {ok : Text → Bool}

theorem skip_write (hW : W.Faithful ok) (v : Json) (t : Text) :
    skip (write Φ W v ++ t) = write Φ W v ++ t := by
  obtain ⟨c, hh, hs, -⟩ := write_head (Φ := Φ) hW.char v
  obtain ⟨t', ht⟩ := List.head?_eq_some_iff.mp hh
  rw [ht]
  exact skip_cons hs _

theorem skip_string (hW : W.Faithful ok) (k t : Text) : skip (W.string k ++ t) = W.string k ++ t := by
  simp only [Writer.string, hW.char, List.cons_append]
  exact skip_cons (by decide) _

theorem comma_text (hW : W.Faithful ok) : ∃ sp, W.word W.comma = .scalar ',' :: text sp ∧
    ∀ c ∈ sp, isSpace (.scalar c) = true := by
  obtain ⟨sp, hc, hsp⟩ := hW.comma
  exact ⟨sp, by rw [Writer.word, hW.char, hc]; rfl, hsp⟩

theorem colon_text (hW : W.Faithful ok) : ∃ sp, W.word W.colon = .scalar ':' :: text sp ∧
    ∀ c ∈ sp, isSpace (.scalar c) = true := by
  obtain ⟨sp, hc, hsp⟩ := hW.colon
  exact ⟨sp, by rw [Writer.word, hW.char, hc]; rfl, hsp⟩

theorem readKey_write (hW : W.Faithful ok) {k : Text} (hk : ok k = true) (v : Json) (t : Text) :
    readKey (W.string k ++ (W.word W.colon ++ (write Φ W v ++ t))) = some (k, write Φ W v ++ t) := by
  obtain ⟨sp, hc, hsp⟩ := colon_text hW
  have hcolon : ∀ t, skip (.scalar ':' :: t) = .scalar ':' :: t := skip_cons (by decide)
  rw [readKey, hW.string k hk, hc]
  simp only [Option.bind_eq_bind, Option.bind_some, List.cons_append, hcolon, skip_spaces hsp,
    skip_write hW]

theorem insert_new {k : Text} {v : Json} {fs : List (Text × Json)} (h : k ∉ fs.map Prod.fst) :
    insert k v fs = fs ++ [(k, v)] := by
  induction fs with
  | nil => rfl
  | cons f fs ih =>
    simp only [List.map_cons, List.mem_cons, not_or] at h
    rw [insert, if_neg (Ne.symm h.1), ih h.2]
    rfl

theorem dict_append {fs gs : List (Text × Json)} (h : ((gs ++ fs).map Prod.fst).Nodup) :
    fs.foldl (fun d f => insert f.1 f.2 d) gs = gs ++ fs := by
  induction fs generalizing gs with
  | nil => simp
  | cons f fs ih =>
    have hf : f.1 ∉ gs.map Prod.fst := by
      rw [List.map_append, List.nodup_append] at h
      intro hm
      exact h.2.2 _ hm _ (by simp) rfl
    rw [List.foldl_cons, insert_new hf, ih (by simpa using h)]
    simp

/-- Fields whose keys differ are a dictionary as they are. -/
theorem dict_self {fs : List (Text × Json)} (h : (fs.map Prod.fst).Nodup) : dict fs = fs :=
  (@dict_append fs [] h).trans rfl

theorem ends_items (hW : W.Faithful ok) (vs : List Json) (r : Text) :
    Ends (writeItems Φ W vs ++ r) := by
  cases vs with
  | nil =>
    simp only [writeItems, hW.char, List.cons_append]
    exact .cons (by decide) (by decide)
  | cons v vs =>
    obtain ⟨sp, hc, -⟩ := comma_text hW
    simp only [writeItems, hc, List.cons_append]
    exact .cons (by decide) (by decide)

theorem ends_fields (hW : W.Faithful ok) (fs : List (Text × Json)) (r : Text) :
    Ends (writeFields Φ W fs ++ r) := by
  cases fs with
  | nil =>
    simp only [writeFields, hW.char, List.cons_append]
    exact .cons (by decide) (by decide)
  | cons f fs =>
    obtain ⟨sp, hc, -⟩ := comma_text hW
    simp only [writeFields, hc, List.cons_append]
    exact .cons (by decide) (by decide)

mutual

/-- A value is read back from its text, whatever follows that does not go on
with a number; without leniency only if all its numbers have literals. -/
theorem read_write (hW : W.Faithful ok) : ∀ (v : Json) (n : Nat) (r : Text),
    every (Json.built lenient) v = true → every (Json.spelled ok) v = true → (write Φ W v).length ≤ n → Ends r →
    readValue Φ lenient n (write Φ W v ++ r) =
      if (every Json.numeric v || lenient) = true then some (v, r) else none
  | .null, 0, r, _, _, hn, _ => by simp [write, Writer.word] at hn
  | .null, n + 1, r, _, _, hn, _ => by
    simp only [write, Writer.word, hW.char]
    exact (readValue_atom (by decide) (by decide) (by decide) _).trans (readAtom_null r)
  | .bool b, 0, r, _, _, hn, _ => by cases b <;> simp [write, Writer.word] at hn
  | .bool b, n + 1, r, _, _, hn, _ => by
    simp only [write, Writer.word, hW.char]
    cases b with
    | true => exact (readValue_atom (by decide) (by decide) (by decide) _).trans (readAtom_true r)
    | false => exact (readValue_atom (by decide) (by decide) (by decide) _).trans (readAtom_false r)
  | .number x, n, r, hb, _, hn, hr => by
    obtain ⟨c, hh, hf⟩ := numberText_first (Φ := Φ) x
    obtain ⟨cs, hx⟩ := List.head?_eq_some_iff.mp hh
    have ha := @readAtom_number Φ lenient _ _ hb hr
    cases n with
    | zero => simp [write, Writer.word, hx] at hn
    | succ n =>
      simp only [write, Writer.word, hW.char]
      refine Eq.trans ?_ ha
      rw [text, hx]
      exact readValue_atom (first_ne hf (by decide) (by decide)) (first_ne hf (by decide) (by decide))
        (first_ne hf (by decide) (by decide)) _
  | .string s, n, r, _, hl, hn, _ => by
    cases n with
    | zero => simp [write, Writer.string] at hn
    | succ n =>
      have hs := hW.string s hl r
      simp only [write, Writer.string, hW.char, List.cons_append] at hs ⊢
      exact readValue_string hs
  | .array [], n, r, _, _, hn, _ => by
    cases n with
    | zero => simp [write, Writer.word] at hn
    | succ n =>
      have hs : skip (.scalar ']' :: r) = .scalar ']' :: r := skip_cons (by decide) r
      simp only [write, Writer.word, hW.char, List.map_cons, List.map_nil, List.cons_append,
        List.nil_append, readValue, hs]
      rfl
  | .array (v :: vs), n, r, hb, hl, hn, hr => by
    cases n with
    | zero => simp [write] at hn
    | succ n =>
      simp only [every, everyItem, Bool.and_eq_true] at hb hl
      simp only [write, List.cons_append, List.length_cons, List.length_append] at hn
      have hv := read_write hW v n (writeItems Φ W vs ++ r) hb.2.1 hl.2.1 (by omega)
        (ends_items hW vs r)
      have hvs := read_writeItems hW vs n r hb.2.2 hl.2.2 (by omega)
      obtain ⟨c, hh, hs, hc, -⟩ := write_head (Φ := Φ) hW.char v
      obtain ⟨t, ht⟩ := List.head?_eq_some_iff.mp hh
      simp only [write, hW.char, List.cons_append, List.append_assoc]
      rw [ht, List.cons_append] at hv ⊢
      rw [readValue_array hs hc, hv]
      exact guard_bind (by rw [hvs]; exact guard_map rfl)
  | .object [], n, r, _, _, hn, _ => by
    cases n with
    | zero => simp [write, Writer.word] at hn
    | succ n =>
      have hs : skip (.scalar '}' :: r) = .scalar '}' :: r := skip_cons (by decide) r
      simp only [write, Writer.word, hW.char, List.map_cons, List.map_nil, List.cons_append,
        List.nil_append, readValue, hs]
      rfl
  | .object ((k, v) :: fs), n, r, hb, hl, hn, hr => by
    cases n with
    | zero => simp [write] at hn
    | succ n =>
      simp only [every, everyField, Json.spelled, Json.built, List.all_cons, Bool.and_eq_true,
        decide_eq_true_eq] at hb hl
      simp only [write, List.cons_append, List.length_cons, List.length_append] at hn
      have hv := read_write hW v n (writeFields Φ W fs ++ r) hb.2.1 hl.2.1 (by omega)
        (ends_fields hW fs r)
      have hfs := read_writeFields hW fs n r hb.2.2 hl.2.2 hl.1.2 (by omega)
      have hk := readKey_write (Φ := Φ) hW hl.1.1 v (writeFields Φ W fs ++ r)
      obtain ⟨t, ht⟩ : ∃ t, W.string k = .scalar '"' :: t := ⟨_, by simp [Writer.string, hW.char]; rfl⟩
      simp only [write, hW.char, List.cons_append, List.append_assoc]
      rw [ht, List.cons_append] at hk ⊢
      rw [readValue_object (by decide) (by decide), hk, Option.bind_some, hv]
      have hd : (Json.object (dict ((k, v) :: fs)), r) = (Json.object ((k, v) :: fs), r) := by
        rw [dict_self hb.1]
      exact guard_bind (by rw [hfs]; exact guard_map hd)

theorem read_writeItems (hW : W.Faithful ok) : ∀ (vs : List Json) (n : Nat) (r : Text),
    everyItem (Json.built lenient) vs = true → everyItem (Json.spelled ok) vs = true →
    (writeItems Φ W vs).length ≤ n → readItems Φ lenient n (writeItems Φ W vs ++ r) =
      if (everyItem Json.numeric vs || lenient) = true then some (vs, r) else none
  | [], n, r, _, _, hn => by
    cases n with
    | zero => simp [writeItems] at hn
    | succ n =>
      simp only [writeItems, hW.char, List.cons_append, List.nil_append]
      exact readItems_end r
  | v :: vs, n, r, hb, hl, hn => by
    obtain ⟨sp, hc, hsp⟩ := comma_text hW
    cases n with
    | zero => simp [writeItems, hc] at hn
    | succ n =>
      simp only [everyItem, Bool.and_eq_true] at hb hl
      simp only [writeItems, hc, List.cons_append, List.length_cons, List.length_append] at hn
      have hv := read_write hW v n (writeItems Φ W vs ++ r) hb.1 hl.1 (by omega) (ends_items hW vs r)
      have hvs := read_writeItems hW vs n r hb.2 hl.2 (by omega)
      simp only [writeItems, hc, List.cons_append, List.append_assoc]
      rw [readItems_comma, skip_spaces hsp, skip_write hW, hv]
      exact guard_bind (by rw [hvs]; exact guard_map rfl)

theorem read_writeFields (hW : W.Faithful ok) : ∀ (fs : List (Text × Json)) (n : Nat) (r : Text),
    everyField (Json.built lenient) fs = true → everyField (Json.spelled ok) fs = true →
    (fs.all fun f => ok f.1) = true → (writeFields Φ W fs).length ≤ n →
    readFields Φ lenient n (writeFields Φ W fs ++ r) =
      if (everyField Json.numeric fs || lenient) = true then some (fs, r) else none
  | [], n, r, _, _, _, hn => by
    cases n with
    | zero => simp [writeFields] at hn
    | succ n =>
      simp only [writeFields, hW.char, List.cons_append, List.nil_append]
      exact readFields_end r
  | (k, v) :: fs, n, r, hb, hl, hk, hn => by
    obtain ⟨sp, hc, hsp⟩ := comma_text hW
    cases n with
    | zero => simp [writeFields, hc] at hn
    | succ n =>
      simp only [everyField, List.all_cons, Bool.and_eq_true] at hb hl hk
      simp only [writeFields, hc, List.cons_append, List.length_cons, List.length_append] at hn
      have hv := read_write hW v n (writeFields Φ W fs ++ r) hb.1 hl.1 (by omega)
        (ends_fields hW fs r)
      have hfs := read_writeFields hW fs n r hb.2 hl.2 hk.2 (by omega)
      have hkey := readKey_write (Φ := Φ) hW hk.1 v (writeFields Φ W fs ++ r)
      simp only [writeFields, hc, List.cons_append, List.append_assoc]
      rw [readFields_comma, skip_spaces hsp, skip_string hW, hkey, Option.bind_some, hv]
      exact guard_bind (by rw [hfs]; exact guard_map rfl)

end

/-- A whole text read back. -/
theorem parse_write (hW : W.Faithful ok) {v : Json} (hb : every (Json.built lenient) v = true)
    (hl : every (Json.spelled ok) v = true) : parse Φ lenient (write Φ W v) =
      if (every Json.numeric v || lenient) = true then some v else none := by
  have hr := @read_write Φ lenient W ok hW v ((write Φ W v).length + 1) [] hb hl (by omega) .nil
  have hs := skip_write (Φ := Φ) hW v []
  simp only [List.append_nil] at hr hs
  rw [parse, hs, hr]
  by_cases h : (every Json.numeric v || lenient) = true
  · simp only [if_pos h]
    rfl
  · simp only [if_neg h]

end faithful

/-! The two writers -/

section widen
variable (W : Writer Char)

theorem word_widen (cs : List Char) : text (W.word cs) = W.widen.word cs := by
  simp [Writer.word, Writer.widen, text]

theorem string_widen (s : Text) : text (W.string s) = W.widen.string s := by
  simp [Writer.string, Writer.widen, text, List.map_flatMap]

mutual

theorem write_widen : ∀ v, text (write Φ W v) = write Φ W.widen v
  | .null => word_widen W _
  | .bool b => word_widen W _
  | .number n => word_widen W _
  | .string s => string_widen W s
  | .array [] => word_widen W _
  | .array (v :: vs) => by
    simp only [write, text_append, text_cons, write_widen v, writeItems_widen vs]
    rfl
  | .object [] => word_widen W _
  | .object ((k, v) :: fs) => by
    simp only [write, text_append, text_cons, string_widen, word_widen, write_widen v,
      writeFields_widen fs]
    rfl

theorem writeItems_widen : ∀ vs, text (writeItems Φ W vs) = writeItems Φ W.widen vs
  | [] => rfl
  | v :: vs => by
    simp only [writeItems, text_append, word_widen, write_widen v, writeItems_widen vs]
    rfl

theorem writeFields_widen : ∀ fs, text (writeFields Φ W fs) = writeFields Φ W.widen fs
  | [] => rfl
  | (k, v) :: fs => by
    simp only [writeFields, text_append, string_widen, word_widen, write_widen v,
      writeFields_widen fs]
    rfl

end

end widen

/-- What `json.dumps` writes, `json.loads` reads. -/
theorem loads_dumps {v : Json} (hb : every (Json.built true) v = true) (hl : every Json.legible v = true) :
    loads Φ (text (dumps Φ v)) = some v := by
  rw [dumps, write_widen, loads, parse_write ascii_faithful hb hl, Bool.or_true, if_pos rfl]

theorem all_text (cs : List Char) : (text cs).all CodePoint.isScalar = true := by
  simp [text, CodePoint.isScalar]

theorem all_string (s : Text) :
    (compact.string s).all CodePoint.isScalar = s.all CodePoint.isScalar := by
  have hc : ∀ c : CodePoint, (rawEscape c).all CodePoint.isScalar = c.isScalar := by
    intro c
    cases c with
    | scalar c =>
      simp only [rawEscape, CodePoint.isScalar]
      split
      · exact all_text _
      · split
        · exact all_text _
        · rfl
    | high n | low n => rfl
  have hq : CodePoint.isScalar (.scalar '"') = true := rfl
  simp only [Writer.string, compact, List.cons_append, List.all_cons, List.all_append,
    List.all_flatMap, hc, hq, List.all_nil, Bool.true_and, Bool.and_true]

theorem all_word (cs : List Char) : (compact.word cs).all CodePoint.isScalar = true := all_text cs

mutual

/-- The text of a value has surrogates exactly if the value has. -/
theorem all_write : ∀ v, (write Φ compact v).all CodePoint.isScalar = every Json.legible v
  | .null => all_word _
  | .bool b => all_word _
  | .number n => all_word _
  | .string s => all_string s
  | .array [] => all_word _
  | .array (v :: vs) => by
    simp only [write, List.cons_append, List.all_cons, List.all_append, all_write v,
      all_writeItems vs, every, everyItem, Json.legible, Json.spelled]
    rfl
  | .object [] => all_word _
  | .object ((k, v) :: fs) => by
    simp only [write, List.cons_append, List.all_cons, List.all_append, all_string, all_word,
      all_write v, all_writeFields fs, every, everyField, Json.legible, Json.spelled,
      ofScalars, Bool.and_true]
    simp only [compact, CodePoint.isScalar, Bool.true_and]
    ac_rfl

theorem all_writeItems : ∀ vs, (writeItems Φ compact vs).all CodePoint.isScalar =
    everyItem Json.legible vs
  | [] => rfl
  | v :: vs => by
    simp only [writeItems, List.all_append, all_word, all_write v, all_writeItems vs, everyItem,
      Bool.true_and]

theorem all_writeFields : ∀ fs, (writeFields Φ compact fs).all CodePoint.isScalar =
    ((fs.all fun f => f.1.all CodePoint.isScalar) && everyField Json.legible fs)
  | [] => rfl
  | (k, v) :: fs => by
    simp only [writeFields, List.all_append, all_word, all_string, all_write v,
      all_writeFields fs, everyField, List.all_cons, Bool.true_and, Bool.and_true]
    ac_rfl

end

theorem encode_some {t : Text} {cs : List Char} : encode t = some cs ↔ t = text cs := by
  constructor
  · intro h
    induction t generalizing cs with
    | nil =>
      cases h
      rfl
    | cons c t ih =>
      cases c with
      | scalar c =>
        obtain ⟨ds, hd, rfl⟩ := Option.map_eq_some_iff.mp h
        rw [ih hd]
        rfl
      | high n => cases h
      | low n => cases h
  · intro h
    rw [h, encode_text]

/-- Text can be sent as UTF-8 exactly if it has no surrogates. -/
theorem encode_isSome (t : Text) : (encode t).isSome = t.all CodePoint.isScalar := by
  cases h : t.all CodePoint.isScalar with
  | true =>
    obtain ⟨cs, rfl⟩ := text_of_scalars h
    rw [encode_text]
    rfl
  | false =>
    cases he : encode t with
    | none => rfl
    | some cs =>
      rw [encode_some.mp he, all_text] at h
      cases h

/-! What reading builds -/

/-- What can be encoded and parsed again is read back as it was. -/
theorem encode_parse {v : Json} (hb : every (Json.built false) v = true) :
    (encode (write Φ compact v)).bind (fun cs => parse Φ false (text cs)) =
      if (every Json.legible v && every Json.numeric v) = true then some v else none := by
  have he := encode_isSome (write Φ compact v)
  rw [all_write] at he
  cases hl : every Json.legible v with
  | false =>
    rw [hl, Option.isSome_eq_false_iff, Option.isNone_iff_eq_none] at he
    rw [he]
    rfl
  | true =>
    rw [hl] at he
    obtain ⟨cs, hcs⟩ := Option.isSome_iff_exists.mp he
    rw [hcs, Option.bind_some, ← encode_some.mp hcs, parse_write compact_faithful hb hl,
      Bool.or_false, Bool.true_and]

mutual

theorem every_mono {p q : Json → Bool} (h : ∀ v, p v = true → q v = true) : ∀ v,
    every p v = true → every q v = true
  | .array vs, hv => by
    simp only [every, Bool.and_eq_true] at hv ⊢
    exact ⟨h _ hv.1, everyItem_mono h vs hv.2⟩
  | .object fs, hv => by
    simp only [every, Bool.and_eq_true] at hv ⊢
    exact ⟨h _ hv.1, everyField_mono h fs hv.2⟩
  | .null, hv | .bool _, hv | .number _, hv | .string _, hv => h _ hv

theorem everyItem_mono {p q : Json → Bool} (h : ∀ v, p v = true → q v = true) : ∀ vs,
    everyItem p vs = true → everyItem q vs = true
  | [], _ => rfl
  | v :: vs, hv => by
    simp only [everyItem, Bool.and_eq_true] at hv ⊢
    exact ⟨every_mono h v hv.1, everyItem_mono h vs hv.2⟩

theorem everyField_mono {p q : Json → Bool} (h : ∀ v, p v = true → q v = true) : ∀ fs,
    everyField p fs = true → everyField q fs = true
  | [], _ => rfl
  | (_, v) :: fs, hv => by
    simp only [everyField, Bool.and_eq_true] at hv ⊢
    exact ⟨every_mono h v hv.1, everyField_mono h fs hv.2⟩

end

theorem everyItem_iff {p : Json → Bool} {vs : List Json} :
    everyItem p vs = true ↔ ∀ v ∈ vs, every p v = true := by
  induction vs with
  | nil => simp [everyItem]
  | cons v vs ih => simp [everyItem, ih]

theorem everyField_iff {p : Json → Bool} {fs : List (Text × Json)} :
    everyField p fs = true ↔ ∀ f ∈ fs, every p f.2 = true := by
  induction fs with
  | nil => simp [everyField]
  | cons f fs ih => simp [everyField, ih]

theorem every_items {p : Json → Bool} {vs : List Json} (h : every p (.array vs) = true) :
    ∀ v ∈ vs, every p v = true :=
  everyItem_iff.mp (Bool.and_eq_true_iff.mp h).2

theorem get_every {p : Json → Bool} {k : Text} {v w : Json} (h : every p v = true)
    (hg : v.get k = some w) : every p w = true := by
  cases v with
  | object fs =>
    obtain ⟨f, hf, rfl⟩ := Option.map_eq_some_iff.mp hg
    exact everyField_iff.mp (Bool.and_eq_true_iff.mp h).2 f (List.mem_of_find?_eq_some hf)
  | null | bool | number | string | array => cases hg

theorem insert_keys (k : Text) (v : Json) (fs : List (Text × Json)) :
    (insert k v fs).map Prod.fst = if k ∈ fs.map Prod.fst then fs.map Prod.fst
      else fs.map Prod.fst ++ [k] := by
  induction fs with
  | nil => rfl
  | cons f fs ih =>
    rw [insert]
    by_cases h : f.1 = k
    · simp [h]
    · rw [if_neg h, List.map_cons, ih]
      by_cases hm : k ∈ fs.map Prod.fst
      · simp [hm]
      · simp [hm, Ne.symm h]

theorem insert_nodup {k : Text} {v : Json} {fs : List (Text × Json)}
    (h : (fs.map Prod.fst).Nodup) : ((insert k v fs).map Prod.fst).Nodup := by
  rw [insert_keys]
  split
  · exact h
  · rename_i hk
    exact List.nodup_append.mpr ⟨h, List.nodup_singleton k, fun a ha b hb =>
      fun he => hk (List.mem_singleton.mp hb ▸ he ▸ ha)⟩

theorem mem_insert_self (k : Text) (v : Json) (fs : List (Text × Json)) : (k, v) ∈ insert k v fs := by
  induction fs with
  | nil => exact List.mem_singleton_self _
  | cons f fs ih =>
    rw [insert]
    split
    · exact List.mem_cons_self
    · exact List.mem_cons_of_mem _ ih

theorem mem_insert_of_ne {k : Text} {v : Json} {f : Text × Json} {fs : List (Text × Json)}
    (hf : f ∈ fs) (hk : f.1 ≠ k) : f ∈ insert k v fs := by
  induction fs with
  | nil => cases hf
  | cons g fs ih =>
    rw [insert]
    split
    · rename_i hg
      rcases List.mem_cons.mp hf with rfl | hf
      · exact absurd hg hk
      · exact List.mem_cons_of_mem _ hf
    · rcases List.mem_cons.mp hf with rfl | hf
      · exact List.mem_cons_self
      · exact List.mem_cons_of_mem _ (ih hf)

theorem mem_insert {k : Text} {v : Json} {f : Text × Json} {fs : List (Text × Json)}
    (h : f ∈ insert k v fs) : f = (k, v) ∨ f ∈ fs := by
  induction fs with
  | nil => exact .inl (List.mem_singleton.mp h)
  | cons g fs ih =>
    rw [insert] at h
    split at h
    · exact (List.mem_cons.mp h).imp_right (List.mem_cons_of_mem _)
    · rcases List.mem_cons.mp h with rfl | h
      · exact .inr List.mem_cons_self
      · exact (ih h).imp_right (List.mem_cons_of_mem _)

theorem dict_nodup (fs : List (Text × Json)) : ((dict fs).map Prod.fst).Nodup := by
  have hf : ∀ (fs gs : List (Text × Json)), (gs.map Prod.fst).Nodup →
      ((fs.foldl (fun d f => insert f.1 f.2 d) gs).map Prod.fst).Nodup := by
    intro fs
    induction fs with
    | nil => exact fun gs h => h
    | cons f fs ih => exact fun gs h => ih _ (insert_nodup h)
  exact hf fs [] List.nodup_nil

theorem insert_every {p : Json → Bool} {k : Text} {v : Json} {fs : List (Text × Json)}
    (hv : every p v = true) (h : everyField p fs = true) : everyField p (insert k v fs) = true := by
  induction fs with
  | nil => simp [insert, everyField, hv]
  | cons f fs ih =>
    simp only [everyField, Bool.and_eq_true] at h
    rw [insert]
    split
    · simp [everyField, hv, h.2]
    · simp [everyField, h.1, ih h.2]

theorem dict_every {p : Json → Bool} {fs : List (Text × Json)} (h : everyField p fs = true) :
    everyField p (dict fs) = true := by
  have hf : ∀ fs gs : List (Text × Json), everyField p fs = true → everyField p gs = true →
      everyField p (fs.foldl (fun d f => insert f.1 f.2 d) gs) = true := by
    intro fs
    induction fs with
    | nil => exact fun gs _ h => h
    | cons f fs ih =>
      intro gs h hg
      simp only [everyField, Bool.and_eq_true] at h
      exact ih _ h.2 (insert_every h.1 hg)
  exact hf fs [] h rfl

theorem isDigit_lt {c : Char} (h : c.isDigit = true) : c.toNat - '0'.toNat < 10 := by
  simp only [Char.isDigit, Bool.and_eq_true, decide_eq_true_eq] at h
  have hle : c.toNat ≤ '9'.toNat := h.2
  have hz : '0'.toNat = 48 := rfl
  have hn : '9'.toNat = 57 := rfl
  omega

theorem natOf_lt {ds : List Char} (h : ∀ c ∈ ds, c.isDigit = true) : natOf ds < 10 ^ ds.length := by
  induction ds using List.reverseRecOn with
  | nil => simp [natOf]
  | append_singleton ds d ih =>
    have hi := ih fun c hc => h c (List.mem_append_left _ hc)
    have hd := isDigit_lt (h d (by simp))
    simp only [natOf, List.foldl_append, List.foldl_cons, List.foldl_nil, List.length_append,
      List.length_singleton, Nat.pow_succ] at hi ⊢
    omega

theorem decimal_length {n k : Nat} (hk : 0 < k) (h : n < 10 ^ k) : (decimal n).length ≤ k := by
  unfold decimal
  split
  · exact hk
  · simpa using (Nat.digits_length_le_iff (by decide) n).mpr h

theorem digits_isDigit (t : Text) : ∀ c ∈ (digits t).1, c.isDigit = true := by
  induction t with
  | nil => simp [digits]
  | cons c t ih =>
    cases c with
    | scalar c =>
      rw [digits]
      split
      · rename_i h
        intro d hd
        rcases List.mem_cons.mp hd with rfl | hd
        · exact h
        · exact ih d hd
      · simp
    | high n | low n => simp [digits]

theorem whole_isDigit {t rest : Text} {ds : List Char} (h : whole t = some (ds, rest)) :
    ∀ c ∈ ds, c.isDigit = true := by
  unfold whole at h
  split at h
  · split at h
    · cases h
      intro c hc
      rw [List.mem_singleton.mp hc]
      rfl
    · split at h
      · rename_i hd
        cases h
        intro c hc
        rcases List.mem_cons.mp hc with rfl | hc
        · exact hd
        · exact digits_isDigit _ c hc
      · cases h
  · cases h

theorem readNumber_built {t r : Text} {n : Number} (h : readNumber Φ lenient t = some (n, r)) :
    (Json.number n).built lenient = true := by
  unfold readNumber at h
  split at h
  · cases h
  · rename_i l rest hl
    obtain ⟨⟨ds, t'⟩, hw, he⟩ := Option.map_eq_some_iff.mp hl
    split at h
    · split at h
      · rename_i hlen
        cases h
        have hds : l.whole = ds := by
          cases he
          rfl
        obtain ⟨c, cs, hc, -⟩ := whole_head hw
        have hlt := decimal_length (k := ds.length) (by simp [hc]) (natOf_lt (whole_isDigit hw))
        have hsmall : lenient = false ∨ (decimal (natOf ds)).length ≤ maxDigits :=
          hlen.imp_right fun hle => Nat.le_trans hlt (hds ▸ hle)
        rw [hds]
        split <;> simpa [Json.built, Number.small] using hsmall
      · cases h
    · split at h <;> cases h <;> cases lenient <;> rfl

theorem readAtom_built {t r : Text} {v : Json} (h : readAtom Φ lenient t = some (v, r)) :
    every (Json.built lenient) v = true := by
  unfold readAtom at h
  split at h
  · rename_i a hread
    cases h
    obtain ⟨w, hmem, hm⟩ := List.exists_of_findSome?_eq_some hread
    obtain ⟨rest, -, hv⟩ := Option.map_eq_some_iff.mp hm
    cases hv
    have hall : ∀ w ∈ constants ++ specials, every (Json.built lenient) w.2 = true := by
      intro w hw
      simp only [constants, specials, List.cons_append, List.nil_append, List.mem_cons,
        List.not_mem_nil, or_false] at hw
      rcases hw with rfl | rfl | rfl | rfl | rfl | rfl <;> cases lenient <;> rfl
    refine hall w ?_
    cases lenient with
    | true => exact hmem
    | false => exact List.mem_append_left _ (by simpa using hmem)
  · obtain ⟨⟨n, rest⟩, hn, hv⟩ := Option.map_eq_some_iff.mp h
    cases hv
    exact readNumber_built hn

mutual

theorem readValue_built : ∀ (fuel : Nat) {t r : Text} {v : Json},
    readValue Φ lenient fuel t = some (v, r) → every (Json.built lenient) v = true
  | 0, _, _, _, h => by cases h
  | fuel + 1, t, r, v, h => by
    unfold readValue at h
    split at h
    · obtain ⟨s, -, hv⟩ := Option.map_eq_some_iff.mp h
      cases hv
      rfl
    · split at h
      · cases h
        rfl
      · obtain ⟨⟨v', t'⟩, hv, h⟩ := Option.bind_eq_some_iff.mp h
        obtain ⟨⟨vs, t''⟩, hvs, h⟩ := Option.bind_eq_some_iff.mp h
        cases h
        simp [every, everyItem, Json.built, readValue_built fuel hv, readItems_built fuel hvs]
    · split at h
      · cases h
        rfl
      · obtain ⟨⟨k, t₀⟩, -, h⟩ := Option.bind_eq_some_iff.mp h
        obtain ⟨⟨v', t'⟩, hv, h⟩ := Option.bind_eq_some_iff.mp h
        obtain ⟨⟨fs, t''⟩, hfs, h⟩ := Option.bind_eq_some_iff.mp h
        cases h
        have he : everyField (Json.built lenient) ((k, v') :: fs) = true := by
          simp [everyField, readValue_built fuel hv, readFields_built fuel hfs]
        simp [every, Json.built, dict_nodup, dict_every he]
    · exact readAtom_built h

theorem readItems_built : ∀ (fuel : Nat) {t r : Text} {vs : List Json},
    readItems Φ lenient fuel t = some (vs, r) → everyItem (Json.built lenient) vs = true
  | 0, _, _, _, h => by cases h
  | fuel + 1, t, r, vs, h => by
    unfold readItems at h
    split at h
    · cases h
      rfl
    · obtain ⟨⟨v', t'⟩, hv, h⟩ := Option.bind_eq_some_iff.mp h
      obtain ⟨⟨vs', t''⟩, hvs, h⟩ := Option.bind_eq_some_iff.mp h
      cases h
      simp [everyItem, readValue_built fuel hv, readItems_built fuel hvs]
    · cases h

theorem readFields_built : ∀ (fuel : Nat) {t r : Text} {fs : List (Text × Json)},
    readFields Φ lenient fuel t = some (fs, r) → everyField (Json.built lenient) fs = true
  | 0, _, _, _, h => by cases h
  | fuel + 1, t, r, fs, h => by
    unfold readFields at h
    split at h
    · cases h
      rfl
    · obtain ⟨⟨k, t₀⟩, -, h⟩ := Option.bind_eq_some_iff.mp h
      obtain ⟨⟨v', t'⟩, hv, h⟩ := Option.bind_eq_some_iff.mp h
      obtain ⟨⟨fs', t''⟩, hfs, h⟩ := Option.bind_eq_some_iff.mp h
      cases h
      simp [everyField, readValue_built fuel hv, readFields_built fuel hfs]
    · cases h

end

/-- Whatever is read has no key twice in an object and no integer too long. -/
theorem parse_built {t : Text} {v : Json} (h : parse Φ lenient t = some v) :
    every (Json.built lenient) v = true := by
  unfold parse at h
  split at h
  · rename_i v' rest hr
    split at h
    · cases h
      exact readValue_built _ hr
    · cases h
  · cases h

end Lattix.Lib.Json
