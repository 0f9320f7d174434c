import Lattix.Client.Config

namespace Lattix.Client.Config
open Lib.Url

/-! Cutting a path twice -/

/-- What is cut off begins with the first `api`, or is a last `ws`. Neither an
empty segment nor a further `ws` stands right before it. -/
def Settled (segs : List (List Char)) : Prop :=
  ∀ before seg cut after, segs = before ++ seg :: cut :: after →
    (∀ t ∈ before ++ [seg], isApi t = false) →
    isApi cut = true ∨ isWs cut = true ∧ (∀ t ∈ after, t = []) → seg ≠ [] ∧ isWs seg = false

section cut
variable {before after segs : List (List Char)} {cut seg : List Char}

/-- A segment at which the path is cut. -/
def CutsAt (cut : List Char) (after : List (List Char)) : Prop :=
  isApi cut = true ∨ isWs cut = true ∧ after = []

theorem cutSegments_cut (hbefore : ∀ t ∈ before, isApi t = false) (hcut : CutsAt cut after) :
    cutSegments (before ++ cut :: after) = before := by
  induction before with
  | nil => exact if_pos hcut.symm
  | cons t before ih =>
    have ht := hbefore t List.mem_cons_self
    rw [List.cons_append, cutSegments, if_neg, ih fun u hu => hbefore u (List.mem_cons_of_mem t hu)]
    rintro (⟨-, hnil⟩ | hapi)
    · simp at hnil
    · rw [ht] at hapi
      cases hapi

theorem cutSegments_none (hsegs : ∀ t ∈ segs, isApi t = false)
    (hlast : ∀ t ∈ segs.getLast?, isWs t = false) : cutSegments segs = segs := by
  induction segs with
  | nil => rfl
  | cons t rest ih =>
    have ht := hsegs t List.mem_cons_self
    rw [cutSegments, if_neg, ih (fun u hu => hsegs u (List.mem_cons_of_mem t hu))]
    · intro u hu
      refine hlast u ?_
      rw [Option.mem_def] at hu ⊢
      rw [List.getLast?_cons, hu]
      rfl
    · rintro (⟨hws, rfl⟩ | hapi)
      · rw [hlast t rfl] at hws
        cases hws
      · rw [ht] at hapi
        cases hapi

/-- Either nothing is cut off, or what is begins at the first place there is. -/
theorem cutSegments_cases (segs : List (List Char)) : (∀ t ∈ cutSegments segs, isApi t = false) ∧
    (cutSegments segs = segs ∨
      ∃ cut after, segs = cutSegments segs ++ cut :: after ∧ CutsAt cut after) := by
  induction segs with
  | nil => exact ⟨by simp [cutSegments], .inl rfl⟩
  | cons t rest ih =>
    rw [cutSegments]
    split
    · rename_i hcut
      exact ⟨by simp, .inr ⟨t, rest, rfl, hcut.symm⟩⟩
    · rename_i hno
      have ht : isApi t = false := Bool.eq_false_of_not_eq_true fun h => hno (.inr h)
      refine ⟨fun u hu => (List.mem_cons.mp hu).elim (fun he => he ▸ ht) (ih.1 u), ?_⟩
      rcases ih.2 with hall | ⟨cut, after, hsplit, hcut⟩
      · exact .inl (congrArg (t :: ·) hall)
      · exact .inr ⟨cut, after, congrArg (t :: ·) hsplit, hcut⟩

/-! The segments of a relay's path -/

theorem rdropWhile_empty (hcut : cut ≠ []) : (before ++ cut :: after).rdropWhile List.isEmpty =
    before ++ cut :: after.rdropWhile List.isEmpty := by
  have hc : cut.isEmpty = false := by simpa using hcut
  have h : (before ++ [cut] ++ after).rdropWhile List.isEmpty =
      before ++ [cut] ++ after.rdropWhile List.isEmpty := rdropWhile_append hc
  rwa [List.append_assoc, List.append_assoc] at h

theorem isApi_ne_nil (h : isApi cut = true) : cut ≠ [] := by
  rintro rfl
  cases h

theorem isWs_ne_nil (h : isWs cut = true) : cut ≠ [] := by
  rintro rfl
  cases h

theorem relaySegments_cut (hbefore : ∀ t ∈ before, isApi t = false)
    (hcut : isApi cut = true ∨ isWs cut = true ∧ (∀ t ∈ after, t = [])) :
    relaySegments (before ++ cut :: after) = before := by
  have hne : cut ≠ [] := hcut.elim isApi_ne_nil fun h => isWs_ne_nil h.1
  rw [relaySegments, rdropWhile_empty hne]
  refine cutSegments_cut hbefore (hcut.imp_right fun h => ⟨h.1, ?_⟩)
  exact List.rdropWhile_eq_nil_iff.mpr fun t ht => by rw [h.2 t ht]; rfl

/-- A path that ends as it should stays as it is. -/
theorem relaySegments_self (hbefore : ∀ t ∈ before ++ [seg], isApi t = false) (hne : seg ≠ [])
    (hws : isWs seg = false) : relaySegments (before ++ [seg]) = before ++ [seg] := by
  rw [relaySegments, rdropWhile_empty hne, List.rdropWhile_nil]
  refine cutSegments_none hbefore ?_
  rw [List.getLast?_append]
  rintro t ⟨⟩
  exact hws

theorem relaySegments_ne (hbefore : ∀ t ∈ before, isApi t = false)
    (h : relaySegments (before ++ [seg]) = before ++ [seg]) : seg ≠ [] ∧ isWs seg = false := by
  have hlength : before.length < (relaySegments (before ++ [seg])).length := by
    rw [h, List.length_append, List.length_singleton]
    exact Nat.lt_succ_self _
  constructor
  · rintro rfl
    have hempty : relaySegments (before ++ [[]]) = relaySegments before := by
      rw [relaySegments, List.rdropWhile_concat_pos _ _ _ rfl]
      rfl
    rw [hempty] at hlength
    exact absurd (relaySegments_front before).length_le hlength.not_ge
  · refine Bool.eq_false_of_not_eq_true fun hws => ?_
    rw [relaySegments_cut hbefore (.inr ⟨hws, by simp⟩)] at hlength
    exact absurd hlength (Nat.lt_irrefl _)

theorem rdropWhile_split (segs : List (List Char)) :
    ∃ empties, segs = segs.rdropWhile List.isEmpty ++ empties ∧ ∀ t ∈ empties, t = [] := by
  refine ⟨segs.rtakeWhile List.isEmpty, ?_, fun t ht => ?_⟩
  · rw [List.rdropWhile, List.rtakeWhile, ← List.reverse_append, List.takeWhile_append_dropWhile,
      List.reverse_reverse]
  · rw [List.rtakeWhile, List.mem_reverse] at ht
    exact List.isEmpty_iff.mp (List.all_eq_true.mp List.all_takeWhile t ht)

/-- Cutting twice cuts no more than cutting once, on settled paths and on no others. -/
theorem relaySegments_idempotent_iff (segs : List (List Char)) :
    relaySegments (relaySegments segs) = relaySegments segs ↔ Settled segs := by
  constructor
  · rintro h before seg cut after rfl hbefore hcut
    have hcons : before ++ seg :: cut :: after = (before ++ [seg]) ++ cut :: after := by simp
    rw [hcons, relaySegments_cut hbefore hcut] at h
    exact relaySegments_ne (fun t ht => hbefore t (List.mem_append_left _ ht)) h
  · intro hsettled
    obtain ⟨empties, hsplit, hempties⟩ := rdropWhile_split segs
    obtain ⟨hapi, hcases⟩ := cutSegments_cases (segs.rdropWhile List.isEmpty)
    change (∀ t ∈ relaySegments segs, isApi t = false) at hapi
    rcases hcases with hall | ⟨cut, after, hcons, hcut⟩
    · have hkept : relaySegments segs = segs.rdropWhile List.isEmpty := hall
      rw [hkept, relaySegments, List.rdropWhile_idempotent, hall]
    · change segs.rdropWhile List.isEmpty = relaySegments segs ++ cut :: after at hcons
      rcases List.eq_nil_or_concat (relaySegments segs) with hnil | ⟨before, seg, hlast⟩
      · rw [hnil]
        rfl
      · rw [List.concat_eq_append] at hlast
        rw [hlast] at hapi hcons ⊢
        have hwhole : segs = before ++ seg :: cut :: (after ++ empties) := by
          conv_lhs => rw [hsplit, hcons]
          simp
        have hend : isApi cut = true ∨ isWs cut = true ∧ ∀ t ∈ after ++ empties, t = [] := by
          refine hcut.imp_right fun hc => ⟨hc.1, ?_⟩
          rw [hc.2]
          exact hempties
        obtain ⟨hne, hws⟩ := hsettled before seg cut _ hwhole hapi hend
        exact relaySegments_self hapi hne hws

end cut

theorem joinPath_inj {a b : List (List Char)} (ha : ∀ t ∈ a, Clean t) (hb : ∀ t ∈ b, Clean t)
    (h : joinPath a = joinPath b) : a = b := by
  rcases a with _ | ⟨s, a⟩ <;> rcases b with _ | ⟨t, b⟩
  · rfl
  · cases h
  · cases h
  · have htail : s ++ joinPath a = t ++ joinPath b := congrArg List.tail h
    rw [← splitOnP_joinPath ha, htail, splitOnP_joinPath hb]

/-! Addresses -/

section again
variable {b : Browser} {u : Address} {input url : List Char} {warning : Option String}

theorem trim_self {cs : List Char} (h : ∀ c ∈ cs, isSpace c = false) : trim cs = cs := by
  have hfront : cs.dropWhile isSpace = cs := by
    cases cs with
    | nil => rfl
    | cons c rest => exact List.dropWhile_cons_of_neg (by rw [h c List.mem_cons_self]; decide)
  rw [trim, trimBy, hfront, rdropWhile_none h]

theorem relay_letters (hu : u.Valid b.idna) {segs : List (List Char)} (hsegs : ∀ t ∈ segs, Clean t) :
    ∀ c ∈ u.scheme.start ++ (u.authority ++ joinPath segs), isSpace c = false := by
  intro c hc
  rcases List.mem_append.mp hc with hc | hc
  · have hstart : u.scheme.start.all (!isSpace ·) = true := by
      cases u.scheme <;> decide
    simpa using List.all_eq_true.mp hstart c hc
  rcases List.mem_append.mp hc with hc | hc
  · have hkept := authority_kept hu c hc
    exact (visible hkept.visible hkept.ascii).2
  · obtain ⟨-, -, hblank, hascii⟩ := mem_joinPath hsegs c hc
    exact (visible hblank hascii).2

theorem hasScheme_start (s : Scheme) (body : List Char) : hasScheme (s.start ++ body) = true := by
  rw [hasScheme, Scheme.start, List.append_assoc, List.cons_append, splitScheme_name]
  rfl

/-- What is returned is returned again, if the path of the address is settled, and only then. -/
theorem normalize_again_iff (h : normalizeServerUrl b input = .relay url warning) (hne : url ≠ []) :
    ∃ u, parse b.idna b.other (withScheme (trim input)) = .url u ∧
      ((∃ warning', normalizeServerUrl b url = .relay url warning') ↔ Settled u.path) := by
  obtain ⟨parsed, hparsed, huser, hreach, hurl, -⟩ := normalize_relay h hne
  refine ⟨parsed, hparsed, ?_⟩
  have hvalid := parse_valid hparsed
  have hclean := relaySegments_clean hvalid.path
  have hsite := relayScheme_scheme parsed
  have hrelay := relayScheme_valid hvalid
  generalize relayScheme parsed = v at huser hreach hurl hsite hrelay
  have hread : parse b.idna b.other url = .url
      { v with username := [], password := [], path := rooted (relaySegments parsed.path) } := by
    rw [hurl]
    exact parse_address hrelay hclean
  have hspace := relay_letters hrelay hclean
  rw [← hurl] at hspace
  have htrim := trim_self hspace
  have hscheme : withScheme url = url := by
    rw [withScheme, hurl, hasScheme_start, if_pos rfl]
  have hrooted : relaySegments (rooted (relaySegments parsed.path)) =
      relaySegments (relaySegments parsed.path) := by
    unfold rooted
    split
    · rename_i hnil
      rw [hnil]
      rfl
    · rfl
  obtain ⟨again, hagain⟩ : ∃ w, normalizeServerUrl b url = .relay
      (v.scheme.start ++ (v.authority ++ joinPath (relaySegments (relaySegments parsed.path)))) w := by
    rw [← hrooted]
    rw [← hscheme, ← htrim] at hread
    exact ⟨_, @normalize_of_parse b url _ (by rw [htrim]; exact hne) hread hsite rfl rfl hreach⟩
  rw [hagain, ← relaySegments_idempotent_iff]
  constructor
  · rintro ⟨w, hw⟩
    have hsame := (Outcome.relay.inj hw).1
    rw [hurl, List.append_cancel_left_eq, List.append_cancel_left_eq] at hsame
    exact joinPath_inj (relaySegments_clean hclean) hclean hsame
  · intro hsame
    exact ⟨again, by rw [hsame, ← hurl]⟩

def relayOf (path : List Char) : List Char :=
  Scheme.https.start ++ ['[', ':', ':', '1', ']'] ++ path

theorem users_again : ∃ warning,
    normalizeServerUrl localPage (relayOf ['/', 'l']) = .relay (relayOf ['/', 'l']) warning := by
  have hrelay : normalizeServerUrl localPage (relayOf ['/', 'l', '/', 'A', 'P', 'I', '/', 'u']) =
      .relay (relayOf ['/', 'l']) (some "") := by
    decide +kernel
  have hread : parse localPage.idna localPage.other
      (withScheme (trim (relayOf ['/', 'l', '/', 'A', 'P', 'I', '/', 'u']))) =
      .url ⟨.https, [], [], .ipv6 [0, 0, 0, 0, 0, 0, 0, 1], none, [['l'], ['A', 'P', 'I'], ['u']]⟩ := by
    decide +kernel
  obtain ⟨u, hu, hagain⟩ := normalize_again_iff hrelay (by decide)
  cases hu.symm.trans hread
  exact hagain.mpr ((relaySegments_idempotent_iff _).mp (by decide))

/-- One of two is cut off each time. -/
theorem sockets_not_again : ¬∀ (b : Browser) (input url : List Char) (warning : Option String),
    normalizeServerUrl b input = .relay url warning → url ≠ [] →
      ∃ warning', normalizeServerUrl b url = .relay url warning' := by
  intro hall
  have hrelay : normalizeServerUrl localPage (relayOf ['/', 'w', 's', '/', 'w', 's']) =
      .relay (relayOf ['/', 'w', 's']) (some "") := by
    decide +kernel
  have hshorter : normalizeServerUrl localPage (relayOf ['/', 'w', 's']) = .relay (relayOf []) (some "") := by
    decide +kernel
  obtain ⟨warning, hagain⟩ := hall localPage _ _ _ hrelay (by decide)
  exact absurd (Outcome.relay.inj (hshorter.symm.trans hagain)).1 (by decide)

end again

end Lattix.Client.Config
