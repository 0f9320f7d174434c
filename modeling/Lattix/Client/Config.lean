import Lattix.Client.Screen
import Lattix.Lib.Url.Reparse

namespace Lattix.Client.Config
open Lib.Url Lib.Json

/-! Hosts -/

def isLineTerminator (c : Char) : Bool := c.toNat ∈ [0xa, 0xd, 0x2028, 0x2029]

def isNumber (cs : List Char) : Bool := !cs.isEmpty && cs.all Char.isDigit

/-- `.+` and a suffix. -/
def endsWith (suffix cs : List Char) : Bool :=
  let n := cs.length - suffix.length
  cs.drop n = suffix && decide (0 < n) && (cs.take n).all (!isLineTerminator ·)

/-- `127(?:\.\d{1,3}){3}` -/
def isLoopback (cs : List Char) : Bool :=
  match cs.splitOn '.' with
  | [a, b, c, d] => a = ['1', '2', '7'] && [b, c, d].all fun p => isNumber p && p.length ≤ 3
  | _ => false

/-- `LOCAL_HOST_RE` takes no notice of case. -/
def isLocalHost (hostname : List Char) : Bool :=
  let cs := lower hostname
  cs = ['l', 'o', 'c', 'a', 'l', 'h', 'o', 's', 't'] || isLoopback cs || cs = ['[', ':', ':', '1', ']'] ||
    endsWith ['.', 'l', 'o', 'c', 'a', 'l'] cs ||
    endsWith ['.', 'l', 'o', 'c', 'a', 'l', 'h', 'o', 's', 't'] cs

/-- The alternatives of a second number: those from `lo` to `hi`, as they are usually written. -/
def isBetween (lo hi : Nat) (cs : List Char) : Bool :=
  cs.all Char.isDigit && cs = decimal (natOf cs) && decide (lo ≤ natOf cs) && decide (natOf cs ≤ hi)

/-- `PRIVATE_IP_RE` -/
def isPrivateIp (hostname : List Char) : Bool :=
  match hostname.splitOn '.' with
  | [a, b, c, d] =>
    (a = ['1', '0'] && isNumber b || a = ['1', '9', '2'] && b = ['1', '6', '8'] ||
      a = ['1', '7', '2'] && isBetween 16 31 b || a = ['1', '0', '0'] && isBetween 64 127 b) &&
    isNumber c && isNumber d
  | _ => false

/-! The address of a relay -/

/-- The browser: its URL parser, and where the page was loaded from. -/
structure Browser where
  protocol : String
  idna : Idna
  other : List Char → Bool

inductive Outcome where
  | error (message : String)
  | relay (url : List Char) (warning : Option String)
deriving DecidableEq, Repr

def trim (input : List Char) : List Char := trimBy isSpace input

def hasScheme (raw : List Char) : Bool :=
  (splitScheme raw).any fun (_, rest) => rest.take 2 = ['/', '/']

/-- The host as it was typed, for an address without a scheme. -/
def typedHost (raw : List Char) : List Char := raw.takeWhile (· ∉ ['/', ':', '?', '#'])

def isRelayHost (host : List Char) : Bool := isLocalHost host || isPrivateIp host

def withScheme (raw : List Char) : List Char :=
  if hasScheme raw then raw
  else (if isRelayHost (typedHost raw) then Scheme.http else .https).start ++ raw

/-- The page's two schemes for the sockets' two. -/
def relayScheme (u : Address) : Address :=
  if u.scheme = .ws then u.setScheme .http
  else if u.scheme = .wss then u.setScheme .https
  else u

/-- What `\/(ws|api(\/.*)?)$` matches behind its slash. -/
def isSuffix (cs : List Char) : Bool :=
  let seg := lower (cs.takeWhile (· ≠ '/'))
  let after := cs.dropWhile (· ≠ '/')
  seg = ['w', 's'] && after.isEmpty || seg = ['a', 'p', 'i'] && after.all (!isLineTerminator ·)

def cutSuffix : List Char → List Char
  | [] => []
  | c :: cs => if c = '/' ∧ isSuffix cs then [] else c :: cutSuffix cs

def relayPath (pathname : List Char) : List Char := cutSuffix (pathname.rdropWhile (· = '/'))

def notValid : String := "That doesn't look like a valid URL."

def wrongScheme : String := "The relay URL must start with https:// or http://."

def noCredentials : String := "Don't put a username or password in the relay URL."

def noHost : String := "The relay URL needs a host name."

def mixedContent : String :=
  "This page is loaded over HTTPS, so the browser will block an http:// relay. Use https://."

def plainWarning : String :=
  "Plain http:// over the internet exposes your login token and metadata to the network. " ++
  "Messages stay end-to-end encrypted, but put the relay behind HTTPS (Caddy or nginx)."

def normalizeServerUrl (b : Browser) (input : List Char) : Outcome :=
  let raw := trim input
  if raw = [] then .relay [] none
  else
    match parse b.idna b.other (withScheme raw) with
    | .failure => .error notValid
    | .other => .error wrongScheme
    | .url parsed =>
      let u := relayScheme parsed
      if u.username ≠ [] ∨ u.password ≠ [] then .error noCredentials
      else if u.hostname = [] then .error noHost
      else if b.protocol = "https:" ∧ u.scheme = .http ∧ isLocalHost u.hostname = false then
        .error mixedContent
      else
        .relay (u.scheme.start ++ (u.authority ++ relayPath u.pathname))
          (some (if u.scheme = .http ∧ isRelayHost u.hostname = false then plainWarning else ""))

/-! The path of a relay, segment by segment -/

def isWs (seg : List Char) : Bool := lower seg = ['w', 's']

def isApi (seg : List Char) : Bool := lower seg = ['a', 'p', 'i']

def cutSegments : List (List Char) → List (List Char)
  | [] => []
  | seg :: rest => if isWs seg ∧ rest = [] ∨ isApi seg then [] else seg :: cutSegments rest

def relaySegments (segs : List (List Char)) : List (List Char) :=
  cutSegments (segs.rdropWhile List.isEmpty)

section path
variable {segs : List (List Char)}

theorem rdropWhile_joinPath (h : ∀ seg ∈ segs, Clean seg) :
    (joinPath segs).rdropWhile (· = '/') = joinPath (segs.rdropWhile List.isEmpty) := by
  induction segs using List.reverseRecOn with
  | nil => rfl
  | append_singleton segs seg ih =>
    have hsegs : ∀ t ∈ segs, Clean t := fun t ht => h t (List.mem_append_left _ ht)
    have hjoin : joinPath (segs ++ [seg]) = joinPath segs ++ '/' :: seg := by
      simp [joinPath, List.flatMap_append]
    rcases List.eq_nil_or_concat seg with rfl | ⟨cs, c, hseg⟩
    · rw [hjoin, List.rdropWhile_concat_pos _ _ _ (by decide), ih hsegs,
        List.rdropWhile_concat_pos _ _ _ (by decide)]
    · rw [List.concat_eq_append] at hseg
      have hc : isSlash c = false := ((h seg (by simp)).1 c (by simp [hseg])).2
      have hne : c ≠ '/' := by
        rintro rfl
        exact absurd hc (by decide)
      rw [List.rdropWhile_concat_neg List.isEmpty segs seg (by simp [hseg]), hjoin, hseg,
        ← List.cons_append, ← List.append_assoc, List.rdropWhile_concat_neg _ _ _ (by simp [hne])]

theorem cutSuffix_segment {seg rest : List Char} (h : '/' ∉ seg) :
    cutSuffix (seg ++ rest) = seg ++ cutSuffix rest := by
  induction seg with
  | nil => rfl
  | cons c cs ih =>
    rw [List.mem_cons, not_or] at h
    rw [List.cons_append, cutSuffix, if_neg fun hc => h.1 hc.1.symm, ih h.2]
    rfl

theorem clean_no_slash {seg : List Char} (h : Clean seg) : '/' ∉ seg := fun hm =>
  absurd (h.1 _ hm).2 (by decide)

theorem visible {c : Char} (hblank : isBlank c = false) (hascii : isAscii c = true) :
    isLineTerminator c = false ∧ isSpace c = false := by
  have hlo := of_decide_eq_false hblank
  have hhi := of_decide_eq_true hascii
  constructor
  · simp only [isLineTerminator, List.mem_cons, List.not_mem_nil, or_false, not_or,
      decide_eq_false_iff_not]
    omega
  · simp only [isSpace, List.mem_cons, List.not_mem_nil, or_false, not_or, Bool.or_eq_false_iff,
      Bool.and_eq_false_iff, decide_eq_false_iff_not]
    omega

theorem joinPath_no_line (h : ∀ seg ∈ segs, Clean seg) :
    (joinPath segs).all (!isLineTerminator ·) = true := by
  refine List.all_eq_true.mpr fun c hc => ?_
  obtain ⟨-, -, hblank, hascii⟩ := mem_joinPath h c hc
  rw [(visible hblank hascii).1]
  rfl

theorem isSuffix_joinPath {seg : List Char} (h : ∀ t ∈ seg :: segs, Clean t) :
    isSuffix (seg ++ joinPath segs) = true ↔ isWs seg = true ∧ segs = [] ∨ isApi seg = true := by
  have hletters : ∀ c ∈ seg, decide (c ≠ '/') = true := fun c hc =>
    decide_eq_true fun he => clean_no_slash (h seg List.mem_cons_self) (he ▸ hc)
  have hhead : ∀ c ∈ (joinPath segs).head?, decide (c ≠ '/') = false := by
    intro c hc
    cases segs with
    | nil => cases hc
    | cons t ts => cases hc; rfl
  have hnil : (joinPath segs).isEmpty = true ↔ segs = [] := by
    cases segs with
    | nil => simp [joinPath]
    | cons t ts => simp [joinPath]
  rw [isSuffix, takeWhile_cut hletters hhead, dropWhile_cut hletters hhead,
    joinPath_no_line fun t ht => h t (List.mem_cons_of_mem seg ht)]
  simp only [isWs, isApi, Bool.or_eq_true, Bool.and_eq_true, decide_eq_true_eq, hnil, and_true]

theorem cutSuffix_joinPath (h : ∀ seg ∈ segs, Clean seg) :
    cutSuffix (joinPath segs) = joinPath (cutSegments segs) := by
  induction segs with
  | nil => rfl
  | cons seg rest ih =>
    have hcons (rest) : joinPath (seg :: rest) = '/' :: (seg ++ joinPath rest) := rfl
    rw [hcons, cutSuffix, cutSegments]
    have hsuffix := isSuffix_joinPath h
    by_cases hcut : isWs seg = true ∧ rest = [] ∨ isApi seg = true
    · rw [if_pos ⟨rfl, hsuffix.mpr hcut⟩, if_pos hcut]
      rfl
    · rw [if_neg fun hc => hcut (hsuffix.mp hc.2), if_neg hcut, hcons,
        cutSuffix_segment (clean_no_slash (h seg List.mem_cons_self)),
        ih fun t ht => h t (List.mem_cons_of_mem seg ht)]

theorem cutSegments_front (segs : List (List Char)) : cutSegments segs <+: segs := by
  induction segs with
  | nil => exact List.prefix_refl []
  | cons t rest ih =>
    rw [cutSegments]
    split
    · exact List.nil_prefix
    · exact (List.prefix_cons_inj t).mpr ih

theorem relaySegments_front (segs : List (List Char)) : relaySegments segs <+: segs :=
  (cutSegments_front _).trans (List.rdropWhile_prefix List.isEmpty segs)

theorem relaySegments_clean (h : ∀ seg ∈ segs, Clean seg) : ∀ seg ∈ relaySegments segs, Clean seg :=
  fun seg hs => h seg ((relaySegments_front segs).subset hs)

/-- The two replacements take whole segments. -/
theorem relayPath_joinPath (h : ∀ seg ∈ segs, Clean seg) :
    relayPath (joinPath segs) = joinPath (relaySegments segs) := by
  rw [relayPath, rdropWhile_joinPath h, cutSuffix_joinPath fun seg hs =>
    h seg ((List.rdropWhile_prefix List.isEmpty segs).subset hs)]
  rfl

end path

/-! What is returned -/

section outcome
variable {b : Browser} {u : Address} {input url : List Char} {warning : Option String}

theorem relayScheme_scheme (u : Address) :
    (relayScheme u).scheme = .http ∨ (relayScheme u).scheme = .https := by
  unfold relayScheme
  split
  · exact .inl rfl
  split
  · exact .inr rfl
  · rename_i hws hwss
    cases hs : u.scheme with
    | http => exact .inl rfl
    | https => exact .inr rfl
    | ws => exact absurd hs hws
    | wss => exact absurd hs hwss

theorem relayScheme_self (h : u.scheme = .http ∨ u.scheme = .https) : relayScheme u = u := by
  rcases h with h | h <;> simp [relayScheme, h]

theorem setScheme_valid (hu : u.Valid b.idna) (s : Scheme) : (u.setScheme s).Valid b.idna := by
  refine ⟨hu.host, fun p hp => ?_, hu.path⟩
  rw [Option.mem_def, Address.setScheme] at hp
  dsimp only at hp
  split at hp
  · cases hp
  · rename_i hdefault
    exact ⟨(hu.port p hp).1, fun he => hdefault (he ▸ hp)⟩

theorem relayScheme_valid (hu : u.Valid b.idna) : (relayScheme u).Valid b.idna := by
  unfold relayScheme
  split
  · exact setScheme_valid hu _
  split
  · exact setScheme_valid hu _
  · exact hu

/-- Whether the page may talk to the relay at all. -/
def Reachable (b : Browser) (u : Address) : Prop :=
  ¬(b.protocol = "https:" ∧ u.scheme = .http ∧ isLocalHost u.hostname = false)

def warningFor (u : Address) : String :=
  if u.scheme = .http ∧ isRelayHost u.hostname = false then plainWarning else ""

theorem normalize_relay (h : normalizeServerUrl b input = .relay url warning) (hne : url ≠ []) :
    ∃ parsed, parse b.idna b.other (withScheme (trim input)) = .url parsed ∧
      (relayScheme parsed).username = [] ∧ Reachable b (relayScheme parsed) ∧
      url = (relayScheme parsed).scheme.start ++
        ((relayScheme parsed).authority ++ joinPath (relaySegments parsed.path)) ∧
      warning = some (warningFor (relayScheme parsed)) := by
  unfold normalizeServerUrl at h
  dsimp only at h
  split at h
  · cases h
    exact absurd rfl hne
  split at h
  · cases h
  · cases h
  rename_i parsed hparsed
  have hpath : (relayScheme parsed).pathname = joinPath parsed.path := by
    unfold relayScheme
    split
    · rfl
    split <;> rfl
  split at h
  · cases h
  rename_i huser
  split at h
  · cases h
  split at h
  · cases h
  rename_i hreach
  cases h
  rw [hpath, relayPath_joinPath (parse_valid hparsed).path]
  exact ⟨parsed, hparsed, not_not.mp (not_or.mp huser).1, hreach, rfl, rfl⟩

/-- What is returned for a URL without a user that the page may talk to. -/
theorem normalize_of_parse {parsed : Address} (hraw : trim input ≠ [])
    (hparsed : parse b.idna b.other (withScheme (trim input)) = .url parsed)
    (hsite : parsed.scheme = .http ∨ parsed.scheme = .https) (huser : parsed.username = [])
    (hpassword : parsed.password = []) (hreach : Reachable b parsed) :
    normalizeServerUrl b input = .relay
      (parsed.scheme.start ++ (parsed.authority ++ joinPath (relaySegments parsed.path)))
      (some (warningFor parsed)) := by
  have hvalid := parse_valid hparsed
  have hhost : parsed.hostname ≠ [] := hostname_ne_nil hvalid.host
  unfold normalizeServerUrl
  dsimp only
  rw [if_neg hraw, hparsed]
  dsimp only
  rw [relayScheme_self hsite, if_neg (by simp [huser, hpassword]), if_neg hhost,
    if_neg hreach, Address.pathname, relayPath_joinPath hvalid.path]
  rfl

theorem relay_reads (hu : u.Valid b.idna) :
    parse b.idna b.other (u.scheme.start ++ (u.authority ++ joinPath (relaySegments u.path))) =
      .url { u with username := [], password := [], path := rooted (relaySegments u.path) } :=
  parse_address hu (relaySegments_clean hu.path)

end outcome

/-! Hosts as they are typed -/

section typed
variable {raw cs : List Char}

theorem isLocalHost_lower (cs : List Char) : isLocalHost (lower cs) = isLocalHost cs := by
  rw [isLocalHost, lower_lower]
  rfl

theorem isPrivateIp_letters (h : isPrivateIp cs = true) : ∀ c ∈ cs, c.isDigit = true ∨ c = '.' := by
  have hjoin : ['.'].intercalate (cs.splitOn '.') = cs := List.intercalate_splitOn '.'
  unfold isPrivateIp at h
  split at h
  · rename_i p q r s hsplit
    simp only [Bool.and_eq_true, Bool.or_eq_true, decide_eq_true_eq, isNumber, isBetween] at h
    obtain ⟨⟨hpq, -, hr⟩, -, hs⟩ := h
    have hall : p.all Char.isDigit = true ∧ q.all Char.isDigit = true := by
      rcases hpq with ((⟨rfl, -, hq⟩ | ⟨rfl, rfl⟩) | ⟨rfl, hq⟩) | ⟨rfl, hq⟩
      · exact ⟨rfl, hq⟩
      · exact ⟨rfl, rfl⟩
      · exact ⟨rfl, hq.1.1.1⟩
      · exact ⟨rfl, hq.1.1.1⟩
    rw [← hjoin, hsplit]
    intro c hc
    rcases mem_intercalate hc with hc | ⟨l, hl, hc⟩
    · exact .inr (List.mem_singleton.mp hc)
    · have hdigits : l.all Char.isDigit = true := by
        simp only [List.mem_cons, List.not_mem_nil, or_false] at hl
        rcases hl with rfl | rfl | rfl | rfl
        · exact hall.1
        · exact hall.2
        · exact hr
        · exact hs
      exact .inl (List.all_eq_true.mp hdigits c hc)
  · cases h

/-- Digits and dots have no case. -/
theorem lower_self (h : ∀ c ∈ cs, c.isDigit = true ∨ c = '.') : lower cs = cs := by
  refine (List.map_congr_left fun c hc => ?_).trans (List.map_id cs)
  rcases h c hc with hd | rfl
  · exact (digit_plain hd).2.2
  · rfl

theorem isPrivateIp_lower (cs : List Char) : isPrivateIp (lower cs) = isPrivateIp cs := by
  have hkeeps (c : Char) : decide (c.toLower.isDigit = true ∨ c.toLower = '.') =
      decide (c.isDigit = true ∨ c = '.') :=
    toLower_keeps (f := fun c => decide (c.isDigit = true ∨ c = '.')) (by decide) c
  by_cases h : isPrivateIp cs = true
  · rw [lower_self (isPrivateIp_letters h)]
  · by_cases hlower : isPrivateIp (lower cs) = true
    · have hletters : ∀ c ∈ cs, c.isDigit = true ∨ c = '.' := fun c hc =>
        decide_eq_true_eq.mp ((hkeeps c).symm.trans
          (decide_eq_true (isPrivateIp_letters hlower c.toLower (List.mem_map_of_mem hc))))
      rw [lower_self hletters]
    · rw [Bool.eq_false_of_not_eq_true h, Bool.eq_false_of_not_eq_true hlower]

theorem isRelayHost_lower (cs : List Char) : isRelayHost (lower cs) = isRelayHost cs := by
  rw [isRelayHost, isLocalHost_lower, isPrivateIp_lower]
  rfl

theorem typedHost_split (raw : List Char) : ∃ after, raw = typedHost raw ++ after ∧
    (∀ c ∈ after.head?, c = ':' ∨ isEnd c = true) ∧ ':' ∉ typedHost raw := by
  refine ⟨raw.dropWhile (· ∉ ['/', ':', '?', '#']), List.takeWhile_append_dropWhile.symm, ?_, ?_⟩
  · intro c hc
    have hnot := List.head?_dropWhile_not (· ∉ ['/', ':', '?', '#']) raw
    rw [Option.mem_def.mp hc] at hnot
    simp only [decide_eq_false_iff_not, not_not, List.mem_cons, List.not_mem_nil, or_false] at hnot
    rcases hnot with rfl | rfl | rfl | rfl
    · exact .inr rfl
    · exact .inl rfl
    · exact .inr rfl
    · exact .inr rfl
  · intro hm
    exact absurd (List.all_eq_true.mp List.all_takeWhile ':' hm) (by decide)

end typed

section bare
variable {b : Browser} {input url : List Char} {warning : Option String}

theorem parse_scheme {idna : Idna} {other : List Char → Bool} {s : Scheme} {body : List Char}
    {u : Address} (h : parse idna other (s.start ++ body) = .url u) : u.scheme = s := by
  rw [parse_start] at h
  exact (parseAuthority_valid (elim_url h)).1

theorem http_front {s : Scheme} (hs : s = .http ∨ s = .https) (body : List Char) :
    Scheme.http.start <+: s.start ++ body ↔ s = .http := by
  rcases hs with rfl | rfl
  · exact iff_of_true (List.prefix_append _ _) rfl
  · refine iff_of_false ?_ (by decide)
    rintro ⟨t, ht⟩
    cases ht

/-- Without a scheme, the text before the first of `/:?#` decides. It is the host
that is contacted, but for its case, if and only if it is spelled as hosts are;
then the url begins with `http://` just where that host is local or private. -/
theorem scheme_of_typed_host (hbare : hasScheme (trim input) = false)
    (h : normalizeServerUrl b input = .relay url warning) (hne : url ≠ []) :
    ∃ u, parse b.idna b.other url = .url u ∧
      (Scheme.http.start <+: url ↔ isRelayHost (typedHost (trim input)) = true) ∧
      (Canonical (lower (typedHost (trim input))) ↔ u.hostname = lower (typedHost (trim input))) ∧
      (Canonical (lower (typedHost (trim input))) →
        (Scheme.http.start <+: url ↔ isLocalHost u.hostname = true ∨ isPrivateIp u.hostname = true)) := by
  obtain ⟨parsed, hparsed, huser, -, hurl, -⟩ := normalize_relay h hne
  obtain ⟨after, hraw, hafter, hcolon⟩ := typedHost_split (trim input)
  rw [withScheme, hbare, if_neg Bool.false_ne_true] at hparsed
  generalize typedHost (trim input) = host at hparsed hraw hcolon ⊢
  rw [hraw] at hparsed
  have hscheme := parse_scheme hparsed
  have hpage : parsed.scheme = .http ∨ parsed.scheme = .https := by
    rw [hscheme]
    split
    · exact .inl rfl
    · exact .inr rfl
  have hvalid := parse_valid hparsed
  rw [relayScheme_self hpage] at huser hurl
  have hhost (hc : Canonical (lower host)) : parsed.hostname = lower host :=
    parse_canonical hc hafter hparsed huser
  have hread := relay_reads (b := b) hvalid
  rw [← hurl] at hread
  have hdecides : Scheme.http.start <+: url ↔ isRelayHost host = true := by
    rw [hurl, http_front hpage, hscheme]
    split
    · exact iff_of_true rfl ‹_›
    · exact iff_of_false (by decide) ‹_›
  refine ⟨_, hread, hdecides, ⟨hhost, fun he => ?_⟩, fun hc => ?_⟩
  · have hno : ':' ∉ lower host := by
      intro hm
      obtain ⟨c, hc, he⟩ := List.mem_map.mp hm
      have hkeeps : decide (c.toLower = ':') = decide (c = ':') :=
        toLower_keeps (f := fun c => decide (c = ':')) (by decide) c
      rw [he] at hkeeps
      exact hcolon (of_decide_eq_true hkeeps.symm ▸ hc)
    rw [← he]
    exact canonical_serialize hvalid.host (by rw [← Address.hostname]; exact he ▸ hno)
  · change Scheme.http.start <+: url ↔
      isLocalHost parsed.hostname = true ∨ isPrivateIp parsed.hostname = true
    rw [hdecides, ← isRelayHost_lower, ← hhost hc, isRelayHost, Bool.or_eq_true]

/-- A browser on a page of its own, over `http:`. -/
def localPage : Browser := ⟨"http:", Idna.asciiOnly, fun _ => false⟩

def typedLoopback : List Char := ['[', ':', ':', '1', ']', ':', '8', '0', '0', '0']

def typedOffice : List Char := ['O', 'f', 'f', 'i', 'c', 'e', '.', 'l', 'o', 'c', 'a', 'l', '/', 'w', 's']

theorem office_over_http : ∃ u,
    parse localPage.idna localPage.other (Scheme.http.start ++ lower (typedHost typedOffice)) = .url u ∧
      u.hostname = lower (typedHost typedOffice) ∧
      (Scheme.http.start <+: Scheme.http.start ++ lower (typedHost typedOffice) ↔
        isLocalHost u.hostname = true ∨ isPrivateIp u.hostname = true) := by
  have hletters : (lower (typedHost typedOffice)).all (fun c => isAscii c && !isForbidden c) = true := by
    decide
  have hcanonical : Canonical (lower (typedHost typedOffice)) :=
    ⟨by decide, fun c hc => by simpa using List.all_eq_true.mp hletters c hc,
      fun h => absurd h (by decide)⟩
  have hrelay : normalizeServerUrl localPage typedOffice =
      .relay (Scheme.http.start ++ lower (typedHost typedOffice)) (some "") := by
    decide +kernel
  obtain ⟨u, hu, -, hspelled, hscheme⟩ := scheme_of_typed_host (by decide) hrelay (by decide)
  exact ⟨u, hu, hspelled.mp hcanonical, hscheme hcanonical⟩

/-- The text before the first colon of an IPv6 address is not a host. -/
theorem loopback_over_https : ¬∀ (b : Browser) (input url : List Char) (warning : Option String),
    hasScheme (trim input) = false → normalizeServerUrl b input = .relay url warning → url ≠ [] →
      ∃ u, parse b.idna b.other url = .url u ∧
        (Scheme.http.start <+: url ↔ isLocalHost u.hostname = true ∨ isPrivateIp u.hostname = true) := by
  intro hall
  obtain ⟨u, hu, hscheme⟩ := hall localPage typedLoopback (Scheme.https.start ++ typedLoopback) (some "")
    (by decide) (by decide +kernel) (by decide)
  have hread : parse localPage.idna localPage.other (Scheme.https.start ++ typedLoopback) =
      .url ⟨.https, [], [], .ipv6 [0, 0, 0, 0, 0, 0, 0, 1], some 8000, [[]]⟩ := by
    decide +kernel
  cases hu.symm.trans hread
  have hprefix := hscheme.mpr (.inl (by decide +kernel))
  exact absurd ((http_front (.inr rfl) typedLoopback).mp hprefix) (by decide)

end bare

end Lattix.Client.Config
