import Lattix.Client.Spelling
import Lattix.Lib.Url.Form

namespace Lattix.Client.Config
open Lib.Url

/-- A page: its own origin, and the relay that its storage holds. Storage that
is switched off reads as empty and takes nothing. -/
structure Page extends Browser where
  origin : List Char
  reads : Bool
  writes : Bool
  stored : Option (List Char)

def EXTENSION_DEFAULT : List Char :=
  ['h', 't', 't', 'p', ':', '/', '/', 'l', 'o', 'c', 'a', 'l', 'h', 'o', 's', 't', ':', '8', '0', '0', '0']

def Page.isExtension (p : Page) : Bool := p.protocol == "chrome-extension:"

def Page.readStore (p : Page) : List Char := if p.reads then p.stored.getD [] else []

def Page.writeStore (value : List Char) (p : Page) : Page :=
  if p.writes then { p with stored := if value = [] then none else some value } else p

/-- `.replace(/\/+$/, "")` -/
def cutSlashes (cs : List Char) : List Char := cs.rdropWhile (· = '/')

def Page.defaultServer (p : Page) : List Char := if p.isExtension then EXTENSION_DEFAULT else []

def Page.getServerUrl (p : Page) : List Char := cutSlashes (trim p.readStore)

def Page.setServerUrl (url : List Char) (p : Page) : Page := p.writeStore (cutSlashes (trim url))

def Page.apiBase (p : Page) : List Char :=
  if p.getServerUrl ≠ [] then
    if !p.isExtension ∧ p.getServerUrl = p.origin then [] else p.getServerUrl
  else p.defaultServer

def Page.serverOrigin (p : Page) : List Char := if p.apiBase = [] then p.origin else p.apiBase

/-- `.replace(/^http/i, "ws")` -/
def socketScheme (cs : List Char) : List Char :=
  if lower (cs.take 4) = ['h', 't', 't', 'p'] then ['w', 's'] ++ cs.drop 4 else cs

def Page.wsUrl (p : Page) : List Char := cutSlashes (socketScheme p.serverOrigin) ++ ['/', 'w', 's']

def Page.shareOrigin (p : Page) : List Char := cutSlashes p.serverOrigin

/-! A saved relay -/

section saved
variable {p : Page} {input url : List Char} {warning : Option String} {u : Address}

theorem cutSlashes_cutSlashes (cs : List Char) : cutSlashes (cutSlashes cs) = cutSlashes cs :=
  List.rdropWhile_idempotent _ cs

/-- The segments of a saved relay's path. -/
def savedSegments (segs : List (List Char)) : List (List Char) := (relaySegments segs).rdropWhile List.isEmpty

theorem savedSegments_front (segs : List (List Char)) : savedSegments segs <+: relaySegments segs :=
  List.rdropWhile_prefix _ _

theorem savedSegments_clean {segs : List (List Char)} (h : ∀ seg ∈ segs, Clean seg) :
    ∀ seg ∈ savedSegments segs, Clean seg :=
  fun seg hs => relaySegments_clean h seg ((savedSegments_front segs).subset hs)

theorem savedSegments_no_api (segs : List (List Char)) : ∀ seg ∈ savedSegments segs, isApi seg = false :=
  fun seg hs => (cutSegments_cases _).1 seg ((savedSegments_front segs).subset hs)

theorem authority_end (hu : u.Valid p.idna) : ∃ cs c, u.authority = cs ++ [c] ∧ c ≠ '/' := by
  have hne : u.authority ≠ [] := fun h => hostname_ne_nil hu.host (List.append_eq_nil_iff.mp h).1
  obtain ⟨cs, c, hc⟩ := (List.eq_nil_or_concat u.authority).resolve_left hne
  rw [List.concat_eq_append] at hc
  refine ⟨cs, c, hc, ?_⟩
  rintro rfl
  have := (authority_kept hu '/' (by rw [hc]; simp)).inside
  revert this
  decide

/-- The slashes that are cut off are those of empty segments. -/
theorem cutSlashes_address (hu : u.Valid p.idna) {segs : List (List Char)} (hsegs : ∀ t ∈ segs, Clean t)
    (front : List Char) : cutSlashes (front ++ (u.authority ++ joinPath segs)) =
      front ++ (u.authority ++ joinPath (segs.rdropWhile List.isEmpty)) := by
  obtain ⟨cs, c, hc, hne⟩ := authority_end hu
  have hcut := @rdropWhile_append Char (fun d => decide (d = '/')) (front ++ cs) (joinPath segs) c
    (by simpa using hne)
  rw [rdropWhile_joinPath hsegs] at hcut
  rw [cutSlashes, hc]
  simpa only [List.append_assoc] using hcut

theorem getServerUrl_set (hr : p.reads = true) (hw : p.writes = true)
    (hspace : ∀ c ∈ url, isSpace c = false) : (p.setServerUrl url).getServerUrl = cutSlashes url := by
  have hkept : ∀ c ∈ cutSlashes url, isSpace c = false :=
    fun c hc => hspace c ((List.rdropWhile_prefix _ url).subset hc)
  have hread : (p.setServerUrl url).readStore = cutSlashes url := by
    rw [Page.setServerUrl, trim_self hspace, Page.writeStore, if_pos hw, Page.readStore, if_pos hr]
    dsimp only
    split_ifs with hnil
    · exact hnil.symm
    · rfl
  rw [Page.getServerUrl, hread, trim_self hkept, cutSlashes_cutSlashes]

/-- A saved relay is the one in use, on its own page too. -/
theorem serverOrigin_stored (h : p.getServerUrl ≠ []) : p.serverOrigin = p.getServerUrl := by
  rw [Page.serverOrigin, Page.apiBase, if_pos h]
  by_cases hown : !p.isExtension ∧ p.getServerUrl = p.origin
  · rw [if_pos hown, if_pos rfl, hown.2]
  · rw [if_neg hown, if_neg h]

theorem start_ne_nil (s : Scheme) (rest : List Char) : s.start ++ rest ≠ [] := by
  cases s <;> exact List.cons_ne_nil _ _

/-- What an accepted address leaves: the scheme, host and port that were read, and a path
that neither ends in a slash nor has an API segment. -/
theorem saved_relay (hr : p.reads = true) (hw : p.writes = true)
    (h : normalizeServerUrl p.toBrowser input = .relay url warning) (hne : url ≠ []) :
    ∃ parsed, parse p.idna p.other (withScheme (trim input)) = .url parsed ∧
      Reachable p.toBrowser (relayScheme parsed) ∧
      (p.setServerUrl url).serverOrigin = (relayScheme parsed).scheme.start ++
        ((relayScheme parsed).authority ++ joinPath (savedSegments parsed.path)) := by
  obtain ⟨parsed, hparsed, -, hreach, hurl, -⟩ := normalize_relay h hne
  have hvalid := parse_valid hparsed
  have hrelay := relayScheme_valid hvalid
  have hspace : ∀ c ∈ url, isSpace c = false := by
    rw [hurl]
    exact relay_letters hrelay (relaySegments_clean hvalid.path)
  have hget := getServerUrl_set hr hw hspace
  have hcut := cutSlashes_address hrelay (relaySegments_clean hvalid.path) (relayScheme parsed).scheme.start
  rw [← hurl] at hcut
  refine ⟨parsed, hparsed, hreach, ?_⟩
  rw [serverOrigin_stored, hget, hcut]
  · rfl
  · rw [hget, hcut]
    exact start_ne_nil _ _

/-! Sockets -/

def socketOf : Scheme → Scheme
  | .http | .ws => .ws
  | .https | .wss => .wss

theorem socketScheme_start {s : Scheme} (hs : s = .http ∨ s = .https) (rest : List Char) :
    socketScheme (s.start ++ rest) = (socketOf s).start ++ rest := by
  rcases hs with rfl | rfl <;> rfl

theorem socketOf_port (s : Scheme) : (socketOf s).defaultPort = s.defaultPort := by
  cases s <;> rfl

/-- The same place over sockets. -/
def overSockets (u : Address) : Address := { u with scheme := socketOf u.scheme }

theorem overSockets_valid (hu : u.Valid p.idna) : (overSockets u).Valid p.idna :=
  ⟨hu.host, fun q hq => by rw [overSockets, socketOf_port]; exact hu.port q hq, hu.path⟩

/-- A path at the host and port of an address. -/
def place (u : Address) (path : List (List Char)) : Address := ⟨u.scheme, [], [], u.host, u.port, path⟩

theorem parse_place (hu : u.Valid p.idna) {segs : List (List Char)} (hsegs : ∀ t ∈ segs, Clean t) :
    parse p.idna p.other (u.scheme.start ++ (u.authority ++ joinPath segs)) = .url (place u (rooted segs)) :=
  parse_address hu hsegs

/-- The page's scheme comes back. -/
theorem relayScheme_overSockets (hu : u.Valid p.idna) (hs : u.scheme = .http ∨ u.scheme = .https)
    (path : List (List Char)) : relayScheme (place (overSockets u) path) = place u path := by
  obtain ⟨s, name, password, host, port, old⟩ := u
  rcases hs with hs | hs <;> cases hs
  · have hdefault : port ≠ some Scheme.http.defaultPort := fun he => (hu.port _ he).2 rfl
    exact congrArg (fun q => Address.mk .http [] [] host q path) (if_neg hdefault)
  · have hdefault : port ≠ some Scheme.https.defaultPort := fun he => (hu.port _ he).2 rfl
    exact congrArg (fun q => Address.mk .https [] [] host q path) (if_neg hdefault)

theorem cutSlashes_saved (hu : u.Valid p.idna) {segs : List (List Char)} (hsegs : ∀ t ∈ segs, Clean t)
    (s : Scheme) : cutSlashes (s.start ++ (u.authority ++ joinPath (savedSegments segs))) =
      s.start ++ (u.authority ++ joinPath (savedSegments segs)) := by
  rw [cutSlashes_address hu (savedSegments_clean hsegs), savedSegments, List.rdropWhile_idempotent]

def socketSegment : List Char := ['w', 's']

theorem socketSegment_clean : Clean socketSegment := by
  have hletters : socketSegment.all (fun c => !pathSet c && !isSlash c) = true := by decide
  exact ⟨fun c hc => by simpa using List.all_eq_true.mp hletters c hc, by decide, by decide⟩

theorem joinPath_snoc (segs : List (List Char)) (seg : List Char) :
    joinPath (segs ++ [seg]) = joinPath segs ++ '/' :: seg := by
  simp [joinPath]

theorem snoc_clean {segs : List (List Char)} {seg : List Char} (h : ∀ t ∈ segs, Clean t) (hseg : Clean seg) :
    ∀ t ∈ segs ++ [seg], Clean t := by
  intro t ht
  rcases List.mem_append.mp ht with ht | ht
  · exact h t ht
  · rw [List.mem_singleton.mp ht]
    exact hseg

theorem relaySegments_socket (segs : List (List Char)) :
    relaySegments (savedSegments segs ++ [socketSegment]) = savedSegments segs := by
  rw [relaySegments, List.rdropWhile_concat_neg _ _ _ (by decide)]
  exact cutSegments_cut (savedSegments_no_api segs) (.inr ⟨by decide, rfl⟩)

/-- What is returned for a URL without a user, of any of the four schemes. -/
theorem normalize_of_relayScheme {parsed : Address} (hraw : trim input ≠ [])
    (hparsed : parse p.idna p.other (withScheme (trim input)) = .url parsed)
    (huser : (relayScheme parsed).username = []) (hpassword : (relayScheme parsed).password = [])
    (hreach : Reachable p.toBrowser (relayScheme parsed))
    (hpath : (relayScheme parsed).path = parsed.path) :
    ∃ w, normalizeServerUrl p.toBrowser input = .relay ((relayScheme parsed).scheme.start ++
      ((relayScheme parsed).authority ++ joinPath (relaySegments parsed.path))) w := by
  have hvalid := parse_valid hparsed
  have hhost : (relayScheme parsed).hostname ≠ [] := hostname_ne_nil (relayScheme_valid hvalid).host
  unfold normalizeServerUrl
  dsimp only
  rw [if_neg hraw, hparsed]
  dsimp only
  rw [if_neg (by simp [huser, hpassword]), if_neg hhost, if_neg hreach, Address.pathname, hpath,
    relayPath_joinPath hvalid.path]
  exact ⟨_, rfl⟩

/-- A desktop app, with nothing saved yet. -/
def desktopPage : Page := ⟨localPage, EXTENSION_DEFAULT, true, true, none⟩

theorem office_accepted : normalizeServerUrl desktopPage.toBrowser typedOffice =
    .relay (Scheme.http.start ++ lower (typedHost typedOffice)) (some "") := by
  decide +kernel

/-- The page of a shared link is the relay's own, whatever its fragment says. -/
theorem parse_shared (hr : p.reads = true) (hw : p.writes = true)
    (h : normalizeServerUrl p.toBrowser input = .relay url warning) (hne : url ≠ [])
    {fragment : List Char} (hfragment : ∀ c ∈ fragment, isBlank c = false) :
    '#' ∉ (p.setServerUrl url).shareOrigin ∧
    ∃ parsed segs, parse p.idna p.other (withScheme (trim input)) = .url parsed ∧
      parse p.idna p.other (p.setServerUrl url).serverOrigin =
        .url (place (relayScheme parsed) (rooted segs)) ∧
      parse p.idna p.other ((p.setServerUrl url).shareOrigin ++ '/' :: '#' :: fragment) =
        .url (place (relayScheme parsed) (segs ++ [[]])) := by
  obtain ⟨parsed, hparsed, -, horigin⟩ := saved_relay hr hw h hne
  have hclean := (parse_valid hparsed).path
  have hrelay := relayScheme_valid (parse_valid hparsed)
  have hsaved := savedSegments_clean hclean
  have hlong := snoc_clean hsaved clean_nil
  have hshare : (p.setServerUrl url).shareOrigin = (relayScheme parsed).scheme.start ++
      ((relayScheme parsed).authority ++ joinPath (savedSegments parsed.path)) := by
    rw [Page.shareOrigin, horigin, cutSlashes_saved hrelay hclean]
  refine ⟨?_, parsed, savedSegments parsed.path, hparsed, by rw [horigin, parse_place hrelay hsaved], ?_⟩
  · rw [hshare]
    intro hm
    rcases List.mem_append.mp hm with hm | hm
    · have hstart : '#' ∉ (relayScheme parsed).scheme.start := by
        cases (relayScheme parsed).scheme <;> decide
      exact hstart hm
    rcases List.mem_append.mp hm with hm | hm
    · exact absurd (authority_kept hrelay _ hm).inside (by decide)
    · exact (mem_joinPath hsaved _ hm).2.1 rfl
  · have hsplit : (p.setServerUrl url).shareOrigin ++ '/' :: '#' :: fragment =
        (relayScheme parsed).scheme.start ++ ((relayScheme parsed).authority ++
          (joinPath (savedSegments parsed.path ++ [[]]) ++ '#' :: fragment)) := by
      rw [hshare, joinPath_snoc]
      simp only [List.append_assoc, List.cons_append, List.nil_append]
    rw [hsplit, parse_fragment hrelay hlong hfragment, parse_place hrelay hlong, rooted,
      if_neg (by simp)]

end saved

end Lattix.Client.Config
