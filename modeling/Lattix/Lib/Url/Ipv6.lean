import Lattix.Lib.Url.Ipv4

namespace Lattix.Lib.Url
open Lib.Json

/-- A number of the IPv4 address at the end of an IPv6 address. -/
def ipv4Piece (cs : List Char) : Option Nat :=
  if cs ≠ [] ∧ cs.all Char.isDigit ∧ value 10 cs ≤ 255 ∧ (cs.head? = some '0' → cs.length = 1) then
    some (value 10 cs)
  else none

def ipv4Tail (cs : List Char) : Option (List Nat) :=
  match (cs.splitOn '.').mapM ipv4Piece with
  | some [a, b, c, d] => some [256 * a + b, 256 * c + d]
  | _ => none

/-- The loop of the IPv6 parser: `count` digits of a piece, worth `v`, have been
read, and the piece began with `start`. `::` is a piece of its own, and the pieces
after it are moved to the end. -/
def parsePieces : List Char → List Char → Nat → Nat → List Nat → Option Nat →
    Option (List Nat × Option Nat)
  | [], _, count, v, pieces, compress => some (if count = 0 then pieces else pieces ++ [v], compress)
  | c :: rest, start, count, v, pieces, compress =>
    if pieces.length = 8 then none
    else if isDigitOf 16 c ∧ count < 4 then
      parsePieces rest start (count + 1) (16 * v + digitValue c) pieces compress
    else if c = ':' then
      if count = 0 then
        if compress.isSome then none
        else parsePieces rest rest 0 0 (pieces ++ [0]) (some (pieces.length + 1))
      else if rest = [] then none
      else parsePieces rest rest 0 0 (pieces ++ [v]) compress
    else if c = '.' ∧ count ≠ 0 ∧ pieces.length ≤ 6 then
      (ipv4Tail start).map fun ps => (pieces ++ ps, compress)
    else none

def spread : List Nat × Option Nat → Option (List Nat)
  | (pieces, none) => if pieces.length = 8 then some pieces else none
  | (pieces, some k) =>
    some (pieces.take k ++ List.replicate (8 - pieces.length) 0 ++ pieces.drop k)

def parseIpv6 (cs : List Char) : Option (List Nat) :=
  match cs with
  | ':' :: ':' :: rest => (parsePieces rest rest 0 0 [0] (some 1)).bind spread
  | ':' :: _ => none
  | _ => (parsePieces cs cs 0 0 [] none).bind spread

def hexDigit (d : Nat) : Char := if d < 10 then Char.ofNat (48 + d) else Char.ofNat (87 + d)

def hex (n : Nat) : List Char := if n = 0 then ['0'] else (Nat.digits 16 n).reverse.map hexDigit

/-- Where the first longest run of zeros starts, and its length. -/
def longestRun : List Nat → Nat × Nat
  | [] => (0, 0)
  | p :: ps =>
    let n := ((p :: ps).takeWhile (· = 0)).length
    let (i, m) := longestRun ps
    if m ≤ n then (0, n) else (i + 1, m)

def joinPieces (pieces : List Nat) : List Char := [':'].intercalate (pieces.map hex)

def serializeIpv6 (pieces : List Nat) : List Char :=
  let (i, n) := longestRun pieces
  if n ≤ 1 then joinPieces pieces
  else joinPieces (pieces.take i) ++ ':' :: ':' :: joinPieces (pieces.drop (i + n))

/-! Hexadecimal numbers -/

theorem hexDigit_spec : ∀ d < 16, isDigitOf 16 (hexDigit d) = true ∧ digitValue (hexDigit d) = d := by
  decide

theorem hex_letters {n : Nat} : ∀ c ∈ hex n, ∃ d < 16, hexDigit d = c := by
  intro c hc
  unfold hex at hc
  split at hc
  · rw [List.mem_singleton.mp hc]
    exact ⟨0, by decide, rfl⟩
  · obtain ⟨d, hd, rfl⟩ := List.mem_map.mp hc
    exact ⟨d, Nat.digits_lt_base (by decide) (List.mem_reverse.mp hd), rfl⟩

theorem hex_digits {n : Nat} : ∀ c ∈ hex n, isDigitOf 16 c = true := by
  intro c hc
  obtain ⟨d, hd, rfl⟩ := hex_letters c hc
  exact (hexDigit_spec d hd).1

theorem value_reverse {ds : List Nat} (h : ∀ d ∈ ds, d < 16) :
    value 16 (ds.reverse.map hexDigit) = Nat.ofDigits 16 ds := by
  induction ds with
  | nil => rfl
  | cons d ds ih =>
    have hi := ih fun e he => h e (List.mem_cons_of_mem _ he)
    have hd := (hexDigit_spec d (h d List.mem_cons_self)).2
    simp only [value, List.reverse_cons, List.map_append, List.map_cons, List.map_nil,
      List.foldl_append, List.foldl_cons, List.foldl_nil, hd, Nat.ofDigits_cons] at hi ⊢
    rw [hi]
    omega

theorem value_hex (n : Nat) : value 16 (hex n) = n := by
  unfold hex
  split
  · rename_i h
    rw [h]
    rfl
  · rw [value_reverse fun d hd => Nat.digits_lt_base (by decide) hd, Nat.ofDigits_digits]

theorem hex_length {n : Nat} (h : n < 16 ^ 4) : 0 < (hex n).length ∧ (hex n).length ≤ 4 := by
  unfold hex
  split
  · decide
  · rename_i hn
    rw [List.length_map, List.length_reverse]
    exact ⟨List.length_pos_iff.mpr (Nat.digits_ne_nil_iff_ne_zero.mpr hn),
      (Nat.digits_length_le_iff (by decide) n).mpr h⟩

/-! Pieces -/

theorem parsePieces_digits {ds rest start : List Char} {count v : Nat} {ps : List Nat}
    {compress : Option Nat} (hds : ∀ c ∈ ds, isDigitOf 16 c = true) (hcount : count + ds.length ≤ 4)
    (hps : ps.length < 8) : parsePieces (ds ++ rest) start count v ps compress =
      parsePieces rest start (count + ds.length)
        (ds.foldl (fun n c => 16 * n + digitValue c) v) ps compress := by
  induction ds generalizing count v with
  | nil => rfl
  | cons c ds ih =>
    rw [List.length_cons] at hcount
    rw [List.cons_append, parsePieces, if_neg hps.ne, if_pos ⟨hds c List.mem_cons_self, by omega⟩,
      ih (fun d hd => hds d (List.mem_cons_of_mem c hd)) (by omega), List.length_cons, List.foldl_cons,
      Nat.add_assoc, Nat.add_comm 1]

section pieces
variable {v : Nat} {ps vs : List Nat} {rest start : List Char} {compress : Option Nat}

theorem parsePieces_hex (hv : v < 16 ^ 4) (hps : ps.length < 8) :
    parsePieces (hex v ++ rest) start 0 0 ps compress =
      parsePieces rest start (hex v).length v ps compress := by
  rw [parsePieces_digits hex_digits (by simpa using (hex_length hv).2) hps, Nat.zero_add]
  exact congrArg (parsePieces rest start _ · ps compress) (value_hex v)

theorem colon_no_digit {count : Nat} : ¬(isDigitOf 16 ':' = true ∧ count < 4) := fun h =>
  absurd h.1 (by decide)

theorem parsePieces_colon (hv : v < 16 ^ 4) (hps : ps.length < 8) (hrest : rest ≠ []) :
    parsePieces (hex v ++ ':' :: rest) start 0 0 ps compress =
      parsePieces rest rest 0 0 (ps ++ [v]) compress := by
  rw [parsePieces_hex hv hps, parsePieces, if_neg hps.ne, if_neg colon_no_digit, if_pos rfl,
    if_neg (hex_length hv).1.ne', if_neg hrest]

theorem hex_ne_nil (hv : v < 16 ^ 4) : hex v ≠ [] := List.length_pos_iff.mp (hex_length hv).1

theorem joinPieces_ne_nil {ws : List Nat} (h : ws ≠ []) (hws : ∀ w ∈ ws, w < 16 ^ 4) :
    joinPieces ws ≠ [] := by
  have hw {w : Nat} (hw : w ∈ ws) := hex_ne_nil (hws w hw)
  rcases ws with _ | ⟨w, _ | ⟨w', ws⟩⟩
  · exact absurd rfl h
  · simpa [joinPieces] using hw List.mem_cons_self
  · exact fun he => hw List.mem_cons_self (List.append_eq_nil_iff.mp he).1

/-- Joined pieces up to the end. -/
theorem parsePieces_join (hvs : ∀ w ∈ vs, w < 16 ^ 4) (hps : ps.length + vs.length ≤ 8) :
    parsePieces (joinPieces vs) start 0 0 ps compress = some (ps ++ vs, compress) := by
  induction vs generalizing ps start with
  | nil => rw [List.append_nil]; rfl
  | cons v vs ih =>
    have hv := hvs v List.mem_cons_self
    have hrest := fun w hw => hvs w (List.mem_cons_of_mem v hw)
    rw [List.length_cons] at hps
    cases vs with
    | nil =>
      have h : parsePieces (hex v ++ []) start 0 0 ps compress =
          parsePieces [] start (hex v).length v ps compress := parsePieces_hex hv (by omega)
      rw [List.append_nil] at h
      simp only [joinPieces, List.map_cons, List.map_nil, List.intercalate_singleton]
      rw [h, parsePieces, if_neg (hex_length hv).1.ne']
    | cons w ws =>
      have hjoin : joinPieces (v :: w :: ws) = hex v ++ ':' :: joinPieces (w :: ws) := rfl
      rw [hjoin, parsePieces_colon hv (by omega) (joinPieces_ne_nil (List.cons_ne_nil w ws) hrest),
        ih hrest (by simp only [List.length_append, List.length_cons, List.length_nil] at hps ⊢; omega),
        List.append_assoc]
      rfl

/-- Joined pieces up to `::`. -/
theorem parsePieces_compress (hne : vs ≠ []) (hvs : ∀ w ∈ vs, w < 16 ^ 4)
    (hps : ps.length + vs.length < 8) :
    parsePieces (joinPieces vs ++ ':' :: ':' :: rest) start 0 0 ps none =
      parsePieces rest rest 0 0 (ps ++ vs ++ [0]) (some (ps.length + vs.length + 1)) := by
  induction vs generalizing ps start with
  | nil => exact absurd rfl hne
  | cons v vs ih =>
    have hv := hvs v List.mem_cons_self
    have hrest := fun w hw => hvs w (List.mem_cons_of_mem v hw)
    rw [List.length_cons] at hps
    cases vs with
    | nil =>
      simp only [joinPieces, List.map_cons, List.map_nil, List.intercalate_singleton]
      have hroom : (ps ++ [v]).length ≠ 8 := by
        simp only [List.length_append, List.length_cons, List.length_nil] at hps ⊢
        omega
      rw [parsePieces_colon hv (by omega) (List.cons_ne_nil _ _), parsePieces, if_neg hroom,
        if_neg colon_no_digit, if_pos rfl, if_pos rfl, if_neg (by simp)]
      simp
    | cons w ws =>
      have hjoin : joinPieces (v :: w :: ws) = hex v ++ ':' :: joinPieces (w :: ws) := rfl
      rw [hjoin, List.append_assoc, List.cons_append, parsePieces_colon hv (by omega) (by simp),
        ih (List.cons_ne_nil w ws) hrest
          (by simp only [List.length_append, List.length_cons, List.length_nil] at hps ⊢; omega)]
      simp [Nat.add_assoc, Nat.add_comm]

end pieces

/-! Runs of zeros -/

theorem longestRun_spec (ps : List Nat) : ∃ before after, ps =
    before ++ List.replicate (longestRun ps).2 0 ++ after ∧ before.length = (longestRun ps).1 := by
  induction ps with
  | nil => exact ⟨[], [], rfl, rfl⟩
  | cons p ps ih =>
    obtain ⟨before, after, hps, hlen⟩ := ih
    rw [longestRun]
    dsimp only
    split
    · refine ⟨[], (p :: ps).dropWhile (· = 0), ?_, rfl⟩
      have hzeros : (p :: ps).takeWhile (· = 0) =
          List.replicate ((p :: ps).takeWhile (· = 0)).length 0 := by
        rw [List.eq_replicate_iff]
        exact ⟨rfl, fun q hq => by simpa using List.all_eq_true.mp List.all_takeWhile q hq⟩
      rw [List.nil_append, ← hzeros, List.takeWhile_append_dropWhile]
    · refine ⟨p :: before, after, ?_, by rw [List.length_cons, hlen]⟩
      rw [List.cons_append, List.cons_append, ← hps]

theorem spread_none {ps : List Nat} (h : ps.length = 8) : spread (ps, none) = some ps :=
  if_pos h

/-- The pieces after `::` end up behind the zeros left out. -/
theorem spread_some {before after : List Nat} {n : Nat} (hn : 1 ≤ n)
    (hlen : before.length + n + after.length = 8) :
    spread (before ++ [0] ++ after, some (before.length + 1)) =
      some (before ++ List.replicate n 0 ++ after) := by
  have htake : (before ++ [0] ++ after).take (before.length + 1) = before ++ [0] := by
    rw [List.take_append_of_le_length (by simp), List.take_of_length_le (by simp)]
  have hdrop : (before ++ [0] ++ after).drop (before.length + 1) = after := by
    rw [List.drop_append_of_le_length (by simp), List.drop_of_length_le (by simp), List.nil_append]
  have hzeros : 8 - (before ++ [0] ++ after).length = n - 1 := by
    simp only [List.length_append, List.length_singleton]
    omega
  have hcons : List.replicate n 0 = 0 :: List.replicate (n - 1) 0 := by
    rw [← List.replicate_succ, Nat.sub_add_cancel hn]
  rw [spread, htake, hdrop, hzeros, hcons, List.append_assoc before]
  rfl

theorem head_hex (v : Nat) : (hex v).head? ≠ some ':' := by
  intro h
  exact absurd (hex_digits ':' (List.mem_of_mem_head? h)) (by decide)

theorem head_join {ws : List Nat} (hws : ∀ w ∈ ws, w < 16 ^ 4) (rest : List Char) (hne : ws ≠ []) :
    (joinPieces ws ++ rest).head? ≠ some ':' := by
  obtain ⟨w, ws, rfl⟩ := List.exists_cons_of_ne_nil hne
  have hw := hex_ne_nil (hws w List.mem_cons_self)
  have hjoin : ∃ tail, joinPieces (w :: ws) ++ rest = hex w ++ tail := by
    cases ws with
    | nil => exact ⟨rest, by simp [joinPieces]⟩
    | cons w' ws =>
      exact ⟨':' :: joinPieces (w' :: ws) ++ rest, List.append_assoc (hex w) _ rest⟩
  obtain ⟨tail, htail⟩ := hjoin
  rw [htail, List.head?_append_of_ne_nil _ hw]
  exact head_hex w

theorem parseIpv6_of_head {cs : List Char} (h : cs.head? ≠ some ':') :
    parseIpv6 cs = (parsePieces cs cs 0 0 [] none).bind spread := by
  unfold parseIpv6
  split
  · exact absurd rfl h
  · exact absurd rfl h
  · rfl

/-- An address reads back from its text. -/
theorem parseIpv6_serialize {ps : List Nat} (hlen : ps.length = 8) (hps : ∀ p ∈ ps, p < 16 ^ 4) :
    parseIpv6 (serializeIpv6 ps) = some ps := by
  obtain ⟨before, after, hsplit, hbefore⟩ := longestRun_spec ps
  rw [serializeIpv6]
  dsimp only
  generalize (longestRun ps).1 = i at hbefore
  generalize (longestRun ps).2 = n at hsplit
  split
  · have hne : ps ≠ [] := by
      rintro rfl
      cases hlen
    have hhead := head_join hps [] hne
    rw [List.append_nil] at hhead
    rw [parseIpv6_of_head hhead, parsePieces_join hps (by rw [hlen, List.length_nil]),
      List.nil_append]
    exact spread_none hlen
  · rename_i hn
    have htake : ps.take i = before := by
      rw [hsplit, ← hbefore, List.append_assoc, List.take_left]
    have hdrop : ps.drop (i + n) = after := by
      have hi : i + n = (before ++ List.replicate n 0).length := by simp [hbefore]
      rw [hsplit, hi, List.drop_left]
    have hsum : before.length + n + after.length = 8 := by
      rw [← hlen, hsplit]
      simp only [List.length_append, List.length_replicate]
    have hb (p) (hp : p ∈ before) : p < 16 ^ 4 := hps p (by rw [hsplit]; simp [hp])
    have ha (p) (hp : p ∈ after) : p < 16 ^ 4 := hps p (by rw [hsplit]; simp [hp])
    have hspread : spread (before ++ [0] ++ after, some (before.length + 1)) =
        some (before ++ List.replicate n 0 ++ after) := spread_some (by omega) hsum
    rw [htake, hdrop]
    cases before with
    | nil =>
      have hroom : [0].length + after.length ≤ 8 := by
        simp only [List.length_nil, List.length_singleton] at hsum ⊢
        omega
      have hjoin : parsePieces (joinPieces after) (joinPieces after) 0 0 [0] (some 1) =
          some ([0] ++ after, some 1) := parsePieces_join ha hroom
      change (parsePieces (joinPieces after) (joinPieces after) 0 0 [0] (some 1)).bind spread = _
      rw [hjoin, Option.bind_some, hsplit]
      exact hspread
    | cons p before =>
      have hroom : ([] ++ (p :: before) ++ [0]).length + after.length ≤ 8 := by
        simp only [List.length_append, List.length_nil, List.length_cons] at hsum ⊢
        omega
      rw [parseIpv6_of_head (head_join hb _ (List.cons_ne_nil p before)),
        parsePieces_compress (List.cons_ne_nil p before) hb (by rw [List.length_nil]; omega),
        parsePieces_join ha hroom, List.nil_append, List.length_nil, Nat.zero_add, Option.bind_some, hsplit]
      exact hspread

/-! What is read -/

theorem ipv4Piece_le {cs : List Char} {n : Nat} (h : ipv4Piece cs = some n) : n ≤ 255 := by
  unfold ipv4Piece at h
  split at h
  · rename_i hc
    cases h
    exact hc.2.2.1
  · cases h

theorem mem_mapM {α β : Type} {f : α → Option β} {xs : List α} {ys : List β}
    (h : xs.mapM f = some ys) : ∀ y ∈ ys, ∃ x ∈ xs, f x = some y := by
  induction xs generalizing ys with
  | nil => cases h; simp
  | cons x xs ih =>
    simp only [List.mapM_cons, Option.bind_eq_bind, Option.bind_eq_some_iff] at h
    obtain ⟨z, hz, zs, hzs, h⟩ := h
    cases h
    intro y hy
    rcases List.mem_cons.mp hy with rfl | hy
    · exact ⟨x, List.mem_cons_self, hz⟩
    · obtain ⟨x', hx', h'⟩ := ih hzs y hy
      exact ⟨x', List.mem_cons_of_mem x hx', h'⟩

theorem ipv4Tail_spec {cs : List Char} {ps : List Nat} (h : ipv4Tail cs = some ps) :
    ps.length = 2 ∧ ∀ p ∈ ps, p < 16 ^ 4 := by
  unfold ipv4Tail at h
  split at h
  · rename_i a b c d hpieces
    cases h
    have hle (n) (hn : n ∈ [a, b, c, d]) : n ≤ 255 := by
      obtain ⟨l, -, hl⟩ := mem_mapM hpieces n hn
      exact ipv4Piece_le hl
    have ha := hle a (by simp)
    have hb := hle b (by simp)
    have hc := hle c (by simp)
    have hd := hle d (by simp)
    refine ⟨rfl, fun p hp => ?_⟩
    rcases List.mem_pair.mp hp with rfl | rfl <;> omega
  · cases h

theorem isDigitOf_lt {radix : Nat} {c : Char} (h : isDigitOf radix c = true) : digitValue c < radix :=
  of_decide_eq_true h

/-- What the loop keeps: a piece begun still fits, and so does its value. -/
theorem parsePieces_valid {cs start : List Char} {count v : Nat} {ps qs : List Nat}
    {compress k : Option Nat} (hps : ∀ p ∈ ps, p < 16 ^ 4) (hv : v < 16 ^ count) (hcount : count ≤ 4)
    (hlen : ps.length ≤ 8) (hroom : count ≠ 0 → ps.length < 8)
    (h : parsePieces cs start count v ps compress = some (qs, k)) :
    qs.length ≤ 8 ∧ ∀ q ∈ qs, q < 16 ^ 4 := by
  have hpiece {count v : Nat} (hv : v < 16 ^ count) (hcount : count ≤ 4) : v < 16 ^ 4 :=
    hv.trans_le (Nat.pow_le_pow_right (by decide) hcount)
  have hsnoc {ps : List Nat} {v : Nat} (hps : ∀ p ∈ ps, p < 16 ^ 4) (hv : v < 16 ^ 4) :
      ∀ p ∈ ps ++ [v], p < 16 ^ 4 := by
    intro p hp
    rcases List.mem_append.mp hp with hp | hp
    · exact hps p hp
    · rw [List.mem_singleton.mp hp]
      exact hv
  induction cs generalizing start count v ps compress with
  | nil =>
    cases h
    split
    · exact ⟨hlen, hps⟩
    · rename_i hc
      refine ⟨?_, hsnoc hps (hpiece hv hcount)⟩
      have := hroom hc
      simp only [List.length_append, List.length_singleton]
      omega
  | cons c rest ih =>
    rw [parsePieces] at h
    split at h
    · cases h
    rename_i hfull
    have hnext (v) : (ps ++ [v]).length ≤ 8 := by
      simp only [List.length_append, List.length_singleton]
      omega
    split at h
    · rename_i hd
      refine ih hps ?_ hd.2 hlen (fun _ => by omega) h
      have := isDigitOf_lt hd.1
      rw [Nat.pow_succ]
      omega
    split at h
    · split at h
      · split at h
        · cases h
        · exact ih (hsnoc hps (by decide)) (by decide) (by decide) (hnext 0) (absurd rfl) h
      · split at h
        · cases h
        · exact ih (hsnoc hps (hpiece hv hcount)) (by decide) (by decide) (hnext v) (absurd rfl) h
    split at h
    · rename_i hdot
      obtain ⟨tail, htail, he⟩ := Option.map_eq_some_iff.mp h
      cases he
      obtain ⟨htwo, hsmall⟩ := ipv4Tail_spec htail
      refine ⟨?_, fun q hq => (List.mem_append.mp hq).elim (hps q) (hsmall q)⟩
      have := hdot.2.2
      simp only [List.length_append]
      omega
    · cases h

theorem spread_valid {qs ps : List Nat} {k : Option Nat} (hlen : qs.length ≤ 8)
    (hqs : ∀ q ∈ qs, q < 16 ^ 4) (h : spread (qs, k) = some ps) :
    ps.length = 8 ∧ ∀ p ∈ ps, p < 16 ^ 4 := by
  cases k with
  | none =>
    by_cases h8 : qs.length = 8
    · rw [spread_none h8] at h
      cases h
      exact ⟨h8, hqs⟩
    · cases (if_neg h8).symm.trans h
  | some k =>
    cases h
    refine ⟨?_, fun p hp => ?_⟩
    · simp only [List.length_append, List.length_take, List.length_replicate, List.length_drop]
      omega
    · rcases List.mem_append.mp hp with hp | hp
      · rcases List.mem_append.mp hp with hp | hp
        · exact hqs p (List.mem_of_mem_take hp)
        · rw [List.eq_of_mem_replicate hp]
          decide
      · exact hqs p (List.mem_of_mem_drop hp)

theorem parseIpv6_valid {cs : List Char} {ps : List Nat} (h : parseIpv6 cs = some ps) :
    ps.length = 8 ∧ ∀ p ∈ ps, p < 16 ^ 4 := by
  have hloop {text : List Char} {qs : List Nat} {k : Option Nat} (hqs : ∀ q ∈ qs, q < 16 ^ 4)
      (hlen : qs.length ≤ 8) (h : (parsePieces text text 0 0 qs k).bind spread = some ps) :
      ps.length = 8 ∧ ∀ p ∈ ps, p < 16 ^ 4 := by
    obtain ⟨⟨rs, j⟩, hrs, hspread⟩ := Option.bind_eq_some_iff.mp h
    obtain ⟨hlen', hrs'⟩ := parsePieces_valid hqs (by decide) (by decide) hlen (absurd rfl) hrs
    exact spread_valid hlen' hrs' hspread
  unfold parseIpv6 at h
  split at h
  · exact hloop (by simp) (by decide) h
  · cases h
  · exact hloop (by simp) (by decide) h

theorem mem_intercalate {α : Type} {sep : List α} {ls : List (List α)} {c : α}
    (h : c ∈ sep.intercalate ls) : c ∈ sep ∨ ∃ l ∈ ls, c ∈ l := by
  induction ls with
  | nil => cases h
  | cons l ls ih =>
    cases ls with
    | nil =>
      rw [List.intercalate_singleton] at h
      exact .inr ⟨l, List.mem_singleton_self l, h⟩
    | cons l' ls =>
      rw [List.intercalate_cons_cons] at h
      rcases List.mem_append.mp h with h | h
      · rcases List.mem_append.mp h with h | h
        · exact .inr ⟨l, List.mem_cons_self, h⟩
        · exact .inl h
      · exact (ih h).imp_right fun ⟨m, hm, hc⟩ => ⟨m, List.mem_cons_of_mem l hm, hc⟩

/-- The letters of an address. -/
theorem serializeIpv6_letters (ps : List Nat) :
    ∀ c ∈ serializeIpv6 ps, (∃ d < 16, hexDigit d = c) ∨ c = ':' := by
  have hjoin (ws : List Nat) (c : Char) (hc : c ∈ joinPieces ws) :
      (∃ d < 16, hexDigit d = c) ∨ c = ':' := by
    rcases mem_intercalate hc with hc | ⟨l, hl, hc⟩
    · exact .inr (List.mem_singleton.mp hc)
    · obtain ⟨w, -, rfl⟩ := List.mem_map.mp hl
      exact .inl (hex_letters c hc)
  intro c hc
  rw [serializeIpv6] at hc
  dsimp only at hc
  split at hc
  · exact hjoin ps c hc
  · rcases List.mem_append.mp hc with hc | hc
    · exact hjoin _ c hc
    · rcases List.mem_cons.mp hc with rfl | hc
      · exact .inr rfl
      · rcases List.mem_cons.mp hc with rfl | hc
        · exact .inr rfl
        · exact hjoin _ c hc

theorem colon_mem {ps : List Nat} (h : ps.length = 8) : ':' ∈ serializeIpv6 ps := by
  rw [serializeIpv6]
  dsimp only
  split
  · rcases ps with _ | ⟨p, _ | ⟨q, qs⟩⟩
    · cases h
    · cases h
    · have hjoin : joinPieces (p :: q :: qs) = hex p ++ ':' :: joinPieces (q :: qs) := rfl
      rw [hjoin]
      exact List.mem_append_right _ List.mem_cons_self
  · exact List.mem_append_right _ List.mem_cons_self

end Lattix.Lib.Url
