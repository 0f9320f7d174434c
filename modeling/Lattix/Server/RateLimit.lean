import Mathlib.Data.List.AList
import Lattix.Lib.Windows
import Lattix.Server.Requests

namespace Lattix.Server
open Lib.Windows

inductive Scope where
  | register
  | login
deriving DecidableEq, Repr

def Scope.name : Scope → String
  | .register => "register"
  | .login => "login"

/-- A request to an endpoint with a limit. A client may be without an address. -/
structure Attempt (T : Type*) where
  scope : Scope
  client : Option String
  time : T
deriving Repr

def Attempt.ip {T : Type*} (a : Attempt T) : String := a.client.getD "unknown"

def Attempt.key {T : Type*} (a : Attempt T) : String := a.scope.name ++ ":" ++ a.ip

/-- `_rate_buckets`: a dict of deques. -/
abbrev Buckets (T : Type*) := AList fun _ : String => List T

def Buckets.bucket {T : Type*} (b : Buckets T) (key : String) : List T := (b.lookup key).getD []

def Buckets.len {T : Type*} (b : Buckets T) : Nat := b.entries.length

/-- `RATE_LIMIT_WINDOW` and `RATE_LIMIT_MAX`. -/
structure Limits (T : Type*) [LinearOrder T] where
  window : Window T
  max : Nat

def rateBucketLimit : Nat := 10000

section limiter
variable {T : Type*} [LinearOrder T] (L : Limits T)

/-- `while bucket and now - bucket[0] > RATE_LIMIT_WINDOW: bucket.popleft()` -/
def popExpired (now : T) (bucket : List T) : List T := bucket.dropWhile (L.window.past now)

/-- One turn of the pass over all buckets. -/
def pruneBucket (now : T) (b : Buckets T) (key : String) : Buckets T :=
  let bucket := popExpired L now (b.bucket key)
  if bucket = [] then b.erase key else b.insert key bucket

def pruneRateBuckets (now : T) (b : Buckets T) : Buckets T := b.keys.foldl (pruneBucket L now) b

/-- The answer to an attempt, if it is refused, and the buckets after it. -/
def enforceRateLimit (a : Attempt T) (b : Buckets T) : Except Response Unit × Buckets T :=
  if L.max = 0 then (.ok (), b)
  else
    let b := if rateBucketLimit < b.len then pruneRateBuckets L a.time b else b
    let bucket := popExpired L a.time (b.bucket a.key)
    if L.max ≤ bucket.length then (.error Service.tooMany, b.insert a.key bucket)
    else (.ok (), b.insert a.key (bucket ++ [a.time]))

/-- The buckets after some attempts, and those of them that were admitted. -/
structure Limiter (T : Type*) where
  buckets : Buckets T
  passed : List (Attempt T)

def Limiter.handle (s : Limiter T) (a : Attempt T) : Limiter T :=
  match enforceRateLimit L a s.buckets with
  | (.ok _, b) => ⟨b, s.passed ++ [a]⟩
  | (.error _, b) => ⟨b, s.passed⟩

def Limiter.after (as : List (Attempt T)) : Limiter T := as.foldl (Limiter.handle L) ⟨∅, []⟩

end limiter

/-! Keys -/

theorem name_colon_inj {s t : Scope} {x y : String} (h : s.name ++ ":" ++ x = t.name ++ ":" ++ y) :
    s = t ∧ x = y := by
  have h := congrArg String.toList h
  simp only [String.toList_append] at h
  cases s <;> cases t <;> simp [Scope.name] at h
  · exact ⟨rfl, String.toList_inj.mp h⟩
  · exact ⟨rfl, String.toList_inj.mp h⟩

theorem key_eq_iff {T : Type*} {a b : Attempt T} : a.key = b.key ↔ a.scope = b.scope ∧ a.ip = b.ip := by
  constructor
  · exact name_colon_inj
  · rintro ⟨hs, hi⟩
    rw [Attempt.key, Attempt.key, hs, hi]

/-! Buckets -/

namespace Buckets
variable {T : Type*} {b : Buckets T} {k key : String} {ts : List T}

theorem bucket_insert : Buckets.bucket (b.insert key ts) k = if k = key then ts else b.bucket k := by
  unfold bucket
  split
  · rename_i hk
    rw [hk, AList.lookup_insert, Option.getD_some]
  · rename_i hk
    rw [AList.lookup_insert_ne hk]

theorem bucket_erase : Buckets.bucket (b.erase key) k = if k = key then [] else b.bucket k := by
  unfold bucket
  split
  · rename_i hk
    rw [hk, AList.lookup_erase, Option.getD_none]
  · rename_i hk
    rw [AList.lookup_erase_ne hk]

end Buckets

section limiter
variable {T : Type*} [LinearOrder T] {L : Limits T} {now later : T} {b : Buckets T} {k : String}

theorem popExpired_twice (ts : List T) : popExpired L now (popExpired L now ts) = popExpired L now ts := by
  unfold popExpired
  induction ts with
  | nil => rfl
  | cons t ts ih =>
    by_cases h : L.window.past now t = true
    · rwa [List.dropWhile_cons_of_pos h]
    · rw [List.dropWhile_cons_of_neg h, List.dropWhile_cons_of_neg h]

theorem pruneBucket_bucket (key : String) : (pruneBucket L now b key).bucket k =
    if k = key then popExpired L now (b.bucket key) else b.bucket k := by
  unfold pruneBucket
  dsimp only
  split
  · rename_i hnil
    rw [Buckets.bucket_erase, hnil]
  · exact Buckets.bucket_insert

/-- The pass takes nothing from a bucket that does not go when it is next used. -/
theorem prune_bucket (now : T) (b : Buckets T) (k : String) :
    (pruneRateBuckets L now b).bucket k = b.bucket k ∨
      (pruneRateBuckets L now b).bucket k = popExpired L now (b.bucket k) := by
  unfold pruneRateBuckets
  generalize b.keys = ks
  induction ks generalizing b with
  | nil => exact .inl rfl
  | cons key ks ih =>
    have hone : (pruneBucket L now b key).bucket k =
        if k = key then popExpired L now (b.bucket key) else b.bucket k := pruneBucket_bucket key
    rw [List.foldl_cons]
    split at hone
    · rename_i hk
      right
      rcases ih (pruneBucket L now b key) with h | h
      · rw [h, hone, hk]
      · rw [h, hone, hk]
        exact popExpired_twice _
    · rw [← hone]
      exact ih _

/-! What the buckets hold against the attempts that were admitted -/

def Attempt.keyed (a : Attempt T) : String × T := (a.key, a.time)

/-- Each bucket has, in order, what still counts of the admissions of its key. -/
structure Limiter.Kept (L : Limits T) (now : T) (s : Limiter T) : Prop where
  sorted : ∀ k, (s.buckets.bucket k).Pairwise (· ≤ ·)
  before : ∀ k, ∀ t ∈ s.buckets.bucket k, t ≤ now
  counts : ∀ k, recent L.window now (s.buckets.bucket k) =
    recent L.window now (times k (s.passed.map Attempt.keyed))

variable {s : Limiter T} {a : Attempt T}

theorem Limiter.Kept.mono (h : s.Kept L now) (hl : now ≤ later) : s.Kept L later where
  sorted := h.sorted
  before k t ht := (h.before k t ht).trans hl
  counts k := by
    rw [← recent_recent L.window hl, h.counts, recent_recent L.window hl]

theorem Limiter.kept_start (now : T) : (⟨∅, []⟩ : Limiter T).Kept L now where
  sorted _ := List.Pairwise.nil
  before _ := List.forall_mem_nil _
  counts _ := rfl

/-- What a request looks at: what counts of its key's bucket, pruned or not. -/
def Limiter.looked (L : Limits T) (s : Limiter T) (a : Attempt T) : Buckets T :=
  if rateBucketLimit < s.buckets.len then pruneRateBuckets L a.time s.buckets else s.buckets

theorem Limiter.Kept.looked (h : s.Kept L a.time) (k : String) :
    popExpired L a.time ((s.looked L a).bucket k) =
        recent L.window a.time (times k (s.passed.map Attempt.keyed)) ∧
      ((s.looked L a).bucket k = s.buckets.bucket k ∨
        (s.looked L a).bucket k = recent L.window a.time (s.buckets.bucket k)) := by
  have hpop : popExpired L a.time (s.buckets.bucket k) = recent L.window a.time (s.buckets.bucket k) :=
    dropWhile_past L.window (h.sorted k)
  have hor : (s.looked L a).bucket k = s.buckets.bucket k ∨
      (s.looked L a).bucket k = popExpired L a.time (s.buckets.bucket k) := by
    unfold Limiter.looked
    split
    · exact prune_bucket a.time s.buckets k
    · exact .inl rfl
  constructor
  · rw [← h.counts, ← hpop]
    rcases hor with he | he <;> rw [he]
    exact popExpired_twice _
  · rwa [hpop] at hor

/-- Buckets that hold what counts, but for the key's own, which is trimmed and may
have the new time at its end. -/
theorem Limiter.Kept.insert (h : s.Kept L a.time) {ts new : List T} {log : List (Attempt T)}
    (hts : ts = recent L.window a.time (s.buckets.bucket a.key)) (hnew : ∀ t ∈ new, t = a.time)
    (hsort : new.Pairwise (· ≤ ·))
    (hlog : ∀ k, times k (log.map Attempt.keyed) =
      times k (s.passed.map Attempt.keyed) ++ if a.key = k then new else []) :
    (⟨(s.looked L a).insert a.key (ts ++ new), log⟩ : Limiter T).Kept L a.time := by
  have hsub {k : String} {us : List T} (hus : us = s.buckets.bucket k ∨
      us = recent L.window a.time (s.buckets.bucket k)) : us.Sublist (s.buckets.bucket k) := by
    rcases hus with rfl | rfl
    · exact List.Sublist.refl _
    · exact List.filter_sublist
  have hkey : ts.Sublist (s.buckets.bucket a.key) := hsub (.inr hts)
  refine ⟨fun k => ?_, fun k => ?_, fun k => ?_⟩ <;> dsimp only <;> rw [Buckets.bucket_insert] <;>
    split
  · refine List.pairwise_append.mpr ⟨(h.sorted _).sublist hkey, hsort, fun t ht u hu => ?_⟩
    rw [hnew u hu]
    exact h.before _ t (hkey.subset ht)
  · exact (h.sorted k).sublist (hsub (h.looked k).2)
  · intro t ht
    rcases List.mem_append.mp ht with ht | ht
    · exact h.before _ t (hkey.subset ht)
    · exact (hnew t ht).le
  · exact fun t ht => h.before k t ((hsub (h.looked k).2).subset ht)
  · rename_i hk
    rw [hlog, if_pos hk.symm, recent_append, recent_append, hts, recent_recent L.window le_rfl, hk,
      h.counts]
  · rename_i hk
    rw [hlog, if_neg (Ne.symm hk), List.append_nil, ← h.counts]
    rcases (h.looked k).2 with he | he <;> rw [he]
    exact recent_recent L.window le_rfl

/-- The code's verdict is the plain one, and what it keeps is enough for the next. -/
theorem Limiter.Kept.handle (hmax : 0 < L.max) (h : s.Kept L a.time) :
    ((enforceRateLimit L a s.buckets).1.isOk = true ↔
        Admits L.window L.max (s.passed.map Attempt.keyed) a.keyed) ∧
      (s.handle L a).passed.map Attempt.keyed =
        slide L.window L.max (s.passed.map Attempt.keyed) a.keyed ∧
      (s.handle L a).Kept L a.time := by
  have hpop := (h.looked a.key).1
  have hts : popExpired L a.time ((s.looked L a).bucket a.key) =
      recent L.window a.time (s.buckets.bucket a.key) := hpop.trans (h.counts _).symm
  have hadmits : Admits L.window L.max (s.passed.map Attempt.keyed) a.keyed ↔
      ¬ L.max ≤ (popExpired L a.time ((s.looked L a).bucket a.key)).length := by
    rw [hpop, not_le]
    rfl
  have henforce : enforceRateLimit L a s.buckets =
      if L.max ≤ (popExpired L a.time ((s.looked L a).bucket a.key)).length then
        (.error Service.tooMany, (s.looked L a).insert a.key
          (popExpired L a.time ((s.looked L a).bucket a.key)))
      else (.ok (), (s.looked L a).insert a.key
        (popExpired L a.time ((s.looked L a).bucket a.key) ++ [a.time])) := if_neg hmax.ne'
  unfold Limiter.handle slide
  by_cases hfull : L.max ≤ (popExpired L a.time ((s.looked L a).bucket a.key)).length
  · rw [henforce, if_pos hfull, if_neg (fun hc => hadmits.mp hc hfull)]
    refine ⟨⟨nofun, fun hc => absurd hfull (hadmits.mp hc)⟩, rfl, ?_⟩
    have hkept : (⟨(s.looked L a).insert a.key
        (popExpired L a.time ((s.looked L a).bucket a.key) ++ []), s.passed⟩ : Limiter T).Kept L a.time :=
      h.insert hts (List.forall_mem_nil _) List.Pairwise.nil fun k => by
        rw [ite_self, List.append_nil]
    rwa [List.append_nil] at hkept
  · rw [henforce, if_neg hfull, if_pos (hadmits.mpr hfull)]
    refine ⟨⟨fun _ => hadmits.mpr hfull, fun _ => rfl⟩, List.map_append, ?_⟩
    refine h.insert hts (fun t ht => List.mem_singleton.mp ht) (List.pairwise_singleton _ _)
      fun k => ?_
    rw [List.map_append, List.map_singleton, times_append]
    rfl

theorem Limiter.after_snoc (as : List (Attempt T)) (a : Attempt T) :
    Limiter.after L (as ++ [a]) = (Limiter.after L as).handle L a := by
  rw [Limiter.after, List.foldl_append]
  rfl

/-- The limiter's run is a run of the plain sliding window. -/
theorem Limiter.after_slides (hmax : 0 < L.max) (as : List (Attempt T))
    (h : as.Pairwise fun x y => x.time ≤ y.time) :
    ((Limiter.after L as).passed.map Attempt.keyed =
        (as.map Attempt.keyed).foldl (slide L.window L.max) []) ∧
      ∀ now, (∀ a ∈ as, a.time ≤ now) → (Limiter.after L as).Kept L now := by
  induction as using List.reverseRecOn with
  | nil => exact ⟨rfl, fun now _ => Limiter.kept_start now⟩
  | append_singleton as a ih =>
    obtain ⟨has, -, hle⟩ := List.pairwise_append.mp h
    obtain ⟨hlog, hkept⟩ := ih has
    have hat := hkept a.time fun x hx => hle x hx a List.mem_cons_self
    obtain ⟨-, hslide, hnext⟩ := hat.handle hmax
    rw [Limiter.after_snoc]
    refine ⟨?_, fun now hnow => hnext.mono (hnow a (by simp))⟩
    rw [hslide, hlog, List.map_append, List.foldl_append]
    rfl

omit [LinearOrder T] in
theorem times_filter_length (p : T → Bool) (k : String) (log : List (Attempt T)) :
    ((times k (log.map Attempt.keyed)).filter p).length =
      log.countP fun e => decide (e.key = k) && p e.time := by
  rw [times, List.filter_map, List.length_map, List.filter_map, List.filter_map, List.length_map,
    List.filter_filter, List.countP_eq_length_filter]
  refine congrArg List.length (List.filter_congr fun e _ => ?_)
  rw [Bool.and_comm]
  rfl

/-- Each attempt of a sequence is admitted exactly when fewer than the maximum of
the admitted ones before it are of its scope and address and no further back than
the window; and no stretch of time that fits the window has more than the maximum
of one scope and address. -/
theorem rate_limit_slides (L : Limits T) (hmax : 0 < L.max) (as : List (Attempt T))
    (hclock : as.Pairwise fun x y => x.time ≤ y.time) :
    (∀ pre a post, as = pre ++ a :: post →
      ((enforceRateLimit L a (Limiter.after L pre).buckets).1.isOk = true ↔
        ((Limiter.after L pre).passed.countP fun e => decide (e.scope = a.scope ∧ e.ip = a.ip ∧
          L.window.past a.time e.time = false)) < L.max)) ∧
    ∀ (scope : Scope) (ip : String) (first last : T), L.window.past last first = false →
      ((Limiter.after L as).passed.countP fun e => decide (e.scope = scope ∧ e.ip = ip ∧
        first ≤ e.time ∧ e.time ≤ last)) ≤ L.max := by
  constructor
  · rintro pre a post rfl
    obtain ⟨hpre, -, hle⟩ := List.pairwise_append.mp hclock
    have hkept := (Limiter.after_slides hmax pre hpre).2 a.time fun x hx => hle x hx a List.mem_cons_self
    rw [(hkept.handle hmax).1]
    have hcount := times_filter_length (!L.window.past a.time ·) a.key (Limiter.after L pre).passed
    unfold Admits recent
    refine Iff.of_eq (congrArg (· < L.max) (hcount.trans (List.countP_congr fun e _ => ?_)))
    simp [key_eq_iff, and_assoc]
  · intro scope ip first last hw
    have hbound : ((times (scope.name ++ ":" ++ ip)
        ((as.map Attempt.keyed).foldl (slide L.window L.max) [])).filter
          fun t => first ≤ t ∧ t ≤ last).length ≤ L.max :=
      slides_bounded (as.map Attempt.keyed) (List.pairwise_map.mpr hclock) (scope.name ++ ":" ++ ip) hw
    rw [← (Limiter.after_slides hmax as hclock).1, times_filter_length] at hbound
    refine Nat.le_trans (Nat.le_of_eq (List.countP_congr fun e _ => ?_)) hbound
    have hkey : e.key = scope.name ++ ":" ++ ip ↔ e.scope = scope ∧ e.ip = ip := by
      constructor
      · exact name_colon_inj
      · rintro ⟨rfl, rfl⟩
        rfl
    simp [hkey, and_assoc]

end limiter

/-- The relay's own settings, on a clock of whole seconds. -/
def Limits.relay : Limits ℤ := ⟨.ofLength 300, 10⟩

def fromHome (time : ℤ) : Attempt ℤ := ⟨.login, some "192.0.2.7", time⟩

/-- Eleven tries to sign in at once, and one after the window. -/
def hurried : List (Attempt ℤ) := List.replicate 11 (fromHome 0) ++ [fromHome 301]

theorem hurried_limited :
    (enforceRateLimit .relay (fromHome 0) (Limiter.after .relay (hurried.take 10)).buckets).1.isOk =
        false ∧
      (enforceRateLimit .relay (fromHome 301) (Limiter.after .relay (hurried.take 11)).buckets).1.isOk =
        true := by
  have h := (rate_limit_slides .relay (by decide) hurried (by decide)).1
  constructor
  · rw [← Bool.not_eq_true, h (hurried.take 10) (fromHome 0) [fromHome 301] rfl]
    decide +kernel
  · rw [h (hurried.take 11) (fromHome 301) [] rfl]
    decide +kernel

end Lattix.Server
