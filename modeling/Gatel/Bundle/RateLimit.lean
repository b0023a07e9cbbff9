import Gatel.Lib.KeyedMap
import Gatel.Lib.TokenBucket
import Gatel.Model.Net
import Gatel.Model.Http
import Gatel.Plan.Matcher

namespace Gatel.RateLimit
open TokenBucket (Bucket)

/-- What identifies a client. -/
inductive Key where
  | ip
  | header (name : String)
  | cookie (name : String)
  | route

def Key.extract (headers : HeaderMap) (clientIp : Option IpAddr) : Key → Option String
  | .ip => clientIp.map IpAddr.toText
  | .route => some ""
  | .header name => (headers.get name).bind HeaderValue.toStr
  | .cookie name => ((headers.get "cookie").bind HeaderValue.toStr).bind fun header =>
    (Text.splitAll ';' header).findSome? fun pair =>
      (Text.splitOnce '=' pair).bind fun (key, value) => if Text.trim key = name then some (Text.trim value) else none

/-- What decoding lets through. -/
structure Config where
  max : U32
  window : Duration
  key : Key
  maxKeys : U32
  max_pos : 0 < max.val
  window_pos : 0 < window.val
  maxKeys_pos : 0 < maxKeys.val

def scale : Nat := 1000000

structure Buckets where
  inner : KeyedMap.Map String Bucket
  maxKeys : Nat
  evictions : Nat

def Buckets.new (maxKeys : Nat) : Buckets := ⟨∅, maxKeys, 0⟩

namespace Config

def capacity (c : Config) : Nat := c.max.val * scale

def perNano (c : Config) : ℚ := c.capacity / (Max.max c.window.val 1 : Nat)

/-- What a bucket has with what came in since, whole or not. -/
def filled (c : Config) (bucket : Bucket) (now : Instant) : ℚ :=
  bucket.tokens + ((now - bucket.last : Nat) : ℚ) * c.perNano

/-- A full table loses what has refilled, or else everything. -/
def makeRoom (c : Config) (b : Buckets) (key : String) (now : Instant) : Buckets :=
  if b.inner.lookup key = none ∧ b.maxKeys ≤ b.inner.entries.length then
    let kept := KeyedMap.refine (fun _ bucket => if c.filled bucket now < c.capacity then some bucket else none) b.inner
    if b.maxKeys ≤ kept.entries.length then { b with inner := ∅, evictions := b.evictions + 1 } else { b with inner := kept }
  else b

/-- The take from one bucket: what remains, or how long to wait. -/
def takeFrom (c : Config) (bucket : Bucket) (now : Instant) : Except Nat Nat × Bucket :=
  let tokens := ⌊min (c.filled bucket now) c.capacity⌋₊
  if scale ≤ tokens then (.ok ((tokens - scale) / scale), ⟨tokens - scale, now⟩)
  else (.error ⌈((scale - tokens : Nat) : ℚ) / c.perNano⌉₊, ⟨tokens, now⟩)

def take (c : Config) (b : Buckets) (key : String) (now : Instant) : Except Nat Nat × Buckets :=
  let b := c.makeRoom b key now
  let bucket := (b.inner.lookup key).getD ⟨c.capacity, now⟩
  ((c.takeFrom bucket now).1, { b with inner := b.inner.insert key (c.takeFrom bucket now).2 })

inductive Outcome where
  /-- The rest of the chain answers, with these fields added. -/
  | next (added : HeaderMap)
  | answered (status : Nat) (headers : HeaderMap) (body : String)

def tooMany (c : Config) (seconds : Nat) : Outcome :=
  .answered 429 [("retry-after", utf8 (toString seconds)), ("x-ratelimit-limit", utf8 (toString c.max.val)),
    ("x-ratelimit-remaining", utf8 "0")] "429 too many requests\n"

def handle (c : Config) (b : Buckets) (headers : HeaderMap) (clientIp : Option IpAddr) (now : Instant) : Outcome × Buckets :=
  match c.key.extract headers clientIp with
  | none => (.answered 400 [] "400 this route requires an identifying header\n", b)
  | some key =>
    match c.take b key now with
    | (.ok remaining, b) =>
      (.next [("x-ratelimit-limit", utf8 (toString c.max.val)), ("x-ratelimit-remaining", utf8 (toString remaining))], b)
    | (.error wait, b) => (c.tooMany (Max.max (wait / 10 ^ 9) 1), b)

/-! The branches of `handle` for any way to take, so that they reduce without the arithmetic of a bucket. -/

theorem handle_taken_ok (c : Config) (b : Buckets) {b' : Buckets} {key : String} {now : Instant} {remaining : Nat} {extracted : Option String}
    {take : String → Instant → Except Nat Nat × Buckets} : extracted = some key → take key now = (.ok remaining, b') →
    (match extracted with
      | none => (.answered 400 [] "400 this route requires an identifying header\n", b)
      | some key =>
        match take key now with
        | (.ok remaining, b) =>
          (.next [("x-ratelimit-limit", utf8 (toString c.max.val)), ("x-ratelimit-remaining", utf8 (toString remaining))], b)
        | (.error wait, b) => (c.tooMany (Max.max (wait / 10 ^ 9) 1), b) : Outcome × Buckets) =
      (.next [("x-ratelimit-limit", utf8 (toString c.max.val)), ("x-ratelimit-remaining", utf8 (toString remaining))], b') := by
  intro hkey htake
  simp only [hkey, htake]

theorem handle_taken_error (c : Config) (b : Buckets) {b' : Buckets} {key : String} {now : Instant} {wait : Nat} {extracted : Option String}
    {take : String → Instant → Except Nat Nat × Buckets} : extracted = some key → take key now = (.error wait, b') →
    (match extracted with
      | none => (.answered 400 [] "400 this route requires an identifying header\n", b)
      | some key =>
        match take key now with
        | (.ok remaining, b) =>
          (.next [("x-ratelimit-limit", utf8 (toString c.max.val)), ("x-ratelimit-remaining", utf8 (toString remaining))], b)
        | (.error wait, b) => (c.tooMany (Max.max (wait / 10 ^ 9) 1), b) : Outcome × Buckets) =
      (c.tooMany (Max.max (wait / 10 ^ 9) 1), b') := by
  intro hkey htake
  simp only [hkey, htake]

theorem handle_ok {c : Config} {b b' : Buckets} {key : String} {now : Instant} {headers : HeaderMap} {clientIp : Option IpAddr}
    {remaining : Nat} (hkey : c.key.extract headers clientIp = some key) (h : c.take b key now = (.ok remaining, b')) :
    c.handle b headers clientIp now =
      (.next [("x-ratelimit-limit", utf8 (toString c.max.val)), ("x-ratelimit-remaining", utf8 (toString remaining))], b') := by
  unfold handle
  exact handle_taken_ok c b hkey h

theorem handle_error {c : Config} {b b' : Buckets} {key : String} {now : Instant} {headers : HeaderMap} {clientIp : Option IpAddr}
    {wait : Nat} (hkey : c.key.extract headers clientIp = some key) (h : c.take b key now = (.error wait, b')) :
    c.handle b headers clientIp now = (c.tooMany (Max.max (wait / 10 ^ 9) 1), b') := by
  unfold handle
  exact handle_taken_error c b hkey h

/-! A bucket of the table is one of the library's. -/

theorem perNano_eq (c : Config) : c.perNano = c.capacity / c.window.val := by
  rw [perNano, max_eq_left c.window_pos]

theorem perNano_pos (c : Config) : 0 < c.perNano := by
  have hcap : 0 < c.capacity := Nat.mul_pos c.max_pos (by decide)
  rw [perNano_eq]
  exact div_pos (by exact_mod_cast hcap) (by exact_mod_cast c.window_pos)

def params (c : Config) : TokenBucket.Params where
  price := scale
  capacity := c.capacity
  rate := c.perNano
  price_pos := by decide
  price_le := Nat.le_mul_of_pos_left scale c.max_pos
  rate_pos := c.perNano_pos

/-- The wait a take was told, if it was refused. -/
def refusal : Except Nat Nat → Option Nat
  | .ok _ => none
  | .error wait => some wait

theorem credit_eq (c : Config) (bucket : Bucket) (now : Instant) :
    TokenBucket.credit c.params bucket now = ⌊min (c.filled bucket now) c.capacity⌋₊ := rfl

theorem takeFrom_answer (c : Config) (bucket : Bucket) (now : Instant) :
    refusal (c.takeFrom bucket now).1 = (TokenBucket.take c.params bucket now).1 := by
  by_cases h : scale ≤ ⌊min (c.filled bucket now) c.capacity⌋₊
  · rw [TokenBucket.take_admitted (by rwa [credit_eq])]
    simp only [takeFrom, if_pos h]
    rfl
  · rw [TokenBucket.take_refused (by rw [credit_eq]; exact Nat.not_le.mp h)]
    simp only [takeFrom, if_neg h]
    rfl

theorem takeFrom_bucket (c : Config) (bucket : Bucket) (now : Instant) :
    (c.takeFrom bucket now).2 = (TokenBucket.take c.params bucket now).2 := by
  by_cases h : scale ≤ ⌊min (c.filled bucket now) c.capacity⌋₊
  · rw [TokenBucket.take_admitted (by rwa [credit_eq])]
    simp only [takeFrom, if_pos h]
    rfl
  · rw [TokenBucket.take_refused (by rw [credit_eq]; exact Nat.not_le.mp h)]
    simp only [takeFrom, if_neg h]
    rfl

/-! Takes one after another, each with its key and its time. -/

@[grind =] def run (c : Config) (b : Buckets) : List (String × Instant) → List (String × Instant × Except Nat Nat) × Buckets
  | [] => ([], b)
  | (key, now) :: events =>
    let rest := c.run (c.take b key now).2 events
    ((key, now, (c.take b key now).1) :: rest.1, rest.2)

/-- The same for buckets that are never dropped. -/
@[grind =] def keep (c : Config) (buckets : String → Bucket) : List (String × Instant) → List (String × Instant × Except Nat Nat)
  | [] => []
  | (key, now) :: events =>
    (key, now, (c.takeFrom (buckets key) now).1) :: c.keep (Function.update buckets key (c.takeFrom (buckets key) now).2) events

/-- One key's times, and what it was told at them. -/
def timesOf (key : String) (events : List (String × Instant)) : List Nat :=
  events.filterMap fun e => if e.1 = key then some e.2 else none

def told (key : String) (answers : List (String × Instant × Except Nat Nat)) : List (Nat × Option Nat) :=
  answers.filterMap fun a => if a.1 = key then some (a.2.1, refusal a.2.2) else none

theorem told_cons (key name : String) (now : Instant) (answer : Except Nat Nat) (rest : List (String × Instant × Except Nat Nat)) :
    told key ((name, now, answer) :: rest) = if name = key then (now, refusal answer) :: told key rest else told key rest := by
  by_cases h : name = key <;> simp [told, h]

theorem timesOf_cons (key name : String) (now : Instant) (rest : List (String × Instant)) :
    timesOf key ((name, now) :: rest) = if name = key then now :: timesOf key rest else timesOf key rest := by
  by_cases h : name = key <;> simp [timesOf, h]

/-- Each key's answers are those of a bucket of its own. -/
theorem told_keep (c : Config) (buckets : String → Bucket) (events : List (String × Instant)) (key : String) :
    told key (c.keep buckets events) = TokenBucket.run c.params (buckets key) (timesOf key events) := by
  induction events generalizing buckets with
  | nil => rfl
  | cons event events ih =>
    obtain ⟨name, now⟩ := event
    rw [keep, told_cons, timesOf_cons, ih]
    by_cases hname : name = key
    · subst hname
      rw [if_pos rfl, if_pos rfl, TokenBucket.run, Function.update_self, takeFrom_answer, takeFrom_bucket]
    · rw [if_neg hname, if_neg hname, Function.update_of_ne (Ne.symm hname)]

/-- A table that has dropped no more than full buckets. -/
def Holds (c : Config) (b : Buckets) (buckets : String → Bucket) (now : Instant) : Prop :=
  ∀ key, b.inner.lookup key = some (buckets key) ∨
    b.inner.lookup key = none ∧ (c.capacity : ℚ) ≤ c.filled (buckets key) now

variable {c : Config} {b : Buckets} {buckets : String → Bucket} {now now' : Instant} {key : String}

theorem filled_mono (bucket : Bucket) (h : now ≤ now') : c.filled bucket now ≤ c.filled bucket now' := by
  have hticks : ((now - bucket.last : Nat) : ℚ) ≤ ((now' - bucket.last : Nat) : ℚ) := Nat.cast_le.mpr (Nat.sub_le_sub_right h _)
  have hcame := mul_le_mul_of_nonneg_right hticks c.perNano_pos.le
  unfold filled
  linarith

theorem Holds.later (h : Holds c b buckets now) (hle : now ≤ now') : Holds c b buckets now' := by
  intro key
  rcases h key with hthere | ⟨hgone, hfull⟩
  · exact .inl hthere
  · exact .inr ⟨hgone, hfull.trans (filled_mono _ hle)⟩

/-- A table with the full buckets dropped. -/
theorem lookup_dropFull (c : Config) (m : KeyedMap.Map String Bucket) (now : Instant) (k : String) :
    let kept := KeyedMap.refine (fun _ bucket => if c.filled bucket now < c.capacity then some bucket else none) m
    kept.lookup k = m.lookup k ∨
      kept.lookup k = none ∧ ∃ bucket, m.lookup k = some bucket ∧ (c.capacity : ℚ) ≤ c.filled bucket now := by
  intro kept
  have hkept : kept.lookup k = (m.lookup k).bind fun bucket =>
    if c.filled bucket now < c.capacity then some bucket else none := KeyedMap.lookup_refine _ m k
  cases hk : m.lookup k with
  | none => exact .inl (by rw [hkept, hk, Option.bind_none])
  | some bucket =>
    rw [hk, Option.bind_some] at hkept
    by_cases hfill : c.filled bucket now < c.capacity
    · exact .inl (by rw [hkept, if_pos hfill])
    · exact .inr ⟨by rw [hkept, if_neg hfill], bucket, rfl, not_lt.mp hfill⟩

/-- Making room drops full buckets, or all of them. -/
theorem makeRoom_cases (c : Config) (b : Buckets) (key : String) (now : Instant) :
    (∃ m, c.makeRoom b key now = { b with inner := m } ∧ ∀ k, m.lookup k = b.inner.lookup k ∨
      m.lookup k = none ∧ ∃ bucket, b.inner.lookup k = some bucket ∧ (c.capacity : ℚ) ≤ c.filled bucket now) ∨
    c.makeRoom b key now = { b with inner := ∅, evictions := b.evictions + 1 } := by
  unfold makeRoom
  by_cases hnew : b.inner.lookup key = none ∧ b.maxKeys ≤ b.inner.entries.length
  · rw [if_pos hnew]
    by_cases hfull : b.maxKeys ≤ (KeyedMap.refine (fun _ bucket => if c.filled bucket now < c.capacity then some bucket else none)
        b.inner).entries.length
    · exact .inr (if_pos hfull)
    · exact .inl ⟨_, if_neg hfull, lookup_dropFull c b.inner now⟩
  · rw [if_neg hnew]
    exact .inl ⟨b.inner, rfl, fun k => .inl rfl⟩

theorem Holds.makeRoom (h : Holds c b buckets now) (hev : (c.makeRoom b key now).evictions = b.evictions) :
    Holds c (c.makeRoom b key now) buckets now := by
  rcases makeRoom_cases c b key now with ⟨m, hm, hlookup⟩ | hclear
  · rw [hm]
    intro k
    dsimp only
    rcases hlookup k with hsame | ⟨hgone, bucket, hthere, hfull⟩
    · rw [hsame]
      exact h k
    · rcases h k with hk | ⟨hk, -⟩
      · rw [hthere] at hk
        exact .inr ⟨hgone, Option.some.inj hk ▸ hfull⟩
      · rw [hthere] at hk
        cases hk
  · rw [hclear] at hev
    exact absurd hev (Nat.succ_ne_self _)

theorem takeFrom_of_full {bucket : Bucket} (h : (c.capacity : ℚ) ≤ c.filled bucket now) :
    c.takeFrom ⟨c.capacity, now⟩ now = c.takeFrom bucket now := by
  have hfresh : c.filled ⟨c.capacity, now⟩ now = c.capacity := by simp [filled]
  simp only [takeFrom, hfresh, min_self, min_eq_right h]

theorem answer_of_take {taken : Except Nat Nat × Bucket}
    (h : c.takeFrom (((c.makeRoom b key now).inner.lookup key).getD ⟨c.capacity, now⟩) now = taken) :
    (c.take b key now).1 = taken.1 := by
  simp only [Config.take, h]

theorem buckets_of_take {taken : Except Nat Nat × Bucket}
    (h : c.takeFrom (((c.makeRoom b key now).inner.lookup key).getD ⟨c.capacity, now⟩) now = taken) :
    (c.take b key now).2 = { c.makeRoom b key now with inner := (c.makeRoom b key now).inner.insert key taken.2 } := by
  simp only [Config.take, h]

theorem take_evictions (c : Config) (b : Buckets) (key : String) (now : Instant) :
    (c.take b key now).2.evictions = (c.makeRoom b key now).evictions := by
  rw [buckets_of_take rfl]

theorem Holds.insert (h : Holds c b buckets now) (key : String) (bucket : Bucket) :
    Holds c { b with inner := b.inner.insert key bucket } (Function.update buckets key bucket) now := by
  intro k
  by_cases hk : k = key
  · subst hk
    left
    rw [AList.lookup_insert, Function.update_self]
  · rw [AList.lookup_insert_ne hk, Function.update_of_ne hk]
    exact h k

/-- A take that clears nothing is the take from the key's own bucket. -/
theorem Holds.take (h : Holds c b buckets now) (hev : (c.take b key now).2.evictions = b.evictions) :
    (c.take b key now).1 = (c.takeFrom (buckets key) now).1 ∧
      Holds c (c.take b key now).2 (Function.update buckets key (c.takeFrom (buckets key) now).2) now := by
  rw [take_evictions] at hev
  have hroom := h.makeRoom hev
  have hbucket : c.takeFrom (((c.makeRoom b key now).inner.lookup key).getD ⟨c.capacity, now⟩) now =
      c.takeFrom (buckets key) now := by
    rcases hroom key with hthere | ⟨hgone, hfull⟩
    · rw [hthere, Option.getD_some]
    · rw [hgone, Option.getD_none, takeFrom_of_full hfull]
  refine ⟨answer_of_take hbucket, ?_⟩
  rw [buckets_of_take hbucket]
  exact hroom.insert key _

theorem evictions_le (c : Config) (b : Buckets) (key : String) (now : Instant) :
    b.evictions ≤ (c.take b key now).2.evictions := by
  rw [take_evictions]
  rcases makeRoom_cases c b key now with ⟨m, hm, -⟩ | hclear
  · simp [hm]
  · simp [hclear]

theorem run_evictions_le (c : Config) (b : Buckets) (events : List (String × Instant)) :
    b.evictions ≤ (c.run b events).2.evictions := by
  induction events generalizing b with
  | nil => exact le_rfl
  | cons event events ih => exact (evictions_le c b _ _).trans (ih _)

/-- While it is never cleared, the table answers as if it dropped nothing. -/
theorem run_keep {events : List (String × Instant)} (h : Holds c b buckets now)
    (hsorted : (now :: events.map Prod.snd).Pairwise (· ≤ ·)) (hev : (c.run b events).2.evictions = b.evictions) :
    (c.run b events).1 = c.keep buckets events := by
  induction events generalizing b buckets now with
  | nil => rfl
  | cons event events ih =>
    obtain ⟨key, time⟩ := event
    obtain ⟨hfirst, hrest⟩ := List.pairwise_cons.mp hsorted
    have hle := hfirst time List.mem_cons_self
    have hone := evictions_le c b key time
    have htail := run_evictions_le c (c.take b key time).2 events
    rw [run] at hev
    dsimp only at hev
    have hstay : (c.take b key time).2.evictions = b.evictions := by omega
    obtain ⟨hanswer, hholds⟩ := (h.later hle).take hstay
    rw [run, keep, hanswer, ih hholds hrest (by omega)]

/-! The size of the table. -/

theorem entries_insert_le (m : KeyedMap.Map String Bucket) (key : String) (bucket : Bucket) :
    (m.insert key bucket).entries.length ≤ m.entries.length + 1 := by
  rw [AList.entries_insert, List.length_cons]
  exact Nat.succ_le_succ (List.kerase_sublist key m.entries).length_le

theorem entries_insert_present {m : KeyedMap.Map String Bucket} {key : String} (h : m.lookup key ≠ none) (bucket : Bucket) :
    (m.insert key bucket).entries.length = m.entries.length := by
  have hmem : key ∈ m.keys := AList.lookup_isSome.mp (Option.isSome_iff_ne_none.mpr h)
  have hkeys := AList.keys_insert (b := bucket) (a := key) m
  have hlen := congrArg List.length hkeys
  rw [List.length_cons, List.length_erase_of_mem hmem] at hlen
  have hpos := List.length_pos_of_mem hmem
  rw [Nat.sub_add_cancel hpos] at hlen
  simpa [AList.keys, List.keys] using hlen

theorem take_sized (c : Config) {b : Buckets} (hpos : 0 < b.maxKeys) (h : b.inner.entries.length ≤ b.maxKeys) (key : String)
    (now : Instant) : (c.take b key now).2.maxKeys = b.maxKeys ∧ (c.take b key now).2.inner.entries.length ≤ b.maxKeys := by
  have hroom : (c.makeRoom b key now).maxKeys = b.maxKeys ∧ ((c.makeRoom b key now).inner.lookup key ≠ none ∧
      (c.makeRoom b key now).inner.entries.length ≤ b.maxKeys ∨ (c.makeRoom b key now).inner.entries.length < b.maxKeys) := by
    rw [makeRoom]
    split
    · dsimp only
      split
      · exact ⟨rfl, .inr hpos⟩
      · rename_i hkept
        exact ⟨rfl, .inr (Nat.not_le.mp hkept)⟩
    · rename_i hno
      refine ⟨rfl, ?_⟩
      by_cases hthere : b.inner.lookup key = none
      · exact .inr (Nat.not_le.mp fun hfull => hno ⟨hthere, hfull⟩)
      · exact .inl ⟨hthere, h⟩
  obtain ⟨hmax, hsize⟩ := hroom
  refine ⟨hmax, ?_⟩
  simp only [Config.take]
  rcases hsize with ⟨hthere, hle⟩ | hlt
  · rw [entries_insert_present hthere]
    exact hle
  · exact (entries_insert_le _ _ _).trans hlt

theorem run_sized (c : Config) {b : Buckets} (hpos : 0 < b.maxKeys) (h : b.inner.entries.length ≤ b.maxKeys)
    (events : List (String × Instant)) :
    (c.run b events).2.maxKeys = b.maxKeys ∧ (c.run b events).2.inner.entries.length ≤ b.maxKeys := by
  induction events generalizing b with
  | nil => exact ⟨rfl, h⟩
  | cons event events ih =>
    obtain ⟨hmax, hsize⟩ := take_sized c hpos h event.1 event.2
    rw [← hmax] at hpos hsize ⊢
    exact ih hpos hsize

/-! What clients can rely on. -/

/-- The table of a fresh state. -/
def fresh (c : Config) : Buckets := .new c.maxKeys.val

/-- One bucket for every key, all of them full. -/
def unspent (c : Config) (_ : String) : Bucket := ⟨c.capacity, 0⟩

structure Fair (c : Config) (events : List (String × Instant)) : Prop where
  limited : ∀ key, ∀ start ticks : Nat, (((TokenBucket.admissions (told key (c.run c.fresh events).1)).filter fun t =>
    start ≤ t ∧ t ≤ start + ticks).length : ℚ) ≤ c.max.val + (ticks : ℚ) * ((c.max.val : ℚ) / (c.window.val : ℚ))
  undelayed : ∀ key before s wait mid t answer later,
    told key (c.run c.fresh events).1 = before ++ (s, some wait) :: (mid ++ (t, answer) :: later) →
    (∀ x ∈ mid, x.1 < s + wait) → s + wait ≤ t → answer = none
  sized : ∀ front, front <+: events → (c.run c.fresh front).2.inner.entries.length ≤ c.maxKeys.val
  undropped : (c.run c.fresh events).1 = c.keep c.unspent events

theorem fresh_holds (c : Config) : Holds c c.fresh c.unspent 0 := by
  intro key
  exact .inr ⟨rfl, by simp [unspent, filled]⟩

theorem timesOf_sorted {events : List (String × Instant)} (h : (events.map Prod.snd).Pairwise (· ≤ ·)) (key : String) :
    (timesOf key events).Pairwise (· ≤ ·) := by
  have hsub : (timesOf key events).Sublist (events.map Prod.snd) := by
    induction events with
    | nil => exact List.Sublist.slnil
    | cons event events ih =>
      have hrest := ih (List.pairwise_cons.mp h).2
      rw [timesOf, List.filterMap_cons, List.map_cons]
      split
      · exact hrest.cons _
      · rename_i t ht
        have htime : t = event.2 := by
          split at ht
          · exact (Option.some.inj ht).symm
          · cases ht
        rw [htime]
        exact hrest.cons_cons _
  exact h.sublist hsub

/-- On a table that is never cleared, the limit is fair exactly where the whole millionths that come in between takes make
up for each refusal in time. -/
theorem fair_iff (c : Config) {events : List (String × Instant)} (hsorted : (events.map Prod.snd).Pairwise (· ≤ ·))
    (hkept : (c.run c.fresh events).2.evictions = 0) :
    Fair c events ↔ ∀ key, TokenBucket.Covered c.params (c.unspent key) (timesOf key events) := by
  have hrun : (c.run c.fresh events).1 = c.keep c.unspent events :=
    run_keep (fresh_holds c) (List.pairwise_cons.mpr ⟨fun _ _ => Nat.zero_le _, hsorted⟩) hkept
  have htold : ∀ key, told key (c.run c.fresh events).1 = TokenBucket.run c.params (c.unspent key) (timesOf key events) := by
    intro key
    rw [hrun, told_keep]
  have hiff : ∀ key, TokenBucket.Undelayed c.params (c.unspent key) (timesOf key events) ↔
      TokenBucket.Covered c.params (c.unspent key) (timesOf key events) :=
    fun key => TokenBucket.undelayed_iff (timesOf_sorted hsorted key)
  constructor
  · intro h key
    apply (hiff key).mp
    intro before s w mid t answer later hsplit
    exact h.undelayed key before s w mid t answer later ((htold key).trans hsplit)
  · intro h
    refine ⟨?_, ?_, ?_, hrun⟩
    · intro key start ticks
      have hle := TokenBucket.interval_le (p := c.params) (c.unspent key) (timesOf_sorted hsorted key) start ticks
      have hscale : (0 : ℚ) < scale := by exact_mod_cast (by decide : 0 < scale)
      have hprice : c.params.price = scale := rfl
      have hrate : c.params.rate = c.max.val * scale / c.window.val := by
        rw [← Nat.cast_mul]
        exact c.perNano_eq
      have hcapacity : (c.params.capacity : ℚ) = c.max.val * scale := by
        rw [← Nat.cast_mul]
        rfl
      rw [htold key]
      rw [hprice, hrate, hcapacity] at hle
      have hfactor : (c.max.val : ℚ) * scale + ticks * (c.max.val * scale / c.window.val) =
          (c.max.val + ticks * (c.max.val / c.window.val)) * scale := by ring
      rw [hfactor] at hle
      exact le_of_mul_le_mul_right hle hscale
    · intro key before s w mid t answer later hsplit
      exact (hiff key).mpr (h key) before s w mid t answer later ((htold key).symm.trans hsplit)
    · intro front _
      exact (run_sized c c.maxKeys_pos (Nat.zero_le _) front).2

/-- One request a second. -/
def oneASecond : Config where
  max := 1
  window := Duration.fromSecs 1
  key := .ip
  maxKeys := 100000
  max_pos := by decide
  window_pos := by decide
  maxKeys_pos := by decide

/-- A client that asks again within the wait it was told. -/
def impatient : List (String × Instant) := [("", 0), ("", 1), ("", 1000), ("", 10 ^ 9 + 1)]

theorem fair_iff_impatient : Fair oneASecond impatient ↔
    ∀ key, TokenBucket.Covered oneASecond.params (oneASecond.unspent key) (timesOf key impatient) :=
  fair_iff oneASecond (by simp [impatient]) (by decide)

theorem impatient_delayed : (impatient.map Prod.snd).Pairwise (· ≤ ·) ∧
    (oneASecond.run oneASecond.fresh impatient).2.evictions = 0 ∧ ¬ Fair oneASecond impatient := by
  have htold : told "" (oneASecond.run oneASecond.fresh impatient).1 =
      [(0, none), (1, some (10 ^ 9)), (1000, some (10 ^ 9)), (10 ^ 9 + 1, some 1000)] := by decide +kernel
  refine ⟨by simp [impatient], by decide, ?_⟩
  intro h
  have hnone := h.undelayed "" [(0, none)] 1 (10 ^ 9) [(1000, some (10 ^ 9))] (10 ^ 9 + 1) (some 1000) [] htold (by simp) (by simp)
  cases hnone

/-- Where a whole number of millionths comes in every nanosecond, every table that is never cleared is fair. -/
theorem covered_of_dvd (c : Config) (h : c.window.val ∣ c.capacity) {events : List (String × Instant)}
    (hsorted : (events.map Prod.snd).Pairwise (· ≤ ·)) (key : String) :
    TokenBucket.Covered c.params (c.unspent key) (timesOf key events) := by
  have hrate : c.params.rate = (c.capacity / c.window.val : Nat) := by
    rw [Nat.cast_div h (by exact_mod_cast c.window_pos.ne')]
    exact c.perNano_eq
  exact TokenBucket.covered_whole hrate (timesOf_sorted hsorted key)

end Config
end Gatel.RateLimit
