import Gatel.Bundle.Ranges
import Gatel.Cache.Policy
import Gatel.Proxy.RequestHost

namespace Gatel.Cache
namespace Revalidate

inductive Validator where
  | entityTag (value : List UInt8)
  | modifiedSince (value : List UInt8)
  deriving DecidableEq

/-- The value of a field that may be there once. -/
def single (headers : HeaderMap) (name : String) : Option (Option (List UInt8)) :=
  match headers.getAll name with
  | [] => some none
  | [value] => some (some value)
  | _ => none

def date (p : Platform) (value : List UInt8) : Option Nat := do p.parseHttpDate (← HeaderValue.toStr value)

/-- What stands between the quotes of a tag, weak or not. -/
def opaqueTag (bytes : List UInt8) : Option (List UInt8) := (Ranges.tag bytes).map Prod.snd

def validator (p : Platform) (entry : Entry) : Option Validator :=
  if entry.status ≠ 200 || entry.headers.containsKey "content-encoding" then none
  else do
    match ← single entry.headers "etag" with
    | some tag => (opaqueTag tag).map fun _ => .entityTag tag
    | none =>
      match ← single entry.headers "last-modified" with
      | some modified => (date p modified).map fun _ => .modifiedSince modified
      | none => none

/-- A date need not be repeated; a tag must be. -/
def sameValidator (p : Platform) (v : Validator) (tag modified : Option (List UInt8)) : Option Unit :=
  match v with
  | .entityTag old => do
    let new ← tag
    guard (opaqueTag new = opaqueTag old)
  | .modifiedSince old =>
    match modified with
    | some new => do guard ((← date p new) = (← date p old))
    | none => some ()

def sameLength (entry : Entry) (length : Option (List UInt8)) : Option Unit :=
  match length with
  | some length => do
    let length ← Text.parseUnsigned (2 ^ 64) (← HeaderValue.toStr length)
    guard (length = entry.body.length)
  | none => some ()

/-- The checks that come before anything is written. -/
def checked (p : Platform) (entry : Entry) (v : Validator) (incoming : HeaderMap) : Option Unit := do
  guard !(incoming.containsKey "content-range" || incoming.containsKey "content-encoding")
  let tag ← single incoming "etag"
  guard (tag.all fun tag => (opaqueTag tag).isSome)
  let modified ← single incoming "last-modified"
  guard (modified.all fun modified => (date p modified).isSome)
  sameValidator p v tag modified
  sameLength entry (← single incoming "content-length")

/-- Fields of one hop, and the field that the cache writes itself. -/
def transport : List String :=
  ["connection", "keep-alive", "proxy-authenticate", "proxy-authorization", "te", "trailer", "transfer-encoding", "upgrade",
    "cache-status"]

def nominated (headers : HeaderMap) : List String :=
  ((headers.getAll "connection").filterMap HeaderValue.toStr).flatMap fun line =>
    (Text.splitAll ',' line).filterMap fun token => HeaderName.fromBytes (Text.trim token)

def stripTransport (headers : HeaderMap) : HeaderMap := transport.foldl HeaderMap.remove ((nominated headers).foldl HeaderMap.remove headers)

/-- The stored fields, with those of the answer in their place. -/
def overlay (stored incoming : HeaderMap) : HeaderMap :=
  incoming.keys.foldl (fun headers name =>
    (incoming.getAll name).foldl (fun headers value => headers.append name value) (headers.remove name))
    (["age", "date"].foldl HeaderMap.remove stored)

/-- A `304` takes on the stored answer, or stays what it was. -/
def merge (p : Platform) (entry : Entry) (v : Validator) (response : Response) : Option Unit × Response :=
  match checked p entry v response.headers with
  | none => (none, response)
  | some () =>
    match HeaderValue.fromStr (toString entry.body.length) with
    | none => (none, response)
    | some length =>
      (some (), { status := some 200,
                  headers := (stripTransport (overlay entry.headers response.headers)).insert "content-length" length,
                  body := .once entry.body })

/-! What a merge does. -/

/-- A line of `Connection` that reads as text lists the field. -/
def Nominated (headers : HeaderMap) (name : String) : Prop :=
  ∃ value ∈ headers.getAll "connection", ∃ text, HeaderValue.toStr value = some text ∧
    ∃ token ∈ Text.splitAll ',' text, HeaderName.fromBytes (Text.trim token) = some name

/-- The answer that a client gets for a stored one that was validated. -/
structure Merged (stored : Entry) (incoming : HeaderMap) (out : Response) : Prop where
  status : out.status = some 200
  body : out.body = .once stored.body
  length : ∃ value, out.headers.getAll "content-length" = [value] ∧
    HeaderValue.toStr value = some (toString stored.body.length)
  fresh : ∀ name, name ∉ transport → name ≠ "content-length" → ¬ Nominated stored.headers name → ¬ Nominated incoming name →
    incoming.getAll name ≠ [] → out.headers.getAll name = incoming.getAll name
  kept : ∀ name, name ∉ transport → name ≠ "content-length" → ¬ Nominated stored.headers name → ¬ Nominated incoming name →
    incoming.getAll name = [] → name ∉ ["age", "date"] → out.headers.getAll name = stored.headers.getAll name
  dated : ∀ name ∈ ["age", "date"], out.headers.getAll name = incoming.getAll name ∨ out.headers.getAll name = []
  transport : ∀ name ∈ transport, out.headers.getAll name = []
  nominated : ∀ name, name ≠ "content-length" →
    Nominated (if incoming.getAll "connection" = [] then stored.headers else incoming) name → out.headers.getAll name = []

/-- The two fields are the same tag, by weak comparison. -/
def SameTag (a b : List UInt8) : Prop := ∃ inner, opaqueTag a = some inner ∧ opaqueTag b = some inner

def SameInstant (p : Platform) (a b : List UInt8) : Prop := ∃ instant, date p a = some instant ∧ date p b = some instant

/-- Nothing in the answer speaks of another representation than the stored one. -/
structure Consistent (p : Platform) (stored : Entry) (incoming : HeaderMap) : Prop where
  range : incoming.getAll "content-range" = []
  encoding : incoming.getAll "content-encoding" = []
  length : incoming.getAll "content-length" = [] ∨ ∃ value text, incoming.getAll "content-length" = [value] ∧
    HeaderValue.toStr value = some text ∧ Text.parseUnsigned (2 ^ 64) text = some stored.body.length
  tagged : ∀ old, stored.headers.getAll "etag" = [old] → ∃ new, incoming.getAll "etag" = [new] ∧ SameTag new old
  modified : stored.headers.getAll "etag" = [] → ∀ new ∈ incoming.getAll "last-modified",
    ∃ old, stored.headers.getAll "last-modified" = [old] ∧ SameInstant p new old

/-! Reading fields. -/

theorem single_iff {headers : HeaderMap} {name : String} {value : Option (List UInt8)} :
    single headers name = some value ↔ headers.getAll name = value.toList := by
  unfold single
  split
  · rename_i h
    cases value <;> simp [h]
  · rename_i h
    cases value <;> simp [h]
  · rename_i hnil hone
    cases value with
    | none => simpa using hnil
    | some value => simpa using hone value

theorem mem_nominated {headers : HeaderMap} {name : String} : name ∈ nominated headers ↔ Nominated headers name := by
  simp only [nominated, Nominated, List.mem_flatMap, List.mem_filterMap]
  constructor
  · rintro ⟨text, ⟨value, hvalue, htext⟩, hname⟩
    exact ⟨value, hvalue, text, htext, hname⟩
  · rintro ⟨value, hvalue, text, htext, hname⟩
    exact ⟨text, ⟨value, hvalue, htext⟩, hname⟩

theorem nominated_congr {a b : HeaderMap} (h : a.getAll "connection" = b.getAll "connection") {name : String} :
    Nominated a name ↔ Nominated b name := by
  rw [Nominated, Nominated, h]

theorem getAll_stripTransport (headers : HeaderMap) (name : String) : (stripTransport headers).getAll name =
    if name ∈ transport ∨ name ∈ nominated headers then [] else headers.getAll name := by
  rw [stripTransport, HeaderMap.getAll_foldl_remove, HeaderMap.getAll_foldl_remove]
  by_cases ht : name ∈ transport <;> simp [ht]

theorem getAll_foldl_append (values : List (List UInt8)) (headers : HeaderMap) (name other : String) :
    (values.foldl (fun headers value => headers.append name value) headers).getAll other =
      headers.getAll other ++ if name = other then values else [] := by
  induction values generalizing headers with
  | nil => simp
  | cons value values ih =>
    rw [List.foldl_cons, ih, HeaderMap.getAll_append_field]
    by_cases h : name = other <;> simp [h]

theorem getAll_foldl_replace (incoming : HeaderMap) (names : List String) (headers : HeaderMap) (name : String) :
    (names.foldl (fun headers name => (incoming.getAll name).foldl (fun headers value => headers.append name value)
      (headers.remove name)) headers).getAll name = if name ∈ names then incoming.getAll name else headers.getAll name := by
  induction names generalizing headers with
  | nil => simp
  | cons first names ih =>
    rw [List.foldl_cons, ih, getAll_foldl_append]
    by_cases h : first = name
    · subst h
      simp [HeaderMap.getAll_remove_self]
    · simp [h, Ne.symm h, HeaderMap.getAll_remove_ne headers (Ne.symm h)]

theorem getAll_overlay (stored incoming : HeaderMap) (name : String) : (overlay stored incoming).getAll name =
    if incoming.getAll name ≠ [] then incoming.getAll name else if name ∈ ["age", "date"] then [] else stored.getAll name := by
  have hkeys : name ∈ incoming.keys ↔ incoming.getAll name ≠ [] := by
    simp [HeaderMap.keys, HeaderMap.getAll, List.filterMap_eq_nil_iff]
  rw [overlay, getAll_foldl_replace, HeaderMap.getAll_foldl_remove]
  simp only [hkeys]

theorem fromStr_length (n : Nat) : ∃ value, HeaderValue.fromStr (toString n) = some value := by
  have hdigits : (toString n).toList = Nat.toDigits 10 n := Nat.toList_repr
  refine ⟨_, if_pos ?_⟩
  rw [List.all_eq_true, hdigits]
  intro c hc
  have hprinted := Proxy.printed_of_digit (Nat.isDigit_of_mem_toDigits (by decide) (by decide) hc)
  have hlow : 32 ≤ c.toNat ∧ c.toNat < 127 := ⟨hprinted.1.le, hprinted.2⟩
  simp [hlow]

/-! What is written, and when. -/

variable {p : Platform} {entry : Entry} {v : Validator} {response : Response} {incoming : HeaderMap}

theorem merged_fields {length : List UInt8} (hlength : HeaderValue.toStr length = some (toString entry.body.length)) :
    Merged entry incoming { status := some 200,
                            headers := (stripTransport (overlay entry.headers incoming)).insert "content-length" length,
                            body := .once entry.body } := by
  have hkept : ∀ name, name ≠ "content-length" → name ∉ transport → name ∉ Revalidate.nominated (overlay entry.headers incoming) →
      ((stripTransport (overlay entry.headers incoming)).insert "content-length" length).getAll name =
        if incoming.getAll name ≠ [] then incoming.getAll name
        else if name ∈ ["age", "date"] then [] else entry.headers.getAll name := by
    intro name hne ht hn
    rw [HeaderMap.getAll_insert_ne _ hne, getAll_stripTransport, if_neg (not_or.mpr ⟨ht, hn⟩), getAll_overlay]
  have hgone : ∀ name, name ≠ "content-length" → name ∈ transport ∨ name ∈ Revalidate.nominated (overlay entry.headers incoming) →
      ((stripTransport (overlay entry.headers incoming)).insert "content-length" length).getAll name = [] := by
    intro name hne h
    rw [HeaderMap.getAll_insert_ne _ hne, getAll_stripTransport, if_pos h]
  -- The lines that nominate are those of the answer, or else the stored ones.
  have hlines : (overlay entry.headers incoming).getAll "connection" =
      (if incoming.getAll "connection" = [] then entry.headers else incoming).getAll "connection" := by
    rw [getAll_overlay]
    by_cases hc : incoming.getAll "connection" = [] <;> simp [hc]
  have hnominated : ∀ name, name ∈ Revalidate.nominated (overlay entry.headers incoming) ↔
      Nominated (if incoming.getAll "connection" = [] then entry.headers else incoming) name :=
    fun name => mem_nominated.trans (nominated_congr hlines)
  have hfree : ∀ name, ¬ Nominated entry.headers name → ¬ Nominated incoming name →
      name ∉ Revalidate.nominated (overlay entry.headers incoming) := by
    intro name hs hi hn
    rw [hnominated] at hn
    split at hn
    · exact hs hn
    · exact hi hn
  constructor
  · rfl
  · rfl
  · exact ⟨length, HeaderMap.getAll_insert_self _ _ _, hlength⟩
  · intro name ht hne hs hi hin
    rw [hkept name hne ht (hfree name hs hi), if_pos hin]
  · intro name ht hne hs hi hin hdate
    rw [hkept name hne ht (hfree name hs hi), if_neg (not_not.mpr hin), if_neg hdate]
  · intro name hdate
    have hne : name ≠ "content-length" := by
      rintro rfl
      exact absurd hdate (by decide)
    by_cases hn : name ∈ transport ∨ name ∈ Revalidate.nominated (overlay entry.headers incoming)
    · exact .inr (hgone name hne hn)
    · obtain ⟨ht, hn⟩ := not_or.mp hn
      by_cases hin : incoming.getAll name = []
      · exact .inr (by rw [hkept name hne ht hn, if_neg (not_not.mpr hin), if_pos hdate])
      · exact .inl (by rw [hkept name hne ht hn, if_pos hin])
  · intro name ht
    refine hgone name ?_ (.inl ht)
    rintro rfl
    exact absurd ht (by decide)
  · exact fun name hne hn => hgone name hne (.inr ((hnominated name).mpr hn))

theorem validator_some (h : validator p entry = some v) :
    (∃ old inner, entry.headers.getAll "etag" = [old] ∧ opaqueTag old = some inner ∧ v = .entityTag old) ∨
      (entry.headers.getAll "etag" = [] ∧ ∃ old instant, entry.headers.getAll "last-modified" = [old] ∧
        date p old = some instant ∧ v = .modifiedSince old) := by
  unfold validator at h
  split at h
  · cases h
  · obtain ⟨tag, htag, h⟩ := Option.bind_eq_some_iff.mp h
    rw [single_iff] at htag
    cases tag with
    | some tag =>
      obtain ⟨inner, hinner, rfl⟩ := Option.map_eq_some_iff.mp h
      exact .inl ⟨tag, inner, htag, hinner, rfl⟩
    | none =>
      obtain ⟨modified, hmodified, h⟩ := Option.bind_eq_some_iff.mp h
      rw [single_iff] at hmodified
      cases modified with
      | none => cases h
      | some modified =>
        obtain ⟨instant, hinstant, rfl⟩ := Option.map_eq_some_iff.mp h
        exact .inr ⟨htag, modified, instant, hmodified, hinstant, rfl⟩

theorem sameLength_some {length : Option (List UInt8)} (h : sameLength entry length = some ()) :
    length = none ∨ ∃ value text, length = some value ∧ HeaderValue.toStr value = some text ∧
      Text.parseUnsigned (2 ^ 64) text = some entry.body.length := by
  cases length with
  | none => exact .inl rfl
  | some value =>
    simp only [sameLength, Option.bind_eq_bind, Option.bind_eq_some_iff, Option.guard_eq_some'] at h
    obtain ⟨text, htext, _, hlength, rfl⟩ := h
    exact .inr ⟨value, text, rfl, htext, hlength⟩

theorem checked_consistent (hv : validator p entry = some v) (h : checked p entry v incoming = some ()) :
    Consistent p entry incoming := by
  simp only [checked, Option.bind_eq_bind, Option.bind_eq_some_iff, Option.guard_eq_some', single_iff] at h
  obtain ⟨_, hwhole, tag, htag, _, _, modified, hmodified, _, _, _, hsame, length, hlength, hmatch⟩ := h
  simp only [Bool.not_eq_true', Bool.or_eq_false_iff, HeaderMap.containsKey_iff] at hwhole
  have hold := validator_some hv
  constructor
  · exact hwhole.1
  · exact hwhole.2
  · rcases sameLength_some hmatch with rfl | ⟨value, text, rfl, htext, hparse⟩
    · exact .inl hlength
    · exact .inr ⟨value, text, hlength, htext, hparse⟩
  · intro old htagged
    rcases hold with ⟨old', inner, hold', hinner, rfl⟩ | ⟨hnone, _⟩
    · obtain rfl : old' = old := by simpa [hold'] using htagged
      simp only [sameValidator, Option.bind_eq_bind, Option.bind_eq_some_iff, Option.guard_eq_some'] at hsame
      obtain ⟨new, rfl, hequal⟩ := hsame
      exact ⟨new, htag, inner, hequal.trans hinner, hinner⟩
    · rw [hnone] at htagged
      cases htagged
  · intro hnone new hnew
    rcases hold with ⟨old', _, hold', _⟩ | ⟨_, old, instant, hold, hinstant, rfl⟩
    · rw [hold'] at hnone
      cases hnone
    · cases modified with
      | none =>
        rw [hmodified] at hnew
        cases hnew
      | some value =>
        obtain rfl : new = value := by simpa [hmodified] using hnew
        simp only [sameValidator, Option.bind_eq_bind, Option.bind_eq_some_iff, Option.guard_eq_some'] at hsame
        obtain ⟨instant', hnew', _, hold', rfl⟩ := hsame
        exact ⟨old, hold, instant', hnew', hold'⟩

/-- A merge is whole or does nothing, and is made only of fields and a body that speak of one representation. -/
theorem merge_exact (p : Platform) (entry : Entry) (v : Validator) (response : Response) (hv : validator p entry = some v) :
    ((merge p entry v response).1 = none ∧ (merge p entry v response).2 = response) ∨
      ((merge p entry v response).1 = some () ∧ Merged entry response.headers (merge p entry v response).2 ∧
        Consistent p entry response.headers) := by
  cases hchecked : checked p entry v response.headers with
  | none =>
    have hmerge : merge p entry v response = (none, response) := by rw [merge, hchecked]
    rw [hmerge]
    exact .inl ⟨rfl, rfl⟩
  | some _ =>
    obtain ⟨length, hlength⟩ := fromStr_length entry.body.length
    have hmerge : merge p entry v response =
        (some (), { status := some 200,
                    headers := (stripTransport (overlay entry.headers response.headers)).insert "content-length" length,
                    body := .once entry.body }) := by
      rw [merge, hchecked]
      simp only [hlength]
    rw [hmerge]
    exact .inr ⟨rfl, merged_fields (HeaderValue.toStr_fromStr hlength), checked_consistent hv hchecked⟩

/-- A platform that reads the dates of two seconds. -/
def twoSeconds : Platform where
  blake3 := fun _ => .zero
  parseHttpDate := fun text =>
    if text = "Thu, 01 Jan 1970 00:00:00 GMT" then some 0 else if text = "Thu, 01 Jan 1970 00:00:01 GMT" then some 1 else none

/-- A stored answer with a tag. -/
def tagged (more : HeaderMap) : Entry := ⟨200, ("etag", [0x22, 0x61, 0x22]) :: more, [], 0, ⟨0, by decide⟩, ⟨0, by decide⟩⟩

/-- What a `304` that repeats the tag is turned into. -/
def answered (stored incoming : HeaderMap) : Option Unit × Response :=
  merge twoSeconds (tagged stored) (.entityTag [0x22, 0x61, 0x22]) ⟨some 304, ("etag", [0x22, 0x61, 0x22]) :: incoming, .none⟩

theorem merge_exact_tagged : ((answered [] []).1 = none ∧ (answered [] []).2 = ⟨some 304, [("etag", [0x22, 0x61, 0x22])], .none⟩) ∨
    ((answered [] []).1 = some () ∧ Merged (tagged []) [("etag", [0x22, 0x61, 0x22])] (answered [] []).2 ∧
      Consistent twoSeconds (tagged []) [("etag", [0x22, 0x61, 0x22])]) :=
  merge_exact twoSeconds (tagged []) (.entityTag [0x22, 0x61, 0x22]) ⟨some 304, [("etag", [0x22, 0x61, 0x22])], .none⟩ (by decide)

/-- `Cache-Status` of a `304` goes, its `Last-Modified` is not compared beside a tag, and nominations of the stored answer
count only where the `304` has none, then also against its own fields. -/
theorem merge_differs :
    ((answered [] [("cache-status", [0x78])]).1 = some () ∧
      (answered [] [("cache-status", [0x78])]).2.headers.getAll "cache-status" = []) ∧
    (answered [("last-modified", "Thu, 01 Jan 1970 00:00:00 GMT".toList.map fun c => UInt8.ofNat c.toNat)]
      [("last-modified", "Thu, 01 Jan 1970 00:00:01 GMT".toList.map fun c => UInt8.ofNat c.toNat)]).1 = some () ∧
    (answered [("connection", [0x78])] [("x", [0x79])]).2.headers.getAll "x" = [] ∧
    (answered [("connection", [0x78]), ("x", [0x79])] [("connection", [0x7a])]).2.headers.getAll "x" = [[0x79]] := by
  decide +kernel

end Revalidate
end Gatel.Cache
