import Gatel.Cache.Directives

namespace Gatel

/-- Where nothing is a wildcard, every line reads as text and none of its parts is `*`. -/
theorem Vary.collect_parts {lines : List (List UInt8)} {acc names : List String} (h : collect lines acc = some names) :
    ∀ line ∈ lines, ∃ text, HeaderValue.toStr line = some text ∧ ∀ part ∈ parts text, part ≠ "*" := by
  induction lines generalizing acc with
  | nil => exact fun line hl => absurd hl List.not_mem_nil
  | cons value values ih =>
    rw [collect] at h
    split at h
    · cases h
    · rename_i text htext
      split at h
      · cases h
      · rename_i hplain
        intro line hl
        rcases List.mem_cons.mp hl with rfl | hl
        · refine ⟨text, htext, fun part hpart he => hplain (List.any_eq_true.mpr ⟨part, hpart, ?_⟩)⟩
          rw [he]
          rfl
        · exact ih h line hl

theorem Vary.parts_of_names {headers : HeaderMap} (h : "*" ∉ names headers) :
    ∀ line ∈ headers.getAll "vary", ∃ text, HeaderValue.toStr line = some text ∧
      ∀ part ∈ Text.splitAll ',' text, Text.trim part ≠ "*" := by
  intro line hl
  rw [names] at h
  cases hc : collect (headers.getAll "vary") [] with
  | none =>
    rw [hc] at h
    exact absurd List.mem_cons_self h
  | some found =>
    obtain ⟨text, htext, hparts⟩ := collect_parts hc line hl
    refine ⟨text, htext, fun part hpart he => ?_⟩
    refine hparts "*" (List.mem_filter.mpr ⟨List.mem_map.mpr ⟨part, hpart, he⟩, by decide⟩) rfl

namespace Cache.Policy

variable {p : Platform} {requestHeaders : HeaderMap} {response : Response} {defaultTtl : Option Duration} {wall : Nat}
  {ttl : Duration}

/-- So many seconds. -/
def lasting (n : Nat) : Duration := Duration.fromSecs (Fin.ofNat _ n)

/-- The date of the first field of a name. -/
def dated (p : Platform) (headers : HeaderMap) (name : String) : Option Nat :=
  ((headers.get name).bind HeaderValue.toStr).bind p.parseHttpDate

/-- A lifetime that a response allows. -/
structure Allows (p : Platform) (requestHeaders : HeaderMap) (response : Response) (defaultTtl : Option Duration)
    (wall : Nat) (ttl : Duration) : Prop where
  readable : ∀ line ∈ response.headers.getAll "cache-control",
    ∃ text elements, HeaderValue.toStr line = some text ∧ Spells text.toList elements
  silent : ∀ name ∈ ["no-store", "private", "no-cache"], ∀ value, ¬ Directive response.headers name value
  noCookie : response.headers.containsKey "set-cookie" = false
  noWildcard : ∀ line ∈ response.headers.getAll "vary", ∃ text, HeaderValue.toStr line = some text ∧
    ∀ part ∈ Text.splitAll ',' text, Text.trim part ≠ "*"
  authorised : requestHeaders.containsKey "authorization" = true →
    (∃ value, Directive response.headers "public" value) ∨ ∃ value, Directive response.headers "s-maxage" value
  shared : ∀ value, Directive response.headers "s-maxage" value →
    ∃ text n, value = some text ∧ Decimal text.toList n ∧ ttl = lasting n
  own : (∀ value, ¬ Directive response.headers "s-maxage" value) → ∀ value, Directive response.headers "max-age" value →
    ∃ text n, value = some text ∧ Decimal text.toList n ∧ ttl = lasting n
  expires : (∀ value, ¬ Directive response.headers "s-maxage" value) → (∀ value, ¬ Directive response.headers "max-age" value) →
    response.headers.containsKey "expires" = true → ∃ expiry, dated p response.headers "expires" = some expiry ∧
      (dated p response.headers "date").getD wall < expiry ∧
      ttl = lasting (expiry - (dated p response.headers "date").getD wall)
  default : (∀ value, ¬ Directive response.headers "s-maxage" value) → (∀ value, ¬ Directive response.headers "max-age" value) →
    response.headers.containsKey "expires" = false → defaultTtl = some ttl

/-- An `Expires` that is no date, and nothing else that decides. -/
structure Slip (p : Platform) (requestHeaders : HeaderMap) (response : Response) (defaultTtl : Option Duration) : Prop where
  status : cacheable.contains response.statusOr200 = true
  parsed : (Control.parse response.headers).isSome = true
  silent : ∀ name ∈ ["no-store", "private", "no-cache", "s-maxage", "max-age"],
    ∀ value, ¬ Directive response.headers name value
  noCookie : response.headers.containsKey "set-cookie" = false
  noWildcard : "*" ∉ Vary.names response.headers
  authorised : requestHeaders.containsKey "authorization" = true → ∃ value, Directive response.headers "public" value
  expires : response.headers.containsKey "expires" = true
  undated : dated p response.headers "expires" = none
  default : defaultTtl.isSome = true

/-- What `freshness` has found when it gets to the lifetime. -/
structure Passed (requestHeaders : HeaderMap) (response : Response) (control : Control) : Prop where
  status : cacheable.contains response.statusOr200 = true
  parsed : Control.parse response.headers = some control
  silent : (["no-store", "private", "no-cache"].any control.contains) = false
  noCookie : response.headers.containsKey "set-cookie" = false
  noWildcard : "*" ∉ Vary.names response.headers
  authorised : (requestHeaders.containsKey "authorization" && !control.contains "public" &&
    (control.saysSeconds "s-maxage").isNone) = false

theorem freshness_ok : freshness p requestHeaders response defaultTtl wall = .ok ttl ↔
    ∃ control, Passed requestHeaders response control ∧
      (match freshnessSeconds p control response.headers wall with
        | some (.error _) => False
        | some (.ok n) => ttl = lasting n
        | none => defaultTtl = some ttl) := by
  unfold freshness
  constructor
  · intro h
    split at h
    · cases h
    · rename_i hstatus
      split at h
      · cases h
      · rename_i control hparsed
        split at h
        · cases h
        · rename_i hsilent
          split at h
          · cases h
          · rename_i hcookie
            split at h
            · cases h
            · rename_i hvary
              split at h
              · cases h
              · rename_i hauth
                refine ⟨control, ⟨by simpa using hstatus, hparsed, Bool.eq_false_iff.mpr hsilent,
                  Bool.eq_false_iff.mpr hcookie, fun hm => hvary (List.contains_iff_mem.mpr hm),
                  Bool.eq_false_iff.mpr hauth⟩, ?_⟩
                rcases hn : freshnessSeconds p control response.headers wall with _ | ⟨_ | n⟩
                · simp only [hn] at h ⊢
                  cases defaultTtl with
                  | none => cases h
                  | some d => rw [Except.ok.inj h]
                · simp only [hn] at h
                  cases h
                · simp only [hn] at h ⊢
                  exact (Except.ok.inj h).symm
  · rintro ⟨control, hpassed, h⟩
    have hvary : (Vary.names response.headers).contains "*" = false :=
      Bool.eq_false_iff.mpr fun hm => hpassed.noWildcard (List.contains_iff_mem.mp hm)
    rw [hpassed.status, hpassed.parsed]
    simp only [Bool.not_true, Bool.false_eq_true, if_false, hpassed.silent, hpassed.noCookie, hvary, hpassed.authorised]
    rcases hn : freshnessSeconds p control response.headers wall with _ | ⟨_ | n⟩
    · simp only [hn] at h ⊢
      simp only [h]
    · simp only [hn] at h
    · simp only [hn] at h ⊢
      rw [h]
      rfl

theorem expiresIn_eq : expiresIn p response.headers wall =
    (dated p response.headers "expires").map fun expiry => expiry - (dated p response.headers "date").getD wall := by
  unfold expiresIn dated
  cases response.headers.get "expires" with
  | none => rfl
  | some value =>
    cases hv : HeaderValue.toStr value with
    | none => simp [hv]
    | some text =>
      cases hd : p.parseHttpDate text with
      | none => simp [hv, hd]
      | some expiry => simp [hv, hd]

theorem dated_some {headers : HeaderMap} {name : String} {n : Nat} (h : dated p headers name = some n) :
    headers.containsKey name = true := by
  obtain ⟨text, hbind, _⟩ := Option.bind_eq_some_iff.mp h
  obtain ⟨value, hget, _⟩ := Option.bind_eq_some_iff.mp hbind
  have hmem : value ∈ headers.getAll name := List.mem_of_head? hget
  obtain ⟨field, hfield, hname⟩ := List.mem_filterMap.mp hmem
  refine List.any_eq_true.mpr ⟨field, hfield, ?_⟩
  split at hname
  · rename_i he
    exact decide_eq_true he
  · cases hname

theorem mem_seconds : "s-maxage" ∈ ["max-age", "s-maxage", "min-fresh"] ∧ "max-age" ∈ ["max-age", "s-maxage", "min-fresh"] := by
  decide

/-- What a response says itself decides, before anything else does. -/
theorem freshnessSeconds_of_directive {control : Control} (h : Control.parse response.headers = some control) {name : String}
    (hname : name = "s-maxage" ∨ (name = "max-age" ∧ ∀ value, ¬ Directive response.headers "s-maxage" value))
    {value : Option String} (hdir : Directive response.headers name value) :
    ∃ text n, value = some text ∧ Decimal text.toList n ∧
      freshnessSeconds p control response.headers wall = some (if n = 0 then .error .noFreshness else .ok n) := by
  have hin : name ∈ ["max-age", "s-maxage", "min-fresh"] := by
    rcases hname with rfl | ⟨rfl, _⟩
    · exact mem_seconds.1
    · exact mem_seconds.2
  obtain ⟨text, n, rfl, hdec, _, hsaid⟩ := Control.seconds_of_directive h hin hdir
  refine ⟨text, n, rfl, hdec, ?_⟩
  have hor : (control.saysSeconds "s-maxage").or (control.saysSeconds "max-age") = some n := by
    rcases hname with rfl | ⟨rfl, hno⟩
    · rw [hsaid]
      rfl
    · rw [(Control.saysSeconds_none h mem_seconds.1).mpr hno, hsaid]
      rfl
  rw [freshnessSeconds, hor]

theorem freshnessSeconds_silent {control : Control} (h : Control.parse response.headers = some control)
    (hshared : ∀ value, ¬ Directive response.headers "s-maxage" value)
    (hown : ∀ value, ¬ Directive response.headers "max-age" value) :
    freshnessSeconds p control response.headers wall = (dated p response.headers "expires").map fun expiry =>
      if expiry - (dated p response.headers "date").getD wall = 0 then .error .noFreshness
      else .ok (expiry - (dated p response.headers "date").getD wall) := by
  rw [freshnessSeconds, (Control.saysSeconds_none h mem_seconds.1).mpr hshared,
    (Control.saysSeconds_none h mem_seconds.2).mpr hown, Option.or_none]
  dsimp only
  rw [expiresIn_eq, Option.map_map]
  rfl

theorem silent_iff {control : Control} (h : Control.parse response.headers = some control) :
    (["no-store", "private", "no-cache"].any control.contains) = false ↔
      ∀ name ∈ ["no-store", "private", "no-cache"], ∀ value, ¬ Directive response.headers name value := by
  rw [List.any_eq_false]
  refine forall₂_congr fun name _ => ?_
  rw [Control.contains_iff h, not_exists]

theorem authorised_iff {control : Control} (h : Control.parse response.headers = some control) :
    (requestHeaders.containsKey "authorization" && !control.contains "public" &&
        (control.saysSeconds "s-maxage").isNone) = false ↔
      (requestHeaders.containsKey "authorization" = true →
        (∃ value, Directive response.headers "public" value) ∨ ∃ value, Directive response.headers "s-maxage" value) := by
  have hpublic := Control.contains_iff h "public"
  have hshared := Control.saysSeconds_none h mem_seconds.1
  rw [← not_exists] at hshared
  rw [← hpublic, ← not_not (a := ∃ value, Directive response.headers "s-maxage" value), ← hshared]
  cases requestHeaders.containsKey "authorization" <;> cases control.contains "public" <;>
    cases control.saysSeconds "s-maxage" <;> simp

theorem Passed.allows {control : Control} (h : Passed requestHeaders response control)
    (hslip : ¬ Slip p requestHeaders response defaultTtl)
    (hlife : match freshnessSeconds p control response.headers wall with
      | some (.error _) => False
      | some (.ok n) => ttl = lasting n
      | none => defaultTtl = some ttl) : Allows p requestHeaders response defaultTtl wall ttl := by
  have hsilent := (silent_iff h.parsed).mp h.silent
  have hauth := (authorised_iff h.parsed).mp h.authorised
  have hsaid : ∀ {name : String}, (name = "s-maxage" ∨ (name = "max-age" ∧ ∀ value, ¬ Directive response.headers "s-maxage" value)) →
      ∀ value, Directive response.headers name value → ∃ text n, value = some text ∧ Decimal text.toList n ∧ ttl = lasting n := by
    intro name hname value hdir
    obtain ⟨text, n, hvalue, hdec, hseconds⟩ := @freshnessSeconds_of_directive p response wall _ h.parsed _ hname _ hdir
    rw [hseconds] at hlife
    by_cases hzero : n = 0
    · rw [if_pos hzero] at hlife
      exact hlife.elim
    · rw [if_neg hzero] at hlife
      exact ⟨text, n, hvalue, hdec, hlife⟩
  refine ⟨(Control.parse_exact h.parsed).2.1, hsilent, h.noCookie, Vary.parts_of_names h.noWildcard, hauth, hsaid (.inl rfl),
    fun hno => hsaid (.inr ⟨rfl, hno⟩), ?_, ?_⟩
  · intro hshared hown hexpires
    rw [freshnessSeconds_silent h.parsed hshared hown] at hlife
    cases hdated : dated p response.headers "expires" with
    | none =>
      rw [hdated] at hlife
      have hall : ∀ name ∈ ["no-store", "private", "no-cache", "s-maxage", "max-age"],
          ∀ value, ¬ Directive response.headers name value := by
        intro name hname
        rcases List.mem_append.mp (show name ∈ ["no-store", "private", "no-cache"] ++ ["s-maxage", "max-age"] from hname) with hn | hn
        · exact hsilent name hn
        · rcases List.mem_cons.mp hn with rfl | hn
          · exact hshared
          · obtain rfl := List.mem_singleton.mp hn
            exact hown
      refine absurd ⟨h.status, by rw [h.parsed]; rfl, hall, h.noCookie, h.noWildcard, ?_, hexpires, hdated, ?_⟩ hslip
      · intro ha
        exact (hauth ha).resolve_right fun hs => hs.elim hshared
      · exact Option.isSome_iff_exists.mpr ⟨ttl, hlife⟩
    | some expiry =>
      rw [hdated] at hlife
      simp only [Option.map_some] at hlife
      by_cases hpast : expiry - (dated p response.headers "date").getD wall = 0
      · rw [if_pos hpast] at hlife
        exact hlife.elim
      · rw [if_neg hpast] at hlife
        exact ⟨expiry, rfl, by omega, hlife⟩
  · intro hshared hown hnone
    have hdated : dated p response.headers "expires" = none := by
      cases hd : dated p response.headers "expires" with
      | none => rfl
      | some expiry =>
        rw [dated_some hd] at hnone
        cases hnone
    rw [freshnessSeconds_silent h.parsed hshared hown, hdated] at hlife
    exact hlife

/-- A slip is stored under the configured default. -/
theorem Slip.stored (h : Slip p requestHeaders response (some ttl)) :
    freshness p requestHeaders response (some ttl) wall = .ok ttl := by
  obtain ⟨control, hparsed⟩ := Option.isSome_iff_exists.mp h.parsed
  have hnone : ∀ name ∈ ["s-maxage", "max-age"], ∀ value, ¬ Directive response.headers name value := fun name hname =>
    h.silent name (List.mem_append_right ["no-store", "private", "no-cache"] hname)
  refine freshness_ok.2 ⟨control, ⟨h.status, hparsed, ?_, h.noCookie, h.noWildcard, ?_⟩, ?_⟩
  · rw [silent_iff hparsed]
    exact fun name hname => h.silent name (List.mem_append_left ["s-maxage", "max-age"] hname)
  · rw [authorised_iff hparsed]
    exact fun ha => .inl (h.authorised ha)
  · rw [freshnessSeconds_silent hparsed (hnone _ List.mem_cons_self) (hnone _ (by decide)), h.undated]
    rfl

/-- `freshness` allows no lifetime that the response does not, unless its `Expires` is no date. -/
theorem freshness_iff (p : Platform) (requestHeaders : HeaderMap) (response : Response) (defaultTtl : Option Duration)
    (wall : Nat) :
    (∀ ttl, freshness p requestHeaders response defaultTtl wall = .ok ttl →
      Allows p requestHeaders response defaultTtl wall ttl) ↔ ¬ Slip p requestHeaders response defaultTtl := by
  constructor
  · intro h hslip
    obtain ⟨ttl, rfl⟩ := Option.isSome_iff_exists.mp hslip.default
    have hallows := h ttl hslip.stored
    obtain ⟨expiry, hexpiry, _⟩ := hallows.expires (hslip.silent _ (by decide)) (hslip.silent _ (by decide)) hslip.expires
    rw [hslip.undated] at hexpiry
    cases hexpiry
  · intro hslip ttl hok
    obtain ⟨control, hpassed, hlife⟩ := freshness_ok.1 hok
    exact hpassed.allows hslip hlife

/-- `Expires: 0` is stored for as long as the configuration says. -/
theorem freshness_undated : ¬ ∀ (p : Platform) (requestHeaders : HeaderMap) (response : Response)
    (defaultTtl : Option Duration) (wall : Nat) (ttl : Duration),
    freshness p requestHeaders response defaultTtl wall = .ok ttl → Allows p requestHeaders response defaultTtl wall ttl := by
  intro h
  have hallows := h ⟨fun _ => .zero, fun _ => none⟩ [] ⟨some 200, [("expires", "0".toUTF8.toList)], .none⟩
    (some (lasting 60)) 0 (lasting 60) (by decide +kernel)
  have hno : ∀ name value, ¬ Directive [("expires", "0".toUTF8.toList)] name value := by
    rintro name value ⟨line, hline, _⟩
    have hlines : HeaderMap.getAll [("expires", "0".toUTF8.toList)] "cache-control" = [] := by decide
    rw [hlines] at hline
    cases hline
  obtain ⟨expiry, hexpiry, _⟩ := hallows.expires (hno _) (hno _) (by decide)
  have hnone : dated ⟨fun _ => .zero, fun _ => none⟩ [("expires", "0".toUTF8.toList)] "expires" = none := by decide +kernel
  rw [hnone] at hexpiry
  cases hexpiry

end Cache.Policy
end Gatel
