import Gatel.Bundle.LocalRedirect
import Gatel.Cache.Policy
import Gatel.Plan.Selection
import Gatel.Proxy.Hygiene
import Gatel.Proxy.RequestHost

namespace Gatel
open Proxy (Printed)

/-- Text read out of a header value can be written back. -/
theorem HeaderValue.fromStr_toStr {value : List UInt8} {text : String} (h : HeaderValue.toStr value = some text) :
    HeaderValue.fromStr text = some value := by
  unfold HeaderValue.toStr at h
  split at h
  · rename_i hall
    cases h
    rw [List.all_eq_true] at hall
    have hnat : ∀ b ∈ value, (Char.ofNat b.toNat).toNat = b.toNat := by
      intro b hb
      have hok := hall b hb
      simp only [Bool.or_eq_true, Bool.and_eq_true, decide_eq_true_eq, beq_iff_eq, UInt8.le_iff_toNat_le, UInt8.lt_iff_toNat_lt,
        ← UInt8.toNat_inj] at hok
      refine Proxy.toNat_ofNat_of_lt ?_
      rcases hok with ⟨-, hlt⟩ | htab
      · exact Nat.lt_succ_of_lt hlt
      · rw [htab]
        decide
    have hback : (value.map fun b => Char.ofNat b.toNat).map (fun c => UInt8.ofNat c.toNat) = value := by
      rw [List.map_map]
      conv_rhs => rw [← List.map_id value]
      apply List.map_congr_left
      intro b hb
      simp [hnat b hb]
    unfold HeaderValue.fromStr
    rw [String.toList_ofList, hback, if_pos]
    rw [List.all_eq_true]
    intro c hc
    obtain ⟨b, hb, rfl⟩ := List.mem_map.mp hc
    have hok := hall b hb
    rw [hnat b hb]
    simpa [UInt8.le_iff_toNat_le, UInt8.lt_iff_toNat_lt, ← UInt8.toNat_inj] using hok
  · cases h

namespace Vary

/-- Add one name without losing what is already there. -/
def append (headers : HeaderMap) (name : String) : HeaderMap :=
  let values := names headers
  let values :=
    if values.any fun v => v == "*" || Text.lower v == Text.lower name then values else values ++ [Text.lower name]
  headers.insert "vary" ((HeaderValue.fromStr (String.intercalate ", " values)).getD (utf8 "*"))

/-! What a list of names reads as once it is written in one line. -/

/-- A name as it stands in a list: no blanks, no commas, in lower case. -/
structure Listed (name : String) : Prop where
  nonempty : name ≠ ""
  plain : ∀ c ∈ name.toList, Printed c ∧ c ≠ ','
  lower : Text.lower name = name

theorem printed_of_valid {name : String} (h : HeaderName.isValid name = true) :
    name ≠ "" ∧ ∀ c ∈ name.toList, Printed c ∧ c ≠ ',' := by
  constructor
  · rintro rfl
    cases h
  · intro c hc
    obtain ⟨hprinted, hcomma, _⟩ := Proxy.token_chars h c hc
    exact ⟨hprinted, hcomma⟩

theorem plain_toLower {c : Char} (h : Printed c ∧ c ≠ ',') : Printed c.toLower ∧ c.toLower ≠ ',' := by
  refine ⟨?_, fun he => h.2 (Proxy.toLower_eq (by decide) he)⟩
  by_cases hupper : 65 ≤ c.toNat ∧ c.toNat ≤ 90
  · have hnat := Proxy.toNat_toLower hupper.1 hupper.2
    exact ⟨by omega, by omega⟩
  · rw [Proxy.toLower_of_not_upper hupper]
    exact h.1

theorem listed_of_valid {name : String} (h : HeaderName.isValid name = true) : Listed (Text.lower name) := by
  obtain ⟨hne, hplain⟩ := printed_of_valid h
  refine ⟨?_, ?_, HostMatch.lower_lower name⟩
  · intro he
    apply hne
    have hnil := congrArg String.toList he
    simpa [Text.lower] using hnil
  · intro c hc
    simp only [Text.lower, String.toList_ofList, List.mem_map] at hc
    obtain ⟨d, hd, rfl⟩ := hc
    exact plain_toLower (hplain d hd)

theorem listed_star : Listed "*" := by
  refine ⟨by decide, ?_, by decide⟩
  intro c hc
  obtain rfl : c = '*' := by simpa using hc
  exact ⟨⟨by decide, by decide⟩, by decide⟩

theorem collect_listed {lines : List (List UInt8)} {acc found : List String} (h : collect lines acc = some found)
    (hacc : ∀ name ∈ acc, Listed name) : ∀ name ∈ found, Listed name := by
  induction lines generalizing acc with
  | nil =>
    cases h
    exact hacc
  | cons value values ih =>
    rw [collect] at h
    split at h
    · cases h
    · rename_i line hline
      split at h
      · cases h
      · rename_i hplain
        apply ih h
        intro name hname
        rcases List.mem_append.mp hname with hold | hnew
        · exact hacc name hold
        · obtain ⟨part, hpart, rfl⟩ := List.mem_map.mp hnew
          apply listed_of_valid
          by_contra hbad
          refine hplain (List.any_eq_true.mpr ⟨part, hpart, ?_⟩)
          rw [Bool.not_eq_true] at hbad
          rw [hbad]
          simp

theorem names_listed (headers : HeaderMap) : ∀ name ∈ names headers, Listed name := by
  intro name hname
  unfold names at hname
  cases hcollect : collect (headers.getAll "vary") [] with
  | none =>
    rw [hcollect] at hname
    obtain rfl := List.mem_singleton.mp hname
    exact listed_star
  | some found =>
    rw [hcollect] at hname
    have hmem := CanonicalSort.mem_sortBy.mp (List.mem_dedup.mp hname)
    exact collect_listed hcollect (by simp) name hmem

theorem Listed.no_comma {name : String} (h : Listed name) : ',' ∉ name.toList := fun hc => (h.plain _ hc).2 rfl

theorem Listed.trim {name : String} (h : Listed name) : Text.trim name = name := by
  have hcore : Text.trim (String.ofList ([] ++ name.toList ++ [])) = String.ofList name.toList :=
    Text.trim_around (by simp) (by simp) fun c hc => (h.plain c hc).1.not_blank
  simpa using hcore

theorem trim_blank (l : List Char) : Text.trim (String.ofList (' ' :: l)) = Text.trim (String.ofList l) := by
  have hblank : Text.isWhitespace ' ' = true := by decide
  simp [Text.trim, hblank]

theorem parts_of_chars (l : List Char) :
    parts (String.ofList l) = ((l.splitOn ',').map fun part => Text.trim (String.ofList part)).filter (· ≠ "") := by
  simp [parts, Text.splitAll, Function.comp_def]

theorem parts_blank (l : List Char) : parts (String.ofList (' ' :: l)) = parts (String.ofList l) := by
  rw [parts_of_chars, parts_of_chars, List.splitOn_cons_eq_if_modifyHead, if_neg (by decide)]
  congr 1
  cases l.splitOn ',' with
  | nil => rfl
  | cons part rest => rw [List.modifyHead_cons, List.map_cons, List.map_cons, trim_blank]

theorem parts_cons {name : String} (h : Listed name) (tail : String) :
    parts (name ++ ", " ++ tail) = name :: parts tail := by
  have htext : name ++ ", " ++ tail = String.ofList (name.toList ++ ',' :: ' ' :: tail.toList) := by
    apply String.toList_inj.mp
    simp
  have hrest : parts tail = parts (String.ofList (' ' :: tail.toList)) := by
    rw [parts_blank, String.ofList_toList]
  rw [htext, hrest, parts_of_chars, parts_of_chars, List.splitOn_append_cons_self_of_not_mem h.no_comma]
  simp [h.trim, h.nonempty]

theorem parts_single {name : String} (h : Listed name) : parts name = [name] := by
  conv_lhs => rw [← String.ofList_toList (s := name)]
  rw [parts_of_chars, List.splitOn_eq_singleton h.no_comma]
  simp [h.trim, h.nonempty]

theorem parts_join {values : List String} (h : ∀ value ∈ values, Listed value) :
    parts (String.intercalate ", " values) = values := by
  induction values with
  | nil =>
    have hempty := parts_of_chars []
    simpa [Text.trim] using hempty
  | cons value values ih =>
    have hvalue := h value List.mem_cons_self
    cases values with
    | nil => rw [String.intercalate_singleton, parts_single hvalue]
    | cons next rest =>
      rw [String.intercalate_cons_cons, parts_cons hvalue, ih fun v hv => h v (List.mem_cons_of_mem value hv)]

theorem names_single {headers : HeaderMap} {value : List UInt8} (h : headers.getAll "vary" = [value]) :
    names headers = ["*"] ∨ ∃ line, HeaderValue.toStr value = some line ∧ "*" ∉ parts line ∧
      ∀ name, name ∈ names headers ↔ name ∈ (parts line).map Text.lower := by
  unfold names
  rw [h]
  cases hline : HeaderValue.toStr value with
  | none => exact .inl (by simp [collect, hline])
  | some line =>
    by_cases hany : ((parts line).any fun name => name == "*" || !HeaderName.isValid name) = true
    · exact .inl (by simp only [collect, hline, if_pos hany])
    · right
      refine ⟨line, rfl, ?_, ?_⟩
      · intro hstar
        exact hany (List.any_eq_true.mpr ⟨"*", hstar, rfl⟩)
      · intro name
        simp only [collect, hline, if_neg hany, List.nil_append, List.mem_dedup, CanonicalSort.mem_sortBy]

/-- The values that are written, all that was there and the new one. -/
theorem append_values (headers : HeaderMap) {name : String} (h : Listed name) : ∃ values : List String,
    (∀ value ∈ values, Listed value) ∧
      (append headers name).getAll "vary" = [(HeaderValue.fromStr (String.intercalate ", " values)).getD (utf8 "*")] ∧
      (∀ value ∈ names headers, value ∈ values) ∧ ("*" ∈ values ∨ name ∈ values) := by
  unfold append
  dsimp only
  by_cases hthere : ((names headers).any fun v => v == "*" || Text.lower v == Text.lower name) = true
  · rw [if_pos hthere]
    refine ⟨names headers, names_listed headers, HeaderMap.getAll_insert_self _ _ _, fun _ hv => hv, ?_⟩
    obtain ⟨v, hv, hsame⟩ := List.any_eq_true.mp hthere
    rcases (Bool.or_eq_true _ _).mp hsame with hstar | hname
    · exact .inl (beq_iff_eq.mp hstar ▸ hv)
    · rw [beq_iff_eq, (names_listed headers v hv).lower, h.lower] at hname
      exact .inr (hname ▸ hv)
  · rw [if_neg hthere, h.lower]
    refine ⟨names headers ++ [name], ?_, HeaderMap.getAll_insert_self _ _ _, fun _ hv => List.mem_append_left _ hv, by simp⟩
    intro v hv
    rcases List.mem_append.mp hv with hold | hnew
    · exact names_listed headers v hold
    · rw [List.mem_singleton.mp hnew]
      exact h

/-- A name that was added is there beside those before, unless everything is. -/
theorem names_append (headers : HeaderMap) {name : String} (h : Listed name) : names (append headers name) = ["*"] ∨
    "*" ∉ names headers ∧ name ∈ names (append headers name) ∧ ∀ x ∈ names headers, x ∈ names (append headers name) := by
  obtain ⟨values, hvalues, hwritten, hold, hnew⟩ := append_values headers h
  cases htext : HeaderValue.fromStr (String.intercalate ", " values) with
  | none =>
    rw [htext, Option.getD_none] at hwritten
    left
    unfold names
    rw [hwritten]
    decide
  | some value =>
    rw [htext, Option.getD_some] at hwritten
    rcases names_single hwritten with hstar | ⟨line, hline, hplain, hiff⟩
    · exact .inl hstar
    · rw [HeaderValue.toStr_fromStr htext] at hline
      cases hline
      rw [parts_join hvalues] at hplain hiff
      have hread : ∀ x ∈ values, x ∈ names (append headers name) := fun x hx =>
        (hiff x).mpr (List.mem_map.mpr ⟨x, hx, (hvalues x hx).lower⟩)
      rcases hnew with hstar | hname
      · exact absurd hstar hplain
      · exact .inr ⟨fun hstar => hplain (hold _ hstar), hread name hname, fun x hx => hread x (hold x hx)⟩

/-- A response that no shared cache gives to a request with another value of the field. -/
def VariesOn (headers : HeaderMap) (name : String) : Prop := name ∈ names headers ∨ names headers = ["*"]

theorem variesOn_append_self (headers : HeaderMap) {name : String} (h : Listed name) : VariesOn (append headers name) name := by
  rcases names_append headers h with hstar | ⟨-, hname, -⟩
  · exact .inr hstar
  · exact .inl hname

theorem VariesOn.append {headers : HeaderMap} {name other : String} (hv : VariesOn headers name) (h : Listed other) :
    VariesOn (append headers other) name := by
  rcases names_append headers h with hstar | ⟨hplain, -, hkept⟩
  · exact .inr hstar
  · rcases hv with hname | hstar
    · exact .inl (hkept name hname)
    · rw [hstar] at hplain
      exact absurd List.mem_cons_self hplain

theorem collect_append (lines more : List (List UInt8)) (acc : List String) :
    collect (lines ++ more) acc = (collect lines acc).bind (collect more) := by
  induction lines generalizing acc with
  | nil => rfl
  | cons value values ih =>
    simp only [List.cons_append, collect]
    cases HeaderValue.toStr value with
    | none => rfl
    | some line =>
      by_cases hany : ((parts line).any fun name => name == "*" || !HeaderName.isValid name) = true
      · simp only [if_pos hany, Option.bind_none]
      · simp only [if_neg hany, ih]

theorem collect_grows {lines : List (List UInt8)} {acc found : List String} (h : collect lines acc = some found) :
    ∀ name ∈ acc, name ∈ found := by
  induction lines generalizing acc with
  | nil =>
    cases h
    exact fun _ hname => hname
  | cons value values ih =>
    rw [collect] at h
    split at h
    · cases h
    · split at h
      · cases h
      · exact fun name hname => ih h name (List.mem_append_left _ hname)

theorem collect_no_star {lines : List (List UInt8)} {acc found : List String} (h : collect lines acc = some found)
    (hacc : "*" ∉ acc) : "*" ∉ found := by
  induction lines generalizing acc with
  | nil =>
    cases h
    exact hacc
  | cons value values ih =>
    rw [collect] at h
    split at h
    · cases h
    · split at h
      · cases h
      · rename_i hplain
        apply ih h
        intro hstar
        rcases List.mem_append.mp hstar with hold | hnew
        · exact hacc hold
        · obtain ⟨part, hpart, hlower⟩ := List.mem_map.mp hnew
          refine hplain (List.any_eq_true.mpr ⟨part, hpart, ?_⟩)
          have hchars : part.toList.map Char.toLower = ['*'] := by simpa [Text.lower] using congrArg String.toList hlower
          obtain ⟨c, hc, hstar⟩ := List.map_eq_singleton_iff.mp hchars
          have hpart : part = "*" := String.toList_inj.mp (by rw [hc, Proxy.toLower_eq (by decide) hstar]; rfl)
          rw [hpart]
          rfl

/-- More lines take nothing away. -/
theorem VariesOn.more {headers : HeaderMap} {name : String} (hv : VariesOn headers name) (head : HeaderMap) :
    VariesOn (headers ++ head) name := by
  unfold VariesOn names at hv ⊢
  rw [HeaderMap.getAll_append, collect_append]
  cases hfirst : collect (headers.getAll "vary") [] with
  | none => exact .inr rfl
  | some found =>
    rw [hfirst] at hv
    rw [Option.bind_some]
    cases hall : collect (head.getAll "vary") found with
    | none => exact .inr rfl
    | some all =>
      left
      have hname : name ∈ found := by
        rcases hv with hname | hstar
        · exact CanonicalSort.mem_sortBy.mp (List.mem_dedup.mp hname)
        · have hfound : "*" ∈ (CanonicalSort.sortBy compare found).dedup := by
            rw [show (CanonicalSort.sortBy compare found).dedup = ["*"] from hstar]
            exact List.mem_cons_self
          exact absurd (CanonicalSort.mem_sortBy.mp (List.mem_dedup.mp hfound)) (collect_no_star hfirst (by simp))
      exact List.mem_dedup.mpr (CanonicalSort.mem_sortBy.mpr (collect_grows hall name hname))

theorem names_congr {a b : HeaderMap} (h : a.getAll "vary" = b.getAll "vary") : names a = names b := by
  unfold names
  rw [h]

end Vary

namespace Cors
open Cache (Response)

inductive Origins where
  | any
  | exact (allowed : List String)

def Origins.allows : Origins → String → Bool
  | .any, _ => true
  | .exact allowed, origin => allowed.any fun known => known == origin

def Origins.isAny : Origins → Bool
  | .any => true
  | .exact _ => false

structure Request where
  method : String
  headers : HeaderMap

/-- The handler, with its values as the fields carry them. -/
structure CorsHandler where
  origins : Origins
  methods : List UInt8
  headers : Option (List UInt8)
  expose : Option (List UInt8)
  credentials : Bool
  maxAge : Option (List UInt8)
  /-- Decoding refuses credentials for any origin. -/
  plain : origins.isAny = true → credentials = false

def set (response : Response) (name : String) (value : List UInt8) : Response :=
  { response with headers := response.headers.insert name value }

def setOption (response : Response) (name : String) : Option (List UInt8) → Response
  | some value => set response name value
  | none => response

def vary (response : Response) (name : String) : Response :=
  { response with headers := Vary.append response.headers name }

def Request.origin (r : Request) : Option String := (r.headers.get "origin").bind HeaderValue.toStr

def Request.preflight (r : Request) : Bool :=
  r.method == "OPTIONS" && r.headers.containsKey "access-control-request-method"

namespace CorsHandler

/-- What `Access-Control-Allow-Origin` should say, if anything. -/
def allow (c : CorsHandler) (origin : String) : Option (List UInt8) :=
  if c.origins.allows origin then
    if c.origins.isAny && !c.credentials then some (utf8 "*") else HeaderValue.fromStr origin
  else none

def writeCommon (c : CorsHandler) (response : Response) (allow : List UInt8) : Response :=
  let response := set response "access-control-allow-origin" allow
  if c.credentials then set response "access-control-allow-credentials" (utf8 "true") else response

/-- `handle`, with what the rest of the chain makes of a response. -/
def handle (c : CorsHandler) (r : Request) (response : Response) (next : Response → Response) : Response :=
  let response := vary response "origin"
  let allow := r.origin.bind c.allow
  if r.preflight then
    let response := vary response "access-control-request-method"
    let response := vary response "access-control-request-headers"
    let response := match allow with
      | some allow =>
        let response := set (c.writeCommon response allow) "access-control-allow-methods" c.methods
        let response := setOption response "access-control-allow-headers" c.headers
        setOption response "access-control-max-age" c.maxAge
      | none => response
    { response with status := some 204 }
  else
    let response := next response
    match allow with
    | some allow => setOption (c.writeCommon response allow) "access-control-expose-headers" c.expose
    | none => response

end CorsHandler

/-- What a browser and a shared cache go by. -/
structure Decided (c : CorsHandler) (r : Request) (response : Response) (next : Response → Response) : Prop where
  varies : Vary.VariesOn (c.handle r response next).headers "origin"
  single : ((c.handle r response next).headers.getAll "access-control-allow-origin").length ≤ 1
  allowed : ∀ value origin, r.headers.get "origin" = some value → HeaderValue.toStr value = some origin →
    c.origins.allows origin = true →
      (c.handle r response next).headers.getAll "access-control-allow-origin" = [if c.origins.isAny then utf8 "*" else value] ∧
        ((c.handle r response next).headers.getAll "access-control-allow-credentials" ≠ [] ↔ c.credentials = true)
  answered : r.preflight = true → ∀ next', c.handle r response next' = c.handle r response next

/-- What the handler finds when it writes its decision: its own answer in a preflight, the answer of the chain behind it else. -/
def found (r : Request) (response : Response) (next : Response → Response) : HeaderMap :=
  if r.preflight then response.headers else (next (vary response "origin")).headers

/-- The fields found leave the decision whole. -/
structure Whole (c : CorsHandler) (r : Request) (found : HeaderMap) : Prop where
  varies : r.preflight = false → Vary.VariesOn found "origin"
  single : r.origin.bind c.allow = none → (found.getAll "access-control-allow-origin").length ≤ 1
  plain : (r.origin.bind c.allow).isSome = true → c.credentials = false →
    found.getAll "access-control-allow-credentials" = []

theorem listed_constant {name : String} (h : HeaderName.isValid name = true) (hlower : Text.lower name = name) : Vary.Listed name :=
  hlower ▸ Vary.listed_of_valid h

theorem listed_origin : Vary.Listed "origin" := listed_constant (by decide) (by decide)

theorem getAll_vary (response : Response) {name other : String} (h : other ≠ "vary") :
    (vary response name).headers.getAll other = response.headers.getAll other :=
  HeaderMap.getAll_insert_ne _ h _

theorem getAll_set_self (response : Response) (name : String) (value : List UInt8) :
    (set response name value).headers.getAll name = [value] :=
  HeaderMap.getAll_insert_self _ _ _

theorem getAll_set_ne (response : Response) {name other : String} (h : other ≠ name) (value : List UInt8) :
    (set response name value).headers.getAll other = response.headers.getAll other :=
  HeaderMap.getAll_insert_ne _ h _

theorem getAll_setOption_ne (response : Response) {name other : String} (h : other ≠ name) (value : Option (List UInt8)) :
    (setOption response name value).headers.getAll other = response.headers.getAll other := by
  cases value with
  | none => rfl
  | some value => exact getAll_set_ne response h value

namespace CorsHandler

theorem writeCommon_other (c : CorsHandler) (response : Response) (allow : List UInt8) {name : String}
    (h : name ≠ "access-control-allow-origin") (hc : name ≠ "access-control-allow-credentials") :
    (c.writeCommon response allow).headers.getAll name = response.headers.getAll name := by
  unfold writeCommon
  dsimp only
  split
  · rw [getAll_set_ne _ hc, getAll_set_ne _ h]
  · rw [getAll_set_ne _ h]

theorem writeCommon_origin (c : CorsHandler) (response : Response) (allow : List UInt8) :
    (c.writeCommon response allow).headers.getAll "access-control-allow-origin" = [allow] := by
  unfold writeCommon
  dsimp only
  split
  · rw [getAll_set_ne _ (by decide), getAll_set_self]
  · rw [getAll_set_self]

theorem writeCommon_credentials (c : CorsHandler) (response : Response) (allow : List UInt8) :
    (c.writeCommon response allow).headers.getAll "access-control-allow-credentials" =
      if c.credentials then [utf8 "true"] else response.headers.getAll "access-control-allow-credentials" := by
  unfold writeCommon
  dsimp only
  split
  · rw [getAll_set_self]
  · rw [getAll_set_ne _ (by decide)]

/-- The two fields of the decision, over what was found. -/
theorem handle_origin (c : CorsHandler) (r : Request) (response : Response) (next : Response → Response) :
    (c.handle r response next).headers.getAll "access-control-allow-origin" =
      (r.origin.bind c.allow).elim ((found r response next).getAll "access-control-allow-origin") fun allow => [allow] := by
  unfold handle found
  cases r.preflight <;> cases r.origin.bind c.allow <;>
    simp [getAll_setOption_ne, getAll_set_ne, getAll_vary, writeCommon_origin]

theorem handle_credentials (c : CorsHandler) (r : Request) (response : Response) (next : Response → Response) :
    (c.handle r response next).headers.getAll "access-control-allow-credentials" =
      if (r.origin.bind c.allow).isSome && c.credentials then [utf8 "true"]
      else (found r response next).getAll "access-control-allow-credentials" := by
  unfold handle found
  cases r.preflight <;> cases r.origin.bind c.allow <;>
    simp [getAll_setOption_ne, getAll_set_ne, getAll_vary, writeCommon_credentials]

/-- `Vary` is left as it is found, or is that of a preflight. -/
theorem handle_vary (c : CorsHandler) (r : Request) (response : Response) (next : Response → Response) :
    (c.handle r response next).headers.getAll "vary" =
      if r.preflight then (vary (vary (vary response "origin") "access-control-request-method")
        "access-control-request-headers").headers.getAll "vary"
      else (found r response next).getAll "vary" := by
  unfold handle found
  cases r.preflight <;> cases r.origin.bind c.allow <;>
    simp [getAll_setOption_ne, getAll_set_ne, writeCommon_other]

theorem preflight_varies (response : Response) : Vary.VariesOn (vary (vary (vary response "origin")
    "access-control-request-method") "access-control-request-headers").headers "origin" := by
  have horigin := Vary.variesOn_append_self response.headers listed_origin
  exact (horigin.append (listed_constant (by decide) (by decide))).append (listed_constant (by decide) (by decide))

/-- An allowed origin is answered with itself, or with the star where any is allowed. -/
theorem allow_of_allows (c : CorsHandler) {value : List UInt8} {origin : String} (h : HeaderValue.toStr value = some origin)
    (hallows : c.origins.allows origin = true) : c.allow origin = some (if c.origins.isAny then utf8 "*" else value) := by
  unfold allow
  rw [if_pos hallows]
  cases hany : c.origins.isAny with
  | true => simp [c.plain hany]
  | false => simp [HeaderValue.fromStr_toStr h]

theorem allows_of_allow {c : CorsHandler} {origin : String} {allow : List UInt8} (h : c.allow origin = some allow) :
    c.origins.allows origin = true := by
  unfold CorsHandler.allow at h
  split at h
  · assumption
  · cases h

end CorsHandler

/-- The decision survives exactly what leaves it whole. -/
theorem decided_iff (c : CorsHandler) (r : Request) (response : Response) (next : Response → Response) :
    Decided c r response next ↔ Whole c r (found r response next) := by
  have hvary := c.handle_vary r response next
  constructor
  · intro h
    refine ⟨?_, ?_, ?_⟩
    · intro hasked
      rw [hasked, if_neg Bool.false_ne_true] at hvary
      have hvaries := h.varies
      rw [Vary.VariesOn, Vary.names_congr hvary] at hvaries
      exact hvaries
    · intro hnone
      have hsingle := h.single
      rw [c.handle_origin, hnone] at hsingle
      exact hsingle
    · intro hsome hplain
      obtain ⟨allow, hallow⟩ := Option.isSome_iff_exists.mp hsome
      obtain ⟨origin, horigin, hc⟩ := Option.bind_eq_some_iff.mp hallow
      obtain ⟨value, hvalue, hread⟩ := Option.bind_eq_some_iff.mp horigin
      have hallowed := (h.allowed value origin hvalue hread (CorsHandler.allows_of_allow hc)).2
      rw [c.handle_credentials, hplain, Bool.and_false, if_neg Bool.false_ne_true] at hallowed
      by_contra hthere
      exact Bool.false_ne_true (hallowed.mp hthere)
  · intro h
    refine ⟨?_, ?_, ?_, ?_⟩
    · unfold Vary.VariesOn
      cases hasked : r.preflight with
      | true =>
        rw [hasked, if_pos rfl] at hvary
        rw [Vary.names_congr hvary]
        exact CorsHandler.preflight_varies response
      | false =>
        rw [hasked, if_neg Bool.false_ne_true] at hvary
        rw [Vary.names_congr hvary]
        exact h.varies hasked
    · rw [c.handle_origin]
      cases hallow : r.origin.bind c.allow with
      | none => exact h.single hallow
      | some allow => exact Nat.le_refl 1
    · intro value origin hvalue hread hallows
      have hallow : r.origin.bind c.allow = some (if c.origins.isAny then utf8 "*" else value) := by
        rw [Request.origin, hvalue, Option.bind_some, hread, Option.bind_some]
        exact c.allow_of_allows hread hallows
      rw [c.handle_origin, c.handle_credentials, hallow]
      refine ⟨rfl, ?_⟩
      cases hcredentials : c.credentials with
      | true => simp
      | false => simp [h.plain (by rw [hallow]; rfl) hcredentials]
    · intro hasked next'
      unfold CorsHandler.handle
      simp only [hasked, if_true]

/-! The terminals: `write_response` puts the fields of an upstream behind those that are there, a CGI head replaces the fields
it names. -/

def appended (head : HeaderMap) (response : Response) : Response := { response with headers := response.headers ++ head }

def replaced (head : HeaderMap) (response : Response) : Response :=
  { response with headers := head.keys.foldl HeaderMap.remove response.headers ++ head }

/-- Behind an upstream the answer stays apart for each origin. -/
theorem appended_varies (head : HeaderMap) (response : Response) :
    Vary.VariesOn (appended head (vary response "origin")).headers "origin" :=
  (Vary.variesOn_append_self response.headers listed_origin).more head

/-- Behind a CGI program only if its head says nothing on the matter, or says so itself. -/
theorem replaced_varies_iff (head : HeaderMap) (response : Response) :
    Vary.VariesOn (replaced head (vary response "origin")).headers "origin" ↔
      head.getAll "vary" = [] ∨ Vary.VariesOn head "origin" := by
  have hall : (replaced head (vary response "origin")).headers.getAll "vary" =
      if head.getAll "vary" = [] then (vary response "origin").headers.getAll "vary" else head.getAll "vary" := by
    have hkeys : "vary" ∈ head.keys ↔ head.getAll "vary" ≠ [] := by
      simp [HeaderMap.keys, HeaderMap.getAll, List.filterMap_eq_nil_iff]
    rw [replaced, HeaderMap.getAll_append, HeaderMap.getAll_foldl_remove]
    by_cases hnone : head.getAll "vary" = []
    · rw [if_neg (fun h => hkeys.mp h hnone), if_pos hnone, hnone, List.append_nil]
    · rw [if_pos (hkeys.mpr hnone), if_neg hnone, List.nil_append]
  by_cases hnone : head.getAll "vary" = []
  · rw [if_pos hnone] at hall
    rw [Vary.VariesOn, Vary.names_congr hall]
    have hvaries := Vary.variesOn_append_self response.headers listed_origin
    exact ⟨fun _ => .inl hnone, fun _ => hvaries⟩
  · rw [if_neg hnone] at hall
    rw [Vary.VariesOn, Vary.names_congr hall]
    exact ⟨.inr, fun h => h.resolve_left hnone⟩

/-- One origin, without credentials. -/
def oneOrigin : CorsHandler where
  origins := .exact ["https://a.example"]
  methods := utf8 "GET"
  headers := none
  expose := none
  credentials := false
  maxAge := none
  plain := by decide

/-- A CGI program that varies on the encoding makes the answer to one origin that of all. -/
theorem origin_replaced : ¬ Decided oneOrigin ⟨"GET", [("origin", utf8 "https://a.example")]⟩ ⟨none, [], .none⟩
    (replaced [("vary", utf8 "accept-encoding")]) := by
  intro h
  have hvaries := h.varies
  unfold Vary.VariesOn at hvaries
  revert hvaries
  decide

end Cors
end Gatel
