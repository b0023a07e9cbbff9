import Gatel.Cgi.Environment
import Gatel.Plan.RequestPath
import Gatel.Plan.Texts
import Gatel.Proxy.Outbound

namespace Gatel.Cgi
open SortedMap (Sorted lookup)

structure Script where
  filename : String
  root : String
  name : String

structure RequestInfo where
  path : String
  query : Option String
  pathAndQuery : Option String
  headers : HeaderMap
  method : String
  length : Nat
  remote : String
  server : String
  port : UInt16
  protocol : String
  tls : Bool
  passAuthorization : Bool

def isAsciiControl (b : UInt8) : Bool := b < 32 || b == 127

def decodeBytes : List UInt8 → Except String (List UInt8)
  | [] => .ok []
  | byte :: rest =>
    if byte = 37 then
      match rest with
      | high :: low :: rest =>
        match hex high, hex low with
        | some hi, some lo =>
          if hi * 16 + lo = 47 ∨ hi * 16 + lo = 92 ∨ hi * 16 + lo = 37 then
            .error "encoded path separator or nested escape"
          else if isAsciiControl (hi * 16 + lo) then .error "invalid path character"
          else (decodeBytes rest).map ((hi * 16 + lo) :: ·)
        | _, _ => .error "invalid URL escape"
      | _ => .error "invalid URL escape"
    else if isAsciiControl byte || byte == 92 then .error "invalid path character"
    else (decodeBytes rest).map (byte :: ·)

def decodePath (path : String) : Except String String := do
  let bytes ← decodeBytes (utf8 path)
  match fromUtf8 bytes with
  | none => .error "non UTF-8 path"
  | some decoded =>
    if (Text.splitAll '/' decoded).any fun part => part = "." || part = ".." then .error "path traversal"
    else .ok decoded

/-- `set`: an entry, or the whole request fails. -/
def Environment.set (env : Environment) (name value : String) : Except String Environment :=
  match env.insert name (utf8 value) with
  | (.ok (), env) => .ok env
  | (.error e, _) => .error e.toText

/-- The names of one Connection line. -/
@[grind =] def lineTokens : List String → Except String (List String)
  | [] => .ok []
  | token :: rest =>
    if Text.trim token = "" then lineTokens rest
    else match headerName (utf8 (Text.trim token)) with
      | none => .error "invalid Connection token"
      | some name => (lineTokens rest).map (name :: ·)

@[grind =] def nominated : List (List UInt8) → Except String (List String)
  | [] => .ok []
  | field :: rest =>
    match HeaderValue.toStr field with
    | none => .error "non-text Connection header"
    | some text => do
      let names ← lineTokens (Text.splitAll ',' text)
      let more ← nominated rest
      return names ++ more

/-- Fields that never become a variable of their own. -/
def withheld : List String :=
  ["proxy", "content-length", "content-type", "connection", "transfer-encoding", "te", "trailer", "upgrade", "keep-alive",
    "proxy-connection", "proxy-authorization", "proxy-authenticate"]

def variableName (key : String) : String := "HTTP_" ++ Text.upper (Text.replaceChar '-' "_" key)

@[grind =] def texts : List (List UInt8) → Except String (List String)
  | [] => .ok []
  | value :: rest =>
    match HeaderValue.toStr value with
    | none => .error "non-text CGI request header"
    | some text => (texts rest).map (text :: ·)

def skipped (nominated : List String) (passAuthorization : Bool) (key : String) : Bool :=
  key.toList.contains '_' || withheld.contains key || nominated.contains key || (!passAuthorization && key == "authorization")

def joined (key : String) (values : List String) : String := (if key = "cookie" then "; " else ", ").intercalate values

/-- One round of the loop over the field names. -/
def header (headers : HeaderMap) (nominated : List String) (passAuthorization : Bool) (env : Environment) (key : String) :
    Except String Environment :=
  if skipped nominated passAuthorization key then .ok env
  else do
    let values ← texts (headers.getAll key)
    if (key = "authorization" ∨ key = "host") ∧ values.length ≠ 1 then
      .error "duplicate single-valued CGI request header"
    else env.set (variableName key) (joined key values)

def contentType (headers : HeaderMap) (nominated : List String) (env : Environment) : Except String Environment :=
  if nominated.contains "content-type" then .ok env
  else match headers.getAll "content-type" with
    | [] => .ok env
    | [value] => match HeaderValue.toStr value with
      | none => .error "invalid Content-Type"
      | some text => env.set "CONTENT_TYPE" text
    | _ => .error "duplicate Content-Type"

namespace Script

/-- The rest of the path behind the script's name, or all of it. -/
def pathInfo (s : Script) (path : String) : String :=
  if path = s.name then ""
  else if s.name.toList.isPrefixOf path.toList && (path.toList.drop s.name.toList.length).head? == some '/' then
    String.ofList (path.toList.drop s.name.toList.length)
  else path

/-- The variables that no field decides. -/
def fixed (s : Script) (i : RequestInfo) (path : String) : List (String × String) :=
  [("GATEWAY_INTERFACE", "CGI/1.1"),
    ("SERVER_SOFTWARE", "gatel/2"),
    ("SERVER_PROTOCOL", i.protocol),
    ("REQUEST_METHOD", i.method),
    ("SCRIPT_FILENAME", s.filename),
    ("DOCUMENT_ROOT", s.root),
    ("SCRIPT_NAME", s.name),
    ("PATH_INFO", s.pathInfo path),
    ("QUERY_STRING", i.query.getD ""),
    ("REQUEST_URI", i.pathAndQuery.getD "/"),
    ("REMOTE_ADDR", i.remote),
    ("SERVER_NAME", i.server),
    ("HTTPS", if i.tls then "on" else "off"),
    ("CONTENT_LENGTH", toString i.length),
    ("SERVER_PORT", toString i.port.toNat)]

def environment (s : Script) (i : RequestInfo) : Except String Environment := do
  let path ← decodePath i.path
  let env ← (s.fixed i path).foldlM (fun env entry => env.set entry.1 entry.2) (.new (64 * 1024))
  let nominated ← nominated (i.headers.getAll "connection")
  let env ← contentType i.headers nominated env
  i.headers.keys.foldlM (header i.headers nominated i.passAuthorization) env

end Script

/-! What the variables come from. -/

/-- A name in a Connection field, without regard to case. -/
def Nominated (headers : HeaderMap) (name : String) : Prop :=
  ∃ line ∈ headers.getAll "connection", ∃ text, HeaderValue.toStr line = some text ∧
    ∃ token ∈ Text.splitAll ',' text, Text.trim token ≠ "" ∧ headerName (utf8 (Text.trim token)) = some name

theorem lineTokens_ok {tokens names : List String} (h : lineTokens tokens = .ok names) (name : String) :
    name ∈ names ↔ ∃ token ∈ tokens, Text.trim token ≠ "" ∧ headerName (utf8 (Text.trim token)) = some name := by
  induction tokens generalizing names with
  | nil =>
    cases h
    simp
  | cons token tokens ih =>
    rw [lineTokens] at h
    split at h
    · rename_i hempty
      rw [ih h]
      simp [hempty]
    · rename_i hne
      cases hn : headerName (utf8 (Text.trim token)) with
      | none =>
        rw [hn] at h
        cases h
      | some first =>
        rw [hn] at h
        cases hl : lineTokens tokens with
        | error e =>
          rw [hl] at h
          cases h
        | ok more =>
          rw [hl] at h
          cases h
          have hcomm : name = first ↔ first = name := eq_comm
          rw [List.mem_cons, ih hl]
          simp [hne, hn, hcomm]

theorem nominated_ok {fields : List (List UInt8)} {names : List String} (h : nominated fields = .ok names) (name : String) :
    name ∈ names ↔ ∃ line ∈ fields, ∃ text, HeaderValue.toStr line = some text ∧
      ∃ token ∈ Text.splitAll ',' text, Text.trim token ≠ "" ∧ headerName (utf8 (Text.trim token)) = some name := by
  induction fields generalizing names with
  | nil =>
    cases h
    simp
  | cons field fields ih =>
    rw [nominated] at h
    cases ht : HeaderValue.toStr field with
    | none =>
      rw [ht] at h
      cases h
    | some text =>
      rw [ht] at h
      simp only [bind, Except.bind] at h
      cases hl : lineTokens (Text.splitAll ',' text) with
      | error e =>
        rw [hl] at h
        cases h
      | ok first =>
        rw [hl] at h
        dsimp only at h
        cases hm : nominated fields with
        | error e =>
          rw [hm] at h
          cases h
        | ok more =>
          rw [hm] at h
          cases h
          rw [List.mem_append, lineTokens_ok hl, ih hm]
          simp [ht]

theorem texts_ok {values : List (List UInt8)} {parts : List String} (h : texts values = .ok parts) :
    values.map HeaderValue.toStr = parts.map some := by
  induction values generalizing parts with
  | nil =>
    cases h
    rfl
  | cons value values ih =>
    rw [texts] at h
    cases ht : HeaderValue.toStr value with
    | none =>
      rw [ht] at h
      cases h
    | some text =>
      rw [ht] at h
      cases hm : texts values with
      | error e =>
        rw [hm] at h
        cases h
      | ok more =>
        rw [hm] at h
        cases h
        rw [List.map_cons, List.map_cons, ht, ih hm]

namespace Environment
variable {env env' : Environment}

/-- An entry that was added stands beside the others, under a name that was not there. -/
theorem set_ok {name value : String} (h : env.set name value = .ok env') :
    name ∉ env.values.map Prod.fst ∧ ∀ e, e ∈ env'.values ↔ e = (name, utf8 value) ∨ e ∈ env.values := by
  rw [set] at h
  cases hi : env.insert name (utf8 value) with
  | mk answer left =>
    rw [hi] at h
    cases answer with
    | error e => cases h
    | ok =>
      cases h
      obtain ⟨-, hnew, hvalues⟩ := insert_ok hi
      refine ⟨hnew, ?_⟩
      intro e
      rw [hvalues, SortedMap.mem_insert]

theorem set_all {entries : List (String × String)} (h : entries.foldlM (fun env entry => env.set entry.1 entry.2) env = .ok env')
    (e : String × List UInt8) : e ∈ env'.values ↔ e ∈ env.values ∨ e ∈ entries.map fun entry => (entry.1, utf8 entry.2) := by
  induction entries generalizing env with
  | nil =>
    cases h
    simp
  | cons entry entries ih =>
    rw [List.foldlM_cons] at h
    cases hs : env.set entry.1 entry.2 with
    | error e =>
      rw [hs] at h
      cases h
    | ok env₁ =>
      rw [hs] at h
      rw [ih h, (set_ok hs).2, List.map_cons, List.mem_cons, or_assoc, or_left_comm]

end Environment

variable {headers : HeaderMap} {names : List String} {pass : Bool} {env env' : Environment}

/-- The entry of a field, if its lines are text. -/
def FieldEntry (headers : HeaderMap) (key : String) (e : String × List UInt8) : Prop :=
  ∃ parts, (headers.getAll key).map HeaderValue.toStr = parts.map some ∧ e = (variableName key, utf8 (joined key parts))

theorem header_ok {key : String} (h : header headers names pass env key = .ok env') :
    (skipped names pass key = true → env' = env) ∧
    (skipped names pass key = false → variableName key ∉ env.values.map Prod.fst ∧
      ∃ entry, FieldEntry headers key entry ∧ ∀ e, e ∈ env'.values ↔ e = entry ∨ e ∈ env.values) := by
  rw [header] at h
  split at h
  · rename_i hskip
    cases h
    exact ⟨fun _ => rfl, fun hno => absurd hskip (by simp [hno])⟩
  · rename_i hskip
    refine ⟨fun hyes => absurd hyes hskip, fun _ => ?_⟩
    cases ht : texts (headers.getAll key) with
    | error e =>
      rw [ht] at h
      cases h
    | ok parts =>
      rw [ht] at h
      simp only [bind, Except.bind] at h
      split at h
      · cases h
      · obtain ⟨hnew, hmem⟩ := Environment.set_ok h
        exact ⟨hnew, _, ⟨parts, texts_ok ht, rfl⟩, hmem⟩

theorem FieldEntry.unique {key : String} {e e' : String × List UInt8} (h : FieldEntry headers key e)
    (h' : FieldEntry headers key e') : e = e' := by
  obtain ⟨parts, hparts, rfl⟩ := h
  obtain ⟨parts', hparts', rfl⟩ := h'
  rw [List.map_injective_iff.mpr (Option.some_injective String) (hparts.symm.trans hparts')]

theorem FieldEntry.name {key : String} {e : String × List UInt8} (h : FieldEntry headers key e) : e.1 = variableName key := by
  obtain ⟨parts, -, rfl⟩ := h
  rfl

/-- The loop over the field names: one variable for each that is not withheld, and no two the same. -/
theorem headers_ok {keys : List String} (h : keys.foldlM (header headers names pass) env = .ok env') :
    (∀ e, e ∈ env'.values ↔ e ∈ env.values ∨ ∃ key ∈ keys, skipped names pass key = false ∧ FieldEntry headers key e) ∧
    (∀ key ∈ keys, skipped names pass key = false → variableName key ∉ env.values.map Prod.fst) ∧
    ∀ key ∈ keys, ∀ key' ∈ keys, skipped names pass key = false → skipped names pass key' = false →
      variableName key = variableName key' → key = key' := by
  induction keys generalizing env with
  | nil =>
    cases h
    simp
  | cons key keys ih =>
    rw [List.foldlM_cons] at h
    cases hs : header headers names pass env key with
    | error e =>
      rw [hs] at h
      cases h
    | ok env₁ =>
      rw [hs] at h
      obtain ⟨hmem, hnew, hone⟩ := ih h
      obtain ⟨hskip, hkeep⟩ := header_ok hs
      cases hk : skipped names pass key with
      | true =>
        obtain rfl := hskip hk
        refine ⟨?_, ?_, ?_⟩
        · intro e
          rw [hmem]
          simp [hk]
        · intro key' hm hk'
          rcases List.mem_cons.mp hm with rfl | hm
          · rw [hk] at hk'
            cases hk'
          · exact hnew key' hm hk'
        · intro a ha b hb hka hkb
          rcases List.mem_cons.mp ha with rfl | ha
          · rw [hk] at hka
            cases hka
          · rcases List.mem_cons.mp hb with rfl | hb
            · rw [hk] at hkb
              cases hkb
            · exact hone a ha b hb hka hkb
      | false =>
        obtain ⟨hfresh, entry, hentry, hadd⟩ := hkeep hk
        have hthere : variableName key ∈ env₁.values.map Prod.fst := by
          rw [← hentry.name]
          exact List.mem_map_of_mem ((hadd entry).mpr (.inl rfl))
        have hapart : ∀ key' ∈ keys, skipped names pass key' = false → variableName key ≠ variableName key' :=
          fun key' hm hk' he => hnew key' hm hk' (he ▸ hthere)
        refine ⟨?_, ?_, ?_⟩
        · intro e
          have hfield : FieldEntry headers key e ↔ e = entry :=
            ⟨fun he => he.unique hentry, fun he => he ▸ hentry⟩
          rw [hmem, hadd]
          simp only [List.mem_cons, exists_eq_or_imp, hk, true_and, hfield]
          rw [or_assoc, or_left_comm]
        · intro key' hm hk'
          rcases List.mem_cons.mp hm with rfl | hm
          · exact hfresh
          · intro hin
            apply hnew key' hm hk'
            obtain ⟨x, hx, hxn⟩ := List.mem_map.mp hin
            exact hxn ▸ List.mem_map_of_mem ((hadd x).mpr (.inr hx))
        · intro a ha b hb hka hkb he
          rcases List.mem_cons.mp ha with rfl | hina
          · rcases List.mem_cons.mp hb with rfl | hinb
            · rfl
            · exact absurd he (hapart b hinb hkb)
          · rcases List.mem_cons.mp hb with rfl | hinb
            · exact absurd he.symm (hapart a hina hka)
            · exact hone a hina b hinb hka hkb he

theorem contentType_ok (h : contentType headers names env = .ok env') (e : String × List UInt8) :
    e ∈ env'.values ↔ e ∈ env.values ∨ "content-type" ∉ names ∧ ∃ value text, headers.getAll "content-type" = [value] ∧
      HeaderValue.toStr value = some text ∧ e = ("CONTENT_TYPE", utf8 text) := by
  rw [contentType] at h
  split at h
  · rename_i hin
    cases h
    have hin : "content-type" ∈ names := by simpa using hin
    simp [hin]
  · rename_i hno
    have hno : "content-type" ∉ names := by simpa using hno
    split at h
    · rename_i hnil
      cases h
      simp [hnil]
    · rename_i value hone
      cases ht : HeaderValue.toStr value with
      | none =>
        rw [ht] at h
        cases h
      | some text =>
        rw [ht] at h
        rw [(Environment.set_ok h).2, hone, or_comm]
        simp [hno, ht]
    · cases h

/-! What a request can make of its environment. -/

/-- A field that is passed on. -/
structure Passed (i : RequestInfo) (key : String) : Prop where
  field : key ∈ i.headers.keys
  plain : '_' ∉ key.toList
  named : key ∉ withheld
  hop : key ∉ Proxy.hopByHop
  apart : ¬ Nominated i.headers key
  allowed : key = "authorization" → i.passAuthorization = true

/-- The names of the variables that are made of fields. -/
def FromField (name : String) : Prop := "HTTP_".toList <+: name.toList

theorem fromField_variableName (key : String) : FromField (variableName key) := by
  rw [FromField, variableName, String.toList_append]
  exact List.prefix_append _ _

theorem hopByHop_withheld {name : String} (h : name ∈ Proxy.hopByHop) : name ∈ withheld := by
  have hall : ∀ name ∈ Proxy.hopByHop, name ∈ withheld := by decide
  exact hall name h

/-- What holds of the variables of a request, whatever its fields are. -/
structure Unforged (i : RequestInfo) (env : Environment) : Prop where
  fields : ∀ name value, FromField name → (env.get name = some value ↔
    ∃ key parts, Passed i key ∧ variableName key = name ∧
      (i.headers.getAll key).map HeaderValue.toStr = parts.map some ∧ value = utf8 (joined key parts))
  one : ∀ key key', Passed i key → Passed i key' → variableName key = variableName key' → key = key'
  contentType : ∀ value, env.get "CONTENT_TYPE" = some value → ¬ Nominated i.headers "content-type" ∧
    ∃ line text, i.headers.getAll "content-type" = [line] ∧ HeaderValue.toStr line = some text ∧ value = utf8 text

/-- All that stands in an environment. -/
theorem environment_ok {s : Script} {i : RequestInfo} (h : s.environment i = .ok env) :
    ∃ path, decodePath i.path = .ok path ∧ ∃ names, (∀ name, name ∈ names ↔ Nominated i.headers name) ∧
      (∀ e, e ∈ env.values ↔ (e ∈ (s.fixed i path).map (fun entry => (entry.1, utf8 entry.2)) ∨
        "content-type" ∉ names ∧ ∃ value text, i.headers.getAll "content-type" = [value] ∧
          HeaderValue.toStr value = some text ∧ e = ("CONTENT_TYPE", utf8 text)) ∨
        ∃ key ∈ i.headers.keys, skipped names i.passAuthorization key = false ∧ FieldEntry i.headers key e) ∧
      ∀ key ∈ i.headers.keys, ∀ key' ∈ i.headers.keys, skipped names i.passAuthorization key = false →
        skipped names i.passAuthorization key' = false → variableName key = variableName key' → key = key' := by
  rw [Script.environment] at h
  cases hp : decodePath i.path with
  | error e =>
    rw [hp] at h
    cases h
  | ok path =>
    rw [hp] at h
    simp only [bind, Except.bind] at h
    refine ⟨path, rfl, ?_⟩
    cases hf : (s.fixed i path).foldlM (fun env entry => env.set entry.1 entry.2) (Environment.new (64 * 1024)) with
    | error e =>
      rw [hf] at h
      cases h
    | ok env₁ =>
      rw [hf] at h
      dsimp only at h
      cases hn : nominated (i.headers.getAll "connection") with
      | error e =>
        rw [hn] at h
        cases h
      | ok names =>
        rw [hn] at h
        dsimp only at h
        cases hc : contentType i.headers names env₁ with
        | error e =>
          rw [hc] at h
          cases h
        | ok env₂ =>
          rw [hc] at h
          obtain ⟨hmem, -, hone⟩ := headers_ok h
          refine ⟨names, nominated_ok hn, ?_, hone⟩
          intro e
          have hempty : e ∉ (Environment.new (64 * 1024)).values := List.not_mem_nil
          rw [hmem, contentType_ok hc, Environment.set_all hf, or_iff_right hempty]

theorem passed_iff {i : RequestInfo} {names : List String} (hnames : ∀ name, name ∈ names ↔ Nominated i.headers name)
    (key : String) : key ∈ i.headers.keys ∧ skipped names i.passAuthorization key = false ↔ Passed i key := by
  have hskip : skipped names i.passAuthorization key = false ↔ '_' ∉ key.toList ∧ key ∉ withheld ∧
      ¬ Nominated i.headers key ∧ (key = "authorization" → i.passAuthorization = true) := by
    rw [← hnames]
    cases i.passAuthorization <;> simp [skipped, and_assoc]
  rw [hskip]
  constructor
  · rintro ⟨hf, hp, hn, ha, hallowed⟩
    exact ⟨hf, hp, hn, fun hh => hn (hopByHop_withheld hh), ha, hallowed⟩
  · intro h
    exact ⟨h.field, h.plain, h.named, h.apart, h.allowed⟩

theorem fixed_names (s : Script) (i : RequestInfo) (path : String) :
    ∀ name ∈ (s.fixed i path).map Prod.fst, ¬ FromField name ∧ name ≠ "CONTENT_TYPE" := by
  have hnames : (s.fixed i path).map Prod.fst = ["GATEWAY_INTERFACE", "SERVER_SOFTWARE", "SERVER_PROTOCOL", "REQUEST_METHOD",
      "SCRIPT_FILENAME", "DOCUMENT_ROOT", "SCRIPT_NAME", "PATH_INFO", "QUERY_STRING", "REQUEST_URI", "REMOTE_ADDR",
      "SERVER_NAME", "HTTPS", "CONTENT_LENGTH", "SERVER_PORT"] := rfl
  rw [hnames]
  simp [FromField]

theorem unforged {s : Script} {i : RequestInfo} (h : s.environment i = .ok env) : Unforged i env := by
  obtain ⟨path, -, names, hnames, hmem, hone⟩ := environment_ok h
  have hfixed : ∀ e ∈ (s.fixed i path).map (fun entry => (entry.1, utf8 entry.2)), ¬ FromField e.1 ∧ e.1 ≠ "CONTENT_TYPE" := by
    intro e he
    apply fixed_names s i path
    obtain ⟨entry, hentry, rfl⟩ := List.mem_map.mp he
    exact List.mem_map_of_mem hentry
  refine ⟨?_, ?_, ?_⟩
  · intro name value hname
    rw [Environment.get, env.sorted.lookup_eq, hmem]
    constructor
    · rintro ((hf | ⟨-, _, _, -, -, hc⟩) | ⟨key, hkey, hkeep, parts, hparts, he⟩)
      · exact absurd hname (hfixed _ hf).1
      · rw [(Prod.mk.inj hc).1] at hname
        exact absurd hname (by simp [FromField])
      · obtain ⟨rfl, rfl⟩ := Prod.mk.inj he
        exact ⟨key, parts, (passed_iff hnames key).mp ⟨hkey, hkeep⟩, rfl, hparts, rfl⟩
    · rintro ⟨key, parts, hpassed, rfl, hparts, rfl⟩
      obtain ⟨hkey, hkeep⟩ := (passed_iff hnames key).mpr hpassed
      exact .inr ⟨key, hkey, hkeep, parts, hparts, rfl⟩
  · intro key key' hp hp' he
    obtain ⟨hkey, hkeep⟩ := (passed_iff hnames key).mpr hp
    obtain ⟨hkey', hkeep'⟩ := (passed_iff hnames key').mpr hp'
    exact hone key hkey key' hkey' hkeep hkeep' he
  · intro value hv
    rw [Environment.get, env.sorted.lookup_eq, hmem] at hv
    rcases hv with (hf | ⟨hno, line, text, hline, htext, he⟩) | ⟨key, -, -, hentry⟩
    · exact absurd rfl (hfixed _ hf).2
    · exact ⟨fun hn => hno ((hnames _).mpr hn), line, text, hline, htext, (Prod.mk.inj he).2⟩
    · have hfrom := fromField_variableName key
      rw [← hentry.name] at hfrom
      exact absurd hfrom (by simp [FromField])

/-- The variables that no field decides are the same whatever the fields are. -/
theorem fixed_get {s : Script} {i : RequestInfo} {path name : String} (h : s.environment i = .ok env)
    (hp : decodePath i.path = .ok path) (hname : ¬ FromField name) (hne : name ≠ "CONTENT_TYPE") (value : List UInt8) :
    env.get name = some value ↔ (name, value) ∈ (s.fixed i path).map fun entry => (entry.1, utf8 entry.2) := by
  obtain ⟨path', hp', names, -, hmem, -⟩ := environment_ok h
  obtain rfl := Except.ok.inj (hp'.symm.trans hp)
  rw [Environment.get, env.sorted.lookup_eq, hmem]
  constructor
  · rintro ((hf | ⟨-, _, _, -, -, hc⟩) | ⟨key, -, -, hentry⟩)
    · exact hf
    · exact absurd (Prod.mk.inj hc).1 hne
    · have hfrom := fromField_variableName key
      rw [← hentry.name] at hfrom
      exact absurd hfrom hname
  · exact fun hf => .inl (.inl hf)

/-- The account of an environment, and what a change that is refused does to it. -/
structure Accounted : Prop where
  counted : ∀ env : Environment, env.bytes = (env.values.map entrySize).sum
  insert : ∀ (env : Environment) (name : String) (value : List UInt8) (e : RequestError),
    (env.insert name value).1 = .error e → (env.insert name value).2 = env
  replace : ∀ (env : Environment) (name : String) (value : List UInt8) (e : RequestError),
    (env.replaceExisting name value).1 = .error e → (env.replaceExisting name value).2 = env

theorem environment_unforged {s : Script} {i : RequestInfo} {headers' : HeaderMap} (h : s.environment i = .ok env)
    (h' : s.environment { i with headers := headers' } = .ok env') :
    (∀ name, ¬ FromField name → name ≠ "CONTENT_TYPE" → env.get name = env'.get name) ∧
      Unforged i env ∧ Unforged { i with headers := headers' } env' ∧ Accounted := by
  refine ⟨?_, unforged h, unforged h', ?_⟩
  · intro name hname hne
    obtain ⟨path, hp, -⟩ := environment_ok h
    have hget := fixed_get h hp hname hne
    have hget' := fixed_get h' hp hname hne
    apply Option.ext
    intro value
    exact (hget value).trans (hget' value).symm
  · exact ⟨Environment.counted, fun _ _ _ _ => Environment.insert_unchanged, fun _ _ _ _ => Environment.replaceExisting_unchanged⟩

def sampleScript : Script := ⟨"/srv/app", "/srv", "/app"⟩

/-- A request with a field that is nominated, and one that looks like another. -/
def sampleInfo : RequestInfo where
  path := "/app/info"
  query := some "x=1"
  pathAndQuery := some "/app/info?x=1"
  headers := [("x-good", utf8 "real"), ("x_good", utf8 "fake"), ("proxy", utf8 "bad"), ("x-internal", utf8 "secret"),
    ("connection", utf8 "X-Internal")]
  method := "GET"
  length := 0
  remote := "127.0.0.1"
  server := "configured.test"
  port := 80
  protocol := "HTTP/1.1"
  tls := false
  passAuthorization := false

theorem environment_unforged_sample : ∃ env env' : Environment,
    (∀ name, ¬ FromField name → name ≠ "CONTENT_TYPE" → env.get name = env'.get name) ∧
      Unforged sampleInfo env ∧ Unforged { sampleInfo with headers := [] } env' ∧ Accounted := by
  have hok : (sampleScript.environment sampleInfo).isOk = true := by decide +kernel
  have hok' : (sampleScript.environment { sampleInfo with headers := [] }).isOk = true := by decide +kernel
  cases h : sampleScript.environment sampleInfo with
  | error e =>
    rw [h] at hok
    cases hok
  | ok env =>
    cases h' : sampleScript.environment { sampleInfo with headers := [] } with
    | error e =>
      rw [h'] at hok'
      cases hok'
    | ok env' => exact ⟨env, env', environment_unforged h h'⟩

end Gatel.Cgi
