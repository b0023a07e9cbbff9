import Gatel.Cache.Store
import Gatel.Plan.Matcher

namespace Gatel

namespace Vary

/-- The trimmed parts of one line that are not empty. -/
def parts (line : String) : List String := ((Text.splitAll ',' line).map Text.trim).filter (· ≠ "")

@[grind =] def collect : List (List UInt8) → List String → Option (List String)
  | [], acc => some acc
  | value :: values, acc =>
    match HeaderValue.toStr value with
    | none => none
    | some line =>
      if (parts line).any fun name => name == "*" || !HeaderName.isValid name then none
      else collect values (acc ++ (parts line).map Text.lower)

/-- The field names a response varies on, sorted; anything invalid is a wildcard. -/
def names (headers : HeaderMap) : List String :=
  match collect (headers.getAll "vary") [] with
  | none => ["*"]
  | some names => (CanonicalSort.sortBy compare names).dedup

end Vary

namespace Cache

/-- `Cache-Control` over all field lines. -/
structure Control where
  entries : List (String × Option String)
  deriving DecidableEq

namespace Control

/-- A quoted value without its quotes and escapes. -/
@[grind =] def unquote : List Char → Option (List Char)
  | [] => some []
  | '\\' :: c :: rest => (unquote rest).map (c :: ·)
  | ['\\'] => none
  | '"' :: _ => none
  | c :: rest => (unquote rest).map (c :: ·)

@[grind =] def quoted? (value : String) : Option (List Char) :=
  match value.toList with
  | '"' :: rest => if rest.getLast? = some '"' then some rest.dropLast else none
  | _ => none

def parseValue (value : String) : Option String :=
  match quoted? value with
  | some inner => (unquote inner).map String.ofList
  | none => if HeaderName.isValid value then some value else none

/-- One entry of a line. -/
def parseEntry (entry : String) : Option (String × Option String) := do
  let (name, value) ← match Text.splitOnce '=' entry with
    | some (name, value) => (parseValue (Text.trim value)).map fun value => (Text.trim name, some value)
    | none => some (entry, none)
  if HeaderName.isValid name then some (Text.lower name, value) else none

/-- The scanner inside one line: the entry read so far and whether it is in quotes. -/
structure Scan where
  entries : List (String × Option String)
  current : List Char
  quoted : Bool
  escaped : Bool

@[grind =] def Scan.step (s : Scan) (c : Char) : Option Scan :=
  if s.escaped then some { s with escaped := false, current := s.current ++ [c] }
  else if s.quoted && c == '\\' then some { s with escaped := true, current := s.current ++ [c] }
  else if c == '"' then some { s with quoted := !s.quoted, current := s.current ++ [c] }
  else if c == ',' && !s.quoted then
    let entry := Text.trim (String.ofList s.current)
    if entry = "" then some { s with current := [] }
    else do
      let parsed ← parseEntry entry
      -- Ambiguous duplicate directives never enable cache reuse.
      if s.entries.any fun e => e.1 == parsed.1 then none
      else some { s with entries := s.entries ++ [parsed], current := [] }
  else some { s with current := s.current ++ [c] }

def parseLine (entries : List (String × Option String)) (value : List UInt8) :
    Option (List (String × Option String)) := do
  let text ← HeaderValue.toStr value
  let s ← (text.toList ++ [',']).foldlM Scan.step ⟨entries, [], false, false⟩
  if s.quoted || s.escaped then none else some s.entries

def contains (control : Control) (name : String) : Bool := control.entries.any fun e => e.1 == name

/-- Nothing said, a number of seconds, or an error. -/
def seconds (control : Control) (name : String) : Except Unit (Option Nat) :=
  match control.entries.find? fun e => e.1 == name with
  | none => .ok none
  | some (_, none) => .error ()
  | some (_, some value) =>
    if value = "" || !value.toList.all Char.isDigit then .error ()
    else match Text.parseUnsigned (2 ^ 64) value with
      | some n => .ok (some n)
      | none => .error ()

/-- What a directive says in seconds, if it says it well. -/
def saysSeconds (control : Control) (name : String) : Option Nat :=
  match control.seconds name with
  | .ok (some n) => some n
  | _ => none

def parse (headers : HeaderMap) : Option Control := do
  let control : Control := ⟨← (headers.getAll "cache-control").foldlM parseLine []⟩
  if ["max-age", "s-maxage", "min-fresh"].all fun name => (control.seconds name).isOk then some control else none

end Control

/-- A request as the handler sees it, with what the connection and the dispatcher
left beside it. -/
structure Request where
  method : String
  uriAuthority : Option String
  pathAndQuery : Option String
  headers : HeaderMap
  tls : Option Bool
  execution : Option Fingerprint
  deriving DecidableEq

/-- A response body: what it announces of its size, and what it yields. -/
inductive Frame where
  | data (bytes : List UInt8)
  | trailers
  | failed
  deriving DecidableEq

inductive ResBody where
  | none
  | once (bytes : List UInt8)
  | stream (lower : U64) (exact : Option U64) (frames : List Frame)
  deriving DecidableEq

structure Response where
  status : Option UInt16
  headers : HeaderMap
  body : ResBody
  deriving DecidableEq

def Response.statusOr200 (r : Response) : UInt16 := r.status.getD 200

/-- Why a request or a response is not cached. -/
inductive Refusal where
  | method
  | clientSaidNo
  | status
  | responseSaidNo
  | setsACookie
  | authorised
  | variesOnEverything
  | noFreshness
  | tooLarge
  deriving DecidableEq

def Refusal.asStr : Refusal → String
  | .method => "method"
  | .clientSaidNo => "request-no-store"
  | .status => "status"
  | .responseSaidNo => "response-no-store"
  | .setsACookie => "set-cookie"
  | .authorised => "authorized"
  | .variesOnEverything => "vary-star"
  | .noFreshness => "no-freshness"
  | .tooLarge => "too-large"

/-- What the handler takes from other crates: the digest, and the seconds since the
epoch an HTTP date names. -/
structure Platform where
  blake3 : Digest
  parseHttpDate : String → Option Nat

namespace Policy

def cacheable : List UInt16 := [200, 203, 204, 300, 301, 308, 404, 405, 410, 414, 501]

def onlyIfCached (r : Request) : Bool := (Control.parse r.headers).any fun c => c.contains "only-if-cached"

def requestIsCacheable (r : Request) : Except Refusal Unit :=
  if r.method ≠ "GET" ∧ r.method ≠ "HEAD" then .error .method
  else match Control.parse r.headers with
    | none => .error .clientSaidNo
    | some control => if control.contains "no-store" then .error .clientSaidNo else .ok ()

def mayServeFromCache (r : Request) : Bool :=
  match Control.parse r.headers with
  | none => false
  | some control => !control.contains "no-cache" && control.saysSeconds "max-age" != some 0

def maxDuration : Nat := 2 ^ 64 * 10 ^ 9 - 1

/-- Request freshness constraints apply to total age. -/
def entrySatisfiesRequest (r : Request) (entry : Entry) (now : Instant) : Bool :=
  match Control.parse r.headers with
  | none => false
  | some control =>
    let age := entry.currentAge now
    let old := (control.saysSeconds "max-age").any fun max => max * 10 ^ 9 < age
    let minFresh := (control.saysSeconds "min-fresh").getD 0
    !old && min (age + minFresh * 10 ^ 9) maxDuration < entry.ttl.val

/-- `Expires` against `Date`; `wall` is the local clock in seconds. -/
def expiresIn (p : Platform) (headers : HeaderMap) (wall : Nat) : Option Nat := do
  let expires ← p.parseHttpDate (← HeaderValue.toStr (← headers.get "expires"))
  let date := ((headers.get "date").bind HeaderValue.toStr).bind p.parseHttpDate
  return expires - date.getD wall

/-- How long a response may be reused, in seconds, or why it may not be stored. -/
def freshnessSeconds (p : Platform) (control : Control) (headers : HeaderMap) (wall : Nat) :
    Option (Except Refusal Nat) :=
  match (control.saysSeconds "s-maxage").or (control.saysSeconds "max-age") with
  | some seconds => some (if seconds = 0 then .error .noFreshness else .ok seconds)
  | none => (expiresIn p headers wall).map fun lifetime => if lifetime = 0 then .error .noFreshness else .ok lifetime

def freshness (p : Platform) (requestHeaders : HeaderMap) (response : Response) (defaultTtl : Option Duration)
    (wall : Nat) : Except Refusal Duration :=
  if !cacheable.contains response.statusOr200 then .error .status
  else match Control.parse response.headers with
    | none => .error .responseSaidNo
    | some control =>
      if ["no-store", "private", "no-cache"].any control.contains then .error .responseSaidNo
      else if response.headers.containsKey "set-cookie" then .error .setsACookie
      else if (Vary.names response.headers).contains "*" then .error .variesOnEverything
      else if requestHeaders.containsKey "authorization" && !control.contains "public" &&
          (control.saysSeconds "s-maxage").isNone then .error .authorised
      else match freshnessSeconds p control response.headers wall with
        | some (.error refusal) => .error refusal
        | some (.ok seconds) => .ok (Duration.fromSecs (Fin.ofNat _ seconds))
        | none => match defaultTtl with
          | some ttl => .ok ttl
          | none => .error .noFreshness

def varyOn (response : Response) : List String := Vary.names response.headers

end Policy

/-- Corrected initial age from `Age`, `Date` and the delay; `received` is the local
clock in nanoseconds. -/
def initialAge (p : Platform) (headers : HeaderMap) (received : Nat) (delay : Nat) : Option Duration := do
  let age ← match headers.getAll "age" with
    | [] => some 0
    | [value] => do
      let text := Text.trim (← HeaderValue.toStr value)
      if text = "" || !text.toList.all Char.isDigit then none
      else some ((Text.parseUnsigned (2 ^ 64) text).getD (2 ^ 64 - 1) * 10 ^ 9)
    | _ => none
  let apparent ← match headers.getAll "date" with
    | [] => some 0
    | [value] => do some (received - (← p.parseHttpDate (← HeaderValue.toStr value)) * 10 ^ 9)
    | _ => none
  return Fin.ofNat _ (min (max apparent (min (age + delay) Policy.maxDuration)) Policy.maxDuration)

end Cache

end Gatel
