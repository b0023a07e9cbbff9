import Gatel.Model.Diagnostic
import Gatel.Model.Net
import Gatel.Model.Resource

namespace Gatel
open CanonicalSort (sortBy)
open SecretRef (stripPrefix?)
open Std (TransCmp)

namespace Text

/-- `char::is_whitespace`. -/
def isWhitespace (c : Char) : Bool :=
  let n := c.toNat
  (9 ≤ n && n ≤ 13) || n == 0x20 || n == 0x85 || n == 0xa0 || n == 0x1680 ||
    (0x2000 ≤ n && n ≤ 0x200a) || n == 0x2028 || n == 0x2029 || n == 0x202f || n == 0x205f || n == 0x3000

def trim (s : String) : String :=
  String.ofList ((s.toList.dropWhile isWhitespace).reverse.dropWhile isWhitespace).reverse

def lower (s : String) : String := String.ofList (s.toList.map Char.toLower)
def upper (s : String) : String := String.ofList (s.toList.map Char.toUpper)

def endsWith (s tail : String) : Bool := tail.toList.reverse.isPrefixOf s.toList.reverse

/-- The parts before and after the first `c`. -/
def splitOnce (c : Char) (s : String) : Option (String × String) :=
  match s.toList.span (· ≠ c) with
  | (head, _ :: tail) => some (String.ofList head, String.ofList tail)
  | (_, []) => none

def splitAll (c : Char) (s : String) : List String := (s.toList.splitOn c).map String.ofList

def replaceChar (c : Char) (by' : String) (s : String) : String :=
  String.ofList (s.toList.flatMap fun x => if x = c then by'.toList else [x])

/-- The parts before and after the last `c`. -/
def rsplitOnce (c : Char) (s : String) : Option (String × String) :=
  match s.toList.reverse.span (· ≠ c) with
  | (tail, _ :: head) => some (String.ofList head.reverse, String.ofList tail.reverse)
  | (_, []) => none

/-- `str::parse` of an unsigned integer below `limit`. -/
def parseUnsigned (limit : Nat) (s : String) : Option Nat :=
  let digits := match s.toList with
    | '+' :: rest => rest
    | all => all
  if digits = [] ∨ ¬ digits.all Char.isDigit then none
  else
    let value := digits.foldl (fun n c => n * 10 + (c.toNat - 48)) 0
    if value < limit then some value else none

end Text

/-- What the per-node decoders take from the standard library's parsers and from
modules of their own; nothing is assumed of it. -/
structure Leaves where
  routingPath : String → Option String
  parseIp : String → Option IpAddr
  parseSocket : String → Option SocketAddr
  parseDuration : String → Except String Duration
  /-- The `Debug` text of a duration, given in nanoseconds. -/
  showDuration : Nat → String

/-- `parse_socket_addr`: a bare port listens everywhere. -/
@[grind =] def Leaves.parseSocketAddr (leaves : Leaves) (text : String) : Except String SocketAddr :=
  let candidate := match stripPrefix? ":" text with
    | some port => "0.0.0.0:" ++ port
    | none => text
  match leaves.parseSocket candidate with
  | none => .error ("`" ++ text ++ "` is not a numeric `address:port`")
  | some addr => if addr.port = 0 then .error ("`" ++ text ++ "` must use a non-zero port") else .ok addr

/-- Everything routing is allowed to look at. -/
structure MatchContext where
  host : String
  method : String
  path : String
  query : Option String
  header : String → Option String
  cookie : String → Option String
  clientIp : Option IpAddr
  tls : Bool

/-- The host a site claims. -/
inductive HostMatch where
  | any
  | exact (name : String)
  | suffix (tail : String)
  deriving DecidableEq

namespace HostMatch

def parse (raw : String) : Except String HostMatch :=
  let trimmed := Text.trim raw
  if trimmed = "*" then .ok .any
  else if trimmed = "" then .error "a site host may not be empty"
  else if trimmed.toList.contains ':' then .error ("`" ++ trimmed ++ "` must not contain a port")
  else
    let lowered := Text.lower trimmed
    match stripPrefix? "*." lowered with
    | some rest =>
      if rest = "" ∨ rest.toList.contains '*' then .error ("`" ++ raw ++ "` is not a valid wildcard host")
      else .ok (.suffix ("." ++ rest))
    | none =>
      if lowered.toList.contains '*' then
        .error ("`" ++ raw ++ "` may only use `*` as a leading label")
      else .ok (.exact lowered)

def «matches» : HostMatch → String → Bool
  | .any, _ => true
  | .exact expected, host => Text.lower host == Text.lower expected
  | .suffix tail, host => tail.utf8ByteSize < host.utf8ByteSize && Text.endsWith (Text.lower host) tail

/-- Higher wins: exact, then wildcard, then catch-all. -/
def specificity : HostMatch → Nat × Nat
  | .exact name => (2, name.utf8ByteSize)
  | .suffix tail => (1, tail.utf8ByteSize)
  | .any => (0, 0)

def describe : HostMatch → String
  | .any => "*"
  | .exact name => name
  | .suffix tail => "*" ++ tail

def localSuffixes : List String := [".localhost", ".test", ".local", ".internal", ".home.arpa"]

def isLocal (leaves : Leaves) (name : String) : Bool :=
  if name = "localhost" then true
  else match leaves.parseIp name with
    | some address => address.isLocal
    | none => localSuffixes.any fun tail => Text.endsWith name tail && tail.utf8ByteSize < name.utf8ByteSize

/-- The name to certify when the host can only ever be local. -/
def localName (leaves : Leaves) : HostMatch → Option String
  | .any => none
  | .exact name => if isLocal leaves name then some name else none
  | .suffix tail =>
    if isLocal leaves (String.ofList (tail.toList.dropWhile (· == '.'))) then some ("*" ++ tail) else none

def hashInto (m : HostMatch) (h : Hasher) : Hasher := h.updateStr m.describe

end HostMatch

/-- The path a route claims. -/
inductive PathMatch where
  | exact (path : String)
  | under (stem : String)
  deriving DecidableEq

namespace PathMatch

@[grind =] def parse (leaves : Leaves) (raw : String) : Except String PathMatch :=
  if raw.toList.head? ≠ some '/' then .error ("`" ++ raw ++ "` must start with `/`")
  else if raw.toList.contains '?' ∨ raw.toList.contains '#' then
    .error ("`" ++ raw ++ "` must not contain a query or fragment")
  else
    let starred := raw.toList.getLast? == some '*'
    let pattern := if starred then String.ofList raw.toList.dropLast else raw
    if pattern.toList.contains '*' then .error ("`" ++ raw ++ "` may only use `*` at the end")
    else match leaves.routingPath pattern with
      | none => .error ("`" ++ raw ++ "` contains invalid path escaping or control characters")
      | some canonical => .ok (if starred then .under canonical else .exact canonical)

def «matches» : PathMatch → String → Bool
  | .exact expected, path => path == expected
  | .under stem, path =>
    stem.toList.isPrefixOf path.toList ||
      (stem.toList.getLast? == some '/' && path == String.ofList stem.toList.dropLast)

def specificity : PathMatch → Nat × Nat
  | .exact path => (1, path.utf8ByteSize)
  | .under stem => (0, stem.utf8ByteSize)

def escapePathPattern (path : String) : String :=
  Text.replaceChar '#' "%23" (Text.replaceChar '?' "%3F"
    (Text.replaceChar '*' "%2A" (Text.replaceChar '%' "%25" path)))

def describe : PathMatch → String
  | .exact path => escapePathPattern path
  | .under stem => escapePathPattern stem ++ "*"

def hashInto : PathMatch → Hasher → Hasher
  | .exact path, h => (h.updateStr "exact").updateStr path
  | .under stem, h => (h.updateStr "prefix").updateStr stem

end PathMatch

/-- The methods a route accepts: upper case, sorted, without repetition. -/
inductive MethodMatch where
  | any
  | only (methods : List String)
  deriving DecidableEq

namespace MethodMatch

def parseEach : List String → List String → Except String (List String)
  | [], methods => .ok methods
  | method :: raw, methods =>
    if method = "" ∨ ¬ method.toList.all (fun c => c.isAlpha || c == '-') then
      .error ("`" ++ method ++ "` is not an HTTP method")
    else
      let up := Text.upper method
      parseEach raw (if methods.contains up then methods else methods ++ [up])

def parse (raw : List String) : Except String MethodMatch :=
  if raw.contains "*" then
    if raw.length > 1 then .error "`*` cannot be combined with named methods" else .ok .any
  else match parseEach raw [] with
    | .error message => .error message
    | .ok [] => .ok .any
    | .ok methods => .ok (.only (sortBy compare methods))

def «matches» : MethodMatch → String → Bool
  | .any, _ => true
  | .only methods, method => methods.contains method || (method == "HEAD" && methods.contains "GET")

def specificity : MethodMatch → Nat
  | .only _ => 1
  | .any => 0

def describe : MethodMatch → String
  | .any => "*"
  | .only methods => " ".intercalate methods

def hashInto (m : MethodMatch) (h : Hasher) : Hasher := h.updateStr m.describe

end MethodMatch

/-- A condition beyond host, path and method. -/
inductive Matcher where
  | header (name : String) (value : Option String)
  | query (name : String) (value : Option String)
  | cookie (name : String) (value : Option String)
  | clientIp (network : IpAddr) (bits : Nat)
  | tls (expected : Bool)
  | not (inner : Matcher)
  deriving DecidableEq

namespace Matcher

def matchValue : Option String → Option String → Bool
  | some actual, some expected => actual == expected
  | some _, none => true
  | none, _ => false

def queryValue (query : Option String) (name : String) : Option String :=
  query.bind fun query => (Text.splitAll '&' query).findSome? fun pair =>
    let (key, value) := (Text.splitOnce '=' pair).getD (pair, "")
    if key = name then some value else none

def «matches» : Matcher → MatchContext → Bool
  | .header name value, context => matchValue (context.header name) value
  | .cookie name value, context => matchValue (context.cookie name) value
  | .query name value, context => matchValue (queryValue context.query name) value
  | .clientIp network bits, context => context.clientIp.any fun ip => ip.inNetwork network bits
  | .tls expected, context => context.tls == expected
  | .not inner, context => !inner.matches context

@[grind =] def describePair (kind name : String) : Option String → String
  | some value => kind ++ " " ++ name ++ "=" ++ value
  | none => kind ++ " " ++ name

@[grind =] def describe : Matcher → String
  | .header name value => describePair "header" name value
  | .query name value => describePair "query" name value
  | .cookie name value => describePair "cookie" name value
  | .clientIp network bits => "client-ip " ++ network.toText ++ "/" ++ toString bits
  | .tls expected => "tls " ++ toString expected
  | .not inner => "not(" ++ inner.describe ++ ")"

def hashInto (m : Matcher) (h : Hasher) : Hasher := h.updateStr m.describe

end Matcher

/-- `10.0.0.0/8`, or a bare address for a single host. -/
def parseCidr (leaves : Leaves) (raw : String) : Except String (IpAddr × Nat) := do
  let (address, bits) ← match Text.splitOnce '/' raw with
    | some (address, bits) => match Text.parseUnsigned 256 bits with
      | some n => .ok (address, n)
      | none => .error ("`" ++ bits ++ "` is not a prefix length")
    | none => .ok (raw, 255)
  let ip ← match leaves.parseIp address with
    | some ip => .ok ip
    | none => .error ("`" ++ address ++ "` is not an IP address")
  let most := if ip.isIpv4 then 32 else 128
  let bits := if bits = 255 then most else bits
  if bits > most then .error ("/" ++ toString bits ++ " is too long for " ++ ip.toText)
  else .ok (ip, bits)

def knownConditions : List String := ["header", "query", "cookie", "client-ip", "tls"]

/-- One condition of a `match` node. -/
def parseCondition (leaves : Leaves) (property : Property) : Report (Option Matcher) :=
  let text := property.value.asStr.or (property.value.asBool.map fun flag => toString flag)
  match text with
  | none => ⟨none, [.error .invalidValue property.origin ("`" ++ property.name ++ "` needs a string value")]⟩
  | some text =>
    if property.name = "header" ∨ property.name = "query" ∨ property.name = "cookie" then
      let (name, value) := match Text.splitOnce '=' text with
        | some (name, value) => (name, some value)
        | none => (text, none)
      if name = "" then
        ⟨none, [.error .invalidValue property.origin ("`" ++ property.name ++ "` needs a name")]⟩
      else if property.name = "header" then ⟨some (.header (Text.lower name) value), []⟩
      else if property.name = "query" then ⟨some (.query name value), []⟩
      else ⟨some (.cookie name value), []⟩
    else if property.name = "client-ip" then
      match parseCidr leaves text with
      | .ok (network, bits) => ⟨some (.clientIp network bits), []⟩
      | .error message => ⟨none, [.error .invalidValue property.origin message]⟩
    else if property.name = "tls" then
      match property.value.asBool with
      | some flag => ⟨some (.tls flag), []⟩
      | none => ⟨none, [.error .invalidValue property.origin "`tls` must be `#true` or `#false`"]⟩
    else
      let d := Diagnostic.error .unknownProperty property.origin
        ("`match` has no condition `" ++ property.name ++ "`")
      match didYouMean property.name knownConditions with
      | some suggestion => ⟨none, [d.withHelp ("did you mean `" ++ suggestion ++ "`?")]⟩
      | none => ⟨none, [d]⟩

def parseMatchNode (leaves : Leaves) (node : Node) : Report (List Matcher) :=
  let parsed := node.props.map (parseCondition leaves)
  let extra := match node.args with
    | [] => []
    | first :: _ => [Diagnostic.error .argumentCount first.origin
        "`match` takes conditions as properties, not positional arguments"]
  ⟨sortBy (compareOn Matcher.describe) (parsed.filterMap Report.value),
    parsed.flatMap Report.diagnostics ++ extra⟩

/-- Higher first. -/
def comparePair (a b : Nat × Nat) : Ordering := compareLex (compareOn Prod.fst) (compareOn Prod.snd) b a

instance : TransCmp comparePair :=
  inferInstanceAs (TransCmp fun a b : Nat × Nat => compareLex (compareOn Prod.fst) (compareOn Prod.snd) b a)

/-- Route selection order: the more specific first. -/
def compareSpecificity (a b : HostMatch × PathMatch × MethodMatch × Nat) : Ordering :=
  (comparePair a.1.specificity b.1.specificity).then <|
    (comparePair a.2.1.specificity b.2.1.specificity).then <|
      (compare b.2.2.1.specificity a.2.2.1.specificity).then (compare b.2.2.2 a.2.2.2)

end Gatel
