import Gatel.Model.Body
import Gatel.Plan.Upstream

namespace Gatel

/-- What `HeaderValue::from_str` accepts: visible ASCII and tabs. -/
def HeaderValue.fromStr (text : String) : Option (List UInt8) :=
  if text.toList.all fun c => (32 ≤ c.toNat && c.toNat < 127) || c.toNat == 9 then
    some (text.toList.map fun c => UInt8.ofNat c.toNat)
  else none

/-- A header value says the text it was made of. -/
theorem HeaderValue.toStr_fromStr {text : String} {value : List UInt8} (h : HeaderValue.fromStr text = some value) :
    HeaderValue.toStr value = some text := by
  unfold HeaderValue.fromStr at h
  split at h
  · rename_i hall
    rw [List.all_eq_true] at hall
    cases h
    have hbyte : ∀ c ∈ text.toList, (UInt8.ofNat c.toNat).toNat = c.toNat := by
      intro c hc
      have hok := hall c hc
      simp only [Bool.or_eq_true, Bool.and_eq_true, decide_eq_true_eq, beq_iff_eq] at hok
      rw [UInt8.toNat_ofNat']
      omega
    have hback : (text.toList.map fun c => UInt8.ofNat c.toNat).map (fun b => Char.ofNat b.toNat) = text.toList := by
      rw [List.map_map]
      conv_rhs => rw [← List.map_id text.toList]
      apply List.map_congr_left
      intro c hc
      rw [Function.comp_apply, hbyte c hc, Char.ofNat_toNat]
      rfl
    have hvalid : ((text.toList.map fun c => UInt8.ofNat c.toNat).all fun b => (32 ≤ b && b < 127) || b == 9) = true := by
      rw [List.all_map, List.all_eq_true]
      intro c hc
      have hok := hall c hc
      simp only [Bool.or_eq_true, Bool.and_eq_true, decide_eq_true_eq, beq_iff_eq, Function.comp_apply, UInt8.le_iff_toNat_le,
        UInt8.lt_iff_toNat_lt, ← UInt8.toNat_inj, hbyte c hc] at hok ⊢
      exact hok
    rw [HeaderValue.toStr, if_pos hvalid, hback, String.ofList_toList]
  · cases h

/-- `HeaderName::from_bytes`. -/
def HeaderName.fromBytes (name : String) : Option String := if HeaderName.isValid name then some (Text.lower name) else none

namespace Proxy

/-- Headers that describe one hop and must never be forwarded to the next one. -/
def hopByHop : List String :=
  ["connection", "keep-alive", "proxy-authenticate", "proxy-authorization", "te", "trailer", "transfer-encoding",
    "upgrade"]

def connectionTokens (headers : HeaderMap) : List String :=
  ((headers.getAll "connection").filterMap HeaderValue.toStr).flatMap fun line =>
    (Text.splitAll ',' line).map fun token => Text.lower (Text.trim token)

/-- The fields that go on to the next hop, in either direction. -/
def endToEnd (headers : HeaderMap) : HeaderMap :=
  headers.filter fun field => !(hopByHop.contains field.1 || (connectionTokens headers).contains field.1)

/-- The protocol a client asks to upgrade to. -/
def requestedProtocol (headers : HeaderMap) : Option String :=
  if (connectionTokens headers).contains "upgrade" then
    ((headers.get "upgrade").bind HeaderValue.toStr).bind fun value =>
      let protocol := Text.lower (Text.trim value)
      if protocol = "" then none else some protocol
  else none

/-- What reaches the proxy terminal. `take_body` leaves no body behind. -/
structure Request where
  method : String
  pathAndQuery : Option String
  uriHost : Option String
  headers : HeaderMap
  body : Option Body
  deriving DecidableEq

namespace Request

def bodyIsEnd (r : Request) : Bool := r.body.all Body.isEndStream

/-- How long the client said its body is, if it said. -/
def declaredLength (r : Request) : Option Nat :=
  if r.headers.containsKey "transfer-encoding" then none
  else ((r.headers.get "content-length").bind HeaderValue.toStr).bind (Text.parseUnsigned (2 ^ 64))

/-- Whether the request carries a body the upstream would have to read. -/
def hasBody (r : Request) : Bool :=
  if r.headers.containsKey "transfer-encoding" then true
  else match r.declaredLength with
    | some length => 0 < length
    | none => !r.bodyIsEnd

/-- `request_host`: without the port, in lower case. -/
def host (r : Request) : String :=
  let raw := (((r.headers.get "host").bind HeaderValue.toStr).or r.uriHost).getD ""
  let withoutPort := match Text.rsplitOnce ':' raw with
    | some (head, tail) => if !Text.endsWith head "]" && tail.toList.all Char.isDigit then head else raw
    | none => raw
  let trimmed := (Text.trim withoutPort).toList.dropWhile (· = '[')
  Text.lower (String.ofList (trimmed.reverse.dropWhile (· = ']')).reverse)

end Request

/-- What this request can send, once or more than once. -/
inductive Payload where
  | empty
  | buffered (bytes : List UInt8)
  | streaming
  deriving DecidableEq

/-- Whether a failure after the request was sent may be tried again. -/
def Payload.isReproducible : Payload → Bool
  | .streaming => false
  | .empty | .buffered _ => true

/-- The body of one send: bytes held here, or whatever was left of the client's body. -/
inductive Upload where
  | full (bytes : List UInt8)
  | client (body : Option Body)
  deriving DecidableEq

/-- A request as it is put on the wire. -/
structure Outgoing where
  method : String
  uri : String
  headers : HeaderMap
  body : Upload
  deriving DecidableEq

/-- What a request is sent with, the same for every attempt. -/
structure Forward where
  target : String
  host : String
  clientIp : Option IpAddr
  tls : Bool
  upgradeTo : Option String
  deriving DecidableEq

/-- `headers.insert` of a value that may be unfit. -/
def insertText (headers : HeaderMap) (name text : String) : HeaderMap :=
  match HeaderValue.fromStr text with
  | some value => headers.insert name value
  | none => headers

def insertAddress (headers : HeaderMap) : Option IpAddr → HeaderMap
  | some ip => insertText headers "x-forwarded-for" ip.toText
  | none => headers

def insertUpgrade (headers : HeaderMap) : Option String → HeaderMap
  | none => headers
  | some protocol =>
    match HeaderValue.fromStr protocol with
    | some value => (headers.insert "upgrade" value).insert "connection" (utf8 "upgrade")
    | none => headers

/-- The rebuilt header map; a host that is no header value is refused. -/
def outgoingHeaders (headers : HeaderMap) (f : Forward) : Option HeaderMap := do
  let host ← HeaderValue.fromStr f.host
  let headers := insertAddress ((endToEnd headers).insert "host" host) f.clientIp
  let headers := insertText headers "x-forwarded-host" f.host
  let headers := headers.insert "x-forwarded-proto" (utf8 (if f.tls then "https" else "http"))
  return insertUpgrade headers f.upgradeTo

/-- `build_request`. A buffered body is cloned, the client's own is moved out of the request;
`complaint` is what the `http` crate has against the method or the target. -/
def buildRequest (r : Request) (f : Forward) (payload : Payload) (complaint : Option String) :
    Except String (Outgoing × Request) := do
  let some headers := outgoingHeaders r.headers f
    | .error "the request host is not a valid header value"
  let (body, r') : Upload × Request := match payload with
    | .empty => (.full [], r)
    | .buffered bytes => (.full bytes, r)
    | .streaming => (.client r.body, { r with body := none })
  match complaint with
  | none => return (⟨r.method, f.target, headers, body⟩, r')
  | some text => .error text

/-- The head that `write_response` hands to the client, behind the fields already there. -/
def writeHead (own headers : HeaderMap) : HeaderMap := own ++ endToEnd headers

end Proxy

end Gatel
