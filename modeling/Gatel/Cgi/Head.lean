import Gatel.Model.Http
import Gatel.Plan.Matcher

namespace Gatel

/-- What `HeaderValue::from_bytes` accepts. -/
def HeaderValue.isValid (value : List UInt8) : Bool := value.all fun b => (32 ≤ b && b != 127) || b == 9

namespace Cgi

/-- The error of `gatel-cgi-protocol`, as far as responses raise it. -/
inductive ProtocolError where
  | limit
  | invalidHeader
  | duplicateHeader
  | invalidStatus
  | unsupportedLocalRedirect
  | invalidRecord
  | unexpectedRecord
  | streamClosed
  | incompleteResponse
  | backendRejected
  | bodyLength
  deriving DecidableEq

structure Head where
  status : UInt16
  headers : HeaderMap
  contentLength : Option Nat
  deriving DecidableEq

/-- The lengths a response can have: known, or until the end. -/
structure BodyLength where
  expected : Option Nat
  received : Nat
  deriving DecidableEq

namespace BodyLength

def new (head : Head) (isHeadRequest : Bool) : BodyLength :=
  let noBody := isHeadRequest || head.status == 204 || head.status == 304
  ⟨if noBody then some 0 else head.contentLength, 0⟩

def observe (l : BodyLength) (bytes : Nat) : Except ProtocolError BodyLength :=
  let total := l.received + bytes
  if 2 ^ 64 ≤ total then .error .bodyLength
  else if l.expected.any (· < total) then .error .bodyLength
  else .ok { l with received := total }

def finish (l : BodyLength) : Except ProtocolError Unit :=
  if l.expected.any (· ≠ l.received) then .error .bodyLength else .ok ()

end BodyLength

def isWhitespace (b : UInt8) : Bool := b == 32 || b == 9 || b == 10 || b == 12 || b == 13

def trimAscii (bytes : List UInt8) : List UInt8 :=
  ((bytes.dropWhile isWhitespace).reverse.dropWhile isWhitespace).reverse

def isDigit (b : UInt8) : Bool := 48 ≤ b && b ≤ 57

def decimal (digits : List UInt8) : Nat := digits.foldl (fun n b => n * 10 + (b.toNat - 48)) 0

def asciiText (bytes : List UInt8) : String := String.ofList (bytes.map fun b => Char.ofNat b.toNat)

/-- `HeaderName::from_bytes`. -/
def headerName (bytes : List UInt8) : Option String :=
  let name := asciiText bytes
  if HeaderName.isValid name then some (Text.lower name) else none

/-- Fields that would let a CGI program control HTTP framing or connection ownership. -/
def framing : List String :=
  ["connection", "transfer-encoding", "keep-alive", "upgrade", "trailer", "te", "proxy-connection",
    "proxy-authenticate", "proxy-authorization"]

/-- What `parse` has read so far. -/
structure Fields where
  headers : HeaderMap
  status : Option UInt16
  contentLength : Option Nat
  deriving DecidableEq

def parseStatus (value : List UInt8) : Except ProtocolError UInt16 :=
  if value.length < 3 ∨ !(value.take 3).all isDigit ∨ (value.drop 3).head?.any (· ≠ 32) ∨ !HeaderValue.isValid value then
    .error .invalidStatus
  else
    let code := decimal (value.take 3)
    if 200 ≤ code ∧ code ≤ 599 then .ok (UInt16.ofNat code) else .error .invalidStatus

def parseLength (value : List UInt8) : Except ProtocolError Nat :=
  if value = [] ∨ !value.all isDigit then .error .invalidHeader
  else if decimal value < 2 ^ 64 then .ok (decimal value)
  else .error .invalidHeader

/-- One header line, its line end stripped. -/
def parseLine (f : Fields) (line : List UInt8) : Except ProtocolError Fields := do
  if line.any fun b => (b < 32 || b == 127) && b != 9 then throw .invalidHeader
  if line.head?.any isWhitespace then throw .invalidHeader
  if 58 ∉ line then throw .invalidHeader
  let some name := headerName (line.takeWhile (· ≠ 58)) | throw .invalidHeader
  let value := trimAscii ((line.dropWhile (· ≠ 58)).drop 1)
  if framing.contains name then throw .invalidHeader
  if name = "status" then
    if f.status.isSome then throw .duplicateHeader
    return { f with status := some (← parseStatus value) }
  if ["content-length", "content-type", "location"].contains name && f.headers.containsKey name then
    throw .duplicateHeader
  let contentLength ← if name = "content-length" then some <$> parseLength value else pure f.contentLength
  if HeaderValue.isValid value then return { f with headers := f.headers.append name value, contentLength := contentLength }
  else throw .invalidHeader

/-- The lines up to the empty one. -/
@[grind =] def parseLines (f : Fields) : List (List UInt8) → Except ProtocolError Fields
  | [] => .ok f
  | raw :: rest =>
    let line := if raw.getLast? = some 13 then raw.dropLast else raw
    if line = [] then .ok f else do parseLines (← parseLine f line) rest

/-- A redirect without a status; `hasScheme` is what the `http` crate reads of its target. -/
def locationStatus (hasScheme : String → Bool) (f : Fields) : Except ProtocolError (Option UInt16) :=
  match f.status, f.headers.get "location" with
  | none, some location =>
    if location.head? = some 47 then .error .unsupportedLocalRedirect
    else if (HeaderValue.toStr location).any hasScheme then .ok (some 302)
    else .error .invalidHeader
  | status, _ => .ok status

def parse (hasScheme : String → Bool) (bytes : List UInt8) : Except ProtocolError Head := do
  let f ← parseLines ⟨[], none, none⟩ (bytes.splitOn 10)
  let status := (← locationStatus hasScheme f).getD 200
  if status = 204 ∧ f.contentLength.isSome then throw .invalidHeader
  if !f.headers.containsKey "content-type" && !f.headers.containsKey "location" && status != 204 && status != 304 then
    throw .invalidHeader
  return ⟨status, f.headers, f.contentLength⟩

def maxBytes : Nat := 64 * 1024

/-- The incremental parser: the bytes of the head so far. -/
structure Decoder where
  bytes : List UInt8
  limit : Nat
  finished : Bool
  deriving DecidableEq

namespace Decoder

def new (limit : Nat) : Decoder := ⟨[], min limit maxBytes, false⟩

/-- The end of the head: a line with nothing on it. -/
def atEnd (bytes : List UInt8) : Bool := [13, 10, 13, 10].isSuffixOf bytes || [10, 10].isSuffixOf bytes

/-- The loop of `feed`: the head if it was completed, and the input behind it. -/
@[grind =] def feedBytes (hasScheme : String → Bool) (d : Decoder) : List UInt8 → Except ProtocolError (Decoder × Option Head × List UInt8)
  | [] => .ok (d, none, [])
  | byte :: rest =>
    if d.bytes.length = d.limit then .error .limit
    else
      let bytes := d.bytes ++ [byte]
      if atEnd bytes then do
        let head ← parse hasScheme bytes
        return ({ d with bytes := bytes, finished := true }, some head, rest)
      else feedBytes hasScheme { d with bytes := bytes } rest

def feed (hasScheme : String → Bool) (d : Decoder) (input : List UInt8) :
    Except ProtocolError (Decoder × Option Head × List UInt8) :=
  if d.finished then .error .streamClosed else d.feedBytes hasScheme input

def eof (d : Decoder) : Except ProtocolError Unit := if d.finished then .ok () else .error .incompleteResponse

end Decoder

end Cgi

end Gatel
