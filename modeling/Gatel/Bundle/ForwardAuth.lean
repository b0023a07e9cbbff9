import Gatel.Bundle.Authority
import Gatel.Proxy.Hygiene

namespace Gatel

namespace ForwardAuth
open Proxy (authority insertText UriAuthority)

/-- Headers never copied out of an answer, whatever the operator listed. -/
def neverCopy : List String :=
  ["connection", "content-length", "content-type", "transfer-encoding", "keep-alive", "upgrade"]

/-- The two lists an operator writes. -/
structure Config where
  forward : List String
  copy : List String

/-- A request, with what the dispatcher decided about it. -/
structure Request where
  method : String
  target : Option String
  uri : Option UriAuthority
  headers : HeaderMap
  tls : Option Bool
  clientIp : Option IpAddr

structure Answer where
  status : Nat
  headers : HeaderMap
  body : List UInt8

def Answer.agreed (a : Answer) : Bool := 200 ≤ a.status && a.status < 300

structure Response where
  status : Option Nat
  headers : HeaderMap
  body : List UInt8

namespace Config

/-- The caller's headers the authoriser is shown. -/
def shown (c : Config) (headers : HeaderMap) : HeaderMap :=
  c.forward.flatMap fun name =>
    match HeaderName.fromBytes name with
    | some name => (headers.getAll name).map fun value => (name, value)
    | none => []

/-- What the authoriser is told about the request it is deciding. -/
def question (c : Config) (r : Request) : HeaderMap :=
  let headers := insertText (c.shown r.headers) "x-forwarded-method" r.method
  let headers := insertText headers "x-forwarded-uri" (r.target.getD "/")
  let headers := insertText headers "x-forwarded-proto" (if r.tls.getD false then "https" else "http")
  let headers := match authority r.uri r.headers with
    | some host => insertText (insertText headers "x-forwarded-host" host) "host" host
    | none => headers
  match r.clientIp with
  | some ip => insertText headers "x-forwarded-for" ip.toText
  | none => headers

/-- Show the client exactly what the authoriser said. -/
def relay (answer : Answer) (response : Response) : Response :=
  let headers := response.headers ++ answer.headers.filter fun field => !neverCopy.contains field.1
  { status := some answer.status
    headers := match answer.headers.get "content-type" with
      | some value => headers.insert "content-type" value
      | none => headers
    body := response.body ++ answer.body }

/-- One name the authoriser speaks for, in place of what the caller sent under it. -/
def copyOne (answer : HeaderMap) (headers : HeaderMap) (name : String) : HeaderMap :=
  match HeaderName.fromBytes name with
  | some name => headers.remove name ++ (answer.getAll name).map fun value => (name, value)
  | none => headers

end Config

inductive Flow where
  | answered (response : Response)
  /-- The rest of the chain, on a request with these fields. -/
  | next (headers : HeaderMap)

/-- `handle`, once the upstream has answered or could not be reached. -/
def Config.handle (c : Config) (r : Request) (response : Response) : Option Answer → Flow
  | none => .answered { response with
      status := some 503
      body := response.body ++ utf8 "503 the authorisation service could not be reached\n" }
  | some answer =>
    if answer.agreed then .next (c.copy.foldl (copyOne answer.headers) r.headers)
    else .answered (relay answer response)

/-! The question. -/

/-- The fields that say who is asking. -/
def told : List String := ["x-forwarded-method", "x-forwarded-uri", "x-forwarded-proto", "x-forwarded-host", "x-forwarded-for"]

/-- What is written for one of them, if anything can be. -/
def Request.writes (r : Request) (name : String) : Option (List UInt8) :=
  if name = "x-forwarded-method" then HeaderValue.fromStr r.method
  else if name = "x-forwarded-uri" then HeaderValue.fromStr (r.target.getD "/")
  else if name = "x-forwarded-proto" then HeaderValue.fromStr (if r.tls.getD false then "https" else "http")
  else if name = "x-forwarded-host" then (authority r.uri r.headers).bind HeaderValue.fromStr
  else if name = "x-forwarded-for" then r.clientIp.bind fun ip => HeaderValue.fromStr ip.toText
  else none

namespace Config

/-- The names of a list that are names. -/
def named (names : List String) : List String := names.filterMap HeaderName.fromBytes

end Config

/-- Nobody names themselves: not to the authoriser, not to the application. -/
structure Unforged (c : Config) (r : Request) : Prop where
  told : ∀ name ∈ told, ∀ headers, authority r.uri headers = authority r.uri r.headers →
    (c.question { r with headers := headers }).getAll name = (c.question r).getAll name
  spoken : ∀ answer response headers, c.handle r response (some answer) = .next headers →
    ∀ name ∈ Config.named c.copy, headers.getAll name = answer.headers.getAll name
  framed : ∀ answer answer' response headers headers', c.handle r response (some answer) = .next headers →
    c.handle r response (some answer') = .next headers' → ∀ name ∈ neverCopy, headers.getAll name = headers'.getAll name
  relayed : ∀ answer response refusal, c.handle r response (some answer) = .answered refusal →
    ∀ name ∈ neverCopy, name ≠ "content-type" → refusal.headers.getAll name = response.headers.getAll name
  kept : ∀ answer response headers, c.handle r response (some answer) = .next headers →
    ∀ name ∉ Config.named c.copy, headers.getAll name = r.headers.getAll name

end ForwardAuth
end Gatel
