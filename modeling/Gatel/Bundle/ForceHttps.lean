import Gatel.Bundle.Authority
import Gatel.Bundle.LocalRedirect

namespace Gatel.ForceHttps
open Proxy (authority Authority Host UriAuthority Printed)

structure ForceHttpsHandler where
  port : Option UInt16
  status : Nat

/-- A request, with what the listener says of its connection. -/
structure Request where
  uri : Option UriAuthority
  target : Option String
  headers : HeaderMap
  tls : Option Bool

inductive Flow where
  /-- The rest of the chain answers. -/
  | next
  | answered (status : Nat) (location : Option (List UInt8)) (body : String)

namespace ForceHttpsHandler

def location (s : ForceHttpsHandler) (r : Request) : Option (List UInt8) := do
  let authority ← authority r.uri r.headers
  let host := (Text.splitAll ':' authority).headD authority
  let target := r.target.getD "/"
  HeaderValue.fromStr <|
    match s.port with
    | none | some 443 => "https://" ++ host ++ target
    | some port => "https://" ++ host ++ ":" ++ toString port.toNat ++ target

def handle (s : ForceHttpsHandler) (r : Request) : Flow :=
  if r.tls.getD false then .next
  else match s.location r with
    | none => .answered 400 none "400 no host to redirect to\n"
    | some location => .answered s.status (some location) ""

/-- The port of the secure site, as it stands in its address. -/
def written (s : ForceHttpsHandler) : String :=
  if s.port = none ∨ s.port = some 443 then "" else s.port.elim "" fun port => ":" ++ toString port.toNat

end ForceHttpsHandler

/-- A host by its name. -/
def named : Authority where
  host := .name "a.example".toList (List.all_eq_true.mp (by decide))
  port := none
  digits := Authority.no_digits

end Gatel.ForceHttps
