import Gatel.Bundle.FileServer
import Gatel.Model.HashExact
import Gatel.Plan.Matcher
import Gatel.Proxy.Outbound

namespace Gatel
namespace LocalRedirect

/-- The path of a redirect: no slash in front, and nothing a browser reads as more than a path. -/
def escapePath (path : String) : String :=
  Text.replaceChar '#' "%23" (Text.replaceChar '?' "%3F" (Text.replaceChar '\\' "%5C" path))

def target (path : String) (query : Option String) : String :=
  let target := "/" ++ escapePath (FileServer.trimSlashes path)
  match query with
  | some query => target ++ "?" ++ Text.replaceChar '#' "%23" query
  | none => target

/-- A header value for a path on this origin. -/
def location (path : String) (query : Option String) : Option (List UInt8) := HeaderValue.fromStr (target path query)

end LocalRedirect

namespace TrailingSlash

inductive Style where
  /-- `/about` becomes `/about/`. -/
  | add
  /-- `/about/` becomes `/about`. -/
  | remove

/-- Whether the last segment reads as a filename rather than a collection. -/
def looksLikeAFile (path : String) : Bool :=
  (path.toList.splitOn '/').getLast?.any fun last => last.contains '.' && last.head? != some '.'

@[grind =] def endsWithSlash (path : String) : Bool := path.toList.getLast? == some '/'

def trimEnd (path : String) : String := String.ofList (path.toList.reverse.dropWhile (· = '/')).reverse

/-- The path this one should be spelled as, if it is spelled differently. -/
def canonical (style : Style) (path : String) : Option String :=
  if path = "/" ∨ path = "" then none
  else match style with
    | .add => if endsWithSlash path || looksLikeAFile path then none else some (path ++ "/")
    | .remove => if endsWithSlash path then some (trimEnd path) else none

/-- Where a request is sent instead of being passed on. -/
def handle (style : Style) (path : String) (query : Option String) : Option (List UInt8) :=
  (canonical style path).bind fun canonical => LocalRedirect.location canonical query

end TrailingSlash

namespace LocalRedirect
open FileServer (trimSlashes percentDecode fromStrRadix safeRelative Server Files components Target)

/-! The three replacements at once, in characters and in bytes. -/

@[grind =] def escapeChar (c : Char) : List Char :=
  if c = '\\' then ['%', '5', 'C'] else if c = '?' then ['%', '3', 'F'] else if c = '#' then ['%', '2', '3'] else [c]

open TrailingSlash (endsWithSlash trimEnd canonical Style)

end LocalRedirect
end Gatel
