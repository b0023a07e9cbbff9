import Gatel.Model.Hash

namespace Gatel

inductive ResourceKind where
  | listener
  | site
  | route
  | upstream
  | tlsPolicy
  | directive
  deriving DecidableEq, Repr

def ResourceKind.asStr : ResourceKind → String
  | .listener => "listener"
  | .site => "site"
  | .route => "route"
  | .upstream => "upstream"
  | .tlsPolicy => "tls-policy"
  | .directive => "directive"

/-- A resource's logical identity: a written name, or one derived from content.
Its position in the file is never part of it. -/
structure ResourceId where
  kind : ResourceKind
  name : String
  deriving DecidableEq, Repr

namespace ResourceId

def derived (blake3 : Digest) (kind : ResourceKind) (parts : List String) : ResourceId :=
  let hasher := parts.foldl Hasher.updateStr (Hasher.new.updateStr kind.asStr)
  ⟨kind, "@" ++ (hasher.finish blake3).short⟩

/-- A derived identity inside its source's namespace. -/
def derivedOwned (blake3 : Digest) (kind : ResourceKind) (owner : SourceId) (parts : List String) :
    ResourceId :=
  let derived := derived blake3 kind parts
  match owner.namespacePrefix with
  | some space => ⟨kind, space ++ derived.name⟩
  | none => derived

def hashInto (id : ResourceId) (h : Hasher) : Hasher := (h.updateStr id.kind.asStr).updateStr id.name

@[simp] theorem derivedOwned_kind (blake3 : Digest) (kind : ResourceKind) (owner : SourceId)
    (parts : List String) : (derivedOwned blake3 kind owner parts).kind = kind := by
  cases owner <;> rfl

end ResourceId

/-- Configuration names secret material, it never contains any. -/
inductive SecretRef where
  | env (name : String)
  | file (path : String)
  deriving DecidableEq, Repr

namespace SecretRef

def stripPrefix? (pre text : String) : Option String :=
  if pre.toList.isPrefixOf text.toList then some (String.ofList (text.toList.drop pre.toList.length))
  else none

/-- Whether the text holds a substring. -/
def hasInfix (part text : String) : Bool := text.toList.tails.any fun rest => part.toList.isPrefixOf rest

def parse (text : String) : Except String SecretRef :=
  match stripPrefix? "env:" text with
  | some name =>
    if name = "" then .error "`env:` needs a variable name"
    else if !name.toList.all (fun c => c.isAlphanum || c == '_') then
      .error ("`" ++ name ++ "` is not a valid environment variable name (A-Z, 0-9 and _)")
    else .ok (.env name)
  | none =>
    let path := (stripPrefix? "file:" text).getD text
    if path = "" then .error "`file:` needs a path"
    else if hasInfix "-----BEGIN" path then
      .error "inline PEM material is not accepted, use `file:` or `env:`"
    else .ok (.file path)

def display : SecretRef → String
  | .env name => "env:" ++ name
  | .file path => "file:" ++ path

def hashInto (s : SecretRef) (h : Hasher) : Hasher := h.updateStr s.display

end SecretRef

end Gatel
