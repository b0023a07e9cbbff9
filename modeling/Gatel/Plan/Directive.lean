import Gatel.Model.Diagnostic
import Gatel.Model.Resource

namespace Gatel
open CanonicalSort (sortBy)
open Std (TransCmp)

/-- A signed 32-bit integer. -/
structure I32 where
  val : Int
  lower : -(2 ^ 31) ≤ val
  upper : val < 2 ^ 31
  deriving DecidableEq

namespace I32

def zero : I32 := ⟨0, by decide, by decide⟩

def ofI64? (n : I64) : Option I32 :=
  if h : -(2 ^ 31) ≤ n.val ∧ n.val < 2 ^ 31 then some ⟨n.val, h.1, h.2⟩ else none

def toI64 (n : I32) : I64 :=
  ⟨n.val, by have := n.lower; omega, by have := n.upper; omega⟩

end I32

/-- Where a middleware sits in the request chain. -/
inductive Phase where
  | observe
  | guard
  | request
  | response
  deriving DecidableEq, Repr

def Phase.rank : Phase → Nat
  | .observe => 0
  | .guard => 1
  | .request => 2
  | .response => 3

inductive Role where
  | middleware (phase : Phase)
  | terminal
  deriving DecidableEq, Repr

namespace Role

def phase : Role → Option Phase
  | .middleware phase => some phase
  | .terminal => none

def isTerminal : Role → Bool
  | .terminal => true
  | .middleware _ => false

/-- The derived order of an optional phase: absent first. -/
def phaseOrder (r : Role) : Nat := (r.phase.map fun p => p.rank + 1).getD 0

end Role

inductive Scope where
  | site
  | route
  deriving DecidableEq, Repr

def Scope.name : Scope → String
  | .site => "site"
  | .route => "route"

def Scope.rank : Scope → Nat
  | .site => 0
  | .route => 1

structure Scopes where
  site : Bool
  route : Bool
  deriving DecidableEq, Repr

namespace Scopes

def allows (s : Scopes) : Scope → Bool
  | .site => s.site
  | .route => s.route

def describe (s : Scopes) : String :=
  match s.site, s.route with
  | true, true => "site or route"
  | true, false => "site"
  | false, true => "route"
  | false, false => "nowhere"

end Scopes

inductive FailurePolicy where
  | closed
  | «open»
  deriving DecidableEq, Repr

/-- Declared request-side effects. -/
inductive Effect where
  | requestBodyLimit
  | readRequestBody
  | callUpstream
  | consumeQuota
  | cacheLookup
  | transformRequestBody
  deriving DecidableEq, Repr

namespace Effect

def rank : Effect → Nat
  | .requestBodyLimit => 0
  | .readRequestBody => 1
  | .callUpstream => 2
  | .consumeQuota => 3
  | .cacheLookup => 4
  | .transformRequestBody => 5

def mustPrecede : Effect → Effect → Bool
  | .requestBodyLimit, .readRequestBody => true
  | .requestBodyLimit, .callUpstream => true
  | .requestBodyLimit, .consumeQuota => true
  | .requestBodyLimit, .transformRequestBody => true
  | .transformRequestBody, .readRequestBody => true
  | .transformRequestBody, .callUpstream => true
  | _, _ => false

def hash (effects : List Effect) (h : Hasher) : Hasher :=
  let canonical := (sortBy (compareOn rank) effects).destutter (· ≠ ·)
  canonical.foldl (fun h e => h.updateU64 (Fin.ofNat _ e.rank)) (h.updateU64 (Fin.ofNat _ canonical.length))

end Effect

/-- What a directive declares about itself, whatever its configuration. -/
structure DirectiveMeta where
  effects : List Effect
  before : List String
  conflicts : List String
  name : String
  scopes : Scopes
  role : Role
  order : I32
  version : String
  failurePolicy : FailurePolicy
  deriving DecidableEq

namespace DirectiveMeta

def middleware (name : String) (phase : Phase) (scopes : Scopes) : DirectiveMeta :=
  ⟨[], [], [], name, scopes, .middleware phase, I32.zero, "1", .closed⟩

def terminal (name : String) : DirectiveMeta :=
  ⟨[], [], [], name, ⟨false, true⟩, .terminal, I32.zero, "1", .closed⟩

def hashNames (names : List String) (h : Hasher) : Hasher :=
  let names := (sortBy compare names).destutter (· ≠ ·)
  names.foldl Hasher.updateStr (h.updateU64 (Fin.ofNat _ names.length))

def hashInto (m : DirectiveMeta) (h : Hasher) : Hasher :=
  let h := hashNames m.conflicts (hashNames m.before (Effect.hash m.effects h))
  let h := (((h.updateStr m.name).updateStr m.version).updateBool m.scopes.site).updateBool m.scopes.route
  let role := match m.role with
    | .middleware phase => phase.rank
    | .terminal => 100
  ((h.updateU64 (Fin.ofNat _ role)).updateI64 m.order.toI64).updateBool (m.failurePolicy == .open)

end DirectiveMeta

/-- A bundle's typed configuration, through the interface the compiler sees: the
bytes its `hash_into` writes, the compatibility of the state it keeps, the upstreams
it names and its one-line description. -/
structure DirectiveConfig where
  written : List UInt8
  state : Option Fingerprint
  upstreams : List ResourceId
  describe : String
  deriving DecidableEq

/-- A directive as a bundle registers it. -/
structure Directive where
  metadata : DirectiveMeta
  decode : Node → Report (Option DirectiveConfig)

/-- A directive at one place in the configuration. -/
structure DirectiveInstance where
  metadata : DirectiveMeta
  config : DirectiveConfig
  scope : Scope
  order : I32
  owner : ResourceId
  origin : Origin
  deriving DecidableEq

namespace DirectiveInstance

/-- Derive the state owner from the resource the instance sits on. -/
def own (blake3 : Digest) (resource : ResourceId) (d : DirectiveInstance) : DirectiveInstance :=
  { d with owner := .derived blake3 .directive [resource.name, d.metadata.name, d.scope.name] }

def phaseRank (d : DirectiveInstance) : Nat := (d.metadata.role.phase.map Phase.rank).getD 255

/-- Outer scope, then phase, then order, then name; never declaration position. -/
def compareKey : DirectiveInstance → DirectiveInstance → Ordering :=
  compareLex (compareOn fun d => d.scope.rank) <| compareLex (compareOn phaseRank) <|
    compareLex (compareOn fun d => d.order.val) (compareOn fun d => d.metadata.name)

instance : TransCmp compareKey :=
  inferInstanceAs (TransCmp (compareLex (compareOn fun d => d.scope.rank) <|
    compareLex (compareOn phaseRank) <|
      compareLex (compareOn fun d => d.order.val) (compareOn fun d => d.metadata.name)))

theorem name_eq_of_compareKey {a b : DirectiveInstance} (h : compareKey a b = .eq) :
    a.metadata.name = b.metadata.name := by
  obtain ⟨_, h⟩ := compareLex_eq_eq.mp h
  obtain ⟨_, h⟩ := compareLex_eq_eq.mp h
  obtain ⟨_, h⟩ := compareLex_eq_eq.mp h
  exact Std.LawfulEqOrd.eq_of_compare h

def hashInto (d : DirectiveInstance) (h : Hasher) : Hasher :=
  let h := (d.metadata.hashInto h).updateU64 (Fin.ofNat _ d.scope.rank)
  let h := h.updateI64 d.order.toI64
  ⟨h.written ++ d.config.written⟩

end DirectiveInstance

/-- The immutable set of directives this binary contains, keyed and ordered by name. -/
structure Registry where
  directives : List Directive
  bundles : List (String × String)
  keyed : directives.Pairwise fun a b => a.metadata.name < b.metadata.name

namespace Registry

def get (r : Registry) (name : String) : Option Directive :=
  r.directives.find? fun d => d.metadata.name == name

def buildHash (blake3 : Digest) (r : Registry) : Fingerprint :=
  let h := r.bundles.foldl (fun h b => (h.updateStr b.1).updateStr b.2) Hasher.new
  (r.directives.foldl (fun h d => d.metadata.hashInto h) h).finish blake3

def namesFor (r : Registry) (scope : Scope) : List String :=
  (r.directives.filter fun d => d.metadata.scopes.allows scope).map fun d => d.metadata.name

/-- The `order=` of a node, or the directive's own. -/
def orderOf (m : DirectiveMeta) (node : Node) : Except Diagnostic I32 :=
  match node.prop "order" with
  | none => .ok m.order
  | some property => match property.value.asInt with
    | none => .error (.error .invalidValue property.origin "`order` must be an integer")
    | some value => match I32.ofI64? value with
      | none => .error (.error .invalidValue property.origin "`order` must fit a signed 32-bit integer")
      | some order => .ok order

/-- Decode a node in a scope. -/
def decode (blake3 : Digest) (r : Registry) (node : Node) (scope : Scope) :
    Report (Option DirectiveInstance) :=
  match r.get node.name with
  | none =>
    let d := Diagnostic.error .unknownNode node.origin ("unknown directive `" ++ node.name ++ "`")
    match didYouMean node.name (r.namesFor scope) with
    | some suggestion => ⟨none, [d.withHelp ("did you mean `" ++ suggestion ++ "`?")]⟩
    | none => ⟨none, [d.withHelp "run `gatel capabilities` to see what this build supports"]⟩
  | some directive =>
    let m := directive.metadata
    if !m.scopes.allows scope then
      ⟨none, [(Diagnostic.error .invalidScope node.origin
        ("`" ++ m.name ++ "` cannot appear in a " ++ scope.name)).withHelp
          ("`" ++ m.name ++ "` belongs in a " ++ m.scopes.describe)]⟩
    else if (node.props.filter fun p => p.name == "order").length > 1 then
      ⟨none, [.error .invalidValue node.origin "`order` must not be repeated"]⟩
    else match orderOf m node with
      | .error d => ⟨none, [d]⟩
      | .ok order =>
        let stripped := { node with props := node.props.filter fun p => p.name != "order" }
        let config := directive.decode stripped
        let owner := ResourceId.derived blake3 .directive [m.name, scope.name]
        ⟨config.value.map fun config => ⟨m, config, scope, order, owner, node.origin⟩, config.diagnostics⟩

end Registry

end Gatel
