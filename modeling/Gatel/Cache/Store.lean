import Gatel.Lib.CanonicalSort
import Gatel.Lib.KeyedMap
import Gatel.Model.Http

namespace Gatel.Cache
open CanonicalSort (sortBy)
open KeyedMap (Map modifyFirst)

/-! What is held, and what is thrown away to make room. -/

/-- What a request is looked up by, before `Vary` is taken into account. -/
structure Key where
  method : String
  «namespace» : String
  scheme : String
  host : String
  target : String
  deriving DecidableEq

/-- The host is compared without case. -/
def Key.new (method scheme host target : String) : Key :=
  ⟨method, "", scheme, String.ofList (host.toList.map Char.toLower), target⟩

/-- One stored response. -/
structure Entry where
  status : UInt16
  headers : HeaderMap
  body : List UInt8
  stored : Instant
  ttl : Duration
  ageOnArrival : Duration
  deriving DecidableEq

namespace Entry

def age (e : Entry) (now : Instant) : Nat := now - e.stored

def currentAge (e : Entry) (now : Instant) : Nat := min (e.ageOnArrival.val + e.age now) (2 ^ 64 * 10 ^ 9 - 1)

def isFresh (e : Entry) (now : Instant) : Bool := e.currentAge now < e.ttl.val

/-- What an entry costs to hold, metadata included. -/
def weight (e : Entry) (key : Key) (signature : String) (vary : List String) : Nat :=
  let headers := (e.headers.map fun field => field.1.utf8ByteSize + field.2.length + 64).sum
  let keys := key.method.utf8ByteSize + key.namespace.utf8ByteSize + key.scheme.utf8ByteSize + key.host.utf8ByteSize +
    key.target.utf8ByteSize
  saturatingAdd (saturatingAdd (saturatingAdd (saturatingAdd (saturatingAdd 256 e.body.length) headers)
    (min (keys * 2) (2 ^ 64 - 1))) signature.utf8ByteSize) (vary.map fun name => name.utf8ByteSize + 24).sum

end Entry

/-- A stored response with the signature it answers; the identity stands for the
allocation that tells two copies apart. -/
structure Held where
  identity : Nat
  entry : Entry
  weight : Nat
  signature : String
  used : Nat
  deriving DecidableEq

/-- A copy seen before the origin was asked. -/
structure Observed where
  key : Key
  signature : String
  identity : Nat
  deriving DecidableEq

/-- The shared store. `bytes` and `clock` are 64-bit in the source and do not wrap
while they fit (`Traced.counters_fit`); `fresh` numbers allocations. -/
structure Store where
  held : Map Key (List Held)
  vary : Map Key (List String)
  revision : U64
  bytes : Nat
  maxBytes : U64
  clock : Nat
  fresh : Nat

/-- The signature a request has for a `Vary` list. -/
def signature (blake3 : Digest) (headers : HeaderMap) (vary : List String) : String :=
  if vary = [] then ""
  else
    let h := (Hasher.new.updateStr "cache-vary-v2").updateU64 (Fin.ofNat _ vary.length)
    let h := vary.foldl (fun h name =>
      let values := headers.getAll name
      values.foldl Hasher.updateBytes ((h.updateStr name).updateU64 (Fin.ofNat _ values.length))) h
    (h.finish blake3).toHex

namespace Store

def new (maxBytes : U64) : Store := ⟨∅, ∅, 0, 0, maxBytes, 0, 0⟩

/-- Keep these copies of a resource; without any, forget what it varied on too. -/
def setCopies (s : Store) (key : Key) (copies : List Held) : Store :=
  if copies = [] then { s with held := s.held.erase key, vary := s.vary.erase key }
  else { s with held := s.held.insert key copies }

def observe (s : Store) (blake3 : Digest) (key : Key) (headers : HeaderMap) : Option Observed := do
  let signature := signature blake3 headers (← s.vary.lookup key)
  let copy ← (← s.held.lookup key).find? fun copy => copy.signature == signature
  return ⟨key, signature, copy.identity⟩

/-- Dropping a `Retirement`: whether the observed copy was still there. -/
@[grind =] def discardObserved (s : Store) (observed : Observed) : Bool × Store :=
  match s.held.lookup observed.key with
  | none => (false, s)
  | some copies =>
    match copies.find? fun copy => copy.signature == observed.signature && copy.identity == observed.identity with
    | none => (false, s)
    | some old => (true, { s.setCopies observed.key (copies.erase old) with
        bytes := s.bytes - old.weight
        revision := s.revision.saturatingNext })

/-- Take a stale copy out, with the revision a later fill must still find. -/
def takeStale (s : Store) (blake3 : Digest) (key : Key) (headers : HeaderMap) (now : Entry → Instant) :
    Option (U64 × Entry) × Store :=
  match s.vary.lookup key, s.held.lookup key with
  | some vary, some copies =>
    let signature := signature blake3 headers vary
    match copies.find? fun copy => copy.signature == signature && !copy.entry.isFresh (now copy.entry) with
    | none => (none, s)
    | some old => (some (s.revision, old.entry), { s.setCopies key (copies.erase old) with bytes := s.bytes - old.weight })
  | _, _ => (none, s)

/-- Drop what expired, then hand out the first copy that fits. `now` is when each
entry is looked at. -/
def lookup (s : Store) (key : Key) (signatureFor : List String → String) (now : Entry → Instant)
    (accepts : Entry → Bool) : Option Entry × Store :=
  let signature := signatureFor ((s.vary.lookup key).getD [])
  match s.held.lookup key with
  | none => (none, s)
  | some copies =>
    let fresh := copies.filter fun copy => copy.entry.isFresh (now copy.entry)
    let freed := ((copies.filter fun copy => !copy.entry.isFresh (now copy.entry)).map Held.weight).sum
    let fits := fun copy : Held => copy.signature == signature && accepts copy.entry
    ((fresh.find? fits).map Held.entry,
      { s.setCopies key (modifyFirst fits (fun copy => { copy with used := s.clock }) fresh) with
        bytes := s.bytes - freed
        clock := s.clock + 1 })

def getMatching (s : Store) (blake3 : Digest) (key : Key) (headers : HeaderMap) (now : Entry → Instant)
    (accepts : Entry → Bool) : Option Entry × Store :=
  s.lookup key (fun vary => signature blake3 headers vary) now accepts

/-- One URI, whatever the method and the namespace. -/
def Key.sameUri (a b : Key) : Bool := a.scheme == b.scheme && a.host == b.host && a.target == b.target

/-- Invalidate every copy of a URI and cancel all fills in flight. -/
def invalidate (s : Store) (key : Key) : Store :=
  let freed := ((s.held.entries.filter fun e => Key.sameUri e.1 key).map fun e => (e.2.map Held.weight).sum).sum
  { s with
    held := KeyedMap.retain (fun candidate => !Key.sameUri candidate key) s.held
    vary := KeyedMap.retain (fun candidate => !Key.sameUri candidate key) s.vary
    revision := s.revision.saturatingNext
    bytes := s.bytes - freed }

/-- The oldest candidates whose weight makes up for the excess. -/
@[grind =] def selectVictims (excess : Nat) : Nat → List (Key × Held) → List (Key × Held)
  | _, [] => []
  | selected, c :: rest =>
    let selected := saturatingAdd selected c.2.weight
    c :: if excess ≤ selected then [] else selectVictims excess selected rest

/-- What is left of one resource; a resource with no victim is not touched. -/
def spared (victims : List (Key × Held)) (key : Key) (copies : List Held) : Option (List Held) :=
  if victims.any fun v => v.1 == key then
    let left := copies.filter fun copy => !victims.any fun v => v.1 == key && v.2.signature == copy.signature
    if left = [] then none else some left
  else some copies

/-- Take the victims out, resource by resource. -/
def removeVictims (s : Store) (victims : List (Key × Held)) : Store :=
  let held := KeyedMap.refine (spared victims) s.held
  let freed := ((KeyedMap.items s.held).filter fun c =>
    victims.any fun v => v.1 == c.1 && v.2.signature == c.2.signature).map fun c => c.2.weight
  { s with
    held := held
    vary := KeyedMap.retain (fun key => (held.lookup key).isSome || (s.held.lookup key).isNone) s.vary
    bytes := s.bytes - freed.sum }

/-- Throw away least-recently-used copies until the budget is met. -/
def evictDownToBudget (s : Store) : Store :=
  let excess := s.bytes - s.maxBytes.val
  if excess = 0 then s
  else s.removeVictims (selectVictims excess 0 (sortBy (compareOn fun c : Key × Held => c.2.used) (KeyedMap.items s.held)))

/-- The copies of a resource with this one among them: in place of the copy with its
signature, or behind the others. -/
def placed (copies : List Held) (copy : Held) : List Held :=
  if copies.any fun c => c.signature == copy.signature then
    modifyFirst (fun c => c.signature == copy.signature) (fun _ => copy) copies
  else copies ++ [copy]

/-- Store a copy under its `Vary` list; another list's copies go first. -/
@[grind =] def deposit (s : Store) (key : Key) (signature : String) (vary : List String) (entry : Entry) : Store :=
  let weight := entry.weight key signature vary
  let changed := (s.vary.lookup key).any fun old => old ≠ vary
  let present := (s.held.lookup key).getD []
  let copies := if changed then [] else present
  let dropped := if changed then (present.map Held.weight).sum else 0
  let replaced := ((copies.find? fun c => c.signature == signature).map Held.weight).getD 0
  { s with
    held := s.held.insert key (placed copies ⟨s.fresh, entry, weight, signature, s.clock⟩)
    vary := s.vary.insert key vary
    bytes := s.bytes - dropped - replaced + weight
    clock := s.clock + 1
    fresh := s.fresh + 1 }

/-- Whether a put must leave what is there alone. -/
def occupied (s : Store) (key : Key) (signature : String) (vary : List String) : Bool :=
  ((s.vary.lookup key).any fun old => old ≠ vary) ||
    (s.held.lookup key).any fun copies => copies.any fun c => c.signature == signature

def putGuarded (s : Store) (revision : U64) (key : Key) (signature : String) (vary : List String) (entry : Entry)
    (onlyIfAbsent : Bool) : Bool × Store :=
  if s.maxBytes.val < entry.weight key signature vary then (false, s)
  else if s.revision ≠ revision ∨ revision.val = 2 ^ 64 - 1 then (false, s)
  else if onlyIfAbsent && s.occupied key signature vary then (false, s)
  else (true, (s.deposit key signature vary entry).evictDownToBudget)

def putIfCurrent (s : Store) (revision : U64) (key : Key) (signature : String) (vary : List String) (entry : Entry) :
    Bool × Store :=
  s.putGuarded revision key signature vary entry false

end Store

end Gatel.Cache
