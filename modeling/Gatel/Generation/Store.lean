import Gatel.Model.Hash
import Gatel.Model.Snapshot

namespace Gatel
open Std (ExtTreeSet)

/-- Everything the transaction calls but never looks into: normalization,
compilation, the binding diff, the host's runtime and the digest. -/
structure Pipeline where
  Registry : Type
  Diagnostics : Type
  Spec : Type
  Plan : Type
  Binding : Type
  BindingChange : Type
  Runtime : Type
  normalize : Snapshot → Registry → Except Diagnostics Spec
  compile : Spec → Registry → Plan
  planHash : Plan → Fingerprint
  buildHash : Registry → Fingerprint
  bindings : Plan → List Binding
  diffBindings : List Binding → List Binding → List BindingChange
  errorCount : Diagnostics → Nat
  firstMessage : Diagnostics → Option String
  blake3 : Digest

/-- Optimistic write precondition: one store lifetime and its observed intent. -/
structure Version where
  bootId : BootId
  generation : Generation
  revs : RevVector
  deriving DecidableEq

/-- The writes behind a version's tag. -/
def Version.hasher (v : Version) : Hasher :=
  v.revs.toList.foldl (fun h (source, revision) => (h.updateStr source.display).updateU64 revision)
    ((Hasher.new.updateStr "gatel.configuration-version.v1").updateFingerprint v.bootId
      |>.updateU64 v.generation)

/-- The strong entity tag of a version. -/
def Version.etag (blake3 : Digest) (v : Version) : String :=
  "\"gatel-v1-" ++ (v.hasher.finish blake3).toHex ++ "\""

/-- Why the last attempt failed; the instant is left out. -/
structure Failure where
  attempts : U32
  stage : String
  summary : String
  deriving DecidableEq

/-- `saturating_add(1)` on the attempt counter. -/
def U32.saturatingNext (n : U32) : U32 := if h : n.val + 1 < 2 ^ 32 then ⟨n.val + 1, h⟩ else n

def Failure.after (last : Option Failure) (stage summary : String) : Failure :=
  ⟨match last with | none => 1 | some f => f.attempts.saturatingNext, stage, summary⟩

section
variable (P : Pipeline)

/-- A committed generation, with the exact sources it was compiled from. -/
structure Committed where
  number : Generation
  bootId : BootId
  plan : P.Plan
  runtime : P.Runtime
  revs : RevVector
  sources : Snapshot

inductive Outcome where
  | started (generation : Generation)
  | reloaded (generation : Generation) (changes : List P.BindingChange)
  | noOp (generation : Generation)
  | rejected (diagnostics : P.Diagnostics)
  | prepareFailed (message : String)
  | stale (reason : String)

/-- The outcomes that put a new generation live. -/
def Outcome.publishes {P : Pipeline} : Outcome P → Bool
  | .started _ => true
  | .reloaded _ _ => true
  | _ => false

def Outcome.isFailure {P : Pipeline} : Outcome P → Bool
  | .rejected _ => true
  | .prepareFailed _ => true
  | _ => false

theorem Outcome.publishes_of_isFailure {P : Pipeline} {o : Outcome P} (h : o.isFailure = true) :
    o.publishes = false := by
  cases o with
  | rejected diagnostics => rfl
  | prepareFailed message => rfl
  | _ => cases h

/-- The fields behind the store's lock. -/
structure State where
  sealed : Bool
  bootId : BootId
  generation : Generation
  current : Option (Committed P)
  head : RevVector
  intent : Snapshot
  lastFailure : Option Failure

/-- What a candidate assumed when it was admitted. -/
structure CandidateBase where
  expectedHead : RevVector
  baseGeneration : Generation
  previous : Option (Committed P)
  refresh : Bool

end

variable {P : Pipeline}

def State.fresh (boot : BootId) : State P := ⟨false, boot, .none, none, ∅, .empty, none⟩

/-- The parts of a store fixed at construction. -/
structure StoreConfig where
  sourceLimit : Nat
  sourceLimit_pos : 0 < sourceLimit
  allowedSources : Option (ExtTreeSet SourceId)

namespace StoreConfig

def withSourceLimit (n : Nat) (h : 0 < n) : StoreConfig := ⟨n, h, none⟩

/-- The default capacity. -/
def new : StoreConfig := withSourceLimit 256 (by decide)

def withAllowedSources (allowed : ExtTreeSet SourceId) : StoreConfig :=
  ⟨max allowed.size 1, by omega, some allowed⟩

def isRegisteredSource (c : StoreConfig) (source : SourceId) : Bool :=
  c.allowedSources.any (fun allowed => allowed.contains source)

/-- Some contribution comes from a source the host did not register. -/
def foreign (c : StoreConfig) (snapshot : Snapshot) : Bool :=
  match c.allowedSources with
  | none => false
  | some allowed => snapshot.sources.any (fun x => !allowed.contains x.source)

end StoreConfig

def sealedReason : String := "configuration publication is sealed"

def staleReason (expected actual : RevVector) : String :=
  (expected.firstDifference actual).getD "a source was observed again while preparing"

/-- The admission checks that turn a candidate away before anything is recorded. -/
inductive Refusal where
  | sealed
  | unregistered
  | capacity
  | reused
  deriving DecidableEq, Repr

def Refusal.reason : Refusal → String
  | .sealed => sealedReason
  | .unregistered => "configuration source is not registered by this host"
  | .capacity => "configuration source capacity exhausted"
  | .reused => "source content changed without advancing its revision"

/-- How the admission lock section ends. -/
inductive Admission (P : Pipeline) where
  | conflict (actual : Version)
  | refused (why : Refusal)
  | overtaken (reason : String)
  | candidate (base : CandidateBase P)

inductive RestoreIntentError where
  | conflict (actual : Version)
  | sealed
  | invalidSources
  | alreadyPublished
  deriving DecidableEq

namespace State

def version (s : State P) : Version := ⟨s.bootId, s.generation, s.head⟩

/-- The three facts a candidate must still find under the lock. -/
def validateCandidate (s : State P) (expected : RevVector) (base : Generation) :
    Except (Outcome P) Unit :=
  if s.sealed then .error (.stale sealedReason)
  else if s.head ≠ expected then .error (.stale (staleReason expected s.head))
  else if s.generation ≠ base then
    .error (.stale s!"generation moved from {base.val} to {s.generation.val} while preparing")
  else .ok ()

/-- A source not seen yet, or seen at an older revision. -/
def isNewer (head : RevVector) (x : SourceSnapshot) : Bool :=
  match head[x.source]? with
  | none => true
  | some rev => x.rev > rev

/-- The read section before admission: the contributions worth copying. -/
def newIntent (s : State P) (snapshot : Snapshot) : List SourceSnapshot :=
  snapshot.sources.filter (isNewer s.head)

/-- The read section shared by every composing operation. -/
def observedSnapshot (s : State P) : Version × Snapshot :=
  (s.version, Snapshot.ofSources s.intent.sources)

/-- Some contribution reuses its revision with another content. -/
def reusesRevision (s : State P) (snapshot : Snapshot) : Bool :=
  snapshot.sources.any fun x =>
    s.head[x.source]? = some x.rev ∧ (s.intent.get x.source).map (·.content) ≠ some x.content

/-- Retain each copied contribution that is still newer than the head. -/
def retain (s : State P) (observed : List SourceSnapshot) : Snapshot :=
  observed.foldl (fun intent x => if isNewer s.head x then intent.insert x else intent) s.intent

/-- Advance intent and head by an observation that passed every check. -/
def observe (s : State P) (snapshot : Snapshot) (observed : List SourceSnapshot) : State P :=
  { s with intent := s.retain observed, head := s.head.mergeMax snapshot.revs }

/-- The admission write section of `attempt_conditionally`. -/
def admission (c : StoreConfig) (s : State P) (snapshot : Snapshot) (expected : Option Version)
    (refresh : Bool) (observed : List SourceSnapshot) : State P × Admission P :=
  if s.sealed then (s, .refused .sealed)
  else if expected.any (fun e => decide (e ≠ s.version)) then (s, .conflict s.version)
  else if c.foreign snapshot then (s, .refused .unregistered)
  else if s.intent.sources.length +
      (snapshot.sources.filter (fun x => s.head[x.source]?.isNone)).length > c.sourceLimit then
    (s, .refused .capacity)
  else if s.reusesRevision snapshot then (s, .refused .reused)
  else if (s.observe snapshot observed).head ≠ snapshot.revs then
    (s.observe snapshot observed,
      .overtaken (staleReason snapshot.revs (s.observe snapshot observed).head))
  else
    (s.observe snapshot observed,
      .candidate ⟨snapshot.revs, s.generation, s.current, refresh⟩)

/-- Record a failure for a candidate that is still the newest. -/
def recordFailure (s : State P) (expected : RevVector) (base : Generation)
    (stage summary : String) : State P × Except (Outcome P) Unit :=
  match s.validateCandidate expected base with
  | .error stale => (s, .error stale)
  | .ok () => ({ s with lastFailure := some (Failure.after s.lastFailure stage summary) }, .ok ())

/-- A failing candidate ends in its own outcome, unless it was overtaken. -/
def fail (s : State P) (base : CandidateBase P) (stage summary : String) (outcome : Outcome P) :
    State P × Outcome P :=
  match s.recordFailure base.expectedHead base.baseGeneration stage summary with
  | (s', .error stale) => (s', stale)
  | (s', .ok ()) => (s', outcome)

/-- The write section of a candidate that would change nothing. -/
def finishNoOp (s : State P) (base : CandidateBase P) : State P × Outcome P :=
  match s.validateCandidate base.expectedHead base.baseGeneration with
  | .error stale => (s, stale)
  | .ok () => ({ s with lastFailure := none }, .noOp s.generation)

/-- The publishing write section. -/
def commit (s : State P) (base : CandidateBase P) (next : Generation) (plan : P.Plan)
    (changes : List P.BindingChange) (runtime : P.Runtime) (sources : Snapshot) : State P × Outcome P :=
  match s.validateCandidate base.expectedHead base.baseGeneration with
  | .error stale => (s, stale)
  | .ok () =>
    ({ s with
        generation := next
        current := some ⟨next, s.bootId, plan, runtime, sources.revs, sources⟩
        lastFailure := none },
      if s.current.isNone then .started next else .reloaded next changes)

/-- `reject_observation_if`: one write section. -/
def rejectObservationIf (s : State P) (expected : Version) (diagnostics : P.Diagnostics) :
    State P × Except Version (Outcome P) :=
  if s.sealed then (s, .ok (.stale sealedReason))
  else if s.version ≠ expected then (s, .error s.version)
  else
    let summary := (P.firstMessage diagnostics).getD "configuration observation failed"
    ({ s with lastFailure := some (Failure.after s.lastFailure "observe" summary) },
      .ok (.rejected diagnostics))

/-- The write section of intent restoration: head and intent are replaced whole. -/
def commitRestoredIntent (s : State P) (expected : Version) (snapshot : Snapshot) :
    State P × Except RestoreIntentError Version :=
  if s.sealed then (s, .error .sealed)
  else if s.version ≠ expected then (s, .error (.conflict s.version))
  else
    let s' := { s with
      intent := Snapshot.ofSources snapshot.sources
      head := snapshot.revs }
    (s', .ok s'.version)

def sealStore (s : State P) : State P := { s with sealed := true }

end State

/-- Source admission and history of a snapshot to be restored. -/
def StoreConfig.validateRestoredSources (c : StoreConfig) (previous snapshot : Snapshot) :
    Except RestoreIntentError Unit :=
  if snapshot.sources.length > c.sourceLimit ∨ c.foreign snapshot then .error .invalidSources
  else match previous.validateSuccessor snapshot with
    | .ok () => .ok ()
    | .error _ => .error .invalidSources

end Gatel
