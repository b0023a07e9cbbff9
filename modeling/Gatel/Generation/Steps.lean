import Gatel.Generation.Store
import Gatel.Lib.Run

namespace Gatel

section
variable (P : Pipeline) (c : StoreConfig)

/-- A source-scoped write capability. Only registered sources are issued one. -/
structure SourceWriter where
  source : SourceId
  registry : P.Registry
  registered : c.isRegisteredSource source = true

/-- One invocation of a public operation of the store. -/
inductive Call where
  | attempt (snapshot : Snapshot) (registry : P.Registry)
  | refresh (snapshot : Snapshot) (registry : P.Registry)
  | attemptIf (expected : Version) (snapshot : Snapshot) (registry : P.Registry)
  | refreshIf (expected : Version) (snapshot : Snapshot) (registry : P.Registry)
  | attemptIfEtag (expected : String) (snapshot : Snapshot) (registry : P.Registry)
  | attemptSourceIf (expected : Version) (source : SourceSnapshot) (registry : P.Registry)
  | writerAttemptIf (writer : SourceWriter P c) (expected : Version) (content : Fingerprint)
      (nodes : List Node)
  | restoreIntentIf (expected : Version) (snapshot : Snapshot)
  | recoverIf (expected : Version) (serving observed : Snapshot) (registry : P.Registry)
  | rejectObservationIf (expected : Version) (diagnostics : P.Diagnostics)
  | sealStore

/-- What a call hands back. A refusal is a `Stale` outcome to the caller; it is kept
apart from the staleness found after admission. -/
inductive Result where
  | outcome (outcome : Outcome P)
  | refused (why : Refusal)
  | conflict (actual : Version)
  | unavailable
  | observation (error : ObservationError)
  | restored (version : Version)
  | restoreError (error : RestoreIntentError)
  | sealed

/-- The arguments of `attempt_conditionally`. -/
structure Request where
  snapshot : Snapshot
  registry : P.Registry
  expected : Option Version
  refresh : Bool

/-- Where a call stands between two lock sections. -/
inductive Task where
  | starting
  | writing
  | observing (request : Request P)
  | admitting (request : Request P) (observed : List SourceSnapshot)
  | finishing (request : Request P) (base : CandidateBase P)
  | preparing (request : Request P) (base : CandidateBase P) (plan : P.Plan) (next : Generation)
  | restoring (expected : Version) (snapshot : Snapshot) (serving : Option (Snapshot × P.Registry))
  | done (result : Result P)

structure Thread where
  call : Call P c
  task : Task P

/-- One publication, for the statements only: the store keeps no such log. `head` is
the store's at the publishing instant. -/
structure Publication where
  thread : Nat
  call : Call P c
  expected : Option Version
  committed : Committed P
  head : RevVector

/-- One store and everyone calling it. -/
structure World where
  state : State P
  threads : List (Thread P c)
  log : List (Publication P c)

/-- A scheduling choice: a new caller, or the next lock section of a caller, with
what its preparation returned should that section follow one. -/
inductive Action where
  | call (call : Call P c)
  | step (thread : Nat) (prepared : Except String P.Runtime)

end

variable {P : Pipeline} {c : StoreConfig}

/-- What happens to each piece of state if the candidate commits. -/
def CandidateBase.changes (base : CandidateBase P) (plan : P.Plan) : List P.BindingChange :=
  P.diffBindings (base.previous.elim [] fun committed => P.bindings committed.plan)
    (P.bindings plan)

/-- `finish_attempt` up to its first lock section. -/
def Request.finish (r : Request P) (base : CandidateBase P) (s : State P) : State P × Task P :=
  match P.normalize r.snapshot r.registry with
  | .error diagnostics =>
    let (s', o) := s.fail base "normalize" s!"{P.errorCount diagnostics} problems"
      (.rejected diagnostics)
    (s', .done (.outcome o))
  | .ok spec =>
    let plan := P.compile spec r.registry
    if base.previous.any (fun committed => P.planHash committed.plan = P.planHash plan) ∧
        base.refresh = false then
      let (s', o) := s.finishNoOp base
      (s', .done (.outcome o))
    else match base.baseGeneration.next with
      | none =>
        let message := "generation counter exhausted"
        let (s', o) := s.fail base "prepare" message (.prepareFailed message)
        (s', .done (.outcome o))
      | some next => (s, .preparing r base plan next)

/-- The rest of `finish_attempt`, once preparation has returned. -/
def Request.publish (r : Request P) (base : CandidateBase P) (plan : P.Plan) (next : Generation)
    (prepared : Except String P.Runtime) (s : State P) : State P × Outcome P :=
  match prepared with
  | .error message => s.fail base "prepare" message (.prepareFailed message)
  | .ok runtime => s.commit base next plan (base.changes plan) runtime r.snapshot

/-- The admission section of `attempt_conditionally`. -/
def Request.admission (c : StoreConfig) (r : Request P) (observed : List SourceSnapshot)
    (s : State P) : State P × Task P :=
  match s.admission c r.snapshot r.expected r.refresh observed with
  | (s', .conflict actual) => (s', .done (.conflict actual))
  | (s', .refused why) => (s', .done (.refused why))
  | (s', .overtaken reason) => (s', .done (.outcome (.stale reason)))
  | (s', .candidate base) => (s', .finishing r base)

/-- `restore_intent_with` before its commit: one read section, then validation. -/
def beginRestore (c : StoreConfig) (expected : Version) (snapshot : Snapshot)
    (serving : Option (Snapshot × P.Registry)) (s : State P) : Task P :=
  let (actual, previous) := s.observedSnapshot
  if actual ≠ expected then .done (.restoreError (.conflict actual))
  else match c.validateRestoredSources previous snapshot with
    | .error e => .done (.restoreError e)
    | .ok () => .restoring expected snapshot serving

/-- `recover_if` before its commit. -/
def beginRecover (c : StoreConfig) (expected : Version) (serving observed : Snapshot)
    (registry : P.Registry) (s : State P) : Task P :=
  if expected.generation ≠ Generation.none then .done (.restoreError .alreadyPublished)
  else match c.validateRestoredSources .empty serving with
    | .error e => .done (.restoreError e)
    | .ok () =>
      match c.validateRestoredSources serving observed with
      | .error e => .done (.restoreError e)
      | .ok () => beginRestore c expected observed (some (serving, registry)) s

/-- `commit_restored_intent`, and for a recovery the candidate that follows it. -/
def finishRestore (expected : Version) (snapshot : Snapshot)
    (serving : Option (Snapshot × P.Registry)) (s : State P) : State P × Task P :=
  match s.commitRestoredIntent expected snapshot, serving with
  | (s', .error e), _ => (s', .done (.restoreError e))
  | (s', .ok version), none => (s', .done (.restored version))
  | (s', .ok version), some (serving, registry) =>
    (s', .finishing ⟨serving, registry, some expected, false⟩
      ⟨version.revs, version.generation, none, false⟩)

/-- `attempt_source_if` before the ordinary transaction. -/
def composeSource (expected : Version) (source : SourceSnapshot) (registry : P.Registry)
    (s : State P) : Task P :=
  let (actual, snapshot) := s.observedSnapshot
  if actual ≠ expected then .done (.conflict actual)
  else .observing ⟨snapshot.insert source, registry, some expected, false⟩

/-- `SourceWriter::attempt_if` after its check of the seal. -/
def SourceWriter.compose (writer : SourceWriter P c) (expected : Version) (content : Fingerprint)
    (nodes : List Node) (s : State P) : Task P :=
  let (actual, intent) := s.observedSnapshot
  if actual ≠ expected then .done (.conflict actual)
  else match SourceSnapshot.observe writer.source content nodes (intent.get writer.source) with
    | .error e => .done (.observation e)
    | .ok observed => .observing ⟨intent.insert observed, writer.registry, some expected, false⟩

def Request.observe (r : Request P) (s : State P) : Task P :=
  .admitting r (s.newIntent r.snapshot)

/-- The first lock section of a call. -/
def Call.start (call : Call P c) (s : State P) : State P × Task P :=
  match call with
  | .attempt snapshot registry => (s, Request.observe ⟨snapshot, registry, none, false⟩ s)
  | .refresh snapshot registry => (s, Request.observe ⟨snapshot, registry, none, true⟩ s)
  | .attemptIf expected snapshot registry =>
    (s, Request.observe ⟨snapshot, registry, some expected, false⟩ s)
  | .refreshIf expected snapshot registry =>
    (s, Request.observe ⟨snapshot, registry, some expected, true⟩ s)
  | .attemptIfEtag expected snapshot registry =>
    if expected ≠ s.version.etag P.blake3 then (s, .done (.conflict s.version))
    else (s, .observing ⟨snapshot, registry, some s.version, false⟩)
  | .attemptSourceIf expected source registry => (s, composeSource expected source registry s)
  | .writerAttemptIf _ _ _ _ => if s.sealed then (s, .done .unavailable) else (s, .writing)
  | .restoreIntentIf expected snapshot => (s, beginRestore c expected snapshot none s)
  | .recoverIf expected serving observed registry =>
    (s, beginRecover c expected serving observed registry s)
  | .rejectObservationIf expected diagnostics =>
    match s.rejectObservationIf expected diagnostics with
    | (s', .error actual) => (s', .done (.conflict actual))
    | (s', .ok o) => (s', .done (.outcome o))
  | .sealStore => (s.sealStore, .done .sealed)

/-- The next lock section of a call; none once it has returned. -/
def Thread.step (t : Thread P c) (prepared : Except String P.Runtime) (s : State P) :
    Option (State P × Task P) :=
  match t.task with
  | .starting => some (t.call.start s)
  | .writing =>
    match t.call with
    | .writerAttemptIf writer expected content nodes =>
      some (s, writer.compose expected content nodes s)
    | _ => none
  | .observing r => some (s, r.observe s)
  | .admitting r observed => some (r.admission c observed s)
  | .finishing r base => some (r.finish base s)
  | .preparing r base plan next =>
    let (s', o) := r.publish base plan next prepared s
    some (s', .done (.outcome o))
  | .restoring expected snapshot serving => some (finishRestore expected snapshot serving s)
  | .done _ => none

/-- What a section that ends in a publishing outcome adds to the log. -/
def Thread.publication (i : Nat) (t : Thread P c) (s s' : State P) (task : Task P) :
    Option (Publication P c) :=
  match t.task, task with
  | .preparing r _ _ _, .done (.outcome o) =>
    if o.publishes then s'.current.map (fun committed => ⟨i, t.call, r.expected, committed, s.head⟩)
    else none
  | _, _ => none

namespace World

def start (boot : BootId) : World P c := ⟨.fresh boot, [], []⟩

def act (w : World P c) : Action P c → World P c
  | .call call => { w with threads := w.threads ++ [⟨call, .starting⟩] }
  | .step i prepared =>
    match w.threads[i]? with
    | none => w
    | some t =>
      match t.step prepared w.state with
      | none => w
      | some (s', task) =>
        { state := s'
          threads := w.threads.set i ⟨t.call, task⟩
          log := w.log ++ (t.publication i w.state s' task).toList }

/-- Any interleaving of any number of callers, from any world. -/
def run (w : World P c) (actions : List (Action P c)) : World P c := Run.run act w actions

end World

end Gatel
