import Gatel.Admin.Handle
import Gatel.Generation.Capture
import Gatel.Generation.Outcomes

namespace Gatel.Admin

/-! Requests to the admin handler beside each other, beside every other writer of the store and
beside shutdown. A step lies between two looks at shared state. -/

/-- What the host binds the handler to; the KDL frontend is looked into nowhere. -/
structure Host (P : Pipeline) where
  api : AdminApi
  registry : P.Registry
  lower : String → SourceId → Except P.Diagnostics (Fingerprint × List Node)

/-- What a step finds outside the store. -/
structure Chance where
  alive : Bool
  activated : U64
  health : Report
  /-- The time for the body ran out. -/
  elapsed : Bool
  /-- A slot and an admission, or why there is none. -/
  admission : Except String Unit
  /-- The checkpoint writer was bound to this lifetime. -/
  bound : Bool
  /-- A resource read during preparation has changed. -/
  refresh : Bool
  /-- The checkpoint writer could be locked. -/
  locked : Bool
  saved : Bool

section
variable (P : Pipeline)

/-- Where a request stands. From `queued` on, the write is a task of its own. -/
inductive Phase where
  | arrived
  /-- Authorized, with a permit, on an open host. -/
  | admitted
  | reading (version : Version) (length : Option Nat)
  | submitting (version : Version) (text : String)
  | opening (version : Version) (text : String)
  | queued (version : Version) (text : String)
  | working (version : Version) (text : String)
  | attempting (version : Version) (snapshot : Snapshot)
  | checking (version : Version) (snapshot : Snapshot)
  | calling (version : Version) (thread : Nat)
  | finishing (version : Version) (result : Except WriteError (Outcome P))
  | done (response : Response)
  | gone

/-- One request. What it submitted, and which call on the store that made, are kept for the
statements. -/
structure Exchange where
  request : Request
  connected : Bool
  submitted : Option (Version × String)
  thread : Option Nat
  phase : Phase P

end

section
variable {P : Pipeline} {c : StoreConfig}

/-- Whether a call of `handle` holds its permit. -/
def Phase.inside : Phase P → Bool
  | .arrived | .done _ | .gone => false
  | _ => true

def Exchange.holds (readOnly : Bool) (e : Exchange P) : Bool :=
  e.connected && e.phase.inside && (e.request.readOnly == readOnly)

/-- What a returned call of the store is to the writer. -/
def Result.written : Result P → Option (Except WriteError (Outcome P))
  | .outcome o => some (.ok o)
  | .refused why => some (.ok (.stale why.reason))
  | .conflict actual => some (.error (.conflict actual))
  | _ => none

def closedReason : String := "configuration submissions are closed"

def isStale : Outcome P → Bool
  | .stale _ => true
  | _ => false

def isRejected : Outcome P → Bool
  | .rejected _ => true
  | _ => false

/-- `persist_checkpoint`, on one capture of the store. -/
def persistCheckpoint (base : Version) (capture : ConfigurationCapture P) (chance : Chance) :
    Except WriteError (Outcome P) → Except WriteError (Outcome P)
  | .error e => .error e
  | .ok o =>
    if !chance.locked then .error .persistenceUnknown
    else if isStale o ∧ capture.version = base then .ok o
    else if isRejected o ∧ capture.version = base ∧
        capture.committed.isNone ∧ capture.observed.sources.isEmpty then .ok o
    else if capture.committed.all (fun committed => chance.activated < committed.number) then
      .error .persistenceUnknown
    else if chance.saved then .ok o else .error .persistenceUnknown

namespace Host

/-- The body of the configuration work: what comes next, and the call it makes on the store. -/
def work (h : Host P) (version : Version) (text : String) (chance : Chance) (s : State P) (thread : Nat) :
    Phase P × Option (Call P c) :=
  match chance.admission with
  | .error _ => (.finishing version (.ok (.stale closedReason)), none)
  | .ok () =>
    let (actual, intent) := s.observedSnapshot
    if actual ≠ version then (.finishing version (.error (.conflict actual)), none)
    else if h.api.checkpointMode && !chance.bound then (.finishing version (.error .persistenceUnknown), none)
    else match h.lower text .admin with
      | .error diagnostics => (.calling version thread, some (.rejectObservationIf version diagnostics))
      | .ok (content, nodes) =>
        match SourceSnapshot.observe .admin content nodes (intent.get .admin) with
        | .error e => (.finishing version (.error (.observation e)), none)
        | .ok observed => (.attempting version (intent.insert observed), none)

/-- The next stage of a request, and the call on the store that begins there. -/
@[grind =] def next (h : Host P) (chance : Chance) (capacity : Bool) (store : World P c) (r : Request) :
    Phase P → Phase P × Option (Call P c)
  | .arrived =>
    match h.api.authorize P.blake3 r with
    | .error response => (.done response, none)
    | .ok () =>
      match AdminApi.available capacity chance.alive store.state.sealed with
      | .error response => (.done response, none)
      | .ok () => (.admitted, none)
  | .admitted =>
    match h.api.sample store.state chance.activated chance.health r with
    | .error response => (.done response, none)
    | .ok (version, length) => (.reading version length, none)
  | .reading version length =>
    match AdminApi.receive chance.elapsed length r.body with
    | .error response => (.done response, none)
    | .ok text => (.submitting version text, none)
  | .submitting version text =>
    if !chance.alive || store.state.sealed then
      (.done (writeReply (P := P) (.error .unavailable) h.api.checkpointMode), none)
    else (.opening version text, none)
  | .opening version text =>
    match chance.admission with
    | .error reason => (.done (writeReply (P := P) (.ok (.stale reason)) h.api.checkpointMode), none)
    | .ok () => (.queued version text, none)
  | .queued version text =>
    if store.state.sealed then
      (.done (writeReply (P := P) (.ok (.stale closedReason)) h.api.checkpointMode), none)
    else (.working version text, none)
  | .working version text => h.work version text chance store.state store.threads.length
  | .attempting version snapshot =>
    match chance.admission with
    | .error _ => (.finishing version (.ok (.stale closedReason)), none)
    | .ok () =>
      if store.state.sealed then (.finishing version (.ok (.stale sealedReason)), none)
      else (.checking version snapshot, none)
  | .checking version snapshot =>
    if store.state.version ≠ version then
      (.finishing version (.error (.conflict store.state.version)), none)
    else (.calling version store.threads.length,
      some (if chance.refresh then .refreshIf version snapshot h.registry
        else .attemptIf version snapshot h.registry))
  | .calling version thread =>
    match store.threads[thread]? with
    | some ⟨_, .done result⟩ =>
      match Result.written result with
      | some result => (.finishing version result, none)
      | none => (.calling version thread, none)
    | _ => (.calling version thread, none)
  | .finishing version result =>
    (.done (writeReply
      (if h.api.checkpointMode then persistCheckpoint version store.state.captureConfiguration chance result
        else result) h.api.checkpointMode), none)
  | .done response => (.done response, none)
  | .gone => (.gone, none)

end Host

/-- The version and text handed to the writer, from the moment they are. -/
def Phase.submits : Phase P → Option (Version × String)
  | .submitting version text => some (version, text)
  | _ => none

def Exchange.step (h : Host P) (chance : Chance) (capacity : Bool) (store : World P c) (e : Exchange P) :
    Exchange P × Option (Call P c) :=
  let (phase, call) := h.next chance capacity store e.request e.phase
  ({ e with
      phase := phase
      submitted := phase.submits <|> e.submitted
      thread := if call.isSome then some store.threads.length else e.thread }, call)

/-- The client goes away. Only a wait can be cut short; a write that was spawned goes on. -/
def Exchange.disconnect (e : Exchange P) : Exchange P :=
  match e.phase with
  | .arrived | .reading _ _ => { e with connected := false, phase := .gone }
  | .queued _ _ | .working _ _ | .attempting _ _ | .checking _ _ | .calling _ _ | .finishing _ _ =>
    { e with connected := false }
  | _ => e

end

section
variable (P : Pipeline) (c : StoreConfig)

/-- The store with everyone calling it, and the requests to the handler. -/
structure Control where
  store : World P c
  exchanges : List (Exchange P)

inductive Event where
  /-- Anyone's step on the store: another writer, shutdown, or a call of the handler. -/
  | store (action : Action P c)
  | arrive (request : Request)
  | step (i : Nat) (chance : Chance)
  | disconnect (i : Nat)

end

namespace Control
variable {P : Pipeline} {c : StoreConfig}

def start (boot : BootId) : Control P c := ⟨World.start boot, []⟩

/-- A permit is free: eight for writes, two for the documents. -/
def capacity (w : Control P c) (readOnly : Bool) : Bool :=
  (w.exchanges.filter (Exchange.holds readOnly)).length < if readOnly then 2 else 8

/-- The store once a stage has made its call. -/
def called (store : World P c) : Option (Call P c) → World P c
  | none => store
  | some call => store.act (.call call)

@[grind =] def act (h : Host P) (w : Control P c) : Event P c → Control P c
  | .store action => { w with store := w.store.act action }
  | .arrive request => { w with exchanges := w.exchanges ++ [⟨request, true, none, none, .arrived⟩] }
  | .step i chance =>
    match w.exchanges[i]? with
    | none => w
    | some e =>
      let (e', call) := e.step h chance (w.capacity e.request.readOnly) w.store
      ⟨called w.store call, w.exchanges.set i e'⟩
  | .disconnect i =>
    match w.exchanges[i]? with
    | none => w
    | some e => { w with exchanges := w.exchanges.set i e.disconnect }

def run (h : Host P) (w : Control P c) (events : List (Event P c)) : Control P c := Run.run (act h) w events

end Control

section
variable {P : Pipeline} {c : StoreConfig}

/-- Everything a request must have been for its write to be submitted. -/
structure Admissible (api : AdminApi) (blake3 : Digest) (version : Version) (r : Request) (text : String) :
    Prop where
  token : ∃ token, Bears r.headers token ∧ digest blake3 token = api.token
  origin : r.headers.containsKey "origin" = false
  body : ∃ length, Conditions blake3 version r length ∧ Delivers r length text

/-- The union a text is submitted in: an intent of the version it names, with this text as the
admin contribution. -/
def Host.Composes (h : Host P) (version : Version) (text : String) (snapshot : Snapshot) : Prop :=
  ∃ (intent : Snapshot) (x : SourceSnapshot), h.lower text .admin = .ok (x.content, x.nodes) ∧ x.source = .admin ∧
    intent.revs = version.revs ∧ snapshot = intent.insert x

/-- The calls on the store a submitted text can lead to. -/
def Host.Calls (h : Host P) (version : Version) (text : String) (call : Call P c) : Prop :=
  (∃ diagnostics, h.lower text .admin = .error diagnostics ∧
    call = .rejectObservationIf version diagnostics) ∨
  ∃ snapshot, h.Composes version text snapshot ∧
    (call = .attemptIf version snapshot h.registry ∨ call = .refreshIf version snapshot h.registry)

/-- A success is the store's own answer to the call of this request. -/
def Vouched (store : World P c) (thread : Option Nat) (result : Except WriteError (Outcome P)) : Prop :=
  ∀ o, result = .ok o → applied o = true →
    ∃ (k : Nat) (t : Thread P c), thread = some k ∧ store.threads[k]? = some t ∧ t.task = .done (.outcome o)

/-- What an answer can be. -/
def Answer (h : Host P) (store : World P c) (e : Exchange P) (response : Response) : Prop :=
  (e.submitted = none ∧ e.thread = none ∧
    (response = unauthorized ∨
      Known h.api P.blake3 e.request.headers ∧ (400 ≤ response.status ∨ Document P e.request response))) ∨
  ∃ version text result, e.submitted = some (version, text) ∧
    response = writeReply (P := P) result h.api.checkpointMode ∧ Vouched store e.thread result

/-- What is known of a request at each stage. -/
def Exchange.Fits (h : Host P) (store : World P c) (e : Exchange P) : Prop :=
  match e.phase with
  | .arrived => e.submitted = none ∧ e.thread = none
  | .admitted => Authorized h.api P.blake3 e.request ∧ e.submitted = none ∧ e.thread = none
  | .reading version length =>
    Authorized h.api P.blake3 e.request ∧ Conditions P.blake3 version e.request length ∧
      e.submitted = none ∧ e.thread = none
  | .submitting version text => e.submitted = some (version, text) ∧ e.thread = none
  | .opening version text => e.submitted = some (version, text) ∧ e.thread = none
  | .queued version text => e.submitted = some (version, text) ∧ e.thread = none
  | .working version text => e.submitted = some (version, text) ∧ e.thread = none
  | .attempting version snapshot =>
    ∃ text, e.submitted = some (version, text) ∧ e.thread = none ∧ h.Composes version text snapshot
  | .checking version snapshot =>
    ∃ text, e.submitted = some (version, text) ∧ e.thread = none ∧ h.Composes version text snapshot
  | .calling version k => ∃ text, e.submitted = some (version, text) ∧ e.thread = some k
  | .finishing version result =>
    ∃ text, e.submitted = some (version, text) ∧ Vouched store e.thread result
  | .done response => Answer h store e response
  | .gone => e.submitted = none ∧ e.thread = none

/-- The invariant of one request beside the store. -/
structure Exchange.Sound (h : Host P) (store : World P c) (e : Exchange P) : Prop where
  admissible : ∀ version text, e.submitted = some (version, text) →
    Admissible h.api P.blake3 version e.request text
  traced : ∀ k : Nat, e.thread = some k → ∃ version text, ∃ t : Thread P c,
    e.submitted = some (version, text) ∧ store.threads[k]? = some t ∧ h.Calls version text t.call
  fits : e.Fits h store

variable {h : Host P} {store : World P c}

theorem Vouched.of_not_applied {thread : Option Nat} {result : Except WriteError (Outcome P)}
    (hn : ∀ o, result = .ok o → applied o = false) : Vouched store thread result := by
  intro o ho ha
  rw [hn o ho] at ha
  cases ha

theorem Vouched.act {thread : Option Nat} {result : Except WriteError (Outcome P)}
    (hv : Vouched store thread result) (a : Action P c) : Vouched (store.act a) thread result := by
  intro o ho ha
  obtain ⟨k, t, hk, ht, hd⟩ := hv o ho ha
  refine ⟨k, t, hk, ?_, hd⟩
  rcases store.act_thread a ht with hs | ⟨s', task, htr, -⟩
  · exact hs
  · exact absurd hd htr.not_done

/-- Checkpointing withdraws a success, and makes none. -/
theorem Vouched.persist {thread : Option Nat} {result : Except WriteError (Outcome P)}
    (hv : Vouched store thread result) (base : Version) (capture : ConfigurationCapture P) (chance : Chance) :
    Vouched store thread (persistCheckpoint base capture chance result) := by
  intro o ho ha
  cases result with
  | error e => cases ho
  | ok found =>
    have hkept : persistCheckpoint base capture chance (.ok found) = .ok found ∨
        persistCheckpoint base capture chance (.ok found) = .error .persistenceUnknown := by
      simp only [persistCheckpoint]
      split
      · exact .inr rfl
      · split
        · exact .inl rfl
        · split
          · exact .inl rfl
          · split
            · exact .inr rfl
            · split
              · exact .inl rfl
              · exact .inr rfl
    rcases hkept with hk | hk
    · rw [hk] at ho
      obtain rfl := Except.ok.inj ho
      exact hv found rfl ha
    · rw [hk] at ho
      cases ho

/-- Nothing the store does undoes what is known of a request. -/
theorem Exchange.Sound.act {e : Exchange P} (he : e.Sound h store) (a : Action P c) :
    e.Sound h (store.act a) := by
  refine ⟨he.admissible, ?_, ?_⟩
  · intro k hk
    obtain ⟨version, text, t, hs, ht, hc⟩ := he.traced k hk
    rcases store.act_thread a ht with hs' | ⟨s', task, -, hs'⟩
    · exact ⟨version, text, t, hs, hs', hc⟩
    · exact ⟨version, text, _, hs, hs', hc⟩
  · have hf := he.fits
    unfold Exchange.Fits at hf ⊢
    cases hp : e.phase with
    | finishing version result =>
      rw [hp] at hf
      obtain ⟨text, hs, hv⟩ := hf
      exact ⟨text, hs, hv.act a⟩
    | done response =>
      rw [hp] at hf
      rcases hf with hf | ⟨version, text, result, hs, hr, hv⟩
      · exact .inl hf
      · exact .inr ⟨version, text, result, hs, hr, hv.act a⟩
    | _ =>
      rw [hp] at hf
      exact hf

theorem Exchange.Sound.arrived (r : Request) : Exchange.Sound h store ⟨r, true, none, none, .arrived⟩ :=
  ⟨by simp, by simp, rfl, rfl⟩

theorem Exchange.Sound.disconnect {e : Exchange P} (he : e.Sound h store) : e.disconnect.Sound h store := by
  obtain ⟨request, connected, submitted, thread, phase⟩ := e
  obtain ⟨hadm, htr, hf⟩ := he
  cases phase with
  | arrived => exact ⟨hadm, htr, hf⟩
  | reading version length => exact ⟨hadm, htr, hf.2.2⟩
  | _ => exact ⟨hadm, htr, hf⟩

/-- A new call is the last of the store's. -/
theorem called_last (store : World P c) (call : Call P c) :
    (Control.called store (some call)).threads[store.threads.length]? = some ⟨call, .starting⟩ := by
  simp [Control.called, World.act]

/-- The version and text of a write before it runs. -/
def Phase.waiting? : Phase P → Option (Version × String)
  | .submitting version text => some (version, text)
  | .opening version text => some (version, text)
  | .queued version text => some (version, text)
  | _ => none

/-- The version of a write that runs and has not called the store. -/
def Phase.running? : Phase P → Option Version
  | .working version _ => some version
  | .attempting version _ => some version
  | .checking version _ => some version
  | _ => none

/-- Everything one stage can do, guards included. -/
inductive Stage (h : Host P) (store : World P c) (r : Request) :
    Phase P → Phase P → Option (Call P c) → Prop
  | refused {response} (hr : response = unauthorized ∨ Known h.api P.blake3 r.headers ∧ 400 ≤ response.status) :
      Stage h store r .arrived (.done response) none
  | admitted (ha : Authorized h.api P.blake3 r) : Stage h store r .arrived .admitted none
  | answered {response} (hr : 400 ≤ response.status ∨ Document P r response) :
      Stage h store r .admitted (.done response) none
  | sampled {version length} (hc : Conditions P.blake3 version r length) :
      Stage h store r .admitted (.reading version length) none
  | unread {version length response} (hr : 400 ≤ response.status) :
      Stage h store r (.reading version length) (.done response) none
  | received {version length text} (hd : Delivers r length text) :
      Stage h store r (.reading version length) (.submitting version text) none
  | opened {version text} : Stage h store r (.submitting version text) (.opening version text) none
  | spawned {version text} : Stage h store r (.opening version text) (.queued version text) none
  | begun {version text} : Stage h store r (.queued version text) (.working version text) none
  | turnedAway {phase pair result} (hp : phase.waiting? = some pair)
      (hn : ∀ o : Outcome P, result = .ok o → applied o = false) :
      Stage h store r phase (.done (writeReply (P := P) result h.api.checkpointMode)) none
  | stopped {phase version result} (hp : phase.running? = some version)
      (hn : ∀ o : Outcome P, result = .ok o → applied o = false) :
      Stage h store r phase (.finishing version result) none
  | rejecting {version text diagnostics} (hl : h.lower text .admin = .error diagnostics) :
      Stage h store r (.working version text) (.calling version store.threads.length)
        (some (.rejectObservationIf version diagnostics))
  | composed {version text x} (hv : store.state.version = version)
      (hl : h.lower text .admin = .ok (x.content, x.nodes)) (hx : x.source = .admin) :
      Stage h store r (.working version text) (.attempting version (store.state.intent.insert x)) none
  | entered {version snapshot} :
      Stage h store r (.attempting version snapshot) (.checking version snapshot) none
  | called {version snapshot call} (hc : call = .attemptIf version snapshot h.registry ∨
      call = .refreshIf version snapshot h.registry) :
      Stage h store r (.checking version snapshot) (.calling version store.threads.length) (some call)
  | returned {version thread call result written} (ht : store.threads[thread]? = some ⟨call, .done result⟩)
      (hr : Result.written result = some written) :
      Stage h store r (.calling version thread) (.finishing version written) none
  | finished {version result result'} (hr : ∀ thread, Vouched store thread result → Vouched store thread result') :
      Stage h store r (.finishing version result) (.done (writeReply (P := P) result' h.api.checkpointMode)) none
  | waited {phase} (hp : phase.submits = none) : Stage h store r phase phase none

theorem Host.work_stage {r : Request} {version : Version} {text : String} {chance : Chance} {phase : Phase P}
    {call : Option (Call P c)}
    (hn : h.work version text chance store.state store.threads.length = (phase, call)) :
    Stage h store r (.working version text) phase call := by
  unfold Host.work at hn
  cases ha : chance.admission with
  | error reason =>
    rw [ha] at hn
    cases hn
    exact .stopped rfl (by rintro o ⟨⟩; rfl)
  | ok u =>
    rw [ha, State.observedSnapshot_eq] at hn
    dsimp only at hn
    split at hn
    · cases hn
      exact .stopped rfl (by rintro o ⟨⟩)
    · rename_i hv
      split at hn
      · cases hn
        exact .stopped rfl (by rintro o ⟨⟩)
      · cases hl : h.lower text .admin with
        | error diagnostics =>
          rw [hl] at hn
          cases hn
          exact .rejecting hl
        | ok pair =>
          obtain ⟨content, nodes⟩ := pair
          rw [hl] at hn
          dsimp only at hn
          cases ho : SourceSnapshot.observe .admin content nodes (store.state.intent.get .admin) with
          | error e =>
            rw [ho] at hn
            cases hn
            exact .stopped rfl (by rintro o ⟨⟩)
          | ok x =>
            obtain ⟨hsource, hcontent, hnodes, -⟩ := SourceSnapshot.observe_fields ho
            rw [ho] at hn
            cases hn
            exact .composed (not_not.mp hv) (by rw [hl, hcontent, hnodes]) hsource

theorem Host.next_stage {r : Request} {chance : Chance} {capacity : Bool} {phase phase' : Phase P}
    {call : Option (Call P c)} (hn : h.next chance capacity store r phase = (phase', call)) :
    Stage h store r phase phase' call := by
  cases phase with
  | arrived =>
    simp only [Host.next] at hn
    cases ha : h.api.authorize P.blake3 r with
    | error response =>
      rw [ha] at hn
      cases hn
      exact .refused (AdminApi.authorize_error ha)
    | ok u =>
      rw [ha] at hn
      have hauth := AdminApi.authorize_ok ha
      dsimp only at hn
      split at hn
      · rename_i response hav
        cases hn
        exact .refused (.inr ⟨hauth.known, AdminApi.available_error hav⟩)
      · cases hn
        exact .admitted hauth
  | admitted =>
    simp only [Host.next] at hn
    split at hn
    · rename_i response hs
      cases hn
      exact .answered (AdminApi.sample_error hs)
    · rename_i version length hs
      cases hn
      exact .sampled (AdminApi.sample_ok hs).2
  | reading version length =>
    simp only [Host.next] at hn
    split at hn
    · rename_i response hr
      cases hn
      exact .unread (AdminApi.receive_error hr)
    · rename_i text hr
      cases hn
      exact .received (AdminApi.receive_ok hr)
  | submitting version text =>
    simp only [Host.next] at hn
    split at hn
    · cases hn
      exact .turnedAway rfl (by rintro o ⟨⟩)
    · cases hn
      exact .opened
  | opening version text =>
    simp only [Host.next] at hn
    split at hn
    · cases hn
      exact .turnedAway rfl (by rintro o ⟨⟩; rfl)
    · cases hn
      exact .spawned
  | queued version text =>
    simp only [Host.next] at hn
    split at hn
    · cases hn
      exact .turnedAway rfl (by rintro o ⟨⟩; rfl)
    · cases hn
      exact .begun
  | working version text => exact Host.work_stage hn
  | attempting version snapshot =>
    simp only [Host.next] at hn
    split at hn
    · cases hn
      exact .stopped rfl (by rintro o ⟨⟩; rfl)
    · split at hn
      · cases hn
        exact .stopped rfl (by rintro o ⟨⟩; rfl)
      · cases hn
        exact .entered
  | checking version snapshot =>
    simp only [Host.next] at hn
    split at hn
    · cases hn
      exact .stopped rfl (by rintro o ⟨⟩)
    · cases hn
      refine .called ?_
      split
      · exact .inr rfl
      · exact .inl rfl
  | calling version thread =>
    simp only [Host.next] at hn
    split at hn
    · rename_i call' result ht
      split at hn
      · rename_i written hr
        cases hn
        exact .returned ht hr
      · cases hn
        exact .waited rfl
    · cases hn
      exact .waited rfl
  | finishing version result =>
    cases hn
    refine .finished fun thread hv => ?_
    split
    · exact hv.persist _ _ _
    · exact hv
  | done response => cases hn; exact .waited rfl
  | gone => cases hn; exact .waited rfl

/-- A request after a stage. -/
def Exchange.after (store : World P c) (e : Exchange P) (phase : Phase P) (call : Option (Call P c)) : Exchange P :=
  { e with
    phase := phase
    submitted := phase.submits <|> e.submitted
    thread := if call.isSome then some store.threads.length else e.thread }

theorem Vouched.of_returned {result : Result P} {written : Except WriteError (Outcome P)} {call : Call P c} {k : Nat}
    (ht : store.threads[k]? = some ⟨call, .done result⟩) (hr : Result.written result = some written) :
    Vouched store (some k) written := by
  intro o ho ha
  subst ho
  cases result with
  | outcome found =>
    cases hr
    exact ⟨k, _, rfl, ht, rfl⟩
  | refused why => cases hr; cases ha
  | conflict actual => cases hr
  | _ => cases hr

theorem Phase.submitted_of_waiting {e : Exchange P} {pair : Version × String} (hf : e.Fits h store)
    (hp : e.phase.waiting? = some pair) : e.submitted = some pair := by
  unfold Exchange.Fits at hf
  cases hph : e.phase with
  | submitting version text => rw [hph] at hf hp; cases hp; exact hf.1
  | opening version text => rw [hph] at hf hp; cases hp; exact hf.1
  | queued version text => rw [hph] at hf hp; cases hp; exact hf.1
  | _ => rw [hph] at hp; cases hp

theorem Phase.submitted_of_running {e : Exchange P} {version : Version} (hf : e.Fits h store)
    (hp : e.phase.running? = some version) : ∃ text, e.submitted = some (version, text) := by
  unfold Exchange.Fits at hf
  cases hph : e.phase with
  | working v text => rw [hph] at hf hp; cases hp; exact ⟨text, hf.1⟩
  | attempting v snapshot =>
    rw [hph] at hf hp
    cases hp
    obtain ⟨text, hs, -⟩ := hf
    exact ⟨text, hs⟩
  | checking v snapshot =>
    rw [hph] at hf hp
    cases hp
    obtain ⟨text, hs, -⟩ := hf
    exact ⟨text, hs⟩
  | _ => rw [hph] at hp; cases hp

/-- One stage of a request keeps its invariant. -/
theorem Stage.sound {e : Exchange P} {phase : Phase P} {call : Option (Call P c)} (hw : store.Sound)
    (he : e.Sound h store) (hst : Stage h store e.request e.phase phase call) :
    (e.after store phase call).Sound h (Control.called store call) := by
  obtain ⟨hadm, htr, hf⟩ := he
  have submitted_of_waiting := @Phase.submitted_of_waiting P c h store e
  have submitted_of_running := @Phase.submitted_of_running P c h store e
  obtain ⟨request, connected, submitted, thread, now⟩ := e
  dsimp only at hst
  cases hst with
  | refused hr =>
    obtain ⟨rfl, rfl⟩ : submitted = none ∧ thread = none := hf
    exact ⟨hadm, htr, .inl ⟨rfl, rfl, hr.imp id fun hk => ⟨hk.1, .inl hk.2⟩⟩⟩
  | admitted ha => exact ⟨hadm, htr, ha, hf⟩
  | answered hr =>
    obtain ⟨ha, rfl, rfl⟩ : _ ∧ submitted = none ∧ thread = none := hf
    exact ⟨hadm, htr, .inl ⟨rfl, rfl, .inr ⟨ha.known, hr⟩⟩⟩
  | sampled hc => exact ⟨hadm, htr, hf.1, hc, hf.2⟩
  | unread hr =>
    obtain ⟨ha, hc, rfl, rfl⟩ : _ ∧ _ ∧ submitted = none ∧ thread = none := hf
    exact ⟨hadm, htr, .inl ⟨rfl, rfl, .inr ⟨ha.known, .inl hr⟩⟩⟩
  | @received version length text hd =>
    obtain ⟨ha, hc, rfl, rfl⟩ : _ ∧ _ ∧ submitted = none ∧ thread = none := hf
    refine ⟨?_, by simp [Exchange.after], rfl, rfl⟩
    rintro v t ⟨⟩
    obtain ⟨token, hb, ht⟩ := ha.token
    refine ⟨⟨token, hb, ?_⟩, ha.origin, length, hc, hd⟩
    -- a document is asked for by GET, and this is a PUT
    refine ht.resolve_right ?_
    rintro ⟨-, hro⟩
    have hm : request.method = "PUT" := hc.method
    simp [Request.readOnly, hm] at hro
  | opened =>
    obtain ⟨rfl, rfl⟩ := hf
    exact ⟨hadm, htr, rfl, rfl⟩
  | spawned =>
    obtain ⟨rfl, rfl⟩ := hf
    exact ⟨hadm, htr, rfl, rfl⟩
  | begun =>
    obtain ⟨rfl, rfl⟩ := hf
    exact ⟨hadm, htr, rfl, rfl⟩
  | @turnedAway _ pair result hp hn =>
    have hs := submitted_of_waiting hf hp
    exact ⟨hadm, htr, .inr ⟨pair.1, pair.2, result, hs, rfl, .of_not_applied hn⟩⟩
  | @stopped _ version result hp hn =>
    obtain ⟨text, hs⟩ := submitted_of_running hf hp
    exact ⟨hadm, htr, text, hs, .of_not_applied hn⟩
  | @rejecting version text diagnostics hl =>
    obtain ⟨rfl, rfl⟩ := hf
    refine ⟨hadm, ?_, text, rfl, rfl⟩
    rintro k ⟨⟩
    exact ⟨version, text, _, rfl, called_last store _, .inl ⟨diagnostics, hl, rfl⟩⟩
  | @composed version text x hv hl hx =>
    obtain ⟨rfl, rfl⟩ := hf
    refine ⟨hadm, htr, text, rfl, rfl, store.state.intent, x, hl, hx, ?_, rfl⟩
    rw [← hw.state.head, ← hv]
    rfl
  | entered => exact ⟨hadm, htr, hf⟩
  | @called version snapshot call hc =>
    obtain ⟨text, rfl, rfl, hcomp⟩ := hf
    refine ⟨hadm, ?_, text, rfl, rfl⟩
    rintro k ⟨⟩
    exact ⟨version, text, _, rfl, called_last store _, .inr ⟨snapshot, hcomp, hc⟩⟩
  | @returned version k call result written ht hr =>
    obtain ⟨text, rfl, rfl⟩ := hf
    exact ⟨hadm, htr, text, rfl, .of_returned ht hr⟩
  | @finished version result result' hr =>
    obtain ⟨text, rfl, hv⟩ := hf
    exact ⟨hadm, htr, .inr ⟨version, text, result', rfl, rfl, hr _ hv⟩⟩
  | waited hp =>
    have hs : Exchange.after store ⟨request, connected, submitted, thread, phase⟩ phase none =
        ⟨request, connected, submitted, thread, phase⟩ := by
      simp [Exchange.after, hp]
    rw [hs]
    exact ⟨hadm, htr, hf⟩

theorem Exchange.Sound.step {e : Exchange P} (hw : store.Sound) (he : e.Sound h store) (chance : Chance)
    (capacity : Bool) :
    (e.step h chance capacity store).1.Sound h (Control.called store (e.step h chance capacity store).2) :=
  Stage.sound hw he (Host.next_stage (show h.next chance capacity store e.request e.phase = (_, _) from rfl))

end

namespace Control
variable {P : Pipeline} {c : StoreConfig} {h : Host P}

/-- The invariant of the whole control plane. -/
structure Sound (h : Host P) (boot : BootId) (w : Control P c) : Prop where
  reached : ∃ actions, w.store = (World.start boot : World P c).run actions
  exchanges : ∀ e ∈ w.exchanges, e.Sound h w.store

theorem reached_act {boot : BootId} {store : World P c}
    (hr : ∃ actions, store = (World.start boot : World P c).run actions) (a : Action P c) :
    ∃ actions, store.act a = (World.start boot : World P c).run actions := by
  obtain ⟨actions, rfl⟩ := hr
  refine ⟨actions ++ [a], ?_⟩
  rw [World.run, World.run, Run.run_append]
  rfl

theorem act_sound {boot : BootId} {w : Control P c} (hw : w.Sound h boot) (event : Event P c) :
    (w.act h event).Sound h boot := by
  have hs : w.store.Sound := by
    obtain ⟨actions, hr⟩ := hw.reached
    rw [hr]
    exact World.run_sound (World.start_sound boot) actions
  cases event with
  | store action => exact ⟨reached_act hw.reached action, fun e he => (hw.exchanges e he).act action⟩
  | arrive request =>
    refine ⟨hw.reached, ?_⟩
    intro e he
    rcases List.mem_append.mp he with he | he
    · exact hw.exchanges e he
    · rw [List.mem_singleton.mp he]
      exact .arrived request
  | step i chance =>
    cases hi : w.exchanges[i]? with
    | none =>
      simp only [act, hi]
      exact hw
    | some e =>
      simp only [act, hi]
      have hstep := (hw.exchanges e (List.mem_of_getElem? hi)).step hs chance (w.capacity e.request.readOnly)
      generalize e.step h chance (w.capacity e.request.readOnly) w.store = pair at hstep
      obtain ⟨e', call⟩ := pair
      cases call with
      | none =>
        refine ⟨hw.reached, ?_⟩
        intro u hu
        rcases List.mem_or_eq_of_mem_set hu with hu | rfl
        · exact hw.exchanges u hu
        · exact hstep
      | some call =>
        refine ⟨reached_act hw.reached (.call call), ?_⟩
        intro u hu
        rcases List.mem_or_eq_of_mem_set hu with hu | rfl
        · exact (hw.exchanges u hu).act (.call call)
        · exact hstep
  | disconnect i =>
    cases hi : w.exchanges[i]? with
    | none =>
      simp only [act, hi]
      exact hw
    | some e =>
      simp only [act, hi]
      refine ⟨hw.reached, ?_⟩
      intro u hu
      rcases List.mem_or_eq_of_mem_set hu with hu | rfl
      · exact hw.exchanges u hu
      · exact (hw.exchanges e (List.mem_of_getElem? hi)).disconnect

theorem run_control_sound (boot : BootId) (events : List (Event P c)) :
    ((start boot : Control P c).run h events).Sound h boot :=
  Run.invariant (I := Sound h boot) (fun _ event hw => act_sound hw event) ⟨⟨[], rfl⟩, by simp [start]⟩ events

/-- Every request came from outside. -/
theorem run_arrived (boot : BootId) (events : List (Event P c)) :
    ∀ e ∈ ((start boot : Control P c).run h events).exchanges, .arrive e.request ∈ events := by
  refine Run.invariant_of_forall (I := fun w : Control P c => ∀ e ∈ w.exchanges, .arrive e.request ∈ events)
    (A := fun event => event ∈ events) ?_ ?_ (fun event he => he)
  rotate_left
  · intro e he
    cases he
  intro w event hevent hw
  have replaced : ∀ {i : Nat} {e u : Exchange P}, w.exchanges[i]? = some e → u.request = e.request →
      ∀ x ∈ w.exchanges.set i u, .arrive x.request ∈ events := by
    intro i e u hi hu x hx
    rcases List.mem_or_eq_of_mem_set hx with hx | rfl
    · exact hw x hx
    · rw [hu]
      exact hw e (List.mem_of_getElem? hi)
  cases event with
  | store action => exact hw
  | arrive request =>
    intro e he
    rcases List.mem_append.mp he with he | he
    · exact hw e he
    · rw [List.mem_singleton.mp he]
      exact hevent
  | step i chance =>
    cases hi : w.exchanges[i]? with
    | none => simpa only [act, hi] using hw
    | some e =>
      simp only [act, hi]
      exact replaced hi rfl
  | disconnect i =>
    cases hi : w.exchanges[i]? with
    | none => simpa only [act, hi] using hw
    | some e =>
      simp only [act, hi]
      refine replaced hi ?_
      unfold Exchange.disconnect
      split
      all_goals rfl

/-- The tokens that matter in a run: the two provisioned, and those presented. -/
def Tokens (token : String) (read : Option String) (events : List (Event P c)) : Set String :=
  {s | s = token ∨ read = some s ∨ ∃ request, Event.arrive request ∈ events ∧ Bears request.headers s}

end Control

/-- A write the gate may submit: what it must carry, one line a check. -/
structure Writes (token : String) (blake3 : Digest) (version : Version) (r : Request) (text : String) : Prop where
  authorization : Exactly r.headers "authorization" ("Bearer " ++ token)
  origin : r.headers.containsKey "origin" = false
  method : r.method = "PUT"
  path : r.pathAndQuery = some "/v1/config"
  ifMatch : Exactly r.headers "if-match" (version.etag blake3)
  contentType : Exactly r.headers "content-type" "application/kdl"
  contentEncoding : r.headers.containsKey "content-encoding" = false
  size : (utf8 text).length ≤ maxBody
  frames : r.body.length ≤ maxFrames
  body : ∃ chunks : List (List UInt8), r.body = chunks.map Frame.data ∧ chunks.flatten = utf8 text
  contentLength : r.headers.containsKey "content-length" = true → ∃ declared n,
    Exactly r.headers "content-length" declared ∧ AdminJournal.parseU64 declared = some n ∧
      (utf8 text).length = n.val

theorem Admissible.writes {api : AdminApi} {blake3 : Digest} {version : Version} {r : Request} {text token : String}
    (ha : Admissible api blake3 version r text)
    (ht : ∀ s, Bears r.headers s → digest blake3 s = api.token → s = token) :
    Writes token blake3 version r text := by
  obtain ⟨s, hb, hs⟩ := ha.token
  obtain rfl := ht s hb hs
  obtain ⟨length, hc, hd⟩ := ha.body
  refine ⟨hb.1, ha.origin, hc.method, hc.path, hc.condition, hc.mediaType, hc.encoding, hd.size, hd.frames,
    hd.chunks, ?_⟩
  intro hk
  obtain ⟨declared, n, hx, hp, hl⟩ := hc.length hk
  exact ⟨declared, n, hx, hp, hd.length _ hl⟩

/-- The handler compares with the digests of the tokens it was given. -/
theorem AdminApi.provisioned {blake3 : Digest} {token : String} {read : Option String} {checkpoint : Bool}
    {api : AdminApi}
    (h : (AdminApi.new blake3 token checkpoint).bind (fun api => api.withReadToken blake3 read) = .ok api) :
    api.token = digest blake3 token ∧ api.readToken = read.map (digest blake3) := by
  unfold AdminApi.new at h
  cases hv : validateToken token with
  | error message => rw [hv] at h; cases h
  | ok u =>
    rw [hv] at h
    change AdminApi.withReadToken blake3 ⟨digest blake3 token, none, checkpoint⟩ read = .ok api at h
    cases read with
    | none =>
      cases h
      exact ⟨rfl, rfl⟩
    | some other =>
      simp only [AdminApi.withReadToken] at h
      cases ho : validateToken other with
      | error message => rw [ho] at h; cases h
      | ok u =>
        rw [ho] at h
        change (if digest blake3 other = digest blake3 token then
          Except.error "admin read and write tokens must differ" else _) = Except.ok api at h
        split at h
        · cases h
        · cases h
          exact ⟨rfl, rfl⟩

section
variable {P : Pipeline} {c : StoreConfig}

/-- What the store has of a request's call: every publication of it, and its admission, are
conditioned on the version the request named. -/
structure Replaces (store : World P c) (version : Version) (k : Nat) : Prop where
  published : ∀ p ∈ store.log, p.thread = k →
    p.expected = some version ∧ p.committed.number.val = version.generation.val + 1
  admitted : ∀ prepared (t t' : Thread P c) (r : Gatel.Request P) observed, store.threads[k]? = some t →
    t.task = .admitting r observed → (store.act (.step k prepared)).threads[k]? = some t' →
    (∀ actual, t'.task ≠ .done (.conflict actual)) → (∀ why, t'.task ≠ .done (.refused why)) →
    store.state.version = version

/-- The configuration a text was submitted in serves, or was found to serve. -/
def Serves (h : Host P) (store : World P c) (version : Version) (text : String) (o : Outcome P) : Prop :=
  ∃ snapshot refresh plan, h.Composes version text snapshot ∧
    Request.Compiles ⟨snapshot, h.registry, some version, refresh⟩ plan ∧
    ∃ p ∈ store.log, o.generation? = some p.committed.number ∧
      P.planHash p.committed.plan = P.planHash plan ∧
      (o.publishes = true → p.expected = some version ∧ p.committed.sources = snapshot)

theorem Host.Calls.replaces {h : Host P} {version : Version} {text : String} {t : Thread P c} {k : Nat}
    {boot : BootId} {actions : List (Action P c)}
    (hk : ((World.start boot : World P c).run actions).threads[k]? = some t)
    (hc : h.Calls version text t.call) : Replaces ((World.start boot : World P c).run actions) version k := by
  have hcond := World.run_conditioned boot actions
  have hsound := World.run_sound (World.start_sound (c := c) boot) actions
  have hauth := World.run_authored boot actions
  generalize (World.start boot : World P c).run actions = store at hk hcond hsound hauth
  have supplied : ∀ {expected : Option Version}, t.call.Supplied (World.Visited boot actions) expected →
      (∀ v diagnostics, t.call ≠ .rejectObservationIf v diagnostics) → expected = some version := by
    intro expected hs hr
    rcases hc with ⟨diagnostics, -, hcall⟩ | ⟨snapshot, -, hcall | hcall⟩
    · exact absurd hcall (hr _ _)
    · rw [hcall] at hs
      exact hs
    · rw [hcall] at hs
      exact hs
  refine ⟨?_, ?_⟩
  · rintro p hp rfl
    obtain ⟨u, hu, hcall, hr⟩ := hauth.log p hp
    obtain rfl : t = u := Option.some.inj (hk.symm.trans hu)
    have he := supplied (hcall ▸ hcond.log p hp) (hcall ▸ hr)
    exact ⟨he, hsound.log.expected p hp version he⟩
  · intro prepared u u' r observed hu htask hu' hnc hnr
    obtain rfl : t = u := Option.some.inj (hk.symm.trans hu)
    have hts := hcond.threads t (List.mem_of_getElem? hk)
    have hrej := hauth.rejects t (List.mem_of_getElem? hk)
    obtain ⟨call, task⟩ := t
    obtain rfl : task = .admitting r observed := htask
    have hexp := supplied hts (fun v diagnostics he => by
      rcases hrej v diagnostics he with hst | ⟨r', hd, -⟩
      · cases hst
      · cases hd)
    have hstep : (⟨call, .admitting r observed⟩ : Thread P c).step prepared store.state =
        some (r.admission c observed store.state) := rfl
    obtain ⟨-, hk'⟩ := World.act_step_some hk hstep
    rw [hu', Option.some.injEq] at hk'
    subst hk'
    obtain ⟨-, ha⟩ := (r.admission_transition call observed store.state).admitted_of hnc hnr
    exact (ha.expected version hexp).symm

theorem Host.Calls.serves {h : Host P} {version : Version} {text : String} {t : Thread P c} {k : Nat}
    {boot : BootId} {actions : List (Action P c)} {o : Outcome P}
    (hk : ((World.start boot : World P c).run actions).threads[k]? = some t)
    (hc : h.Calls version text t.call) (ht : t.task = .done (.outcome o)) (ha : applied o = true) :
    Serves h ((World.start boot : World P c).run actions) version text o := by
  have hback := World.run_backed boot actions k t hk
  have hrej := (World.run_authored boot actions).rejects t (List.mem_of_getElem? hk)
  have hgen : ∃ g, o.generation? = some g := by
    cases o with
    | started g => exact ⟨g, rfl⟩
    | reloaded g changes => exact ⟨g, rfl⟩
    | noOp g => exact ⟨g, rfl⟩
    | _ => cases ha
  obtain ⟨g, hg⟩ := hgen
  have served : ∀ snapshot refresh, h.Composes version text snapshot →
      t.call.request? = some ⟨snapshot, h.registry, some version, refresh⟩ →
      Serves h ((World.start boot : World P c).run actions) version text o := by
    intro snapshot refresh hcomp hr
    have hb := hback _ hr
    rw [ht] at hb
    obtain ⟨p, hp, hn, plan, hcompiles, hhash, hpub⟩ := hb g hg
    refine ⟨snapshot, refresh, plan, hcomp, hcompiles, p, hp, by rw [hg, hn], hhash, ?_⟩
    intro ho
    exact (hpub ho).2
  rcases hc with ⟨diagnostics, -, hcall⟩ | ⟨snapshot, hcomp, hcall | hcall⟩
  · rcases hrej _ _ hcall with hst | ⟨r, hd, hn⟩
    · rw [ht] at hst; cases hst
    · rw [ht] at hd
      cases hd
      rw [hn o rfl] at hg
      cases hg
  · exact served snapshot false hcomp (by rw [hcall]; rfl)
  · exact served snapshot true hcomp (by rw [hcall]; rfl)

/-- The gate lets nothing else through. The digest is assumed to tell apart the tokens that
occur in the run, and nothing more. -/
theorem gate_admits_named_writes_only (h : Host P) {token : String} {read : Option String} {checkpoint : Bool}
    (hapi : (AdminApi.new P.blake3 token checkpoint).bind (fun api => api.withReadToken P.blake3 read) =
      .ok h.api)
    (boot : BootId) (events : List (Event P c))
    (hapart : Set.InjOn P.blake3 ((fun s => (tokenHasher s).written) '' Control.Tokens token read events)) :
    let w := (Control.start boot : Control P c).run h events
    (∀ e ∈ w.exchanges, ∀ version text, e.submitted = some (version, text) →
      Writes token P.blake3 version e.request text) ∧
    (∀ e ∈ w.exchanges, ∀ k, e.thread = some k →
      ∃ version text, e.submitted = some (version, text) ∧ Replaces w.store version k) ∧
    (∀ e ∈ w.exchanges, ¬ Bears e.request.headers token →
      e.submitted = none ∧ ∀ response, e.phase = .done response →
        400 ≤ response.status ∨ Document P e.request response) ∧
    (∀ e ∈ w.exchanges, ¬ Bears e.request.headers token →
      (∀ other, read = some other → ¬ Bears e.request.headers other) →
      ∀ response, e.phase = .done response → response = unauthorized) ∧
    ∀ e ∈ w.exchanges, e.request.method = "PUT" → ∀ response, e.phase = .done response →
      response.status = 200 → ∃ version text o, e.submitted = some (version, text) ∧ applied o = true ∧
        Serves h w.store version text o := by
  intro w
  have hw : w.Sound h boot := Control.run_control_sound boot events
  obtain ⟨actions, hstore⟩ := hw.reached
  obtain ⟨htoken, hread⟩ := AdminApi.provisioned hapi
  -- two tokens of the run under one digest are the same
  have apart : ∀ s t, s ∈ Control.Tokens token read events → t ∈ Control.Tokens token read events →
      digest P.blake3 s = digest P.blake3 t → s = t := by
    intro s t hs ht he
    exact tokenHasher_injective (hapart (Set.mem_image_of_mem _ hs) (Set.mem_image_of_mem _ ht) he)
  have presented : ∀ e ∈ w.exchanges, ∀ s, Bears e.request.headers s →
      s ∈ Control.Tokens token read events :=
    fun e he s hs => .inr (.inr ⟨e.request, Control.run_arrived boot events e he, hs⟩)
  have writer : ∀ e ∈ w.exchanges, ∀ s, Bears e.request.headers s → digest P.blake3 s = h.api.token →
      s = token :=
    fun e he s hs hd => apart s token (presented e he s hs) (.inl rfl) (hd.trans htoken)
  have unsubmitted : ∀ e ∈ w.exchanges, ¬ Bears e.request.headers token → e.submitted = none := by
    intro e he hn
    cases hs : e.submitted with
    | none => rfl
    | some pair =>
      obtain ⟨s, hb, hd⟩ := ((hw.exchanges e he).admissible pair.1 pair.2 hs).token
      exact absurd (writer e he s hb hd ▸ hb) hn
  have answers : ∀ e ∈ w.exchanges, ∀ response, e.phase = .done response → Answer h w.store e response := by
    intro e he response hp
    have hf := (hw.exchanges e he).fits
    unfold Exchange.Fits at hf
    rw [hp] at hf
    exact hf
  refine ⟨?_, ?_, ?_, ?_, ?_⟩
  · intro e he version text hs
    exact ((hw.exchanges e he).admissible version text hs).writes (writer e he)
  · intro e he k hk
    obtain ⟨version, text, t, hs, ht, hc⟩ := (hw.exchanges e he).traced k hk
    refine ⟨version, text, hs, ?_⟩
    rw [hstore] at ht ⊢
    exact hc.replaces ht
  · intro e he hn
    refine ⟨unsubmitted e he hn, ?_⟩
    intro response hp
    rcases answers e he response hp with ⟨-, -, rfl | ⟨-, hr⟩⟩ | ⟨version, text, result, hs, -⟩
    · exact .inl (by decide)
    · exact hr
    · rw [unsubmitted e he hn] at hs
      cases hs
  · intro e he hn ho response hp
    rcases answers e he response hp with ⟨-, -, hr | ⟨⟨s, hb, hd⟩, -⟩⟩ | ⟨version, text, result, hs, -⟩
    · exact hr
    · rcases hd with hd | hd
      · exact absurd (writer e he s hb hd ▸ hb) hn
      · rw [hread, Option.map_eq_some_iff] at hd
        obtain ⟨other, hother, hd⟩ := hd
        have heq := apart other s (.inr (.inl hother)) (presented e he s hb) hd
        exact absurd (heq ▸ hb) (ho other hother)
    · rw [unsubmitted e he hn] at hs
      cases hs
  · intro e he hm response hp h200
    rcases answers e he response hp with ⟨-, -, rfl | ⟨-, hr | hr⟩⟩ | ⟨version, text, result, hs, hresp, hv⟩
    · cases h200
    · rw [h200] at hr
      omega
    · have hget := hr.1
      rw [hm] at hget
      exact absurd hget (by decide)
    · rw [hresp] at h200
      obtain ⟨o, ho, ha⟩ := writeReply_ok h200
      obtain ⟨k, t, hk, ht, hd⟩ := hv o ho ha
      obtain ⟨version', text', t', hs', ht', hc⟩ := (hw.exchanges e he).traced k hk
      rw [hs] at hs'
      cases hs'
      obtain rfl : t = t' := Option.some.inj (ht.symm.trans ht')
      refine ⟨version, text, o, hs, ha, ?_⟩
      rw [hstore] at ht ⊢
      exact hc.serves ht hd ha

end

namespace Sample

def token : String := "0123456789abcdef0123456789abcdef"

/-- The two digests a first write meets: of its token, and of the version of a fresh store. -/
def blake3 (input : List UInt8) : Fingerprint :=
  if input = (tokenHasher token).written then
    (Fingerprint.fromBytes? [161, 142, 88, 217, 39, 97, 148, 158, 16, 124, 80, 67, 251, 179, 72, 228, 152, 2,
      139, 211, 46, 129, 155, 104, 225, 113, 38, 132, 98, 14, 248, 244]).getD .zero
  else Gatel.Sample.blake3 input

def pipeline : Pipeline := { Gatel.Sample.pipeline with blake3 := blake3 }

def config : StoreConfig := .withAllowedSources (Std.ExtTreeSet.ofList [SourceId.admin])

/-- The empty document, under its identity as an inline text of the admin source. -/
def lower (_ : String) (_ : SourceId) : Except Unit (Fingerprint × List Node) :=
  .ok ((Fingerprint.fromBytes? [193, 183, 71, 239, 110, 215, 57, 238, 83, 146, 9, 85, 161, 66, 97, 65, 57, 30,
    92, 82, 255, 219, 19, 116, 158, 57, 73, 175, 15, 32, 203, 7]).getD .zero, [])

def host : Host pipeline := ⟨⟨digest blake3 token, none, false⟩, (), lower⟩

def put : Request where
  method := "PUT"
  pathAndQuery := some "/v1/config"
  headers := [("authorization", utf8 ("Bearer " ++ token)),
    ("if-match", utf8 ((Gatel.Sample.versionAt 0 ∅).etag blake3)), ("content-type", utf8 "application/kdl"),
    ("content-length", utf8 "0")]
  body := []

def chance : Chance := ⟨true, 0, ⟨.ready, []⟩, false, .ok (), true, false, true, true⟩

/-- A first write from its arrival to its answer. -/
def firstWrite : List (Event pipeline config) :=
  Event.arrive put :: List.replicate 9 (Event.step 0 chance) ++ List.replicate 4 (Event.store (.step 0 (.ok ()))) ++
    List.replicate 2 (Event.step 0 chance)

def told (e : Exchange pipeline) : Option Nat :=
  match e.phase with
  | .done response => some response.status
  | _ => none

theorem host_provisioned : (AdminApi.new pipeline.blake3 token false).bind
    (fun api => api.withReadToken pipeline.blake3 none) = .ok host.api := by
  have hv : validateToken token = .ok () := by rfl
  simp only [AdminApi.new, hv]
  rfl

theorem put_bears {s : String} (h : Bears put.headers s) : s = token := by
  obtain ⟨⟨value, hv, ht⟩, -⟩ := h
  have hg : put.headers.getAll "authorization" = [utf8 ("Bearer " ++ token)] := by decide
  rw [hg] at hv
  cases hv
  have hs : HeaderValue.toStr (utf8 ("Bearer " ++ token)) = some ("Bearer " ++ token) := by decide
  rw [hs, Option.some.injEq] at ht
  exact (String.append_right_inj "Bearer ").mp ht.symm

theorem tokens_first_write {s : String} (h : s ∈ Control.Tokens token none firstWrite) : s = token := by
  rcases h with h | h | ⟨request, hr, hb⟩
  · exact h
  · cases h
  · have hput : request = put := by simpa [firstWrite] using hr
    exact put_bears (hput ▸ hb)

theorem first_write_named :
    (((Control.start Gatel.Sample.boot).run host firstWrite).exchanges.map told,
      ((Control.start Gatel.Sample.boot).run host firstWrite).store.log.length) = ([some 200], 1) ∧
    ∀ e ∈ ((Control.start Gatel.Sample.boot).run host firstWrite).exchanges, ∀ version text,
      e.submitted = some (version, text) → Writes token pipeline.blake3 version e.request text := by
  refine ⟨by decide +kernel, ?_⟩
  have hapart : Set.InjOn pipeline.blake3
      ((fun s => (tokenHasher s).written) '' Control.Tokens token none firstWrite) := by
    rintro x ⟨s, hs, rfl⟩ y ⟨t, ht, rfl⟩ -
    rw [tokens_first_write hs, tokens_first_write ht]
  exact (gate_admits_named_writes_only host host_provisioned Gatel.Sample.boot firstWrite hapart).1

end Sample

end Gatel.Admin
