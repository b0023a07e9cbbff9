import Gatel.Generation.Store
import Gatel.Journal.Transaction
import Gatel.Model.HashExact
import Gatel.Model.Http

namespace Gatel.Admin

def maxBody : Nat := 1024 * 1024

def maxFrames : Nat := 65536

/-- The writes behind a token's digest. -/
def tokenHasher (token : String) : Hasher := (Hasher.new.updateStr "gatel.admin-bearer.v1").updateStr token

/-- What a bearer token is compared as. -/
def digest (blake3 : Digest) (token : String) : Fingerprint := (tokenHasher token).finish blake3

theorem tokenHasher_injective {s t : String} (h : (tokenHasher s).written = (tokenHasher t).written) : s = t := by
  have hs : ∀ token, (tokenHasher token).written = (Hasher.new.updateStr "gatel.admin-bearer.v1").written ++
      1 :: (LittleEndian.bytes 8 (utf8 token).length ++ utf8 token) := fun _ => rfl
  rw [hs, hs] at h
  have htail := (List.cons.inj (List.append_cancel_left h)).2
  exact Hasher.utf8_injective (List.append_inj htail (by simp)).2

def validateToken (token : String) : Except String Unit :=
  let bytes := utf8 token
  if ¬ (32 ≤ bytes.length ∧ bytes.length ≤ 256) ∨ ¬ bytes.all (fun b => 33 ≤ b && b ≤ 126) then
    .error "admin token must contain 32 to 256 non-whitespace ASCII bytes"
  else .ok ()

structure AdminApi where
  token : Fingerprint
  readToken : Option Fingerprint
  checkpointMode : Bool

namespace AdminApi

/-- `new`, or `with_checkpoint`: the writer is bound to the admin source either way. -/
def new (blake3 : Digest) (token : String) (checkpoint : Bool) : Except String AdminApi := do
  validateToken token
  return ⟨digest blake3 token, none, checkpoint⟩

def withReadToken (blake3 : Digest) (api : AdminApi) : Option String → Except String AdminApi
  | none => .ok api
  | some token => do
    validateToken token
    if digest blake3 token = api.token then .error "admin read and write tokens must differ"
    else return { api with readToken := some (digest blake3 token) }

end AdminApi

/-- One frame of a streamed body, or the failure to get the next one. -/
inductive Frame where
  | data (bytes : List UInt8)
  | trailers
  | error

structure Request where
  method : String
  pathAndQuery : Option String
  headers : HeaderMap
  body : List Frame

inductive HealthState where
  | ready
  | degraded
  | notReady
  deriving DecidableEq

/-- Why an instance is not simply healthy; which resource it is about is left out. -/
inductive Reason where
  | starting
  | noListeners
  | draining
  | persistenceUnknown
  | reloadFailing
  | upstreamDown
  | certificatePending
  | logIoFailed
  deriving DecidableEq

def Reason.code : Reason → String
  | .starting => "starting"
  | .noListeners => "no_listeners"
  | .draining => "draining"
  | .persistenceUnknown => "persistence_unknown"
  | .reloadFailing => "reload_failing"
  | .upstreamDown => "upstream_down"
  | .certificatePending => "certificate_pending"
  | .logIoFailed => "log_io_failed"

def Reason.codes : List String :=
  ["starting", "no_listeners", "draining", "persistence_unknown", "reload_failing", "upstream_down",
    "certificate_pending", "log_io_failed"]

structure Report where
  state : HealthState
  reasons : List Reason

/-- The fields of the status document. -/
structure StatusDocument where
  schemaVersion : Nat
  configurationEtag : String
  generation : String
  lastActivatedGeneration : String
  published : Bool
  observedDiffers : Bool
  lastFailure : Option (U32 × String)
  writeMode : String
  persistenceUnknown : Bool
  state : String
  ready : Bool
  reasons : List String
  deriving DecidableEq

inductive Content where
  | text (message : String)
  | status (document : StatusDocument)
  deriving DecidableEq

structure Response where
  status : Nat
  headers : HeaderMap
  content : Content
  deriving DecidableEq

namespace Response

def withHeader (r : Response) (name : String) (value : String) : Response :=
  { r with headers := r.headers.insert name (utf8 value) }

end Response

def reply (status : Nat) (message : String) : Response where
  status := status
  headers := [("content-type", utf8 "text/plain; charset=utf-8"), ("cache-control", utf8 "no-store"),
    ("connection", utf8 "close")]
  content := .text message

/-- The one value of a header, if it has exactly one and that is text. -/
def single (headers : HeaderMap) (key : String) : Option String :=
  match headers.getAll key with
  | [] => none
  | value :: more => (HeaderValue.toStr value).bind fun first => if more = [] then some first else none

/-- What follows `Bearer `. -/
def bearer (value : String) : Option String :=
  if "Bearer ".toList.isPrefixOf value.toList then some (String.ofList (value.toList.drop 7)) else none

/-- `read_body`, with what has been read so far. -/
@[grind =] def readFrom (bytes : List UInt8) (frames : Nat) : List Frame → Except Nat (List UInt8)
  | [] => .ok bytes
  | frame :: rest =>
    if frames + 1 > maxFrames then .error 413
    else match frame with
      | .error => .error 400
      | .trailers => .error 400
      | .data data =>
        if data.length > maxBody - bytes.length then .error 413
        else readFrom (bytes ++ data) (frames + 1) rest

def readBody (body : List Frame) : Except Nat (List UInt8) := readFrom [] 0 body

/-- The statuses of `SourceWriteError`. -/
inductive WriteError where
  | unavailable
  | persistenceUnknown
  | conflict (actual : Version)
  | observation (error : ObservationError)

section
variable {P : Pipeline}

/-- An outcome that has the submitted configuration serve. -/
def applied : Outcome P → Bool
  | .started _ | .reloaded _ _ | .noOp _ => true
  | _ => false

/-- `write_reply` before the durability header. -/
def writeAnswer (checkpoint : Bool) : Except WriteError (Outcome P) → Response
  | .ok (.started _) | .ok (.reloaded _ _) | .ok (.noOp _) =>
    reply 200 (if checkpoint then "applied and checkpoint saved" else "applied in memory")
  | .ok (.rejected _) | .error (.observation _) => reply 422 "configuration rejected"
  | .ok (.prepareFailed _) => reply 422 "configuration preparation failed"
  | .error (.conflict _) => reply 412 "configuration changed"
  | .ok (.stale _) | .error .unavailable => reply 503 "configuration unavailable"
  | .error .persistenceUnknown =>
    reply 503 "configuration may be applied; persistence outcome unknown; inspect before retrying"

def durability (checkpoint : Bool) : Except WriteError (Outcome P) → Option String
  | .ok (.started _) | .ok (.reloaded _ _) | .ok (.noOp _) =>
    some (if checkpoint then "checkpoint" else "memory")
  | .error .persistenceUnknown => some "unknown"
  | _ => none

def writeReply (result : Except WriteError (Outcome P)) (checkpoint : Bool) : Response :=
  match durability checkpoint result with
  | none => writeAnswer checkpoint result
  | some text => (writeAnswer checkpoint result).withHeader "x-gatel-durability" text

/-- `Status::observed_differs`. -/
def observedDiffers (s : State P) : Bool := s.current.any fun committed => committed.revs ≠ s.head

/-- `status::reply`, of one sample of the store. -/
def statusReply (s : State P) (activated : U64) (health : Report) (checkpoint : Bool) : Response where
  status := 200
  headers := [("content-type", utf8 "application/json"), ("cache-control", utf8 "no-store"),
    ("connection", utf8 "close")]
  content := .status {
    schemaVersion := 1
    configurationEtag := s.version.etag P.blake3
    generation := toString s.generation.val
    lastActivatedGeneration := toString activated.val
    published := s.generation ≠ Generation.none
    observedDiffers := observedDiffers s
    lastFailure := s.lastFailure.map fun failure => (failure.attempts,
      if failure.stage = "normalize" then "normalize"
      else if failure.stage = "prepare" then "prepare"
      else if failure.stage = "observe" then "observation" else "other")
    writeMode := if checkpoint then "checkpoint" else "memory"
    persistenceUnknown := health.reasons.contains .persistenceUnknown
    state := match health.state with
      | .ready => "ready"
      | .degraded => "degraded"
      | .notReady => "not_ready"
    ready := health.state ≠ .notReady
    reasons := Reason.codes.filter fun code => health.reasons.any fun reason => reason.code = code }

def versionReply (s : State P) : Response :=
  ((reply 200 "configuration version").withHeader "etag" (s.version.etag P.blake3)).withHeader
    "x-gatel-observed-differs" (if observedDiffers s then "true" else "false")

end

namespace Request

def path (r : Request) : String := r.pathAndQuery.getD ""

/-- One of the two documents is asked for. -/
def readOnly (r : Request) : Bool :=
  r.method = "GET" && (r.path = "/v1/config/version" || r.path = "/v1/config/status")

end Request

def unauthorized : Response :=
  (reply 401 "unauthorized").withHeader "www-authenticate" "Bearer realm=\"gatel-admin\""

namespace AdminApi
variable {P : Pipeline}

/-- Whether the request may write, and whether it may read. -/
def credentials (api : AdminApi) (blake3 : Digest) (headers : HeaderMap) : Bool × Bool :=
  match ((single headers "authorization").bind bearer).filter fun s => (utf8 s).length ≤ 256 with
  | none => (false, false)
  | some s => (digest blake3 s = api.token, api.readToken = some (digest blake3 s))

/-- `handle` up to the permit. -/
def authorize (api : AdminApi) (blake3 : Digest) (r : Request) : Except Response Unit :=
  let (canWrite, canRead) := api.credentials blake3 r.headers
  if !canWrite && !canRead then .error unauthorized
  else if r.headers.containsKey "origin" then .error (reply 403 "origin not allowed")
  else if !canWrite && !r.readOnly then .error (reply 403 "read-only credential")
  else .ok ()

/-- `handle` from the permit to the look at the configuration. -/
def available (capacity alive sealed : Bool) : Except Response Unit :=
  if !capacity then .error (reply 503 "admin capacity exhausted")
  else if !alive || sealed then .error (reply 503 "admin unavailable")
  else .ok ()

/-- The declared length of a body. -/
def contentLength (headers : HeaderMap) : Except Response (Option Nat) :=
  if headers.containsKey "content-length" then
    match ((single headers "content-length").filter
        fun s => s ≠ "" && s.toList.all Char.isDigit).bind AdminJournal.parseU64 with
    | some n => if n.val ≤ maxBody then .ok (some n.val) else .error (reply 413 "body too large")
    | none => .error (reply 400 "invalid content length")
  else .ok none

/-- The checks a write has to pass before its body is read. -/
def precondition (blake3 : Digest) (version : Version) (r : Request) : Except Response (Option Nat) :=
  if r.path ≠ "/v1/config" then .error (reply 404 "not found")
  else if r.method ≠ "PUT" then .error ((reply 405 "method not allowed").withHeader "allow" "PUT")
  else if !r.headers.containsKey "if-match" then .error (reply 428 "If-Match required")
  else if single r.headers "if-match" ≠ some (version.etag blake3) then
    .error (reply 412 "configuration changed")
  else if single r.headers "content-type" ≠ some "application/kdl" ||
      r.headers.containsKey "content-encoding" then
    .error (reply 415 "expected unencoded application/kdl")
  else if r.headers.containsKey "content-length" && r.headers.containsKey "transfer-encoding" then
    .error (reply 400 "ambiguous body framing")
  else contentLength r.headers

/-- `handle` from the look at the configuration to the body: an answer, or the sampled version
with the length declared. -/
def sample (api : AdminApi) (s : State P) (activated : U64) (health : Report) (r : Request) :
    Except Response (Version × Option Nat) :=
  if r.path = "/v1/config/status" then
    if r.method ≠ "GET" then .error ((reply 405 "method not allowed").withHeader "allow" "GET")
    else .error (statusReply s activated health api.checkpointMode)
  else if r.path = "/v1/config/version" ∧ r.method = "GET" then .error (versionReply s)
  else match precondition P.blake3 s.version r with
    | .error response => .error response
    | .ok length => .ok (s.version, length)

/-- `handle` once the body has been read, or the time for it has run out. -/
def receive (elapsed : Bool) (length : Option Nat) (body : List Frame) : Except Response String :=
  if elapsed then .error (reply 408 "request body timeout")
  else match readBody body with
    | .error status => .error (reply status "invalid request body")
    | .ok bytes =>
      if length.any (fun n => n ≠ bytes.length) then .error (reply 400 "content length mismatch")
      else match String.fromUTF8? ⟨bytes.toArray⟩ with
        | none => .error (reply 400 "expected UTF-8")
        | some text => .ok text

end AdminApi

/-- The header is there once, as this text. -/
def Exactly (headers : HeaderMap) (key text : String) : Prop :=
  ∃ value, headers.getAll key = [value] ∧ HeaderValue.toStr value = some text

theorem single_eq_some {headers : HeaderMap} {key text : String} (h : single headers key = some text) :
    Exactly headers key text := by
  unfold single at h
  cases hv : headers.getAll key with
  | nil => rw [hv] at h; cases h
  | cons value more =>
    rw [hv] at h
    obtain ⟨first, hf, hm⟩ := Option.bind_eq_some_iff.mp h
    split at hm
    · rename_i hnil
      cases hm
      exact ⟨value, by rw [hv, hnil], hf⟩
    · cases hm

theorem bearer_eq_some {value token : String} (h : bearer value = some token) :
    value = "Bearer " ++ token := by
  unfold bearer at h
  split at h
  · rename_i hp
    cases h
    obtain ⟨rest, hr⟩ := List.isPrefixOf_iff_prefix.mp hp
    have hd : value.toList.drop 7 = rest := by
      rw [← hr]
      exact List.drop_left' rfl
    apply String.toList_injective
    rw [hd, String.toList_append, ← hr]
    simp
  · cases h

/-- The request comes with this bearer token and no other credential. -/
def Bears (headers : HeaderMap) (token : String) : Prop :=
  Exactly headers "authorization" ("Bearer " ++ token) ∧ (utf8 token).length ≤ 256

theorem AdminApi.credentials_cases (api : AdminApi) (blake3 : Digest) (headers : HeaderMap) :
    api.credentials blake3 headers = (false, false) ∨
    ∃ token, Bears headers token ∧ api.credentials blake3 headers =
      (decide (digest blake3 token = api.token), decide (api.readToken = some (digest blake3 token))) := by
  unfold AdminApi.credentials
  cases hs : ((single headers "authorization").bind bearer).filter fun s => (utf8 s).length ≤ 256 with
  | none => exact .inl rfl
  | some token =>
    obtain ⟨hb, hl⟩ := Option.filter_eq_some_iff.mp hs
    obtain ⟨value, hv, ht⟩ := Option.bind_eq_some_iff.mp hb
    refine .inr ⟨token, ⟨?_, by simpa using hl⟩, rfl⟩
    rw [← bearer_eq_some ht]
    exact single_eq_some hv

/-- What the gate has seen of a request when it lets it pass. -/
structure Authorized (api : AdminApi) (blake3 : Digest) (r : Request) : Prop where
  origin : r.headers.containsKey "origin" = false
  token : ∃ token, Bears r.headers token ∧ (digest blake3 token = api.token ∨
    api.readToken = some (digest blake3 token) ∧ r.readOnly = true)

theorem AdminApi.authorize_ok {api : AdminApi} {blake3 : Digest} {r : Request}
    (h : api.authorize blake3 r = .ok ()) : Authorized api blake3 r := by
  unfold AdminApi.authorize at h
  rcases api.credentials_cases blake3 r.headers with hc | ⟨token, hb, hc⟩
  · simp [hc] at h
  · rw [hc] at h
    dsimp only at h
    split_ifs at h with hnone horigin hread
    refine ⟨by simpa using horigin, token, hb, ?_⟩
    by_cases hw : digest blake3 token = api.token
    · exact .inl hw
    · simp [hw] at hnone hread
      exact .inr ⟨hnone, hread⟩

/-- What a write names, and how it says it. -/
structure Conditions (blake3 : Digest) (version : Version) (r : Request) (length : Option Nat) : Prop where
  path : r.pathAndQuery = some "/v1/config"
  method : r.method = "PUT"
  condition : Exactly r.headers "if-match" (version.etag blake3)
  mediaType : Exactly r.headers "content-type" "application/kdl"
  encoding : r.headers.containsKey "content-encoding" = false
  length : r.headers.containsKey "content-length" = true →
    ∃ text n, Exactly r.headers "content-length" text ∧ AdminJournal.parseU64 text = some n ∧ length = some n.val

theorem AdminApi.contentLength_ok {headers : HeaderMap} {length : Option Nat}
    (h : AdminApi.contentLength headers = .ok length) (hk : headers.containsKey "content-length" = true) :
    ∃ text n, Exactly headers "content-length" text ∧ AdminJournal.parseU64 text = some n ∧
      length = some n.val := by
  unfold AdminApi.contentLength at h
  rw [if_pos hk] at h
  split at h
  · rename_i n hn
    obtain ⟨text, ht, hp⟩ := Option.bind_eq_some_iff.mp hn
    obtain ⟨hs, -⟩ := Option.filter_eq_some_iff.mp ht
    split_ifs at h
    cases h
    exact ⟨text, n, single_eq_some hs, hp, rfl⟩
  · cases h

theorem AdminApi.precondition_ok {blake3 : Digest} {version : Version} {r : Request} {length : Option Nat}
    (h : AdminApi.precondition blake3 version r = .ok length) : Conditions blake3 version r length := by
  unfold AdminApi.precondition at h
  split_ifs at h with hpath hmethod hmatch hetag hmedia hframing
  have hpath := not_not.mp hpath
  have hetag := not_not.mp hetag
  simp only [Bool.or_eq_true, decide_eq_true_eq, not_or, not_not, Bool.not_eq_true] at hmedia
  refine ⟨?_, not_not.mp hmethod, single_eq_some hetag, single_eq_some hmedia.1, hmedia.2,
    AdminApi.contentLength_ok h⟩
  -- the empty path stands for a missing one, and is not the path of the configuration
  unfold Request.path at hpath
  cases hp : r.pathAndQuery with
  | none => rw [hp] at hpath; exact absurd hpath (by decide)
  | some path => rw [hp] at hpath; exact congrArg some hpath

/-- A sample that leads to a write was of the version it is conditioned on. -/
theorem AdminApi.sample_ok {P : Pipeline} {api : AdminApi} {s : State P} {activated : U64} {health : Report}
    {r : Request} {version : Version} {length : Option Nat}
    (h : api.sample s activated health r = .ok (version, length)) :
    version = s.version ∧ Conditions P.blake3 version r length := by
  unfold AdminApi.sample at h
  split_ifs at h
  cases hp : AdminApi.precondition P.blake3 s.version r with
  | error response => rw [hp] at h; cases h
  | ok declared =>
    rw [hp] at h
    cases h
    exact ⟨rfl, AdminApi.precondition_ok hp⟩

theorem readFrom_ok {bytes all : List UInt8} {frames : Nat} {body : List Frame}
    (h : readFrom bytes frames body = .ok all) (hb : bytes.length ≤ maxBody) :
    all.length ≤ maxBody ∧ (frames ≤ maxFrames → frames + body.length ≤ maxFrames) ∧
      ∃ chunks : List (List UInt8), body = chunks.map Frame.data ∧ all = bytes ++ chunks.flatten := by
  induction body generalizing bytes frames with
  | nil =>
    cases h
    exact ⟨hb, fun hf => by simpa using hf, [], rfl, by simp⟩
  | cons frame body ih =>
    unfold readFrom at h
    split_ifs at h with hframes
    cases frame with
    | error => cases h
    | trailers => cases h
    | data data =>
      dsimp only at h
      split_ifs at h with hdata
      obtain ⟨hall, hcount, chunks, rfl, rfl⟩ := ih h (by rw [List.length_append]; omega)
      refine ⟨hall, ?_, data :: chunks, rfl, by simp⟩
      intro _
      have := hcount (by omega)
      rw [List.length_cons]
      omega

/-- What a body says, within the bounds, and as long as announced. -/
structure Delivers (r : Request) (length : Option Nat) (text : String) : Prop where
  size : (utf8 text).length ≤ maxBody
  frames : r.body.length ≤ maxFrames
  chunks : ∃ chunks : List (List UInt8), r.body = chunks.map Frame.data ∧ chunks.flatten = utf8 text
  length : ∀ n, length = some n → (utf8 text).length = n

theorem AdminApi.receive_ok {elapsed : Bool} {length : Option Nat} {r : Request} {text : String}
    (h : AdminApi.receive elapsed length r.body = .ok text) : Delivers r length text := by
  unfold AdminApi.receive at h
  split_ifs at h
  cases hr : readBody r.body with
  | error status => rw [hr] at h; cases h
  | ok bytes =>
    rw [hr] at h
    dsimp only at h
    split_ifs at h with hl
    cases ht : String.fromUTF8? ⟨bytes.toArray⟩ with
    | none => rw [ht] at h; cases h
    | some found =>
      rw [ht] at h
      cases h
      have hu := fromUTF8?_eq_some.mp ht
      obtain ⟨hsize, hframes, chunks, hbody, hall⟩ := readFrom_ok hr (Nat.zero_le _)
      subst hu
      refine ⟨hsize, by simpa using hframes (Nat.zero_le _), ⟨chunks, hbody, by simpa using hall.symm⟩, ?_⟩
      rintro n rfl
      have hn : n = (utf8 text).length := by simpa using hl
      exact hn.symm

section
variable {P : Pipeline}

theorem writeReply_ok {result : Except WriteError (Outcome P)} {checkpoint : Bool}
    (h : (writeReply result checkpoint).status = 200) : ∃ o, result = .ok o ∧ applied o = true := by
  unfold writeReply at h
  have hs : (writeAnswer checkpoint result).status = 200 := by
    split at h
    · exact h
    · exact h
  rcases result with e | o
  · cases e with
    | _ => cases hs
  · cases o with
    | started g => exact ⟨_, rfl, rfl⟩
    | reloaded g changes => exact ⟨_, rfl, rfl⟩
    | noOp g => exact ⟨_, rfl, rfl⟩
    | _ => cases hs

end

/-- The request comes with one of the two tokens. -/
def Known (api : AdminApi) (blake3 : Digest) (headers : HeaderMap) : Prop :=
  ∃ token, Bears headers token ∧ (digest blake3 token = api.token ∨ api.readToken = some (digest blake3 token))

theorem Authorized.known {api : AdminApi} {blake3 : Digest} {r : Request} (h : Authorized api blake3 r) :
    Known api blake3 r.headers := by
  obtain ⟨token, hb, ht⟩ := h.token
  exact ⟨token, hb, ht.imp id And.left⟩

/-- A stranger is told nothing but that. -/
theorem AdminApi.authorize_error {api : AdminApi} {blake3 : Digest} {r : Request} {response : Response}
    (h : api.authorize blake3 r = .error response) :
    response = unauthorized ∨ Known api blake3 r.headers ∧ 400 ≤ response.status := by
  unfold AdminApi.authorize at h
  rcases api.credentials_cases blake3 r.headers with hc | ⟨token, hb, hc⟩
  · rw [hc] at h
    cases h
    exact .inl rfl
  · rw [hc] at h
    dsimp only at h
    split_ifs at h with hnone horigin hread
    · cases h
      exact .inl rfl
    all_goals
      refine .inr ⟨⟨token, hb, ?_⟩, by cases h; decide⟩
      by_contra hn
      rw [not_or] at hn
      exact hnone (by simp [hn.1, hn.2])

theorem AdminApi.available_error {capacity alive sealed : Bool} {response : Response}
    (h : AdminApi.available capacity alive sealed = .error response) : 400 ≤ response.status := by
  unfold AdminApi.available at h
  split_ifs at h
  · cases h; decide
  · cases h; decide

/-- An answer of a check or of what comes after it. -/
theorem error_of_ite {α : Type} {c : Prop} [Decidable c] {first response : Response} {rest : Except Response α}
    (h : (if c then .error first else rest) = .error response) : first = response ∨ rest = .error response := by
  by_cases hc : c
  · rw [if_pos hc] at h
    exact .inl (Except.error.inj h)
  · rw [if_neg hc] at h
    exact .inr h

theorem AdminApi.precondition_error {blake3 : Digest} {version : Version} {r : Request} {response : Response}
    (h : AdminApi.precondition blake3 version r = .error response) : 400 ≤ response.status := by
  unfold AdminApi.precondition at h
  rcases error_of_ite h with rfl | h
  · decide
  rcases error_of_ite h with rfl | h
  · decide
  rcases error_of_ite h with rfl | h
  · decide
  rcases error_of_ite h with rfl | h
  · decide
  rcases error_of_ite h with rfl | h
  · decide
  rcases error_of_ite h with rfl | h
  · decide
  unfold AdminApi.contentLength at h
  split at h
  · split at h
    · split at h
      · cases h
      · cases h
        decide
    · cases h
      decide
  · cases h

/-- The answer is the document asked for, of some state of the store. -/
def Document (P : Pipeline) (r : Request) (response : Response) : Prop :=
  r.method = "GET" ∧
    ((r.path = "/v1/config/status" ∧ ∃ (s : State P) (activated : U64) (health : Report) (checkpoint : Bool),
        response = statusReply s activated health checkpoint) ∨
      r.path = "/v1/config/version" ∧ ∃ s : State P, response = versionReply s)

theorem AdminApi.sample_error {P : Pipeline} {api : AdminApi} {s : State P} {activated : U64}
    {health : Report} {r : Request} {response : Response}
    (h : api.sample s activated health r = .error response) :
    400 ≤ response.status ∨ Document P r response := by
  unfold AdminApi.sample at h
  split_ifs at h with hstatus hmethod hversion
  · cases h
    exact .inl (by decide)
  · cases h
    exact .inr ⟨not_not.mp hmethod, .inl ⟨hstatus, s, activated, health, _, rfl⟩⟩
  · cases h
    exact .inr ⟨hversion.2, .inr ⟨hversion.1, s, rfl⟩⟩
  · cases hp : AdminApi.precondition P.blake3 s.version r with
    | error refusal =>
      rw [hp] at h
      cases h
      exact .inl (AdminApi.precondition_error hp)
    | ok length => rw [hp] at h; cases h

theorem readFrom_error {bytes : List UInt8} {frames status : Nat} {body : List Frame}
    (h : readFrom bytes frames body = .error status) : 400 ≤ status := by
  induction body generalizing bytes frames with
  | nil => cases h
  | cons frame body ih =>
    unfold readFrom at h
    split_ifs at h
    · cases h
      decide
    · cases frame with
      | error => cases h; decide
      | trailers => cases h; decide
      | data data =>
        dsimp only at h
        split_ifs at h
        · cases h
          decide
        · exact ih h

theorem AdminApi.receive_error {elapsed : Bool} {length : Option Nat} {body : List Frame}
    {response : Response} (h : AdminApi.receive elapsed length body = .error response) :
    400 ≤ response.status := by
  unfold AdminApi.receive at h
  split_ifs at h
  · cases h
    decide
  · cases hr : readBody body with
    | error status =>
      rw [hr] at h
      cases h
      exact readFrom_error hr
    | ok bytes =>
      rw [hr] at h
      dsimp only at h
      split_ifs at h
      · cases h
        decide
      · split at h
        · cases h
          decide
        · cases h

end Gatel.Admin
