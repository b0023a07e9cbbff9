import Gatel.Lib.Run
import Gatel.Checkpoint.Envelope

namespace Gatel.AdminCheckpoint
open AdminJournal (Fate Store Journal)

/-- The two files of an instance, as they stand on disk. -/
structure Files where
  log : List UInt8
  checkpoint : Option (List UInt8)

/-- Where the file system fails, if it does. -/
inductive Fault where
  | none
  /-- The log cannot be read. -/
  | log
  /-- The checkpoint cannot be read, or is not a private regular file. -/
  | checkpoint
  /-- The new checkpoint cannot be staged. -/
  | staging
  /-- The new checkpoint is in place, but not known to be durable. -/
  | replaced
  deriving DecidableEq

inductive StoreFailure where
  | journal (failure : AdminJournal.Failure)
  | checkpoint (error : Error)
  | inspection
  | changed
  | sizeLimit
  | io
  deriving DecidableEq

def StoreFailure.message : StoreFailure → String
  | .journal failure => failure.message
  | .checkpoint error => error.message
  | .inspection => "invalid journal during checkpoint inspection"
  | .changed => "journal changed outside its writer"
  | .sizeLimit => "checkpoint exceeds size limit"
  | .io => "input/output error"

/-- The log under the retained lock, which must be the one the store wrote. -/
def checkpointLog (blake3 : Digest) (s : Store) (fault : Fault) (log : List UInt8) :
    Store × Except StoreFailure (List UInt8) :=
  let poisoned := { s with poisoned := true }
  if s.poisoned then (s, .error (.journal .poisoned))
  else if fault = .log then (poisoned, .error .io)
  else if log.length > AdminJournal.maxLog then (poisoned, .error (.journal .sizeLimit))
  else match AdminJournal.recover blake3 log 0 with
    | .error _ => (poisoned, .error .inspection)
    | .ok observed =>
      if observed.sequence ≠ s.sequence ∨ observed.validBytes ≠ s.validBytes ∨
          observed.text ≠ s.text ∨ observed.incompleteTail ≠ s.incompleteTail then
        (poisoned, .error .changed)
      else (s, .ok log)

def checkpointBytes (fault : Fault) (checkpoint : Option (List UInt8)) :
    Except StoreFailure (Option (List UInt8)) :=
  if fault = .checkpoint then .error .io
  else match checkpoint with
    | none => .ok none
    | some bytes => if bytes.length > maxBytes then .error .sizeLimit else .ok (some bytes)

inductive Reason where
  | incompleteTail
  | unknownOutcome
  | missingCheckpoint
  | appliedAfterCheckpoint
  deriving DecidableEq, Repr

inductive Disposition where
  | uninitialized
  | checkpointCurrent
  | checkpointWithRejectedIntent
  | reconcile (reason : Reason)
  deriving DecidableEq, Repr

/-- What recovery has to do, and the checkpoint it starts from. -/
structure Inspection where
  disposition : Disposition
  checkpoint : Option Checkpoint

/-- Why a call on the writer fails. -/
inductive Failure where
  | store (failure : StoreFailure)
  | explicit
  | reopen
  | unconfirmed
  | unconfirmable
  | foreignRecovery
  | notServing
  | reconciliation
  | noRecovery
  | mismatch
  | foreign
  | unidentified
  deriving DecidableEq

def Failure.message : Failure → String
  | .store failure => failure.message
  | .explicit => "checkpoint writer requires explicit journal reconciliation"
  | .reopen => "checkpoint writer requires reopen and reconciliation"
  | .unconfirmed => "checkpoint recovery must be confirmed before writing"
  | .unconfirmable => "checkpoint recovery cannot be confirmed"
  | .foreignRecovery => "checkpoint recovery belongs to another host lifetime"
  | .notServing => "checkpoint recovery has no serving generation"
  | .reconciliation => "checkpoint writer requires reconciliation"
  | .noRecovery => "no checkpoint recovery is pending"
  | .mismatch => "recovered source snapshots do not match checkpoint"
  | .foreign => "checkpoint writer belongs to another host lifetime"
  | .unidentified => "cannot identify checkpoint sources"

/-- The encoded identities of what serves and what is intended. -/
abbrev Identity := Fingerprint × Fingerprint

def digest (blake3 : Digest) (snapshot : Snapshot) : Except Failure Fingerprint :=
  match SnapshotCodec.encode blake3 snapshot with
  | .error _ => .error .unidentified
  | .ok bytes =>
    .ok (((Hasher.new.updateStr "gatel.checkpoint.recovery-sources.v1").updateBytes bytes).finish
      blake3)

def identity (blake3 : Digest) (serving observed : Snapshot) : Except Failure Identity := do
  let serving ← digest blake3 serving
  let observed ← digest blake3 observed
  return (serving, observed)

structure CheckpointWriter where
  journal : Journal
  failed : Bool
  owner : Option BootId
  recovery : Option Identity

section
variable {P : Pipeline}

/-- `load_checkpoint`. -/
def loadCheckpoint (j : Journal) (registry : P.Registry) (fault : Fault) (files : Files) :
    Journal × Except StoreFailure (Option Checkpoint) :=
  match checkpointLog P.blake3 j.store fault files.log with
  | (store, .error e) => ({ j with store := store }, .error e)
  | (store, .ok log) =>
    ({ j with store := store },
      match checkpointBytes fault files.checkpoint with
      | .error e => .error e
      | .ok none => .ok none
      | .ok (some bytes) =>
        match decode bytes j.name registry log with
        | .error e => .error (.checkpoint e)
        | .ok checkpoint => .ok (some checkpoint))

/-- Classify what recovery has to do, without doing any of it. -/
def disposition (j : Journal) (checkpoint : Option Checkpoint) : Disposition :=
  if j.store.incompleteTail then .reconcile .incompleteTail
  else if pending j.state then .reconcile .unknownOutcome
  else match checkpoint with
    | some checkpoint =>
      if j.state.applied.any (fun intent => intent.sequence > checkpoint.metadata.journalSequence) then
        .reconcile .appliedAfterCheckpoint
      else if j.store.sequence > checkpoint.metadata.journalSequence then
        .checkpointWithRejectedIntent
      else .checkpointCurrent
    | none => if j.state.latest.isSome then .reconcile .missingCheckpoint else .uninitialized

def inspectRecovery (j : Journal) (registry : P.Registry) (fault : Fault) (files : Files) :
    Journal × Except StoreFailure Inspection :=
  match loadCheckpoint j registry fault files with
  | (j, .error e) => (j, .error e)
  | (j, .ok checkpoint) => (j, .ok ⟨disposition j checkpoint, checkpoint⟩)

/-- `save_checkpoint_with`: encode, refuse to replace what cannot be understood, skip what
is already there, else stage and rename. -/
def saveCheckpoint (j : Journal) (registry : P.Registry) (capture : ConfigurationCapture P)
    (fault : Fault) (files : Files) : Files × Journal × Except StoreFailure Unit :=
  if ¬ j.store.writable then (files, j, .error (.journal .readOnly))
  else match checkpointLog P.blake3 j.store fault files.log with
  | (store, .error e) => (files, { j with store := store }, .error e)
  | (store, .ok log) =>
    let j := { j with store := store }
    let poisoned := { j with store := { store with poisoned := true } }
    match encode j.name registry log capture with
    | .error e => (files, j, .error (.checkpoint e))
    | .ok bytes =>
      match checkpointBytes fault files.checkpoint with
      | .error e => (files, j, .error e)
      | .ok previous =>
        match previous.map (fun previous => decode previous j.name registry log) with
        | some (.error e) => (files, j, .error (.checkpoint e))
        | _ =>
          if previous = some bytes then (files, j, .ok ())
          else match fault with
            | .staging => (files, poisoned, .error .io)
            | .replaced => ({ files with checkpoint := some bytes }, poisoned, .error .io)
            | _ => ({ files with checkpoint := some bytes }, j, .ok ())

namespace CheckpointWriter

/-- Open the journal, inspect it, and remember what an existing checkpoint holds. -/
@[grind =] def openWriter (name : String) (registry : P.Registry) (fate : Fate) (fault : Fault) (files : Files) :
    Files × Except Failure (CheckpointWriter × Option (Snapshot × Snapshot)) :=
  match AdminJournal.openJournal P.blake3 name true fate files.log with
  | (log, .error e) => ({ files with log := log }, .error (.store (.journal e)))
  | (log, .ok j) =>
    let files := { files with log := log }
    match inspectRecovery j registry fault files with
    | (_, .error e) => (files, .error (.store e))
    | (j, .ok inspection) =>
      if inspection.disposition ≠ .uninitialized ∧ inspection.disposition ≠ .checkpointCurrent then
        (files, .error .explicit)
      else match inspection.checkpoint with
        | none => (files, .ok (⟨j, false, none, none⟩, none))
        | some checkpoint =>
          match identity P.blake3 checkpoint.sources checkpoint.observed with
          | .error e => (files, .error e)
          | .ok expected =>
            (files, .ok (⟨j, false, none, some expected⟩,
              some (checkpoint.sources, checkpoint.observed)))

def ensureReady (w : CheckpointWriter) : Except Failure Unit :=
  if w.failed then .error .reopen
  else if w.recovery.isSome then .error .unconfirmed
  else .ok ()

/-- Whether the writer already belongs to a host lifetime other than this. -/
def foreign (w : CheckpointWriter) (owner : BootId) : Prop := w.owner.any (fun o => o ≠ owner)

instance (w : CheckpointWriter) (owner : BootId) : Decidable (w.foreign owner) :=
  inferInstanceAs (Decidable (_ = true))

def verifyRecoverySources (blake3 : Digest) (w : CheckpointWriter) (serving observed : Snapshot) :
    Except Failure Unit :=
  if w.failed then .error .reconciliation
  else match w.recovery with
    | none => .error .noRecovery
    | some expected =>
      match identity blake3 serving observed with
      | .error e => .error e
      | .ok actual => if actual ≠ expected then .error .mismatch else .ok ()

def confirmRecovery (w : CheckpointWriter) (capture : ConfigurationCapture P) :
    CheckpointWriter × Except Failure Unit :=
  if w.failed ∨ capture.sealed then (w, .error .unconfirmable)
  else if w.foreign capture.version.bootId then (w, .error .foreignRecovery)
  else match capture.committed with
    | none => (w, .error .notServing)
    | some serving =>
      match w.verifyRecoverySources P.blake3 serving.sources capture.observed with
      | .error e => (w, .error e)
      | .ok () => ({ w with owner := some capture.version.bootId, recovery := none }, .ok ())

/-- Hold the pending recovery for one host before it publishes. -/
def reserveRecovery (blake3 : Digest) (w : CheckpointWriter) (owner : BootId)
    (serving observed : Snapshot) : CheckpointWriter × Except Failure Unit :=
  match w.verifyRecoverySources blake3 serving observed with
  | .error e => (w, .error e)
  | .ok () =>
    if w.foreign owner then (w, .error .foreignRecovery)
    else ({ w with owner := some owner }, .ok ())

def bind (w : CheckpointWriter) (owner : BootId) : CheckpointWriter × Except Failure Unit :=
  match w.ensureReady with
  | .error e => (w, .error e)
  | .ok () =>
    if w.foreign owner then (w, .error .foreign)
    else ({ w with owner := some owner }, .ok ())

def requireReconciliation (w : CheckpointWriter) : CheckpointWriter := { w with failed := true }

/-- Bind, then save. Once the journal is asked the writer counts as failed until the save
is known to have succeeded. -/
def save (w : CheckpointWriter) (registry : P.Registry) (capture : ConfigurationCapture P)
    (fault : Fault) (files : Files) : Files × CheckpointWriter × Except Failure Unit :=
  match w.bind capture.version.bootId with
  | (w, .error e) => (files, w, .error e)
  | (w, .ok ()) =>
    match saveCheckpoint w.journal registry capture fault files with
    | (files, j, .error e) => (files, { w with journal := j, failed := true }, .error (.store e))
    | (files, j, .ok ()) => (files, { w with journal := j, failed := false }, .ok ())

end CheckpointWriter

end

section
variable (P : Pipeline)

/-- A call on the shared writer, by whichever host lifetime. -/
inductive Call where
  | ensureReady
  | verifyRecoverySources (serving observed : Snapshot)
  | reserveRecovery (owner : BootId) (serving observed : Snapshot)
  | confirmRecovery (capture : ConfigurationCapture P)
  | bind (owner : BootId)
  | save (registry : P.Registry) (capture : ConfigurationCapture P) (fault : Fault)
  | requireReconciliation

/-- The files, the writer that is open on them if any, what it found when it was opened
and every call since with its result. -/
structure Desk where
  files : Files
  writer : Option CheckpointWriter
  found : Option (Snapshot × Snapshot)
  history : List (Call P × Except Failure Unit)

inductive Action where
  | openWriter (name : String) (registry : P.Registry) (fate : Fate) (fault : Fault)
  | close
  /-- Anything may happen to the files behind the writer's back. -/
  | outside (files : Files)
  | call (call : Call P)

end

section
variable {P : Pipeline}

/-- The host lifetime a call speaks for. -/
def Call.boot : Call P → Option BootId
  | .reserveRecovery owner _ _ => some owner
  | .confirmRecovery capture => some capture.version.bootId
  | .bind owner => some owner
  | .save _ capture _ => some capture.version.bootId
  | _ => none

def CheckpointWriter.call (w : CheckpointWriter) (files : Files) :
    Call P → Files × CheckpointWriter × Except Failure Unit
  | .ensureReady => (files, w, w.ensureReady)
  | .verifyRecoverySources serving observed =>
    (files, w, w.verifyRecoverySources P.blake3 serving observed)
  | .reserveRecovery owner serving observed =>
    (files, w.reserveRecovery P.blake3 owner serving observed)
  | .confirmRecovery capture => (files, w.confirmRecovery capture)
  | .bind owner => (files, w.bind owner)
  | .save registry capture fault => w.save registry capture fault files
  | .requireReconciliation => (files, w.requireReconciliation, .ok ())

namespace Desk

def start (files : Files) : Desk P := ⟨files, none, none, []⟩

@[grind =] def act (d : Desk P) : Action P → Desk P
  | .openWriter name registry fate fault =>
    if d.writer.isSome then d
    else match CheckpointWriter.openWriter name registry fate fault d.files with
      | (files, .error _) => ⟨files, none, none, []⟩
      | (files, .ok (w, found)) => ⟨files, some w, found, []⟩
  | .close => ⟨d.files, none, none, []⟩
  | .outside files => { d with files := files }
  | .call call =>
    match d.writer with
    | none => d
    | some w =>
      let (files, w, result) := w.call d.files call
      { d with files := files, writer := some w, history := d.history ++ [(call, result)] }

def run (d : Desk P) (actions : List (Action P)) : Desk P := Run.run act d actions

end Desk

/-- A save that the journal was asked for and that failed, or the host's own admission
that it lost track. -/
def Spoils (event : Call P × Except Failure Unit) : Prop :=
  event.1 = .requireReconciliation ∨
    ∃ registry capture fault failure,
      event = (.save registry capture fault, .error (.store failure))

/-- What an open writer keeps, over every call by anyone. -/
structure Kept (w : CheckpointWriter) (found : Option (Snapshot × Snapshot))
    (history : List (Call P × Except Failure Unit)) : Prop where
  saved : ∀ registry capture fault, (.save registry capture fault, .ok ()) ∈ history →
    w.owner = some capture.version.bootId
  confirmed : ∀ capture, (.confirmRecovery capture, .ok ()) ∈ history →
    w.owner = some capture.version.bootId ∧ ∃ serving observed committed expected,
      found = some (serving, observed) ∧ capture.committed = some committed ∧
      identity P.blake3 serving observed = .ok expected ∧
      identity P.blake3 committed.sources capture.observed = .ok expected
  recovery : ∀ expected, w.recovery = some expected → ∃ serving observed,
    found = some (serving, observed) ∧ identity P.blake3 serving observed = .ok expected
  unconfirmed : found.isSome → (∀ capture, (.confirmRecovery capture, .ok ()) ∉ history) →
    w.recovery.isSome
  spoiled : ∀ event ∈ history, Spoils event → w.failed = true

def Desk.Sound (d : Desk P) : Prop := ∀ w, d.writer = some w → Kept w d.found d.history

section
variable {w w' : CheckpointWriter}

theorem CheckpointWriter.verify_ok {blake3 : Digest} {serving observed : Snapshot}
    (h : w.verifyRecoverySources blake3 serving observed = .ok ()) :
    w.failed = false ∧ ∃ expected, w.recovery = some expected ∧
      identity blake3 serving observed = .ok expected := by
  unfold CheckpointWriter.verifyRecoverySources at h
  split_ifs at h with hf
  refine ⟨by simpa using hf, ?_⟩
  cases hr : w.recovery with
  | none => simp [hr] at h
  | some expected =>
    simp only [hr] at h
    cases hi : identity blake3 serving observed with
    | error e => simp [hi] at h
    | ok actual =>
      simp only [hi] at h
      split_ifs at h with hne
      exact ⟨expected, rfl, by rw [not_not.mp hne]⟩

theorem CheckpointWriter.not_foreign {owner : BootId} (h : ¬ w.foreign owner) :
    w.owner = none ∨ w.owner = some owner := by
  unfold CheckpointWriter.foreign at h
  cases ho : w.owner with
  | none => exact .inl rfl
  | some o => simp_all

/-- Reserving holds a pending recovery for its owner; any failure leaves no trace. -/
theorem CheckpointWriter.reserve_cases (blake3 : Digest) (w : CheckpointWriter) (owner : BootId)
    (serving observed : Snapshot) :
    (∃ e, w.reserveRecovery blake3 owner serving observed = (w, .error e)) ∨
    w.failed = false ∧ ¬ w.foreign owner ∧
      w.reserveRecovery blake3 owner serving observed = ({ w with owner := some owner }, .ok ()) := by
  unfold CheckpointWriter.reserveRecovery
  cases hv : w.verifyRecoverySources blake3 serving observed with
  | error e => exact .inl ⟨e, rfl⟩
  | ok u =>
    by_cases hf : w.foreign owner
    · exact .inl ⟨.foreignRecovery, by simp [hf]⟩
    · exact .inr ⟨(CheckpointWriter.verify_ok hv).1, hf, by simp [hf]⟩

/-- Confirming needs the exact identities of the checkpoint. -/
theorem CheckpointWriter.confirm_cases (w : CheckpointWriter) (capture : ConfigurationCapture P) :
    (∃ e, w.confirmRecovery capture = (w, .error e)) ∨
    w.failed = false ∧ ¬ w.foreign capture.version.bootId ∧
      (∃ committed expected, capture.committed = some committed ∧ w.recovery = some expected ∧
        identity P.blake3 committed.sources capture.observed = .ok expected) ∧
      w.confirmRecovery capture =
        ({ w with owner := some capture.version.bootId, recovery := none }, .ok ()) := by
  unfold CheckpointWriter.confirmRecovery
  by_cases hc : w.failed ∨ capture.sealed
  · exact .inl ⟨_, by rw [if_pos hc]⟩
  by_cases hf : w.foreign capture.version.bootId
  · exact .inl ⟨_, by rw [if_neg hc, if_pos hf]⟩
  rw [if_neg hc, if_neg hf]
  cases hs : capture.committed with
  | none => exact .inl ⟨_, rfl⟩
  | some committed =>
    dsimp only
    cases hv : w.verifyRecoverySources P.blake3 committed.sources capture.observed with
    | error e => exact .inl ⟨_, rfl⟩
    | ok u =>
      obtain ⟨hfailed, expected, hr, hi⟩ := CheckpointWriter.verify_ok hv
      exact .inr ⟨hfailed, hf, ⟨committed, expected, rfl, hr, hi⟩, rfl⟩

theorem CheckpointWriter.bind_cases (w : CheckpointWriter) (owner : BootId) :
    (∃ e, (∀ failure, e ≠ .store failure) ∧ w.bind owner = (w, .error e)) ∨
    w.failed = false ∧ w.recovery = none ∧ ¬ w.foreign owner ∧
      w.bind owner = ({ w with owner := some owner }, .ok ()) := by
  unfold CheckpointWriter.bind CheckpointWriter.ensureReady
  by_cases hf : w.failed
  · exact .inl ⟨.reopen, by simp, by simp [hf]⟩
  · by_cases hr : w.recovery.isSome
    · exact .inl ⟨.unconfirmed, by simp, by simp [hf, hr]⟩
    · by_cases ho : w.foreign owner
      · exact .inl ⟨.foreign, by simp, by simp [hf, hr, ho]⟩
      · exact .inr ⟨by simpa using hf, by simpa using hr, ho, by simp [hf, hr, ho]⟩

/-- A save is refused without a trace, or it leaves the writer owned and, unless it
succeeded, failed. -/
theorem CheckpointWriter.save_cases (w : CheckpointWriter) (registry : P.Registry)
    (capture : ConfigurationCapture P) (fault : Fault) (files : Files) :
    (∃ e, (∀ failure, e ≠ .store failure) ∧
      w.save registry capture fault files = (files, w, .error e)) ∨
    w.failed = false ∧ w.recovery = none ∧ ¬ w.foreign capture.version.bootId ∧
      ∃ files' j, (∃ failure, w.save registry capture fault files =
          (files', ⟨j, true, some capture.version.bootId, none⟩, .error (.store failure))) ∨
        w.save registry capture fault files =
          (files', ⟨j, false, some capture.version.bootId, none⟩, .ok ()) := by
  unfold CheckpointWriter.save
  rcases w.bind_cases capture.version.bootId with ⟨e, hne, hb⟩ | ⟨hf, hr, ho, hb⟩
  · exact .inl ⟨e, hne, by rw [hb]⟩
  · right
    refine ⟨hf, hr, ho, ?_⟩
    rw [hb]
    dsimp only
    cases hs : saveCheckpoint w.journal registry capture fault files with
    | mk files' rest =>
      obtain ⟨j, result⟩ := rest
      cases result with
      | error e => exact ⟨files', j, .inl ⟨e, by simp [hr]⟩⟩
      | ok u => exact ⟨files', j, .inr (by simp [hr])⟩

/-- Ownership is taken once: a call that is not foreign leaves the owner it finds. -/
theorem CheckpointWriter.owner_kept {owner boot : BootId} (h : ¬ w.foreign owner)
    (ho : w.owner = some boot) : some owner = some boot := by
  rcases CheckpointWriter.not_foreign h with hn | hs
  · rw [hn] at ho
    cases ho
  · rw [← hs, ho]

section
variable {found : Option (Snapshot × Snapshot)} {history : List (Call P × Except Failure Unit)}
  {event : Call P × Except Failure Unit}

/-- What an event must come with for everything to be kept. -/
theorem Kept.extend (h : Kept w found history)
    (howner : ∀ boot, w.owner = some boot → w'.owner = some boot)
    (hfailed : w.failed = true → w'.failed = true)
    (hrecovery : ∀ expected, w'.recovery = some expected → w.recovery = some expected)
    (hpending : w.recovery.isSome → w'.recovery.isSome ∨
      ∃ capture, event = (.confirmRecovery capture, .ok ()))
    (hsave : ∀ registry capture fault, event = (.save registry capture fault, .ok ()) →
      w'.owner = some capture.version.bootId)
    (hconfirm : ∀ capture, event = (.confirmRecovery capture, .ok ()) →
      w'.owner = some capture.version.bootId ∧ ∃ committed expected,
        capture.committed = some committed ∧ w.recovery = some expected ∧
        identity P.blake3 committed.sources capture.observed = .ok expected)
    (hspoil : Spoils event → w'.failed = true) : Kept w' found (history ++ [event]) := by
  refine ⟨?_, ?_, fun expected hr => h.recovery expected (hrecovery expected hr), ?_, ?_⟩
  · intro registry capture fault hm
    rcases List.mem_append.mp hm with hm | hm
    · exact howner _ (h.saved registry capture fault hm)
    · exact hsave registry capture fault (List.mem_singleton.mp hm).symm
  · intro capture hm
    rcases List.mem_append.mp hm with hm | hm
    · obtain ⟨ho, hx⟩ := h.confirmed capture hm
      exact ⟨howner _ ho, hx⟩
    · obtain ⟨ho, committed, expected, hc, hr, hi⟩ :=
        hconfirm capture (List.mem_singleton.mp hm).symm
      obtain ⟨serving, observed, hf, hx⟩ := h.recovery expected hr
      exact ⟨ho, serving, observed, committed, expected, hf, hc, hx, hi⟩
  · intro hf hno
    have hold := h.unconfirmed hf (fun capture hm => hno capture (List.mem_append_left _ hm))
    rcases hpending hold with hp | ⟨capture, rfl⟩
    · exact hp
    · exact absurd (List.mem_append_right _ (List.mem_singleton_self _)) (hno capture)
  · intro e hm hs
    rcases List.mem_append.mp hm with hm | hm
    · exact hfailed (h.spoiled e hm hs)
    · rw [List.mem_singleton.mp hm] at hs
      exact hspoil hs

/-- A call that fails without the journal having been asked. -/
theorem Kept.refused (h : Kept w found history) {call : Call P} {e : Failure}
    (he : ∀ failure, e = .store failure → ∀ registry capture fault,
      call ≠ .save registry capture fault) (hcall : call ≠ .requireReconciliation) :
    Kept w found (history ++ [(call, .error e)]) := by
  refine h.extend (fun _ ho => ho) (fun hf => hf) (fun _ hr => hr) .inl (by simp) (by simp) ?_
  intro hs
  rcases hs with hs | ⟨registry, capture, fault, failure, hs⟩
  · exact absurd hs hcall
  · simp only [Prod.mk.injEq, Except.error.injEq] at hs
    exact absurd hs.1 (he failure hs.2 registry capture fault)

/-- A call that takes the writer for a host, and does nothing else. -/
theorem Kept.owned (h : Kept w found history) {owner : BootId} (hf : ¬ w.foreign owner)
    {call : Call P} (hsave : ∀ registry capture fault, call ≠ .save registry capture fault)
    (hconfirm : ∀ capture, call ≠ .confirmRecovery capture)
    (hcall : call ≠ .requireReconciliation) :
    Kept { w with owner := some owner } found (history ++ [(call, .ok ())]) := by
  refine h.extend (fun _ ho => CheckpointWriter.owner_kept hf ho) (fun hf => hf) (fun _ hr => hr)
    .inl ?_ ?_ ?_
  · intro registry capture fault he
    exact absurd (Prod.mk.inj he).1 (hsave registry capture fault)
  · intro capture he
    exact absurd (Prod.mk.inj he).1 (hconfirm capture)
  · intro hs
    rcases hs with hs | ⟨registry, capture, fault, failure, hs⟩
    · exact absurd hs hcall
    · cases hs

/-- One call keeps it all. -/
theorem Kept.call (h : Kept w found history) (files : Files) (call : Call P) :
    Kept (w.call files call).2.1 found (history ++ [(call, (w.call files call).2.2)]) := by
  have hread : ∀ (call : Call P) result,
      (call = .ensureReady ∨ ∃ serving observed, call = .verifyRecoverySources serving observed) →
      Kept w found (history ++ [(call, result)]) := by
    intro call result hc
    refine h.extend (fun _ ho => ho) (fun hf => hf) (fun _ hr => hr) .inl ?_ ?_ ?_
    · rcases hc with rfl | ⟨_, _, rfl⟩ <;> simp
    · rcases hc with rfl | ⟨_, _, rfl⟩ <;> simp
    · rcases hc with rfl | ⟨_, _, rfl⟩ <;> simp [Spoils]
  cases call with
  | ensureReady => exact hread _ _ (.inl rfl)
  | verifyRecoverySources serving observed => exact hread _ _ (.inr ⟨_, _, rfl⟩)
  | reserveRecovery owner serving observed =>
    simp only [CheckpointWriter.call]
    rcases w.reserve_cases P.blake3 owner serving observed with ⟨e, hr⟩ | ⟨-, hf, hr⟩
    · rw [hr]
      exact h.refused (by simp) (by simp)
    · rw [hr]
      exact h.owned hf (by simp) (by simp) (by simp)
  | bind owner =>
    simp only [CheckpointWriter.call]
    rcases w.bind_cases owner with ⟨e, -, hr⟩ | ⟨-, -, hf, hr⟩
    · rw [hr]
      exact h.refused (by simp) (by simp)
    · rw [hr]
      exact h.owned hf (by simp) (by simp) (by simp)
  | confirmRecovery capture =>
    simp only [CheckpointWriter.call]
    rcases w.confirm_cases capture with ⟨e, hr⟩ | ⟨-, hf, hx, hr⟩
    · rw [hr]
      exact h.refused (by simp) (by simp)
    · rw [hr]
      refine h.extend (fun _ ho => CheckpointWriter.owner_kept hf ho) (fun hf => hf) (by simp)
        (fun _ => .inr ⟨capture, rfl⟩) (by simp) ?_ (by simp [Spoils])
      intro capture' he
      cases he
      exact ⟨rfl, hx⟩
  | save registry capture fault =>
    simp only [CheckpointWriter.call]
    rcases w.save_cases registry capture fault files with
      ⟨e, hne, hr⟩ | ⟨hfailed, hrec, hf, files', j, ⟨failure, hr⟩ | hr⟩
    · rw [hr]
      exact h.refused (fun failure he => absurd he (hne failure)) (by simp)
    · rw [hr]
      exact h.extend (fun _ ho => CheckpointWriter.owner_kept hf ho) (fun _ => rfl) (by simp)
        (by simp [hrec]) (by simp) (by simp) (fun _ => rfl)
    · rw [hr]
      refine h.extend (fun _ ho => CheckpointWriter.owner_kept hf ho) (by simp [hfailed]) (by simp)
        (by simp [hrec]) ?_ (by simp) (by simp [Spoils])
      intro registry' capture' fault' he
      cases he
      rfl
  | requireReconciliation =>
    exact h.extend (fun _ ho => ho) (fun _ => rfl) (fun _ hr => hr) .inl (by simp) (by simp)
      (fun _ => rfl)

end

/-- A fresh writer waits for the recovery of exactly what it found. -/
theorem CheckpointWriter.kept_of_open {name : String} {registry : P.Registry} {fate : Fate}
    {fault : Fault} {files files' : Files} {found : Option (Snapshot × Snapshot)}
    (h : openWriter name registry fate fault files = (files', .ok (w, found))) :
    Kept (P := P) w found [] := by
  have hkept : (w.recovery = none ∧ found = none) ∨ ∃ serving observed expected,
      found = some (serving, observed) ∧ w.recovery = some expected ∧
      identity P.blake3 serving observed = .ok expected := by
    unfold openWriter at h
    split at h
    · cases h
    · dsimp only at h
      split at h
      · cases h
      · split_ifs at h
        · cases h
        · split at h
          · cases h
            exact .inl ⟨rfl, rfl⟩
          · split at h
            · cases h
            · rename_i hi
              cases h
              exact .inr ⟨_, _, _, rfl, rfl, hi⟩
  refine ⟨by simp, by simp, ?_, ?_, by simp⟩
  · intro expected hr
    rcases hkept with ⟨hn, -⟩ | ⟨serving, observed, ids, hf, hw, hi⟩
    · rw [hn] at hr
      cases hr
    · rw [hw] at hr
      cases hr
      exact ⟨serving, observed, hf, hi⟩
  · intro hf _
    rcases hkept with ⟨-, hn⟩ | ⟨serving, observed, ids, -, hw, -⟩
    · simp [hn] at hf
    · simp [hw]

theorem Desk.act_sound {d : Desk P} (hd : d.Sound) (a : Action P) : (d.act a).Sound := by
  cases a with
  | openWriter name registry fate fault =>
    simp only [Desk.act]
    split_ifs
    · exact hd
    · split
      · intro w hw
        cases hw
      · rename_i ho
        intro w hw
        cases hw
        exact CheckpointWriter.kept_of_open ho
  | close =>
    intro w hw
    cases hw
  | outside files => exact hd
  | call call =>
    simp only [Desk.act]
    cases hw : d.writer with
    | none =>
      intro w h
      rw [hw] at h
      cases h
    | some w =>
      intro w' h
      cases h
      exact (hd w hw).call d.files call

theorem Desk.run_sound (files : Files) (actions : List (Action P)) :
    ((Desk.start files : Desk P).run actions).Sound :=
  Run.invariant (I := Desk.Sound) (fun _ a hd => Desk.act_sound hd a) (fun _ hw => by cases hw)
    actions

/-- A failed writer refuses whatever would save, bind or confirm, and stays failed. -/
theorem CheckpointWriter.failed_refuses (hf : w.failed = true) (files : Files) :
    (∀ call : Call P, (w.call files call).2.1.failed = true) ∧
    (∀ (registry : P.Registry) capture fault,
      ∃ e, w.save registry capture fault files = (files, w, .error e)) ∧
    (∀ owner, ∃ e, w.bind owner = (w, .error e)) ∧
    ∀ capture : ConfigurationCapture P, ∃ e, w.confirmRecovery capture = (w, .error e) := by
  have hsave : ∀ (registry : P.Registry) capture fault,
      ∃ e, w.save registry capture fault files = (files, w, .error e) := by
    intro registry capture fault
    rcases w.save_cases registry capture fault files with ⟨e, -, hr⟩ | ⟨hn, -⟩
    · exact ⟨e, hr⟩
    · rw [hf] at hn
      cases hn
  have hbind : ∀ owner, ∃ e, w.bind owner = (w, .error e) := by
    intro owner
    rcases w.bind_cases owner with ⟨e, -, hr⟩ | ⟨hn, -⟩
    · exact ⟨e, hr⟩
    · rw [hf] at hn
      cases hn
  have hconfirm : ∀ capture : ConfigurationCapture P,
      ∃ e, w.confirmRecovery capture = (w, .error e) := by
    intro capture
    rcases w.confirm_cases capture with ⟨e, hr⟩ | ⟨hn, -⟩
    · exact ⟨e, hr⟩
    · rw [hf] at hn
      cases hn
  refine ⟨?_, hsave, hbind, hconfirm⟩
  intro call
  cases call with
  | ensureReady => exact hf
  | verifyRecoverySources serving observed => exact hf
  | reserveRecovery owner serving observed =>
    simp only [CheckpointWriter.call]
    rcases w.reserve_cases P.blake3 owner serving observed with ⟨e, hr⟩ | ⟨-, -, hr⟩
    · rw [hr]
      exact hf
    · rw [hr]
      exact hf
  | confirmRecovery capture =>
    obtain ⟨e, hr⟩ := hconfirm capture
    simp only [CheckpointWriter.call, hr]
    exact hf
  | bind owner =>
    obtain ⟨e, hr⟩ := hbind owner
    simp only [CheckpointWriter.call, hr]
    exact hf
  | save registry capture fault =>
    obtain ⟨e, hr⟩ := hsave registry capture fault
    simp only [CheckpointWriter.call, hr]
    exact hf
  | requireReconciliation => rfl

theorem Desk.run_failed {d : Desk P} (hw : d.writer = some w) (hf : w.failed = true)
    {later : List (Action P)} (hl : ∀ a ∈ later, a ≠ .close) :
    ∃ w', (d.run later).writer = some w' ∧ w'.failed = true := by
  refine Run.invariant_of_forall
    (I := fun d : Desk P => ∃ w', d.writer = some w' ∧ w'.failed = true)
    (A := fun a => a ≠ .close) ?_ ⟨w, hw, hf⟩ hl
  intro d a ha hd
  obtain ⟨w, hw, hf⟩ := hd
  cases a with
  | openWriter name registry fate fault => exact ⟨w, by simp [Desk.act, hw], hf⟩
  | close => exact absurd rfl ha
  | outside files => exact ⟨w, hw, hf⟩
  | call call =>
    refine ⟨(w.call d.files call).2.1, ?_, (CheckpointWriter.failed_refuses hf d.files).1 call⟩
    simp [Desk.act, hw]

/-- A call for another host lifetime than the owner's changes nothing. -/
theorem CheckpointWriter.foreign_refused {owner boot : BootId} (ho : w.owner = some owner)
    (hne : boot ≠ owner) (files : Files) {call : Call P} (hb : call.boot = some boot) :
    ∃ e, w.call files call = (files, w, .error e) := by
  have hf : w.foreign boot := by
    simp [CheckpointWriter.foreign, ho, hne.symm]
  cases call with
  | reserveRecovery b serving observed =>
    cases hb
    rcases w.reserve_cases P.blake3 boot serving observed with ⟨e, hr⟩ | ⟨-, hn, -⟩
    · exact ⟨e, by simp [CheckpointWriter.call, hr]⟩
    · exact absurd hf hn
  | confirmRecovery capture =>
    cases hb
    rcases w.confirm_cases capture with ⟨e, hr⟩ | ⟨-, hn, -⟩
    · exact ⟨e, by simp [CheckpointWriter.call, hr]⟩
    · exact absurd hf hn
  | bind b =>
    cases hb
    rcases w.bind_cases boot with ⟨e, -, hr⟩ | ⟨-, -, hn, -⟩
    · exact ⟨e, by simp [CheckpointWriter.call, hr]⟩
    · exact absurd hf hn
  | save registry capture fault =>
    cases hb
    rcases w.save_cases registry capture fault files with ⟨e, -, hr⟩ | ⟨-, -, hn, -⟩
    · exact ⟨e, by simp [CheckpointWriter.call, hr]⟩
    · exact absurd hf hn
  | ensureReady => cases hb
  | verifyRecoverySources serving observed => cases hb
  | requireReconciliation => cases hb

/-- The writer is a safe capability for any number of hosts. All its saves are of one
lifetime; one that found a checkpoint saves nothing until its owner confirmed a recovery
of exactly that checkpoint; once a save the journal was asked for failed, or the host gave
up, nothing is saved, bound or confirmed; and a foreign call changes nothing. -/
theorem Desk.writer_safe (files : Files) (actions : List (Action P)) :
    let d := (Desk.start files : Desk P).run actions
    ∀ w, d.writer = some w →
      (∀ registry capture fault registry' capture' fault',
        (.save registry capture fault, .ok ()) ∈ d.history →
        (.save registry' capture' fault', .ok ()) ∈ d.history →
        capture.version.bootId = capture'.version.bootId) ∧
      (∀ serving observed, d.found = some (serving, observed) →
        (∀ capture, (.confirmRecovery capture, .ok ()) ∈ d.history →
          w.owner = some capture.version.bootId ∧ ∃ committed expected,
            capture.committed = some committed ∧
            identity P.blake3 serving observed = .ok expected ∧
            identity P.blake3 committed.sources capture.observed = .ok expected) ∧
        ((∀ capture, (.confirmRecovery capture, .ok ()) ∉ d.history) →
          ∀ (registry : P.Registry) capture fault,
            ∃ e, w.save registry capture fault d.files = (d.files, w, .error e))) ∧
      ((∃ event ∈ d.history, Spoils event) → ∀ later, (∀ a ∈ later, a ≠ .close) →
        ∃ w', (d.run later).writer = some w' ∧
          (∀ (registry : P.Registry) capture fault, ∃ e,
            w'.save registry capture fault (d.run later).files =
              ((d.run later).files, w', .error e)) ∧
          (∀ owner, ∃ e, w'.bind owner = (w', .error e)) ∧
          ∀ capture : ConfigurationCapture P, ∃ e, w'.confirmRecovery capture = (w', .error e)) ∧
      ∀ (call : Call P) boot owner, call.boot = some boot → w.owner = some owner → boot ≠ owner →
        ∃ e, w.call d.files call = (d.files, w, .error e) := by
  intro d w hw
  have hk : Kept w d.found d.history := Desk.run_sound files actions w hw
  refine ⟨?_, ?_, ?_, ?_⟩
  · intro registry capture fault registry' capture' fault' hs hs'
    have ho := hk.saved registry capture fault hs
    rw [hk.saved registry' capture' fault' hs'] at ho
    exact (Option.some.inj ho).symm
  · intro serving observed hf
    constructor
    · intro capture hc
      obtain ⟨ho, serving', observed', committed, expected, hf', hcap, hi, hi'⟩ :=
        hk.confirmed capture hc
      cases Option.some.inj (hf.symm.trans hf')
      exact ⟨ho, committed, expected, hcap, hi, hi'⟩
    · intro hno registry capture fault
      have hr := hk.unconfirmed (by simp [hf]) hno
      rcases w.save_cases registry capture fault d.files with ⟨e, -, hs⟩ | ⟨-, hn, -⟩
      · exact ⟨e, hs⟩
      · simp [hn] at hr
  · intro hs later hl
    obtain ⟨event, hm, hsp⟩ := hs
    obtain ⟨w', hw', hf'⟩ := Desk.run_failed hw (hk.spoiled event hm hsp) hl
    obtain ⟨-, hsave, hbind, hconfirm⟩ :=
      @CheckpointWriter.failed_refuses P w' hf' (d.run later).files
    exact ⟨w', hw', hsave, hbind, hconfirm⟩
  · intro call boot owner hb ho hne
    exact CheckpointWriter.foreign_refused ho hne d.files hb

end

end

end Gatel.AdminCheckpoint

namespace Gatel.Sample
open AdminCheckpoint

def otherBoot : BootId := ⟨List.replicate 32 1, by decide⟩

/-- A capture by a host that does not own the writer. -/
def foreignCapture : ConfigurationCapture checkpointPipeline :=
  { capture with version := { capture.version with bootId := otherBoot } }

/-- A save refused to a foreign host fails, and the owner goes on. -/
theorem refused_save_does_not_latch :
    let d := (Desk.start ⟨[], none⟩ : Desk checkpointPipeline).run
      [.openWriter "main" () .done .none, .call (.bind boot),
        .call (.save () foreignCapture .none), .call (.bind boot)]
    d.history.map Prod.snd = [.ok (), .error .foreign, .ok ()] := by
  decide +kernel

end Gatel.Sample
