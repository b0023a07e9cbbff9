import Gatel.Codec.SnapshotExact
import Gatel.Generation.Capture
import Gatel.Journal.Transaction

namespace Gatel.AdminCheckpoint
open LittleEndian (bytes value)
open AdminJournal (Recovered bindingRecord checksum recoverEach)

def magic : List UInt8 := utf8 "GATELC02"
def header : Nat := 40
/-- Instance, build, plan, publication, sequence, prefix length, prefix hash. -/
def metaBytes : Nat := 32 * 5 + 8 * 2
def lengthBytes : Nat := 8
def maxBytes : Nat := header + metaBytes + lengthBytes + 2 * SnapshotCodec.maxBytes

inductive Error where
  | invalid
  | journal (failure : AdminJournal.Failure)
  deriving DecidableEq, Repr

def Error.message : Error → String
  | .invalid => "invalid or incompatible configuration checkpoint"
  | .journal failure => failure.message

structure Metadata where
  instanceId : Fingerprint
  build : Fingerprint
  plan : Fingerprint
  /-- Of the boot and generation it was taken from, never of a new boot. -/
  publication : Fingerprint
  journalSequence : U64
  journalBytes : U64
  journalPrefix : Fingerprint
  deriving DecidableEq

/-- A decoded checkpoint: what was serving, and the latest intent beside it. -/
structure Checkpoint where
  metadata : Metadata
  sources : Snapshot
  observed : Snapshot

/-- The latest intent has no decision yet. -/
def pending (s : AdminJournal.State) : Bool := s.latest.isSome && s.decision.isNone

/-- The writes behind a publication's identity. -/
def publication (boot : BootId) (generation : Generation) : Hasher :=
  ((Hasher.new.updateStr "gatel.checkpoint.publication.v1").updateFingerprint boot).updateU64
    generation

section
variable (blake3 : Digest)

/-- Any failure of the callee is reported as an invalid checkpoint. -/
def orInvalid {ε α : Type} : Except ε α → Except Error α
  | .error _ => .error .invalid
  | .ok a => .ok a

def refuse (c : Prop) [Decidable c] : Except Error Unit := if c then .error .invalid else .ok ()

def binding (name : String) : Except Error String :=
  match bindingRecord blake3 name with
  | .error e => .error (.journal e)
  | .ok record => .ok record

/-- The visitor of `log_state`. Unlike the journal's own it lets `accept` deal with a
second binding. -/
def visit (expected : String) (state : AdminJournal.State) (sequence : U64) (payload : String) :
    Except AdminJournal.Error AdminJournal.State :=
  if sequence = 1 then
    if payload ≠ expected then .error .invalidBinding else .ok state
  else state.accept sequence payload

/-- Every complete transaction of the log, checked. -/
def logState (log : List UInt8) (name : String) : Except Error (Recovered × AdminJournal.State) := do
  let expected ← binding blake3 name
  let (recovered, state) ← orInvalid (recoverEach blake3 (visit expected) log 0 .default)
  refuse (recovered.sequence = 0)
  return (recovered, state)

def instanceHash (record : String) : Fingerprint :=
  checksum blake3 "gatel.checkpoint.instance.v1" (utf8 record)

def prefixHash (log : List UInt8) : Fingerprint :=
  checksum blake3 "gatel.checkpoint.journal-prefix.v1" log

def envelopeHash (body : List UInt8) : Fingerprint :=
  checksum blake3 "gatel.checkpoint.envelope.v2" body

end

/-- The bytes of the metadata, in file order. -/
def Metadata.write (m : Metadata) : List UInt8 :=
  m.instanceId.bytes ++ (m.build.bytes ++ (m.plan.bytes ++ (m.publication.bytes ++
    (bytes 8 m.journalSequence.val ++ (bytes 8 m.journalBytes.val ++ m.journalPrefix.bytes)))))

def bodyOf (m : Metadata) (sources observed : List UInt8) : List UInt8 :=
  m.write ++ (bytes 8 sources.length ++ (sources ++ observed))

/-- The whole file around two encoded snapshots. -/
@[grind =] def envelope (blake3 : Digest) (m : Metadata) (sources observed : List UInt8) : List UInt8 :=
  magic ++ ((envelopeHash blake3 (bodyOf m sources observed)).bytes ++ bodyOf m sources observed)

/-- The bytes `start..stop` of a slice known to be long enough. -/
def cut (body : List UInt8) (start stop : Nat) : List UInt8 := (body.take stop).drop start

def hashAt (body : List UInt8) (start : Nat) : Fingerprint :=
  (Fingerprint.fromBytes? (cut body start (start + 32))).getD .zero

def numberAt (body : List UInt8) (start : Nat) : U64 := Fin.ofNat _ (value (cut body start (start + 8)))

def Metadata.read (body : List UInt8) : Metadata :=
  ⟨hashAt body 0, hashAt body 32, hashAt body 64, hashAt body 96, numberAt body 128,
    numberAt body 136, hashAt body 144⟩

section
variable {P : Pipeline}

def planMatches (sources : Snapshot) (registry : P.Registry) (expected : Fingerprint) :
    Except Error Unit := do
  let spec ← orInvalid (P.normalize sources registry)
  refuse (P.planHash (P.compile spec registry) ≠ expected)

/-- Published contributions cannot disappear from the intent or move back in it. The
intent itself is not normalized: a rejected configuration is valid evidence. -/
def sourceHistory (sources observed : Snapshot) : Except Error Unit :=
  orInvalid (sources.validateSuccessor observed)

/-- Capture at a fully decided log boundary. -/
def encode (name : String) (registry : P.Registry) (log : List UInt8)
    (capture : ConfigurationCapture P) : Except Error (List UInt8) := do
  let some committed := capture.committed | throw .invalid
  let (recovered, state) ← logState P.blake3 log name
  refuse (recovered.incompleteTail ∨ pending state)
  planMatches committed.sources registry (P.planHash committed.plan)
  let sources ← orInvalid (SnapshotCodec.encode P.blake3 committed.sources)
  let observed ← orInvalid (SnapshotCodec.encode P.blake3 capture.observed)
  sourceHistory committed.sources capture.observed
  let record ← binding P.blake3 name
  let metadata : Metadata :=
    ⟨instanceHash P.blake3 record, P.buildHash registry, P.planHash committed.plan,
      (publication committed.bootId committed.number).finish P.blake3, recovered.sequence,
      Fin.ofNat _ log.length, prefixHash P.blake3 log⟩
  return envelope P.blake3 metadata sources observed

/-- Check instance, build, the whole log, the exact prefix and recompilation before any
source is shown. -/
def decode (input : List UInt8) (name : String) (registry : P.Registry) (log : List UInt8) :
    Except Error Checkpoint := do
  refuse (input.length > maxBytes ∨ input.length < header + metaBytes + lengthBytes ∨
    input.take 8 ≠ magic ∨
    (envelopeHash P.blake3 (input.drop header)).bytes ≠ cut input 8 header)
  let body := input.drop header
  let metadata := Metadata.read body
  let record ← binding P.blake3 name
  refuse (metadata.instanceId ≠ instanceHash P.blake3 record ∨
    metadata.build ≠ P.buildHash registry)
  -- the entire log, not only a valid older prefix of it
  let _ ← logState P.blake3 log name
  refuse (log.length < metadata.journalBytes.val)
  let start := log.take metadata.journalBytes.val
  refuse (prefixHash P.blake3 start ≠ metadata.journalPrefix)
  let (recovered, state) ← logState P.blake3 start name
  refuse (recovered.incompleteTail ∨ recovered.sequence ≠ metadata.journalSequence ∨ pending state)
  let sourceLength := (numberAt body metaBytes).val
  let rest := body.drop (metaBytes + lengthBytes)
  refuse (rest.length < sourceLength)
  let sources ← orInvalid (SnapshotCodec.decode P.blake3 (rest.take sourceLength))
  let observed ← orInvalid (SnapshotCodec.decode P.blake3 (rest.drop sourceLength))
  sourceHistory sources observed
  planMatches sources registry metadata.plan
  return ⟨metadata, sources, observed⟩

end

section
variable {P : Pipeline} {name : String} {registry : P.Registry} {log : List UInt8}
  {capture : ConfigurationCapture P}

theorem except_bind_ok {ε α β : Type} {x : Except ε α} {f : α → Except ε β} {b : β} :
    (x >>= f) = .ok b ↔ ∃ a, x = .ok a ∧ f a = .ok b := by
  cases x <;> simp [bind, Except.bind]

theorem refuse_ok {c : Prop} [Decidable c] {u : Unit} : refuse c = .ok u ↔ ¬ c := by
  unfold refuse
  split <;> grind

theorem orInvalid_ok {ε α : Type} {x : Except ε α} {a : α} : orInvalid x = .ok a ↔ x = .ok a := by
  cases x <;> simp [orInvalid]

/-- Everything a successful encoding checks, and what it writes. -/
theorem encode_ok {output : List UInt8} :
    encode name registry log capture = .ok output ↔
      ∃ committed recovered state sources observed record,
        capture.committed = some committed ∧
        logState P.blake3 log name = .ok (recovered, state) ∧
        recovered.incompleteTail = false ∧ pending state = false ∧
        planMatches committed.sources registry (P.planHash committed.plan) = .ok () ∧
        SnapshotCodec.encode P.blake3 committed.sources = .ok sources ∧
        SnapshotCodec.encode P.blake3 capture.observed = .ok observed ∧
        sourceHistory committed.sources capture.observed = .ok () ∧
        binding P.blake3 name = .ok record ∧
        output = envelope P.blake3 ⟨instanceHash P.blake3 record, P.buildHash registry,
          P.planHash committed.plan,
          (publication committed.bootId committed.number).finish P.blake3, recovered.sequence,
          Fin.ofNat _ log.length, prefixHash P.blake3 log⟩ sources observed := by
  unfold encode
  cases capture.committed with
  | none => simp [throw, throwThe, MonadExceptOf.throw]
  | some committed =>
    simp only [except_bind_ok, refuse_ok, orInvalid_ok, not_or, Bool.not_eq_true,
      Option.some.injEq]
    constructor
    · intro h
      obtain ⟨⟨recovered, state⟩, hlog, _, ⟨ht, hp⟩, _, hplan, sources, hs, observed, ho, _, hh,
        record, hb, hout⟩ := h
      exact ⟨committed, recovered, state, sources, observed, record, rfl, hlog, ht, hp, hplan, hs,
        ho, hh, hb, (Except.ok.inj hout).symm⟩
    · intro h
      obtain ⟨_, recovered, state, sources, observed, record, rfl, hlog, ht, hp, hplan, hs, ho,
        hh, hb, hout⟩ := h
      exact ⟨(recovered, state), hlog, (), ⟨ht, hp⟩, (), hplan, sources, hs, observed, ho, (), hh,
        record, hb, by rw [hout]; rfl⟩

theorem logState_small {blake3 : Digest} {r : Recovered × AdminJournal.State}
    (h : logState blake3 log name = .ok r) : log.length ≤ AdminJournal.maxLog := by
  unfold logState at h
  simp only [except_bind_ok, orInvalid_ok] at h
  obtain ⟨expected, -, p, hr, -⟩ := h
  by_contra hc
  rw [recoverEach, if_pos (not_le.mp hc)] at hr
  cases hr

theorem binding_of_logState {blake3 : Digest} {r : Recovered × AdminJournal.State}
    (h : logState blake3 log name = .ok r) : ∃ record, binding blake3 name = .ok record := by
  unfold logState at h
  simp only [except_bind_ok] at h
  obtain ⟨expected, hb, -⟩ := h
  exact ⟨expected, hb⟩

theorem length_encode_snapshot {blake3 : Digest} {s : Snapshot} {b : List UInt8}
    (h : SnapshotCodec.encode blake3 s = .ok b) : b.length ≤ SnapshotCodec.maxBytes := by
  obtain ⟨body, budget, -, hl, rfl⟩ := SnapshotCodec.encode_ok.mp h
  have hm : SnapshotCodec.magic.length = 8 := by decide
  have hh : SnapshotCodec.header = 40 := rfl
  simp only [List.length_append, hm, Fingerprint.length_bytes]
  omega

theorem decode_of_encode {blake3 : Digest} {s : Snapshot} {b : List UInt8}
    (h : SnapshotCodec.encode blake3 s = .ok b) : SnapshotCodec.decode blake3 b = .ok s :=
  SnapshotCodec.decode_ok.mpr (SnapshotCodec.encode_ok.mp h)

end

section
variable {a rest : List UInt8} {k : Nat} (ha : a.length = k)

include ha

/-- Reading behind a first piece. -/
theorem cut_skip (i j : Nat) : cut (a ++ rest) (k + i) (k + j) = cut rest i j := by
  subst ha
  rw [cut, cut, List.take_length_add_append, List.drop_length_add_append]

theorem cut_head : cut (a ++ rest) 0 k = a := by
  subst ha
  rw [cut, List.take_left, List.drop_zero]

theorem hashAt_skip (i : Nat) : hashAt (a ++ rest) (k + i) = hashAt rest i := by
  rw [hashAt, Nat.add_assoc, cut_skip ha, hashAt]

theorem numberAt_skip (i : Nat) : numberAt (a ++ rest) (k + i) = numberAt rest i := by
  rw [numberAt, Nat.add_assoc, cut_skip ha, numberAt]

end

theorem hashAt_head (f : Fingerprint) (rest : List UInt8) : hashAt (f.bytes ++ rest) 0 = f := by
  have hc : cut (f.bytes ++ rest) 0 (0 + 32) = f.bytes := cut_head f.length_bytes
  rw [hashAt, hc, Fingerprint.fromBytes?, dif_pos f.length_bytes]
  rfl

theorem numberAt_head (n : U64) (rest : List UInt8) : numberAt (bytes 8 n.val ++ rest) 0 = n := by
  have hc : cut (bytes 8 n.val ++ rest) 0 (0 + 8) = bytes 8 n.val :=
    cut_head (LittleEndian.length_bytes 8 n.val)
  rw [numberAt, hc]
  exact AdminJournal.number_of_bytes n

theorem Metadata.length_write (m : Metadata) : m.write.length = metaBytes := by
  simp [Metadata.write, Fingerprint.length_bytes, metaBytes]

/-- The metadata reads back as written. -/
theorem Metadata.read_write (m : Metadata) (rest : List UInt8) :
    Metadata.read (m.write ++ rest) = m := by
  have hash : ∀ (f : Fingerprint) (tail : List UInt8) (i : Nat),
      hashAt (f.bytes ++ tail) (32 + i) = hashAt tail i := fun f _ i => hashAt_skip f.length_bytes i
  have number : ∀ (f : Fingerprint) (tail : List UInt8) (i : Nat),
      numberAt (f.bytes ++ tail) (32 + i) = numberAt tail i :=
    fun f _ i => numberAt_skip f.length_bytes i
  have hlen : ∀ n : U64, (bytes 8 n.val).length = 8 := fun n => LittleEndian.length_bytes 8 n.val
  simp only [Metadata.read, Metadata.write, List.append_assoc, hashAt_head]
  rw [hash _ _ 0, hash _ _ 32, hash _ _ 0, hash _ _ 64, hash _ _ 32, hash _ _ 0, hash _ _ 112,
    hash _ _ 80, hash _ _ 48, hash _ _ 16, number _ _ 96, number _ _ 64, number _ _ 32,
    number _ _ 0, number _ _ 104, number _ _ 72, number _ _ 40, number _ _ 8,
    numberAt_skip (hlen _) 0, hashAt_skip (hlen _) 8, hashAt_skip (hlen _) 0]
  simp only [hashAt_head, numberAt_head]

section
variable {blake3 : Digest} {m : Metadata} {sources observed : List UInt8}

theorem length_magic : magic.length = 8 := by decide

theorem length_bodyOf : (bodyOf m sources observed).length =
    metaBytes + lengthBytes + sources.length + observed.length := by
  simp only [bodyOf, List.length_append, m.length_write, LittleEndian.length_bytes, lengthBytes]
  omega

theorem length_envelope : (envelope blake3 m sources observed).length =
    header + metaBytes + lengthBytes + sources.length + observed.length := by
  simp only [envelope, List.length_append, length_magic, Fingerprint.length_bytes, length_bodyOf,
    header]
  omega

theorem drop_envelope : (envelope blake3 m sources observed).drop header =
    bodyOf m sources observed := by
  have hl : (magic ++ (envelopeHash blake3 (bodyOf m sources observed)).bytes).length = header := by
    rw [List.length_append, length_magic, Fingerprint.length_bytes]
    rfl
  rw [envelope, ← List.append_assoc, ← hl, List.drop_left]

/-- The first check of a reader passes for every envelope that is not too long. -/
theorem envelope_sound (hs : sources.length ≤ SnapshotCodec.maxBytes)
    (ho : observed.length ≤ SnapshotCodec.maxBytes) :
    ¬ ((envelope blake3 m sources observed).length > maxBytes ∨
      (envelope blake3 m sources observed).length < header + metaBytes + lengthBytes ∨
      (envelope blake3 m sources observed).take 8 ≠ magic ∨
      (envelopeHash blake3 ((envelope blake3 m sources observed).drop header)).bytes ≠
        cut (envelope blake3 m sources observed) 8 header) := by
  simp only [not_or, not_lt, ne_eq, not_not]
  refine ⟨?_, ?_, ?_, ?_⟩
  · rw [length_envelope, maxBytes]
    omega
  · rw [length_envelope]
    omega
  · rw [envelope, ← length_magic, List.take_left]
  · rw [drop_envelope, envelope]
    refine Eq.symm (AdminJournal.slice length_magic ?_)
    rw [Fingerprint.length_bytes]
    rfl

theorem metadata_bodyOf : Metadata.read (bodyOf m sources observed) = m := m.read_write _

/-- The stored length splits the two snapshots again. -/
theorem split_bodyOf (hs : sources.length < 2 ^ 64) :
    (numberAt (bodyOf m sources observed) metaBytes).val = sources.length ∧
    (bodyOf m sources observed).drop (metaBytes + lengthBytes) = sources ++ observed := by
  constructor
  · have hn : (Fin.ofNat (2 ^ 64) sources.length).val = sources.length := Nat.mod_eq_of_lt hs
    have hread := numberAt_head (Fin.ofNat _ sources.length) (sources ++ observed)
    rw [hn] at hread
    have hskip : numberAt (bodyOf m sources observed) (metaBytes + 0) =
        numberAt (bytes 8 sources.length ++ (sources ++ observed)) 0 :=
      numberAt_skip m.length_write 0
    rw [Nat.add_zero] at hskip
    rw [hskip, hread, hn]
  · have hl : (m.write ++ bytes 8 sources.length).length = metaBytes + lengthBytes := by
      rw [List.length_append, m.length_write, LittleEndian.length_bytes]
      rfl
    rw [bodyOf, ← List.append_assoc, ← hl, List.drop_left]

end

/-- A checkpoint survives the growth of its journal: whatever follows the log it was taken
at, as long as the whole still passes the log check, it decodes to what was captured. -/
theorem decode_grown_log {P : Pipeline} (name : String) (registry : P.Registry)
    (log suffix : List UInt8) (capture : ConfigurationCapture P) (output : List UInt8)
    (grown : Recovered × AdminJournal.State)
    (he : encode name registry log capture = .ok output)
    (hg : logState P.blake3 (log ++ suffix) name = .ok grown) :
    ∃ committed recovered state checkpoint,
      capture.committed = some committed ∧
      logState P.blake3 log name = .ok (recovered, state) ∧
      decode output name registry (log ++ suffix) = .ok checkpoint ∧
      checkpoint.sources = committed.sources ∧
      checkpoint.observed = capture.observed ∧
      checkpoint.metadata.plan = P.planHash committed.plan ∧
      checkpoint.metadata.journalSequence = recovered.sequence ∧
      checkpoint.metadata.journalBytes.val = log.length := by
  obtain ⟨committed, recovered, state, sources, observed, record, hc, hlog, ht, hp, hplan, hs, ho,
    hh, hb, rfl⟩ := encode_ok.1 he
  have hsmall := logState_small hlog
  have hlen : (Fin.ofNat (2 ^ 64) log.length).val = log.length := by
    apply Nat.mod_eq_of_lt
    exact lt_of_le_of_lt hsmall (by decide)
  have hsl := length_encode_snapshot hs
  have hol := length_encode_snapshot ho
  have hsplit : sources.length < 2 ^ 64 := lt_of_le_of_lt hsl (by decide)
  generalize hm : (⟨instanceHash P.blake3 record, P.buildHash registry, P.planHash committed.plan,
    (publication committed.bootId committed.number).finish P.blake3, recovered.sequence,
    Fin.ofNat _ log.length, prefixHash P.blake3 log⟩ : Metadata) = m
  have hbytes : m.journalBytes.val = log.length := by rw [← hm, hlen]
  refine ⟨committed, recovered, state, ⟨m, committed.sources, capture.observed⟩, hc, hlog, ?_, rfl,
    rfl, by rw [← hm], by rw [← hm], hbytes⟩
  obtain ⟨hnum, hrest⟩ := @split_bodyOf m sources observed hsplit
  have hprefix : (log ++ suffix).take m.journalBytes.val = log := by
    rw [hbytes, List.take_left]
  unfold decode
  simp only [except_bind_ok, refuse_ok, orInvalid_ok, drop_envelope, metadata_bodyOf, hnum, hrest,
    hprefix, List.take_left, List.drop_left]
  have hfirst := @envelope_sound P.blake3 m sources observed hsl hol
  rw [drop_envelope] at hfirst
  refine ⟨(), hfirst, record, hb, (), ?_, grown, hg, (), ?_, (), ?_, (recovered, state), hlog, (),
    ?_, (), ?_, committed.sources, decode_of_encode hs, capture.observed, decode_of_encode ho, (),
    hh, (), ?_, rfl⟩
  · rw [← hm]
    simp
  · rw [hbytes, List.length_append]
    omega
  · rw [← hm]
    simp
  · rw [← hm]
    simp [ht, hp]
  · rw [List.length_append]
    omega
  · rw [← hm]
    exact hplan

end Gatel.AdminCheckpoint

namespace Gatel

/-- A configuration capture is always checkpointable history: in every reachable store
what serves precedes what is intended, and an encoding fails for other reasons only. -/
theorem World.capture_checkpointable {P : Pipeline} {c : StoreConfig} (boot : BootId)
    (actions : List (Action P c)) (h : Honest actions) (committed : Committed P)
    (hc : ((World.start boot : World P c).run actions).state.captureConfiguration.committed =
      some committed) :
    let capture := ((World.start boot : World P c).run actions).state.captureConfiguration
    committed.sources.validateSuccessor capture.observed = .ok () ∧
    ∀ name registry log,
      (∃ output, AdminCheckpoint.encode name registry log capture = .ok output) ↔
      ∃ recovered state sources observed,
        AdminCheckpoint.logState P.blake3 log name = .ok (recovered, state) ∧
        recovered.incompleteTail = false ∧ AdminCheckpoint.pending state = false ∧
        AdminCheckpoint.planMatches committed.sources registry (P.planHash committed.plan) = .ok () ∧
        SnapshotCodec.encode P.blake3 committed.sources = .ok sources ∧
        SnapshotCodec.encode P.blake3 capture.observed = .ok observed := by
  intro capture
  have hv : committed.sources.validateSuccessor capture.observed = .ok () :=
    Snapshot.validateSuccessor_ok.mpr (World.capture_successor boot h hc)
  refine ⟨hv, ?_⟩
  intro name registry log
  constructor
  · intro he
    obtain ⟨output, he⟩ := he
    obtain ⟨committed', recovered, state, sources, observed, record, hc', hlog, ht, hp, hplan, hs,
      ho, -, -, -⟩ := AdminCheckpoint.encode_ok.mp he
    cases Option.some.inj (hc.symm.trans hc')
    exact ⟨recovered, state, sources, observed, hlog, ht, hp, hplan, hs, ho⟩
  · intro hx
    obtain ⟨recovered, state, sources, observed, hlog, ht, hp, hplan, hs, ho⟩ := hx
    obtain ⟨record, hb⟩ := AdminCheckpoint.binding_of_logState hlog
    exact ⟨_, AdminCheckpoint.encode_ok.mpr ⟨committed, recovered, state, sources, observed, record,
      hc, hlog, ht, hp, hplan, hs, ho, AdminCheckpoint.orInvalid_ok.mpr hv, hb, rfl⟩⟩

namespace Sample

/-- The digest of the one input of each domain that the sample hashes. -/
def checkpointDigests : List (String × List UInt8) :=
  [("gatel.admin-journal.instance.v1",
      [28, 202, 88, 209, 1, 202, 68, 33, 130, 49, 141, 76, 53, 51, 103, 134, 32, 189, 241, 127,
      129, 106, 210, 133, 144, 89, 215, 1, 162, 229, 95, 108]),
    ("gatel.admin-intent.payload.v1",
      [255, 189, 30, 18, 208, 248, 144, 147, 20, 114, 152, 167, 235, 137, 57, 10, 120, 21, 137,
      50, 12, 112, 13, 165, 106, 173, 207, 5, 185, 53, 245, 79]),
    ("gatel.admin-intent.header.v1",
      [141, 0, 195, 157, 177, 76, 165, 219, 253, 149, 103, 85, 134, 112, 229, 5, 136, 225, 14,
      104, 127, 34, 111, 29, 190, 160, 244, 132, 104, 93, 253, 168]),
    ("gatel.snapshot.codec.v1",
      [168, 218, 18, 71, 65, 229, 61, 198, 255, 7, 28, 118, 246, 55, 133, 88, 123, 238, 53, 119,
      108, 64, 104, 68, 33, 33, 214, 1, 18, 102, 26, 16]),
    ("gatel.checkpoint.instance.v1",
      [108, 146, 210, 23, 70, 1, 255, 131, 224, 48, 25, 59, 50, 173, 18, 103, 54, 253, 197, 52,
      49, 3, 3, 112, 50, 180, 44, 57, 41, 2, 179, 149]),
    ("gatel.checkpoint.publication.v1",
      [3, 99, 136, 8, 133, 118, 145, 205, 159, 211, 167, 155, 58, 157, 185, 141, 162, 66, 134,
      173, 31, 95, 221, 67, 238, 85, 252, 226, 111, 14, 216, 25]),
    ("gatel.checkpoint.journal-prefix.v1",
      [138, 124, 19, 22, 21, 180, 70, 47, 109, 163, 219, 161, 167, 101, 117, 19, 20, 21, 188, 228,
      173, 146, 100, 189, 114, 254, 54, 102, 191, 205, 168, 128]),
    ("gatel.checkpoint.envelope.v2",
      [95, 228, 143, 90, 204, 9, 112, 192, 165, 231, 13, 76, 217, 100, 128, 219, 82, 191, 17, 66,
      179, 141, 127, 132, 71, 191, 120, 163, 227, 167, 5, 149]),
    ("gatel.checkpoint.recovery-sources.v1",
      [175, 214, 95, 229, 83, 80, 171, 185, 238, 51, 71, 75, 163, 193, 254, 94, 140, 67, 107, 64,
      6, 97, 174, 206, 81, 231, 50, 98, 107, 118, 242, 28])]

def checkpointBlake3 (input : List UInt8) : Fingerprint :=
  match checkpointDigests.find? (fun d => (Hasher.new.updateStr d.1).written.isPrefixOf input) with
  | some d => (Fingerprint.fromBytes? d.2).getD .zero
  | none => .zero

def checkpointPipeline : Pipeline := { pipeline with blake3 := checkpointBlake3 }

def fileSnapshot : Snapshot := Snapshot.empty.insert file

/-- The capture of a store that serves its one file source. -/
def capture : ConfigurationCapture checkpointPipeline :=
  ⟨versionAt 1 fileSnapshot.revs, some ⟨1, boot, (), (), fileSnapshot.revs, fileSnapshot⟩,
    fileSnapshot, false⟩

/-- The log of an instance that has nothing but its binding. -/
def boundLog : List UInt8 :=
  match AdminJournal.bindingRecord checkpointBlake3 "main" with
  | .error _ => []
  | .ok record => AdminJournal.frame checkpointBlake3 1 record

def savedCheckpoint : List UInt8 :=
  (AdminCheckpoint.encode "main" () boundLog capture).toOption.getD []

theorem checkpoint_decodes_over_torn_tail :
    ∃ checkpoint, AdminCheckpoint.decode (P := checkpointPipeline) savedCheckpoint "main" ()
        (boundLog ++ AdminJournal.magic) = .ok checkpoint ∧
      checkpoint.sources = fileSnapshot ∧ checkpoint.metadata.journalBytes.val = 164 := by
  have he : AdminCheckpoint.encode "main" () boundLog capture = .ok savedCheckpoint := by
    decide +kernel
  obtain ⟨grown, hg⟩ : ∃ grown, AdminCheckpoint.logState checkpointBlake3
      (boundLog ++ AdminJournal.magic) "main" = .ok grown :=
    ⟨(⟨1, (AdminJournal.bindingRecord checkpointBlake3 "main").toOption, 164, true⟩, .default),
      by decide +kernel⟩
  obtain ⟨committed, recovered, state, checkpoint, hc, -, hd, hs, -, -, -, hl⟩ :=
    AdminCheckpoint.decode_grown_log (P := checkpointPipeline) "main" () boundLog
      AdminJournal.magic capture savedCheckpoint grown he hg
  cases hc
  exact ⟨checkpoint, hd, hs, by rw [hl]; decide +kernel⟩

theorem honest_taggedWrite : Honest taggedWrite := by
  have hcall : ∀ call, .call call ∈ taggedWrite → call = .attemptIfEtag
      ((versionAt 0 ∅).etag blake3) fileSnapshot () := by
    intro call hm
    simp only [taggedWrite, List.mem_cons, List.mem_replicate, reduceCtorEq, and_false,
      or_false, Action.call.injEq] at hm
    exact hm
  have hsources : fileSnapshot.sources = [file] := by decide
  constructor
  · intro call hm x hx
    rw [hcall call hm] at hx
    simp only [Call.submitted, hsources, List.mem_singleton] at hx
    rw [hx]
    decide
  · intro call call' hm hm' x hx y hy _ _
    rw [hcall call hm] at hx
    rw [hcall call' hm'] at hy
    simp only [Call.trees, Call.submitted, hsources, List.map_cons, List.map_nil,
      List.mem_singleton] at hx hy
    rw [hx, hy]

theorem tagged_write_checkpointable :
    ∃ committed, ((World.start boot).run taggedWrite).state.captureConfiguration.committed =
        some committed ∧
      committed.sources.validateSuccessor
        ((World.start boot).run taggedWrite).state.captureConfiguration.observed = .ok () := by
  obtain ⟨committed, hc⟩ : ∃ committed,
      ((World.start boot).run taggedWrite).state.captureConfiguration.committed = some committed :=
    Option.isSome_iff_exists.mp (by decide)
  exact ⟨committed, hc, (World.capture_checkpointable boot taggedWrite honest_taggedWrite committed
    hc).1⟩

end Sample

end Gatel
