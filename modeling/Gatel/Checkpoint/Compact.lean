import Gatel.Checkpoint.Recovery

namespace Gatel.AdminCheckpoint
open LittleEndian (bytes value)
open AdminJournal (Fate Journal Reading Recovered Store bindingRecord recoverEach)
open FramedScan (visitAll numberedFrom)

/-- `buffer[start..start + piece.len()].copy_from_slice(piece)`. -/
def copyFromSlice (buffer : List UInt8) (start : Nat) (piece : List UInt8) : List UInt8 :=
  buffer.take start ++ (piece ++ buffer.drop (start + piece.length))

/-- Rebind a fully covered checkpoint to a fresh log that holds nothing but the binding. -/
def compact {P : Pipeline} (input : List UInt8) (name : String) (registry : P.Registry)
    (log : List UInt8) : Except Error (List UInt8 × List UInt8) := do
  let checkpoint ← decode input name registry log
  let (recovered, state) ← logState P.blake3 log name
  refuse (recovered.incompleteTail ∨ checkpoint.metadata.journalBytes.val ≠ log.length ∨
    checkpoint.metadata.journalSequence ≠ recovered.sequence ∨ pending state)
  let record ← binding P.blake3 name
  let log ← orInvalid (AdminJournal.encode P.blake3 1 record)
  let compacted := copyFromSlice input (header + 128) (bytes 8 1)
  let compacted := copyFromSlice compacted (header + 136) (bytes 8 log.length)
  let compacted := copyFromSlice compacted (header + 144) (prefixHash P.blake3 log).bytes
  let sum := envelopeHash P.blake3 (compacted.drop header)
  let compacted := copyFromSlice compacted 8 sum.bytes
  let _ ← decode compacted name registry log
  return (compacted, log)

theorem copyFromSlice_middle {a b c piece : List UInt8} {start : Nat} (ha : a.length = start)
    (hb : b.length = piece.length) : copyFromSlice (a ++ (b ++ c)) start piece = a ++ (piece ++ c) := by
  have hab : (a ++ b).length = start + piece.length := by rw [List.length_append, ha, hb]
  rw [copyFromSlice, ← hab, ← List.append_assoc a b c, List.drop_left, List.append_assoc, ← ha,
    List.take_left]

section
variable {body : List UInt8} {i : Nat}

theorem length_cut {j : Nat} (h : j ≤ body.length) : (cut body i j).length = j - i := by
  rw [cut, List.length_drop, List.length_take, Nat.min_eq_left h]

theorem bytes_hashAt (h : i + 32 ≤ body.length) : (hashAt body i).bytes = cut body i (i + 32) := by
  have hl : (cut body i (i + 32)).length = 32 := by
    rw [length_cut h]
    omega
  rw [hashAt, Fingerprint.fromBytes?, dif_pos hl]
  rfl

theorem bytes_numberAt (h : i + 8 ≤ body.length) :
    bytes 8 (numberAt body i).val = cut body i (i + 8) := by
  have hs := @AdminJournal.bytes_slice body i (i + 8) h
  rw [Nat.add_sub_cancel_left] at hs
  rw [numberAt, cut, AdminJournal.number_slice h, hs]

end

/-- Metadata that was read is written back byte for byte. -/
theorem Metadata.write_read {body : List UInt8} (h : metaBytes ≤ body.length) :
    (Metadata.read body).write = body.take metaBytes := by
  have hm : metaBytes = 176 := rfl
  rw [hm] at h ⊢
  have hpiece : ∀ i j, i ≤ j → j ≤ 176 → body.take j = body.take i ++ cut body i j :=
    fun i j hij _ => AdminJournal.take_split hij
  rw [hpiece 144 176 (by omega) le_rfl, hpiece 136 144 (by omega) (by omega),
    hpiece 128 136 (by omega) (by omega), hpiece 96 128 (by omega) (by omega),
    hpiece 64 96 (by omega) (by omega), hpiece 32 64 (by omega) (by omega),
    hpiece 0 32 (by omega) (by omega)]
  simp only [Metadata.write, Metadata.read]
  rw [bytes_hashAt (by omega), bytes_hashAt (by omega), bytes_hashAt (by omega),
    bytes_hashAt (by omega), bytes_hashAt (by omega), bytes_numberAt (by omega),
    bytes_numberAt (by omega)]
  simp

/-- A file with this metadata in front of the rest, under a sum that fits. -/
def sealed (blake3 : Digest) (m : Metadata) (rest : List UInt8) : List UInt8 :=
  magic ++ ((envelopeHash blake3 (m.write ++ rest)).bytes ++ (m.write ++ rest))

section
variable {blake3 : Digest} {m : Metadata} {rest : List UInt8}

theorem drop_sealed : (sealed blake3 m rest).drop header = m.write ++ rest := by
  have hl : (magic ++ (envelopeHash blake3 (m.write ++ rest)).bytes).length = header := by
    rw [List.length_append, length_magic, Fingerprint.length_bytes]
    rfl
  rw [sealed, ← List.append_assoc, ← hl, List.drop_left]

theorem length_sealed : (sealed blake3 m rest).length = header + metaBytes + rest.length := by
  simp only [sealed, List.length_append, length_magic, Fingerprint.length_bytes, m.length_write, header]
  omega

theorem take_sealed : (sealed blake3 m rest).take 8 = magic := by
  rw [sealed, ← length_magic, List.take_left]

theorem cut_sealed : cut (sealed blake3 m rest) 8 header = (envelopeHash blake3 (m.write ++ rest)).bytes := by
  refine AdminJournal.slice length_magic ?_
  rw [Fingerprint.length_bytes]
  rfl

theorem drop_meta : (m.write ++ rest).drop (metaBytes + lengthBytes) = rest.drop lengthBytes := by
  rw [← m.length_write, List.drop_length_add_append]

theorem numberAt_meta : numberAt (m.write ++ rest) metaBytes = numberAt rest 0 :=
  numberAt_skip m.length_write 0

section
variable (sum : Fingerprint)

/-- What stands before the journal fields. -/
theorem length_front : (magic ++ (sum.bytes ++ (m.instanceId.bytes ++ (m.build.bytes ++
    (m.plan.bytes ++ m.publication.bytes))))).length = header + 128 := by
  simp only [List.length_append, length_magic, Fingerprint.length_bytes, header]

theorem patch_sequence (n : U64) :
    copyFromSlice (magic ++ (sum.bytes ++ (m.write ++ rest))) (header + 128) (bytes 8 n.val) =
      magic ++ (sum.bytes ++ ({ m with journalSequence := n }.write ++ rest)) := by
  have h := @copyFromSlice_middle _ (bytes 8 m.journalSequence.val)
    (bytes 8 m.journalBytes.val ++ (m.journalPrefix.bytes ++ rest)) (bytes 8 n.val) _
    (length_front (m := m) sum) (by simp)
  simpa [Metadata.write] using h

theorem patch_bytes (len : U64) :
    copyFromSlice (magic ++ (sum.bytes ++ (m.write ++ rest))) (header + 136) (bytes 8 len.val) =
      magic ++ (sum.bytes ++ ({ m with journalBytes := len }.write ++ rest)) := by
  have hl : ((magic ++ (sum.bytes ++ (m.instanceId.bytes ++ (m.build.bytes ++ (m.plan.bytes ++
      m.publication.bytes))))) ++ bytes 8 m.journalSequence.val).length = header + 136 := by
    rw [List.length_append, length_front, LittleEndian.length_bytes]
  have h := @copyFromSlice_middle _ (bytes 8 m.journalBytes.val) (m.journalPrefix.bytes ++ rest)
    (bytes 8 len.val) _ hl (by simp)
  simpa [Metadata.write] using h

theorem patch_digest (digest : Fingerprint) :
    copyFromSlice (magic ++ (sum.bytes ++ (m.write ++ rest))) (header + 144) digest.bytes =
      magic ++ (sum.bytes ++ ({ m with journalPrefix := digest }.write ++ rest)) := by
  have hl : ((magic ++ (sum.bytes ++ (m.instanceId.bytes ++ (m.build.bytes ++ (m.plan.bytes ++
      m.publication.bytes))))) ++ (bytes 8 m.journalSequence.val ++
      bytes 8 m.journalBytes.val)).length = header + 144 := by
    rw [List.length_append, length_front, List.length_append, LittleEndian.length_bytes,
      LittleEndian.length_bytes]
  have h := @copyFromSlice_middle _ m.journalPrefix.bytes rest digest.bytes _ hl
    (by rw [Fingerprint.length_bytes, Fingerprint.length_bytes])
  simpa [Metadata.write] using h

theorem patch_sum :
    copyFromSlice (magic ++ (sum.bytes ++ (m.write ++ rest))) 8
      (envelopeHash blake3 ((magic ++ (sum.bytes ++ (m.write ++ rest))).drop header)).bytes =
      sealed blake3 m rest := by
  have hl : (magic ++ sum.bytes).length = header := by
    rw [List.length_append, length_magic, Fingerprint.length_bytes]
    rfl
  have hdrop : (magic ++ (sum.bytes ++ (m.write ++ rest))).drop header = m.write ++ rest := by
    rw [← List.append_assoc, ← hl, List.drop_left]
  rw [hdrop]
  apply copyFromSlice_middle length_magic
  rw [Fingerprint.length_bytes, Fingerprint.length_bytes]

end

/-- Patching the three journal fields and then the sum is sealing other metadata. -/
theorem patched_sealed (n len : U64) (digest : Fingerprint) :
    let compacted := copyFromSlice (copyFromSlice (copyFromSlice (sealed blake3 m rest) (header + 128)
      (bytes 8 n.val)) (header + 136) (bytes 8 len.val)) (header + 144) digest.bytes
    copyFromSlice compacted 8 (envelopeHash blake3 (compacted.drop header)).bytes =
      sealed blake3 { m with journalSequence := n, journalBytes := len, journalPrefix := digest } rest := by
  intro compacted
  have hc : compacted = magic ++ ((envelopeHash blake3 (m.write ++ rest)).bytes ++
      ({ m with journalSequence := n, journalBytes := len, journalPrefix := digest }.write ++ rest)) := by
    unfold compacted sealed
    rw [patch_sequence, patch_bytes, patch_digest]
  rw [hc]
  exact patch_sum _

end

section
variable {P : Pipeline} {input : List UInt8} {name : String} {registry : P.Registry}
  {log : List UInt8} {c : Checkpoint}

/-- An accepted file is its metadata, sealed in front of the two snapshots. -/
theorem Accepted.input_eq (h : Accepted input name registry log c) :
    input = sealed P.blake3 c.metadata (input.drop (header + metaBytes)) := by
  have henv := h.envelope
  simp only [not_or, not_lt, ne_eq, not_not] at henv
  obtain ⟨-, hlong, hmagic, hsum⟩ := henv
  have hbody : (input.drop header).length = input.length - header := List.length_drop
  have hmeta : c.metadata.write = (input.drop header).take metaBytes := by
    rw [h.metadata]
    apply Metadata.write_read
    rw [hbody]
    omega
  have hrest : c.metadata.write ++ input.drop (header + metaBytes) = input.drop header := by
    rw [hmeta, ← List.drop_drop, List.take_append_drop]
  rw [sealed, hrest, hsum, ← hmagic]
  have hfront : input.take header = input.take 8 ++ cut input 8 header :=
    AdminJournal.take_split (by decide)
  rw [← List.append_assoc, ← hfront, List.take_append_drop]

end

/-- The log of an instance that has nothing but its binding. -/
abbrev boundOnly (blake3 : Digest) (record : String) : List UInt8 := AdminJournal.frame blake3 1 record

section
variable {blake3 : Digest} {name record : String} (hb : bindingRecord blake3 name = .ok record)
include hb

theorem encode_binding : AdminJournal.encode blake3 1 record = .ok (boundOnly blake3 record) := by
  refine AdminJournal.encode_eq_ok.mpr ⟨by decide, ?_, rfl⟩
  rw [AdminJournal.length_bindingRecord hb]
  decide

theorem length_boundOnly : (boundOnly blake3 record).length = 164 := by
  rw [AdminJournal.length_frame, AdminJournal.length_bindingRecord hb]
  rfl

theorem recoverEach_binding {V : AdminJournal.State → U64 → String → Except AdminJournal.Error AdminJournal.State}
    (hV : V .default 1 record = .ok .default) :
    recoverEach blake3 V (boundOnly blake3 record) 0 .default =
      .ok (⟨1, some record, (boundOnly blake3 record).length, false⟩, .default) := by
  have hholds := AdminJournal.holds_binding hb
  have hlog : AdminJournal.log blake3 [record] = boundOnly blake3 record := by
    simp [AdminJournal.log, TornLog.logFrom, AdminJournal.frameAt]
    rfl
  have hscan := @AdminJournal.recoverEach_log blake3 _ V [record] [] .default
    (by rw [List.append_nil]; exact hholds.small) hholds.fits (.inl rfl)
  have hreplay : AdminJournal.replayFrom V 1 [record] .default = .ok .default := by
    have hV' : V .default (Fin.ofNat (2 ^ 64) 1) record = .ok .default := hV
    simp only [AdminJournal.replayFrom]
    rw [hV']
  rw [hreplay, List.append_nil, hlog] at hscan
  exact hscan

theorem logState_binding : logState blake3 (boundOnly blake3 record) name =
    .ok (⟨1, some record, (boundOnly blake3 record).length, false⟩, .default) :=
  logState_ok.mpr ⟨record, hb, recoverEach_binding hb (by simp [visit]), (by decide : (1 : U64) ≠ 0)⟩

/-- A journal opens on a log with nothing but the binding, whatever else is asked. -/
theorem open_binding (create : Bool) (fate : Fate) :
    ∃ j, AdminJournal.openJournal blake3 name create fate (boundOnly blake3 record) =
      (boundOnly blake3 record, .ok j) ∧
      j.store.sequence = 1 ∧ j.store.incompleteTail = false ∧ j.state = .default := by
  have hsize : ¬ (boundOnly blake3 record).length > AdminJournal.maxLog := by
    rw [length_boundOnly hb]
    decide
  have hscan := recoverEach_binding hb (V := AdminJournal.replay record) (by simp [AdminJournal.replay])
  unfold AdminJournal.openJournal Store.openMode
  simp only [hb, if_neg hsize, hscan]
  refine ⟨_, rfl, rfl, rfl, rfl⟩

end

section
variable {P : Pipeline} {input : List UInt8} {name : String} {registry : P.Registry}
  {log : List UInt8} {c : Checkpoint}

/-- The checkpoint under the metadata of a log with nothing but the binding. -/
def Checkpoint.rebound (c : Checkpoint) (blake3 : Digest) (record : String) : Checkpoint :=
  { c with
    metadata := { c.metadata with
      journalSequence := 1
      journalBytes := Fin.ofNat _ (boundOnly blake3 record).length
      journalPrefix := prefixHash blake3 (boundOnly blake3 record) } }

/-- What was accepted beside its log is accepted, resealed, beside the binding alone. -/
theorem Accepted.rebound (h : Accepted input name registry log c) {record : String}
    (hb : bindingRecord P.blake3 name = .ok record) :
    Accepted (sealed P.blake3 (c.rebound P.blake3 record).metadata (input.drop (header + metaBytes)))
      name registry (boundOnly P.blake3 record) (c.rebound P.blake3 record) := by
  have hinput := h.input_eq
  have hlen : (Fin.ofNat (2 ^ 64) (boundOnly P.blake3 record).length).val =
      (boundOnly P.blake3 record).length := by
    rw [length_boundOnly hb]
    rfl
  have hwhole : (boundOnly P.blake3 record).take (c.rebound P.blake3 record).metadata.journalBytes.val =
      boundOnly P.blake3 record := by
    rw [Checkpoint.rebound, hlen, List.take_length]
  have hsize := @length_sealed P.blake3 c.metadata (input.drop (header + metaBytes))
  rw [← hinput] at hsize
  have henv := h.envelope
  simp only [not_or, not_lt, ne_eq, not_not] at henv
  obtain ⟨hshort, hlong, -, -⟩ := henv
  refine ⟨?_, ?_, ?_, h.build, ⟨_, logState_binding hb⟩, ?_, ?_, ?_, ?_, ?_, ?_, h.history, h.plan⟩
  · simp only [not_or, not_lt, ne_eq, not_not]
    rw [length_sealed, take_sealed, drop_sealed, cut_sealed, ← hsize]
    exact ⟨hshort, hlong, rfl, rfl⟩
  · rw [drop_sealed, Metadata.read_write]
  · obtain ⟨record', hb', hid⟩ := h.owner
    exact ⟨record', hb', hid⟩
  · rw [Checkpoint.rebound, hlen]
  · rw [hwhole]
    rfl
  · rw [hwhole]
    exact ⟨_, _, logState_binding hb, rfl, rfl, rfl⟩
  · have hroom := h.room
    rw [hinput, drop_sealed, numberAt_meta, drop_meta] at hroom
    rw [drop_sealed, numberAt_meta, drop_meta]
    exact hroom
  · have hs := h.sources
    rw [hinput, drop_sealed, numberAt_meta, drop_meta] at hs
    rw [drop_sealed, numberAt_meta, drop_meta]
    exact hs
  · have ho := h.observed
    rw [hinput, drop_sealed, numberAt_meta, drop_meta] at ho
    rw [drop_sealed, numberAt_meta, drop_meta]
    exact ho

/-- A prefix with as many records as the whole log is the whole log. -/
theorem Accepted.covers_bytes (h : Accepted input name registry log c) {recovered : Recovered}
    {state : AdminJournal.State} (hlog : logState P.blake3 log name = .ok (recovered, state))
    (htail : recovered.incompleteTail = false)
    (hseq : c.metadata.journalSequence = recovered.sequence) :
    c.metadata.journalBytes.val = log.length := by
  obtain ⟨expected, hb, hr, hne⟩ := logState_ok.mp hlog
  obtain ⟨texts, tail, hread, hflag⟩ :=
    AdminJournal.reading_of_recovered (boundVisitor_visit expected) hr hne
  have hnil : tail = [] := by
    rw [htail] at hflag
    simpa using hflag.symm
  subst hnil
  obtain ⟨recovered₁, state₁, hcov, htail₁, hseq₁, -⟩ := h.covered
  obtain ⟨expected', hb', hr₁, hne₁⟩ := logState_ok.mp hcov
  cases hb.symm.trans hb'
  obtain ⟨texts₁, tail₁, hread₁, hflag₁⟩ :=
    AdminJournal.reading_of_recovered (boundVisitor_visit expected) hr₁ hne₁
  have hnil₁ : tail₁ = [] := by
    rw [htail₁] at hflag₁
    simpa using hflag₁.symm
  subst hnil₁
  have hw := hread.whole
  have hw₁ := hread₁.whole
  rw [List.append_nil] at hw hw₁
  have hencoded := hread.encoded
  have hencoded₁ := hread₁.encoded
  rw [← hw] at hencoded
  rw [← hw₁] at hencoded₁
  obtain ⟨more, rest, hmore, hrest, hlater⟩ :=
    AdminJournal.reads.encoded_split hencoded₁ hencoded (List.take_prefix _ _)
  have hcount := hread.count
  have hcount₁ := hread₁.count
  have hval : recovered₁.sequence.val = recovered.sequence.val := by rw [hseq₁, hseq]
  have hl := congrArg List.length hmore
  rw [FramedScan.length_numberedFrom, List.length_append, FramedScan.length_numberedFrom,
    List.length_cons, List.length_cons] at hl
  have hnone : more = [] := List.eq_nil_of_length_eq_zero (by omega)
  subst hnone
  rw [hlater.bytes_nil, List.append_nil] at hrest
  have hlen := congrArg List.length hrest
  rw [List.length_take] at hlen
  have hle := h.length
  omega

/-- A checkpoint of the whole log is resealed over the binding alone. -/
theorem compact_eq (h : Accepted input name registry log c) {record : String}
    (hb : bindingRecord P.blake3 name = .ok record)
    (hbytes : c.metadata.journalBytes.val = log.length) :
    compact input name registry log =
      .ok (sealed P.blake3 (c.rebound P.blake3 record).metadata (input.drop (header + metaBytes)),
        boundOnly P.blake3 record) := by
  obtain ⟨recovered, state, hcov, htail, hseq, hpend⟩ := h.covered
  rw [hbytes, List.take_length] at hcov
  have hlen : (Fin.ofNat (2 ^ 64) (boundOnly P.blake3 record).length).val =
      (boundOnly P.blake3 record).length := by
    rw [length_boundOnly hb]
    rfl
  have hpatch := @patched_sealed P.blake3 c.metadata (input.drop (header + metaBytes)) 1
    (Fin.ofNat _ (boundOnly P.blake3 record).length) (prefixHash P.blake3 (boundOnly P.blake3 record))
  rw [← h.input_eq, hlen] at hpatch
  unfold compact
  simp only [except_bind_ok, refuse_ok, orInvalid_ok]
  refine ⟨c, decode_ok.mpr h, (recovered, state), hcov, (), ?_, record, binding_ok.mpr hb, _,
    encode_binding hb, c.rebound P.blake3 record, ?_, ?_⟩
  · simp only [not_or, not_not]
    exact ⟨by simp [htail], hbytes, hseq.symm, by simp [hpend]⟩
  · have hre := decode_ok.mpr (h.rebound hb)
    rw [← hre]
    exact congrArg (fun x => decode x name registry (boundOnly P.blake3 record)) hpatch
  · exact congrArg (fun x => Except.ok (x, boundOnly P.blake3 record)) hpatch

/-- Compaction keeps what recovery means: a checkpoint of a whole log without a torn end is
rebound, its snapshots and its publication untouched, to a log of the binding alone; there
recovery finds it current, and compacting it again changes nothing. -/
theorem compact_preserves (hd : decode input name registry log = .ok c) {recovered : Recovered}
    {state : AdminJournal.State} (hlog : logState P.blake3 log name = .ok (recovered, state))
    (htail : recovered.incompleteTail = false)
    (hcovered : c.metadata.journalSequence = recovered.sequence) :
    ∃ (record : String) (compacted fresh : List UInt8) (c' : Checkpoint),
      bindingRecord P.blake3 name = .ok record ∧
      AdminJournal.encode P.blake3 1 record = .ok fresh ∧
      compact input name registry log = .ok (compacted, fresh) ∧
      decode compacted name registry fresh = .ok c' ∧
      c' = ⟨{ c.metadata with
        journalSequence := 1
        journalBytes := Fin.ofNat _ fresh.length
        journalPrefix := prefixHash P.blake3 fresh }, c.sources, c.observed⟩ ∧
      c'.metadata.journalBytes.val = fresh.length ∧
      compacted.drop (header + metaBytes) = input.drop (header + metaBytes) ∧
      (∀ create fate, ∃ j,
        AdminJournal.openJournal P.blake3 name create fate fresh = (fresh, .ok j) ∧
        inspectRecovery j registry .none ⟨fresh, some compacted⟩ =
          (j, .ok ⟨.checkpointCurrent, some c'⟩)) ∧
      compact compacted name registry fresh = .ok (compacted, fresh) := by
  have h := decode_ok.mp hd
  obtain ⟨record, hb, -, -⟩ := logState_ok.mp hlog
  have hbytes := h.covers_bytes hlog htail hcovered
  have hre := h.rebound hb
  have hlen : (c.rebound P.blake3 record).metadata.journalBytes.val =
      (boundOnly P.blake3 record).length := by
    rw [Checkpoint.rebound, length_boundOnly hb]
    rfl
  have hdrop : (sealed P.blake3 (c.rebound P.blake3 record).metadata
      (input.drop (header + metaBytes))).drop (header + metaBytes) = input.drop (header + metaBytes) := by
    rw [← List.drop_drop, drop_sealed, ← (c.rebound P.blake3 record).metadata.length_write,
      List.drop_left]
  refine ⟨record, _, _, c.rebound P.blake3 record, hb, encode_binding hb, compact_eq h hb hbytes,
    decode_ok.mpr hre, rfl, hlen, hdrop, ?_, ?_⟩
  · intro create fate
    obtain ⟨j, hopen, hseq, hclean, hstate⟩ := open_binding hb create fate
    obtain ⟨expected, hm⟩ := mirrors_of_open hopen
    have hcurrent : disposition j (some (c.rebound P.blake3 record)) = .checkpointCurrent := by
      have hn : ¬ j.store.sequence > (c.rebound P.blake3 record).metadata.journalSequence := by
        rw [hseq, Checkpoint.rebound]
        exact lt_irrefl _
      simp [disposition, hclean, hstate, pending, AdminJournal.State.default, hn]
    refine ⟨j, hopen, ?_⟩
    rw [← hcurrent]
    exact @inspectRecovery_ok P name expected registry ⟨boundOnly P.blake3 record, some _⟩ j hm
      (some (c.rebound P.blake3 record)) ⟨_, rfl, decode_ok.mpr hre⟩
  · have hagain := compact_eq hre hb hlen
    rw [hdrop] at hagain
    exact hagain

end

namespace Sample
open Gatel.Sample (boundLog checkpointPipeline savedCheckpoint)

theorem compact_bound :
    ∃ compacted fresh, compact (P := checkpointPipeline) savedCheckpoint "main" () boundLog =
        .ok (compacted, fresh) ∧
      compact (P := checkpointPipeline) compacted "main" () fresh = .ok (compacted, fresh) := by
  have hlog : logState checkpointPipeline.blake3 boundLog "main" = .ok (⟨1,
      (bindingRecord checkpointPipeline.blake3 "main").toOption, 164, false⟩, .default) := by
    decide +kernel
  have hone : (decode (P := checkpointPipeline) savedCheckpoint "main" () boundLog).toOption.map
      (·.metadata.journalSequence) = some 1 := by decide +kernel
  obtain ⟨c, hc⟩ : ∃ c, decode (P := checkpointPipeline) savedCheckpoint "main" () boundLog = .ok c :=
    exists_ok (by rw [← Option.isSome_map, hone]; rfl)
  rw [hc] at hone
  obtain ⟨record, compacted, fresh, c', -, -, hcompact, -, -, -, -, -, hagain⟩ :=
    compact_preserves hc hlog rfl (Option.some.inj hone)
  exact ⟨compacted, fresh, hcompact, hagain⟩

end Sample

end Gatel.AdminCheckpoint
