import Gatel.Codec.SnapshotCodec
import Gatel.Journal.Record

namespace Gatel.WalFrame
open AdminJournal (checksum slice take_split bytes_slice)
open LittleEndian (bytes value)

def magic : List UInt8 := utf8 "GATELW01"
def header : Nat := 96
def maxLog : Nat := 64 * 1024 * 1024
def decisionBytes : Nat := 41
def decisionReserve : Nat := header + decisionBytes
/-- The largest intent payload: its own header, its metadata, a length and a snapshot. -/
def maxIntent : Nat := 40 + 32 * 5 + 8 + SnapshotCodec.maxBytes

inductive Error where
  | limit
  | header
  | payload
  | length
  | sequence
  deriving DecidableEq, Repr

def Error.message : Error → String
  | .limit => "binary WAL capacity exceeded"
  | .header => "invalid binary WAL header"
  | .payload => "invalid binary WAL payload checksum"
  | .length => "invalid binary WAL payload length"
  | .sequence => "invalid or exhausted binary WAL sequence"

inductive Kind where
  | intent
  | decision
  deriving DecidableEq, Repr

def Kind.tag : Kind → UInt8
  | .intent => 1
  | .decision => 2

def Kind.validate (kind : Kind) (length : Nat) : Except Error Unit :=
  match kind with
  | .intent => if length > 0 ∧ length ≤ maxIntent then .ok () else .error .length
  | .decision => if length = decisionBytes then .ok () else .error .length

structure Frame where
  sequence : U64
  kind : Kind
  payload : List UInt8
  deriving DecidableEq

abbrev Scan := FramedScan.Scan U64

/-- Checked addition of machine words. -/
def checkedAdd (a : U64) (b : Nat) : Option U64 :=
  if h : a.val + b < 2 ^ 64 then some ⟨a.val + b, h⟩ else none

/-- Room for an intent and for its decision, and two sequence numbers, before any append. -/
@[grind =] def reserveIntent (used sequence payloadBytes : U64) : Except Error Unit :=
  match Kind.intent.validate payloadBytes.val with
  | .error e => .error e
  | .ok () =>
    match checkedAdd sequence 2 with
    | none => .error .sequence
    | some _ =>
      match ((checkedAdd used header).bind fun n => checkedAdd n payloadBytes.val).bind
          fun n => checkedAdd n decisionReserve with
      | none => .error .limit
      | some required => if required.val > maxLog then .error .limit else .ok ()

section
variable (blake3 : Digest)

/-- The header up to its own checksum. -/
@[grind =] def headerPart (sequence : U64) (kind : Kind) (payload : List UInt8) : List UInt8 :=
  magic ++ bytes 8 sequence.val ++ [kind.tag] ++ List.replicate 7 0 ++ bytes 8 payload.length ++
    (checksum blake3 "gatel.wal.frame-payload.v1" payload).bytes

def headerSum (sequence : U64) (kind : Kind) (payload : List UInt8) : List UInt8 :=
  (checksum blake3 "gatel.wal.frame-header.v1" (headerPart blake3 sequence kind payload)).bytes

def frame (sequence : U64) (kind : Kind) (payload : List UInt8) : List UInt8 :=
  headerPart blake3 sequence kind payload ++ headerSum blake3 sequence kind payload ++ payload

def encode (sequence : U64) (kind : Kind) (payload : List UInt8) : Except Error (List UInt8) :=
  if sequence = 0 then .error .sequence
  else match kind.validate payload.length with
    | .error e => .error e
    | .ok () => .ok (frame blake3 sequence kind payload)

def kindOf : Option UInt8 → Option Kind
  | some 1 => some .intent
  | some 2 => some .decision
  | _ => none

/-- The scan loop over what is left of the input. A frame takes at least its header, so as
many rounds as there are bytes are enough. -/
@[grind =] def scanLoop {σ : Type} (visit : σ → Frame → Except Error σ) :
    Nat → List UInt8 → Scan → σ → Except Error (Scan × σ)
  | 0, _, result, state => .ok (result, state)
  | fuel + 1, remaining, result, state =>
    if remaining = [] then .ok (result, state)
    else
      let common := min remaining.length magic.length
      if remaining.take common ≠ magic.take common then .error .header
      else if remaining.length < header then .ok ({ result with incompleteTail := true }, state)
      -- the length is trusted only under the header checksum
      else if (checksum blake3 "gatel.wal.frame-header.v1" (remaining.take 64)).bytes ≠
          (remaining.take header).drop 64 ∨
          (remaining.take 24).drop 17 ≠ List.replicate 7 0 then .error .header
      else match kindOf remaining[16]? with
        | none => .error .header
        | some kind =>
          let sequence : U64 := Fin.ofNat _ (value ((remaining.take 16).drop 8))
          match result.sequence.next with
          | none => .error .sequence
          | some expected =>
            if sequence ≠ expected then .error .sequence
            else
              let length := value ((remaining.take 32).drop 24)
              match kind.validate length with
              | .error e => .error e
              | .ok () =>
                if remaining.length - header < length then
                  .ok ({ result with incompleteTail := true }, state)
                else
                  let payload := (remaining.take (header + length)).drop header
                  if (checksum blake3 "gatel.wal.frame-payload.v1" payload).bytes ≠
                      (remaining.take 64).drop 32 then .error .payload
                  else match visit state ⟨sequence, kind, payload⟩ with
                    | .error e => .error e
                    | .ok state =>
                      scanLoop visit fuel (remaining.drop (header + length))
                        ⟨sequence, result.validBytes + (header + length), result.incompleteTail⟩
                        state

def scan {σ : Type} (visit : σ → Frame → Except Error σ) (input : List UInt8) (base : U64)
    (init : σ) : Except Error (Scan × σ) :=
  if input.length > maxLog then .error .limit
  else scanLoop blake3 visit input.length input ⟨base, 0, false⟩ init

/-- One round of the scan loop up to the visit. -/
def round (last : U64) (remaining : List UInt8) :
    FramedScan.Round U64 (Kind × List UInt8) Error :=
  let common := min remaining.length magic.length
  if remaining.take common ≠ magic.take common then .fail .header
  else if remaining.length < header then .torn
  else if (checksum blake3 "gatel.wal.frame-header.v1" (remaining.take 64)).bytes ≠
      (remaining.take header).drop 64 ∨
      (remaining.take 24).drop 17 ≠ List.replicate 7 0 then .fail .header
  else match kindOf remaining[16]? with
    | none => .fail .header
    | some kind =>
      let sequence : U64 := Fin.ofNat _ (value ((remaining.take 16).drop 8))
      match last.next with
      | none => .fail .sequence
      | some expected =>
        if sequence ≠ expected then .fail .sequence
        else
          let length := value ((remaining.take 32).drop 24)
          match kind.validate length with
          | .error e => .fail e
          | .ok () =>
            if remaining.length - header < length then .torn
            else
              let payload := (remaining.take (header + length)).drop header
              if (checksum blake3 "gatel.wal.frame-payload.v1" payload).bytes ≠
                  (remaining.take 64).drop 32 then .fail .payload
              else .record sequence (kind, payload) (header + length)

end

inductive Outcome where
  | applied
  | rejected
  deriving DecidableEq, Repr

/-- A host decision on an exact earlier intent. -/
structure Decision where
  intentSequence : U64
  intentIdentity : Fingerprint
  outcome : Outcome
  deriving DecidableEq

namespace Decision

def outcomeTag : Outcome → UInt8
  | .applied => 1
  | .rejected => 2

def encode (d : Decision) : Except Error (List UInt8) :=
  if d.intentSequence = 0 then .error .sequence
  else .ok (bytes 8 d.intentSequence.val ++ d.intentIdentity.bytes ++ [outcomeTag d.outcome])

def outcomeOf : Option UInt8 → Option Outcome
  | some 1 => some .applied
  | some 2 => some .rejected
  | _ => none

def decode (bytes : List UInt8) (decisionSequence : U64) : Except Error Decision :=
  if bytes.length ≠ decisionBytes then .error .length
  else
    let intentSequence : U64 := Fin.ofNat _ (value (bytes.take 8))
    if intentSequence = 0 ∨ intentSequence.next ≠ some decisionSequence then .error .sequence
    else match outcomeOf bytes[40]? with
      | none => .error .payload
      | some outcome =>
        .ok ⟨intentSequence, (Fingerprint.fromBytes? ((bytes.take 40).drop 8)).getD .zero, outcome⟩

end Decision

variable {blake3 : Digest}

theorem length_magic : magic.length = 8 := by decide

theorem length_headerPart (sequence : U64) (kind : Kind) (payload : List UInt8) :
    (headerPart blake3 sequence kind payload).length = 64 := by
  simp [headerPart, length_magic, Fingerprint.length_bytes]

theorem length_headerSum (sequence : U64) (kind : Kind) (payload : List UInt8) :
    (headerSum blake3 sequence kind payload).length = 32 := Fingerprint.length_bytes _

theorem length_head (sequence : U64) (kind : Kind) (payload : List UInt8) :
    (headerPart blake3 sequence kind payload ++ headerSum blake3 sequence kind payload).length =
      header := by
  rw [List.length_append, length_headerPart, length_headerSum]
  rfl

theorem length_frame (sequence : U64) (kind : Kind) (payload : List UInt8) :
    (frame blake3 sequence kind payload).length = header + payload.length := by
  rw [frame, List.length_append, length_head]

theorem Kind.validate_eq_ok {kind : Kind} {length : Nat} :
    kind.validate length = .ok () ↔
      match kind with
      | .intent => 0 < length ∧ length ≤ maxIntent
      | .decision => length = decisionBytes := by
  cases kind with
  | intent =>
    unfold Kind.validate
    split
    · simp_all
    · simp_all
  | decision =>
    unfold Kind.validate
    split
    · simp_all
    · simp_all

theorem Kind.length_le_of_validate {kind : Kind} {length : Nat} (h : kind.validate length = .ok ()) :
    length ≤ maxIntent := by
  cases kind with
  | intent => exact (Kind.validate_eq_ok.1 h).2
  | decision =>
    rw [Kind.validate_eq_ok.1 h]
    decide

theorem encode_eq_ok {sequence : U64} {kind : Kind} {payload out : List UInt8} :
    encode blake3 sequence kind payload = .ok out ↔
      sequence ≠ 0 ∧ kind.validate payload.length = .ok () ∧
        frame blake3 sequence kind payload = out := by
  unfold encode
  split
  · simp_all
  · cases kind.validate payload.length with
    | error e => simp
    | ok u => simp_all

/-- The bytes start with the whole header of this frame. -/
def Headed (blake3 : Digest) (remaining : List UInt8) (sequence : U64) (kind : Kind)
    (payload : List UInt8) : Prop :=
  ∃ rest, remaining =
    headerPart blake3 sequence kind payload ++ headerSum blake3 sequence kind payload ++ rest

section
variable {remaining payload : List UInt8} {sequence : U64} {kind : Kind}
  (h : Headed blake3 remaining sequence kind payload)

include h

theorem Headed.length : header ≤ remaining.length := by
  obtain ⟨rest, rfl⟩ := h
  rw [List.length_append, length_head]
  exact Nat.le_add_right header rest.length

theorem Headed.start : remaining.take 8 = magic := by
  obtain ⟨rest, rfl⟩ := h
  simp only [headerPart, List.append_assoc]
  rw [← length_magic, List.take_left]

theorem Headed.part : remaining.take 64 = headerPart blake3 sequence kind payload := by
  obtain ⟨rest, rfl⟩ := h
  rw [List.append_assoc, ← @length_headerPart blake3 sequence kind payload, List.take_left]

theorem Headed.sum : (remaining.take header).drop 64 = headerSum blake3 sequence kind payload := by
  obtain ⟨rest, rfl⟩ := h
  rw [List.append_assoc]
  exact slice (length_headerPart _ _ _) (by rw [length_headerSum]; rfl)

theorem Headed.number : (remaining.take 16).drop 8 = bytes 8 sequence.val := by
  obtain ⟨rest, rfl⟩ := h
  simp only [headerPart, List.append_assoc]
  exact slice length_magic (by simp)

theorem Headed.tag : remaining[16]? = some kind.tag := by
  obtain ⟨rest, rfl⟩ := h
  have hl : (magic ++ bytes 8 sequence.val).length = 16 := by simp [length_magic]
  simp only [headerPart, List.append_assoc, List.singleton_append]
  rw [← List.append_assoc WalFrame.magic, List.getElem?_append_right (le_of_eq hl), hl]
  rfl

theorem Headed.zeros : (remaining.take 24).drop 17 = List.replicate 7 0 := by
  obtain ⟨rest, rfl⟩ := h
  simp only [headerPart, List.append_assoc]
  rw [← List.append_assoc WalFrame.magic, ← List.append_assoc (WalFrame.magic ++ _)]
  exact slice (by simp [length_magic]) (by simp)

theorem Headed.size : (remaining.take 32).drop 24 = bytes 8 payload.length := by
  obtain ⟨rest, rfl⟩ := h
  simp only [headerPart, List.append_assoc]
  rw [← List.append_assoc WalFrame.magic, ← List.append_assoc (WalFrame.magic ++ _),
    ← List.append_assoc (WalFrame.magic ++ _ ++ _)]
  exact slice (by simp [length_magic]) (by simp)

theorem Headed.payloadSum : (remaining.take 64).drop 32 =
    (checksum blake3 "gatel.wal.frame-payload.v1" payload).bytes := by
  rw [h.part, headerPart]
  have hl : (WalFrame.magic ++ bytes 8 sequence.val ++ [kind.tag] ++ List.replicate 7 0 ++
      bytes 8 payload.length).length = 32 := by simp [length_magic]
  rw [← hl, List.drop_left]

theorem Headed.common : remaining.take (min remaining.length magic.length) =
    magic.take (min remaining.length magic.length) := by
  have hl := h.length
  have hm : min remaining.length magic.length = 8 := by
    rw [length_magic]
    exact Nat.min_eq_right (le_trans (by decide) hl)
  rw [hm, h.start, ← length_magic, List.take_length]

end

theorem kindOf_tag (kind : Kind) : kindOf (some kind.tag) = some kind := by
  cases kind with
  | intent => rfl
  | decision => rfl

theorem kindOf_eq_some {tag : Option UInt8} {kind : Kind} (h : kindOf tag = some kind) :
    tag = some kind.tag := by
  unfold kindOf at h
  split at h
  · cases h
    rfl
  · cases h
    rfl
  · cases h

theorem size_of_bytes {kind : Kind} {payload : List UInt8}
    (hv : kind.validate payload.length = .ok ()) :
    value (bytes 8 payload.length) = payload.length := by
  apply LittleEndian.value_bytes
  exact lt_of_le_of_lt (Kind.length_le_of_validate hv) (by decide)

theorem round_frame {last sequence : U64} {kind : Kind} {payload : List UInt8}
    (rest : List UInt8) (hn : last.next = some sequence)
    (hv : kind.validate payload.length = .ok ()) :
    round blake3 last (frame blake3 sequence kind payload ++ rest) =
      .record sequence (kind, payload) (frame blake3 sequence kind payload).length := by
  have h : Headed blake3 (frame blake3 sequence kind payload ++ rest) sequence kind payload :=
    ⟨payload ++ rest, by simp [frame]⟩
  have hpayload : ((frame blake3 sequence kind payload ++ rest).take
      (header + payload.length)).drop header = payload := by
    rw [← @length_frame blake3 sequence kind payload, List.take_left, frame,
      ← @length_head blake3 sequence kind payload, List.drop_left]
  have hlong : ¬ (frame blake3 sequence kind payload ++ rest).length - header < payload.length := by
    rw [List.length_append, length_frame]
    omega
  have hsum := h.payloadSum
  rw [h.part] at hsum
  rw [round]
  simp only [h.common, ne_eq, not_true_eq_false, not_lt.mpr h.length, h.part, h.sum, headerSum,
    h.zeros, h.tag, kindOf_tag, h.number, AdminJournal.number_of_bytes, hn, h.size,
    size_of_bytes hv, hv, hlong, hpayload, hsum, or_self, ↓reduceIte, length_frame]

/-- The beginning of a frame is an incomplete tail. -/
theorem round_torn {last sequence : U64} {kind : Kind} {payload tail : List UInt8}
    (hn : last.next = some sequence) (hv : kind.validate payload.length = .ok ())
    (hp : tail <+: frame blake3 sequence kind payload)
    (hl : tail.length < (frame blake3 sequence kind payload).length) :
    round blake3 last tail = .torn := by
  obtain ⟨rest, hf⟩ := hp
  have hfull : Headed blake3 (frame blake3 sequence kind payload) sequence kind payload :=
    ⟨payload, rfl⟩
  have hmagic : tail.take (min tail.length magic.length) =
      magic.take (min tail.length magic.length) := by
    have hm := hfull.start
    rw [← hf] at hm
    have hk : min tail.length magic.length ≤ 8 := length_magic ▸ Nat.min_le_right _ _
    generalize hk' : min tail.length magic.length = k at hk ⊢
    rw [← hm, List.take_take, Nat.min_eq_left hk,
      List.take_append_of_le_length (hk' ▸ Nat.min_le_left _ _)]
  rw [round]
  simp only [↓reduceIte, hmagic, ne_eq, not_true_eq_false]
  by_cases hs : tail.length < header
  · simp only [hs, ↓reduceIte]
  · have h : Headed blake3 tail sequence kind payload := by
      refine ⟨tail.drop header, ?_⟩
      have htake : tail.take header = (frame blake3 sequence kind payload).take header := by
        rw [← hf, List.take_append_of_le_length (not_lt.mp hs)]
      have hhead : (frame blake3 sequence kind payload).take header =
          headerPart blake3 sequence kind payload ++ headerSum blake3 sequence kind payload := by
        rw [frame, ← @length_head blake3 sequence kind payload, List.take_left]
      rw [← hhead, ← htake, List.take_append_drop]
    have hshort : tail.length - header < payload.length := by
      rw [length_frame] at hl
      have hlen := h.length
      omega
    simp only [hs, h.part, h.sum, headerSum, h.zeros, h.tag, kindOf_tag, h.number,
      AdminJournal.number_of_bytes, hn, h.size, size_of_bytes hv, hv, hshort, not_true_eq_false,
      or_self, ↓reduceIte]

/-- A frame that a round accepts is one the encoder writes. -/
theorem round_sound {last sequence : U64} {record : Kind × List UInt8} {remaining : List UInt8}
    {size : Nat} (h : round blake3 last remaining = .record sequence record size) :
    last.next = some sequence ∧
      encode blake3 sequence record.1 record.2 = .ok (remaining.take size) ∧
      size ≤ remaining.length := by
  simp only [round] at h
  split at h <;> [cases h; rename_i hmagic]
  split at h <;> [cases h; rename_i hlong]
  split at h <;> [cases h; rename_i hsums]
  split at h <;> [cases h; rename_i kind hkind]
  split at h <;> [cases h; rename_i expected hnext]
  split at h <;> [cases h; rename_i hseq]
  split at h <;> [cases h; rename_i hvalid]
  split at h <;> [cases h; rename_i hroom]
  split at h <;> [cases h; rename_i hpayload]
  cases h
  simp only [not_or, not_not] at hmagic hsums hseq hpayload
  obtain ⟨hsum, hzeros⟩ := hsums
  rw [not_lt] at hlong hroom
  have hh : header = 96 := rfl
  rw [hh] at hlong
  have hlength : ((remaining.take (header + value ((remaining.take 32).drop 24))).drop
      header).length = value ((remaining.take 32).drop 24) := by
    rw [List.length_drop, List.length_take]
    omega
  have hnonzero : (Fin.ofNat _ (value ((remaining.take 16).drop 8)) : U64) ≠ 0 := by
    intro hz
    rw [hz] at hseq
    rw [← hseq, U64.next_eq_some] at hnext
    exact absurd hnext (by simp)
  refine ⟨hseq ▸ hnext, ?_, by rw [hh] at hroom ⊢; omega⟩
  refine encode_eq_ok.2 ⟨hnonzero, by rw [hlength]; exact hvalid, ?_⟩
  have hm : remaining.take 8 = magic := by
    rw [length_magic, Nat.min_eq_right (by omega)] at hmagic
    rw [hmagic, ← length_magic, List.take_length]
  have hnumber := @AdminJournal.number_slice remaining 8 (by omega)
  have htag : [kind.tag] = (remaining.take 17).drop 16 := by
    have ht := kindOf_eq_some hkind
    rw [List.drop_take, List.drop_eq_getElem?_toList_append, ht]
    rfl
  have hpart : headerPart blake3 (Fin.ofNat _ (value ((remaining.take 16).drop 8))) kind
      ((remaining.take (header + value ((remaining.take 32).drop 24))).drop header) =
      remaining.take 64 := by
    rw [headerPart, hnumber, hlength, hpayload, ← hm, htag, ← hzeros,
      @bytes_slice remaining 8 16 (by omega), @bytes_slice remaining 24 32 (by omega),
      ← take_split (by decide), ← take_split (by decide), ← take_split (by decide),
      ← take_split (by decide), ← take_split (by decide)]
  rw [frame, headerSum, hpart, hsum, ← take_split (by decide), ← take_split (Nat.le_add_right _ _)]

theorem reads : FramedScan.Reads U64.next (fun n p => encode blake3 n p.1 p.2) (round blake3) where
  whole rest hn he := by
    obtain ⟨-, hv, rfl⟩ := encode_eq_ok.1 he
    exact round_frame rest hn hv
  torn hn he hp hne _ := by
    obtain ⟨-, hv, rfl⟩ := encode_eq_ok.1 he
    apply round_torn hn hv hp
    exact lt_of_le_of_ne hp.length_le fun hl => hne (hp.eq_of_length hl)
  sound h := round_sound h
  nonempty he := by
    obtain ⟨-, -, rfl⟩ := encode_eq_ok.1 he
    intro hnil
    have hl := congrArg List.length hnil
    rw [length_frame] at hl
    exact absurd hl (by simp [header])

section
variable {σ : Type} {visit : σ → Frame → Except Error σ}

/-- The visitor of the general scan. -/
def visitRecord (visit : σ → Frame → Except Error σ) (state : σ) (n : U64)
    (p : Kind × List UInt8) : Except Error σ := visit state ⟨n, p.1, p.2⟩

/-- One round of the loop. -/
theorem scanLoop_succ (fuel : Nat) (remaining : List UInt8) (result : Scan) (state : σ) :
    scanLoop blake3 visit (fuel + 1) remaining result state =
      if remaining = [] then .ok (result, state)
      else match round blake3 result.sequence remaining with
        | .torn => .ok ({ result with incompleteTail := true }, state)
        | .fail e => .error e
        | .record n p size =>
          match visit state ⟨n, p.1, p.2⟩ with
          | .error e => .error e
          | .ok state => scanLoop blake3 visit fuel (remaining.drop size)
              ⟨n, result.validBytes + size, result.incompleteTail⟩ state := by
  rw [scanLoop]
  generalize scanLoop blake3 visit fuel = loop
  refine ite_congr rfl (fun _ => rfl) fun _ => ?_
  -- what is done with a round, so that it can be taken to the ends of the checks
  obtain ⟨after, hafter⟩ : ∃ after : FramedScan.Round U64 (Kind × List UInt8) Error → Except Error (Scan × σ),
      ∀ r, (match r with
        | .torn => .ok ({ result with incompleteTail := true }, state)
        | .fail e => .error e
        | .record n p size =>
          match visit state ⟨n, p.1, p.2⟩ with
          | .error e => .error e
          | .ok state => loop (remaining.drop size)
              ⟨n, result.validBytes + size, result.incompleteTail⟩ state) = after r := ⟨_, fun _ => rfl⟩
  rw [hafter, round]
  dsimp only
  rw [apply_ite after]
  refine ite_congr rfl (fun _ => hafter (.fail _)) fun _ => ?_
  rw [apply_ite after]
  refine ite_congr rfl (fun _ => hafter .torn) fun _ => ?_
  rw [apply_ite after]
  refine ite_congr rfl (fun _ => hafter (.fail _)) fun _ => ?_
  cases kindOf remaining[16]? with
  | none => exact hafter (.fail _)
  | some kind =>
    cases result.sequence.next with
    | none => exact hafter (.fail _)
    | some expected =>
      dsimp only
      rw [apply_ite after]
      refine ite_congr rfl (fun _ => hafter (.fail _)) fun _ => ?_
      cases kind.validate (value ((remaining.take 32).drop 24)) with
      | error e => exact hafter (.fail _)
      | ok u =>
        dsimp only
        rw [apply_ite after]
        refine ite_congr rfl (fun _ => hafter .torn) fun _ => ?_
        rw [apply_ite after]
        refine ite_congr rfl (fun _ => hafter (.fail _)) fun _ => ?_
        exact hafter (.record _ (kind, _) _)

theorem scanLoop_eq (fuel : Nat) (remaining : List UInt8) (result : Scan) (state : σ) :
    scanLoop blake3 visit fuel remaining result state =
      FramedScan.scan (round blake3) (visitRecord visit) fuel remaining result state := by
  induction fuel generalizing remaining result state with
  | zero => rfl
  | succ fuel ih =>
    rw [scanLoop_succ, FramedScan.scan]
    split
    · rfl
    · cases round blake3 result.sequence remaining with
      | torn => rfl
      | fail e => rfl
      | record n p size =>
        simp only [visitRecord]
        cases visit state ⟨n, p.1, p.2⟩ with
        | error e => rfl
        | ok state => exact ih _ _ _

end

/-- The recorded frames, numbered from `n` on. -/
def framesFrom (n : Nat) (records : List (Kind × List UInt8)) : List Frame :=
  (FramedScan.numberedFrom (2 ^ 64) n records).map fun p => ⟨p.1, p.2.1, p.2.2⟩

section
variable (blake3)

/-- The bytes are those of these records, encoded one after the other from the number after
`base` up to `last`. -/
abbrev Encoded (base : U64) (records : List (Kind × List UInt8)) (last : U64)
    (bytes : List UInt8) : Prop :=
  FramedScan.Encoded U64.next (fun n p => encode blake3 n p.1 p.2) base
    (FramedScan.numberedFrom (2 ^ 64) (base.val + 1) records) last bytes

/-- A proper beginning, possibly empty, of a frame that may follow number `last`. -/
abbrev Torn (last : U64) (tail : List UInt8) : Prop :=
  FramedScan.Torn U64.next (fun n (p : Kind × List UInt8) => encode blake3 n p.1 p.2) last tail

end

theorem exists_encoded (base : U64) (records : List (Kind × List UInt8))
    (hlt : base.val + records.length < 2 ^ 64)
    (hv : ∀ p ∈ records, p.1.validate p.2.length = .ok ()) :
    ∃ bytes, Encoded blake3 base records (Fin.ofNat _ (base.val + records.length)) bytes := by
  refine FramedScan.exists_encoded ?_ records ?_ base hlt
  · intro n hn
    exact AdminJournal.next_ofNat rfl hn
  · intro p hp n hn
    refine ⟨_, encode_eq_ok.2 ⟨?_, hv p hp, rfl⟩⟩
    rintro rfl
    exact hn rfl

theorem visitAll_eq {σ : Type} (visit : σ → Frame → σ) (n : Nat)
    (records : List (Kind × List UInt8)) (state : σ) :
    FramedScan.visitAll (visitRecord fun s f => .ok (visit s f))
        (FramedScan.numberedFrom (2 ^ 64) n records) state =
      .ok ((framesFrom n records).foldl visit state) := by
  rw [framesFrom, List.foldl_map]
  exact FramedScan.visitAll_total (f := fun s n (p : Kind × List UInt8) => visit s ⟨n, p.1, p.2⟩) _ _

section
variable {σ : Type} (visit : σ → Frame → σ)

theorem scan_encoded {base last : U64} {records : List (Kind × List UInt8)}
    {bytes tail : List UInt8} (he : Encoded blake3 base records last bytes)
    (ht : Torn blake3 last tail) (init : σ) :
    scan blake3 (fun state f => .ok (visit state f)) (bytes ++ tail) base init =
      if (bytes ++ tail).length ≤ maxLog then
        .ok (⟨last, bytes.length, !tail.isEmpty⟩,
          (framesFrom (base.val + 1) records).foldl visit init)
      else .error .limit := by
  unfold scan
  by_cases hmax : (bytes ++ tail).length ≤ maxLog
  · rw [if_neg (not_lt.mpr hmax), if_pos hmax, scanLoop_eq, reads.scan_encoded he ht le_rfl,
      visitAll_eq]
    simp
  · rw [if_pos (not_le.mp hmax), if_neg hmax]

theorem scan_sound {base : U64} {init state : σ} {input : List UInt8} {r : Scan}
    (h : scan blake3 (fun state f => .ok (visit state f)) input base init = .ok (r, state)) :
    ∃ records : List (Kind × List UInt8),
      Encoded blake3 base records r.sequence (input.take r.validBytes) ∧
      r.validBytes ≤ input.length ∧
      state = (framesFrom (base.val + 1) records).foldl visit init := by
  unfold scan at h
  split at h
  · cases h
  · rw [scanLoop_eq] at h
    obtain ⟨l, bytes, tail, rfl, hl, hv, -, -, hvisit⟩ := reads.scan_sound le_rfl h
    have hnum := (hl.numbered AdminJournal.next_val).1
    rw [hnum] at hl hvisit
    rw [visitAll_eq] at hvisit
    simp only [Nat.zero_add] at hv
    refine ⟨l.map Prod.snd, ?_, ?_, (Except.ok.inj hvisit).symm⟩
    · rw [hv, List.take_left]
      exact hl
    · simp [hv]

end

/-- Frames that were encoded were admissible. -/
theorem validate_of_encoded {base last : U64} {l : List (U64 × Kind × List UInt8)}
    {bytes : List UInt8}
    (h : FramedScan.Encoded U64.next (fun n p => encode blake3 n p.1 p.2) base l last bytes) :
    ∀ q ∈ l, q.2.1.validate q.2.2.length = .ok () := by
  induction h with
  | nil n => simp
  | cons hn ha hl ih =>
    intro q hq
    rcases List.mem_cons.mp hq with rfl | hq
    · exact (encode_eq_ok.1 ha).2.1
    · exact ih q hq

theorem checkedAdd_eq_some {a c : U64} {b : Nat} : checkedAdd a b = some c ↔ c.val = a.val + b := by
  unfold checkedAdd
  split
  · simp only [Option.some.injEq, Fin.ext_iff]
    exact eq_comm
  · rename_i h
    simp only [reduceCtorEq, false_iff]
    intro he
    exact h (he ▸ c.isLt)

theorem reserveIntent_eq_ok {used sequence payloadBytes : U64} :
    reserveIntent used sequence payloadBytes = .ok () ↔
      Kind.intent.validate payloadBytes.val = .ok () ∧ sequence.val + 2 < 2 ^ 64 ∧
        used.val + header + payloadBytes.val + decisionReserve ≤ maxLog := by
  unfold reserveIntent
  cases Kind.intent.validate payloadBytes.val with
  | error e => simp
  | ok u =>
    cases hs : checkedAdd sequence 2 with
    | none =>
      have hover : ¬ sequence.val + 2 < 2 ^ 64 := by
        intro hlt
        rw [checkedAdd, dif_pos hlt] at hs
        cases hs
      simp only [reduceCtorEq, hover, false_and, and_false]
    | some s =>
      have hroom : sequence.val + 2 < 2 ^ 64 := checkedAdd_eq_some.1 hs ▸ s.isLt
      simp only [hroom, true_and]
      cases hr : ((checkedAdd used header).bind fun n => checkedAdd n payloadBytes.val).bind
          fun n => checkedAdd n decisionReserve with
      | none =>
        simp only [reduceCtorEq, false_iff]
        intro hle
        have hbound : maxLog < 2 ^ 64 := by decide
        have hone : checkedAdd used header = some ⟨used.val + header, by omega⟩ :=
          checkedAdd_eq_some.2 rfl
        have htwo : checkedAdd ⟨used.val + header, by omega⟩ payloadBytes.val =
            some ⟨used.val + header + payloadBytes.val, by omega⟩ := checkedAdd_eq_some.2 rfl
        have hthree : checkedAdd ⟨used.val + header + payloadBytes.val, by omega⟩ decisionReserve =
            some ⟨used.val + header + payloadBytes.val + decisionReserve, by omega⟩ :=
          checkedAdd_eq_some.2 rfl
        simp [hone, htwo, hthree] at hr
      | some required =>
        obtain ⟨n, hn, hthree⟩ := Option.bind_eq_some_iff.mp hr
        obtain ⟨m, hm, htwo⟩ := Option.bind_eq_some_iff.mp hn
        have hsum : required.val = used.val + header + payloadBytes.val + decisionReserve := by
          rw [checkedAdd_eq_some.1 hthree, checkedAdd_eq_some.1 htwo, checkedAdd_eq_some.1 hm]
        rw [← hsum]
        by_cases hle : required.val ≤ maxLog
        · simp [hle]
        · simp [hle, not_le.mp hle]

namespace Decision

theorem outcomeOf_tag (outcome : Outcome) : outcomeOf (some (outcomeTag outcome)) = some outcome := by
  cases outcome with
  | applied => rfl
  | rejected => rfl

/-- A decision that names an intent is read back under the number after that intent. -/
theorem decode_encode {d : Decision} {payload : List UInt8} {n : U64} (he : d.encode = .ok payload)
    (hn : d.intentSequence.next = some n) :
    payload.length = decisionBytes ∧ decode payload n = .ok d := by
  unfold encode at he
  split at he
  · cases he
  · rename_i hzero
    cases he
    have hlen : (bytes 8 d.intentSequence.val ++ d.intentIdentity.bytes ++
        [outcomeTag d.outcome]).length = decisionBytes := by
      simp [d.intentIdentity.length_bytes, decisionBytes]
    have hnumber : (bytes 8 d.intentSequence.val ++ d.intentIdentity.bytes ++
        [outcomeTag d.outcome]).take 8 = bytes 8 d.intentSequence.val := by
      rw [List.append_assoc]
      exact List.take_left' (LittleEndian.length_bytes 8 d.intentSequence.val)
    have hidentity : ((bytes 8 d.intentSequence.val ++ d.intentIdentity.bytes ++
        [outcomeTag d.outcome]).take 40).drop 8 = d.intentIdentity.bytes := by
      rw [List.append_assoc]
      exact slice (by simp) (by simp [d.intentIdentity.length_bytes])
    have htag : (bytes 8 d.intentSequence.val ++ d.intentIdentity.bytes ++
        [outcomeTag d.outcome])[40]? = some (outcomeTag d.outcome) := by
      have hl : (bytes 8 d.intentSequence.val ++ d.intentIdentity.bytes).length = 40 := by
        simp [d.intentIdentity.length_bytes]
      rw [List.getElem?_append_right (le_of_eq hl), hl]
      rfl
    refine ⟨hlen, ?_⟩
    unfold decode
    rw [if_neg (not_not.mpr hlen)]
    simp only [hnumber, AdminJournal.number_of_bytes, hzero, hn, ne_eq, not_true_eq_false, or_self,
      ↓reduceIte, htag, outcomeOf_tag, hidentity, Fingerprint.fromBytes?,
      d.intentIdentity.length_bytes, ↓reduceDIte, Option.getD_some]

end Decision

theorem length_encoded {base last : U64} {l : List (U64 × Kind × List UInt8)} {bytes : List UInt8}
    (h : FramedScan.Encoded U64.next (fun n p => encode blake3 n p.1 p.2) base l last bytes) :
    bytes.length = (l.map fun q => header + q.2.2.length).sum := by
  induction h with
  | nil n => rfl
  | cons hn ha hl ih =>
    obtain ⟨-, -, rfl⟩ := encode_eq_ok.1 ha
    rw [List.length_append, length_frame, ih, List.map_cons, List.sum_cons]

/-- Both frames of a reserved transaction encode and stay within the log. -/
theorem encode_of_reserved {used sequence n : U64} (h : reserveIntent used sequence n = .ok ())
    {a b : U64} (ha : a.val = sequence.val + 1) (hb : b.val = sequence.val + 2)
    {intent decision : List UInt8} (hi : intent.length = n.val)
    (hd : decision.length = decisionBytes) :
    ∃ first second : List UInt8,
      encode blake3 a .intent intent = .ok first ∧ encode blake3 b .decision decision = .ok second ∧
      used.val + first.length + second.length ≤ maxLog := by
  obtain ⟨hv, hseq, hroom⟩ := reserveIntent_eq_ok.1 h
  refine ⟨_, _, encode_eq_ok.2 ⟨?_, hi ▸ hv, rfl⟩, encode_eq_ok.2 ⟨?_, ?_, rfl⟩, ?_⟩
  · rintro rfl
    exact absurd ha (by simp)
  · rintro rfl
    exact absurd hb (by simp)
  · exact Kind.validate_eq_ok.2 hd
  · rw [length_frame, length_frame, hi, hd]
    rw [decisionReserve] at hroom
    omega

/-- Frames back to back with a torn end, as long as they are within the log limit, are
scanned exactly; an input that is scanned is such a log; and what is reserved for a
transaction can be appended. -/
theorem wal_framing_exact {σ : Type} (blake3 : Digest) (base : U64) (visit : σ → Frame → σ)
    (init : σ) :
    (∀ records : List (Kind × List UInt8), base.val + records.length < 2 ^ 64 →
      (∀ p ∈ records, p.1.validate p.2.length = .ok ()) →
      ∃ (last : U64) (bytes : List UInt8), last.val = base.val + records.length ∧
        Encoded blake3 base records last bytes ∧
        ∀ tail, Torn blake3 last tail →
          scan blake3 (fun state f => .ok (visit state f)) (bytes ++ tail) base init =
            if (bytes ++ tail).length ≤ maxLog then
              .ok (⟨last, bytes.length, !tail.isEmpty⟩,
                (framesFrom (base.val + 1) records).foldl visit init)
            else .error .limit) ∧
    (∀ (input : List UInt8) (r : Scan) (state : σ),
      scan blake3 (fun state f => .ok (visit state f)) input base init = .ok (r, state) →
      ∃ records : List (Kind × List UInt8),
        (∀ p ∈ records, p.1.validate p.2.length = .ok ()) ∧
        Encoded blake3 base records r.sequence (input.take r.validBytes) ∧
        r.validBytes ≤ input.length ∧
        state = (framesFrom (base.val + 1) records).foldl visit init) ∧
    ∀ used sequence n : U64, reserveIntent used sequence n = .ok () →
      ∀ intent : List UInt8, intent.length = n.val →
      ∀ (identity : Fingerprint) (outcome : Outcome),
      ∃ (a b : U64) (decision first second : List UInt8),
        a.val = sequence.val + 1 ∧ b.val = sequence.val + 2 ∧
        Decision.encode ⟨a, identity, outcome⟩ = .ok decision ∧
        Decision.decode decision b = .ok ⟨a, identity, outcome⟩ ∧
        encode blake3 a .intent intent = .ok first ∧
        encode blake3 b .decision decision = .ok second ∧
        used.val + first.length + second.length ≤ maxLog := by
  refine ⟨?_, ?_, ?_⟩
  · intro records hlt hv
    obtain ⟨bytes, he⟩ := exists_encoded base records hlt hv
    refine ⟨_, bytes, Nat.mod_eq_of_lt hlt, he, ?_⟩
    intro tail ht
    exact scan_encoded visit he ht init
  · intro input r state h
    obtain ⟨records, he, hlen, hstate⟩ := scan_sound visit h
    refine ⟨records, ?_, he, hlen, hstate⟩
    intro p hp
    rw [← FramedScan.map_snd_numberedFrom (k := 2 ^ 64) (base.val + 1) records] at hp
    obtain ⟨q, hq, rfl⟩ := List.mem_map.mp hp
    exact validate_of_encoded he q hq
  · intro used sequence n h intent hi identity outcome
    obtain ⟨hv, hseq, hroom⟩ := reserveIntent_eq_ok.1 h
    obtain ⟨a, ha⟩ : ∃ a : U64, a.val = sequence.val + 1 := ⟨⟨sequence.val + 1, by omega⟩, rfl⟩
    obtain ⟨b, hb⟩ : ∃ b : U64, b.val = sequence.val + 2 := ⟨⟨sequence.val + 2, hseq⟩, rfl⟩
    have hone : a ≠ 0 := by
      rintro rfl
      exact absurd ha (by simp)
    have hnext : a.next = some b := U64.next_eq_some.mpr (by omega)
    obtain ⟨decision, hdecision⟩ : ∃ decision, Decision.encode ⟨a, identity, outcome⟩ =
        .ok decision := ⟨_, if_neg hone⟩
    obtain ⟨hlen, hdecode⟩ := Decision.decode_encode hdecision hnext
    obtain ⟨first, second, hfirst, hsecond, hle⟩ :=
      @encode_of_reserved blake3 _ _ _ h a b ha hb intent decision hi hlen
    exact ⟨a, b, decision, first, second, ha, hb, hdecision, hdecode, hfirst, hsecond, hle⟩

namespace Sample

/-- Five intents of the largest size, more than a log may hold. -/
def oversized : List (Kind × List UInt8) :=
  List.replicate 5 (.intent, List.replicate maxIntent 0)

/-- Admissible frames back to back that the scan refuses for their total size. -/
theorem oversized_refused :
    (∀ p ∈ oversized, p.1.validate p.2.length = .ok ()) ∧
    ∃ (last : U64) (bytes : List UInt8),
      Encoded (fun _ => .zero) 0 oversized last bytes ∧ Torn (fun _ => .zero) last [] ∧
      scan (fun _ => .zero) (fun (count : Nat) _ => .ok (count + 1)) (bytes ++ []) 0 0 =
        .error .limit := by
  have hv : ∀ p ∈ oversized, p.1.validate p.2.length = .ok () := by
    intro p hp
    rw [List.eq_of_mem_replicate hp, List.length_replicate]
    exact Kind.validate_eq_ok.2 ⟨by decide, le_rfl⟩
  have hcount : oversized.length = 5 := List.length_replicate
  obtain ⟨bytes, he⟩ := @exists_encoded (fun _ => .zero) 0 oversized (by rw [hcount]; decide) hv
  refine ⟨hv, _, bytes, he, .inl rfl, ?_⟩
  rw [scan_encoded _ he (.inl rfl), if_neg]
  have hsum : ∀ x : Kind × List UInt8,
      ((FramedScan.numberedFrom (2 ^ 64) ((0 : U64).val + 1) (List.replicate 5 x)).map
        fun q => header + q.2.2.length).sum = 5 * (header + x.2.length) := by
    intro x
    simp [List.replicate, FramedScan.numberedFrom]
    omega
  rw [List.append_nil, length_encoded he, oversized, hsum, List.length_replicate]
  decide

end Sample

end Gatel.WalFrame
