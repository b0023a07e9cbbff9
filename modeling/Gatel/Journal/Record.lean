import Gatel.Lib.FramedScan
import Gatel.Lib.TornLog
import Gatel.Model.Hash

namespace Gatel.AdminJournal
open LittleEndian (bytes value)

def magic : List UInt8 := utf8 "GATELJ01"
def header : Nat := 84
def maxLog : Nat := 16 * 1024 * 1024
/-- The full HTTP body allowance. -/
def maxBody : Nat := 1024 * 1024
/-- Room for the transaction envelope as well. -/
def maxPayload : Nat := maxBody + 32

inductive Error where
  | tooLarge
  | invalidMagic
  | invalidHeader
  | invalidLength
  | invalidPayload
  | invalidUtf8
  | invalidSequence
  | sequenceExhausted
  | invalidRecord
  | invalidBinding
  deriving DecidableEq, Repr

def Error.message : Error → String
  | .tooLarge => "admin journal exceeds its size limit"
  | .invalidMagic => "unsupported admin journal format"
  | .invalidHeader => "admin journal header checksum mismatch"
  | .invalidLength => "invalid admin journal payload length"
  | .invalidPayload => "admin journal payload checksum mismatch"
  | .invalidUtf8 => "admin journal payload is not UTF-8"
  | .invalidSequence => "admin journal sequence is not contiguous"
  | .sequenceExhausted => "admin journal sequence is exhausted"
  | .invalidRecord => "invalid admin journal transaction record or transition"
  | .invalidBinding => "missing, invalid or mismatched admin journal instance binding"

structure Recovered where
  sequence : U64
  text : Option String
  validBytes : Nat
  incompleteTail : Bool
  deriving DecidableEq

section
variable (blake3 : Digest)

def checksum (domain : String) (bytes : List UInt8) : Fingerprint :=
  ((Hasher.new.updateStr domain).updateBytes bytes).finish blake3

/-- The header up to its own checksum. -/
def headerPart (sequence : U64) (text : String) : List UInt8 :=
  magic ++ bytes 8 sequence.val ++ bytes 4 (utf8 text).length ++
    (checksum blake3 "gatel.admin-intent.payload.v1" (utf8 text)).bytes

def headerSum (sequence : U64) (text : String) : List UInt8 :=
  (checksum blake3 "gatel.admin-intent.header.v1" (headerPart blake3 sequence text)).bytes

def frame (sequence : U64) (text : String) : List UInt8 :=
  headerPart blake3 sequence text ++ headerSum blake3 sequence text ++ utf8 text

def encode (sequence : U64) (text : String) : Except Error (List UInt8) :=
  if sequence = 0 then .error .invalidSequence
  else if (utf8 text).length > maxPayload then .error .tooLarge
  else .ok (frame blake3 sequence text)

/-- The scan loop over what is left of the input. A record takes at least its header, so
as many rounds as there are bytes are enough. -/
@[grind =] def recoverLoop {σ : Type} (visit : σ → U64 → String → Except Error σ) :
    Nat → List UInt8 → Recovered → σ → Except Error (Recovered × σ)
  | 0, _, result, state => .ok (result, state)
  | fuel + 1, remaining, result, state =>
    if remaining = [] then .ok (result, state)
    else
      let common := min remaining.length magic.length
      if remaining.take common ≠ magic.take common then .error .invalidMagic
      else if remaining.length < header then .ok ({ result with incompleteTail := true }, state)
      else if (checksum blake3 "gatel.admin-intent.header.v1" (remaining.take 52)).bytes ≠
          (remaining.take header).drop 52 then .error .invalidHeader
      else
        let sequence : U64 := Fin.ofNat _ (value ((remaining.take 16).drop 8))
        match result.sequence.next with
        | none => .error .sequenceExhausted
        | some expected =>
          if sequence ≠ expected then .error .invalidSequence
          else
            let length := value ((remaining.take 20).drop 16)
            if length > maxPayload then .error .invalidLength
            else if remaining.length - header < length then
              .ok ({ result with incompleteTail := true }, state)
            else
              let payload := (remaining.take (header + length)).drop header
              if (checksum blake3 "gatel.admin-intent.payload.v1" payload).bytes ≠
                  (remaining.take 52).drop 20 then .error .invalidPayload
              else match String.fromUTF8? ⟨payload.toArray⟩ with
                | none => .error .invalidUtf8
                | some text =>
                  match visit state sequence text with
                  | .error e => .error e
                  | .ok state =>
                    recoverLoop visit fuel (remaining.drop (header + length))
                      ⟨sequence, some text, result.validBytes + (header + length),
                        result.incompleteTail⟩ state

def recoverEach {σ : Type} (visit : σ → U64 → String → Except Error σ) (input : List UInt8)
    (base : U64) (init : σ) : Except Error (Recovered × σ) :=
  if input.length > maxLog then .error .tooLarge
  else recoverLoop blake3 visit input.length input ⟨base, none, 0, false⟩ init

/-- Scan without looking at the records. -/
def recover (input : List UInt8) (base : U64) : Except Error Recovered :=
  (recoverEach blake3 (fun (u : Unit) _ _ => .ok u) input base ()).map Prod.fst

end

variable {blake3 : Digest}

/-- Cutting the middle piece out of three. -/
theorem slice {a b c : List UInt8} {i j : Nat} (hi : a.length = i) (hj : i + b.length = j) :
    ((a ++ (b ++ c)).take j).drop i = b := by
  subst hi hj
  rw [← List.append_assoc, ← List.length_append, List.take_left, List.drop_left]

theorem length_magic : magic.length = 8 := by decide

theorem length_headerPart (sequence : U64) (text : String) :
    (headerPart blake3 sequence text).length = 52 := by
  simp [headerPart, length_magic, Fingerprint.length_bytes]

theorem length_headerSum (sequence : U64) (text : String) :
    (headerSum blake3 sequence text).length = 32 := Fingerprint.length_bytes _

theorem length_frame (sequence : U64) (text : String) :
    (frame blake3 sequence text).length = header + (utf8 text).length := by
  rw [frame, List.length_append, List.length_append, length_headerPart, length_headerSum]
  rfl

/-- The bytes start with the whole header of this record. -/
def Headed (blake3 : Digest) (remaining : List UInt8) (sequence : U64) (text : String) : Prop :=
  ∃ rest, remaining = headerPart blake3 sequence text ++ headerSum blake3 sequence text ++ rest

section
variable {remaining : List UInt8} {sequence : U64} {text : String}
  (h : Headed blake3 remaining sequence text)

include h

theorem Headed.length : header ≤ remaining.length := by
  obtain ⟨rest, rfl⟩ := h
  rw [List.length_append, List.length_append, length_headerPart, length_headerSum]
  exact Nat.le_add_right 84 rest.length

theorem Headed.start : remaining.take 8 = magic := by
  obtain ⟨rest, rfl⟩ := h
  simp only [headerPart, List.append_assoc]
  rw [← length_magic, List.take_left]

theorem Headed.part : remaining.take 52 = headerPart blake3 sequence text := by
  obtain ⟨rest, rfl⟩ := h
  rw [List.append_assoc, ← @length_headerPart blake3 sequence text, List.take_left]

theorem Headed.sum : (remaining.take header).drop 52 = headerSum blake3 sequence text := by
  obtain ⟨rest, rfl⟩ := h
  rw [List.append_assoc]
  exact slice (length_headerPart _ _) (by rw [length_headerSum]; rfl)

theorem Headed.number : (remaining.take 16).drop 8 = bytes 8 sequence.val := by
  obtain ⟨rest, rfl⟩ := h
  simp only [headerPart, List.append_assoc]
  exact slice length_magic (by simp)

theorem Headed.size : (remaining.take 20).drop 16 = bytes 4 (utf8 text).length := by
  obtain ⟨rest, rfl⟩ := h
  simp only [headerPart, List.append_assoc]
  rw [← List.append_assoc AdminJournal.magic]
  exact slice (by simp [length_magic]) (by simp)

theorem Headed.payloadSum : (remaining.take 52).drop 20 =
    (checksum blake3 "gatel.admin-intent.payload.v1" (utf8 text)).bytes := by
  rw [h.part]
  simp only [headerPart]
  have hl : (AdminJournal.magic ++ bytes 8 sequence.val ++ bytes 4 (utf8 text).length).length = 20 := by
    simp [length_magic]
  rw [← hl, List.drop_left]

end

section
variable {σ : Type} {visit : σ → U64 → String → Except Error σ}

theorem Headed.common {remaining : List UInt8} {sequence : U64} {text : String}
    (h : Headed blake3 remaining sequence text) :
    remaining.take (min remaining.length magic.length) =
      magic.take (min remaining.length magic.length) := by
  have hl := h.length
  have hm : min remaining.length magic.length = 8 := by
    rw [length_magic]
    exact Nat.min_eq_right (le_trans (by decide) hl)
  rw [hm, h.start, ← length_magic, List.take_length]

theorem size_of_bytes {text : String} (ht : (utf8 text).length ≤ maxPayload) :
    value (bytes 4 (utf8 text).length) = (utf8 text).length := by
  apply LittleEndian.value_bytes
  exact lt_of_le_of_lt ht (by decide)

theorem number_of_bytes (sequence : U64) :
    (Fin.ofNat _ (value (bytes 8 sequence.val)) : U64) = sequence := by
  rw [LittleEndian.value_bytes (lt_of_lt_of_eq sequence.isLt (by norm_num))]
  exact Fin.ofNat_val_eq_self sequence

end

section
variable (blake3)

/-- One round of the scan loop up to the visit. -/
def round (last : U64) (remaining : List UInt8) : FramedScan.Round U64 String Error :=
  let common := min remaining.length magic.length
  if remaining.take common ≠ magic.take common then .fail .invalidMagic
  else if remaining.length < header then .torn
  else if (checksum blake3 "gatel.admin-intent.header.v1" (remaining.take 52)).bytes ≠
      (remaining.take header).drop 52 then .fail .invalidHeader
  else
    let sequence : U64 := Fin.ofNat _ (value ((remaining.take 16).drop 8))
    match last.next with
    | none => .fail .sequenceExhausted
    | some expected =>
      if sequence ≠ expected then .fail .invalidSequence
      else
        let length := value ((remaining.take 20).drop 16)
        if length > maxPayload then .fail .invalidLength
        else if remaining.length - header < length then .torn
        else
          let payload := (remaining.take (header + length)).drop header
          if (checksum blake3 "gatel.admin-intent.payload.v1" payload).bytes ≠
              (remaining.take 52).drop 20 then .fail .invalidPayload
          else match String.fromUTF8? ⟨payload.toArray⟩ with
            | none => .fail .invalidUtf8
            | some text => .record sequence text (header + length)

end

theorem encode_eq_ok {sequence : U64} {text : String} {bytes : List UInt8} :
    encode blake3 sequence text = .ok bytes ↔
      sequence ≠ 0 ∧ (utf8 text).length ≤ maxPayload ∧ frame blake3 sequence text = bytes := by
  unfold encode
  split
  · simp_all
  · split
    · simp_all
    · simp_all

theorem round_frame {last sequence : U64} {text : String} (rest : List UInt8)
    (hn : last.next = some sequence) (ht : (utf8 text).length ≤ maxPayload) :
    round blake3 last (frame blake3 sequence text ++ rest) =
      .record sequence text (frame blake3 sequence text).length := by
  have h : Headed blake3 (frame blake3 sequence text ++ rest) sequence text :=
    ⟨utf8 text ++ rest, by simp [frame]⟩
  have hl := h.length
  have hpayload : ((frame blake3 sequence text ++ rest).take (header + (utf8 text).length)).drop
      header = utf8 text := by
    rw [← @length_frame blake3 sequence text, List.take_left, frame]
    have hh : (headerPart blake3 sequence text ++ headerSum blake3 sequence text).length = header := by
      rw [List.length_append, length_headerPart, length_headerSum]
      rfl
    rw [← hh, List.drop_left]
  have hlong : ¬ (frame blake3 sequence text ++ rest).length - header < (utf8 text).length := by
    rw [List.length_append, length_frame]
    omega
  rw [round]
  simp only [h.common, ne_eq, not_true_eq_false, not_lt.mpr hl, h.part, h.sum,
    headerSum, h.number, number_of_bytes, hn, h.size, size_of_bytes ht, not_lt.mpr ht, hlong,
    hpayload, ↓reduceIte]
  have hsum := h.payloadSum
  rw [h.part] at hsum
  simp only [hsum, not_true_eq_false, ↓reduceIte, fromUTF8?_eq_some.mpr (rfl : utf8 text = utf8 text),
    length_frame]

/-- The beginning of a record is an incomplete tail. -/
theorem round_torn {last sequence : U64} {text : String} {tail : List UInt8}
    (hn : last.next = some sequence) (ht : (utf8 text).length ≤ maxPayload)
    (hp : tail <+: frame blake3 sequence text)
    (hl : tail.length < (frame blake3 sequence text).length) : round blake3 last tail = .torn := by
  obtain ⟨rest, hf⟩ := hp
  have hfull : Headed blake3 (frame blake3 sequence text) sequence text := ⟨utf8 text, rfl⟩
  have hmagic : tail.take (min tail.length magic.length) = magic.take (min tail.length magic.length) := by
    have hm := hfull.start
    rw [← hf] at hm
    have hk : min tail.length magic.length ≤ 8 := length_magic ▸ Nat.min_le_right _ _
    generalize hk' : min tail.length magic.length = k at hk ⊢
    rw [← hm, List.take_take, Nat.min_eq_left hk,
      List.take_append_of_le_length (hk' ▸ Nat.min_le_left _ _)]
  rw [round]
  simp only [↓reduceIte, hmagic, ne_eq, not_true_eq_false]
  by_cases hs : tail.length < header
  · simp only [hs, ↓reduceIte]
  · have h : Headed blake3 tail sequence text := by
      refine ⟨tail.drop header, ?_⟩
      have htake : tail.take header = (frame blake3 sequence text).take header := by
        rw [← hf, List.take_append_of_le_length (not_lt.mp hs)]
      have hhead : (frame blake3 sequence text).take header =
          headerPart blake3 sequence text ++ headerSum blake3 sequence text := by
        have hh : (headerPart blake3 sequence text ++ headerSum blake3 sequence text).length =
            header := by
          rw [List.length_append, length_headerPart, length_headerSum]
          rfl
        rw [frame, ← hh, List.take_left]
      rw [← hhead, ← htake, List.take_append_drop]
    have hshort : tail.length - header < (utf8 text).length := by
      rw [length_frame] at hl
      have hlen := h.length
      omega
    simp only [hs, h.part, h.sum, headerSum, h.number, number_of_bytes, hn, h.size,
      size_of_bytes ht, not_lt.mpr ht, hshort, not_true_eq_false, ↓reduceIte]

theorem take_split {l : List UInt8} {i j : Nat} (h : i ≤ j) : l.take j = l.take i ++ (l.take j).drop i := by
  have hi : l.take i = (l.take j).take i := by rw [List.take_take, Nat.min_eq_left h]
  rw [hi, List.take_append_drop]

theorem bytes_slice {l : List UInt8} {i j : Nat} (h : j ≤ l.length) :
    bytes (j - i) (value ((l.take j).drop i)) = (l.take j).drop i := by
  have hl : ((l.take j).drop i).length = j - i := by
    rw [List.length_drop, List.length_take, Nat.min_eq_left h]
  rw [← hl]
  exact LittleEndian.bytes_value _

theorem number_slice {l : List UInt8} {i : Nat} (h : i + 8 ≤ l.length) :
    (Fin.ofNat _ (value ((l.take (i + 8)).drop i)) : U64).val = value ((l.take (i + 8)).drop i) := by
  apply Nat.mod_eq_of_lt
  have hlt := LittleEndian.value_lt ((l.take (i + 8)).drop i)
  have hl : ((l.take (i + 8)).drop i).length = 8 := by
    rw [List.length_drop, List.length_take]
    omega
  rw [hl] at hlt
  exact lt_of_lt_of_eq hlt (by norm_num)

/-- A record that a round accepts is one the encoder writes. -/
theorem round_sound {last sequence : U64} {text : String} {remaining : List UInt8} {size : Nat}
    (h : round blake3 last remaining = .record sequence text size) :
    last.next = some sequence ∧ encode blake3 sequence text = .ok (remaining.take size) ∧
      size ≤ remaining.length := by
  simp only [round] at h
  split at h <;> [cases h; rename_i hmagic]
  split at h <;> [cases h; rename_i hlong]
  split at h <;> [cases h; rename_i hsum]
  split at h <;> [cases h; rename_i expected hnext]
  split at h <;> [cases h; rename_i hseq]
  split at h <;> [cases h; rename_i hsize]
  split at h <;> [cases h; rename_i hroom]
  split at h <;> [cases h; rename_i hpayload]
  split at h <;> [cases h; rename_i found hutf]
  cases h
  rw [not_not] at hmagic hsum hseq hpayload
  rw [not_lt] at hlong hsize hroom
  have hh : header = 84 := rfl
  rw [hh] at hlong
  have hfound := fromUTF8?_eq_some.mp hutf
  have hlength : (utf8 text).length = value ((remaining.take 20).drop 16) := by
    rw [hfound, List.length_drop, List.length_take]
    omega
  have hnonzero : (Fin.ofNat _ (value ((remaining.take 16).drop 8)) : U64) ≠ 0 := by
    intro hz
    rw [hz] at hseq
    rw [← hseq, U64.next_eq_some] at hnext
    exact absurd hnext (by simp)
  refine ⟨hseq ▸ hnext, ?_, by rw [hh] at hroom ⊢; omega⟩
  refine encode_eq_ok.2 ⟨hnonzero, by rw [hlength]; exact hsize, ?_⟩
  have hm : remaining.take 8 = magic := by
    rw [length_magic, Nat.min_eq_right (by omega)] at hmagic
    rw [hmagic, ← length_magic, List.take_length]
  have hnumber := @number_slice remaining 8 (by omega)
  have hpart : headerPart blake3 (Fin.ofNat _ (value ((remaining.take 16).drop 8))) text =
      remaining.take 52 := by
    rw [headerPart, hnumber, hlength, hfound, hpayload, ← hm,
      @bytes_slice remaining 8 16 (by omega), @bytes_slice remaining 16 20 (by omega),
      ← take_split (by decide), ← take_split (by decide), ← take_split (by decide)]
  rw [frame, headerSum, hpart, hsum, hfound, ← take_split (by decide),
    ← take_split (Nat.le_add_right _ _)]

theorem reads : FramedScan.Reads U64.next (encode blake3) (round blake3) where
  whole rest hn he := by
    obtain ⟨-, hfit, rfl⟩ := encode_eq_ok.1 he
    exact round_frame rest hn hfit
  torn hn he hp hne _ := by
    obtain ⟨-, hfit, rfl⟩ := encode_eq_ok.1 he
    apply round_torn hn hfit hp
    exact lt_of_le_of_ne hp.length_le fun hl => hne (hp.eq_of_length hl)
  sound h := round_sound h
  nonempty he := by
    obtain ⟨-, -, rfl⟩ := encode_eq_ok.1 he
    intro hnil
    have hl := congrArg List.length hnil
    rw [length_frame] at hl
    exact absurd hl (by simp [header])

section
variable {σ : Type} {visit : σ → U64 → String → Except Error σ}

/-- Feed records to a visitor, numbered from `n`, stopping at its first refusal. -/
@[grind =] def replayFrom (visit : σ → U64 → String → Except Error σ) : Nat → List String → σ → Except Error σ
  | _, [], state => .ok state
  | n, text :: records, state =>
    match visit state (Fin.ofNat _ n) text with
    | .error e => .error e
    | .ok state => replayFrom visit (n + 1) records state

theorem replayFrom_append (n : Nat) (records more : List String) (state : σ) :
    replayFrom visit n (records ++ more) state =
      match replayFrom visit n records state with
      | .error e => .error e
      | .ok state => replayFrom visit (n + records.length) more state := by
  induction records generalizing n state with
  | nil => rfl
  | cons text records ih =>
    simp only [List.cons_append, replayFrom]
    cases visit state (Fin.ofNat _ n) text with
    | error e => rfl
    | ok state =>
      simp only [ih, List.length_cons]
      rw [Nat.add_right_comm, Nat.add_assoc]

end

section
variable (blake3)

/-- The record of a place in the log. -/
def frameAt (n : Nat) (text : String) : List UInt8 := frame blake3 (Fin.ofNat _ n) text

def Fits (text : String) : Prop := (utf8 text).length ≤ maxPayload

/-- The bytes of a whole log. -/
def log (records : List String) : List UInt8 := TornLog.logFrom (frameAt blake3) 1 records

abbrev Tail (n : Nat) (tail : List UInt8) : Prop := TornLog.Tail (frameAt blake3) Fits n tail

end

section
variable {σ : Type} {visit : σ → U64 → String → Except Error σ}

theorem next_ofNat {sequence : U64} {n : Nat} (h : sequence.val + 1 = n) (hn : n < 2 ^ 64) :
    sequence.next = some (Fin.ofNat _ n) := by
  rw [U64.next_eq_some]
  have hv : (Fin.ofNat (2 ^ 64) n).val = n := Nat.mod_eq_of_lt hn
  rw [hv, h]

/-- One round of the loop. -/
theorem recoverLoop_succ (fuel : Nat) (remaining : List UInt8) (result : Recovered) (state : σ) :
    recoverLoop blake3 visit (fuel + 1) remaining result state =
      if remaining = [] then .ok (result, state)
      else match round blake3 result.sequence remaining with
        | .torn => .ok ({ result with incompleteTail := true }, state)
        | .fail e => .error e
        | .record n text size =>
          match visit state n text with
          | .error e => .error e
          | .ok state => recoverLoop blake3 visit fuel (remaining.drop size)
              ⟨n, some text, result.validBytes + size, result.incompleteTail⟩ state := by
  rw [recoverLoop]
  generalize recoverLoop blake3 visit fuel = loop
  refine ite_congr rfl (fun _ => rfl) fun _ => ?_
  -- what is done with a round, so that it can be taken to the ends of the checks
  obtain ⟨after, hafter⟩ : ∃ after : FramedScan.Round U64 String Error → Except Error (Recovered × σ), ∀ r, (match r with
      | .torn => .ok ({ result with incompleteTail := true }, state)
      | .fail e => .error e
      | .record n text size =>
        match visit state n text with
        | .error e => .error e
        | .ok state => loop (remaining.drop size)
            ⟨n, some text, result.validBytes + size, result.incompleteTail⟩ state) = after r := ⟨_, fun _ => rfl⟩
  rw [hafter, round]
  dsimp only
  rw [apply_ite after]
  refine ite_congr rfl (fun _ => hafter (.fail _)) fun _ => ?_
  rw [apply_ite after]
  refine ite_congr rfl (fun _ => hafter .torn) fun _ => ?_
  rw [apply_ite after]
  refine ite_congr rfl (fun _ => hafter (.fail _)) fun _ => ?_
  cases result.sequence.next with
  | none => exact hafter (.fail _)
  | some expected =>
    dsimp only
    rw [apply_ite after]
    refine ite_congr rfl (fun _ => hafter (.fail _)) fun _ => ?_
    rw [apply_ite after]
    refine ite_congr rfl (fun _ => hafter (.fail _)) fun _ => ?_
    rw [apply_ite after]
    refine ite_congr rfl (fun _ => hafter .torn) fun _ => ?_
    rw [apply_ite after]
    refine ite_congr rfl (fun _ => hafter (.fail _)) fun _ => ?_
    -- both sides decode the same payload
    generalize String.fromUTF8? _ = decoded
    cases decoded with
    | none => exact hafter (.fail _)
    | some text => exact hafter (.record _ _ _)

/-- The loop is the general scan, with the last text seen kept beside the visitor's state. -/
theorem recoverLoop_eq (fuel : Nat) (remaining : List UInt8) (result : Recovered) (state : σ) :
    recoverLoop blake3 visit fuel remaining result state =
      (FramedScan.scan (round blake3)
        (fun p n text => (visit p.2 n text).map fun s => (some text, s)) fuel remaining
        ⟨result.sequence, result.validBytes, result.incompleteTail⟩ (result.text, state)).map
      fun q => (⟨q.1.sequence, q.2.1, q.1.validBytes, q.1.incompleteTail⟩, q.2.2) := by
  induction fuel generalizing remaining result state with
  | zero => rfl
  | succ fuel ih =>
    rw [recoverLoop_succ, FramedScan.scan]
    dsimp only
    split
    · rfl
    · cases round blake3 result.sequence remaining with
      | torn => rfl
      | fail e => rfl
      | record n text size =>
        dsimp only
        cases visit state n text with
        | error e => rfl
        | ok state => exact ih _ _ _

theorem visitAll_text (l : List (U64 × String)) (text : Option String) (state : σ) :
    FramedScan.visitAll (fun p n text => (visit p.2 n text).map fun s => (some text, s)) l
        (text, state) =
      (FramedScan.visitAll visit l state).map fun s => ((l.map Prod.snd).getLast?.or text, s) := by
  induction l generalizing text state with
  | nil => rfl
  | cons p l ih =>
    simp only [FramedScan.visitAll]
    cases visit state p.1 p.2 with
    | error e => rfl
    | ok state =>
      refine (ih (some p.2) state).trans ?_
      cases hl : FramedScan.visitAll visit l state with
      | error e => simp [hl, Except.map]
      | ok state =>
        simp only [hl, Except.map, List.map_cons, List.getLast?_cons, Option.some_or]
        cases (l.map Prod.snd).getLast? <;> rfl

/-- Scanning records with a torn end hands the whole ones to the visitor. -/
theorem recoverEach_encoded {base last : U64} {l : List (U64 × String)} {bytes tail : List UInt8}
    (he : FramedScan.Encoded U64.next (encode blake3) base l last bytes)
    (ht : FramedScan.Torn U64.next (encode blake3) last tail) (init : σ)
    (hmax : (bytes ++ tail).length ≤ maxLog) :
    recoverEach blake3 visit (bytes ++ tail) base init =
      match FramedScan.visitAll visit l init with
      | .error e => .error e
      | .ok state => .ok (⟨last, (l.map Prod.snd).getLast?, bytes.length, !tail.isEmpty⟩, state) := by
  rw [recoverEach, if_neg (not_lt.mpr hmax), recoverLoop_eq, reads.scan_encoded he ht le_rfl,
    visitAll_text]
  cases FramedScan.visitAll visit l init with
  | error e => rfl
  | ok state => simp [Except.map]

theorem replayFrom_eq (n : Nat) (records : List String) (state : σ) :
    replayFrom visit n records state =
      FramedScan.visitAll visit (FramedScan.numberedFrom _ n records) state := by
  induction records generalizing n state with
  | nil => rfl
  | cons text records ih =>
    simp only [replayFrom, FramedScan.numberedFrom, FramedScan.visitAll]
    cases visit state (Fin.ofNat _ n) text with
    | error e => rfl
    | ok state => exact ih (n + 1) state

theorem encoded_log (records : List String) {base : U64} {n : Nat} (hn : base.val + 1 = n)
    (hlt : base.val + records.length < 2 ^ 64) (hf : ∀ text ∈ records, Fits text) :
    FramedScan.Encoded U64.next (encode blake3) base (FramedScan.numberedFrom _ n records)
      (Fin.ofNat _ (base.val + records.length)) (TornLog.logFrom (frameAt blake3) n records) := by
  induction records generalizing base n with
  | nil =>
    have hlast : Fin.ofNat (2 ^ 64) (base.val + 0) = base := Fin.ofNat_val_eq_self base
    simp only [List.length_nil, hlast]
    exact .nil base
  | cons text records ih =>
    rw [List.length_cons] at hlt
    have hval : (Fin.ofNat (2 ^ 64) n).val = n := Nat.mod_eq_of_lt (by omega)
    have hnext := next_ofNat hn (by omega)
    have hframe : encode blake3 (Fin.ofNat _ n) text = .ok (frameAt blake3 n text) := by
      refine encode_eq_ok.2 ⟨?_, hf text List.mem_cons_self, rfl⟩
      intro hz
      have hv := congrArg Fin.val hz
      rw [hval] at hv
      exact absurd hv (by simp; omega)
    have hrec := @ih (Fin.ofNat _ n) (n + 1) (by rw [hval]) (by rw [hval]; omega)
      (fun t h => hf t (List.mem_cons_of_mem _ h))
    rw [hval, show n + records.length = base.val + (text :: records).length by
      rw [List.length_cons]; omega] at hrec
    exact .cons hnext hframe hrec

theorem log_concat (records : List String) (text : String) :
    log blake3 (records ++ [text]) = log blake3 records ++ frameAt blake3 (1 + records.length) text :=
  TornLog.logFrom_concat 1 records text

theorem length_frameAt (n : Nat) (text : String) :
    (frameAt blake3 n text).length = header + (utf8 text).length := length_frame _ _

theorem length_log (records : List String) : header * records.length ≤ (log blake3 records).length := by
  have hgen : ∀ n, header * records.length ≤
      (TornLog.logFrom (frameAt blake3) n records).length := by
    induction records with
    | nil => simp
    | cons text records ih =>
      intro n
      have hlen : (frameAt blake3 n text).length = header + (utf8 text).length := length_frame _ _
      have hrec := ih (n + 1)
      rw [TornLog.logFrom, List.length_append, hlen, List.length_cons, Nat.mul_succ]
      omega
  exact hgen 1

theorem torn_of_tail {n : Nat} {last : U64} {tail : List UInt8} (hn : last.val + 1 = n)
    (hlt : n < 2 ^ 64) (h : Tail blake3 n tail) :
    FramedScan.Torn U64.next (encode blake3) last tail := by
  rcases h with rfl | ⟨text, hfit, hp, hl⟩
  · exact .inl rfl
  · refine .inr ⟨Fin.ofNat _ n, text, frameAt blake3 n text, next_ofNat hn hlt, ?_, hp, ?_⟩
    · refine encode_eq_ok.2 ⟨?_, hfit, rfl⟩
      intro hz
      have hv := congrArg Fin.val hz
      have hval : (Fin.ofNat (2 ^ 64) n).val = n := Nat.mod_eq_of_lt hlt
      rw [hval] at hv
      exact absurd hv (by simp; omega)
    · rintro rfl
      exact absurd hl (lt_irrefl _)

/-- Scanning a log with a torn end replays exactly its whole records. -/
theorem recoverEach_log {records : List String} {tail : List UInt8} (init : σ)
    (hmax : (log blake3 records ++ tail).length ≤ maxLog) (hf : ∀ text ∈ records, Fits text)
    (ht : Tail blake3 (1 + records.length) tail) :
    recoverEach blake3 visit (log blake3 records ++ tail) 0 init =
      match replayFrom visit 1 records init with
      | .error e => .error e
      | .ok state => .ok (⟨Fin.ofNat _ records.length, records.getLast?,
          (log blake3 records).length, !tail.isEmpty⟩, state) := by
  have hcount := @length_log blake3 records
  have hlt : 1 + records.length < 2 ^ 64 := by
    rw [show header = 84 from rfl] at hcount
    rw [show maxLog = 16777216 from rfl, List.length_append] at hmax
    omega
  have hval : (Fin.ofNat (2 ^ 64) records.length).val = records.length :=
    Nat.mod_eq_of_lt (by omega)
  have he := @encoded_log blake3 records 0 1 (by simp) (by simp; omega) hf
  simp only [Fin.val_zero, Nat.zero_add] at he
  have ht' : FramedScan.Torn U64.next (encode blake3) (Fin.ofNat _ records.length) tail :=
    torn_of_tail (by rw [hval, Nat.add_comm]) hlt ht
  rw [log, recoverEach_encoded he ht' init hmax, replayFrom_eq, FramedScan.map_snd_numberedFrom]

end

section
variable {σ : Type}

theorem map_eq_ok {ε α β : Type} {f : α → β} {x : Except ε α} {b : β} (h : x.map f = .ok b) :
    ∃ a, x = .ok a ∧ f a = b := by
  cases x with
  | error e => cases h
  | ok a => exact ⟨a, rfl, Except.ok.inj h⟩

theorem next_val (n m : U64) (h : n.next = some m) : m.val = n.val + 1 := U64.next_eq_some.mp h

theorem recoverEach_sound {visit : σ → U64 → String → Except Error σ} {input : List UInt8}
    {base : U64} {init state : σ} {r : Recovered}
    (h : recoverEach blake3 visit input base init = .ok (r, state)) :
    ∃ l tail, input = input.take r.validBytes ++ tail ∧ r.validBytes ≤ input.length ∧
      FramedScan.Encoded U64.next (encode blake3) base l r.sequence (input.take r.validBytes) ∧
      r.incompleteTail = !tail.isEmpty ∧ (tail = [] ∨ round blake3 r.sequence tail = .torn) ∧
      FramedScan.visitAll visit l init = .ok state := by
  unfold recoverEach at h
  split at h
  · cases h
  · rw [recoverLoop_eq] at h
    obtain ⟨⟨s, text, state⟩, hs, he⟩ := map_eq_ok h
    cases he
    obtain ⟨l, bytes, tail, rfl, hl, hv, hflag, htorn, hvisit⟩ := reads.scan_sound le_rfl hs
    rw [visitAll_text] at hvisit
    obtain ⟨state, hstate, he⟩ := map_eq_ok hvisit
    cases he
    simp only [Nat.zero_add] at hv
    refine ⟨l, tail, ?_, ?_, ?_, by simpa using hflag, htorn, hstate⟩
    · simp [hv]
    · simp [hv]
    · simpa [hv] using hl

/-- The framing is exact: a log of whole records with a torn end is read back record by
record, and whatever is read back is such a log. -/
theorem framing_exact (blake3 : Digest) (base : U64) (visit : σ → U64 → String → σ) (init : σ) :
    (∀ texts : List String, base.val + texts.length < 2 ^ 64 → (∀ text ∈ texts, Fits text) →
      ∃ (last : U64) (bytes : List UInt8), last.val = base.val + texts.length ∧
        FramedScan.Encoded U64.next (encode blake3) base
          (FramedScan.numberedFrom (2 ^ 64) (base.val + 1) texts) last bytes ∧
        ∀ tail, FramedScan.Torn U64.next (encode blake3) last tail →
          (bytes ++ tail).length ≤ maxLog →
          recoverEach blake3 (fun state n text => .ok (visit state n text)) (bytes ++ tail) base init =
            .ok (⟨last, texts.getLast?, bytes.length, !tail.isEmpty⟩,
              (FramedScan.numberedFrom (2 ^ 64) (base.val + 1) texts).foldl
                (fun state p => visit state p.1 p.2) init)) ∧
    ∀ (input : List UInt8) (r : Recovered) (state : σ),
      recoverEach blake3 (fun state n text => .ok (visit state n text)) input base init =
        .ok (r, state) →
      ∃ texts : List String, r.validBytes ≤ input.length ∧
        FramedScan.Encoded U64.next (encode blake3) base
          (FramedScan.numberedFrom (2 ^ 64) (base.val + 1) texts) r.sequence
          (input.take r.validBytes) ∧
        state = (FramedScan.numberedFrom (2 ^ 64) (base.val + 1) texts).foldl
          (fun state p => visit state p.1 p.2) init := by
  constructor
  · intro texts hlt hf
    have hlast : (Fin.ofNat (2 ^ 64) (base.val + texts.length)).val = base.val + texts.length :=
      Nat.mod_eq_of_lt hlt
    have he := @encoded_log blake3 texts base _ rfl hlt hf
    refine ⟨_, _, hlast, he, ?_⟩
    intro tail ht hmax
    rw [recoverEach_encoded he ht init hmax, FramedScan.visitAll_total,
      FramedScan.map_snd_numberedFrom]
  · intro input r state h
    obtain ⟨l, tail, -, hlen, hl, -, -, hvisit⟩ := recoverEach_sound h
    have hnum := (hl.numbered next_val).1
    rw [FramedScan.visitAll_total] at hvisit
    rw [hnum] at hl hvisit
    exact ⟨l.map Prod.snd, hlen, hl, (Except.ok.inj hvisit).symm⟩

end

end Gatel.AdminJournal
