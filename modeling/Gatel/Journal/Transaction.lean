import Gatel.Journal.Record

namespace Gatel.AdminJournal

/-- `str::strip_prefix`. -/
def stripStart (start s : String) : Option String :=
  if start.toList.isPrefixOf s.toList then some (String.ofList (s.toList.drop start.toList.length))
  else none

/-- `u64::from_str`: an optional plus sign, then digits, without overflow. -/
def parseU64 (s : String) : Option U64 :=
  let digits := if s.toList.head? = some '+' then s.toList.tail else s.toList
  if digits = [] ∨ ¬ digits.all Char.isDigit then none
  else if h : Nat.ofDigitChars 10 digits 0 < 2 ^ 64 then some ⟨_, h⟩ else none

def U64.display (n : U64) : String := n.val.repr

def intentMark : String := "GATEL-TX1 I\n"
def appliedMark : String := "GATEL-TX1 A\n"
def rejectedMark : String := "GATEL-TX1 R\n"

/-- A decision at its largest: the longest decimal has 20 digits. -/
def decisionReserve : Nat := header + (utf8 appliedMark).length + 20

inductive Decision where
  | applied
  | rejected
  deriving DecidableEq, Repr

def Decision.mark : Decision → String
  | .applied => appliedMark
  | .rejected => rejectedMark

structure Intent where
  sequence : U64
  text : String
  deriving DecidableEq

/-- The latest intent, the last confirmed one, and the latest one's fate. -/
structure State where
  latest : Option Intent
  applied : Option Intent
  decision : Option Decision
  deriving DecidableEq

namespace State

def default : State := ⟨none, none, none⟩

/-- The decision part of `accept`. -/
def decide (s : State) (decision : Decision) (reference : String) : Except Error State :=
  match parseU64 reference with
  | none => .error .invalidRecord
  | some referenced =>
    if reference ≠ U64.display referenced ∨ s.decision.isSome ∨
        s.latest.all (fun intent => intent.sequence ≠ referenced) then
      .error .invalidRecord
    else .ok { s with
      applied := if decision = .applied then s.latest else s.applied
      decision := some decision }

def accept (s : State) (sequence : U64) (payload : String) : Except Error State :=
  match stripStart intentMark payload with
  | some text =>
    if (utf8 text).length > maxBody ∨ (s.latest.isSome ∧ s.decision.isNone) then
      .error .invalidRecord
    else .ok { s with latest := some ⟨sequence, text⟩, decision := none }
  | none =>
    match stripStart appliedMark payload with
    | some reference => s.decide .applied reference
    | none =>
      match stripStart rejectedMark payload with
      | some reference => s.decide .rejected reference
      | none => .error .invalidRecord

end State

/-- Why an operation on the journal fails, with what the error says. -/
inductive Failure where
  | journal (error : Error)
  | invalidInstance
  | readOnly
  | poisoned
  | incompleteTail
  | exhausted
  | capacity
  | reservation
  | lengthChanged
  | tailChanged
  | sizeLimit
  | locked
  | io
  deriving DecidableEq, Repr

def Failure.message : Failure → String
  | .journal error => error.message
  | .invalidInstance =>
    "journal instance identity must be 1..256 printable ASCII bytes without whitespace"
  | .readOnly => "journal is inspection-only"
  | .poisoned => "journal writer is poisoned; reopen and inspect outcome"
  | .incompleteTail => "journal has an incomplete tail; explicit recovery required"
  | .exhausted => "journal sequence exhausted"
  | .capacity => "journal capacity exhausted; checkpoint required"
  | .reservation => "journal capacity cannot hold intent and decision; log compaction or rotation required; offline compaction needs a fully covered checkpoint"
  | .lengthChanged => "journal length changed outside its writer"
  | .tailChanged => "journal changed since incomplete tail was observed"
  | .sizeLimit => "journal exceeds size limit"
  | .locked => "cannot acquire journal writer lock"
  | .io => "input/output error"

/-- What a write to the log comes to: it succeeds, or some part of it reaches the disk
before the failure, possibly all of it. -/
inductive Fate where
  | done
  | torn (written : Nat)

/-- What a truncation comes to: it succeeds, or fails with some of the tail left. -/
inductive Cut where
  | done
  | failed (left : Nat)

structure Store where
  sequence : U64
  text : Option String
  validBytes : Nat
  incompleteTail : Bool
  tailIdentity : Option Fingerprint
  poisoned : Bool
  writable : Bool
  deriving DecidableEq

section
variable (blake3 : Digest)

def tailIdentity (bytes : List UInt8) : Fingerprint :=
  checksum blake3 "gatel.admin-intent.tail-observation.v1" bytes

namespace Store

def remainingCapacity (s : Store) : Nat := maxLog - s.validBytes

/-- Open and replay. The replayed state is the caller's to keep only on success. -/
def openMode {σ : Type} (visit : σ → U64 → String → Except Error σ) (init : σ) (create : Bool)
    (disk : List UInt8) : Except Failure (Store × σ) :=
  if disk.length > maxLog then .error .sizeLimit
  else match recoverEach blake3 visit disk 0 init with
  | .error e => .error (.journal e)
  | .ok (recovered, state) =>
    .ok (⟨recovered.sequence, recovered.text, recovered.validBytes, recovered.incompleteTail,
      if recovered.incompleteTail then some (AdminJournal.tailIdentity blake3 disk) else none,
      false, create⟩, state)

/-- `append_with`: what is left on disk, the store after it, and the result. Once the
write starts the store is poisoned until it is known to have succeeded. -/
def append (s : Store) (text : String) (fate : Fate) (disk : List UInt8) :
    List UInt8 × Store × Except Failure U64 :=
  if ¬ s.writable then (disk, s, .error .readOnly)
  else if s.poisoned then (disk, s, .error .poisoned)
  else if s.incompleteTail then (disk, s, .error .incompleteTail)
  else match s.sequence.next with
    | none => (disk, s, .error .exhausted)
    | some sequence =>
      match encode blake3 sequence text with
      | .error e => (disk, s, .error (.journal e))
      | .ok record =>
        if record.length > maxLog - s.validBytes then (disk, s, .error .capacity)
        else if disk.length ≠ s.validBytes then
          (disk, { s with poisoned := true }, .error .lengthChanged)
        else match fate with
          | .torn written => (disk ++ record.take written, { s with poisoned := true }, .error .io)
          | .done =>
            (disk ++ record,
              { s with
                sequence := sequence
                text := some text
                validBytes := s.validBytes + record.length },
              .ok sequence)

/-- `discard_tail_with`: re-inspect the log, then cut it at the last whole record. -/
def discardTail (s : Store) (cut : Cut) (disk : List UInt8) :
    List UInt8 × Store × Except Failure Nat :=
  if ¬ s.writable then (disk, s, .error .readOnly)
  else if s.poisoned then (disk, s, .error .poisoned)
  else if ¬ s.incompleteTail then (disk, s, .ok 0)
  else
    let poisoned := { s with poisoned := true }
    if disk.length > maxLog then (disk, poisoned, .error .sizeLimit)
    else match recover blake3 disk 0 with
    | .error e => (disk, poisoned, .error (.journal e))
    | .ok recovered =>
      if some (AdminJournal.tailIdentity blake3 disk) ≠ s.tailIdentity ∨ ¬ recovered.incompleteTail ∨
          recovered.validBytes ≠ s.validBytes ∨ recovered.sequence ≠ s.sequence ∨
          recovered.text ≠ s.text then
        (disk, poisoned, .error .tailChanged)
      else match cut with
        | .failed left => (disk.take (s.validBytes + left), poisoned, .error .io)
        | .done =>
          (disk.take s.validBytes, { s with incompleteTail := false, tailIdentity := none },
            .ok (disk.length - s.validBytes))

end Store

def bindingMark : String := "GATEL-INSTANCE1\n"

/-- The first record of the log of this instance. -/
def bindingRecord (name : String) : Except Failure String :=
  if name.toList.isEmpty ∨ (utf8 name).length > 256 ∨
      ¬ (utf8 name).all (fun b => 33 ≤ b.toNat ∧ b.toNat ≤ 126) then
    .error .invalidInstance
  else .ok (bindingMark ++
    (checksum blake3 "gatel.admin-journal.instance.v1" (utf8 name)).toHex)

/-- Replay under a binding: the first record is the instance's, no later one is a binding. -/
def replay (expected : String) (state : State) (sequence : U64) (payload : String) :
    Except Error State :=
  if sequence = 1 then
    if payload ≠ expected then .error .invalidBinding else .ok state
  else if (stripStart bindingMark payload).isSome then .error .invalidBinding
  else state.accept sequence payload

structure Journal where
  store : Store
  state : State
  name : String
  deriving DecidableEq

/-- Open the log of an instance; an empty log is bound to it first. -/
@[grind =] def openJournal (name : String) (create : Bool) (fate : Fate) (disk : List UInt8) :
    List UInt8 × Except Failure Journal :=
  match bindingRecord blake3 name with
  | .error e => (disk, .error e)
  | .ok expected =>
    match Store.openMode blake3 (replay expected) .default create disk with
    | .error e => (disk, .error e)
    | .ok (store, state) =>
      if store.sequence ≠ 0 then (disk, .ok ⟨store, state, name⟩)
      else if store.incompleteTail ∨ ¬ create then (disk, .error (.journal .invalidBinding))
      else match store.append blake3 expected fate disk with
        | (disk, _, .error e) => (disk, .error e)
        | (disk, store, .ok _) => (disk, .ok ⟨store, state, name⟩)

namespace Journal

/-- Stage the transition, write, and only then show it. -/
def append (j : Journal) (payload : String) (fate : Fate) (disk : List UInt8) :
    List UInt8 × Journal × Except Failure U64 :=
  match j.store.sequence.next with
  | none => (disk, j, .error (.journal .invalidRecord))
  | some sequence =>
    match j.state.accept sequence payload with
    | .error _ => (disk, j, .error (.journal .invalidRecord))
    | .ok candidate =>
      match j.store.append blake3 payload fate disk with
      | (disk, store, .error e) => (disk, { j with store := store }, .error e)
      | (disk, store, .ok written) => (disk, { j with store := store, state := candidate }, .ok written)

/-- Record an intent, keeping room for its decision. -/
def beginIntent (j : Journal) (text : String) (fate : Fate) (disk : List UInt8) :
    List UInt8 × Journal × Except Failure U64 :=
  if (utf8 text).length > maxBody then (disk, j, .error (.journal .invalidRecord))
  else if header + (utf8 intentMark).length + (utf8 text).length + decisionReserve >
      j.store.remainingCapacity then
    (disk, j, .error .reservation)
  else j.append blake3 (intentMark ++ text) fate disk

/-- Record what became of an intent. -/
def finish (j : Journal) (intent : U64) (decision : Decision) (fate : Fate) (disk : List UInt8) :
    List UInt8 × Journal × Except Failure U64 :=
  j.append blake3 (decision.mark ++ U64.display intent) fate disk

def discardIncompleteTail (j : Journal) (cut : Cut) (disk : List UInt8) :
    List UInt8 × Journal × Except Failure Nat :=
  match j.store.discardTail blake3 cut disk with
  | (disk, store, result) => (disk, { j with store := store }, result)

end Journal

end

theorem stripStart_append (start t : String) : stripStart start (start ++ t) = some t := by
  unfold stripStart
  rw [String.toList_append, if_pos (by simp), List.drop_left]
  simp

theorem stripStart_eq_some {start s t : String} (h : stripStart start s = some t) :
    s = start ++ t := by
  unfold stripStart at h
  split at h
  · rename_i hp
    obtain ⟨rest, hr⟩ := List.isPrefixOf_iff_prefix.mp hp
    simp only [Option.some.injEq] at h
    apply String.toList_injective
    rw [← h, String.toList_append, ← hr, List.drop_left, String.toList_ofList]
  · cases h

theorem parseU64_display (n : U64) : parseU64 (U64.display n) = some n := by
  have hl : (U64.display n).toList = Nat.toDigits 10 n.val := Nat.toList_repr
  have hd : ∀ c ∈ Nat.toDigits 10 n.val, c.isDigit := fun c hc =>
    Nat.isDigit_of_mem_toDigits (by decide) (by decide) hc
  have hplus : (Nat.toDigits 10 n.val).head? ≠ some '+' := by
    intro h
    exact absurd (hd '+' (List.mem_of_mem_head? h)) (by decide)
  unfold parseU64
  simp only [hl, hplus, ↓reduceIte, Nat.ofDigitChars_ten_toDigits]
  rw [if_neg, dif_pos n.isLt]
  simp only [not_or, not_not, List.all_eq_true]
  exact ⟨Nat.toDigits_ne_nil, hd⟩

/-- The decimal of a sequence number, in bytes. -/
theorem length_display (n : U64) : (utf8 (U64.display n)).length ≤ 20 := by
  have hl : (U64.display n).toList = Nat.toDigits 10 n.val := Nat.toList_repr
  rw [length_utf8_of_ascii, hl, Nat.length_toDigits_le_iff (by decide) (by decide)]
  · exact lt_trans n.isLt (by decide)
  · intro c hc
    rw [hl] at hc
    have hd := Nat.isDigit_of_mem_toDigits (by decide) (by decide) hc
    rw [Char.utf8Size_eq_one_iff]
    simp only [Char.isDigit, Bool.and_eq_true, decide_eq_true_eq] at hd
    exact UInt32.le_trans hd.2 (by decide)

/-- A decision of any intent fits what is kept for it. -/
theorem length_decision (n : U64) (decision : Decision) :
    header + (utf8 (decision.mark ++ U64.display n)).length ≤ decisionReserve := by
  have hm : (utf8 decision.mark).length = (utf8 appliedMark).length := by
    cases decision <;> decide
  have hd := length_display n
  rw [utf8_append, List.length_append, hm, decisionReserve]
  omega

/-- The marks begin alike and differ before their end, so none continues another. -/
theorem stripStart_marks (t : String) :
    stripStart intentMark (appliedMark ++ t) = none ∧
    stripStart intentMark (rejectedMark ++ t) = none ∧
    stripStart appliedMark (rejectedMark ++ t) = none ∧
    stripStart bindingMark (intentMark ++ t) = none ∧
    stripStart bindingMark (appliedMark ++ t) = none ∧
    stripStart bindingMark (rejectedMark ++ t) = none := by
  simp [stripStart, intentMark, appliedMark, rejectedMark, bindingMark, List.isPrefixOf]

theorem length_toHex (f : Fingerprint) : (utf8 f.toHex).length = 64 := by
  have hdigit : ∀ n < 16, (Fingerprint.hexDigit n).utf8Size = 1 := by decide
  have hsum : ∀ l : List UInt8, (l.flatMap fun b =>
      [Fingerprint.hexDigit (b.toNat / 16), Fingerprint.hexDigit (b.toNat % 16)]).length =
        2 * l.length := by
    intro l
    induction l with
    | nil => rfl
    | cons b l ih =>
      rw [List.flatMap_cons, List.length_append, ih]
      simp
      omega
  rw [length_utf8_of_ascii, Fingerprint.toHex, String.toList_ofList, hsum, f.length_bytes]
  intro c hc
  rw [Fingerprint.toHex, String.toList_ofList, List.mem_flatMap] at hc
  obtain ⟨b, -, hc⟩ := hc
  have hb := b.toNat_lt
  simp only [List.mem_cons, List.not_mem_nil, or_false] at hc
  rcases hc with rfl | rfl
  · exact hdigit _ (by omega)
  · exact hdigit _ (by omega)

/-- Every binding record is small. -/
theorem length_bindingRecord {blake3 : Digest} {name expected : String}
    (h : bindingRecord blake3 name = .ok expected) : (utf8 expected).length = 80 := by
  unfold bindingRecord at h
  split at h
  · cases h
  · rw [← Except.ok.inj h, utf8_append, List.length_append, length_toHex]
    decide

/-- The latest intent awaits its decision. -/
def State.Undecided (s : State) : Prop := s.latest.isSome ∧ s.decision = none

/-- What an accepted record is: an intent when none is pending, or the decision of the
pending one, in canonical decimal. -/
theorem State.accept_cases {s s' : State} {sequence : U64} {payload : String}
    (h : s.accept sequence payload = .ok s') :
    (∃ text, payload = intentMark ++ text ∧ (utf8 text).length ≤ maxBody ∧ ¬ s.Undecided ∧
      s' = { s with latest := some ⟨sequence, text⟩, decision := none }) ∨
    (∃ decision intent, payload = decision.mark ++ U64.display intent.sequence ∧
      s.latest = some intent ∧ s.decision = none ∧
      s' = { s with
        applied := if decision = .applied then some intent else s.applied
        decision := some decision }) := by
  have decided : ∀ (decision : Decision) {reference : String},
      payload = decision.mark ++ reference → s.decide decision reference = .ok s' →
      ∃ decision intent, payload = Decision.mark decision ++ U64.display intent.sequence ∧
        s.latest = some intent ∧ s.decision = none ∧
        s' = { s with
          applied := if decision = .applied then some intent else s.applied
          decision := some decision } := by
    intro decision reference hp hd
    unfold State.decide at hd
    cases hr : parseU64 reference with
    | none => rw [hr] at hd; cases hd
    | some referenced =>
      simp only [hr] at hd
      split at hd
      · cases hd
      · rename_i hc
        simp only [not_or, not_not] at hc
        obtain ⟨hcanon, hdec, hlat⟩ := hc
        cases hl : s.latest with
        | none => simp [hl] at hlat
        | some intent =>
          have hseq : intent.sequence = referenced := by simpa [hl] using hlat
          simp only [Except.ok.injEq] at hd
          refine ⟨decision, intent, ?_, rfl, by simpa using hdec, ?_⟩
          · rw [hp, hcanon, hseq]
          · rw [← hd, hl]
  unfold State.accept at h
  cases hi : stripStart intentMark payload with
  | some text =>
    simp only [hi] at h
    split at h
    · cases h
    · rename_i hc
      simp only [not_or, not_lt] at hc
      left
      refine ⟨text, stripStart_eq_some hi, hc.1, ?_, (Except.ok.inj h).symm⟩
      intro hu
      exact hc.2 ⟨hu.1, by simp [hu.2]⟩
  | none =>
    simp only [hi] at h
    right
    cases ha : stripStart appliedMark payload with
    | some reference =>
      rw [ha] at h
      exact decided .applied (stripStart_eq_some ha) h
    | none =>
      simp only [ha] at h
      cases hr : stripStart rejectedMark payload with
      | some reference =>
        rw [hr] at h
        exact decided .rejected (stripStart_eq_some hr) h
      | none => rw [hr] at h; cases h

/-- The decision of the pending intent is always accepted. -/
theorem State.accept_decision {s : State} {intent : Intent} (hl : s.latest = some intent)
    (hd : s.decision = none) (sequence : U64) (decision : Decision) :
    s.accept sequence (decision.mark ++ U64.display intent.sequence) = .ok { s with
      applied := if decision = .applied then some intent else s.applied
      decision := some decision } := by
  have hdecide : s.decide decision (U64.display intent.sequence) = .ok { s with
      applied := if decision = .applied then some intent else s.applied
      decision := some decision } := by
    unfold State.decide
    simp [parseU64_display, hl, hd]
  unfold State.accept
  cases decision with
  | applied =>
    rw [Decision.mark, (stripStart_marks _).1, stripStart_append]
    exact hdecide
  | rejected =>
    rw [Decision.mark, (stripStart_marks _).2.1, (stripStart_marks _).2.2.1, stripStart_append]
    exact hdecide

/-- No accepted record passes for a binding. -/
theorem State.accept_not_binding {s s' : State} {sequence : U64} {payload : String}
    (h : s.accept sequence payload = .ok s') : stripStart bindingMark payload = none := by
  rcases State.accept_cases h with ⟨text, rfl, -⟩ | ⟨decision, intent, rfl, -⟩
  · exact (stripStart_marks text).2.2.2.1
  · cases decision with
    | applied => exact (stripStart_marks _).2.2.2.2.1
    | rejected => exact (stripStart_marks _).2.2.2.2.2

end Gatel.AdminJournal
