import Gatel.Lib.Run
import Gatel.Journal.Transaction

namespace Gatel.AdminJournal

/-- The log on disk and the process that may have it open. The last two fields are kept
for the statements only: the state after the last operation that succeeded, and the
record of the last write that failed since. -/
structure Host where
  disk : List UInt8
  handle : Option Journal
  known : State
  doubt : Option String

inductive Action where
  | openJournal (name : String) (create : Bool) (fate : Fate)
  | beginIntent (text : String) (fate : Fate)
  | finish (intent : U64) (decision : Decision) (fate : Fate)
  | discardIncompleteTail (cut : Cut)
  | crash

section
variable (blake3 : Digest)

namespace Host

/-- No journal yet. -/
def empty : Host := ⟨[], none, .default, none⟩

/-- What is known after a write of this record. -/
@[grind =] def settle (h : Host) (disk : List UInt8) (handle : Option Journal) (payload : Option String) :
    Except Failure State → Host
  | .ok state => ⟨disk, handle, state, none⟩
  | .error .io => ⟨disk, handle, h.known, payload⟩
  | .error _ => ⟨disk, handle, h.known, h.doubt⟩

/-- One operation of the process, or its death. A live journal holds the writer lock. -/
@[grind =] def act (h : Host) : Action → Host
  | .openJournal name create fate =>
    if h.handle.isSome then h
    else
      let (disk, result) := AdminJournal.openJournal blake3 name create fate h.disk
      h.settle disk result.toOption (bindingRecord blake3 name).toOption (result.map Journal.state)
  | .beginIntent text fate =>
    match h.handle with
    | none => h
    | some j =>
      let (disk, j, result) := j.beginIntent blake3 text fate h.disk
      h.settle disk (some j) (some (intentMark ++ text)) (result.map fun _ => j.state)
  | .finish intent decision fate =>
    match h.handle with
    | none => h
    | some j =>
      let (disk, j, result) := j.finish blake3 intent decision fate h.disk
      h.settle disk (some j) (some (decision.mark ++ U64.display intent))
        (result.map fun _ => j.state)
  | .discardIncompleteTail cut =>
    match h.handle with
    | none => h
    | some j =>
      let (disk, j, _) := j.discardIncompleteTail blake3 cut h.disk
      { h with disk := disk, handle := some j }
  | .crash => { h with handle := none }

def run (h : Host) (actions : List Action) : Host := Run.run (act blake3) h actions

end Host

end

/-- What replay makes of these records, the first being the binding whatever it is. -/
def rebuilt : List String → Except Error State
  | [] => .ok .default
  | binding :: records => replayFrom (replay binding) 1 (binding :: records) .default

variable {blake3 : Digest}

theorem ofNat_ne_one {n : Nat} (h : 1 < n) (hlt : n < 2 ^ 64) : (Fin.ofNat _ n : U64) ≠ 1 := by
  intro he
  have hv : (Fin.ofNat (2 ^ 64) n).val = 1 := by
    rw [he]
    rfl
  rw [Fin.val_ofNat, Nat.mod_eq_of_lt hlt] at hv
  omega

theorem replay_first (expected binding : String) (state : State) :
    replay expected state (Fin.ofNat _ 1) binding =
      if binding = expected then .ok state else .error .invalidBinding := by
  unfold replay
  rw [if_pos (by decide)]
  split <;> grind

theorem replay_later {expected payload : String} {state next : State} {n : Nat} (h : 1 < n)
    (hlt : n < 2 ^ 64) :
    replay expected state (Fin.ofNat _ n) payload = .ok next ↔
      state.accept (Fin.ofNat _ n) payload = .ok next := by
  unfold replay
  rw [if_neg (ofNat_ne_one h hlt)]
  constructor
  · intro hr
    split at hr
    · cases hr
    · exact hr
  · intro ha
    rw [if_neg (by simp [State.accept_not_binding ha])]
    exact ha

@[simp] theorem rebuilt_binding (binding : String) : rebuilt [binding] = .ok .default := by
  rw [rebuilt, replayFrom, replay_first, if_pos rfl]
  rfl

/-- Each record after the binding is one accepted transition. -/
theorem rebuilt_concat {records : List String} {payload : String} {next : State}
    (hne : records ≠ []) (hlt : 1 + records.length < 2 ^ 64) :
    rebuilt (records ++ [payload]) = .ok next ↔
      ∃ state, rebuilt records = .ok state ∧
        state.accept (Fin.ofNat _ (1 + records.length)) payload = .ok next := by
  obtain ⟨binding, more, rfl⟩ := List.exists_cons_of_ne_nil hne
  have hpos : 1 < 1 + (binding :: more).length := by simp
  change replayFrom (replay binding) 1 (binding :: more ++ [payload]) .default = .ok next ↔
    ∃ state, replayFrom (replay binding) 1 (binding :: more) .default = .ok state ∧ _
  rw [replayFrom_append]
  cases replayFrom (replay binding) 1 (binding :: more) .default with
  | error e => simp
  | ok state =>
    have hstep := @replay_later binding payload state next _ hpos hlt
    simp only [replayFrom, Except.ok.injEq, exists_eq_left', ← hstep]
    split <;> grind

/-- Records a log may hold, and the state they stand for. -/
structure Holds (blake3 : Digest) (records : List String) (state : State) : Prop where
  fits : ∀ text ∈ records, Fits text
  rebuilt : rebuilt records = .ok state
  small : (log blake3 records).length ≤ maxLog
  reserve : state.Undecided → (log blake3 records).length + decisionReserve ≤ maxLog

theorem Holds.count {records : List String} {state : State} (h : Holds blake3 records state) :
    1 + records.length < 2 ^ 64 := by
  have hcount := @length_log blake3 records
  have hsmall := h.small
  rw [show header = 84 from rfl] at hcount
  rw [show maxLog = 16777216 from rfl] at hsmall
  omega

theorem Holds.nil : Holds blake3 [] .default := by
  refine ⟨by simp, rfl, by simp [log], ?_⟩
  intro hu
  exact absurd hu.1 (by simp [State.default])

/-- What is on disk: whole records, then the beginning of one more or the whole record of
the write in doubt. -/
structure Stored (blake3 : Digest) (disk : List UInt8) (known : State) (doubt : Option String)
    (front : List String) (rest : List UInt8) : Prop where
  disk_eq : disk = log blake3 front ++ rest
  small : disk.length ≤ maxLog
  holds : Holds blake3 front known
  rest : Tail blake3 (1 + front.length) rest ∨
    ∃ payload next, doubt = some payload ∧ rest = frameAt blake3 (1 + front.length) payload ∧
      Holds blake3 (front ++ [payload]) next

/-- What a live journal knows of the disk. -/
structure Held (blake3 : Digest) (j : Journal) (disk : List UInt8) (known : State)
    (doubt : Option String) (front : List String) (rest : List UInt8) : Prop where
  state : j.state = known
  bound : ∃ binding, front.head? = some binding ∧ bindingRecord blake3 j.name = .ok binding
  sequence : j.store.sequence.val = front.length
  validBytes : j.store.validBytes = (log blake3 front).length
  text : j.store.text = front.getLast?
  live : j.store.poisoned = false → doubt = none ∧ j.store.incompleteTail = !rest.isEmpty ∧
    j.store.tailIdentity = if rest.isEmpty then none else some (tailIdentity blake3 disk)

def Host.Sound (blake3 : Digest) (h : Host) : Prop :=
  ∃ front rest, Stored blake3 h.disk h.known h.doubt front rest ∧
    ∀ j, h.handle = some j → Held blake3 j h.disk h.known h.doubt front rest

/-- Nothing keeps the store from writing. -/
def Store.Ready (s : Store) : Prop :=
  s.writable = true ∧ s.poisoned = false ∧ s.incompleteTail = false

/-- The record is small enough, and there is room for it. -/
def Store.Room (s : Store) (text : String) : Prop :=
  Fits text ∧ header + (utf8 text).length ≤ s.remainingCapacity

/-- The store after a complete write. -/
def Store.wrote (s : Store) (text : String) : Store := { s with
  sequence := Fin.ofNat _ (1 + s.sequence.val)
  text := some text
  validBytes := s.validBytes + (header + (utf8 text).length) }

section
variable {s : Store} {disk : List UInt8} {text : String}

theorem next_sequence (hseq : 1 + s.sequence.val < 2 ^ 64) :
    s.sequence.next = some (Fin.ofNat _ (1 + s.sequence.val)) :=
  next_ofNat (Nat.add_comm _ _) hseq

theorem encode_next (hseq : 1 + s.sequence.val < 2 ^ 64) :
    encode blake3 (Fin.ofNat _ (1 + s.sequence.val)) text =
      if (utf8 text).length > maxPayload then .error .tooLarge
      else .ok (frameAt blake3 (1 + s.sequence.val) text) := by
  have hne : (Fin.ofNat _ (1 + s.sequence.val) : U64) ≠ 0 := by
    intro he
    have hv := congrArg Fin.val he
    rw [Fin.val_ofNat, Nat.mod_eq_of_lt hseq] at hv
    simp at hv
  rw [encode, if_neg hne]
  rfl

/-- A store that may write does, as far as the disk lets it. -/
theorem Store.append_ready (hready : s.Ready) (hroom : s.Room text)
    (hlen : disk.length = s.validBytes) (hseq : 1 + s.sequence.val < 2 ^ 64) (fate : Fate) :
    s.append blake3 text fate disk =
      match fate with
      | .torn written => (disk ++ (frameAt blake3 (1 + s.sequence.val) text).take written,
          { s with poisoned := true }, .error .io)
      | .done => (disk ++ frameAt blake3 (1 + s.sequence.val) text, s.wrote text,
          .ok (Fin.ofNat _ (1 + s.sequence.val))) := by
  obtain ⟨hw, hp, ht⟩ := hready
  have hl := @length_frameAt blake3 (1 + s.sequence.val) text
  have hcap : ¬ header + (utf8 text).length > maxLog - s.validBytes := not_lt.mpr hroom.2
  have hfit : ¬ (utf8 text).length > maxPayload := not_lt.mpr hroom.1
  unfold Store.append
  simp only [hw, hp, ht, next_sequence hseq, encode_next hseq, hfit, hl, hcap, hlen,
    not_true_eq_false, ne_eq, ↓reduceIte, Bool.false_eq_true]
  cases fate <;> simp [Store.wrote, hw, hp, ht]

/-- Any other store leaves everything as it is. -/
theorem Store.append_refused (hno : ¬ (s.Ready ∧ s.Room text))
    (hseq : 1 + s.sequence.val < 2 ^ 64) (fate : Fate) :
    ∃ e, e ≠ .io ∧ s.append blake3 text fate disk = (disk, s, .error e) := by
  unfold Store.append
  cases hw : s.writable with
  | false => exact ⟨.readOnly, by simp⟩
  | true =>
    cases hp : s.poisoned with
    | true => exact ⟨.poisoned, by simp⟩
    | false =>
      cases ht : s.incompleteTail with
      | true => exact ⟨.incompleteTail, by simp⟩
      | false =>
        have hready : s.Ready := ⟨hw, hp, ht⟩
        simp only [next_sequence hseq, encode_next hseq, not_true_eq_false, ↓reduceIte,
          Bool.false_eq_true]
        by_cases hfit : (utf8 text).length > maxPayload
        · exact ⟨.journal .tooLarge, by simp [hfit]⟩
        · have hl := @length_frameAt blake3 (1 + s.sequence.val) text
          have hcap : header + (utf8 text).length > maxLog - s.validBytes := by
            by_contra hc
            exact hno ⟨hready, not_lt.mp hfit, not_lt.mp hc⟩
          exact ⟨.capacity, by simp [hfit, hl, hcap]⟩

end

/-- The journal after a complete write. -/
def Journal.wrote (j : Journal) (payload : String) (next : State) : Journal :=
  { j with store := j.store.wrote payload, state := next }

def Journal.poison (j : Journal) : Journal := { j with store := { j.store with poisoned := true } }

section
variable {j : Journal} {disk : List UInt8} {payload : String}

/-- A write of the journal: refused without a trace, or an accepted transition whose
record reaches the disk as far as the disk lets it. -/
theorem Journal.append_cases (hlen : j.store.Ready → disk.length = j.store.validBytes)
    (hseq : 1 + j.store.sequence.val < 2 ^ 64) (fate : Fate) :
    (∃ e, e ≠ .io ∧ j.append blake3 payload fate disk = (disk, j, .error e)) ∨
    ∃ next, j.state.accept (Fin.ofNat _ (1 + j.store.sequence.val)) payload = .ok next ∧
      j.store.Ready ∧ j.store.Room payload ∧
      j.append blake3 payload fate disk =
        match fate with
        | .torn written => (disk ++ (frameAt blake3 (1 + j.store.sequence.val) payload).take written,
            j.poison, .error .io)
        | .done => (disk ++ frameAt blake3 (1 + j.store.sequence.val) payload,
            j.wrote payload next, .ok (Fin.ofNat _ (1 + j.store.sequence.val))) := by
  unfold Journal.append
  simp only [next_sequence hseq]
  cases ha : j.state.accept (Fin.ofNat _ (1 + j.store.sequence.val)) payload with
  | error e =>
    left
    exact ⟨.journal .invalidRecord, by decide, rfl⟩
  | ok next =>
    by_cases hc : j.store.Ready ∧ j.store.Room payload
    · right
      refine ⟨next, rfl, hc.1, hc.2, ?_⟩
      simp only [Store.append_ready hc.1 hc.2 (hlen hc.1) hseq]
      cases fate <;> rfl
    · left
      obtain ⟨e, hne, he⟩ := @Store.append_refused blake3 _ disk _ hc hseq fate
      exact ⟨e, hne, by simp only [he]⟩

end

theorem Holds.concat {records : List String} {payload : String} {state next : State}
    (h : Holds blake3 records state) (hne : records ≠ []) (hfit : Fits payload)
    (hroom : header + (utf8 payload).length ≤ maxLog - (log blake3 records).length)
    (ha : state.accept (Fin.ofNat _ (1 + records.length)) payload = .ok next)
    (hres : next.Undecided →
      (log blake3 records).length + (header + (utf8 payload).length) + decisionReserve ≤ maxLog) :
    Holds blake3 (records ++ [payload]) next := by
  have hl : (log blake3 (records ++ [payload])).length =
      (log blake3 records).length + (header + (utf8 payload).length) := by
    rw [log_concat, List.length_append, length_frameAt]
  have hsmall := h.small
  refine ⟨?_, (rebuilt_concat hne h.count).mpr ⟨state, h.rebuilt, ha⟩, by omega, ?_⟩
  · intro text ht
    rcases List.mem_append.mp ht with hm | he
    · exact h.fits text hm
    · rw [List.mem_singleton.mp he]
      exact hfit
  · intro hu
    rw [hl]
    exact hres hu

section
variable {disk rest : List UInt8} {known : State} {doubt : Option String} {front : List String}
  {j : Journal}

theorem Held.front_ne_nil (h : Held blake3 j disk known doubt front rest) : front ≠ [] := by
  obtain ⟨binding, hb, -⟩ := h.bound
  intro he
  simp [he] at hb

theorem Held.next_lt (hs : Stored blake3 disk known doubt front rest)
    (h : Held blake3 j disk known doubt front rest) : 1 + j.store.sequence.val < 2 ^ 64 := by
  rw [h.sequence]
  exact hs.holds.count

/-- A store that may write sees the disk end with its last record. -/
theorem Held.rest_nil (h : Held blake3 j disk known doubt front rest) (hr : j.store.Ready) :
    doubt = none ∧ rest = [] := by
  obtain ⟨hd, ht, -⟩ := h.live hr.2.1
  rw [hr.2.2] at ht
  exact ⟨hd, by simpa using ht⟩

theorem Held.length_disk (hs : Stored blake3 disk known doubt front rest)
    (h : Held blake3 j disk known doubt front rest) (hr : j.store.Ready) :
    disk.length = j.store.validBytes := by
  rw [hs.disk_eq, (h.rest_nil hr).2, List.append_nil, h.validBytes]

theorem Stored.tail (h : Stored blake3 disk known doubt front rest) (hd : doubt = none) :
    Tail blake3 (1 + front.length) rest := by
  rcases h.rest with ht | ⟨_, _, hp, -⟩
  · exact ht
  · rw [hd] at hp
    cases hp

/-- Whatever is on disk reads as whole records and a torn end, with nothing in doubt. -/
theorem Stored.certain (h : Stored blake3 disk known doubt front rest) :
    ∃ records tail state, Stored blake3 disk state none records tail ∧
      Tail blake3 (1 + records.length) tail ∧
      (records = front ∧ tail = rest ∧ state = known ∨
        ∃ payload, doubt = some payload ∧ records = front ++ [payload]) := by
  rcases h.rest with ht | ⟨payload, next, hd, hr, hn⟩
  · exact ⟨front, rest, known, ⟨h.disk_eq, h.small, h.holds, .inl ht⟩, ht, .inl ⟨rfl, rfl, rfl⟩⟩
  · have hlog : disk = log blake3 (front ++ [payload]) ++ [] := by
      rw [h.disk_eq, hr, log_concat, List.append_nil]
    exact ⟨front ++ [payload], [], next, ⟨hlog, h.small, hn, .inl (.inl rfl)⟩, .inl rfl,
      .inr ⟨payload, hd, rfl⟩⟩

/-- A complete write. -/
theorem Stored.written (h : Stored blake3 disk known doubt front []) {payload : String}
    {next : State} (hn : Holds blake3 (front ++ [payload]) next) :
    Stored blake3 (disk ++ frameAt blake3 (1 + front.length) payload) next none
      (front ++ [payload]) [] := by
  have hlog : disk ++ frameAt blake3 (1 + front.length) payload =
      log blake3 (front ++ [payload]) := by
    rw [h.disk_eq, log_concat, List.append_nil]
  rw [hlog]
  exact ⟨by simp, hn.small, hn, .inl (.inl rfl)⟩

/-- A failed write: any part of the record may be there. -/
theorem Stored.torn (h : Stored blake3 disk known doubt front []) {payload : String}
    {next : State} (hn : Holds blake3 (front ++ [payload]) next) (written : Nat) :
    Stored blake3 (disk ++ (frameAt blake3 (1 + front.length) payload).take written) known
      (some payload) front ((frameAt blake3 (1 + front.length) payload).take written) := by
  have hfit : Fits payload := hn.fits payload (by simp)
  refine ⟨by simp [h.disk_eq], ?_, h.holds, ?_⟩
  · have hsmall := hn.small
    rw [log_concat, List.length_append] at hsmall
    rw [h.disk_eq, List.append_nil, List.length_append, List.length_take]
    omega
  · rcases TornLog.write_cases hfit written with ht | hw
    · exact .inl ht
    · exact .inr ⟨payload, next, rfl, hw, hn⟩

/-- The store a complete scan makes. -/
def scanned (blake3 : Digest) (create : Bool) (disk : List UInt8) (records : List String)
    (tail : List UInt8) : Store :=
  ⟨Fin.ofNat _ records.length, records.getLast?, (log blake3 records).length, !tail.isEmpty,
    if (!tail.isEmpty) then some (tailIdentity blake3 disk) else none, false, create⟩

theorem openMode_log (h : Stored blake3 disk known none front rest) (expected : String)
    (create : Bool) :
    Store.openMode blake3 (replay expected) .default create disk =
      match replayFrom (replay expected) 1 front .default with
      | .error e => .error (.journal e)
      | .ok state => .ok (scanned blake3 create disk front rest, state) := by
  have ht := h.tail rfl
  have hsmall := h.small
  unfold Store.openMode
  rw [if_neg (not_lt.mpr hsmall)]
  rw [h.disk_eq] at hsmall
  have hrec := @recoverEach_log _ _ (replay expected) _ _ .default hsmall h.holds.fits ht
  rw [← h.disk_eq] at hrec
  rw [hrec]
  cases replayFrom (replay expected) 1 front .default with
  | error e => rfl
  | ok state => rfl

/-- Opening a log that has its binding changes nothing on disk, and succeeds exactly
under the name it is bound to. -/
theorem openJournal_bound (h : Stored blake3 disk known none front rest) {binding : String}
    (hb : front.head? = some binding) (name : String) (create : Bool) (fate : Fate) :
    openJournal blake3 name create fate disk =
      match bindingRecord blake3 name with
      | .error e => (disk, .error e)
      | .ok expected =>
        if binding = expected then (disk, .ok ⟨scanned blake3 create disk front rest, known, name⟩)
        else (disk, .error (.journal .invalidBinding)) := by
  obtain ⟨more, rfl⟩ : ∃ more, front = binding :: more := List.head?_eq_some_iff.mp hb
  have hcount := h.holds.count
  unfold openJournal
  cases bindingRecord blake3 name with
  | error e => rfl
  | ok expected =>
    simp only [openMode_log h]
    by_cases he : binding = expected
    · subst he
      have hr : replayFrom (replay binding) 1 (binding :: more) .default = .ok known :=
        h.holds.rebuilt
      have hseq : (scanned blake3 create disk (binding :: more) rest).sequence ≠ 0 := by
        intro hz
        have hv := congrArg Fin.val hz
        rw [scanned, Fin.val_ofNat, Nat.mod_eq_of_lt (by omega)] at hv
        simp at hv
      simp only [hr, if_true]
      rw [if_pos hseq]
    · rw [if_neg he, replayFrom, replay_first, if_neg he]

/-- Opening an empty log binds it; a torn binding is never claimed. -/
theorem openJournal_unbound (h : Stored blake3 disk known none [] rest) (name : String)
    (create : Bool) (fate : Fate) :
    openJournal blake3 name create fate disk =
      match bindingRecord blake3 name with
      | .error e => (disk, .error e)
      | .ok expected =>
        if rest ≠ [] ∨ create = false then (disk, .error (.journal .invalidBinding))
        else match fate with
          | .torn written => ((frameAt blake3 1 expected).take written, .error .io)
          | .done => (frameAt blake3 1 expected,
              .ok ⟨scanned blake3 true (frameAt blake3 1 expected) [expected] [], .default, name⟩) := by
  have hknown : known = .default := (Except.ok.inj h.holds.rebuilt).symm
  unfold openJournal
  cases he : bindingRecord blake3 name with
  | error e => rfl
  | ok expected =>
    simp only [openMode_log h, replayFrom]
    rw [if_neg (by simp [scanned])]
    by_cases hc : rest ≠ [] ∨ create = false
    · rw [if_pos hc, if_pos (by simpa [scanned] using hc)]
    · rw [if_neg hc, if_neg (by simpa [scanned] using hc)]
      simp only [not_or, not_not, Bool.not_eq_false] at hc
      obtain ⟨hrest, hcreate⟩ := hc
      have hdisk : disk = [] := by rw [h.disk_eq, hrest]; rfl
      have hlen := length_bindingRecord he
      have hroom : (scanned blake3 create disk [] rest).Room expected := by
        constructor
        · rw [Fits, hlen]
          decide
        · rw [hlen]
          change header + 80 ≤ maxLog - 0
          decide
      rw [Store.append_ready (by simp [Store.Ready, scanned, hrest, hcreate]) hroom
        (by simp [hdisk, scanned, log]) (by simp [scanned])]
      cases fate with
      | torn written => simp [scanned, hdisk]
      | done =>
        have hl : log blake3 [expected] = frameAt blake3 1 expected := by
          simp [log, TornLog.logFrom]
        simp only [hdisk, hrest, hcreate, Store.wrote, scanned, hl, length_frameAt]
        simp [log]

end

section
variable {disk rest : List UInt8} {known : State} {doubt : Option String} {front : List String}
  {j : Journal}

/-- What a scan reports is so. -/
theorem Stored.held_scanned (h : Stored blake3 disk known none front rest) {name binding : String}
    (create : Bool) (hb : front.head? = some binding)
    (hn : bindingRecord blake3 name = .ok binding) :
    Held blake3 ⟨scanned blake3 create disk front rest, known, name⟩ disk known none front rest := by
  have hcount := h.holds.count
  refine ⟨rfl, ⟨binding, hb, hn⟩, ?_, rfl, rfl, fun _ => ⟨rfl, rfl, ?_⟩⟩
  · exact Nat.mod_eq_of_lt (by omega)
  · cases rest <;> rfl

/-- A binding that was written completely, whether or not the write was reported so. -/
theorem holds_binding {name expected : String} (h : bindingRecord blake3 name = .ok expected) :
    Holds blake3 [expected] .default := by
  have hl := length_bindingRecord h
  have hlog : (log blake3 [expected]).length = 164 := by
    rw [log, TornLog.logFrom, TornLog.logFrom_nil, List.append_nil, length_frameAt, hl]
    rfl
  refine ⟨?_, rebuilt_binding expected, by rw [hlog]; decide, ?_⟩
  · intro text ht
    rw [List.mem_singleton.mp ht, Fits, hl]
    decide
  · intro hu
    exact absurd hu.1 (by simp [State.default])

/-- Opening: refused without a trace, a scan of a bound log, or the binding of an empty one. -/
theorem openJournal_cases (h : Stored blake3 disk known none front rest) (name : String)
    (create : Bool) (fate : Fate) :
    (∃ e, e ≠ .io ∧ openJournal blake3 name create fate disk = (disk, .error e)) ∨
    (∃ binding, front.head? = some binding ∧ bindingRecord blake3 name = .ok binding ∧
      openJournal blake3 name create fate disk =
        (disk, .ok ⟨scanned blake3 create disk front rest, known, name⟩)) ∨
    ∃ expected, front = [] ∧ rest = [] ∧ known = .default ∧
      bindingRecord blake3 name = .ok expected ∧
      openJournal blake3 name create fate disk =
        match fate with
        | .torn written => ((frameAt blake3 1 expected).take written, .error .io)
        | .done => (frameAt blake3 1 expected,
            .ok ⟨scanned blake3 true (frameAt blake3 1 expected) [expected] [], .default, name⟩) := by
  cases hn : bindingRecord blake3 name with
  | error e =>
    left
    refine ⟨e, ?_, by unfold openJournal; rw [hn]⟩
    intro he
    unfold bindingRecord at hn
    split at hn <;> grind
  | ok expected =>
    cases front with
    | nil =>
      have ho := openJournal_unbound h name create fate
      simp only [hn] at ho
      by_cases hc : rest ≠ [] ∨ create = false
      · rw [if_pos hc] at ho
        exact .inl ⟨_, by decide, ho⟩
      · rw [if_neg hc] at ho
        simp only [not_or, not_not] at hc
        exact .inr (.inr ⟨expected, rfl, hc.1, (Except.ok.inj h.holds.rebuilt).symm, rfl, ho⟩)
    | cons binding more =>
      have ho := openJournal_bound h rfl name create fate
      simp only [hn] at ho
      by_cases he : binding = expected
      · rw [if_pos he] at ho
        subst he
        exact .inr (.inl ⟨binding, rfl, rfl, ho⟩)
      · rw [if_neg he] at ho
        exact .inl ⟨_, by decide, ho⟩

theorem Host.settle_refused (h : Host) (disk : List UInt8) (handle : Option Journal)
    (payload : Option String) {e : Failure} (he : e ≠ .io) :
    h.settle disk handle payload (.error e) = ⟨disk, handle, h.known, h.doubt⟩ := by
  cases e <;> simp_all [Host.settle]

theorem Host.open_sound {h : Host} (hs : h.Sound blake3) (name : String) (create : Bool)
    (fate : Fate) : (h.act blake3 (.openJournal name create fate)).Sound blake3 := by
  simp only [Host.act]
  by_cases hh : h.handle.isSome
  · rw [if_pos hh]
    exact hs
  rw [if_neg hh]
  obtain ⟨front, rest, hst, -⟩ := hs
  obtain ⟨records, tail, state, hc, ht, hfrom⟩ := hst.certain
  rcases openJournal_cases hc name create fate with
    ⟨e, hne, ho⟩ | ⟨binding, hb, hn, ho⟩ | ⟨expected, rfl, rfl, rfl, hn, ho⟩
  · rw [ho]
    simp only [Except.map, Host.settle_refused _ _ _ _ hne]
    exact ⟨front, rest, hst, by simp [Except.toOption]⟩
  · rw [ho]
    simp only [Except.map, Except.toOption, Host.settle]
    refine ⟨records, tail, hc, ?_⟩
    intro j hj
    cases hj
    exact hc.held_scanned create hb hn
  · -- the disk was empty, so nothing was known but the state before any record
    have hdisk : h.disk = [] := hc.disk_eq
    have hknown : h.known = .default := by
      rcases hfrom with ⟨-, -, hk⟩ | ⟨payload, -, hr⟩
      · exact hk.symm
      · simp at hr
    rw [ho]
    cases fate with
    | done =>
      simp only [Except.map, Except.toOption, Host.settle]
      have hnew := @Stored.written _ _ _ _ [] hc _ _ (holds_binding hn)
      simp only [hdisk, List.nil_append, List.length_nil, Nat.add_zero] at hnew
      refine ⟨[expected], [], hnew, ?_⟩
      intro j hj
      cases hj
      exact hnew.held_scanned true rfl hn
    | torn written =>
      simp only [Except.map, hn, Except.toOption, Host.settle, hknown]
      have hnew := @Stored.torn _ _ _ _ [] hc _ _ (holds_binding hn) written
      simp only [hdisk, List.nil_append, List.length_nil, Nat.add_zero] at hnew
      exact ⟨[], _, hnew, by simp⟩

/-- A write by a live journal. What it stages must leave room for a decision it makes
necessary. -/
theorem Host.append_sound {h : Host} (hs : h.Sound blake3) (hj : h.handle = some j)
    (payload : String) (fate : Fate)
    (hres : ∀ next, j.state.accept (Fin.ofNat _ (1 + j.store.sequence.val)) payload = .ok next →
      next.Undecided →
      header + (utf8 payload).length + decisionReserve ≤ j.store.remainingCapacity) :
    Host.Sound blake3
      (let (disk, j, result) := j.append blake3 payload fate h.disk
       h.settle disk (some j) (some payload) (result.map fun _ => j.state)) := by
  obtain ⟨front, rest, hst, hheld⟩ := hs
  have hheld := hheld j hj
  have hseq := hheld.next_lt hst
  rcases Journal.append_cases (hheld.length_disk hst) hseq fate with
    ⟨e, hne, ha⟩ | ⟨next, haccept, hready, hroom, ha⟩
  · rw [ha]
    simp only [Except.map, Host.settle_refused _ _ _ _ hne]
    refine ⟨front, rest, hst, ?_⟩
    intro k hk
    cases hk
    exact hheld
  · obtain ⟨hdoubt, hrest⟩ := hheld.rest_nil hready
    subst hrest
    have hcap : j.store.remainingCapacity = maxLog - (log blake3 front).length := by
      rw [Store.remainingCapacity, hheld.validBytes]
    have hnext : Holds blake3 (front ++ [payload]) next := by
      refine hst.holds.concat hheld.front_ne_nil hroom.1 (hcap ▸ hroom.2) ?_ ?_
      · rw [← hheld.state, ← hheld.sequence]
        exact haccept
      · intro hu
        have hr := hres next haccept hu
        have hsmall := hst.holds.small
        rw [hcap] at hr
        have hpos : 0 < header := by decide
        omega
    rw [ha, hheld.sequence]
    cases fate with
    | done =>
      simp only [Except.map, Host.settle]
      refine ⟨front ++ [payload], [], hst.written hnext, ?_⟩
      intro k hk
      cases hk
      obtain ⟨binding, hb, hn⟩ := hheld.bound
      have hsum : (Fin.ofNat (2 ^ 64) (1 + j.store.sequence.val)).val = 1 + j.store.sequence.val :=
        Nat.mod_eq_of_lt hseq
      refine ⟨rfl, ⟨binding, by simp [hb], hn⟩, ?_, ?_, by simp [Journal.wrote, Store.wrote], ?_⟩
      · change (Fin.ofNat (2 ^ 64) (1 + j.store.sequence.val)).val = _
        rw [hsum, hheld.sequence, List.length_append, List.length_singleton, Nat.add_comm]
      · simp only [Journal.wrote, Store.wrote, hheld.validBytes, log_concat, List.length_append,
          length_frameAt]
      · intro _
        obtain ⟨-, -, hid⟩ := hheld.live hready.2.1
        refine ⟨rfl, by simp [Journal.wrote, Store.wrote, hready.2.2], ?_⟩
        simpa [Journal.wrote, Store.wrote] using hid
    | torn written =>
      simp only [Except.map, Host.settle]
      refine ⟨front, _, hst.torn hnext written, ?_⟩
      intro k hk
      cases hk
      exact ⟨hheld.state, hheld.bound, hheld.sequence, hheld.validBytes, hheld.text,
        by simp [Journal.poison]⟩

theorem Host.begin_sound {h : Host} (hs : h.Sound blake3) (text : String) (fate : Fate) :
    (h.act blake3 (.beginIntent text fate)).Sound blake3 := by
  simp only [Host.act]
  cases hj : h.handle with
  | none => exact hs
  | some j =>
    have hkeep : ∀ e, e ≠ Failure.io → Host.Sound blake3
        (h.settle h.disk (some j) (some (intentMark ++ text)) (.error e)) := by
      intro e he
      rw [Host.settle_refused _ _ _ _ he, ← hj]
      exact hs
    dsimp only
    unfold Journal.beginIntent
    split_ifs with hbody hroom
    · exact hkeep _ (by decide)
    · exact hkeep _ (by decide)
    · apply Host.append_sound hs hj
      intro next _ _
      rw [utf8_append, List.length_append]
      omega

theorem Host.finish_sound {h : Host} (hs : h.Sound blake3) (intent : U64) (decision : Decision)
    (fate : Fate) : (h.act blake3 (.finish intent decision fate)).Sound blake3 := by
  simp only [Host.act]
  cases hj : h.handle with
  | none => exact hs
  | some j =>
    apply Host.append_sound hs hj
    -- a decision leaves nothing undecided
    intro next ha hu
    exfalso
    rcases State.accept_cases ha with ⟨text, hp, -⟩ | ⟨d, i, -, -, -, rfl⟩
    · have hm := stripStart_append intentMark text
      rw [← hp] at hm
      cases decision with
      | applied => rw [Decision.mark, (stripStart_marks _).1] at hm; cases hm
      | rejected => rw [Decision.mark, (stripStart_marks _).2.1] at hm; cases hm
    · exact absurd hu.2 (by simp)

/-- Discarding: refused without a trace, without effect, or a cut that may leave part of
the tail. -/
theorem Store.discardTail_cases (s : Store) (cut : Cut) (disk : List UInt8) :
    (∃ result, s.discardTail blake3 cut disk = (disk, s, result)) ∨
    (∃ e, s.discardTail blake3 cut disk = (disk, { s with poisoned := true }, .error e)) ∨
    s.writable = true ∧ s.poisoned = false ∧ s.incompleteTail = true ∧
      s.discardTail blake3 cut disk =
        match cut with
        | .failed left => (disk.take (s.validBytes + left), { s with poisoned := true }, .error .io)
        | .done => (disk.take s.validBytes,
            { s with incompleteTail := false, tailIdentity := none },
            .ok (disk.length - s.validBytes)) := by
  unfold Store.discardTail
  by_cases hw : s.writable
  · by_cases hp : s.poisoned
    · exact .inl ⟨.error .poisoned, by simp [hw, hp]⟩
    · by_cases ht : s.incompleteTail
      · simp only [hw, hp, ht, not_true_eq_false, ↓reduceIte, Bool.false_eq_true]
        by_cases hsize : disk.length > maxLog
        · rw [if_pos hsize]
          exact .inr (.inl ⟨_, rfl⟩)
        · rw [if_neg hsize]
          cases recover blake3 disk 0 with
          | error e => exact .inr (.inl ⟨_, rfl⟩)
          | ok recovered =>
            dsimp only
            split_ifs with hc
            · exact .inr (.inl ⟨_, rfl⟩)
            · exact .inr (.inr ⟨trivial, by simp, trivial, rfl⟩)
      · exact .inl ⟨.ok 0, by simp [hw, hp, ht]⟩
  · exact .inl ⟨.error .readOnly, by simp [hw]⟩

theorem Held.poison (h : Held blake3 j disk known doubt front rest) :
    Held blake3 j.poison disk known doubt front rest :=
  ⟨h.state, h.bound, h.sequence, h.validBytes, h.text, by simp [Journal.poison]⟩

theorem Host.discard_sound {h : Host} (hs : h.Sound blake3) (cut : Cut) :
    (h.act blake3 (.discardIncompleteTail cut)).Sound blake3 := by
  simp only [Host.act]
  cases hj : h.handle with
  | none => exact hs
  | some j =>
    obtain ⟨front, rest, hst, hheld⟩ := hs
    have hheld := hheld j hj
    dsimp only
    unfold Journal.discardIncompleteTail
    rcases @Store.discardTail_cases blake3 j.store cut h.disk with
      ⟨result, hd⟩ | ⟨e, hd⟩ | ⟨hw, hp, ht, hd⟩
    · rw [hd]
      refine ⟨front, rest, hst, ?_⟩
      intro k hk
      cases hk
      exact hheld
    · rw [hd]
      refine ⟨front, rest, hst, ?_⟩
      intro k hk
      cases hk
      exact hheld.poison
    · obtain ⟨hdoubt, hinc, -⟩ := hheld.live hp
      have htail := hst.tail hdoubt
      have hcut : ∀ left, h.disk.take (j.store.validBytes + left) =
          log blake3 front ++ rest.take left := by
        intro left
        rw [hst.disk_eq, hheld.validBytes, List.take_length_add_append]
      have hstored : ∀ left, Stored blake3 (h.disk.take (j.store.validBytes + left)) h.known h.doubt
          front (rest.take left) := by
        intro left
        refine ⟨hcut left, ?_, hst.holds, .inl (htail.take left)⟩
        exact le_trans (List.length_take_le' _ _) hst.small
      rw [hd]
      cases cut with
      | failed left =>
        refine ⟨front, rest.take left, hstored left, ?_⟩
        intro k hk
        cases hk
        exact ⟨hheld.state, hheld.bound, hheld.sequence, hheld.validBytes, hheld.text, by simp⟩
      | done =>
        refine ⟨front, [], hstored 0, ?_⟩
        intro k hk
        cases hk
        exact ⟨hheld.state, hheld.bound, hheld.sequence, hheld.validBytes, hheld.text,
          fun _ => ⟨hdoubt, rfl, rfl⟩⟩

theorem Host.act_sound {h : Host} (hs : h.Sound blake3) (a : Action) :
    (h.act blake3 a).Sound blake3 := by
  cases a with
  | openJournal name create fate => exact Host.open_sound hs name create fate
  | beginIntent text fate => exact Host.begin_sound hs text fate
  | finish intent decision fate => exact Host.finish_sound hs intent decision fate
  | discardIncompleteTail cut => exact Host.discard_sound hs cut
  | crash =>
    obtain ⟨front, rest, hst, -⟩ := hs
    exact ⟨front, rest, hst, by simp [Host.act]⟩

theorem Host.empty_sound : Host.Sound blake3 .empty :=
  ⟨[], [], ⟨rfl, by decide, Holds.nil, .inl (.inl rfl)⟩, by simp [Host.empty]⟩

theorem Host.run_sound (actions : List Action) :
    (Host.run blake3 .empty actions).Sound blake3 :=
  Run.invariant (I := Host.Sound blake3) (fun _ a hs => Host.act_sound hs a) Host.empty_sound actions

end

end Gatel.AdminJournal
