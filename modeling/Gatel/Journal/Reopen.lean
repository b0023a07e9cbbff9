import Gatel.Journal.Crash

namespace Gatel.AdminJournal

/-- The record with this number, counted from one. -/
def recordAt (records : List String) (n : Nat) : Option String :=
  if n = 0 then none else records[n - 1]?

theorem recordAt_concat {records : List String} {payload text : String} {n : Nat} :
    recordAt (records ++ [payload]) n = some text ↔
      recordAt records n = some text ∨ n = 1 + records.length ∧ payload = text := by
  unfold recordAt
  by_cases hz : n = 0
  · simp [hz]
    omega
  · rw [if_neg hz, if_neg hz, List.getElem?_append]
    split
    · rename_i hlt
      constructor
      · exact .inl
      · intro h
        rcases h with h | ⟨hn, -⟩
        · exact h
        · omega
    · rename_i hge
      rw [List.getElem?_eq_none (not_lt.mp hge)]
      by_cases hn : n = 1 + records.length
      · subst hn
        simp
      · have hne : n - 1 - records.length ≠ 0 := by omega
        obtain ⟨k, hk⟩ := Nat.exists_eq_succ_of_ne_zero hne
        simp [hk, hn]

theorem recordAt_length {records : List String} {text : String} {n : Nat}
    (h : recordAt records n = some text) : n ≤ records.length := by
  unfold recordAt at h
  split at h
  · cases h
  · have hlt := (List.getElem?_eq_some_iff.mp h).1
    omega

/-- Everything a state says stands in the records: its intents under their numbers, and
later the decision it takes of each. -/
structure Told (records : List String) (state : State) : Prop where
  latest : ∀ intent, state.latest = some intent →
    recordAt records intent.sequence.val = some (intentMark ++ intent.text)
  decision : ∀ decision, state.decision = some decision →
    ∃ intent n, state.latest = some intent ∧ intent.sequence.val < n ∧
      recordAt records n = some (decision.mark ++ U64.display intent.sequence)
  applied : ∀ intent, state.applied = some intent →
    recordAt records intent.sequence.val = some (intentMark ++ intent.text) ∧
    ∃ n, intent.sequence.val < n ∧
      recordAt records n = some (appliedMark ++ U64.display intent.sequence)

theorem Told.default (records : List String) : Told records .default :=
  ⟨by simp [State.default], by simp [State.default], by simp [State.default]⟩

theorem Told.accept {records : List String} {payload : String} {state next : State}
    (h : Told records state) (hlt : 1 + records.length < 2 ^ 64)
    (ha : state.accept (Fin.ofNat _ (1 + records.length)) payload = .ok next) :
    Told (records ++ [payload]) next := by
  have hkeep : ∀ {n text}, recordAt records n = some text →
      recordAt (records ++ [payload]) n = some text := fun hr => recordAt_concat.2 (.inl hr)
  have happlied : ∀ intent, state.applied = some intent →
      recordAt (records ++ [payload]) intent.sequence.val = some (intentMark ++ intent.text) ∧
      ∃ n, intent.sequence.val < n ∧
        recordAt (records ++ [payload]) n = some (appliedMark ++ U64.display intent.sequence) := by
    intro intent hi
    obtain ⟨hr, n, hn, hd⟩ := h.applied intent hi
    exact ⟨hkeep hr, n, hn, hkeep hd⟩
  rcases State.accept_cases ha with ⟨text, rfl, -, -, rfl⟩ | ⟨decision, intent, rfl, hl, hd, rfl⟩
  · refine ⟨?_, by simp, happlied⟩
    intro intent hi
    cases hi
    exact recordAt_concat.2 (.inr ⟨Nat.mod_eq_of_lt hlt, rfl⟩)
  · have hnow : recordAt (records ++ [decision.mark ++ U64.display intent.sequence])
        (1 + records.length) = some (decision.mark ++ U64.display intent.sequence) :=
      recordAt_concat.2 (.inr ⟨rfl, rfl⟩)
    have hr := h.latest intent hl
    have hn : intent.sequence.val < 1 + records.length := by
      have := recordAt_length hr
      omega
    refine ⟨fun i hi => hkeep (h.latest i hi), ?_, ?_⟩
    · intro d hd
      cases hd
      exact ⟨intent, _, hl, hn, hnow⟩
    · intro i hi
      cases decision with
      | applied =>
        cases hi
        exact ⟨hkeep hr, _, hn, hnow⟩
      | rejected => exact happlied i hi

theorem told_of_rebuilt {records : List String} {state : State} (h : rebuilt records = .ok state)
    (hlt : 1 + records.length ≤ 2 ^ 64) : Told records state := by
  induction records using List.reverseRecOn generalizing state with
  | nil => exact Except.ok.inj h ▸ Told.default []
  | append_singleton records payload ih =>
    simp only [List.length_append, List.length_singleton] at hlt
    by_cases hne : records = []
    · subst hne
      rw [List.nil_append, rebuilt_binding] at h
      exact Except.ok.inj h ▸ Told.default _
    · obtain ⟨before, hb, ha⟩ := (rebuilt_concat hne (by omega)).mp h
      exact (ih hb (by omega)).accept (by omega) ha

/-- The two writes a live journal offers. -/
inductive Write where
  | beginIntent (text : String)
  | finish (intent : U64) (decision : Decision)

def Journal.write (blake3 : Digest) (j : Journal) (w : Write) (fate : Fate) (disk : List UInt8) :
    List UInt8 × Journal × Except Failure U64 :=
  match w with
  | .beginIntent text => j.beginIntent blake3 text fate disk
  | .finish intent decision => j.finish blake3 intent decision fate disk

variable {blake3 : Digest}

section
variable {disk rest : List UInt8} {known : State} {doubt : Option String} {front : List String}

/-- The state the disk stands for: the known one, or the one after the record in doubt. -/
theorem Stored.certain_state (h : Stored blake3 disk known doubt front rest)
    {records : List String} {tail : List UInt8} {state : State}
    (hc : Stored blake3 disk state none records tail)
    (hfrom : records = front ∧ tail = rest ∧ state = known ∨
      ∃ payload, doubt = some payload ∧ records = front ++ [payload]) :
    state = known ∨ ∃ payload, doubt = some payload ∧
      known.accept (Fin.ofNat _ records.length) payload = .ok state := by
  rcases hfrom with ⟨-, -, hk⟩ | ⟨payload, hd, rfl⟩
  · exact .inl hk
  · have hr := hc.holds.rebuilt
    by_cases hne : front = []
    · subst hne
      left
      rw [List.nil_append, rebuilt_binding] at hr
      exact Except.ok.inj (hr.symm.trans h.holds.rebuilt)
    · right
      obtain ⟨before, hb, ha⟩ := (rebuilt_concat hne h.holds.count).mp hr
      cases Except.ok.inj (hb.symm.trans h.holds.rebuilt)
      refine ⟨payload, hd, ?_⟩
      rw [List.length_append, List.length_singleton, Nat.add_comm]
      exact ha

end

/-- A live journal shows what is known. -/
theorem Host.Sound.state {h : Host} (hs : h.Sound blake3) {j : Journal} (hj : h.handle = some j) :
    j.state = h.known := by
  obtain ⟨front, rest, -, hheld⟩ := hs
  exact (hheld j hj).state

theorem Host.Sound.reopen {h : Host} (hs : h.Sound blake3) {name : String} {create : Bool}
    {fate : Fate} {disk : List UInt8} {j : Journal}
    (ho : openJournal blake3 name create fate h.disk = (disk, .ok j)) :
    (j.state = h.known ∨ ∃ payload, h.doubt = some payload ∧
      h.known.accept j.store.sequence payload = .ok j.state) ∧
    ∃ records, log blake3 records <+: disk ∧ Told records j.state := by
  obtain ⟨front, rest, hst, -⟩ := hs
  obtain ⟨records, tail, state, hc, -, hfrom⟩ := hst.certain
  have hcount := hc.holds.count
  rcases openJournal_cases hc name create fate with
    ⟨e, -, he⟩ | ⟨binding, -, -, he⟩ | ⟨expected, rfl, rfl, rfl, hn, he⟩
  · rw [he] at ho
    cases ho
  · rw [he] at ho
    cases ho
    refine ⟨hst.certain_state hc hfrom, records, ?_, told_of_rebuilt hc.holds.rebuilt (by omega)⟩
    rw [hc.disk_eq]
    exact List.prefix_append _ _
  · rw [he] at ho
    cases fate with
    | torn written => cases ho
    | done =>
      cases ho
      have hknown : h.known = .default := by
        rcases hfrom with ⟨-, -, hk⟩ | ⟨payload, -, hr⟩
        · exact hk.symm
        · simp at hr
      refine ⟨.inl hknown.symm, [expected], ?_, Told.default _⟩
      simp [log, TornLog.logFrom]

/-- The log of a live journal can be reopened under its name, at any moment. -/
theorem Host.Sound.reopens {h : Host} (hs : h.Sound blake3) {j : Journal}
    (hj : h.handle = some j) (create : Bool) (fate : Fate) :
    ∃ k, openJournal blake3 j.name create fate h.disk = (h.disk, .ok k) ∧
      k.store.writable = create ∧ k.store.poisoned = false := by
  obtain ⟨front, rest, hst, hheld⟩ := hs
  obtain ⟨records, tail, state, hc, -, hfrom⟩ := hst.certain
  obtain ⟨binding, hb, hn⟩ := (hheld j hj).bound
  have hhead : records.head? = some binding := by
    rcases hfrom with ⟨rfl, -, -⟩ | ⟨payload, -, rfl⟩
    · exact hb
    · simp [hb]
  have ho := openJournal_bound hc hhead j.name create fate
  simp only [hn, if_true] at ho
  exact ⟨_, ho, rfl, rfl⟩

/-- A write is refused, or it is an append of its record. -/
theorem Journal.write_cases (j : Journal) (w : Write) (fate : Fate) (disk : List UInt8) :
    (∃ e, e ≠ .io ∧ j.write blake3 w fate disk = (disk, j, .error e)) ∨
    ∃ payload, j.write blake3 w fate disk = j.append blake3 payload fate disk := by
  cases w with
  | beginIntent text =>
    simp only [Journal.write, Journal.beginIntent]
    split_ifs
    · exact .inl ⟨_, by decide, rfl⟩
    · exact .inl ⟨_, by decide, rfl⟩
    · exact .inr ⟨_, rfl⟩
  | finish intent decision => exact .inr ⟨_, rfl⟩

/-- A write that fails leaves the journal as it was, or poisoned if it failed on the disk. -/
theorem Host.Sound.write_failed {h : Host} (hs : h.Sound blake3) {j k : Journal}
    (hj : h.handle = some j) {w : Write} {fate : Fate} {disk : List UInt8} {e : Failure}
    (hw : j.write blake3 w fate h.disk = (disk, k, .error e)) :
    e ≠ .io ∧ disk = h.disk ∧ k = j ∨ e = .io ∧ k = j.poison := by
  obtain ⟨front, rest, hst, hheld⟩ := hs
  have hheld := hheld j hj
  have hseq := hheld.next_lt hst
  rcases @Journal.write_cases blake3 j w fate h.disk with ⟨e', hne, he⟩ | ⟨payload, he⟩
  · rw [he] at hw
    cases hw
    exact .inl ⟨hne, rfl, rfl⟩
  · rw [he] at hw
    rcases @Journal.append_cases blake3 j h.disk payload (hheld.length_disk hst) hseq fate with
      ⟨e', hne, ha⟩ | ⟨next, -, -, -, ha⟩
    · rw [ha] at hw
      cases hw
      exact .inl ⟨hne, rfl, rfl⟩
    · rw [ha] at hw
      cases fate with
      | done => cases hw
      | torn written =>
        cases hw
        exact .inr ⟨rfl, rfl⟩

theorem Store.append_poisoned {s : Store} (h : s.poisoned = true) (text : String) (fate : Fate)
    (disk : List UInt8) : ∃ e, s.append blake3 text fate disk = (disk, s, .error e) := by
  unfold Store.append
  by_cases hw : s.writable
  · exact ⟨.poisoned, by simp [hw, h]⟩
  · exact ⟨.readOnly, by simp [hw]⟩

theorem Journal.append_poisoned {j : Journal} (h : j.store.poisoned = true) (payload : String)
    (fate : Fate) (disk : List UInt8) :
    ∃ e, j.append blake3 payload fate disk = (disk, j, .error e) := by
  obtain ⟨e, he⟩ := @Store.append_poisoned blake3 _ h payload fate disk
  unfold Journal.append
  simp only [he]
  split
  · exact ⟨_, rfl⟩
  · split
    · exact ⟨_, rfl⟩
    · exact ⟨_, rfl⟩

theorem Journal.write_poisoned {j : Journal} (h : j.store.poisoned = true) (w : Write)
    (fate : Fate) (disk : List UInt8) :
    ∃ e, j.write blake3 w fate disk = (disk, j, .error e) := by
  rcases @Journal.write_cases blake3 j w fate disk with ⟨e, -, he⟩ | ⟨payload, he⟩
  · exact ⟨e, he⟩
  · rw [he]
    exact Journal.append_poisoned h payload fate disk

theorem Journal.discard_poisoned {j : Journal} (h : j.store.poisoned = true) (cut : Cut)
    (disk : List UInt8) :
    ∃ e, j.discardIncompleteTail blake3 cut disk = (disk, j, .error e) := by
  unfold Journal.discardIncompleteTail Store.discardTail
  by_cases hw : j.store.writable
  · exact ⟨.poisoned, by simp [hw, h]⟩
  · exact ⟨.readOnly, by simp [hw]⟩

/-- Nothing but its death moves a host whose journal is poisoned. -/
theorem Host.act_poisoned {h : Host} {j : Journal} (hj : h.handle = some j)
    (hp : j.store.poisoned = true) {a : Action} (ha : a ≠ .crash) :
    (h.act blake3 a).disk = h.disk ∧ (h.act blake3 a).handle = some j := by
  have hsettle : ∀ payload (e : Failure),
      (h.settle h.disk (some j) payload (.error e)).disk = h.disk ∧
      (h.settle h.disk (some j) payload (.error e)).handle = some j := by
    intro payload e
    cases e <;> simp [Host.settle]
  cases a with
  | openJournal name create fate => simp [Host.act, hj]
  | beginIntent text fate =>
    obtain ⟨e, he⟩ := @Journal.write_poisoned blake3 _ hp (.beginIntent text) fate h.disk
    simp only [Journal.write] at he
    simp only [Host.act, hj, he]
    exact hsettle _ e
  | finish intent decision fate =>
    obtain ⟨e, he⟩ := @Journal.write_poisoned blake3 _ hp (.finish intent decision) fate h.disk
    simp only [Journal.write] at he
    simp only [Host.act, hj, he]
    exact hsettle _ e
  | discardIncompleteTail cut =>
    obtain ⟨e, he⟩ := @Journal.discard_poisoned blake3 _ hp cut h.disk
    simp only [Host.act, hj, he]
    exact ⟨trivial, trivial⟩
  | crash => exact absurd rfl ha

theorem Host.run_poisoned {h : Host} {j : Journal} (hj : h.handle = some j)
    (hp : j.store.poisoned = true) {later : List Action} (hl : ∀ a ∈ later, a ≠ .crash) :
    (h.run blake3 later).disk = h.disk ∧ (h.run blake3 later).handle = some j := by
  refine Run.invariant_of_forall (I := fun g : Host => g.disk = h.disk ∧ g.handle = some j)
    (A := fun a => a ≠ .crash) ?_ ⟨rfl, hj⟩ hl
  intro g a ha hg
  have hstep := @Host.act_poisoned blake3 g j hg.2 hp a ha
  exact ⟨hstep.1.trans hg.1, hstep.2⟩

/-- The journal refines its state machine across torn writes, crashes and reopens. A live
journal shows the state after the last success; a reopen rebuilds it, or the state after
the one record whose write failed, and everything the rebuilt state says is completely on
disk. A failed write shows no change; after one that failed on the disk nothing is
written until the process dies and reopens. -/
theorem Host.crash_refinement (blake3 : Digest) (actions : List Action) :
    let h := Host.run blake3 .empty actions
    (∀ name create fate disk j, openJournal blake3 name create fate h.disk = (disk, .ok j) →
      (j.state = h.known ∨ ∃ payload, h.doubt = some payload ∧
        h.known.accept j.store.sequence payload = .ok j.state) ∧
      ∃ records, log blake3 records <+: disk ∧ Told records j.state) ∧
    ∀ j, h.handle = some j →
      j.state = h.known ∧
      (∀ create fate, ∃ k, openJournal blake3 j.name create fate h.disk = (h.disk, .ok k)) ∧
      (∀ w fate disk k e, j.write blake3 w fate h.disk = (disk, k, .error e) →
        k.state = j.state ∧ (e = .io → k.store.poisoned = true) ∧
        (e ≠ .io → disk = h.disk ∧ k = j)) ∧
      (j.store.poisoned = true → ∀ later, (∀ a ∈ later, a ≠ .crash) →
        (h.run blake3 later).disk = h.disk ∧ (h.run blake3 later).handle = some j ∧
        ∀ w fate, ∃ e, j.write blake3 w fate h.disk = (h.disk, j, .error e)) := by
  intro h
  have hs : h.Sound blake3 := Host.run_sound actions
  refine ⟨fun name create fate disk j ho => hs.reopen ho, ?_⟩
  intro j hj
  refine ⟨hs.state hj, ?_, ?_, ?_⟩
  · intro create fate
    obtain ⟨k, hk, -⟩ := hs.reopens hj create fate
    exact ⟨k, hk⟩
  · intro w fate disk k e hw
    rcases hs.write_failed hj hw with ⟨hne, hd, hk⟩ | ⟨he, hk⟩
    · exact ⟨by rw [hk], fun he => absurd he hne, fun _ => ⟨hd, hk⟩⟩
    · exact ⟨by rw [hk]; rfl, fun _ => by rw [hk]; rfl, fun hne => absurd he hne⟩
  · intro hp later hl
    obtain ⟨hd, hh⟩ := Host.run_poisoned hj hp hl
    exact ⟨hd, hh, fun w fate => Journal.write_poisoned hp w fate h.disk⟩

end Gatel.AdminJournal
