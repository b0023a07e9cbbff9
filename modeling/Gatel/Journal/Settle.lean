import Gatel.Journal.Reopen

namespace Gatel.AdminJournal

variable {blake3 : Digest}

/-- A later record decides the intent of this number. -/
def Settled (records : List String) (n : Nat) : Prop :=
  ∃ m decision, n < m ∧
    recordAt records m = some (Decision.mark decision ++ U64.display (Fin.ofNat _ n))

/-- An intent after the binding that no later record decides. -/
def Pending (records : List String) (n : Nat) : Prop :=
  1 < n ∧ (∃ text, recordAt records n = some (intentMark ++ text)) ∧ ¬ Settled records n

/-- The intent a state waits on. -/
def State.Awaits (s : State) (n : Nat) : Prop :=
  ∃ intent, s.latest = some intent ∧ s.decision = none ∧ intent.sequence.val = n

theorem mark_ne_intent (decision : Decision) (s t : String) :
    decision.mark ++ s ≠ intentMark ++ t := by
  intro h
  have hm := stripStart_append intentMark t
  rw [← h] at hm
  cases decision with
  | applied => rw [Decision.mark, (stripStart_marks _).1] at hm; cases hm
  | rejected => rw [Decision.mark, (stripStart_marks _).2.1] at hm; cases hm

theorem Settled.concat {records : List String} {n : Nat} (h : Settled records n)
    (payload : String) : Settled (records ++ [payload]) n := by
  obtain ⟨m, decision, hm, hr⟩ := h
  exact ⟨m, decision, hm, recordAt_concat.mpr (.inl hr)⟩

/-- One more accepted record: an intent is awaited from now on, a decision settles the one
that was. -/
theorem pending_concat {records : List String} {payload : String} {state next : State}
    (hp : ∀ n, Pending records n ↔ state.Awaits n) (hne : records ≠ [])
    (hlt : 1 + records.length < 2 ^ 64)
    (ha : state.accept (Fin.ofNat _ (1 + records.length)) payload = .ok next) (n : Nat) :
    Pending (records ++ [payload]) n ↔ next.Awaits n := by
  have hval : (Fin.ofNat (2 ^ 64) (1 + records.length)).val = 1 + records.length :=
    Nat.mod_eq_of_lt hlt
  have hpos := List.length_pos_iff.mpr hne
  rcases State.accept_cases ha with ⟨text, rfl, -, hu, rfl⟩ | ⟨decision, intent, rfl, hl, hd, rfl⟩
  · constructor
    · intro h
      obtain ⟨hn, ⟨t, hr⟩, hs⟩ := h
      refine ⟨⟨Fin.ofNat _ (1 + records.length), text⟩, rfl, rfl, ?_⟩
      rcases recordAt_concat.mp hr with hold | ⟨hnew, -⟩
      · -- an older intent was settled before this one could be written
        exfalso
        have hpend : Pending records n := ⟨hn, ⟨t, hold⟩, fun h => hs (h.concat _)⟩
        obtain ⟨i, hi, hdec, -⟩ := (hp n).mp hpend
        exact hu ⟨by simp [hi], hdec⟩
      · rw [hval, hnew]
    · intro h
      obtain ⟨i, hi, -, hn⟩ := h
      cases hi
      rw [hval] at hn
      subst hn
      refine ⟨by omega, ⟨text, recordAt_concat.mpr (.inr ⟨rfl, rfl⟩)⟩, ?_⟩
      intro hs
      obtain ⟨m, d, hm, hr⟩ := hs
      have hle := recordAt_length hr
      rw [List.length_append, List.length_singleton] at hle
      omega
  · constructor
    · intro h
      obtain ⟨hn, ⟨t, hr⟩, hs⟩ := h
      exfalso
      rcases recordAt_concat.mp hr with hold | ⟨-, hnew⟩
      · have hpend : Pending records n := ⟨hn, ⟨t, hold⟩, fun h => hs (h.concat _)⟩
        obtain ⟨i, hi, -, hin⟩ := (hp n).mp hpend
        rw [hl] at hi
        cases hi
        have hle := recordAt_length hold
        refine hs ⟨1 + records.length, decision, by omega, recordAt_concat.mpr (.inr ⟨rfl, ?_⟩)⟩
        rw [← hin, Fin.ofNat_val_eq_self]
      · exact mark_ne_intent decision _ _ hnew
    · intro h
      obtain ⟨i, -, hdec, -⟩ := h
      cases hdec

theorem pending_of_rebuilt {records : List String} {state : State}
    (h : rebuilt records = .ok state) (hlt : 1 + records.length ≤ 2 ^ 64) :
    ∀ n, Pending records n ↔ state.Awaits n := by
  have hnone : ∀ l : List String, l.length ≤ 1 → ∀ n, Pending l n ↔ State.default.Awaits n := by
    intro l hl n
    constructor
    · intro hp
      obtain ⟨hn, ⟨t, hr⟩, -⟩ := hp
      have hle := recordAt_length hr
      omega
    · intro ha
      obtain ⟨i, hi, -⟩ := ha
      cases hi
  induction records using List.reverseRecOn generalizing state with
  | nil => exact Except.ok.inj h ▸ hnone [] (by simp)
  | append_singleton records payload ih =>
    simp only [List.length_append, List.length_singleton] at hlt
    by_cases hne : records = []
    · subst hne
      rw [List.nil_append, rebuilt_binding] at h
      exact Except.ok.inj h ▸ hnone _ (by simp)
    · obtain ⟨before, hb, ha⟩ := (rebuilt_concat hne (by omega)).mp h
      exact pending_concat (ih hb (by omega)) hne (by omega) ha

theorem State.Awaits.unique {s : State} {n m : Nat} (hn : s.Awaits n) (hm : s.Awaits m) : n = m := by
  obtain ⟨i, hi, -, rfl⟩ := hn
  obtain ⟨k, hk, -, rfl⟩ := hm
  rw [hi] at hk
  rw [Option.some.inj hk]

section
variable {h : Host} {j : Journal}

/-- The records on disk, as a whole: at most one intent pends. -/
theorem Host.Sound.pending_unique (hs : h.Sound blake3) :
    ∃ records tail, h.disk = log blake3 records ++ tail ∧
      Tail blake3 (1 + records.length) tail ∧
      ∀ n m, Pending records n → Pending records m → n = m := by
  obtain ⟨front, rest, hst, -⟩ := hs
  obtain ⟨records, tail, state, hc, ht, -⟩ := hst.certain
  have hp := pending_of_rebuilt hc.holds.rebuilt hc.holds.count.le
  refine ⟨records, tail, hc.disk_eq, ht, ?_⟩
  intro n m hn hm
  exact ((hp n).mp hn).unique ((hp m).mp hm)

/-- What is known stands completely on disk. -/
theorem Host.Sound.told (hs : h.Sound blake3) :
    ∃ records, log blake3 records <+: h.disk ∧ Told records h.known := by
  obtain ⟨front, rest, hst, -⟩ := hs
  refine ⟨front, ?_, told_of_rebuilt hst.holds.rebuilt hst.holds.count.le⟩
  rw [hst.disk_eq]
  exact List.prefix_append _ _

theorem Host.Sound.capacity (hs : h.Sound blake3) (hj : h.handle = some j)
    (hu : j.state.Undecided) : decisionReserve ≤ j.store.remainingCapacity := by
  obtain ⟨front, rest, hst, hheld⟩ := hs
  have hheld := hheld j hj
  have hres := hst.holds.reserve (hheld.state ▸ hu)
  rw [Store.remainingCapacity, hheld.validBytes]
  omega

/-- A decision always has room, at any number. -/
theorem encode_decision_length {sequence intent : U64} {decision : Decision} {record : List UInt8}
    (he : encode blake3 sequence (decision.mark ++ U64.display intent) = .ok record) :
    record.length ≤ decisionReserve := by
  unfold encode at he
  split_ifs at he
  cases he
  rw [length_frame]
  exact length_decision intent decision

theorem fits_decision (intent : U64) (decision : Decision) :
    Fits (decision.mark ++ U64.display intent) := by
  have hl := length_decision intent decision
  have hr : decisionReserve = 116 := by decide
  have hm : maxPayload = 1048608 := by decide
  rw [Fits]
  omega

theorem Host.Sound.finish_settles (hs : h.Sound blake3) (hj : h.handle = some j)
    (hready : j.store.Ready) {intent : Intent} (hl : j.state.latest = some intent)
    (hd : j.state.decision = none) (decision : Decision) :
    ∃ disk k sequence, j.finish blake3 intent.sequence decision .done h.disk =
        (disk, k, .ok sequence) ∧
      k.state = { j.state with
        applied := if decision = .applied then some intent else j.state.applied
        decision := some decision } := by
  have hcap := hs.capacity hj ⟨by simp [hl], hd⟩
  obtain ⟨front, rest, hst, hheld⟩ := hs
  have hheld := hheld j hj
  have hseq := hheld.next_lt hst
  have hroom : j.store.Room (decision.mark ++ U64.display intent.sequence) :=
    ⟨fits_decision _ _, le_trans (length_decision _ _) hcap⟩
  unfold Journal.finish Journal.append
  simp only [next_sequence hseq, State.accept_decision hl hd,
    Store.append_ready hready hroom (hheld.length_disk hst hready) hseq]
  exact ⟨_, _, _, rfl, rfl⟩

theorem recover_log {records : List String} {tail : List UInt8}
    (hmax : (log blake3 records ++ tail).length ≤ maxLog) (hf : ∀ text ∈ records, Fits text)
    (ht : Tail blake3 (1 + records.length) tail) :
    recover blake3 (log blake3 records ++ tail) 0 = .ok ⟨Fin.ofNat _ records.length,
      records.getLast?, (log blake3 records).length, !tail.isEmpty⟩ := by
  have hunit : ∀ (l : List String) n,
      replayFrom (fun (u : Unit) _ _ => Except.ok u) n l () = .ok () := by
    intro l
    induction l with
    | nil => exact fun _ => rfl
    | cons text l ih => exact fun n => ih (n + 1)
  rw [recover, recoverEach_log () hmax hf ht, hunit]
  rfl

/-- Discarding the tail of a writable journal that is not poisoned makes it ready. -/
theorem Host.Sound.discard_ready (hs : h.Sound blake3) (hj : h.handle = some j)
    (hw : j.store.writable = true) (hp : j.store.poisoned = false) :
    ∃ k, (h.act blake3 (.discardIncompleteTail .done)).handle = some k ∧ k.store.Ready ∧
      k.state = j.state := by
  simp only [Host.act, hj]
  cases ht : j.store.incompleteTail with
  | false =>
    refine ⟨j, ?_, ⟨hw, hp, ht⟩, rfl⟩
    simp [Journal.discardIncompleteTail, Store.discardTail, hw, hp, ht]
  | true =>
    obtain ⟨front, rest, hst, hheld⟩ := hs
    have hheld := hheld j hj
    obtain ⟨hdoubt, hinc, hid⟩ := hheld.live hp
    have htail := hst.tail hdoubt
    have hrest : rest.isEmpty = false := by
      rw [ht] at hinc
      simpa using hinc.symm
    have hsmall := hst.small
    have hrec : recover blake3 h.disk 0 = .ok ⟨j.store.sequence, j.store.text, j.store.validBytes,
        true⟩ := by
      rw [hst.disk_eq] at hsmall ⊢
      rw [recover_log hsmall hst.holds.fits htail, hheld.text, hheld.validBytes, hrest,
        ← hheld.sequence, Fin.ofNat_val_eq_self]
      rfl
    rw [hrest] at hid
    refine ⟨{ j with store := { j.store with incompleteTail := false, tailIdentity := none } }, ?_,
      ⟨hw, hp, rfl⟩, rfl⟩
    simp [Journal.discardIncompleteTail, Store.discardTail, hw, hp, ht, hrec, hid,
      not_lt.mpr hst.small]

/-- Death, reopening and discarding the tail always lead back to a ready journal. -/
theorem Host.Sound.recovers (hs : h.Sound blake3) (hj : h.handle = some j) (fate : Fate) :
    ∃ k, (h.run blake3 [.crash, .openJournal j.name true fate,
      .discardIncompleteTail .done]).handle = some k ∧ k.store.Ready := by
  obtain ⟨k, ho, hw, hp⟩ := hs.reopens hj true fate
  have hcrash : (h.act blake3 .crash).Sound blake3 := Host.act_sound hs _
  have hopen := Host.act_sound hcrash (.openJournal j.name true fate)
  have hk : ((h.act blake3 .crash).act blake3 (.openJournal j.name true fate)).handle = some k := by
    simp [Host.act, ho, Host.settle, Except.map, Except.toOption]
  obtain ⟨l, hl, hready, -⟩ := hopen.discard_ready hk hw hp
  exact ⟨l, hl, hready⟩

/-- The host once a write has answered. -/
def Host.wrote (h : Host) (payload : Option String) (written : List UInt8 × Journal × Except Failure U64) : Host :=
  h.settle written.1 (some written.2.1) payload (written.2.2.map fun _ => written.2.1.state)

/-- The known state moves by accepted records only. -/
theorem Host.Sound.act_known (hs : h.Sound blake3) (a : Action) :
    (h.act blake3 a).known = h.known ∨ ∃ sequence payload,
      h.known.accept sequence payload = .ok (h.act blake3 a).known := by
  have hfail : ∀ (disk : List UInt8) (handle : Option Journal) payload (e : Failure),
      (h.settle disk handle payload (.error e)).known = h.known := by
    intro disk handle payload e
    cases e <;> rfl
  have hwrite : ∀ k, h.handle = some k → ∀ (w : Write) fate payload,
      (h.wrote payload (k.write blake3 w fate h.disk)).known = h.known ∨
      ∃ sequence payload', h.known.accept sequence payload' = .ok
        (h.wrote payload (k.write blake3 w fate h.disk)).known := by
    intro k hk w fate payload
    obtain ⟨front, rest, hst, hheld⟩ := hs
    have hheld := hheld k hk
    have hseq := hheld.next_lt hst
    rcases @Journal.write_cases blake3 k w fate h.disk with ⟨e, -, he⟩ | ⟨record, he⟩
    · rw [he]
      exact .inl (hfail _ _ _ e)
    · rw [he]
      rcases @Journal.append_cases blake3 k h.disk record (hheld.length_disk hst) hseq fate with
        ⟨e, -, ha⟩ | ⟨next, haccept, -, -, ha⟩
      · rw [ha]
        exact .inl (hfail _ _ _ e)
      · rw [ha]
        cases fate with
        | torn written => exact .inl rfl
        | done => exact .inr ⟨_, record, hheld.state ▸ haccept⟩
  cases a with
  | openJournal name create fate =>
    simp only [Host.act]
    split_ifs
    · exact .inl rfl
    · cases ho : openJournal blake3 name create fate h.disk with
      | mk disk result =>
        cases result with
        | error e => exact .inl (hfail _ _ _ e)
        | ok k =>
          rcases (hs.reopen ho).1 with hsame | ⟨payload, -, ha⟩
          · exact .inl hsame
          · exact .inr ⟨_, payload, ha⟩
  | beginIntent text fate =>
    cases hj : h.handle with
    | none => simp [Host.act, hj]
    | some k =>
      simp only [Host.act, hj]
      exact hwrite k hj (.beginIntent text) fate _
  | finish intent decision fate =>
    cases hj : h.handle with
    | none => simp [Host.act, hj]
    | some k =>
      simp only [Host.act, hj]
      exact hwrite k hj (.finish intent decision) fate _
  | discardIncompleteTail cut =>
    cases hj : h.handle <;> simp [Host.act, hj]
  | crash => exact .inl rfl

/-- The applied intent changes only to the one that was awaited. -/
theorem Host.Sound.act_applied (hs : h.Sound blake3) (a : Action)
    (hne : (h.act blake3 a).known.applied ≠ h.known.applied) :
    ∃ intent, h.known.latest = some intent ∧ h.known.decision = none ∧
      (h.act blake3 a).known.applied = some intent := by
  rcases hs.act_known a with hk | ⟨sequence, payload, ha⟩
  · exact absurd (by rw [hk]) hne
  · rcases State.accept_cases ha with ⟨text, -, -, -, hn⟩ | ⟨decision, intent, -, hl, hd, hn⟩
    · exact absurd (by rw [hn]) hne
    · refine ⟨intent, hl, hd, ?_⟩
      cases decision with
      | applied => rw [hn]; rfl
      | rejected => exact absurd (by rw [hn]; rfl) hne

theorem Host.Sound.write_writable (hs : h.Sound blake3) (hj : h.handle = some j) (w : Write)
    (fate : Fate) : (j.write blake3 w fate h.disk).2.1.store.writable = j.store.writable := by
  obtain ⟨front, rest, hst, hheld⟩ := hs
  have hheld := hheld j hj
  have hseq := hheld.next_lt hst
  rcases @Journal.write_cases blake3 j w fate h.disk with ⟨e, -, he⟩ | ⟨record, he⟩
  · rw [he]
  · rw [he]
    rcases @Journal.append_cases blake3 j h.disk record (hheld.length_disk hst) hseq fate with
      ⟨e, -, ha⟩ | ⟨next, -, -, -, ha⟩
    · rw [ha]
    · rw [ha]
      cases fate <;> rfl

theorem Host.Sound.open_writable (hs : h.Sound blake3) {name : String} {fate : Fate}
    {disk : List UInt8} (ho : openJournal blake3 name true fate h.disk = (disk, .ok j)) :
    j.store.writable = true := by
  obtain ⟨front, rest, hst, -⟩ := hs
  obtain ⟨records, tail, state, hc, -, -⟩ := hst.certain
  rcases openJournal_cases hc name true fate with
    ⟨e, -, he⟩ | ⟨binding, -, -, he⟩ | ⟨expected, -, -, -, -, he⟩
  · rw [he] at ho
    cases ho
  · rw [he] at ho
    cases ho
    rfl
  · rw [he] at ho
    cases fate <;> cases ho
    rfl

theorem Host.settle_handle (h : Host) (disk : List UInt8) (handle : Option Journal)
    (payload : Option String) (result : Except Failure State) :
    (h.settle disk handle payload result).handle = handle := by
  cases result with
  | ok state => rfl
  | error e => cases e <;> rfl

theorem Host.Sound.act_writable (hs : h.Sound blake3)
    (hw : ∀ j, h.handle = some j → j.store.writable = true) {a : Action}
    (ha : ∀ name fate, a ≠ .openJournal name false fate) :
    ∀ j, (h.act blake3 a).handle = some j → j.store.writable = true := by
  have hwrite : ∀ k, h.handle = some k → ∀ (w : Write) fate,
      (k.write blake3 w fate h.disk).2.1.store.writable = true := by
    intro k hk w fate
    rw [hs.write_writable hk]
    exact hw k hk
  intro j hj
  cases a with
  | openJournal name create fate =>
    cases create with
    | false => exact absurd rfl (ha name fate)
    | true =>
      simp only [Host.act] at hj
      split_ifs at hj
      · exact hw j hj
      · rw [Host.settle_handle] at hj
        cases ho : openJournal blake3 name true fate h.disk with
        | mk disk result =>
          rw [ho] at hj
          cases result with
          | error e => cases hj
          | ok k =>
            cases hj
            exact hs.open_writable ho
  | beginIntent text fate =>
    simp only [Host.act] at hj
    cases hk : h.handle with
    | none => simp [hk] at hj
    | some k =>
      simp only [hk, Host.settle_handle] at hj
      cases hj
      exact hwrite k hk (.beginIntent text) fate
  | finish intent decision fate =>
    simp only [Host.act] at hj
    cases hk : h.handle with
    | none => simp [hk] at hj
    | some k =>
      simp only [hk, Host.settle_handle] at hj
      cases hj
      exact hwrite k hk (.finish intent decision) fate
  | discardIncompleteTail cut =>
    simp only [Host.act] at hj
    cases hk : h.handle with
    | none => simp [hk] at hj
    | some k =>
      simp only [hk] at hj
      cases hj
      have hkw := hw k hk
      unfold Journal.discardIncompleteTail
      rcases @Store.discardTail_cases blake3 k.store cut h.disk with
        ⟨result, hd⟩ | ⟨e, hd⟩ | ⟨-, -, -, hd⟩
      · rw [hd]
        exact hkw
      · rw [hd]
        exact hkw
      · rw [hd]
        cases cut <;> exact hkw
  | crash => cases hj

end

theorem Host.run_writable {actions : List Action}
    (ha : ∀ name fate, .openJournal name false fate ∉ actions) :
    ∀ j, (Host.run blake3 .empty actions).handle = some j → j.store.writable = true := by
  refine (Run.invariant_of_forall
    (I := fun h : Host => h.Sound blake3 ∧ ∀ j, h.handle = some j → j.store.writable = true)
    (A := fun a => ∀ name fate, a ≠ .openJournal name false fate) ?_ ?_ ?_).2
  · intro h a hno hh
    exact ⟨Host.act_sound hh.1 a, hh.1.act_writable hh.2 hno⟩
  · exact ⟨Host.empty_sound, by simp [Host.empty]⟩
  · intro a hmem name fate he
    exact ha name fate (he ▸ hmem)

/-- An intent that was let in can always be settled, whatever is torn on the way. The
capacity of a journal that awaits a decision holds either decision at any number, and a
ready journal records it; a journal that is not ready becomes so by reopening and
discarding its tail, and only one opened for inspection refuses writes. On disk at most
one intent pends, and the applied intent changes only to the one awaited, by an applied
record that names it. -/
theorem Host.intent_settles (blake3 : Digest) (actions : List Action) :
    let h := Host.run blake3 .empty actions
    (∀ j intent, h.handle = some j → j.state.latest = some intent → j.state.decision = none →
      ∀ decision,
        (∀ sequence record,
          encode blake3 sequence (Decision.mark decision ++ U64.display intent.sequence) = .ok record →
          record.length ≤ j.store.remainingCapacity) ∧
        (j.store.Ready → ∃ disk k sequence,
          j.finish blake3 intent.sequence decision .done h.disk = (disk, k, .ok sequence) ∧
          k.state = { j.state with
            applied := if decision = .applied then some intent else j.state.applied
            decision := some decision })) ∧
    (∀ j, h.handle = some j → j.state = h.known ∧
      (∃ k, (h.run blake3 [.crash, .openJournal j.name true .done,
        .discardIncompleteTail .done]).handle = some k ∧ k.store.Ready) ∧
      ((∀ name fate, .openJournal name false fate ∉ actions) → j.store.writable = true)) ∧
    (∃ records tail, h.disk = log blake3 records ++ tail ∧
      Tail blake3 (1 + records.length) tail ∧
      ∀ n m, Pending records n → Pending records m → n = m) ∧
    ∀ a, (h.act blake3 a).known.applied ≠ h.known.applied →
      ∃ intent records n, h.known.latest = some intent ∧ h.known.decision = none ∧
        (h.act blake3 a).known.applied = some intent ∧
        log blake3 records <+: (h.act blake3 a).disk ∧
        recordAt records n = some (appliedMark ++ U64.display intent.sequence) := by
  intro h
  have hs : h.Sound blake3 := Host.run_sound actions
  refine ⟨?_, ?_, hs.pending_unique, ?_⟩
  · intro j intent hj hl hd decision
    constructor
    · intro sequence record he
      exact le_trans (encode_decision_length he) (hs.capacity hj ⟨by simp [hl], hd⟩)
    · intro hready
      exact hs.finish_settles hj hready hl hd decision
  · intro j hj
    refine ⟨hs.state hj, hs.recovers hj .done, fun ha => Host.run_writable ha j hj⟩
  · intro a hne
    obtain ⟨intent, hl, hd, happ⟩ := hs.act_applied a hne
    obtain ⟨records, hp, ht⟩ := (Host.act_sound hs a).told
    obtain ⟨-, n, -, hn⟩ := ht.applied intent happ
    exact ⟨intent, records, n, hl, hd, happ, hp, hn⟩

end Gatel.AdminJournal
