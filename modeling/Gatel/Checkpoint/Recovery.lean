import Gatel.Checkpoint.Writer
import Gatel.Journal.Crash

namespace Gatel.AdminJournal
open FramedScan (visitAll numberedFrom)

/-- An intent and what became of it. -/
structure Transaction where
  text : String
  outcome : Option Decision
  deriving DecidableEq

/-- The records of transactions that start at a sequence number. -/
@[grind =] def payloads (n : Nat) : List Transaction → List String
  | [] => []
  | t :: rest =>
    match t.outcome with
    | none => (intentMark ++ t.text) :: payloads (n + 1) rest
    | some d => (intentMark ++ t.text) :: (d.mark ++ U64.display (Fin.ofNat _ n)) :: payloads (n + 2) rest

/-- Only the last transaction may lack its decision. -/
def AllButLastDecided (txs : List Transaction) : Prop := ∀ t ∈ txs.dropLast, t.outcome.isSome

/-- The last intent has no decision. -/
def Unknown (txs : List Transaction) : Prop := ∃ t, txs.getLast? = some t ∧ t.outcome = none

/-- What transactions from sequence number `n` on make of a state. -/
structure Tells (n : Nat) (count : Nat) (txs : List Transaction) (s s' : State) : Prop where
  settled : AllButLastDecided txs
  unknown : s'.Undecided ↔ Unknown txs
  none : txs = [] → s' = s
  latest : txs ≠ [] → s'.latest.isSome
  applied : (∃ t ∈ txs, t.outcome = some .applied) → ∃ i, s'.applied = some i ∧ n ≤ i.sequence.val
  kept : (∀ t ∈ txs, t.outcome ≠ some .applied) → s'.applied = s.applied
  bound : ∀ i, s'.applied = some i → s.applied = some i ∨ i.sequence.val < n + count

theorem Tells.nil (n : Nat) {s : State} (h : ¬ s.Undecided) : Tells n 0 [] s s where
  settled := by simp [AllButLastDecided]
  unknown := ⟨fun hu => absurd hu h, fun hu => by obtain ⟨t, ht, -⟩ := hu; cases ht⟩
  none _ := rfl
  latest hne := absurd rfl hne
  applied := by simp
  kept _ := rfl
  bound i hi := .inl hi

/-- An intent without a decision at the end of the log. -/
theorem Tells.pending (n : Nat) (text : String) (s : State) :
    Tells n 1 [⟨text, Option.none⟩] s
      { s with latest := some ⟨Fin.ofNat _ n, text⟩, decision := Option.none } where
  settled := by simp [AllButLastDecided]
  unknown := by simp [Unknown, State.Undecided]
  none h := by cases h
  latest _ := rfl
  applied := by simp
  kept _ := rfl
  bound i hi := .inl hi

/-- A decided transaction in front of others. -/
theorem Tells.decided {n count : Nat} {text : String} {decision : Decision} {txs : List Transaction}
    {s s' : State} (hlt : n < 2 ^ 64)
    (h : Tells (n + 2) count txs ⟨some ⟨Fin.ofNat _ n, text⟩,
      if decision = .applied then some ⟨Fin.ofNat _ n, text⟩ else s.applied, some decision⟩ s') :
    Tells n (count + 2) (⟨text, some decision⟩ :: txs) s s' := by
  have hval : (Fin.ofNat (2 ^ 64) n).val = n := Nat.mod_eq_of_lt hlt
  refine ⟨?_, ?_, fun he => (by cases he), ?_, ?_, ?_, ?_⟩
  · intro t ht
    cases txs with
    | nil => simp at ht
    | cons u txs =>
      rw [List.dropLast_cons_cons, List.mem_cons] at ht
      rcases ht with rfl | ht
      · rfl
      · exact h.settled t ht
  · rw [h.unknown]
    cases txs with
    | nil =>
      simp [Unknown]
    | cons u txs => simp [Unknown, List.getLast?_cons_cons]
  · intro _
    by_cases hne : txs = []
    · rw [h.none hne]
      rfl
    · exact h.latest hne
  · rintro ⟨t, ht, ha⟩
    by_cases hlater : ∃ u ∈ txs, u.outcome = some .applied
    · obtain ⟨i, hi, hle⟩ := h.applied hlater
      exact ⟨i, hi, by omega⟩
    · have hkept := h.kept fun u hu hau => hlater ⟨u, hu, hau⟩
      rcases List.mem_cons.mp ht with rfl | ht
      · simp only [Option.some.injEq] at ha
        subst ha
        exact ⟨_, hkept, by simp only [hval]; exact le_rfl⟩
      · exact absurd ⟨t, ht, ha⟩ hlater
  · intro hno
    have hfirst : decision ≠ .applied := fun he => hno _ List.mem_cons_self (by rw [he])
    rw [h.kept fun u hu => hno u (List.mem_cons_of_mem _ hu)]
    simp [hfirst]
  · intro i hi
    rcases h.bound i hi with hb | hb
    · simp only at hb
      split at hb
      · cases hb
        exact .inr (by simp only [hval]; omega)
      · exact .inl hb
    · exact .inr (by omega)

/-- Whatever is accepted from a decided state on is a list of transactions. -/
theorem tells_of_accepted (texts : List String) {n : Nat} {s s' : State}
    (hlt : n + texts.length ≤ 2 ^ 64) (hs : ¬ s.Undecided)
    (h : visitAll State.accept (numberedFrom (2 ^ 64) n texts) s = .ok s') :
    ∃ txs, texts = payloads n txs ∧ Tells n texts.length txs s s' := by
  -- two records at a time: an intent, and the decision that must follow it
  induction hlen : texts.length using Nat.strong_induction_on generalizing texts n s
  rename_i len ih
  subst hlen
  cases texts with
  | nil =>
    cases h
    exact ⟨[], rfl, .nil n hs⟩
  | cons first rest =>
    rw [List.length_cons] at hlt
    simp only [numberedFrom, visitAll] at h
    cases hfirst : s.accept (Fin.ofNat _ n) first with
    | error e =>
      rw [hfirst] at h
      cases h
    | ok s₁ =>
      simp only [hfirst] at h
      rcases State.accept_cases hfirst with ⟨text, rfl, -, -, rfl⟩ | ⟨d, intent, -, hl, hd, -⟩
      · cases rest with
        | nil =>
          cases h
          exact ⟨[⟨text, none⟩], rfl, .pending n text s⟩
        | cons second rest =>
          simp only [numberedFrom, visitAll] at h
          rw [List.length_cons] at hlt
          cases hsecond : State.accept { s with latest := some ⟨Fin.ofNat _ n, text⟩, decision := none }
              (Fin.ofNat _ (n + 1)) second with
          | error e =>
            rw [hsecond] at h
            cases h
          | ok s₂ =>
            simp only [hsecond] at h
            rcases State.accept_cases hsecond with ⟨-, -, -, hno, -⟩ | ⟨d, intent, rfl, hl, hd, rfl⟩
            · exact absurd ⟨rfl, rfl⟩ hno
            · cases hl
              obtain ⟨txs, rfl, htxs⟩ := ih rest.length (by simp) rest (by omega)
                (by simp [State.Undecided]) h rfl
              exact ⟨⟨text, some d⟩ :: txs, rfl, .decided (by omega) htxs⟩
      · exact absurd ⟨by rw [hl]; rfl, hd⟩ hs

/-- A visitor that lets `accept` judge all but the first record. -/
theorem visitAll_accept {V : State → U64 → String → Except Error State}
    (hV : ∀ s m p s', m ≠ 1 → V s m p = .ok s' → s.accept m p = .ok s') (texts : List String)
    {n : Nat} {s s' : State} (hn : 2 ≤ n) (hlt : n + texts.length ≤ 2 ^ 64)
    (h : visitAll V (numberedFrom (2 ^ 64) n texts) s = .ok s') :
    visitAll State.accept (numberedFrom (2 ^ 64) n texts) s = .ok s' := by
  induction texts generalizing n s with
  | nil => exact h
  | cons text texts ih =>
    rw [List.length_cons] at hlt
    simp only [numberedFrom, visitAll] at h ⊢
    cases hv : V s (Fin.ofNat _ n) text with
    | error e =>
      rw [hv] at h
      cases h
    | ok s₁ =>
      rw [hv] at h
      rw [hV s _ text s₁ (ofNat_ne_one (by omega) (by omega)) hv]
      exact ih (by omega) (by omega) h

theorem payloads_append {covered : List Transaction} (h : ∀ t ∈ covered, t.outcome.isSome)
    (n : Nat) (later : List Transaction) :
    payloads n (covered ++ later) =
      payloads n covered ++ payloads (n + (payloads n covered).length) later := by
  induction covered generalizing n with
  | nil => rfl
  | cons t covered ih =>
    obtain ⟨d, hd⟩ := Option.isSome_iff_exists.mp (h t List.mem_cons_self)
    have hrest := ih (fun u hu => h u (List.mem_cons_of_mem t hu)) (n + 2)
    simp only [List.cons_append, payloads, hd, hrest, List.length_cons]
    rw [show n + 2 + (payloads (n + 2) covered).length =
      n + ((payloads (n + 2) covered).length + 1 + 1) by omega]

/-- Everything is decided when the last transaction is. -/
theorem decided_of_known {txs : List Transaction} (h : AllButLastDecided txs) (hk : ¬ Unknown txs) :
    ∀ t ∈ txs, t.outcome.isSome := by
  intro t ht
  rcases List.eq_nil_or_concat txs with rfl | ⟨init, last, rfl⟩
  · cases ht
  · rw [List.concat_eq_append] at h hk ht
    rcases List.mem_append.mp ht with hi | hl
    · exact h t (by rw [List.dropLast_concat]; exact hi)
    · rw [List.mem_singleton.mp hl]
      by_contra hno
      exact hk ⟨last, by simp, by simpa using hno⟩

theorem unknown_append {covered later : List Transaction} (h : ∀ t ∈ covered, t.outcome.isSome) :
    Unknown (covered ++ later) ↔ Unknown later := by
  by_cases hl : later = []
  · subst hl
    rw [List.append_nil]
    constructor
    · rintro ⟨t, ht, hnone⟩
      have hsome := h t (List.mem_of_getLast? ht)
      rw [hnone] at hsome
      cases hsome
    · rintro ⟨t, ht, -⟩
      cases ht
  · unfold Unknown
    rw [List.getLast?_append_of_ne_nil _ hl]

/-- A visitor that wants this first record and lets `accept` judge the others. -/
structure BoundVisitor (expected : String) (V : State → U64 → String → Except Error State) : Prop where
  first : ∀ s p s', V s 1 p = .ok s' → p = expected ∧ s' = s
  later : ∀ s m p s', m ≠ 1 → V s m p = .ok s' → s.accept m p = .ok s'

theorem boundVisitor_replay (expected : String) : BoundVisitor expected (replay expected) where
  first s p s' h := by
    unfold replay at h
    rw [if_pos rfl] at h
    split at h
    · cases h
    · rename_i he
      exact ⟨not_not.mp he, (Except.ok.inj h).symm⟩
  later s m p s' hm h := by
    unfold replay at h
    rw [if_neg hm] at h
    split at h
    · cases h
    · exact h

/-- The log holds the binding, these records after it, and a tail that is no whole record. -/
structure Reading (blake3 : Digest) (log : List UInt8) (expected : String) (texts : List String)
    (bytes tail : List UInt8) (last : U64) (s : State) : Prop where
  whole : log = bytes ++ tail
  encoded : FramedScan.Encoded U64.next (encode blake3) 0
    (numberedFrom (2 ^ 64) 1 (expected :: texts)) last bytes
  torn : tail = [] ∨ round blake3 last tail = .torn
  count : last.val = 1 + texts.length
  state : visitAll State.accept (numberedFrom (2 ^ 64) 2 texts) .default = .ok s

/-- What a bound scan of a log says. -/
theorem reading_of_recovered {blake3 : Digest} {expected : String}
    {V : State → U64 → String → Except Error State} (hV : BoundVisitor expected V)
    {log : List UInt8} {r : Recovered} {s : State}
    (h : recoverEach blake3 V log 0 .default = .ok (r, s)) (hne : r.sequence ≠ 0) :
    ∃ texts tail, Reading blake3 log expected texts (log.take r.validBytes) tail r.sequence s ∧
      r.incompleteTail = !tail.isEmpty := by
  obtain ⟨l, tail, hlog, -, hl, hflag, htorn, hvisit⟩ := recoverEach_sound h
  obtain ⟨hnum, hlast⟩ := hl.numbered next_val
  have hmap : (l.map Prod.snd).length = l.length := List.length_map _
  simp only [Fin.val_zero, Nat.zero_add] at hnum hlast
  cases hm : l.map Prod.snd with
  | nil =>
    rw [hm, List.length_nil] at hmap
    rw [← hmap] at hlast
    exact absurd (Fin.ext hlast) hne
  | cons first texts =>
    rw [hm] at hnum
    rw [hm, List.length_cons] at hmap
    rw [hnum] at hl hvisit
    simp only [numberedFrom, visitAll] at hvisit
    cases hv : V .default (Fin.ofNat (2 ^ 64) 1) first with
    | error e =>
      rw [hv] at hvisit
      cases hvisit
    | ok s₁ =>
      simp only [hv] at hvisit
      obtain ⟨rfl, rfl⟩ := hV.first _ _ _ hv
      have hlt := r.sequence.isLt
      refine ⟨texts, tail, ⟨hlog, hl, htorn, by omega, ?_⟩, hflag⟩
      exact visitAll_accept hV.later texts le_rfl (by omega) hvisit

end Gatel.AdminJournal

namespace Gatel.AdminCheckpoint
open AdminJournal (BoundVisitor Fate Journal Reading Recovered AllButLastDecided Store Tells Transaction Unknown
  payloads recoverEach)
open FramedScan (visitAll numberedFrom)

theorem boundVisitor_visit (expected : String) : BoundVisitor expected (visit expected) where
  first s p s' h := by
    unfold visit at h
    rw [if_pos rfl] at h
    split at h
    · cases h
    · rename_i he
      exact ⟨not_not.mp he, (Except.ok.inj h).symm⟩
  later s m p s' hm h := by
    unfold visit at h
    rwa [if_neg hm] at h

theorem binding_ok {blake3 : Digest} {name expected : String} :
    binding blake3 name = .ok expected ↔ AdminJournal.bindingRecord blake3 name = .ok expected := by
  unfold binding
  cases AdminJournal.bindingRecord blake3 name with
  | error e => simp
  | ok record => simp

theorem logState_ok {blake3 : Digest} {log : List UInt8} {name : String} {r : Recovered}
    {s : AdminJournal.State} :
    logState blake3 log name = .ok (r, s) ↔ ∃ expected,
      AdminJournal.bindingRecord blake3 name = .ok expected ∧
      recoverEach blake3 (visit expected) log 0 .default = .ok (r, s) ∧ r.sequence ≠ 0 := by
  unfold logState
  simp only [except_bind_ok, refuse_ok, orInvalid_ok, binding_ok]
  constructor
  · rintro ⟨expected, hb, ⟨r', s'⟩, hr, u, hne, he⟩
    cases he
    exact ⟨expected, hb, hr, hne⟩
  · rintro ⟨expected, hb, hr, hne⟩
    exact ⟨expected, hb, (r, s), hr, (), hne, rfl⟩

/-- Everything a reader checks before it shows a checkpoint. -/
structure Accepted {P : Pipeline} (input : List UInt8) (name : String) (registry : P.Registry)
    (log : List UInt8) (c : Checkpoint) : Prop where
  envelope : ¬ (input.length > maxBytes ∨ input.length < header + metaBytes + lengthBytes ∨
    input.take 8 ≠ magic ∨ (envelopeHash P.blake3 (input.drop header)).bytes ≠ cut input 8 header)
  metadata : c.metadata = Metadata.read (input.drop header)
  owner : ∃ record, binding P.blake3 name = .ok record ∧
    c.metadata.instanceId = instanceHash P.blake3 record
  build : c.metadata.build = P.buildHash registry
  whole : ∃ grown, logState P.blake3 log name = .ok grown
  length : c.metadata.journalBytes.val ≤ log.length
  digest : prefixHash P.blake3 (log.take c.metadata.journalBytes.val) = c.metadata.journalPrefix
  covered : ∃ recovered state,
    logState P.blake3 (log.take c.metadata.journalBytes.val) name = .ok (recovered, state) ∧
    recovered.incompleteTail = false ∧ recovered.sequence = c.metadata.journalSequence ∧
    pending state = false
  room : (numberAt (input.drop header) metaBytes).val ≤
    ((input.drop header).drop (metaBytes + lengthBytes)).length
  sources : SnapshotCodec.decode P.blake3 (((input.drop header).drop (metaBytes + lengthBytes)).take
    (numberAt (input.drop header) metaBytes).val) = .ok c.sources
  observed : SnapshotCodec.decode P.blake3 (((input.drop header).drop (metaBytes + lengthBytes)).drop
    (numberAt (input.drop header) metaBytes).val) = .ok c.observed
  history : sourceHistory c.sources c.observed = .ok ()
  plan : planMatches c.sources registry c.metadata.plan = .ok ()

theorem decode_ok {P : Pipeline} {input : List UInt8} {name : String} {registry : P.Registry}
    {log : List UInt8} {c : Checkpoint} :
    decode input name registry log = .ok c ↔ Accepted input name registry log c := by
  unfold decode
  simp only [except_bind_ok, refuse_ok, orInvalid_ok]
  constructor
  · rintro ⟨-, henv, record, hb, -, hid, grown, hlog, -, hlen, -, hdig, ⟨recovered, state⟩, hcov, -,
      hdone, -, hroom, sources, hs, observed, ho, u, hh, v, hp, he⟩
    cases he
    simp only [not_or, not_not] at hid hdone
    obtain ⟨htail, hseq, hpend⟩ := hdone
    exact ⟨henv, rfl, ⟨record, hb, hid.1⟩, hid.2, ⟨grown, hlog⟩, not_lt.mp hlen, not_not.mp hdig,
      ⟨recovered, state, hcov, by simpa using htail, hseq, by simpa using hpend⟩,
      not_lt.mp hroom, hs, ho, hh, hp⟩
  · intro h
    obtain ⟨m, sources, observed⟩ := c
    obtain ⟨henv, hm, ⟨record, hb, hid⟩, hbuild, ⟨grown, hlog⟩, hlen, hdig,
      ⟨recovered, state, hcov, htail, hseq, hpend⟩, hroom, hs, ho, hh, hp⟩ := h
    simp only at hm
    subst hm
    refine ⟨(), henv, record, hb, (), ?_, grown, hlog, (), not_lt.mpr hlen, (), not_not.mpr hdig,
      (recovered, state), hcov, (), ?_, (), not_lt.mpr hroom, sources, hs, observed, ho, (), hh, (), hp, rfl⟩
    · simp only [not_or, not_not]
      exact ⟨hid, hbuild⟩
    · simp only [not_or, not_not]
      exact ⟨by simpa using htail, hseq, by simpa using hpend⟩

section
variable {blake3 : Digest} {log : List UInt8} {expected : String} {texts : List String}
  {bytes tail : List UInt8} {last : U64} {s : AdminJournal.State}

/-- The records of the beginning of a log that ends with a whole record come first. -/
theorem reading_split (h : Reading blake3 log expected texts bytes tail last s)
    {front : List UInt8} {texts₁ : List String} {last₁ : U64} {s₁ : AdminJournal.State}
    (h₁ : Reading blake3 front expected texts₁ front [] last₁ s₁) (hp : front <+: log) :
    ∃ later, texts = texts₁ ++ later ∧
      visitAll AdminJournal.State.accept (numberedFrom (2 ^ 64) (2 + texts₁.length) later) s₁ =
        .ok s := by
  have hfront : front <+: bytes := by
    rcases List.prefix_or_prefix_of_prefix hp ⟨tail, h.whole.symm⟩ with hle | hle
    · exact hle
    · -- more whole records than the scan found would be found by it too
      obtain ⟨more, rest, hmore, hrest, hencoded⟩ :=
        AdminJournal.reads.encoded_split h.encoded h₁.encoded hle
      cases hencoded with
      | nil =>
        rw [hrest, List.append_nil]
      | @cons _ m _ a l frame rest' hn ha hl =>
        obtain ⟨back, hback⟩ := hp
        have hpre : frame <+: tail := by
          refine ⟨rest' ++ back, ?_⟩
          have hall := h.whole
          rw [← hback, hrest, List.append_assoc, List.append_assoc] at hall
          exact List.append_cancel_left hall
        exact absurd hpre (AdminJournal.reads.not_whole h.torn hn ha)
  obtain ⟨more, rest, hmore, -, -⟩ := AdminJournal.reads.encoded_split h₁.encoded h.encoded hfront
  have hall := congrArg (List.map Prod.snd) hmore
  rw [FramedScan.map_snd_numberedFrom, List.map_append, FramedScan.map_snd_numberedFrom,
    List.cons_append, List.cons.injEq] at hall
  refine ⟨more.map Prod.snd, hall.2, ?_⟩
  have hstate := h.state
  rw [hall.2, FramedScan.numberedFrom_append, FramedScan.visitAll_append, h₁.state] at hstate
  exact hstate

end

/-- What the journal holds is what its log says. -/
structure Mirrors (blake3 : Digest) (j : Journal) (name expected : String) (log : List UInt8) : Prop where
  bound : AdminJournal.bindingRecord blake3 name = .ok expected
  named : j.name = name
  scanned : recoverEach blake3 (AdminJournal.replay expected) log 0 .default =
    .ok (⟨j.store.sequence, j.store.text, j.store.validBytes, j.store.incompleteTail⟩, j.state)
  sequence : j.store.sequence ≠ 0
  clean : j.store.poisoned = false

/-- Opening an empty log binds it. -/
theorem mirrors_of_bound {blake3 : Digest} {name expected : String} {create : Bool} {fate : Fate}
    {log : List UInt8} {j : Journal} (hb : AdminJournal.bindingRecord blake3 name = .ok expected)
    (h : AdminJournal.openJournal blake3 name create fate [] = (log, .ok j)) :
    Mirrors blake3 j name expected log := by
  have hstored : AdminJournal.Stored blake3 [] .default none [] [] :=
    ⟨rfl, by simp, .nil, .inl (.inl rfl)⟩
  rw [AdminJournal.openJournal_unbound hstored, hb] at h
  simp only at h
  split at h
  · cases h
  · cases fate with
    | torn written => cases h
    | done =>
      cases h
      have hholds := AdminJournal.holds_binding hb
      have hlog : AdminJournal.log blake3 [expected] = AdminJournal.frameAt blake3 1 expected := by
        simp [AdminJournal.log, TornLog.logFrom]
      have hscan := @AdminJournal.recoverEach_log blake3 _ (AdminJournal.replay expected) [expected] []
        .default (by rw [List.append_nil]; exact hholds.small) hholds.fits (.inl rfl)
      have hreplay : AdminJournal.replayFrom (AdminJournal.replay expected) 1 [expected] .default =
          .ok .default := hholds.rebuilt
      rw [hreplay, List.append_nil, hlog] at hscan
      refine ⟨hb, rfl, ?_, by simp [AdminJournal.scanned], rfl⟩
      rw [hscan, AdminJournal.scanned, hlog]

/-- An opened journal mirrors its log, also when opening has just bound it. -/
theorem mirrors_of_open {blake3 : Digest} {name : String} {create : Bool} {fate : Fate}
    {disk log : List UInt8} {j : Journal}
    (h : AdminJournal.openJournal blake3 name create fate disk = (log, .ok j)) :
    ∃ expected, Mirrors blake3 j name expected log := by
  have hopen := h
  unfold AdminJournal.openJournal at h
  cases hb : AdminJournal.bindingRecord blake3 name with
  | error e =>
    rw [hb] at h
    cases h
  | ok expected =>
    simp only [hb] at h
    refine ⟨expected, ?_⟩
    unfold Store.openMode at h
    by_cases hsize : disk.length > AdminJournal.maxLog
    · rw [if_pos hsize] at h
      cases h
    · rw [if_neg hsize] at h
      cases hr : recoverEach blake3 (AdminJournal.replay expected) disk 0 .default with
      | error e =>
        rw [hr] at h
        cases h
      | ok p =>
        obtain ⟨r, state⟩ := p
        simp only [hr] at h
        split at h
        · rename_i hne
          cases h
          exact ⟨hb, rfl, hr, hne, rfl⟩
        · rename_i hzero
          rw [not_not] at hzero
          split at h
          · cases h
          · rename_i hgo
            rw [not_or, not_not, Bool.not_eq_true] at hgo
            obtain ⟨l, tail, hdisk, -, hl, hflag, -, hvisit⟩ := AdminJournal.recoverEach_sound hr
            -- nothing was recovered and nothing is torn, so the log was empty
            have hlast := (hl.numbered AdminJournal.next_val).2
            have hnil : l = [] := by
              rw [hzero] at hlast
              simp only [Fin.val_zero, Nat.zero_add] at hlast
              exact List.eq_nil_of_length_eq_zero hlast.symm
            subst hnil
            have htail : tail = [] := by
              rw [hgo.1] at hflag
              simpa using hflag.symm
            have hempty : disk = [] := by
              rw [hdisk, hl.bytes_nil, htail]
              rfl
            subst hempty
            exact mirrors_of_bound hb hopen

/-- A scan that ends well for one visitor does so for one that looks at nothing. -/
theorem recover_of_scanned {blake3 : Digest} {σ : Type}
    {V : σ → U64 → String → Except AdminJournal.Error σ} {log : List UInt8} {init state : σ}
    {r : Recovered} (h : recoverEach blake3 V log 0 init = .ok (r, state)) :
    AdminJournal.recover blake3 log 0 = .ok r := by
  unfold AdminJournal.recover recoverEach at *
  split at h
  · cases h
  · rename_i hsize
    rw [if_neg hsize]
    rw [AdminJournal.recoverLoop_eq] at h ⊢
    obtain ⟨⟨scan, text, state⟩, hs, he⟩ := AdminJournal.map_eq_ok h
    cases he
    -- the text of the last record is all that is kept beside the scan
    have hstep : ∀ (p : Option String × σ) (q : Option String × Unit) (n : U64) (text : String)
        (p' : Option String × σ), p.1 = q.1 →
        ((V p.2 n text).map fun s => (some text, s)) = .ok p' →
        ∃ q', ((.ok q.2 : Except AdminJournal.Error Unit).map fun u => (some text, u)) = .ok q' ∧
          p'.1 = q'.1 := by
      intro p q n text p' _ hv
      obtain ⟨s, -, rfl⟩ := AdminJournal.map_eq_ok hv
      exact ⟨(some text, q.2), rfl, rfl⟩
    have hstart : (none, init).1 = ((none, ()) : Option String × Unit).1 := rfl
    obtain ⟨⟨text', u⟩, hscan, rfl⟩ := FramedScan.scan_simulation
      (R := fun (p : Option String × σ) (q : Option String × Unit) => p.1 = q.1) hstep hstart hs
    exact congrArg (fun x => Except.map Prod.fst (Except.map _ x)) hscan

/-- The optional checkpoint beside a log, if there is one that the reader accepts. -/
def Beside {P : Pipeline} (name : String) (registry : P.Registry) (files : Files) :
    Option Checkpoint → Prop
  | none => files.checkpoint = none
  | some c => ∃ bytes, files.checkpoint = some bytes ∧ decode bytes name registry files.log = .ok c

section
variable {P : Pipeline} {name expected : String} {registry : P.Registry} {files : Files} {j : Journal}

/-- Inspection of a mirrored log succeeds with an accepted checkpoint, or with none. -/
theorem inspectRecovery_ok (hm : Mirrors P.blake3 j name expected files.log) {c : Option Checkpoint}
    (hc : Beside name registry files c) :
    inspectRecovery j registry .none files = (j, .ok ⟨disposition j c, c⟩) := by
  obtain rfl := hm.named
  have hsize : ¬ files.log.length > AdminJournal.maxLog := by
    intro hbig
    have hs := hm.scanned
    rw [recoverEach, if_pos hbig] at hs
    cases hs
  have hlog : checkpointLog P.blake3 j.store .none files.log = (j.store, .ok files.log) := by
    unfold checkpointLog
    rw [if_neg (by simp [hm.clean]), if_neg (by simp), if_neg hsize, recover_of_scanned hm.scanned]
    simp
  unfold inspectRecovery loadCheckpoint
  rw [hlog]
  cases c with
  | none =>
    have hnone : files.checkpoint = none := hc
    simp [checkpointBytes, hnone]
  | some c =>
    obtain ⟨bytes, hbytes, hdecode⟩ := hc
    have hfit : ¬ bytes.length > maxBytes := (not_or.mp (decode_ok.1 hdecode).envelope).1
    simp [checkpointBytes, hbytes, hfit, hdecode]

end

/-- The classification of the transactions themselves: torn, undecided, and what became of
those after the checkpoint. -/
structure Classified (d : Disposition) (saved : Bool) (covered later : List Transaction)
    (tail : List UInt8) : Prop where
  torn : d = .reconcile .incompleteTail ↔ tail ≠ []
  unknown : tail = [] → (d = .reconcile .unknownOutcome ↔ Unknown (covered ++ later))
  applied : tail = [] → ¬ Unknown (covered ++ later) → saved = true →
    (d = .reconcile .appliedAfterCheckpoint ↔ ∃ t ∈ later, t.outcome = some .applied)
  rejected : tail = [] → ¬ Unknown (covered ++ later) → saved = true →
    (d = .checkpointWithRejectedIntent ↔
      later ≠ [] ∧ ∀ t ∈ later, t.outcome = some .rejected)
  current : tail = [] → ¬ Unknown (covered ++ later) → saved = true →
    (d = .checkpointCurrent ↔ later = [])
  uninitialized : tail = [] → ¬ Unknown (covered ++ later) → saved = false →
    (d = .uninitialized ↔ covered ++ later = [])
  missing : tail = [] → ¬ Unknown (covered ++ later) → saved = false →
    (d = .reconcile .missingCheckpoint ↔ covered ++ later ≠ [])

theorem pending_iff (s : AdminJournal.State) : pending s = true ↔ s.Undecided := by
  unfold pending AdminJournal.State.Undecided
  simp

/-- With a checkpoint at sequence number `n - 1`. -/
theorem classified_saved {j : Journal} {c : Checkpoint} {covered later : List Transaction}
    {tail : List UInt8} {n count : Nat} {s : AdminJournal.State}
    (hcovered : ∀ t ∈ covered, t.outcome.isSome) (htells : Tells n count later s j.state)
    (happlied : ∀ i, s.applied = some i → i.sequence.val < n)
    (hseq : c.metadata.journalSequence.val + 1 = n)
    (hlast : j.store.sequence.val = c.metadata.journalSequence.val + count)
    (hcount : count = 0 ↔ later = []) (hflag : j.store.incompleteTail = !tail.isEmpty) :
    Classified (disposition j (some c)) true covered later tail := by
  have hunknown : Unknown (covered ++ later) ↔ pending j.state = true := by
    rw [AdminJournal.unknown_append hcovered, pending_iff, htells.unknown]
  by_cases htail : tail = []
  · have hno : j.store.incompleteTail = false := by simp [hflag, htail]
    by_cases hp : pending j.state = true
    · have hd : disposition j (some c) = .reconcile .unknownOutcome := by
        simp [disposition, hno, hp]
      rw [hd]
      constructor <;> simp [htail, hunknown, hp]
    · have hknown : ¬ Unknown later := by
        rw [← AdminJournal.unknown_append hcovered, hunknown]
        exact hp
      have hdecided := AdminJournal.decided_of_known htells.settled hknown
      have hlater : later ≠ [] ↔ j.store.sequence > c.metadata.journalSequence := by
        rw [ne_eq, ← hcount, gt_iff_lt, Fin.lt_def, hlast]
        omega
      by_cases ha : ∃ t ∈ later, t.outcome = some .applied
      · obtain ⟨i, hi, hle⟩ := htells.applied ha
        have hgt : j.state.applied.any (fun i => i.sequence > c.metadata.journalSequence) = true := by
          simp only [hi, Option.any_some, gt_iff_lt, decide_eq_true_eq, Fin.lt_def]
          omega
        have hd : disposition j (some c) = .reconcile .appliedAfterCheckpoint := by
          simp [disposition, hno, hp, hgt]
        have hne : later ≠ [] := by
          rintro rfl
          obtain ⟨t, ht, -⟩ := ha
          cases ht
        have hrej : ¬ ∀ t ∈ later, t.outcome = some .rejected := by
          obtain ⟨t, ht, hta⟩ := ha
          intro hall
          rw [hall t ht] at hta
          cases hta
        rw [hd]
        constructor <;> simp [htail, hunknown, hp, ha, hne, hrej]
      · have hkept := htells.kept fun t ht hta => ha ⟨t, ht, hta⟩
        have hle : j.state.applied.any (fun i => i.sequence > c.metadata.journalSequence) = false := by
          rw [hkept]
          cases hs : s.applied with
          | none => rfl
          | some i =>
            have hi := happlied i hs
            simp only [Option.any_some, gt_iff_lt, decide_eq_false_iff_not, Fin.lt_def]
            omega
        have hrej : ∀ t ∈ later, t.outcome = some .rejected := by
          intro t ht
          obtain ⟨d, hd⟩ := Option.isSome_iff_exists.mp (hdecided t ht)
          cases d with
          | applied => exact absurd ⟨t, ht, hd⟩ ha
          | rejected => exact hd
        by_cases hl : later = []
        · have hns : ¬ j.store.sequence > c.metadata.journalSequence := fun hgt => hlater.mpr hgt hl
          have hd : disposition j (some c) = .checkpointCurrent := by
            simp [disposition, hno, hp, hle, hns]
          rw [hl, List.append_nil] at hunknown
          rw [hd, hl]
          constructor <;> simp [htail, hunknown, hp]
        · have hd : disposition j (some c) = .checkpointWithRejectedIntent := by
            simp [disposition, hno, hp, hle, hlater.mp hl]
          rw [hd]
          constructor <;> simp only [htail, hunknown, hp, ha, hl] <;> simp
          exact ⟨hl, hrej⟩
  · have hyes : j.store.incompleteTail = true := by
      rw [hflag]
      simpa using htail
    have hd : disposition j (some c) = .reconcile .incompleteTail := by simp [disposition, hyes]
    rw [hd]
    constructor <;> simp [htail]

/-- Without a checkpoint nothing is covered. -/
theorem classified_unsaved {j : Journal} {later : List Transaction} {tail : List UInt8}
    {n count : Nat} (htells : Tells n count later .default j.state)
    (hflag : j.store.incompleteTail = !tail.isEmpty) :
    Classified (disposition j none) false [] later tail := by
  have hunknown : Unknown later ↔ pending j.state = true := by
    rw [pending_iff, htells.unknown]
  by_cases htail : tail = []
  · have hno : j.store.incompleteTail = false := by simp [hflag, htail]
    by_cases hp : pending j.state = true
    · have hd : disposition j none = .reconcile .unknownOutcome := by simp [disposition, hno, hp]
      rw [hd]
      constructor <;> simp [htail, hunknown, hp]
    · by_cases hl : later = []
      · have hlatest : j.state.latest = none := by
          rw [htells.none hl]
          rfl
        have hd : disposition j none = .uninitialized := by simp [disposition, hno, hp, hlatest]
        rw [hl] at hunknown
        rw [hd, hl]
        constructor <;> simp [htail, hunknown, hp]
      · have hlatest := htells.latest hl
        have hd : disposition j none = .reconcile .missingCheckpoint := by
          simp [disposition, hno, hp, hlatest]
        rw [hd]
        constructor <;> simp [htail, hunknown, hp, hl]
  · have hyes : j.store.incompleteTail = true := by
      rw [hflag]
      simpa using htail
    have hd : disposition j none = .reconcile .incompleteTail := by simp [disposition, hyes]
    rw [hd]
    constructor <;> simp [htail]

theorem settled_append {covered later : List Transaction} (hc : ∀ t ∈ covered, t.outcome.isSome)
    (hl : AllButLastDecided later) : AllButLastDecided (covered ++ later) := by
  intro t ht
  by_cases hne : later = []
  · subst hne
    rw [List.append_nil] at ht
    exact hc t (List.mem_of_mem_dropLast ht)
  · rw [List.dropLast_append_of_ne_nil hne, List.mem_append] at ht
    rcases ht with ht | ht
    · exact hc t ht
    · exact hl t ht

/-- The bytes of a bound log of transactions. -/
abbrev Written (blake3 : Digest) (expected : String) (txs : List Transaction) (last : U64)
    (bytes : List UInt8) : Prop :=
  FramedScan.Encoded U64.next (AdminJournal.encode blake3) 0
    (numberedFrom (2 ^ 64) 1 (expected :: payloads 2 txs)) last bytes

/-- What a checkpoint accepted beside a log covers of it. -/
theorem covered_of_accepted {P : Pipeline} {input : List UInt8} {name expected : String}
    {registry : P.Registry} {log bytes tail : List UInt8} {texts : List String} {last : U64}
    {s : AdminJournal.State} {c : Checkpoint} (hb : AdminJournal.bindingRecord P.blake3 name = .ok expected)
    (h : Accepted input name registry log c)
    (hread : Reading P.blake3 log expected texts bytes tail last s) :
    ∃ (covered later : List Transaction) (s₁ : AdminJournal.State),
      texts = payloads 2 (covered ++ later) ∧ (∀ t ∈ covered, t.outcome.isSome) ∧
      Written P.blake3 expected covered c.metadata.journalSequence
        (log.take c.metadata.journalBytes.val) ∧
      c.metadata.journalSequence.val = 1 + (payloads 2 covered).length ∧
      (∀ i, s₁.applied = some i → i.sequence.val < 2 + (payloads 2 covered).length) ∧
      Tells (2 + (payloads 2 covered).length)
        (payloads (2 + (payloads 2 covered).length) later).length later s₁ s := by
  obtain ⟨recovered, s₁, hcov, htail, hseq, hpend⟩ := h.covered
  obtain ⟨expected', hb', hr, hne⟩ := logState_ok.1 hcov
  cases hb.symm.trans hb'
  obtain ⟨texts₁, tail₁, hread₁, hflag⟩ :=
    AdminJournal.reading_of_recovered (boundVisitor_visit expected) hr hne
  have hnil : tail₁ = [] := by
    rw [htail] at hflag
    simpa using hflag.symm
  subst hnil
  have hfront : log.take c.metadata.journalBytes.val =
      (log.take c.metadata.journalBytes.val).take recovered.validBytes := by
    have hw := hread₁.whole
    rwa [List.append_nil] at hw
  rw [← hfront, hseq] at hread₁
  obtain ⟨more, rfl, hmore⟩ := reading_split hread hread₁ (List.take_prefix _ _)
  have hlast := hread.count
  have hlt := last.isLt
  rw [List.length_append] at hlast
  have hund : ¬ s₁.Undecided := by
    rw [← pending_iff, hpend]
    simp
  obtain ⟨covered, rfl, htells₁⟩ := AdminJournal.tells_of_accepted texts₁ (by omega)
    (by simp [AdminJournal.State.Undecided, AdminJournal.State.default]) hread₁.state
  obtain ⟨later, rfl, htells⟩ := AdminJournal.tells_of_accepted more (by omega) hund hmore
  have hdecided := AdminJournal.decided_of_known htells₁.settled
    (fun hu => hund (htells₁.unknown.mpr hu))
  refine ⟨covered, later, s₁, (AdminJournal.payloads_append hdecided 2 later).symm, hdecided,
    hread₁.encoded, hread₁.count, ?_, htells⟩
  intro i hi
  rcases htells₁.bound i hi with hdefault | hbound
  · cases hdefault
  · exact hbound

theorem payloads_length_eq_zero {n : Nat} {txs : List Transaction} :
    (payloads n txs).length = 0 ↔ txs = [] := by
  cases txs with
  | nil => simp [payloads]
  | cons t txs => cases ht : t.outcome <;> simp [payloads, ht]

/-- Recovery is classified by the transactions themselves: whatever log a journal was opened
on, with an accepted checkpoint beside it or none, inspection succeeds and says what the
log's transactions say. -/
theorem classification_exact {P : Pipeline} {name : String} {registry : P.Registry} {create : Bool}
    {fate : Fate} {disk : List UInt8} {files : Files} {j : Journal}
    (hopen : AdminJournal.openJournal P.blake3 name create fate disk = (files.log, .ok j))
    {c : Option Checkpoint} (hc : Beside name registry files c) :
    ∃ (expected : String) (covered later : List Transaction) (bytes tail : List UInt8)
      (d : Disposition),
      AdminJournal.bindingRecord P.blake3 name = .ok expected ∧ files.log = bytes ++ tail ∧
      Written P.blake3 expected (covered ++ later) j.store.sequence bytes ∧
      (∀ m text frame, j.store.sequence.next = some m →
        AdminJournal.encode P.blake3 m text = .ok frame → ¬ frame <+: tail) ∧
      AllButLastDecided (covered ++ later) ∧ (∀ t ∈ covered, t.outcome.isSome) ∧
      (c = none → covered = []) ∧
      (∀ checkpoint, c = some checkpoint → Written P.blake3 expected covered
        checkpoint.metadata.journalSequence (files.log.take checkpoint.metadata.journalBytes.val)) ∧
      inspectRecovery j registry .none files = (j, .ok ⟨d, c⟩) ∧
      Classified d c.isSome covered later tail := by
  obtain ⟨expected, hm⟩ := mirrors_of_open hopen
  obtain ⟨texts, tail, hread, hflag⟩ := AdminJournal.reading_of_recovered
    (AdminJournal.boundVisitor_replay expected) hm.scanned hm.sequence
  have hinspect := inspectRecovery_ok hm hc
  have hwhole : ∀ m text frame, j.store.sequence.next = some m →
      AdminJournal.encode P.blake3 m text = .ok frame → ¬ frame <+: tail := fun m text frame hn he =>
    AdminJournal.reads.not_whole hread.torn hn he
  cases c with
  | none =>
    have hlast := hread.count
    have hlt := j.store.sequence.isLt
    simp only at hlast
    obtain ⟨later, rfl, htells⟩ := AdminJournal.tells_of_accepted texts (by omega)
      (by simp [AdminJournal.State.Undecided, AdminJournal.State.default]) hread.state
    exact ⟨expected, [], later, _, tail, _, hm.bound, hread.whole, hread.encoded, hwhole,
      htells.settled, by simp, fun _ => rfl, by simp, hinspect, classified_unsaved htells hflag⟩
  | some checkpoint =>
    obtain ⟨input, -, hdecode⟩ := hc
    obtain ⟨covered, later, s₁, rfl, hdecided, hwritten, hseq, happlied, htells⟩ :=
      covered_of_accepted hm.bound (decode_ok.1 hdecode) hread
    refine ⟨expected, covered, later, _, tail, _, hm.bound, hread.whole, hread.encoded, hwhole,
      settled_append hdecided htells.settled, hdecided, by simp, ?_, hinspect, ?_⟩
    · intro other he
      cases he
      exact hwritten
    · have hlast := hread.count
      rw [AdminJournal.payloads_append hdecided, List.length_append] at hlast
      exact classified_saved hdecided htells happlied (by omega) (by simp only at hlast; omega)
        payloads_length_eq_zero hflag

theorem exists_ok {ε α : Type} {x : Except ε α} (h : x.toOption.isSome) : ∃ a, x = .ok a := by
  cases x with
  | error e => cases h
  | ok a => exact ⟨a, rfl⟩

namespace Sample
open Gatel.Sample (boundLog checkpointPipeline savedCheckpoint)

/-- A checkpoint of a binding-only log, beside that log and the start of a record. -/
def tornFiles : Files := ⟨boundLog ++ AdminJournal.magic, some savedCheckpoint⟩

theorem classified_torn :
    ∃ (j : Journal) (c : Checkpoint) (covered later : List Transaction) (bytes tail : List UInt8),
      tornFiles.log = bytes ++ tail ∧ tail ≠ [] ∧
      inspectRecovery (P := checkpointPipeline) j () .none tornFiles =
        (j, .ok ⟨.reconcile .incompleteTail, some c⟩) ∧
      Classified (.reconcile .incompleteTail) true covered later tail := by
  obtain ⟨c, hc⟩ : ∃ c, decode (P := checkpointPipeline) savedCheckpoint "main" () tornFiles.log =
      .ok c := exists_ok (by decide +kernel)
  obtain ⟨j, hj⟩ : ∃ j, (AdminJournal.openJournal checkpointPipeline.blake3 "main" true .done
      tornFiles.log).2 = .ok j := exists_ok (by decide +kernel)
  have hlog : (AdminJournal.openJournal checkpointPipeline.blake3 "main" true .done
      tornFiles.log).1 = tornFiles.log := by decide +kernel
  have hrun : (AdminJournal.openJournal checkpointPipeline.blake3 "main" true .done
      tornFiles.log).2.toOption.bind (fun j => (inspectRecovery (P := checkpointPipeline) j () .none
        tornFiles).2.toOption.map (·.disposition)) = some (.reconcile .incompleteTail) := by
    decide +kernel
  obtain ⟨expected, covered, later, bytes, tail, d, -, hwhole, -, -, -, -, -, -, hinspect, hd⟩ :=
    @classification_exact checkpointPipeline "main" () true .done tornFiles.log tornFiles j
      (Prod.ext hlog hj) (some c) ⟨savedCheckpoint, rfl, hc⟩
  rw [hj, Except.toOption, Option.bind_some, hinspect] at hrun
  cases hrun
  exact ⟨j, c, covered, later, bytes, tail, hwhole, hd.torn.mp rfl, hinspect, hd⟩

end Sample

end Gatel.AdminCheckpoint
