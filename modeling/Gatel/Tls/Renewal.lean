import Gatel.Lib.Run
import Gatel.Plan.Spec
import Gatel.Tls.CertificateStore

namespace Gatel.Tls
open KeyedMap (Map)

/-! Automatic certificates: what is looked at, and what is ordered, one call after another. -/

/-- One site that wants a certificate. -/
structure Wanted where
  site : ResourceId
  host : String
  deriving DecidableEq

def acmeOwner (blake3 : Digest) (config : Acme) (host : String) : Fingerprint :=
  ((config.hashInto (Hasher.new.updateStr "certificate-acme-owner-v1")).updateStr host).finish blake3

/-- `RETRY_AFTER`, in nanoseconds as every time here. -/
def retryAfter : Nat := 300 * 10 ^ 9

/-- What a call outside the process answers. -/
structure Answer where
  /-- The cache directory resolved, and both locks taken. -/
  locked : Bool
  notAfter : Option I64
  cached : Option Certificate
  order : Option Certificate

namespace Renewal

/-- Where the look at one site stands; `again` carries the issuance of an order in progress. -/
inductive Stage where
  | idle
  | sweeping (wanted : List Wanted)
  | attempt (again : Option Issuance) (one : Wanted) (rest : List Wanted)
  | held (again : Option Issuance) (one : Wanted) (rest : List Wanted)
  | expiry (again : Option Issuance) (served : Certificate) (one : Wanted) (rest : List Wanted)
  | obtain (one : Wanted) (rest : List Wanted)
  | locking (i : Issuance) (one : Wanted) (rest : List Wanted)
  | current (i : Issuance) (one : Wanted) (rest : List Wanted)
  | shared (i : Issuance) (one : Wanted) (rest : List Wanted)
  | cached (i : Issuance) (one : Wanted) (rest : List Wanted)
  | adopting (i : Issuance) (certificate : Certificate) (one : Wanted) (rest : List Wanted)
  | ordering (i : Issuance) (served : Option Certificate) (one : Wanted) (rest : List Wanted)
  | issuing (i : Issuance) (one : Wanted) (rest : List Wanted)
  | persisting (i : Issuance) (certificate : Certificate) (one : Wanted) (rest : List Wanted)
  | installing (i : Issuance) (certificate : Certificate) (one : Wanted) (rest : List Wanted)
  | clearing (one : Wanted) (rest : List Wanted)
  | failed (one : Wanted) (rest : List Wanted)

/-- What happened, for the statements only. -/
inductive Mark where
  /-- An issuance was taken, and who owned the site. -/
  | taken (i : Issuance) (owner : Option Ownership)
  | checked (i : Issuance) (owner : Option Ownership)
  /-- An order was sent; the last look found this certificate served. -/
  | ordered (i : Issuance) (one : Wanted) (clock : Nat) (served : Option Certificate)
  | installed (host : String) (certificate : Certificate)
  | failed (host : String) (clock : Nat)
  deriving DecidableEq

/-- The certificate an order installed for a host. -/
def Mark.installed? (m : Mark) (host : String) : Option Certificate :=
  match m with
  | .installed k c => if k = host then some c else none
  | _ => none

structure State where
  registry : Registry
  nextAttempt : Map String Nat
  clock : Nat
  stage : Stage
  /-- The latest first. -/
  log : List Mark

inductive Event where
  | pass (nanos : Nat)
  /-- Someone else's call on the store. -/
  | other (e : Registry.Event)
  | sweep (wanted : List Wanted)
  /-- The next call of the sweep in progress. -/
  | act (answer : Answer)

section
variable (blake3 : Digest) (config : Acme)

def saturatingSub (a b : I64) : Int := max (-2 ^ 63) (min (a.val - b.val) (2 ^ 63 - 1))

/-- Far enough from expiry, by what was read from disk. -/
def fresh (clock : Nat) (notAfter : I64) : Bool :=
  saturatingSub notAfter (.ofBits (Fin.ofNat _ (clock / 10 ^ 9))) >
    (I64.ofBits (Fin.ofNat _ (config.renewBefore.val / 10 ^ 9))).val

/-- `due` found the name to be ordered for. -/
def isDue (again : Option Issuance) (served : Option Certificate) (one : Wanted) (rest : List Wanted) : Stage :=
  match again with
  | none => .obtain one rest
  | some i => .ordering i served one rest

@[grind =] def advance (s : State) (a : Answer) : State :=
  let store := s.registry.store
  match s.stage with
  | .idle => s
  | .sweeping [] => { s with stage := .idle }
  | .sweeping (one :: rest) =>
    match store.issuance one.site (acmeOwner blake3 config one.host) with
    | none => { s with stage := .sweeping rest }
    | some _ => { s with stage := .attempt none one rest }
  | .attempt again one rest =>
    if (s.nextAttempt.lookup one.host).any fun next => s.clock < next then { s with stage := .sweeping rest }
    else { s with stage := .held again one rest }
  | .held again one rest =>
    match store.entries.lookup one.site with
    | none => { s with stage := isDue again none one rest }
    | some e => { s with stage := .expiry again e.certificate one rest }
  | .expiry again served one rest =>
    if a.notAfter.any fun notAfter => fresh config s.clock notAfter then { s with stage := .sweeping rest }
    else { s with stage := isDue again (some served) one rest }
  | .obtain one rest =>
    match store.issuance one.site (acmeOwner blake3 config one.host) with
    | none => { s with stage := .failed one rest }
    | some i => { s with stage := .locking i one rest, log := .taken i (store.owners.lookup one.site) :: s.log }
  | .locking i one rest => { s with stage := if a.locked then .current i one rest else .failed one rest }
  | .current i one rest =>
    { s with
      stage := if store.issuanceMatches i then .shared i one rest else .failed one rest
      log := .checked i (store.owners.lookup one.site) :: s.log }
  | .shared i one rest =>
    if a.notAfter.any fun notAfter => fresh config s.clock notAfter then { s with stage := .cached i one rest }
    else { s with stage := .attempt (some i) one rest }
  | .cached i one rest =>
    match a.cached with
    | some certificate => { s with stage := .adopting i certificate one rest }
    | none => { s with stage := .attempt (some i) one rest }
  | .adopting i certificate one rest =>
    let put := store.putIssued i certificate
    { s with registry.store := put.1, stage := if put.2 then .clearing one rest else .failed one rest }
  | .ordering i served one rest =>
    { s with stage := .issuing i one rest, log := .ordered i one s.clock served :: s.log }
  | .issuing i one rest =>
    match a.order with
    | none => { s with stage := .failed one rest }
    | some certificate => { s with stage := .persisting i certificate one rest }
  -- Whether the certificate could be saved is only logged.
  | .persisting i certificate one rest =>
    { s with stage := if store.issuanceMatches i then .installing i certificate one rest else .failed one rest }
  | .installing i certificate one rest =>
    let put := store.putIssued i certificate
    if put.2 then
      { s with
        registry.store := put.1, stage := .clearing one rest, log := .installed one.host certificate :: s.log }
    else { s with stage := .failed one rest }
  | .clearing one rest => { s with nextAttempt := s.nextAttempt.erase one.host, stage := .sweeping rest }
  | .failed one rest =>
    { s with
      nextAttempt := s.nextAttempt.insert one.host (s.clock + retryAfter)
      stage := .sweeping rest
      log := .failed one.host s.clock :: s.log }

def step (s : State) : Event → State
  | .pass nanos => { s with clock := s.clock + nanos }
  | .other e => { s with registry := s.registry.step e }
  | .sweep wanted => match s.stage with
    | .idle => { s with stage := .sweeping wanted }
    | _ => s
  | .act a => advance blake3 config s a

end

/-! What restrains an order. -/

section
variable {blake3 : Digest} {config : Acme} {expires : Certificate → Int} {s : State}

/-- A certificate is within `renew_before` of its expiry. -/
def Near (config : Acme) (expires : Certificate → Int) (clock : Nat) (c : Certificate) : Prop :=
  expires c - (clock / 10 ^ 9 : Nat) ≤ (config.renewBefore.val / 10 ^ 9 : Nat)

instance (clock : Nat) (c : Certificate) : Decidable (Near config expires clock c) := by
  unfold Near
  infer_instance

theorem Near.later {clock clock' : Nat} {c : Certificate} (h : Near config expires clock c) (hle : clock ≤ clock') :
    Near config expires clock' c := by
  unfold Near at h ⊢
  have hdiv : clock / 10 ^ 9 ≤ clock' / 10 ^ 9 := Nat.div_le_div_right hle
  omega

def lastTaken : List Mark → Option (Issuance × Option Ownership)
  | [] => none
  | .taken i owner :: _ => some (i, owner)
  | _ :: earlier => lastTaken earlier

def lastChecked : List Mark → Option (Issuance × Option Ownership)
  | [] => none
  | .checked i owner :: _ => some (i, owner)
  | _ :: earlier => lastChecked earlier

/-- The issuance was taken for this site, and at the last check the site had the owner it was
taken under. -/
def Backed (i : Issuance) (one : Wanted) (log : List Mark) : Prop :=
  i.site = one.site ∧ ∃ owner owner', lastTaken log = some (i, owner) ∧ lastChecked log = some (i, owner') ∧
    owner'.map Ownership.token = owner.map Ownership.token

/-- What may be ordered when, after all that happened earlier. -/
structure Allowed (config : Acme) (expires : Certificate → Int) (i : Issuance) (one : Wanted) (clock : Nat)
    (served : Option Certificate) (earlier : List Mark) : Prop where
  served : ∀ c ∈ served, Near config expires clock c
  retry : ∀ t, Mark.failed one.host t ∈ earlier → t + retryAfter ≤ clock
  owned : Backed i one earlier
  installed : ∀ c, Mark.installed one.host c ∈ earlier → Near config expires clock c

/-- Every order of a log was allowed. -/
def Restrained (config : Acme) (expires : Certificate → Int) : List Mark → Prop
  | [] => True
  | .ordered i one clock served :: earlier =>
    Allowed config expires i one clock served earlier ∧ Restrained config expires earlier
  | _ :: earlier => Restrained config expires earlier

/-- Every certificate an order installed for the host is near its expiry. -/
def Settled (config : Acme) (expires : Certificate → Int) (s : State) (host : String) : Prop :=
  ∀ c, Mark.installed host c ∈ s.log → Near config expires s.clock c

instance (host : String) : Decidable (Settled config expires s host) :=
  decidable_of_iff (∀ m ∈ s.log, ∀ c ∈ m.installed? host, Near config expires s.clock c) <| by
    constructor
    · intro h c hc
      exact h _ hc c (if_pos rfl)
    · intro h m hm c hc
      cases m with
      | installed k d =>
        rw [Mark.installed?, Option.mem_ite_none_right] at hc
        obtain ⟨rfl, hd⟩ := hc
        cases hd
        exact h c hm
      | _ => cases hc

/-- Whether an answer from disk is as good as what an order installed and as what is served:
before an order a certificate it installed that is not near its expiry is read back, and the
last look calls for a renewal only where the expiry of the served certificate does. -/
def Truthful (config : Acme) (expires : Certificate → Int) (s : State) (a : Answer) : Prop :=
  match s.stage with
  | .shared _ one _ => Settled config expires s one.host ∨ a.notAfter.any (fresh config s.clock) = true
  | .cached _ one _ => Settled config expires s one.host ∨ a.cached.isSome = true
  | .expiry (some _) served _ _ =>
    Near config expires s.clock served ∨ a.notAfter.any (fresh config s.clock) = true
  | _ => True

instance (a : Answer) : Decidable (Truthful config expires s a) := by
  unfold Truthful
  split <;> infer_instance

/-- The name may be ordered for again, by every refusal so far. -/
def Past (s : State) (host : String) : Prop := ∀ t, Mark.failed host t ∈ s.log → t + retryAfter ≤ s.clock

/-- What the last issuance taken is for. -/
def Taken (i : Issuance) (one : Wanted) (log : List Mark) : Prop :=
  i.site = one.site ∧ ∃ owner, lastTaken log = some (i, owner) ∧ i.token = owner.map Ownership.token

/-- What is known where a sweep stands. -/
def Known (config : Acme) (expires : Certificate → Int) (s : State) : Prop :=
  match s.stage with
  | .idle | .sweeping _ | .attempt none _ _ | .failed _ _ => True
  | .held none one _ | .expiry none _ one _ | .obtain one _ | .adopting _ _ one _ | .issuing _ one _
  | .persisting _ _ one _ | .installing _ _ one _ | .clearing one _ => Past s one.host
  | .locking i one _ | .current i one _ => Past s one.host ∧ Taken i one s.log
  | .shared i one _ | .cached i one _ => Past s one.host ∧ Backed i one s.log
  | .attempt (some i) one _ | .held (some i) one _ | .expiry (some i) _ one _ =>
    Past s one.host ∧ Backed i one s.log ∧ Settled config expires s one.host
  | .ordering i served one _ =>
    Past s one.host ∧ Backed i one s.log ∧ Settled config expires s one.host ∧ ∀ c ∈ served, Near config expires s.clock c

structure Inv (config : Acme) (expires : Certificate → Int) (s : State) : Prop where
  restrained : Restrained config expires s.log
  refused : ∀ host t, Mark.failed host t ∈ s.log → t ≤ s.clock ∧
    (t + retryAfter ≤ s.clock ∨ ∃ next, s.nextAttempt.lookup host = some next ∧ t + retryAfter ≤ next)
  known : Known config expires s

theorem Inv.to (h : Inv config expires s) {stage : Stage} {r : Registry}
    (hk : Known config expires { s with stage := stage, registry := r }) :
    Inv config expires { s with stage := stage, registry := r } := ⟨h.restrained, h.refused, hk⟩

theorem Inv.known_eq (h : Inv config expires s) {stage : Stage} (hs : s.stage = stage) :
    Known config expires { s with stage := stage } := by
  subst hs
  exact h.known

/-- A name due is past its refusals. -/
theorem Inv.past (h : Inv config expires s) {host : String}
    (hnext : (s.nextAttempt.lookup host).any (fun next => s.clock < next) = false) : Past s host := by
  intro t ht
  obtain ⟨-, hpast | ⟨next, hn, hle⟩⟩ := h.refused host t ht
  · exact hpast
  · rw [hn, Option.any_some, decide_eq_false_iff_not] at hnext
    omega

theorem Taken.checked {i : Issuance} {one : Wanted} {store : CertificateStore} {log : List Mark} (h : Taken i one log)
    (hm : store.issuanceMatches i = true) : Backed i one (.checked i (store.owners.lookup one.site) :: log) := by
  obtain ⟨hsite, owner, htaken, htoken⟩ := h
  refine ⟨hsite, owner, store.owners.lookup one.site, htaken, rfl, ?_⟩
  rw [← htoken, ← hsite]
  unfold CertificateStore.issuanceMatches at hm
  rcases ho : store.owners.lookup i.site with _ | o <;> rcases ht : i.token with _ | token <;> rw [ho, ht] at hm
  · rfl
  · cases hm
  · cases hm
  · exact congrArg some (of_decide_eq_true hm)

theorem taken_of_issuance {store : CertificateStore} {one : Wanted} {identity : Fingerprint} {i : Issuance}
    (h : store.issuance one.site identity = some i) (log : List Mark) :
    Taken i one (.taken i (store.owners.lookup one.site) :: log) := by
  unfold CertificateStore.issuance at h
  rcases ho : store.owners.lookup one.site with _ | o <;> rw [ho] at h <;> dsimp only at h
  · split at h
    · cases h
    · cases h
      exact ⟨rfl, none, rfl, rfl⟩
  · split at h
    · cases h
    · cases h
      exact ⟨rfl, some o, rfl, rfl⟩

/-- A mark that is neither an order nor a refusal. -/
theorem Inv.mark (h : Inv config expires s) {m : Mark} {stage : Stage} {r : Registry}
    (ho : ∀ i one clock served, m ≠ .ordered i one clock served) (hf : ∀ host t, m ≠ .failed host t)
    (hk : Known config expires { s with stage := stage, registry := r, log := m :: s.log }) :
    Inv config expires { s with stage := stage, registry := r, log := m :: s.log } := by
  refine ⟨?_, ?_, hk⟩
  · cases m with
    | ordered i one clock served => exact absurd rfl (ho i one clock served)
    | _ => exact h.restrained
  · intro host t ht
    rcases List.mem_cons.mp ht with he | ht
    · exact absurd he.symm (hf host t)
    · exact h.refused host t ht

theorem Past.mark {host : String} {m : Mark} (h : Past s host) (hf : ∀ host t, m ≠ .failed host t) {stage : Stage} {r : Registry} :
    Past { s with stage := stage, registry := r, log := m :: s.log } host := by
  intro t ht
  rcases List.mem_cons.mp ht with he | ht
  · exact absurd he.symm (hf host t)
  · exact h t ht

/-- One call keeps what is known, as long as the disk tells the truth before an order. -/
theorem Inv.advance (h : Inv config expires s) {a : Answer} (ht : Truthful config expires s a) :
    Inv config expires (advance blake3 config s a) := by
  unfold Renewal.advance
  dsimp only
  rcases hs : s.stage with _ | wanted | ⟨again, one, rest⟩ | ⟨again, one, rest⟩ | ⟨again, served, one, rest⟩ | ⟨one, rest⟩ |
    ⟨i, one, rest⟩ | ⟨i, one, rest⟩ | ⟨i, one, rest⟩ | ⟨i, one, rest⟩ | ⟨i, c, one, rest⟩ | ⟨i, served, one, rest⟩ |
    ⟨i, one, rest⟩ | ⟨i, c, one, rest⟩ | ⟨i, c, one, rest⟩ | ⟨one, rest⟩ | ⟨one, rest⟩
  all_goals have hknown := h.known_eq hs
  all_goals try dsimp only
  case idle => exact h
  case sweeping =>
    rcases wanted with _ | ⟨one, rest⟩ <;> dsimp only
    · exact h.to trivial
    · split
      · exact h.to trivial
      · exact h.to trivial
  case attempt =>
    split
    · exact h.to trivial
    · rename_i hnext
      have hpast := h.past (Bool.eq_false_of_not_eq_true hnext)
      cases again with
      | none => exact h.to hpast
      | some i => exact h.to ⟨hpast, hknown.2⟩
  case held =>
    split
    · cases again with
      | none => exact h.to hknown
      | some i => exact h.to ⟨hknown.1, hknown.2.1, hknown.2.2, fun _ hc => absurd hc (Option.not_mem_none _)⟩
    · cases again with
      | none => exact h.to hknown
      | some i => exact h.to hknown
  case expiry =>
    split
    · exact h.to trivial
    · rename_i hfresh
      cases again with
      | none => exact h.to hknown
      | some i =>
        have hnear : Near config expires s.clock served := by
          unfold Truthful at ht
          rw [hs] at ht
          exact ht.resolve_right hfresh
        refine h.to ⟨hknown.1, hknown.2.1, hknown.2.2, ?_⟩
        rintro c ⟨⟩
        exact hnear
  case obtain =>
    split
    · exact h.to trivial
    · rename_i i hi
      exact h.mark (by simp) (by simp) ⟨hknown.mark (by simp), taken_of_issuance hi s.log⟩
  case locking =>
    split
    · exact h.to hknown
    · exact h.to trivial
  case current =>
    split
    · rename_i hm
      exact h.mark (by simp) (by simp) ⟨hknown.1.mark (by simp), hknown.2.checked hm⟩
    · exact h.mark (by simp) (by simp) trivial
  case shared =>
    unfold Truthful at ht
    rw [hs] at ht
    split
    · exact h.to hknown
    · rename_i hfresh
      exact h.to ⟨hknown.1, hknown.2, ht.resolve_right hfresh⟩
  case cached =>
    unfold Truthful at ht
    rw [hs] at ht
    rcases hc : a.cached with _ | c <;> dsimp only
    · exact h.to ⟨hknown.1, hknown.2, ht.resolve_right (by simp [hc])⟩
    · exact h.to hknown.1
  case adopting =>
    rcases (s.registry.store.putIssued i c).2 with _ | _
    · exact h.to trivial
    · exact h.to hknown
  case ordering =>
    refine ⟨⟨⟨hknown.2.2.2, hknown.1, hknown.2.1, hknown.2.2.1⟩, h.restrained⟩, ?_, hknown.1.mark (by simp)⟩
    intro host t hm
    rcases List.mem_cons.mp hm with he | hm
    · cases he
    · exact h.refused host t hm
  case issuing =>
    rcases a.order with _ | c <;> dsimp only
    · exact h.to trivial
    · exact h.to hknown
  case persisting =>
    split
    · exact h.to hknown
    · exact h.to trivial
  case installing =>
    split
    · exact h.mark (by simp) (by simp) (hknown.mark (by simp))
    · exact h.to trivial
  case clearing =>
    refine ⟨h.restrained, ?_, trivial⟩
    intro host t hm
    obtain ⟨hle, hpast⟩ := h.refused host t hm
    refine ⟨hle, ?_⟩
    by_cases hh : host = one.host
    · subst hh
      exact .inl (hknown t hm)
    · rwa [AList.lookup_erase_ne hh]
  case failed =>
    refine ⟨h.restrained, ?_, trivial⟩
    intro host t hm
    rcases List.mem_cons.mp hm with he | hm
    · cases he
      exact ⟨le_refl _, .inr ⟨_, AList.lookup_insert _, le_refl _⟩⟩
    · obtain ⟨hle, hpast⟩ := h.refused host t hm
      refine ⟨hle, ?_⟩
      by_cases hh : host = one.host
      · subst hh
        exact .inr ⟨_, AList.lookup_insert _, Nat.add_le_add_right hle _⟩
      · rwa [AList.lookup_insert_ne hh]

theorem Past.later {host : String} (h : Past s host) {nanos : Nat} :
    Past { s with clock := s.clock + nanos } host := fun t ht => (h t ht).trans (Nat.le_add_right _ _)

theorem Settled.later {host : String} (h : Settled config expires s host) {nanos : Nat} :
    Settled config expires { s with clock := s.clock + nanos } host :=
  fun c hc => (h c hc).later (Nat.le_add_right _ _)

/-- Time makes no name less due. -/
theorem Inv.pass (h : Inv config expires s) (nanos : Nat) : Inv config expires { s with clock := s.clock + nanos } := by
  refine ⟨h.restrained, ?_, ?_⟩
  · intro host t ht
    obtain ⟨hle, hpast | hnext⟩ := h.refused host t ht
    · exact ⟨hle.trans (Nat.le_add_right _ _), .inl (hpast.trans (Nat.le_add_right _ _))⟩
    · exact ⟨hle.trans (Nat.le_add_right _ _), .inr hnext⟩
  · have hknown := h.known
    unfold Known at hknown ⊢
    split at hknown
    all_goals rename_i hs
    all_goals simp only [hs]
    all_goals first
    | exact hknown.later
    | exact ⟨hknown.1.later, hknown.2.1, hknown.2.2.1.later, fun c hc => (hknown.2.2.2 c hc).later (Nat.le_add_right _ _)⟩
    | exact ⟨hknown.1.later, hknown.2.1, hknown.2.2.later⟩
    | exact ⟨hknown.1.later, hknown.2⟩

/-- What an event reads is truthful. -/
def Event.Truthful (config : Acme) (expires : Certificate → Int) (s : State) : Event → Prop
  | .act a => Renewal.Truthful config expires s a
  | _ => True

instance (e : Event) : Decidable (e.Truthful config expires s) := by
  cases e <;> unfold Event.Truthful <;> infer_instance

theorem Inv.step (h : Inv config expires s) {e : Event} (ht : e.Truthful config expires s) :
    Inv config expires (Renewal.step blake3 config s e) := by
  cases e with
  | pass nanos => exact h.pass nanos
  | other e => exact h.to h.known
  | sweep wanted =>
    unfold Renewal.step
    dsimp only
    split
    · exact h.to trivial
    · exact h
  | act a => exact h.advance ht

/-- A renewal before its first sweep. -/
def new (registry : Registry) (clock : Nat) : State := ⟨registry, ∅, clock, .idle, []⟩

/-- Every answer along a run is truthful where it is given. -/
def TruthfulRun (blake3 : Digest) (config : Acme) (expires : Certificate → Int) (s : State) : List Event → Prop
  | [] => True
  | e :: events => e.Truthful config expires s ∧ TruthfulRun blake3 config expires (step blake3 config s e) events

instance TruthfulRun.decidable : ∀ (s : State) (events : List Event),
    Decidable (TruthfulRun blake3 config expires s events)
  | _, [] => inferInstanceAs (Decidable True)
  | s, e :: events =>
    have := TruthfulRun.decidable (step blake3 config s e) events
    inferInstanceAs (Decidable (e.Truthful config expires s ∧ TruthfulRun blake3 config expires (step blake3 config s e) events))

theorem Inv.run (h : Inv config expires s) {events : List Event} (ht : TruthfulRun blake3 config expires s events) :
    Inv config expires (Run.run (Renewal.step blake3 config) s events) := by
  induction events generalizing s with
  | nil => exact h
  | cons e events ih => exact ih (h.step ht.1) ht.2

theorem inv_new (registry : Registry) (clock : Nat) : Inv config expires (new registry clock) :=
  ⟨trivial, fun _ _ h => absurd h List.not_mem_nil, trivial⟩

/-- Where the disk gives back what was installed and what is served, every order is restrained. -/
theorem orders_restrained (blake3 : Digest) (config : Acme) (expires : Certificate → Int) (registry : Registry)
    (clock : Nat) {events : List Event} (ht : TruthfulRun blake3 config expires (new registry clock) events) :
    Restrained config expires (Run.run (step blake3 config) (new registry clock) events).log :=
  ((inv_new registry clock).run ht).restrained

end

/-! An order whose certificate could not be saved. -/

def Sample.monthly : Acme := ⟨Acme.defaultDirectory, "ops@example.com", true, none, .fromSecs 2592000⟩

def Sample.example : Wanted := ⟨⟨.site, "example.com"⟩, "example.com"⟩

/-- The authority issues; nothing is read back from disk. -/
def Sample.unsaved : Answer := ⟨true, none, none, some ⟨[[1]], [2]⟩⟩

/-- Two sweeps, ten minutes apart. -/
def Sample.twice : List Event :=
  Event.sweep [Sample.example] :: List.replicate 15 (Event.act Sample.unsaved) ++ Event.pass (600 * 10 ^ 9) ::
    Event.sweep [Sample.example] :: List.replicate 12 (Event.act Sample.unsaved)

def Sample.expires : Certificate → Int := fun _ => 1707776000

def Sample.clock : Nat := 1700000000 * 10 ^ 9

def Sample.blake3 : Digest := fun _ => .zero

/-- The same two sweeps with the certificate on disk at the second. -/
def Sample.saved : List Event :=
  Event.sweep [Sample.example] :: List.replicate 15 (Event.act Sample.unsaved) ++ Event.pass (600 * 10 ^ 9) ::
    Event.sweep [Sample.example] :: List.replicate 5 (Event.act { Sample.unsaved with notAfter := some ⟨1707776000, by decide, by decide⟩ })

theorem Sample.saved_truthful : decide
    (TruthfulRun Sample.blake3 Sample.monthly Sample.expires (new Registry.new Sample.clock) Sample.saved) = true := by
  decide

/-- No second order. -/
theorem orders_restrained_saved :
    TruthfulRun Sample.blake3 Sample.monthly Sample.expires (new Registry.new Sample.clock) Sample.saved ∧
      Restrained Sample.monthly Sample.expires
        (Run.run (step Sample.blake3 Sample.monthly) (new Registry.new Sample.clock) Sample.saved).log :=
  ⟨of_decide_eq_true Sample.saved_truthful, orders_restrained Sample.blake3 Sample.monthly Sample.expires Registry.new
    Sample.clock (of_decide_eq_true Sample.saved_truthful)⟩

theorem Sample.twice_log : (Run.run (step Sample.blake3 Sample.monthly) (new Registry.new Sample.clock) Sample.twice).log =
    [.ordered ⟨Sample.example.site, none⟩ Sample.example (1700000600 * 10 ^ 9) (some ⟨[[1]], [2]⟩),
     .checked ⟨Sample.example.site, none⟩ none, .taken ⟨Sample.example.site, none⟩ none,
     .installed "example.com" ⟨[[1]], [2]⟩,
     .ordered ⟨Sample.example.site, none⟩ Sample.example Sample.clock none,
     .checked ⟨Sample.example.site, none⟩ none, .taken ⟨Sample.example.site, none⟩ none] := by decide

/-- The certificate is installed and good for ninety days, and it is ordered again. -/
theorem ordered_again : ∃ (blake3 : Digest) (config : Acme) (expires : Certificate → Int) (registry : Registry)
    (clock : Nat) (events : List Event),
    ¬ Restrained config expires (Run.run (step blake3 config) (new registry clock) events).log := by
  refine ⟨Sample.blake3, Sample.monthly, Sample.expires, .new, Sample.clock, Sample.twice, ?_⟩
  rw [Sample.twice_log]
  intro h
  have hnear := h.1.installed ⟨[[1]], [2]⟩ (by simp [Sample.example])
  unfold Near at hnear
  revert hnear
  decide

end Renewal

end Gatel.Tls
