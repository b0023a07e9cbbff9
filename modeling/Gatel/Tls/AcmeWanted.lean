import Gatel.Lib.KeepFirst
import Gatel.Plan.Selection
import Gatel.Plan.Conditions
import Gatel.Tls.Renewal

namespace Gatel.Tls
open Diagnostics (hasErrors)

/-! Which sites automatic certificates are ordered for, and what the orders bring each of them. -/

def wantedSite (wanted : List Wanted) (site : Site) : List Wanted :=
  match site.tls with
  | none => wanted
  | some tls =>
    if tls.source ≠ .acme then wanted
    else match site.host with
      | .exact host => KeepFirst.offer Wanted.host wanted ⟨site.id, host⟩
      | _ => wanted

/-- `acme_wanted`, without its account. -/
def acmeWanted (spec : Spec) : List Wanted := spec.sites.foldl wantedSite []

def acmeIntent (spec : Spec) : Option (Acme × List Wanted) :=
  if acmeWanted spec = [] then none else spec.global.acme.map fun config => (config, acmeWanted spec)

/-- A site that says `tls acme`. -/
def Automatic (site : Site) : Prop := ∃ tls, site.tls = some tls ∧ tls.source = .acme

instance (site : Site) : Decidable (Automatic site) :=
  decidable_of_iff (site.tls.any fun tls => tls.source = .acme) <| by
    simp [Automatic, Option.any_eq_true, and_comm]

/-- No site before it says `tls acme` for the same host. -/
def FirstOfHost (spec : Spec) (site : Site) : Prop :=
  ∃ before after, spec.sites = before ++ site :: after ∧ ∀ earlier ∈ before, Automatic earlier → earlier.host ≠ site.host

theorem wantedSite_automatic {site : Site} (h : Automatic site) {host : String} (hh : site.host = .exact host)
    (wanted : List Wanted) : wantedSite wanted site = KeepFirst.offer Wanted.host wanted ⟨site.id, host⟩ := by
  obtain ⟨tls, ht, hs⟩ := h
  simp only [wantedSite, ht, hs, hh, ne_eq, not_true_eq_false, if_false]

theorem wantedSite_other {site : Site} (h : ¬ Automatic site) (wanted : List Wanted) : wantedSite wanted site = wanted := by
  unfold wantedSite
  split
  · rfl
  · rename_i tls ht
    exact if_pos fun hs => h ⟨tls, ht, hs⟩

theorem mem_wantedSite {wanted : List Wanted} {site : Site} {w : Wanted} :
    w ∈ wantedSite wanted site ↔ w ∈ wanted ∨
      (Automatic site ∧ site.host = .exact w.host ∧ w.site = site.id ∧ ∀ v ∈ wanted, v.host ≠ w.host) := by
  by_cases ha : Automatic site
  · cases hh : site.host with
    | exact host =>
      rw [wantedSite_automatic ha hh, KeepFirst.offer]
      split
      · rename_i hany
        rw [List.any_eq_true] at hany
        obtain ⟨v, hv, he⟩ := hany
        refine ⟨.inl, fun hw => hw.resolve_right ?_⟩
        rintro ⟨-, he', -, hno⟩
        cases he'
        exact hno v hv (of_decide_eq_true he)
      · rename_i hany
        have hno : ∀ v ∈ wanted, v.host ≠ host := fun v hv he =>
          hany (List.any_eq_true.mpr ⟨v, hv, decide_eq_true he⟩)
        rw [List.mem_append, List.mem_singleton]
        refine or_congr_right ⟨?_, ?_⟩
        · rintro rfl
          exact ⟨ha, rfl, rfl, hno⟩
        · rintro ⟨-, he, hs, -⟩
          cases he
          obtain ⟨wsite, whost⟩ := w
          cases hs
          rfl
    | _ =>
      obtain ⟨tls, ht, hs⟩ := ha
      simp [wantedSite, ht, hs, hh]
  · rw [wantedSite_other ha]
    simp [ha]

/-- The hosts wanted are those of the sites that say `tls acme`. -/
theorem host_wanted {sites : List Site} {host : String} :
    (∃ w ∈ sites.foldl wantedSite [], w.host = host) ↔ ∃ site ∈ sites, Automatic site ∧ site.host = .exact host := by
  induction sites using List.reverseRecOn with
  | nil => simp
  | append_singleton sites site ih =>
    simp only [List.foldl_append, List.foldl_cons, List.foldl_nil, List.mem_append, List.mem_singleton]
    constructor
    · rintro ⟨w, hw, rfl⟩
      rcases mem_wantedSite.1 hw with hw | ⟨ha, hh, -⟩
      · obtain ⟨s, hs, hx⟩ := ih.mp ⟨w, hw, rfl⟩
        exact ⟨s, .inl hs, hx⟩
      · exact ⟨site, .inr rfl, ha, hh⟩
    · rintro ⟨s, hs | rfl, ha, hh⟩
      · obtain ⟨w, hw, he⟩ := ih.mpr ⟨s, hs, ha, hh⟩
        exact ⟨w, mem_wantedSite.2 (.inl hw), he⟩
      · by_cases hthere : ∃ w ∈ sites.foldl wantedSite [], w.host = host
        · obtain ⟨w, hw, he⟩ := hthere
          exact ⟨w, mem_wantedSite.2 (.inl hw), he⟩
        · refine ⟨⟨s.id, host⟩, mem_wantedSite.2 (.inr ⟨ha, hh, rfl, ?_⟩), rfl⟩
          intro v hv he
          exact hthere ⟨v, hv, he⟩

/-- What is wanted: the first of the sites that say `tls acme` for one host. -/
theorem mem_acmeWanted {sites : List Site} {w : Wanted} :
    w ∈ sites.foldl wantedSite [] ↔ ∃ before site after, sites = before ++ site :: after ∧ Automatic site ∧
      site.host = .exact w.host ∧ w.site = site.id ∧ ∀ earlier ∈ before, Automatic earlier → earlier.host ≠ .exact w.host := by
  induction sites using List.reverseRecOn with
  | nil => simp
  | append_singleton sites site ih =>
    rw [List.foldl_append, List.foldl_cons, List.foldl_nil, mem_wantedSite, ih]
    constructor
    · rintro (⟨before, s, after, rfl, h⟩ | ⟨ha, hh, hs, hno⟩)
      · exact ⟨before, s, after ++ [site], by simp, h⟩
      · refine ⟨sites, site, [], rfl, ha, hh, hs, ?_⟩
        intro earlier he ha' hh'
        obtain ⟨v, hv, hvh⟩ := host_wanted.2 ⟨earlier, he, ha', hh'⟩
        exact hno v hv hvh
    · rintro ⟨before, s, after, he, ha, hh, hs, hno⟩
      rcases List.eq_nil_or_concat after with rfl | ⟨after, last, rfl⟩
      · obtain ⟨rfl, h⟩ := List.append_inj' he rfl
        cases h
        refine .inr ⟨ha, hh, hs, ?_⟩
        intro v hv hvh
        obtain ⟨earlier, hm, ha', hh'⟩ := host_wanted.1 ⟨v, hv, hvh⟩
        exact hno earlier hm ha' hh'
      · rw [List.concat_eq_append, ← List.cons_append, ← List.append_assoc] at he
        obtain ⟨rfl, -⟩ := List.append_inj' he rfl
        exact .inl ⟨before, s, after, rfl, ha, hh, hs, hno⟩

theorem checkAcme_clean {spec : Spec} {site : Site} (h : hasErrors (checkAcme spec site) = false) (ha : Automatic site) :
    (∃ host, site.host = .exact host) ∧ ∃ config, spec.global.acme = some config := by
  obtain ⟨tls, ht, hs⟩ := ha
  simp only [checkAcme, ht, hs, ne_eq, not_true_eq_false, if_false, Diagnostics.hasErrors_append, Bool.or_eq_false_iff] at h
  obtain ⟨hglobal, hhost⟩ := h
  refine ⟨?_, ?_⟩
  · cases hh : site.host with
    | exact host => exact ⟨host, rfl⟩
    | _ =>
      rw [hh] at hhost
      cases hhost
  · rcases hg : spec.global.acme with _ | config
    · rw [hg] at hglobal
      cases hglobal
    · exact ⟨config, rfl⟩

/-- What an accepted site that says `tls acme` has: a name to certify, and an authority to ask. -/
theorem automatic_of_accepted {fe : Frontend} {s : Snapshot} {a : Spec} (h : normalize fe s = .ok a) {site : Site}
    (hs : site ∈ a.sites) (ha : Automatic site) : (∃ host, site.host = .exact host) ∧ ∃ config, a.global.acme = some config := by
  obtain ⟨global, listeners, origin, -, -, hf, rfl⟩ := fe.normalize_eq_ok.mp h
  generalize s.nodes.foldl (Pass.step fe) .start = p at hf hs
  simp only [finishSpec, Diagnostics.hasErrors_append, Bool.or_eq_false_iff, checkReferences, Diagnostics.hasErrors_flatMap,
    List.any_eq_false, Bool.not_eq_true] at hf
  obtain ⟨x, hx, rfl⟩ := List.mem_map.mp ((CanonicalSort.sortBy_perm compareSites _).mem_iff.mp hs)
  exact checkAcme_clean (hf.1.2.1.1 x hx) ha

namespace Renewal

/-- The sites a sweep is not done with. -/
@[grind =] def Stage.todo : Stage → List Wanted
  | .idle => []
  | .sweeping wanted => wanted
  | .attempt _ one rest | .held _ one rest | .expiry _ _ one rest | .obtain one rest | .locking _ one rest
  | .current _ one rest | .shared _ one rest | .cached _ one rest | .adopting _ _ one rest | .ordering _ _ one rest
  | .issuing _ one rest | .persisting _ _ one rest | .installing _ _ one rest | .clearing one rest
  | .failed one rest => one :: rest

/-- The issuance an order in progress was taken under. -/
@[grind =] def Stage.issuance : Stage → Option Issuance
  | .attempt again _ _ | .held again _ _ | .expiry again _ _ _ => again
  | .locking i _ _ | .current i _ _ | .shared i _ _ | .cached i _ _ | .adopting i _ _ _ | .ordering i _ _ _
  | .issuing i _ _ | .persisting i _ _ _ | .installing i _ _ _ => some i
  | _ => none

section
variable {blake3 : Digest} {config : Acme} {s : State} {wanted : List Wanted}

theorem issuance_site {store : CertificateStore} {site : ResourceId} {identity : Fingerprint} {i : Issuance}
    (h : store.issuance site identity = some i) : i.site = site := by
  unfold CertificateStore.issuance at h
  split at h
  · split at h
    · cases h
    · cases h
      rfl
  · split at h
    · cases h
    · cases h
      rfl

/-- A call stays with the sites of its sweep, and writes only under the issuance in progress. -/
structure Frame (s s' : State) : Prop where
  todo : s'.stage.todo <:+ s.stage.todo
  issuance : ∀ i ∈ s'.stage.issuance, i ∈ s.stage.issuance ∨ ∃ one ∈ s.stage.todo, i.site = one.site
  store : s'.registry.store = s.registry.store ∨
    ∃ i ∈ s.stage.issuance, ∃ c, s'.registry.store = (s.registry.store.putIssued i c).1

theorem Frame.to {stage : Stage} {n : KeyedMap.Map String Nat} {log : List Mark} (ht : stage.todo <:+ s.stage.todo)
    (hi : ∀ i ∈ stage.issuance, i ∈ s.stage.issuance ∨ ∃ one ∈ s.stage.todo, i.site = one.site) :
    Frame s { s with stage := stage, nextAttempt := n, log := log } := ⟨ht, hi, .inl rfl⟩

theorem frame_advance (s : State) (a : Answer) : Frame s (advance blake3 config s a) := by
  unfold advance
  dsimp only
  split
  all_goals rename_i hs
  case h_1 => exact ⟨List.suffix_refl _, fun _ => .inl, .inl rfl⟩
  case h_2 => exact .to (by simp [hs, Stage.todo]) (by simp [Stage.issuance])
  case h_3 => split <;> exact .to (by simp [hs, Stage.todo]) (by simp [Stage.issuance])
  case h_4 =>
    split
    · exact .to (by simp [hs, Stage.todo]) (by simp [Stage.issuance])
    · exact .to (by simp [hs, Stage.todo]) fun i hi => .inl (by rw [hs]; exact hi)
  case h_5 again one rest => cases again <;> split <;> exact .to (by simp [hs, isDue, Stage.todo]) (by simp [hs, isDue, Stage.issuance])
  case h_6 again served one rest =>
    cases again <;> split <;> exact .to (by simp [hs, isDue, Stage.todo]) (by simp [hs, isDue, Stage.issuance])
  case h_7 one rest =>
    split
    · exact .to (by simp [hs, Stage.todo]) (by simp [Stage.issuance])
    · rename_i i hi
      refine .to (by simp [hs, Stage.todo]) ?_
      rintro _ ⟨⟩
      exact .inr ⟨one, by simp [hs, Stage.todo], issuance_site hi⟩
  case h_8 => split <;> exact .to (by simp [hs, Stage.todo]) (by simp [hs, Stage.issuance])
  case h_9 => split <;> exact .to (by simp [hs, Stage.todo]) (by simp [hs, Stage.issuance])
  case h_10 => split <;> exact .to (by simp [hs, Stage.todo]) (by simp [hs, Stage.issuance])
  case h_11 => split <;> exact .to (by simp [hs, Stage.todo]) (by simp [hs, Stage.issuance])
  case h_12 i c one rest =>
    refine ⟨?_, ?_, .inr ⟨i, by simp [hs, Stage.issuance], c, rfl⟩⟩ <;> dsimp only
    · split <;> simp [hs, Stage.todo]
    · split <;> simp [Stage.issuance]
  case h_13 => exact .to (by simp [hs, Stage.todo]) (by simp [hs, Stage.issuance])
  case h_14 => split <;> exact .to (by simp [hs, Stage.todo]) (by simp [hs, Stage.issuance])
  case h_15 => split <;> exact .to (by simp [hs, Stage.todo]) (by simp [hs, Stage.issuance])
  case h_16 i c one rest =>
    split
    · exact ⟨by simp [hs, Stage.todo], by simp [Stage.issuance], .inr ⟨i, by simp [hs, Stage.issuance], c, rfl⟩⟩
    · exact .to (by simp [hs, Stage.todo]) (by simp [Stage.issuance])
  case h_17 => exact .to (by simp [hs, Stage.todo]) (by simp [Stage.issuance])
  case h_18 => exact .to (by simp [hs, Stage.todo]) (by simp [Stage.issuance])

/-- What a sweep of these sites can meet: time, and its own calls with every lock taken and every
order granted. -/
def Prompt (wanted : List Wanted) : Event → Prop
  | .pass _ => True
  | .other _ => False
  | .sweep l => l = wanted
  | .act a => a.locked = true ∧ a.order.isSome = true

/-- A site that is not wanted is not touched. -/
structure Untouched (wanted : List Wanted) (site : ResourceId) (s : State) : Prop where
  todo : ∀ one ∈ s.stage.todo, one ∈ wanted
  issuance : ∀ i ∈ s.stage.issuance, ∃ one ∈ wanted, i.site = one.site
  store : s.registry.store.entries.lookup site = none

theorem putIssued_other {store : CertificateStore} {i : Issuance} {site : ResourceId} (h : site ≠ i.site) (c : Certificate) :
    (store.putIssued i c).1.entries.lookup site = store.entries.lookup site := by
  unfold CertificateStore.putIssued
  split
  · exact AList.lookup_insert_ne h
  · rfl

theorem Untouched.step {site : ResourceId} (h : Untouched wanted site s) (hw : ∀ one ∈ wanted, one.site ≠ site) {e : Event}
    (he : Prompt wanted e) : Untouched wanted site (step blake3 config s e) := by
  cases e with
  | pass nanos => exact ⟨h.todo, h.issuance, h.store⟩
  | other e => exact he.elim
  | sweep l =>
    obtain rfl : l = wanted := he
    unfold Renewal.step
    dsimp only
    split
    · exact ⟨fun _ hm => hm, fun _ hi => absurd hi (Option.not_mem_none _), h.store⟩
    · exact h
  | act a =>
    obtain ⟨htodo, hissuance, hstore⟩ := @frame_advance blake3 config s a
    refine ⟨fun one hm => h.todo one (htodo.subset hm), ?_, ?_⟩
    · intro i hi
      rcases hissuance i hi with hi | ⟨one, hone, hsite⟩
      · exact h.issuance i hi
      · exact ⟨one, h.todo one hone, hsite⟩
    · change (advance blake3 config s a).registry.store.entries.lookup site = none
      rcases hstore with he | ⟨i, hi, c, he⟩
      · rw [he]
        exact h.store
      · obtain ⟨one, hone, hsite⟩ := h.issuance i hi
        rw [he, putIssued_other (fun heq => hw one hone (hsite.symm.trans heq.symm)), h.store]

/-- The store has a certificate for a site. -/
def Has (s : State) (one : Wanted) : Prop := (s.registry.store.entries.lookup one.site).isSome = true

/-- The issuance in progress is this site's, and stands. -/
def Stands (s : State) (i : Issuance) (one : Wanted) : Prop :=
  i.site = one.site ∧ s.registry.store.issuanceMatches i = true

/-- What is known of the site looked at, where nothing fails. -/
def Prospers (s : State) : Prop :=
  match s.stage with
  | .idle | .sweeping _ | .obtain _ _ => True
  | .attempt again one _ | .held again one _ => ∀ i ∈ again, Stands s i one
  | .expiry again _ one _ => Has s one ∧ ∀ i ∈ again, Stands s i one
  | .locking i one _ | .current i one _ | .shared i one _ | .cached i one _ | .adopting i _ one _ | .ordering i _ one _
  | .issuing i one _ | .persisting i _ one _ | .installing i _ one _ => Stands s i one
  | .clearing one _ => Has s one
  | .failed _ _ => False

/-- How many calls are left at most. -/
@[grind =] def Stage.rank : Stage → Nat
  | .idle => 0
  | .sweeping wanted => 1 + 20 * wanted.length
  | .attempt none _ rest => 20 + 20 * rest.length
  | .held none _ rest => 19 + 20 * rest.length
  | .expiry none _ _ rest => 18 + 20 * rest.length
  | .obtain _ rest => 17 + 20 * rest.length
  | .locking _ _ rest => 16 + 20 * rest.length
  | .current _ _ rest => 15 + 20 * rest.length
  | .shared _ _ rest => 14 + 20 * rest.length
  | .cached _ _ rest => 13 + 20 * rest.length
  | .attempt (some _) _ rest => 12 + 20 * rest.length
  | .held (some _) _ rest => 11 + 20 * rest.length
  | .expiry (some _) _ _ rest => 10 + 20 * rest.length
  | .ordering _ _ _ rest => 9 + 20 * rest.length
  | .issuing _ _ rest => 8 + 20 * rest.length
  | .persisting _ _ _ rest => 7 + 20 * rest.length
  | .installing _ _ _ rest => 6 + 20 * rest.length
  | .adopting _ _ _ rest => 6 + 20 * rest.length
  | .clearing _ rest => 5 + 20 * rest.length
  | .failed _ rest => 4 + 20 * rest.length

/-- Every site of the store's claims can be issued for, no attempt is put off, and every site done
with has its certificate. -/
structure Good (blake3 : Digest) (config : Acme) (wanted : List Wanted) (s : State) : Prop where
  claimed : ∀ one ∈ wanted, (s.registry.store.issuance one.site (acmeOwner blake3 config one.host)).isSome = true
  ready : ∀ host, s.nextAttempt.lookup host = none
  prospers : Prospers s
  done : ∀ one ∈ wanted, one ∈ s.stage.todo ∨ Has s one
  todo : ∀ one ∈ s.stage.todo, one ∈ wanted

theorem putIssued_stands {store : CertificateStore} {i : Issuance} (h : store.issuanceMatches i = true) (c : Certificate) :
    store.putIssued i c = (store.put i.site ⟨c, .issued i.token⟩, true) := if_pos h

theorem Stands.has {i : Issuance} {one : Wanted} (h : Stands s i one) (c : Certificate) (stage : Stage) (log : List Mark) :
    Has { s with registry.store := (s.registry.store.putIssued i c).1, stage := stage, log := log } one := by
  unfold Has
  simp only [putIssued_stands h.2 c, CertificateStore.put, h.1, AList.lookup_insert, Option.isSome_some]

theorem stands_of_issuance {one : Wanted} {identity : Fingerprint} {i : Issuance}
    (h : s.registry.store.issuance one.site identity = some i) : Stands s i one := by
  have hsite := issuance_site h
  refine ⟨hsite, ?_⟩
  unfold CertificateStore.issuance at h
  unfold CertificateStore.issuanceMatches
  rw [hsite]
  rcases ho : s.registry.store.owners.lookup one.site with _ | o <;> rw [ho] at h <;> dsimp only at h
  · split at h
    · cases h
    · rename_i hm
      cases h
      simpa using hm
  · split at h
    · cases h
    · cases h
      exact decide_eq_true rfl

/-- A change of stage that leaves the store alone. -/
theorem Good.to (h : Good blake3 config wanted s) {stage : Stage} {log : List Mark}
    (hp : Prospers { s with stage := stage, log := log }) (ht : stage.todo = s.stage.todo) :
    Good blake3 config wanted { s with stage := stage, log := log } :=
  ⟨h.claimed, h.ready, hp, fun one hm => by rw [show ({ s with stage := stage, log := log } : State).stage = stage from rfl, ht]; exact h.done one hm,
    fun one hm => h.todo one (ht ▸ hm)⟩

/-- Done with a site that has its certificate. -/
theorem Good.next (h : Good blake3 config wanted s) {one : Wanted} {rest : List Wanted} (ht : s.stage.todo = one :: rest)
    (hh : Has s one) : Good blake3 config wanted { s with stage := .sweeping rest } := by
  refine ⟨h.claimed, h.ready, trivial, ?_, ?_⟩
  · intro w hw
    rcases h.done w hw with hm | hm
    · rw [ht] at hm
      rcases List.mem_cons.mp hm with rfl | hm
      · exact .inr hh
      · exact .inl hm
    · exact .inr hm
  · intro w hw
    exact h.todo w (ht ▸ List.mem_cons_of_mem one hw)

/-- A certificate is put for the site looked at. -/
theorem Good.put (h : Good blake3 config wanted s) {i : Issuance} {one : Wanted} {rest : List Wanted} (hi : Stands s i one)
    (ht : s.stage.todo = one :: rest) (c : Certificate) (log : List Mark) : Good blake3 config wanted
      { s with registry.store := (s.registry.store.putIssued i c).1, stage := .clearing one rest, log := log } := by
  have hput := putIssued_stands hi.2 c
  refine ⟨?_, h.ready, hi.has c _ log, ?_, ?_⟩
  · intro w hw
    have hclaimed := h.claimed w hw
    simp only [hput, CertificateStore.issuance, CertificateStore.put] at hclaimed ⊢
    exact hclaimed
  · intro w hw
    rcases h.done w hw with hm | hm
    · exact .inl (by rw [ht] at hm; exact hm)
    · refine .inr ?_
      unfold Has at hm ⊢
      simp only [hput, CertificateStore.put]
      by_cases hk : w.site = i.site
      · rw [hk, AList.lookup_insert, Option.isSome_some]
      · rw [AList.lookup_insert_ne hk]
        exact hm
  · intro w hw
    exact h.todo w (by rw [ht]; exact hw)

theorem Good.prospers_eq (h : Good blake3 config wanted s) {stage : Stage} (hs : s.stage = stage) :
    Prospers { s with stage := stage } := by
  subst hs
  exact h.prospers

/-- A call that fails nowhere comes closer to the end of the sweep. -/
theorem Good.advance (h : Good blake3 config wanted s) {a : Answer} (hl : a.locked = true) (ho : a.order.isSome = true) :
    Good blake3 config wanted (advance blake3 config s a) ∧
      (s.stage ≠ .idle → (Renewal.advance blake3 config s a).stage.rank < s.stage.rank) := by
  unfold Renewal.advance
  dsimp only
  split
  all_goals rename_i hs
  all_goals have hp := h.prospers_eq hs
  all_goals rw [hs]
  case h_1 => exact ⟨h, fun hne => absurd rfl hne⟩
  case h_2 => exact ⟨h.to trivial (by rw [hs]; rfl), fun _ => by simp [Stage.rank]⟩
  case h_3 one rest =>
    have hclaimed := h.claimed one (h.todo one (by rw [hs]; exact List.mem_cons_self))
    rcases hi : s.registry.store.issuance one.site (acmeOwner blake3 config one.host) with _ | i
    · rw [hi] at hclaimed
      cases hclaimed
    · refine ⟨h.to (fun _ hi => absurd hi (Option.not_mem_none _)) (by rw [hs]; rfl), fun _ => ?_⟩
      simp only [Stage.rank, List.length_cons]
      omega
  case h_4 again one rest =>
    simp only [h.ready one.host, Option.any_none, Bool.false_eq_true, if_false]
    refine ⟨h.to hp (by rw [hs]; rfl), fun _ => ?_⟩
    cases again <;> simp [Stage.rank]
  case h_5 again one rest =>
    rcases he : s.registry.store.entries.lookup one.site with _ | e <;> dsimp only
    · cases again with
      | none => exact ⟨h.to trivial (by rw [hs]; rfl), fun _ => by simp [isDue, Stage.rank]⟩
      | some i => exact ⟨h.to (hp i rfl) (by rw [hs]; rfl), fun _ => by simp [isDue, Stage.rank]⟩
    · have hhas : Has s one := by rw [Has, he, Option.isSome_some]
      refine ⟨h.to ⟨hhas, hp⟩ (by rw [hs]; rfl), fun _ => ?_⟩
      cases again <;> simp [Stage.rank]
  case h_6 again served one rest =>
    split
    · refine ⟨h.next (by rw [hs]; rfl) hp.1, fun _ => ?_⟩
      cases again <;> simp only [Stage.rank] <;> omega
    · cases again with
      | none => exact ⟨h.to trivial (by rw [hs]; rfl), fun _ => by simp [isDue, Stage.rank]⟩
      | some i => exact ⟨h.to (hp.2 i rfl) (by rw [hs]; rfl), fun _ => by simp [isDue, Stage.rank]⟩
  case h_7 one rest =>
    have hclaimed := h.claimed one (h.todo one (by rw [hs]; exact List.mem_cons_self))
    rcases hi : s.registry.store.issuance one.site (acmeOwner blake3 config one.host) with _ | i
    · rw [hi] at hclaimed
      cases hclaimed
    · exact ⟨h.to (stands_of_issuance hi) (by rw [hs]; rfl), fun _ => by simp [Stage.rank]⟩
  case h_8 =>
    rw [if_pos hl]
    exact ⟨h.to hp (by rw [hs]; rfl), fun _ => by simp [Stage.rank]⟩
  case h_9 =>
    rw [if_pos hp.2]
    exact ⟨h.to hp (by rw [hs]; rfl), fun _ => by simp [Stage.rank]⟩
  case h_10 =>
    split
    · exact ⟨h.to hp (by rw [hs]; rfl), fun _ => by simp [Stage.rank]⟩
    · refine ⟨h.to ?_ (by rw [hs]; rfl), fun _ => by simp [Stage.rank]⟩
      rintro _ ⟨⟩
      exact hp
  case h_11 =>
    rcases a.cached with _ | c <;> dsimp only
    · refine ⟨h.to ?_ (by rw [hs]; rfl), fun _ => by simp [Stage.rank]⟩
      rintro _ ⟨⟩
      exact hp
    · exact ⟨h.to hp (by rw [hs]; rfl), fun _ => by simp [Stage.rank]⟩
  case h_12 i c one rest =>
    have hput : (s.registry.store.putIssued i c).2 = true := by rw [putIssued_stands hp.2 c]
    simp only [hput, if_true]
    exact ⟨h.put hp (by rw [hs]; rfl) c s.log, fun _ => by simp [Stage.rank]⟩
  case h_13 => exact ⟨h.to hp (by rw [hs]; rfl), fun _ => by simp [Stage.rank]⟩
  case h_14 =>
    rcases hc : a.order with _ | c
    · rw [hc] at ho
      cases ho
    · exact ⟨h.to hp (by rw [hs]; rfl), fun _ => by simp [Stage.rank]⟩
  case h_15 =>
    rw [if_pos hp.2]
    exact ⟨h.to hp (by rw [hs]; rfl), fun _ => by simp [Stage.rank]⟩
  case h_16 i c one rest =>
    have hput : (s.registry.store.putIssued i c).2 = true := by rw [putIssued_stands hp.2 c]
    simp only [hput, if_true]
    exact ⟨h.put hp (by rw [hs]; rfl) c _, fun _ => by simp [Stage.rank]⟩
  case h_17 one rest =>
    have hnext := h.next (by rw [hs]; rfl) hp
    refine ⟨⟨hnext.claimed, ?_, trivial, hnext.done, hnext.todo⟩, fun _ => ?_⟩
    · intro host
      by_cases hk : host = one.host
      · rw [hk]
        exact AList.lookup_erase _ _
      · exact (AList.lookup_erase_ne hk).trans (h.ready host)
    · simp only [Stage.rank]
      omega
  case h_18 => exact hp.elim

/-- A sweep that fails nowhere ends, with a certificate for every site. -/
theorem Good.acts (h : Good blake3 config wanted s) {answers : List Answer}
    (ha : ∀ a ∈ answers, a.locked = true ∧ a.order.isSome = true) (hn : s.stage.rank ≤ answers.length) :
    ∀ one ∈ wanted, Has (Run.run (step blake3 config) s (answers.map .act)) one := by
  induction answers generalizing s with
  | nil =>
    have hidle : s.stage = .idle := by
      rcases hs : s.stage with _ | l | ⟨_ | i, one, rest⟩ | ⟨_ | i, one, rest⟩ | ⟨_ | i, c, one, rest⟩ <;> rw [hs] at hn
      all_goals simp [Stage.rank] at hn
    intro one hm
    refine (h.done one hm).resolve_left ?_
    rw [hidle]
    exact List.not_mem_nil
  | cons a answers ih =>
    obtain ⟨hl, ho⟩ := ha a List.mem_cons_self
    obtain ⟨hnext, hrank⟩ := h.advance hl ho
    refine ih hnext (fun b hb => ha b (List.mem_cons_of_mem a hb)) ?_
    change (Renewal.advance blake3 config s a).stage.rank ≤ answers.length
    by_cases hidle : s.stage = .idle
    · have hstay : Renewal.advance blake3 config s a = s := by
        unfold Renewal.advance
        simp only [hidle]
      rw [hstay, hidle]
      exact Nat.zero_le _
    · have hlt := hrank hidle
      rw [List.length_cons] at hn
      omega

end

end Renewal

open Renewal (Prompt Untouched Good Has)

/-- Ordered for under its own identity. -/
def Listed (spec : Spec) (site : Site) : Prop :=
  ∃ config wanted, acmeIntent spec = some (config, wanted) ∧ ∃ w ∈ wanted, w.site = site.id

/-- Some run of sweeps without a failure brings it a certificate. -/
def SweptIn (blake3 : Digest) (spec : Spec) (site : Site) : Prop :=
  ∃ config wanted, acmeIntent spec = some (config, wanted) ∧ ∃ (registry : Registry) (clock : Nat) (events : List Renewal.Event),
    registry.store.entries.lookup site.id = none ∧ (∀ e ∈ events, Prompt wanted e) ∧
      (Run.run (Renewal.step blake3 config) (Renewal.new registry clock) events).registry.store.entries.lookup site.id ≠ none

/-- Wherever the sites of the configuration are claimed, one sweep in which the authority always
issues brings it a certificate. -/
def AlwaysServed (blake3 : Digest) (spec : Spec) (site : Site) : Prop :=
  ∃ config wanted, acmeIntent spec = some (config, wanted) ∧ ∃ n, ∀ (registry : Registry) (clock : Nat),
    (∀ one ∈ wanted, (registry.store.issuance one.site (acmeOwner blake3 config one.host)).isSome = true) →
      ∀ answers : List Answer, n ≤ answers.length → (∀ a ∈ answers, a.locked = true ∧ a.order.isSome = true) →
        (Run.run (Renewal.step blake3 config) (Renewal.new registry clock) (.sweep wanted :: answers.map .act)).registry.store.entries.lookup
          site.id ≠ none

section
variable {fe : Frontend} {s : Snapshot} {a : Spec} {site : Site}

theorem acmeIntent_of_accepted (h : normalize fe s = .ok a) (hs : site ∈ a.sites) (ha : Automatic site) :
    ∃ config, acmeIntent a = some (config, acmeWanted a) := by
  obtain ⟨⟨host, hh⟩, config, hc⟩ := automatic_of_accepted h hs ha
  refine ⟨config, ?_⟩
  have hne : acmeWanted a ≠ [] := by
    obtain ⟨w, hw, -⟩ := host_wanted.2 ⟨site, hs, ha, hh⟩
    exact List.ne_nil_of_mem hw
  rw [acmeIntent, if_neg hne, hc, Option.map_some]

/-- Ordered for: the first of its host, and no other. -/
theorem mem_wanted_iff (h : normalize fe s = .ok a) (hs : site ∈ a.sites) (ha : Automatic site) :
    (∃ w ∈ acmeWanted a, w.site = site.id) ↔ FirstOfHost a site := by
  obtain ⟨⟨host, hh⟩, -⟩ := automatic_of_accepted h hs ha
  constructor
  · rintro ⟨w, hw, hid⟩
    obtain ⟨before, site', after, he, -, hh', hid', hno⟩ := mem_acmeWanted.1 hw
    have hmem : site' ∈ a.sites := by
      rw [he]
      exact List.mem_append_right _ List.mem_cons_self
    obtain rfl := List.inj_on_of_nodup_map (fe.normalize_site_ids h) hmem hs (hid'.symm.trans hid)
    exact ⟨before, after, he, fun earlier hm ha' => hh' ▸ hno earlier hm ha'⟩
  · rintro ⟨before, after, he, hno⟩
    exact ⟨⟨site.id, host⟩, mem_acmeWanted.2 ⟨before, site, after, he, ha, hh, rfl, fun earlier hm ha' => hh ▸ hno earlier hm ha'⟩, rfl⟩

theorem untouched_run {blake3 : Digest} {config : Acme} {wanted : List Wanted} {id : ResourceId}
    (hw : ∀ one ∈ wanted, one.site ≠ id) {registry : Registry} (hnone : registry.store.entries.lookup id = none) (clock : Nat)
    {events : List Renewal.Event} (he : ∀ e ∈ events, Prompt wanted e) :
    (Run.run (Renewal.step blake3 config) (Renewal.new registry clock) events).registry.store.entries.lookup id = none := by
  have hstart : Untouched wanted id (Renewal.new registry clock) :=
    ⟨fun _ h => absurd h List.not_mem_nil, fun _ h => absurd h (Option.not_mem_none _), hnone⟩
  exact (Run.invariant_of_forall (I := Untouched wanted id) (A := Prompt wanted)
    (fun s e hA hI => hI.step hw hA) hstart he).store

theorem listed_iff (h : normalize fe s = .ok a) (hs : site ∈ a.sites) (ha : Automatic site) :
    Listed a site ↔ FirstOfHost a site := by
  obtain ⟨config, hintent⟩ := acmeIntent_of_accepted h hs ha
  rw [← mem_wanted_iff h hs ha]
  constructor
  · rintro ⟨config', wanted, hi, hw⟩
    rw [hintent] at hi
    cases hi
    exact hw
  · intro hw
    exact ⟨config, _, hintent, hw⟩

/-- No sweep makes up for it: a later site of the same host is never written. -/
theorem first_of_sweptIn {blake3 : Digest} (h : normalize fe s = .ok a) (hs : site ∈ a.sites) (ha : Automatic site)
    (hswept : SweptIn blake3 a site) : FirstOfHost a site := by
  obtain ⟨config, hintent⟩ := acmeIntent_of_accepted h hs ha
  obtain ⟨config', wanted, hi, registry, clock, events, hnone, he, hsome⟩ := hswept
  rw [hintent] at hi
  cases hi
  by_contra hfirst
  refine hsome (untouched_run ?_ hnone clock he)
  intro one hone hid
  exact hfirst ((mem_wanted_iff h hs ha).mp ⟨one, hone, hid⟩)

theorem alwaysServed_of_first (blake3 : Digest) (h : normalize fe s = .ok a) (hs : site ∈ a.sites) (ha : Automatic site)
    (hfirst : FirstOfHost a site) : AlwaysServed blake3 a site := by
  obtain ⟨config, hintent⟩ := acmeIntent_of_accepted h hs ha
  obtain ⟨w, hw, hid⟩ := (mem_wanted_iff h hs ha).mpr hfirst
  refine ⟨config, _, hintent, 1 + 20 * (acmeWanted a).length, ?_⟩
  intro registry clock hclaimed answers hn hprompt hlookup
  have hgood : Good blake3 config (acmeWanted a) (Renewal.step blake3 config (Renewal.new registry clock) (.sweep (acmeWanted a))) :=
    ⟨hclaimed, fun _ => rfl, trivial, fun _ hm => .inl hm, fun _ hm => hm⟩
  have hhas := hgood.acts hprompt hn w hw
  rw [Has, hid] at hhas
  rw [Run.run_cons] at hlookup
  rw [hlookup] at hhas
  cases hhas

theorem first_of_alwaysServed {blake3 : Digest} (h : normalize fe s = .ok a) (hs : site ∈ a.sites) (ha : Automatic site)
    (hserved : AlwaysServed blake3 a site) : FirstOfHost a site := by
  obtain ⟨config, wanted, hi, n, hall⟩ := hserved
  refine first_of_sweptIn h hs ha ⟨config, wanted, hi, .new, 0, _, rfl, ?_, hall .new 0 (fun _ _ => rfl)
    (List.replicate n ⟨true, none, none, some ⟨[], []⟩⟩) (List.length_replicate ..).ge ?_⟩
  · intro e he
    rcases List.mem_cons.mp he with rfl | he
    · rfl
    · obtain ⟨answer, hm, rfl⟩ := List.mem_map.mp he
      rw [List.eq_of_mem_replicate hm]
      exact ⟨rfl, rfl⟩
  · intro answer hm
    rw [List.eq_of_mem_replicate hm]
    exact ⟨rfl, rfl⟩

/-- A site that says `tls acme` is ordered for under its own identity, or gets its certificate some
other way, exactly when no site before it says so for the same host. -/
theorem acme_served_iff (h : normalize fe s = .ok a) (hs : site ∈ a.sites) (ha : Automatic site) :
    ((Listed a site ∨ SweptIn fe.blake3 a site) ↔ FirstOfHost a site) ∧
      (AlwaysServed fe.blake3 a site ↔ FirstOfHost a site) := by
  refine ⟨⟨?_, ?_⟩, ⟨?_, ?_⟩⟩
  · rintro (hlisted | hswept)
    · exact (listed_iff h hs ha).mp hlisted
    · exact first_of_sweptIn h hs ha hswept
  · intro hfirst
    exact .inl ((listed_iff h hs ha).mpr hfirst)
  · exact first_of_alwaysServed h hs ha
  · exact alwaysServed_of_first fe.blake3 h hs ha

end

/-! One host, on every listener and on one of them. -/

namespace AcmeSample
open Frontend.Sample

/-- `acme` as it is written here. -/
def acmeNode (n : Node) : Decode AcmeNode :=
  .ok ⟨none, (n.prop "email").bind fun p => p.value.asStr, (n.prop "agreed").any fun p => p.value.scalar = .bool true, none, none⟩

def digests : List (List UInt8 × Fingerprint) :=
  [(words ["site", "example.com"], digest 0xdadb29f7f4c9c152e5406c7557d56d32e0517fd28fe43685ed5a61641ce21e88),
    (words ["route", "@881ee21c64615aed", "example.com", "*", "/"],
      digest 0x378a5f4aef0a9f0bde441464ba40a5ee806556585c4fc4f4c5b01ebeaf6f6222),
    (words ["site", "example.com", "https"], digest 0x12f703cb678b004bc322d57ce3c5bc615497e5532a43945de053081a4b8b780e),
    (words ["route", "@0e788b4b1a0853e0", "example.com", "*", "/"],
      digest 0xa1dac882084baff64ea6183b22eed28494dbf862f778a0f150eecc4c290f1a5e)]

def surroundings : Frontend := { frontend (digestsOf digests) with acmeNode := acmeNode }

def authority : Node :=
  ⟨"acme", [], [⟨"email", text "ops@example.com", here⟩, ⟨"agreed", ⟨.bool true, here⟩, here⟩], [], here⟩

def automatic (listeners : List String) : Node :=
  ⟨"site", [text "example.com"], listeners.map fun name => ⟨"listener", text name, here⟩,
    [node "tls" ["acme"] [], node "route" ["/"] [proxyNode]], here⟩

def nodes (sites : List Node) : List Node :=
  [node "global" [] [node "https" [":8080"] [], authority],
    node "upstream" ["backend"] [node "endpoint" ["127.0.0.1:9000"] []]] ++ sites

/-- Of each site: its host, whether it says `tls acme`, and whether a TLS listener serves it. -/
def summary (r : Except Diagnostics Spec) : List (HostMatch × Bool × Bool) :=
  match r with
  | .ok a => a.sites.map fun site =>
    (site.host, decide (Automatic site), (a.listenersFor site).any fun l => l.protocol.isTls)
  | .error _ => []

theorem summaries : summary (normalize surroundings (snapshot (nodes [automatic []]))) = [(.exact "example.com", true, true)] ∧
    summary (normalize surroundings (snapshot (nodes [automatic [], automatic ["https"]]))) =
      [(.exact "example.com", true, true), (.exact "example.com", true, true)] := by
  decide +kernel

theorem summary_single : summary (normalize surroundings (snapshot (nodes [automatic []]))) = [(.exact "example.com", true, true)] :=
  summaries.1

theorem summary_shared : summary (normalize surroundings (snapshot (nodes [automatic [], automatic ["https"]]))) =
    [(.exact "example.com", true, true), (.exact "example.com", true, true)] := summaries.2

end AcmeSample

/-- One site, one order. -/
theorem acme_served_single : ∃ a site, normalize AcmeSample.surroundings (Frontend.Sample.snapshot
      (AcmeSample.nodes [AcmeSample.automatic []])) = .ok a ∧ site ∈ a.sites ∧ Automatic site ∧
    ((Listed a site ∨ SweptIn AcmeSample.surroundings.blake3 a site) ↔ FirstOfHost a site) ∧
      (AlwaysServed AcmeSample.surroundings.blake3 a site ↔ FirstOfHost a site) := by
  have hsummary := AcmeSample.summary_single
  rcases hn : normalize AcmeSample.surroundings (Frontend.Sample.snapshot (AcmeSample.nodes [AcmeSample.automatic []])) with ds | a
  · rw [hn] at hsummary
    cases hsummary
  · rw [hn] at hsummary
    obtain ⟨site, hsites, hsite⟩ := List.map_eq_singleton_iff.mp hsummary
    have hmem : site ∈ a.sites := by
      rw [hsites]
      exact List.mem_cons_self
    have hauto : Automatic site := of_decide_eq_true (congrArg (·.2.1) hsite)
    exact ⟨a, site, rfl, hmem, hauto, acme_served_iff hn hmem hauto⟩

/-- One host on every TLS listener and again on one of them: both sites are accepted, and no order and no
sweep is ever for the second. -/
theorem acme_never_served : ∃ a site, normalize AcmeSample.surroundings (Frontend.Sample.snapshot
      (AcmeSample.nodes [AcmeSample.automatic [], AcmeSample.automatic ["https"]])) = .ok a ∧ site ∈ a.sites ∧
    Automatic site ∧ (∃ l ∈ a.listenersFor site, l.protocol.isTls = true) ∧
      ¬ (Listed a site ∨ SweptIn AcmeSample.surroundings.blake3 a site) := by
  have hsummary := AcmeSample.summary_shared
  rcases hn : normalize AcmeSample.surroundings (Frontend.Sample.snapshot
      (AcmeSample.nodes [AcmeSample.automatic [], AcmeSample.automatic ["https"]])) with ds | a
  · rw [hn] at hsummary
    cases hsummary
  · rw [hn] at hsummary
    obtain ⟨first, rest, hsites, hfirst, hrest⟩ := List.map_eq_cons_iff.mp hsummary
    obtain ⟨site, rfl, hsite⟩ := List.map_eq_singleton_iff.mp hrest
    have hmem : site ∈ a.sites := by
      rw [hsites]
      simp
    have hauto : Automatic site := of_decide_eq_true (congrArg (·.2.1) hsite)
    have hauto' : Automatic first := of_decide_eq_true (congrArg (·.2.1) hfirst)
    have hhost : first.host = site.host := (congrArg (·.1) hfirst).trans (congrArg (·.1) hsite).symm
    have hnot : ¬ FirstOfHost a site := by
      rintro ⟨before, after, he, hno⟩
      rw [hsites] at he
      rcases before with _ | ⟨b, before⟩
      · -- Then the two would be one site, and identities are not shared.
        obtain ⟨rfl, -⟩ := List.cons.inj he
        have hids := AcmeSample.surroundings.normalize_site_ids hn
        rw [hsites] at hids
        simp at hids
      · obtain ⟨rfl, -⟩ := List.cons.inj he
        exact hno first List.mem_cons_self hauto' hhost
    refine ⟨a, site, rfl, hmem, hauto, List.any_eq_true.mp (congrArg (·.2.2) hsite), ?_⟩
    rintro (hlisted | hswept)
    · exact hnot ((listed_iff hn hmem hauto).mp hlisted)
    · exact hnot (first_of_sweptIn hn hmem hauto hswept)

end Gatel.Tls
