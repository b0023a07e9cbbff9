import Gatel.Tls.CertificateStore

namespace Gatel.Tls
open KeyedMap (Map)

namespace CertificateUpdates
open CertificateStore

/-- The loop of `publish` over the updates. -/
def applyAll (s : CertificateStore) (updates : List (Sigma fun _ : ResourceId => Update)) : CertificateStore :=
  updates.foldl (fun s u => s.apply u.1 u.2) s

theorem publish_eq (c : CertificateUpdates) (h : c.published = false) (s : CertificateStore) :
    c.publish s = applyAll (c.prune s) c.pending.entries := by
  rw [publish, h]
  rfl

theorem applyAll_inv {s : CertificateStore} (h : s.Inv) (updates : List (Sigma fun _ : ResourceId => Update)) :
    (applyAll s updates).Inv := by
  induction updates generalizing s with
  | nil => exact h
  | cons u updates ih => exact ih (h.apply u.1 u.2)

theorem applyAll_renews (s : CertificateStore) (updates : List (Sigma fun _ : ResourceId => Update)) (site : ResourceId) :
    Renews site s (applyAll s updates) := by
  induction updates generalizing s with
  | nil => exact Renews.refl site s
  | cons u updates ih => exact (renews_apply s u.1 site u.2).trans (ih _)

theorem applyAll_other (s : CertificateStore) {updates : List (Sigma fun _ : ResourceId => Update)} {site : ResourceId}
    (h : site ∉ updates.keys) :
    (applyAll s updates).owners.lookup site = s.owners.lookup site ∧
      (applyAll s updates).entries.lookup site = s.entries.lookup site := by
  induction updates generalizing s with
  | nil => exact ⟨rfl, rfl⟩
  | cons u updates ih =>
    rw [List.keys_cons, List.mem_cons, not_or] at h
    obtain ⟨ho, he⟩ := ih (s.apply u.1 u.2) h.2
    obtain ⟨ho', he'⟩ := s.apply_other h.1 u.2
    exact ⟨ho.trans ho', he.trans he'⟩

/-- An owner that was there or not is not there again after a new one. -/
theorem Renews.not_back {s s' s'' : CertificateStore} {site : ResourceId} (h : s.Inv) (hs : Renews site s s')
    (hs' : Renews site s' s'') (hne : s'.owners.lookup site ≠ s.owners.lookup site) :
    s''.owners.lookup site ≠ s.owners.lookup site := by
  have hnew : ∃ o, s''.owners.lookup site = some o ∧ s.fresh ≤ o.token := by
    obtain ⟨o, ho, ht⟩ := hs.2.resolve_left hne
    rcases hs'.2 with he | ⟨o', ho', ht'⟩
    · exact ⟨o, he.trans ho, ht⟩
    · exact ⟨o', ho', hs.1.trans ht'⟩
  obtain ⟨o, ho, ht⟩ := hnew
  intro he
  rw [ho] at he
  exact absurd (h.tokens site o he.symm) (Nat.not_lt.mpr ht)

/-- Updates that only fill empty slots leave an entry alone as long as its site keeps its owner. -/
theorem applyAll_keeps {s : CertificateStore} (h : s.Inv) {updates : List (Sigma fun _ : ResourceId => Update)}
    {site : ResourceId} {e : Entry} (he : s.entries.lookup site = some e)
    (hfill : ∀ u, Sigma.mk site u ∈ updates → u.onlyIfMissing = true)
    (howner : (applyAll s updates).owners.lookup site = s.owners.lookup site) :
    (applyAll s updates).entries.lookup site = some e := by
  induction updates generalizing s with
  | nil => exact he
  | cons u updates ih =>
    obtain ⟨k, u⟩ := u
    have hr := renews_apply s k site u
    have hr' := applyAll_renews (s.apply k u) updates site
    have hsame : (s.apply k u).owners.lookup site = s.owners.lookup site := by
      by_contra hne
      exact Renews.not_back h hr hr' hne howner
    refine ih (h.apply k u) ?_ (fun v hv => hfill v (List.mem_cons_of_mem _ hv)) (howner.trans hsame.symm)
    by_cases hk : site = k
    · subst hk
      have hmissing := hfill u List.mem_cons_self
      rw [(s.apply_owners site u).1] at hsame
      unfold CertificateStore.apply
      simp only [h.claimed_eq hsame]
      split
      · exact he
      · rw [if_pos ⟨hmissing, by rw [he]; rfl⟩]
        exact he
    · exact (s.apply_other hk u).2.trans he

theorem prune_inv (c : CertificateUpdates) {s : CertificateStore} (h : s.Inv) : (c.prune s).Inv := by
  unfold prune
  split
  · exact h
  · rename_i live _
    have hr := h.retain live
    exact ⟨hr.tokens, hr.sources⟩

theorem prune_lookup (c : CertificateUpdates) (s : CertificateStore) (site : ResourceId) :
    (c.prune s).fresh = s.fresh ∧
      (((∀ live ∈ c.live, site ∈ live) ∧ (c.prune s).owners.lookup site = s.owners.lookup site ∧
          (c.prune s).entries.lookup site = s.entries.lookup site) ∨
        (¬ (∀ live ∈ c.live, site ∈ live) ∧ (c.prune s).owners.lookup site = none ∧
          (c.prune s).entries.lookup site = none)) := by
  unfold prune
  split
  · rename_i hl
    refine ⟨rfl, Or.inl ⟨fun live hm => ?_, rfl, rfl⟩⟩
    rw [hl] at hm
    cases hm
  · rename_i live hl
    refine ⟨rfl, ?_⟩
    simp only [CertificateStore.retain, lookup_retain, hl]
    by_cases hm : site ∈ live
    · left
      simp [hm]
    · right
      simp [hm]

theorem publish_inv (c : CertificateUpdates) {s : CertificateStore} (h : s.Inv) : (c.publish s).Inv := by
  unfold publish
  split
  · exact h
  · exact applyAll_inv (c.prune_inv h) _

/-- An update that only fills an empty slot replaces no entry that was there at publication
under the same ownership. -/
theorem publish_keeps (c : CertificateUpdates) {s : CertificateStore} (h : s.Inv) {site : ResourceId} {e : Entry}
    (he : s.entries.lookup site = some e) (hfill : ∀ u, c.pending.lookup site = some u → u.onlyIfMissing = true)
    (howner : (c.publish s).owners.lookup site = s.owners.lookup site)
    (hlive : s.owners.lookup site = none → ∀ live ∈ c.live, site ∈ live) :
    (c.publish s).entries.lookup site = some e := by
  cases hp : c.published with
  | true =>
    rw [publish, if_pos hp]
    exact he
  | false =>
    rw [c.publish_eq hp] at howner ⊢
    obtain ⟨hf, ⟨-, ho, hen⟩ | ⟨hout, ho, -⟩⟩ := c.prune_lookup s site
    · refine applyAll_keeps (c.prune_inv h) (hen.trans he) ?_ (howner.trans ho.symm)
      intro u hu
      exact hfill u (AList.mem_lookup_iff.mpr hu)
    · -- Outside the live set the owner is gone, and a new one has a new token.
      exfalso
      cases hown : s.owners.lookup site with
      | none => exact hout (hlive hown)
      | some o =>
        have hr := applyAll_renews (c.prune s) c.pending.entries site
        rw [Renews, howner, ho, hown] at hr
        obtain ⟨-, hno | ⟨o', ho', ht⟩⟩ := hr
        · cases hno
        · cases ho'
          have := h.tokens site o hown
          omega

end CertificateUpdates

namespace Registry
open CertificateStore

/-- What a step can do to the owner of a site: nothing, take it away, or put a new one. -/
def Moves (site : ResourceId) (s s' : CertificateStore) : Prop :=
  s.fresh ≤ s'.fresh ∧
    (s'.owners.lookup site = s.owners.lookup site ∨ s'.owners.lookup site = none ∨
      ∃ o, s'.owners.lookup site = some o ∧ s.fresh ≤ o.token)

theorem Moves.refl (site : ResourceId) (s : CertificateStore) : Moves site s s := ⟨le_refl _, Or.inl rfl⟩

theorem moves_publish (c : CertificateUpdates) (s : CertificateStore) (site : ResourceId) :
    Moves site s (c.publish s) := by
  cases hp : c.published with
  | true =>
    rw [CertificateUpdates.publish, if_pos hp]
    exact Moves.refl site s
  | false =>
    rw [c.publish_eq hp]
    obtain ⟨hf, hl⟩ := c.prune_lookup s site
    obtain ⟨hle, hr⟩ := CertificateUpdates.applyAll_renews (c.prune s) c.pending.entries site
    rw [hf] at hle hr
    refine ⟨hle, ?_⟩
    rcases hr with he | hnew
    · rcases hl with ⟨-, ho, -⟩ | ⟨-, ho, -⟩
      · exact Or.inl (he.trans ho)
      · exact Or.inr (Or.inl (he.trans ho))
    · exact Or.inr (Or.inr hnew)

theorem putIssued_owners (s : CertificateStore) (i : Issuance) (certificate : Certificate) :
    (s.putIssued i certificate).1.owners = s.owners ∧ (s.putIssued i certificate).1.fresh = s.fresh ∧
      (s.putIssued i certificate).1.managed = s.managed := by
  unfold CertificateStore.putIssued
  split <;> exact ⟨rfl, rfl, rfl⟩

/-- What a step can do to the store: nothing, publish a candidate for the first time, prune,
or put what an issuance brought. -/
theorem step_cases (r : Registry) (e : Event) :
    ((r.step e).store = r.store ∧ (r.step e).live = r.live ∧ (r.step e).strays = r.strays) ∨
    (∃ c ∈ r.candidates, c.published = false ∧ (r.step e).store = c.publish r.store ∧ (r.step e).live = c.live.or r.live ∧
      (r.step e).strays = (if c.live.isSome then [] else r.strays) ++ c.pending.keys) ∨
    (∃ sites, (r.step e).store = r.store.retain sites ∧ (r.step e).live = some sites ∧ (r.step e).strays = []) ∨
    (∃ i ∈ r.issuances, ∃ certificate, (r.step e).store = (r.store.putIssued i certificate).1 ∧ (r.step e).live = r.live ∧
      (r.step e).strays =
        if i.token.isNone && (r.store.putIssued i certificate).2 then r.strays ++ [i.site] else r.strays) := by
  cases e with
  | publish n =>
    change _ ∨ (∃ c ∈ _, _ ∧ (r.publish n).store = _ ∧ (r.publish n).live = _ ∧ (r.publish n).strays = _) ∨ _
    cases hc : r.candidates[n]? with
    | none =>
      left
      simp only [step, publish, hc, and_self]
    | some c =>
      cases hp : c.published with
      | true =>
        left
        simp only [step, publish, hc, hp, if_true, and_self]
      | false =>
        refine Or.inr (Or.inl ⟨c, List.mem_of_getElem? hc, hp, ?_⟩)
        simp only [publish, hc, hp, Bool.false_eq_true, if_false, and_self]
  | putIssued k certificate =>
    cases hi : r.issuances[k]? with
    | none =>
      left
      simp only [step, putIssued, hi, and_self]
    | some i =>
      refine Or.inr (Or.inr (Or.inr ⟨i, List.mem_of_getElem? hi, certificate, ?_⟩))
      simp only [step, putIssued, hi, and_self]
  | retain sites => exact Or.inr (Or.inr (Or.inl ⟨sites, rfl, rfl, rfl⟩))
  | candidate => exact Or.inl ⟨rfl, rfl, rfl⟩
  | retainSites n sites => exact Or.inl ⟨rfl, rfl, rfl⟩
  | claim n site identity => exact Or.inl ⟨rfl, rfl, rfl⟩
  | put n site certificate onlyIfMissing => exact Or.inl ⟨rfl, rfl, rfl⟩
  | abandon n => exact Or.inl ⟨rfl, rfl, rfl⟩
  | issuance site identity => exact Or.inl ⟨rfl, rfl, rfl⟩
  | issuanceIsCurrent k => exact Or.inl ⟨rfl, rfl, rfl⟩

theorem moves_step (r : Registry) (e : Event) (site : ResourceId) : Moves site r.store (r.step e).store := by
  rcases step_cases r e with ⟨hs, -⟩ | ⟨c, -, -, hs, -⟩ | ⟨sites, hs, -⟩ | ⟨i, -, certificate, hs, -⟩
  · rw [hs]
    exact Moves.refl site _
  · rw [hs]
    exact moves_publish c _ site
  · rw [hs]
    refine ⟨le_refl _, ?_⟩
    simp only [CertificateStore.retain, lookup_retain]
    split
    · exact Or.inl rfl
    · exact Or.inr (Or.inl rfl)
  · obtain ⟨ho, hf, -⟩ := putIssued_owners r.store i certificate
    rw [hs]
    exact ⟨hf.ge, Or.inl (by rw [ho])⟩

/-- A token that a site does not have any more does not come back. -/
def Lost (site : ResourceId) (token : Nat) (s : CertificateStore) : Prop :=
  token < s.fresh ∧ ∀ o, s.owners.lookup site = some o → o.token ≠ token

theorem Lost.moves {site : ResourceId} {token : Nat} {s s' : CertificateStore} (h : Lost site token s)
    (hm : Moves site s s') : Lost site token s' := by
  refine ⟨Nat.lt_of_lt_of_le h.1 hm.1, ?_⟩
  intro o ho
  rcases hm.2 with he | hnone | ⟨o', ho', ht⟩
  · exact h.2 o (he.symm.trans ho)
  · rw [hnone] at ho
    cases ho
  · rw [ho'] at ho
    cases ho
    have := h.1
    omega

theorem Lost.run {site : ResourceId} {token : Nat} {r : Registry} (h : Lost site token r.store) (events : List Event) :
    Lost site token (Run.run step r events).store :=
  Run.invariant (I := fun r => Lost site token r.store) (fun r e hl => hl.moves (moves_step r e site)) h events

/-- An owner that is there at the end of a run, by its token, was there all along. -/
theorem owner_throughout {r : Registry} {site : ResourceId} {o : Ownership} (hfresh : o.token < r.store.fresh)
    (ho : r.store.owners.lookup site = some o) {events : List Event} {o' : Ownership}
    (hend : (Run.run step r events).store.owners.lookup site = some o') (ht : o'.token = o.token) :
    ∀ p, p <+: events → (Run.run step r p).store.owners.lookup site = some o := by
  induction events generalizing r with
  | nil =>
    intro p hp
    rw [List.prefix_nil.mp hp]
    exact ho
  | cons e events ih =>
    have hm := moves_step r e site
    have hfresh' := Nat.lt_of_lt_of_le hfresh hm.1
    have hsame : (r.step e).store.owners.lookup site = some o := by
      rcases hm.2 with he | hgone
      · exact he.trans ho
      · have hlost : Lost site o.token (r.step e).store := by
          refine ⟨hfresh', ?_⟩
          intro o'' ho''
          rcases hgone with hnone | ⟨new, hnew, hle⟩
          · rw [hnone] at ho''
            cases ho''
          · rw [hnew] at ho''
            cases ho''
            omega
        exact absurd ht ((hlost.run events).2 o' hend)
    intro p hp
    cases p with
    | nil => exact ho
    | cons e' p =>
      obtain ⟨rfl, hpre⟩ := List.cons_prefix_cons.mp hp
      exact ih hfresh' hsame hend p hpre

/-! What every run keeps. -/

structure Inv (r : Registry) : Prop where
  store : r.store.Inv
  /-- Outside the last live set there is only what was written since. -/
  outside : ∀ live ∈ r.live, ∀ site, site ∉ live → site ∉ r.strays →
    r.store.owners.lookup site = none ∧ r.store.entries.lookup site = none

theorem inv_new : new.Inv := ⟨CertificateStore.inv_new, fun _ h => by cases h⟩

theorem putIssued_inv {s : CertificateStore} (h : s.Inv) (i : Issuance) (certificate : Certificate) :
    (s.putIssued i certificate).1.Inv := by
  unfold CertificateStore.putIssued
  split
  · rename_i hm
    apply h.put
    intro o ho
    simp only [issuanceMatches, ho] at hm
    cases ht : i.token with
    | none =>
      rw [ht] at hm
      cases hm
    | some token =>
      rw [ht] at hm
      simp only [decide_eq_true_eq] at hm
      exact congrArg some hm.symm
  · exact h

/-- A put for an owned site touches no other site; one for a site without an owner is counted. -/
theorem putIssued_entries {s : CertificateStore} {i : Issuance} {certificate : Certificate} {site : ResourceId}
    (howner : s.owners.lookup site = none)
    (hsite : (i.token.isNone && (s.putIssued i certificate).2) = true → site ≠ i.site) :
    (s.putIssued i certificate).1.entries.lookup site = s.entries.lookup site := by
  unfold CertificateStore.putIssued at hsite ⊢
  split
  · rename_i hm
    rw [if_pos hm] at hsite
    refine AList.lookup_insert_ne ?_
    cases ht : i.token with
    | none => exact hsite (by rw [ht]; rfl)
    | some token =>
      rintro rfl
      simp [issuanceMatches, howner, ht] at hm
  · rfl

theorem inv_step {r : Registry} (h : r.Inv) (e : Event) : (r.step e).Inv := by
  rcases step_cases r e with ⟨hs, hl, ht⟩ | ⟨c, -, hp, hs, hl, ht⟩ | ⟨sites, hs, hl, ht⟩ | ⟨i, -, certificate, hs, hl, ht⟩
  · refine ⟨hs ▸ h.store, ?_⟩
    rw [hs, hl, ht]
    exact h.outside
  · refine ⟨hs ▸ c.publish_inv h.store, ?_⟩
    rw [hs, hl, ht]
    intro live hlive site hsite hstray
    rw [List.mem_append, not_or] at hstray
    rw [c.publish_eq hp]
    obtain ⟨ho, he⟩ := CertificateUpdates.applyAll_other (c.prune r.store) hstray.2
    rw [ho, he]
    obtain ⟨-, ⟨hin, ho', he'⟩ | ⟨-, ho', he'⟩⟩ := c.prune_lookup r.store site
    · cases hc : c.live with
      | none =>
        rw [hc] at hlive hstray
        rw [ho', he']
        exact h.outside live hlive site hsite hstray.1
      | some sites =>
        rw [hc] at hlive
        cases hlive
        exact absurd (hin _ hc) hsite
    · exact ⟨ho', he'⟩
  · refine ⟨hs ▸ h.store.retain sites, ?_⟩
    rw [hs, hl]
    intro live hlive site hsite _
    cases hlive
    simp only [CertificateStore.retain, lookup_retain, if_neg hsite, and_self]
  · refine ⟨hs ▸ putIssued_inv h.store i certificate, ?_⟩
    rw [hs, hl, ht, (putIssued_owners r.store i certificate).1]
    intro live hlive site hsite hstray
    have hold : site ∉ r.strays := by
      intro hm
      apply hstray
      split
      · exact List.mem_append_left _ hm
      · exact hm
    obtain ⟨ho, he⟩ := h.outside live hlive site hsite hold
    refine ⟨ho, (putIssued_entries ho ?_).trans he⟩
    intro hcount
    rintro rfl
    rw [if_pos hcount] at hstray
    exact hstray (List.mem_append_right _ List.mem_cons_self)

theorem run_inv (events : List Event) : (Run.run step new events).Inv :=
  Run.invariant (I := Inv) (fun _ e h => inv_step h e) inv_new events

/-! A candidate that is not published is seen by nobody else. -/

@[grind =] def Event.concerns (n : Nat) : Event → Bool
  | .retainSites m _ | .claim m _ _ | .put m _ _ _ | .abandon m | .publish m => m = n
  | .candidate | .retain _ | .issuance _ _ | .issuanceIsCurrent _ | .putIssued _ _ => false

/-- Two registries that differ in one candidate at most. -/
structure Agree (n : Nat) (r r' : Registry) : Prop where
  store : r.store = r'.store
  issuances : r.issuances = r'.issuances
  live : r.live = r'.live
  strays : r.strays = r'.strays
  length : r.candidates.length = r'.candidates.length
  candidates : ∀ m, m ≠ n → r.candidates[m]? = r'.candidates[m]?

theorem Agree.refl (n : Nat) (r : Registry) : Agree n r r := ⟨rfl, rfl, rfl, rfl, rfl, fun _ _ => rfl⟩

theorem Agree.amend_own {n : Nat} {r r' : Registry} (h : Agree n r r') (f : CertificateUpdates → CertificateUpdates) :
    Agree n (r.amend n f) r' := by
  refine ⟨h.store, h.issuances, h.live, h.strays, ?_, ?_⟩
  · simp only [amend, List.length_modify, h.length]
  · intro m hm
    simp only [amend, List.getElem?_modify, if_neg (Ne.symm hm)]
    simpa using h.candidates m hm

theorem Agree.modify {n : Nat} {r r' : Registry} (h : Agree n r r') (m : Nat)
    (f : CertificateUpdates → CertificateUpdates) (k : Nat) (hk : k ≠ n) :
    (r.candidates.modify m f)[k]? = (r'.candidates.modify m f)[k]? := by
  rw [List.getElem?_modify, List.getElem?_modify, h.candidates k hk]

theorem Agree.amend {n : Nat} {r r' : Registry} (h : Agree n r r') (m : Nat)
    (f : CertificateUpdates → CertificateUpdates) : Agree n (r.amend m f) (r'.amend m f) := by
  refine ⟨h.store, h.issuances, h.live, h.strays, ?_, h.modify m f⟩
  simp only [Registry.amend, List.length_modify, h.length]

theorem Agree.publish {n : Nat} {r r' : Registry} (h : Agree n r r') {m : Nat} (hm : m ≠ n) :
    Agree n (r.publish m) (r'.publish m) := by
  unfold Registry.publish
  rw [h.candidates m hm]
  split
  · exact h
  · split
    · exact h
    · refine ⟨by rw [h.store], h.issuances, by rw [h.live], by rw [h.strays], ?_, h.modify m _⟩
      simp only [List.length_modify, h.length]

theorem Agree.step {n : Nat} {r r' : Registry} (h : Agree n r r') {e : Event} (he : e.concerns n = false) :
    Agree n (r.step e) (r'.step e) := by
  cases e with
  | candidate =>
    refine ⟨h.store, h.issuances, h.live, h.strays, ?_, ?_⟩
    · simp only [Registry.step, List.length_append, h.length]
    · intro m hm
      simp only [Registry.step, List.getElem?_append, h.length, h.candidates m hm]
  | retainSites m sites => exact h.amend m _
  | claim m site identity => exact h.amend m _
  | put m site certificate onlyIfMissing =>
    simp only [Registry.step, h.store]
    exact h.amend m _
  | abandon m => exact h
  | publish m => exact h.publish (by simpa [Event.concerns] using he)
  | retain sites => exact ⟨by simp only [Registry.step, h.store], h.issuances, rfl, rfl, h.length, h.candidates⟩
  | issuance site identity =>
    exact ⟨h.store, by simp only [Registry.step, h.store, h.issuances], h.live, h.strays, h.length, h.candidates⟩
  | issuanceIsCurrent k => exact h
  | putIssued k certificate =>
    simp only [Registry.step, Registry.putIssued, h.issuances]
    split
    · exact h
    · exact ⟨by rw [h.store], rfl, h.live, by rw [h.store, h.strays], h.length, h.candidates⟩

theorem Agree.step_own {n : Nat} {r r' : Registry} (h : Agree n r r') {e : Event} (he : e.concerns n = true)
    (hp : e ≠ .publish n) : Agree n (r.step e) r' := by
  cases e with
  | retainSites m sites =>
    obtain rfl : m = n := by simpa [Event.concerns] using he
    exact h.amend_own _
  | claim m site identity =>
    obtain rfl : m = n := by simpa [Event.concerns] using he
    exact h.amend_own _
  | put m site certificate onlyIfMissing =>
    obtain rfl : m = n := by simpa [Event.concerns] using he
    exact h.amend_own _
  | abandon m => exact h
  | publish m =>
    obtain rfl : m = n := by simpa [Event.concerns] using he
    exact absurd rfl hp
  | candidate => cases he
  | retain sites => cases he
  | issuance site identity => cases he
  | issuanceIsCurrent k => cases he
  | putIssued k certificate => cases he

/-- Leaving out all that an unpublished candidate does changes nothing for anyone else. -/
theorem run_without {n : Nat} {events : List Event} (h : Event.publish n ∉ events) {r r' : Registry} (ha : Agree n r r') :
    Agree n (Run.run step r events) (Run.run step r' (events.filter fun e => !e.concerns n)) := by
  induction events generalizing r r' with
  | nil => exact ha
  | cons e events ih =>
    rw [List.mem_cons, not_or] at h
    cases hc : e.concerns n with
    | true =>
      rw [List.filter_cons_of_neg (by simp [hc])]
      exact ih h.2 (ha.step_own hc (Ne.symm h.1))
    | false =>
      rw [List.filter_cons_of_pos (by simp [hc])]
      exact ih h.2 (ha.step hc)

/-- A candidate's later publications do nothing. -/
theorem publish_again {r : Registry} {n : Nat} {c : CertificateUpdates} (hc : r.candidates[n]? = some c)
    (hp : c.published = true) : r.step (.publish n) = r := by
  rw [step, publish, hc]
  simp only [hp, if_true]

theorem publish_store {r : Registry} {n : Nat} {c : CertificateUpdates} (hc : r.candidates[n]? = some c) :
    (r.step (.publish n)).store = c.publish r.store := by
  rw [step, publish, hc]
  simp only
  split
  · rename_i hp
    rw [CertificateUpdates.publish, if_pos hp]
  · rfl

/-- The issuances a store gives out. -/
theorem issuance_spec {s : CertificateStore} {site : ResourceId} {identity : Fingerprint} {i : Issuance}
    (h : s.issuance site identity = some i) :
    i.site = site ∧ ∀ token, i.token = some token → s.owners.lookup site = some ⟨identity, token⟩ := by
  unfold CertificateStore.issuance at h
  split at h
  · rename_i owner ho
    split at h
    · cases h
    · rename_i hid
      cases h
      refine ⟨rfl, ?_⟩
      intro token ht
      cases ht
      rw [ho, ← not_not.mp hid]
  · split at h
    · cases h
    · cases h
      exact ⟨rfl, fun _ ht => by cases ht⟩

theorem putIssued_matches {s : CertificateStore} {i : Issuance} {certificate : Certificate}
    (h : (s.putIssued i certificate).2 = true) :
    (∀ token, i.token = some token → ∃ o, s.owners.lookup i.site = some o ∧ o.token = token) ∧
      (i.token = none → s.managed = false ∧ s.owners.lookup i.site = none) := by
  have hm : s.issuanceMatches i = true := by
    by_contra hno
    rw [CertificateStore.putIssued, if_neg hno] at h
    cases h
  unfold issuanceMatches at hm
  split at hm
  · rename_i owner token ho ht
    refine ⟨fun token' ht' => ⟨owner, ho, ?_⟩, fun hn => ?_⟩
    · cases ht.symm.trans ht'
      simpa using hm
    · rw [ht] at hn
      cases hn
  · rename_i ho ht
    refine ⟨fun token' ht' => ?_, fun _ => ⟨by simpa using hm, ho⟩⟩
    rw [ht] at ht'
    cases ht'
  · cases hm
  · cases hm

/-- For every order of steps: an issuance under an owner is put only if that ownership lasted
all along, one without an owner only where there is none and nothing managed was published;
an unpublished candidate and a publication after the first change nothing; an entry fits the
owner of its site; an update that only fills a slot replaces nothing under the same
ownership; and outside the last live set there is only what was written since. -/
theorem ownership_kept (events : List Event) :
    (∀ site identity i later certificate, (Run.run step new events).store.issuance site identity = some i →
      ((Run.run step (Run.run step new events) later).store.putIssued i certificate).2 = true →
        (∀ token, i.token = some token → ∀ p, p <+: later →
          (Run.run step (Run.run step new events) p).store.owners.lookup site = some ⟨identity, token⟩) ∧
        (i.token = none → (Run.run step (Run.run step new events) later).store.managed = false ∧
          (Run.run step (Run.run step new events) later).store.owners.lookup site = none)) ∧
    (∀ n, Event.publish n ∉ events →
      (Run.run step new events).store = (Run.run step new (events.filter fun e => !e.concerns n)).store ∧
      (Run.run step new events).issuances = (Run.run step new (events.filter fun e => !e.concerns n)).issuances) ∧
    (∀ n c, (Run.run step new events).candidates[n]? = some c → c.published = true →
      (Run.run step new events).step (.publish n) = Run.run step new events) ∧
    (∀ site o e, (Run.run step new events).store.owners.lookup site = some o →
      (Run.run step new events).store.entries.lookup site = some e → e.source.Under o) ∧
    (∀ n c site e, (Run.run step new events).candidates[n]? = some c →
      (Run.run step new events).store.entries.lookup site = some e →
      (∀ u, c.pending.lookup site = some u → u.onlyIfMissing = true) →
      ((Run.run step new events).step (.publish n)).store.owners.lookup site =
        (Run.run step new events).store.owners.lookup site →
      ((Run.run step new events).store.owners.lookup site = none → ∀ live ∈ c.live, site ∈ live) →
      ((Run.run step new events).step (.publish n)).store.entries.lookup site = some e) ∧
    (∀ live ∈ (Run.run step new events).live, ∀ site, site ∉ live → site ∉ (Run.run step new events).strays →
      (Run.run step new events).store.owners.lookup site = none ∧
      (Run.run step new events).store.entries.lookup site = none) := by
  have hi := run_inv events
  refine ⟨?_, ?_, ?_, hi.store.sources, ?_, hi.outside⟩
  · intro site identity i later certificate hissue hput
    obtain ⟨hsite, hown⟩ := issuance_spec hissue
    obtain ⟨hsome, hnone⟩ := putIssued_matches hput
    rw [hsite] at hsome hnone
    refine ⟨?_, hnone⟩
    intro token ht
    obtain ⟨o, ho, he⟩ := hsome token ht
    exact owner_throughout (hi.store.tokens site _ (hown token ht)) (hown token ht) ho he
  · intro n hn
    have ha := run_without hn (Agree.refl n new)
    exact ⟨ha.store, ha.issuances⟩
  · intro n c hc hp
    exact publish_again hc hp
  · intro n c site e hc he hfill howner hlive
    rw [publish_store hc] at howner ⊢
    exact c.publish_keeps hi.store he hfill howner hlive

def exampleSite : ResourceId := ⟨.site, "one"⟩

/-- An update without a claim fills an owned site; an issuance from before the first owner of
its site outlives that owner; and a candidate may claim a site outside its own live set. -/
theorem writes_beside_ownership :
    (∃ o e, (Run.run step new [.candidate, .claim 0 exampleSite .zero, .retainSites 0 [exampleSite], .publish 0, .candidate,
        .put 1 exampleSite ⟨[], []⟩ false, .retainSites 1 [exampleSite], .publish 1]).store.owners.lookup exampleSite = some o ∧
      (Run.run step new [.candidate, .claim 0 exampleSite .zero, .retainSites 0 [exampleSite], .publish 0, .candidate,
        .put 1 exampleSite ⟨[], []⟩ false, .retainSites 1 [exampleSite], .publish 1]).store.entries.lookup exampleSite = some e ∧
      e.source = .update none) ∧
    (Run.run step new [.issuance exampleSite .zero, .candidate, .claim 0 exampleSite .zero, .publish 0]).store.owners.lookup
        exampleSite ≠ none ∧
      ((Run.run step new [.issuance exampleSite .zero, .candidate, .claim 0 exampleSite .zero, .publish 0,
        .retain []]).store.putIssued ⟨exampleSite, none⟩ ⟨[], []⟩).2 = true ∧
    (Run.run step new [.candidate, .claim 0 exampleSite .zero, .retainSites 0 [], .publish 0]).live = some [] ∧
      (Run.run step new [.candidate, .claim 0 exampleSite .zero, .retainSites 0 [], .publish 0]).store.owners.lookup
        exampleSite ≠ none := by
  refine ⟨⟨_, _, rfl, rfl, rfl⟩, by decide, by decide, by decide, by decide⟩

end Registry

end Gatel.Tls
