import Gatel.Lib.KeyedMap
import Gatel.Lib.Run
import Gatel.Model.Resource

namespace Gatel.Tls
open KeyedMap (Map)

/-! Certificates by site, the candidates that change them and the issuances that renew them.
Every writer of the store holds the owners' lock throughout, so each call is one step. -/

structure Certificate where
  cert : List (List UInt8)
  key : List UInt8
  deriving DecidableEq

/-- A token is an allocation of its own; its number is fresh. -/
structure Ownership where
  identity : Fingerprint
  token : Nat
  deriving DecidableEq

/-- Who put an entry, for the statements only. -/
inductive Provenance where
  | update (claimed : Option Fingerprint)
  | issued (token : Option Nat)
  deriving DecidableEq

structure Entry where
  certificate : Certificate
  source : Provenance
  deriving DecidableEq

structure CertificateStore where
  managed : Bool
  entries : Map ResourceId Entry
  owners : Map ResourceId Ownership
  /-- The next token. -/
  fresh : Nat

/-- Authority for one asynchronous issuance, invalidated by a source change. -/
structure Issuance where
  site : ResourceId
  token : Option Nat
  deriving DecidableEq

structure Update where
  certificate : Option Certificate
  onlyIfMissing : Bool
  owner : Option Fingerprint
  deriving DecidableEq

namespace CertificateStore

def new : CertificateStore := ⟨false, ∅, ∅, 0⟩

def issuance (s : CertificateStore) (site : ResourceId) (identity : Fingerprint) : Option Issuance :=
  match s.owners.lookup site with
  | some owner => if owner.identity ≠ identity then none else some ⟨site, some owner.token⟩
  | none => if s.managed then none else some ⟨site, none⟩

def issuanceMatches (s : CertificateStore) (i : Issuance) : Bool :=
  match s.owners.lookup i.site, i.token with
  | some owner, some token => owner.token = token
  | none, none => !s.managed
  | some _, none | none, some _ => false

def put (s : CertificateStore) (site : ResourceId) (entry : Entry) : CertificateStore :=
  { s with entries := s.entries.insert site entry }

/-- `put_issued`, and whether it did. -/
def putIssued (s : CertificateStore) (i : Issuance) (certificate : Certificate) : CertificateStore × Bool :=
  if s.issuanceMatches i then (s.put i.site ⟨certificate, .issued i.token⟩, true) else (s, false)

/-- Forget what belongs to other sites. -/
def retain (s : CertificateStore) (sites : List ResourceId) : CertificateStore :=
  { s with owners := KeyedMap.retain (sites.contains ·) s.owners, entries := KeyedMap.retain (sites.contains ·) s.entries }

/-- The owner an update asks for is the owner there is. -/
def owned (s : CertificateStore) (site : ResourceId) (identity : Fingerprint) : Bool :=
  (s.owners.lookup site).any fun owner => owner.identity = identity

/-- A new owner of a site; what its last one had is gone. -/
def own (s : CertificateStore) (site : ResourceId) (identity : Fingerprint) : CertificateStore :=
  { s with
    owners := s.owners.insert site ⟨identity, s.fresh⟩
    entries := s.entries.erase site
    fresh := s.fresh + 1 }

@[grind =] def claimed (s : CertificateStore) (site : ResourceId) : Option Fingerprint → CertificateStore
  | some identity => if s.owned site identity then s else s.own site identity
  | none => s

/-- One turn of the loop in `publish`. -/
def apply (s : CertificateStore) (site : ResourceId) (u : Update) : CertificateStore :=
  let s := s.claimed site u.owner
  match u.certificate with
  | none => s
  | some certificate =>
    if u.onlyIfMissing ∧ (s.entries.lookup site).isSome then s else s.put site ⟨certificate, .update u.owner⟩

end CertificateStore

/-- `CertificateUpdates`: what a candidate would change. -/
structure CertificateUpdates where
  published : Bool
  live : Option (List ResourceId)
  pending : Map ResourceId Update

namespace CertificateUpdates

def new : CertificateUpdates := ⟨false, none, ∅⟩

def retainSites (c : CertificateUpdates) (sites : List ResourceId) : CertificateUpdates := { c with live := some sites }

/-- Declare provenance; an update that is already there keeps its own. -/
def claim (c : CertificateUpdates) (site : ResourceId) (identity : Fingerprint) : CertificateUpdates :=
  match c.pending.lookup site with
  | some _ => c
  | none => { c with pending := c.pending.insert site ⟨none, true, some identity⟩ }

def get (c : CertificateUpdates) (s : CertificateStore) (site : ResourceId) : Option Certificate :=
  match (c.pending.lookup site).bind Update.certificate with
  | some certificate => some certificate
  | none =>
    if ((c.pending.lookup site).bind Update.owner).any fun identity => !s.owned site identity then none
    else (s.entries.lookup site).map Entry.certificate

def put (c : CertificateUpdates) (s : CertificateStore) (site : ResourceId) (certificate : Certificate)
    (onlyIfMissing : Bool) : CertificateUpdates :=
  if onlyIfMissing ∧ (c.get s site).isSome then c
  else
    let owner := (c.pending.lookup site).bind Update.owner
    { c with pending := c.pending.insert site ⟨some certificate, onlyIfMissing, owner⟩ }

/-- What `publish` does to the live set before the updates. -/
def prune (c : CertificateUpdates) (s : CertificateStore) : CertificateStore :=
  match c.live with
  | none => s
  | some live => { s.retain live with managed := true }

/-- `begin` and `publish`: only the first publication of a candidate does anything. -/
def publish (c : CertificateUpdates) (s : CertificateStore) : CertificateStore :=
  if c.published then s else c.pending.entries.foldl (fun s u => s.apply u.1 u.2) (c.prune s)

end CertificateUpdates

/-- The store, every candidate and every issuance so far. -/
structure Registry where
  store : CertificateStore
  candidates : List CertificateUpdates
  issuances : List Issuance
  /-- For the statements only: the live set last published or retained, and the sites that
  were written since without regard to it. -/
  live : Option (List ResourceId)
  strays : List ResourceId

namespace Registry

def new : Registry := ⟨.new, [], [], none, []⟩

inductive Event where
  | candidate
  | retainSites (n : Nat) (sites : List ResourceId)
  | claim (n : Nat) (site : ResourceId) (identity : Fingerprint)
  | put (n : Nat) (site : ResourceId) (certificate : Certificate) (onlyIfMissing : Bool)
  /-- `begin`, and the guard is dropped. -/
  | abandon (n : Nat)
  | publish (n : Nat)
  | retain (sites : List ResourceId)
  | issuance (site : ResourceId) (identity : Fingerprint)
  | issuanceIsCurrent (k : Nat)
  | putIssued (k : Nat) (certificate : Certificate)

def amend (r : Registry) (n : Nat) (f : CertificateUpdates → CertificateUpdates) : Registry :=
  { r with candidates := r.candidates.modify n f }

def publish (r : Registry) (n : Nat) : Registry :=
  match r.candidates[n]? with
  | none => r
  | some c =>
    if c.published then r
    else
      { r with
        store := c.publish r.store
        candidates := r.candidates.modify n fun c => { c with published := true, pending := ∅ }
        live := c.live.or r.live
        strays := (if c.live.isSome then [] else r.strays) ++ c.pending.keys }

def putIssued (r : Registry) (k : Nat) (certificate : Certificate) : Registry :=
  match r.issuances[k]? with
  | none => r
  | some i =>
    { r with
      store := (r.store.putIssued i certificate).1
      strays := if i.token.isNone && (r.store.putIssued i certificate).2 then r.strays ++ [i.site] else r.strays }

@[grind =] def step (r : Registry) : Event → Registry
  | .candidate => { r with candidates := r.candidates ++ [.new] }
  | .retainSites n sites => r.amend n fun c => c.retainSites sites
  | .claim n site identity => r.amend n fun c => c.claim site identity
  | .put n site certificate onlyIfMissing => r.amend n fun c => c.put r.store site certificate onlyIfMissing
  | .abandon _ => r
  | .publish n => r.publish n
  | .retain sites => { r with store := r.store.retain sites, live := some sites, strays := [] }
  | .issuance site identity => { r with issuances := r.issuances ++ (r.store.issuance site identity).toList }
  | .issuanceIsCurrent _ => r
  | .putIssued k certificate => r.putIssued k certificate

end Registry

/-- An entry fits the owner of its site: the update that put it claimed that identity, or
claimed nothing, or it was issued under that very ownership. -/
def Provenance.Under (o : Ownership) : Provenance → Prop
  | .update claimed => ∀ identity ∈ claimed, identity = o.identity
  | .issued token => token = some o.token

namespace CertificateStore

structure Inv (s : CertificateStore) : Prop where
  tokens : ∀ site o, s.owners.lookup site = some o → o.token < s.fresh
  sources : ∀ site o e, s.owners.lookup site = some o → s.entries.lookup site = some e → e.source.Under o

theorem inv_new : new.Inv where
  tokens _ _ h := by cases h
  sources _ _ _ h := by cases h

theorem lookup_retain {α : Type} (m : Map ResourceId α) (sites : List ResourceId) (site : ResourceId) :
    (KeyedMap.retain (sites.contains ·) m).lookup site = if site ∈ sites then m.lookup site else none := by
  rw [KeyedMap.lookup_retain]
  by_cases h : site ∈ sites <;> simp [h]

theorem Inv.retain {s : CertificateStore} (h : s.Inv) (sites : List ResourceId) : (s.retain sites).Inv := by
  refine ⟨?_, ?_⟩
  · intro site o ho
    simp only [CertificateStore.retain, lookup_retain, Option.ite_none_right_eq_some] at ho
    exact h.tokens site o ho.2
  · intro site o e ho he
    simp only [CertificateStore.retain, lookup_retain, Option.ite_none_right_eq_some] at ho he
    exact h.sources site o e ho.2 he.2

theorem Inv.put {s : CertificateStore} (h : s.Inv) (site : ResourceId) (entry : Entry)
    (hu : ∀ o, s.owners.lookup site = some o → entry.source.Under o) : (s.put site entry).Inv := by
  refine ⟨h.tokens, ?_⟩
  intro k o e ho he
  by_cases hk : k = site
  · subst hk
    simp only [CertificateStore.put, AList.lookup_insert, Option.some.injEq] at he
    exact he ▸ hu o ho
  · simp only [CertificateStore.put, AList.lookup_insert_ne hk] at he
    exact h.sources k o e ho he

theorem Inv.own {s : CertificateStore} (h : s.Inv) (site : ResourceId) (identity : Fingerprint) :
    (s.own site identity).Inv := by
  refine ⟨?_, ?_⟩
  · intro k o ho
    by_cases hk : k = site
    · subst hk
      simp only [CertificateStore.own, AList.lookup_insert, Option.some.injEq] at ho
      exact ho ▸ Nat.lt_succ_self _
    · simp only [CertificateStore.own, AList.lookup_insert_ne hk] at ho
      exact Nat.lt_succ_of_lt (h.tokens k o ho)
  · intro k o e ho he
    by_cases hk : k = site
    · subst hk
      simp only [CertificateStore.own, AList.lookup_erase] at he
      cases he
    · simp only [CertificateStore.own, AList.lookup_insert_ne hk, AList.lookup_erase_ne hk] at ho he
      exact h.sources k o e ho he

theorem Inv.claimed {s : CertificateStore} (h : s.Inv) (site : ResourceId) (owner : Option Fingerprint) :
    (s.claimed site owner).Inv := by
  unfold CertificateStore.claimed
  split
  · split
    · exact h
    · exact h.own _ _
  · exact h

/-- After the claim of an update, the owner of its site is the one it claims. -/
theorem claimed_identity (s : CertificateStore) (site : ResourceId) (owner : Option Fingerprint) (o : Ownership)
    (ho : (s.claimed site owner).owners.lookup site = some o) : ∀ identity ∈ owner, identity = o.identity := by
  intro identity hi
  cases hi
  unfold CertificateStore.claimed at ho
  simp only at ho
  split at ho
  · rename_i hown
    simp only [owned, ho, Option.any_some, decide_eq_true_eq] at hown
    exact hown.symm
  · simp only [CertificateStore.own, AList.lookup_insert, Option.some.injEq] at ho
    exact ho ▸ rfl

theorem Inv.apply {s : CertificateStore} (h : s.Inv) (site : ResourceId) (u : Update) : (s.apply site u).Inv := by
  have hc := h.claimed site u.owner
  unfold CertificateStore.apply
  simp only
  split
  · exact hc
  · split
    · exact hc
    · exact hc.put site _ fun o ho => claimed_identity s site u.owner o ho

/-- What a publication can do to the owner of a site: nothing, or a new one. -/
def Renews (site : ResourceId) (s s' : CertificateStore) : Prop :=
  s.fresh ≤ s'.fresh ∧
    (s'.owners.lookup site = s.owners.lookup site ∨ ∃ o, s'.owners.lookup site = some o ∧ s.fresh ≤ o.token)

theorem Renews.refl (site : ResourceId) (s : CertificateStore) : Renews site s s := ⟨le_refl _, Or.inl rfl⟩

theorem Renews.trans {site : ResourceId} {a b c : CertificateStore} (hab : Renews site a b) (hbc : Renews site b c) :
    Renews site a c := by
  refine ⟨hab.1.trans hbc.1, ?_⟩
  rcases hbc.2 with he | ⟨o, ho, ht⟩
  · rw [he]
    exact hab.2
  · exact Or.inr ⟨o, ho, hab.1.trans ht⟩

theorem renews_claimed (s : CertificateStore) (k site : ResourceId) (owner : Option Fingerprint) :
    Renews site s (s.claimed k owner) := by
  unfold claimed
  split
  · split
    · exact Renews.refl site s
    · refine ⟨Nat.le_succ _, ?_⟩
      by_cases hk : site = k
      · subst hk
        exact Or.inr ⟨_, AList.lookup_insert _, le_refl _⟩
      · exact Or.inl (AList.lookup_insert_ne hk)
  · exact Renews.refl site s

/-- A claim that leaves the owner leaves everything. -/
theorem Inv.claimed_eq {s : CertificateStore} (h : s.Inv) {site : ResourceId} {owner : Option Fingerprint}
    (hsame : (s.claimed site owner).owners.lookup site = s.owners.lookup site) : s.claimed site owner = s := by
  cases owner with
  | none => rfl
  | some identity =>
    by_cases hown : s.owned site identity = true
    · rw [CertificateStore.claimed, if_pos hown]
    · rw [CertificateStore.claimed, if_neg hown] at hsame
      have hnew : (s.own site identity).owners.lookup site = some ⟨identity, s.fresh⟩ := AList.lookup_insert _
      exact absurd (h.tokens site _ (hsame.symm.trans hnew)) (Nat.lt_irrefl _)

theorem apply_owners (s : CertificateStore) (site : ResourceId) (u : Update) :
    (s.apply site u).owners = (s.claimed site u.owner).owners ∧ (s.apply site u).fresh = (s.claimed site u.owner).fresh := by
  unfold apply
  simp only
  split
  · exact ⟨rfl, rfl⟩
  · split <;> exact ⟨rfl, rfl⟩

theorem renews_apply (s : CertificateStore) (k site : ResourceId) (u : Update) : Renews site s (s.apply k u) := by
  have h := renews_claimed s k site u.owner
  rw [Renews, (apply_owners s k u).1, (apply_owners s k u).2]
  exact h

/-- An update leaves the other sites alone. -/
theorem apply_other (s : CertificateStore) {k site : ResourceId} (h : site ≠ k) (u : Update) :
    (s.apply k u).owners.lookup site = s.owners.lookup site ∧ (s.apply k u).entries.lookup site = s.entries.lookup site := by
  have hc : (s.claimed k u.owner).owners.lookup site = s.owners.lookup site ∧
      (s.claimed k u.owner).entries.lookup site = s.entries.lookup site := by
    unfold claimed
    split
    · split
      · exact ⟨rfl, rfl⟩
      · exact ⟨AList.lookup_insert_ne h, AList.lookup_erase_ne h⟩
    · exact ⟨rfl, rfl⟩
  unfold apply
  simp only
  split
  · exact hc
  · split
    · exact hc
    · exact ⟨hc.1, (AList.lookup_insert_ne h).trans hc.2⟩

end CertificateStore

end Gatel.Tls
