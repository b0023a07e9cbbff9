import Gatel.Cache.Store
import Gatel.Lib.Run

namespace Gatel.Cache
open CanonicalSort (sortBy sortBy_perm sortBy_pairwise mem_sortBy)
open KeyedMap (Map modifyFirst items items_perm items_insert mem_items)

/-- What all these copies weigh together. -/
def weigh (copies : List (Key × Held)) : Nat := (copies.map fun c => c.2.weight).sum

/-- The place a copy takes: one for each key and signature. -/
@[grind =] def slot (c : Key × Held) : Key × String := (c.1, c.2.signature)

theorem weigh_append (a b : List (Key × Held)) : weigh (a ++ b) = weigh a + weigh b := by
  simp [weigh]

theorem weigh_perm {a b : List (Key × Held)} (h : a.Perm b) : weigh a = weigh b := (h.map _).sum_eq

theorem weigh_map (key : Key) (copies : List Held) : weigh (copies.map (Prod.mk key)) = (copies.map Held.weight).sum := by
  simp [weigh, Function.comp_def]

namespace Store

/-- Every copy that is held. -/
def copies (s : Store) : List (Key × Held) := items s.held

/-- The accounting and the shape of the maps, the budget apart. -/
structure Sound (s : Store) : Prop where
  counted : s.bytes = weigh s.copies
  sameKeys : ∀ k, k ∈ s.held ↔ k ∈ s.vary
  nonempty : ∀ k l, s.held.lookup k = some l → l ≠ []
  distinct : (s.copies.map slot).Nodup
  stamps : (s.copies.map fun c => c.2.used).Nodup
  past : ∀ c ∈ s.copies, c.2.used < s.clock

/-- What one operation takes out and puts in; what it puts in carries the newest
stamp. -/
structure Change (s t : Store) (gone added kept : List (Key × Held)) : Prop where
  before : s.copies.Perm (gone ++ kept)
  after : t.copies.Perm (added ++ kept)
  bytes : t.bytes + weigh gone = s.bytes + weigh added
  sameKeys : ∀ k, k ∈ t.held ↔ k ∈ t.vary
  nonempty : ∀ k l, t.held.lookup k = some l → l ≠ []
  stamped : (added = [] ∧ s.clock ≤ t.clock) ∨
    ∃ c, added = [c] ∧ c.2.used = s.clock ∧ t.clock = s.clock + 1 ∧ slot c ∉ kept.map slot
  budget : t.maxBytes = s.maxBytes
  vary : ∀ c ∈ kept, t.vary.lookup c.1 = s.vary.lookup c.1

theorem Sound.change {s t : Store} (h : s.Sound) {gone added kept : List (Key × Held)}
    (hc : Change s t gone added kept) : t.Sound := by
  have hdistinct := (hc.before.map slot).nodup_iff.mp h.distinct
  have hstamps := (hc.before.map fun c => c.2.used).nodup_iff.mp h.stamps
  rw [List.map_append, List.nodup_append] at hdistinct hstamps
  have hpast : ∀ c ∈ kept, c.2.used < s.clock := fun c hm =>
    h.past c (hc.before.mem_iff.mpr (List.mem_append_right _ hm))
  refine ⟨?_, hc.sameKeys, hc.nonempty, ?_, ?_, ?_⟩
  · have hs := h.counted
    have hb := hc.bytes
    rw [weigh_perm hc.before, weigh_append] at hs
    rw [weigh_perm hc.after, weigh_append]
    omega
  · rw [(hc.after.map slot).nodup_iff, List.map_append]
    obtain ⟨rfl, _⟩ | ⟨c, rfl, _, _, hslot⟩ := hc.stamped
    · exact hdistinct.2.1
    · exact List.nodup_cons.mpr ⟨hslot, hdistinct.2.1⟩
  · rw [(hc.after.map fun c => c.2.used).nodup_iff, List.map_append]
    obtain ⟨rfl, _⟩ | ⟨c, rfl, hused, _, _⟩ := hc.stamped
    · exact hstamps.2.1
    · refine List.nodup_cons.mpr ⟨?_, hstamps.2.1⟩
      intro hm
      obtain ⟨c', hc', he⟩ := List.mem_map.mp hm
      have := hpast c' hc'
      dsimp only at he
      omega
  · intro c hm
    have hm := hc.after.mem_iff.mp hm
    obtain ⟨rfl, hle⟩ | ⟨c', rfl, hused, hclock, _⟩ := hc.stamped
    · exact Nat.lt_of_lt_of_le (hpast c hm) hle
    · obtain rfl | hm := List.mem_cons.mp hm
      · omega
      · have := hpast c hm
        omega

/-! Keeping some copies of one resource. -/

theorem setCopies_copies (s : Store) (key : Key) (l : List Held) :
    (s.setCopies key l).copies.Perm (l.map (Prod.mk key) ++ items (s.held.erase key)) := by
  unfold setCopies
  split
  · rename_i hl
    subst hl
    exact .refl _
  · exact items_insert s.held key l

theorem setCopies_sameKeys {s : Store} (h : s.Sound) {key : Key} (hk : key ∈ s.held) (l : List Held) (k : Key) :
    k ∈ (s.setCopies key l).held ↔ k ∈ (s.setCopies key l).vary := by
  unfold setCopies
  split
  · simp only [AList.mem_erase, h.sameKeys]
  · simp only [AList.mem_insert]
    constructor
    · rintro (rfl | hm)
      · exact (h.sameKeys k).mp hk
      · exact (h.sameKeys k).mp hm
    · intro hm
      exact Or.inr ((h.sameKeys k).mpr hm)

theorem setCopies_nonempty {s : Store} (h : s.Sound) {key : Key} {l : List Held} (k : Key) (l' : List Held)
    (hl : (s.setCopies key l).held.lookup k = some l') : l' ≠ [] := by
  unfold setCopies at hl
  split at hl
  · by_cases hk : k = key
    · subst hk
      rw [AList.lookup_erase] at hl
      cases hl
    · rw [AList.lookup_erase_ne hk] at hl
      exact h.nonempty k l' hl
  · rename_i hne
    by_cases hk : k = key
    · subst hk
      rw [AList.lookup_insert] at hl
      cases hl
      exact hne
    · rw [AList.lookup_insert_ne hk] at hl
      exact h.nonempty k l' hl

theorem setCopies_vary {s : Store} {key : Key} {l : List Held} {c : Key × Held}
    (hc : c ∈ l.map (Prod.mk key) ++ items (s.held.erase key)) :
    (s.setCopies key l).vary.lookup c.1 = s.vary.lookup c.1 := by
  unfold setCopies
  split
  · rename_i hl
    subst hl
    exact AList.lookup_erase_ne (KeyedMap.key_ne_of_mem_erase hc)
  · rfl

@[simp] theorem setCopies_bytes (s : Store) (key : Key) (l : List Held) : (s.setCopies key l).bytes = s.bytes := by
  unfold setCopies
  split <;> rfl

@[simp] theorem setCopies_clock (s : Store) (key : Key) (l : List Held) : (s.setCopies key l).clock = s.clock := by
  unfold setCopies
  split <;> rfl

@[simp] theorem setCopies_maxBytes (s : Store) (key : Key) (l : List Held) :
    (s.setCopies key l).maxBytes = s.maxBytes := by
  unfold setCopies
  split <;> rfl

@[simp] theorem setCopies_revision (s : Store) (key : Key) (l : List Held) :
    (s.setCopies key l).revision = s.revision := by
  unfold setCopies
  split <;> rfl

@[simp] theorem setCopies_fresh (s : Store) (key : Key) (l : List Held) : (s.setCopies key l).fresh = s.fresh := by
  unfold setCopies
  split <;> rfl

theorem weigh_le {s : Store} (h : s.Sound) {gone kept : List (Key × Held)} (hp : s.copies.Perm (gone ++ kept)) :
    weigh gone ≤ s.bytes := by
  rw [h.counted, weigh_perm hp, weigh_append]
  omega

/-- One copy of a resource goes. -/
theorem change_erase {s : Store} (h : s.Sound) {key : Key} {l : List Held} (hl : s.held.lookup key = some l)
    {old : Held} (ho : old ∈ l) (revision : U64) :
    Change s { s.setCopies key (l.erase old) with bytes := s.bytes - old.weight, revision := revision } [(key, old)] []
      ((l.erase old).map (Prod.mk key) ++ items (s.held.erase key)) := by
  have hk : key ∈ s.held := AList.lookup_isSome.mp (by rw [hl]; rfl)
  have hbefore : s.copies.Perm ([(key, old)] ++ ((l.erase old).map (Prod.mk key) ++ items (s.held.erase key))) := by
    refine (items_perm hl).trans ?_
    exact ((List.perm_cons_erase ho).map (Prod.mk key)).append_right _
  have hle := weigh_le h hbefore
  refine ⟨hbefore, setCopies_copies s key _, ?_, ?_, ?_, ?_, ?_, ?_⟩
  · simp only [weigh, List.map_cons, List.map_nil, List.sum_cons, List.sum_nil] at hle ⊢
    omega
  · exact setCopies_sameKeys h hk _
  · exact fun k l' hl' => setCopies_nonempty h k l' hl'
  · exact Or.inl ⟨rfl, by simp⟩
  · simp
  · exact fun c hc => setCopies_vary hc

theorem change_discardObserved {s : Store} (h : s.Sound) (observed : Observed) :
    (s.discardObserved observed).2 = s ∧ (s.discardObserved observed).1 = false ∨
      ∃ old kept, (s.discardObserved observed).1 = true ∧
        Change s (s.discardObserved observed).2 [(observed.key, old)] [] kept := by
  unfold discardObserved
  split
  · exact Or.inl ⟨rfl, rfl⟩
  · rename_i l hl
    split
    · exact Or.inl ⟨rfl, rfl⟩
    · rename_i old hf
      exact Or.inr ⟨old, _, rfl, change_erase h hl (List.mem_of_find?_eq_some hf) _⟩

theorem change_takeStale {s : Store} (h : s.Sound) (blake3 : Digest) (key : Key) (headers : HeaderMap)
    (now : Entry → Instant) :
    (s.takeStale blake3 key headers now).2 = s ∨
      ∃ old kept, Change s (s.takeStale blake3 key headers now).2 [(key, old)] [] kept := by
  unfold takeStale
  split
  · rename_i vary l _ hl
    dsimp only
    split
    · exact Or.inl rfl
    · rename_i old hf
      have hc := change_erase h hl (List.mem_of_find?_eq_some hf) s.revision
      refine Or.inr ⟨old, (l.erase old).map (Prod.mk key) ++ items (s.held.erase key), ?_⟩
      simpa using hc
  · exact Or.inl rfl

/-- What a hit changes: only its stamp. -/
def touched (clock : Nat) (c : Key × Held) : Key × Held := (c.1, { c.2 with used := clock })

theorem filter_perm (p : Held → Bool) (key : Key) (l : List Held) (rest : List (Key × Held)) :
    (l.map (Prod.mk key) ++ rest).Perm
      ((l.filter fun c => !p c).map (Prod.mk key) ++ ((l.filter p).map (Prod.mk key) ++ rest)) := by
  rw [← List.append_assoc, ← List.map_append]
  refine List.Perm.append_right _ (List.Perm.map _ ?_)
  exact ((List.filter_append_perm p l).symm).trans List.perm_append_comm

theorem change_lookup {s : Store} (h : s.Sound) (key : Key) (signatureFor : List String → String)
    (now : Entry → Instant) (accepts : Entry → Bool) :
    ((s.lookup key signatureFor now accepts).1 = none ∧ (s.lookup key signatureFor now accepts).2 = s) ∨
    (∃ gone kept, (s.lookup key signatureFor now accepts).1 = none ∧
      Change s (s.lookup key signatureFor now accepts).2 gone [] kept) ∨
    ∃ gone kept hit, (s.lookup key signatureFor now accepts).1 = some hit.2.entry ∧ hit.1 = key ∧
      hit.2.signature = signatureFor ((s.vary.lookup key).getD []) ∧ accepts hit.2.entry = true ∧
      hit.2.entry.isFresh (now hit.2.entry) = true ∧
      (s.lookup key signatureFor now accepts).2.vary.lookup key = s.vary.lookup key ∧
      Change s (s.lookup key signatureFor now accepts).2 (gone ++ [hit]) [touched s.clock hit] kept := by
  unfold lookup
  dsimp only
  split
  · exact Or.inl ⟨rfl, rfl⟩
  · rename_i l hl
    right
    have hk : key ∈ s.held := AList.lookup_isSome.mp (by rw [hl]; rfl)
    generalize hsig : signatureFor ((s.vary.lookup key).getD []) = signature
    let fresh : Held → Bool := fun copy => copy.entry.isFresh (now copy.entry)
    let fits : Held → Bool := fun copy => copy.signature == signature && accepts copy.entry
    have hsplit : s.copies.Perm ((l.filter fun c => !fresh c).map (Prod.mk key) ++
        ((l.filter fresh).map (Prod.mk key) ++ items (s.held.erase key))) :=
      (items_perm hl).trans (filter_perm fresh key l _)
    have hle := weigh_le h hsplit
    rw [weigh_map] at hle
    cases hfind : (l.filter fresh).find? fits with
    | none =>
      left
      refine ⟨(l.filter fun c => !fresh c).map (Prod.mk key),
        (l.filter fresh).map (Prod.mk key) ++ items (s.held.erase key), rfl, hsplit, ?_, ?_, ?_, ?_, ?_, ?_, ?_⟩
      · rw [KeyedMap.modifyFirst_none hfind]
        exact setCopies_copies s key _
      · rw [weigh_map]
        exact Nat.sub_add_cancel hle
      · exact setCopies_sameKeys h hk _
      · exact fun k l' hl' => setCopies_nonempty h k l' hl'
      · exact Or.inl ⟨rfl, by simp⟩
      · simp
      · intro c hc
        rw [KeyedMap.modifyFirst_none hfind]
        exact setCopies_vary hc
    | some hit =>
      right
      obtain ⟨pre, post, hlist, hmod⟩ := KeyedMap.modifyFirst_split hfind
      have hfits : fits hit = true := List.find?_some hfind
      have hmem := List.mem_of_find?_eq_some hfind
      have hfresh : fresh hit = true := (List.mem_filter.mp hmem).2
      simp only [fits, Bool.and_eq_true, beq_iff_eq] at hfits
      have hmove : ∀ c : Held, ((pre ++ c :: post).map (Prod.mk key)).Perm
          ((key, c) :: (pre ++ post).map (Prod.mk key)) := fun c =>
        (@List.perm_middle _ c pre post).map (Prod.mk key)
      have hbefore : s.copies.Perm (((l.filter fun c => !fresh c).map (Prod.mk key) ++ [(key, hit)]) ++
          ((pre ++ post).map (Prod.mk key) ++ items (s.held.erase key))) := by
        refine hsplit.trans ?_
        rw [List.append_assoc, hlist]
        exact ((hmove hit).append_right _).append_left _
      refine ⟨(l.filter fun c => !fresh c).map (Prod.mk key),
        (pre ++ post).map (Prod.mk key) ++ items (s.held.erase key), (key, hit), rfl, rfl, hfits.1, hfits.2, hfresh,
        ?_, hbefore, ?_, ?_, ?_, ?_, ?_, ?_, ?_⟩
      · rw [hmod]
        refine setCopies_vary (c := touched s.clock (key, hit)) (List.mem_append_left _ ?_)
        exact List.mem_map_of_mem (by simp)
      · rw [hmod]
        refine (setCopies_copies s key _).trans ?_
        exact (hmove _).append_right _
      · rw [weigh_append, weigh_map]
        have hw : weigh [(key, hit)] = weigh [touched s.clock (key, hit)] := rfl
        rw [hw]
        change s.bytes - ((l.filter fun c => !fresh c).map Held.weight).sum + _ = _
        omega
      · exact setCopies_sameKeys h hk _
      · exact fun k l' hl' => setCopies_nonempty h k l' hl'
      · refine Or.inr ⟨_, rfl, rfl, by simp, ?_⟩
        have hd := h.distinct
        rw [(hbefore.map slot).nodup_iff, List.map_append, List.map_append, List.append_assoc, List.nodup_append] at hd
        exact (List.nodup_cons.mp hd.2.1).1
      · simp
      · intro c hc
        refine setCopies_vary ?_
        rw [hmod]
        rw [List.mem_append] at hc ⊢
        obtain hc | hc := hc
        · left
          exact ((hmove _).mem_iff).mpr (List.mem_cons_of_mem _ hc)
        · exact Or.inr hc

theorem change_invalidate {s : Store} (h : s.Sound) (key : Key) :
    Change s (s.invalidate key) (s.copies.filter fun c => Key.sameUri c.1 key) []
      (s.copies.filter fun c => !Key.sameUri c.1 key) := by
  have hbefore : s.copies.Perm ((s.copies.filter fun c => Key.sameUri c.1 key) ++
      s.copies.filter fun c => !Key.sameUri c.1 key) := (List.filter_append_perm _ _).symm
  have hfreed : ((s.held.entries.filter fun e => Key.sameUri e.1 key).map fun e => (e.2.map Held.weight).sum).sum =
      weigh (s.copies.filter fun c => Key.sameUri c.1 key) := by
    have hall : ∀ es : List (Sigma fun _ : Key => List Held),
        ((es.filter fun e => Key.sameUri e.1 key).map fun e => (e.2.map Held.weight).sum).sum =
          weigh ((es.flatMap fun e => e.2.map (Prod.mk e.1)).filter fun c => Key.sameUri c.1 key) := by
      intro es
      induction es with
      | nil => rfl
      | cons e es ih =>
        rw [List.flatMap_cons, List.filter_append, weigh_append, ← ih, List.filter_map]
        cases hu : Key.sameUri e.1 key <;> simp [hu, weigh, Function.comp_def]
    exact hall s.held.entries
  have hle := weigh_le h hbefore
  have hkeep : ∀ {ν : Type} (m : Map Key ν) (k : Key),
      k ∈ KeyedMap.retain (fun candidate => !Key.sameUri candidate key) m ↔ !Key.sameUri k key ∧ k ∈ m := by
    intro ν m k
    rw [← AList.lookup_isSome, KeyedMap.lookup_retain, ← AList.lookup_isSome]
    cases Key.sameUri k key <;> simp
  refine ⟨hbefore, ?_, ?_, ?_, ?_, ?_, rfl, ?_⟩
  · exact List.Perm.of_eq (KeyedMap.items_retain _ s.held)
  · simp only [invalidate, hfreed]
    exact Nat.sub_add_cancel hle
  · intro k
    simp only [invalidate, hkeep, h.sameKeys]
  · intro k l hl
    simp only [invalidate, KeyedMap.lookup_retain] at hl
    split at hl
    · exact h.nonempty k l hl
    · cases hl
  · exact Or.inl ⟨rfl, Nat.le_refl _⟩
  · intro c hc
    have hu := (List.mem_filter.mp hc).2
    simp only [invalidate, KeyedMap.lookup_retain, hu, if_true]

end Store

end Gatel.Cache
