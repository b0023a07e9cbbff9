import Gatel.Cache.Invariant

namespace Gatel.Cache
open CanonicalSort (sortBy sortBy_perm sortBy_pairwise mem_sortBy transCmp_on)
open KeyedMap (Map modifyFirst items items_perm items_insert mem_items)

namespace Store

/-! Placing one copy. -/

theorem placed_ne_nil (l : List Held) (c : Held) : placed l c ≠ [] := by
  unfold placed
  split
  · cases l with
    | nil => rename_i h; cases h
    | cons a l =>
      simp only [modifyFirst]
      split <;> simp
  · simp

/-- Placing a copy replaces the one with its signature, if there is one. -/
theorem placed_perm (l : List Held) (c : Held) (hd : (l.map Held.signature).Nodup) :
    ∃ gone kept, l.Perm (gone ++ kept) ∧ (placed l c).Perm (c :: kept) ∧
      (gone.map Held.weight).sum = ((l.find? fun a => a.signature == c.signature).map Held.weight).getD 0 ∧
      c.signature ∉ kept.map Held.signature ∧ (∀ a ∈ gone, a.signature = c.signature) := by
  cases hf : l.find? fun a => a.signature == c.signature with
  | none =>
    have hnone : ∀ a ∈ l, a.signature ≠ c.signature := by
      intro a ha
      simpa using List.find?_eq_none.mp hf a ha
    have hany : (l.any fun a => a.signature == c.signature) = false := by
      rw [List.any_eq_false]
      intro a ha
      simpa using hnone a ha
    refine ⟨[], l, .refl _, ?_, rfl, ?_, by simp⟩
    · rw [placed, hany]
      exact List.perm_append_comm
    · intro hm
      obtain ⟨a, ha, he⟩ := List.mem_map.mp hm
      exact hnone a ha he
  | some old =>
    have hsig : old.signature = c.signature := by simpa using List.find?_some hf
    have hany : (l.any fun a => a.signature == c.signature) = true :=
      List.any_eq_true.mpr ⟨old, List.mem_of_find?_eq_some hf, by simpa using hsig⟩
    obtain ⟨pre, post, rfl, hmod⟩ := KeyedMap.modifyFirst_split hf
    refine ⟨[old], pre ++ post, List.perm_middle, ?_, by simp, ?_, by simpa using hsig⟩
    · rw [placed, hany, if_pos rfl, hmod]
      exact List.perm_middle
    · rw [(List.perm_middle.map Held.signature).nodup_iff, List.map_cons, List.nodup_cons, hsig] at hd
      exact hd.1

theorem signatures_nodup {s : Store} (h : s.Sound) {key : Key} {l : List Held} (hl : s.held.lookup key = some l) :
    (l.map Held.signature).Nodup := by
  have hd : ((items s.held).map slot).Nodup := h.distinct
  rw [((items_perm hl).map slot).nodup_iff, List.map_append, List.nodup_append] at hd
  have hm : (l.map (Prod.mk key)).map slot = (l.map Held.signature).map (Prod.mk key) := by
    simp [slot, Function.comp_def]
  rw [hm] at hd
  exact List.Nodup.of_map _ hd.1

/-- The copy a put makes. -/
def arrival (s : Store) (key : Key) (signature : String) (vary : List String) (entry : Entry) : Key × Held :=
  (key, ⟨s.fresh, entry, entry.weight key signature vary, signature, s.clock⟩)

theorem deposit_sameKeys {s : Store} (h : s.Sound) (key : Key) (signature : String) (vary : List String)
    (entry : Entry) (k : Key) :
    k ∈ (s.deposit key signature vary entry).held ↔ k ∈ (s.deposit key signature vary entry).vary := by
  simp only [deposit, AList.mem_insert, h.sameKeys]

theorem deposit_nonempty {s : Store} (h : s.Sound) (key : Key) (signature : String) (vary : List String)
    (entry : Entry) (k : Key) (l : List Held) (hl : (s.deposit key signature vary entry).held.lookup k = some l) :
    l ≠ [] := by
  simp only [deposit] at hl
  by_cases hk : k = key
  · subst hk
    rw [AList.lookup_insert] at hl
    cases hl
    exact placed_ne_nil _ _
  · rw [AList.lookup_insert_ne hk] at hl
    exact h.nonempty k l hl

theorem present_perm (s : Store) (key : Key) :
    s.copies.Perm (((s.held.lookup key).getD []).map (Prod.mk key) ++ items (s.held.erase key)) := by
  cases hl : s.held.lookup key with
  | none => exact KeyedMap.items_erase hl
  | some l => exact items_perm hl

/-- A put takes out copies under another `Vary` list, or the copy whose place it takes. -/
theorem change_deposit {s : Store} (h : s.Sound) (key : Key) (signature : String) (vary : List String)
    (entry : Entry) : ∃ gone kept,
      Change s (s.deposit key signature vary entry) gone [s.arrival key signature vary entry] kept ∧
        (s.occupied key signature vary = false → gone = []) := by
  have hpresent := s.present_perm key
  have hother : ∀ c ∈ items (s.held.erase key),
      (s.deposit key signature vary entry).vary.lookup c.1 = s.vary.lookup c.1 := fun c hc =>
    AList.lookup_insert_ne (KeyedMap.key_ne_of_mem_erase hc)
  have hslot : ∀ kept : List Held, signature ∉ kept.map Held.signature →
      slot (s.arrival key signature vary entry) ∉ (kept.map (Prod.mk key) ++ items (s.held.erase key)).map slot := by
    intro kept hn hm
    rw [List.map_append, List.mem_append] at hm
    obtain hm | hm := hm
    · obtain ⟨c, hc, he⟩ := List.mem_map.mp hm
      obtain ⟨a, ha, rfl⟩ := List.mem_map.mp hc
      exact hn (List.mem_map.mpr ⟨a, ha, (Prod.mk.inj he).2⟩)
    · obtain ⟨c, hc, he⟩ := List.mem_map.mp hm
      exact KeyedMap.key_ne_of_mem_erase hc (Prod.mk.inj he).1
  by_cases hchanged : ((s.vary.lookup key).any fun old => old ≠ vary) = true
  · -- Another list: nothing under the key stays.
    have hle := weigh_le h hpresent
    rw [weigh_map] at hle
    refine ⟨_, items (s.held.erase key), ⟨hpresent, ?_, ?_, deposit_sameKeys h _ _ _ _, deposit_nonempty h _ _ _ _,
      Or.inr ⟨_, rfl, rfl, rfl, hslot [] (by simp)⟩, rfl, hother⟩, ?_⟩
    · simp only [copies, deposit, hchanged, if_true, placed, List.any_nil, Bool.false_eq_true, if_false, List.nil_append]
      exact items_insert s.held key _
    · rw [weigh_map]
      simp only [deposit, hchanged, if_true, weigh, arrival, List.map_cons, List.map_nil, List.sum_cons, List.sum_nil,
        List.find?_nil, Option.map_none, Option.getD_none]
      omega
    · intro ho
      rw [occupied, hchanged] at ho
      cases ho
  · rw [Bool.not_eq_true] at hchanged
    have hdist : (((s.held.lookup key).getD []).map Held.signature).Nodup := by
      cases hl : s.held.lookup key with
      | none => exact List.nodup_nil
      | some l => exact signatures_nodup h hl
    obtain ⟨gone, kept, hsplit, hplaced, hweight, hsig, hgone⟩ :=
      placed_perm ((s.held.lookup key).getD []) (s.arrival key signature vary entry).2 hdist
    have hbefore : s.copies.Perm (gone.map (Prod.mk key) ++ (kept.map (Prod.mk key) ++ items (s.held.erase key))) := by
      refine hpresent.trans ?_
      rw [← List.append_assoc, ← List.map_append]
      exact (hsplit.map _).append_right _
    have hle := weigh_le h hbefore
    rw [weigh_map] at hle
    refine ⟨gone.map (Prod.mk key), kept.map (Prod.mk key) ++ items (s.held.erase key), ⟨hbefore, ?_, ?_,
      deposit_sameKeys h _ _ _ _, deposit_nonempty h _ _ _ _, Or.inr ⟨_, rfl, rfl, rfl, hslot kept hsig⟩, rfl, ?_⟩, ?_⟩
    · simp only [copies, deposit, hchanged, Bool.false_eq_true, if_false]
      refine (items_insert s.held key _).trans ?_
      exact (hplaced.map (Prod.mk key)).append_right _
    · rw [weigh_map]
      simp only [deposit, hchanged, Bool.false_eq_true, if_false, weigh, List.map_cons, List.map_nil, List.sum_cons,
        List.sum_nil]
      simp only [arrival] at hweight ⊢
      omega
    · intro c hc
      obtain hc | hc := List.mem_append.mp hc
      · -- What stays under the key was stored under the same list.
        obtain ⟨a, ha, rfl⟩ := List.mem_map.mp hc
        have hmem : a ∈ (s.held.lookup key).getD [] := hsplit.mem_iff.mpr (List.mem_append_right _ ha)
        have hk : key ∈ s.vary := by
          rw [← h.sameKeys, ← AList.lookup_isSome]
          cases hl : s.held.lookup key with
          | none => rw [hl] at hmem; cases hmem
          | some l => rfl
        obtain ⟨old, hold⟩ := Option.isSome_iff_exists.mp (AList.lookup_isSome.mpr hk)
        have : old = vary := by simpa [hold] using hchanged
        simp only [deposit, AList.lookup_insert, hold, this]
      · exact hother c hc
    · intro ho
      cases hl : s.held.lookup key with
      | none =>
        rw [hl] at hsplit
        have hnil := hsplit.symm.eq_nil
        rw [List.append_eq_nil_iff] at hnil
        rw [hnil.1]
        rfl
      | some l =>
        rw [hl] at hsplit
        cases gone with
        | nil => rfl
        | cons a gone =>
          have hmem : a ∈ l := hsplit.mem_iff.mpr (by simp)
          have hany : (l.any fun c => c.signature == signature) = true :=
            List.any_eq_true.mpr ⟨a, hmem, by simpa [arrival] using hgone a (by simp)⟩
          simp [occupied, hl, hany] at ho

/-! Choosing what goes. -/

theorem selectVictims_split (excess selected : Nat) (l : List (Key × Held)) :
    ∃ rest, l = selectVictims excess selected l ++ rest := by
  induction l generalizing selected with
  | nil => exact ⟨[], rfl⟩
  | cons c l ih =>
    simp only [selectVictims]
    split
    · exact ⟨l, rfl⟩
    · obtain ⟨rest, hr⟩ := ih (saturatingAdd selected c.2.weight)
      exact ⟨rest, by rw [List.cons_append, ← hr]⟩

/-- The choice makes up for an excess that a 64-bit sum can show. -/
theorem selectVictims_enough {excess : Nat} (hx : excess ≤ 2 ^ 64 - 1) (selected : Nat) (l : List (Key × Held))
    (hl : excess ≤ selected + weigh l) : excess ≤ selected + weigh (selectVictims excess selected l) := by
  induction l generalizing selected with
  | nil => exact hl
  | cons c l ih =>
    simp only [selectVictims, weigh, List.map_cons, List.sum_cons] at hl ⊢
    split
    · rename_i hs
      simp only [saturatingAdd] at hs
      omega
    · rename_i hs
      have he : saturatingAdd selected c.2.weight = selected + c.2.weight := by
        simp only [saturatingAdd] at hs ⊢
        omega
      rw [he]
      have := ih (selected + c.2.weight) (by simp only [weigh]; omega)
      simp only [weigh] at this
      omega

/-- Without its last victim the choice would not do. -/
theorem selectVictims_needed {excess selected : Nat} (hx : excess ≤ 2 ^ 64 - 1) (hs : selected < excess)
    {l older : List (Key × Held)} {v : Key × Held} (hv : selectVictims excess selected l = older ++ [v]) :
    selected + weigh older < excess := by
  induction l generalizing selected older with
  | nil => cases older <;> cases hv
  | cons c l ih =>
    simp only [selectVictims] at hv
    cases older with
    | nil => simpa [weigh] using hs
    | cons o older =>
      obtain ⟨rfl, hrest⟩ := List.cons.inj hv
      split at hrest
      · cases older <;> cases hrest
      · rename_i hlt
        have he : saturatingAdd selected c.2.weight = selected + c.2.weight := by
          simp only [saturatingAdd] at hlt ⊢
          omega
        rw [he] at hrest hlt
        have := ih (by omega) hrest
        simp only [weigh, List.map_cons, List.sum_cons] at this ⊢
        omega

/-- These victims are the least recently used copies, from the oldest on, and no more
of them than the budget asks for. -/
structure Eviction (budget : Nat) (before after victims : List (Key × Held)) : Prop where
  split : before.Perm (victims ++ after)
  ordered : victims.Pairwise fun a b => a.2.used < b.2.used
  oldest : ∀ v ∈ victims, ∀ c ∈ after, v.2.used < c.2.used
  fits : weigh after ≤ budget
  needed : ∀ older v, victims = older ++ [v] → budget < weigh after + v.2.weight

theorem candidates_pairwise {s : Store} (h : s.Sound) :
    (sortBy (compareOn fun c : Key × Held => c.2.used) s.copies).Pairwise fun a b => a.2.used < b.2.used := by
  have htrans : Std.TransCmp (compareOn fun c : Key × Held => c.2.used) := transCmp_on fun c : Key × Held => c.2.used
  have hle := @sortBy_pairwise _ (compareOn fun c : Key × Held => c.2.used) _ s.copies
  have hne : (sortBy (compareOn fun c : Key × Held => c.2.used) s.copies).Pairwise fun a b => a.2.used ≠ b.2.used := by
    have hnodup := ((sortBy_perm (compareOn fun c : Key × Held => c.2.used) s.copies).map fun c =>
      c.2.used).nodup_iff.mpr h.stamps
    exact List.pairwise_map.mp hnodup
  refine (hle.and hne).imp ?_
  intro a b hab
  obtain ⟨hl, hn⟩ := hab
  rw [compareOn, Nat.isLE_compare] at hl
  omega

theorem spared_getD (victims : List (Key × Held)) (key : Key) (l : List Held) :
    (spared victims key l).getD [] = l.filter fun c => decide (slot (key, c) ∉ victims.map slot) := by
  have hany : ∀ c : Held, (victims.any fun v => v.1 == key && v.2.signature == c.signature) =
      decide (slot (key, c) ∈ victims.map slot) := by
    intro c
    rw [Bool.eq_iff_iff, List.any_eq_true, decide_eq_true_iff, List.mem_map]
    simp only [slot, Prod.mk.injEq, Bool.and_eq_true, beq_iff_eq]
  unfold spared
  simp only [hany]
  split
  · split
    · rename_i hnil
      rw [Option.getD_none, ← hnil]
      congr 1
      funext c
      simp
    · rw [Option.getD_some]
      congr 1
      funext c
      simp
  · rename_i hno
    rw [Option.getD_some, eq_comm, List.filter_eq_self]
    intro c _
    rw [decide_eq_true_iff]
    intro hm
    obtain ⟨v, hv, he⟩ := List.mem_map.mp hm
    exact hno (List.any_eq_true.mpr ⟨v, hv, by simpa using (Prod.mk.inj he).1⟩)

/-- Of distinct slots, leaving out those of the victims leaves the rest. -/
theorem filter_slots {victims rest : List (Key × Held)} (hd : ((victims ++ rest).map slot).Nodup) :
    ((victims ++ rest).filter fun c => decide (slot c ∉ victims.map slot)) = rest := by
  rw [List.map_append, List.nodup_append] at hd
  rw [List.filter_append]
  have hgone : (victims.filter fun c => decide (slot c ∉ victims.map slot)) = [] := by
    rw [List.filter_eq_nil_iff]
    intro c hc
    simpa using ⟨c.1, c.2, hc, rfl⟩
  have hstay : (rest.filter fun c => decide (slot c ∉ victims.map slot)) = rest := by
    rw [List.filter_eq_self]
    intro c hc
    rw [decide_eq_true_iff]
    exact fun hm => hd.2.2 _ hm _ (List.mem_map_of_mem hc) rfl
  rw [hgone, hstay, List.nil_append]

theorem removeVictims_copies {s : Store} (h : s.Sound) {victims rest : List (Key × Held)}
    (hp : s.copies.Perm (victims ++ rest)) : (s.removeVictims victims).copies.Perm rest := by
  have hitems : (s.removeVictims victims).copies = s.copies.filter fun c => decide (slot c ∉ victims.map slot) :=
    KeyedMap.items_refine (fun k l => spared_getD victims k l) s.held
  rw [hitems]
  refine (hp.filter _).trans (List.Perm.of_eq ?_)
  exact filter_slots ((hp.map slot).nodup_iff.mp h.distinct)

theorem removeVictims_bytes {s : Store} (h : s.Sound) {victims rest : List (Key × Held)}
    (hp : s.copies.Perm (victims ++ rest)) : (s.removeVictims victims).bytes + weigh victims = s.bytes := by
  have hany : ∀ c : Key × Held, (victims.any fun v => v.1 == c.1 && v.2.signature == c.2.signature) =
      !decide (slot c ∉ victims.map slot) := by
    intro c
    rw [Bool.eq_iff_iff, List.any_eq_true, Bool.not_eq_true', decide_eq_false_iff_not, not_not, List.mem_map]
    simp only [slot, Prod.mk.injEq, Bool.and_eq_true, beq_iff_eq]
  have hkept : (s.copies.filter fun c => decide (slot c ∉ victims.map slot)).Perm rest := by
    refine (hp.filter _).trans (List.Perm.of_eq ?_)
    exact filter_slots ((hp.map slot).nodup_iff.mp h.distinct)
  have hall := weigh_perm (List.filter_append_perm (fun c => decide (slot c ∉ victims.map slot)) s.copies)
  rw [weigh_append, weigh_perm hkept, weigh_perm hp, weigh_append] at hall
  have hfreed : (s.removeVictims victims).bytes =
      s.bytes - weigh (s.copies.filter fun c => !decide (slot c ∉ victims.map slot)) := by
    simp only [removeVictims, hany]
    rfl
  have hle := weigh_le h hp
  omega

theorem removeVictims_held (s : Store) (victims : List (Key × Held)) (k : Key) :
    (s.removeVictims victims).held.lookup k = (s.held.lookup k).bind (spared victims k) :=
  KeyedMap.lookup_refine _ s.held k

theorem removeVictims_vary {s : Store} (h : s.Sound) (victims : List (Key × Held)) (k : Key) :
    (s.removeVictims victims).vary.lookup k =
      if ((s.removeVictims victims).held.lookup k).isSome then s.vary.lookup k else none := by
  have hkeys := h.sameKeys k
  rw [← AList.lookup_isSome, ← AList.lookup_isSome] at hkeys
  simp only [removeVictims, KeyedMap.lookup_retain, KeyedMap.lookup_refine]
  cases hl : s.held.lookup k with
  | none =>
    rw [hl] at hkeys
    cases hv : s.vary.lookup k with
    | none => simp
    | some v => simp [hv] at hkeys
  | some l => cases spared victims k l <;> simp

theorem change_removeVictims {s : Store} (h : s.Sound) {victims rest : List (Key × Held)}
    (hp : s.copies.Perm (victims ++ rest)) : Change s (s.removeVictims victims) victims [] rest := by
  have hcopies := removeVictims_copies h hp
  refine ⟨hp, hcopies, removeVictims_bytes h hp, ?_, ?_, Or.inl ⟨rfl, Nat.le_refl _⟩, rfl, ?_⟩
  · intro k
    have hkeys := h.sameKeys k
    rw [← AList.lookup_isSome, ← AList.lookup_isSome] at hkeys
    rw [← AList.lookup_isSome, ← AList.lookup_isSome, removeVictims_vary h]
    split
    · rename_i hs
      rw [← hkeys]
      refine iff_of_true hs ?_
      rw [removeVictims_held] at hs
      cases hl : s.held.lookup k with
      | none => simp [hl] at hs
      | some l => rfl
    · rename_i hs
      exact iff_of_false hs (by simp)
  · intro k l hl
    rw [removeVictims_held, Option.bind_eq_some_iff] at hl
    obtain ⟨l', hl', hs⟩ := hl
    unfold spared at hs
    dsimp only at hs
    split at hs
    · split at hs
      · cases hs
      · rename_i hne
        cases hs
        exact hne
    · cases hs
      exact h.nonempty k l hl'
  · intro c hc
    have hm : (c.1, c.2) ∈ items (s.removeVictims victims).held := hcopies.mem_iff.mpr hc
    obtain ⟨l, hl, _⟩ := mem_items.mp hm
    rw [removeVictims_vary h, hl]
    rfl

/-- An overfull store gives up exactly what it must. -/
theorem change_evict {s : Store} (h : s.Sound) (hx : s.bytes - s.maxBytes.val ≤ 2 ^ 64 - 1) :
    ∃ victims kept, Change s s.evictDownToBudget victims [] kept ∧
      Eviction s.maxBytes.val s.copies s.evictDownToBudget.copies victims := by
  have hcounted := h.counted
  unfold evictDownToBudget
  dsimp only
  split
  · refine ⟨[], s.copies, ⟨.refl _, .refl _, rfl, h.sameKeys, h.nonempty, Or.inl ⟨rfl, Nat.le_refl _⟩, rfl,
      fun _ _ => rfl⟩, ⟨.refl _, List.Pairwise.nil, by simp, by omega, ?_⟩⟩
    intro older v he
    cases older <;> cases he
  · rename_i hover
    have hperm := sortBy_perm (compareOn fun c : Key × Held => c.2.used) (items s.held)
    have hsorted := candidates_pairwise h
    change (sortBy _ (items s.held)).Pairwise _ at hsorted
    generalize sortBy (compareOn fun c : Key × Held => c.2.used) (items s.held) = candidates at hperm hsorted ⊢
    obtain ⟨rest, hrest⟩ := selectVictims_split (s.bytes - s.maxBytes.val) 0 candidates
    have henough := selectVictims_enough hx 0 candidates (by
      rw [weigh_perm hperm]
      change s.bytes = weigh (items s.held) at hcounted
      omega)
    have hneeded := fun older v => @selectVictims_needed _ 0 hx (by omega) candidates older v
    generalize selectVictims (s.bytes - s.maxBytes.val) 0 candidates = victims at hrest henough hneeded ⊢
    subst hrest
    rw [List.pairwise_append] at hsorted
    have hsplit : s.copies.Perm (victims ++ rest) := hperm.symm
    have hcopies := removeVictims_copies h hsplit
    rw [weigh_perm hsplit, weigh_append] at hcounted
    refine ⟨victims, rest, change_removeVictims h hsplit, ⟨hsplit.trans (hcopies.symm.append_left _), hsorted.1, ?_, ?_, ?_⟩⟩
    · intro v hv c hc
      exact hsorted.2.2 v hv c (hcopies.mem_iff.mp hc)
    · rw [weigh_perm hcopies]
      omega
    · intro older v he
      have := hneeded older v he
      rw [he, weigh_append] at hcounted
      rw [weigh_perm hcopies]
      simp only [weigh, List.map_cons, List.map_nil, List.sum_cons, List.sum_nil] at hcounted this ⊢
      omega

/-- The newest copy stays when it fits on its own. -/
theorem Eviction.newest_stays {budget : Nat} {before after victims : List (Key × Held)}
    (he : Eviction budget before after victims) {c : Key × Held} (hc : c ∈ before)
    (hnew : ∀ d ∈ before, d.2.used ≤ c.2.used) (hw : c.2.weight ≤ budget) : c ∈ after := by
  obtain hv | ha := List.mem_append.mp (he.split.mem_iff.mp hc)
  · exfalso
    -- As a victim it would be the last one, with nothing left to keep.
    have hafter : after = [] := by
      rw [List.eq_nil_iff_forall_not_mem]
      intro d hd
      have := he.oldest c hv d hd
      have := hnew d (he.split.mem_iff.mpr (List.mem_append_right _ hd))
      omega
    obtain ⟨older, newer, hsplit⟩ := List.append_of_mem hv
    cases newer with
    | nil =>
      have := he.needed older c hsplit
      rw [hafter] at this
      simp only [weigh, List.map_nil, List.sum_nil] at this
      omega
    | cons d newer =>
      have hordered := he.ordered
      rw [hsplit, List.pairwise_append, List.pairwise_cons] at hordered
      have := hordered.2.1.1 d List.mem_cons_self
      have := hnew d (he.split.mem_iff.mpr (List.mem_append_left _ (by rw [hsplit]; simp)))
      omega
  · exact ha

theorem putGuarded_cases (s : Store) (revision : U64) (key : Key) (signature : String) (vary : List String)
    (entry : Entry) (onlyIfAbsent : Bool) :
    s.putGuarded revision key signature vary entry onlyIfAbsent = (false, s) ∨
      entry.weight key signature vary ≤ s.maxBytes.val ∧ s.revision = revision ∧ revision.val ≠ 2 ^ 64 - 1 ∧
        (onlyIfAbsent = true → s.occupied key signature vary = false) ∧
        s.putGuarded revision key signature vary entry onlyIfAbsent =
          (true, (s.deposit key signature vary entry).evictDownToBudget) := by
  unfold putGuarded
  split
  · exact Or.inl rfl
  · rename_i hw
    split
    · exact Or.inl rfl
    · rename_i hr
      split
      · exact Or.inl rfl
      · rename_i ho
        rw [not_or, not_not] at hr
        refine Or.inr ⟨by omega, hr.1, hr.2, ?_, rfl⟩
        intro hb
        simpa [hb] using ho

theorem weight_le (entry : Entry) (key : Key) (signature : String) (vary : List String) :
    entry.weight key signature vary ≤ 2 ^ 64 - 1 := Nat.min_le_right _ _

/-- What a put that stores does: its copy comes in, and the oldest go. -/
theorem put_stored {s : Store} (h : s.Sound) (hb : s.bytes ≤ s.maxBytes.val) (key : Key) (signature : String)
    (vary : List String) (entry : Entry) (hw : entry.weight key signature vary ≤ s.maxBytes.val) :
    ∃ victims kept,
      Change (s.deposit key signature vary entry) (s.deposit key signature vary entry).evictDownToBudget victims [] kept ∧
      Eviction s.maxBytes.val (s.deposit key signature vary entry).copies
        (s.deposit key signature vary entry).evictDownToBudget.copies victims ∧
      s.arrival key signature vary entry ∈ (s.deposit key signature vary entry).evictDownToBudget.copies := by
  obtain ⟨gone, kept, hc, _⟩ := change_deposit h key signature vary entry
  have hsound := h.change hc
  have hle := weight_le entry key signature vary
  have hbytes := hc.bytes
  simp only [weigh, arrival, List.map_cons, List.map_nil, List.sum_cons, List.sum_nil] at hbytes
  obtain ⟨victims, left, hchange, hevict⟩ := change_evict hsound (by rw [hc.budget]; omega)
  rw [hc.budget] at hevict
  refine ⟨victims, left, hchange, hevict, hevict.newest_stays ?_ ?_ hw⟩
  · exact hc.after.mem_iff.mpr List.mem_cons_self
  · intro d hd
    exact Nat.le_of_lt_succ (hsound.past d hd)

end Store

end Gatel.Cache
