import Mathlib

namespace KeepFirst

variable {α κ γ : Type} [DecidableEq κ] (key : α → κ)

/-- A declaration is always recorded; an offer only when its key is new. -/
inductive Event (α : Type) where
  | declare (x : α)
  | offer (x : α)

/-- Record an offer unless an element of its key is there already. -/
def offer (acc : List α) (x : α) : List α :=
  if acc.any (fun a => key a = key x) then acc else acc ++ [x]

@[grind =] def record (acc : List α) : Event α → List α
  | .declare x => acc ++ [x]
  | .offer x => offer key acc x

def declared (events : List (Event α)) : List α :=
  events.filterMap fun
    | .declare x => some x
    | .offer _ => none

def offered (events : List (Event α)) : List α :=
  events.filterMap fun
    | .declare _ => none
    | .offer x => some x

/-- The first element of every key outside `seen`. -/
@[grind =] def kept : Finset κ → List α → List α
  | _, [] => []
  | seen, x :: l => if key x ∈ seen then kept seen l else x :: kept (insert (key x) seen) l

variable {key}

theorem record_append (events : List (Event α)) (acc : List α) :
    ∃ more, events.foldl (record key) acc = acc ++ more := by
  induction events generalizing acc with
  | nil => exact ⟨[], (List.append_nil acc).symm⟩
  | cons e events ih =>
    obtain ⟨more, hm⟩ := ih (record key acc e)
    rw [List.foldl_cons, hm]
    cases e with
    | declare x => exact ⟨x :: more, by simp [record]⟩
    | offer x =>
      simp only [record, offer]
      split
      · exact ⟨more, rfl⟩
      · exact ⟨x :: more, by simp⟩

theorem mem_record {events : List (Event α)} {acc : List α} {x : α} (h : x ∈ events.foldl (record key) acc) :
    x ∈ acc ∨ x ∈ declared events ∨ x ∈ offered events := by
  induction events generalizing acc with
  | nil => exact Or.inl h
  | cons e events ih =>
    rw [List.foldl_cons] at h
    have hi := ih h
    cases e with
    | declare y =>
      have hacc : x ∈ record key acc (.declare y) → x ∈ acc ∨ x = y := by simp [record]
      obtain hr | hr | hr := hi
      · obtain hr | rfl := hacc hr
        · exact Or.inl hr
        · exact Or.inr (Or.inl List.mem_cons_self)
      · exact Or.inr (Or.inl (List.mem_cons_of_mem y hr))
      · exact Or.inr (Or.inr hr)
    | offer y =>
      have hacc : x ∈ record key acc (.offer y) → x ∈ acc ∨ x = y := by
        simp only [record, offer]
        split
        · exact Or.inl
        · simp
      obtain hr | hr | hr := hi
      · obtain hr | rfl := hacc hr
        · exact Or.inl hr
        · exact Or.inr (Or.inr List.mem_cons_self)
      · exact Or.inr (Or.inl hr)
      · exact Or.inr (Or.inr (List.mem_cons_of_mem y hr))

/-- Whatever was offered, its key is there afterwards. -/
theorem key_of_offered {events : List (Event α)} {x : α} (hx : x ∈ offered events) (acc : List α) :
    ∃ a ∈ events.foldl (record key) acc, key a = key x := by
  induction events generalizing acc with
  | nil => cases hx
  | cons e events ih =>
    rw [List.foldl_cons]
    cases e with
    | declare y => exact ih hx _
    | offer y =>
      have hcons : offered (.offer y :: events) = y :: offered events := rfl
      rw [hcons, List.mem_cons] at hx
      obtain rfl | hx := hx
      · obtain ⟨more, hm⟩ := @record_append α κ _ key events (record key acc (.offer x))
        have hthere : ∃ a ∈ record key acc (.offer x), key a = key x := by
          simp only [record, offer]
          split
          · rename_i hany
            simpa using hany
          · exact ⟨x, by simp, rfl⟩
        obtain ⟨a, ha, he⟩ := hthere
        exact ⟨a, by rw [hm]; exact List.mem_append_left _ ha, he⟩
      · exact ih hx _

/-- When no offer shares a key with a declaration, what is recorded is the
declarations and the first offer of every key that was not there before. -/
theorem record_perm (events : List (Event α)) (acc : List α) (seen : Finset κ)
    (hs : ∀ x ∈ offered events, (∃ a ∈ acc, key a = key x) ↔ key x ∈ seen)
    (hc : ∀ d ∈ declared events, ∀ x ∈ offered events, key d ≠ key x) :
    (events.foldl (record key) acc).Perm
      (acc ++ declared events ++ kept key seen (offered events)) := by
  induction events generalizing acc seen with
  | nil => simp [declared, offered, kept]
  | cons e events ih =>
    cases e with
    | declare d =>
      have hrest := ih (acc ++ [d]) seen
        (by
          intro x hx
          rw [← hs x hx]
          have hne := hc d (by simp [declared]) x hx
          simp [hne])
        (fun d' hd' x hx => hc d' (by simp only [declared] at hd' ⊢; simp [hd']) x hx)
      simpa [record, declared, offered] using hrest
    | offer x =>
      have hoff : offered (Event.offer x :: events) = x :: offered events := by simp [offered]
      have hdec : declared (Event.offer x :: events) = declared events := by simp [declared]
      rw [hoff, hdec] at hc
      rw [hoff] at hs
      rw [hoff, hdec, List.foldl_cons]
      have hany : (acc.any fun a => key a = key x) = true ↔ key x ∈ seen := by
        rw [← hs x List.mem_cons_self]
        simp
      by_cases hk : key x ∈ seen
      · have hstep : record key acc (.offer x) = acc := by simp [record, offer, hany.mpr hk]
        rw [hstep, kept, if_pos hk]
        exact ih acc seen (fun y hy => hs y (List.mem_cons_of_mem x hy))
          (fun d hd y hy => hc d hd y (List.mem_cons_of_mem x hy))
      · have hstep : record key acc (.offer x) = acc ++ [x] := by
          rw [record, offer, if_neg (fun h => hk (hany.mp h))]
        rw [hstep, kept, if_neg hk]
        have hrest := ih (acc ++ [x]) (insert (key x) seen)
          (by
            intro y hy
            have := hs y (List.mem_cons_of_mem x hy)
            simp only [List.mem_append, List.mem_singleton, Finset.mem_insert, ← this]
            constructor
            · rintro ⟨a, ha | rfl, he⟩
              · exact Or.inr ⟨a, ha, he⟩
              · exact Or.inl he.symm
            · rintro (he | ⟨a, ha, he⟩)
              · exact ⟨x, Or.inr rfl, he.symm⟩
              · exact ⟨a, Or.inl ha, he⟩)
          (fun d hd y hy => hc d hd y (List.mem_cons_of_mem x hy))
        refine hrest.trans ?_
        simp only [List.append_assoc, List.cons_append, List.nil_append]
        exact (List.perm_middle.symm).append_left acc

/-- Offers that agree up to `core` whenever their keys do are kept alike in every
order. -/
theorem kept_map_perm {core : α → γ} {l l' : List α} (hp : l.Perm l') (seen : Finset κ)
    (hk : ∀ x ∈ l, ∀ y ∈ l, key x = key y → core x = core y) :
    ((kept key seen l).map core).Perm ((kept key seen l').map core) := by
  induction hp generalizing seen with
  | nil => exact .refl _
  | @cons x l l' _ ih =>
    have hk' : ∀ y ∈ l, ∀ z ∈ l, key y = key z → core y = core z := fun y hy z hz =>
      hk y (List.mem_cons_of_mem x hy) z (List.mem_cons_of_mem x hz)
    by_cases hx : key x ∈ seen
    · simpa [kept, hx] using ih seen hk'
    · simpa [kept, hx] using ih (insert (key x) seen) hk'
  | swap x y l =>
    have hxy := hk y List.mem_cons_self x (List.mem_cons_of_mem y List.mem_cons_self)
    by_cases hx : key x ∈ seen
    · by_cases hy : key y ∈ seen
      · simp [kept, hx, hy]
      · simp [kept, hx, hy]
    · by_cases hy : key y ∈ seen
      · simp [kept, hx, hy]
      · by_cases he : key y = key x
        · simp [kept, hx, he, hxy he]
        · simp only [kept, hx, hy, he, Ne.symm he, Finset.mem_insert, or_self, ↓reduceIte,
            List.map_cons, Finset.insert_comm (key x) (key y) seen]
          exact List.Perm.swap _ _ _
  | @trans l₁ l₂ l₃ h₁ _ ih₁ ih₂ =>
    refine (ih₁ seen hk).trans (ih₂ seen ?_)
    intro x hx y hy
    exact hk x (h₁.mem_iff.mpr hx) y (h₁.mem_iff.mpr hy)

/-- One batch of events in two orders, recorded over accumulators that agree up to
`core`. -/
theorem record_core_perm {core : α → γ} (hcore : ∀ x y, core x = core y → key x = key y)
    {events events' : List (Event α)} {acc acc' : List α}
    (hacc : (acc.map core).Perm (acc'.map core))
    (hd : ((declared events).map core).Perm ((declared events').map core))
    (ho : (offered events).Perm (offered events'))
    (hc : ∀ d ∈ declared events, ∀ x ∈ offered events, key d ≠ key x)
    (hk : ∀ x ∈ offered events, ∀ y ∈ offered events, key x = key y → core x = core y) :
    ((events.foldl (record key) acc).map core).Perm ((events'.foldl (record key) acc').map core) := by
  have hmem : ∀ {l l' : List α}, (l.map core).Perm (l'.map core) → ∀ x ∈ l', ∃ y ∈ l, core y = core x := by
    intro l l' h x hx
    obtain ⟨y, hy, he⟩ := List.mem_map.mp (h.mem_iff.mpr (List.mem_map_of_mem hx))
    exact ⟨y, hy, he⟩
  have hseen : ∀ x : α, (∃ a ∈ acc', key a = key x) ↔ key x ∈ (acc.map key).toFinset := by
    intro x
    simp only [List.mem_toFinset, List.mem_map]
    constructor
    · intro ⟨a, ha, he⟩
      obtain ⟨b, hb, hbe⟩ := hmem hacc a ha
      exact ⟨b, hb, (hcore b a hbe).trans he⟩
    · intro ⟨a, ha, he⟩
      obtain ⟨b, hb, hbe⟩ := hmem hacc.symm a ha
      exact ⟨b, hb, (hcore b a hbe).trans he⟩
  have h := record_perm events acc (acc.map key).toFinset
    (by intro x _; simp) hc
  have h' := record_perm events' acc' (acc.map key).toFinset
    (fun x _ => hseen x)
    (by
      intro d hd' x hx he
      obtain ⟨b, hb, hbe⟩ := hmem hd d hd'
      exact hc b hb x (ho.mem_iff.mpr hx) ((hcore b d hbe).trans he))
  refine (h.map core).trans (List.Perm.trans ?_ (h'.map core).symm)
  simp only [List.map_append]
  exact ((hacc.append hd).append (kept_map_perm ho _ hk))

end KeepFirst
