import Mathlib

/-! Maps from keys to lists of items, and what a change under one key does to all
items together. -/

namespace KeyedMap

variable {κ ν α : Type}

abbrev Map (κ ν : Type) := AList fun _ : κ => ν

/-- Change or drop what every key holds. -/
def refine (f : κ → ν → Option ν) (m : Map κ ν) : Map κ ν where
  entries := m.entries.filterMap fun e => (f e.1 e.2).map (Sigma.mk e.1)
  nodupKeys := by
    rw [List.nodupKeys_iff_pairwise, List.pairwise_filterMap]
    refine (List.nodupKeys_iff_pairwise.mp m.nodupKeys).imp ?_
    intro a b hab x hx y hy
    obtain ⟨v, _, rfl⟩ := Option.map_eq_some_iff.mp hx
    obtain ⟨w, _, rfl⟩ := Option.map_eq_some_iff.mp hy
    exact hab

/-- `HashMap::retain` on the keys. -/
def retain (p : κ → Bool) (m : Map κ ν) : Map κ ν := refine (fun k v => if p k then some v else none) m

/-- All items, each with its key. -/
def items (m : Map κ (List α)) : List (κ × α) := m.entries.flatMap fun e => e.2.map (Prod.mk e.1)

/-- A change that filters what each key holds filters the items. -/
theorem items_refine {f : κ → List α → Option (List α)} {q : κ × α → Bool}
    (hf : ∀ k l, (f k l).getD [] = l.filter fun a => q (k, a)) (m : Map κ (List α)) :
    items (refine f m) = (items m).filter q := by
  have hall : ∀ es : List (Sigma fun _ : κ => List α),
      ((es.filterMap fun e => (f e.1 e.2).map (Sigma.mk (β := fun _ => List α) e.1)).flatMap fun e =>
        e.2.map (Prod.mk e.1)) = (es.flatMap fun e => e.2.map (Prod.mk e.1)).filter q := by
    intro es
    induction es with
    | nil => rfl
    | cons e es ih =>
      have he := hf e.1 e.2
      rw [List.flatMap_cons, List.filter_append, ← ih, List.filter_map]
      cases hfe : f e.1 e.2 with
      | none =>
        rw [hfe] at he
        have hnil : e.2.filter (q ∘ Prod.mk e.1) = [] := he.symm
        simp [hfe, hnil]
      | some l =>
        rw [hfe] at he
        have hl : e.2.filter (q ∘ Prod.mk e.1) = l := he.symm
        simp [hfe, hl]
  exact hall m.entries

theorem items_retain (p : κ → Bool) (m : Map κ (List α)) : items (retain p m) = (items m).filter fun x => p x.1 := by
  refine items_refine ?_ m
  intro k l
  cases hp : p k <;> simp [hp]

/-- Change the first item that satisfies `p`. -/
@[grind =] def modifyFirst (p : α → Bool) (f : α → α) : List α → List α
  | [] => []
  | a :: l => if p a then f a :: l else a :: modifyFirst p f l

theorem modifyFirst_split {p : α → Bool} {l : List α} {a : α} (h : l.find? p = some a) :
    ∃ pre post, l = pre ++ a :: post ∧ ∀ f, modifyFirst p f l = pre ++ f a :: post := by
  induction l with
  | nil => cases h
  | cons b l ih =>
    rw [List.find?_cons] at h
    split at h
    · rename_i hb
      cases h
      exact ⟨[], l, rfl, fun f => by simp [modifyFirst, hb]⟩
    · rename_i hb
      obtain ⟨pre, post, he, hf⟩ := ih h
      exact ⟨b :: pre, post, by rw [he]; rfl, fun f => by simp [modifyFirst, hb, hf]⟩

theorem modifyFirst_none {p : α → Bool} {l : List α} (h : l.find? p = none) (f : α → α) : modifyFirst p f l = l := by
  induction l with
  | nil => rfl
  | cons b l ih =>
    rw [List.find?_cons] at h
    split at h
    · cases h
    · rename_i hb
      simp [modifyFirst, hb, ih h]

variable [DecidableEq κ]

theorem lookup_refine (f : κ → ν → Option ν) (m : Map κ ν) (k : κ) :
    (refine f m).lookup k = (m.lookup k).bind (f k) := by
  apply Option.ext
  intro v
  have hl : (refine f m).lookup k = some v ↔ Sigma.mk k v ∈ (refine f m).entries := AList.mem_lookup_iff
  rw [Option.bind_eq_some_iff, hl]
  simp only [refine, List.mem_filterMap, Option.map_eq_some_iff]
  constructor
  · rintro ⟨⟨k', w⟩, hm, v', hf, he⟩
    cases he
    exact ⟨w, AList.mem_lookup_iff.mpr hm, hf⟩
  · rintro ⟨w, hw, hf⟩
    exact ⟨⟨k, w⟩, AList.mem_lookup_iff.mp hw, v, hf, rfl⟩

theorem lookup_retain (p : κ → Bool) (m : Map κ ν) (k : κ) :
    (retain p m).lookup k = if p k then m.lookup k else none := by
  rw [retain, lookup_refine]
  cases m.lookup k <;> cases p k <;> rfl

theorem mem_items {m : Map κ (List α)} {k : κ} {a : α} :
    (k, a) ∈ items m ↔ ∃ l, m.lookup k = some l ∧ a ∈ l := by
  simp only [items, List.mem_flatMap, List.mem_map, Prod.mk.injEq]
  constructor
  · rintro ⟨⟨k', l⟩, he, a', ha, rfl, rfl⟩
    exact ⟨l, AList.mem_lookup_iff.mpr he, ha⟩
  · rintro ⟨l, hl, ha⟩
    exact ⟨⟨k, l⟩, AList.mem_lookup_iff.mp hl, a, ha, rfl, rfl⟩

theorem entries_perm {m : Map κ ν} {k : κ} {v : ν} (h : m.lookup k = some v) :
    m.entries.Perm (⟨k, v⟩ :: (m.erase k).entries) := by
  have hi : ((m.erase k).insert k v).entries = ⟨k, v⟩ :: (m.erase k).entries :=
    AList.entries_insert_of_notMem (by simp)
  rw [← hi]
  refine List.lookup_ext m.nodupKeys (AList.nodupKeys _) ?_
  intro x y
  change y ∈ m.lookup x ↔ y ∈ ((m.erase k).insert k v).lookup x
  by_cases hx : x = k
  · subst hx
    rw [h, AList.lookup_insert]
  · rw [AList.lookup_insert_ne hx, AList.lookup_erase_ne hx]

/-- The items of one key, and the rest. -/
theorem items_perm {m : Map κ (List α)} {k : κ} {l : List α} (h : m.lookup k = some l) :
    (items m).Perm (l.map (Prod.mk k) ++ items (m.erase k)) :=
  (entries_perm h).flatMap_right _

theorem items_erase {m : Map κ (List α)} {k : κ} (h : m.lookup k = none) : (items m).Perm (items (m.erase k)) := by
  have hk : k ∉ m := AList.lookup_eq_none.mp h
  refine (List.Perm.of_eq ?_)
  have he : (m.erase k).entries = m.entries := List.kerase_of_notMem_keys hk
  rw [items, items, he]

theorem items_insert (m : Map κ (List α)) (k : κ) (l : List α) :
    (items (m.insert k l)).Perm (l.map (Prod.mk k) ++ items (m.erase k)) := by
  rw [items, AList.entries_insert]
  exact .refl _

theorem key_ne_of_mem_erase {m : Map κ (List α)} {k : κ} {x : κ × α} (h : x ∈ items (m.erase k)) : x.1 ≠ k := by
  obtain ⟨k', a⟩ := x
  obtain ⟨l, hl, _⟩ := mem_items.1 h
  intro he
  rw [show k' = k from he, AList.lookup_erase] at hl
  cases hl

end KeyedMap
