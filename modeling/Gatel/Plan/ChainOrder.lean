import Gatel.Lib.GreedyOrder
import Gatel.Plan.Reorder

namespace Gatel
open CanonicalSort (sortBy)
open GreedyOrder (Cyclic Edge LexLE Respects free greedy)

/-- One middleware names another to run before, is of an earlier phase of the same scope,
has an effect that must precede one of the other's, or guards what the other may answer
from a cache. -/
def Precedes (a b : DirectiveInstance) : Prop :=
  b.metadata.name ∈ a.metadata.before ∨
  (a.scope = b.scope ∧ a.metadata.role.phaseOrder < b.metadata.role.phaseOrder) ∨
  (∃ left ∈ a.metadata.effects, ∃ right ∈ b.metadata.effects, left.mustPrecede right = true) ∨
  (a.metadata.role.phase = some .guard ∧ .cacheLookup ∈ b.metadata.effects)

theorem mustRunBefore_iff {a b : DirectiveInstance} : mustRunBefore a b = true ↔ Precedes a b := by
  simp [mustRunBefore, Precedes, or_assoc]

instance : DecidableRel Precedes := fun _ _ => decidable_of_iff _ mustRunBefore_iff

/-- Names one instance has against another of its chain. -/
def Conflict (chain : List DirectiveInstance) : Prop :=
  ∃ a ∈ chain, ∃ b ∈ chain, a ≠ b ∧ b.metadata.name ∈ a.metadata.conflicts

section
variable {chain : List DirectiveInstance}

/-- The directives that are not picked yet, by position. -/
def unpicked (chain : List DirectiveInstance) (selected : List Bool) : List Nat :=
  (List.range chain.length).filter fun j => !selected.getD j false

def waiting (chain : List DirectiveInstance) (selected : List Bool) : List DirectiveInstance :=
  (unpicked chain selected).filterMap fun j => chain[j]?

def edgeAt (chain : List DirectiveInstance) (i j : Nat) : Bool := ((chainEdges chain).getD i []).getD j false

/-- The counter of a directive counts what it still waits for. -/
structure Counted (chain : List DirectiveInstance) (selected : List Bool) (incoming : List Nat) : Prop where
  flags : selected.length = chain.length
  length : incoming.length = chain.length
  counts : ∀ j < chain.length,
    incoming.getD j 0 = (unpicked chain selected).countP fun i => edgeAt chain i j

theorem edgeAt_eq {i j : Nat} {a b : DirectiveInstance} (hi : chain[i]? = some a) (hj : chain[j]? = some b) :
    edgeAt chain i j = (i != j && mustRunBefore a b) := by
  simp [edgeAt, chainEdges, List.getD_eq_getElem?_getD, hi, hj]

theorem mem_unpicked {selected : List Bool} {j : Nat} :
    j ∈ unpicked chain selected ↔ j < chain.length ∧ selected.getD j false = false := by
  simp [unpicked]

theorem mem_waiting {selected : List Bool} {a : DirectiveInstance} :
    a ∈ waiting chain selected ↔ ∃ j ∈ unpicked chain selected, chain[j]? = some a := by
  simp [waiting]

theorem unpicked_set {selected : List Bool} {next : Nat} (hl : selected.length = chain.length)
    (h : next ∈ unpicked chain selected) :
    unpicked chain (selected.set next true) = (unpicked chain selected).erase next := by
  have hlt : next < selected.length := by
    rw [hl]
    exact (mem_unpicked.1 h).1
  unfold unpicked
  rw [List.Nodup.erase_eq_filter (List.nodup_range.filter _), List.filter_filter]
  apply List.filter_congr
  intro j _
  by_cases hj : j = next
  · subst hj
    simp [List.getD_eq_getElem?_getD, List.getElem?_set_self hlt]
  · have hne : next ≠ j := fun h => hj h.symm
    simp [List.getD_eq_getElem?_getD, List.getElem?_set_ne hne, hj]

theorem Counted.step {selected : List Bool} {incoming : List Nat} {next : Nat}
    (h : Counted chain selected incoming) (hn : next ∈ unpicked chain selected) :
    Counted chain (selected.set next true)
      (incoming.mapIdx fun j count => count - (((chainEdges chain).getD next []).getD j false).toNat) := by
  refine ⟨by rw [List.length_set, h.flags], by rw [List.length_mapIdx, h.length], ?_⟩
  intro j hj
  have hcount := h.counts j hj
  have hin : j < incoming.length := by rw [h.length]; exact hj
  rw [unpicked_set h.flags hn, List.countP_erase, ← hcount]
  simp only [List.getD_eq_getElem?_getD, List.getElem?_mapIdx, List.getElem?_eq_getElem hin,
    Option.map_some, Option.getD_some, hn, true_and]
  cases he : edgeAt chain next j with
  | true =>
    rw [edgeAt, List.getD_eq_getElem?_getD, List.getD_eq_getElem?_getD] at he
    simp [he]
  | false =>
    rw [edgeAt, List.getD_eq_getElem?_getD, List.getD_eq_getElem?_getD] at he
    simp [he]

/-- No counter is decremented below zero. -/
theorem Counted.enough {selected : List Bool} {incoming : List Nat} {next : Nat}
    (h : Counted chain selected incoming) (hn : next ∈ unpicked chain selected) {j : Nat}
    (hj : j < chain.length) : (edgeAt chain next j).toNat ≤ incoming.getD j 0 := by
  rw [h.counts j hj]
  cases he : edgeAt chain next j with
  | false => exact Nat.zero_le _
  | true => exact List.countP_pos_iff.mpr ⟨next, hn, he⟩

theorem unpicked_start : unpicked chain (chain.map fun _ => false) = List.range chain.length := by
  apply List.filter_eq_self.mpr
  intro j hj
  simp [List.getD_eq_getElem?_getD]

theorem counted_start : Counted chain (chain.map fun _ => false)
    (incomingCounts (chainEdges chain) chain.length) := by
  refine ⟨List.length_map _, by simp [incomingCounts], ?_⟩
  intro j hj
  -- the rows of the matrix, by their index
  have hrows : chainEdges chain = (List.range chain.length).map fun i => (chainEdges chain).getD i [] := by
    apply List.ext_getElem
    · simp [chainEdges]
    · intro i h₁ h₂
      rw [List.getElem_map, List.getElem_range, List.getD_eq_getElem?_getD, List.getElem?_eq_getElem h₁]
      rfl
  have hget : (incomingCounts (chainEdges chain) chain.length).getD j 0 =
      (chainEdges chain).countP fun row => row.getD j false := by
    rw [incomingCounts, List.getD_eq_getElem?_getD, List.getElem?_map, List.getElem?_range hj,
      Option.map_some, Option.getD_some, List.countP_eq_length_filter]
  rw [hget, unpicked_start]
  nth_rewrite 1 [hrows]
  rw [List.countP_map]
  rfl

section
variable {edges : List (List Bool)} {selected : List Bool} {incoming : List Nat} (rounds : Nat)
  (result : List DirectiveInstance)

/-- A round without a candidate ends in the error. -/
theorem pickLoop_stuck (hf : (unpicked chain selected).find? (fun j => incoming.getD j 0 == 0) = none) :
    ∃ ds, pickLoop chain edges (rounds + 1) selected incoming result = .error ds ∧
      Diagnostics.hasErrors ds = true := by
  unfold unpicked at hf
  rw [pickLoop, hf]
  exact ⟨_, rfl, rfl⟩

theorem pickLoop_pick {next : Nat} {a : DirectiveInstance}
    (hf : (unpicked chain selected).find? (fun j => incoming.getD j 0 == 0) = some next)
    (ha : chain[next]? = some a) :
    pickLoop chain edges (rounds + 1) selected incoming result =
      pickLoop chain edges rounds (selected.set next true)
        (incoming.mapIdx fun j count => count - ((edges.getD next []).getD j false).toNat)
        (result ++ [a]) := by
  unfold unpicked at hf
  rw [pickLoop, hf]
  simp only [ha]

end

section
variable {selected : List Bool} {incoming : List Nat} (hnd : chain.Nodup)
include hnd

theorem index_inj {i j : Nat} {a : DirectiveInstance} (hi : chain[i]? = some a) (hj : chain[j]? = some a) :
    i = j := by
  obtain ⟨hil, hia⟩ := List.getElem?_eq_some_iff.mp hi
  obtain ⟨hjl, hja⟩ := List.getElem?_eq_some_iff.mp hj
  exact (hnd.getElem_inj_iff).mp (hia.trans hja.symm)

theorem nodup_waiting : (waiting chain selected).Nodup := by
  apply List.Nodup.filterMap
  · intro i j a hi hj
    exact index_inj hnd hi hj
  · exact List.nodup_range.filter _

/-- A directive's counter is at zero exactly when nothing unpicked has to precede it. -/
theorem Counted.zero_iff (h : Counted chain selected incoming) {j : Nat} {a : DirectiveInstance}
    (ha : chain[j]? = some a) :
    (incoming.getD j 0 == 0) = free Precedes (waiting chain selected) a := by
  have hj : j < chain.length := (List.getElem?_eq_some_iff.mp ha).1
  rw [Bool.eq_iff_iff, GreedyOrder.free_iff, h.counts j hj, beq_iff_eq, List.countP_eq_zero]
  constructor
  · intro hno b hb hne
    obtain ⟨i, hi, hib⟩ := mem_waiting.1 hb
    have hij : i ≠ j := by
      rintro rfl
      exact hne (Option.some.inj (hib.symm.trans ha))
    have hedge := hno i hi
    rw [edgeAt_eq hib ha] at hedge
    rw [← mustRunBefore_iff]
    intro hbefore
    exact hedge (by simp [hij, hbefore])
  · intro hfree i hi hedge
    have hil := (mem_unpicked.1 hi).1
    have hib := List.getElem?_eq_getElem hil
    rw [edgeAt_eq hib ha, Bool.and_eq_true, bne_iff_ne] at hedge
    refine hfree _ (mem_waiting.2 ⟨i, hi, hib⟩) ?_ (mustRunBefore_iff.1 hedge.2)
    intro he
    rw [he] at hib
    exact hedge.1 (index_inj hnd hib ha)

theorem waiting_set (hl : selected.length = chain.length) {next : Nat}
    (hn : next ∈ unpicked chain selected) {a : DirectiveInstance} (ha : chain[next]? = some a) :
    waiting chain (selected.set next true) = (waiting chain selected).erase a := by
  have hu : (unpicked chain selected).Nodup := List.nodup_range.filter _
  rw [(nodup_waiting hnd).erase_eq_filter, waiting, unpicked_set hl hn, hu.erase_eq_filter, waiting,
    List.filter_filterMap, List.filterMap_filter]
  apply List.filterMap_congr
  intro j _
  by_cases hj : j = next
  · subst hj
    simp [ha, Option.filter]
  · have hne : ∀ b, chain[j]? = some b → b ≠ a := by
      rintro b hb rfl
      exact hj (index_inj hnd hb ha)
    cases hb : chain[j]? with
    | none => simp [hj]
    | some b => simp [hj, Option.filter, hne b hb]

/-- The next pick of the loop is the first free directive that waits. -/
theorem find_unpicked (h : Counted chain selected incoming) :
    (waiting chain selected).find? (free Precedes (waiting chain selected)) =
      ((unpicked chain selected).find? fun j => incoming.getD j 0 == 0).bind fun j => chain[j]? := by
  have hcongr : (unpicked chain selected).find? (fun j => incoming.getD j 0 == 0) =
      (unpicked chain selected).find? fun j =>
        (chain[j]?).any (free Precedes (waiting chain selected)) := by
    apply List.find?_congr
    intro j hj
    have ha := List.getElem?_eq_getElem (mem_unpicked.1 hj).1
    rw [h.zero_iff hnd ha, ha]
    rfl
  rw [hcongr]
  nth_rewrite 1 [waiting]
  exact List.find?_filterMap

/-- The loop with its counters takes the first free directive, again and again. -/
theorem pickLoop_greedy (rounds : Nat) (h : Counted chain selected incoming)
    (hr : (unpicked chain selected).length = rounds) (result : List DirectiveInstance) :
    match greedy Precedes rounds (waiting chain selected) with
    | some tail => pickLoop chain (chainEdges chain) rounds selected incoming result = .ok (result ++ tail)
    | none => ∃ ds, pickLoop chain (chainEdges chain) rounds selected incoming result = .error ds ∧
        Diagnostics.hasErrors ds = true := by
  induction rounds generalizing selected incoming result with
  | zero => simp [greedy, pickLoop]
  | succ rounds ih =>
    have hfind := find_unpicked hnd h
    cases hf : (unpicked chain selected).find? fun j => incoming.getD j 0 == 0 with
    | none =>
      rw [hf, Option.bind_none] at hfind
      rw [greedy, hfind]
      exact pickLoop_stuck rounds result hf
    | some next =>
      have hn := List.mem_of_find?_eq_some hf
      obtain ⟨a, ha⟩ : ∃ a, chain[next]? = some a :=
        ⟨_, List.getElem?_eq_getElem (mem_unpicked.1 hn).1⟩
      rw [hf, Option.bind_some, ha] at hfind
      rw [greedy, hfind, pickLoop_pick rounds result hf ha]
      have hl : (unpicked chain (selected.set next true)).length = rounds := by
        rw [unpicked_set h.flags hn, List.length_erase_of_mem hn, hr]
        rfl
      have hrest := ih (h.step hn) hl (result ++ [a])
      rw [waiting_set hnd h.flags hn ha] at hrest
      cases hg : greedy Precedes rounds ((waiting chain selected).erase a) with
      | none =>
        simp only [hg, Option.map_none] at hrest ⊢
        exact hrest
      | some tail =>
        simp only [hg, Option.map_some, List.append_assoc, List.singleton_append] at hrest ⊢
        exact hrest

end

/-- Sort keys that are all different. -/
def DistinctKeys (chain : List DirectiveInstance) : Prop :=
  chain.Pairwise fun a b => DirectiveInstance.compareKey a b ≠ .eq

theorem DistinctKeys.eq_of_key (h : DistinctKeys chain) {a b : DirectiveInstance} (ha : a ∈ chain)
    (hb : b ∈ chain) (hk : DirectiveInstance.compareKey a b = .eq) : a = b := by
  by_contra hne
  have hsymm : Std.Symm fun a b : DirectiveInstance => DirectiveInstance.compareKey a b ≠ .eq :=
    ⟨fun a b hab hba => hab (Std.OrientedCmp.eq_symm hba)⟩
  exact h.forall ha hb hne hk

theorem DistinctKeys.nodup (h : DistinctKeys chain) : chain.Nodup := by
  refine h.imp ?_
  rintro a b hab rfl
  exact hab Std.ReflCmp.compare_self

theorem DistinctKeys.sorted (h : DistinctKeys chain) :
    (sortBy DirectiveInstance.compareKey chain).Pairwise fun a b =>
      DirectiveInstance.compareKey a b = .lt := by
  have hle := @CanonicalSort.sortBy_pairwise _ DirectiveInstance.compareKey _ chain
  have hperm := CanonicalSort.sortBy_perm DirectiveInstance.compareKey chain
  have hnd := hperm.nodup_iff.mpr h.nodup
  refine (hle.and (List.nodup_iff_pairwise_ne.mp hnd)).imp_of_mem ?_
  intro a b ha hb hab
  cases hk : DirectiveInstance.compareKey a b with
  | lt => rfl
  | eq => exact absurd (h.eq_of_key (hperm.mem_iff.mp ha) (hperm.mem_iff.mp hb) hk) hab.2
  | gt =>
    rw [hk] at hab
    cases hab.1

theorem hasErrors_flatten_mapIdx {f : Nat → DirectiveInstance → Diagnostics} :
    Diagnostics.hasErrors (chain.mapIdx f).flatten = true ↔
      ∃ (i : Nat) (a : DirectiveInstance), chain[i]? = some a ∧ Diagnostics.hasErrors (f i a) = true := by
  simp only [Diagnostics.hasErrors, List.any_flatten, List.any_eq_true, List.mem_mapIdx]
  constructor
  · rintro ⟨ds, ⟨i, hi, rfl⟩, hd⟩
    exact ⟨i, _, List.getElem?_eq_getElem hi, hd⟩
  · rintro ⟨i, a, ha, hd⟩
    obtain ⟨hi, rfl⟩ := List.getElem?_eq_some_iff.mp ha
    exact ⟨_, ⟨i, hi, rfl⟩, hd⟩

theorem conflicts_iff (hnd : chain.Nodup) :
    Diagnostics.hasErrors (chainConflicts chain) = true ↔ Conflict chain := by
  unfold chainConflicts
  simp only [hasErrors_flatten_mapIdx]
  constructor
  · rintro ⟨i, a, ha, j, b, hb, hd⟩
    split at hd
    · rename_i hc
      rw [Bool.and_eq_true, bne_iff_ne] at hc
      refine ⟨a, List.mem_of_getElem? ha, b, List.mem_of_getElem? hb, ?_, by simpa using hc.2⟩
      rintro rfl
      exact hc.1 (index_inj hnd ha hb)
    · cases hd
  · rintro ⟨a, ha, b, hb, hne, hc⟩
    obtain ⟨i, hi⟩ := List.mem_iff_getElem?.mp ha
    obtain ⟨j, hj⟩ := List.mem_iff_getElem?.mp hb
    have hij : i ≠ j := by
      rintro rfl
      exact hne (Option.some.inj (hi.symm.trans hj))
    refine ⟨i, a, hi, j, b, hj, ?_⟩
    rw [if_pos (by simp [hij, hc])]
    rfl

theorem waiting_start : waiting chain (chain.map fun _ => false) = chain := by
  rw [waiting, unpicked_start]
  nth_rewrite 3 [← List.map_getElem_finRange chain]
  rw [← List.map_coe_finRange_eq_range, List.filterMap_map, ← List.filterMap_eq_map]
  apply List.filterMap_congr
  intro i _
  simp

/-- What the composition of a chain is: the greedy order of its sorted directives. -/
theorem orderChain_greedy (h : DistinctKeys chain) :
    let sorted := sortBy DirectiveInstance.compareKey chain
    (Conflict chain → ∃ ds, orderChain chain = .error ds ∧ Diagnostics.hasErrors ds = true) ∧
    (¬ Conflict chain → match greedy Precedes sorted.length sorted with
      | some result => orderChain chain = .ok result
      | none => ∃ ds, orderChain chain = .error ds ∧ Diagnostics.hasErrors ds = true) := by
  intro sorted
  have hperm : sorted.Perm chain := CanonicalSort.sortBy_perm DirectiveInstance.compareKey chain
  have hnd : sorted.Nodup := hperm.nodup_iff.mpr h.nodup
  have hconflict : Diagnostics.hasErrors (chainConflicts sorted) = true ↔ Conflict chain := by
    rw [conflicts_iff hnd]
    simp only [Conflict, hperm.mem_iff]
  constructor
  · intro hc
    have he := hconflict.mpr hc
    exact ⟨chainConflicts sorted, by rw [orderChain, if_pos he], he⟩
  · intro hc
    have he : ¬ Diagnostics.hasErrors (chainConflicts sorted) = true := fun he => hc (hconflict.mp he)
    have hloop : orderChain chain = pickLoop sorted (chainEdges sorted) sorted.length
        (sorted.map fun _ => false) (incomingCounts (chainEdges sorted) sorted.length) [] := by
      rw [orderChain, if_neg he]
    have hgreedy := pickLoop_greedy hnd sorted.length counted_start
      (by rw [unpicked_start, List.length_range]) []
    rw [waiting_start] at hgreedy
    rw [hloop]
    exact hgreedy

/-- Composition fails on a conflict and on a cycle, and on nothing else. -/
theorem orderChain_error_iff (h : DistinctKeys chain) :
    (∃ ds, orderChain chain = .error ds) ↔ Conflict chain ∨ Cyclic Precedes chain := by
  obtain ⟨hconflict, hgreedy⟩ := orderChain_greedy h
  have hperm := CanonicalSort.sortBy_perm DirectiveInstance.compareKey chain
  have hnone := @GreedyOrder.greedy_eq_none _ _ Precedes _ _ _ (hperm.nodup_iff.mpr h.nodup) rfl
  have hcyclic : Cyclic Precedes (sortBy DirectiveInstance.compareKey chain) ↔ Cyclic Precedes chain :=
    ⟨fun hc => hc.mono fun x hx => hperm.mem_iff.mp hx, fun hc => hc.mono fun x hx => hperm.mem_iff.mpr hx⟩
  by_cases hc : Conflict chain
  · obtain ⟨ds, hds, -⟩ := hconflict hc
    exact ⟨fun _ => .inl hc, fun _ => ⟨ds, hds⟩⟩
  · have hmatch := hgreedy hc
    rw [← hcyclic, ← hnone]
    cases hg : greedy Precedes (sortBy DirectiveInstance.compareKey chain).length
        (sortBy DirectiveInstance.compareKey chain) with
    | none =>
      rw [hg] at hmatch
      obtain ⟨ds, hds, -⟩ := hmatch
      exact ⟨fun _ => .inr rfl, fun _ => ⟨ds, hds⟩⟩
    | some result =>
      simp only [hg] at hmatch
      simp [hmatch, hc]

/-- A composed chain is the least order of its directives that respects every precedence. -/
theorem orderChain_ok (h : DistinctKeys chain) {result : List DirectiveInstance}
    (hr : orderChain chain = .ok result) :
    result.Perm chain ∧ Respects Precedes result ∧
      ∀ m, m.Perm chain → Respects Precedes m → LexLE DirectiveInstance.compareKey result m := by
  obtain ⟨hconflict, hgreedy⟩ := orderChain_greedy h
  have hperm := CanonicalSort.sortBy_perm DirectiveInstance.compareKey chain
  have hnd := hperm.nodup_iff.mpr h.nodup
  have hc : ¬ Conflict chain := by
    intro hc
    obtain ⟨ds, hds, -⟩ := hconflict hc
    rw [hr] at hds
    cases hds
  have hmatch := hgreedy hc
  cases hg : greedy Precedes (sortBy DirectiveInstance.compareKey chain).length
      (sortBy DirectiveInstance.compareKey chain) with
  | none =>
    rw [hg] at hmatch
    obtain ⟨ds, hds, -⟩ := hmatch
    rw [hr] at hds
    cases hds
  | some order =>
    simp only [hg, hr, Except.ok.injEq] at hmatch
    subst hmatch
    refine ⟨(GreedyOrder.greedy_perm rfl hg).trans hperm, GreedyOrder.greedy_respects hnd rfl hg, ?_⟩
    intro m hm hrm
    exact GreedyOrder.greedy_least h.sorted hnd rfl hg (hm.trans hperm.symm) hrm

theorem orderChain_perm (h : DistinctKeys chain) {other : List DirectiveInstance} (hp : other.Perm chain) :
    orderChain other = orderChain chain := by
  unfold orderChain
  rw [CanonicalSort.sortBy_eq_of_perm hp.symm fun a ha b hb hk => h.eq_of_key ha hb hk]

end

/-! The composition as it would fail loudly: `none` is a panic. -/

/-- The counters with one row of edges taken off, as unsigned arithmetic does it. -/
def decrement? (row : List Bool) (incoming : List Nat) : Option (List Nat) :=
  if incoming.zipIdx.all fun p => (row.getD p.2 false).toNat ≤ p.1 then
    some (incoming.mapIdx fun j count => count - (row.getD j false).toNat)
  else none

@[grind =] def pickLoop? (chain : List DirectiveInstance) (edges : List (List Bool)) :
    Nat → List Bool → List Nat → List DirectiveInstance → Option (Except Diagnostics (List DirectiveInstance))
  | 0, _, _, result => some (.ok result)
  | rounds + 1, selected, incoming, result =>
    let free := (List.range chain.length).filter fun j => !selected.getD j false
    match free.find? fun j => incoming.getD j 0 == 0 with
    | some next => do
      let picked ← chain[next]?
      let incoming ← decrement? (edges.getD next []) incoming
      pickLoop? chain edges rounds (selected.set next true) incoming (result ++ [picked])
    | none => do
      let blocked := free.filterMap fun j => chain[j]?
      let first ← blocked.head?
      return .error [.error .invalidValue first.origin
        ("plugin ordering cycle: " ++ " -> ".intercalate (blocked.map fun d => d.metadata.name))]

def orderChain? (chain : List DirectiveInstance) : Option (Except Diagnostics (List DirectiveInstance)) :=
  let chain := sortBy DirectiveInstance.compareKey chain
  let conflicts := chainConflicts chain
  if conflicts.hasErrors then some (.error conflicts)
  else
    let edges := chainEdges chain
    pickLoop? chain edges chain.length (chain.map fun _ => false) (incomingCounts edges chain.length) []

def orderRoute? (chain : List DirectiveInstance) (terminal : Terminal) :
    Option (Except Diagnostics (List DirectiveInstance)) :=
  let conflicts := chain.flatMap (terminalConflict terminal)
  if Diagnostics.hasErrors conflicts then some (.error conflicts) else orderChain? chain

def expect {α : Type} : Option (Except Diagnostics α) → Option α
  | some (.ok a) => some a
  | _ => none

def compileSite? (site : Site) : Option SitePlan := do
  let routes ← site.routes.mapM fun route => do
    let chain ← expect (orderRoute? (site.directives ++ route.directives) route.terminal)
    return (⟨route.id, route.path, route.methods, route.matchers, chain, route.terminal⟩ : RoutePlan)
  let fallback ← expect (orderChain? site.directives)
  return ⟨site.id, site.host, site.tls, routes, fallback⟩

def compileListener? (spec : Spec) (listener : Listener) : Option ListenerPlan := do
  let sites ← (spec.sites.filter fun site =>
    (spec.listenersFor site).any fun candidate => candidate.name == listener.name).mapM compileSite?
  return ⟨listener, sortBy compareSitePlans sites⟩

def compile? (blake3 : Digest) (spec : Spec) (registry : Registry) : Option Plan := do
  let listeners ← spec.listeners.mapM (compileListener? spec)
  return { compile blake3 spec registry with listeners := listeners }

section
variable {chain : List DirectiveInstance} {selected : List Bool} {incoming : List Nat}

theorem Counted.decrement (h : Counted chain selected incoming) {next : Nat}
    (hn : next ∈ unpicked chain selected) :
    decrement? ((chainEdges chain).getD next []) incoming =
      some (incoming.mapIdx fun j count => count - (((chainEdges chain).getD next []).getD j false).toNat) := by
  unfold decrement?
  rw [if_pos]
  rw [List.all_eq_true]
  rintro ⟨count, j⟩ hp
  have hget := List.mem_zipIdx_iff_getElem?.mp hp
  obtain ⟨hj, hc⟩ := List.getElem?_eq_some_iff.mp hget
  rw [h.length] at hj
  have henough := h.enough hn hj
  rw [List.getD_eq_getElem?_getD, hget] at henough
  exact decide_eq_true henough

/-- The loop never panics. -/
theorem pickLoop?_eq (rounds : Nat) (h : Counted chain selected incoming)
    (hr : (unpicked chain selected).length = rounds) (result : List DirectiveInstance) :
    pickLoop? chain (chainEdges chain) rounds selected incoming result =
      some (pickLoop chain (chainEdges chain) rounds selected incoming result) := by
  induction rounds generalizing selected incoming result with
  | zero => rfl
  | succ rounds ih =>
    cases hf : (unpicked chain selected).find? fun j => incoming.getD j 0 == 0 with
    | none =>
      -- somebody is left, or the loop would have ended
      obtain ⟨j, hj⟩ : ∃ j, j ∈ unpicked chain selected := List.exists_mem_of_length_pos (by omega)
      obtain ⟨first, hfirst⟩ : ∃ first, (waiting chain selected).head? = some first := by
        have hmem := mem_waiting.2 ⟨j, hj, List.getElem?_eq_getElem (mem_unpicked.1 hj).1⟩
        cases hw : waiting chain selected with
        | nil =>
          rw [hw] at hmem
          cases hmem
        | cons first rest => exact ⟨first, rfl⟩
      unfold waiting unpicked at hfirst
      unfold unpicked at hf
      rw [pickLoop?, pickLoop, hf]
      simp only [hfirst, Option.bind_eq_bind, Option.bind_some, Option.map_some, Option.getD_some]
      rfl
    | some next =>
      have hn := List.mem_of_find?_eq_some hf
      obtain ⟨a, ha⟩ : ∃ a, chain[next]? = some a :=
        ⟨_, List.getElem?_eq_getElem (mem_unpicked.1 hn).1⟩
      have hl : (unpicked chain (selected.set next true)).length = rounds := by
        rw [unpicked_set h.flags hn, List.length_erase_of_mem hn, hr]
        rfl
      rw [pickLoop_pick rounds result hf ha, ← ih (h.step hn) hl]
      unfold unpicked at hf
      rw [pickLoop?, hf]
      simp only [ha, h.decrement hn, Option.bind_eq_bind, Option.bind_some]

theorem orderChain?_eq (chain : List DirectiveInstance) : orderChain? chain = some (orderChain chain) := by
  unfold orderChain? orderChain
  dsimp only
  split
  · rfl
  · exact pickLoop?_eq _ counted_start (by rw [unpicked_start, List.length_range]) []

theorem orderRoute?_eq (chain : List DirectiveInstance) (terminal : Terminal) :
    orderRoute? chain terminal = some (orderRoute chain terminal) := by
  unfold orderRoute? orderRoute
  dsimp only
  split
  · rfl
  · exact orderChain?_eq chain

theorem mapM_some {α β : Type} {f : α → Option β} {g : α → β} {l : List α}
    (h : ∀ a ∈ l, f a = some (g a)) : l.mapM f = some (l.map g) := by
  induction l with
  | nil => rfl
  | cons a l ih =>
    rw [List.mapM_cons, h a List.mem_cons_self, ih fun b hb => h b (List.mem_cons_of_mem a hb)]
    rfl

/-- Every chain of the site composes. -/
structure Site.Composes (site : Site) : Prop where
  fallback : ∃ chain, orderChain site.directives = .ok chain
  routes : ∀ route ∈ site.routes,
    ∃ chain, orderRoute (site.directives ++ route.directives) route.terminal = .ok chain

theorem compileSite?_eq {site : Site} (h : site.Composes) : compileSite? site = some (compileSite site) := by
  obtain ⟨fallback, hfallback⟩ := h.fallback
  have hroutes := @mapM_some _ _ (fun route : Route => do
      let chain ← expect (orderRoute? (site.directives ++ route.directives) route.terminal)
      return (⟨route.id, route.path, route.methods, route.matchers, chain, route.terminal⟩ : RoutePlan))
    (fun route => ⟨route.id, route.path, route.methods, route.matchers,
      composed (orderRoute (site.directives ++ route.directives) route.terminal), route.terminal⟩)
    site.routes ?_
  · unfold compileSite? compileSite
    rw [hroutes, orderChain?_eq, hfallback]
    rfl
  · intro route hr
    obtain ⟨chain, hchain⟩ := h.routes route hr
    rw [orderRoute?_eq, hchain]
    rfl

theorem compile?_eq {spec : Spec} (h : ∀ site ∈ spec.sites, site.Composes) (blake3 : Digest)
    (registry : Registry) : compile? blake3 spec registry = some (compile blake3 spec registry) := by
  have hlistener : ∀ listener ∈ spec.listeners,
      compileListener? spec listener = some (compileListener spec listener) := by
    intro listener _
    unfold compileListener? compileListener
    rw [mapM_some fun site hs => compileSite?_eq (h site (List.mem_filter.mp hs).1)]
    rfl
  unfold compile?
  rw [mapM_some hlistener]
  rfl

theorem pickLoop_hasErrors {edges : List (List Bool)} {rounds : Nat} {result : List DirectiveInstance}
    {ds : Diagnostics} (h : pickLoop chain edges rounds selected incoming result = .error ds) :
    Diagnostics.hasErrors ds = true := by
  induction rounds generalizing selected incoming result with
  | zero => cases h
  | succ rounds ih =>
    cases hf : (unpicked chain selected).find? fun j => incoming.getD j 0 == 0 with
    | none =>
      obtain ⟨ds', hds, he⟩ := @pickLoop_stuck _ edges _ _ rounds result hf
      rw [hds] at h
      cases h
      exact he
    | some next =>
      have hn := (mem_unpicked.1 (List.mem_of_find?_eq_some hf)).1
      rw [pickLoop_pick rounds result hf (List.getElem?_eq_getElem hn)] at h
      exact ih h

/-- An error of the composition is always reported as one. -/
theorem orderChain_hasErrors {ds : Diagnostics} (h : orderChain chain = .error ds) :
    Diagnostics.hasErrors ds = true := by
  unfold orderChain at h
  dsimp only at h
  split at h
  · rename_i he
    cases h
    exact he
  · exact pickLoop_hasErrors h

theorem orderRoute_hasErrors {terminal : Terminal} {ds : Diagnostics}
    (h : orderRoute chain terminal = .error ds) : Diagnostics.hasErrors ds = true := by
  unfold orderRoute at h
  dsimp only at h
  split at h
  · rename_i he
    cases h
    exact he
  · exact orderChain_hasErrors h

theorem ok_of_clean {α : Type} {r : Except Diagnostics α}
    (he : ∀ ds, r = .error ds → Diagnostics.hasErrors ds = true)
    (h : Diagnostics.hasErrors (errorsOf r) = false) : ∃ a, r = .ok a := by
  cases r with
  | ok a => exact ⟨a, rfl⟩
  | error ds =>
    rw [errorsOf, he ds rfl] at h
    cases h

theorem Site.composes_of_clean {site : Site} (h : Diagnostics.hasErrors (checkOrder site) = false) :
    site.Composes := by
  simp only [checkOrder, Diagnostics.hasErrors_append, Bool.or_eq_false_iff,
    Diagnostics.hasErrors_flatMap, List.any_eq_false, Bool.not_eq_true] at h
  refine ⟨ok_of_clean (fun ds => orderChain_hasErrors) h.1, ?_⟩
  intro route hr
  exact ok_of_clean (fun ds => orderRoute_hasErrors) (h.2 route hr)

end

/-- Directives of one scope, no name of them twice. -/
structure InScope (scope : Scope) (ds : List DirectiveInstance) : Prop where
  names : (ds.map fun d => d.metadata.name).Nodup
  scope : ∀ d ∈ ds, d.scope = scope

theorem distinctKeys_of_names {ds : List DirectiveInstance} (h : (ds.map fun d => d.metadata.name).Nodup) :
    DistinctKeys ds := by
  refine (List.pairwise_map.mp (List.nodup_iff_pairwise_ne.mp h)).imp ?_
  intro a b hne hk
  exact hne (DirectiveInstance.name_eq_of_compareKey hk)

/-- A name may be used once in the site and once more in the route. -/
theorem InScope.distinct {outer inner : List DirectiveInstance} (ho : InScope .site outer)
    (hi : InScope .route inner) : DistinctKeys (outer ++ inner) := by
  refine List.pairwise_append.mpr ⟨distinctKeys_of_names ho.names, distinctKeys_of_names hi.names, ?_⟩
  intro a ha b hb hk
  have hrank := Std.LawfulEqOrd.eq_of_compare (compareLex_eq_eq.mp hk).1
  simp only [ho.scope a ha, hi.scope b hb] at hrank
  cases hrank

theorem Registry.decode_scope {r : Registry} {blake3 : Digest} {node : Node} {scope : Scope}
    {d : DirectiveInstance} (h : (r.decode blake3 node scope).value = some d) : d.scope = scope := by
  unfold Registry.decode at h
  split at h
  · dsimp only at h
    split at h <;> cases h
  · dsimp only at h
    split at h
    · cases h
    · split at h
      · cases h
      · split at h
        · cases h
        · obtain ⟨config, -, rfl⟩ := Option.map_eq_some_iff.mp h
          rfl

namespace Frontend
variable (fe : Frontend)

theorem ownAll_inScope {scope : Scope} {ds : List DirectiveInstance} (h : InScope scope ds)
    (id : ResourceId) : InScope scope (fe.ownAll id ds) := by
  have hp := CanonicalSort.sortBy_perm DirectiveInstance.compareKey ds
  constructor
  · rw [ownAll, List.map_map]
    exact (hp.map fun d => d.metadata.name).nodup_iff.mpr h.names
  · intro d hd
    simp only [ownAll, List.mem_map, CanonicalSort.mem_sortBy] at hd
    obtain ⟨d', hd', rfl⟩ := hd
    exact h.scope d' hd'

/-- What is left of a route without errors has no directive twice. -/
theorem routeTail_names {node : Node} {rawPath : String} {site : ResourceId} {host : HostMatch}
    {owner : SourceId} {path : PathMatch} {explicit : Option String} {b : RouteBody} {r : Route}
    (hb : Diagnostics.hasErrors b.diagnostics = false)
    (ht : Diagnostics.hasErrors
      (fe.routeTail node rawPath site host owner path explicit b).diagnostics = false)
    (h : (fe.routeTail node rawPath site host owner path explicit b).value = some r) :
    ∃ id, r.directives = fe.ownAll id b.directives ∧
      (b.directives.map fun d => d.metadata.name).Nodup := by
  by_cases hl : b.terminals.length = 1
  · obtain ⟨⟨t, o⟩, hone⟩ := List.length_eq_one_iff.mp hl
    rw [routeTail_one fe site owner node rawPath host path explicit hone] at h ht
    cases hid : (ownedName .route owner node.origin explicit (fe.routeId site host owner path b)).value with
    | none =>
      rw [hid] at h
      cases h
    | some id =>
      simp only [hid, Diagnostics.hasErrors_append, Bool.or_eq_false_iff] at h ht
      cases h
      exact ⟨id, rfl, (rejectDuplicateDirectives_clean _).mp ht.2⟩
  · rw [(routeTail_other fe site owner node rawPath host path explicit hl hb).1] at h
    cases h

theorem route_inScope {node : Node} {site : ResourceId} {host : HostMatch} {owner : SourceId} {r : Route}
    (h : (fe.route node site host owner).value = some r) : InScope .route r.directives := by
  unfold route at h
  split at h
  · cases h
  · rename_i value raw _
    split at h
    · cases h
    · rename_i path _
      dsimp only at h
      split at h
      · cases h
      · rename_i hclean
        have hb := fe.routeBody_summary site owner node (node.props.foldl (idProp "route") ⟨none, []⟩).diagnostics
        generalize fe.routeBody node site owner _ = b at h hb hclean
        rw [Bool.not_eq_true, Diagnostics.hasErrors_append, Bool.or_eq_false_iff] at hclean
        obtain ⟨id, hds, hnames⟩ := fe.routeTail_names hclean.1 hclean.2 h
        rw [hds]
        refine fe.ownAll_inScope ⟨hnames, ?_⟩ id
        intro d hd
        rw [hb.directives] at hd
        obtain ⟨child, -, hc⟩ := List.mem_flatMap.mp hd
        simp only [routeMiddleware, routeDecoded, List.mem_filter, Option.mem_toList] at hc
        obtain ⟨hc, -⟩ := hc
        split at hc
        · cases hc
        · exact Registry.decode_scope hc

theorem site_inScope {node : Node} {owner : SourceId} {s : Site} (h : (fe.site node owner).value = some s) :
    InScope .site s.directives ∧ ∀ r ∈ s.routes, InScope .route r.directives := by
  unfold site at h
  split at h
  · cases h
  · rename_i value raw _
    split at h
    · cases h
    · rename_i host hhost
      dsimp only at h
      generalize node.props.foldl siteProp _ = props at h
      split at h
      · cases h
      · rename_i id hid
        dsimp only at h
        split at h
        · cases h
        · rename_i hclean
          have hb := fe.siteBody_summary id host owner node props.diagnostics
          generalize fe.siteBody node id host owner props.diagnostics = b at h hb hclean
          cases h
          simp only [Bool.not_eq_true, siteTail, Diagnostics.hasErrors_append, Bool.or_eq_false_iff] at hclean
          constructor
          · refine fe.ownAll_inScope ⟨(rejectDuplicateDirectives_clean _).mp hclean.2.2, ?_⟩ id
            intro d hd
            rw [hb.directives] at hd
            obtain ⟨child, -, hc⟩ := List.mem_flatMap.mp hd
            simp only [siteMiddleware, siteDecoded, List.mem_filter, Option.mem_toList] at hc
            obtain ⟨hc, -⟩ := hc
            split at hc
            · cases hc
            · exact Registry.decode_scope hc
          · intro r hr
            dsimp only at hr
            rw [hb.routes] at hr
            obtain ⟨child, -, hc⟩ := List.mem_flatMap.mp hr
            rw [Option.mem_toList] at hc
            unfold siteRouted at hc
            split at hc
            · exact fe.route_inScope hc
            · cases hc

/-- In an accepted specification every chain has distinct sort keys and composes. -/
theorem normalize_composes {s : Snapshot} {spec : Spec} (h : normalize fe s = .ok spec) :
    ∀ site ∈ spec.sites, site.Composes ∧ DistinctKeys site.directives ∧
      ∀ route ∈ site.routes, DistinctKeys (site.directives ++ route.directives) := by
  obtain ⟨global, listeners, origin, -, -, hf, rfl⟩ := fe.normalize_eq_ok.mp h
  have hsites : ∀ site ∈ (s.nodes.foldl (Pass.step fe) .start).sites,
      InScope .site site.directives ∧ ∀ r ∈ site.routes, InScope .route r.directives := by
    intro site hs
    rw [(fe.pass_summary s.nodes).sites] at hs
    obtain ⟨item, -, hi⟩ := List.mem_flatMap.mp hs
    rw [Option.mem_toList] at hi
    unfold siteOutcome at hi
    split at hi
    · exact fe.site_inScope hi
    · cases hi
  generalize s.nodes.foldl (Pass.step fe) .start = p at hf hsites
  simp only [finishSpec, Diagnostics.hasErrors_append, Bool.or_eq_false_iff,
    Diagnostics.hasErrors_flatMap, List.any_eq_false, Bool.not_eq_true] at hf
  intro site hsite
  refine ⟨Site.composes_of_clean (hf.2 site hsite), ?_⟩
  simp only [finishSpec, sortRoutes, applyAutomaticTls, CanonicalSort.mem_sortBy, List.map_map,
    List.mem_map] at hsite
  obtain ⟨site₀, h₀, rfl⟩ := hsite
  obtain ⟨houter, hinner⟩ := hsites site₀ h₀
  have hkeep : ((automaticTls fe.leaves listeners site₀).value).directives = site₀.directives ∧
      ((automaticTls fe.leaves listeners site₀).value).routes = site₀.routes := by
    obtain he | he := automaticTls_value fe.leaves listeners site₀ <;> rw [he] <;> exact ⟨rfl, rfl⟩
  simp only [Function.comp, sortSite, hkeep.1, hkeep.2, CanonicalSort.mem_sortBy]
  exact ⟨distinctKeys_of_names houter.names, fun route hr => houter.distinct (hinner route hr)⟩

end Frontend

/-- No lookup in a cache comes before a guard. -/
def GuardsFirst (chain : List DirectiveInstance) : Prop :=
  chain.Pairwise fun a b => ¬ (b.metadata.role.phase = some .guard ∧ .cacheLookup ∈ a.metadata.effects)

theorem Respects.guardsFirst {chain : List DirectiveInstance} (h : Respects Precedes chain) :
    GuardsFirst chain := by
  refine List.Pairwise.imp ?_ h
  intro a b hno hguard
  exact hno (.inr (.inr (.inr hguard)))

theorem compileSite_guardsFirst {site : Site} (hc : site.Composes) (hk : DistinctKeys site.directives)
    (hr : ∀ route ∈ site.routes, DistinctKeys (site.directives ++ route.directives)) :
    GuardsFirst (compileSite site).fallback ∧
      ∀ route ∈ (compileSite site).routes, GuardsFirst route.chain := by
  constructor
  · obtain ⟨chain, hchain⟩ := hc.fallback
    rw [compileSite, hchain]
    exact Respects.guardsFirst (orderChain_ok hk hchain).2.1
  · intro plan hp
    obtain ⟨route, hroute, rfl⟩ := List.mem_map.mp hp
    obtain ⟨chain, hchain⟩ := hc.routes route hroute
    have hinner : orderChain (site.directives ++ route.directives) = .ok chain := by
      unfold orderRoute at hchain
      dsimp only at hchain
      split at hchain
      · cases hchain
      · exact hchain
    simp only [hchain, composed]
    exact Respects.guardsFirst (orderChain_ok (hr route hroute) hinner).2.1

/-- Middleware ordering is a canonical topological sort: composition fails exactly on a
conflict or a cycle, and otherwise gives the lexicographically least order by sort key that
respects every precedence, whatever order it was given. So no compiled chain looks into a
cache ahead of a guard, and compiling what normalization accepts never panics. -/
theorem ordering_canonical :
    (∀ chain, DistinctKeys chain →
      ((∃ ds, orderChain chain = .error ds) ↔ Conflict chain ∨ Cyclic Precedes chain) ∧
      (∀ result, orderChain chain = .ok result → result.Perm chain ∧ Respects Precedes result ∧
        ∀ m, m.Perm chain → Respects Precedes m → LexLE DirectiveInstance.compareKey result m) ∧
      ∀ other : List DirectiveInstance, other.Perm chain → orderChain other = orderChain chain) ∧
    ∀ (fe : Frontend) (s : Snapshot) (spec : Spec), normalize fe s = .ok spec →
      compile? fe.blake3 spec fe.registry = some (compile fe.blake3 spec fe.registry) ∧
      ∀ listener ∈ (compile fe.blake3 spec fe.registry).listeners, ∀ site ∈ listener.sites,
        GuardsFirst site.fallback ∧ ∀ route ∈ site.routes, GuardsFirst route.chain := by
  constructor
  · intro chain h
    exact ⟨orderChain_error_iff h, fun result hr => orderChain_ok h hr,
      fun other hp => orderChain_perm h hp⟩
  · intro fe s spec hn
    have hall := fe.normalize_composes hn
    refine ⟨compile?_eq (fun site hs => (hall site hs).1) fe.blake3 fe.registry, ?_⟩
    intro listener hl plan hp
    obtain ⟨listener, -, rfl⟩ := List.mem_map.mp hl
    rw [compileListener, CanonicalSort.mem_sortBy] at hp
    obtain ⟨site, hs, rfl⟩ := List.mem_map.mp hp
    obtain ⟨hc, hk, hr⟩ := hall site (List.mem_filter.mp hs).1
    exact compileSite_guardsFirst hc hk hr

namespace ChainOrder.Sample

def instanceOf (m : DirectiveMeta) (scope : Scope) : DirectiveInstance :=
  ⟨m, ⟨[], none, [], ""⟩, scope, I32.zero, ⟨.directive, ""⟩, .synthetic "sample"⟩

def siteCache : DirectiveInstance :=
  instanceOf { DirectiveMeta.middleware "cache" .request ⟨true, true⟩ with effects := [.cacheLookup] } .site

def routeGuard : DirectiveInstance := instanceOf (.middleware "auth" .guard ⟨true, true⟩) .route

-- a route's guard runs ahead of the cache of its site, which sorts before it
example : orderChain [siteCache, routeGuard] = .ok [routeGuard, siteCache] := by decide

end ChainOrder.Sample

end Gatel
