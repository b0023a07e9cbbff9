import Gatel.Lib.FirstMatch
import Gatel.State.Selector

namespace Gatel.State.Selector
open SmoothRobin (Robin Spread paid spread_paid)

/-! The credits of smooth weighted round robin. -/

variable {l : List Candidate} {credit : Nat → Int}

/-- The endpoints of a list of candidates, by where their counters are kept. -/
def places (l : List Candidate) : Finset Nat := (l.map Candidate.place).toFinset

/-- The weight of the candidate kept at a place. -/
def weightAt (l : List Candidate) (p : Nat) : Int :=
  ((l.find? fun e => e.place = p).map fun e => (e.weight.val : Int)).getD 0

theorem mem_places {p : Nat} : p ∈ places l ↔ ∃ e ∈ l, e.place = p := by simp [places]

theorem place_mem {e : Candidate} (he : e ∈ l) : e.place ∈ places l := mem_places.2 ⟨e, he, rfl⟩

theorem eq_of_place (hd : (l.map Candidate.place).Nodup) {a b : Candidate} (ha : a ∈ l) (hb : b ∈ l)
    (h : a.place = b.place) : a = b := List.inj_on_of_nodup_map hd ha hb h

theorem weightAt_place (hd : (l.map Candidate.place).Nodup) {e : Candidate} (he : e ∈ l) :
    weightAt l e.place = e.weight.val := by
  have hfind : l.find? (fun e' => e'.place = e.place) = some e := by
    refine FirstMatch.find?_of_top (r := fun _ _ => True) (List.pairwise_of_forall fun _ _ => trivial) he (by simp) ?_
    intro b hb hp _
    exact eq_of_place hd hb he (of_decide_eq_true hp)
  rw [weightAt, hfind]
  rfl

theorem sum_places (hd : (l.map Candidate.place).Nodup) (f : Nat → Int) :
    ∑ p ∈ places l, f p = (l.map fun e => f e.place).sum := by
  rw [places, List.sum_toFinset f hd, List.map_map]
  rfl

theorem sum_weightAt (hd : (l.map Candidate.place).Nodup) : ∑ p ∈ places l, weightAt l p = totalWeight l := by
  rw [sum_places hd, totalWeight]
  refine congrArg List.sum (List.map_congr_left ?_)
  intro e he
  exact weightAt_place hd he

/-! One round. -/

/-- The loop credits every endpoint once. -/
theorem creditAll_credit (hd : (l.map Candidate.place).Nodup) (credit : Nat → Int) (best : Option (Candidate × Int)) (p : Nat) :
    (creditAll l credit best).1 p = credit p + if p ∈ places l then weightAt l p else 0 := by
  induction l generalizing credit best with
  | nil => simp [creditAll, places]
  | cons e l ih =>
    obtain ⟨hnot, hd'⟩ := List.nodup_cons.mp hd
    rw [creditAll, ih hd']
    by_cases hp : p = e.place
    · subst hp
      have hout : e.place ∉ places l := by
        intro hin
        obtain ⟨a, ha, hae⟩ := mem_places.1 hin
        exact hnot (List.mem_map.mpr ⟨a, ha, hae⟩)
      rw [Function.update_self, if_neg hout, if_pos (place_mem List.mem_cons_self),
        weightAt_place hd List.mem_cons_self, add_zero]
    · have hiff : p ∈ places (e :: l) ↔ p ∈ places l := by
        rw [mem_places, mem_places]
        constructor
        · rintro ⟨a, ha, hap⟩
          obtain rfl | ha := List.mem_cons.mp ha
          · exact absurd hap.symm hp
          · exact ⟨a, ha, hap⟩
        · rintro ⟨a, ha, hap⟩
          exact ⟨a, List.mem_cons_of_mem e ha, hap⟩
      have hweight : weightAt (e :: l) p = weightAt l p := by
        rw [weightAt, weightAt, List.find?_cons_of_neg]
        simpa using Ne.symm hp
      rw [Function.update_of_ne hp]
      simp only [hiff, hweight]

/-- The loop keeps one of the highest of the raised credits. -/
theorem creditAll_best (hd : (l.map Candidate.place).Nodup) (credit : Nat → Int) (best : Option (Candidate × Int))
    (hne : l ≠ [] ∨ best ≠ none) :
    ∃ winner raised, (creditAll l credit best).2 = some (winner, raised) ∧
      ((winner ∈ l ∧ raised = credit winner.place + winner.weight.val) ∨ best = some (winner, raised)) ∧
      (∀ e ∈ l, credit e.place + e.weight.val ≤ raised) ∧ ∀ b ∈ best, b.2 ≤ raised := by
  induction l generalizing credit best with
  | nil =>
    obtain ⟨⟨winner, raised⟩, rfl⟩ := Option.ne_none_iff_exists'.mp (hne.resolve_left fun h => h rfl)
    exact ⟨winner, raised, rfl, .inr rfl, fun e he => (List.not_mem_nil he).elim, by simp⟩
  | cons e l ih =>
    obtain ⟨hnot, hd'⟩ := List.nodup_cons.mp hd
    have hkept : ∀ a ∈ l, Function.update credit e.place (credit e.place + e.weight.val) a.place = credit a.place := by
      intro a ha
      exact Function.update_of_ne (fun he => hnot (List.mem_map.mpr ⟨a, ha, he⟩)) _ _
    rw [creditAll]
    by_cases hbeats : best.all fun b => b.2 < credit e.place + e.weight.val
    · rw [if_pos hbeats]
      obtain ⟨winner, raised, heq, hfrom, hall, hbest⟩ :=
        ih hd' (Function.update credit e.place (credit e.place + e.weight.val)) (some (e, credit e.place + e.weight.val))
          (.inr (Option.some_ne_none _))
      have he : credit e.place + e.weight.val ≤ raised := hbest _ rfl
      refine ⟨winner, raised, heq, .inl ?_, ?_, ?_⟩
      · rcases hfrom with ⟨hw, hr⟩ | hr
        · exact ⟨List.mem_cons_of_mem e hw, by rw [hr, hkept winner hw]⟩
        · cases hr
          exact ⟨List.mem_cons_self, rfl⟩
      · intro a ha
        obtain rfl | ha := List.mem_cons.mp ha
        · exact he
        · have h := hall a ha
          rwa [hkept a ha] at h
      · intro b hb
        obtain rfl := Option.mem_def.mp hb
        have hlt : b.2 < credit e.place + e.weight.val := of_decide_eq_true hbeats
        omega
    · rw [if_neg hbeats]
      obtain ⟨b, rfl⟩ : ∃ b, best = some b := by
        cases best with
        | none => exact absurd rfl hbeats
        | some b => exact ⟨b, rfl⟩
      have hle : credit e.place + e.weight.val ≤ b.2 := by simpa using hbeats
      obtain ⟨winner, raised, heq, hfrom, hall, hbest⟩ :=
        ih hd' (Function.update credit e.place (credit e.place + e.weight.val)) (some b) (.inr (Option.some_ne_none _))
      have hb : b.2 ≤ raised := hbest _ rfl
      refine ⟨winner, raised, heq, ?_, ?_, hbest⟩
      · rcases hfrom with ⟨hw, hr⟩ | hr
        · exact .inl ⟨List.mem_cons_of_mem e hw, by rw [hr, hkept winner hw]⟩
        · exact .inr hr
      · intro a ha
        obtain rfl | ha := List.mem_cons.mp ha
        · omega
        · have h := hall a ha
          rwa [hkept a ha] at h

/-- Who wins a round, from the credits before it. -/
def winner (l : List Candidate) (credit : Nat → Int) : Option Candidate := (creditAll l credit none).2.map Prod.fst

theorem winner_spec (hd : (l.map Candidate.place).Nodup) (hne : l ≠ []) (credit : Nat → Int) :
    ∃ e ∈ l, winner l credit = some e ∧
      ∀ a ∈ l, credit a.place + a.weight.val ≤ credit e.place + e.weight.val := by
  obtain ⟨e, raised, heq, hfrom, hall, -⟩ := creditAll_best hd credit none (.inl hne)
  rcases hfrom with ⟨he, hr⟩ | hr
  · exact ⟨e, he, by rw [winner, heq]; rfl, fun a ha => hr ▸ hall a ha⟩
  · cases hr

/-- The selector as a choice among the credited. -/
def robin (hd : (l.map Candidate.place).Nodup) (hne : l ≠ []) : Robin (weightAt l) (places l) where
  pick credit := ((winner l credit).map Candidate.place).getD 0
  mem credit := by
    obtain ⟨e, he, hw, -⟩ := winner_spec hd hne credit
    rw [hw]
    exact place_mem he
  greatest credit i hi := by
    obtain ⟨e, he, hw, hall⟩ := winner_spec hd hne credit
    obtain ⟨a, ha, rfl⟩ := mem_places.1 hi
    rw [hw, weightAt_place hd ha]
    exact (hall a ha).trans (congrArg (credit e.place + ·) (weightAt_place hd he)).ge

/-- A round picks the winner, and leaves the credits of a round. -/
theorem weightedRoundRobin_eq (hd : (l.map Candidate.place).Nodup) (hne : l ≠ []) (s : Counters) :
    weightedRoundRobin l s = (winner l s.credit, { s with credit := (robin hd hne).next s.credit }) := by
  obtain ⟨e, raised, heq, -⟩ := creditAll_best hd s.credit none (.inl hne)
  have hw : winner l s.credit = some e := by rw [winner, heq]; rfl
  have hpick : (robin hd hne).pick s.credit = e.place := by
    show ((winner l s.credit).map Candidate.place).getD 0 = e.place
    rw [hw]
    rfl
  have hcredits : Function.update (creditAll l s.credit none).1 e.place
      ((creditAll l s.credit none).1 e.place - totalWeight l) = (robin hd hne).next s.credit := by
    funext p
    rw [Robin.next, paid, hpick, sum_weightAt hd]
    by_cases hp : p = e.place
    · rw [hp, Function.update_self, creditAll_credit hd, if_pos rfl]
    · rw [Function.update_of_ne hp, creditAll_credit hd, if_neg hp, sub_zero]
  rw [hw, ← hcredits]
  unfold weightedRoundRobin
  generalize creditAll l s.credit none = round at heq
  obtain ⟨after, best⟩ := round
  cases heq
  rfl

/-! Any run of the selector. -/

/-- One call of the selector. -/
structure Call where
  balance : Balance
  eligible : List Candidate
  inFlight : Nat → U64
  key : RequestKey

def step (s : Counters) (c : Call) : Counters := (select c.balance c.eligible c.inFlight c.key s).2

/-- Only smooth weighted round robin over several endpoints moves credits. -/
theorem step_credit (s : Counters) (c : Call) :
    (step s c).credit = s.credit ∨
      (c.eligible ≠ [] ∧ (step s c).credit = (weightedRoundRobin c.eligible s).2.credit) := by
  obtain ⟨balance, eligible, inFlight, key⟩ := c
  match eligible with
  | [] => exact .inl rfl
  | [only] => exact .inl rfl
  | one :: second :: rest =>
    cases balance with
    | weightedRoundRobin => exact .inr ⟨List.cons_ne_nil _ _, rfl⟩
    | roundRobin | random | twoRandomChoices | leastConn | uriHash | first => exact .inl rfl
    | ipHash =>
      obtain ⟨clientIp, uri, header, cookie⟩ := key
      cases clientIp <;> exact .inl rfl
    | headerHash name =>
      obtain ⟨clientIp, uri, header, cookie⟩ := key
      cases header <;> exact .inl rfl
    | cookieHash name =>
      obtain ⟨clientIp, uri, header, cookie⟩ := key
      cases cookie <;> exact .inl rfl

theorem creditAll_sum {u : Finset Nat} (hu : ∀ e ∈ l, e.place ∈ u) (credit : Nat → Int) (best : Option (Candidate × Int)) :
    ∑ p ∈ u, (creditAll l credit best).1 p = ∑ p ∈ u, credit p + totalWeight l := by
  induction l generalizing credit best with
  | nil => simp [creditAll, totalWeight]
  | cons e l ih =>
    have hhead := hu e List.mem_cons_self
    have hone := Finset.sum_update_of_mem hhead credit (credit e.place + e.weight.val)
    have hrest := Finset.add_sum_erase u credit hhead
    rw [Finset.sdiff_singleton_eq_erase] at hone
    rw [creditAll, ih (fun a ha => hu a (List.mem_cons_of_mem e ha)), hone]
    simp only [totalWeight, List.map_cons, List.sum_cons]
    omega

theorem creditAll_mem (credit : Nat → Int) (best : Option (Candidate × Int)) :
    ((creditAll l credit best).2 = none → l = []) ∧
      ∀ b ∈ (creditAll l credit best).2, b.1 ∈ l ∨ b ∈ best := by
  induction l generalizing credit best with
  | nil => exact ⟨fun _ => rfl, fun b hb => .inr hb⟩
  | cons e l ih =>
    rw [creditAll]
    split
    · obtain ⟨hnone, hmem⟩ := ih (Function.update credit e.place (credit e.place + e.weight.val))
        (some (e, credit e.place + e.weight.val))
      refine ⟨fun h => ?_, fun b hb => ?_⟩
      · obtain rfl := hnone h
        cases h
      · rcases hmem b hb with hb | hb
        · exact .inl (List.mem_cons_of_mem e hb)
        · cases hb
          exact .inl List.mem_cons_self
    · rename_i hbeats
      obtain ⟨hnone, hmem⟩ := ih (Function.update credit e.place (credit e.place + e.weight.val)) best
      refine ⟨fun h => ?_, fun b hb => (hmem b hb).imp (List.mem_cons_of_mem e) id⟩
      obtain rfl := hnone h
      have hnone' : best = none := h
      rw [hnone'] at hbeats
      exact absurd rfl hbeats

/-- What the winner pays is what everyone was credited. -/
theorem weightedRoundRobin_sum {u : Finset Nat} (hu : ∀ e ∈ l, e.place ∈ u) (s : Counters) :
    ∑ p ∈ u, (weightedRoundRobin l s).2.credit p = ∑ p ∈ u, s.credit p := by
  have hsum := creditAll_sum hu s.credit none
  obtain ⟨hnone, hmem⟩ := creditAll_mem (l := l) s.credit none
  unfold weightedRoundRobin
  generalize creditAll l s.credit none = round at *
  obtain ⟨after, best⟩ := round
  cases best with
  | none =>
    obtain rfl := hnone rfl
    simpa [totalWeight] using hsum
  | some best =>
    obtain ⟨e, raised⟩ := best
    have he : e ∈ l := (hmem (e, raised) rfl).resolve_right fun h => by cases h
    have hone := Finset.sum_update_of_mem (hu e he) after (after e.place - totalWeight l)
    have hrest := Finset.add_sum_erase u after (hu e he)
    rw [Finset.sdiff_singleton_eq_erase] at hone
    dsimp only at hsum hone ⊢
    omega

theorem step_sum {u : Finset Nat} {c : Call} (hu : ∀ e ∈ c.eligible, e.place ∈ u) (s : Counters) :
    ∑ p ∈ u, (step s c).credit p = ∑ p ∈ u, s.credit p := by
  rcases step_credit s c with h | ⟨-, h⟩
  · rw [h]
  · rw [h, weightedRoundRobin_sum hu]

/-- Whatever is eligible from call to call, the credits of all endpoints keep their sum. -/
theorem run_sum {u : Finset Nat} (s : Counters) {calls : List Call}
    (hu : ∀ c ∈ calls, ∀ e ∈ c.eligible, e.place ∈ u) :
    ∑ p ∈ u, (Run.run step s calls).credit p = ∑ p ∈ u, s.credit p :=
  Run.invariant_of_forall (I := fun s' : Counters => ∑ p ∈ u, s'.credit p = ∑ p ∈ u, s.credit p)
    (A := fun c : Call => ∀ e ∈ c.eligible, e.place ∈ u) (fun s' _ hc h => (step_sum hc s').trans h) rfl hu

/-- Credits are counted without a bound here, and stay far inside the words they are kept in:
this is how far they go from zero while endpoints come and go. -/
theorem run_credit_abs {u : Finset Nat} {bound : Int} {s : Counters} (h0 : ∀ p ∈ u, s.credit p = 0) {calls : List Call}
    (hu : ∀ c ∈ calls, (∀ e ∈ c.eligible, e.place ∈ u) ∧ (c.eligible.map Candidate.place).Nodup ∧
      totalWeight c.eligible ≤ bound) (hbound : 0 ≤ bound) {p : Nat} (hp : p ∈ u) :
    2 * |(Run.run step s calls).credit p| ≤ bound * (u.card - 1) := by
  have hspread : Spread u bound (Run.run step s calls).credit := by
    refine Run.invariant_of_forall (I := fun s' : Counters => Spread u bound s'.credit) (A := fun c : Call =>
      (∀ e ∈ c.eligible, e.place ∈ u) ∧ (c.eligible.map Candidate.place).Nodup ∧ totalWeight c.eligible ≤ bound) ?_ ?_ hu
    · rintro s c ⟨hc, hd, hb⟩ h
      rcases step_credit s c with heq | ⟨hne, heq⟩
      · rwa [heq]
      · rw [heq, weightedRoundRobin_eq hd hne]
        refine spread_paid ?_ ?_ ?_ ((robin hd hne).mem _) ((robin hd hne).greatest _) h
        · intro q hq
          obtain ⟨e, he, rfl⟩ := mem_places.1 hq
          exact hc e he
        · intro q hq
          obtain ⟨e, he, rfl⟩ := mem_places.1 hq
          rw [weightAt_place hd he]
          exact Int.natCast_nonneg _
        · rwa [sum_weightAt hd]
    · intro t ht
      have hcard : (t.card : Int) ≤ u.card := by exact_mod_cast Finset.card_le_card ht
      rw [Finset.sum_eq_zero fun q hq => h0 q (ht hq), mul_zero]
      exact mul_nonneg hbound (mul_nonneg (Int.natCast_nonneg _) (by omega))
  refine hspread.abs_le ?_ hp
  rw [run_sum s fun c hc => (hu c hc).1]
  exact Finset.sum_eq_zero h0

/-! The same candidates in every call. -/

/-- The counters after a number of picks, whatever the requests and the load are. -/
@[grind =] def after (l : List Candidate) (load : Nat → (Nat → U64) × RequestKey) (s : Counters) : Nat → Counters
  | 0 => s
  | t + 1 => (select .weightedRoundRobin l (load t).1 (load t).2 (after l load s t)).2

/-- The pick made there. -/
def picked (l : List Candidate) (load : Nat → (Nat → U64) × RequestKey) (s : Counters) (t : Nat) : Option Candidate :=
  (select .weightedRoundRobin l (load t).1 (load t).2 (after l load s t)).1.map Selection.endpoint

section
variable (hd : (l.map Candidate.place).Nodup) (hl : 2 ≤ l.length) (load : Nat → (Nat → U64) × RequestKey)
  (s : Counters)

theorem ne_nil_of_two (hl : 2 ≤ l.length) : l ≠ [] := by
  rintro rfl
  cases hl

theorem select_weighted (hl : 2 ≤ l.length) (inFlight : Nat → U64) (key : RequestKey) (s : Counters) :
    select .weightedRoundRobin l inFlight key s =
      ((weightedRoundRobin l s).1.map fun e => ⟨e, "weighted-round-robin", false⟩, (weightedRoundRobin l s).2) := by
  match l, hl with
  | one :: second :: rest, _ => rfl

theorem after_credit (t : Nat) :
    (after l load s t).credit = (robin hd (ne_nil_of_two hl)).credits s.credit t := by
  induction t with
  | zero => rfl
  | succ t ih => rw [after, select_weighted hl, weightedRoundRobin_eq hd (ne_nil_of_two hl), Robin.credits_succ, ih]

theorem picked_eq_some {e : Candidate} (he : e ∈ l) (t : Nat) :
    picked l load s t = some e ↔
      (robin hd (ne_nil_of_two hl)).pick ((robin hd (ne_nil_of_two hl)).credits s.credit t) = e.place := by
  rw [← after_credit hd hl load s t, picked, select_weighted hl, weightedRoundRobin_eq hd (ne_nil_of_two hl)]
  obtain ⟨a, ha, hw, -⟩ := winner_spec hd (ne_nil_of_two hl) (after l load s t).credit
  have hpick : (robin hd (ne_nil_of_two hl)).pick (after l load s t).credit = a.place := by
    show ((winner l (after l load s t).credit).map Candidate.place).getD 0 = a.place
    rw [hw]
    rfl
  rw [hpick, hw]
  simp only [Option.map_some, Option.some.injEq]
  exact ⟨fun h => h ▸ rfl, eq_of_place hd ha he⟩

end

/-- How often an endpoint is picked in a window of picks. -/
def share (l : List Candidate) (load : Nat → (Nat → U64) × RequestKey) (s : Counters) (start length : Nat)
    (e : Candidate) : Nat := (List.range length).countP fun i => picked l load s (start + i) = some e

theorem share_eq (hd : (l.map Candidate.place).Nodup) (hl : 2 ≤ l.length) (load : Nat → (Nat → U64) × RequestKey)
    (s : Counters) (start length : Nat) {e : Candidate} (he : e ∈ l) :
    (robin hd (ne_nil_of_two hl)).picks s.credit (start + length) e.place =
      (robin hd (ne_nil_of_two hl)).picks s.credit start e.place + share l load s start length e := by
  have hshare : share l load s start length e = (List.range length).countP fun i =>
      (robin hd (ne_nil_of_two hl)).pick ((robin hd (ne_nil_of_two hl)).credits s.credit (start + i)) = e.place := by
    refine List.countP_congr ?_
    intro i _
    simp only [decide_eq_true_iff, picked_eq_some hd hl load s he]
  rw [hshare, Robin.picks, Robin.picks, List.range_add, List.countP_append, List.countP_map]
  rfl

/-- How many picks make a cycle. -/
def cycle (l : List Candidate) : Nat := (l.map fun e => e.weight.val).sum

theorem totalWeight_eq (l : List Candidate) : totalWeight l = cycle l := by
  simp [totalWeight, cycle, Function.comp_def]

theorem card_places (hd : (l.map Candidate.place).Nodup) : (places l).card = l.length := by
  rw [places, List.toFinset_card_of_nodup hd, List.length_map]

/-- Every cycle of picks gives each endpoint its weight, wherever it starts, and brings all
credits back to zero; in between they sum to zero and stay within bounds. -/
theorem weighted_round_robin_proportional (hd : (l.map Candidate.place).Nodup) (hl : 2 ≤ l.length)
    (hw : ∀ e ∈ l, 1 ≤ e.weight.val) (load : Nat → (Nat → U64) × RequestKey) {s : Counters}
    (h0 : ∀ e ∈ l, s.credit e.place = 0) :
    (∀ start, ∀ e ∈ l, share l load s start (cycle l) e = e.weight.val) ∧
    (∀ t, (l.map fun e => (after l load s t).credit e.place).sum = 0) ∧
    (∀ k, ∀ e ∈ l, (after l load s (k * cycle l)).credit e.place = 0) ∧
    (∀ t, ∀ e ∈ l, -(cycle l : Int) < (after l load s t).credit e.place ∧
      ((after l load s t).credit e.place : ℚ) ≤ cycle l * (harmonic l.length - 1)) ∧
    ∀ (u : Finset Nat) (calls : List Call) (s : Counters), (∀ p ∈ u, s.credit p = 0) →
      (∀ c ∈ calls, ∀ e ∈ c.eligible, e.place ∈ u) → ∑ p ∈ u, (Run.run step s calls).credit p = 0 := by
  have hzero : ∀ p ∈ places l, s.credit p = 0 := by
    intro p hp
    obtain ⟨e, he, rfl⟩ := mem_places.1 hp
    exact h0 e he
  have hpos : ∀ p ∈ places l, 0 < weightAt l p := by
    intro p hp
    obtain ⟨e, he, rfl⟩ := mem_places.1 hp
    have := hw e he
    rw [weightAt_place hd he]
    omega
  have htotal : ∑ p ∈ places l, weightAt l p = (cycle l : Int) := by rw [sum_weightAt hd, totalWeight_eq]
  have hcredit := after_credit hd hl load s
  refine ⟨?_, ?_, ?_, ?_, ?_⟩
  · intro start e he
    have hwindow := (robin hd (ne_nil_of_two hl)).picks_window hzero hpos htotal start (place_mem he)
    rw [share_eq hd hl load s start (cycle l) he, weightAt_place hd he] at hwindow
    push_cast at hwindow
    omega
  · intro t
    rw [← sum_places hd fun p => (after l load s t).credit p, hcredit]
    exact (robin hd (ne_nil_of_two hl)).sum_credits (Finset.sum_eq_zero hzero) t
  · intro k e he
    rw [hcredit, (robin hd (ne_nil_of_two hl)).credits_mul_total hzero hpos htotal]
    exact h0 e he
  · intro t e he
    have hlow := (robin hd (ne_nil_of_two hl)).neg_total_lt_credits hzero hpos t e.place (place_mem he)
    have hhigh := (robin hd (ne_nil_of_two hl)).credits_le hzero hpos t (place_mem he)
    rw [htotal] at hlow hhigh
    rw [hcredit, ← card_places hd]
    exact ⟨hlow, by exact_mod_cast hhigh⟩
  · intro u calls s hs hu
    rw [run_sum s hu]
    exact Finset.sum_eq_zero hs

/-! Five endpoints, two of them six times as heavy as the others. -/

def five : List Candidate :=
  [⟨0, "a", 1, I32.zero⟩, ⟨1, "b", 1, I32.zero⟩, ⟨2, "c", 1, I32.zero⟩, ⟨3, "d", 6, I32.zero⟩, ⟨4, "e", 6, I32.zero⟩]

def idle (_ : Nat) : (Nat → U64) × RequestKey := (fun _ => 0, noKey)

def fresh : Counters := ⟨0, 0, fun _ => 0⟩

theorem weighted_round_robin_five :
    (∀ start, ∀ e ∈ five, share five idle fresh start 15 e = e.weight.val) ∧
      ∀ t, (five.map fun e => (after five idle fresh t).credit e.place).sum = 0 :=
  have h := weighted_round_robin_proportional (l := five) (by decide) (by decide) (by decide) idle
    (s := fresh) fun _ _ => rfl
  ⟨h.1, h.2.1⟩

/-- After ten picks the second of the heavy ones is owed as much as all weights together. -/
theorem five_credit_reaches_total :
    (five.map Candidate.place).Nodup ∧ 2 ≤ five.length ∧ (∀ e ∈ five, 1 ≤ e.weight.val) ∧
      (∀ e ∈ five, fresh.credit e.place = 0) ∧ cycle five = 15 ∧ (after five idle fresh 10).credit 4 = 15 := by
  refine ⟨by decide, by decide, by decide, fun _ _ => rfl, by decide, ?_⟩
  decide +kernel

end Gatel.State.Selector
