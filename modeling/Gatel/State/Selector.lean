import Gatel.Lib.Extremum
import Gatel.Lib.Run
import Gatel.Lib.SmoothRobin
import Gatel.Model.Hash
import Gatel.Model.Net
import Gatel.State.Endpoint

namespace Gatel.State
open Extremum (Top running top_running)

/-! Choosing among eligible endpoints. -/

/-- An eligible endpoint: where its counters are kept, and what is written of it. -/
structure Candidate where
  place : Nat
  id : String
  weight : U32
  priority : I32
  deriving DecidableEq

/-- What the balancer is allowed to know about the request. -/
structure RequestKey where
  clientIp : Option IpAddr
  uri : String
  header : Option String
  cookie : Option String

/-- The counters strategies keep between requests: those of the selector, and the credit
of every endpoint. -/
structure Counters where
  cursor : U64
  random : U64
  credit : Nat → Int

/-- Which endpoint a request goes to, and why. -/
structure Selection where
  endpoint : Candidate
  effective : String
  fellBack : Bool
  deriving DecidableEq

/-- The eligible endpoints of a set, as the balancer sees them. -/
def EndpointSet.candidates (s : EndpointSet) (now : Instant) : List Candidate :=
  (s.eligible now).1.filterMap fun i => s.endpoints[i]?.map fun e => ⟨i, e.id, e.weight, e.priority⟩

namespace EndpointSet

theorem mem_candidates {s : EndpointSet} {now : Instant} {c : Candidate} (h : c ∈ s.candidates now) :
    ∃ e, s.endpoints[c.place]? = some e ∧ c.id = e.id ∧ c.weight = e.weight ∧ c.priority = e.priority := by
  obtain ⟨i, -, hi⟩ := List.mem_filterMap.mp h
  obtain ⟨e, he, rfl⟩ := Option.map_eq_some_iff.mp hi
  exact ⟨e, he, rfl, rfl, rfl⟩

/-- Every endpoint is a candidate once. -/
theorem candidates_nodup (s : EndpointSet) (now : Instant) : ((s.candidates now).map Candidate.place).Nodup := by
  rw [candidates, List.map_filterMap]
  refine List.Nodup.filterMap ?_ (List.nodup_range.filter _)
  intro i j p hi hj
  obtain ⟨c, hc, rfl⟩ := Option.map_eq_some_iff.mp hi
  obtain ⟨d, hd, hplace⟩ := Option.map_eq_some_iff.mp hj
  obtain ⟨e, -, rfl⟩ := Option.map_eq_some_iff.mp hc
  obtain ⟨f, -, rfl⟩ := Option.map_eq_some_iff.mp hd
  exact hplace.symm

/-- A set whose endpoints have different names has candidates of different names. -/
theorem candidates_ids (s : EndpointSet) (now : Instant) (hd : (s.endpoints.map Endpoint.id).Nodup) :
    ((s.candidates now).map Candidate.id).Nodup := by
  refine List.Nodup.map_on ?_ (List.Nodup.of_map _ (s.candidates_nodup now))
  intro c hc d hd' hid
  obtain ⟨e, he, hce, hcw, hcp⟩ := mem_candidates hc
  obtain ⟨f, hf, hdf, hdw, hdp⟩ := mem_candidates hd'
  obtain ⟨hi, rfl⟩ := List.getElem?_eq_some_iff.mp he
  obtain ⟨hj, rfl⟩ := List.getElem?_eq_some_iff.mp hf
  have hplace : c.place = d.place := by
    have hi' : c.place < (s.endpoints.map Endpoint.id).length := by simpa using hi
    have hj' : d.place < (s.endpoints.map Endpoint.id).length := by simpa using hj
    have hsame : (s.endpoints.map Endpoint.id)[c.place] = (s.endpoints.map Endpoint.id)[d.place] := by
      simpa [← hce, ← hdf] using hid
    exact (List.Nodup.getElem_inj_iff hd).mp hsame
  obtain ⟨place, id, weight, priority⟩ := c
  obtain ⟨place', id', weight', priority'⟩ := d
  simp only at hplace hcw hcp hdw hdp hid
  subst hplace
  rw [hid, hcw, hcp, hdw, hdp]

end EndpointSet

namespace Selector

def name : Balance → String
  | .roundRobin => "round-robin"
  | .weightedRoundRobin => "weighted-round-robin"
  | .random => "random"
  | .twoRandomChoices => "two-random-choices"
  | .leastConn => "least-conn"
  | .ipHash => "ip-hash"
  | .uriHash => "uri-hash"
  | .headerHash _ => "header-hash"
  | .cookieHash _ => "cookie-hash"
  | .first => "first"

/-- xorshift64*. -/
def nextRandom (s : Counters) : U64 × Counters :=
  let value := s.random
  let value := value ^^^ value <<< 13
  let value := value ^^^ value >>> 7
  let value := value ^^^ value <<< 17
  (value * 0x2545F4914F6CDD1D, { s with random := value })

/-- The candidate at a number taken modulo how many there are. -/
def wrapped (first : Candidate) (rest : List Candidate) (n : Nat) : Candidate :=
  (first :: rest).get ⟨n % (rest.length + 1), Nat.mod_lt n (Nat.succ_pos _)⟩

def roundRobin (first : Candidate) (rest : List Candidate) (s : Counters) : Candidate × Counters :=
  (wrapped first rest s.cursor.val, { s with cursor := s.cursor + 1 })

/-- Credit everyone its weight, and keep the first of the highest credits. -/
@[grind =] def creditAll : List Candidate → (Nat → Int) → Option (Candidate × Int) → (Nat → Int) × Option (Candidate × Int)
  | [], credit, best => (credit, best)
  | e :: l, credit, best =>
    let raised := credit e.place + e.weight.val
    creditAll l (Function.update credit e.place raised)
      (if best.all fun b => b.2 < raised then some (e, raised) else best)

def totalWeight (eligible : List Candidate) : Int := (eligible.map fun e => (e.weight.val : Int)).sum

/-- Smooth weighted round robin: the highest credit wins, and pays what everyone was
credited. -/
def weightedRoundRobin (eligible : List Candidate) (s : Counters) : Option Candidate × Counters :=
  match creditAll eligible s.credit none with
  | (credit, some (winner, _)) =>
    (some winner,
      { s with credit := Function.update credit winner.place (credit winner.place - totalWeight eligible) })
  | (credit, none) => (none, { s with credit := credit })

/-- Two at random, the less busy one. -/
def twoRandomChoices (first : Candidate) (rest : List Candidate) (inFlight : Nat → U64) (s : Counters) :
    Candidate × Counters :=
  let (one, s) := nextRandom s
  let (two, s) := nextRandom s
  let one := one.val % (rest.length + 1)
  let two := two.val % (rest.length + 1)
  let a := wrapped first rest one
  let b := wrapped first rest (if two = one then two + 1 else two)
  (if inFlight a.place ≤ inFlight b.place then a else b, s)

def leastConn (inFlight : Nat → U64) : Candidate → List Candidate → Candidate :=
  running fun e best => toLex (inFlight e.place, e.id) < toLex (inFlight best.place, best.id)

def first : Candidate → List Candidate → Candidate :=
  running fun e best => toLex (e.priority.val, e.id) < toLex (best.priority.val, best.id)

/-- FNV-1a over both parts with a separator. -/
def score (key endpointId : String) : U64 :=
  (utf8 key ++ 0 :: utf8 endpointId).foldl
    (fun hash byte => (hash ^^^ Fin.ofNat (2 ^ 64) byte.toNat) * 0x100000001b3) 0xcbf29ce484222325

/-- Every endpoint scored for a key; the highest is taken. -/
def rendezvous (key : String) : Candidate → List Candidate → Candidate :=
  running fun e best => toLex (score key best.id, best.id) < toLex (score key e.id, e.id)

/-- A hash strategy with no key to hash falls back to round robin. -/
def fallback (one : Candidate) (rest : List Candidate) (s : Counters) : Option Selection × Counters :=
  let (chosen, s) := roundRobin one rest s
  (some ⟨chosen, "round-robin", true⟩, s)

/-- Pick an endpoint, or none when nothing is eligible. -/
@[grind =] def select (balance : Balance) (eligible : List Candidate) (inFlight : Nat → U64) (key : RequestKey)
    (s : Counters) : Option Selection × Counters :=
  match eligible with
  | [] => (none, s)
  | [only] => (some ⟨only, name balance, false⟩, s)
  | one :: rest =>
    let plain (chosen : Candidate) : Selection := ⟨chosen, name balance, false⟩
    match balance with
    | .roundRobin => let (chosen, s) := roundRobin one rest s; (some (plain chosen), s)
    | .weightedRoundRobin => let (chosen, s) := weightedRoundRobin (one :: rest) s; (chosen.map plain, s)
    | .random => let (n, s) := nextRandom s; (some (plain (wrapped one rest n.val)), s)
    | .twoRandomChoices => let (chosen, s) := twoRandomChoices one rest inFlight s; (some (plain chosen), s)
    | .leastConn => (some (plain (leastConn inFlight one rest)), s)
    | .first => (some (plain (first one rest)), s)
    | .ipHash =>
      match key.clientIp with
      | some ip => (some (plain (rendezvous ip.toText one rest)), s)
      | none => fallback one rest s
    | .uriHash => (some (plain (rendezvous key.uri one rest)), s)
    | .headerHash _ =>
      match key.header with
      | some value => (some (plain (rendezvous value one rest)), s)
      | none => fallback one rest s
    | .cookieHash _ =>
      match key.cookie with
      | some value => (some (plain (rendezvous value one rest)), s)
      | none => fallback one rest s

/-! What decides by identity does not look at the order of the list. -/

/-- The strategies that choose by a key of the request, the fewest requests or the
priority. -/
def ByIdentity (balance : Balance) (key : RequestKey) : Prop :=
  match balance with
  | .leastConn | .first | .uriHash => True
  | .ipHash => key.clientIp.isSome
  | .headerHash _ => key.header.isSome
  | .cookieHash _ => key.cookie.isSome
  | .roundRobin | .weightedRoundRobin | .random | .twoRandomChoices => False

variable {balance : Balance} {key : RequestKey} {inFlight : Nat → U64} {eligible l : List Candidate}

theorem rendezvous_top (key : String) (one : Candidate) (rest : List Candidate) :
    Top (fun e => toLex (score key e.id, e.id)) (one :: rest) (rendezvous key one rest) :=
  top_running (fun _ _ => Iff.rfl) one rest

theorem leastConn_top (inFlight : Nat → U64) (one : Candidate) (rest : List Candidate) :
    Top (fun e => OrderDual.toDual (toLex (inFlight e.place, e.id))) (one :: rest) (leastConn inFlight one rest) :=
  top_running (fun _ _ => Iff.rfl) one rest

theorem first_top (one : Candidate) (rest : List Candidate) :
    Top (fun e => OrderDual.toDual (toLex (e.priority.val, e.id))) (one :: rest) (first one rest) :=
  top_running (fun _ _ => Iff.rfl) one rest

/-- The choice is the candidate of the greatest rank, and ranks tell ids apart. -/
structure Ranked (balance : Balance) (key : RequestKey) (inFlight : Nat → U64) {β : Type} [LinearOrder β]
    (rank : Candidate → β) : Prop where
  id_of_rank : ∀ a b, rank a = rank b → a.id = b.id
  chosen : ∀ one rest s, ∃ e, select balance (one :: rest) inFlight key s = (some ⟨e, name balance, false⟩, s) ∧
    Top rank (one :: rest) e

theorem ranked_of {β : Type} [LinearOrder β] {rank : Candidate → β} (hid : ∀ a b, rank a = rank b → a.id = b.id)
    {pick : Candidate → List Candidate → Candidate} (htop : ∀ one rest, Top rank (one :: rest) (pick one rest))
    (hselect : ∀ one two rest s, select balance (one :: two :: rest) inFlight key s =
      (some ⟨pick one (two :: rest), name balance, false⟩, s)) : Ranked balance key inFlight rank where
  id_of_rank := hid
  chosen one rest s := by
    cases rest with
    | nil => exact ⟨one, rfl, List.mem_singleton_self one, by simp⟩
    | cons two rest => exact ⟨_, hselect one two rest s, htop one (two :: rest)⟩

theorem id_of_pair {β : Type} {f : Candidate → β} (a b : Candidate)
    (h : toLex (f a, a.id) = toLex (f b, b.id)) : a.id = b.id :=
  (Prod.mk.inj (toLex.injective h)).2

theorem id_of_dual_pair {β : Type} {f : Candidate → β} (a b : Candidate)
    (h : OrderDual.toDual (toLex (f a, a.id)) = OrderDual.toDual (toLex (f b, b.id))) : a.id = b.id :=
  id_of_pair a b (OrderDual.toDual.injective h)

theorem exists_ranked (h : ByIdentity balance key) (inFlight : Nat → U64) :
    ∃ (β : Type) (_ : LinearOrder β) (rank : Candidate → β), Ranked balance key inFlight rank := by
  cases balance with
  | roundRobin | weightedRoundRobin | random | twoRandomChoices => exact h.elim
  | leastConn => exact ⟨_, _, _, ranked_of id_of_dual_pair (leastConn_top inFlight) fun _ _ _ _ => rfl⟩
  | first => exact ⟨_, _, _, ranked_of id_of_dual_pair first_top fun _ _ _ _ => rfl⟩
  | uriHash => exact ⟨_, _, _, ranked_of id_of_pair (rendezvous_top key.uri) fun _ _ _ _ => rfl⟩
  | ipHash =>
    obtain ⟨ip, hip⟩ := Option.isSome_iff_exists.mp h
    refine ⟨_, _, _, ranked_of id_of_pair (rendezvous_top ip.toText) ?_⟩
    intro one two rest s
    simp only [select, hip]
  | headerHash header =>
    obtain ⟨value, hvalue⟩ := Option.isSome_iff_exists.mp h
    refine ⟨_, _, _, ranked_of id_of_pair (rendezvous_top value) ?_⟩
    intro one two rest s
    simp only [select, hvalue]
  | cookieHash cookie =>
    obtain ⟨value, hvalue⟩ := Option.isSome_iff_exists.mp h
    refine ⟨_, _, _, ranked_of id_of_pair (rendezvous_top value) ?_⟩
    intro one two rest s
    simp only [select, hvalue]

theorem eq_of_id (hd : (eligible.map Candidate.id).Nodup) :
    ∀ a ∈ eligible, ∀ b ∈ eligible, a.id = b.id → a = b := by
  intro a ha b hb hab
  exact List.inj_on_of_nodup_map hd ha hb hab

theorem Ranked.select_of_top {β : Type} [LinearOrder β] {rank : Candidate → β} (h : Ranked balance key inFlight rank)
    (hd : (l.map Candidate.id).Nodup) {e : Candidate} (he : Top rank l e) (s : Counters) :
    select balance l inFlight key s = (some ⟨e, name balance, false⟩, s) := by
  cases l with
  | nil => cases he.1
  | cons one rest =>
    obtain ⟨chosen, hselect, htop⟩ := h.chosen one rest s
    have hsame : chosen = e :=
      htop.unique (fun a ha b hb hab => eq_of_id hd a ha b hb (h.id_of_rank a b hab)) he
    rw [hselect, hsame]

/-- A choice by identity is the same in every order of the candidates, stays when others
leave, and moves only to one that joins. -/
theorem identity_selection_stable (h : ByIdentity balance key) (inFlight : Nat → U64) (hne : eligible ≠ [])
    (hd : (eligible.map Candidate.id).Nodup) :
    ∃ chosen ∈ eligible,
      (∀ l s, l.Perm eligible → select balance l inFlight key s = (some ⟨chosen, name balance, false⟩, s)) ∧
      (∀ l s, l.Sublist eligible → chosen ∈ l →
        select balance l inFlight key s = (some ⟨chosen, name balance, false⟩, s)) ∧
      (∀ joined l s, joined.id ∉ eligible.map Candidate.id → l.Perm (joined :: eligible) →
        select balance l inFlight key s = (some ⟨chosen, name balance, false⟩, s) ∨
          select balance l inFlight key s = (some ⟨joined, name balance, false⟩, s)) := by
  obtain ⟨β, _, rank, hrank⟩ := exists_ranked h inFlight
  obtain ⟨one, rest, rfl⟩ := List.exists_cons_of_ne_nil hne
  obtain ⟨chosen, -, htop⟩ := hrank.chosen one rest ⟨0, 0, fun _ => 0⟩
  refine ⟨chosen, htop.1, ?_, ?_, ?_⟩
  · intro l s hp
    exact hrank.select_of_top ((hp.map Candidate.id).nodup_iff.mpr hd) (htop.perm hp.symm) s
  · intro l s hs hmem
    exact hrank.select_of_top (hd.sublist (hs.map Candidate.id)) (htop.of_subset hs.subset hmem) s
  · intro joined l s hnew hp
    have hdj : ((joined :: one :: rest).map Candidate.id).Nodup := List.nodup_cons.mpr ⟨hnew, hd⟩
    have hdl : (l.map Candidate.id).Nodup := (hp.map Candidate.id).nodup_iff.mpr hdj
    obtain ⟨winner, -, hwinner⟩ := hrank.chosen joined (one :: rest) s
    have hselect := hrank.select_of_top hdl (hwinner.perm hp.symm) s
    by_cases hj : winner = joined
    · right
      rw [hselect, hj]
    · left
      have hold : winner = chosen :=
        (hwinner.of_cons hj).unique (fun a ha b hb hab => eq_of_id hd a ha b hb (hrank.id_of_rank a b hab)) htop
      rw [hselect, hold]

/-- Two backends, listed against the order of their names. -/
def two : List Candidate := [⟨0, "b", 1, I32.zero⟩, ⟨1, "a", 1, I32.zero⟩]

def noKey : RequestKey := ⟨none, "/", none, none⟩

/-- Two backends by the fewest requests: one of them is the choice in either order. -/
theorem identity_selection_of_two :
    ∃ chosen ∈ two, ∀ l s, l.Perm two →
      select .leastConn l (fun _ => 0) noKey s = (some ⟨chosen, "least-conn", false⟩, s) := by
  obtain ⟨chosen, hmem, hperm, -⟩ :=
    @identity_selection_stable .leastConn noKey two trivial (fun _ => 0) (by decide) (by decide)
  exact ⟨chosen, hmem, hperm⟩

end Selector
end Gatel.State
