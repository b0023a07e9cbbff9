import Gatel.Lib.KeyedMap
import Gatel.Model.Http
import Gatel.Plan.Upstream
import Gatel.State.Admission

namespace Gatel.State
open KeyedMap (modifyFirst modifyFirst_split)

/-! Physical HTTP/2 connections of one endpoint and the request streams on them. -/

/-- A connection and its reservations. `retired` is shared with the streams on it. -/
structure Entry where
  id : Nat
  address : Option SocketAddr
  opened : Instant
  retired : Bool
  streams : Nat
  idleSince : Instant
  used : Bool
  deriving DecidableEq

structure Multiplex where
  config : Pool
  connections : List Entry
  connecting : Nat
  streams : Nat
  live : Option (List SocketAddr)
  closed : Bool
  reused : Nat
  discarded : Nat
  /-- The objects outside: the connection of every live `Stream`, and armed dials. -/
  reservations : List Nat
  dials : Nat
  /-- How many connections were ever registered. -/
  registered : Nat
  deriving DecidableEq

/-- What pruning sees at its moment: the time, whether nobody waits, and which senders are closed. -/
structure Seen where
  now : Instant
  noWaiters : Bool
  closed : Nat → Bool

/-- What `next` sees of each sender after pruning. -/
structure Look where
  closed : Nat → Bool
  streamLimit : Nat → Nat

inductive Next where
  | lease (id : Nat)
  | dial
  | wait
  | closed
  deriving DecidableEq

namespace Multiplex

def new (config : Pool) (closed : Bool) : Multiplex := ⟨config, [], 0, 0, none, closed, 0, 0, [], 0, 0⟩

/-- An address the name has stopped resolving to. -/
def revoked (live : Option (List SocketAddr)) (address : Option SocketAddr) : Bool :=
  address.any fun a => live.any fun addresses => !(addresses.contains a)

/-- Why pruning retires the connection at this place. -/
def condemns (s : Multiplex) (seen : Seen) (trimIdle : Bool) (e : Entry) (index : Nat) : Bool :=
  let judged := e.used || (trimIdle && seen.noWaiters)
  s.closed || revoked s.live e.address || s.config.maxPerEndpoint.val ≤ index ||
    (judged && s.config.maxLifetime.val ≤ seen.now - e.opened) || seen.closed e.id ||
    (judged && e.streams == 0 && s.config.idleTimeout.val ≤ seen.now - e.idleSince)

def mark (s : Multiplex) (seen : Seen) (trimIdle : Bool) : List Entry :=
  s.connections.mapIdx fun index e => { e with retired := e.retired || s.condemns seen trimIdle e index }

/-- The entries that stay; `kept` counts the idle ones so far. -/
@[grind =] def retained (maxIdle : Nat) (seen : Seen) (trimIdle : Bool) : Nat → List Entry → List Entry
  | _, [] => []
  | kept, e :: es =>
    if e.streams ≠ 0 then e :: retained maxIdle seen trimIdle kept es
    else if e.retired then retained maxIdle seen trimIdle kept es
    else if !e.used && !seen.noWaiters then e :: retained maxIdle seen trimIdle kept es
    else if !trimIdle || kept + 1 ≤ maxIdle then e :: retained maxIdle seen trimIdle (kept + 1) es
    else retained maxIdle seen trimIdle (kept + 1) es

def prune (s : Multiplex) (seen : Seen) (trimIdle : Bool) : Multiplex :=
  let connections := retained s.config.maxIdlePerEndpoint.val seen trimIdle 0 (s.mark seen trimIdle)
  { s with connections := connections, discarded := s.discarded + (s.connections.length - connections.length) }

/-- A connection that takes another stream right now. -/
def takes (s : Multiplex) (look : Look) (e : Entry) : Bool :=
  !e.retired && !look.closed e.id && e.streams < min s.config.maxH2StreamsPerConnection.val (look.streamLimit e.id)

/-- One more stream, after pruning. -/
def select (s : Multiplex) (look : Look) : Next × Multiplex :=
  if s.closed then (.closed, s)
  else if s.config.maxH2StreamsPerEndpoint.val ≤ s.streams then (.wait, s)
  else match s.connections.find? (s.takes look) with
    | some e =>
      (.lease e.id, { s with
        connections := modifyFirst (s.takes look) (fun e => { e with streams := e.streams + 1, used := true }) s.connections
        reused := if e.used then s.reused + 1 else s.reused
        streams := s.streams + 1
        reservations := s.reservations ++ [e.id] })
    | none =>
      if s.connections.length + s.connecting < s.config.maxPerEndpoint.val then
        (.dial, { s with connecting := s.connecting + 1, dials := s.dials + 1 })
      else (.wait, s)

def next (s : Multiplex) (seen : Seen) (look : Look) : Next × Multiplex := (s.prune seen false).select look

def adopt (s : Multiplex) (config : Pool) (seen : Seen) : Multiplex := { s with config := config }.prune seen true

def retire (s : Multiplex) (keep : List SocketAddr) (seen : Seen) : Multiplex := { s with live := some keep }.prune seen true

def drain (s : Multiplex) (seen : Seen) : Multiplex := { s with closed := true }.prune seen true

def finishWait (s : Multiplex) (seen : Seen) : Multiplex := s.prune seen true

/-- `Stream::poison`: only a closed connection is retired. -/
def poison (s : Multiplex) (id : Nat) (closed : Bool) : Multiplex :=
  if closed then
    { s with connections := s.connections.map fun e => if e.id = id then { e with retired := true } else e }
  else s

/-- `Drop for Stream`; `none` is the failed `expect` or an underflow. -/
def dropStream (s : Multiplex) (id : Nat) (seen : Seen) : Option Multiplex := do
  let e ← s.connections.find? fun e => e.id == id
  let left ← checkedSub e.streams 1
  let streams ← checkedSub s.streams 1
  return { s with
    connections := modifyFirst (fun e => e.id == id)
      (fun e => { e with streams := left, idleSince := if left = 0 then seen.now else e.idleSince }) s.connections
    streams := streams
    reservations := s.reservations.erase id }.prune seen true

/-- `Dial::finish` with the new connection. -/
def finish (s : Multiplex) (address : Option SocketAddr) (now : Instant) : Option Multiplex := do
  let connecting ← checkedSub s.connecting 1
  let s := { s with connecting := connecting, dials := s.dials - 1 }
  if !s.closed && !revoked s.live address && s.connections.length < s.config.maxPerEndpoint.val then
    return { s with
      connections := s.connections ++ [⟨s.registered, address, now, false, 0, now, false⟩]
      registered := s.registered + 1 }
  else return { s with discarded := s.discarded + 1 }

/-- `Drop for Dial`, armed. -/
def dropDial (s : Multiplex) : Option Multiplex := do
  let connecting ← checkedSub s.connecting 1
  return { s with connecting := connecting, dials := s.dials - 1 }

inductive Op where
  | next (seen : Seen) (look : Look)
  | dropStream (id : Nat) (seen : Seen)
  | finish (address : Option SocketAddr) (now : Instant)
  | dropDial
  | adopt (config : Pool) (seen : Seen)
  | retire (keep : List SocketAddr) (seen : Seen)
  | drain (seen : Seen)
  | finishWait (seen : Seen)
  | poison (id : Nat) (closed : Bool)

/-- One call under the lock; streams and dials are used only while they live. -/
@[grind =] def step (s : Multiplex) : Op → Option Multiplex
  | .next seen look => some (s.next seen look).2
  | .dropStream id seen => if id ∈ s.reservations then s.dropStream id seen else some s
  | .finish address now => if 0 < s.dials then s.finish address now else some s
  | .dropDial => if 0 < s.dials then s.dropDial else some s
  | .adopt config seen => some (s.adopt config seen)
  | .retire keep seen => some (s.retire keep seen)
  | .drain seen => some (s.drain seen)
  | .finishWait seen => some (s.finishWait seen)
  | .poison id closed => some (if id ∈ s.reservations then s.poison id closed else s)

def run (s : Multiplex) (ops : List Op) : Option Multiplex := ops.foldlM step s

/-! What the counters count. -/

structure Inv (s : Multiplex) : Prop where
  total : s.streams = (s.connections.map Entry.streams).sum
  alive : s.streams = s.reservations.length
  owned : ∀ e ∈ s.connections, s.reservations.count e.id = e.streams
  found : ∀ id ∈ s.reservations, ∃ e ∈ s.connections, e.id = id
  distinct : (s.connections.map Entry.id).Nodup
  numbered : ∀ e ∈ s.connections, e.id < s.registered
  dialling : s.connecting = s.dials

theorem inv_new (config : Pool) (closed : Bool) : (new config closed).Inv :=
  ⟨rfl, rfl, fun _ h => (by cases h), fun _ h => (by cases h), List.nodup_nil, fun _ h => (by cases h), rfl⟩

/-- Marking changes nothing but `retired`. -/
theorem mark_map {β : Type} (f : Entry → β) (hf : ∀ e retired, f { e with retired := retired } = f e) (s : Multiplex)
    (seen : Seen) (trimIdle : Bool) : (s.mark seen trimIdle).map f = s.connections.map f := by
  refine List.ext_getElem (by simp [mark]) ?_
  intro index h₁ h₂
  simp only [mark, List.getElem_map, List.getElem_mapIdx]
  exact hf _ _

theorem mem_mark {s : Multiplex} {seen : Seen} {trimIdle : Bool} {e : Entry} (h : e ∈ s.mark seen trimIdle) :
    ∃ e₀ ∈ s.connections, ∃ index, e = { e₀ with retired := e₀.retired || s.condemns seen trimIdle e₀ index } := by
  obtain ⟨index, hi, rfl⟩ := List.mem_mapIdx.mp h
  exact ⟨_, List.getElem_mem hi, index, rfl⟩

theorem retained_sublist (maxIdle : Nat) (seen : Seen) (trimIdle : Bool) (kept : Nat) (l : List Entry) :
    (retained maxIdle seen trimIdle kept l).Sublist l := by
  induction l generalizing kept with
  | nil => exact .slnil
  | cons e es ih =>
    unfold retained
    split
    · exact (ih kept).cons_cons e
    · split
      · exact (ih kept).cons e
      · split
        · exact (ih kept).cons_cons e
        · split
          · exact (ih (kept + 1)).cons_cons e
          · exact (ih (kept + 1)).cons e

/-- A connection with a stream on it is never removed. -/
theorem mem_retained {maxIdle : Nat} {seen : Seen} {trimIdle : Bool} (kept : Nat) {l : List Entry} {e : Entry}
    (he : e ∈ l) (hs : e.streams ≠ 0) : e ∈ retained maxIdle seen trimIdle kept l := by
  induction l generalizing kept with
  | nil => cases he
  | cons a l ih =>
    unfold retained
    obtain rfl | he := List.mem_cons.mp he
    · rw [if_pos hs]
      exact List.mem_cons_self
    · split
      · exact List.mem_cons_of_mem a (ih kept he)
      · split
        · exact ih kept he
        · split
          · exact List.mem_cons_of_mem a (ih kept he)
          · split
            · exact List.mem_cons_of_mem a (ih (kept + 1) he)
            · exact ih (kept + 1) he

theorem sum_retained (maxIdle : Nat) (seen : Seen) (trimIdle : Bool) (kept : Nat) (l : List Entry) :
    ((retained maxIdle seen trimIdle kept l).map Entry.streams).sum = (l.map Entry.streams).sum := by
  induction l generalizing kept with
  | nil => rfl
  | cons e es ih =>
    unfold retained
    by_cases hs : e.streams ≠ 0
    · rw [if_pos hs, List.map_cons, List.map_cons, List.sum_cons, List.sum_cons, ih kept]
    · have hz : e.streams = 0 := not_not.mp hs
      rw [if_neg hs, List.map_cons, List.sum_cons, hz, Nat.zero_add]
      split
      · exact ih kept
      · split
        · rw [List.map_cons, List.sum_cons, hz, Nat.zero_add, ih kept]
        · split
          · rw [List.map_cons, List.sum_cons, hz, Nat.zero_add, ih (kept + 1)]
          · exact ih (kept + 1)

theorem prune_connections (s : Multiplex) (seen : Seen) (trimIdle : Bool) : (s.prune seen trimIdle).connections =
    retained s.config.maxIdlePerEndpoint.val seen trimIdle 0 (s.mark seen trimIdle) := rfl

theorem prune_length (s : Multiplex) (seen : Seen) (trimIdle : Bool) :
    (s.prune seen trimIdle).connections.length ≤ s.connections.length := by
  rw [prune_connections]
  refine (retained_sublist _ seen trimIdle 0 _).length_le.trans ?_
  rw [mark, List.length_mapIdx]

theorem Inv.prune {s : Multiplex} (h : s.Inv) (seen : Seen) (trimIdle : Bool) : (s.prune seen trimIdle).Inv where
  total := by
    rw [prune_connections, sum_retained, mark_map Entry.streams (fun _ _ => rfl)]
    exact h.total
  alive := h.alive
  owned e he := by
    obtain ⟨e₀, he₀, index, rfl⟩ := mem_mark ((retained_sublist _ seen trimIdle 0 _).subset he)
    exact h.owned e₀ he₀
  found id hid := by
    obtain ⟨e, he, hide⟩ := h.found id hid
    -- it has a stream, so pruning keeps it
    have hs : e.streams ≠ 0 := by
      rw [← h.owned e he, hide]
      exact (List.count_pos_iff.mpr hid).ne'
    obtain ⟨index, hi, hget⟩ := List.mem_iff_getElem.mp he
    refine ⟨{ e with retired := e.retired || s.condemns seen trimIdle e index }, ?_, hide⟩
    refine mem_retained 0 (List.mem_mapIdx.mpr ⟨index, hi, ?_⟩) hs
    rw [hget]
  distinct := by
    have hsub := (retained_sublist s.config.maxIdlePerEndpoint.val seen trimIdle 0 (s.mark seen trimIdle)).map Entry.id
    rw [mark_map Entry.id (fun _ _ => rfl)] at hsub
    exact hsub.nodup h.distinct
  numbered e he := by
    obtain ⟨e₀, he₀, index, rfl⟩ := mem_mark ((retained_sublist _ seen trimIdle 0 _).subset he)
    exact h.numbered e₀ he₀
  dialling := h.dialling

/-- One connection gains or loses a reservation. -/
theorem Inv.change {s : Multiplex} (h : s.Inv) {pre post : List Entry} {e e' : Entry}
    (hc : s.connections = pre ++ e :: post) (hid : e'.id = e.id) {streams : Nat} {reservations : List Nat}
    (hsum : streams + e.streams = s.streams + e'.streams) (halive : streams = reservations.length)
    (hown : reservations.count e.id = e'.streams)
    (hother : ∀ id, id ≠ e.id → reservations.count id = s.reservations.count id) (reused : Nat) :
    Inv { s with
      connections := pre ++ e' :: post
      streams := streams
      reservations := reservations
      reused := reused } := by
  have hids : (pre ++ e' :: post).map Entry.id = s.connections.map Entry.id := by
    rw [hc]
    simp [hid]
  have hne : ∀ a, a ∈ pre ∨ a ∈ post → a.id ≠ e.id := by
    have hd := h.distinct
    rw [hc, List.map_append, List.map_cons] at hd
    intro a ha he
    have hmid := List.nodup_middle.mp hd
    refine (List.nodup_cons.mp hmid).1 ?_
    rw [← he, ← List.map_append]
    exact List.mem_map_of_mem (List.mem_append.mpr ha)
  have hold : ∀ a, a ∈ pre ∨ a ∈ post → a ∈ s.connections := by
    intro a ha
    rw [hc]
    obtain ha | ha := ha
    · exact List.mem_append_left _ ha
    · exact List.mem_append_right _ (List.mem_cons_of_mem e ha)
  have hsplit : ∀ a, a ∈ pre ++ e' :: post ↔ (a ∈ pre ∨ a ∈ post) ∨ a = e' := by
    intro a
    rw [List.mem_append, List.mem_cons, or_assoc, or_comm (a := a ∈ post)]
  refine ⟨?_, halive, ?_, ?_, ?_, ?_, h.dialling⟩
  · have ht := h.total
    rw [hc] at ht
    simp only [List.map_append, List.map_cons, List.sum_append, List.sum_cons] at ht ⊢
    omega
  · intro a ha
    obtain ha | rfl := (hsplit a).mp ha
    · exact (hother a.id (hne a ha)).trans (h.owned a (hold a ha))
    · rw [hid]
      exact hown
  · intro id hmem
    by_cases hide : id = e.id
    · exact ⟨e', (hsplit e').mpr (Or.inr rfl), hid.trans hide.symm⟩
    · have hin : id ∈ s.reservations := by
        rw [← List.count_pos_iff, ← hother id hide]
        exact List.count_pos_iff.mpr hmem
      obtain ⟨a, ha, hai⟩ := h.found id hin
      refine ⟨a, (hsplit a).mpr (Or.inl ?_), hai⟩
      rw [hc, List.mem_append, List.mem_cons] at ha
      obtain ha | rfl | ha := ha
      · exact Or.inl ha
      · exact absurd hai.symm hide
      · exact Or.inr ha
  · change ((pre ++ e' :: post).map Entry.id).Nodup
    rw [hids]
    exact h.distinct
  · intro a ha
    obtain ha | rfl := (hsplit a).mp ha
    · exact h.numbered a (hold a ha)
    · rw [hid]
      refine h.numbered e ?_
      rw [hc]
      exact List.mem_append_right _ List.mem_cons_self

/-- What `select` may answer, and what it leaves. -/
theorem select_cases (s : Multiplex) (look : Look) :
    (s.select look = (.closed, s) ∧ s.closed = true) ∨ s.select look = (.wait, s) ∨
    (s.select look = (.dial, { s with connecting := s.connecting + 1, dials := s.dials + 1 }) ∧ s.closed = false ∧
      s.connections.length + s.connecting < s.config.maxPerEndpoint.val) ∨
    ∃ pre e post reused, s.connections = pre ++ e :: post ∧ s.takes look e = true ∧ s.closed = false ∧
      s.streams < s.config.maxH2StreamsPerEndpoint.val ∧
      s.select look = (.lease e.id, { s with
        connections := pre ++ { e with streams := e.streams + 1, used := true } :: post
        reused := reused
        streams := s.streams + 1
        reservations := s.reservations ++ [e.id] }) := by
  unfold select
  split
  · rename_i hc
    exact Or.inl ⟨rfl, hc⟩
  · rename_i hc
    have hc := Bool.eq_false_iff.mpr hc
    split
    · exact Or.inr (Or.inl rfl)
    · rename_i hs
      split
      · rename_i e he
        obtain ⟨pre, post, hl, hf⟩ := modifyFirst_split he
        refine Or.inr (Or.inr (Or.inr ⟨pre, e, post, if e.used then s.reused + 1 else s.reused, hl, List.find?_some he, hc, Nat.not_le.mp hs, ?_⟩))
        rw [hf]
      · split
        · rename_i hroom
          exact Or.inr (Or.inr (Or.inl ⟨rfl, hc, hroom⟩))
        · exact Or.inr (Or.inl rfl)

theorem Inv.select {s : Multiplex} (h : s.Inv) (look : Look) : (s.select look).2.Inv := by
  obtain ⟨he, _⟩ | he | ⟨he, _⟩ | ⟨pre, e, post, reused, hc, _, _, _, he⟩ := select_cases s look
  · rw [he]
    exact h
  · rw [he]
    exact h
  · rw [he]
    exact ⟨h.total, h.alive, h.owned, h.found, h.distinct, h.numbered, by dsimp only; rw [h.dialling]⟩
  · rw [he]
    have hmem : e ∈ s.connections := by
      rw [hc]
      exact List.mem_append_right _ List.mem_cons_self
    refine h.change hc ?_ ?_ ?_ ?_ ?_ reused
    · rfl
    · dsimp only
      omega
    · rw [List.length_append, List.length_singleton, h.alive]
    · rw [List.count_append, h.owned e hmem, List.count_singleton_self]
    · intro id hne
      rw [List.count_append, List.count_eq_zero_of_not_mem (a := id) (l := [e.id]) (by simpa using hne), Nat.add_zero]

/-- A live stream finds its connection, and nothing underflows. -/
theorem Inv.dropStream {s : Multiplex} (h : s.Inv) {id : Nat} (hid : id ∈ s.reservations) (seen : Seen) :
    ∃ s', s.dropStream id seen = some s' ∧ s'.Inv ∧ s'.streams + 1 = s.streams ∧
      s'.connections.length ≤ s.connections.length ∧ s'.connecting = s.connecting ∧ s'.config = s.config ∧
      s'.reservations = s.reservations.erase id ∧ s'.closed = s.closed := by
  obtain ⟨a, ha, hai⟩ := h.found id hid
  have hfind : (s.connections.find? fun e => e.id == id) = some a := by
    cases hf : s.connections.find? fun e => e.id == id with
    | none => exact absurd (by simpa using hai) (List.find?_eq_none.mp hf a ha)
    | some b =>
      have hb : b.id = id := by simpa using List.find?_some hf
      rw [List.inj_on_of_nodup_map h.distinct (List.mem_of_find?_eq_some hf) ha (hb.trans hai.symm)]
  obtain ⟨pre, post, hc, hmod⟩ := modifyFirst_split hfind
  have hcount : 0 < s.reservations.count id := List.count_pos_iff.mpr hid
  have hown : s.reservations.count id = a.streams := hai ▸ h.owned a ha
  have hpos : 1 ≤ s.streams := by
    rw [h.alive]
    exact List.length_pos_of_mem hid
  unfold Multiplex.dropStream
  rw [hfind]
  dsimp only [Option.bind_eq_bind, Option.bind_some]
  rw [Admission.checkedSub_of_le (by omega)]
  dsimp only [Option.bind_some]
  rw [Admission.checkedSub_of_le hpos, hmod]
  have hchanged : Inv { s with
      connections := pre ++ { a with
        streams := a.streams - 1, idleSince := if a.streams - 1 = 0 then seen.now else a.idleSince } :: post
      streams := s.streams - 1
      reservations := s.reservations.erase id } := by
    refine h.change hc ?_ ?_ ?_ ?_ ?_ s.reused
    · rfl
    · dsimp only
      omega
    · rw [List.length_erase_of_mem hid, h.alive]
    · rw [hai, List.count_erase_self]
      dsimp only
      omega
    · intro id' hne
      exact List.count_erase_of_ne (by rw [← hai]; exact hne)
  refine ⟨_, rfl, hchanged.prune seen true, ?_, ?_, rfl, rfl, rfl, rfl⟩
  · change s.streams - 1 + 1 = s.streams
    omega
  · refine (prune_length _ seen true).trans ?_
    dsimp only
    rw [hc]
    simp

theorem Inv.finish {s : Multiplex} (h : s.Inv) (hd : 0 < s.dials) (address : Option SocketAddr) (now : Instant) :
    ∃ s', s.finish address now = some s' ∧ s'.Inv ∧ s'.streams = s.streams ∧
      s'.connections.length + s'.connecting ≤ s.connections.length + s.connecting ∧ s'.config = s.config ∧
      s'.reservations = s.reservations ∧ s'.closed = s.closed := by
  have hdial := h.dialling
  unfold Multiplex.finish
  rw [Admission.checkedSub_of_le (by omega)]
  dsimp only [Option.bind_eq_bind, Option.bind_some]
  split
  · refine ⟨_, rfl, ⟨?_, h.alive, ?_, ?_, ?_, ?_, ?_⟩, rfl, ?_, rfl, rfl, rfl⟩
    · rw [List.map_append, List.sum_append]
      exact h.total
    · intro e he
      obtain he | he := List.mem_append.mp he
      · exact h.owned e he
      · obtain rfl := List.mem_singleton.mp he
        rw [List.count_eq_zero]
        intro hin
        obtain ⟨a, ha, hai⟩ := h.found _ hin
        exact absurd (hai ▸ h.numbered a ha) (lt_irrefl _)
    · intro id hid
      obtain ⟨e, he, hei⟩ := h.found id hid
      exact ⟨e, List.mem_append_left _ he, hei⟩
    · rw [List.map_append]
      refine (List.perm_append_singleton _ _).nodup_iff.mpr (List.nodup_cons.mpr ⟨?_, h.distinct⟩)
      intro hin
      obtain ⟨a, ha, hai⟩ := List.mem_map.mp hin
      exact absurd (hai ▸ h.numbered a ha) (lt_irrefl _)
    · intro e he
      obtain he | he := List.mem_append.mp he
      · exact Nat.lt_succ_of_lt (h.numbered e he)
      · obtain rfl := List.mem_singleton.mp he
        exact Nat.lt_succ_self _
    · dsimp only
      omega
    · rw [List.length_append, List.length_singleton]
      dsimp only
      omega
  · refine ⟨_, rfl, ⟨h.total, h.alive, h.owned, h.found, h.distinct, h.numbered, ?_⟩, rfl, ?_, rfl, rfl, rfl⟩
    · dsimp only
      omega
    · dsimp only
      omega

theorem Inv.dropDial {s : Multiplex} (h : s.Inv) (hd : 0 < s.dials) :
    ∃ s', s.dropDial = some s' ∧ s'.Inv ∧ s'.streams = s.streams ∧
      s'.connections.length + s'.connecting ≤ s.connections.length + s.connecting ∧ s'.config = s.config ∧
      s'.reservations = s.reservations ∧ s'.closed = s.closed := by
  have hdial := h.dialling
  unfold Multiplex.dropDial
  rw [Admission.checkedSub_of_le (by omega)]
  refine ⟨_, rfl, ⟨h.total, h.alive, h.owned, h.found, h.distinct, h.numbered, ?_⟩, rfl, ?_, rfl, rfl, rfl⟩
  · dsimp only
    omega
  · dsimp only
    omega

theorem Inv.poison {s : Multiplex} (h : s.Inv) (id : Nat) (closed : Bool) : (s.poison id closed).Inv := by
  unfold Multiplex.poison
  split
  · have hsame : ∀ {β : Type} (f : Entry → β), (∀ e, f { e with retired := true } = f e) →
        (s.connections.map fun e => if e.id = id then { e with retired := true } else e).map f = s.connections.map f := by
      intro β f hf
      rw [List.map_map]
      refine List.map_congr_left ?_
      intro e _
      simp only [Function.comp_apply]
      split
      · exact hf e
      · rfl
    refine ⟨?_, h.alive, ?_, ?_, ?_, ?_, h.dialling⟩
    · rw [hsame Entry.streams fun _ => rfl]
      exact h.total
    · intro e he
      obtain ⟨a, ha, rfl⟩ := List.mem_map.mp he
      split
      · exact h.owned a ha
      · exact h.owned a ha
    · intro id' hid
      obtain ⟨a, ha, hai⟩ := h.found id' hid
      refine ⟨_, List.mem_map_of_mem ha, ?_⟩
      split
      · exact hai
      · exact hai
    · rw [hsame Entry.id fun _ => rfl]
      exact h.distinct
    · intro e he
      obtain ⟨a, ha, rfl⟩ := List.mem_map.mp he
      split
      · exact h.numbered a ha
      · exact h.numbered a ha
  · exact h

/-- What any step leaves: streams and connections within their limits or no more than
before, and no reservation gone that was not dropped. -/
structure Steps (s : Multiplex) (op : Op) (s' : Multiplex) : Prop where
  inv : s'.Inv
  streams : s'.streams ≤ max s.streams s'.config.maxH2StreamsPerEndpoint.val
  connections : s'.connections.length + s'.connecting ≤
    max (s.connections.length + s.connecting) s'.config.maxPerEndpoint.val
  config : (∀ config seen, op ≠ .adopt config seen) → s'.config = s.config
  adopted : ∀ config seen, op = .adopt config seen → s'.config = config ∧ s'.streams = s.streams ∧
    s'.connections.length + s'.connecting ≤ s.connections.length + s.connecting
  reserved : ∀ id, (∀ seen, op ≠ .dropStream id seen) → s.reservations.count id ≤ s'.reservations.count id
  closed : s.closed = true → s'.closed = true

theorem Inv.next {s : Multiplex} (h : s.Inv) (seen : Seen) (look : Look) : Steps s (.next seen look) (s.next seen look).2 := by
  have hlen := s.prune_length seen false
  have hinv := (h.prune seen false).select look
  have hs : (s.prune seen false).streams = s.streams := rfl
  have hc : (s.prune seen false).connecting = s.connecting := rfl
  have hconf : (s.prune seen false).config = s.config := rfl
  refine ⟨hinv, ?_, ?_, ?_, fun _ _ he => (by cases he), ?_, ?_⟩
  · unfold Multiplex.next
    obtain ⟨he, _⟩ | he | ⟨he, _⟩ | ⟨pre, e, post, reused, _, _, _, hroom, he⟩ := select_cases (s.prune seen false) look
    · rw [he]
      exact le_max_left ..
    · rw [he]
      exact le_max_left ..
    · rw [he]
      exact le_max_left ..
    · rw [he]
      refine le_max_of_le_right ?_
      rw [hs, hconf] at hroom
      exact hroom
  · unfold Multiplex.next
    obtain ⟨he, _⟩ | he | ⟨he, _, hroom⟩ | ⟨pre, e, post, reused, hsplit, _, _, _, he⟩ :=
      select_cases (s.prune seen false) look
    · rw [he]
      exact le_max_of_le_left (Nat.add_le_add_right hlen _)
    · rw [he]
      exact le_max_of_le_left (Nat.add_le_add_right hlen _)
    · rw [he]
      refine le_max_of_le_right ?_
      rw [hc, hconf] at hroom
      dsimp only
      rw [hc, hconf]
      omega
    · rw [he]
      refine le_max_of_le_left ?_
      have hl : (pre ++ { e with streams := e.streams + 1, used := true } :: post).length =
          (s.prune seen false).connections.length := by
        rw [hsplit]
        simp
      dsimp only
      rw [hl, hc]
      omega
  · intro _
    unfold Multiplex.next
    obtain ⟨he, _⟩ | he | ⟨he, _⟩ | ⟨_, _, _, _, _, _, _, _, he⟩ := select_cases (s.prune seen false) look <;> rw [he] <;> rfl
  · intro id _
    unfold Multiplex.next
    obtain ⟨he, _⟩ | he | ⟨he, _⟩ | ⟨_, _, _, _, _, _, _, _, he⟩ := select_cases (s.prune seen false) look
    · rw [he]
      exact le_refl _
    · rw [he]
      exact le_refl _
    · rw [he]
      exact le_refl _
    · rw [he]
      dsimp only
      rw [List.count_append]
      exact Nat.le_add_right _ _
  · intro hclosed
    unfold Multiplex.next
    have hcl : (s.prune seen false).closed = true := hclosed
    rw [Multiplex.select, if_pos hcl]
    exact hcl

/-- Pruning after the lists or the limits changed. -/
theorem Inv.pruned {s : Multiplex} (h : s.Inv) (seen : Seen) :
    (s.prune seen true).Inv ∧ (s.prune seen true).connections.length + s.connecting ≤
      s.connections.length + s.connecting :=
  ⟨h.prune seen true, Nat.add_le_add_right (s.prune_length seen true) _⟩

theorem poison_fields (s : Multiplex) (id : Nat) (closed : Bool) :
    (s.poison id closed).streams = s.streams ∧ (s.poison id closed).connecting = s.connecting ∧
      (s.poison id closed).connections.length = s.connections.length ∧ (s.poison id closed).config = s.config ∧
      (s.poison id closed).reservations = s.reservations ∧ (s.poison id closed).closed = s.closed := by
  unfold poison
  split
  · exact ⟨rfl, rfl, List.length_map _, rfl, rfl, rfl⟩
  · exact ⟨rfl, rfl, rfl, rfl, rfl, rfl⟩

/-- Every step succeeds and stays within the limits, or does not exceed them further. -/
theorem step_spec {s : Multiplex} (h : s.Inv) (op : Op) : ∃ s', s.step op = some s' ∧ Steps s op s' := by
  have hquiet : ∀ {s' : Multiplex}, (∀ config seen, op ≠ .adopt config seen) → s'.Inv → s'.streams = s.streams →
      s'.connections.length + s'.connecting ≤ s.connections.length + s.connecting → s'.config = s.config →
      s'.reservations = s.reservations → (s.closed = true → s'.closed = true) → Steps s op s' := by
    intro s' hop hi hst hl hconf hr hc
    exact ⟨hi, le_max_of_le_left hst.le, le_max_of_le_left hl, fun _ => hconf, fun c seen he => absurd he (hop c seen),
      fun id _ => by rw [hr], hc⟩
  have hsame : (∀ config seen, op ≠ .adopt config seen) → ∃ s', some s = some s' ∧ Steps s op s' :=
    fun hop => ⟨s, rfl, hquiet hop h rfl (le_refl _) rfl rfl id⟩
  cases op with
  | next seen look => exact ⟨_, rfl, h.next seen look⟩
  | dropStream id seen =>
    simp only [step]
    split
    · rename_i hid
      obtain ⟨s', hs', hi, hst, hl, hcn, hconf, hr, hcl⟩ := h.dropStream hid seen
      refine ⟨s', hs', hi, le_max_of_le_left (by omega), le_max_of_le_left (by omega), fun _ => hconf,
        fun _ _ he => (by cases he), ?_, fun hc => hcl.trans hc⟩
      intro id' hne
      have hne : id' ≠ id := fun he => hne seen (by rw [he])
      rw [hr, List.count_erase_of_ne hne]
    · exact hsame fun _ _ he => by cases he
  | finish address now =>
    simp only [step]
    split
    · rename_i hd
      obtain ⟨s', hs', hi, hst, hl, hconf, hr, hcl⟩ := h.finish hd address now
      exact ⟨s', hs', hquiet (fun _ _ he => by cases he) hi hst hl hconf hr fun hc => hcl.trans hc⟩
    · exact hsame fun _ _ he => by cases he
  | dropDial =>
    simp only [step]
    split
    · rename_i hd
      obtain ⟨s', hs', hi, hst, hl, hconf, hr, hcl⟩ := h.dropDial hd
      exact ⟨s', hs', hquiet (fun _ _ he => by cases he) hi hst hl hconf hr fun hc => hcl.trans hc⟩
    · exact hsame fun _ _ he => by cases he
  | adopt config seen =>
    have hi : Inv { s with config := config } :=
      ⟨h.total, h.alive, h.owned, h.found, h.distinct, h.numbered, h.dialling⟩
    obtain ⟨hp, hl⟩ := hi.pruned seen
    refine ⟨_, rfl, hp, le_max_left .., le_max_of_le_left hl, fun hne => absurd rfl (hne config seen), ?_,
      fun _ _ => le_refl _, id⟩
    intro config' seen' he
    cases he
    exact ⟨rfl, rfl, hl⟩
  | retire keep seen =>
    have hi : Inv { s with live := some keep } :=
      ⟨h.total, h.alive, h.owned, h.found, h.distinct, h.numbered, h.dialling⟩
    obtain ⟨hp, hl⟩ := hi.pruned seen
    exact ⟨_, rfl, hquiet (fun _ _ he => by cases he) hp rfl hl rfl rfl id⟩
  | drain seen =>
    have hi : Inv { s with closed := true } :=
      ⟨h.total, h.alive, h.owned, h.found, h.distinct, h.numbered, h.dialling⟩
    obtain ⟨hp, hl⟩ := hi.pruned seen
    exact ⟨_, rfl, hquiet (fun _ _ he => by cases he) hp rfl hl rfl rfl fun _ => rfl⟩
  | finishWait seen =>
    obtain ⟨hp, hl⟩ := h.pruned seen
    exact ⟨_, rfl, hquiet (fun _ _ he => by cases he) hp rfl hl rfl rfl id⟩
  | poison id closed =>
    simp only [step]
    split
    · obtain ⟨hst, hcn, hl, hconf, hr, hcl⟩ := s.poison_fields id closed
      exact ⟨_, rfl, hquiet (fun _ _ he => by cases he) (h.poison id closed) hst (by rw [hl, hcn]) hconf hr
        fun hc => hcl.trans hc⟩
    · exact hsame fun _ _ he => by cases he

theorem run_inv {s : Multiplex} (h : s.Inv) (ops : List Op) : ∃ s', s.run ops = some s' ∧ s'.Inv := by
  induction ops generalizing s with
  | nil => exact ⟨s, rfl, h⟩
  | cons op ops ih =>
    obtain ⟨b, hb, hsteps⟩ := step_spec h op
    obtain ⟨c, hc, hi⟩ := ih hsteps.inv
    refine ⟨c, ?_, hi⟩
    rw [run, List.foldlM_cons, hb]
    exact hc

end Multiplex

end Gatel.State
