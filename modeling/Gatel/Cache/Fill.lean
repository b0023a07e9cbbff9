import Gatel.Lib.Holdings
import Gatel.Model.Http

namespace Gatel.Fill

/-! Bounded cache fills. -/

def maxFills : Nat := 64

/-- Bytes and number of the unfinished fills. -/
structure Budget where
  maxBytes : U64
  used : Nat × Nat
  deriving DecidableEq

structure Reservation where
  bytes : Nat
  deriving DecidableEq

namespace Budget

def new (maxBytes : U64) : Budget := ⟨maxBytes, (0, 0)⟩

def reserve (b : Budget) (bytes : Nat) : Option (Reservation × Budget) :=
  if b.used.2 ≥ maxFills ∨ bytes > b.maxBytes.val - b.used.1 then none
  else some (⟨bytes⟩, { b with used := (b.used.1 + bytes, b.used.2 + 1) })

/-- A reservation is dropped; nothing where a subtraction underflows. -/
def drop (b : Budget) (r : Reservation) : Option Budget :=
  if r.bytes ≤ b.used.1 ∧ 1 ≤ b.used.2 then some { b with used := (b.used.1 - r.bytes, b.used.2 - 1) } else none

end Budget

/-- What polling a body yields. -/
inductive Event where
  | data (bytes : List UInt8)
  | trailers (fields : HeaderMap)
  | error (text : String)
  deriving DecidableEq

inductive ResBody where
  | once (bytes : List UInt8)
  /-- Polled piece by piece, with a lower bound of its size. -/
  | stream (lower : Nat) (events : List Event)
  deriving DecidableEq

/-- The lower end of the size hint. -/
def ResBody.lower : ResBody → Nat
  | .once bytes => bytes.length
  | .stream lower _ => lower

/-- What is left to be polled. -/
@[grind =] def ResBody.events : ResBody → List Event
  | .once bytes => if bytes = [] then [] else [.data bytes]
  | .stream _ events => events

/-- Frames that were read already, in front of the body they were read from. -/
structure Prefix where
  queue : List Event
  body : List Event
  reservation : Option Reservation
  deriving DecidableEq

/-- The frame and, where it was dropped, the reservation. -/
def Prefix.pollFrame (p : Prefix) : Option Event × Prefix :=
  match p.queue with
  | frame :: queue => (some frame, { p with queue := queue })
  | [] =>
    match p.body with
    | [] => (none, { p with reservation := none })
    | frame :: body => (some frame, { p with body := body, reservation := none })

inductive Body where
  | original (body : ResBody)
  | boxed (p : Prefix)
  deriving DecidableEq

inductive Collected where
  | whole (bytes : List UInt8) (reservation : Option Reservation)
  | tooLarge (body : Body)
  | uncacheable (body : Body)
  deriving DecidableEq

def replay (bytes : List UInt8) (frame : Event) (body : List Event) (reservation : Option Reservation) : Body :=
  .boxed ⟨(if bytes = [] then [] else [.data bytes]) ++ [frame], body, reservation⟩

/-- A body that is being collected. -/
structure Filling where
  limit : Nat
  bytes : List UInt8
  body : List Event
  reservation : Option Reservation
  deriving DecidableEq

/-- One turn of the loop. -/
def Filling.next (f : Filling) : Collected ⊕ Filling :=
  match f.body with
  | [] => .inl (.whole f.bytes f.reservation)
  | .error text :: body => .inl (.uncacheable (replay f.bytes (.error text) body f.reservation))
  | .trailers fields :: body => .inl (.uncacheable (replay f.bytes (.trailers fields) body f.reservation))
  | .data data :: body =>
    if data.length > f.limit - f.bytes.length then .inl (.tooLarge (replay f.bytes (.data data) body f.reservation))
    else .inr { f with bytes := f.bytes ++ data, body := body }

/-- What is decided before the first poll. -/
def start (body : ResBody) (limit : Nat) (reservation : Option Reservation) : Collected ⊕ Filling :=
  if body.lower > limit then .inl (.tooLarge (.original body))
  else match body with
    | .once bytes => .inl (.whole bytes reservation)
    | .stream _ events => .inr ⟨limit, [], events, reservation⟩

/-- Every turn takes an event. -/
theorem Filling.next_body {f f' : Filling} (h : f.next = .inr f') : f'.body.length < f.body.length := by
  unfold next at h
  split at h
  · cases h
  · cases h
  · cases h
  · rename_i data body hbody
    split at h
    · cases h
    · obtain rfl := Sum.inr.inj h
      simp [hbody]

/-- The loop, over the events that are left. -/
def Filling.finish (f : Filling) : Collected :=
  match _h : f.next with
  | .inl collected => collected
  | .inr f' => f'.finish
termination_by f.body.length
decreasing_by exact Filling.next_body _h

def collect (body : ResBody) (limit : Nat) (reservation : Option Reservation) : Collected :=
  match start body limit reservation with
  | .inl collected => collected
  | .inr f => f.finish

/-! What a client hears. -/

@[grind =] def Body.events : Body → List Event
  | .original body => body.events
  | .boxed p => p.queue ++ p.body

@[grind =] def Body.pollFrame : Body → Option Event × Body
  | .original (.once bytes) => if bytes = [] then (none, .original (.once [])) else (some (.data bytes), .original (.once []))
  | .original (.stream lower events) => (events.head?, .original (.stream lower events.tail))
  | .boxed p => (p.pollFrame.1, .boxed p.pollFrame.2)

/-- The data up to the first frame that is none, and what is yielded from there on. -/
@[grind =] def heard : List Event → List UInt8 × List Event
  | .data bytes :: events => (bytes ++ (heard events).1, (heard events).2)
  | events => ([], events)

/-! The fills under way, and what becomes of their reservations. -/

inductive Task where
  | reserved (reservation : Reservation)
  | filling (f : Filling)
  | whole (bytes : List UInt8) (reservation : Option Reservation)
  | passed (body : Body)
  | dropped
  deriving DecidableEq

def Body.held : Body → Option Reservation
  | .original _ => none
  | .boxed p => p.reservation

def Task.held : Task → Option Reservation
  | .reserved reservation => some reservation
  | .filling f => f.reservation
  | .whole _ reservation => reservation
  | .passed body => body.held
  | .dropped => none

def Task.of : Collected ⊕ Filling → Task
  | .inl (.whole bytes reservation) => .whole bytes reservation
  | .inl (.tooLarge body) => .passed body
  | .inl (.uncacheable body) => .passed body
  | .inr f => .filling f

structure State where
  budget : Budget
  tasks : List Task
  deriving DecidableEq

inductive Action where
  | reserve (bytes : Nat)
  /-- A response is collected under a reservation. -/
  | collect (i : Nat) (body : ResBody) (limit : Nat)
  /-- A response is collected without one. -/
  | collectFree (body : ResBody) (limit : Nat)
  /-- The next frame is there. -/
  | frame (i : Nat)
  /-- A body that was handed on is polled. -/
  | poll (i : Nat)
  /-- Whatever is under way is abandoned. -/
  | drop (i : Nat)

/-- A task becomes another; a reservation that the other does not have is dropped. -/
def State.become (s : State) (i : Nat) (old new : Task) : Option State :=
  match old.held, new.held with
  | some r, none => (s.budget.drop r).map fun budget => ⟨budget, s.tasks.set i new⟩
  | _, _ => some { s with tasks := s.tasks.set i new }

/-- One step; nothing where the budget underflows. -/
@[grind =] def step (s : State) : Action → Option State
  | .reserve bytes =>
    match s.budget.reserve bytes with
    | none => some s
    | some (r, budget) => some ⟨budget, s.tasks ++ [.reserved r]⟩
  | .collect i body limit =>
    match s.tasks[i]? with
    | some (.reserved r) => s.become i (.reserved r) (.of (start body limit (some r)))
    | _ => some s
  | .collectFree body limit => some { s with tasks := s.tasks ++ [.of (start body limit none)] }
  | .frame i =>
    match s.tasks[i]? with
    | some (.filling f) => s.become i (.filling f) (.of f.next)
    | _ => some s
  | .poll i =>
    match s.tasks[i]? with
    | some (.passed body) => s.become i (.passed body) (.passed body.pollFrame.2)
    | _ => some s
  | .drop i =>
    match s.tasks[i]? with
    | some task => s.become i task .dropped
    | none => some s

@[grind =] def run : State → List Action → Option State
  | s, [] => some s
  | s, a :: actions => (step s a).bind fun s => run s actions

def State.init (maxBytes : U64) : State := ⟨.new maxBytes, []⟩

def State.live (s : State) : List Reservation := Holdings.all Task.held s.tasks

/-- The budget is what the live reservations hold, within its bounds. -/
structure State.Counted (maxBytes : U64) (s : State) : Prop where
  bound : s.budget.maxBytes = maxBytes
  bytes : s.budget.used.1 = (s.live.map Reservation.bytes).sum
  fills : s.budget.used.2 = s.live.length
  within : s.budget.used.1 ≤ maxBytes.val
  few : s.budget.used.2 ≤ maxFills

/-! Collecting. -/

theorem pollFrame_events (b : Body) : b.pollFrame.1 = b.events.head? ∧ b.pollFrame.2.events = b.events.tail := by
  cases b with
  | original body =>
    cases body with
    | once bytes => by_cases h : bytes = [] <;> simp [Body.pollFrame, Body.events, ResBody.events, h]
    | stream lower events => exact ⟨rfl, rfl⟩
  | boxed p =>
    obtain ⟨queue, body, reservation⟩ := p
    cases queue with
    | nil => cases body <;> exact ⟨rfl, rfl⟩
    | cons frame queue => exact ⟨rfl, rfl⟩

theorem heard_append (datas : List UInt8) (events : List Event) :
    heard ((if datas = [] then [] else [.data datas]) ++ events) = (datas ++ (heard events).1, (heard events).2) := by
  by_cases h : datas = []
  · simp [h]
  · simp [h, heard]

/-- What is handed on of a body: the collected bytes, or a body. -/
@[grind =] def Collected.said : Collected → List UInt8 × List Event
  | .whole bytes _ => (bytes, [])
  | .tooLarge body => heard body.events
  | .uncacheable body => heard body.events

/-- What a turn has read and what it has left are what was there before. -/
def Filling.said (f : Filling) : List UInt8 × List Event := (f.bytes ++ (heard f.body).1, (heard f.body).2)

theorem replay_said (bytes : List UInt8) (frame : Event) (body : List Event) (reservation : Option Reservation) :
    heard (replay bytes frame body reservation).events =
      (bytes ++ (heard (frame :: body)).1, (heard (frame :: body)).2) := by
  rw [replay, Body.events, List.append_assoc, List.singleton_append, heard_append]

theorem next_said (f : Filling) : (f.next.elim Collected.said Filling.said) = f.said := by
  obtain ⟨limit, bytes, body, reservation⟩ := f
  cases body with
  | nil => simp [Filling.next, Filling.said, Collected.said, heard]
  | cons event body =>
    cases event with
    | error text => simp [Filling.next, Filling.said, Collected.said, replay_said]
    | trailers fields => simp [Filling.next, Filling.said, Collected.said, replay_said]
    | data data =>
      by_cases h : data.length > limit - bytes.length
      · simp [Filling.next, Filling.said, Collected.said, replay_said, h]
      · simp [Filling.next, Filling.said, heard, h]

theorem finish_said (f : Filling) : f.finish.said = f.said := by
  have hnext := next_said f
  rw [Filling.finish]
  split
  · rename_i h
    rw [h] at hnext
    exact hnext
  · rename_i f' h
    rw [h] at hnext
    have := Filling.next_body h
    rw [finish_said f']
    exact hnext
termination_by f.body.length

/-- What is handed on says what the body would have said. -/
theorem collect_said (body : ResBody) (limit : Nat) (reservation : Option Reservation) :
    (collect body limit reservation).said = heard body.events := by
  unfold collect start
  by_cases h : body.lower > limit
  · simp [h, Collected.said, Body.events]
  · rw [if_neg h]
    cases body with
    | once bytes => by_cases hb : bytes = [] <;> simp [Collected.said, ResBody.events, hb, heard]
    | stream lower events => simp [finish_said, Filling.said, ResBody.events]

theorem next_clean {f : Filling} {bytes : List UInt8} (h : f.said = (bytes, [])) (hl : bytes.length ≤ f.limit) :
    (f.body = [] ∧ f.bytes = bytes) ∨ ∃ f', f.next = .inr f' ∧ f'.said = (bytes, []) ∧ f'.limit = f.limit ∧
      f'.reservation = f.reservation := by
  have hnext := next_said f
  obtain ⟨limit, read, body, reservation⟩ := f
  cases body with
  | nil => exact .inl ⟨rfl, by simpa [Filling.said, heard] using h⟩
  | cons event body =>
    cases event with
    | error text => simp [Filling.said, heard] at h
    | trailers fields => simp [Filling.said, heard] at h
    | data data =>
      have hbytes : bytes = read ++ (data ++ (heard body).1) := by
        simpa [Filling.said, heard] using (congrArg Prod.fst h).symm
      have hfits : ¬ data.length > limit - read.length := by
        have hlength := congrArg List.length hbytes
        rw [List.length_append, List.length_append] at hlength
        dsimp only at hl
        omega
      have hread : Filling.next ⟨limit, read, .data data :: body, reservation⟩ =
          .inr ⟨limit, read ++ data, body, reservation⟩ := by
        simp [Filling.next, hfits]
      rw [hread] at hnext
      exact .inr ⟨_, hread, hnext.trans h, rfl, rfl⟩

theorem finish_clean {f : Filling} {bytes : List UInt8} (h : f.said = (bytes, [])) (hl : bytes.length ≤ f.limit) :
    f.finish = .whole bytes f.reservation := by
  rcases next_clean h hl with ⟨hbody, hbytes⟩ | ⟨f', hnext, hsaid, hlimit, hreservation⟩
  · have hnext : f.next = .inl (.whole f.bytes f.reservation) := by rw [Filling.next, hbody]
    rw [Filling.finish]
    split
    · rename_i h
      rw [hnext] at h
      rw [← Sum.inl.inj h, hbytes]
    · rename_i h
      rw [hnext] at h
      cases h
  · have hshort := Filling.next_body hnext
    rw [Filling.finish]
    split
    · rename_i h
      rw [hnext] at h
      cases h
    · rename_i g h
      rw [hnext] at h
      obtain rfl := Sum.inr.inj h
      rw [finish_clean hsaid (hlimit ▸ hl), hreservation]
termination_by f.body.length

theorem finish_whole {f : Filling} (hf : f.bytes.length ≤ f.limit) {bytes : List UInt8} {reservation : Option Reservation}
    (h : f.finish = .whole bytes reservation) : bytes.length ≤ f.limit ∧ reservation = f.reservation := by
  rw [Filling.finish] at h
  split at h
  · rename_i collected hnext
    subst h
    unfold Filling.next at hnext
    split at hnext
    · obtain ⟨rfl, rfl⟩ := Collected.whole.inj (Sum.inl.inj hnext)
      exact ⟨hf, rfl⟩
    · cases hnext
    · cases hnext
    · split at hnext <;> cases hnext
  · rename_i f' hnext
    have hshort := Filling.next_body hnext
    have hkept : f'.bytes.length ≤ f'.limit ∧ f'.limit = f.limit ∧ f'.reservation = f.reservation := by
      unfold Filling.next at hnext
      split at hnext
      · cases hnext
      · cases hnext
      · cases hnext
      · split at hnext
        · cases hnext
        · rename_i hfits
          obtain rfl := Sum.inr.inj hnext
          refine ⟨?_, rfl, rfl⟩
          rw [List.length_append]
          dsimp only
          omega
    obtain ⟨hlength, hreservation⟩ := finish_whole hkept.1 h
    exact ⟨hkept.2.1 ▸ hlength, hreservation.trans hkept.2.2⟩
termination_by f.body.length

/-- A body is collected whole if it ends cleanly within the limit, and does not announce more than it has. -/
theorem collect_clean {body : ResBody} {limit : Nat} {bytes : List UInt8} (h : heard body.events = (bytes, []))
    (hl : bytes.length ≤ limit) (hint : body.lower ≤ bytes.length) (reservation : Option Reservation) :
    collect body limit reservation = .whole bytes reservation := by
  unfold collect start
  rw [if_neg (by omega)]
  cases body with
  | once text =>
    have htext : text = bytes := by
      by_cases ht : text = []
      · simpa [ResBody.events, ht, heard] using h
      · simpa [ResBody.events, ht, heard] using h
    rw [htext]
  | stream lower events => exact finish_clean (by simpa [Filling.said, ResBody.events] using h) hl

theorem collect_whole {body : ResBody} {limit : Nat} {bytes : List UInt8} {reservation reservation' : Option Reservation}
    (h : collect body limit reservation = .whole bytes reservation') :
    heard body.events = (bytes, []) ∧ bytes.length ≤ limit ∧ reservation' = reservation := by
  have hsaid := collect_said body limit reservation
  rw [h] at hsaid
  refine ⟨hsaid.symm, ?_⟩
  unfold collect start at h
  by_cases hlower : body.lower > limit
  · simp [hlower] at h
  · rw [if_neg hlower] at h
    cases body with
    | once text =>
      obtain ⟨rfl, rfl⟩ := Collected.whole.inj h
      exact ⟨not_lt.mp hlower, rfl⟩
    | stream lower events =>
      have hwhole := finish_whole (f := ⟨limit, [], events, reservation⟩) (Nat.zero_le limit) h
      exact hwhole

/-! Counting. -/

variable {maxBytes : U64} {s : State} {i : Nat}

theorem State.Counted.of_perm (hs : s.Counted maxBytes) {tasks : List Task} (hp : (Holdings.all Task.held tasks).Perm s.live) :
    State.Counted maxBytes { s with tasks := tasks } where
  bound := hs.bound
  bytes := by
    rw [State.live, (hp.map Reservation.bytes).sum_eq]
    exact hs.bytes
  fills := by
    rw [State.live, hp.length_eq]
    exact hs.fills
  within := hs.within
  few := hs.few

/-- A reservation that is live can be dropped, and is then no longer counted. -/
theorem drop_counted (hs : s.Counted maxBytes) {tasks : List Task} {r : Reservation}
    (hp : (r :: Holdings.all Task.held tasks).Perm s.live) :
    ∃ budget, s.budget.drop r = some budget ∧ State.Counted maxBytes ⟨budget, tasks⟩ := by
  have hbytes : s.budget.used.1 = r.bytes + ((Holdings.all Task.held tasks).map Reservation.bytes).sum := by
    rw [hs.bytes, ← (hp.map Reservation.bytes).sum_eq, List.map_cons, List.sum_cons]
  have hfills : s.budget.used.2 = (Holdings.all Task.held tasks).length + 1 := by
    rw [hs.fills, ← hp.length_eq, List.length_cons]
  have hwithin := hs.within
  have hfew := hs.few
  have hlive : r.bytes ≤ s.budget.used.1 ∧ 1 ≤ s.budget.used.2 := by omega
  refine ⟨_, if_pos hlive, ⟨hs.bound, ?_, ?_, ?_, ?_⟩⟩
  · rw [State.live]
    dsimp only
    omega
  · rw [State.live]
    dsimp only
    omega
  · dsimp only
    omega
  · dsimp only
    omega

theorem become_counted (hs : s.Counted maxBytes) {old new : Task} (hi : s.tasks[i]? = some old)
    (hkeep : new.held = old.held ∨ new.held = none) : ∃ s', s.become i old new = some s' ∧ s'.Counted maxBytes := by
  unfold State.become
  cases hold : old.held with
  | none =>
    have hsame : new.held = old.held := hkeep.elim id fun hn => hn.trans hold.symm
    exact ⟨_, rfl, hs.of_perm (Holdings.all_keep hi hsame)⟩
  | some r =>
    cases hnew : new.held with
    | some r' =>
      have hsame : new.held = old.held := hkeep.elim id fun hn => by simp [hnew] at hn
      exact ⟨_, rfl, hs.of_perm (Holdings.all_keep hi hsame)⟩
    | none =>
      obtain ⟨budget, hdrop, hcounted⟩ := drop_counted hs (Holdings.all_release hi hold hnew)
      exact ⟨_, by simp [hdrop], hcounted⟩

theorem next_held (f : Filling) : (Task.of f.next).held = f.reservation := by
  obtain ⟨limit, bytes, body, reservation⟩ := f
  unfold Filling.next
  cases body with
  | nil => rfl
  | cons event body =>
    cases event with
    | error text => rfl
    | trailers fields => rfl
    | data data =>
      dsimp only
      split <;> rfl

/-- A body that is too large is handed on untouched, without the reservation. -/
theorem start_held (body : ResBody) (limit : Nat) (reservation : Option Reservation) :
    (Task.of (start body limit reservation)).held = reservation ∨ (Task.of (start body limit reservation)).held = none := by
  unfold start
  split
  · exact .inr rfl
  · cases body <;> exact .inl rfl

theorem pollFrame_held (b : Body) : b.pollFrame.2.held = b.held ∨ b.pollFrame.2.held = none := by
  cases b with
  | original body =>
    cases body with
    | once bytes => by_cases h : bytes = [] <;> simp [Body.pollFrame, Body.held, h]
    | stream lower events => exact .inl rfl
  | boxed p =>
    obtain ⟨queue, body, reservation⟩ := p
    cases queue with
    | cons frame queue => exact .inl rfl
    | nil => cases body <;> exact .inr rfl

theorem reserve_counted (hs : s.Counted maxBytes) {bytes : Nat} {r : Reservation} {budget : Budget}
    (h : s.budget.reserve bytes = some (r, budget)) : State.Counted maxBytes ⟨budget, s.tasks ++ [.reserved r]⟩ := by
  unfold Budget.reserve at h
  split at h
  · cases h
  · rename_i hfits
    obtain ⟨rfl, rfl⟩ := Prod.mk.inj (Option.some.inj h)
    have hlive : Holdings.all Task.held (s.tasks ++ [.reserved ⟨bytes⟩]) = s.live ++ [⟨bytes⟩] :=
      Holdings.all_append s.tasks _
    have hbytes := hs.bytes
    have hfills := hs.fills
    have hwithin := hs.within
    have hbound := hs.bound
    refine ⟨hbound, ?_, ?_, ?_, ?_⟩
    · simp [State.live, hlive, hbytes]
    · simp [State.live, hlive, hfills]
    · dsimp only
      rw [hbound] at hfits
      omega
    · dsimp only
      omega

/-- No step underflows, and every step keeps count. -/
theorem step_counted (hs : s.Counted maxBytes) (a : Action) : ∃ s', step s a = some s' ∧ s'.Counted maxBytes := by
  cases a with
  | reserve bytes =>
    rw [step]
    cases h : s.budget.reserve bytes with
    | none => exact ⟨s, rfl, hs⟩
    | some taken => exact ⟨_, rfl, reserve_counted hs h⟩
  | collect i body limit =>
    rw [step]
    split
    · rename_i r hi
      exact become_counted hs hi (start_held body limit (some r))
    · exact ⟨s, rfl, hs⟩
  | collectFree body limit =>
    refine ⟨_, rfl, hs.of_perm ?_⟩
    have hnone : (Task.of (start body limit none)).held = none := (start_held body limit none).elim id id
    rw [Holdings.all_append, hnone, Option.toList_none, List.append_nil]
    exact List.Perm.refl _
  | frame i =>
    rw [step]
    split
    · rename_i f hi
      exact become_counted hs hi (.inl (next_held f))
    · exact ⟨s, rfl, hs⟩
  | poll i =>
    rw [step]
    split
    · rename_i body hi
      exact become_counted hs hi (pollFrame_held body)
    · exact ⟨s, rfl, hs⟩
  | drop i =>
    rw [step]
    cases hi : s.tasks[i]? with
    | none => exact ⟨s, rfl, hs⟩
    | some task => exact become_counted hs hi (.inr rfl)

theorem run_counted (hs : s.Counted maxBytes) (actions : List Action) : ∃ s', run s actions = some s' ∧ s'.Counted maxBytes := by
  induction actions generalizing s with
  | nil => exact ⟨s, rfl, hs⟩
  | cons a actions ih =>
    obtain ⟨s', hstep, hs'⟩ := step_counted hs a
    obtain ⟨s'', hrun, hs''⟩ := ih hs'
    exact ⟨s'', by rw [run, hstep, Option.bind_some, hrun], hs''⟩

theorem init_counted (maxBytes : U64) : (State.init maxBytes).Counted maxBytes :=
  ⟨rfl, rfl, rfl, Nat.zero_le _, Nat.zero_le _⟩

/-- Collecting changes nothing a client hears, keeps whole bodies only, and is paid for from the budget. -/
theorem fill_exact :
    (∀ (body : ResBody) (limit : Nat) (reservation : Option Reservation),
      (collect body limit reservation).said = heard body.events ∧
      (∀ bytes reservation', collect body limit reservation = .whole bytes reservation' →
        heard body.events = (bytes, []) ∧ bytes.length ≤ limit ∧ reservation' = reservation) ∧
      ∀ bytes, heard body.events = (bytes, []) → bytes.length ≤ limit → body.lower ≤ bytes.length →
        collect body limit reservation = .whole bytes reservation) ∧
    (∀ b : Body, b.pollFrame.1 = b.events.head? ∧ b.pollFrame.2.events = b.events.tail) ∧
    ∀ (maxBytes : U64) (actions : List Action), ∃ s, run (.init maxBytes) actions = some s ∧ s.Counted maxBytes := by
  refine ⟨fun body limit reservation => ⟨collect_said body limit reservation, ?_, ?_⟩, pollFrame_events, ?_⟩
  · exact fun _ _ h => collect_whole h
  · exact fun _ h hl hint => collect_clean h hl hint reservation
  · exact fun maxBytes actions => run_counted (init_counted maxBytes) actions

/-- Two frames within the limit. -/
theorem fill_exact_pieces : collect (.stream 0 [.data [1], .data [2]]) 4 none = .whole [1, 2] none :=
  (fill_exact.1 (.stream 0 [.data [1], .data [2]]) 4 none).2.2 [1, 2] rfl (by decide) (by decide)

end Gatel.Fill
