import Gatel.Lib.Semaphore
import Gatel.Model.Value

namespace Gatel.State

/-! Permits that keep a target capacity while occupied slots drain after a shrink. The pool
and the listener admit by the same code; requests are known by a label. -/

/-- Subtraction that fails below zero. -/
def checkedSub (a b : Nat) : Option Nat := if b ≤ a then some (a - b) else none

structure Admission (ρ : Type) where
  permits : Semaphore ρ
  /-- Permits in existence, free or not. -/
  allocated : Nat
  /-- The capacity asked for last. -/
  wanted : Nat
  /-- Requests that were polled with a permit and not yet approved. -/
  taken : List ρ
  /-- Live reservations. -/
  approved : List ρ
  deriving DecidableEq

namespace Admission

variable {ρ : Type}

/-- The pool's admission of one endpoint; a draining pool makes it closed. -/
def new (maxPerEndpoint : U32) (closed : Bool) : Admission ρ where
  permits := if closed then (Semaphore.new maxPerEndpoint.val).close else .new maxPerEndpoint.val
  allocated := maxPerEndpoint.val
  wanted := maxPerEndpoint.val
  taken := []
  approved := []

/-- The listener's admission of connections, sized once it is configured. -/
def listener : Admission ρ := ⟨.new 0, 0, 0, [], []⟩

/-- Grow at once, or shrink by what is free and leave the rest to be repaid; `adopt` in the
pool and `resize` in the listener. `none` is an underflow. -/
def resize (a : Admission ρ) (wanted : U32) : Option (Admission ρ) := do
  if a.allocated < wanted.val then
    return { a with
      wanted := wanted.val
      permits := a.permits.addPermits (wanted.val - a.allocated)
      allocated := wanted.val }
  else
    let debt ← checkedSub a.allocated wanted.val
    let (removed, permits) := a.permits.forgetPermits debt
    let allocated ← checkedSub a.allocated removed
    return { a with wanted := wanted.val, permits := permits, allocated := allocated }

/-- One turn of the loop in `acquire`, up to the first wait. -/
def request (a : Admission ρ) (r : ρ) : Admission ρ :=
  let (grant, permits) := a.permits.acquire r
  { a with permits := permits, taken := if grant = .ready then a.taken ++ [r] else a.taken }

/-- What can happen, each under the lock or at the semaphore. -/
inductive Op (ρ : Type) where
  | request (r : ρ)
  | poll (r : ρ)
  | decide (r : ρ)
  | cancel (r : ρ)
  | drop (r : ρ)
  | resize (wanted : U32)
  | close
  deriving DecidableEq

section
variable [DecidableEq ρ]

/-- A request that waited is polled again. -/
def poll (a : Admission ρ) (r : ρ) : Admission ρ :=
  let (grant, permits) := a.permits.poll r
  { a with permits := permits, taken := if grant = .ready then a.taken ++ [r] else a.taken }

/-- A request with a permit takes the lock: shrink debt is paid first and the loop goes on. -/
def decide (a : Admission ρ) (r : ρ) : Option (Admission ρ) :=
  if r ∈ a.taken then
    if a.wanted < a.allocated then do
      let allocated ← checkedSub a.allocated 1
      return { a with taken := a.taken.erase r, allocated := allocated }.request r
    else
      some { a with taken := a.taken.erase r, approved := a.approved ++ [r] }
  else some a

/-- `Drop for Permit`. -/
def drop (a : Admission ρ) (r : ρ) : Option (Admission ρ) :=
  if r ∈ a.approved then
    if a.wanted < a.allocated then do
      let allocated ← checkedSub a.allocated 1
      return { a with approved := a.approved.erase r, allocated := allocated }
    else
      some { a with approved := a.approved.erase r, permits := a.permits.release }
  else some a

@[grind =] def step (a : Admission ρ) : Op ρ → Option (Admission ρ)
  | .request r => some (a.request r)
  | .poll r => some (a.poll r)
  | .decide r => a.decide r
  | .cancel r => some { a with permits := a.permits.cancel r }
  | .drop r => a.drop r
  | .resize wanted => a.resize wanted
  | .close => some { a with permits := a.permits.close }

@[grind =] def run (a : Admission ρ) (ops : List (Op ρ)) : Option (Admission ρ) := ops.foldlM step a

end

/-- Permits given to a request that is not approved yet. -/
def assigned (a : Admission ρ) : Nat := a.permits.assigned.length + a.taken.length

/-- No permit is lost or invented, and there are never fewer than wanted. -/
structure Inv (a : Admission ρ) : Prop where
  sum : a.allocated = a.permits.unheld + a.taken.length + a.approved.length
  enough : a.wanted ≤ a.allocated
  fits : a.allocated < 2 ^ 32
  fair : a.permits.Fair

/-- What a step may do to a sound admission: approve only without debt and within the
target, and change the target only by a resize. -/
structure Steps (a : Admission ρ) (op : Op ρ) (a' : Admission ρ) : Prop where
  inv : a'.Inv
  approves : a.approved.length < a'.approved.length → a.allocated = a.wanted ∧ a'.approved.length ≤ a'.wanted
  target : (∀ wanted, op ≠ .resize wanted) → a'.wanted = a.wanted

theorem checkedSub_of_le {a b : Nat} (h : b ≤ a) : checkedSub a b = some (a - b) := if_pos h

theorem inv_new (max : U32) (closed : Bool) : (new max closed : Admission ρ).Inv := by
  have hmax := max.isLt
  cases closed with
  | false => exact ⟨by simp [new, Semaphore.unheld, Semaphore.new], le_refl _, hmax, Semaphore.Fair.new _⟩
  | true =>
    refine ⟨?_, le_refl _, hmax, Semaphore.Fair.close⟩
    simp [new, Semaphore.unheld, Semaphore.new, Semaphore.close]

theorem inv_listener : (listener : Admission ρ).Inv :=
  ⟨rfl, le_refl _, by simp [listener], Semaphore.Fair.new _⟩

theorem inv_request {a : Admission ρ} (h : a.Inv) (r : ρ) : (a.request r).Inv ∧ (a.request r).approved = a.approved ∧
    (a.request r).wanted = a.wanted := by
  have hu := a.permits.acquire_unheld r
  have hf := h.fair.acquire r
  have hs := h.sum
  refine ⟨⟨?_, h.enough, h.fits, hf⟩, rfl, rfl⟩
  simp only [request]
  split at hu
  · rename_i hg
    rw [if_pos hg, List.length_append, List.length_singleton]
    omega
  · rename_i hg
    rw [if_neg hg]
    omega

theorem resize_spec {a : Admission ρ} (h : a.Inv) (wanted : U32) :
    ∃ a', a.resize wanted = some a' ∧ Steps a (.resize wanted) a' := by
  have hs := h.sum
  have hb := h.fits
  have hwanted := wanted.isLt
  unfold resize
  split
  · rename_i hgrow
    refine ⟨_, rfl, ⟨?_, le_refl _, hwanted, h.fair.addPermits _⟩, fun hg => absurd hg (lt_irrefl _), fun hne => ?_⟩
    · rw [Semaphore.addPermits_unheld]
      dsimp only
      omega
    · exact absurd rfl (hne wanted)
  · rename_i hshrink
    have hf := a.permits.forgetPermits_unheld (a.allocated - wanted.val)
    have hremoved : (a.permits.forgetPermits (a.allocated - wanted.val)).1 ≤ a.allocated - wanted.val :=
      Nat.min_le_left ..
    rw [checkedSub_of_le (by omega)]
    dsimp only [Option.bind_eq_bind, Option.bind_some]
    rw [checkedSub_of_le (by omega)]
    refine ⟨_, rfl, ⟨?_, ?_, ?_, h.fair.forgetPermits _⟩, fun hg => absurd hg (lt_irrefl _), fun hne => ?_⟩
    · dsimp only
      omega
    · dsimp only
      omega
    · dsimp only
      omega
    · exact absurd rfl (hne wanted)

section
variable [DecidableEq ρ]

theorem inv_poll {a : Admission ρ} (h : a.Inv) (r : ρ) : (a.poll r).Inv := by
  have hu := a.permits.poll_unheld r
  have hf := h.fair.poll r
  have hs := h.sum
  refine ⟨?_, h.enough, h.fits, hf⟩
  simp only [poll]
  split at hu
  · rename_i hg
    rw [if_pos hg, List.length_append, List.length_singleton]
    omega
  · rename_i hg
    rw [if_neg hg]
    omega

theorem length_erase_add_one {r : ρ} {l : List ρ} (h : r ∈ l) : (l.erase r).length + 1 = l.length := by
  have hpos := List.length_pos_of_mem h
  rw [List.length_erase_of_mem h]
  omega

theorem decide_spec {a : Admission ρ} (h : a.Inv) (r : ρ) : ∃ a', a.decide r = some a' ∧ Steps a (.decide r) a' := by
  have hs := h.sum
  have he := h.enough
  have hb := h.fits
  unfold decide
  split
  · rename_i hr
    have hl := length_erase_add_one hr
    split
    · rename_i hdebt
      rw [checkedSub_of_le (by omega)]
      have hpaid : ({ a with taken := a.taken.erase r, allocated := a.allocated - 1 } : Admission ρ).Inv :=
        ⟨by dsimp only; omega, by dsimp only; omega, by dsimp only; omega, h.fair⟩
      obtain ⟨hi, ha, hw⟩ := inv_request hpaid r
      refine ⟨_, rfl, hi, ?_, fun _ => hw⟩
      intro hgrow
      rw [ha] at hgrow
      exact absurd hgrow (lt_irrefl _)
    · rename_i hdebt
      refine ⟨_, rfl, ⟨?_, h.enough, h.fits, h.fair⟩, ?_, fun _ => rfl⟩
      · simp only [List.length_append, List.length_singleton]
        omega
      · intro _
        simp only [List.length_append, List.length_singleton]
        omega
  · exact ⟨a, rfl, h, fun hgrow => absurd hgrow (lt_irrefl _), fun _ => rfl⟩

theorem drop_spec {a : Admission ρ} (h : a.Inv) (r : ρ) : ∃ a', a.drop r = some a' ∧ Steps a (.drop r) a' := by
  have hs := h.sum
  have he := h.enough
  have hb := h.fits
  unfold drop
  split
  · rename_i hr
    have hl := length_erase_add_one hr
    split
    · rename_i hdebt
      rw [checkedSub_of_le (by omega)]
      refine ⟨_, rfl, ⟨by dsimp only; omega, by dsimp only; omega, by dsimp only; omega, h.fair⟩, ?_, fun _ => rfl⟩
      intro hgrow
      dsimp only at hgrow
      omega
    · refine ⟨_, rfl, ⟨?_, h.enough, h.fits, h.fair.release⟩, ?_, fun _ => rfl⟩
      · rw [Semaphore.release_unheld]
        dsimp only
        omega
      · intro hgrow
        dsimp only at hgrow
        omega
  · exact ⟨a, rfl, h, fun hgrow => absurd hgrow (lt_irrefl _), fun _ => rfl⟩

/-- Every step of a sound admission succeeds. -/
theorem step_spec {a : Admission ρ} (h : a.Inv) (op : Op ρ) : ∃ a', a.step op = some a' ∧ Steps a op a' := by
  have hsame : ∀ {a' : Admission ρ}, a'.Inv → a'.approved = a.approved → a'.wanted = a.wanted → Steps a op a' := by
    intro a' hi ha hw
    refine ⟨hi, ?_, fun _ => hw⟩
    intro hgrow
    rw [ha] at hgrow
    exact absurd hgrow (lt_irrefl _)
  cases op with
  | request r =>
    obtain ⟨hi, ha, hw⟩ := inv_request h r
    exact ⟨_, rfl, hsame hi ha hw⟩
  | poll r => exact ⟨_, rfl, hsame (inv_poll h r) rfl rfl⟩
  | decide r => exact decide_spec h r
  | cancel r =>
    refine ⟨_, rfl, hsame ⟨?_, h.enough, h.fits, h.fair.cancel r⟩ rfl rfl⟩
    rw [Semaphore.cancel_unheld]
    exact h.sum
  | drop r => exact drop_spec h r
  | resize wanted => exact resize_spec h wanted
  | close => exact ⟨_, rfl, hsame ⟨h.sum, h.enough, h.fits, Semaphore.Fair.close⟩ rfl rfl⟩

theorem run_append (a : Admission ρ) (ops ops' : List (Op ρ)) :
    a.run (ops ++ ops') = (a.run ops).bind fun b => b.run ops' := List.foldlM_append

/-- Every run of a sound admission succeeds and leaves it sound. -/
theorem run_inv {a : Admission ρ} (h : a.Inv) (ops : List (Op ρ)) : ∃ a', a.run ops = some a' ∧ a'.Inv := by
  induction ops generalizing a with
  | nil => exact ⟨a, rfl, h⟩
  | cons op ops ih =>
    obtain ⟨b, hb, hsteps⟩ := step_spec h op
    obtain ⟨c, hc, hi⟩ := ih hsteps.inv
    refine ⟨c, ?_, hi⟩
    rw [run, List.foldlM_cons, hb]
    exact hc

/-- Without a resize the target stays, and approvals never pass it once they are within. -/
theorem run_within {a : Admission ρ} (h : a.Inv) (hw : a.approved.length ≤ a.wanted) {ops : List (Op ρ)}
    (hops : ∀ op ∈ ops, ∀ wanted, op ≠ .resize wanted) {a' : Admission ρ} (hr : a.run ops = some a') :
    a'.wanted = a.wanted ∧ a'.approved.length ≤ a.wanted := by
  induction ops generalizing a with
  | nil =>
    cases hr
    exact ⟨rfl, hw⟩
  | cons op ops ih =>
    obtain ⟨b, hb, hsteps⟩ := step_spec h op
    rw [run, List.foldlM_cons, hb] at hr
    have htarget := hsteps.target (hops op List.mem_cons_self)
    have hwithin : b.approved.length ≤ b.wanted := by
      by_cases hgrow : a.approved.length < b.approved.length
      · exact (hsteps.approves hgrow).2
      · omega
    obtain ⟨ht, hl⟩ := ih hsteps.inv hwithin (fun o ho => hops o (List.mem_cons_of_mem op ho)) hr
    exact ⟨ht.trans htarget, htarget ▸ hl⟩

/-- One request asks and is approved, as there is no debt. -/
theorem admit_one {a : Admission ρ} (ht : a.taken = []) (hd : ¬ a.wanted < a.allocated) (hp : 0 < a.permits.available)
    (ho : a.permits.closed = false) (r : ρ) :
    a.run [.request r, .decide r] =
      some { a with permits.available := a.permits.available - 1, approved := a.approved ++ [r] } := by
  simp [run, step, request, decide, Semaphore.acquire, ht, hd, hp, ho]

theorem admit_all {a : Admission ρ} (ht : a.taken = []) (hd : ¬ a.wanted < a.allocated) (ho : a.permits.closed = false)
    (r : ρ) (n : Nat) (hn : n ≤ a.permits.available) :
    ∃ a', a.run (List.replicate n [Op.request r, .decide r]).flatten = some a' ∧
      a'.approved.length = a.approved.length + n := by
  induction n generalizing a with
  | zero => exact ⟨a, rfl, rfl⟩
  | succ n ih =>
    rw [List.replicate_succ, List.flatten_cons, run_append, admit_one ht hd (by omega) ho r, Option.bind_some]
    obtain ⟨b, hb, hl⟩ := ih (a := { a with
      permits.available := a.permits.available - 1, approved := a.approved ++ [r] }) ht hd ho (by dsimp only; omega)
    refine ⟨b, hb, ?_⟩
    rw [hl, List.length_append, List.length_singleton]
    omega

/-- One request pays the whole debt before it is approved. -/
theorem pay_debt {a : Admission ρ} {r : ρ} (ht : a.taken = [r]) (ho : a.permits.closed = false) (k : Nat)
    (hk : a.allocated = a.wanted + k) (hp : k ≤ a.permits.available) :
    a.run (List.replicate k (.decide r)) =
      some { a with permits.available := a.permits.available - k, allocated := a.wanted } := by
  induction k generalizing a with
  | zero =>
    cases a
    cases hk
    rfl
  | succ k ih =>
    have hdebt : a.wanted < a.allocated := by omega
    have hstep : a.step (.decide r) =
        some { a with permits.available := a.permits.available - 1, allocated := a.allocated - 1 } := by
      have hpos : 0 < a.permits.available := by omega
      simp [step, decide, ht, hdebt, checkedSub_of_le (show 1 ≤ a.allocated by omega), request, Semaphore.acquire, ho, hpos]
    rw [List.replicate_succ, run, List.foldlM_cons, hstep]
    refine (ih (a := { a with permits.available := a.permits.available - 1, allocated := a.allocated - 1 }) ht ho
      (by dsimp only; omega) (by dsimp only; omega)).trans ?_
    simp only [Option.some.injEq, mk.injEq, Semaphore.mk.injEq, and_true]
    omega

/-- From a state in which nothing is held, the whole target can be held at once. -/
theorem fill {a : Admission ρ} (h : a.Inv) (ha : a.approved = []) (hs : a.assigned = 0) (ho : a.permits.closed = false)
    (r : ρ) : ∃ ops a', (∀ op ∈ ops, ∀ wanted, op ≠ .resize wanted) ∧ a.run ops = some a' ∧
      a'.approved.length = a.wanted := by
  have hsum := h.sum
  have henough := h.enough
  simp only [assigned] at hs
  have ht : a.taken = [] := List.length_eq_zero_iff.mp (by omega)
  simp only [Semaphore.unheld, ht, ha, List.length_nil] at hsum
  by_cases hz : a.wanted = 0
  · exact ⟨[], a, fun _ ho => (by cases ho), rfl, by rw [ha, hz]; rfl⟩
  · -- the first request pays what is left of the debt and is approved, then the others
    obtain ⟨k, hk⟩ := Nat.exists_eq_add_of_le henough
    have hfirst : a.run [.request r] = some { a with
        permits.available := a.permits.available - 1, taken := [r] } := by
      have hpos : 0 < a.permits.available := by omega
      simp [run, step, request, Semaphore.acquire, ho, hpos, ht]
    have hpay := pay_debt (a := { a with permits.available := a.permits.available - 1, taken := [r] }) (r := r) rfl ho k
      hk (by dsimp only; omega)
    have hlast : ({ a with permits.available := a.permits.available - 1 - k, taken := [r], allocated := a.wanted } :
        Admission ρ).run [.decide r] = some { a with
          permits.available := a.permits.available - 1 - k, taken := [], allocated := a.wanted, approved := [r] } := by
      simp [run, step, decide, ha]
    obtain ⟨b, hb, hl⟩ := admit_all (a := { a with
      permits.available := a.permits.available - 1 - k, taken := [], allocated := a.wanted, approved := [r] })
      rfl (lt_irrefl _) ho r (a.wanted - 1) (by dsimp only; omega)
    refine ⟨[Op.request r] ++ (List.replicate k (Op.decide r) ++
      ([Op.decide r] ++ (List.replicate (a.wanted - 1) [Op.request r, .decide r]).flatten)), b, ?_, ?_, ?_⟩
    · intro op hop wanted he
      subst he
      simp at hop
    · rw [run_append, hfirst, Option.bind_some, run_append, hpay, Option.bind_some, run_append]
      dsimp only
      rw [hlast, Option.bind_some]
      exact hb
    · rw [hl]
      dsimp only [List.length_singleton]
      omega

/-- Capacity is never lost or invented: in every run of either admission no subtraction
fails, permits add up and never fall short of the target, a request is approved only within
it and without debt, and when nothing is held all permits are free and exactly the target
can be held again. -/
theorem capacity_kept (start : Admission ρ) (hstart : start = listener ∨ ∃ max closed, start = new max closed)
    (ops : List (Op ρ)) :
    ∃ a, start.run ops = some a ∧
      a.allocated = a.permits.available + a.assigned + a.approved.length ∧ a.wanted ≤ a.allocated ∧
      (∀ op a', a.step op = some a' → a.approved.length < a'.approved.length →
        a.allocated = a.wanted ∧ a'.approved.length ≤ a'.wanted) ∧
      (a.approved = [] → a.assigned = 0 →
        a.allocated = a.permits.available ∧
        (∀ more a', (∀ op ∈ more, ∀ wanted, op ≠ .resize wanted) → a.run more = some a' →
          a'.approved.length ≤ a.wanted) ∧
        (a.permits.closed = false → ∀ r : ρ, ∃ more a', (∀ op ∈ more, ∀ wanted, op ≠ .resize wanted) ∧
          a.run more = some a' ∧ a'.approved.length = a.wanted)) := by
  have hinv : start.Inv := by
    obtain rfl | ⟨max, closed, rfl⟩ := hstart
    · exact inv_listener
    · exact inv_new max closed
  obtain ⟨a, ha, hi⟩ := run_inv hinv ops
  have hsum : a.allocated = a.permits.available + a.assigned + a.approved.length := by
    rw [hi.sum, Semaphore.unheld, assigned]
    omega
  refine ⟨a, ha, hsum, hi.enough, ?_, ?_⟩
  · intro op a' hop hgrow
    obtain ⟨b, hb, hsteps⟩ := step_spec hi op
    obtain rfl := Option.some.inj (hop.symm.trans hb)
    exact hsteps.approves hgrow
  · intro hnone hzero
    refine ⟨by rw [hsum, hzero, hnone]; rfl, ?_, fun ho r => fill hi hnone hzero ho r⟩
    intro more a' hmore hr
    exact (run_within hi (by rw [hnone]; exact Nat.zero_le _) hmore hr).2

end

/-- Three connections of a listener, one of them let go. -/
theorem capacity_kept_listener :
    ∃ a : Admission Nat, listener.run [.resize 3, .request 0, .decide 0, .request 1, .decide 1, .drop 0] = some a ∧
      a.allocated = a.permits.available + a.assigned + a.approved.length := by
  obtain ⟨a, ha, hsum, _⟩ := capacity_kept (listener : Admission Nat) (Or.inl rfl)
    [.resize 3, .request 0, .decide 0, .request 1, .decide 1, .drop 0]
  exact ⟨a, ha, hsum⟩

/-- Waiters that were given all three permits give up after a shrink to one: nothing is held
and nothing is assigned, the excess is two and three permits are free. -/
theorem excess_below_available :
    ∃ a : Admission Nat,
      listener.run [.resize 3, .request 0, .decide 0, .request 1, .decide 1, .request 2, .decide 2,
        .request 3, .request 4, .request 5, .drop 0, .drop 1, .drop 2, .resize 1, .cancel 3, .cancel 4, .cancel 5] =
          some a ∧
      a.approved = [] ∧ a.assigned = 0 ∧ a.wanted < a.allocated ∧ a.allocated - a.wanted ≠ a.permits.available := by
  refine ⟨⟨⟨3, [], [], false⟩, 3, 1, [], []⟩, by decide, rfl, rfl, by decide, by decide⟩

end Admission

end Gatel.State
