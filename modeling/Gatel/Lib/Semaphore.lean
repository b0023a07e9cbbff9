import Mathlib

variable {α : Type}

/-- A counting semaphore with a queue of waiters. A waiter that was given a permit holds
it from then on, also before it is polled. -/
structure Semaphore (α : Type) where
  available : Nat
  queue : List α
  assigned : List α
  closed : Bool
  deriving DecidableEq

namespace Semaphore

def new (permits : Nat) : Semaphore α := ⟨permits, [], [], false⟩

/-- A permit comes back: the first waiter gets it. -/
def release (s : Semaphore α) : Semaphore α :=
  match s.queue with
  | [] => { s with available := s.available + 1 }
  | a :: rest => { s with queue := rest, assigned := s.assigned ++ [a] }

@[grind =] def addPermits (s : Semaphore α) : Nat → Semaphore α
  | 0 => s
  | n + 1 => s.release.addPermits n

/-- Take up to `n` free permits away for good; how many were. -/
def forgetPermits (s : Semaphore α) (n : Nat) : Nat × Semaphore α :=
  (min n s.available, { s with available := s.available - min n s.available })

inductive Grant where
  | ready
  | pending
  | closed
  deriving DecidableEq

/-- Ask for one permit. -/
def acquire (s : Semaphore α) (a : α) : Grant × Semaphore α :=
  if s.closed then (.closed, s)
  else if 0 < s.available then (.ready, { s with available := s.available - 1 })
  else (.pending, { s with queue := s.queue ++ [a] })

/-- A waiter that was given a permit is polled; a closed semaphore takes the permit back. -/
def poll [DecidableEq α] (s : Semaphore α) (a : α) : Grant × Semaphore α :=
  if a ∈ s.assigned then
    let s := { s with assigned := s.assigned.erase a }
    if s.closed then (.closed, s.release) else (.ready, s)
  else (.pending, s)

/-- A waiter gives up; a permit it already has goes to the next one. -/
def cancel [DecidableEq α] (s : Semaphore α) (a : α) : Semaphore α :=
  if a ∈ s.assigned then { s with assigned := s.assigned.erase a }.release
  else { s with queue := s.queue.erase a }

/-- No more permits: everyone still in the queue is turned away. -/
def close (s : Semaphore α) : Semaphore α := { s with queue := [], closed := true }

/-- Permits that nobody holds past their poll. -/
def unheld (s : Semaphore α) : Nat := s.available + s.assigned.length

/-- A free permit never waits beside a queue. -/
def Fair (s : Semaphore α) : Prop := s.available = 0 ∨ s.queue = []

section
variable (s : Semaphore α)

@[simp] theorem release_unheld : s.release.unheld = s.unheld + 1 := by
  unfold release
  split
  · simp only [unheld]
    omega
  · simp only [unheld, List.length_append, List.length_singleton]
    omega

@[simp] theorem addPermits_unheld (n : Nat) : (s.addPermits n).unheld = s.unheld + n := by
  induction n generalizing s with
  | zero => rfl
  | succ n ih =>
    rw [addPermits, ih, release_unheld]
    omega

theorem forgetPermits_unheld (n : Nat) : (s.forgetPermits n).2.unheld + (s.forgetPermits n).1 = s.unheld := by
  simp only [forgetPermits, unheld]
  omega

theorem length_erase_assigned [DecidableEq α] {a : α} (h : a ∈ s.assigned) : (s.assigned.erase a).length + 1 = s.assigned.length := by
  have hpos := List.length_pos_of_mem h
  rw [List.length_erase_of_mem h]
  omega

theorem cancel_unheld [DecidableEq α] (a : α) : (s.cancel a).unheld = s.unheld := by
  unfold cancel
  split
  · rename_i h
    have hl := s.length_erase_assigned h
    rw [release_unheld]
    simp only [unheld]
    omega
  · rfl

@[simp] theorem close_unheld : s.close.unheld = s.unheld := rfl

/-- Asking takes a permit exactly when it is ready at once. -/
theorem acquire_unheld (a : α) :
    (s.acquire a).2.unheld + (if (s.acquire a).1 = .ready then 1 else 0) = s.unheld := by
  unfold acquire
  split
  · rfl
  · split
    · simp only [unheld, if_true]
      omega
    · rfl

theorem poll_unheld [DecidableEq α] (a : α) : (s.poll a).2.unheld + (if (s.poll a).1 = .ready then 1 else 0) = s.unheld := by
  unfold poll
  split
  · rename_i h
    have hl := s.length_erase_assigned h
    dsimp only
    split
    · rw [release_unheld]
      simp only [unheld, reduceCtorEq, if_false]
      omega
    · simp only [unheld, if_true]
      omega
  · rfl

end

section
variable {s : Semaphore α}

theorem Fair.release (h : s.Fair) : s.release.Fair := by
  unfold Semaphore.release
  split
  · rename_i hq
    exact Or.inr hq
  · rename_i a rest hq
    obtain h | h := h
    · exact Or.inl h
    · rw [hq] at h
      cases h

theorem Fair.addPermits (h : s.Fair) (n : Nat) : (s.addPermits n).Fair := by
  induction n generalizing s with
  | zero => exact h
  | succ n ih => exact ih h.release

theorem Fair.forgetPermits (h : s.Fair) (n : Nat) : (s.forgetPermits n).2.Fair := by
  obtain h | h := h
  · refine Or.inl ?_
    simp only [Semaphore.forgetPermits]
    omega
  · exact Or.inr h

theorem Fair.acquire (h : s.Fair) (a : α) : (s.acquire a).2.Fair := by
  unfold Semaphore.acquire
  split
  · exact h
  · split
    · rename_i hp
      obtain h | h := h
      · omega
      · exact Or.inr h
    · rename_i hp
      exact Or.inl (by simpa using hp)

theorem Fair.poll [DecidableEq α] (h : s.Fair) (a : α) : (s.poll a).2.Fair := by
  unfold Semaphore.poll
  split
  · dsimp only
    have he : Fair { s with assigned := s.assigned.erase a } := h
    split
    · exact he.release
    · exact he
  · exact h

theorem Fair.cancel [DecidableEq α] (h : s.Fair) (a : α) : (s.cancel a).Fair := by
  unfold Semaphore.cancel
  split
  · have he : Fair { s with assigned := s.assigned.erase a } := h
    exact he.release
  · obtain h | h := h
    · exact Or.inl h
    · exact Or.inr (by simp [h])

theorem Fair.close : s.close.Fair := Or.inr rfl

theorem Fair.new (n : Nat) : (new n : Semaphore α).Fair := Or.inr rfl

end

end Semaphore
