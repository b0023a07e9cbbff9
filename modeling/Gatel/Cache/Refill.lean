import Gatel.Cache.Traced

namespace Gatel.Cache
open Run (run run_append run_cons)

namespace Traced

/-! The revision: what a fill reads before it asks the origin and must still find when
it stores. -/

/-- An invalidation, or a retirement that finds its copy. -/
@[grind =] def Cancels (s : Store) : Op → Prop
  | .invalidate _ => True
  | .retire observed => (s.discardObserved observed).1 = true
  | _ => False

/-- Somewhere among these calls fills in flight are cancelled. -/
def CancelledIn (blake3 : Digest) (t : Traced) (calls : List Op) : Prop :=
  ∃ earlier op later, calls = earlier ++ op :: later ∧ Cancels (run (step blake3) t earlier).store op

/-- A revision that is not the one read, or one no fill may use. -/
def Outdated (read now : U64) : Prop := read.val < now.val ∨ now.val = 2 ^ 64 - 1

theorem saturatingNext_le (n : U64) : n.val ≤ n.saturatingNext.val := by
  unfold U64.saturatingNext
  split <;> simp

theorem outdated_saturatingNext {read now : U64} (h : read.val ≤ now.val) : Outdated read now.saturatingNext := by
  unfold Outdated U64.saturatingNext
  split
  · left
    dsimp only
    omega
  · right
    have := now.isLt
    omega

theorem Outdated.le {read now later : U64} (h : Outdated read now) (hle : now.val ≤ later.val) :
    Outdated read later := by
  have := later.isLt
  unfold Outdated at h ⊢
  omega

theorem discardObserved_revision (s : Store) (observed : Observed) :
    (s.discardObserved observed).2.revision = s.revision ∧ (s.discardObserved observed).1 = false ∨
      (s.discardObserved observed).2.revision = s.revision.saturatingNext ∧ (s.discardObserved observed).1 = true := by
  unfold Store.discardObserved
  split
  · exact Or.inl ⟨rfl, rfl⟩
  · split
    · exact Or.inl ⟨rfl, rfl⟩
    · exact Or.inr ⟨rfl, rfl⟩

theorem takeStale_revision (s : Store) (blake3 : Digest) (key : Key) (headers : HeaderMap) (now : Entry → Instant) :
    (s.takeStale blake3 key headers now).2.revision = s.revision := by
  unfold Store.takeStale
  split
  · dsimp only
    split
    · rfl
    · simp
  · rfl

theorem lookup_revision (s : Store) (key : Key) (signatureFor : List String → String) (now : Entry → Instant)
    (accepts : Entry → Bool) : (s.lookup key signatureFor now accepts).2.revision = s.revision := by
  unfold Store.lookup
  dsimp only
  split
  · rfl
  · simp

theorem evictDownToBudget_revision (s : Store) : s.evictDownToBudget.revision = s.revision := by
  unfold Store.evictDownToBudget
  dsimp only
  split <;> rfl

/-- Every call either leaves the revision alone or cancels and counts on. -/
theorem step_revision (blake3 : Digest) (t : Traced) (op : Op) :
    (t.step blake3 op).store.revision = t.store.revision ∧ ¬Cancels t.store op ∨
      (t.step blake3 op).store.revision = t.store.revision.saturatingNext ∧ Cancels t.store op := by
  cases op with
  | observe key headers => exact Or.inl ⟨rfl, id⟩
  | retire observed =>
    obtain ⟨he, hf⟩ | ⟨he, hf⟩ := discardObserved_revision t.store observed
    · exact Or.inl ⟨he, by simp [Cancels, hf]⟩
    · exact Or.inr ⟨he, hf⟩
  | takeStale key headers now => exact Or.inl ⟨takeStale_revision _ _ _ _ _, id⟩
  | lookup key signatureFor now accepts => exact Or.inl ⟨lookup_revision _ _ _ _ _, id⟩
  | invalidate key => exact Or.inr ⟨rfl, trivial⟩
  | put revision key signature vary entry onlyIfAbsent =>
    refine Or.inl ⟨?_, id⟩
    obtain he | ⟨_, _, _, _, he⟩ := t.store.putGuarded_cases revision key signature vary entry onlyIfAbsent
    · simp only [step, he]
    · simp only [step, he]
      exact evictDownToBudget_revision _

theorem step_revision_le (blake3 : Digest) (t : Traced) (op : Op) :
    t.store.revision.val ≤ (t.step blake3 op).store.revision.val := by
  obtain ⟨he, _⟩ | ⟨he, _⟩ := step_revision blake3 t op
  · rw [he]
  · rw [he]
    exact saturatingNext_le _

theorem run_revision_le (blake3 : Digest) (t : Traced) (calls : List Op) :
    t.store.revision.val ≤ (run (step blake3) t calls).store.revision.val := by
  induction calls generalizing t with
  | nil => exact Nat.le_refl _
  | cons op calls ih => exact Nat.le_trans (step_revision_le blake3 t op) (ih (t.step blake3 op))

/-- Once cancelled, a revision never comes back. -/
theorem cancelled_outdated {blake3 : Digest} {t : Traced} {calls : List Op} (h : CancelledIn blake3 t calls) :
    Outdated t.store.revision (run (step blake3) t calls).store.revision := by
  obtain ⟨earlier, op, later, rfl, hc⟩ := h
  rw [run_append, run_cons]
  have hle := run_revision_le blake3 t earlier
  generalize run (step blake3) t earlier = u at hc hle ⊢
  obtain ⟨_, hn⟩ | ⟨he, _⟩ := step_revision blake3 u op
  · exact absurd hc hn
  · have hout := outdated_saturatingNext hle
    rw [← he] at hout
    exact hout.le (run_revision_le blake3 (u.step blake3 op) later)

theorem putGuarded_outdated {s : Store} {read : U64} (h : Outdated read s.revision) (key : Key) (signature : String)
    (vary : List String) (entry : Entry) (onlyIfAbsent : Bool) :
    s.putGuarded read key signature vary entry onlyIfAbsent = (false, s) := by
  obtain he | ⟨_, hr, hm, _, _⟩ := s.putGuarded_cases read key signature vary entry onlyIfAbsent
  · exact he
  · exfalso
    unfold Outdated at h
    rw [hr] at h
    omega

theorem takeStale_read {s : Store} {blake3 : Digest} {key : Key} {headers : HeaderMap} {now : Entry → Instant}
    {read : U64} {stale : Entry} (h : (s.takeStale blake3 key headers now).1 = some (read, stale)) :
    read = s.revision := by
  unfold Store.takeStale at h
  split at h
  · dsimp only at h
    split at h
    · cases h
    · cases h
      rfl
  · cases h

/-- A put that must find its place free puts nothing out of it: what goes, goes for the
budget. -/
theorem absent_put {t : Traced} (h : t.Kept) {revision : U64} {key : Key} {signature : String} {vary : List String}
    {entry : Entry} (hput : (t.store.putGuarded revision key signature vary entry true).1 = true) :
    (∀ c ∈ t.store.copies, c.1 = key → c.2.signature ≠ signature ∧ t.store.vary.lookup key = some vary) ∧
    ∃ victims, Store.Eviction t.store.maxBytes.val (t.store.arrival key signature vary entry :: t.store.copies)
      (t.store.putGuarded revision key signature vary entry true).2.copies victims := by
  obtain he | ⟨hw, _, _, ho, he⟩ := t.store.putGuarded_cases revision key signature vary entry true
  · rw [he] at hput
    cases hput
  · have hfree := ho rfl
    refine ⟨?_, ?_⟩
    · intro c hc hk
      obtain ⟨k, copy⟩ := c
      obtain rfl : k = key := hk
      obtain ⟨l, hl, hm⟩ := KeyedMap.mem_items.mp hc
      have hv : k ∈ t.store.vary := (h.sound.sameKeys k).mp (AList.lookup_isSome.mp (by rw [hl]; rfl))
      obtain ⟨old, hold⟩ := Option.isSome_iff_exists.mp (AList.lookup_isSome.mpr hv)
      rw [Store.occupied, hl, hold, Bool.or_eq_false_iff, Option.any_some, Option.any_some,
        List.any_eq_false] at hfree
      refine ⟨by simpa using hfree.2 copy hm, ?_⟩
      rw [hold, show old = vary by simpa using hfree.1]
    · obtain ⟨gone, kept, hc, hgone⟩ := Store.change_deposit h.sound key signature vary entry
      obtain rfl := hgone hfree
      obtain ⟨victims, _, _, hevict, _⟩ := Store.put_stored h.sound h.budget key signature vary entry hw
      rw [he]
      refine ⟨victims, { hevict with split := ?_ }⟩
      have hsame : (t.store.deposit key signature vary entry).copies.Perm
          (t.store.arrival key signature vary entry :: t.store.copies) :=
        hc.after.trans (hc.before.symm.cons _)
      exact hsame.symm.trans hevict.split

/-- No stale refill: a fill or a takeover that read its revision before an invalidation
or a successful retirement stores nothing after it, from any revision on, the last one
included; and a takeover never replaces a copy it finds. -/
theorem no_stale_refill (blake3 : Digest) (maxBytes revision : U64) (before during : List Op) :
    let t := run (step blake3) { start maxBytes with store.revision := revision } before
    (CancelledIn blake3 t during → ∀ key signature vary entry onlyIfAbsent,
      let later := (run (step blake3) t during).store
      later.putGuarded t.store.revision key signature vary entry onlyIfAbsent = (false, later)) ∧
    ∀ key headers now read stale, (t.store.takeStale blake3 key headers now).1 = some (read, stale) →
      let taken := t.step blake3 (.takeStale key headers now)
      let later := (run (step blake3) taken during).store
      (CancelledIn blake3 taken during → ∀ key signature vary entry onlyIfAbsent,
        later.putGuarded read key signature vary entry onlyIfAbsent = (false, later)) ∧
      ∀ key signature vary entry, (later.putGuarded read key signature vary entry true).1 = true →
        (∀ c ∈ later.copies, c.1 = key → c.2.signature ≠ signature ∧ later.vary.lookup key = some vary) ∧
        ∃ victims, Store.Eviction maxBytes.val (later.arrival key signature vary entry :: later.copies)
          (later.putGuarded read key signature vary entry true).2.copies victims := by
  intro t
  refine ⟨?_, ?_⟩
  · intro hc key signature vary entry onlyIfAbsent
    exact putGuarded_outdated (cancelled_outdated hc) key signature vary entry onlyIfAbsent
  · intro key headers now read stale hread taken later
    have hrevision : taken.store.revision = read := by
      rw [takeStale_read hread]
      exact takeStale_revision _ _ _ _ _
    refine ⟨?_, ?_⟩
    · intro hc key signature vary entry onlyIfAbsent
      rw [← hrevision]
      exact putGuarded_outdated (cancelled_outdated hc) key signature vary entry onlyIfAbsent
    · intro key signature vary entry hput
      have hkept : t.Kept := Run.invariant (fun t op h => kept_step blake3 t op h) (kept_at maxBytes revision) before
      have hlater : (run (step blake3) taken during).Kept :=
        Run.invariant (fun t op h => kept_step blake3 t op h) (kept_step blake3 t _ hkept) during
      have hmax : later.maxBytes = maxBytes :=
        (run_counters blake3 taken during).1.trans
          ((step_counters blake3 t _).1.trans (run_counters blake3 _ before).1)
      rw [← hmax]
      exact absent_put hlater hput

end Traced

end Gatel.Cache
