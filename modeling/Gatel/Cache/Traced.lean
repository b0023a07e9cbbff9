import Gatel.Cache.Eviction

namespace Gatel.Cache
open Run (run)

/-- One call on the store, with the times at which its entries are looked at. -/
inductive Op where
  | observe (key : Key) (headers : HeaderMap)
  | retire (observed : Observed)
  | takeStale (key : Key) (headers : HeaderMap) (now : Entry → Instant)
  | lookup (key : Key) (signatureFor : List String → String) (now : Entry → Instant) (accepts : Entry → Bool)
  | invalidate (key : Key)
  | put (revision : U64) (key : Key) (signature : String) (vary : List String) (entry : Entry) (onlyIfAbsent : Bool)

/-- What a put that stored was given. -/
structure Deposit where
  key : Key
  signature : String
  vary : List String
  entry : Entry
  deriving DecidableEq

/-- A store with the puts that went into it; a copy's identity is the place of its put. -/
structure Traced where
  store : Store
  deposits : List Deposit

namespace Traced

def start (maxBytes : U64) : Traced := ⟨Store.new maxBytes, []⟩

@[grind =] def step (blake3 : Digest) (t : Traced) : Op → Traced
  | .observe _ _ => t
  | .retire observed => { t with store := (t.store.discardObserved observed).2 }
  | .takeStale key headers now => { t with store := (t.store.takeStale blake3 key headers now).2 }
  | .lookup key signatureFor now accepts => { t with store := (t.store.lookup key signatureFor now accepts).2 }
  | .invalidate key => { t with store := t.store.invalidate key }
  | .put revision key signature vary entry onlyIfAbsent =>
    let (stored, store) := t.store.putGuarded revision key signature vary entry onlyIfAbsent
    ⟨store, if stored then t.deposits ++ [⟨key, signature, vary, entry⟩] else t.deposits⟩

/-- The put a copy came from, made under the list its resource varies on now. -/
def Recorded (s : Store) (deposits : List Deposit) (c : Key × Held) : Prop :=
  ∃ d, deposits[c.2.identity]? = some d ∧ d.key = c.1 ∧ d.signature = c.2.signature ∧ d.entry = c.2.entry ∧
    c.2.weight = d.entry.weight d.key d.signature d.vary ∧ s.vary.lookup c.1 = some d.vary

/-- What every state of a traced store satisfies. -/
structure Kept (t : Traced) : Prop where
  sound : t.store.Sound
  budget : t.store.bytes ≤ t.store.maxBytes.val
  numbered : t.store.fresh = t.deposits.length
  recorded : ∀ c ∈ t.store.copies, Recorded t.store t.deposits c

theorem recorded_change {s t : Store} {gone added kept : List (Key × Held)} (hc : Store.Change s t gone added kept)
    {before after : List Deposit} (hp : before <+: after) (hs : ∀ c ∈ s.copies, Recorded s before c)
    (ha : ∀ c ∈ added, Recorded t after c) : ∀ c ∈ t.copies, Recorded t after c := by
  intro c hm
  obtain hm | hm := List.mem_append.mp (hc.after.mem_iff.mp hm)
  · exact ha c hm
  · obtain ⟨d, hd, hkey, hsig, hentry, hweight, hvary⟩ := hs c (hc.before.mem_iff.mpr (List.mem_append_right _ hm))
    refine ⟨d, ?_, hkey, hsig, hentry, hweight, ?_⟩
    · obtain ⟨rest, rfl⟩ := hp
      rw [List.getElem?_append_left (List.getElem?_eq_some_iff.mp hd).1]
      exact hd
    · rw [hc.vary c hm, hvary]

/-- An operation that stores nothing new. -/
theorem Kept.change {t : Traced} (h : t.Kept) {s : Store} {gone added kept : List (Key × Held)}
    (hc : Store.Change t.store s gone added kept) (hle : weigh added ≤ weigh gone) (hf : s.fresh = t.store.fresh)
    (ha : ∀ c ∈ added, Recorded s t.deposits c) : Kept { t with store := s } := by
  have hb := h.budget
  have hbytes := hc.bytes
  refine ⟨h.sound.change hc, ?_, hf.trans h.numbered, recorded_change hc (List.prefix_refl _) h.recorded ha⟩
  change s.bytes ≤ s.maxBytes.val
  rw [hc.budget]
  omega

theorem discardObserved_fresh (s : Store) (observed : Observed) : (s.discardObserved observed).2.fresh = s.fresh := by
  unfold Store.discardObserved
  split
  · rfl
  · split
    · rfl
    · simp

theorem takeStale_fresh (s : Store) (blake3 : Digest) (key : Key) (headers : HeaderMap) (now : Entry → Instant) :
    (s.takeStale blake3 key headers now).2.fresh = s.fresh := by
  unfold Store.takeStale
  split
  · dsimp only
    split
    · rfl
    · simp
  · rfl

theorem lookup_fresh (s : Store) (key : Key) (signatureFor : List String → String) (now : Entry → Instant)
    (accepts : Entry → Bool) : (s.lookup key signatureFor now accepts).2.fresh = s.fresh := by
  unfold Store.lookup
  dsimp only
  split
  · rfl
  · simp

theorem evictDownToBudget_fresh (s : Store) : s.evictDownToBudget.fresh = s.fresh := by
  unfold Store.evictDownToBudget
  dsimp only
  split <;> rfl

/-- An empty store is in order at any revision. -/
theorem kept_at (maxBytes revision : U64) : Kept { start maxBytes with store.revision := revision } := by
  refine ⟨⟨rfl, ?_, ?_, List.nodup_nil, List.nodup_nil, by intro c hc; cases hc⟩, Nat.zero_le _, rfl,
    by intro c hc; cases hc⟩
  · intro k
    exact Iff.rfl
  · intro k l hl
    cases hl

theorem kept_put {t : Traced} (h : t.Kept) (key : Key) (signature : String) (vary : List String) (entry : Entry)
    (hw : entry.weight key signature vary ≤ t.store.maxBytes.val) :
    Kept ⟨(t.store.deposit key signature vary entry).evictDownToBudget,
      t.deposits ++ [⟨key, signature, vary, entry⟩]⟩ := by
  obtain ⟨gone, kept, hc, _⟩ := Store.change_deposit h.sound key signature vary entry
  obtain ⟨victims, left, hchange, hevict, _⟩ := Store.put_stored h.sound h.budget key signature vary entry hw
  have hdeposit := recorded_change hc (List.prefix_append _ [⟨key, signature, vary, entry⟩]) h.recorded (by
    intro c hm
    obtain rfl := List.mem_singleton.mp hm
    refine ⟨⟨key, signature, vary, entry⟩, ?_, rfl, rfl, rfl, rfl, AList.lookup_insert _⟩
    rw [Store.arrival, h.numbered, List.getElem?_concat_length])
  have hsound := (h.sound.change hc).change hchange
  refine ⟨hsound, ?_, ?_, recorded_change hchange (List.prefix_refl _) hdeposit (by intro c hm; cases hm)⟩
  · have hbudget := hchange.budget.trans hc.budget
    have hfits := hevict.fits
    rw [← hsound.counted] at hfits
    rw [hbudget]
    exact hfits
  · rw [evictDownToBudget_fresh, List.length_append, ← h.numbered]
    rfl

theorem kept_step (blake3 : Digest) (t : Traced) (op : Op) (h : t.Kept) : (t.step blake3 op).Kept := by
  cases op with
  | observe key headers => exact h
  | retire observed =>
    obtain ⟨he, _⟩ | ⟨old, kept, _, hc⟩ := Store.change_discardObserved h.sound observed
    · simp only [step, he]
      exact h
    · exact h.change hc (Nat.zero_le _) (discardObserved_fresh _ _) (by intro c hm; cases hm)
  | takeStale key headers now =>
    obtain he | ⟨old, kept, hc⟩ := Store.change_takeStale h.sound blake3 key headers now
    · simp only [step, he]
      exact h
    · exact h.change hc (Nat.zero_le _) (takeStale_fresh _ _ _ _ _) (by intro c hm; cases hm)
  | lookup key signatureFor now accepts =>
    have hf := lookup_fresh t.store key signatureFor now accepts
    obtain ⟨_, he⟩ | ⟨gone, kept, _, hc⟩ | ⟨gone, kept, hit, _, hkey, _, _, _, hvary, hc⟩ :=
      Store.change_lookup h.sound key signatureFor now accepts
    · simp only [step, he]
      exact h
    · exact h.change hc (Nat.zero_le _) hf (by intro c hm; cases hm)
    · refine h.change hc ?_ hf ?_
      · rw [weigh_append]
        exact Nat.le_add_left _ _
      · -- A hit keeps its put; only the stamp is new.
        intro c hm
        obtain rfl := List.mem_singleton.mp hm
        have hmem : hit ∈ t.store.copies := hc.before.mem_iff.mpr (by simp)
        obtain ⟨d, hd, hk, hsig, hentry, hweight, hv⟩ := h.recorded hit hmem
        refine ⟨d, hd, hk, hsig, hentry, hweight, ?_⟩
        change AList.lookup hit.1 _ = _
        rw [hkey, hvary, ← hkey, hv]
  | invalidate key =>
    exact h.change (Store.change_invalidate h.sound key) (Nat.zero_le _) rfl (by intro c hm; cases hm)
  | put revision key signature vary entry onlyIfAbsent =>
    obtain he | ⟨hw, _, _, _, he⟩ := t.store.putGuarded_cases revision key signature vary entry onlyIfAbsent
    · simp only [step, he]
      exact h
    · simp only [step, he]
      exact kept_put h key signature vary entry hw

/-- A step never changes the budget, and counts at most one use. -/
theorem step_counters (blake3 : Digest) (t : Traced) (op : Op) :
    (t.step blake3 op).store.maxBytes = t.store.maxBytes ∧ (t.step blake3 op).store.clock ≤ t.store.clock + 1 := by
  cases op with
  | observe key headers => exact ⟨rfl, Nat.le_succ _⟩
  | retire observed =>
    simp only [step, Store.discardObserved]
    split
    · exact ⟨rfl, Nat.le_succ _⟩
    · split <;> simp
  | takeStale key headers now =>
    simp only [step, Store.takeStale]
    split
    · split <;> simp
    · exact ⟨rfl, Nat.le_succ _⟩
  | lookup key signatureFor now accepts =>
    simp only [step, Store.lookup]
    split
    · exact ⟨rfl, Nat.le_succ _⟩
    · simp
  | invalidate key => exact ⟨rfl, Nat.le_succ _⟩
  | put revision key signature vary entry onlyIfAbsent =>
    obtain he | ⟨_, _, _, _, he⟩ := t.store.putGuarded_cases revision key signature vary entry onlyIfAbsent
    · simp [step, he]
    · simp only [step, he]
      unfold Store.evictDownToBudget
      dsimp only
      split <;> exact ⟨rfl, Nat.le_refl _⟩

theorem run_counters (blake3 : Digest) (t : Traced) (ops : List Op) :
    (run (step blake3) t ops).store.maxBytes = t.store.maxBytes ∧
      (run (step blake3) t ops).store.clock ≤ t.store.clock + ops.length := by
  induction ops generalizing t with
  | nil => exact ⟨rfl, Nat.le_refl _⟩
  | cons op ops ih =>
    obtain ⟨hmax, hclock⟩ := step_counters blake3 t op
    obtain ⟨hmaxes, hclocks⟩ := ih (t.step blake3 op)
    refine ⟨hmaxes.trans hmax, ?_⟩
    rw [Run.run_cons, List.length_cons]
    omega

theorem kept_run (blake3 : Digest) (maxBytes : U64) (ops : List Op) : (run (step blake3) (start maxBytes) ops).Kept :=
  Run.invariant (fun t op h => kept_step blake3 t op h) (kept_at maxBytes 0) ops

/-- The counters stay below 64 bits while the calls do and twice the budget does: a put
holds at most its own copy beyond the budget. -/
theorem counters_fit (blake3 : Digest) (maxBytes : U64) (ops : List Op) (key : Key) (signature : String)
    (vary : List String) (entry : Entry) (hw : entry.weight key signature vary ≤ maxBytes.val) :
    let s := (run (step blake3) (start maxBytes) ops).store
    s.clock ≤ ops.length ∧ (s.deposit key signature vary entry).bytes ≤ 2 * maxBytes.val := by
  intro s
  obtain ⟨hmax, hclock⟩ := run_counters blake3 (start maxBytes) ops
  have hb : s.bytes ≤ s.maxBytes.val := (kept_run blake3 maxBytes ops).budget
  have hm : s.maxBytes = maxBytes := hmax
  rw [hm] at hb
  refine ⟨?_, ?_⟩
  · have hc : s.clock ≤ 0 + ops.length := hclock
    omega
  · simp only [Store.deposit]
    omega

/-- In every state of a store the accounting is exact and within the budget, the maps
agree, no place is taken twice and every copy was put under the list its resource
varies on; a put that stores keeps its copy and gives up exactly the least recently
used copies it must. -/
theorem store_accounts (blake3 : Digest) (maxBytes : U64) (ops : List Op) :
    let t := run (step blake3) (start maxBytes) ops
    t.store.bytes = weigh t.store.copies ∧ t.store.bytes ≤ maxBytes.val ∧
    (∀ k, k ∈ t.store.vary ↔ k ∈ t.store.held) ∧
    (∀ k l, t.store.held.lookup k = some l → l ≠ [] ∧ (l.map Held.signature).Nodup ∧
      ∀ c ∈ l, Recorded t.store t.deposits (k, c)) ∧
    ∀ revision key signature vary entry onlyIfAbsent,
      (t.store.putGuarded revision key signature vary entry onlyIfAbsent).1 = true →
        let after := (t.store.putGuarded revision key signature vary entry onlyIfAbsent).2
        t.store.arrival key signature vary entry ∈ after.copies ∧
        ∃ victims, Store.Eviction maxBytes.val (t.store.deposit key signature vary entry).copies after.copies victims := by
  intro t
  have h : t.Kept := kept_run blake3 maxBytes ops
  have hmax : t.store.maxBytes = maxBytes := (run_counters blake3 (start maxBytes) ops).1
  refine ⟨h.sound.counted, hmax ▸ h.budget, fun k => (h.sound.sameKeys k).symm, ?_, ?_⟩
  · intro k l hl
    refine ⟨h.sound.nonempty k l hl, Store.signatures_nodup h.sound hl, ?_⟩
    intro c hc
    exact h.recorded (k, c) (KeyedMap.mem_items.mpr ⟨l, hl, hc⟩)
  · intro revision key signature vary entry onlyIfAbsent hput
    obtain he | ⟨hw, _, _, _, he⟩ := t.store.putGuarded_cases revision key signature vary entry onlyIfAbsent
    · rw [he] at hput
      cases hput
    · obtain ⟨victims, _, _, hevict, hmem⟩ := Store.put_stored h.sound h.budget key signature vary entry hw
      rw [he, ← hmax]
      exact ⟨hmem, victims, hevict⟩

end Traced

end Gatel.Cache
