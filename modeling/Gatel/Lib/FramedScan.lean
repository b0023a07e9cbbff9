import Mathlib

namespace FramedScan

/-! A log of numbered frames back to back, scanned from its start, whose last frame may be
torn. -/

section
variable {ν α ε σ : Type}

/-- What the bytes at hand turn out to be. -/
inductive Round (ν α ε : Type) where
  | torn
  | fail (e : ε)
  | record (n : ν) (a : α) (size : Nat)

structure Scan (ν : Type) where
  sequence : ν
  validBytes : Nat
  incompleteTail : Bool

/-- The scan loop over what is left of the input. -/
@[grind =] def scan (round : ν → List UInt8 → Round ν α ε) (visit : σ → ν → α → Except ε σ) :
    Nat → List UInt8 → Scan ν → σ → Except ε (Scan ν × σ)
  | 0, _, result, state => .ok (result, state)
  | fuel + 1, remaining, result, state =>
    if remaining = [] then .ok (result, state)
    else match round result.sequence remaining with
      | .torn => .ok ({ result with incompleteTail := true }, state)
      | .fail e => .error e
      | .record n a size =>
        match visit state n a with
        | .error e => .error e
        | .ok state => scan round visit fuel (remaining.drop size)
            ⟨n, result.validBytes + size, result.incompleteTail⟩ state

variable (next : ν → Option ν) (encode : ν → α → Except ε (List UInt8))

/-- Frames back to back, each encoded under the number after the one before it; the third
argument is the last number used. -/
inductive Encoded : ν → List (ν × α) → ν → List UInt8 → Prop
  | nil (n : ν) : Encoded n [] n []
  | cons {n m k : ν} {a : α} {l : List (ν × α)} {frame bytes : List UInt8} (hn : next n = some m)
      (ha : encode m a = .ok frame) (hl : Encoded m l k bytes) :
      Encoded n ((m, a) :: l) k (frame ++ bytes)

/-- The beginning of the frame after number `n`, but not all of it. -/
def Torn (n : ν) (tail : List UInt8) : Prop :=
  tail = [] ∨ ∃ m a frame, next n = some m ∧ encode m a = .ok frame ∧ tail <+: frame ∧ tail ≠ frame

/-- A round reads what the encoder writes, and nothing else. -/
structure Reads (round : ν → List UInt8 → Round ν α ε) : Prop where
  whole : ∀ {n m : ν} {a : α} {frame : List UInt8} (rest : List UInt8), next n = some m →
    encode m a = .ok frame → round n (frame ++ rest) = .record m a frame.length
  torn : ∀ {n m : ν} {a : α} {frame tail : List UInt8}, next n = some m → encode m a = .ok frame →
    tail <+: frame → tail ≠ frame → tail ≠ [] → round n tail = .torn
  sound : ∀ {n m : ν} {a : α} {remaining : List UInt8} {size : Nat},
    round n remaining = .record m a size →
    next n = some m ∧ encode m a = .ok (remaining.take size) ∧ size ≤ remaining.length
  nonempty : ∀ {m : ν} {a : α} {frame : List UInt8}, encode m a = .ok frame → frame ≠ []

variable {next encode} {round : ν → List UInt8 → Round ν α ε} {visit : σ → ν → α → Except ε σ}

/-- Hand numbered records to a visitor, stopping at its first refusal. -/
@[grind =] def visitAll (visit : σ → ν → α → Except ε σ) : List (ν × α) → σ → Except ε σ
  | [], state => .ok state
  | p :: l, state =>
    match visit state p.1 p.2 with
    | .error e => .error e
    | .ok state => visitAll visit l state

theorem Encoded.bytes_nil {n k : ν} {bytes : List UInt8} (h : Encoded next encode n [] k bytes) :
    bytes = [] := by
  cases h
  rfl

theorem visitAll_total {f : σ → ν → α → σ} (l : List (ν × α)) (state : σ) :
    visitAll (ε := ε) (fun s n a => .ok (f s n a)) l state =
      .ok (l.foldl (fun s p => f s p.1 p.2) state) := by
  induction l generalizing state with
  | nil => rfl
  | cons p l ih => simp [visitAll, ih]

theorem visitAll_append (l l' : List (ν × α)) (state : σ) :
    visitAll visit (l ++ l') state =
      match visitAll visit l state with
      | .error e => .error e
      | .ok state => visitAll visit l' state := by
  induction l generalizing state with
  | nil => rfl
  | cons p l ih =>
    simp only [List.cons_append, visitAll]
    cases visit state p.1 p.2 with
    | error e => rfl
    | ok state => exact ih state

theorem scan_nil (fuel : Nat) (result : Scan ν) (state : σ) :
    scan round visit fuel [] result state = .ok (result, state) := by
  cases fuel with
  | zero => rfl
  | succ fuel => simp [scan]

theorem Reads.scan_torn (h : Reads next encode round) {n : ν} {tail : List UInt8}
    (ht : Torn next encode n tail) {fuel : Nat} (hfuel : tail.length ≤ fuel) (v : Nat) (b : Bool)
    (state : σ) :
    scan round visit fuel tail ⟨n, v, b⟩ state = .ok (⟨n, v, b || !tail.isEmpty⟩, state) := by
  by_cases hne : tail = []
  · subst hne
    simp [scan_nil]
  · rcases ht with ht | ⟨m, a, frame, hn, ha, hp, hq⟩
    · exact absurd ht hne
    · have hpos := List.length_pos_iff.mpr hne
      obtain ⟨fuel, rfl⟩ : ∃ k, fuel = k + 1 := ⟨fuel - 1, by omega⟩
      simp [scan, hne, h.torn hn ha hp hq hne]

/-- Scanning frames with a torn end visits exactly the whole frames. -/
theorem Reads.scan_encoded (h : Reads next encode round) {n k : ν} {l : List (ν × α)}
    {bytes tail : List UInt8} (he : Encoded next encode n l k bytes) (ht : Torn next encode k tail)
    {fuel : Nat} (hfuel : (bytes ++ tail).length ≤ fuel) (v : Nat) (b : Bool) (state : σ) :
    scan round visit fuel (bytes ++ tail) ⟨n, v, b⟩ state =
      match visitAll visit l state with
      | .error e => .error e
      | .ok state => .ok (⟨k, v + bytes.length, b || !tail.isEmpty⟩, state) := by
  induction he generalizing fuel v state with
  | nil n => exact h.scan_torn ht hfuel v b state
  | @cons n m k a l frame bytes hn ha hl ih =>
    have hne := h.nonempty ha
    have hpos := List.length_pos_iff.mpr hne
    simp only [List.append_assoc, List.length_append] at hfuel ⊢
    obtain ⟨fuel, rfl⟩ : ∃ k, fuel = k + 1 := ⟨fuel - 1, by omega⟩
    simp only [scan, List.append_eq_nil_iff, hne, false_and, ↓reduceIte, h.whole _ hn ha,
      List.drop_left, visitAll]
    cases visit state m a with
    | error e => rfl
    | ok state =>
      have hrest : (bytes ++ tail).length ≤ fuel := by
        rw [List.length_append]
        omega
      dsimp only
      rw [ih ht hrest]
      cases visitAll visit l state with
      | error e => rfl
      | ok state => simp [Nat.add_assoc]

/-- Whatever a scan accepts is a run of frames up to the bytes it calls valid, and it says
whether anything follows them. -/
theorem Reads.scan_sound (h : Reads next encode round) {fuel : Nat} {remaining : List UInt8}
    {n : ν} {v : Nat} {b : Bool} {state state' : σ} {r : Scan ν} (hfuel : remaining.length ≤ fuel)
    (hs : scan round visit fuel remaining ⟨n, v, b⟩ state = .ok (r, state')) :
    ∃ l bytes tail, remaining = bytes ++ tail ∧ Encoded next encode n l r.sequence bytes ∧
      r.validBytes = v + bytes.length ∧ r.incompleteTail = (b || !tail.isEmpty) ∧
      (tail = [] ∨ round r.sequence tail = .torn) ∧ visitAll visit l state = .ok state' := by
  induction fuel generalizing remaining n v b state with
  | zero =>
    cases hs
    have hnil : remaining = [] := List.eq_nil_of_length_eq_zero (Nat.le_zero.mp hfuel)
    subst hnil
    exact ⟨[], [], [], rfl, .nil n, rfl, by simp, .inl rfl, rfl⟩
  | succ fuel ih =>
    simp only [scan] at hs
    split at hs
    · rename_i hnil
      subst hnil
      cases hs
      exact ⟨[], [], [], rfl, .nil n, rfl, by simp, .inl rfl, rfl⟩
    · rename_i hne
      split at hs
      · rename_i hr
        cases hs
        exact ⟨[], [], remaining, rfl, .nil n, rfl, by simp [hne], .inr hr, rfl⟩
      · cases hs
      · rename_i m a size hr
        obtain ⟨hn, ha, hsize⟩ := h.sound hr
        have hpos : 0 < size := by
          rcases Nat.eq_zero_or_pos size with rfl | hpos
          · exact absurd (List.take_zero (l := remaining)) (h.nonempty ha)
          · exact hpos
        split at hs
        · cases hs
        · rename_i next hv
          obtain ⟨l, bytes, tail, hrest, hl, hlen, hflag, htorn, hvisit⟩ :=
            ih (by rw [List.length_drop]; omega) hs
          refine ⟨(m, a) :: l, remaining.take size ++ bytes, tail, ?_, .cons hn ha hl, ?_, hflag, htorn, ?_⟩
          · rw [List.append_assoc, ← hrest, List.take_append_drop]
          · rw [hlen, List.length_append, List.length_take, Nat.min_eq_left hsize, Nat.add_assoc]
          · simp only [visitAll, hv, hvisit]

/-- A visitor that accepts whatever another accepts scans whatever the other scans. -/
theorem scan_simulation {τ : Type} {visit' : τ → ν → α → Except ε τ} {R : σ → τ → Prop}
    (hstep : ∀ s t n a s', R s t → visit s n a = .ok s' → ∃ t', visit' t n a = .ok t' ∧ R s' t')
    {fuel : Nat} {remaining : List UInt8} {result r : Scan ν} {state state' : σ} {other : τ}
    (hR : R state other) (hs : scan round visit fuel remaining result state = .ok (r, state')) :
    ∃ other', scan round visit' fuel remaining result other = .ok (r, other') ∧ R state' other' := by
  induction fuel generalizing remaining result state other with
  | zero =>
    cases hs
    exact ⟨other, rfl, hR⟩
  | succ fuel ih =>
    simp only [scan] at hs ⊢
    split at hs
    · rename_i hnil
      cases hs
      exact ⟨other, by rw [if_pos hnil], hR⟩
    · rename_i hne
      rw [if_neg hne]
      cases hround : round result.sequence remaining with
      | torn =>
        rw [hround] at hs
        cases hs
        exact ⟨other, rfl, hR⟩
      | fail e =>
        rw [hround] at hs
        cases hs
      | record n a size =>
        simp only [hround] at hs
        cases hv : visit state n a with
        | error e =>
          rw [hv] at hs
          cases hs
        | ok s =>
          rw [hv] at hs
          obtain ⟨t, ht, hRt⟩ := hstep _ _ _ _ _ hR hv
          simp only [ht]
          exact ih hRt hs

/-- Bytes that a round calls torn do not begin with a whole frame. -/
theorem Reads.not_whole (h : Reads next encode round) {n m : ν} {a : α} {frame tail : List UInt8}
    (ht : tail = [] ∨ round n tail = .torn) (hn : next n = some m) (ha : encode m a = .ok frame) :
    ¬ frame <+: tail := by
  rintro ⟨rest, rfl⟩
  rcases ht with ht | ht
  · exact h.nonempty ha (List.append_eq_nil_iff.mp ht).1
  · rw [h.whole rest hn ha] at ht
    cases ht

/-- One log that begins with the bytes of another begins with its frames. -/
theorem Reads.encoded_split (h : Reads next encode round) {n k m : ν} {l l' : List (ν × α)}
    {bytes bytes' : List UInt8} (he : Encoded next encode n l k bytes)
    (he' : Encoded next encode n l' m bytes') (hp : bytes <+: bytes') :
    ∃ more rest, l' = l ++ more ∧ bytes' = bytes ++ rest ∧ Encoded next encode k more m rest := by
  induction he generalizing l' bytes' with
  | nil n => exact ⟨l', bytes', rfl, rfl, he'⟩
  | @cons n m₁ k a l frame bytes hn ha hl ih =>
    obtain ⟨rest, hrest⟩ := hp
    cases he' with
    | nil =>
      rw [List.append_assoc] at hrest
      exact absurd (List.append_eq_nil_iff.mp hrest).1 (h.nonempty ha)
    | @cons _ m₂ _ a' l' frame' bytes' hn' ha' hl' =>
      rw [List.append_assoc] at hrest
      have hround := h.whole (bytes ++ rest) hn ha
      rw [hrest, h.whole bytes' hn' ha'] at hround
      obtain ⟨rfl, rfl, -⟩ := Round.record.inj hround
      have hframe : frame = frame' := by
        rw [ha] at ha'
        exact Except.ok.inj ha'
      subst hframe
      obtain ⟨more, tail, rfl, htail, hmore⟩ := ih hl' ⟨rest, List.append_cancel_left hrest⟩
      exact ⟨more, tail, rfl, by rw [htail, List.append_assoc], hmore⟩

end

section
variable {k : Nat} [NeZero k] {α ε : Type} {next : Fin k → Option (Fin k)}
  {encode : Fin k → α → Except ε (List UInt8)}

/-- Records numbered from `n` on. -/
@[grind =] def numberedFrom (k : Nat) [NeZero k] (n : Nat) : List α → List (Fin k × α)
  | [] => []
  | a :: l => (Fin.ofNat k n, a) :: numberedFrom k (n + 1) l

theorem length_numberedFrom (n : Nat) (l : List α) : (numberedFrom k n l).length = l.length := by
  induction l generalizing n with
  | nil => rfl
  | cons a l ih => simp [numberedFrom, ih]

theorem numberedFrom_append (n : Nat) (l l' : List α) :
    numberedFrom k n (l ++ l') = numberedFrom k n l ++ numberedFrom k (n + l.length) l' := by
  induction l generalizing n with
  | nil => rfl
  | cons a l ih =>
    rw [List.cons_append, numberedFrom, ih, numberedFrom, List.cons_append, List.length_cons,
      Nat.add_right_comm, Nat.add_assoc]

theorem map_snd_numberedFrom (n : Nat) (l : List α) :
    (numberedFrom k n l).map Prod.snd = l := by
  induction l generalizing n with
  | nil => rfl
  | cons a l ih => simp [numberedFrom, ih]

theorem Encoded.numbered (hnext : ∀ n m, next n = some m → m.val = n.val + 1) {n last : Fin k}
    {l : List (Fin k × α)} {bytes : List UInt8} (h : Encoded next encode n l last bytes) :
    l = numberedFrom k (n.val + 1) (l.map Prod.snd) ∧ last.val = n.val + l.length := by
  induction h with
  | nil n => exact ⟨rfl, rfl⟩
  | @cons n m last a l frame bytes hn ha hl ih =>
    obtain ⟨hnum, hlast⟩ := ih
    have hm := hnext n m hn
    have hof : Fin.ofNat k (n.val + 1) = m := by
      rw [← hm]
      exact Fin.ofNat_val_eq_self m
    constructor
    · simp only [List.map_cons, numberedFrom, hof]
      rw [← hm, ← hnum]
    · rw [hlast, hm, List.length_cons]
      omega

/-- As long as the numbers last, every list of records that the encoder takes has its bytes. -/
theorem exists_encoded (hnext : ∀ n : Fin k, n.val + 1 < k → next n = some (Fin.ofNat k (n.val + 1)))
    (l : List α) (hl : ∀ a ∈ l, ∀ n : Fin k, n.val ≠ 0 → ∃ frame, encode n a = .ok frame)
    (n : Fin k) (hn : n.val + l.length < k) :
    ∃ bytes, Encoded next encode n (numberedFrom k (n.val + 1) l) (Fin.ofNat k (n.val + l.length))
      bytes := by
  induction l generalizing n with
  | nil =>
    refine ⟨[], ?_⟩
    have hlast : Fin.ofNat k (n.val + 0) = n := Fin.ofNat_val_eq_self n
    simp only [List.length_nil, hlast]
    exact .nil n
  | cons a l ih =>
    rw [List.length_cons] at hn
    have hval : (Fin.ofNat k (n.val + 1)).val = n.val + 1 := Nat.mod_eq_of_lt (by omega)
    obtain ⟨frame, hframe⟩ := hl a List.mem_cons_self (Fin.ofNat k (n.val + 1)) (by omega)
    obtain ⟨bytes, hbytes⟩ := ih (fun b hb => hl b (List.mem_cons_of_mem a hb))
      (Fin.ofNat k (n.val + 1)) (by omega)
    rw [hval, show n.val + 1 + l.length = n.val + (a :: l).length by rw [List.length_cons]; omega]
      at hbytes
    exact ⟨frame ++ bytes, .cons (hnext n (by omega)) hframe hbytes⟩

end

end FramedScan
