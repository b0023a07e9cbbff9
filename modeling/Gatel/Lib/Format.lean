import Mathlib

namespace Format

/-! Byte formats as relations. A format relates a budget, the bytes it spans and the
budget left behind. A writer and a reader that both realize one format undo each other
exactly: neither accepts anything the other does not. -/

section
variable {β ε α γ : Type}

/-- Bytes written so far, or still to be read, with the budget spent. -/
structure Buffer (β : Type) where
  bytes : List UInt8
  budget : β

/-- A step of a writer or a reader. -/
abbrev Step (β ε α : Type) := StateT (Buffer β) (Except ε) α

abbrev Rel (β : Type) := β → List UInt8 → β → Prop

def seq (F G : Rel β) : Rel β := fun b out b' =>
  ∃ o₁ m o₂, F b o₁ m ∧ G m o₂ b' ∧ out = o₁ ++ o₂

/-- Exactly these bytes. -/
def bytes (l : List UInt8) : Rel β := fun b out b' => out = l ∧ b' = b

/-- Nothing at all. -/
def nil : Rel β := bytes []

/-- The format, under a condition. -/
def only (p : Prop) (F : Rel β) : Rel β := fun b out b' => p ∧ F b out b'

/-- The format of some value. -/
def any (F : α → Rel β) : Rel β := fun b out b' => ∃ a, F a b out b'

/-- No bytes; the budget allows the charge. -/
def charge (f : β → Option β) : Rel β := fun b out b' => out = [] ∧ f b = some b'

/-- One item after another. -/
@[grind =] def each (F : α → Rel β) : List α → Rel β
  | [] => nil
  | a :: l => seq (F a) (each F l)

theorem ext {F G : Rel β} (h : ∀ b out b', F b out b' ↔ G b out b') : F = G := by
  funext b out b'
  exact propext (h b out b')

@[simp] theorem seq_assoc (F G H : Rel β) : seq (seq F G) H = seq F (seq G H) := by
  apply ext
  intro b out b'
  constructor
  · intro he
    obtain ⟨o, m, o₃, ⟨o₁, n, o₂, hF, hG, rfl⟩, hH, rfl⟩ := he
    exact ⟨o₁, n, o₂ ++ o₃, hF, ⟨o₂, m, o₃, hG, hH, rfl⟩, List.append_assoc o₁ o₂ o₃⟩
  · intro he
    obtain ⟨o₁, n, o, hF, ⟨o₂, m, o₃, hG, hH, rfl⟩, rfl⟩ := he
    exact ⟨o₁ ++ o₂, m, o₃, ⟨o₁, n, o₂, hF, hG, rfl⟩, hH, (List.append_assoc o₁ o₂ o₃).symm⟩

@[simp] theorem nil_seq (F : Rel β) : seq nil F = F := by
  apply ext
  intro b out b'
  constructor
  · intro he
    obtain ⟨_, _, o, ⟨rfl, rfl⟩, hF, rfl⟩ := he
    exact hF
  · intro hF
    exact ⟨[], b, out, ⟨rfl, rfl⟩, hF, rfl⟩

@[simp] theorem seq_nil (F : Rel β) : seq F nil = F := by
  apply ext
  intro b out b'
  constructor
  · intro he
    obtain ⟨o, _, _, hF, ⟨rfl, rfl⟩, rfl⟩ := he
    rwa [List.append_nil]
  · intro hF
    exact ⟨out, b', [], hF, ⟨rfl, rfl⟩, (List.append_nil out).symm⟩

/-- Conditions move to the front. -/
@[simp] theorem only_seq (p : Prop) (F G : Rel β) : seq (only p F) G = only p (seq F G) := by
  apply ext
  intro b out b'
  constructor
  · intro he
    obtain ⟨o₁, m, o₂, ⟨hp, hF⟩, hG, ho⟩ := he
    exact ⟨hp, o₁, m, o₂, hF, hG, ho⟩
  · intro he
    obtain ⟨hp, o₁, m, o₂, hF, hG, ho⟩ := he
    exact ⟨o₁, m, o₂, ⟨hp, hF⟩, hG, ho⟩

@[simp] theorem seq_only (p : Prop) (F G : Rel β) : seq F (only p G) = only p (seq F G) := by
  apply ext
  intro b out b'
  constructor
  · intro he
    obtain ⟨o₁, m, o₂, hF, ⟨hp, hG⟩, ho⟩ := he
    exact ⟨hp, o₁, m, o₂, hF, hG, ho⟩
  · intro he
    obtain ⟨hp, o₁, m, o₂, hF, hG, ho⟩ := he
    exact ⟨o₁, m, o₂, hF, ⟨hp, hG⟩, ho⟩

@[simp] theorem any_seq (F : α → Rel β) (G : Rel β) :
    seq (any F) G = any (fun a => seq (F a) G) := by
  apply ext
  intro b out b'
  constructor
  · intro he
    obtain ⟨o₁, m, o₂, ⟨a, hF⟩, hG, ho⟩ := he
    exact ⟨a, o₁, m, o₂, hF, hG, ho⟩
  · intro he
    obtain ⟨a, o₁, m, o₂, hF, hG, ho⟩ := he
    exact ⟨o₁, m, o₂, ⟨a, hF⟩, hG, ho⟩

@[simp] theorem seq_any (F : Rel β) (G : α → Rel β) :
    seq F (any G) = any (fun a => seq F (G a)) := by
  apply ext
  intro b out b'
  constructor
  · intro he
    obtain ⟨o₁, m, o₂, hF, ⟨a, hG⟩, ho⟩ := he
    exact ⟨a, o₁, m, o₂, hF, hG, ho⟩
  · intro he
    obtain ⟨a, o₁, m, o₂, hF, hG, ho⟩ := he
    exact ⟨o₁, m, o₂, hF, ⟨a, hG⟩, ho⟩

@[simp] theorem only_apply {p : Prop} {F : Rel β} {b b' : β} {out : List UInt8} :
    only p F b out b' ↔ p ∧ F b out b' := Iff.rfl

@[simp] theorem any_apply {F : α → Rel β} {b b' : β} {out : List UInt8} :
    any F b out b' ↔ ∃ a, F a b out b' := Iff.rfl

/-- Bytes and charges touch different things, so their order is free. -/
theorem charge_seq_bytes (f : β → Option β) (l : List UInt8) (F : Rel β) :
    seq (charge f) (seq (bytes l) F) = seq (bytes l) (seq (charge f) F) := by
  apply ext
  intro b out b'
  constructor
  · intro he
    obtain ⟨o₁, m, _, ⟨h₁, hf⟩, ⟨o₂, m', o, ⟨h₂, hb⟩, hF, rfl⟩, ho⟩ := he
    subst h₁ hb
    exact ⟨l, b, o, ⟨rfl, rfl⟩, ⟨[], m', o, ⟨rfl, hf⟩, hF, rfl⟩, by simp [ho, h₂]⟩
  · intro he
    obtain ⟨o₁, m, _, ⟨h₁, hb⟩, ⟨o₂, m', o, ⟨h₂, hf⟩, hF, rfl⟩, ho⟩ := he
    subst h₂ hb
    exact ⟨[], m', l ++ o, ⟨rfl, hf⟩, ⟨l, m', o, ⟨rfl, rfl⟩, hF, rfl⟩, by simp [ho, h₁]⟩

theorem bind_ok {x : Step β ε α} {f : α → Step β ε γ} {s t : Buffer β} {c : γ} :
    (x >>= f) s = .ok (c, t) ↔ ∃ a u, x s = .ok (a, u) ∧ f a u = .ok (c, t) := by
  change (x s >>= fun p => f p.1 p.2) = .ok (c, t) ↔ _
  cases h : x s with
  | error e => simp [bind, Except.bind]
  | ok p =>
    obtain ⟨a, u⟩ := p
    simp [bind, Except.bind]

theorem pure_ok {a c : α} {s t : Buffer β} :
    (pure a : Step β ε α) s = .ok (c, t) ↔ c = a ∧ t = s := by
  change Except.ok (a, s) = .ok (c, t) ↔ _
  simp [eq_comm]

theorem throw_ok {e : ε} {c : α} {s t : Buffer β} :
    (throw e : Step β ε α) s = .ok (c, t) ↔ False := by
  change Except.error e = .ok (c, t) ↔ _
  simp

/-- Spend from the budget. -/
def spend (f : β → Option β) (e : ε) : Step β ε Unit := fun s =>
  match f s.budget with
  | none => .error e
  | some budget => .ok ((), ⟨s.bytes, budget⟩)

theorem spend_ok {f : β → Option β} {e : ε} {s t : Buffer β} :
    spend f e s = .ok ((), t) ↔ t.bytes = s.bytes ∧ f s.budget = some t.budget := by
  unfold spend
  cases h : f s.budget with
  | none => simp
  | some budget =>
    obtain ⟨bytes, budget'⟩ := t
    simp [eq_comm]

section
variable (limit : Nat)

/-- The writer emits what the format allows, within a bounded buffer. -/
def Writes (w : Step β ε Unit) (F : Rel β) : Prop :=
  ∀ s t, s.bytes.length ≤ limit → (w s = .ok ((), t) ↔
    ∃ out, F s.budget out t.budget ∧ t.bytes = s.bytes ++ out ∧ t.bytes.length ≤ limit)

variable {limit}

theorem Writes.bind {w v : Step β ε Unit} {F G : Rel β} (hw : Writes limit w F)
    (hv : Writes limit v G) : Writes limit (w >>= fun _ => v) (seq F G) := by
  intro s t hs
  rw [bind_ok]
  constructor
  · intro he
    obtain ⟨⟨⟩, u, hwu, hvt⟩ := he
    obtain ⟨o₁, hF, hu, hul⟩ := (hw s u hs).mp hwu
    obtain ⟨o₂, hG, ht, htl⟩ := (hv u t hul).mp hvt
    exact ⟨o₁ ++ o₂, ⟨o₁, u.budget, o₂, hF, hG, rfl⟩, by rw [ht, hu, List.append_assoc], htl⟩
  · intro he
    obtain ⟨_, ⟨o₁, m, o₂, hF, hG, rfl⟩, ht, htl⟩ := he
    have hul : (s.bytes ++ o₁).length ≤ limit := by
      rw [ht] at htl
      simp only [List.length_append] at htl ⊢
      omega
    refine ⟨(), ⟨s.bytes ++ o₁, m⟩, (hw s _ hs).mpr ⟨o₁, hF, rfl, hul⟩, ?_⟩
    exact (hv _ t hul).mpr ⟨o₂, hG, by rw [ht, List.append_assoc], htl⟩

theorem Writes.pure : Writes limit (pure () : Step β ε Unit) nil := by
  intro s t hs
  obtain ⟨bytes, budget⟩ := t
  rw [pure_ok]
  constructor
  · intro he
    obtain ⟨-, ht⟩ := he
    rw [← ht] at hs
    exact ⟨[], ⟨rfl, by rw [← ht]⟩, by rw [← ht, List.append_nil], hs⟩
  · intro he
    obtain ⟨_, ⟨rfl, hb⟩, ht, -⟩ := he
    rw [List.append_nil] at ht
    exact ⟨rfl, by cases s; simp_all⟩

theorem Writes.spend (f : β → Option β) (e : ε) : Writes limit (spend f e) (charge f) := by
  intro s t hs
  rw [spend_ok]
  constructor
  · intro he
    obtain ⟨ht, hf⟩ := he
    exact ⟨[], ⟨rfl, hf⟩, by simpa using ht, by rwa [ht]⟩
  · intro he
    obtain ⟨_, ⟨rfl, hf⟩, ht, -⟩ := he
    exact ⟨by simpa using ht, hf⟩

/-- A guard in front of a writer is a condition of its format. -/
theorem Writes.guard {p : Prop} [Decidable p] {e : ε} {w : Step β ε Unit} {F : Rel β}
    (hw : Writes limit w F) :
    Writes limit (if p then throw e else w) (only (¬ p) F) := by
  intro s t hs
  simp only [only_apply]
  split
  · rename_i h
    simp [throw_ok, h]
  · rename_i h
    simp [h, hw s t hs]

theorem Writes.congr {w : Step β ε Unit} {F G : Rel β} (hw : Writes limit w F) (h : F = G) :
    Writes limit w G := h ▸ hw

/-- Append, unless the buffer would outgrow its limit. -/
def raw (limit : Nat) (e : ε) (l : List UInt8) : Step β ε Unit := fun s =>
  if l.length > limit - s.bytes.length then .error e else .ok ((), ⟨s.bytes ++ l, s.budget⟩)

theorem Writes.raw (e : ε) (l : List UInt8) :
    Writes limit (raw limit e l : Step β ε Unit) (bytes l) := by
  intro s t hs
  obtain ⟨tb, budget⟩ := t
  unfold Format.raw
  split
  · rename_i h
    simp only [reduceCtorEq, false_iff]
    intro he
    obtain ⟨_, ⟨rfl, -⟩, rfl, hl⟩ := he
    rw [List.length_append] at hl
    omega
  · rename_i h
    simp only [Except.ok.injEq, Prod.mk.injEq, Buffer.mk.injEq, true_and]
    constructor
    · intro he
      obtain ⟨rfl, rfl⟩ := he
      refine ⟨l, ⟨rfl, rfl⟩, rfl, ?_⟩
      rw [List.length_append]
      omega
    · intro he
      obtain ⟨_, ⟨rfl, rfl⟩, rfl, -⟩ := he
      exact ⟨rfl, rfl⟩

theorem Writes.each {w : α → Step β ε Unit} {F : α → Rel β} (l : List α)
    (hw : ∀ a ∈ l, Writes limit (w a) (F a)) : Writes limit (l.forM w) (each F l) := by
  induction l with
  | nil => exact Writes.pure
  | cons a l ih =>
    change Writes limit (w a >>= fun _ => l.forM w) (seq (F a) (Format.each F l))
    exact (hw a List.mem_cons_self).bind (ih fun x hx => hw x (List.mem_cons_of_mem a hx))

end

/-- The reader accepts what the format allows, and leaves the rest. -/
def Reads (r : Step β ε α) (F : α → Rel β) : Prop :=
  ∀ s a t, r s = .ok (a, t) ↔ ∃ out, F a s.budget out t.budget ∧ s.bytes = out ++ t.bytes

theorem Reads.bind {r : Step β ε α} {k : α → Step β ε γ} {F : α → Rel β} {G : α → γ → Rel β}
    (hr : Reads r F) (hk : ∀ a, Reads (k a) (G a)) :
    Reads (r >>= k) (fun c => any fun a => seq (F a) (G a c)) := by
  intro s c t
  rw [bind_ok]
  constructor
  · intro he
    obtain ⟨a, u, hru, hkt⟩ := he
    obtain ⟨o₁, hF, hs⟩ := (hr s a u).mp hru
    obtain ⟨o₂, hG, hu⟩ := (hk a u c t).mp hkt
    exact ⟨o₁ ++ o₂, ⟨a, o₁, u.budget, o₂, hF, hG, rfl⟩, by rw [hs, hu, List.append_assoc]⟩
  · intro he
    obtain ⟨_, ⟨a, o₁, m, o₂, hF, hG, rfl⟩, hs⟩ := he
    rw [List.append_assoc] at hs
    exact ⟨a, ⟨o₂ ++ t.bytes, m⟩, (hr s a _).mpr ⟨o₁, hF, hs⟩, (hk a _ c t).mpr ⟨o₂, hG, rfl⟩⟩

theorem Reads.pure (a : α) : Reads (pure a : Step β ε α) (fun c => only (c = a) nil) := by
  intro s c t
  obtain ⟨bytes, budget⟩ := t
  obtain ⟨bytes', budget'⟩ := s
  simp only [pure_ok, Buffer.mk.injEq, only_apply, nil, Format.bytes]
  constructor
  · intro he
    obtain ⟨rfl, rfl, rfl⟩ := he
    exact ⟨[], ⟨rfl, rfl, rfl⟩, rfl⟩
  · intro he
    obtain ⟨_, ⟨rfl, rfl, rfl⟩, rfl⟩ := he
    exact ⟨rfl, rfl, rfl⟩

theorem Reads.throw (e : ε) : Reads (throw e : Step β ε α) (fun _ => only False nil) := by
  intro s c t
  simp [throw_ok]

theorem Reads.spend (f : β → Option β) (e : ε) :
    Reads (spend f e : Step β ε Unit) (fun _ => charge f) := by
  intro s _ t
  rw [spend_ok]
  constructor
  · intro he
    obtain ⟨ht, hf⟩ := he
    exact ⟨[], ⟨rfl, hf⟩, ht.symm⟩
  · intro he
    obtain ⟨_, ⟨rfl, hf⟩, hs⟩ := he
    exact ⟨hs.symm, hf⟩

theorem Reads.guard {p : Prop} [Decidable p] {e : ε} {r : Step β ε α} {F : α → Rel β}
    (hr : Reads r F) :
    Reads (if p then MonadExcept.throw e else r) (fun a => only (¬ p) (F a)) := by
  intro s a t
  simp only [only_apply]
  split
  · rename_i h
    simp [throw_ok, h]
  · rename_i h
    simp [h, hr s a t]

theorem Reads.ite {p : Prop} [Decidable p] {r q : Step β ε α} {F G : α → Rel β}
    (hr : Reads r F) (hq : Reads q G) :
    Reads (if p then r else q) (fun a => if p then F a else G a) := by
  split
  · simpa using hr
  · simpa using hq

theorem Reads.congr {r : Step β ε α} {F G : α → Rel β} (hr : Reads r F) (h : ∀ a, F a = G a) :
    Reads r G := by
  obtain rfl : F = G := funext h
  exact hr

/-- Take a fixed number of bytes. -/
def take (e : ε) (n : Nat) : Step β ε (List UInt8) := fun s =>
  if n ≤ s.bytes.length then .ok (s.bytes.take n, ⟨s.bytes.drop n, s.budget⟩) else .error e

theorem Reads.take (e : ε) (n : Nat) :
    Reads (take e n : Step β ε (List UInt8)) (fun l => only (l.length = n) (bytes l)) := by
  intro s l t
  obtain ⟨tb, budget⟩ := t
  simp only [only_apply]
  unfold Format.take
  split
  · rename_i h
    simp only [Except.ok.injEq, Prod.mk.injEq, Buffer.mk.injEq, bytes]
    constructor
    · intro he
      obtain ⟨rfl, rfl, rfl⟩ := he
      exact ⟨_, ⟨List.length_take_of_le h, rfl, rfl⟩, (List.take_append_drop n s.bytes).symm⟩
    · intro he
      obtain ⟨_, ⟨hl, rfl, rfl⟩, hs⟩ := he
      rw [hs]
      exact ⟨by rw [← hl, List.take_left], by rw [← hl, List.drop_left], rfl⟩
  · rename_i h
    simp only [reduceCtorEq, false_iff]
    intro he
    obtain ⟨_, ⟨hl, rfl, -⟩, hs⟩ := he
    rw [hs, List.length_append] at h
    omega

/-- The loop `for _ in 0..n { items.push(read()?) }`. -/
def replicate (r : Step β ε α) : Nat → Step β ε (List α)
  | 0 => pure []
  | n + 1 => do
    let a ← r
    let l ← replicate r n
    pure (a :: l)

theorem Reads.replicate {r : Step β ε α} {F : α → Rel β} (hr : Reads r F) (n : Nat) :
    Reads (replicate r n) (fun l => only (l.length = n) (each F l)) := by
  induction n with
  | zero =>
    refine (Reads.pure []).congr ?_
    intro l
    apply ext
    intro b out b'
    cases l with
    | nil => simp [each]
    | cons a l => simp
  | succ n ih =>
    refine (hr.bind fun a => ih.bind fun l => Reads.pure (a :: l)).congr ?_
    intro l
    apply ext
    intro b out b'
    cases l with
    | nil => simp
    | cons a l => simp [each]

end

end Format
