import Gatel.Lib.PrefixCode
import Gatel.Lib.Shuffle
import Gatel.Model.Hash

namespace Gatel.Hasher
open CanonicalSort (sortBy)
open LittleEndian (bytes bytes_injective)
open PrefixCode (Reads)
open Shuffle (Shuffled forall₂_imp_mem)

variable {α β : Type}

/-- Typed writes that say exactly `R`: related values write the same, and what was
written can be read back in front of anything. -/
structure Codes (P : α → Prop) (w : α → Hasher → Hasher) (R : α → α → Prop) : Prop where
  append : ∀ a h, (w a h).written = h.written ++ (w a new).written
  same : ∀ a b h, R a b → w a h = w b h
  reads : Reads (2 ^ 64) P (fun a => (w a new).written) R

/-- Writes that end a stream: they are only read when nothing follows. -/
structure Ends (P : α → Prop) (w : α → Hasher → Hasher) (R : α → α → Prop) : Prop where
  append : ∀ a h, (w a h).written = h.written ++ (w a new).written
  same : ∀ a b h, R a b → w a h = w b h
  whole : ∀ a b, P a → P b → (w a new).written = (w b new).written → (w a new).written.length < 2 ^ 64 → R a b

theorem utf8_injective {s t : String} (h : utf8 s = utf8 t) : s = t := by
  have hs := fromUTF8?_eq_some.mpr (rfl : utf8 s = utf8 s)
  rw [h, fromUTF8?_eq_some.mpr rfl] at hs
  exact (Option.some.inj hs).symm

/-- A set of streams within the digest's domain that it keeps apart. -/
structure Apart (blake3 : Digest) (D : Set (List UInt8)) : Prop where
  inj : Set.InjOn blake3 D
  short : ∀ x ∈ D, x.length < 2 ^ 64

theorem digests_length (blake3 : Digest) (w : α → Hasher → Hasher) (items : List α) :
    ∀ x ∈ items.map fun a => ((w a new).finish blake3).bytes, x.length = 32 := by
  intro x hx
  obtain ⟨a, _, rfl⟩ := List.mem_map.mp hx
  exact Fingerprint.length_bytes _

namespace Codes

variable {P Q : α → Prop} {w v : α → Hasher → Hasher} {R S : α → α → Prop}

/-- A write of one tag with a payload. -/
theorem update {t : UInt8} {e : α → List UInt8} (h : Reads (2 ^ 64) P e R) (hs : ∀ a b, R a b → e a = e b) :
    Codes P (fun a g => g.update t (e a)) R where
  append a g := by simp [Hasher.update, new]
  same a b g hr := by rw [hs a b hr]
  reads := h.tagged t

theorem str : Codes (fun _ => True) (fun s g => updateStr g s) (· = ·) := by
  refine update (Reads.counted 1 (fun s => (utf8 s).length) (by simp) (le_refl 1) ?_) ?_
  · intro a b _ _ he
    exact utf8_injective he
  · intro a b he
    rw [he]

theorem u64 : Codes (fun _ => True) (fun n g => updateU64 g n) (· = ·) := by
  refine update (Reads.fixed (w := 8) (by simp) ?_) ?_
  · intro a b he
    exact Fin.ext (bytes_injective (w := 8) a.isLt b.isLt he)
  · intro a b he
    rw [he]

theorem i64 : Codes (fun _ => True) (fun n g => updateI64 g n) (· = ·) := by
  refine update (Reads.fixed (w := 8) (by simp) ?_) ?_
  · intro a b he
    have hb : a.toBits = b.toBits := Fin.ext (bytes_injective (w := 8) a.toBits.isLt b.toBits.isLt he)
    rw [← I64.ofBits_toBits a, hb, I64.ofBits_toBits]
  · intro a b he
    rw [he]

theorem bool : Codes (fun _ => True) (fun b g => updateBool g b) (· = ·) := by
  refine update (Reads.fixed (w := 1) (by simp) ?_) ?_
  · intro a b he
    cases a <;> cases b <;> grind
  · intro a b he
    rw [he]

theorem fingerprint : Codes (fun _ => True) (fun f g => updateFingerprint g f) (· = ·) := by
  refine update (Reads.fixed (w := 32) Fingerprint.length_bytes ?_) ?_
  · intro a b he
    cases a
    cases b
    simpa using he
  · intro a b he
    rw [he]

theorem duration : Codes (fun _ => True) (fun d g => updateDuration g d) (· = ·) := by
  refine update (Reads.fixed (w := 16) (by simp) ?_) ?_
  · intro a b he
    have ha : a.val < 256 ^ 16 := by have := a.isLt; omega
    have hb : b.val < 256 ^ 16 := by have := b.isLt; omega
    exact Fin.ext (bytes_injective ha hb he)
  · intro a b he
    rw [he]

theorem on (g : β → α) (h : Codes P w R) :
    Codes (fun b => P (g b)) (fun b => w (g b)) (fun b c => R (g b) (g c)) where
  append b := h.append (g b)
  same b c := h.same (g b) (g c)
  reads := h.reads.on g

/-- A second write, read knowing what the first one said. -/
theorem andThen (h : Codes P w R) (happ : ∀ a g, (v a g).written = g.written ++ (v a new).written)
    (hsame : ∀ a b g, R a b → S a b → v a g = v b g)
    (h' : ∀ a b r r', P a → P b → R a b → (v a new).written ++ r = (v b new).written ++ r' →
      ((v a new).written ++ r).length < 2 ^ 64 → S a b ∧ r = r') :
    Codes P (fun a g => v a (w a g)) (fun a b => R a b ∧ S a b) where
  append a g := by rw [happ a (w a g), h.append a g, happ a (w a new), List.append_assoc]
  same a b g hr := by rw [h.same a b g hr.1, hsame a b _ hr.1 hr.2]
  reads := by
    have he : (fun a => (v a (w a new)).written) = fun a => (w a new).written ++ (v a new).written := by
      funext a
      rw [happ a (w a new)]
    rw [he]
    exact h.reads.andThen h'

/-- One write after another. -/
theorem seq (h : Codes P w R) (h' : Codes Q v S) :
    Codes (fun a => P a ∧ Q a) (fun a g => v a (w a g)) (fun a b => R a b ∧ S a b) where
  append a g := by rw [h'.append a (w a g), h.append a g, h'.append a (w a new), List.append_assoc]
  same a b g hr := by rw [h.same a b g hr.1, h'.same a b _ hr.2]
  reads := by
    have he : (fun a => (v a (w a new)).written) = fun a => (w a new).written ++ (v a new).written := by
      funext a
      rw [h'.append a (w a new)]
    rw [he]
    exact h.reads.append h'.reads

theorem imp (h : Codes P w R) (hP : ∀ a, Q a → P a) (hR : ∀ a b, Q a → Q b → R a b → S a b)
    (hS : ∀ a b, S a b → R a b) : Codes Q w S where
  append := h.append
  same a b g hs := h.same a b g (hS a b hs)
  reads := h.reads.imp hP hR

/-- An optional part that never starts with the mark of absence. -/
theorem option (h : Codes P w R) (ht : ∀ a, ∃ t, (w a new).written.head? = some t ∧ t ≠ 7) :
    Codes (fun o : Option α => ∀ a ∈ o, P a) (fun o g => updateOption w g o) (Option.Rel R) where
  append o g := by
    cases o with
    | none => simp [updateOption, updateNone, Hasher.update, new]
    | some a => exact h.append a g
  same o o' g hr := by
    cases hr with
    | none => rfl
    | some hr => exact h.same _ _ g hr
  reads := by
    have he : (fun o : Option α => (updateOption w new o).written) =
        fun o => o.elim [7] fun a => (w a new).written := by
      funext o
      cases o <;> rfl
    rw [he]
    exact h.reads.option ht

/-- An optional part with no mark of absence, told apart by how what follows it starts. -/
theorem optionalBefore {Q : β → Prop} {v : β → Hasher → Hasher} {S : β → β → Prop} {t : UInt8} (h : Codes P w R)
    (h' : Codes Q v S) (ht : ∀ a, (w a new).written.head? = some t)
    (hv : ∀ b, ∃ t', (v b new).written.head? = some t' ∧ t' ≠ t) :
    Codes (fun x : Option α × β => (∀ a ∈ x.1, P a) ∧ Q x.2) (fun x g => v x.2 (x.1.elim g fun a => w a g))
      (fun x y => Option.Rel R x.1 y.1 ∧ S x.2 y.2) where
  append x g := by
    obtain ⟨o, b⟩ := x
    cases o with
    | none => exact h'.append b g
    | some a =>
      change (v b (w a g)).written = g.written ++ (v b (w a new)).written
      rw [h'.append b (w a g), h'.append b (w a new), h.append a g, List.append_assoc]
  same x y g hr := by
    obtain ⟨o, b⟩ := x
    obtain ⟨o', b'⟩ := y
    obtain ⟨ho, hb⟩ := hr
    cases ho with
    | none => exact h'.same _ _ g hb
    | some ha =>
      change v b (w _ g) = v b' (w _ g)
      rw [h.same _ _ g ha]
      exact h'.same _ _ _ hb
  reads := by
    have hstart : ∀ (a : α) (b : β) (l l' r : List UInt8), (w a new).written ++ l ++ r ≠ (v b new).written ++ l' := by
      intro a b l l' r he
      obtain ⟨t', hb, hne⟩ := hv b
      have ha := ht a
      obtain ⟨x, hx⟩ := List.exists_cons_of_ne_nil (List.ne_nil_of_mem (List.mem_of_mem_head? ha))
      obtain ⟨y, hy⟩ := List.exists_cons_of_ne_nil (List.ne_nil_of_mem (List.mem_of_mem_head? hb))
      obtain ⟨x', hx⟩ := hx
      obtain ⟨y', hy⟩ := hy
      rw [hx] at ha he
      rw [hy] at hb he
      simp only [List.head?_cons, Option.some.injEq] at ha hb
      simp only [List.cons_append, List.cons.injEq] at he
      exact hne (by rw [← hb, ← ha, he.1])
    intro x y r r' hx hy he hl
    obtain ⟨o, b⟩ := x
    obtain ⟨o', b'⟩ := y
    obtain ⟨hPx, hQx⟩ := hx
    obtain ⟨hPy, hQy⟩ := hy
    cases o with
    | none =>
      cases o' with
      | none =>
        obtain ⟨hs, hr⟩ := h'.reads b b' r r' hQx hQy he hl
        exact ⟨⟨.none, hs⟩, hr⟩
      | some a' =>
        change (v b new).written ++ r = (v b' (w a' new)).written ++ r' at he
        rw [h'.append b' (w a' new)] at he
        exact absurd he.symm (hstart a' b _ r r')
    | some a =>
      cases o' with
      | none =>
        change (v b (w a new)).written ++ r = (v b' new).written ++ r' at he
        rw [h'.append b (w a new)] at he
        exact absurd he (hstart a b' _ r' r)
      | some a' =>
        change (v b (w a new)).written ++ r = (v b' (w a' new)).written ++ r' at he
        change ((v b (w a new)).written ++ r).length < _ at hl
        rw [h'.append b (w a new), List.append_assoc] at he hl
        rw [h'.append b' (w a' new), List.append_assoc] at he
        obtain ⟨hr, he⟩ := h.reads a a' _ _ (hPx a rfl) (hPy a' rfl) he hl
        rw [List.length_append] at hl
        obtain ⟨hs, he⟩ := h'.reads b b' r r' hQx hQy he (lt_of_le_of_lt (Nat.le_add_left _ _) hl)
        exact ⟨⟨.some hr, hs⟩, he⟩

theorem ends (h : Codes P w R) : Ends P w R where
  append := h.append
  same := h.same
  whole a b ha hb he hl := (h.reads a b [] [] ha hb (by simpa using he) (by simpa using hl)).1

end Codes

namespace Ends

variable {P Q : α → Prop} {w v : α → Hasher → Hasher} {R S : α → α → Prop}

/-- A whole stream whose digest another one shares. -/
theorem read_digest {blake3 : Digest} {D : Set (List UInt8)} (hd : Apart blake3 D) (h : Ends P w R) {a b : α}
    (ha : P a ∧ (w a new).written ∈ D) (hb : P b ∧ (w b new).written ∈ D)
    (he : ((w a new).finish blake3).bytes = ((w b new).finish blake3).bytes) : R a b := by
  have hf : (w a new).finish blake3 = (w b new).finish blake3 := by
    cases hx : (w a new).finish blake3
    cases hy : (w b new).finish blake3
    simpa [hx, hy] using he
  have hw := hd.inj ha.2 hb.2 hf
  exact h.whole a b ha.1 hb.1 hw (hd.short _ ha.2)

theorem imp (h : Ends P w R) (hP : ∀ a, Q a → P a) (hR : ∀ a b, Q a → Q b → R a b → S a b)
    (hS : ∀ a b, S a b → R a b) : Ends Q w S where
  append := h.append
  same a b g hs := h.same a b g (hS a b hs)
  whole a b ha hb he hl := hR a b ha hb (h.whole a b (hP a ha) (hP b hb) he hl)

theorem on (g : β → α) (h : Ends P w R) :
    Ends (fun b => P (g b)) (fun b => w (g b)) (fun b c => R (g b) (g c)) where
  append b := h.append (g b)
  same b c := h.same (g b) (g c)
  whole b c := h.whole (g b) (g c)

/-- What ends the stream, behind writes that can be read back. -/
theorem after (h : Codes P w R) (happ : ∀ a g, (v a g).written = g.written ++ (v a new).written)
    (hsame : ∀ a b g, R a b → S a b → v a g = v b g)
    (h' : ∀ a b, P a → P b → R a b → (v a new).written = (v b new).written →
      (v a new).written.length < 2 ^ 64 → S a b) :
    Ends P (fun a g => v a (w a g)) (fun a b => R a b ∧ S a b) where
  append a g := by rw [happ a (w a g), h.append a g, happ a (w a new), List.append_assoc]
  same a b g hr := by rw [h.same a b g hr.1, hsame a b _ hr.1 hr.2]
  whole a b ha hb he hl := by
    rw [happ a (w a new), happ b (w b new)] at he
    rw [happ a (w a new)] at hl
    obtain ⟨hr, he⟩ := h.reads a b _ _ ha hb he hl
    refine ⟨hr, h' a b ha hb hr he ?_⟩
    rw [List.length_append] at hl
    omega

theorem seq (h : Codes P w R) (h' : Ends Q v S) :
    Ends (fun a => P a ∧ Q a) (fun a g => v a (w a g)) (fun a b => R a b ∧ S a b) := by
  have hp : Codes (fun a => P a ∧ Q a) w R := h.imp (fun _ => And.left) (fun _ _ _ _ hr => hr) fun _ _ hr => hr
  refine after hp h'.append (fun a b g _ hs => h'.same a b g hs) ?_
  intro a b ha hb _ he hl
  exact h'.whole a b ha.2 hb.2 he hl

end Ends

namespace Codes

variable {P : α → Prop} {w : α → Hasher → Hasher} {R : α → α → Prop}

/-- A list of writes behind their number. -/
theorem many (h : Codes P w R) (ht : ∀ a, (w a new).written ≠ []) :
    Codes (fun items : List α => ∀ a ∈ items, P a)
      (fun items g => items.foldl (fun g a => w a g) (g.updateU64 (Fin.ofNat _ items.length))) (List.Forall₂ R) := by
  have hfold : ∀ (items : List α) g, (items.foldl (fun g a => w a g) g).written =
      g.written ++ (items.foldl (fun g a => w a g) new).written := by
    intro items
    induction items with
    | nil => intro g; simp [new]
    | cons a items ih =>
      intro g
      rw [List.foldl_cons, List.foldl_cons, ih (w a g), ih (w a new), h.append a g, List.append_assoc]
  have hlen : ∀ items : List α, items.length ≤ (items.foldl (fun g a => w a g) new).written.length := by
    intro items
    induction items with
    | nil => simp
    | cons a items ih =>
      have hpos := List.length_pos_iff.mpr (ht a)
      rw [List.foldl_cons, hfold items (w a new), List.length_append, List.length_cons]
      omega
  have hsame : ∀ (items items' : List α) g, List.Forall₂ R items items' →
      items.foldl (fun g a => w a g) g = items'.foldl (fun g a => w a g) g := by
    intro items items' g hr
    induction hr generalizing g with
    | nil => rfl
    | cons hab _ ih => rw [List.foldl_cons, List.foldl_cons, h.same _ _ g hab, ih]
  have hread : ∀ (items items' : List α) r r', (∀ a ∈ items, P a) → (∀ a ∈ items', P a) →
      items.length = items'.length → (items.foldl (fun g a => w a g) new).written ++ r =
        (items'.foldl (fun g a => w a g) new).written ++ r' →
      ((items.foldl (fun g a => w a g) new).written ++ r).length < 2 ^ 64 →
      List.Forall₂ R items items' ∧ r = r' := by
    intro items
    induction items with
    | nil =>
      intro items' r r' _ _ hl he _
      obtain rfl := List.length_eq_zero_iff.mp hl.symm
      exact ⟨.nil, by simpa using he⟩
    | cons a items ih =>
      intro items' r r' hp hp' hl he hb
      match items', hl with
      | b :: items', hl =>
        rw [List.foldl_cons, List.foldl_cons, hfold items (w a new), hfold items' (w b new), List.append_assoc,
          List.append_assoc] at he
        rw [List.foldl_cons, hfold items (w a new), List.append_assoc] at hb
        obtain ⟨hab, he⟩ := h.reads a b _ _ (hp a List.mem_cons_self) (hp' b List.mem_cons_self) he hb
        have hb' : ((items.foldl (fun g a => w a g) new).written ++ r).length < 2 ^ 64 := by
          rw [List.length_append] at hb
          omega
        obtain ⟨hf, hr⟩ := ih items' r r' (fun x hx => hp x (List.mem_cons_of_mem a hx))
          (fun x hx => hp' x (List.mem_cons_of_mem b hx)) (by simpa using hl) he hb'
        exact ⟨.cons hab hf, hr⟩
  refine ⟨?_, ?_, ?_⟩
  · intro items g
    rw [hfold, hfold items (updateU64 new _), (u64.append _ g), List.append_assoc]
  · intro items items' g hr
    rw [hr.length_eq]
    exact hsame items items' _ hr
  · intro items items' r r' hp hp' he hl
    dsimp only at he hl
    have hl' := he ▸ hl
    rw [hfold items, hfold items', List.append_assoc, List.append_assoc] at he
    rw [hfold items, List.append_assoc] at hl
    rw [hfold items', List.append_assoc] at hl'
    obtain ⟨hn, he⟩ := u64.reads _ _ _ _ trivial trivial he hl
    have h₁ := hlen items
    have h₂ := hlen items'
    simp only [List.length_append] at hl hl'
    refine hread items items' r r' hp hp' ?_ he (by rw [List.length_append]; omega)
    have hv := congrArg Fin.val hn
    simp only [Fin.val_ofNat] at hv
    rw [Nat.mod_eq_of_lt (by omega), Nat.mod_eq_of_lt (by omega)] at hv
    exact hv

/-- Digests in their order: the items agree one by one. -/
theorem ordered {blake3 : Digest} {D : Set (List UInt8)} (hd : Apart blake3 D) (h : Ends P w R) :
    Codes (fun items : List α => ∀ a ∈ items, P a ∧ (w a new).written ∈ D)
      (fun items g => updateOrdered blake3 items w g) (List.Forall₂ R) := by
  have hflat : ∀ items : List α, (items.flatMap fun a => ((w a new).finish blake3).bytes) =
      (items.map fun a => ((w a new).finish blake3).bytes).flatten := fun items => List.flatMap_def ..
  have hmap : ∀ items items' : List α, List.Forall₂ R items items' →
      (items.map fun a => ((w a new).finish blake3).bytes) =
        items'.map fun a => ((w a new).finish blake3).bytes := by
    intro items items' hr
    induction hr with
    | nil => rfl
    | cons hab _ ih => rw [List.map_cons, List.map_cons, h.same _ _ new hab, ih]
  refine update (Reads.counted 32 List.length ?_ (by decide) ?_) ?_
  · intro items
    rw [hflat, PrefixCode.length_flatten (digests_length blake3 w items), List.length_map]
  · intro items items' hi hi' he
    rw [hflat, hflat] at he
    have he := PrefixCode.flatten_inj (by decide) (digests_length blake3 w items) (digests_length blake3 w items') he
    have hf := List.forall₂_eq_eq_eq.symm ▸ he
    rw [List.forall₂_map_left_iff, List.forall₂_map_right_iff] at hf
    refine forall₂_imp_mem hf ?_
    intro a ha b hb hab
    exact h.read_digest hd (hi a ha) (hi' b hb) hab
  · intro items items' hr
    have hl := hr.length_eq
    rw [hflat, hflat, hmap items items' hr, hl]

/-- Digests in sorted order: the items agree up to order. -/
theorem unordered {blake3 : Digest} {D : Set (List UInt8)} (hd : Apart blake3 D) (h : Ends P w R) :
    Codes (fun items : List α => ∀ a ∈ items, P a ∧ (w a new).written ∈ D)
      (fun items g => updateUnordered blake3 items w g) (Shuffled R) := by
  have hsame : ∀ (items items' : List α) g, Shuffled R items items' →
      updateUnordered blake3 items w g = updateUnordered blake3 items' w g := by
    intro items items' g hr
    exact updateUnordered_congr (hr.map_perm fun a b hab => h.same a b new hab) g
  refine ⟨?_, hsame, ?_⟩
  · intro items g
    simp [updateUnordered, Hasher.update, new]
  · let digests : List α → List (List UInt8) := fun items =>
      sortBy compare (items.map fun a => ((w a new).finish blake3).bytes)
    have hlen : ∀ items, ∀ x ∈ digests items, x.length = 32 := by
      intro items x hx
      exact digests_length blake3 w items x (CanonicalSort.mem_sortBy.mp hx)
    refine (Reads.counted (e := fun items => (digests items).flatten) 32 (fun items => (digests items).length)
      ?_ (by decide) ?_).tagged 9
    · intro items
      exact PrefixCode.length_flatten (hlen items)
    · intro items items' hi hi' he
      have he := PrefixCode.flatten_inj (by decide) (hlen items) (hlen items') he
      have hp : (items.map fun a => ((w a new).finish blake3).bytes).Perm
          (items'.map fun a => ((w a new).finish blake3).bytes) :=
        (CanonicalSort.sortBy_perm compare _).symm.trans
          ((List.Perm.of_eq he).trans (CanonicalSort.sortBy_perm compare _))
      refine (Shuffled.of_map_perm hp).imp_mem ?_
      intro a ha b hb hab
      exact h.read_digest hd (hi a ha) (hi' b hb) hab

end Codes

end Gatel.Hasher
